import Mathlib.Data.List.Find
import Polargraph.Proofs.Query.Rules
import Polargraph.Proofs.Storage.Recorded

/-! A transaction's own writes over a snapshot, against the store after they are committed. -/

namespace Polargraph

/-- A triple as answers compare it: subject, predicate, and the object slot that a value has too. -/
abbrev TripleKey := NodeId × String × NodeId

section External

variable (ext : External)

/-- The subject, the predicate and the object slot of a triple. -/
def Triple.key : Triple → TripleKey
  | .relation subject predicate object _ _ => (subject, predicate, object)
  | .property subject predicate value _ => (subject, predicate, valueObject ext value)
  | .edgeProperty edge predicate value _ => (⟨edge.uuid⟩, predicate, valueObject ext value)
  | .edgeRelation edge predicate object _ => (⟨edge.uuid⟩, predicate, object)

end External

namespace Triple

/-- Whether a triple is a property of a subject with a predicate. -/
def isPropertyOf (subject : NodeId) (predicate : String) : Triple → Bool
  | .property s p _ _ => decide (s = subject ∧ p = predicate)
  | _ => false

end Triple

namespace TripleStore

/-- The window of the last of some versions that is staged for a quad. -/
def stagedWindow (quads : List StagedQuad) (ids : QuadIds) : Option (Timestamp × Timestamp) :=
  ((quads.filter fun quad => decide (quad.key.toQuadIds = ids)).getLast?).bind fun quad =>
    validTime quad.value

/-- Staged versions leave a quad shown, in terms of what the latest snapshot shows before them. -/
def LeavesShown (store : TripleStore) (quads : List StagedQuad) (vt : Timestamp) (ids : QuadIds) :
    Prop :=
  match stagedWindow quads ids with
  | none => store.Shows store.committed vt ids
  | some (start, stop) => (store.WouldGovern vt ids start ∧ vt < stop) ∨
      (¬ store.WouldGovern vt ids start ∧ store.Shows store.committed vt ids)

/-- A transaction is open on an intact store and is committed to it. -/
structure Commits (ext : External) (store : TripleStore) (tx : Transaction) (wall : Timestamp)
    (after : TripleStore) : Prop where
  /-- The store is intact. -/
  intact : store.Intact ext
  /-- Predicate identifiers are handed out in order. -/
  numbered : store.Numbered
  /-- Every known name is spelled by its identifier. -/
  spelled : store.Spelled
  /-- The counter has not run out. -/
  room : store.committed ≠ Timestamp.END_OF_TIME
  /-- Nor have the predicate identifiers. -/
  names : store.nextPredId.toNat + tx.writes.length < 2 ^ 32
  /-- The values of the writes read back. -/
  stable : ∀ w ∈ tx.writes, w.Stable ext
  /-- The writes are relations and properties. -/
  quads : ∀ w ∈ tx.writes, TripleStore.ofQuad w = true
  /-- The commit succeeds. -/
  done : ∃ time, store.commit ext tx wall = (after, .ok time)

end TripleStore

namespace Snapshot

variable (ext : External)

/-- A snapshot evaluates to a triple. -/
def Has (snapshot : Snapshot) (key : TripleKey) : Prop :=
  ∃ triples, snapshot.evaluate ext ⟨some key.1, some key.2.1, some key.2.2⟩ = .ok triples ∧
    triples ≠ []

/-- A snapshot evaluates to a property of a subject with a predicate. -/
def HasProperty (snapshot : Snapshot) (subject : NodeId) (predicate : String) : Prop :=
  ∃ triples, snapshot.evaluate ext ⟨some subject, some predicate, none⟩ = .ok triples ∧
    triples.any (Triple.isPropertyOf subject predicate) = true

/-- Staged versions leave a triple shown in a graph that the reader sees. -/
def LeftShown (snapshot : Snapshot) (tx : Transaction) (wall : Timestamp) (key : TripleKey) :
    Prop :=
  ∃ p g, (snapshot.store.internAll tx.writes).predicateId key.2.1 = some p ∧
    snapshot.point.canRead g = true ∧
    snapshot.store.LeavesShown (snapshot.store.commitQuads ext tx wall) snapshot.vt
      ⟨key.1, p, key.2.2, g⟩

/-- The same snapshot of the store that a transaction leaves, at its latest commit. -/
def onto (snapshot : Snapshot) (after : TripleStore) : Snapshot :=
  { snapshot with store := after, point := { snapshot.point with ts := after.committed } }

/-- A pattern has the same triples over pending writes as after they are committed. -/
def OverlayAgrees (snapshot : Snapshot) (tx : Transaction) (after : TripleStore)
    (pattern : Pattern) : Prop :=
  ∃ overlaid evaluated,
    snapshot.evaluateWithOverlay ext (tx.writes.map PendingWrite.triple) none pattern =
      .ok overlaid ∧
    (snapshot.onto after).evaluate ext pattern = .ok evaluated ∧
    ∀ key, key ∈ overlaid.map (Triple.key ext) ↔ key ∈ evaluated.map (Triple.key ext)

/-- A pattern agrees with a triple, whose predicate is in stored form. -/
structure Asks (snapshot : Snapshot) (pattern : Pattern) (key : TripleKey) : Prop where
  /-- A bound subject is the triple's. -/
  subject : ∀ node, pattern.subject = some node → node = key.1
  /-- A bound predicate is stored as the triple's. -/
  predicate : ∀ name, pattern.predicate = some name → snapshot.store.canonicalName name = key.2.1
  /-- A bound object is the triple's. -/
  object : ∀ node, pattern.object = some node → node = key.2.2

/-- A pattern spells its predicate as it is stored, or asks for nothing pending that is not shown. -/
def Plainly (snapshot : Snapshot) (tx : Transaction) (pattern : Pattern) : Prop :=
  ∀ name, pattern.predicate = some name → snapshot.store.canonicalName name = name ∨
    ∀ w ∈ tx.writes, snapshot.Asks pattern (w.triple.key ext) → snapshot.Has ext (w.triple.key ext)

/-- Pending writes join what a snapshot shows without hiding anything. -/
structure Seamless (snapshot : Snapshot) (tx : Transaction) (wall : Timestamp) : Prop where
  /-- Pending predicates are spelled as they are stored. -/
  spelled : ∀ w ∈ tx.writes,
    snapshot.store.canonicalName w.triple.predicate = w.triple.predicate
  /-- A pending property has a value that is shown or related, or its predicate has no other. -/
  single : ∀ w ∈ tx.writes, ∀ subject predicate,
    w.triple.isPropertyOf subject predicate = true → snapshot.Has ext (w.triple.key ext) ∨
      (∃ other ∈ tx.writes, other.triple.isRelation = true ∧
        other.triple.key ext = w.triple.key ext) ∨
      (¬ snapshot.HasProperty ext subject predicate ∧ ∀ first,
        (tx.writes.map PendingWrite.triple).find? (Triple.isPropertyOf subject predicate) =
          some first → first.key ext = w.triple.key ext)
  /-- The commit leaves shown what is shown and what is pending, and nothing else. -/
  adds : ∀ key : TripleKey, snapshot.store.canonicalName key.2.1 = key.2.1 →
    (snapshot.LeftShown ext tx wall key ↔
      snapshot.Has ext key ∨ ∃ w ∈ tx.writes, w.triple.key ext = key)

end Snapshot

variable {ext : External}

variable (ext) in
/-- A relation is contained in results that have one with its key. -/
private theorem key_of_contains {results : List Triple} {triple : Triple}
    (relation : triple.isRelation = true) (contained : resultsContainKey results triple = true) :
    triple.key ext ∈ results.map (Triple.key ext) := by
  obtain ⟨held, member, same⟩ := List.any_eq_true.mp contained
  cases triple with
  | relation s p o edge window =>
    cases held with
    | relation s' p' o' edge' window' =>
      obtain ⟨rfl, rfl, rfl⟩ := of_decide_eq_true same
      exact List.mem_map.mpr ⟨_, member, rfl⟩
    | _ => cases same
  | _ => cases relation

/-- A property is contained in results that have one of its subject and predicate. -/
private theorem contains_property {results : List Triple} {triple : Triple} {s : NodeId} {p : String}
    (property : triple.isPropertyOf s p = true) :
    resultsContainKey results triple = results.any (Triple.isPropertyOf s p) := by
  cases triple with
  | property s' p' value window =>
    obtain ⟨rfl, rfl⟩ := of_decide_eq_true property
    refine congrArg results.any (funext fun held => ?_)
    cases held <;> rfl
  | _ => cases property

/-- A relation is no property. -/
private theorem not_property_of_relation {triple : Triple} (relation : triple.isRelation = true)
    (s : NodeId) (p : String) : triple.isPropertyOf s p = false := by
  cases triple with
  | relation => rfl
  | _ => cases relation

variable (ext) in
/-- A property is of its own subject and predicate only. -/
private theorem key_of_property {triple : Triple} {s : NodeId} {p : String}
    (property : triple.isPropertyOf s p = true) :
    triple.isRelation = false ∧ (triple.key ext).1 = s ∧ (triple.key ext).2.1 = p ∧
      ∀ s' p', triple.isPropertyOf s' p' = true ↔ s = s' ∧ p = p' := by
  cases triple with
  | property s' p' value window =>
    obtain ⟨rfl, rfl⟩ := of_decide_eq_true property
    exact ⟨rfl, rfl, rfl, fun _ _ => decide_eq_true_iff⟩
  | _ => cases property

/-- Pending relations are overlaid, and of the pending properties of a predicate the first, if new. -/
theorem mem_overlay {pattern : Pattern} (pending : List Triple)
    (plain : ∀ triple ∈ pending, triple.isRelation = true ∨
      ∃ s p, triple.isPropertyOf s p = true) (results : List Triple) (key : TripleKey) :
    key ∈ (pending.foldl (fun results triple =>
        if tripleMatchesPattern ext triple pattern && !resultsContainKey results triple then
          results ++ [triple]
        else results) results).map (Triple.key ext) ↔
      key ∈ results.map (Triple.key ext) ∨
      (∃ triple ∈ pending, tripleMatchesPattern ext triple pattern = true ∧
        triple.isRelation = true ∧ triple.key ext = key) ∨
      (results.any (Triple.isPropertyOf key.1 key.2.1) = false ∧ ∃ triple,
        pending.find? (fun triple => tripleMatchesPattern ext triple pattern &&
          triple.isPropertyOf key.1 key.2.1) = some triple ∧ triple.key ext = key) := by
  induction pending generalizing results with
  | nil => simp
  | cons triple rest ih =>
    have rest_ := fun results => ih (fun other member => plain other (List.mem_cons_of_mem _ member))
      results
    rw [List.foldl_cons, rest_]
    by_cases matched : tripleMatchesPattern ext triple pattern = true
    · rcases plain triple List.mem_cons_self with relation | ⟨s, p, property⟩
      · -- A relation is appended unless one like it is there, and hides no property.
        have none := not_property_of_relation relation key.1 key.2.1
        by_cases contained : resultsContainKey results triple = true
        · have there := key_of_contains ext relation contained
          rw [contained, if_neg (by simp)]
          simp only [List.mem_cons, exists_eq_or_imp, matched, relation, none, true_and, Bool.and_false,
            List.find?_cons, or_assoc]
          constructor
          · exact Or.imp_right Or.inr
          · rintro (old | rfl | others)
            · exact Or.inl old
            · exact Or.inl there
            · exact Or.inr others
        · rw [Bool.not_eq_true _ |>.mp contained, matched, if_pos (by rfl)]
          simp only [List.map_append, List.mem_append, List.map_cons, List.map_nil,
            List.not_mem_nil, List.any_append, List.any_cons, List.any_nil, List.mem_cons,
            exists_eq_or_imp, matched, relation, none, true_and, Bool.and_false, Bool.or_false,
            List.find?_cons, or_assoc, false_or]
          exact or_congr_right (or_congr_left eq_comm)
      · -- A property is appended unless its subject and predicate have one.
        obtain ⟨apart, subject, predicate, own⟩ := key_of_property ext property
        have contained := @contains_property results triple s p property
        by_cases same : s = key.1 ∧ p = key.2.1
        · -- Of this subject and predicate it is the first, when there is none yet.
          obtain ⟨rfl, rfl⟩ := same
          cases there : results.any (Triple.isPropertyOf key.1 key.2.1) with
          | true =>
            rw [contained, there, if_neg (by simp)]
            simp [there, apart, matched]
          | false =>
            rw [contained, there, matched, if_pos (by rfl)]
            simp only [List.map_append, List.mem_append, List.map_cons, List.map_nil,
              List.not_mem_nil, List.any_append, List.any_cons, List.any_nil, List.mem_cons,
              exists_eq_or_imp, there, matched, apart, property, Bool.or_false, Bool.false_or,
              Bool.and_true, List.find?_cons, Option.some.injEq, exists_eq_left',
              true_and, false_and, false_or, or_false, Bool.true_eq_false, Bool.false_eq_true,
              or_assoc]
            constructor
            · rintro (old | here | others)
              · exact Or.inl old
              · exact Or.inr (Or.inr here.symm)
              · exact Or.inr (Or.inl others)
            · rintro (old | others | here)
              · exact Or.inl old
              · exact Or.inr (Or.inr others)
              · exact Or.inr (Or.inl here.symm)
        · -- Other subjects and predicates do not depend on it.
          have other : triple.isPropertyOf key.1 key.2.1 = false :=
            Bool.eq_false_iff.mpr fun here => same ((own _ _).mp here)
          have distinct : triple.key ext ≠ key := fun equal =>
            same ⟨by rw [← subject, equal], by rw [← predicate, equal]⟩
          split_ifs with appended
          · simp only [List.map_append, List.mem_append, List.map_cons, List.map_nil,
              List.not_mem_nil, List.any_append, List.any_cons, List.any_nil, List.mem_cons,
              exists_eq_or_imp, apart, other, Bool.or_false, Bool.and_false, Bool.false_eq_true,
              false_and, and_false, false_or, or_false, List.find?_cons, Ne.symm distinct]
          · simp only [List.mem_cons, exists_eq_or_imp, apart, other, Bool.and_false,
              Bool.false_eq_true, false_and, and_false, false_or, List.find?_cons]
    · -- A triple that does not match is passed over.
      have passed : (tripleMatchesPattern ext triple pattern && !resultsContainKey results triple) =
          false := by simp [matched]
      rw [passed]
      simp [matched]

namespace TripleStore

variable {store after : TripleStore} {tx : Transaction} {wall : Timestamp}

/-- A name has the identifier of another exactly when it is stored as that one. -/
theorem predicateId_iff (named : store.Named) (spelled : store.Spelled) {p : PredId}
    {text : String} (known : store.rev p = some text) (name : String) :
    store.predicateId name = some p ↔ store.canonicalName name = text := by
  -- A stored name is its own stored form.
  have own := named p text known
  rw [predicateId_eq] at own
  have stored : store.canonicalName text = text :=
    Option.some.inj ((spelled _ _ own).symm.trans known)
  rw [stored] at own
  rw [predicateId_eq]
  constructor
  · intro found
    exact Option.some.inj ((spelled _ _ found).symm.trans known)
  · rintro rfl
    exact own

/-- A name in stored form spells its identifier. -/
theorem rev_iff (named : store.Named) (spelled : store.Spelled) {name : String}
    (stored : store.canonicalName name = name) (p : PredId) :
    store.rev p = some name ↔ store.predicateId name = some p := by
  refine ⟨named p name, fun found => ?_⟩
  rw [predicateId_eq, stored] at found
  exact spelled name p found

/-- A commit keeps the form in which names are stored. -/
theorem canonicalName_of_commit {time : Timestamp}
    (done : store.commit ext tx wall = (after, .ok time)) :
    after.canonicalName = store.canonicalName := by
  have interned : ∀ (writes : List PendingWrite) (store : TripleStore),
      (store.internAll writes).canonicalName = store.canonicalName := by
    intro writes
    induction writes with
    | nil => exact fun store => rfl
    | cons w rest ih =>
      intro store
      refine (ih _).trans ?_
      unfold internPredicate
      dsimp only
      split <;> rfl
  rcases commit_ok done with ⟨_, _, rfl, _⟩ | ⟨_, _, middle, staging, batch, staged, _, rfl, _⟩
  · rfl
  · have names := interned tx.writes (store.beginCommit wall).1
    rw [← stageWrites_internAll staged] at names
    exact names

/-- A commit that writes versions writes them after everything before. -/
theorem committed_lt_of_mem (room : store.committed ≠ Timestamp.END_OF_TIME) {quad : StagedQuad}
    (member : quad ∈ store.commitQuads ext tx wall) :
    store.committed < (store.commit ext tx wall).1.committed := by
  have later : store.committed < store.nextCommitTs wall :=
    lt_of_lt_of_le (Timestamp.lt_wrap_succ room) (le_max_left _ _)
  revert member
  refine commit_rule ext store tx wall (fun _ member => ?_) (fun _ _ => later) fun _ _ => ?_
  · cases member
  · rw [committed_flush]
    exact later

/-- What the latest snapshot shows after a commit is what the staged versions leave shown. -/
theorem shows_iff_leavesShown (sound : store.Sound ext) (room : store.committed ≠ Timestamp.END_OF_TIME)
    {time : Timestamp} (done : store.commit ext tx wall = (after, .ok time)) (vt : Timestamp)
    (ids : QuadIds) : after.Shows after.committed vt ids ↔
      store.LeavesShown (store.commitQuads ext tx wall) vt ids := by
  have counted : store.Counted := ⟨sound.recorded, room⟩
  obtain ⟨advanced, stamped⟩ := @committed_commit ext store room tx wall
  have index := @index_commit ext store sound.keyed.holds tx wall
  rw [done] at advanced stamped index
  dsimp only at advanced stamped index
  have others : ∀ tt, tt ≠ after.committed →
      after.index.history ids tt = store.index.history ids tt := by
    intro tt apart
    simp only [Index.history, index]
    rw [Index.putAll_of_forall_ne _ fun quad member same => ?_]
    exact apart (by rw [← stamped quad member, same])
  -- The versions staged of the quad are those of its key at the time of the commit.
  have own : (store.commitQuads ext tx wall).filter (fun quad => decide (quad.key.toQuadIds = ids)) =
      (store.commitQuads ext tx wall).filter
        (fun quad => decide (quad.key = ⟨ids, after.committed⟩)) := by
    refine List.filter_congr fun quad member => ?_
    have tt := stamped quad member
    obtain ⟨⟨quadIds, quadTt⟩, value⟩ := quad
    simp only at tt
    subst tt
    simp
  have here : after.index.history ids after.committed =
      ((((store.commitQuads ext tx wall).filter
        (fun quad => decide (quad.key.toQuadIds = ids))).getLast?.map StagedQuad.value).or
        (store.index ⟨ids, after.committed⟩)).bind fun bytes =>
          (validTime bytes).map fun window => ⟨window.1, window.2, bytes⟩ := by
    simp only [Index.history, index, Index.putAll_apply, own]
    cases ((store.commitQuads ext tx wall).filter
      (fun quad => decide (quad.key = ⟨ids, after.committed⟩))).getLast? <;> rfl
  -- A quad whose history is not touched is shown as before.
  have untouched : after.index.history ids after.committed =
      store.index.history ids after.committed →
      (after.Shows after.committed vt ids ↔ store.Shows store.committed vt ids) := fun same => by
    refine shows_of_kept counted advanced (funext fun tt => ?_) vt
    by_cases now : tt = after.committed
    · rw [now]
      exact same
    · exact others tt now
  unfold LeavesShown stagedWindow
  cases last : ((store.commitQuads ext tx wall).filter
      (fun quad => decide (quad.key.toQuadIds = ids))).getLast? with
  | none =>
    rw [last] at here
    exact untouched here
  | some quad =>
    rw [last] at here
    have member := (List.mem_filter.mp (List.mem_of_getLast? last)).1
    have later := @committed_lt_of_mem ext store tx wall room quad member
    rw [done] at later
    -- Nothing was recorded at the time of the commit before it.
    have absent : store.index.history ids after.committed = none := by
      cases held : store.index.history ids after.committed with
      | none => rfl
      | some version =>
        have early := sound.recorded _ _ (Index.history_eq_some.mp held).1
        exact absurd later (not_lt.mpr early)
    simp only [Option.map_some, Option.some_or, Option.bind_some] at here
    rw [Option.bind_some]
    cases window : validTime quad.value with
    | none =>
      rw [window] at here
      exact untouched (here.trans absent.symm)
    | some window_ =>
      rw [window] at here
      have record : after.index.history ids = (store.index.history ids).put after.committed
          ⟨window_.1, window_.2, quad.value⟩ := by
        refine funext fun tt => ?_
        by_cases now : tt = after.committed
        · rw [now, History.put_self]
          exact here
        · rw [History.put_of_ne now]
          exact others tt now
      exact shows_of_put counted later (le_refl _) record vt

end TripleStore

namespace Snapshot

variable {snapshot : Snapshot} {store after : TripleStore} {tx : Transaction} {wall : Timestamp}

/-- A snapshot shows a triple in a graph that its reader sees. -/
def Shown (snapshot : Snapshot) (key : TripleKey) : Prop :=
  ∃ p g, snapshot.store.rev p = some key.2.1 ∧ snapshot.point.canRead g = true ∧
    snapshot.store.Shows snapshot.point.ts snapshot.vt ⟨key.1, p, key.2.2, g⟩

/-- The key of a triple that was read is made of the slots of its quad. -/
theorem key_of_read (keyed : snapshot.store.Keyed ext) {ts vt : Timestamp} {ids : QuadIds}
    {triple : Triple} (read : snapshot.store.ReadFrom ext ts vt ids triple) :
    snapshot.store.rev ids.p = some triple.predicate ∧
      triple.key ext = (ids.s, triple.predicate, ids.o) := by
  obtain ⟨tt, version, governs, _, _, rebuilt⟩ := read
  have stored := (Index.history_eq_some.mp governs.seen.stored).1
  obtain ⟨name, ⟨edge, window, said⟩ | ⟨value, window, said, own⟩⟩ :=
    TripleStore.triple_of_reconstruct (keyed.values _ _ stored) keyed.blobs rebuilt
  · refine ⟨name, ?_⟩
    rw [said]
    rfl
  · refine ⟨name, ?_⟩
    rw [said, ← own]
    rfl

/-- A pattern evaluates to the triples it asks for that are shown. -/
theorem mem_keys_evaluate (intact : snapshot.store.Intact ext) (spelled : snapshot.store.Spelled)
    {pattern : Pattern} {triples : List Triple}
    (done : snapshot.evaluate ext pattern = .ok triples) (key : TripleKey) :
    key ∈ triples.map (Triple.key ext) ↔ snapshot.Asks pattern key ∧ snapshot.Shown key := by
  have named := intact.sound.keyed.named
  constructor
  · intro member
    obtain ⟨triple, inside, rfl⟩ := List.mem_map.mp member
    obtain ⟨ids, answers, shows, read⟩ := exists_of_evaluate intact done inside
    obtain ⟨name, said⟩ := key_of_read intact.sound.keyed read
    rw [said]
    refine ⟨⟨fun node bound => (answers.wanted.subject node bound).symm, fun text bound => ?_,
      fun node bound => (answers.wanted.object node bound).symm⟩,
      ids.p, ids.g, name, answers.wanted.readable, shows⟩
    exact (TripleStore.predicateId_iff named spelled name text).mp
      (answers.wanted.predicate text bound)
  · rintro ⟨asks, p, g, name, readable, shows⟩
    have wanted : snapshot.store.Wanted pattern.subject pattern.predicate pattern.object .union
        snapshot.point ⟨key.1, p, key.2.2, g⟩ :=
      ⟨fun node bound => (asks.subject node bound).symm, fun text bound =>
        (TripleStore.predicateId_iff named spelled name text).mpr (asks.predicate text bound),
        fun node bound => (asks.object node bound).symm, rfl, readable⟩
    -- The lowest graph that shows the triple answers for it.
    obtain ⟨low, answers, here⟩ := exists_answers wanted shows
    obtain ⟨quads, evaluated, result⟩ := snapshot.evaluate_spec intact pattern
    cases done.symm.trans evaluated
    obtain ⟨quad, inside, same⟩ := List.mem_map.mp ((result.mem_iff _).mpr ⟨answers, here⟩)
    obtain ⟨own, said⟩ := key_of_read intact.sound.keyed (result.read quad inside)
    refine List.mem_map.mpr ⟨quad.2, List.mem_map.mpr ⟨quad, inside, rfl⟩, ?_⟩
    rw [same] at own said
    rw [said, ← Option.some.inj (name.symm.trans own)]

/-- A snapshot has the triples it shows. -/
theorem has_iff (intact : snapshot.store.Intact ext) (spelled : snapshot.store.Spelled)
    {key : TripleKey} (stored : snapshot.store.canonicalName key.2.1 = key.2.1) :
    snapshot.Has ext key ↔ snapshot.Shown key := by
  obtain ⟨triples, done⟩ := exists_evaluate intact ⟨some key.1, some key.2.1, some key.2.2⟩
  have members := mem_keys_evaluate intact spelled done
  have asks : ∀ other, snapshot.Asks ⟨some key.1, some key.2.1, some key.2.2⟩ other ↔ other = key := by
    intro other
    constructor
    · rintro ⟨subject, predicate, object⟩
      have p := predicate _ rfl
      rw [stored] at p
      exact Prod.ext (subject _ rfl).symm (Prod.ext p.symm (object _ rfl).symm)
    · rintro rfl
      exact ⟨fun _ same => (Option.some.inj same).symm,
        fun _ same => by rw [← Option.some.inj same]; exact stored,
        fun _ same => (Option.some.inj same).symm⟩
  constructor
  · rintro ⟨items, again, some_⟩
    cases done.symm.trans again
    obtain ⟨triple, inside⟩ := List.exists_mem_of_ne_nil _ some_
    obtain ⟨own, shown⟩ := (members _).mp (List.mem_map_of_mem inside)
    rwa [(asks _).mp own] at shown
  · intro shown
    refine ⟨triples, done, fun none => ?_⟩
    have member := (members key).mpr ⟨(asks key).mpr rfl, shown⟩
    rw [none] at member
    cases member

/-- A shown triple has its predicate in stored form. -/
theorem Shown.stored (named : snapshot.store.Named) (spelled : snapshot.store.Spelled)
    {key : TripleKey} (shown : snapshot.Shown key) :
    snapshot.store.canonicalName key.2.1 = key.2.1 := by
  obtain ⟨p, _, name, _⟩ := shown
  exact (TripleStore.predicateId_iff named spelled name _).mp (named p _ name)

variable (ext) in
/-- A pending triple of a quad matches a pattern by its subject, its spelling and its object slot. -/
theorem matches_iff {triple : Triple} (plain : triple.isRelation = true ∨
      ∃ s p, triple.isPropertyOf s p = true) (pattern : Pattern) :
    tripleMatchesPattern ext triple pattern = true ↔
      (∀ node, pattern.subject = some node → node = (triple.key ext).1) ∧
      (∀ name, pattern.predicate = some name → name = (triple.key ext).2.1) ∧
      ∀ node, pattern.object = some node → node = (triple.key ext).2.2 := by
  have slot : ∀ {α : Type} [DecidableEq α] (bound : Option α) (own : α),
      bound.all (fun given => decide (own = given)) = true ↔
        ∀ given, bound = some given → given = own := by
    intro α _ bound own
    cases bound <;> simp [eq_comm]
  have objects : ∀ {node : NodeId}, objectMatches ext node triple = true ↔
      node = (triple.key ext).2.2 := by
    intro node
    cases triple with
    | relation | property => simp [objectMatches, Triple.key, eq_comm]
    | _ => simp [Triple.isRelation, Triple.isPropertyOf] at plain
  have keys : triple.subject = (triple.key ext).1 ∧ triple.predicate = (triple.key ext).2.1 := by
    cases triple <;> exact ⟨rfl, rfl⟩
  rw [tripleMatchesPattern, Bool.and_eq_true, Bool.and_eq_true, slot, slot, keys.1, keys.2, and_assoc]
  refine and_congr_right fun _ => and_congr_right fun _ => ?_
  cases pattern.object with
  | none => simp
  | some node => simp [objects]

end Snapshot

/-- A committed transaction leaves an intact store that spells predicates as before. -/
theorem TripleStore.Commits.after_intact {store after : TripleStore} {tx : Transaction}
    {wall : Timestamp} (commits : store.Commits ext tx wall after) :
    after.Intact ext ∧ after.Spelled := by
  obtain ⟨time, done⟩ := commits.done
  have intact := commits.intact.commit commits.room commits.stable wall
  have spelled := @TripleStore.Spelled.commit ext store commits.spelled commits.numbered tx
    commits.names wall
  rw [done] at intact spelled
  exact ⟨intact, spelled⟩

/-- The writes of a committed transaction are relations and properties. -/
theorem TripleStore.Commits.plain {store after : TripleStore} {tx : Transaction}
    {wall : Timestamp} (commits : store.Commits ext tx wall after) :
    ∀ triple ∈ tx.writes.map PendingWrite.triple, triple.isRelation = true ∨
      ∃ s p, triple.isPropertyOf s p = true := by
  intro triple member
  obtain ⟨⟨triple, g, mode⟩, inside, rfl⟩ := List.mem_map.mp member
  have quad := commits.quads _ inside
  cases triple with
  | relation => exact Or.inl rfl
  | property s p value window => exact Or.inr ⟨s, p, decide_eq_true ⟨rfl, rfl⟩⟩
  | _ => cases quad

namespace Snapshot

variable {snapshot : Snapshot} {after : TripleStore} {tx : Transaction} {wall : Timestamp}

/-- After the commit the snapshot shows what the staged versions leave shown. -/
theorem shown_onto_iff (commits : snapshot.store.Commits ext tx wall after)
    {key : TripleKey} (stored : snapshot.store.canonicalName key.2.1 = key.2.1) :
    (snapshot.onto after).Shown key ↔ snapshot.LeftShown ext tx wall key := by
  obtain ⟨intact, spelled⟩ := commits.after_intact
  obtain ⟨time, done⟩ := commits.done
  have same := TripleStore.canonicalName_of_commit done
  have form : after.canonicalName key.2.1 = key.2.1 := by rw [same, stored]
  refine exists_congr fun p => exists_congr fun g => ?_
  rw [← TripleStore.predicateId_of_commit done, ← TripleStore.rev_iff intact.sound.keyed.named
    spelled form p, ← TripleStore.shows_iff_leavesShown commits.intact.sound commits.room done]
  rfl

/-- What a pattern has over pending writes. -/
theorem mem_keys_overlaid (commits : snapshot.store.Commits ext tx wall after) (pattern : Pattern) :
    ∃ results overlaid, snapshot.evaluate ext pattern = .ok results ∧
      snapshot.evaluateWithOverlay ext (tx.writes.map PendingWrite.triple) none pattern =
        .ok overlaid ∧
      ∀ key, key ∈ overlaid.map (Triple.key ext) ↔
        (snapshot.Asks pattern key ∧ snapshot.Shown key) ∨
        (∃ triple ∈ tx.writes.map PendingWrite.triple,
          tripleMatchesPattern ext triple pattern = true ∧ triple.isRelation = true ∧
            triple.key ext = key) ∨
        (results.any (Triple.isPropertyOf key.1 key.2.1) = false ∧ ∃ triple,
          (tx.writes.map PendingWrite.triple).find? (fun triple =>
            tripleMatchesPattern ext triple pattern && triple.isPropertyOf key.1 key.2.1) =
              some triple ∧ triple.key ext = key) := by
  obtain ⟨results, done⟩ := exists_evaluate commits.intact pattern
  refine ⟨results, _, done, Except.bind_eq_ok.mpr ⟨results, done, rfl⟩, fun key => ?_⟩
  rw [← mem_keys_evaluate commits.intact commits.spelled done]
  exact mem_overlay _ commits.plain results key

/-- A pattern agrees when its overlaid triples are those it asks for that are shown afterwards. -/
theorem overlayAgrees_iff_keys (commits : snapshot.store.Commits ext tx wall after)
    {pattern : Pattern} {overlaid : List Triple}
    (done : snapshot.evaluateWithOverlay ext (tx.writes.map PendingWrite.triple) none pattern =
      .ok overlaid) :
    snapshot.OverlayAgrees ext tx after pattern ↔ ∀ key, key ∈ overlaid.map (Triple.key ext) ↔
      snapshot.Asks pattern key ∧ (snapshot.onto after).Shown key := by
  obtain ⟨intact, spelled⟩ := commits.after_intact
  obtain ⟨time, committed⟩ := commits.done
  have names := TripleStore.canonicalName_of_commit committed
  have asks : ∀ key, (snapshot.onto after).Asks pattern key ↔ snapshot.Asks pattern key := fun key =>
    ⟨fun ⟨s, p, o⟩ => ⟨s, fun name bound => by rw [← names]; exact p name bound, o⟩,
      fun ⟨s, p, o⟩ => ⟨s, fun name bound => (congrFun names name).trans (p name bound), o⟩⟩
  obtain ⟨evaluated, found⟩ := @exists_evaluate ext (snapshot.onto after) intact pattern
  have members := @mem_keys_evaluate ext (snapshot.onto after) intact spelled pattern evaluated found
  simp only [asks] at members
  constructor
  · rintro ⟨overlaid', evaluated', done', found', same⟩ key
    cases done.symm.trans done'
    cases found.symm.trans found'
    rw [same, members]
  · intro same
    exact ⟨overlaid, evaluated, done, found, fun key => by rw [same, members]⟩

/-- A triple asked for whose predicate is spelled as the pattern spells it matches the pattern. -/
theorem matches_iff_asks {triple : Triple} (plain : triple.isRelation = true ∨
      ∃ s p, triple.isPropertyOf s p = true)
    (spelled : snapshot.store.canonicalName triple.predicate = triple.predicate) {pattern : Pattern} :
    tripleMatchesPattern ext triple pattern = true ↔ snapshot.Asks pattern (triple.key ext) ∧
      ∀ name, pattern.predicate = some name → snapshot.store.canonicalName name = name := by
  have own : (triple.key ext).2.1 = triple.predicate := by cases triple <;> rfl
  rw [matches_iff ext plain, own]
  constructor
  · rintro ⟨subject, predicate, object⟩
    refine ⟨⟨subject, fun name bound => ?_, object⟩, fun name bound => ?_⟩
    · rw [predicate name bound, own, spelled]
    · rw [predicate name bound, spelled]
  · rintro ⟨asks, stored⟩
    refine ⟨asks.subject, fun name bound => ?_, asks.object⟩
    have said := asks.predicate name bound
    rwa [stored name bound, own] at said

/-- What a triple of a search is: one of the list that meets the condition. -/
private theorem found_spec {pending : List Triple} {holds : Triple → Bool} {triple : Triple}
    (found : pending.find? holds = some triple) : triple ∈ pending ∧ holds triple = true :=
  ⟨List.mem_of_find?_eq_some found, List.find?_some found⟩

/-- Results that have a property of a subject and predicate come from triples that are shown. -/
theorem hasProperty_of_results (commits : snapshot.store.Commits ext tx wall after)
    {pattern : Pattern} {results : List Triple}
    (done : snapshot.evaluate ext pattern = .ok results) {s : NodeId} {p : String}
    (property : results.any (Triple.isPropertyOf s p) = true) : snapshot.HasProperty ext s p := by
  have intact := commits.intact
  obtain ⟨triple, member, own⟩ := List.any_eq_true.mp property
  obtain ⟨ids, answers, shows, read⟩ := exists_of_evaluate intact done member
  obtain ⟨name, said⟩ := key_of_read intact.sound.keyed read
  obtain ⟨_, subject, predicate, _⟩ := key_of_property ext own
  rw [said] at subject predicate
  -- The same quad answers the wider pattern, and reads as the same triple.
  obtain ⟨quads, evaluated, result⟩ := snapshot.evaluate_spec intact ⟨some s, some p, none⟩
  have wide : snapshot.Answers ⟨some s, some p, none⟩ ids := by
    refine ⟨⟨fun node bound => ?_, fun text bound => ?_, nofun, rfl, answers.wanted.readable⟩,
      answers.lowest⟩
    · exact subject.trans (Option.some.inj bound)
    · rw [← Option.some.inj bound, ← predicate]
      exact predicateId_of_read intact.sound.keyed read
  obtain ⟨quad, inside, same⟩ := List.mem_map.mp ((result.mem_iff ids).mpr ⟨wide, shows⟩)
  have again := result.read quad inside
  rw [same] at again
  refine ⟨_, evaluated, List.any_eq_true.mpr ⟨quad.2, List.mem_map.mpr ⟨quad, inside, rfl⟩, ?_⟩⟩
  rw [TripleStore.ReadFrom.unique again read]
  exact own

/-- Pending writes that join what is shown are overlaid exactly where a pattern asks plainly. -/
theorem Seamless.agrees_iff (commits : snapshot.store.Commits ext tx wall after)
    (seamless : snapshot.Seamless ext tx wall) (pattern : Pattern) :
    snapshot.OverlayAgrees ext tx after pattern ↔ snapshot.Plainly ext tx pattern := by
  obtain ⟨intact, spelled⟩ := commits.after_intact
  have named := commits.intact.sound.keyed.named
  obtain ⟨results, overlaid, done, answered, members⟩ := mem_keys_overlaid commits pattern
  have own : ∀ w ∈ tx.writes, (w.triple.key ext).2.1 = w.triple.predicate := by
    intro w _
    cases w.triple <;> rfl
  have form : ∀ w ∈ tx.writes,
      snapshot.store.canonicalName (w.triple.key ext).2.1 = (w.triple.key ext).2.1 := by
    intro w member
    rw [own w member]
    exact seamless.spelled w member
  have fits : ∀ w ∈ tx.writes, (tripleMatchesPattern ext w.triple pattern = true ↔
      snapshot.Asks pattern (w.triple.key ext) ∧
        ∀ name, pattern.predicate = some name → snapshot.store.canonicalName name = name) :=
    fun w member => matches_iff_asks (commits.plain _ (List.mem_map.mpr ⟨w, member, rfl⟩))
      (seamless.spelled w member)
  -- Afterwards the triples shown are those shown before and those pending.
  have later : ∀ key, (snapshot.onto after).Shown key ↔
      snapshot.Shown key ∨ ∃ w ∈ tx.writes, w.triple.key ext = key := by
    intro key
    by_cases stored : snapshot.store.canonicalName key.2.1 = key.2.1
    · rw [shown_onto_iff commits stored, seamless.adds key stored,
        has_iff commits.intact commits.spelled stored]
    · constructor
      · intro shown
        obtain ⟨time, committed⟩ := commits.done
        have form := shown.stored intact.sound.keyed.named spelled
        rw [show (snapshot.onto after).store = after from rfl,
          TripleStore.canonicalName_of_commit committed] at form
        exact absurd form stored
      · rintro (shown | ⟨w, member, rfl⟩)
        · exact absurd (shown.stored named commits.spelled) stored
        · exact absurd (form w member) stored
  rw [overlayAgrees_iff_keys commits answered]
  simp only [members, later]
  constructor
  · intro same name bound
    refine or_iff_not_imp_left.mpr fun apart w member asks => ?_
    rw [has_iff commits.intact commits.spelled (form w member)]
    -- No pending triple matches a pattern that is spelled in another way.
    have unmatched : ∀ triple ∈ tx.writes.map PendingWrite.triple,
        tripleMatchesPattern ext triple pattern ≠ true := by
      intro triple inside matched
      obtain ⟨other, there, rfl⟩ := List.mem_map.mp inside
      exact apart (((fits other there).mp matched).2 name bound)
    rcases (same (w.triple.key ext)).mpr ⟨asks, Or.inr ⟨w, member, rfl⟩⟩ with
      ⟨_, shown⟩ | ⟨triple, inside, matched, _⟩ | ⟨_, triple, found, _⟩
    · exact shown
    · exact absurd matched (unmatched triple inside)
    · obtain ⟨inside, matched⟩ := found_spec found
      exact absurd (Bool.and_eq_true_iff.mp matched).1 (unmatched triple inside)
  · intro plainly key
    constructor
    · -- What is overlaid is asked for, and is shown or pending.
      have asked : ∀ triple ∈ tx.writes.map PendingWrite.triple,
          tripleMatchesPattern ext triple pattern = true → triple.key ext = key →
          snapshot.Asks pattern key ∧
            (snapshot.Shown key ∨ ∃ w ∈ tx.writes, w.triple.key ext = key) := by
        intro triple inside matched same
        obtain ⟨w, member, rfl⟩ := List.mem_map.mp inside
        exact ⟨same ▸ ((fits w member).mp matched).1, Or.inr ⟨w, member, same⟩⟩
      rintro (⟨asks, shown⟩ | ⟨triple, inside, matched, _, same⟩ | ⟨_, triple, found, same⟩)
      · exact ⟨asks, Or.inl shown⟩
      · exact asked triple inside matched same
      · obtain ⟨inside, matched⟩ := found_spec found
        exact asked triple inside (Bool.and_eq_true_iff.mp matched).1 same
    · rintro ⟨asks, shown | ⟨w, member, rfl⟩⟩
      · exact Or.inl ⟨asks, shown⟩
      -- A pending triple that is asked for is shown, or is spelled as the pattern spells it.
      by_cases shown : snapshot.Shown (w.triple.key ext)
      · exact Or.inl ⟨asks, shown⟩
      have absent : ¬ snapshot.Has ext (w.triple.key ext) := by
        rwa [has_iff commits.intact commits.spelled (form w member)]
      have plain : ∀ name, pattern.predicate = some name →
          snapshot.store.canonicalName name = name := fun name bound =>
        (plainly name bound).resolve_right fun all => absent (all w member asks)
      have matched := (fits w member).mpr ⟨asks, plain⟩
      rcases commits.plain _ (List.mem_map.mpr ⟨w, member, rfl⟩) with relation | ⟨s, p, property⟩
      · exact Or.inr (Or.inl ⟨w.triple, List.mem_map.mpr ⟨w, member, rfl⟩, matched, relation, rfl⟩)
      obtain ⟨_, subject, predicate, _⟩ := key_of_property ext property
      rcases seamless.single w member s p property with has | ⟨other, there, relation, same⟩ |
        ⟨none, first⟩
      · exact absurd has absent
      · refine Or.inr (Or.inl ⟨other.triple, List.mem_map.mpr ⟨other, there, rfl⟩, ?_, relation, same⟩)
        rw [fits other there, same]
        exact ⟨asks, plain⟩
      · refine Or.inr (Or.inr ⟨?_, ?_⟩)
        · rw [subject, predicate]
          by_contra some_
          exact none (hasProperty_of_results commits done (Bool.not_eq_false _ ▸ some_))
        · rw [subject, predicate]
          have some_ : ((tx.writes.map PendingWrite.triple).find? fun triple =>
              tripleMatchesPattern ext triple pattern && triple.isPropertyOf s p).isSome = true :=
            List.find?_isSome.mpr ⟨w.triple, List.mem_map.mpr ⟨w, member, rfl⟩,
              Bool.and_eq_true_iff.mpr ⟨matched, property⟩⟩
          obtain ⟨triple, found⟩ := Option.isSome_iff_exists.mp some_
          obtain ⟨inside, both⟩ := found_spec found
          obtain ⟨matched', property'⟩ := Bool.and_eq_true_iff.mp both
          refine ⟨triple, found, ?_⟩
          obtain ⟨subject_, predicate_, object_⟩ := (matches_iff ext
            (commits.plain _ (List.mem_map.mpr ⟨w, member, rfl⟩)) pattern).mp matched
          cases bound : pattern.object with
          | some o =>
            -- A bound object leaves one value.
            have other := (matches_iff ext (commits.plain _ inside) pattern).mp matched'
            obtain ⟨_, subject', predicate', _⟩ := key_of_property ext property'
            exact Prod.ext (subject'.trans subject.symm) (Prod.ext (predicate'.trans predicate.symm)
              ((other.2.2 o bound).symm.trans (object_ o bound)))
          | none =>
            -- Otherwise every pending property of the predicate matches alike.
            refine first triple (Eq.trans (List.find?_congr fun other there => ?_) found)
            cases own_ : other.isPropertyOf s p with
            | false => simp
            | true =>
              obtain ⟨_, subject', predicate', _⟩ := key_of_property ext own_
              rw [(matches_iff ext (commits.plain _ there) pattern).mpr ⟨?_, ?_, ?_⟩]
              · rfl
              · intro node given_
                rw [subject', ← subject]
                exact subject_ node given_
              · intro name given_
                rw [predicate', ← predicate]
                exact predicate_ name given_
              · intro node given_
                rw [bound] at given_
                cases given_

/-- A pattern that binds all slots overlays what is shown or pending under its own spelling. -/
private theorem overlaid_exact (commits : snapshot.store.Commits ext tx wall after)
    {pattern : Pattern} {results overlaid : List Triple}
    (done : snapshot.evaluate ext pattern = .ok results)
    (members : ∀ key, key ∈ overlaid.map (Triple.key ext) ↔
      (snapshot.Asks pattern key ∧ snapshot.Shown key) ∨
      (∃ triple ∈ tx.writes.map PendingWrite.triple,
        tripleMatchesPattern ext triple pattern = true ∧ triple.isRelation = true ∧
          triple.key ext = key) ∨
      (results.any (Triple.isPropertyOf key.1 key.2.1) = false ∧ ∃ triple,
        (tx.writes.map PendingWrite.triple).find? (fun triple =>
          tripleMatchesPattern ext triple pattern && triple.isPropertyOf key.1 key.2.1) =
            some triple ∧ triple.key ext = key)) {o : NodeId}
    (object : pattern.object = some o) {w : PendingWrite} (member : w ∈ tx.writes)
    (matched : tripleMatchesPattern ext w.triple pattern = true) :
    w.triple.key ext ∈ overlaid.map (Triple.key ext) := by
  have inside : w.triple ∈ tx.writes.map PendingWrite.triple := List.mem_map.mpr ⟨w, member, rfl⟩
  obtain ⟨s_, _, o_⟩ := (matches_iff ext (commits.plain _ inside) pattern).mp matched
  rw [members]
  rcases commits.plain _ inside with relation | ⟨s', p, property⟩
  · exact Or.inr (Or.inl ⟨w.triple, inside, matched, relation, rfl⟩)
  obtain ⟨_, own, predicate, _⟩ := key_of_property ext property
  rw [own, predicate]
  cases there : results.any (Triple.isPropertyOf s' p) with
  | true =>
    -- A result with the subject and the predicate has the bound object too.
    obtain ⟨held, result, property'⟩ := List.any_eq_true.mp there
    obtain ⟨_, own', predicate', _⟩ := key_of_property ext property'
    have shown := (mem_keys_evaluate commits.intact commits.spelled done (held.key ext)).mp
      (List.mem_map_of_mem result)
    have same : held.key ext = w.triple.key ext :=
      Prod.ext (own'.trans own.symm) (Prod.ext (predicate'.trans predicate.symm)
        ((shown.1.object o object).symm.trans (o_ o object)))
    rw [same] at shown
    exact Or.inl shown
  | false =>
    refine Or.inr (Or.inr ⟨rfl, ?_⟩)
    have some_ : ((tx.writes.map PendingWrite.triple).find? fun triple =>
        tripleMatchesPattern ext triple pattern && triple.isPropertyOf s' p).isSome = true :=
      List.find?_isSome.mpr ⟨w.triple, inside, Bool.and_eq_true_iff.mpr ⟨matched, property⟩⟩
    obtain ⟨triple, found⟩ := Option.isSome_iff_exists.mp some_
    obtain ⟨there', both⟩ := found_spec found
    obtain ⟨matched', property'⟩ := Bool.and_eq_true_iff.mp both
    obtain ⟨_, own', predicate', _⟩ := key_of_property ext property'
    have object' := ((matches_iff ext (commits.plain _ there') pattern).mp matched').2.2 o object
    exact ⟨triple, found, Prod.ext (own'.trans own.symm) (Prod.ext (predicate'.trans predicate.symm)
      (object'.symm.trans (o_ o object)))⟩

/--
Plain patterns have the pending writes as they are after their commit exactly when these join what
is shown, and then no other patterns do.
-/
theorem overlayAgrees_iff (commits : snapshot.store.Commits ext tx wall after) :
    ((∀ pattern, snapshot.Plainly ext tx pattern → snapshot.OverlayAgrees ext tx after pattern) ↔
      snapshot.Seamless ext tx wall) ∧
    (snapshot.Seamless ext tx wall → ∀ pattern, snapshot.OverlayAgrees ext tx after pattern →
      snapshot.Plainly ext tx pattern) := by
  refine ⟨⟨fun all => ?_, fun seamless pattern => (seamless.agrees_iff commits pattern).mpr⟩,
    fun seamless pattern => (seamless.agrees_iff commits pattern).mp⟩
  obtain ⟨intact, spelled⟩ := commits.after_intact
  have named := commits.intact.sound.keyed.named
  obtain ⟨time, committed⟩ := commits.done
  have own : ∀ triple : Triple, (triple.key ext).2.1 = triple.predicate := by
    intro triple
    cases triple <;> rfl
  have inside : ∀ w ∈ tx.writes, w.triple ∈ tx.writes.map PendingWrite.triple :=
    fun w member => List.mem_map.mpr ⟨w, member, rfl⟩
  have matches_ : ∀ w ∈ tx.writes, ∀ pattern, tripleMatchesPattern ext w.triple pattern = true ↔ _ :=
    fun w member pattern => matches_iff ext (commits.plain _ (inside w member)) pattern
  -- A spelling that is not the stored one is in no answer after the commit.
  have spell : ∀ w ∈ tx.writes,
      snapshot.store.canonicalName w.triple.predicate = w.triple.predicate := by
    intro w member
    obtain ⟨results, overlaid, done, answered, members⟩ := mem_keys_overlaid commits
      ⟨some (w.triple.key ext).1, none, some (w.triple.key ext).2.2⟩
    have agrees := (overlayAgrees_iff_keys commits answered).mp (all _ nofun)
    have there := overlaid_exact commits done members rfl member
      ((matches_ w member _).mpr ⟨fun _ same => (Option.some.inj same).symm, nofun,
        fun _ same => (Option.some.inj same).symm⟩)
    have stored := ((agrees _).mp there).2.stored intact.sound.keyed.named spelled
    rw [show (snapshot.onto after).store = after from rfl,
      TripleStore.canonicalName_of_commit committed, own] at stored
    exact stored
  have adds : ∀ key : TripleKey, snapshot.store.canonicalName key.2.1 = key.2.1 →
      (snapshot.LeftShown ext tx wall key ↔
        snapshot.Has ext key ∨ ∃ w ∈ tx.writes, w.triple.key ext = key) := by
    intro key stored
    obtain ⟨results, overlaid, done, answered, members⟩ := mem_keys_overlaid commits
      ⟨some key.1, some key.2.1, some key.2.2⟩
    have plainly : snapshot.Plainly ext tx ⟨some key.1, some key.2.1, some key.2.2⟩ :=
      fun name same => Or.inl (by rw [← Option.some.inj same, stored])
    have agrees := (overlayAgrees_iff_keys commits answered).mp (all _ plainly) key
    have asks : snapshot.Asks ⟨some key.1, some key.2.1, some key.2.2⟩ key :=
      ⟨fun _ same => (Option.some.inj same).symm,
        fun _ same => by rw [← Option.some.inj same]; exact stored,
        fun _ same => (Option.some.inj same).symm⟩
    rw [← shown_onto_iff commits stored, has_iff commits.intact commits.spelled stored]
    have shown : (snapshot.onto after).Shown key ↔ key ∈ overlaid.map (Triple.key ext) :=
      (agrees.trans (and_iff_right asks)).symm
    rw [shown]
    constructor
    · intro there
      rcases (members key).mp there with ⟨_, shown⟩ | ⟨triple, pending, _, _, same⟩ |
        ⟨_, triple, found, same⟩
      · exact Or.inl shown
      · obtain ⟨w, member, rfl⟩ := List.mem_map.mp pending
        exact Or.inr ⟨w, member, same⟩
      · obtain ⟨w, member, rfl⟩ := List.mem_map.mp (found_spec found).1
        exact Or.inr ⟨w, member, same⟩
    · rintro (shown | ⟨w, member, rfl⟩)
      · exact (members key).mpr (Or.inl ⟨asks, shown⟩)
      · exact overlaid_exact commits done members rfl member
          ((matches_ w member _).mpr ⟨fun _ same => (Option.some.inj same).symm,
            fun _ same => (Option.some.inj same).symm, fun _ same => (Option.some.inj same).symm⟩)
  refine ⟨spell, fun w member s p property => ?_, adds⟩
  -- Asked for all values of the predicate, the overlay has the pending one too.
  obtain ⟨_, subject, predicate, _⟩ := key_of_property ext property
  have stored : snapshot.store.canonicalName p = p := by
    rw [← predicate, own]
    exact spell w member
  have form : snapshot.store.canonicalName (w.triple.key ext).2.1 = (w.triple.key ext).2.1 := by
    rw [predicate, stored]
  obtain ⟨results, overlaid, done, answered, members⟩ := mem_keys_overlaid commits ⟨some s, some p, none⟩
  have plainly : snapshot.Plainly ext tx ⟨some s, some p, none⟩ :=
    fun name same => Or.inl (by rw [← Option.some.inj same, stored])
  have agrees := (overlayAgrees_iff_keys commits answered).mp (all _ plainly) (w.triple.key ext)
  have left := (adds _ form).mpr (Or.inr ⟨w, member, rfl⟩)
  rw [← shown_onto_iff commits form] at left
  have asks : snapshot.Asks ⟨some s, some p, none⟩ (w.triple.key ext) :=
    ⟨fun _ same => (Option.some.inj same).symm.trans subject.symm,
      fun _ same => by rw [← Option.some.inj same, stored, predicate], nofun⟩
  rcases (members _).mp (agrees.mpr ⟨asks, left⟩) with ⟨_, shown⟩ | ⟨triple, pending, _, rel, same⟩ |
    ⟨none, triple, found, same⟩
  · exact Or.inl ((has_iff commits.intact commits.spelled form).mpr shown)
  · obtain ⟨other, there, rfl⟩ := List.mem_map.mp pending
    exact Or.inr (Or.inl ⟨other, there, rel, same⟩)
  · refine Or.inr (Or.inr ⟨?_, fun first search => ?_⟩)
    · rintro ⟨triples, again, some_⟩
      cases done.symm.trans again
      rw [subject, predicate, some_] at none
      cases none
    · rw [subject, predicate] at found
      -- The pattern matches every pending property of the subject and the predicate.
      have alike : (tx.writes.map PendingWrite.triple).find? (fun triple =>
          tripleMatchesPattern ext triple ⟨some s, some p, Option.none⟩ && triple.isPropertyOf s p) =
            (tx.writes.map PendingWrite.triple).find? (Triple.isPropertyOf s p) := by
        refine List.find?_congr fun other there => ?_
        cases own_ : other.isPropertyOf s p with
        | false => simp
        | true =>
          obtain ⟨_, subject', predicate', _⟩ := key_of_property ext own_
          rw [(matches_iff ext (commits.plain _ there) _).mpr
            ⟨fun _ same => (Option.some.inj same).symm.trans subject'.symm,
              fun _ same => (Option.some.inj same).symm.trans predicate'.symm,
              fun _ same => by cases same⟩]
          rfl
      rw [alike, search] at found
      rw [Option.some.inj found]
      exact same

/-- A transaction that has buffered one write. -/
def buffering (snapshot : Snapshot) (w : PendingWrite) : Transaction :=
  snapshot.store.begin.insertIn w.triple w.graph w.mode

/-- The write of one node's acquaintance with another from a time until a time. -/
def meeting (predicate : String) (node : NodeId) (start stop : Timestamp) : PendingWrite where
  triple := .relation (NodeId.ofByte 1) predicate node ⟨(NodeId.ofByte 4).uuid⟩
    ⟨start, stop, Timestamp.zero⟩
  graph := GraphId.DEFAULT
  mode := .add

/-- The stored form of the predicate of acquaintance. -/
def knows : String := Vocabulary.default.canonicalPredicate "knows"

/-- The store in which one node knows another, after one more write is committed. -/
def afterMeeting (w : PendingWrite) : TripleStore :=
  (acquainted.store.commit External.unreached (acquainted.buffering w) acquainted.now).1

/-- A write about acquaintance is committed to the store in which one node knows another. -/
theorem commits_meeting (w : PendingWrite) (about : w.triple.isRelation = true)
    (done : (acquainted.store.commit External.unreached (acquainted.buffering w)
      acquainted.now).2.toOption.isSome = true) :
    acquainted.store.Commits External.unreached (acquainted.buffering w) acquainted.now
      (afterMeeting w) := by
  -- The store is a new one after one commit.
  have fresh : TripleStore.create.Numbered ∧ TripleStore.create.Spelled :=
    ⟨fun _ _ => nofun, fun _ _ => nofun⟩
  have only : ∀ other ∈ (acquainted.buffering w).writes, other = w := fun other member =>
    List.mem_singleton.mp member
  refine ⟨TripleStore.relatedUntil_intact _,
    (TripleStore.keepsNames_commit fresh.1 (by decide +kernel) _).numbered,
    fresh.2.commit fresh.1 (by decide +kernel) _, by decide +kernel, ?_, ?_, ?_, ?_⟩
  · have few : acquainted.store.nextPredId.toNat + 1 < 2 ^ 32 := by decide +kernel
    exact few
  · intro other member
    rw [only other member]
    intro _ _ _ _ same
    rw [same] at about
    cases about
  · intro other member
    rw [only other member]
    unfold TripleStore.ofQuad
    unfold Triple.isRelation at about
    split at about
    · rename_i same
      rw [same]
    · cases about
  · cases outcome : (acquainted.store.commit External.unreached (acquainted.buffering w)
        acquainted.now).2 with
    | error refused =>
      rw [outcome] at done
      cases done
    | ok time => exact ⟨time, Prod.ext rfl outcome⟩

/-- An acquaintance from now on is overlaid as it is after its commit. -/
theorem overlayAgrees_meeting :
    acquainted.OverlayAgrees External.unreached
        (acquainted.buffering (meeting knows (NodeId.ofByte 3) acquainted.now Timestamp.END_OF_TIME))
        (afterMeeting (meeting knows (NodeId.ofByte 3) acquainted.now Timestamp.END_OF_TIME))
        ⟨none, none, none⟩ ↔
      acquainted.Plainly External.unreached
        (acquainted.buffering (meeting knows (NodeId.ofByte 3) acquainted.now Timestamp.END_OF_TIME))
        ⟨none, none, none⟩ := by
  obtain ⟨⟨_, agrees⟩, plainly⟩ := overlayAgrees_iff (commits_meeting
    (meeting knows (NodeId.ofByte 3) acquainted.now Timestamp.END_OF_TIME) rfl (by decide +kernel))
  suffices seamless : acquainted.Seamless External.unreached (acquainted.buffering
      (meeting knows (NodeId.ofByte 3) acquainted.now Timestamp.END_OF_TIME)) acquainted.now from
    ⟨plainly seamless _, agrees seamless _⟩
  have intact : acquainted.store.Intact External.unreached := TripleStore.relatedUntil_intact _
  have only : ∀ other ∈ (acquainted.buffering
      (meeting knows (NodeId.ofByte 3) acquainted.now Timestamp.END_OF_TIME)).writes,
        other = meeting knows (NodeId.ofByte 3) acquainted.now Timestamp.END_OF_TIME :=
    fun other member => List.mem_singleton.mp member
  have form : acquainted.store.canonicalName knows = knows := by decide +kernel
  refine ⟨fun w member => ?_, fun w member _ _ property => ?_, fun key stored => ?_⟩
  · rw [only w member]
    exact form
  · rw [only w member] at property
    cases property
  · -- The one version that is staged governs its quad, and no other quad changes.
    have known : acquainted.store.internAll (acquainted.buffering
        (meeting knows (NodeId.ofByte 3) acquainted.now Timestamp.END_OF_TIME)).writes =
          acquainted.store := by
      refine TripleStore.internAll_known fun w member => ?_
      rw [only w member]
      decide +kernel
    have predicate : acquainted.store.rev 1 = some knows := by decide +kernel
    obtain ⟨quad, staged, ids, window⟩ : ∃ quad, acquainted.store.commitQuads External.unreached
        (acquainted.buffering (meeting knows (NodeId.ofByte 3) acquainted.now Timestamp.END_OF_TIME))
          acquainted.now = [quad] ∧
        quad.key.toQuadIds = ⟨NodeId.ofByte 1, 1, NodeId.ofByte 3, GraphId.DEFAULT⟩ ∧
        validTime quad.value = some (acquainted.now, Timestamp.END_OF_TIME) := by
      have all : (acquainted.store.commitQuads External.unreached (acquainted.buffering
          (meeting knows (NodeId.ofByte 3) acquainted.now Timestamp.END_OF_TIME))
            acquainted.now).map (fun quad => (quad.key.toQuadIds, validTime quad.value)) =
          [(⟨NodeId.ofByte 1, 1, NodeId.ofByte 3, GraphId.DEFAULT⟩,
            some (acquainted.now, Timestamp.END_OF_TIME))] := by
        decide +kernel
      obtain ⟨quad, rest, parts, own, none⟩ := List.map_eq_cons_iff.mp all
      rw [List.map_eq_nil_iff.mp none] at parts
      exact ⟨quad, parts, congrArg Prod.fst own, congrArg Prod.snd own⟩
    have left : ∀ p g, acquainted.store.LeavesShown [quad] acquainted.vt ⟨key.1, p, key.2.2, g⟩ ↔
        ⟨key.1, p, key.2.2, g⟩ = quad.key.toQuadIds ∨
          acquainted.store.Shows acquainted.point.ts acquainted.vt ⟨key.1, p, key.2.2, g⟩ := by
      intro p g
      unfold TripleStore.LeavesShown TripleStore.stagedWindow
      by_cases own : quad.key.toQuadIds = ⟨key.1, p, key.2.2, g⟩
      · simp only [own, decide_true, List.filter_cons_of_pos, List.filter_nil,
          List.getLast?_singleton, Option.bind_some, window, true_or, iff_true]
        exact Or.inl ⟨⟨le_refl _, fun _ _ _ begun => begun⟩, by decide +kernel⟩
      · have read : acquainted.store.committed = acquainted.point.ts := by decide +kernel
        simp [own, Ne.symm own, read]
    have named := intact.sound.keyed.named
    have spelled := (commits_meeting (meeting knows (NodeId.ofByte 3) acquainted.now
      Timestamp.END_OF_TIME) rfl (by decide +kernel)).spelled
    rw [has_iff intact spelled stored]
    simp only [LeftShown, Shown, known, staged, left, TripleStore.rev_iff named spelled stored]
    constructor
    · rintro ⟨p, g, name, readable, own | shown⟩
      · rw [ids] at own
        refine Or.inr ⟨_, List.mem_singleton_self _, ?_⟩
        have name' := (TripleStore.rev_iff named spelled stored p).mpr name
        have one : p = 1 := congrArg QuadIds.p own
        rw [one, predicate] at name'
        exact Prod.ext (congrArg QuadIds.s own).symm
          (Prod.ext (Option.some.inj name') (congrArg QuadIds.o own).symm)
      · exact Or.inl ⟨p, g, name, readable, shown⟩
    · rintro (⟨p, g, name, readable, shown⟩ | ⟨w, member, rfl⟩)
      · exact ⟨p, g, name, readable, Or.inr shown⟩
      · rw [only w member]
        exact ⟨1, GraphId.DEFAULT, by decide +kernel, rfl, Or.inl ids.symm⟩

/--
A pending deletion is overlaid as what is deleted, and a pending predicate as it is spelled.
-/
theorem overlay_apart :
    ¬ acquainted.OverlayAgrees External.unreached
      (acquainted.buffering (meeting knows (NodeId.ofByte 2) Timestamp.zero acquainted.now))
      (afterMeeting (meeting knows (NodeId.ofByte 2) Timestamp.zero acquainted.now))
      ⟨some (NodeId.ofByte 1), none, none⟩ ∧
    ¬ acquainted.OverlayAgrees External.unreached
      (acquainted.buffering (meeting "knows" (NodeId.ofByte 3) acquainted.now Timestamp.END_OF_TIME))
      (afterMeeting (meeting "knows" (NodeId.ofByte 3) acquainted.now Timestamp.END_OF_TIME))
      ⟨some (NodeId.ofByte 1), none, none⟩ := by
  -- A triple that is overlaid, but not found after the commit, sets the two apart.
  have apart : ∀ (w : PendingWrite) (pattern : Pattern),
      (((acquainted.evaluateWithOverlay External.unreached [w.triple] none pattern).toOption.any
        fun triples => decide (w.triple.key External.unreached ∈
          triples.map (Triple.key External.unreached))) &&
        ((acquainted.onto (afterMeeting w)).evaluate External.unreached pattern).toOption.all
          fun triples => decide (w.triple.key External.unreached ∉
            triples.map (Triple.key External.unreached))) = true →
      ¬ acquainted.OverlayAgrees External.unreached (acquainted.buffering w) (afterMeeting w)
        pattern := by
    rintro w pattern both ⟨overlaid, evaluated, answered, under, members⟩
    obtain ⟨there, absent⟩ := Bool.and_eq_true_iff.mp both
    rw [show (acquainted.buffering w).writes.map PendingWrite.triple = [w.triple] from rfl] at answered
    rw [answered] at there
    rw [under] at absent
    exact of_decide_eq_true absent ((members _).mp (of_decide_eq_true there))
  exact ⟨apart _ _ (by decide +kernel), apart _ _ (by decide +kernel)⟩

end Snapshot

end Polargraph
