import Polargraph.Proofs.Storage.Scan
import Polargraph.Proofs.Storage.Staging

/-! What a transaction that only adds records in the histories of quads. -/

namespace Polargraph

/-- A write that closes no other values. -/
def PendingWrite.Adds (w : PendingWrite) : Prop := w.mode.resolve w.triple ≠ .replace

/-- Whether a write closes no other values can be tested. -/
instance (w : PendingWrite) : Decidable w.Adds := inferInstanceAs (Decidable (_ ≠ _))

namespace TripleStore

variable {ext : External} {store : TripleStore}

/-- Interning keeps the names that are known, and makes its own known. -/
theorem predicateId_internPredicate (store : TripleStore) (pred : String) :
    (store.internPredicate pred).1.predicateId pred = some (store.internPredicate pred).2 ∧
      ∀ name id, store.predicateId name = some id →
        (store.internPredicate pred).1.predicateId name = some id := by
  simp only [predicateId_eq]
  cases known : store.fwd (store.canonicalName pred) with
  | some id =>
    simp only [internPredicate, known]
    exact ⟨trivial, fun _ _ found => found⟩
  | none =>
    simp only [internPredicate, known]
    refine ⟨Function.update_self _ _ _, fun name id found => ?_⟩
    have apart : store.canonicalName name ≠ store.canonicalName pred := by
      intro same
      rw [same, known] at found
      cases found
    exact (Function.update_of_ne apart _ _).trans found

/-- Staging keeps the names that are known. -/
theorem predicateId_stageWrites (ext : External) (tt : Timestamp) (staging : Staging)
    (writes : List PendingWrite) {name : String} {id : PredId} (found : store.predicateId name = some id) :
    (stageWrites ext tt store staging writes).1.predicateId name = some id :=
  stageWrites_keeps ext tt store staging writes found fun before pred held =>
    (before.predicateId_internPredicate pred).2 name id held

/-- Staging makes the predicates of all writes known. -/
theorem interned_stageWrites {tt : Timestamp} {staging next : Staging}
    {writes : List PendingWrite} {store after : TripleStore}
    (done : stageWrites ext tt store staging writes = (after, .ok next)) :
    ∀ w ∈ writes, (after.predicateId w.triple.predicate).isSome := by
  induction writes generalizing store staging with
  | nil => exact fun w member => absurd member List.not_mem_nil
  | cons first rest ih =>
    have own := (store.predicateId_internPredicate first.triple.predicate).1
    obtain ⟨middle, staged, done⟩ := stageWrites_cons done
    intro w member
    rcases List.mem_cons.mp member with rfl | later
    · have kept := predicateId_stageWrites ext tt middle rest own
      rw [done] at kept
      rw [kept]
      rfl
    · exact ih done w later

variable (ext) in
/-- The quad a write records a version of, when its predicate is known. -/
def quadOf (store : TripleStore) (w : PendingWrite) : Option QuadIds :=
  match w.triple with
  | .relation subject predicate object _ _ =>
    (store.predicateId predicate).map fun p => ⟨subject, p, object, w.graph⟩
  | .property subject predicate value _ =>
    (store.predicateId predicate).map fun p => ⟨subject, p, valueObject ext value, w.graph⟩
  | .edgeProperty .. => none
  | .edgeRelation .. => none

/-- A staged version is what a write records of its quad. -/
structure Records (ext : External) (store : TripleStore) (w : PendingWrite)
    (quad : StagedQuad) : Prop where
  /-- It is a version of the quad of the write. -/
  ids : store.quadOf ext w = some quad.key.toQuadIds
  /-- It has the window of the write. -/
  window : validTime quad.value = some (w.triple.temporal.vtStart, w.triple.temporal.vtEnd)

/-- Whether a write is of a quad, and not an annotation of an edge. -/
def ofQuad (w : PendingWrite) : Bool :=
  match w.triple with
  | .relation .. | .property .. => true
  | .edgeProperty .. | .edgeRelation .. => false

/-- The quad of a write stays the same where more names are known. -/
theorem quadOf_mono {after : TripleStore}
    (names : ∀ name id, store.predicateId name = some id → after.predicateId name = some id)
    {w : PendingWrite} {ids : QuadIds} (named : store.quadOf ext w = some ids) :
    after.quadOf ext w = some ids := by
  obtain ⟨triple, g, mode⟩ := w
  cases triple with
  | relation | property =>
    simp only [quadOf, Option.map_eq_some_iff] at named ⊢
    obtain ⟨p, known, same⟩ := named
    exact ⟨p, names _ _ known, same⟩
  | edgeProperty | edgeRelation => cases named

/-- The quad of a write stays the same where fewer names are known, its own among them. -/
theorem quadOf_of_interned {after : TripleStore}
    (names : ∀ name id, store.predicateId name = some id → after.predicateId name = some id)
    {w : PendingWrite} (interned : (store.predicateId w.triple.predicate).isSome) {ids : QuadIds}
    (named : after.quadOf ext w = some ids) : store.quadOf ext w = some ids := by
  obtain ⟨p, known⟩ := Option.isSome_iff_exists.mp interned
  have same : after.predicateId w.triple.predicate = store.predicateId w.triple.predicate :=
    (names _ _ known).trans known.symm
  obtain ⟨triple, g, mode⟩ := w
  cases triple with
  | relation | property =>
    simp only [Triple.predicate] at same
    simp only [quadOf] at named ⊢
    rwa [← same]
  | edgeProperty | edgeRelation => cases named

/-- Staging a write that adds stages what it records of its quad, and nothing for an annotation. -/
theorem stageWrite_records {tt : Timestamp} {p : PredId} {staging next : Staging} {w : PendingWrite}
    (adds : w.Adds) (known : store.predicateId w.triple.predicate = some p)
    (done : store.stageWrite ext tt p staging w = .ok next) :
    ∃ quads, next.quads = staging.quads ++ quads ∧
      List.Forall₂ (store.Records ext) (if ofQuad w then [w] else []) quads := by
  obtain ⟨triple, g, mode⟩ := w
  cases triple with
  | relation subject predicate object edgeId window =>
    cases done
    refine ⟨_, rfl, .cons ⟨?_, validTime_encodeRelation _ _⟩ .nil⟩
    simp only [quadOf, show store.predicateId predicate = some p from known, Option.map_some]
  | property subject predicate value window =>
    obtain ⟨blobs, bytes, closing, encoded, _, closed, quads, _⟩ := stageWrite_property done
    have none_closed : closing = [] := by
      unfold stageClosings at closed
      rw [if_neg adds] at closed
      cases closed
      rfl
    subst none_closed
    refine ⟨_, quads, .cons ⟨?_, validTime_encodePropertyEntry encoded⟩ .nil⟩
    simp only [quadOf, show store.predicateId predicate = some p from known, Option.map_some]
  | edgeProperty edge predicate value window =>
    obtain ⟨bytes, _, done⟩ := Except.bind_eq_ok.mp done
    cases done
    exact ⟨[], (List.append_nil _).symm, .nil⟩
  | edgeRelation edge predicate object window =>
    cases done
    exact ⟨[], (List.append_nil _).symm, .nil⟩

/-- Staging writes that add stages what each records of its quad, in order. -/
theorem stageWrites_records {tt : Timestamp} {staging next : Staging} {writes : List PendingWrite}
    {store after : TripleStore} (adds : ∀ w ∈ writes, w.Adds)
    (done : stageWrites ext tt store staging writes = (after, .ok next)) :
    ∃ quads, next.quads = staging.quads ++ quads ∧
      List.Forall₂ (after.Records ext) (writes.filter ofQuad) quads := by
  induction writes generalizing store staging with
  | nil =>
    cases done
    exact ⟨[], (List.append_nil _).symm, .nil⟩
  | cons w rest ih =>
    have interned := store.predicateId_internPredicate w.triple.predicate
    obtain ⟨middle, staged, done⟩ := stageWrites_cons done
    obtain ⟨first, here, own⟩ := stageWrite_records (adds w List.mem_cons_self) interned.1 staged
    obtain ⟨others, there, later⟩ :=
      ih (fun other member => adds other (List.mem_cons_of_mem _ member)) done
    -- The names known when the first write is staged are known at the end.
    have names : ∀ name id, (store.internPredicate w.triple.predicate).1.predicateId name = some id →
        after.predicateId name = some id := fun name id found => by
      have kept := predicateId_stageWrites ext tt middle rest found
      rwa [done] at kept
    have recorded : List.Forall₂ (after.Records ext) (if ofQuad w then [w] else []) first :=
      own.imp fun _ _ records => ⟨quadOf_mono names records.ids, records.window⟩
    refine ⟨first ++ others, by rw [there, here, List.append_assoc], ?_⟩
    rw [List.filter_cons]
    cases quad : ofQuad w with
    | true =>
      simp only [quad, if_true] at recorded ⊢
      exact List.rel_append recorded later
    | false =>
      simp only [quad, Bool.false_eq_true, if_false] at recorded ⊢
      cases recorded
      exact later

variable (ext) in
/-- The last of some writes that records a version of a quad. -/
def lastWrite (store : TripleStore) (writes : List PendingWrite) (ids : QuadIds) :
    Option PendingWrite :=
  (writes.filter (fun w => decide (store.quadOf ext w = some ids))).getLast?

/-- The last items of related lists are related. -/
private theorem getLast?_related {α β : Type} {related : α → β → Prop} {left : List α} {right : List β}
    (both : List.Forall₂ related left right) : Option.Rel related left.getLast? right.getLast? := by
  induction both with
  | nil => exact .none
  | @cons first first' rest rest' here _ ih =>
    rw [List.getLast?_cons, List.getLast?_cons]
    generalize rest.getLast? = last at ih
    generalize rest'.getLast? = last' at ih
    cases ih with
    | none => exact .some here
    | some later => exact .some later

/-- The last version staged of a quad is what its last write records. -/
theorem last_records {writes : List PendingWrite} {quads : List StagedQuad} {tt : Timestamp}
    (records : List.Forall₂ (store.Records ext) (writes.filter ofQuad) quads)
    (stamped : ∀ quad ∈ quads, quad.key.tt = tt) (ids : QuadIds) :
    Option.Rel (store.Records ext) (store.lastWrite ext writes ids)
      (quads.filter (fun quad => decide (quad.key = ⟨ids, tt⟩))).getLast? := by
  have dated : quads.filter (fun quad => decide (quad.key = ⟨ids, tt⟩)) =
      quads.filter (fun quad => decide (quad.key.toQuadIds = ids)) := by
    refine List.filter_congr fun quad member => decide_eq_decide.mpr ⟨fun same => by rw [same], ?_⟩
    rintro rfl
    rw [← stamped quad member]
  have only : writes.filter (fun w => decide (store.quadOf ext w = some ids)) =
      (writes.filter ofQuad).filter (fun w => decide (store.quadOf ext w = some ids)) := by
    rw [List.filter_filter]
    refine List.filter_congr fun w _ => ?_
    obtain ⟨triple, g, mode⟩ := w
    cases triple <;> simp [ofQuad, quadOf]
  rw [lastWrite, dated, only]
  refine getLast?_related (List.rel_filter (fun w quad own => ?_) records)
  simp only [decide_eq_true_eq, own.ids, Option.some.injEq]

/-- Staged versions of writes that add put the last write of each quad into its history. -/
theorem history_putAll (index : Index) {writes : List PendingWrite} {quads : List StagedQuad}
    {tt : Timestamp} (records : List.Forall₂ (store.Records ext) (writes.filter ofQuad) quads)
    (stamped : ∀ quad ∈ quads, quad.key.tt = tt) (ids : QuadIds) :
    match store.lastWrite ext writes ids with
    | none => (index.putAll quads).history ids = index.history ids
    | some w => ∃ bytes, (index.putAll quads).history ids = (index.history ids).put tt
        ⟨w.triple.temporal.vtStart, w.triple.temporal.vtEnd, bytes⟩ := by
  have others : ∀ other ≠ tt, (index.putAll quads).history ids other = index.history ids other := by
    intro other apart
    simp only [Index.history]
    rw [Index.putAll_of_forall_ne index fun quad member same => ?_]
    rw [← stamped quad member, same] at apart
    exact apart rfl
  have last := last_records records stamped ids
  generalize store.lastWrite ext writes ids = write at last
  generalize staged : (quads.filter (fun quad => decide (quad.key = ⟨ids, tt⟩))).getLast? = quad at last
  cases last with
  | none =>
    refine funext fun other => ?_
    by_cases own : other = tt
    · subst own
      simp only [Index.history, Index.putAll_apply, staged]
    · exact others other own
  | @some w quad own =>
    refine ⟨quad.value, funext fun other => ?_⟩
    by_cases same : other = tt
    · subst same
      rw [History.put_self]
      exact Index.history_eq_some.mpr ⟨by rw [Index.putAll_apply, staged], own.window⟩
    · rw [others other same, History.put_of_ne same]

/-- The counter is not behind any recorded version, and has not run out. -/
structure Counted (store : TripleStore) : Prop where
  /-- Every version was recorded by the counter. -/
  recorded : ∀ key bytes, store.index key = some bytes → key.tt ≤ store.committed
  /-- There is a next timestamp. -/
  room : store.committed ≠ Timestamp.END_OF_TIME

/-- What a successful commit of writes that add does to a store. -/
structure Added (ext : External) (store after : TripleStore) (writes : List PendingWrite) :
    Prop where
  /-- The orders hold the same versions. -/
  holds : after.db.OrdersHold after.index
  /-- The counter does not go back. -/
  advanced : store.committed ≤ after.committed
  /-- Writes are recorded after everything before. -/
  later : writes ≠ [] → store.committed < after.committed
  /-- Every version was recorded by the counter. -/
  recorded : ∀ key bytes, after.index key = some bytes → key.tt ≤ after.committed
  /-- Known names stay known. -/
  names : ∀ name id, store.predicateId name = some id → after.predicateId name = some id
  /-- The predicates of the writes are known. -/
  interned : ∀ w ∈ writes, (after.predicateId w.triple.predicate).isSome
  /-- The last write of each quad is recorded, and nothing else. -/
  history : ∀ ids, match after.lastWrite ext writes ids with
    | none => after.index.history ids = store.index.history ids
    | some w => ∃ bytes, after.index.history ids = (store.index.history ids).put after.committed
        ⟨w.triple.temporal.vtStart, w.triple.temporal.vtEnd, bytes⟩

/-- A store that stays as it is has added nothing. -/
theorem Added.refl (ext : External) (holds : store.db.OrdersHold store.index)
    (counted : store.Counted) : store.Added ext store [] where
  holds := holds
  advanced := le_refl _
  later none := absurd rfl none
  recorded := counted.recorded
  names _ _ known := known
  interned _ member := absurd member List.not_mem_nil
  history _ := rfl

/-- A commit that succeeds stages the versions of its additions, and interns their predicates. -/
theorem recorded_commit {tx : Transaction} {wall time : Timestamp} {after : TripleStore}
    (adds : ∀ w ∈ tx.writes, w.Adds) (done : store.commit ext tx wall = (after, .ok time)) :
    List.Forall₂ (after.Records ext) (tx.writes.filter ofQuad) (store.commitQuads ext tx wall) ∧
      (∀ name id, store.predicateId name = some id → after.predicateId name = some id) ∧
      ∀ w ∈ tx.writes, (after.predicateId w.triple.predicate).isSome := by
  rcases commit_ok done with
    ⟨_, blank, rfl, quads⟩ | ⟨_, _, middle, staging, batch, staged, _, rfl, quads⟩
  · rw [blank, quads]
    exact ⟨.nil, fun _ _ known => known, by simp⟩
  · obtain ⟨own, here, records⟩ := stageWrites_records adds staged
    have names : ∀ name id, store.predicateId name = some id →
        middle.predicateId name = some id := fun name id known => by
      have kept := @predicateId_stageWrites (store.beginCommit wall).1 ext time Staging.none tx.writes
        _ _ known
      rwa [staged] at kept
    have interned := interned_stageWrites staged
    refine ⟨?_, names, interned⟩
    rw [quads, here]
    exact records.imp fun _ _ own => ⟨own.ids, own.window⟩

/-- A successful commit of writes that add does what it says. -/
theorem added_commit {tx : Transaction} {wall time : Timestamp} {after : TripleStore}
    (holds : store.db.OrdersHold store.index) (counted : store.Counted)
    (adds : ∀ w ∈ tx.writes, w.Adds) (done : store.commit ext tx wall = (after, .ok time)) :
    store.Added ext after tx.writes := by
  obtain ⟨records, names, interned⟩ := recorded_commit adds done
  have stored := fun order => commit_holds ext store (holds order) tx wall
  rw [done] at stored
  have index := Db.OrdersHold.index_eq stored
  rcases commit_ok done with
    ⟨_, blank, rfl, _⟩ | ⟨_, rfl, middle, staging, batch, staged, _, rfl, quads⟩
  · -- Nothing is committed.
    rw [blank]
    exact .refl ext holds counted
  · have later : store.committed < store.nextCommitTs wall :=
      lt_of_lt_of_le (Timestamp.lt_wrap_succ counted.room) (le_max_left _ _)
    have counter : (middle.dbWrite batch).committed = store.nextCommitTs wall := by
      have kept := @committed_stageWrites ext (store.nextCommitTs wall) (store.beginCommit wall).1
        Staging.none tx.writes
      rwa [staged] at kept
    have stamped : ∀ quad ∈ store.commitQuads ext tx wall, quad.key.tt = store.nextCommitTs wall := by
      rw [quads]
      exact (stageWrites_sound (Staging.Sound.none _) staged).stamped
    refine ⟨fun order => by rw [TripleStore.index, index]; exact stored order, ?_, fun _ => ?_, ?_,
      names, interned, fun ids => ?_⟩
    · rw [counter]
      exact le_of_lt later
    · rw [counter]
      exact later
    · intro key bytes found
      rw [TripleStore.index, index] at found
      rw [counter]
      rcases Index.putAll_eq_some found with old | new
      · exact le_of_lt (lt_of_le_of_lt (counted.recorded key bytes old) later)
      · exact le_of_eq (stamped _ new)
    · rw [TripleStore.index, index, counter]
      exact history_putAll store.index records stamped ids

/-- A snapshot at a transaction time shows a quad at a valid time. -/
def Shows (store : TripleStore) (ts vt : Timestamp) (ids : QuadIds) : Prop :=
  ∃ tt version, (store.index.history ids).Governs ts vt tt version ∧ vt < version.stop ∧
    ¬ (version.start = Timestamp.MIN ∧ tt = Timestamp.MIN)

/-- A new version from a start would govern a quad at a valid time. -/
def WouldGovern (store : TripleStore) (vt : Timestamp) (ids : QuadIds) (start : Timestamp) : Prop :=
  start ≤ vt ∧ ∀ tt version, store.index.history ids tt = some version → version.start ≤ vt →
    version.start ≤ start

/-- What a snapshot shows of a quad that keeps its history. -/
theorem shows_of_kept {after : TripleStore} (counted : store.Counted)
    (advanced : store.committed ≤ after.committed) {ids : QuadIds}
    (kept : after.index.history ids = store.index.history ids) (vt : Timestamp) :
    after.Shows after.committed vt ids ↔ store.Shows store.committed vt ids := by
  have early : ∀ tt version, store.index.history ids tt = some version → tt ≤ store.committed :=
    fun tt version stored => counted.recorded ⟨ids, tt⟩ _ (Index.history_eq_some.mp stored).1
  simp only [Shows, kept, History.governs_of_recorded early advanced]

/-- What a snapshot shows of a quad after a new version was recorded. -/
theorem shows_of_put {after : TripleStore} (counted : store.Counted) {ids : QuadIds}
    {now : Timestamp} (later : store.committed < now) (reached : now ≤ after.committed)
    {fresh : Version Timestamp Bytes}
    (record : after.index.history ids = (store.index.history ids).put now fresh) (vt : Timestamp) :
    after.Shows after.committed vt ids ↔
      (store.WouldGovern vt ids fresh.start ∧ vt < fresh.stop) ∨
        (¬ store.WouldGovern vt ids fresh.start ∧ store.Shows store.committed vt ids) := by
  have early : ∀ tt version, store.index.history ids tt = some version → tt ≤ store.committed :=
    fun tt version stored => counted.recorded ⟨ids, tt⟩ _ (Index.history_eq_some.mp stored).1
  -- Every version from before is seen by both snapshots.
  have same : ∀ tt version, (store.index.history ids).Governs after.committed vt tt version ↔
      (store.index.history ids).Governs store.committed vt tt version := fun tt version =>
    History.governs_of_recorded early (le_trans (le_of_lt later) reached)
  have newest : ∀ tt version, store.index.history ids tt = some version → tt < now :=
    fun tt version stored => lt_of_le_of_lt (early tt version stored) later
  have dated : now ≠ Timestamp.MIN := fun least =>
    absurd later (not_lt.mpr (least ▸ Timestamp.MIN_le _))
  have lowest_iff : fresh.start ≤ vt →
      ((∀ tt version, (store.index.history ids).Sees after.committed vt tt version →
        version.start ≤ fresh.start) ↔ store.WouldGovern vt ids fresh.start) := fun begun =>
    ⟨fun lowest => ⟨begun, fun tt version stored starts =>
        lowest tt version ⟨stored, le_trans (le_of_lt (newest tt version stored)) reached, starts⟩⟩,
      fun governs tt version seen => governs.2 tt version seen.stored seen.begun⟩
  simp only [Shows, record]
  constructor
  · rintro ⟨tt, version, governs, covers, ranked⟩
    by_cases own : tt = now
    · subst own
      obtain rfl := Option.some.inj (History.put_self.symm.trans governs.seen.stored)
      have begun := governs.seen.begun
      exact Or.inl ⟨(lowest_iff begun).mp
        ((History.governs_put_self newest reached begun).mp governs), covers⟩
    · obtain ⟨old, overtakes⟩ := (History.governs_put_of_ne newest own).mp governs
      refine Or.inr ⟨fun would => ?_, tt, version, (same tt version).mp old, covers, ranked⟩
      exact absurd (overtakes reached would.1)
        (not_lt.mpr (would.2 tt version old.seen.stored old.seen.begun))
  · rintro (⟨would, covers⟩ | ⟨loses, tt, version, governs, covers, ranked⟩)
    · exact ⟨now, _, (History.governs_put_self newest reached would.1).mpr
        ((lowest_iff would.1).mpr would), covers, fun least => dated least.2⟩
    · have apart := ne_of_lt (newest tt version governs.seen.stored)
      refine ⟨tt, version, (History.governs_put_of_ne newest apart).mpr
        ⟨(same tt version).mpr governs, fun _ begun => ?_⟩, covers, ranked⟩
      -- Some version that has begun starts later than the new one, so the governing one does.
      by_contra early_start
      refine loses ⟨begun, fun other version' stored starts => ?_⟩
      rcases governs.latest other version' ⟨stored, early other version' stored, starts⟩ with
        before | ⟨equal, _⟩
      · exact le_trans (le_of_lt before) (not_lt.mp early_start)
      · exact equal ▸ not_lt.mp early_start

/-- Which later versions would govern after a new version was recorded. -/
theorem wouldGovern_of_put {after : TripleStore} {ids : QuadIds} {now : Timestamp}
    {fresh : Version Timestamp Bytes} (absent : store.index.history ids now = none)
    (record : after.index.history ids = (store.index.history ids).put now fresh)
    (vt start : Timestamp) : after.WouldGovern vt ids start ↔
      store.WouldGovern vt ids start ∧ (fresh.start ≤ vt → fresh.start ≤ start) := by
  simp only [WouldGovern, record]
  constructor
  · rintro ⟨begun, highest⟩
    refine ⟨⟨begun, fun tt version stored starts => highest tt version ?_ starts⟩,
      fun starts => highest now fresh History.put_self starts⟩
    rw [History.put_of_ne fun same => ?_]
    · exact stored
    · rw [same, absent] at stored
      cases stored
  · rintro ⟨⟨begun, highest⟩, own⟩
    refine ⟨begun, fun tt version stored starts => ?_⟩
    by_cases same : tt = now
    · subst same
      obtain rfl := Option.some.inj (History.put_self.symm.trans stored)
      exact own starts
    · rw [History.put_of_ne same] at stored
      exact highest tt version stored starts

/-- What a snapshot shows after writes that add, in terms of what it showed before. -/
theorem Added.shows_iff {after : TripleStore} {writes : List PendingWrite}
    (added : store.Added ext after writes) (counted : store.Counted) (vt : Timestamp)
    (ids : QuadIds) : after.Shows after.committed vt ids ↔
      match after.lastWrite ext writes ids with
      | none => store.Shows store.committed vt ids
      | some w =>
        (store.WouldGovern vt ids w.triple.temporal.vtStart ∧ vt < w.triple.temporal.vtEnd) ∨
        (¬ store.WouldGovern vt ids w.triple.temporal.vtStart ∧
          store.Shows store.committed vt ids) := by
  have record := added.history ids
  split
  · rename_i none_written
    rw [none_written] at record
    exact shows_of_kept counted added.advanced record vt
  · rename_i w last
    rw [last] at record
    obtain ⟨bytes, record⟩ := record
    have written : writes ≠ [] := by
      rintro rfl
      cases last
    exact shows_of_put counted (added.later written) (le_refl _) record vt

end TripleStore

end Polargraph
