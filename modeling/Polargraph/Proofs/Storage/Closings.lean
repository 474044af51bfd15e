import Polargraph.Proofs.Storage.GraphSteps

/-! What a commit that closes live quads and adds others leaves live. -/

namespace Polargraph

namespace TripleStore

variable {ext : External} {store after : TripleStore}

/-- What is read of a quad at a snapshot is one triple. -/
theorem ReadFrom.unique {ts vt : Timestamp} {ids : QuadIds} {left right : Triple}
    (first : store.ReadFrom ext ts vt ids left) (second : store.ReadFrom ext ts vt ids right) :
    left = right := by
  obtain ⟨tt, version, governs, _, _, rebuilt⟩ := first
  obtain ⟨tt', version', governs', _, _, rebuilt'⟩ := second
  obtain ⟨rfl, rfl⟩ := governs.unique governs'
  exact Except.ok.inj (rebuilt.symm.trans rebuilt')

/-- A store in which the predicates of some writes are interned one after another. -/
def internAll (store : TripleStore) (writes : List PendingWrite) : TripleStore :=
  writes.foldl (fun store w => (store.internPredicate w.triple.predicate).1) store

/-- Interning some predicates keeps the names that are known. -/
theorem predicateId_internAll (writes : List PendingWrite) (store : TripleStore) {name : String}
    {id : PredId} (known : store.predicateId name = some id) :
    (store.internAll writes).predicateId name = some id := by
  induction writes generalizing store with
  | nil => exact known
  | cons w rest ih =>
    exact ih _ ((store.predicateId_internPredicate w.triple.predicate).2 name id known)

/-- Staging interns the predicates of its writes and changes nothing else of the store. -/
theorem stageWrites_internAll {tt : Timestamp} {staging next : Staging}
    {writes : List PendingWrite} (done : stageWrites ext tt store staging writes = (after, .ok next)) :
    after = store.internAll writes := by
  induction writes generalizing store staging with
  | nil => cases done; rfl
  | cons w rest ih =>
    obtain ⟨_, _, done⟩ := stageWrites_cons done
    exact ih done

/-- Two stores know the same predicates, and number the next one the same. -/
structure SameNames (left right : TripleStore) : Prop where
  /-- The same names have the same identifiers. -/
  fwd : left.fwd = right.fwd
  /-- The next identifier is the same. -/
  nextPredId : left.nextPredId = right.nextPredId
  /-- Names are stored in the same form. -/
  canonical : left.canonicalName = right.canonicalName

/-- Interning depends on the predicate tables alone. -/
theorem SameNames.internPredicate {left right : TripleStore} (same : left.SameNames right)
    (pred : String) : (left.internPredicate pred).1.SameNames (right.internPredicate pred).1 := by
  have known : left.fwd (left.canonicalName pred) = right.fwd (right.canonicalName pred) := by
    rw [same.fwd, same.canonical]
  unfold TripleStore.internPredicate
  simp only [known]
  cases right.fwd (right.canonicalName pred) with
  | some id => exact same
  | none =>
    refine ⟨?_, congrArg (· + 1) same.nextPredId, same.canonical⟩
    simp only [same.fwd, same.nextPredId, same.canonical]

/-- Interning depends on the predicate tables alone. -/
theorem SameNames.internAll {left right : TripleStore} (same : left.SameNames right)
    (writes : List PendingWrite) : (left.internAll writes).SameNames (right.internAll writes) := by
  induction writes generalizing left right with
  | nil => exact same
  | cons w rest ih => exact ih (same.internPredicate w.triple.predicate)

/-- Looking up a name depends on the predicate tables alone. -/
theorem SameNames.predicateId {left right : TripleStore} (same : left.SameNames right)
    (name : String) : left.predicateId name = right.predicateId name := by
  rw [predicateId_eq, predicateId_eq, same.fwd, same.canonical]

/-- After a commit the predicates of its writes are interned. -/
theorem predicateId_of_commit {tx : Transaction} {wall time : Timestamp}
    (done : store.commit ext tx wall = (after, .ok time)) (name : String) :
    after.predicateId name = (store.internAll tx.writes).predicateId name := by
  rcases commit_ok done with ⟨_, blank, rfl, _⟩ | ⟨_, _, middle, staging, batch, staged, _, rfl, _⟩
  · rw [blank]
    rfl
  · have same : (store.beginCommit wall).1.SameNames store := ⟨rfl, rfl, rfl⟩
    rw [← (same.internAll tx.writes).predicateId name, ← stageWrites_internAll staged]
    rfl

/-- Interning known predicates changes nothing. -/
theorem internAll_known {writes : List PendingWrite}
    (known : ∀ w ∈ writes, (store.predicateId w.triple.predicate).isSome) :
    store.internAll writes = store := by
  induction writes with
  | nil => rfl
  | cons w rest ih =>
    obtain ⟨id, here⟩ := Option.isSome_iff_exists.mp (known w List.mem_cons_self)
    rw [predicateId_eq] at here
    have same : (store.internPredicate w.triple.predicate).1 = store := by
      simp only [internPredicate, here]
    rw [internAll, List.foldl_cons, same]
    exact ih fun other member => known other (List.mem_cons_of_mem _ member)

/-- The window of a closed quad or annotation ends where it is closed, and starts where it did. -/
theorem temporal_closeAt {now : Timestamp} {triple : Triple} {w : PendingWrite} {ids : QuadIds}
    (own : store.quadOf ext { w with triple := triple } = some ids) :
    (closeAt now triple).temporal = triple.temporal.closeAt now := by
  cases triple with
  | relation | property => rfl
  | edgeProperty | edgeRelation => cases own

/-- A version that starts when the governing one does would govern. -/
theorem wouldGovern_of_governs {ts : Timestamp} (seen : ∀ key bytes, store.index key = some bytes →
    key.tt ≤ ts) {ids : QuadIds} {vt tt : Timestamp} {version : Version Timestamp Bytes}
    (governs : (store.index.history ids).Governs ts vt tt version) :
    store.WouldGovern vt ids version.start := by
  refine ⟨governs.seen.begun, fun other version' stored starts => ?_⟩
  have early := seen ⟨ids, other⟩ _ (Index.history_eq_some.mp stored).1
  rcases governs.latest other version' ⟨stored, early, starts⟩ with before | ⟨equal, _⟩
  · exact le_of_lt before
  · exact le_of_eq equal

/-- A write closes a quad when it starts where the governing version does and has ended. -/
structure Closes (ext : External) (store : TripleStore) (now : Timestamp) (ids : QuadIds)
    (w : PendingWrite) : Prop where
  /-- It closes no other values. -/
  adds : w.Adds
  /-- It is of the quad. -/
  own : store.quadOf ext w = some ids
  /-- It governs from its start on. -/
  governs : store.WouldGovern now ids w.triple.temporal.vtStart
  /-- It has ended. -/
  ended : w.triple.temporal.vtEnd ≤ now

/-- What a snapshot shows of a quad is closed by ending it now. -/
theorem ReadFrom.closes {ts now : Timestamp} {ids : QuadIds} {triple : Triple}
    (keyed : store.Keyed ext) (seen : ∀ key bytes, store.index key = some bytes → key.tt ≤ ts)
    (read : store.ReadFrom ext ts now ids triple) :
    store.Closes ext now ids ⟨closeAt now triple, ids.g, .add⟩ := by
  have own := (read.keyed keyed ids.g .add).1
  obtain ⟨tt, version, governs, covers, window, _⟩ := read
  have closed : (closeAt now triple).temporal = triple.temporal.closeAt now :=
    temporal_closeAt (w := ⟨triple, ids.g, .add⟩) own
  refine ⟨?_, ?_, ?_, ?_⟩
  · cases triple <;> exact fun replaces => by cases replaces
  · rw [quadOf_closeAt, own]
  · rw [show (closeAt now triple).temporal = _ from closed, window]
    exact wouldGovern_of_governs seen governs
  · rw [show (closeAt now triple).temporal = _ from closed, window]
    exact le_of_eq (max_eq_left governs.seen.begun)

/-- The last of two lists of writes is the last of the second, or else of the first. -/
theorem lastWrite_append (ext : External) (store : TripleStore) (first second : List PendingWrite)
    (ids : QuadIds) : store.lastWrite ext (first ++ second) ids =
      (store.lastWrite ext second ids).or (store.lastWrite ext first ids) := by
  rw [lastWrite, List.filter_append, List.getLast?_append]
  rfl

/-- The last write of some is one of them and is of its quad. -/
theorem lastWrite_mem {writes : List PendingWrite} {ids : QuadIds} {w : PendingWrite}
    (last : store.lastWrite ext writes ids = some w) :
    w ∈ writes ∧ store.quadOf ext w = some ids := by
  obtain ⟨written, own⟩ := List.mem_filter.mp (List.mem_of_getLast? last)
  exact ⟨written, of_decide_eq_true own⟩

/-- Only a quad that none of some writes is of has no last write. -/
theorem lastWrite_eq_none {writes : List PendingWrite} {ids : QuadIds} :
    store.lastWrite ext writes ids = none ↔ ∀ w ∈ writes, store.quadOf ext w ≠ some ids := by
  simp [lastWrite]

/-- The last write of a quad stays the same where the same names are known. -/
theorem lastWrite_congr {writes : List PendingWrite}
    (names : ∀ w ∈ writes, after.predicateId w.triple.predicate =
      store.predicateId w.triple.predicate) (ids : QuadIds) :
    after.lastWrite ext writes ids = store.lastWrite ext writes ids := by
  refine congrArg List.getLast? (List.filter_congr fun w member => ?_)
  have same : after.quadOf ext w = store.quadOf ext w := by
    have here := names w member
    obtain ⟨triple, g, mode⟩ := w
    cases triple with
    | relation | property => exact congrArg (Option.map _) here
    | edgeProperty | edgeRelation => rfl
  rw [same]

/-- The quads a commit closes and those it adds are what changes, and an addition has the last word. -/
theorem shows_closed_added {tx : Transaction} {now wall time : Timestamp}
    {closes : List (QuadIds × PendingWrite)} {adds : List PendingWrite} (sound : store.Sound ext)
    (room : store.committed ≠ Timestamp.END_OF_TIME)
    (close : ∀ c ∈ closes, store.Closes ext now c.1 c.2) (add : ∀ w ∈ adds, w.Adds)
    (writes : tx.writes = closes.map Prod.snd ++ adds)
    (done : store.commit ext tx wall = (after, .ok time)) (ids : QuadIds) :
    after.Shows after.committed now ids ↔
      match (store.internAll adds).lastWrite ext adds ids with
      | none => store.Shows store.committed now ids ∧ ids ∉ closes.map Prod.fst
      | some w =>
        (store.WouldGovern now ids w.triple.temporal.vtStart ∧ now < w.triple.temporal.vtEnd) ∨
        (¬ store.WouldGovern now ids w.triple.temporal.vtStart ∧
          store.Shows store.committed now ids) := by
  have each : ∀ w ∈ tx.writes, w.Adds := by
    rw [writes]
    intro w member
    rcases List.mem_append.mp member with closing | addition
    · obtain ⟨c, inside, rfl⟩ := List.mem_map.mp closing
      exact (close c inside).adds
    · exact add w addition
  have added := added_commit sound.keyed.holds (sound.counted room) each done
  -- Closing a quad interns nothing, so the additions alone decide which names are known after.
  have last : after.lastWrite ext adds ids = (store.internAll adds).lastWrite ext adds ids := by
    refine lastWrite_congr (fun w member => ?_) ids
    have filled : tx.writes ≠ [] := by
      rw [writes]
      exact List.append_ne_nil_of_right_ne_nil _ (List.ne_nil_of_mem member)
    have known : store.internAll (closes.map Prod.snd) = store := internAll_known fun w member => by
      obtain ⟨c, inside, rfl⟩ := List.mem_map.mp member
      have here := (close c inside).own
      unfold quadOf at here
      split at here
      · rename_i same
        obtain ⟨p, found, _⟩ := Option.map_eq_some_iff.mp here
        rw [same]
        exact Option.isSome_iff_exists.mpr ⟨p, found⟩
      · rename_i same
        obtain ⟨p, found, _⟩ := Option.map_eq_some_iff.mp here
        rw [same]
        exact Option.isSome_iff_exists.mpr ⟨p, found⟩
      · cases here
      · cases here
    have split_ : store.internAll (closes.map Prod.snd ++ adds) =
        (store.internAll (closes.map Prod.snd)).internAll adds := List.foldl_append
    rw [predicateId_of_commit done, writes, split_, known]
  rw [added.shows_iff (sound.counted room) now ids, writes, lastWrite_append, last]
  cases (store.internAll adds).lastWrite ext adds ids with
  | some w => rfl
  | none =>
    simp only [Option.none_or]
    cases closing : after.lastWrite ext (closes.map Prod.snd) ids with
    | none =>
      refine ⟨fun shows => ⟨shows, fun member => ?_⟩, And.left⟩
      obtain ⟨c, inside, rfl⟩ := List.mem_map.mp member
      exact lastWrite_eq_none.mp closing c.2 (List.mem_map.mpr ⟨c, inside, rfl⟩)
        (quadOf_mono added.names (close c inside).own)
    | some w =>
      -- A closing starts where the version it closes does, so it governs, and it has ended.
      obtain ⟨written, of_ids⟩ := lastWrite_mem closing
      obtain ⟨c, inside, rfl⟩ := List.mem_map.mp written
      have own := Option.some.inj ((quadOf_mono added.names (close c inside).own).symm.trans of_ids)
      subst own
      have member : c.1 ∈ closes.map Prod.fst := List.mem_map.mpr ⟨c, inside, rfl⟩
      simp only [member, not_true, and_false, iff_false]
      rintro (⟨_, open_⟩ | ⟨loses, _⟩)
      · exact absurd open_ (not_lt.mpr (close c inside).ended)
      · exact loses (close c inside).governs

end TripleStore

end Polargraph
