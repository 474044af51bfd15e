import Polargraph.Proofs.Storage.Closings
import Polargraph.Proofs.Storage.Rewriting
import Polargraph.Proofs.Storage.SnapshotStability
import Polargraph.Server.DeleteTriples
import Polargraph.Server.GraphAcl

/-! When a delete request closes exactly the quads it names. -/

namespace Polargraph

variable {ext : External}

namespace UserGraphAccess

/-- A user that manages a graph can write it. -/
def Nested (access : UserGraphAccess) : Prop :=
  ∀ g, g ∈ access.atLeast .admin → g ∈ access.atLeast .write

/-- A user can write the default graph and the graphs where its level is that of writing. -/
theorem Nested.allows_write_iff {access : UserGraphAccess} (nested : access.Nested) (g : GraphId) :
    access.allows g .write = true ↔ g ∈ access.graphsAtLeast .write := by
  have all : access.graphsAtLeast .write = GraphId.DEFAULT :: access.atLeast .write := rfl
  rw [all, List.mem_cons]
  unfold allows level
  split_ifs with default
  · simp [default]
  · -- The levels are tried from the highest down.
    have levels : GraphAccessLevel.ALL.reverse = [.admin, .write, .propose, .read] := rfl
    rw [levels]
    by_cases manages : g ∈ access.atLeast .admin
    · simp [List.find?, manages, nested g manages, GraphAccessLevel.rank]
    · by_cases writes : g ∈ access.atLeast .write
      · simp [List.find?, manages, writes, GraphAccessLevel.rank]
      · simp only [List.find?, List.contains_eq_mem, manages, writes, decide_false, default,
          or_false, iff_false]
        split
        · decide
        · split <;> decide

end UserGraphAccess

namespace TripleStore

variable {store middle after : TripleStore} {now : Timestamp} {closed : QuadIds → Prop}

/-- A quad that some subjects, a filter and its graphs select, with the triple read from it. -/
structure Selected (store : TripleStore) (filter : DeleteFilter) (subjects : List Bytes)
    (ids : QuadIds) (triple : Triple) : Prop where
  /-- Its subject is one of them. -/
  subject : ids.s.uuid.bytes ∈ subjects
  /-- It has the predicate. -/
  predicate : ∀ name, filter.predicate = some name → store.predicateId name = some ids.p
  /-- It is in the graphs. -/
  graph : filter.scope.admits ids.g = true
  /-- It has the object or the value. -/
  selects : filter.selects triple = true

/-- What ends an open-ended triple says it again. -/
theorem closing_eq_some {vtEnd now : Timestamp} {g : GraphId} {triple : Triple} {w : PendingWrite}
    (closed : DeleteFilter.closing vtEnd now g triple = some w) :
    triple.temporal.vtEnd = Timestamp.END_OF_TIME ∧
      w = ⟨triple.during ⟨triple.temporal.vtStart, vtEnd, now⟩, g, .add⟩ := by
  cases triple with
  | relation | property =>
    simp only [DeleteFilter.closing] at closed
    split_ifs at closed with endless
    cases closed
    exact ⟨endless, rfl⟩
  | edgeProperty | edgeRelation => cases closed

/-- An open-ended triple of a quad is ended. -/
theorem closing_of_endless {vtEnd now : Timestamp} {ids : QuadIds} {triple : Triple}
    (own : store.quadOf ext ⟨triple, ids.g, .add⟩ = some ids)
    (endless : triple.temporal.vtEnd = Timestamp.END_OF_TIME) :
    (DeleteFilter.closing vtEnd now ids.g triple).isSome := by
  cases triple with
  | relation | property =>
    simp only [Triple.temporal] at endless
    simp [DeleteFilter.closing, endless]
  | edgeProperty | edgeRelation => cases own

/-- A triple over another window has that window. -/
theorem temporal_during (triple : Triple) (window : BiTemporalRange) :
    (triple.during window).temporal = window := by
  cases triple <;> rfl

/-- A triple over another window is one of the same quad. -/
theorem quadOf_during (triple : Triple) (window : BiTemporalRange) (g : GraphId) (mode : WriteMode) :
    store.quadOf ext ⟨triple.during window, g, mode⟩ = store.quadOf ext ⟨triple, g, mode⟩ := by
  cases triple <;> rfl

/-- The quads that are closed so far, and the rest of the store as it was. -/
structure Closing (ext : External) (store middle : TripleStore) (now : Timestamp)
    (closed : QuadIds → Prop) : Prop where
  /-- The store is intact. -/
  intact : middle.Intact ext
  /-- The versions of before were recorded by its counter. -/
  recorded : ∀ key bytes, store.index key = some bytes → key.tt ≤ store.committed
  /-- The same names are known. -/
  names : ∀ name, middle.predicateId name = store.predicateId name
  /-- The counter does not go back. -/
  advanced : store.committed ≤ middle.committed
  /-- No earlier version is touched. -/
  early : ∀ key : QuadKey, key.tt ≤ store.committed → middle.index key = store.index key
  /-- Everything is rebuilt as it was. -/
  rebuilt : middle.reconstruct ext = store.reconstruct ext
  /-- The history of the other quads stays. -/
  history : ∀ ids, ¬ closed ids → middle.index.history ids = store.index.history ids
  /-- The closed quads are not live, and all others are as they were. -/
  shows : ∀ ids, middle.Shows middle.committed now ids ↔
    store.Shows store.committed now ids ∧ ¬ closed ids
  /-- What governed is started by nothing later. -/
  governs : ∀ ids start, store.WouldGovern now ids start → middle.WouldGovern now ids start
  /-- A closed quad has a later version. -/
  later : ∀ ids, closed ids → ∃ tt version, middle.index.history ids tt = some version ∧
    store.committed < tt
  /-- If none is closed nothing has happened. -/
  same : (∀ ids, ¬ closed ids) → middle = store

/-- At first nothing is closed. -/
theorem Closing.refl (intact : store.Intact ext) (now : Timestamp) :
    Closing ext store store now (fun _ => False) where
  intact := intact
  recorded := intact.sound.recorded
  names _ := rfl
  advanced := le_refl _
  early _ _ := rfl
  rebuilt := rfl
  history _ _ := rfl
  shows _ := by simp
  governs _ _ governs := governs
  later _ closed := absurd closed id
  same _ := rfl

/-- What was read before is still read at the time of before. -/
theorem Closing.readFrom_iff (closing : Closing ext store middle now closed) {ids : QuadIds}
    {triple : Triple} :
    middle.ReadFrom ext store.committed now ids triple ↔
      store.ReadFrom ext store.committed now ids triple := by
  have agree : ∀ tt ≤ store.committed, middle.index.history ids tt = store.index.history ids tt := by
    intro tt reached
    simp only [Index.history, closing.early ⟨ids, tt⟩ reached]
  simp only [ReadFrom, History.governs_congr agree, closing.rebuilt]

/-- A triple is live when its quad is shown and it was read from it. -/
def LiveTriple (ext : External) (store : TripleStore) (now : Timestamp) (ids : QuadIds)
    (triple : Triple) : Prop :=
  store.Shows store.committed now ids ∧ store.ReadFrom ext store.committed now ids triple

/-- A quad is closed for some subjects when it is selected and open-ended. -/
def Closed (ext : External) (store : TripleStore) (filter : DeleteFilter) (now : Timestamp)
    (subjects : List Bytes) (ids : QuadIds) : Prop :=
  ∃ triple, store.LiveTriple ext now ids triple ∧ store.Selected filter subjects ids triple ∧
    triple.temporal.vtEnd = Timestamp.END_OF_TIME

/-- What was shown before is still shown at the time of before. -/
theorem Closing.shows_iff (closing : Closing ext store middle now closed) {ids : QuadIds} :
    middle.Shows store.committed now ids ↔ store.Shows store.committed now ids := by
  have agree : ∀ tt ≤ store.committed, middle.index.history ids tt = store.index.history ids tt := by
    intro tt reached
    simp only [Index.history, closing.early ⟨ids, tt⟩ reached]
  simp only [Shows, History.governs_congr agree]

/-- The writes of buffered closings. -/
theorem buffered_closings (tx : Transaction) (writes : List PendingWrite) :
    writes.foldl (fun (tx : Transaction) w => tx.insertIn w.triple w.graph w.mode) tx =
      { tx with writes := tx.writes ++ writes } := by
  induction writes generalizing tx with
  | nil => simp
  | cons w rest ih =>
    rw [List.foldl_cons, ih]
    simp [Transaction.insertIn]

/-- What one subject's scan closes: the quads, each with the write that closes it. -/
theorem exists_closes (closing : Closing ext store middle now closed)
    (filter : DeleteFilter) {id : Bytes} (width : id.length = 16) :
    ∃ (found : List (GraphId × Triple)) (closes : List (QuadIds × PendingWrite)),
      middle.scanScopedAt ext (some ⟨⟨id, width⟩⟩) filter.predicate none filter.scope
        ⟨store.committed, none, none⟩ now = .ok found ∧
      filter.closings now now found = closes.map Prod.snd ∧
      (∀ ids, ids ∈ closes.map Prod.fst ↔ store.Closed ext filter now [id] ids) ∧
      ∀ c ∈ closes, middle.Closes ext now c.1 c.2 ∧ middle.Restates ext c.2 ∧
        ∃ tt version, store.index.history c.1 tt = some version ∧ version.start ≤ now ∧
          c.2.triple.temporal.vtStart = version.start := by
  have keyed := closing.intact.sound.keyed
  obtain ⟨found, scanned⟩ := closing.intact.scans (some ⟨⟨id, width⟩⟩) filter.predicate none
    filter.scope ⟨store.committed, none, none⟩ now
  obtain ⟨quads, rfl, result⟩ := scanScopedAt_spec keyed.holds scanned
  let close := fun quad : QuadIds × Triple =>
    (if filter.selects quad.2 then DeleteFilter.closing now now quad.1.g quad.2 else none).map
      fun w => (quad.1, w)
  -- Each closing is of a quad that was read, selected and open-ended.
  have each : ∀ c ∈ quads.filterMap close, ∃ triple, (c.1, triple) ∈ quads ∧
      filter.selects triple = true ∧ triple.temporal.vtEnd = Timestamp.END_OF_TIME ∧
      c.2 = ⟨triple.during ⟨triple.temporal.vtStart, now, now⟩, c.1.g, .add⟩ := by
    intro c member
    obtain ⟨⟨ids, triple⟩, inside, closed⟩ := List.mem_filterMap.mp member
    obtain ⟨w, written, rfl⟩ := Option.map_eq_some_iff.mp closed
    split_ifs at written with selected
    obtain ⟨endless, said⟩ := closing_eq_some written
    exact ⟨triple, inside, selected, endless, said⟩
  have read : ∀ quad ∈ quads, middle.ReadFrom ext store.committed now quad.1 quad.2 := result.read
  refine ⟨_, quads.filterMap close, scanned, ?_, fun ids => ?_, fun c member => ?_⟩
  · -- The same quads are gone through, with or without their identity.
    rw [DeleteFilter.closings, List.filterMap_map, List.map_filterMap]
    refine List.filterMap_congr fun quad _ => ?_
    simp only [Function.comp_apply, close, Option.map_map]
    split_ifs <;> simp
  · constructor
    · intro member
      obtain ⟨c, inside, rfl⟩ := List.mem_map.mp member
      obtain ⟨triple, listed, selected, endless, _⟩ := each c inside
      obtain ⟨wanted, shows⟩ := (result.mem_iff c.1).mp (List.mem_map.mpr ⟨_, listed, rfl⟩)
      refine ⟨triple, ⟨closing.shows_iff.mp shows, closing.readFrom_iff.mp (read _ listed)⟩,
        ⟨?_, fun name given => ?_, wanted.scope, selected⟩, endless⟩
      · rw [wanted.subject _ rfl]
        exact List.mem_singleton_self _
      · rw [← closing.names]
        exact wanted.predicate name given
    · rintro ⟨triple, ⟨shows, before⟩, selected, endless⟩
      have wanted : middle.Wanted (some ⟨⟨id, width⟩⟩) filter.predicate none filter.scope
          ⟨store.committed, none, none⟩ ids := by
        refine ⟨fun node same => ?_, fun name given => ?_, fun _ => nofun, selected.graph, rfl⟩
        · obtain rfl := Option.some.inj same
          exact NodeId.ext (Uuid.ext (List.mem_singleton.mp selected.subject))
        · rw [closing.names]
          exact selected.predicate name given
      obtain ⟨⟨own, triple'⟩, listed, rfl⟩ := List.mem_map.mp
        ((result.mem_iff ids).mpr ⟨wanted, closing.shows_iff.mpr shows⟩)
      obtain rfl := ReadFrom.unique (closing.readFrom_iff.mp (read _ listed)) before
      obtain ⟨w, written⟩ := Option.isSome_iff_exists.mp
        (@closing_of_endless ext middle now now own triple'
          ((read _ listed).keyed keyed own.g .add).1 endless)
      exact List.mem_map.mpr ⟨(own, w), List.mem_filterMap.mpr ⟨_, listed, by
        simp only [close, selected.selects, if_true, written, Option.map_some]⟩, rfl⟩
  · obtain ⟨triple, listed, _, endless, said⟩ := each c member
    have own := ((read _ listed).keyed keyed c.1.g .add).1
    obtain ⟨tt, version, governs, _, window, _⟩ := closing.readFrom_iff.mp (read _ listed)
    have starts : (triple.during ⟨triple.temporal.vtStart, now, now⟩).temporal =
        ⟨version.start, now, now⟩ := by
      rw [temporal_during, window]
    refine ⟨⟨?_, ?_, ?_, ?_⟩, ?_, tt, version, governs.seen.stored, governs.seen.begun,
      by simp only [said, starts]⟩
    · rw [said]
      cases triple <;> exact fun replaces => by cases replaces
    · rw [said, quadOf_during, own]
    · simp only [said, starts]
      exact closing.governs _ _ (wouldGovern_of_governs closing.recorded governs)
    · simp only [said, starts]
      exact le_refl _
    · obtain ⟨time, version', governs', _, _, rebuilt⟩ := read _ listed
      exact ⟨⟨c.1, time⟩, _, triple, _, (Index.history_eq_some.mp governs'.seen.stored).1, rebuilt,
        by rw [said], by rw [said]⟩

/-- Closing the quads of one more subject. -/
theorem Closing.step (closing : Closing ext store middle now closed) {commits : Nat}
    (room : middle.HasRoom now (commits + 1)) (filter : DeleteFilter) (author : String) {id : Bytes}
    (width : id.length = 16) : ∃ after count,
      middle.deleteSubject ext filter author store.committed now now id = (after, .ok count) ∧
      after.HasRoom now commits ∧
      Closing ext store after now (fun ids => closed ids ∨ store.Closed ext filter now [id] ids) := by
  obtain ⟨found, closes, scanned, writes, named, each⟩ := exists_closes closing filter width
  have space := room.room
  have counted := closing.intact.sound.counted space
  let tx : Transaction := ⟨middle.committed, closes.map Prod.snd, [], author, []⟩
  have buffered : (filter.closings now now found).foldl
      (fun (tx : Transaction) w => tx.insertIn w.triple w.graph w.mode)
      (middle.begin.setAuthor author) = tx := by
    rw [buffered_closings, writes]
    rfl
  have restates : ∀ w ∈ tx.writes, middle.Restates ext w := by
    intro w member
    obtain ⟨c, inside, rfl⟩ := List.mem_map.mp member
    exact (each c inside).2.1
  have adds : ∀ w ∈ tx.writes, w.Adds := by
    intro w member
    obtain ⟨c, inside, rfl⟩ := List.mem_map.mp member
    exact (each c inside).1.adds
  obtain ⟨⟨time, done⟩, names, _⟩ := closing.intact.commit_restating space restates (le_refl _) rfl now
  have rebuilt := closing.intact.reconstruct_restating space restates (le_refl _) rfl now
  have intact := closing.intact.commit space
    (fun w member => closing.intact.stable_restating (restates w member)) now
  have left := @HasRoom.commit ext _ _ _ room tx
  obtain ⟨after, result, committed⟩ : ∃ after result, middle.commit ext tx now = (after, result) :=
    ⟨_, _, rfl⟩
  rw [committed] at done names rebuilt intact left
  simp only at done names rebuilt intact left
  subst done
  have added := added_commit closing.intact.sound.keyed.holds counted adds committed
  refine ⟨after, (filter.closings now now found).length, ?_, left, ?_⟩
  · simp only [deleteSubject, nodeFromSlice, dif_pos width, scanned, buffered, committed]
  by_cases nothing : closes = []
  · -- Nothing is committed.
    subst nothing
    obtain rfl : middle = after := by
      have empty : tx.isEmpty = true := rfl
      rw [TripleStore.commit, if_pos empty] at committed
      exact (Prod.mk.inj committed).1
    have none_closed : ∀ ids, ¬ store.Closed ext filter now [id] ids := fun ids closed =>
      absurd ((named ids).mpr closed) List.not_mem_nil
    have same : (fun ids => closed ids ∨ store.Closed ext filter now [id] ids) = closed :=
      funext fun ids => propext (or_iff_left (none_closed ids))
    rw [same]
    exact closing
  · have filled : tx.writes ≠ [] := fun blank => nothing (List.map_eq_nil_iff.mp blank)
    have later := added.later filled
    have fresh : ∀ ids, middle.index.history ids after.committed = none := by
      intro ids
      cases stored : middle.index.history ids after.committed with
      | none => rfl
      | some version =>
        have early := closing.intact.sound.recorded ⟨ids, after.committed⟩ _
          (Index.history_eq_some.mp stored).1
        exact absurd later (not_lt.mpr early)
    -- A quad is left alone, or has the write of a closing put into its history.
    have record : ∀ ids, ((∀ c ∈ closes, c.1 ≠ ids) ∧
          after.index.history ids = middle.index.history ids) ∨
        ∃ c ∈ closes, c.1 = ids ∧ ∃ bytes, after.index.history ids =
          (middle.index.history ids).put after.committed
            ⟨c.2.triple.temporal.vtStart, c.2.triple.temporal.vtEnd, bytes⟩ := by
      intro ids
      have history := added.history ids
      cases last : after.lastWrite ext tx.writes ids with
      | none =>
        rw [last] at history
        refine Or.inl ⟨fun c inside own => ?_, history⟩
        refine lastWrite_eq_none.mp last c.2 (List.mem_map.mpr ⟨c, inside, rfl⟩) ?_
        rw [← own]
        exact quadOf_mono added.names (each c inside).1.own
      | some w =>
        rw [last] at history
        obtain ⟨written, own⟩ := lastWrite_mem last
        obtain ⟨c, inside, rfl⟩ := List.mem_map.mp written
        have same := (quadOf_mono added.names (each c inside).1.own).symm.trans own
        exact Or.inr ⟨c, inside, Option.some.inj same, history⟩
    have touched : ∀ ids, store.Closed ext filter now [id] ids ↔ ∃ c ∈ closes, c.1 = ids := by
      intro ids
      rw [← named ids, List.mem_map]
    refine ⟨intact, closing.recorded, fun name => (names name).trans (closing.names name),
      le_trans closing.advanced added.advanced, fun key early => ?_,
      rebuilt.trans closing.rebuilt, fun ids open_ => ?_, fun ids => ?_, fun ids start governs => ?_,
      fun ids was => ?_, fun none_closed => ?_⟩
    · obtain ⟨_, stamped⟩ := @committed_commit ext _ space tx now
      have index := @index_commit ext _ closing.intact.sound.keyed.holds tx now
      rw [committed] at stamped index
      rw [← closing.early key early, show after.index = _ from index]
      -- What is written is dated after everything before.
      refine Index.putAll_of_forall_ne _ fun quad member same => ?_
      have dated := stamped quad member
      rw [same] at dated
      rw [dated] at early
      exact absurd (lt_of_le_of_lt closing.advanced later) (not_lt.mpr early)
    · rcases record ids with ⟨_, kept⟩ | ⟨c, inside, own, _⟩
      · exact kept.trans (closing.history ids fun before => open_ (Or.inl before))
      · exact absurd (Or.inr ((touched ids).mpr ⟨c, inside, own⟩)) open_
    · have shows := shows_closed_added closing.intact.sound space (fun c inside => (each c inside).1)
        (fun w member => absurd member List.not_mem_nil) (List.append_nil tx.writes).symm committed ids
      have blank : (middle.internAll []).lastWrite ext [] ids = none := rfl
      rw [blank] at shows
      simp only at shows
      rw [shows, closing.shows, named ids]
      tauto
    · rcases record ids with ⟨_, kept⟩ | ⟨c, inside, rfl, bytes, put⟩
      · rw [WouldGovern, kept]
        exact closing.governs ids start governs
      · refine (wouldGovern_of_put (fresh c.1) put now start).mpr
          ⟨closing.governs c.1 start governs, fun _ => ?_⟩
        obtain ⟨_, _, tt, version, stored, begun, starts⟩ := each c inside
        simp only [starts]
        exact governs.2 tt version stored begun
    · rcases record ids with ⟨untouched, kept⟩ | ⟨c, inside, rfl, bytes, put⟩
      · rcases was with before | now_
        · rw [kept]
          exact closing.later ids before
        · obtain ⟨c, inside, own⟩ := (touched ids).mp now_
          exact absurd own (untouched c inside)
      · refine ⟨after.committed, _, by rw [put]; exact History.put_self,
          lt_of_le_of_lt closing.advanced later⟩
    · obtain ⟨c, inside⟩ := List.exists_mem_of_ne_nil _ nothing
      exact absurd (Or.inr ((touched c.1).mpr ⟨c, inside, rfl⟩)) (none_closed c.1)

/-- A quad is closed for the first subject or for one of the others. -/
theorem closed_cons {filter : DeleteFilter} {id : Bytes} {rest : List Bytes} {ids : QuadIds} :
    store.Closed ext filter now (id :: rest) ids ↔
      store.Closed ext filter now [id] ids ∨ store.Closed ext filter now rest ids := by
  constructor
  · rintro ⟨triple, live, ⟨subject, predicate, graph, selects⟩, endless⟩
    rcases List.mem_cons.mp subject with here | later
    · exact Or.inl ⟨triple, live, ⟨List.mem_singleton.mpr here, predicate, graph, selects⟩, endless⟩
    · exact Or.inr ⟨triple, live, ⟨later, predicate, graph, selects⟩, endless⟩
  · rintro (⟨triple, live, selected, endless⟩ | ⟨triple, live, selected, endless⟩)
    · exact ⟨triple, live, ⟨List.mem_cons.mpr (Or.inl (List.mem_singleton.mp selected.subject)),
        selected.predicate, selected.graph, selected.selects⟩, endless⟩
    · exact ⟨triple, live, ⟨List.mem_cons_of_mem _ selected.subject, selected.predicate,
        selected.graph, selected.selects⟩, endless⟩

/-- No quad is closed for no subject. -/
theorem Closing.nil (closing : Closing ext store middle now closed) (filter : DeleteFilter) :
    Closing ext store middle now (fun ids => closed ids ∨ store.Closed ext filter now [] ids) := by
  have same : (fun ids => closed ids ∨ store.Closed ext filter now [] ids) = closed :=
    funext fun ids => propext (or_iff_left fun ⟨_, _, selected, _⟩ =>
      absurd selected.subject List.not_mem_nil)
  rw [same]
  exact closing

/-- The subjects before the first identifier that is malformed. -/
def wellFormed (ids : List Bytes) : List Bytes := ids.takeWhile (fun id => decide (id.length = 16))

/-- Closing the quads of one subject after another, up to the first that is malformed. -/
theorem Closing.run (closing : Closing ext store middle now closed) (filter : DeleteFilter)
    (author : String) {subjects : List Bytes} (room : middle.HasRoom now subjects.length) :
    ∃ after result,
      deleteSubjects ext filter author store.committed now now middle subjects = (after, result) ∧
      (result.isOk = true ↔ ∀ id ∈ subjects, id.length = 16) ∧
      Closing ext store after now
        (fun ids => closed ids ∨ store.Closed ext filter now (wellFormed subjects) ids) := by
  -- The induction is on the subjects that are left.
  induction subjects generalizing middle closed with
  | nil => exact ⟨middle, .ok 0, rfl, by simp [Except.isOk, Except.toBool], closing.nil filter⟩
  | cons id rest ih =>
    by_cases width : id.length = 16
    · obtain ⟨between, count, done, left, next⟩ := closing.step room filter author width
      obtain ⟨after, result, others, succeeds, last⟩ := ih next left
      have all : (fun ids => closed ids ∨ store.Closed ext filter now (wellFormed (id :: rest)) ids) =
          fun ids => (closed ids ∨ store.Closed ext filter now [id] ids) ∨
            store.Closed ext filter now (wellFormed rest) ids := by
        funext ids
        have head : wellFormed (id :: rest) = id :: wellFormed rest := by simp [wellFormed, width]
        rw [head, closed_cons, or_assoc]
      rw [all]
      cases result with
      | ok more =>
        refine ⟨after, .ok (count + more), ?_, ?_, last⟩
        · simp only [deleteSubjects, done, others]
        · simpa [Except.isOk, Except.toBool, width] using succeeds
      | error refused =>
        refine ⟨after, .error refused, ?_, ?_, last⟩
        · simp only [deleteSubjects, done, others]
        · simpa [Except.isOk, Except.toBool, width] using succeeds
    · -- A malformed identifier ends the request where it stands.
      have none_ : wellFormed (id :: rest) = [] := by simp [wellFormed, width]
      rw [none_]
      refine ⟨middle, .error (.status .invalidArgument "subject_ids must be 16-byte UUIDs"), ?_, ?_,
        closing.nil filter⟩
      · simp only [deleteSubjects, deleteSubject, nodeFromSlice, dif_neg width]
      · simp [Except.isOk, Except.toBool, width]

/-- What is live of a quad that is not closed stays live. -/
theorem Closing.liveTriple_iff (closing : Closing ext store after now closed) {ids : QuadIds}
    (open_ : ¬ closed ids) (triple : Triple) :
    after.LiveTriple ext now ids triple ↔ store.LiveTriple ext now ids triple := by
  have recorded : ∀ tt version, store.index.history ids tt = some version → tt ≤ store.committed :=
    fun tt version stored => closing.recorded ⟨ids, tt⟩ _ (Index.history_eq_some.mp stored).1
  simp only [LiveTriple, closing.shows, open_, not_false_eq_true, and_true, ReadFrom,
    closing.history ids open_, closing.rebuilt,
    History.governs_of_recorded recorded closing.advanced]

/-- A quad that a delete request names, with the triple read from it. -/
structure Requested (store : TripleStore) (access : Option UserGraphAccess)
    (request : DeleteTriplesRequest) (ids : QuadIds) (triple : Triple) : Prop where
  /-- Its subject is named. -/
  subject : ids.s.uuid.bytes ∈ request.subjectIds
  /-- It has the predicate, if one is given. -/
  predicate : request.predicate ≠ "" → store.predicateId request.predicate = some ids.p
  /-- It is a relation to the object, if one is given. -/
  object : request.objectId ≠ [] → ∃ subject predicate object edgeId temporal,
    triple = .relation subject predicate object edgeId temporal ∧
      object.uuid.bytes = request.objectId
  /-- It is a property with an equal value, if one is given. -/
  value : ∀ value, request.value = some value → ∃ subject predicate held temporal,
    triple = .property subject predicate held temporal ∧ value.same held = true
  /-- It is in a graph of the request. -/
  graph : ∃ scope, store.deleteScope request.graph = .ok scope ∧ scope.admits ids.g = true
  /-- The caller can write that graph. -/
  writable : ∀ own, access = some own → own.allows ids.g .write = true

/-- The graphs that a caller can write are those of the scope that it can write. -/
theorem admits_writableScope {access : Option UserGraphAccess} {scope writable : GraphScope}
    (nested : ∀ own, access = some own → own.Nested)
    (done : writableScope access scope = .ok writable) (g : GraphId) :
    writable.admits g = true ↔
      scope.admits g = true ∧ ∀ own, access = some own → own.allows g .write = true := by
  cases access with
  | none =>
    cases done
    simp
  | some own =>
    have set : ∀ other : GraphScope,
        (GraphScope.ofGraphs ((own.graphsAtLeast .write).filter other.admits)).admits g = true ↔
          other.admits g = true ∧ own.allows g .write = true := by
      intro other
      rw [(nested own rfl).allows_write_iff]
      simp [GraphScope.ofGraphs, GraphScope.admits, and_comm]
    simp only [Option.some.injEq, forall_eq']
    cases scope with
    | one want =>
      obtain ⟨_, allowed, same⟩ := Except.map_eq_ok.mp done
      subst same
      unfold requireLevel at allowed
      simp only at allowed
      split_ifs at allowed with forbidden
      have writes : own.allows want .write = true := by simpa using forbidden
      simp only [GraphScope.admits, decide_eq_true_eq]
      exact ⟨fun same => ⟨same, same ▸ writes⟩, And.left⟩
    | union | named | set =>
      cases done
      exact set _

/-- A value that a request gives stays as it is. -/
theorem eq_of_valueFromProto {value checked : Value} (valid : valueFromProto value = .ok checked) :
    checked = value := by
  unfold valueFromProto at valid
  split at valid
  · split_ifs at valid
    cases valid
    rfl
  · split_ifs at valid
    cases valid
    rfl
  · cases valid
    rfl

/-- What a filter selects is what the request names. -/
theorem selected_iff {access : Option UserGraphAccess} {request : DeleteTriplesRequest}
    {filter : DeleteFilter} (nested : ∀ own, access = some own → own.Nested)
    (done : store.deleteFilter access request = .ok filter) {subjects : List Bytes} {ids : QuadIds}
    {triple : Triple} (quad : ofQuad ⟨triple, ids.g, .add⟩ = true) : store.Selected filter subjects ids triple ↔
      store.Requested access { request with subjectIds := subjects } ids triple := by
  obtain ⟨_, _, done⟩ := Except.bind_eq_ok.mp done
  obtain ⟨object, slot, done⟩ := Except.bind_eq_ok.mp done
  obtain ⟨value, held, done⟩ := Except.bind_eq_ok.mp done
  by_cases both : (object.isSome && value.isSome) = true
  · rw [if_pos both] at done
    cases done
  rw [if_neg both] at done
  obtain ⟨scope, bounded, done⟩ := Except.bind_eq_ok.mp done
  obtain ⟨writable, limited, done⟩ := Except.bind_eq_ok.mp done
  cases done
  have graphs := admits_writableScope nested limited ids.g
  -- The value of a request is checked, and stays as it is.
  have same : value = request.value := by
    cases given : request.value with
    | none =>
      rw [given] at held
      cases held
      rfl
    | some own =>
      rw [given] at held
      obtain ⟨checked, valid, rest⟩ := Except.bind_eq_ok.mp held
      cases rest
      rw [eq_of_valueFromProto valid]
  subst same
  have objects : object = none ∧ request.objectId = [] ∨
      ∃ node : NodeId, object = some node ∧ request.objectId = node.uuid.bytes ∧
        request.objectId ≠ [] := by
    unfold DeleteTriplesRequest.object at slot
    split_ifs at slot with blank
    · cases slot
      exact Or.inl ⟨rfl, blank⟩
    · obtain ⟨node, parsed, rfl⟩ := Except.map_eq_ok.mp slot
      unfold nodeFromSlice at parsed
      split_ifs at parsed
      cases parsed
      exact Or.inr ⟨_, rfl, rfl, blank⟩
  have predicates : (∀ name, (if request.predicate = "" then none else some request.predicate) =
      some name → store.predicateId name = some ids.p) ↔
        (request.predicate ≠ "" → store.predicateId request.predicate = some ids.p) := by
    split_ifs with blank
    · simp [blank]
    · simp [blank]
  -- An object excludes properties, and a value excludes relations.
  have selects : DeleteFilter.selects ⟨if request.predicate = "" then none
        else some request.predicate, object, request.value, writable⟩ triple = true ↔
      ofQuad ⟨triple, ids.g, .add⟩ = true ∧
      (request.objectId ≠ [] → ∃ subject predicate object edgeId temporal,
        triple = .relation subject predicate object edgeId temporal ∧
          object.uuid.bytes = request.objectId) ∧
      ∀ value, request.value = some value → ∃ subject predicate held temporal,
        triple = .property subject predicate held temporal ∧ value.same held = true := by
    rcases objects with ⟨rfl, blank⟩ | ⟨node, rfl, given, filled⟩
    · cases triple <;> cases request.value <;> simp [DeleteFilter.selects, ofQuad, blank]
    · have nothing : request.value = none := by simpa using both
      cases triple with
      | relation subject predicate object edgeId temporal =>
        have same : node = object ↔ object.uuid.bytes = node.uuid.bytes :=
          ⟨fun same => by rw [same], fun same => NodeId.ext (Uuid.ext same.symm)⟩
        rw [given] at filled ⊢
        simp [DeleteFilter.selects, ofQuad, nothing, filled, same]
      | property | edgeProperty | edgeRelation =>
        simp [DeleteFilter.selects, ofQuad, filled]
  constructor
  · rintro ⟨subject, predicate, graph, selected⟩
    obtain ⟨reach, writes⟩ := graphs.mp graph
    obtain ⟨_, object, value⟩ := selects.mp selected
    exact ⟨subject, predicates.mp predicate, object, value, ⟨scope, bounded, reach⟩, writes⟩
  · rintro ⟨subject, predicate, object, value, ⟨other, named, reach⟩, writes⟩
    obtain rfl := Except.ok.inj (named.symm.trans bounded)
    exact ⟨subject, predicates.mpr predicate, graphs.mpr ⟨reach, writes⟩,
      selects.mpr ⟨quad, object, value⟩⟩

/-- A delete request leaves a store intact. -/
theorem Intact.deleteTriples (intact : store.Intact ext) {access : Option UserGraphAccess}
    {author : String} {request : DeleteTriplesRequest}
    (room : store.HasRoom now request.subjectIds.length) (unset : request.vtEnd = Timestamp.zero) :
    (store.deleteTriples ext access author request now).1.Intact ext := by
  unfold TripleStore.deleteTriples
  split
  · exact intact
  · rename_i filter _
    obtain ⟨after, result, done, _, closing⟩ := (Closing.refl intact now).run filter author room
    simp only [unset, if_true, readTs, done]
    exact closing.intact

/-- A triple that was read is not an annotation. -/
theorem LiveTriple.ofQuad (intact : store.Intact ext) {ids : QuadIds} {triple : Triple}
    (live : store.LiveTriple ext now ids triple) :
    TripleStore.ofQuad ⟨triple, ids.g, .add⟩ = true := by
  have own := (live.2.keyed intact.sound.keyed ids.g .add).1
  cases triple with
  | relation | property => rfl
  | edgeProperty | edgeRelation => cases own

/-- What a delete request should do when it succeeds. -/
structure DeletesExactly (ext : External) (store after : TripleStore)
    (access : Option UserGraphAccess) (request : DeleteTriplesRequest) (now : Timestamp) : Prop where
  /-- No live quad is named by the request. -/
  gone : ∀ ids triple, after.LiveTriple ext now ids triple →
    ¬ store.Requested access request ids triple
  /-- Every live quad that was not named is live as it was. -/
  kept : ∀ ids triple, store.LiveTriple ext now ids triple →
    ¬ store.Requested access request ids triple → after.LiveTriple ext now ids triple
  /-- Reads at earlier transaction times find the same versions. -/
  alike : ∀ ts ≤ store.committed, ReadsAlike ext ts store after
  /-- They read the same triples from them. -/
  earlier : ∀ ts ≤ store.committed, ∀ vt ids triple,
    after.ReadFrom ext ts vt ids triple ↔ store.ReadFrom ext ts vt ids triple

/-- What a delete request should do: delete exactly what it names, or nothing when it fails. -/
def Deletes (ext : External) (store : TripleStore) (access : Option UserGraphAccess)
    (author : String) (request : DeleteTriplesRequest) (now : Timestamp) : Prop :=
  match store.deleteTriples ext access author request now with
  | (after, .ok _) => DeletesExactly ext store after access request now
  | (after, .error _) => after = store

/--
A request that is not refused is deletable in two cases.

Either its subjects are all well-formed and every live quad it names is open-ended, or one is malformed
and no live quad it names of the subjects before is open-ended.
-/
def Deletable (ext : External) (store : TripleStore) (access : Option UserGraphAccess)
    (request : DeleteTriplesRequest) (now : Timestamp) : Prop :=
  (store.deleteFilter access request).isOk = true →
    ((∀ id ∈ request.subjectIds, id.length = 16) → ∀ ids triple,
      store.LiveTriple ext now ids triple → store.Requested access request ids triple →
        triple.temporal.vtEnd = Timestamp.END_OF_TIME) ∧
    ((¬ ∀ id ∈ request.subjectIds, id.length = 16) → ∀ ids triple,
      store.LiveTriple ext now ids triple →
        store.Requested access { request with subjectIds := wellFormed request.subjectIds } ids triple →
          triple.temporal.vtEnd ≠ Timestamp.END_OF_TIME)

/-- A store in which two nodes are related until a time. -/
def relatedUntil (vtEnd : Timestamp) : TripleStore :=
  (create.commit External.unreached (create.begin.insertIn (.relation (NodeId.ofByte 1) "knows"
    (NodeId.ofByte 2) ⟨(NodeId.ofByte 3).uuid⟩ ⟨Timestamp.zero, vtEnd, Timestamp.zero⟩)
      GraphId.DEFAULT .add) (Timestamp.wrap 5)).1

/-- The store with one relation is intact. -/
theorem relatedUntil_intact (vtEnd : Timestamp) : (relatedUntil vtEnd).Intact External.unreached := by
  have created : create.Intact External.unreached :=
    intact_configured External.unreached DEFAULT_INLINE_VALUE_MAX_BYTES Vocabulary.default true
  refine created.commit nofun (fun w member => ?_) _
  obtain rfl := List.mem_singleton.mp member
  exact fun _ _ _ _ => nofun

/-- A request to delete everything about some subjects. -/
def deleting (subjects : List Bytes) : DeleteTriplesRequest :=
  ⟨subjects, "", Timestamp.zero, [], none, none⟩

/-- The relation of that store that ends later. -/
def relatedTriple : Triple :=
  .relation (NodeId.ofByte 1) (Vocabulary.default.canonicalPredicate "knows") (NodeId.ofByte 2)
    ⟨(NodeId.ofByte 3).uuid⟩ ⟨Timestamp.zero, Timestamp.wrap 100, Timestamp.wrap 5⟩

/-- What a request that deletes a subject leaves of the store with one relation. -/
def afterDeleting (vtEnd : Timestamp) (subjects : List Bytes) : TripleStore × Except Status Nat :=
  (relatedUntil vtEnd).deleteTriples External.unreached none "" (deleting subjects)
    (Timestamp.wrap 10)

end TripleStore

end Polargraph
