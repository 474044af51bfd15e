import Polargraph.Proofs.Storage.Closings
import Polargraph.Server.ApplyChanges

/-! What a changeset leaves live. -/

namespace Polargraph

namespace TripleStore

variable {ext : External} {store middle after : TripleStore}

/-- No quad was written, and no predicate interned. -/
structure Unwritten (ext : External) (store after : TripleStore) : Prop where
  /-- The store stays sound. -/
  sound : after.Sound ext
  /-- The versions stay. -/
  index : after.index = store.index
  /-- The counter does not go back. -/
  advanced : store.committed ≤ after.committed
  /-- The same names are known. -/
  names : ∀ name, after.predicateId name = store.predicateId name

/-- Nothing is written between a store and itself. -/
theorem Unwritten.refl (sound : store.Sound ext) : store.Unwritten ext store :=
  ⟨sound, rfl, le_refl _, fun _ => rfl⟩

/-- Writing nothing twice is writing nothing. -/
theorem Unwritten.trans (first : store.Unwritten ext middle) (second : middle.Unwritten ext after) :
    store.Unwritten ext after where
  sound := second.sound
  index := second.index.trans first.index
  advanced := le_trans first.advanced second.advanced
  names name := (second.names name).trans (first.names name)

/-- A commit without writes writes nothing. -/
theorem unwritten_commit (sound : store.Sound ext) (room : store.committed ≠ Timestamp.END_OF_TIME)
    {tx : Transaction} (blank : tx.writes = []) (wall : Timestamp) :
    store.Unwritten ext (store.commit ext tx wall).1 := by
  have stages : ∀ before commitTs, stagedQuads ext before tx commitTs = [] := by
    intro before commitTs
    simp only [stagedQuads, blank, stageWrites, Staging.none]
    split <;> rfl
  refine ⟨sound.commit room tx (by simp [blank]) wall, ?_, (committed_commit room tx wall).1,
    fun name => ?_⟩
  · rw [index_commit sound.keyed.holds]
    refine commit_rule ext store tx wall (fun _ => rfl) (fun _ => rfl) fun _ => ?_
    rw [stages]
    rfl
  · refine commit_keeps ext store tx wall rfl rfl ?_ fun _ _ same => same
    rw [blank]
    rfl

/-- Creating a graph without metadata writes nothing. -/
theorem unwritten_createGraphBy {iri author : String} {now : Timestamp} {g : GraphId}
    {commits : Nat} (sound : store.Sound ext) (room : store.HasRoom now (commits + 1))
    (done : store.createGraphBy ext iri [] author now = (after, .ok g)) :
    store.Unwritten ext after ∧ after.HasRoom now commits := by
  unfold createGraphBy at done
  simp only at done
  split at done
  · cases done
  · rename_i middle own interned
    obtain ⟨settled, counter, index, names, _⟩ := internGraph_kept sound interned
    have first : store.Unwritten ext middle :=
      ⟨settled, index, le_of_eq counter.symm, names⟩
    have space : middle.HasRoom now (commits + 1) := by
      rw [HasRoom, counter]
      exact room
    simp only [List.isEmpty_nil, if_true] at done
    split_ifs at done with fresh
    · -- A new graph is recorded by a commit of its own.
      split at done
      · cases done
      · rename_i last time committed
        cases done
        have blank : ((middle.begin.setAuthor author).recordGraphOp (.created g)).writes = [] := rfl
        have second := unwritten_commit settled space.room blank now
        have left := @HasRoom.commit ext _ _ _ space ((middle.begin.setAuthor
          author).recordGraphOp (.created g))
        rw [committed] at second left
        exact ⟨first.trans second, left⟩
    · cases done
      exact ⟨first, space.mono (Nat.le_succ _)⟩

/-- Resolving a graph writes nothing. -/
theorem unwritten_graphFor {access : Option UserGraphAccess} {iri : String}
    {level : GraphAccessLevel} {create : Bool} {now : Timestamp} {g : GraphId} {commits : Nat}
    (sound : store.Sound ext) (room : store.HasRoom now (commits + 1))
    (done : store.graphFor ext access iri level create now = (after, .ok g)) :
    store.Unwritten ext after ∧ after.HasRoom now commits := by
  have nothing : store.Unwritten ext store ∧ store.HasRoom now commits :=
    ⟨.refl sound, room.mono (Nat.le_succ _)⟩
  unfold graphFor at done
  split at done
  · cases done
  · split_ifs at done
    · unfold targetGraph at done
      split_ifs at done
      · cases done
        exact nothing
      · split at done
        · cases done
        · simp only at done
          cases created : store.createGraphBy ext iri [] "" now with
          | mk last result =>
            rw [created] at done
            cases result with
            | error problem => cases done
            | ok own =>
              cases done
              exact unwritten_createGraphBy sound room created
    · obtain ⟨rfl, _⟩ := Prod.mk.inj done
      exact nothing
    · split at done
      · split_ifs at done <;> cases done
      · split at done
        · cases done
        · cases done
          exact nothing

/-- Resolving additions writes nothing. -/
theorem unwritten_resolveAdds {access : Option UserGraphAccess} {now : Timestamp}
    {groups : List GraphTriples} {adds : List PendingWrite} {commits : Nat}
    (sound : store.Sound ext) (room : store.HasRoom now (commits + groups.length))
    (done : resolveAdds ext access now store groups = (after, .ok adds)) :
    store.Unwritten ext after ∧ after.HasRoom now commits := by
  induction groups generalizing store adds with
  | nil =>
    cases done
    exact ⟨.refl sound, room⟩
  | cons group rest ih =>
    simp only [resolveAdds] at done
    split at done
    · cases done
    · rename_i middle g resolved
      have room : store.HasRoom now (commits + rest.length + 1) := room
      obtain ⟨first, space⟩ := unwritten_graphFor sound room resolved
      split at done
      · cases done
      · split at done
        · cases done
        · rename_i others more
          cases done
          obtain ⟨second, left⟩ := ih first.sound space more
          exact ⟨first.trans second, left⟩

/-- Resolving the writes of a changeset writes nothing. -/
theorem unwritten_resolveWrites {access : Option UserGraphAccess} {now : Timestamp}
    {request : ApplyChangesRequest} {adds : List PendingWrite} {commits : Nat}
    (sound : store.Sound ext) (room : store.HasRoom now (commits + 1 + request.adds.length))
    (done : store.resolveWrites ext access request now = (after, .ok adds)) :
    store.Unwritten ext after ∧ after.HasRoom now commits := by
  unfold resolveWrites at done
  split at done
  · cases done
  · rename_i middle triples resolved
    obtain ⟨first, space⟩ := unwritten_resolveAdds sound room resolved
    split at done
    · cases done
    · rename_i last annotations noted
      cases done
      unfold resolveAnnotations at noted
      split_ifs at noted
      · cases noted
        exact ⟨first, space.mono (Nat.le_succ _)⟩
      · split at noted
        · cases noted
        · rename_i own resolved
          have second := unwritten_graphFor first.sound space resolved
          have same := congrArg Prod.fst noted
          simp only at same
          subst same
          exact ⟨first.trans second.1, second.2⟩

/-- A quad is one that a retraction names. -/
structure Names (ext : External) (store : TripleStore) (access : Option UserGraphAccess)
    (r : QuadRef) (ids : QuadIds) : Prop where
  /-- It has the subject. -/
  subject : requiredNode "retraction subject is required" r.subject = .ok ids.s
  /-- It has the predicate. -/
  predicate : store.predicateId r.predicate = some ids.p
  /-- It has the object slot, be it a node or the hash of a value. -/
  object : ∃ value, retractionObject ext r = .ok (ids.o, value)
  /-- It is in the graph, or in any writable one. -/
  graph : if r.allGraphs then store.writable access ids.g = true
    else store.existingGraph r.graph = .ok ids.g

/-- What is read of a quad is a relation, or a value equal to that of a retraction. -/
def Matches (ext : External) (store : TripleStore) (ts vt : Timestamp) (r : QuadRef)
    (ids : QuadIds) : Prop :=
  ∃ triple value, store.ReadFrom ext ts vt ids triple ∧
    retractionObject ext r = .ok (ids.o, value) ∧ retracts value triple = true

/-- A graph found without creating any is the one that exists. -/
theorem existingGraph_of_graphFor {access : Option UserGraphAccess} {iri : String}
    {level : GraphAccessLevel} {now : Timestamp} {g : GraphId}
    (found : (store.graphFor ext access iri level false now).2 = .ok g) :
    store.existingGraph iri = .ok g := by
  unfold graphFor at found
  split at found
  · cases found
  · simp only [Bool.false_eq_true, if_false] at found
    split_ifs at found
    · exact found
    · split at found
      · split_ifs at found
      · rename_i own exists_
        split at found
        · cases found
        · cases found
          exact exists_

/-- The scope of a retraction is its graph, or every graph. -/
theorem retractionScope_spec {access : Option UserGraphAccess} {r : QuadRef} {now : Timestamp}
    {scope : Option GraphScope} (done : store.retractionScope ext access r now = .ok scope)
    (g : GraphId) : (∃ graphs, scope = some graphs ∧ graphs.admits g = true ∧
        (!r.allGraphs || store.writable access g) = true) ↔
      if r.allGraphs then store.writable access g = true else store.existingGraph r.graph = .ok g := by
  unfold retractionScope at done
  by_cases everywhere : r.allGraphs = true
  · rw [if_pos everywhere] at done
    cases done
    simp [GraphScope.admits, everywhere]
  · rw [if_neg everywhere] at done
    simp only [everywhere, Bool.false_eq_true, if_false, Bool.not_false, Bool.true_or, and_true]
    split_ifs at done with limited
    · obtain ⟨own, found, done⟩ := Except.bind_eq_ok.mp done
      cases done
      rw [existingGraph_of_graphFor found]
      simp [GraphScope.admits]
    · split at done
      · rename_i own found
        cases done
        rw [found]
        simp [GraphScope.admits]
      · rename_i problem missing
        cases done
        rw [missing]
        simp

/-- A storage operation of a request succeeds when it does in the store. -/
theorem storageErrToStatus_eq_ok {α : Type} {result : Except StorageError α} {value : α}
    (done : storageErrToStatus result = .ok value) : result = .ok value := by
  cases result with
  | error problem => cases done
  | ok found => cases done; rfl

/-- The quads a retraction closes are those it names, that are live and match. -/
theorem resolveRetraction_spec (holds : store.db.OrdersHold store.index)
    {access : Option UserGraphAccess} {readAt now : Timestamp} {r : QuadRef}
    {found : List (GraphId × Triple)}
    (done : store.resolveRetraction ext access readAt now r = .ok found) :
    ∃ quads : List (QuadIds × Triple), found = quads.map (fun quad => (quad.1.g, quad.2)) ∧
      (∀ ids, ids ∈ quads.map Prod.fst ↔ store.Names ext access r ids ∧
        store.Shows readAt now ids ∧ store.Matches ext readAt now r ids) ∧
      ∀ quad ∈ quads, store.ReadFrom ext readAt now quad.1 quad.2 := by
  obtain ⟨scope, bounded, done⟩ := Except.bind_eq_ok.mp done
  have graph := retractionScope_spec bounded
  cases scope with
  | none =>
    cases done
    refine ⟨[], rfl, fun ids => ⟨by simp, fun ⟨named, _⟩ => ?_⟩, by simp⟩
    obtain ⟨graphs, absent, _⟩ := (graph ids.g).mpr named.graph
    cases absent
  | some graphs =>
    obtain ⟨subject, subject_eq, done⟩ := Except.bind_eq_ok.mp done
    obtain ⟨⟨object, value⟩, object_eq, done⟩ := Except.bind_eq_ok.mp done
    obtain ⟨scanned, scan, done⟩ := Except.bind_eq_ok.mp done
    cases done
    obtain ⟨quads, rfl, result⟩ := scanScopedAt_spec holds (storageErrToStatus_eq_ok scan)
    -- What passes the filter is in a graph of the retraction, and is what it retracts.
    let passes := fun quad : QuadIds × Triple =>
      (!r.allGraphs || store.writable access quad.1.g) && retracts value quad.2
    refine ⟨quads.filter passes, ?_, fun ids => ?_, fun quad member =>
      result.read quad (List.mem_filter.mp member).1⟩
    · rw [List.filter_map]
      rfl
    · constructor
      · intro member
        obtain ⟨quad, within, rfl⟩ := List.mem_map.mp member
        obtain ⟨inside, passed⟩ := List.mem_filter.mp within
        simp only [passes, Bool.and_eq_true] at passed
        obtain ⟨wanted, shows⟩ := (result.mem_iff quad.1).mp (List.mem_map.mpr ⟨quad, inside, rfl⟩)
        have slot := wanted.object object rfl
        refine ⟨⟨?_, wanted.predicate _ rfl, ⟨value, ?_⟩, ?_⟩, shows, quad.2, value,
          result.read quad inside, ?_, passed.2⟩
        · rw [subject_eq, wanted.subject subject rfl]
        · rw [object_eq, slot]
        · exact (graph quad.1.g).mp ⟨graphs, rfl, wanted.scope, passed.1⟩
        · rw [object_eq, slot]
      · rintro ⟨named, shows, triple, value', read, object_eq', passed⟩
        have slots := Except.ok.inj (object_eq.symm.trans object_eq')
        obtain ⟨own, same⟩ := Prod.mk.inj slots
        obtain ⟨graphs', scope_eq, admits, writes⟩ := (graph ids.g).mpr named.graph
        obtain rfl := Option.some.inj scope_eq
        have subject_same := Except.ok.inj (subject_eq.symm.trans named.subject)
        obtain ⟨quad, inside, here⟩ := List.mem_map.mp ((result.mem_iff ids).mpr
          ⟨⟨fun node bound => (subject_same.symm.trans (Option.some.inj bound)),
            fun name bound => Option.some.inj bound ▸ named.predicate,
            fun node bound => (own.symm.trans (Option.some.inj bound)), admits, rfl⟩, shows⟩)
        refine List.mem_map.mpr ⟨quad, List.mem_filter.mpr ⟨inside, ?_⟩, here⟩
        have read' := result.read quad inside
        rw [here] at read'
        simp only [passes, here, writes, read'.unique read, same, passed, Bool.and_self]

/-- The writes of a changeset are its closings and then its additions. -/
theorem writes_changesTx (tx : Transaction) (author : String) (iris : List String) (now : Timestamp)
    (closes : List (GraphId × Triple)) (adds : List PendingWrite) :
    (changesTx tx author iris now closes adds).writes =
      tx.writes ++ closes.map (fun quad => ⟨closeAt now quad.2, quad.1, .add⟩) ++ adds := by
  -- Each of the three loops appends what it goes over.
  have bind : ∀ (iris : List String) (tx : Transaction),
      (iris.foldl (fun (tx : Transaction) iri => tx.bindIri iri) tx).writes = tx.writes := by
    intro iris
    induction iris with
    | nil => exact fun tx => rfl
    | cons iri rest ih => exact fun tx => ih _
  have add : ∀ (adds : List PendingWrite) (tx : Transaction),
      (adds.foldl (fun (tx : Transaction) w => tx.insertIn w.triple w.graph w.mode) tx).writes =
        tx.writes ++ adds := by
    intro adds
    induction adds with
    | nil => exact fun tx => (List.append_nil _).symm
    | cons w rest ih =>
      intro tx
      rw [List.foldl_cons, ih]
      simp [Transaction.insertIn]
  have close : ∀ (closes : List (GraphId × Triple)) (tx : Transaction),
      (closes.foldl (fun (tx : Transaction) quad =>
        tx.insertIn (closeAt now quad.2) quad.1 .add) tx).writes =
        tx.writes ++ closes.map (fun quad => ⟨closeAt now quad.2, quad.1, .add⟩) := by
    intro closes
    induction closes with
    | nil => exact fun tx => (List.append_nil _).symm
    | cons quad rest ih =>
      intro tx
      rw [List.foldl_cons, ih]
      simp [Transaction.insertIn]
  rw [changesTx, bind, add, close]
  rfl

/-- The quads all retractions close are those some retraction names, that are live and match. -/
theorem resolveRetractions_spec (holds : store.db.OrdersHold store.index)
    {access : Option UserGraphAccess} {readAt now : Timestamp} {retractions : List QuadRef}
    {matched : List (List (GraphId × Triple))}
    (done : retractions.mapM (store.resolveRetraction ext access readAt now) = .ok matched) :
    ∃ quads : List (QuadIds × Triple),
      matched.flatten = quads.map (fun quad => (quad.1.g, quad.2)) ∧
      (∀ ids, ids ∈ quads.map Prod.fst ↔ ∃ r ∈ retractions, store.Names ext access r ids ∧
        store.Shows readAt now ids ∧ store.Matches ext readAt now r ids) ∧
      ∀ quad ∈ quads, store.ReadFrom ext readAt now quad.1 quad.2 := by
  induction retractions generalizing matched with
  | nil =>
    cases done
    exact ⟨[], rfl, by simp, by simp⟩
  | cons r rest ih =>
    rw [List.mapM_cons] at done
    obtain ⟨found, here, done⟩ := Except.bind_eq_ok.mp done
    obtain ⟨others, there, done⟩ := Except.bind_eq_ok.mp done
    cases done
    obtain ⟨first, rfl, member, read⟩ := resolveRetraction_spec holds here
    obtain ⟨later, flat, member', read'⟩ := ih there
    refine ⟨first ++ later, by rw [List.flatten_cons, flat, List.map_append], fun ids => ?_,
      fun quad inside => ?_⟩
    · rw [List.map_append, List.mem_append, member, member', List.exists_mem_cons_iff]
    · rcases List.mem_append.mp inside with here | there
      · exact read quad here
      · exact read' quad there

variable {edgeTypes : String → Option Cardinality} {access : Option UserGraphAccess}
  {author : String} {request : ApplyChangesRequest} {now : Timestamp} {adds : List PendingWrite}
  {response : ApplyChangesResponse}

/-- What a changeset that succeeds has committed. -/
theorem applyChanges_ok
    (resolved : store.resolveWrites ext access request now = (middle, .ok adds))
    (done : store.applyChanges ext edgeTypes access author request now = (after, .ok response)) :
    ∃ matched tx time,
      request.retractions.mapM (middle.resolveRetraction ext access (middle.readAt request) now) =
        .ok matched ∧ tx.writes = [] ∧
      middle.commit ext (changesTx tx author request.iris now matched.flatten adds) now =
        (after, .ok time) := by
  unfold applyChanges at done
  split at done
  · cases done
  · rw [resolved] at done
    simp only at done
    split at done
    · cases done
    · split at done
      · cases done
      · rename_i matched found
        by_cases strictly : request.strict = true ∧ 0 < matched.countP List.isEmpty
        · rw [if_pos strictly] at done
          cases done
        · rw [if_neg strictly] at done
          split at done
          · cases done
          · split at done
            · cases done
            · rename_i tx begun
              split at done
              · cases done
              · rename_i last time committed
                cases done
                refine ⟨matched, tx, time, found, ?_, committed⟩
                -- Whichever way it begins, a transaction begins without writes.
                split_ifs at begun
                · unfold beginAt at begun
                  split_ifs at begun
                  cases begun
                  rfl
                · cases begun
                  rfl

/-- A changeset that succeeds leads to a reachable store. -/
theorem applyChanges_reachable
    (reachable : Reachable ext middle)
    (resolved : store.resolveWrites ext access request now = (middle, .ok adds))
    (done : store.applyChanges ext edgeTypes access author request now = (after, .ok response)) :
    Reachable ext after := by
  obtain ⟨matched, tx, time, _, _, committed⟩ := applyChanges_ok resolved done
  have kept := Reachable.commit (changesTx tx author request.iris now matched.flatten adds) now reachable
  rwa [committed] at kept

/-- Some retraction of a changeset names a quad. -/
def Retracted (ext : External) (store : TripleStore) (access : Option UserGraphAccess)
    (request : ApplyChangesRequest) (ids : QuadIds) : Prop :=
  ∃ r ∈ request.retractions, store.Names ext access r ids

/-- Some addition is of a quad, and its window contains a valid time. -/
def Asserted (ext : External) (store : TripleStore) (adds : List PendingWrite) (now : Timestamp)
    (ids : QuadIds) : Prop :=
  ∃ w ∈ adds, store.quadOf ext w = some ids ∧ w.triple.temporal.vtStart ≤ now ∧
    now < w.triple.temporal.vtEnd

/-- The live quads are those from before without the retracted ones, and the added ones. -/
def AppliesTo (ext : External) (store middle after : TripleStore) (access : Option UserGraphAccess)
    (request : ApplyChangesRequest) (adds : List PendingWrite) (now : Timestamp) : Prop :=
  ∀ ids, after.Shows after.committed now ids ↔
    (store.Shows store.committed now ids ∧ ¬ middle.Retracted ext access request ids) ∨
      (middle.internAll adds).Asserted ext adds now ids

/--
When a changeset changes a quad as it says.

The store is the one before, with the graphs of the additions.
-/
structure Applicable (ext : External) (store : TripleStore) (access : Option UserGraphAccess)
    (request : ApplyChangesRequest) (adds : List PendingWrite) (now : Timestamp) (ids : QuadIds) :
    Prop where
  /-- A live quad that is named and not added is one whose stored triple the retraction matches. -/
  matched : (store.internAll adds).lastWrite ext adds ids = none →
    store.Shows store.committed now ids → store.Retracted ext access request ids →
      ∃ r ∈ request.retractions, store.Names ext access r ids ∧
        store.Matches ext (store.readAt request) now r ids
  /-- A last addition that governs is open, or no addition is and the quad is not left live. -/
  governs : ∀ w, (store.internAll adds).lastWrite ext adds ids = some w →
    store.WouldGovern now ids w.triple.temporal.vtStart → now < w.triple.temporal.vtEnd ∨
      (¬ (store.internAll adds).Asserted ext adds now ids ∧
        (store.Shows store.committed now ids → store.Retracted ext access request ids))
  /-- A last addition that starts before another version is of a live quad exactly if it should be. -/
  hidden : ∀ w, (store.internAll adds).lastWrite ext adds ids = some w →
    ¬ store.WouldGovern now ids w.triple.temporal.vtStart →
      (store.Shows store.committed now ids → store.Retracted ext access request ids →
        (store.internAll adds).Asserted ext adds now ids) ∧
      ((store.internAll adds).Asserted ext adds now ids → store.Shows store.committed now ids)

/-- Snapshots that see every version show the same. -/
theorem shows_of_seen {first second vt : Timestamp}
    (seen : ∀ key bytes, store.index key = some bytes → key.tt ≤ first)
    (seen' : ∀ key bytes, store.index key = some bytes → key.tt ≤ second) (ids : QuadIds) :
    store.Shows first vt ids ↔ store.Shows second vt ids := by
  have early : ∀ tt version, store.index.history ids tt = some version → tt ≤ min first second :=
    fun tt version stored =>
      le_min (seen ⟨ids, tt⟩ _ (Index.history_eq_some.mp stored).1)
        (seen' ⟨ids, tt⟩ _ (Index.history_eq_some.mp stored).1)
  simp only [Shows, History.governs_of_recorded early (min_le_left first second),
    History.governs_of_recorded early (min_le_right first second)]

/-- The live quads after a changeset, in terms of those before. -/
theorem applyChanges_shows_iff
    (sound : middle.Sound ext) (room : middle.committed ≠ Timestamp.END_OF_TIME)
    (resolved : store.resolveWrites ext access request now = (middle, .ok adds))
    (add : ∀ w ∈ adds, w.Adds)
    (quiet : ∀ key bytes, middle.index key = some bytes → key.tt ≤ middle.readAt request)
    (done : store.applyChanges ext edgeTypes access author request now = (after, .ok response))
    (ids : QuadIds) : after.Shows after.committed now ids ↔
      match (middle.internAll adds).lastWrite ext adds ids with
      | none => middle.Shows middle.committed now ids ∧
          ¬ ∃ r ∈ request.retractions, middle.Names ext access r ids ∧
            middle.Matches ext (middle.readAt request) now r ids
      | some w =>
        (middle.WouldGovern now ids w.triple.temporal.vtStart ∧ now < w.triple.temporal.vtEnd) ∨
        (¬ middle.WouldGovern now ids w.triple.temporal.vtStart ∧
          middle.Shows middle.committed now ids) := by
  obtain ⟨matched, tx, time, found, blank, committed⟩ := applyChanges_ok resolved done
  obtain ⟨quads, flat, member, read⟩ := resolveRetractions_spec sound.keyed.holds found
  let closes : List (QuadIds × PendingWrite) :=
    quads.map fun quad => (quad.1, ⟨closeAt now quad.2, quad.1.g, .add⟩)
  have writes : (changesTx tx author request.iris now matched.flatten adds).writes =
      closes.map Prod.snd ++ adds := by
    rw [writes_changesTx, blank, flat, List.nil_append, List.map_map, List.map_map]
    rfl
  have close : ∀ c ∈ closes, middle.Closes ext now c.1 c.2 := by
    intro c inside
    obtain ⟨quad, here, rfl⟩ := List.mem_map.mp inside
    exact (read quad here).closes sound.keyed quiet
  have closed : closes.map Prod.fst = quads.map Prod.fst := by
    rw [List.map_map]
    rfl
  rw [shows_closed_added sound room close add writes committed ids, closed]
  cases (middle.internAll adds).lastWrite ext adds ids with
  | some w => rfl
  | none =>
    refine and_congr_right fun shows => not_congr ((member ids).trans ?_)
    have live : middle.Shows (middle.readAt request) now ids :=
      (shows_of_seen sound.recorded quiet ids).mp shows
    exact ⟨fun ⟨r, listed, named, _, same⟩ => ⟨r, listed, named, same⟩,
      fun ⟨r, listed, named, same⟩ => ⟨r, listed, named, live, same⟩⟩

/-- A changeset does what it says exactly when every quad is one it can change so. -/
theorem applyChanges_applies_iff {edgeTypes : String → Option Cardinality}
    {access : Option UserGraphAccess} {author : String} {request : ApplyChangesRequest}
    {now : Timestamp} {adds : List PendingWrite} {response : ApplyChangesResponse}
    (sound : store.Sound ext) (room : store.HasRoom now (request.adds.length + 1))
    (resolved : store.resolveWrites ext access request now = (middle, .ok adds))
    (add : ∀ w ∈ adds, w.Adds)
    (quiet : Timestamp.zero < request.readTs → ∀ key bytes, store.index key = some bytes →
      key.tt ≤ request.readTs)
    (done : store.applyChanges ext edgeTypes access author request now = (after, .ok response)) :
    AppliesTo ext store middle after access request adds now ↔
      ∀ ids, middle.Applicable ext access request adds now ids := by
  have space : store.HasRoom now (0 + 1 + request.adds.length) := room.mono (by omega)
  obtain ⟨unwritten, left⟩ := unwritten_resolveWrites sound space resolved
  have counted := sound.counted room.room
  have seen : ∀ key bytes, middle.index key = some bytes → key.tt ≤ middle.readAt request := by
    intro key bytes found
    unfold readAt
    split_ifs with given
    · exact quiet given key bytes (unwritten.index ▸ found)
    · exact unwritten.sound.recorded key bytes found
  refine forall_congr' fun ids => ?_
  rw [applyChanges_shows_iff unwritten.sound left.room resolved add seen done ids,
    ← shows_of_kept counted unwritten.advanced (congrArg (·.history ids) unwritten.index) now]
  cases last : (middle.internAll adds).lastWrite ext adds ids with
  | none =>
    -- Nothing is added, so all that matters is whether the retraction that names the quad closes it.
    have nothing : ¬ (middle.internAll adds).Asserted ext adds now ids :=
      fun ⟨w, member, own, _⟩ => lastWrite_eq_none.mp last w member own
    simp only [nothing, or_false]
    constructor
    · intro same
      refine ⟨fun _ shows retracted => ?_, fun w some_ => ?_, fun w some_ => ?_⟩
      · by_contra unmatched
        exact (same.mp ⟨shows, unmatched⟩).2 retracted
      · cases last.symm.trans some_
      · cases last.symm.trans some_
    · intro applicable
      refine and_congr_right fun shows => not_congr ⟨fun ⟨r, listed, named, _⟩ => ⟨r, listed, named⟩,
        fun retracted => applicable.matched last shows retracted⟩
  | some w =>
    obtain ⟨member, own⟩ := lastWrite_mem last
    by_cases would : middle.WouldGovern now ids w.triple.temporal.vtStart
    · simp only [would, true_and, not_true, false_and, or_false]
      constructor
      · intro same
        refine ⟨fun none_ => ?_, fun w' some_ _ => ?_, fun w' some_ loses => ?_⟩
        · cases last.symm.trans none_
        · obtain rfl := Option.some.inj (last.symm.trans some_)
          by_cases open_ : now < w.triple.temporal.vtEnd
          · exact Or.inl open_
          · refine Or.inr ⟨fun asserted => open_ (same.mpr (Or.inr asserted)), fun shows => ?_⟩
            by_contra kept
            exact open_ (same.mpr (Or.inl ⟨shows, kept⟩))
        · obtain rfl := Option.some.inj (last.symm.trans some_)
          exact absurd would loses
      · intro applicable
        refine ⟨fun open_ => Or.inr ⟨w, member, own, would.1, open_⟩, fun stays => ?_⟩
        rcases applicable.governs w last would with open_ | ⟨closed, retracted⟩
        · exact open_
        · rcases stays with ⟨shows, kept⟩ | asserted
          · exact absurd (retracted shows) kept
          · exact absurd asserted closed
    · simp only [would, false_and, not_false_eq_true, true_and, false_or]
      constructor
      · intro same
        refine ⟨fun none_ => ?_, fun w' some_ governs => ?_, fun w' some_ _ => ⟨fun shows retracted => ?_,
          fun asserted => same.mpr (Or.inr asserted)⟩⟩
        · cases last.symm.trans none_
        · obtain rfl := Option.some.inj (last.symm.trans some_)
          exact absurd governs would
        · exact (same.mp shows).resolve_left fun ⟨_, kept⟩ => kept retracted
      · intro applicable
        obtain ⟨raised, live⟩ := applicable.hidden w last would
        refine ⟨fun shows => ?_, fun stays => stays.elim And.left live⟩
        by_cases retracted : middle.Retracted ext access request ids
        · exact Or.inr (raised shows retracted)
        · exact Or.inl ⟨shows, retracted⟩

/-- A store that related two nodes from a start on, and closed the relation later. -/
def relatedThenClosed : TripleStore :=
  let related := single (Timestamp.wrap 5) (Timestamp.wrap 6)
  (related.commit External.unreached (related.begin.insertIn (.relation (NodeId.ofByte 1) "knows"
    (NodeId.ofByte 2) ⟨(NodeId.ofByte 3).uuid⟩ ⟨Timestamp.wrap 5, Timestamp.wrap 7, Timestamp.zero⟩)
      GraphId.DEFAULT .add) (Timestamp.wrap 8)).1

/-- The store whose relation was closed is reachable. -/
theorem relatedThenClosed_reachable : Reachable External.unreached relatedThenClosed :=
  .commit _ _ (single_reachable _ _)

/-- A changeset that relates the two nodes, valid since the epoch. -/
def relateRequest : ApplyChangesRequest :=
  ⟨[⟨"", [(.relation (some (NodeId.ofByte 1).uuid.bytes) "knows" (some (NodeId.ofByte 2).uuid.bytes)
    Timestamp.zero Timestamp.zero [], ⟨(NodeId.ofByte 4).uuid⟩)]⟩], [], Timestamp.zero, false, [], []⟩

/-- The write of the changeset that relates two nodes. -/
def relateWrite : PendingWrite :=
  ⟨.relation (NodeId.ofByte 1) "knows" (NodeId.ofByte 2) ⟨(NodeId.ofByte 4).uuid⟩
    ⟨Timestamp.zero, Timestamp.END_OF_TIME, Timestamp.zero⟩, GraphId.DEFAULT, .auto⟩

/-- The result of relating two nodes in a store. -/
def relate (store : TripleStore) : TripleStore × Except Status ApplyChangesResponse :=
  store.applyChanges External.unreached (fun _ => none) none "" relateRequest (Timestamp.wrap 10)

/-- The write of the changeset is the one it says. -/
theorem resolveWrites_relate (store : TripleStore) : store.resolveWrites External.unreached none
    relateRequest (Timestamp.wrap 10) = (store, .ok [relateWrite]) := by
  rfl

/-- The write of the changeset closes no other values. -/
theorem adds_relateWrite : ∀ w ∈ [relateWrite], w.Adds := by
  simp only [List.mem_singleton, forall_eq]
  decide

/-- Relating two nodes succeeds when the result says so. -/
theorem relate_eq {store : TripleStore} {response : ApplyChangesResponse}
    (result : (relate store).2 = .ok response) :
    store.applyChanges External.unreached (fun _ => none) none "" relateRequest (Timestamp.wrap 10) =
      ((relate store).1, .ok response) := by
  rw [← result]
  rfl

/-- Relating two nodes for the first time does what the changeset says if the quads allow it. -/
theorem applyChanges_applies_iff_first :
    AppliesTo External.unreached create create (relate create).1 none relateRequest [relateWrite]
        (Timestamp.wrap 10) ↔
      ∀ ids, create.Applicable External.unreached none relateRequest [relateWrite]
        (Timestamp.wrap 10) ids := by
  have room : create.HasRoom (Timestamp.wrap 10) (relateRequest.adds.length + 1) := by
    unfold HasRoom
    decide +kernel
  have sound := sound_configured External.unreached DEFAULT_INLINE_VALUE_MAX_BYTES
    Vocabulary.default true
  have result : (relate create).2 = .ok ⟨Timestamp.wrap 10, 1, 0, 0⟩ := by decide +kernel
  exact applyChanges_applies_iff sound room (resolveWrites_relate create) adds_relateWrite
    (fun given => absurd given (lt_irrefl _)) (relate_eq result)

/-- A quad that was closed and is added again with an earlier start is not live. -/
theorem applyChanges_hides : Reachable External.unreached relatedThenClosed ∧
    (relate relatedThenClosed).2 = .ok ⟨Timestamp.wrap 10, 1, 0, 0⟩ ∧
      ¬ AppliesTo External.unreached relatedThenClosed relatedThenClosed (relate relatedThenClosed).1
        none relateRequest [relateWrite] (Timestamp.wrap 10) := by
  have result : (relate relatedThenClosed).2 = .ok ⟨Timestamp.wrap 10, 1, 0, 0⟩ := by decide +kernel
  refine ⟨relatedThenClosed_reachable, result, fun applies => ?_⟩
  -- The added quad should be live.
  let ids : QuadIds := ⟨NodeId.ofByte 1, ⟨1⟩, NodeId.ofByte 2, GraphId.DEFAULT⟩
  have asserted : (relatedThenClosed.internAll [relateWrite]).Asserted External.unreached
      [relateWrite] (Timestamp.wrap 10) ids :=
    ⟨relateWrite, List.mem_singleton_self _, by decide +kernel, by decide, by decide⟩
  have shows := (applies ids).mpr (Or.inr asserted)
  -- The store after is one commit away, and a scan of the default graph finds nothing in it.
  have holds := (applyChanges_reachable relatedThenClosed_reachable
    (resolveWrites_relate relatedThenClosed) (relate_eq result)).ordersHold
  have listed : (relate relatedThenClosed).1.liveQuads External.unreached GraphId.DEFAULT
      (Timestamp.wrap 10) = .ok [] := by decide +kernel
  obtain ⟨quads, same, found⟩ := liveQuads_spec holds listed
  have blank : quads = [] := List.map_eq_nil_iff.mp same.symm
  have inside := (found.mem_iff ids).mpr ⟨rfl, shows⟩
  rw [blank] at inside
  cases inside

end TripleStore

end Polargraph
