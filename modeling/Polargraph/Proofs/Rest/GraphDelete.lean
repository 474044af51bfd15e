import Polargraph.Proofs.Server.DeleteTriples
import Polargraph.Proofs.Storage.Dating
import Polargraph.Rest.SparqlUpdate

/-! What a delete that names annotations leaves of the annotations and of the quads. -/

namespace Polargraph

namespace TripleStore

variable {ext : External} {store middle after : TripleStore} {now : Timestamp}

/-- What was written to a store is neither an annotation nor a name. -/
structure QuadsOnly (store after : TripleStore) : Prop where
  /-- The tables are the same. -/
  tables : ∃ db committed, after = { store with db := db, committed := committed }
  /-- The annotations are the same. -/
  annotations : ∀ cf ∈ ANNOTATIONS, after.db.family cf = store.db.family cf
  /-- The counter does not go back. -/
  advanced : store.committed ≤ after.committed

/-- Nothing was written to a store that stays as it is. -/
theorem QuadsOnly.refl (store : TripleStore) : store.QuadsOnly store where
  tables := ⟨store.db, store.committed, rfl⟩
  annotations _ _ := rfl
  advanced := le_refl _

/-- What was written twice is no more than quads. -/
theorem QuadsOnly.trans (first : store.QuadsOnly middle) (second : middle.QuadsOnly after) :
    store.QuadsOnly after where
  tables := by
    obtain ⟨_, _, rfl⟩ := first.tables
    obtain ⟨db, committed, rfl⟩ := second.tables
    exact ⟨db, committed, rfl⟩
  annotations cf member := (second.annotations cf member).trans (first.annotations cf member)
  advanced := le_trans first.advanced second.advanced

/-- A commit of quads leaves the annotations alone. -/
theorem annotations_commit {tx : Transaction} {wall : Timestamp}
    (quads : ∀ w ∈ tx.writes, ofQuad w = true) {cf : Cf} ( annotation : cf ∈ ANNOTATIONS) :
    (store.commit ext tx wall).1.db.family cf = store.db.family cf := by
  have apart : cf ≠ .metadata := by
    rintro rfl
    simp [ANNOTATIONS] at annotation
  have interned := @family_stageWrites ext (store.beginCommit wall).2
    (store.beginCommit wall).1 Staging.none tx.writes cf apart
  refine commit_rule ext store tx wall (fun _ => rfl) (fun _ => rfl) fun _ => ?_
  refine flush_rule ext _ tx _ (fun _ => interned) fun after staging batch staged built => ?_
  rw [staged] at interned
  -- What a commit adds to its staged operations is on other families.
  have own := stageWrites_ofQuad quads (fun _ member => absurd member List.not_mem_nil) staged
  refine (Db.family_write_of_forall_ne _ fun op member same => ?_).trans interned
  rw [same] at annotation
  rcases mem_commitBatch built member with quad | other
  · exact own op quad annotation
  · rcases other with cf | cf | cf <;> simp [cf, ANNOTATIONS] at annotation

/-- What is written to close quads are quads. -/
theorem closings_ofQuad {filter : DeleteFilter} {vtEnd : Timestamp}
    {found : List (GraphId × Triple)} {w : PendingWrite}
    (member : w ∈ filter.closings vtEnd now found) : ofQuad w = true := by
  obtain ⟨⟨g, triple⟩, _, closed⟩ := List.mem_filterMap.mp member
  simp only at closed
  split_ifs at closed
  cases triple with
  | relation | property =>
    simp only [DeleteFilter.closing] at closed
    split_ifs at closed
    cases closed
    rfl
  | edgeProperty | edgeRelation => cases closed

/-- Closing the quads of a subject writes quads only. -/
theorem quadsOnly_deleteSubject (intact : store.Intact ext)
    (room : store.committed ≠ Timestamp.END_OF_TIME) (filter : DeleteFilter) (author : String)
    {id : Bytes} (width : id.length = 16) :
    store.QuadsOnly (store.deleteSubject ext filter author store.committed now now id).1 := by
  obtain ⟨found, closes, scanned, writes, _, each⟩ :=
    exists_closes (Closing.refl intact now) filter width
  let tx : Transaction := ⟨store.committed, filter.closings now now found, [], author, []⟩
  have buffered : (filter.closings now now found).foldl
      (fun (tx : Transaction) w => tx.insertIn w.triple w.graph w.mode)
      (store.begin.setAuthor author) = tx := by
    rw [buffered_closings]
    rfl
  have after : (store.deleteSubject ext filter author store.committed now now id).1 =
      (store.commit ext tx now).1 := by
    simp only [deleteSubject, nodeFromSlice, dif_pos width, scanned, buffered]
    split
    · rename_i done
      rw [done]
    · rename_i done
      rw [done]
  have known : ∀ w ∈ tx.writes, (store.predicateId w.triple.predicate).isSome := by
    intro w member
    have listed : w ∈ closes.map Prod.snd := writes ▸ member
    obtain ⟨c, inside, rfl⟩ := List.mem_map.mp listed
    exact (intact.restates (each c inside).2.1).1
  rw [after]
  exact ⟨commit_known known, fun cf member =>
    annotations_commit (fun w written => closings_ofQuad written) member,
    (committed_commit room tx now).1⟩

/-- The quads that a request with one subject closes. -/
def ClosedBy (ext : External) (store : TripleStore) (access : Option UserGraphAccess)
    (request : DeleteTriplesRequest) (now : Timestamp) (ids : QuadIds) : Prop :=
  ∃ filter, store.deleteFilter access request = .ok filter ∧
    store.Closed ext filter now request.subjectIds ids

/-- The quads that are closed may be named in another way. -/
theorem Closing.congr {closed other : QuadIds → Prop} (closing : Closing ext store middle now closed)
    (same : ∀ ids, other ids ↔ closed ids) : Closing ext store middle now other := by
  rwa [show other = closed from funext fun ids => propext (same ids)]

/-- A request about one subject closes what it names and writes quads only. -/
theorem closing_deleteTriples (intact : store.Intact ext) {commits : Nat}
    (room : store.HasRoom now (commits + 1)) (access : Option UserGraphAccess) (author : String)
    {request : DeleteTriplesRequest} {node : NodeId} (single : request.subjectIds = [node.uuid.bytes])
    (unset : request.vtEnd = Timestamp.zero) :
    ∃ after result, store.deleteTriples ext access author request now = (after, result) ∧
      after.HasRoom now commits ∧ store.QuadsOnly after ∧
      Closing ext store after now (store.ClosedBy ext access request now) := by
  unfold TripleStore.deleteTriples
  cases checked : store.deleteFilter access request with
  | error refused =>
    refine ⟨store, .error refused, rfl, room.mono (Nat.le_succ _), .refl store, ?_⟩
    refine (Closing.refl intact now).congr fun ids => iff_false_intro ?_
    rintro ⟨filter, passed, _⟩
    rw [checked] at passed
    cases passed
  | ok filter =>
    obtain ⟨after, count, done, left, closing⟩ :=
      (Closing.refl intact now).step room filter author node.uuid.width
    have quads := @quadsOnly_deleteSubject ext store now intact room.room filter author _
      node.uuid.width
    rw [done] at quads
    refine ⟨after, .ok (count + 0), ?_, left, quads, closing.congr fun ids => ?_⟩
    · simp only [unset, if_true, single, deleteSubjects, readTs, done]
    · rw [false_or, ClosedBy, checked, single]
      simp

/-- Closings follow one another. -/
theorem Closing.trans {first second : QuadIds → Prop} (before : Closing ext store middle now first)
    (then_ : Closing ext middle after now second) :
    Closing ext store after now (fun ids => first ids ∨ second ids) where
  intact := then_.intact
  recorded := before.recorded
  names name := (then_.names name).trans (before.names name)
  advanced := le_trans before.advanced then_.advanced
  early key reached := (then_.early key (le_trans reached before.advanced)).trans
    (before.early key reached)
  rebuilt := then_.rebuilt.trans before.rebuilt
  history ids open_ := (then_.history ids fun later => open_ (Or.inr later)).trans
    (before.history ids fun earlier => open_ (Or.inl earlier))
  shows ids := by
    rw [then_.shows, before.shows]
    tauto
  governs ids start governs := then_.governs ids start (before.governs ids start governs)
  later ids was := by
    rcases was with earlier | later
    · obtain ⟨tt, version, stored, late⟩ := before.later ids earlier
      refine ⟨tt, version, ?_, late⟩
      -- The version was recorded before the second closing.
      have reached := before.intact.sound.recorded ⟨ids, tt⟩ _ (Index.history_eq_some.mp stored).1
      simp only [Index.history, then_.early ⟨ids, tt⟩ reached] at stored ⊢
      exact stored
    · obtain ⟨tt, version, stored, late⟩ := then_.later ids later
      exact ⟨tt, version, stored, lt_of_le_of_lt before.advanced late⟩
  same none_closed := (then_.same fun ids closed => none_closed ids (Or.inr closed)).trans
    (before.same fun ids closed => none_closed ids (Or.inl closed))

/-- A request made after some closings closes what it would have closed before, of what is left. -/
theorem Closing.closedBy_iff {closed : QuadIds → Prop} (closing : Closing ext store middle now closed)
    {access : Option UserGraphAccess} {request : DeleteTriplesRequest}
    (anywhere : request.graph = none) (ids : QuadIds) :
    closed ids ∨ middle.ClosedBy ext access request now ids ↔
      closed ids ∨ store.ClosedBy ext access request now ids := by
  by_cases was : closed ids
  · simp [was]
  have filters : middle.deleteFilter access request = store.deleteFilter access request := by
    simp only [deleteFilter, anywhere, deleteScope]
  have selected : ∀ filter triple, middle.Selected filter request.subjectIds ids triple ↔
      store.Selected filter request.subjectIds ids triple := by
    intro filter triple
    constructor
    · rintro ⟨subject, predicate, graph, selects⟩
      exact ⟨subject, fun name given => (closing.names name).symm.trans (predicate name given),
        graph, selects⟩
    · rintro ⟨subject, predicate, graph, selects⟩
      exact ⟨subject, fun name given => (closing.names name).trans (predicate name given),
        graph, selects⟩
  simp only [was, false_or, ClosedBy, filters, Closed, selected, closing.liveTriple_iff was]

/-- The quads that a delete which names annotations closes. -/
def Struck (ext : External) (store : TripleStore) (access : Option UserGraphAccess)
    (data : List GroundQuad) (now : Timestamp) (ids : QuadIds) : Prop :=
  ∃ quad ∈ data, ∃ request, annotationDelete ext quad = some request ∧
    store.ClosedBy ext access request now ids

/-- A request for an annotation is about one subject, in any graph, from now on. -/
theorem annotationDelete_spec {quad : GroundQuad} {request : DeleteTriplesRequest}
    (made : annotationDelete ext quad = some request) :
    ∃ node : NodeId, request.subjectIds = [node.uuid.bytes] ∧ request.predicate = quad.predicate ∧
      request.vtEnd = Timestamp.zero ∧ request.objectId = [] ∧ request.value = none ∧
      request.graph = none := by
  unfold annotationDelete at made
  split at made
  · cases made
  · obtain ⟨iri, _, rfl⟩ := Option.map_eq_some_iff.mp made
    exact ⟨_, rfl, rfl, rfl, rfl, rfl, rfl⟩

/-- A delete that names annotations closes the quads of their subjects and predicates, and no more. -/
theorem closing_runGraphDelete (access : Option UserGraphAccess) (author : String)
    (data : List GroundQuad) {closed : QuadIds → Prop} (closing : Closing ext store middle now closed)
    (quads : store.QuadsOnly middle) (room : middle.HasRoom now data.length) :
    store.QuadsOnly (runGraphDelete ext access author now middle data).1 ∧
      Closing ext store (runGraphDelete ext access author now middle data).1 now
        (fun ids => closed ids ∨ store.Struck ext access data now ids) := by
  -- The induction is on the quads that are left; each request closes what it names of what is left.
  induction data generalizing middle closed with
  | nil => exact ⟨quads, closing.congr fun ids => by simp [Struck]⟩
  | cons quad rest ih =>
    have struck_cons : ∀ ids, store.Struck ext access (quad :: rest) now ids ↔
        (∃ request, annotationDelete ext quad = some request ∧
          store.ClosedBy ext access request now ids) ∨ store.Struck ext access rest now ids := by
      simp [Struck]
    cases made : annotationDelete ext quad with
    | none =>
      obtain ⟨only, last⟩ := ih closing quads (room.mono (by simp))
      simp only [runGraphDelete, made]
      exact ⟨only, last.congr fun ids => by rw [struck_cons, made]; simp⟩
    | some request =>
      obtain ⟨node, single, _, unset, _, _, anywhere⟩ := annotationDelete_spec made
      obtain ⟨between, result, done, left, written, next⟩ :=
        @closing_deleteTriples ext middle now closing.intact rest.length room access author _ _ single unset
      have together := (closing.trans next).congr fun ids =>
        (closing.closedBy_iff anywhere ids).symm
      obtain ⟨only, last⟩ := ih together (quads.trans written) left
      have final : (runGraphDelete ext access author now middle (quad :: rest)).1 =
          (runGraphDelete ext access author now between rest).1 := by
        simp only [runGraphDelete, made, done]
        cases result <;> rfl
      rw [final]
      refine ⟨only, last.congr fun ids => ?_⟩
      rw [struck_cons, made]
      simp [or_assoc]

/-- Annotations are read after writes of quads as they were before. -/
theorem QuadsOnly.scanEdgeAnnotations (quads : store.QuadsOnly after)
    (dated : DatedBy store.db store.committed) (edge : EdgeId) (readable : Option (List UInt32)) :
    after.scanEdgeAnnotationsWith ext edge after.committed readable =
      store.scanEdgeAnnotationsWith ext edge store.committed readable := by
  have epa := quads.annotations .epa (by simp [ANNOTATIONS])
  have epo := quads.annotations .epo (by simp [ANNOTATIONS])
  have names : ∀ p, after.predicateOrErr p = store.predicateOrErr p := by
    obtain ⟨db, committed, same⟩ := quads.tables
    intro p
    rw [same]
    rfl
  simp only [scanEdgeAnnotationsWith, epa, epo, names]
  rw [latestAnnotations_dated readable quads.advanced fun entry member =>
      dated.epa entry (SortedMap.mem_scanPrefix.mp member).1,
    latestAnnotations_dated readable quads.advanced fun entry member =>
      dated.epo entry (SortedMap.mem_scanPrefix.mp member).1]

/-- What a scan of the latest snapshot returns is live. -/
theorem exists_live_of_scan (holds : store.db.OrdersHold store.index) {s : Option NodeId}
    {predicate : Option String} {o : Option NodeId} {scope : GraphScope}
    {found : List (GraphId × Triple)} {g : GraphId} {triple : Triple}
    (done : store.scanScopedAt ext s predicate o scope ⟨store.committed, none, none⟩ now = .ok found)
    (member : (g, triple) ∈ found) : ∃ ids : QuadIds, ids.g = g ∧
      store.Wanted s predicate o scope ⟨store.committed, none, none⟩ ids ∧
      store.LiveTriple ext now ids triple := by
  obtain ⟨quads, rfl, result⟩ := scanScopedAt_spec holds done
  obtain ⟨quad, inside, same⟩ := List.mem_map.mp member
  cases same
  obtain ⟨wanted, shows⟩ := (result.mem_iff quad.1).mp (List.mem_map.mpr ⟨quad, inside, rfl⟩)
  exact ⟨quad.1, rfl, wanted, shows, result.read quad inside⟩

/-- A scan returns an annotation of an edge. -/
def Annotated (ext : External) (store : TripleStore) (ts : Timestamp) (edge : EdgeId)
    ( annotation : EdgeAnnotation) : Prop :=
  ∃ found, store.scanEdgeAnnotationsWith ext edge ts none = .ok found ∧ annotation ∈ found

/-- An edge of the live relations that a quoted triple is about, in a graph if one is given. -/
structure EdgeOf (ext : External) (store : TripleStore) (now : Timestamp) (graph : Option String)
    (subject predicate object : String) (edge : EdgeId) (ids : QuadIds) : Prop where
  /-- The relation is live. -/
  live : ∃ name temporal, store.LiveTriple ext now ids
    (.relation (iriToNodeId ext subject) name (iriToNodeId ext object) edge temporal)
  /-- It has the predicate. -/
  predicate : store.predicateId predicate = some ids.p
  /-- It is in the graph. -/
  graph : ∀ iri, graph = some iri → store.graphId iri = some ids.g

section Named

variable (ext : External) (parseF64 : String → Option UInt64) (store : TripleStore) (now : Timestamp)

/-- A quad with a quoted subject names an annotation of an edge. -/
def NamesAnnotation (quad : GroundQuad) (edge : EdgeId) ( annotation : EdgeAnnotation) : Prop :=
  (∃ subject predicate object ids,
    quad.subject = .triple (.mk (.namedNode subject) predicate (.namedNode object)) ∧
      store.EdgeOf ext now quad.graph subject predicate object edge ids) ∧
  annotation.predicate = store.canonicalName quad.predicate ∧
  match groundTermDeleteTarget ext parseF64 quad.object with
  | some (.node node) => annotation.value = .node node
  | some (.value value) => ∃ held, annotation.value = .scalar held ∧ held.same value = true
  | none => False

/-- A plain quad names a stored quad, with the triple read from it. -/
structure NamesQuad (quad : GroundQuad) (ids : QuadIds) (triple : Triple) : Prop where
  /-- It has the subject. -/
  subject : ∃ iri, quad.subject = .namedNode iri ∧ ids.s = iriToNodeId ext iri
  /-- It has the predicate. -/
  predicate : store.predicateId quad.predicate = some ids.p
  /-- It has the object, or the value. -/
  object : match groundTermDeleteTarget ext parseF64 quad.object with
    | some (.node node) => triple.isRelation = true ∧ ids.o = node
    | some (.value value) => ∃ subject predicate held temporal,
        triple = .property subject predicate held temporal ∧ held.same value = true
    | none => False
  /-- It is in the graph, if one is given. -/
  graph : ∀ iri, quad.graph = some iri → store.graphId iri = some ids.g

/-- What a delete that names annotations and plain quads should do. -/
structure DeletesNamed (after : TripleStore) (data : List GroundQuad) : Prop where
  /-- No named annotation is returned by a scan. -/
  annotations : ∀ quad ∈ data, ∀ edge annotation,
    NamesAnnotation ext parseF64 store now quad edge annotation →
      ¬ after.Annotated ext after.committed edge annotation
  /-- No named quad is live. -/
  quads : ∀ quad ∈ data, ∀ ids triple, NamesQuad ext parseF64 store quad ids triple →
    ¬ after.LiveTriple ext now ids triple
  /-- Every other quad is live as it was. -/
  otherQuads : ∀ ids triple, (∀ quad ∈ data, ¬ NamesQuad ext parseF64 store quad ids triple) →
    (after.LiveTriple ext now ids triple ↔ store.LiveTriple ext now ids triple)
  /-- Every other annotation is returned as it was. -/
  otherAnnotations : ∀ edge annotation,
    (∀ quad ∈ data, ¬ NamesAnnotation ext parseF64 store now quad edge annotation) →
      (after.Annotated ext after.committed edge annotation ↔
        store.Annotated ext store.committed edge annotation)

/-- A quad is of the subject and predicate of a named annotation, and open-ended. -/
def Strikes (access : Option UserGraphAccess) (data : List GroundQuad) (ids : QuadIds)
    (triple : Triple) : Prop :=
  triple.temporal.vtEnd = Timestamp.END_OF_TIME ∧
  ∃ quad ∈ data, ∃ request, annotationDelete ext quad = some request ∧
    (store.deleteFilter access request).isOk = true ∧ store.Requested access request ids triple

/--
A delete that names annotations has nothing to do but close quads.

No named annotation is there, and the quads of the subjects and predicates of the named annotations are
the live quads that are named.
-/
structure OnlyQuads (access : Option UserGraphAccess) (data : List GroundQuad) : Prop where
  /-- No named annotation is there. -/
  annotations : ∀ quad ∈ data, ∀ edge annotation,
    NamesAnnotation ext parseF64 store now quad edge annotation →
      ¬ store.Annotated ext store.committed edge annotation
  /-- Every live quad that is named would be closed for an annotation. -/
  named : ∀ quad ∈ data, ∀ ids triple, NamesQuad ext parseF64 store quad ids triple →
    store.LiveTriple ext now ids triple → Strikes ext store access data ids triple
  /-- Every live quad that would be closed for an annotation is named. -/
  struck : ∀ ids triple, store.LiveTriple ext now ids triple →
    Strikes ext store access data ids triple →
      ∃ quad ∈ data, NamesQuad ext parseF64 store quad ids triple

end Named

/-- The closed quads are the live ones that are struck. -/
theorem struck_iff (intact : store.Intact ext) {access : Option UserGraphAccess}
    (nested : ∀ own, access = some own → own.Nested) (data : List GroundQuad) (ids : QuadIds) :
    store.Struck ext access data now ids ↔
      ∃ triple, store.LiveTriple ext now ids triple ∧ Strikes ext store access data ids triple := by
  constructor
  · rintro ⟨quad, member, request, made, filter, passed, triple, live, selected, endless⟩
    exact ⟨triple, live, endless, quad, member, request, made, by rw [passed]; rfl,
      (selected_iff nested passed (live.ofQuad intact)).mp selected⟩
  · rintro ⟨triple, live, endless, quad, member, request, made, passed, requested⟩
    cases checked : store.deleteFilter access request with
    | error refused =>
      rw [checked] at passed
      cases passed
    | ok filter =>
      exact ⟨quad, member, request, made, filter, checked, triple, live,
        (selected_iff nested checked (live.ofQuad intact)).mpr requested, endless⟩

/--
A delete that names annotations does what it should exactly when no named annotation is there and it
closes exactly the plain quads that it names.
-/
theorem runGraphDelete_deletes_iff (intact : store.Intact ext)
    (dated : DatedBy store.db store.committed) {access : Option UserGraphAccess} {author : String}
    {parseF64 : String → Option UInt64} {data : List GroundQuad}
    (room : store.HasRoom now data.length) (nested : ∀ own, access = some own → own.Nested) :
    DeletesNamed ext parseF64 store now (runGraphDelete ext access author now store data).1 data ↔
      OnlyQuads ext parseF64 store now access data := by
  obtain ⟨only, closing⟩ := closing_runGraphDelete access author data (Closing.refl intact now)
    (.refl store) room
  have closed_iff : ∀ ids, (False ∨ store.Struck ext access data now ids) ↔
      ∃ triple, store.LiveTriple ext now ids triple ∧ Strikes ext store access data ids triple := by
    intro ids
    rw [false_or, struck_iff intact nested]
  -- Annotations are never written.
  have annotated : ∀ edge annotation,
      (runGraphDelete ext access author now store data).1.Annotated ext
        (runGraphDelete ext access author now store data).1.committed edge annotation ↔
      store.Annotated ext store.committed edge annotation := fun edge annotation => by
    rw [Annotated, Annotated, only.scanEdgeAnnotations dated]
  constructor
  · intro deletes
    refine ⟨fun quad member edge annotation named there => ?_,
      fun quad member ids triple named live => ?_, fun ids triple live strikes => ?_⟩
    · exact deletes.annotations quad member edge annotation named ((annotated _ _).mpr there)
    · by_contra misses
      have open_ : ¬ (False ∨ store.Struck ext access data now ids) := by
        intro closed
        obtain ⟨other, live', strikes⟩ := (closed_iff ids).mp closed
        rw [live'.2.unique live.2] at strikes
        exact misses strikes
      exact deletes.quads quad member ids triple named ((closing.liveTriple_iff open_ triple).mpr live)
    · by_contra unnamed
      have kept := (deletes.otherQuads ids triple fun quad member named =>
        unnamed ⟨quad, member, named⟩).mpr live
      exact ((closing.shows ids).mp kept.1).2 ((closed_iff ids).mpr ⟨triple, live, strikes⟩)
  · rintro ⟨absent, named, struck⟩
    refine ⟨fun quad member edge annotation names there => ?_,
      fun quad member ids triple names live => ?_, fun ids triple unnamed => ?_,
      fun edge annotation _ => annotated edge annotation⟩
    · exact absent quad member edge annotation names ((annotated _ _).mp there)
    · have open_ := ((closing.shows ids).mp live.1).2
      have before := (closing.liveTriple_iff open_ triple).mp live
      exact open_ ((closed_iff ids).mpr ⟨triple, before, named quad member ids triple names before⟩)
    · by_cases closed : False ∨ store.Struck ext access data now ids
      · obtain ⟨other, live', strikes⟩ := (closed_iff ids).mp closed
        constructor
        · exact fun live => absurd closed ((closing.shows ids).mp live.1).2
        · intro live
          rw [live'.2.unique live.2] at strikes
          obtain ⟨quad, member, names⟩ := struck ids triple live strikes
          exact absurd names (unnamed quad member)
      · exact closing.liveTriple_iff closed triple

/-- Third-party code that reads the identifiers of two nodes. -/
def readsTwo : External :=
  { External.unreached with
    parseUuid := fun text =>
      if text = "01010101-0101-0101-0101-010101010101" then some (NodeId.ofByte 1).uuid
      else if text = "02020202-0202-0202-0202-020202020202" then some (NodeId.ofByte 2).uuid
      else none }

/-- A relation with an annotation of its edge. -/
def annotatedWrites : List PendingWrite :=
  [⟨.relation (NodeId.ofByte 1) "http://example.org/knows" (NodeId.ofByte 2)
      ⟨(NodeId.ofByte 3).uuid⟩ ⟨Timestamp.zero, Timestamp.END_OF_TIME, Timestamp.zero⟩,
      GraphId.DEFAULT, .add⟩,
    ⟨.edgeRelation ⟨(NodeId.ofByte 3).uuid⟩ "http://example.org/source" (NodeId.ofByte 2)
      ⟨Timestamp.zero, Timestamp.END_OF_TIME, Timestamp.zero⟩, GraphId.DEFAULT, .add⟩]

/-- A store with a relation whose edge is annotated. -/
def annotatedStore : TripleStore :=
  (create.commit readsTwo ⟨Timestamp.zero, annotatedWrites, [], "", []⟩ (Timestamp.wrap 5)).1

/-- The store with an annotated relation is intact. -/
theorem annotatedStore_intact : annotatedStore.Intact readsTwo := by
  have created : create.Intact readsTwo :=
    intact_configured readsTwo DEFAULT_INLINE_VALUE_MAX_BYTES Vocabulary.default true
  refine created.commit nofun (fun w member => ?_) _
  simp only [annotatedWrites, List.mem_cons, List.not_mem_nil, or_false] at member
  rcases member with rfl | rfl <;> exact fun _ _ _ _ => nofun

/-- The annotation of that store was recorded by its counter. -/
theorem annotatedStore_dated : DatedBy annotatedStore.db annotatedStore.committed :=
  (datedBy_configured DEFAULT_INLINE_VALUE_MAX_BYTES Vocabulary.default true
    create.committed).commit nofun _ _

/-- The quad that names the annotation, `<< 1 knows 2 >> source 2`. -/
def annotationQuad : GroundQuad :=
  ⟨.triple (.mk (.namedNode "urn:uuid:01010101-0101-0101-0101-010101010101")
      "http://example.org/knows" (.namedNode "urn:uuid:02020202-0202-0202-0202-020202020202")),
    "http://example.org/source", .namedNode "urn:uuid:02020202-0202-0202-0202-020202020202", none⟩

/-- A delete of the annotation of that store. -/
theorem runGraphDelete_deletes_iff_annotated :
    DeletesNamed readsTwo (fun _ => none) annotatedStore (Timestamp.wrap 10)
        (runGraphDelete readsTwo none "" (Timestamp.wrap 10) annotatedStore [annotationQuad]).1
        [annotationQuad] ↔
      OnlyQuads readsTwo (fun _ => none) annotatedStore (Timestamp.wrap 10) none [annotationQuad] :=
  runGraphDelete_deletes_iff annotatedStore_intact annotatedStore_dated
    (by unfold HasRoom; decide +kernel) (fun _ => nofun)

/-- An annotation is still returned after it was deleted. -/
theorem annotation_survives_delete :
    deletesAnnotation [annotationQuad] = true ∧
    ¬ DeletesNamed readsTwo (fun _ => none) annotatedStore (Timestamp.wrap 10)
      (runGraphDelete readsTwo none "" (Timestamp.wrap 10) annotatedStore [annotationQuad]).1
      [annotationQuad] := by
  refine ⟨rfl, fun deletes => ?_⟩
  -- The relation is found by a scan of its predicate.
  have listed : annotatedStore.scanScopedAt readsTwo none (some "http://example.org/knows") none
      .union ⟨annotatedStore.committed, none, none⟩ (Timestamp.wrap 10) =
      .ok [(GraphId.DEFAULT, .relation
        (iriToNodeId readsTwo "urn:uuid:01010101-0101-0101-0101-010101010101")
        "http://example.org/knows"
        (iriToNodeId readsTwo "urn:uuid:02020202-0202-0202-0202-020202020202")
        ⟨(NodeId.ofByte 3).uuid⟩ ⟨Timestamp.zero, Timestamp.END_OF_TIME, Timestamp.wrap 5⟩)] := by
    decide +kernel
  obtain ⟨ids, _, wanted, live⟩ := exists_live_of_scan annotatedStore_intact.sound.keyed.holds listed
    (List.mem_singleton_self _)
  have returned : ((runGraphDelete readsTwo none "" (Timestamp.wrap 10) annotatedStore
      [annotationQuad]).1.scanEdgeAnnotationsWith readsTwo ⟨(NodeId.ofByte 3).uuid⟩
      (runGraphDelete readsTwo none "" (Timestamp.wrap 10) annotatedStore
        [annotationQuad]).1.committed none) =
      .ok [⟨"http://example.org/source", .node (NodeId.ofByte 2)⟩] := by
    decide +kernel
  have object : groundTermDeleteTarget readsTwo (fun _ => none) annotationQuad.object =
      some (.node (NodeId.ofByte 2)) := by
    decide +kernel
  refine deletes.annotations annotationQuad List.mem_cons_self ⟨(NodeId.ofByte 3).uuid⟩
    ⟨"http://example.org/source", .node (NodeId.ofByte 2)⟩ ⟨⟨_, _, _, ids, rfl,
      ⟨⟨_, _, live⟩, wanted.predicate _ rfl, fun _ => nofun⟩⟩, by decide +kernel, ?_⟩
    ⟨_, returned, List.mem_singleton_self _⟩
  rw [object]

end TripleStore

end Polargraph
