import Polargraph.Lib.Edits
import Polargraph.Proofs.Rest.GraphDelete
import Polargraph.Proofs.Server.ApplyChanges
import Polargraph.Proofs.Server.CreateGraph

/-! When a SPARQL update leaves the quads its operations leave when run one after another. -/

namespace Polargraph

namespace UpdateOperation

/-- The quads an operation inserts. -/
def inserted : UpdateOperation → List InsertQuad
  | insertData data => data
  | deleteData _ => []

/-- The quads an operation deletes. -/
def deleted : UpdateOperation → List GroundQuad
  | insertData _ => []
  | deleteData data => data

end UpdateOperation

section External

variable (ext : External) (parseF64 : String → Option UInt64)

/-- The add of a quad to insert. -/
def InsertQuad.added (quad : InsertQuad) : Option (String × (ProtoTriple × EdgeId)) :=
  (sparqlQuadToProtoTriple ext parseF64 quad).map fun triple =>
    (quad.graph.getD "", (triple, quad.edge))

/-- The retraction of a quad to delete. -/
def GroundQuad.retraction (quad : GroundQuad) : Option QuadRef :=
  match quad.subject, groundTermDeleteTarget ext parseF64 quad.object with
  | .namedNode subject, some target =>
    some (deleteQuadRef (iriToNodeId ext subject) quad.predicate target quad.graph)
  | _, _ => none

/-- A deleted quad is written like an inserted one. -/
def GroundQuad.WrittenLike (deleted : GroundQuad) (inserted : InsertQuad) : Prop :=
  ∃ r add, deleted.retraction ext parseF64 = some r ∧ inserted.added ext parseF64 = some add ∧
    quadRefMatches r add.1 add.2.1 = true

/-- An operation deletes a quad that is written like an inserted one. -/
def UpdateOperation.Undoes (quad : InsertQuad) (op : UpdateOperation) : Prop :=
  ∃ deleted ∈ op.deleted, deleted.WrittenLike ext parseF64 quad

/-- No later operation deletes a quad that is written like the inserted one. -/
def Standing (quad : InsertQuad) (operations : List UpdateOperation) : Prop :=
  Edits.Stands (fun op => quad ∈ op.inserted) (UpdateOperation.Undoes ext parseF64 quad) operations

end External

variable {ext : External} {parseF64 : String → Option UInt64}

namespace UpdateChangeset

/-- What compiling a quad to insert does to the adds and the retractions. -/
theorem insertQuad_spec (changeset : UpdateChangeset) (quad : InsertQuad) :
    (changeset.insertQuad ext parseF64 quad).adds =
        changeset.adds ++ (quad.added ext parseF64).toList ∧
      (changeset.insertQuad ext parseF64 quad).retractions = changeset.retractions := by
  obtain ⟨subject, predicate, object, graph, edge⟩ := quad
  cases subject with
  | namedNode iri =>
    cases object <;> simp [insertQuad, InsertQuad.added, sparqlQuadToProtoTriple]
  | blankNode label => simp [insertQuad, InsertQuad.added, sparqlQuadToProtoTriple]
  | triple annotation =>
    cases annotation <;> simp [insertQuad, InsertQuad.added, sparqlQuadToProtoTriple]

/-- What compiling quads to insert does to the adds and the retractions. -/
theorem foldl_insertQuad (data : List InsertQuad) (changeset : UpdateChangeset) :
    (data.foldl (insertQuad ext parseF64) changeset).adds =
        changeset.adds ++ data.filterMap (InsertQuad.added ext parseF64) ∧
      (data.foldl (insertQuad ext parseF64) changeset).retractions = changeset.retractions := by
  induction data generalizing changeset with
  | nil => simp
  | cons quad rest ih =>
    obtain ⟨adds, retractions⟩ := @insertQuad_spec ext parseF64 changeset quad
    rw [List.foldl_cons, (ih _).1, (ih _).2, adds, retractions]
    cases compiled : quad.added ext parseF64 <;> simp [compiled]

/-- What compiling a quad to delete does to the adds and the retractions. -/
theorem deleteQuad_spec (changeset : UpdateChangeset) (quad : GroundQuad) :
    (changeset.deleteQuad ext parseF64 quad).adds = changeset.adds.filter (fun add =>
        (quad.retraction ext parseF64).all (fun r => !quadRefMatches r add.1 add.2.1)) ∧
      (changeset.deleteQuad ext parseF64 quad).retractions =
        changeset.retractions ++ (quad.retraction ext parseF64).toList := by
  obtain ⟨subject, predicate, object, graph⟩ := quad
  cases subject with
  | namedNode iri =>
    cases target : groundTermDeleteTarget ext parseF64 object <;>
      simp [deleteQuad, GroundQuad.retraction, target, retract]
  | triple inner => simp [deleteQuad, GroundQuad.retraction]

/-- What compiling quads to delete does to the adds and the retractions. -/
theorem foldl_deleteQuad (data : List GroundQuad) (changeset : UpdateChangeset) :
    (data.foldl (deleteQuad ext parseF64) changeset).adds = changeset.adds.filter (fun add =>
        data.all fun quad =>
          (quad.retraction ext parseF64).all (fun r => !quadRefMatches r add.1 add.2.1)) ∧
      (data.foldl (deleteQuad ext parseF64) changeset).retractions =
        changeset.retractions ++ data.filterMap (GroundQuad.retraction ext parseF64) := by
  induction data generalizing changeset with
  | nil => simp
  | cons quad rest ih =>
    obtain ⟨adds, retractions⟩ := @deleteQuad_spec ext parseF64 changeset quad
    rw [List.foldl_cons, (ih _).1, (ih _).2, adds, retractions, List.filter_filter]
    constructor
    · simp only [List.all_cons, Bool.and_comm]
    · cases compiled : quad.retraction ext parseF64 <;> simp [compiled]

/-- The retractions are those of all deleted quads. -/
theorem mem_retractions (operations : List UpdateOperation) (r : QuadRef) :
    r ∈ (compile ext parseF64 operations).retractions ↔
      ∃ op ∈ operations, ∃ quad ∈ op.deleted, quad.retraction ext parseF64 = some r := by
  induction operations using List.reverseRecOn with
  | nil => simp [compile]
  | append_singleton operations op ih =>
    rw [compile, List.foldl_append, ← compile]
    cases op with
    | insertData data =>
      simp only [List.foldl_cons, List.foldl_nil, operation, (foldl_insertQuad data _).2, ih,
        List.mem_append, List.mem_singleton, or_and_right, exists_or, exists_eq_left,
        UpdateOperation.deleted, List.not_mem_nil, false_and, exists_false, or_false]
    | deleteData data =>
      simp only [List.foldl_cons, List.foldl_nil, operation, (foldl_deleteQuad data _).2, ih,
        List.mem_append, List.mem_singleton, or_and_right, exists_or, exists_eq_left,
        UpdateOperation.deleted, List.mem_filterMap]

/-- The adds are those of the inserted quads that no later delete is written like. -/
theorem mem_adds (operations : List UpdateOperation) (add : String × (ProtoTriple × EdgeId)) :
    add ∈ (compile ext parseF64 operations).adds ↔
      ∃ quad, quad.added ext parseF64 = some add ∧ Standing ext parseF64 quad operations := by
  induction operations using List.reverseRecOn with
  | nil => simp [compile, Standing]
  | append_singleton operations op ih =>
    rw [compile, List.foldl_append, ← compile]
    simp only [Standing, Edits.stands_concat] at ih ⊢
    cases op with
    | insertData data =>
      simp only [List.foldl_cons, List.foldl_nil, operation, (foldl_insertQuad data _).1,
        List.mem_append, ih, List.mem_filterMap]
      constructor
      · rintro (⟨quad, compiled, stands⟩ | ⟨quad, member, compiled⟩)
        · exact ⟨quad, compiled, Or.inr ⟨stands, by simp [UpdateOperation.Undoes,
            UpdateOperation.deleted]⟩⟩
        · exact ⟨quad, compiled, Or.inl member⟩
      · rintro ⟨quad, compiled, member | ⟨stands, _⟩⟩
        · exact Or.inr ⟨quad, member, compiled⟩
        · exact Or.inl ⟨quad, compiled, stands⟩
    | deleteData data =>
      -- Whether an add is undone depends on how it is written alone.
      have undone : ∀ quad : InsertQuad, quad.added ext parseF64 = some add →
          ((data.all fun deleted => (deleted.retraction ext parseF64).all
            (fun r => !quadRefMatches r add.1 add.2.1)) = true ↔
              ¬ UpdateOperation.Undoes ext parseF64 quad (.deleteData data)) := by
        intro quad compiled
        simp [UpdateOperation.Undoes, UpdateOperation.deleted, GroundQuad.WrittenLike, compiled,
          Option.all_eq_true]
      simp only [List.foldl_cons, List.foldl_nil, operation, (foldl_deleteQuad data _).1,
        List.mem_filter, ih]
      constructor
      · rintro ⟨⟨quad, compiled, stands⟩, kept⟩
        exact ⟨quad, compiled, Or.inr ⟨stands, (undone quad compiled).mp kept⟩⟩
      · rintro ⟨quad, compiled, member | ⟨stands, kept⟩⟩
        · cases member
        · exact ⟨⟨quad, compiled, stands⟩, (undone quad compiled).mpr kept⟩

/-- What is in the slots of an association list after one more item went to a slot. -/
theorem mem_entryUpdate {κ ι : Type} [DecidableEq κ] (key : κ) (item : ι)
    (slots : List (κ × List ι))
    (name : κ) (other : ι) :
    (∃ slot, (name, slot) ∈ Latest.entryUpdate key [] (fun held => held ++ [item]) slots ∧
        other ∈ slot) ↔
      (∃ slot, (name, slot) ∈ slots ∧ other ∈ slot) ∨ (name = key ∧ other = item) := by
  induction slots with
  | nil => simp [Latest.entryUpdate]
  | cons head rest ih =>
    obtain ⟨held, slot⟩ := head
    by_cases same : held = key
    · subst same
      simp only [Latest.entryUpdate, if_true, List.mem_cons, Prod.mk.injEq, or_and_right, exists_or,
        and_assoc, exists_and_left, exists_eq_left, List.mem_append, List.mem_cons, List.not_mem_nil,
        or_false, and_or_left]
      exact or_right_comm
    · simp only [Latest.entryUpdate, if_neg same, List.mem_cons, Prod.mk.injEq, or_and_right,
        exists_or, and_assoc, exists_and_left, exists_eq_left, ih]
      exact or_assoc.symm

/-- The groups of a changeset hold its adds. -/
theorem mem_graphTriples (changeset : UpdateChangeset) (graph : String)
    (triple : ProtoTriple × EdgeId) :
    (∃ group ∈ changeset.graphTriples, group.graph = graph ∧ triple ∈ group.triples) ↔
      (graph, triple) ∈ changeset.adds := by
  have grouped : ∀ adds : List (String × (ProtoTriple × EdgeId)),
      (∃ slot, (graph, slot) ∈ adds.foldl (fun groups add =>
        Latest.entryUpdate add.1 [] (fun triples => triples ++ [add.2]) groups) [] ∧
          triple ∈ slot) ↔ (graph, triple) ∈ adds := by
    intro adds
    induction adds using List.reverseRecOn with
    | nil => simp
    | append_singleton adds add ih =>
      rw [List.foldl_append, List.foldl_cons, List.foldl_nil, mem_entryUpdate, ih]
      simp [Prod.ext_iff]
  rw [← grouped, graphTriples]
  simp only [List.mem_map, Prod.exists]
  constructor
  · rintro ⟨_, ⟨name, slot, member, rfl⟩, rfl, within⟩
    exact ⟨slot, member, within⟩
  · rintro ⟨slot, member, within⟩
    exact ⟨_, ⟨graph, slot, member, rfl⟩, rfl, within⟩

end UpdateChangeset

namespace TripleStore

variable {ext : External} {store middle after : TripleStore}

/-- A graph that exists keeps its identifier where interned graphs do. -/
theorem KeepsGraphs.existingGraph (kept : store.KeepsGraphs after) {iri : String} {g : GraphId}
    (known : store.existingGraph iri = .ok g) : after.existingGraph iri = .ok g := by
  unfold TripleStore.existingGraph at known ⊢
  split_ifs at known ⊢ with blank
  · exact known
  · split at known
    · rename_i own found
      rw [kept iri own found]
      exact known
    · cases known

/-- A graph that a service call writes to exists, and the others are kept. -/
theorem existingGraph_graphFor {iri : String} {now : Timestamp} {g : GraphId}
    (done : store.graphFor ext none iri .write true now = (after, .ok g)) :
    after.existingGraph iri = .ok g ∧ store.KeepsGraphs after := by
  unfold graphFor at done
  split at done
  · cases done
  · simp only [Option.isNone_none, if_true] at done
    unfold targetGraph at done
    split_ifs at done with blank
    · cases done
      exact ⟨by simp [TripleStore.existingGraph, blank], .refl store⟩
    · split at done
      · cases done
      · simp only at done
        cases created : store.createGraphBy ext iri [] "" now with
        | mk last result =>
          obtain ⟨kept, handed⟩ := createGraphBy_keepsGraphs created
          rw [created] at done
          cases result with
          | error problem => cases done
          | ok own =>
            cases done
            refine ⟨?_, kept⟩
            unfold TripleStore.existingGraph
            rw [if_neg blank, handed g rfl]

/-- What a triple of a request is made into. -/
structure MadeInto (entry : ProtoTriple × EdgeId) (made : List Triple) (mode : WriteMode) : Prop where
  /-- Its triples. -/
  triples : triplesFromProto entry.2 entry.1 = .ok made
  /-- Their mode. -/
  mode : writeModeFromProto entry.1 = .ok mode

/-- The writes of a request's triples are those of the triples they are all made into. -/
theorem mem_triplesWrites {g : GraphId} {triples : List (ProtoTriple × EdgeId)}
    {writes : List PendingWrite} (done : triplesWrites g triples = .ok writes) :
    (∀ entry ∈ triples, ∃ made mode, MadeInto entry made mode) ∧ ∀ w, w ∈ writes ↔
      ∃ entry ∈ triples, ∃ made mode, MadeInto entry made mode ∧ ∃ triple ∈ made,
        w = ⟨triple, g, mode⟩ := by
  induction triples generalizing writes with
  | nil =>
    cases done
    simp
  | cons entry rest ih =>
    obtain ⟨proto, edge⟩ := entry
    simp only [triplesWrites] at done
    obtain ⟨made, first, done⟩ := Except.bind_eq_ok.mp done
    obtain ⟨mode, second, done⟩ := Except.bind_eq_ok.mp done
    obtain ⟨others, third, done⟩ := Except.bind_eq_ok.mp done
    cases done
    obtain ⟨all, member⟩ := ih third
    have own : MadeInto (proto, edge) made mode := ⟨first, second⟩
    refine ⟨List.forall_mem_cons.mpr ⟨⟨made, mode, own⟩, all⟩, fun w => ?_⟩
    rw [List.mem_append, member, List.exists_mem_cons_iff]
    refine or_congr_left ?_
    rw [List.mem_map]
    constructor
    · rintro ⟨triple, within, rfl⟩
      exact ⟨made, mode, own, triple, within, rfl⟩
    · rintro ⟨made', mode', own', triple, within, rfl⟩
      obtain rfl := Except.ok.inj (own.triples.symm.trans own'.triples)
      obtain rfl := Except.ok.inj (own.mode.symm.trans own'.mode)
      exact ⟨triple, within, rfl⟩

/-- What the additions of a service call are resolved to. -/
structure ResolvedAdds (after : TripleStore) (groups : List GraphTriples) (adds : List PendingWrite) :
    Prop where
  /-- Every group has its graph. -/
  graph : ∀ group ∈ groups, ∃ g, after.existingGraph group.graph = .ok g
  /-- Every triple is made into some. -/
  made : ∀ group ∈ groups, ∀ entry ∈ group.triples, ∃ made mode, MadeInto entry made mode
  /-- The writes are those of the triples in the graphs of their groups. -/
  mem_iff : ∀ w, w ∈ adds ↔ ∃ group ∈ groups, ∃ entry ∈ group.triples, ∃ g made mode,
    after.existingGraph group.graph = .ok g ∧ MadeInto entry made mode ∧ ∃ triple ∈ made,
      w = ⟨triple, g, mode⟩

/-- The additions of a service call are resolved to the writes of their triples. -/
theorem resolveAdds_spec {now : Timestamp} {groups : List GraphTriples} {adds : List PendingWrite}
    {commits : Nat} (sound : store.Sound ext) (room : store.HasRoom now (commits + groups.length))
    (done : resolveAdds ext none now store groups = (after, .ok adds)) :
    store.KeepsGraphs after ∧ ResolvedAdds after groups adds := by
  induction groups generalizing store adds with
  | nil =>
    cases done
    exact ⟨.refl _, by simp, by simp, by simp⟩
  | cons group rest ih =>
    simp only [resolveAdds] at done
    split at done
    · cases done
    · rename_i middle g resolved
      have room : store.HasRoom now (commits + rest.length + 1) := room
      obtain ⟨first, space⟩ := unwritten_graphFor sound room resolved
      obtain ⟨exists_, kept⟩ := existingGraph_graphFor resolved
      split at done
      · cases done
      · rename_i writes own
        split at done
        · cases done
        · rename_i others more
          cases done
          obtain ⟨later, tail⟩ := ih first.sound space more
          obtain ⟨all, member⟩ := mem_triplesWrites own
          have here := later.existingGraph exists_
          refine ⟨kept.trans later, List.forall_mem_cons.mpr ⟨⟨g, here⟩, tail.graph⟩,
            List.forall_mem_cons.mpr ⟨all, tail.made⟩, fun w => ?_⟩
          rw [List.mem_append, tail.mem_iff, member, List.exists_mem_cons_iff]
          refine or_congr_left ⟨?_, ?_⟩
          · rintro ⟨entry, within, made, mode, into, from_⟩
            exact ⟨entry, within, g, made, mode, here, into, from_⟩
          · rintro ⟨entry, within, g', made, mode, there, into, from_⟩
            obtain rfl := Except.ok.inj (there.symm.trans here)
            exact ⟨entry, within, made, mode, into, from_⟩

end TripleStore

section External

variable (ext : External) (parseF64 : String → Option UInt64)

/-- The object slot of a quad to insert. -/
def InsertObject.slot : InsertObject → Option NodeId
  | .namedNode iri => some (iriToNodeId ext iri)
  | .literal own => some (valueObject ext (sparqlLiteralToProtoValue parseF64 own))
  | _ => none

/-- The object slot of a quad to delete. -/
def DeleteTarget.slot : DeleteTarget → NodeId
  | .node own => own
  | .value own => valueObject ext own

/-- A quad to insert is a quad of a store. -/
structure InsertQuad.Names (store : TripleStore) (quad : InsertQuad) (ids : QuadIds) : Prop where
  /-- It has the subject. -/
  subject : ∃ iri, quad.subject = .namedNode iri ∧ ids.s = iriToNodeId ext iri
  /-- It has the predicate. -/
  predicate : store.predicateId quad.predicate = some ids.p
  /-- It has the object. -/
  object : quad.object.slot ext parseF64 = some ids.o
  /-- It is in the graph. -/
  graph : store.existingGraph (quad.graph.getD "") = .ok ids.g

/-- A quad to delete is a quad of a store, in any graph that can be written if it gives none. -/
structure GroundQuad.Names (store : TripleStore) (quad : GroundQuad) (ids : QuadIds) : Prop where
  /-- It has the subject. -/
  subject : ∃ iri, quad.subject = .namedNode iri ∧ ids.s = iriToNodeId ext iri
  /-- It has the predicate. -/
  predicate : store.predicateId quad.predicate = some ids.p
  /-- It has the object. -/
  object : (groundTermDeleteTarget ext parseF64 quad.object).map (DeleteTarget.slot ext) = some ids.o
  /-- It is in the graph. -/
  graph : match quad.graph with
    | some iri => store.existingGraph iri = .ok ids.g
    | none => store.writable none ids.g = true

/-- An operation inserts a quad of a store. -/
def UpdateOperation.Inserts (store : TripleStore) (ids : QuadIds) (op : UpdateOperation) : Prop :=
  ∃ quad ∈ op.inserted, quad.Names ext parseF64 store ids

/-- An operation deletes a quad of a store. -/
def UpdateOperation.Deletes (store : TripleStore) (ids : QuadIds) (op : UpdateOperation) : Prop :=
  ∃ quad ∈ op.deleted, quad.Names ext parseF64 store ids

/-- Quads have IRIs and literals for terms. -/
structure UpdateOperation.Plain (op : UpdateOperation) : Prop where
  /-- Those that are inserted. -/
  inserted : ∀ quad ∈ op.inserted, (∃ iri, quad.subject = .namedNode iri) ∧
    (quad.object.slot ext parseF64).isSome
  /-- Those that are deleted. -/
  deleted : ∀ quad ∈ op.deleted, (∃ iri, quad.subject = .namedNode iri) ∧
    (groundTermDeleteTarget ext parseF64 quad.object).isSome

namespace TripleStore

/--
The live quads after an update are those that its operations leave when run one after another.

Quads are named as in a store that knows every predicate of the update.
-/
def RunsInOrder (store named after : TripleStore) (operations : List UpdateOperation)
    (now : Timestamp) : Prop :=
  ∀ ids, after.Shows after.committed now ids ↔
    Edits.edited (UpdateOperation.Inserts ext parseF64 named ids)
      (UpdateOperation.Deletes ext parseF64 named ids) (store.Shows store.committed now ids) operations

/-- Some insert of a quad has no later delete that is written like it. -/
def Kept (named : TripleStore) (operations : List UpdateOperation) (ids : QuadIds) : Prop :=
  ∃ quad, quad.Names ext parseF64 named ids ∧ Standing ext parseF64 quad operations

/-- Some delete names a quad, and what is read of the quad compares equal to what the delete says. -/
def StruckBy (store : TripleStore) (operations : List UpdateOperation) (ts now : Timestamp)
    (ids : QuadIds) : Prop :=
  ∃ op ∈ operations, ∃ quad ∈ op.deleted, ∃ r, quad.retraction ext parseF64 = some r ∧
    TripleStore.Names ext store none r ids ∧ store.Matches ext ts now r ids

/--
When an update leaves a quad as its operations run one after another do.

The stores are the one before with the graphs of the update, and with its predicates too.
-/
structure InOrder (store named : TripleStore) (operations : List UpdateOperation) (ts now : Timestamp)
    (ids : QuadIds) : Prop where
  /-- An insert that stands and is kept is of a live quad, or of one without a later start. -/
  inserted : Edits.Stands (UpdateOperation.Inserts ext parseF64 named ids)
      (UpdateOperation.Deletes ext parseF64 named ids) operations →
    Kept ext parseF64 named operations ids →
      store.Shows store.committed now ids ∨ store.WouldGovern now ids Timestamp.zero
  /-- An insert that stands and is not kept is of a live quad that no delete closes. -/
  lost : Edits.Stands (UpdateOperation.Inserts ext parseF64 named ids)
      (UpdateOperation.Deletes ext parseF64 named ids) operations →
    ¬ Kept ext parseF64 named operations ids →
      store.Shows store.committed now ids ∧ ¬ StruckBy ext parseF64 store operations ts now ids
  /-- An insert that is deleted and still kept makes nothing live. -/
  kept : ¬ Edits.Stands (UpdateOperation.Inserts ext parseF64 named ids)
      (UpdateOperation.Deletes ext parseF64 named ids) operations →
    Kept ext parseF64 named operations ids →
      ¬ store.Shows store.committed now ids ∧ ¬ store.WouldGovern now ids Timestamp.zero
  /-- A live quad that is deleted for good compares equal to what a delete says. -/
  closed : ¬ Edits.Stands (UpdateOperation.Inserts ext parseF64 named ids)
      (UpdateOperation.Deletes ext parseF64 named ids) operations →
    ¬ Kept ext parseF64 named operations ids → store.Shows store.committed now ids →
      (∃ op ∈ operations, UpdateOperation.Deletes ext parseF64 named ids op) →
        StruckBy ext parseF64 store operations ts now ids

end TripleStore

end External

variable {ext : External} {parseF64 : String → Option UInt64}

/-- A value that a request may give is taken as it is. -/
theorem valueFromProto_eq {value made : Value} (done : valueFromProto value = .ok made) :
    made = value := by
  cases value <;> simp only [valueFromProto] at done
  case langText text lang =>
    split_ifs at done
    exact (Except.ok.inj done).symm
  case typed lexical datatype =>
    split_ifs at done
    exact (Except.ok.inj done).symm
  all_goals exact (Except.ok.inj done).symm

/-- The sixteen bytes of a node are those of the node. -/
theorem nodeIdFromProto_bytes (node : NodeId) : nodeIdFromProto node.uuid.bytes = .ok node := by
  unfold nodeIdFromProto
  rw [dif_pos node.uuid.width]

/-- What the add of a quad is made into: one write of the quad, valid since the epoch and for ever. -/
theorem InsertQuad.made {quad : InsertQuad} {graph : String} {entry : ProtoTriple × EdgeId}
    (compiled : quad.added ext parseF64 = some (graph, entry)) {made : List Triple}
    {mode : WriteMode} (into : TripleStore.MadeInto entry made mode) :
    graph = quad.graph.getD "" ∧ ∃ triple, made = [triple] ∧
      triple.temporal = ⟨Timestamp.zero, Timestamp.END_OF_TIME, Timestamp.zero⟩ ∧
      ∀ g, (⟨triple, g, mode⟩ : PendingWrite).Adds ∧ ∀ store ids,
        TripleStore.quadOf ext store ⟨triple, g, mode⟩ = some ids ↔
          (∃ iri, quad.subject = .namedNode iri ∧ ids.s = iriToNodeId ext iri) ∧
          store.predicateId quad.predicate = some ids.p ∧
          quad.object.slot ext parseF64 = some ids.o ∧ ids.g = g := by
  obtain ⟨subject, predicate, object, own, edge⟩ := quad
  obtain ⟨triples, modes⟩ := into
  have slots : ∀ (store : TripleStore) (ids : QuadIds) (s o : NodeId) (g : GraphId),
      (store.predicateId predicate).map (fun p => (⟨s, p, o, g⟩ : QuadIds)) = some ids ↔
        ids.s = s ∧ store.predicateId predicate = some ids.p ∧ o = ids.o ∧ ids.g = g := by
    intro store ids s o g
    obtain ⟨s', p', o', g'⟩ := ids
    cases store.predicateId predicate <;> simp [eq_comm]
  cases subject with
  | namedNode iri =>
    cases object with
    | namedNode target =>
      cases compiled
      refine ⟨rfl, ?_⟩
      simp only [triplesFromProto, requiredNode, nodeIdFromProto_bytes, bind, Except.bind] at triples
      split_ifs at triples
      cases triples
      cases modes
      refine ⟨_, rfl, rfl, fun g => ⟨?_, fun store ids => ?_⟩⟩
      · simp [PendingWrite.Adds, WriteMode.resolve]
      · simp only [TripleStore.quadOf, slots, InsertObject.slot, InsertSubject.namedNode.injEq,
          exists_eq_left', Option.some.injEq]
    | literal literal =>
      cases compiled
      refine ⟨rfl, ?_⟩
      simp only [triplesFromProto, requiredNode, nodeIdFromProto_bytes, requiredValue, bind,
        Except.bind] at triples
      split_ifs at triples
      cases value : valueFromProto (sparqlLiteralToProtoValue parseF64 literal) with
      | error problem =>
        rw [value] at triples
        cases triples
      | ok same =>
        rw [value] at triples
        obtain rfl := valueFromProto_eq value
        cases triples
        cases modes
        refine ⟨_, rfl, rfl, fun g => ⟨?_, fun store ids => ?_⟩⟩
        · simp [PendingWrite.Adds, WriteMode.resolve]
        · simp only [TripleStore.quadOf, slots, InsertObject.slot, InsertSubject.namedNode.injEq,
            exists_eq_left', Option.some.injEq]
    | blankNode | triple => cases compiled
  | blankNode | triple => cases compiled

namespace UpdateChangeset

/-- Operations over IRIs and literals add no annotations. -/
theorem annotations_compile {operations : List UpdateOperation}
    (plain : ∀ op ∈ operations, op.Plain ext parseF64) :
    (compile ext parseF64 operations).annotations = [] := by
  have insert : ∀ (data : List InsertQuad) (changeset : UpdateChangeset),
      (∀ quad ∈ data, ∃ iri, quad.subject = .namedNode iri) →
        (data.foldl (insertQuad ext parseF64) changeset).annotations = changeset.annotations := by
    intro data
    induction data with
    | nil => exact fun _ _ => rfl
    | cons quad rest ih =>
      intro changeset nodes
      obtain ⟨⟨iri, subject⟩, rest_nodes⟩ := List.forall_mem_cons.mp nodes
      rw [List.foldl_cons, ih _ rest_nodes, insertQuad, subject]
      simp only
      split <;> rfl
  have delete : ∀ (data : List GroundQuad) (changeset : UpdateChangeset),
      (data.foldl (deleteQuad ext parseF64) changeset).annotations = changeset.annotations := by
    intro data
    induction data with
    | nil => exact fun _ => rfl
    | cons quad rest ih =>
      intro changeset
      rw [List.foldl_cons, ih, deleteQuad]
      split <;> rfl
  induction operations using List.reverseRecOn with
  | nil => rfl
  | append_singleton operations op ih =>
    rw [compile, List.foldl_append, ← compile, List.foldl_cons, List.foldl_nil]
    have before := ih fun other member => plain other (List.mem_append_left _ member)
    have own := plain op (by simp)
    cases op with
    | insertData data =>
      rw [operation, insert data _ fun quad member => (own.inserted quad member).1, before]
    | deleteData data => rw [operation, delete, before]

end UpdateChangeset

namespace TripleStore

variable {store middle after : TripleStore}

/-- What an update is resolved to: open additions since the epoch, of the quads that are kept. -/
theorem resolveWrites_update {operations : List UpdateOperation}
    (plain : ∀ op ∈ operations, op.Plain ext parseF64) {readTs now : Timestamp}
    {adds : List PendingWrite} {commits : Nat} (sound : store.Sound ext)
    (room : store.HasRoom now (commits +
      (UpdateChangeset.compile ext parseF64 operations).graphTriples.length))
    (resolved : store.resolveWrites ext none
      ((UpdateChangeset.compile ext parseF64 operations).request readTs) now =
        (middle, .ok adds)) :
    (∀ w ∈ adds, w.Adds ∧
      w.triple.temporal = ⟨Timestamp.zero, Timestamp.END_OF_TIME, Timestamp.zero⟩) ∧
    ∀ named : TripleStore, (∀ iri, named.existingGraph iri = middle.existingGraph iri) →
      ∀ ids, (∃ w ∈ adds, named.quadOf ext w = some ids) ↔
        Kept ext parseF64 named operations ids := by
  unfold resolveWrites at resolved
  split at resolved
  · cases resolved
  · rename_i last triples done
    have bare : ((UpdateChangeset.compile ext parseF64 operations).request
        readTs).edgeAnnotations = [] := UpdateChangeset.annotations_compile plain
    simp only [bare, resolveAnnotations, List.isEmpty_nil, if_true, List.append_nil] at resolved
    obtain ⟨rfl, same⟩ := Prod.mk.inj resolved
    obtain rfl := Except.ok.inj same
    obtain ⟨_, spec⟩ := resolveAdds_spec sound room done
    have grouped := (UpdateChangeset.compile ext parseF64 operations).mem_graphTriples
    have compiled := @UpdateChangeset.mem_adds ext parseF64 operations
    constructor
    · intro w member
      obtain ⟨group, listed, entry, within, g, made, mode, _, into, triple, inside, rfl⟩ :=
        (spec.mem_iff w).mp member
      obtain ⟨quad, own, _⟩ := (compiled _).mp
        ((grouped group.graph entry).mp ⟨group, listed, rfl, within⟩)
      obtain ⟨_, only, rfl, window, writes⟩ := InsertQuad.made own into
      obtain rfl := List.mem_singleton.mp inside
      exact ⟨(writes g).1, window⟩
    · intro named graphs ids
      constructor
      · rintro ⟨w, member, own⟩
        obtain ⟨group, listed, entry, within, g, made, mode, graph, into, triple, inside, rfl⟩ :=
          (spec.mem_iff w).mp member
        obtain ⟨quad, add, stands⟩ := (compiled _).mp
          ((grouped group.graph entry).mp ⟨group, listed, rfl, within⟩)
        obtain ⟨same, only, rfl, _, writes⟩ := InsertQuad.made add into
        obtain rfl := List.mem_singleton.mp inside
        obtain ⟨subject, predicate, object, rfl⟩ := ((writes g).2 named ids).mp own
        refine ⟨quad, ⟨subject, predicate, object, ?_⟩, stands⟩
        rw [graphs, ← same]
        exact graph
      · rintro ⟨quad, names, stands⟩
        obtain ⟨iri, subject, _⟩ := names.subject
        -- A quad with a slot for its object is compiled to an add.
        have add : (quad.added ext parseF64).isSome := by
          have object := names.object
          cases kind : quad.object <;>
            simp [kind, InsertObject.slot, InsertQuad.added, sparqlQuadToProtoTriple, subject]
              at object ⊢
        obtain ⟨⟨graph, entry⟩, add⟩ := Option.isSome_iff_exists.mp add
        obtain ⟨group, listed, rfl, within⟩ := (grouped graph entry).mpr
          ((compiled _).mpr ⟨quad, add, stands⟩)
        obtain ⟨made, mode, into⟩ := spec.made group listed entry within
        obtain ⟨same, triple, rfl, _, writes⟩ := InsertQuad.made add into
        have exists_ := names.graph
        rw [graphs, ← same] at exists_
        refine ⟨⟨triple, ids.g, mode⟩, (spec.mem_iff _).mpr ⟨group, listed, entry, within, ids.g,
          _, mode, exists_, into, triple, List.mem_singleton_self _, rfl⟩, ?_⟩
        exact ((writes ids.g).2 named ids).mpr ⟨names.subject, names.predicate, names.object, rfl⟩

/-- Interning predicates changes no graph. -/
theorem existingGraph_internAll (writes : List PendingWrite) (store : TripleStore) (iri : String) :
    (store.internAll writes).existingGraph iri = store.existingGraph iri := by
  induction writes generalizing store with
  | nil => rfl
  | cons w rest ih =>
    refine (ih _).trans ?_
    unfold internPredicate
    dsimp only
    split <;> rfl

/-- Interning predicates makes no graph writable. -/
theorem writable_internAll (writes : List PendingWrite) (store : TripleStore)
    (access : Option UserGraphAccess) (g : GraphId) :
    (store.internAll writes).writable access g = store.writable access g := by
  induction writes generalizing store with
  | nil => rfl
  | cons w rest ih =>
    refine (ih _).trans ?_
    unfold internPredicate
    dsimp only
    split <;> rfl

/-- A quad that a delete closes is one that the delete names. -/
theorem StruckBy.deletes {operations : List UpdateOperation} {writes : List PendingWrite}
    {ts now : Timestamp} {ids : QuadIds} (closed : StruckBy ext parseF64 store operations ts now ids) :
    ∃ op ∈ operations, op.Deletes ext parseF64 (store.internAll writes) ids := by
  obtain ⟨op, member, quad, within, r, made, names, _⟩ := closed
  refine ⟨op, member, quad, within, ?_⟩
  obtain ⟨subject, predicate, object, graph⟩ := quad
  cases subject with
  | triple inner => cases made
  | namedNode iri =>
    cases target : groundTermDeleteTarget ext parseF64 object with
    | none => simp [GroundQuad.retraction, target] at made
    | some kind =>
      simp only [GroundQuad.retraction, target, Option.some.injEq] at made
      subst made
      obtain ⟨subject, known, ⟨value, slot⟩, place⟩ := names
      simp only [deleteQuadRef, requiredNode, nodeIdFromProto_bytes, Except.ok.injEq] at subject
      refine ⟨⟨iri, rfl, subject.symm⟩, ?_, ?_, ?_⟩
      · exact predicateId_internAll writes _ known
      · rw [target, Option.map_some]
        cases kind with
        | node node =>
          simp only [retractionObject, deleteQuadRef, nodeIdFromProto_bytes, bind, Except.bind, pure,
            Except.pure, Except.ok.injEq, Prod.mk.injEq] at slot
          exact congrArg some slot.1
        | value held =>
          simp only [retractionObject, deleteQuadRef, bind, Except.bind] at slot
          cases taken : valueFromProto held with
          | error problem =>
            rw [taken] at slot
            cases slot
          | ok same =>
            rw [taken] at slot
            obtain rfl := valueFromProto_eq taken
            exact congrArg some (Prod.mk.inj (Except.ok.inj slot)).1
      · cases graph with
        | some name =>
          simp only [deleteQuadRef, Option.isNone_some, Bool.false_eq_true, if_false,
            Option.getD_some] at place
          simpa only [existingGraph_internAll] using place
        | none =>
          simp only [deleteQuadRef, Option.isNone_none, if_true] at place
          simpa only [writable_internAll] using place

/-- The two ways to say what is live agree exactly in four cases. -/
private theorem agree_iff {stands kept live closed deleted governs shown : Prop}
    (deletes : closed → deleted) (falls : ¬ stands → kept → deleted)
    (code : shown ↔ (kept ∧ (governs ∨ live)) ∨ (¬ kept ∧ live ∧ ¬ closed)) :
    (shown ↔ stands ∨ (live ∧ ¬ deleted)) ↔
      (stands → kept → live ∨ governs) ∧ (stands → ¬ kept → live ∧ ¬ closed) ∧
        (¬ stands → kept → ¬ live ∧ ¬ governs) ∧
          (¬ stands → ¬ kept → live → deleted → closed) := by
  rw [code]
  by_cases first : stands <;> by_cases second : kept <;> by_cases third : live <;> simp_all
  all_goals grind

/-- What an update leaves live is decided by the inserts that are kept and the deletes that close. -/
theorem runDataUpdate_shows_iff {edgeTypes : String → Option Cardinality}
    {operations : List UpdateOperation} {readTs now : Timestamp} {adds : List PendingWrite}
    {response : ApplyChangesResponse}
    (unwritten : store.Unwritten ext middle) (left : middle.HasRoom now 0)
    (windows : ∀ w ∈ adds, w.Adds ∧
      w.triple.temporal = ⟨Timestamp.zero, Timestamp.END_OF_TIME, Timestamp.zero⟩)
    {ids : QuadIds} (kept : (∃ w ∈ adds, (middle.internAll adds).quadOf ext w = some ids) ↔
      Kept ext parseF64 (middle.internAll adds) operations ids)
    (resolved : store.resolveWrites ext none
      ((UpdateChangeset.compile ext parseF64 operations).request readTs) now = (middle, .ok adds))
    (quiet : Timestamp.zero < readTs →
      ∀ key bytes, store.index key = some bytes → key.tt ≤ readTs)
    (applied : store.applyChanges ext edgeTypes none ""
      ((UpdateChangeset.compile ext parseF64 operations).request readTs) now = (after, .ok response)) :
    after.Shows after.committed now ids ↔
      (Kept ext parseF64 (middle.internAll adds) operations ids ∧
        (middle.WouldGovern now ids Timestamp.zero ∨ middle.Shows middle.committed now ids)) ∨
      (¬ Kept ext parseF64 (middle.internAll adds) operations ids ∧
        middle.Shows middle.committed now ids ∧ ¬ StruckBy ext parseF64 middle operations
          (middle.readAt ((UpdateChangeset.compile ext parseF64 operations).request readTs)) now
            ids) := by
  have seen : ∀ key bytes, middle.index key = some bytes →
      key.tt ≤ middle.readAt ((UpdateChangeset.compile ext parseF64 operations).request readTs) := by
    intro key bytes found
    unfold readAt
    split_ifs with given
    · exact quiet given key bytes (unwritten.index ▸ found)
    · exact unwritten.sound.recorded key bytes found
  have closed : (∃ r ∈
      ((UpdateChangeset.compile ext parseF64 operations).request readTs).retractions,
      middle.Names ext none r ids ∧ middle.Matches ext
        (middle.readAt ((UpdateChangeset.compile ext parseF64 operations).request readTs)) now r ids) ↔
      StruckBy ext parseF64 middle operations
        (middle.readAt ((UpdateChangeset.compile ext parseF64 operations).request readTs)) now ids := by
    constructor
    · rintro ⟨r, listed, both⟩
      obtain ⟨op, member, quad, within, made⟩ :=
        (UpdateChangeset.mem_retractions operations r).mp listed
      exact ⟨op, member, quad, within, r, made, both⟩
    · rintro ⟨op, member, quad, within, r, made, both⟩
      exact ⟨r, (UpdateChangeset.mem_retractions operations r).mpr
        ⟨op, member, quad, within, made⟩, both⟩
  rw [applyChanges_shows_iff unwritten.sound left.room resolved
    (fun w member => (windows w member).1) seen applied ids]
  cases last : (middle.internAll adds).lastWrite ext adds ids with
  | none =>
    have gone : ¬ Kept ext parseF64 (middle.internAll adds) operations ids := fun held =>
      (kept.mpr held).elim fun w both => lastWrite_eq_none.mp last w both.1 both.2
    simp only [closed, gone, false_and, not_false_eq_true, true_and, false_or]
  | some w =>
    obtain ⟨member, own⟩ := lastWrite_mem last
    have held := kept.mp ⟨w, member, own⟩
    have endless : now < Timestamp.END_OF_TIME := by
      have bound := left.2
      show now.micros < 2 ^ 63 - 1
      omega
    -- Every addition is since the epoch and for ever.
    simp only [(windows w member).2, endless, and_true, held, true_and, not_true, false_and, or_false]
    by_cases governs : middle.WouldGovern now ids Timestamp.zero <;> simp [governs]

/-- An update that is applied is one changeset that succeeds. -/
theorem applyChanges_of_applied {edgeTypes : String → Option Cardinality}
    {operations : List UpdateOperation} {readTs now : Timestamp} {response : ApplyChangesResponse}
    {failed : Nat} (done : runDataUpdate ext parseF64 edgeTypes store operations false readTs now =
      (after, .applied response failed)) :
    store.applyChanges ext edgeTypes none ""
      ((UpdateChangeset.compile ext parseF64 operations).request readTs) now =
        (after, .ok response) := by
  unfold runDataUpdate at done
  generalize UpdateChangeset.compile ext parseF64 operations = changeset at done ⊢
  simp only [Bool.false_eq_true, if_false] at done
  split at done
  · cases done
  · cases result : store.applyChanges ext edgeTypes none "" (changeset.request readTs) now with
    | mk last outcome =>
      rw [result] at done
      cases outcome with
      | error problem =>
        simp only at done
        split at done <;> cases done
      | ok own =>
        cases done
        rfl

/-- An update that is applied runs its operations in order exactly when every quad allows it. -/
theorem runDataUpdate_inOrder_iff {edgeTypes : String → Option Cardinality}
    {operations : List UpdateOperation} (plain : ∀ op ∈ operations, op.Plain ext parseF64)
    {readTs now : Timestamp} {adds : List PendingWrite} {response : ApplyChangesResponse}
    {failed : Nat} (sound : store.Sound ext)
    (room : store.HasRoom now
      ((UpdateChangeset.compile ext parseF64 operations).graphTriples.length + 1))
    (resolved : store.resolveWrites ext none
      ((UpdateChangeset.compile ext parseF64 operations).request readTs) now = (middle, .ok adds))
    (quiet : Timestamp.zero < readTs →
      ∀ key bytes, store.index key = some bytes → key.tt ≤ readTs)
    (done : runDataUpdate ext parseF64 edgeTypes store operations false readTs now =
      (after, .applied response failed)) :
    RunsInOrder ext parseF64 store (middle.internAll adds) after operations now ↔
      ∀ ids, InOrder ext parseF64 middle (middle.internAll adds) operations
        (middle.readAt ((UpdateChangeset.compile ext parseF64 operations).request readTs)) now ids := by
  have length : ((UpdateChangeset.compile ext parseF64 operations).request readTs).adds.length =
      (UpdateChangeset.compile ext parseF64 operations).graphTriples.length := rfl
  have space : store.HasRoom now
      (0 + 1 + ((UpdateChangeset.compile ext parseF64 operations).request readTs).adds.length) := by
    rw [length]
    exact room.mono (by omega)
  obtain ⟨unwritten, left⟩ := unwritten_resolveWrites sound space resolved
  rw [length] at space
  obtain ⟨windows, kept⟩ := resolveWrites_update plain sound space resolved
  have applied := applyChanges_of_applied done
  refine forall_congr' fun ids => ?_
  have held := kept (middle.internAll adds) (existingGraph_internAll adds middle) ids
  have code := runDataUpdate_shows_iff unwritten left windows held resolved quiet applied
  have shows := shows_of_kept (sound.counted room.room) unwritten.advanced
    (congrArg (·.history ids) unwritten.index) now
  -- A delete that closes the quad names it, and an insert that falls is deleted.
  have falls : ¬ Edits.Stands (UpdateOperation.Inserts ext parseF64 (middle.internAll adds) ids)
      (UpdateOperation.Deletes ext parseF64 (middle.internAll adds) ids) operations →
        Kept ext parseF64 (middle.internAll adds) operations ids →
          ∃ op ∈ operations, op.Deletes ext parseF64 (middle.internAll adds) ids := by
    rintro fallen ⟨quad, names, stands⟩
    obtain ⟨op, member, within⟩ := stands.exists
    exact Edits.deleted_of_not_stands fallen member ⟨quad, within, names⟩
  have never : (∀ op ∈ operations, ¬ op.Deletes ext parseF64 (middle.internAll adds) ids) ↔
      ¬ ∃ op ∈ operations, op.Deletes ext parseF64 (middle.internAll adds) ids := by
    simp only [not_exists, not_and]
  rw [Edits.edited_iff, ← shows, never, agree_iff (fun held => held.deletes) falls code]
  constructor
  · rintro ⟨inserted, lost, fallen, closed⟩
    exact ⟨inserted, lost, fallen, closed⟩
  · rintro ⟨inserted, lost, fallen, closed⟩
    exact ⟨inserted, lost, fallen, closed⟩

/-- A store that relates two nodes for some time. -/
def relatedBetween (vtStart vtEnd : Timestamp) : TripleStore :=
  (create.commit readsTwo ⟨Timestamp.zero, [⟨.relation (NodeId.ofByte 1) "http://example.org/knows"
    (NodeId.ofByte 2) ⟨(NodeId.ofByte 3).uuid⟩ ⟨vtStart, vtEnd, Timestamp.zero⟩,
      GraphId.DEFAULT, .add⟩], [], "", []⟩ (Timestamp.wrap 6)).1

/-- A store that relates two nodes is reachable. -/
theorem relatedBetween_reachable (vtStart vtEnd : Timestamp) :
    Reachable readsTwo (relatedBetween vtStart vtEnd) :=
  .commit _ _ (.create DEFAULT_INLINE_VALUE_MAX_BYTES Vocabulary.default true)

/-- The relation of the two nodes, as a quad to insert. -/
def knowsInserted : InsertQuad :=
  ⟨.namedNode "urn:uuid:01010101-0101-0101-0101-010101010101", "http://example.org/knows",
    .namedNode "urn:uuid:02020202-0202-0202-0202-020202020202", none, ⟨(NodeId.ofByte 4).uuid⟩⟩

/-- The relation of the two nodes, as a quad to delete. -/
def knowsDeleted : GroundQuad :=
  ⟨.namedNode "urn:uuid:01010101-0101-0101-0101-010101010101", "http://example.org/knows",
    .namedNode "urn:uuid:02020202-0202-0202-0202-020202020202", none⟩

/-- Deleting the relation of the two nodes, and inserting it again. -/
def renewed : List UpdateOperation := [.deleteData [knowsDeleted], .insertData [knowsInserted]]

/-- The write that relates the two nodes. -/
def knowsWrite : PendingWrite :=
  ⟨.relation (NodeId.ofByte 1) "http://example.org/knows" (NodeId.ofByte 2) ⟨(NodeId.ofByte 4).uuid⟩
    ⟨Timestamp.zero, Timestamp.END_OF_TIME, Timestamp.zero⟩, GraphId.DEFAULT, .auto⟩

/-- The result of an update of a store. -/
def update (store : TripleStore) (operations : List UpdateOperation) : TripleStore × UpdateOutcome :=
  runDataUpdate readsTwo (fun _ => none) (fun _ => none) store operations false Timestamp.zero
    (Timestamp.wrap 10)

/-- The response of an update that was applied. -/
def UpdateOutcome.response? : UpdateOutcome → Option (ApplyChangesResponse × Nat)
  | .applied response failed => some (response, failed)
  | _ => none

/-- An update is applied when its response says so. -/
theorem update_eq {store : TripleStore} {operations : List UpdateOperation}
    {response : ApplyChangesResponse} {failed : Nat}
    (result : UpdateOutcome.response? (update store operations).2 = some (response, failed)) :
    runDataUpdate readsTwo (fun _ => none) (fun _ => none) store operations false Timestamp.zero
      (Timestamp.wrap 10) = ((update store operations).1, .applied response failed) := by
  refine Prod.ext rfl ?_
  cases outcome : (update store operations).2 <;> rw [outcome] at result <;> cases result
  exact outcome

/-- Quads between two IRIs are plain. -/
theorem plain_knows (operations : List UpdateOperation)
    (own : ∀ op ∈ operations, op = .insertData [knowsInserted] ∨ op = .deleteData [knowsDeleted]) :
    ∀ op ∈ operations, op.Plain readsTwo (fun _ => none) := by
  intro op member
  rcases own op member with rfl | rfl
  · refine ⟨fun quad within => ?_, nofun⟩
    obtain rfl := List.mem_singleton.mp within
    exact ⟨⟨_, rfl⟩, rfl⟩
  · refine ⟨nofun, fun quad within => ?_⟩
    obtain rfl := List.mem_singleton.mp within
    exact ⟨⟨_, rfl⟩, rfl⟩

/-- A first insert runs in order if the quads allow it. -/
theorem runDataUpdate_inOrder_iff_first :
    RunsInOrder readsTwo (fun _ => none) create (create.internAll [knowsWrite])
        (update create [.insertData [knowsInserted]]).1 [.insertData [knowsInserted]]
        (Timestamp.wrap 10) ↔
      ∀ ids, InOrder readsTwo (fun _ => none) create (create.internAll [knowsWrite])
        [.insertData [knowsInserted]] (create.readAt ((UpdateChangeset.compile readsTwo (fun _ => none)
          [.insertData [knowsInserted]]).request Timestamp.zero)) (Timestamp.wrap 10) ids := by
  have result : UpdateOutcome.response? (update create [.insertData [knowsInserted]]).2 =
      some (⟨Timestamp.wrap 10, 1, 0, 0⟩, 0) := by
    decide +kernel
  exact runDataUpdate_inOrder_iff (plain_knows _ (by simp))
    (sound_configured readsTwo DEFAULT_INLINE_VALUE_MAX_BYTES Vocabulary.default true)
    (by unfold HasRoom; decide +kernel) (by rfl) (fun given => absurd given (lt_irrefl _))
    (update_eq result)

/-- A relation that had started late and is over is not live after it is inserted. -/
theorem runDataUpdate_loses :
    Reachable readsTwo (relatedBetween (Timestamp.wrap 5) (Timestamp.wrap 7)) ∧
    UpdateOutcome.response? (update (relatedBetween (Timestamp.wrap 5) (Timestamp.wrap 7)) renewed).2 =
      some (⟨Timestamp.wrap 10, 1, 0, 1⟩, 0) ∧
    ¬ RunsInOrder readsTwo (fun _ => none) (relatedBetween (Timestamp.wrap 5) (Timestamp.wrap 7))
      ((relatedBetween (Timestamp.wrap 5) (Timestamp.wrap 7)).internAll [knowsWrite])
      (update (relatedBetween (Timestamp.wrap 5) (Timestamp.wrap 7)) renewed).1 renewed
      (Timestamp.wrap 10) := by
  have reachable := relatedBetween_reachable (Timestamp.wrap 5) (Timestamp.wrap 7)
  generalize same : relatedBetween (Timestamp.wrap 5) (Timestamp.wrap 7) = store at reachable ⊢
  have result : UpdateOutcome.response? (update store renewed).2 =
      some (⟨Timestamp.wrap 10, 1, 0, 1⟩, 0) := by
    subst same
    decide +kernel
  refine ⟨reachable, result, fun ordered => ?_⟩
  -- The last operation inserts the relation, so it should be live.
  let ids : QuadIds := ⟨NodeId.ofByte 1, ⟨1⟩, NodeId.ofByte 2, GraphId.DEFAULT⟩
  have inserts : UpdateOperation.Inserts readsTwo (fun _ => none) (store.internAll [knowsWrite]) ids
      (.insertData [knowsInserted]) := by
    subst same
    exact ⟨knowsInserted, List.mem_singleton_self _, ⟨_, rfl, by decide +kernel⟩, by decide +kernel,
      by decide +kernel, by decide +kernel⟩
  have shows := (ordered ids).mpr (Or.inr inserts)
  -- The store after is one commit away, and a scan of the default graph finds nothing in it.
  have resolved : store.resolveWrites readsTwo none
      ((UpdateChangeset.compile readsTwo (fun _ => none) renewed).request Timestamp.zero)
        (Timestamp.wrap 10) = (store, .ok [knowsWrite]) := by
    rfl
  have holds := (applyChanges_reachable reachable resolved
    (applyChanges_of_applied (update_eq result))).ordersHold
  have listed : (update store renewed).1.liveQuads readsTwo GraphId.DEFAULT (Timestamp.wrap 10) =
      .ok [] := by
    subst same
    decide +kernel
  obtain ⟨quads, empty, found⟩ := liveQuads_spec holds listed
  have blank : quads = [] := List.map_eq_nil_iff.mp empty.symm
  have inside := (found.mem_iff ids).mpr ⟨rfl, shows⟩
  rw [blank] at inside
  cases inside

end TripleStore

end Polargraph
