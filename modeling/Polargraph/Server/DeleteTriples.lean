import Mathlib.Data.List.Dedup
import Polargraph.Server.ApplyChanges

/-! Delete requests: the open-ended quads of some subjects are closed, one transaction a subject. -/

namespace Polargraph

/-- Which graphs a pattern is about. -/
inductive GraphTerm where
  /-- Only the default graph, or no restriction. -/
  | defaultGraph (only : Bool)
  /-- One graph, by IRI. -/
  | iri (iri : String)
  /-- A graph variable. -/
  | var (name : String)
  /-- A set of named graphs, by IRI. -/
  | set (iris : List String)
deriving DecidableEq

/-- A delete request. -/
structure DeleteTriplesRequest where
  /-- The subjects, in bytes. -/
  subjectIds : List Bytes
  /-- The predicate, empty for any. -/
  predicate : String
  /-- When the quads end, zero for now. -/
  vtEnd : Timestamp
  /-- The object node in bytes, empty for any. -/
  objectId : Bytes
  /-- The property value, absent for any. -/
  value : Option Value
  /-- The graphs, every one when absent. -/
  graph : Option GraphTerm

/-- What the quads a delete request closes must agree with. -/
structure DeleteFilter where
  /-- The predicate, if one is given. -/
  predicate : Option String
  /-- The object of relations, if one is given. -/
  object : Option NodeId
  /-- The value of properties, if one is given. -/
  value : Option Value
  /-- The graphs. -/
  scope : GraphScope

/-- The scope of a set of graphs. -/
def GraphScope.ofGraphs (graphs : List GraphId) : GraphScope :=
  .set (graphs.dedup.insertionSort (fun left right => left.raw ≤ right.raw)) (by
    have sorted := List.pairwise_insertionSort (fun left right : GraphId => left.raw ≤ right.raw)
      graphs.dedup
    have distinct : (graphs.dedup.insertionSort (fun left right => left.raw ≤ right.raw)).Nodup :=
      (List.perm_insertionSort _ _).nodup_iff.mpr (List.nodup_dedup graphs)
    refine (sorted.and distinct).imp fun {left right} both => ?_
    have apart : left.raw.toNat ≠ right.raw.toNat := fun same =>
      both.2 (GraphId.ext (UInt32.toNat_inj.mp same))
    have before : left.raw.toNat ≤ right.raw.toNat := both.1
    exact UInt32.lt_iff_toNat_lt.mpr (lt_of_le_of_ne before apart))

/-- The graphs where a user has at least a level, the default graph included up to writing. -/
def UserGraphAccess.graphsAtLeast (access : UserGraphAccess) (level : GraphAccessLevel) :
    List GraphId :=
  if level.rank ≤ GraphAccessLevel.write.rank then GraphId.DEFAULT :: access.atLeast level
  else access.atLeast level

/-- A node given as bytes. -/
def nodeFromSlice (bytes : Bytes) (message : String) : Except Status NodeId :=
  if width : bytes.length = 16 then .ok ⟨⟨bytes, width⟩⟩
  else .error (.status .invalidArgument message)

/-- The object of a delete request, if it gives one. -/
def DeleteTriplesRequest.object (request : DeleteTriplesRequest) : Except Status (Option NodeId) :=
  if request.objectId = [] then .ok none
  else (nodeFromSlice request.objectId "object_id must be a 16-byte UUID").map some

namespace DeleteFilter

/-- Whether a triple is one the request is about; annotations never are. -/
def selects (filter : DeleteFilter) : Triple → Bool
  | .relation _ _ object _ _ =>
    filter.value.isNone && filter.object.all (fun want => decide (want = object))
  | .property _ _ held _ => filter.object.isNone && filter.value.all (fun want => want.same held)
  | _ => false

/-- The write that ends an open-ended triple. -/
def closing (vtEnd now : Timestamp) (g : GraphId) : Triple → Option PendingWrite
  | .relation subject predicate object edgeId temporal =>
    if temporal.vtEnd = Timestamp.END_OF_TIME then
      some ⟨.relation subject predicate object edgeId ⟨temporal.vtStart, vtEnd, now⟩, g, .add⟩
    else none
  | .property subject predicate value temporal =>
    if temporal.vtEnd = Timestamp.END_OF_TIME then
      some ⟨.property subject predicate value ⟨temporal.vtStart, vtEnd, now⟩, g, .add⟩
    else none
  | _ => none

/-- The writes that end the open-ended quads among those a request is about. -/
def closings (filter : DeleteFilter) (vtEnd now : Timestamp) (quads : List (GraphId × Triple)) :
    List PendingWrite :=
  quads.filterMap fun (g, triple) =>
    if filter.selects triple then closing vtEnd now g triple else none

end DeleteFilter

namespace TripleStore

/-- The graphs a delete request is about. -/
def deleteScope (store : TripleStore) : Option GraphTerm → Except Status GraphScope
  | none | some (.defaultGraph false) => .ok .union
  | some (.defaultGraph true) => .ok (.one GraphId.DEFAULT)
  | some (.iri iri) => (store.existingGraph iri).map GraphScope.one
  | some (.set iris) => .ok (.ofGraphs (iris.filterMap store.graphId))
  | some (.var _) =>
    .error (.status .invalidArgument "DeleteTriples.graph cannot be a variable")

/-- The graphs of a scope that a caller can write. -/
def writableScope (access : Option UserGraphAccess) (scope : GraphScope) :
    Except Status GraphScope :=
  match access, scope with
  | none, scope => .ok scope
  | some own, .one g => (requireLevel (some own) g .write ("g" ++ toString g.raw.toNat)).map
      (fun _ => .one g)
  | some own, other => .ok (.ofGraphs ((own.graphsAtLeast .write).filter other.admits))

/-- The filter of a delete request, unless it is refused. -/
def deleteFilter (store : TripleStore) (access : Option UserGraphAccess)
    (request : DeleteTriplesRequest) : Except Status DeleteFilter := do
  rejectUserAclWrites access [request.predicate]
  let object ← request.object
  let value ← request.value.mapM valueFromProto
  if object.isSome && value.isSome then
    .error (.status .invalidArgument "object_id and value are mutually exclusive")
  else do
    let scope ← store.deleteScope request.graph
    let scope ← writableScope access scope
    return ⟨if request.predicate = "" then none else some request.predicate, object, value, scope⟩

section External

variable (ext : External)

/-- Close the quads of one subject as a snapshot shows them; how many there were. -/
def deleteSubject (store : TripleStore) (filter : DeleteFilter) (author : String)
    (readTs vtEnd now : Timestamp) (id : Bytes) : TripleStore × Except Status Nat :=
  match nodeFromSlice id "subject_ids must be 16-byte UUIDs" with
  | .error refused => (store, .error refused)
  | .ok subject =>
    match store.scanScopedAt ext (some subject) filter.predicate none filter.scope
        ⟨readTs, none, none⟩ now with
    | .error problem => (store, .error (.storage problem))
    | .ok quads =>
      let writes := filter.closings vtEnd now quads
      let tx := writes.foldl (fun (tx : Transaction) w => tx.insertIn w.triple w.graph w.mode)
        (store.begin.setAuthor author)
      match store.commit ext tx now with
      | (store, .error problem) => (store, .error (.storage problem))
      | (store, .ok _) => (store, .ok writes.length)

/-- Close the quads of one subject after another; what was closed before a failure stays closed. -/
def deleteSubjects (filter : DeleteFilter) (author : String) (readTs vtEnd now : Timestamp) :
    TripleStore → List Bytes → TripleStore × Except Status Nat
  | store, [] => (store, .ok 0)
  | store, id :: rest =>
    match store.deleteSubject ext filter author readTs vtEnd now id with
    | (store, .error refused) => (store, .error refused)
    | (store, .ok count) =>
      match deleteSubjects filter author readTs vtEnd now store rest with
      | (store, .error refused) => (store, .error refused)
      | (store, .ok others) => (store, .ok (count + others))

/-- Close the quads a request is about; how many versions were closed. -/
def deleteTriples (store : TripleStore) (access : Option UserGraphAccess) (author : String)
    (request : DeleteTriplesRequest) (now : Timestamp) : TripleStore × Except Status Nat :=
  match store.deleteFilter access request with
  | .error refused => (store, .error refused)
  | .ok filter =>
    let vtEnd := if request.vtEnd = Timestamp.zero then now else request.vtEnd
    deleteSubjects ext filter author store.readTs vtEnd now store request.subjectIds

end External

end TripleStore

end Polargraph
