import Polargraph.Server.Access
import Polargraph.Storage.Reads

/-! Changesets: adds and retractions applied in one transaction. -/

namespace Polargraph

/-- Most adds, retractions and annotations of a changeset. -/
def MAX_CHANGESET : Nat := 100000

/-- The node of its sixteen bytes. -/
def nodeIdFromProto (bytes : Bytes) : Except Status NodeId :=
  if width : bytes.length = 16 then .ok ⟨⟨bytes, width⟩⟩
  else .error (.status .invalidArgument "NodeId must be exactly 16 bytes")

/-- A node that a request has to name. -/
def requiredNode (problem : String) (node : Option Bytes) : Except Status NodeId :=
  match node with
  | some bytes => nodeIdFromProto bytes
  | none => .error (.status .invalidArgument problem)

/-- A value of a request. -/
def valueFromProto : Value → Except Status Value
  | .langText text lang =>
    if lang = "" then .error (.status .invalidArgument "lang_text.lang must not be empty")
    else .ok (.langText text lang)
  | .typed lexical datatype =>
    if datatype = "" then .error (.status .invalidArgument "typed.datatype must not be empty")
    else .ok (.typed lexical datatype)
  | value => .ok value

/-- A value that a request has to give. -/
def requiredValue (problem : String) (value : Option Value) : Except Status Value :=
  match value with
  | some value => valueFromProto value
  | none => .error (.status .invalidArgument problem)

/-- A valid-time window of a request, without end when its end is zero. -/
def temporalFromProto (vtStart vtEnd : Timestamp) : BiTemporalRange :=
  ⟨vtStart, if vtEnd = Timestamp.zero then Timestamp.END_OF_TIME else vtEnd, Timestamp.zero⟩

/-- A triple of a request. -/
inductive ProtoTriple where
  /-- A relation with the properties of its edge. -/
  | relation (subject : Option Bytes) (predicate : String) (object : Option Bytes)
      (vtStart vtEnd : Timestamp) (properties : List (String × Option Value))
  /-- A property with the number of its write mode. -/
  | property (subject : Option Bytes) (predicate : String) (value : Option Value)
      (vtStart vtEnd : Timestamp) (mode : Int)
  /-- No kind is set. -/
  | unset

/-- The write mode of the triples of a request's triple. -/
def writeModeFromProto : ProtoTriple → Except Status WriteMode
  | .property _ _ _ _ _ mode =>
    if mode = 0 then .ok .auto
    else if mode = 1 then .ok .replace
    else if mode = 2 then .ok .add
    else .error (.status .invalidArgument ("unknown property write mode " ++ toString mode))
  | _ => .ok .auto

/-- The properties of an edge, as properties of the edge read as a node. -/
def edgeProperties (edgeId : EdgeId) (temporal : BiTemporalRange) :
    List (String × Option Value) → Except Status (List Triple)
  | [] => .ok []
  | (name, value) :: rest => do
    if name = "" then
      .error (.status .invalidArgument "edge property name must not be empty")
    else
      let value ← requiredValue "edge property missing value" value
      let others ← edgeProperties edgeId temporal rest
      return .property ⟨edgeId.uuid⟩ name value temporal :: others

/-- The triples of a request's triple, whose edge gets a fresh identifier. -/
def triplesFromProto (edgeId : EdgeId) : ProtoTriple → Except Status (List Triple)
  | .relation subject predicate object vtStart vtEnd properties => do
    let subject ← requiredNode "relation missing subject" subject
    let object ← requiredNode "relation missing object" object
    if predicate = "" then
      .error (.status .invalidArgument "relation predicate must not be empty")
    else
      let temporal := temporalFromProto vtStart vtEnd
      let properties ← edgeProperties edgeId temporal properties
      return .relation subject predicate object edgeId temporal :: properties
  | .property subject predicate value vtStart vtEnd _ => do
    let subject ← requiredNode "property missing subject" subject
    if predicate = "" then
      .error (.status .invalidArgument "property predicate must not be empty")
    else
      let value ← requiredValue "property missing value" value
      return [.property subject predicate value (temporalFromProto vtStart vtEnd)]
  | .unset => .error (.status .invalidArgument "triple has no kind set")

/-- An annotation of an edge in a request. -/
structure ProtoAnnotation where
  /-- The bytes of the edge. -/
  edgeId : Bytes
  /-- The predicate. -/
  predicate : String
  /-- The bytes of a node, or a scalar. -/
  value : Option (Bytes ⊕ Value)

/-- The triple of an annotation, valid from now on. -/
def edgeAnnotationFromProto (now : Timestamp) (ann : ProtoAnnotation) :
    Except Status Triple :=
  if width : ann.edgeId.length = 16 then
    let edge : EdgeId := ⟨⟨ann.edgeId, width⟩⟩
    if ann.predicate = "" then
      .error (.status .invalidArgument "edge annotation predicate must not be empty")
    else match ann.value with
      | some (.inl node) =>
        if width : node.length = 16 then
          .ok (.edgeRelation edge ann.predicate ⟨⟨node, width⟩⟩ (.assertNow now))
        else .error (.status .invalidArgument "annotation node_id must be exactly 16 bytes")
      | some (.inr value) => do
        let value ← valueFromProto value
        return .edgeProperty edge ann.predicate value (.assertNow now)
      | none => .error (.status .invalidArgument
          "edge annotation must have a value (scalar or node_id)")
  else .error (.status .invalidArgument "edge_id must be exactly 16 bytes")

/-- The triples of a request for one graph, each with the identifier its edge gets. -/
structure GraphTriples where
  /-- The IRI of the graph, empty for the default graph. -/
  graph : String
  /-- The triples. -/
  triples : List (ProtoTriple × EdgeId)

/-- A quad to retract. -/
structure QuadRef where
  /-- The subject. -/
  subject : Option Bytes
  /-- The predicate. -/
  predicate : String
  /-- The bytes of the object node, or the value. -/
  object : Option (Bytes ⊕ Value)
  /-- The IRI of the graph, empty for the default graph. -/
  graph : String
  /-- Whether to retract it in every graph the caller may write instead. -/
  allGraphs : Bool

/-- A changeset. -/
structure ApplyChangesRequest where
  /-- The triples to add, by graph. -/
  adds : List GraphTriples
  /-- Live quads to close. -/
  retractions : List QuadRef
  /-- The commit time the changes were based on, zero for none. -/
  readTs : Timestamp
  /-- Whether to apply nothing when a retraction matches no live quad. -/
  strict : Bool
  /-- IRIs to record. -/
  iris : List String
  /-- Annotations to add. -/
  edgeAnnotations : List ProtoAnnotation

/-- How many objects and subjects a relation may have. -/
inductive Cardinality where
  /-- No constraint. -/
  | many
  /-- At most one object per subject. -/
  | oneToMany
  /-- At most one subject per object. -/
  | manyToOne
  /-- At most one object per subject and one subject per object. -/
  | oneToOne
deriving DecidableEq

/-- What a changeset did. -/
structure ApplyChangesResponse where
  /-- The commit time. -/
  commitTs : Timestamp
  /-- How many triples were added. -/
  added : Nat
  /-- How many quads were closed. -/
  retracted : Nat
  /-- How many retractions matched no live quad. -/
  retractionsNotFound : Nat
deriving DecidableEq

/-- The kind of a relation. -/
def Triple.isRelation : Triple → Bool
  | .relation .. => true
  | _ => false

namespace TripleStore

section External

variable (ext : External)

/-- Whether a scan returned a relation; a scan that failed returned nothing. -/
def hasRelation (scanned : Except StorageError (List Triple)) : Bool :=
  match scanned with
  | .ok triples => triples.any Triple.isRelation
  | .error _ => false

/-- Whether another object would be one too many for a subject. -/
def validateSubject (store : TripleStore) (predicate : String) (subject : NodeId)
    (now : Timestamp) : Except Status Unit :=
  if hasRelation (store.scanBySubjectPredicateAt ext subject predicate
      ⟨store.committed, none, none⟩ now) then
    .error (.status .failedPrecondition ("cardinality violation: predicate '" ++ predicate
      ++ "' allows at most one object per subject"))
  else .ok ()

/-- Whether another subject would be one too many for an object. -/
def validateObject (store : TripleStore) (predicate : String) (object : NodeId)
    (now : Timestamp) : Except Status Unit :=
  if hasRelation (store.scanByPredicateObjectAt ext predicate object
      ⟨store.committed, none, none⟩ now) then
    .error (.status .failedPrecondition ("cardinality violation: predicate '" ++ predicate
      ++ "' allows at most one subject per object"))
  else .ok ()

/-- Check a new relation against the cardinality of its edge type, if it has one. -/
def validateCardinality (store : TripleStore) (edgeTypes : String → Option Cardinality)
    (predicate : String) (subject object : NodeId) (now : Timestamp) : Except Status Unit :=
  match edgeTypes predicate with
  | none => .ok ()
  | some .many => .ok ()
  | some .oneToMany => store.validateSubject ext predicate subject now
  | some .manyToOne => store.validateObject ext predicate object now
  | some .oneToOne => do
    store.validateSubject ext predicate subject now
    store.validateObject ext predicate object now

/-- Check the relations among some writes one after another. -/
def validateAdds (store : TripleStore) (edgeTypes : String → Option Cardinality)
    (now : Timestamp) : List PendingWrite → Except Status Unit
  | [] => .ok ()
  | w :: rest => do
    match w.triple with
    | .relation subject predicate object _ _ =>
      store.validateCardinality ext edgeTypes predicate subject object now
    | _ => .ok ()
    store.validateAdds edgeTypes now rest

/-- The writes of a request's triples to a graph. -/
def triplesWrites (g : GraphId) : List (ProtoTriple × EdgeId) → Except Status (List PendingWrite)
  | [] => .ok []
  | (proto, edgeId) :: rest => do
    let triples ← triplesFromProto edgeId proto
    let mode ← writeModeFromProto proto
    let others ← triplesWrites g rest
    return triples.map (fun triple => ⟨triple, g, mode⟩) ++ others

/-- The writes of a request's additions, whose graphs a service call creates. -/
def resolveAdds (access : Option UserGraphAccess) (now : Timestamp) :
    TripleStore → List GraphTriples → TripleStore × Except Status (List PendingWrite)
  | store, [] => (store, .ok [])
  | store, group :: rest =>
    match store.graphFor ext access group.graph .write true now with
    | (store, .error refused) => (store, .error refused)
    | (store, .ok g) =>
      match triplesWrites g group.triples with
      | .error refused => (store, .error refused)
      | .ok writes =>
        match resolveAdds access now store rest with
        | (store, .error refused) => (store, .error refused)
        | (store, .ok others) => (store, .ok (writes ++ others))

/-- The writes of a request's annotations, which go to the default graph. -/
def resolveAnnotations (access : Option UserGraphAccess) (now : Timestamp) (store : TripleStore)
    (annotations : List ProtoAnnotation) : TripleStore × Except Status (List PendingWrite) :=
  if annotations.isEmpty then (store, .ok [])
  else match store.graphFor ext access "" .write true now with
    | (store, .error refused) => (store, .error refused)
    | (store, .ok g) => (store, do
        let triples ← annotations.mapM (edgeAnnotationFromProto now)
        return triples.map (fun triple => ⟨triple, g, .auto⟩))

/-- The writes of all additions of a changeset. -/
def resolveWrites (store : TripleStore) (access : Option UserGraphAccess)
    (request : ApplyChangesRequest) (now : Timestamp) :
    TripleStore × Except Status (List PendingWrite) :=
  match resolveAdds ext access now store request.adds with
  | (store, .error refused) => (store, .error refused)
  | (store, .ok triples) =>
    match store.resolveAnnotations ext access now request.edgeAnnotations with
    | (store, .error refused) => (store, .error refused)
    | (store, .ok annotations) => (store, .ok (triples ++ annotations))

/-- Whether a caller may retract from a graph along with every other one. -/
def writable (store : TripleStore) (access : Option UserGraphAccess) (g : GraphId) : Bool :=
  let iri := (store.graphIri g).getD ""
  !isInferredGraphIri iri && decide (iri ≠ SYSTEM_GRAPH_IRI) &&
    access.all (fun own => own.allows g .write)

/-- The graphs a retraction looks in, none when its graph does not exist. -/
def retractionScope (store : TripleStore) (access : Option UserGraphAccess) (r : QuadRef)
    (now : Timestamp) : Except Status (Option GraphScope) :=
  if r.allGraphs then .ok (some .union)
  else if access.isSome then do
    let g ← (store.graphFor ext access r.graph .write false now).2
    return some (.one g)
  else match store.existingGraph r.graph with
    | .ok g => .ok (some (.one g))
    | .error _ => .ok none

/-- The object slot of a retraction and its value, if it has one. -/
def retractionObject (r : QuadRef) : Except Status (NodeId × Option Value) :=
  match r.object with
  | some (.inl node) => do
    let node ← nodeIdFromProto node
    return (node, none)
  | some (.inr value) => do
    let value ← valueFromProto value
    return (valueObject ext value, some value)
  | none => .error (.status .invalidArgument "retraction object (node or value) is required")

/-- Whether a stored triple is what a retraction of a node or of a value retracts. -/
def retracts (value : Option Value) (triple : Triple) : Bool :=
  match triple, value with
  | .property _ _ held _, some value => held.same value
  | .relation .., none => true
  | _, _ => false

/-- The live quads a retraction closes, none when it matches none. -/
def resolveRetraction (store : TripleStore) (access : Option UserGraphAccess) (readAt : Timestamp)
    (now : Timestamp) (r : QuadRef) : Except Status (List (GraphId × Triple)) := do
  match ← store.retractionScope ext access r now with
  | none => return []
  | some scope => do
    let subject ← requiredNode "retraction subject is required" r.subject
    let (object, value) ← retractionObject ext r
    let found ← storageErrToStatus (store.scanScopedAt ext (some subject) (some r.predicate)
      (some object) scope ⟨readAt, none, none⟩ now)
    return found.filter (fun quad =>
      (!r.allGraphs || store.writable access quad.1) && retracts value quad.2)

/-- The refusal of a changeset that is malformed or too large. -/
def refusal (request : ApplyChangesRequest) : Option Status :=
  let changes := (request.adds.map (fun group => group.triples.length)).sum
    + request.retractions.length + request.edgeAnnotations.length
  if changes = 0 ∧ request.iris = [] then some (.status .invalidArgument
    "changeset must contain adds, retractions, annotations or IRIs")
  else if MAX_CHANGESET < changes then some (.status .resourceExhausted ("changeset has "
    ++ toString changes ++ " adds + retractions; the limit is " ++ toString MAX_CHANGESET
    ++ " — split it"))
  else if request.iris.any (fun iri => decide (iri = "")) then some (.status .invalidArgument
    "iris must not contain empty strings")
  else if request.readTs < Timestamp.zero then some (.status .invalidArgument
    "read_ts must not be negative")
  else none

/-- The time retractions are resolved at: that of the request, or the latest commit. -/
def readAt (store : TripleStore) (request : ApplyChangesRequest) : Timestamp :=
  if Timestamp.zero < request.readTs then request.readTs else store.readTs

/-- The transaction of a changeset. -/
def changesTx (tx : Transaction) (author : String) (iris : List String) (now : Timestamp)
    (closes : List (GraphId × Triple)) (adds : List PendingWrite) : Transaction :=
  let closed := closes.foldl (fun (tx : Transaction) quad =>
    tx.insertIn (closeAt now quad.2) quad.1 .add) (tx.setAuthor author)
  let written := adds.foldl (fun (tx : Transaction) w => tx.insertIn w.triple w.graph w.mode) closed
  iris.foldl (fun (tx : Transaction) iri => tx.bindIri iri) written

/-- Apply a changeset in one transaction; `edgeTypes` are the edge types, `now` is the clock. -/
def applyChanges (store : TripleStore) (edgeTypes : String → Option Cardinality)
    (access : Option UserGraphAccess) (author : String) (request : ApplyChangesRequest)
    (now : Timestamp) : TripleStore × Except Status ApplyChangesResponse :=
  match refusal request with
  | some refused => (store, .error refused)
  | none =>
    match store.resolveWrites ext access request now with
    | (store, .error refused) => (store, .error refused)
    | (store, .ok adds) =>
      match store.validateAdds ext edgeTypes now adds with
      | .error refused => (store, .error refused)
      | .ok () =>
        match request.retractions.mapM
            (store.resolveRetraction ext access (store.readAt request) now) with
        | .error refused => (store, .error refused)
        | .ok matched =>
          let notFound := matched.countP List.isEmpty
          let closes := matched.flatten
          if request.strict ∧ 0 < notFound then (store, .error (.status .failedPrecondition
            (toString notFound ++ " retraction(s) match no live quad; nothing was applied")))
          else match rejectUserAclWrites access (adds.map (fun w => w.triple.predicate)
              ++ closes.map (fun quad => quad.2.predicate)) with
            | .error refused => (store, .error refused)
            | .ok () =>
              match if Timestamp.zero < request.readTs then store.beginAt request.readTs
                  else .ok store.begin with
              | .error problem => (store, .error (.status .invalidArgument problem.display))
              | .ok tx =>
                match store.commit ext (changesTx tx author request.iris now closes adds) now with
                | (store, .error problem) => (store, .error (.storage problem))
                | (store, .ok commitTs) =>
                  (store, .ok ⟨commitTs, adds.length, closes.length, notFound⟩)

end External

end TripleStore

end Polargraph
