import Polargraph.Server.DeleteTriples

/-! SPARQL updates: the quads they name, their changesets, and deletes that name annotations. -/

namespace Polargraph

/-- A literal of a SPARQL term. -/
inductive Literal where
  /-- A plain string. -/
  | simple (value : String)
  /-- A language-tagged string. -/
  | languageTagged (value language : String)
  /-- A literal with a datatype. -/
  | typed (value datatype : String)
deriving DecidableEq

namespace Literal

/-- The lexical form. -/
def value : Literal → String
  | simple value | languageTagged value _ | typed value _ => value

/-- The datatype, which every literal has. -/
def datatype : Literal → String
  | simple _ => XSD ++ "string"
  | languageTagged _ _ => "http://www.w3.org/1999/02/22-rdf-syntax-ns#langString"
  | typed _ datatype => datatype

/-- The language tag. -/
def language : Literal → Option String
  | languageTagged _ language => some language
  | _ => none

end Literal

mutual

/-- The subject of a quad without variables. -/
inductive GroundSubject where
  /-- An IRI. -/
  | namedNode (iri : String)
  /-- A quoted triple. -/
  | triple (inner : GroundTriple)

/-- A triple without variables. -/
inductive GroundTriple where
  /-- A triple of its three terms. -/
  | mk (subject : GroundSubject) (predicate : String) (object : GroundTerm)

/-- The object of a quad without variables. -/
inductive GroundTerm where
  /-- An IRI. -/
  | namedNode (iri : String)
  /-- A literal. -/
  | literal (literal : Literal)
  /-- A quoted triple. -/
  | triple (inner : GroundTriple)

end

/-- A quad that a delete names. -/
structure GroundQuad where
  /-- The subject. -/
  subject : GroundSubject
  /-- The predicate, an IRI. -/
  predicate : String
  /-- The object. -/
  object : GroundTerm
  /-- The IRI of the graph, absent for the default graph. -/
  graph : Option String

/-- The subject of a quad to insert. -/
inductive InsertSubject where
  /-- An IRI. -/
  | namedNode (iri : String)
  /-- A blank node. -/
  | blankNode (label : String)
  /-- A quoted triple, with the annotation of the edge it was found to name, if any. -/
  | triple ( annotation : Option ProtoAnnotation)

/-- The object of a quad to insert. -/
inductive InsertObject where
  /-- An IRI. -/
  | namedNode (iri : String)
  /-- A blank node. -/
  | blankNode (label : String)
  /-- A literal. -/
  | literal (literal : Literal)
  /-- A quoted triple. -/
  | triple (inner : GroundTriple)

/-- A quad that an insert names. -/
structure InsertQuad where
  /-- The subject. -/
  subject : InsertSubject
  /-- The predicate, an IRI. -/
  predicate : String
  /-- The object. -/
  object : InsertObject
  /-- The IRI of the graph, absent for the default graph. -/
  graph : Option String
  /-- The identifier its edge gets when it is a relation. -/
  edge : EdgeId

/-- An operation on data without variables. -/
inductive UpdateOperation where
  /-- Insert quads. -/
  | insertData (data : List InsertQuad)
  /-- Delete quads. -/
  | deleteData (data : List GroundQuad)

/-- The operations of a request as one changeset in the making. -/
structure UpdateChangeset where
  /-- The triples to add, each with the IRI of its graph, in the order of the request. -/
  adds : List (String × (ProtoTriple × EdgeId))
  /-- The annotations to add. -/
  annotations : List ProtoAnnotation
  /-- The quads to retract. -/
  retractions : List QuadRef
  /-- The IRIs to record. -/
  iris : List String
  /-- How many quads could not be compiled. -/
  failed : Nat

/-- What became of a request of data operations. -/
inductive UpdateOutcome where
  /-- It was only compiled, reading at a time. -/
  | compiled (readTs : Timestamp) (changeset : UpdateChangeset)
  /-- It changes nothing, with a number of quads that could not be compiled. -/
  | nothing (failed : Nat)
  /-- Its changeset was applied, but for a number of quads. -/
  | applied (response : ApplyChangesResponse) (failed : Nat)
  /-- Data that it read or wrote had changed. -/
  | conflict (problem : Status)
  /-- Its changeset was refused. -/
  | refused (problem : Status)

/-- The subject that a quoted triple is in the end about. -/
def groundTripleSubjectIri : GroundTriple → Option String
  | .mk (.namedNode iri) _ _ => some iri
  | .mk (.triple inner) _ _ => groundTripleSubjectIri inner

/-- What the object of a quad to delete pins down. -/
inductive DeleteTarget where
  /-- A node. -/
  | node (node : NodeId)
  /-- A value. -/
  | value (value : Value)
deriving DecidableEq

/-- Whether a delete of some quads runs on its own, outside of a changeset. -/
def deletesAnnotation (data : List GroundQuad) : Bool :=
  data.any fun quad => match quad.subject with
    | .triple _ => true
    | .namedNode _ => false

section External

variable (ext : External) (parseF64 : String → Option UInt64)

/-- The value of a literal. -/
def sparqlLiteralToProtoValue (literal : Literal) : Value :=
  literalToValue parseF64 literal.value (some literal.datatype) literal.language

/-- What the object of a quad to delete pins down; nothing can be deleted by a quoted triple. -/
def groundTermDeleteTarget : GroundTerm → Option DeleteTarget
  | .namedNode iri => some (.node (iriToNodeId ext iri))
  | .literal literal => some (.value (sparqlLiteralToProtoValue parseF64 literal))
  | .triple _ => none

/-- The triple of a quad to insert, valid since the epoch; blank nodes and quoted triples have none. -/
def sparqlQuadToProtoTriple (quad : InsertQuad) : Option ProtoTriple :=
  match quad.subject, quad.object with
  | .namedNode subject, .namedNode object => some (.relation
      (some (iriToNodeId ext subject).uuid.bytes) quad.predicate
      (some (iriToNodeId ext object).uuid.bytes) Timestamp.zero Timestamp.END_OF_TIME [])
  | .namedNode subject, .literal literal => some (.property
      (some (iriToNodeId ext subject).uuid.bytes) quad.predicate
      (some (sparqlLiteralToProtoValue parseF64 literal)) Timestamp.zero Timestamp.END_OF_TIME 2)
  | _, _ => none

/-- The IRIs of the ends of a quad that the dictionary has to know. -/
def sparqlQuadIris (quad : InsertQuad) : List String :=
  let subject := match quad.subject with
    | .namedNode iri => [iri]
    | _ => []
  let object := match quad.object with
    | .namedNode iri => [iri]
    | _ => []
  (subject ++ object).filter (needsDictionary ext)

/-- Whether a retraction names an added triple. -/
def quadRefMatches (r : QuadRef) (graph : String) (triple : ProtoTriple) : Bool :=
  if !r.allGraphs && decide (r.graph ≠ graph) then false
  else match triple, r.object with
    | .relation subject predicate object _ _ _, some (.inl node) =>
      decide (predicate = r.predicate) && decide (subject = r.subject) && decide (object = some node)
    | .property subject predicate value _ _ _, some (.inr named) =>
      decide (predicate = r.predicate) && decide (subject = r.subject) &&
        value.any (fun value => value.same named)
    | _, _ => false

/-- The retraction of a deleted quad: in its graph, or without one in every graph. -/
def deleteQuadRef (subject : NodeId) (predicate : String) (target : DeleteTarget)
    (graph : Option String) : QuadRef where
  subject := some subject.uuid.bytes
  predicate := predicate
  object := some (match target with
    | .node node => .inl node.uuid.bytes
    | .value value => .inr value)
  graph := graph.getD ""
  allGraphs := graph.isNone

namespace UpdateChangeset

/-- Retract a quad, and undo the earlier inserts of it. -/
def retract (changeset : UpdateChangeset) (r : QuadRef) : UpdateChangeset :=
  { changeset with
    adds := changeset.adds.filter (fun add => !quadRefMatches r add.1 add.2.1)
    retractions := changeset.retractions ++ [r] }

/-- Whether nothing is changed. -/
def isEmpty (changeset : UpdateChangeset) : Bool :=
  changeset.adds.isEmpty && changeset.annotations.isEmpty && changeset.retractions.isEmpty

/-- The triples to add by their graph, the graphs in the order they were first named. -/
def graphTriples (changeset : UpdateChangeset) : List GraphTriples :=
  (changeset.adds.foldl (fun groups add =>
    Latest.entryUpdate add.1 [] (fun triples => triples ++ [add.2]) groups) []).map
      (fun group => ⟨group.1, group.2⟩)

/-- Compile a quad to insert. -/
def insertQuad (changeset : UpdateChangeset) (quad : InsertQuad) : UpdateChangeset :=
  match quad.subject with
  | .triple (some annotation) =>
    { changeset with annotations := changeset.annotations ++ [ annotation] }
  | .triple none => { changeset with failed := changeset.failed + 1 }
  | _ => match sparqlQuadToProtoTriple ext parseF64 quad with
    | some triple => { changeset with
        adds := changeset.adds ++ [(quad.graph.getD "", (triple, quad.edge))]
        iris := changeset.iris ++ sparqlQuadIris ext quad }
    | none => { changeset with failed := changeset.failed + 1 }

/-- Compile a quad to delete. -/
def deleteQuad (changeset : UpdateChangeset) (quad : GroundQuad) : UpdateChangeset :=
  match quad.subject, groundTermDeleteTarget ext parseF64 quad.object with
  | .namedNode subject, some target =>
    changeset.retract (deleteQuadRef (iriToNodeId ext subject) quad.predicate target quad.graph)
  | _, _ => { changeset with failed := changeset.failed + 1 }

/-- Compile an operation. -/
def operation (changeset : UpdateChangeset) : UpdateOperation → UpdateChangeset
  | .insertData data => data.foldl (insertQuad ext parseF64) changeset
  | .deleteData data => data.foldl (deleteQuad ext parseF64) changeset

/-- The changeset of some operations. -/
def compile (operations : List UpdateOperation) : UpdateChangeset :=
  operations.foldl (operation ext parseF64) ⟨[], [], [], [], 0⟩

/-- The request that applies a changeset. -/
def request (changeset : UpdateChangeset) (readTs : Timestamp) : ApplyChangesRequest where
  adds := changeset.graphTriples
  retractions := changeset.retractions
  readTs := readTs
  strict := false
  iris := (changeset.iris.insertionSort (· ≤ ·)).destutter (· ≠ ·)
  edgeAnnotations := changeset.annotations

end UpdateChangeset

/-- Compile data operations to one changeset and commit it, unless it is a dry run. -/
def runDataUpdate (edgeTypes : String → Option Cardinality) (store : TripleStore)
    (operations : List UpdateOperation) (dryRun : Bool) (readTs now : Timestamp) :
    TripleStore × UpdateOutcome :=
  let changeset := UpdateChangeset.compile ext parseF64 operations
  if dryRun then (store, .compiled readTs changeset)
  else if changeset.isEmpty then (store, .nothing changeset.failed)
  else match store.applyChanges ext edgeTypes none "" (changeset.request readTs) now with
    | (store, .ok response) => (store, .applied response changeset.failed)
    | (store, .error problem) =>
      (store, if problem.code = .aborted then .conflict problem else .refused problem)

/-- The request that is made for a quad whose subject is a quoted triple. -/
def annotationDelete (quad : GroundQuad) : Option DeleteTriplesRequest :=
  match quad.subject with
  | .namedNode _ => none
  | .triple inner => (groundTripleSubjectIri inner).map fun iri =>
    { subjectIds := [(iriToNodeId ext iri).uuid.bytes]
      predicate := quad.predicate
      vtEnd := Timestamp.zero
      objectId := []
      value := none
      graph := none }

/--
A delete that names annotations: one request for each quad with a quoted subject, none for the others.

The counts are of closed versions and of failed requests.
-/
def runGraphDelete (access : Option UserGraphAccess) (author : String) (now : Timestamp) :
    TripleStore → List GroundQuad → TripleStore × Nat × Nat
  | store, [] => (store, 0, 0)
  | store, quad :: rest =>
    match annotationDelete ext quad with
    | none => runGraphDelete access author now store rest
    | some request =>
      match store.deleteTriples ext access author request now with
      | (store, .ok count) =>
        let (store, deleted, failed) := runGraphDelete access author now store rest
        (store, count + deleted, failed)
      | (store, .error _) =>
        let (store, deleted, failed) := runGraphDelete access author now store rest
        (store, deleted, failed + 1)

end External

end Polargraph
