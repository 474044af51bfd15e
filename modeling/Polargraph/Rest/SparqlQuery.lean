import Polargraph.Lib.Calls
import Polargraph.Rest.SparqlExecute
import Polargraph.Server.Query

/-! The handler of SPARQL queries, as a client of the service that holds the store. -/

namespace Polargraph

/-- A request of the handler to the service. -/
inductive ServiceCall where
  /-- Solve patterns. -/
  | query (request : QueryRequest)
  /-- Show nodes under their IRIs. -/
  | resolveIris (nodes : List NodeId)
  /-- The edges of a relation. -/
  | getEdgeIdsByTriple (subject : NodeId) (predicate : String) (object : NodeId)
  /-- The annotations of an edge. -/
  | getEdgeAnnotations (edge : EdgeId)

/-- What the service answers a request with. -/
def ServiceCall.Answer : ServiceCall → Type
  | query _ => Except Status (List Solution)
  | resolveIris _ => Except Status (List String)
  | getEdgeIdsByTriple .. => Except Status (List EdgeId)
  | getEdgeAnnotations _ => Except Status (List EdgeAnnotation)

namespace QueryServer

/-- The most nodes a request to resolve IRIs may name. -/
def MAX_NODES : Nat := 10000

variable (ext : External) (server : QueryServer)

/-- The IRIs of some nodes, a made-up one for a node without any. -/
def resolveIris (nodes : List NodeId) : Except Status (List String) :=
  if MAX_NODES < nodes.length then .error (.status .invalidArgument
    ("at most " ++ toString MAX_NODES ++ " nodes per ResolveIris request"))
  else storageErrToStatus (nodes.mapM fun node => do
    return (← server.store.iriOf node).getD (fallbackIri node))

/-- The edges of a relation at the latest commit, nothing for a predicate that was never used. -/
def getEdgeIdsByTriple (access : Option UserGraphAccess) (subject : NodeId) (predicate : String)
    (object : NodeId) : List EdgeId :=
  match server.store.predicateId predicate with
  | none => []
  | some p => server.store.scanSpoForEdgeIdsIn ext subject p object server.store.begin.readTs
    (access.map (fun own => own.readable.map GraphId.raw))

/-- The annotations of an edge at the latest commit. -/
def getEdgeAnnotations (access : Option UserGraphAccess) (edge : EdgeId) :
    Except Status (List EdgeAnnotation) :=
  storageErrToStatus (server.store.scanEdgeAnnotationsWith ext edge server.store.begin.readTs
    (access.map (fun own => own.readable.map GraphId.raw)))

/-- The answer to a request the handler makes as the service itself, nothing while rules are run. -/
def answer : (call : ServiceCall) → Option call.Answer
  | .query request => server.query ext request
  | .resolveIris nodes => some (server.resolveIris nodes)
  | .getEdgeIdsByTriple subject predicate object =>
    some (.ok (server.getEdgeIdsByTriple ext none subject predicate object))
  | .getEdgeAnnotations edge => some (server.getEdgeAnnotations ext none edge)

end QueryServer

/-- A part of a query that may be left unmatched. -/
structure OptionalBranch where
  /-- The patterns. -/
  patterns : List VarPattern
  /-- The rules. -/
  rules : List Rule
  /-- The filters. -/
  filters : List SparqlFilter

/-- A lookup of the annotations of an edge, which is named by its ends. -/
structure EdgeAnnotationStep where
  /-- The subject of the relation. -/
  edgeSubject : Term
  /-- The predicate of the relation. -/
  edgePredicate : String
  /-- The object of the relation. -/
  edgeObject : Term
  /-- The predicate of the annotation. -/
  annotPredicate : String
  /-- The variable for the predicate of the annotation, when it is not given. -/
  annotationPredicateVar : Option String
  /-- The variable for the value of the annotation. -/
  valueVar : String

/-- A lookup of the annotations of an edge that is the object of a pattern. -/
structure EdgeAnnotationObjectStep where
  /-- The subject of the relation. -/
  edgeSubject : Term
  /-- The predicate of the relation. -/
  edgePredicate : String
  /-- The object of the relation. -/
  edgeObject : Term
  /-- The predicate of the annotation. -/
  annotationPredicate : String
  /-- The variable for the value of the annotation. -/
  resultVar : String

/-- One alternative of a query. -/
structure Branch where
  /-- The patterns. -/
  patterns : List VarPattern
  /-- The rules. -/
  rules : List Rule
  /-- The filters. -/
  filters : List SparqlFilter
  /-- The parts that may be left unmatched. -/
  optionalBranches : List OptionalBranch
  /-- The lookups of annotations. -/
  edgeAnnotationSteps : List EdgeAnnotationStep
  /-- The lookups of annotations of objects. -/
  edgeAnnotationObjectSteps : List EdgeAnnotationObjectStep

/-- The graphs a query is asked of. -/
structure SparqlDataset where
  /-- The graphs whose union is the default graph, every graph when there are none. -/
  default : List String
  /-- The graphs a graph variable may range over, every one when absent. -/
  named : Option (List String)

/-- A translated query. -/
structure SparqlTranslation where
  /-- Its alternatives. -/
  branches : List Branch
  /-- The variables it selects, or all. -/
  projection : Option (List String)
  /-- Whether equal rows are kept once. -/
  distinct : Bool
  /-- How many rows are skipped. -/
  offset : Nat
  /-- How many rows are kept. -/
  limit : Option Nat
  /-- Whether it only asks for a row to exist. -/
  isAsk : Bool
  /-- The variables rows are grouped by. -/
  groupBy : List String
  /-- The sort keys. -/
  orderBy : List SparqlOrder
  /-- The aggregates. -/
  aggregates : List SparqlAggregateSpec
  /-- The filter on groups. -/
  havingFilter : Option SparqlFilter
  /-- The graphs it is asked of. -/
  dataset : Option SparqlDataset
  /-- The variables that name graphs. -/
  graphVars : List String

/-- The answer to a query. -/
inductive SparqlAnswer where
  /-- Whether there is a row. -/
  | boolean (result : Bool)
  /-- The selected variables, the rows and the IRIs of their nodes. -/
  | rows (vars : List String) (rows : List SparqlBindings) (names : IriNames)
deriving DecidableEq

/-- A pattern's graph as the service is sent it; graph identifiers mean nothing to the service. -/
def sparqlGraphToProto : Datalog.GraphTerm → Datalog.GraphTerm
  | .bound _ | .set _ => .set []
  | graph => graph

/-- A term as the service is sent it. -/
def sparqlTermToProto : Term → Term
  | .any | .param _ => .any
  | term => term

/-- A pattern as the service is sent it. -/
def sparqlVarpatToProto (vp : VarPattern) : VarPattern where
  subject := sparqlTermToProto vp.subject
  predicate := vp.predicate.filter (fun name => decide (name ≠ ""))
  predicateVar := vp.predicateVar.filter (fun name => decide (name ≠ ""))
  object := sparqlTermToProto vp.object
  edgeVar := none
  maxHops := none
  graph := sparqlGraphToProto vp.graph

/-- A rule as the service is sent it. -/
def sparqlRuleToProto (rule : Rule) : Rule :=
  { rule with body := rule.body.map sparqlVarpatToProto }

/-- A solution as a row of a result. -/
def sparqlRow (solution : Solution) : SparqlBindings :=
  let nodes := solution.nodes.foldl
    (fun (row : SparqlBindings) bound => row.insert bound.1 (.uri bound.2)) []
  let values := solution.values.foldl (fun (row : SparqlBindings) bound =>
    match SparqlValue.fromValue bound.2 with
    | some value => row.insert bound.1 value
    | none => row) nodes
  solution.preds.foldl (fun (row : SparqlBindings) bound => row.insert bound.1 (.iri bound.2)) values

/-- The nodes of some rows, in increasing order and each once. -/
def nodeIdsInBindings (rows : List SparqlBindings) : List NodeId :=
  let nodes := (rows.flatMap fun row => row.filterMap fun bound => match bound.2 with
    | .uri node => some node
    | _ => none)
  (nodes.dedup).insertionSort (fun left right => left.uuid.bytes ≤ right.uuid.bytes)

/-- The value of an annotation, nothing for values rows cannot hold. -/
def sparqlAnnotationToValue : EdgeAnnotationValue → Option SparqlValue
  | .node node => some (.uri node)
  | .scalar (.text text) => some (.literal text)
  | .scalar (.int word) => some (.literalInt word)
  | .scalar (.float bits) => some (.literalFloat bits)
  | .scalar (.bool truth) => some (.literalBool truth)
  | .scalar _ => none

/-- The node of an end of an annotated relation in a row. -/
def endIn (row : SparqlBindings) : Term → Option NodeId
  | .bound node => some node
  | .var name => match row.lookup name with
    | some (.uri node) => some node
    | _ => none
  | _ => none

/-- The handler at work. -/
abbrev Handler := Calls ServiceCall.Answer

/-- Ask for the solutions of patterns. -/
def askQuery (request : QueryRequest) : Handler (Except Status (List Solution)) :=
  Calls.call (ServiceCall.query request)

/-- Ask for the IRIs of some nodes. -/
def askIris (nodes : List NodeId) : Handler (Except Status (List String)) :=
  Calls.call (ServiceCall.resolveIris nodes)

/-- Ask for the edges of a relation. -/
def askEdgeIds (subject : NodeId) (predicate : String) (object : NodeId) :
    Handler (Except Status (List EdgeId)) :=
  Calls.call (ServiceCall.getEdgeIdsByTriple subject predicate object)

/-- Ask for the annotations of an edge. -/
def askEdgeAnnotations (edge : EdgeId) : Handler (Except Status (List EdgeAnnotation)) :=
  Calls.call (ServiceCall.getEdgeAnnotations edge)

/-- The most nodes of one request for names. -/
def BATCH : Nat := 10000

/-- Names for some nodes, those of the requests before the first that fails. -/
def resolveNames (nodes : List NodeId) : Handler IriNames :=
  go ((nodes.length + BATCH - 1) / BATCH) nodes
where
  /-- The requests for some more nodes. -/
  go : Nat → List NodeId → Handler IriNames
    | 0, _ => pure []
    | chunks + 1, nodes => do
      let chunk := nodes.take BATCH
      match ← askIris chunk with
      | .ok iris => return chunk.zip iris ++ (← go chunks (nodes.drop BATCH))
      | .error _ => return []

/-- The edges of a relation, none when the request fails. -/
def resolveEdgeIds (subject : NodeId) (predicate : String) (object : NodeId) :
    Handler (List EdgeId) := do
  match ← askEdgeIds subject predicate object with
  | .ok edges => return edges
  | .error _ => return []

/-- A row extended by each annotation of the edges of a relation. -/
def annotatedRows (subject : Term) (predicate : String) (object : Term)
    (extend : SparqlBindings → EdgeAnnotation → Option SparqlBindings) (row : SparqlBindings) :
    Handler (List SparqlBindings) :=
  match endIn row subject, endIn row object with
  | some s, some o => do
    let edges ← resolveEdgeIds s predicate o
    edges.flatMapM fun edge => do
      match ← askEdgeAnnotations edge with
      | .ok annotations => return annotations.filterMap (extend row)
      | .error _ => return []
  | _, _ => pure []

/-- A row extended by an annotation that a step asks for. -/
def EdgeAnnotationStep.extend (step : EdgeAnnotationStep) (row : SparqlBindings)
    ( annotation : EdgeAnnotation) : Option SparqlBindings :=
  if step.annotationPredicateVar.isSome || decide ( annotation.predicate = step.annotPredicate) then
    (sparqlAnnotationToValue annotation.value).map fun value =>
      let row := row.insert step.valueVar value
      match step.annotationPredicateVar with
      | some var => row.insert var (.literal annotation.predicate)
      | none => row
  else none

/-- A row extended by an annotation that a step about an object asks for. -/
def EdgeAnnotationObjectStep.extend (step : EdgeAnnotationObjectStep) (row : SparqlBindings)
    ( annotation : EdgeAnnotation) : Option SparqlBindings :=
  if annotation.predicate = step.annotationPredicate then
    (sparqlAnnotationToValue annotation.value).map (fun value => row.insert step.resultVar value)
  else none

/-- Steps taken one after another from each row; without rows, from the one that binds nothing. -/
def stepsFrom (rows : List SparqlBindings)
    (steps : List (SparqlBindings → Handler (List SparqlBindings))) :
    Handler (List SparqlBindings) :=
  (if rows.isEmpty then [[]] else rows).flatMapM fun row =>
    steps.foldlM (fun extended step => extended.flatMapM step) [row]

/-- The rows extended by annotations. -/
def executeAnnotationSteps (rows : List SparqlBindings) (steps : List EdgeAnnotationStep) :
    Handler (List SparqlBindings) :=
  stepsFrom rows (steps.map fun step =>
    annotatedRows step.edgeSubject step.edgePredicate step.edgeObject step.extend)

/-- The rows extended by annotations of objects. -/
def executeAnnotationObjectSteps (rows : List SparqlBindings)
    (steps : List EdgeAnnotationObjectStep) : Handler (List SparqlBindings) :=
  stepsFrom rows (steps.map fun step =>
    annotatedRows step.edgeSubject step.edgePredicate step.edgeObject step.extend)

/-- The distinct key of a row, equal on rows of the same values. -/
def distinctKey (row : SparqlBindings) : List (String × SparqlValue) :=
  (row.map fun bound => (bound.1, match bound.2 with
    -- Every not-a-number is written alike.
    | .literalFloat bits => .literalFloat (if Value.isNan bits then 0x7ff8000000000000 else bits)
    | value => value)).insertionSort (fun left right => left.1 ≤ right.1)

/-- The first of the rows that are equal. -/
def distinctRows (rows : List SparqlBindings) : List SparqlBindings :=
  (rows.foldl (fun (kept : List SparqlBindings × List (List (String × SparqlValue))) row =>
    let key := distinctKey row
    if key ∈ kept.2 then kept else (kept.1 ++ [row], key :: kept.2)) ([], [])).1

section Library

variable (ext : External) (arith : FloatArithmetic) (lib : TextLibrary)

/-- The rows every filter keeps; names are asked for when a filter reads them. -/
def filterSparqlRows (rows : List SparqlBindings) (filters : List SparqlFilter) :
    Handler (List SparqlBindings) :=
  if filters.isEmpty then pure rows
  else do
    let names ← if filters.any SparqlFilter.usesIriText then resolveNames (nodeIdsInBindings rows)
      else pure []
    return rows.filter fun row => filters.all (applySparqlFilterNamed ext arith lib names row)

namespace SparqlTranslation

variable (translation : SparqlTranslation)

/-- Whether the graphs a row names are among those the query may name. -/
def graphVarsOk (row : SparqlBindings) : Bool :=
  match translation.dataset.bind SparqlDataset.named with
  | none => true
  | some named => translation.graphVars.all fun var => match row.lookup var with
    | some (.uri node) => (named.map (iriToNodeId ext)).contains node
    | _ => true

/-- The request for the solutions of patterns. -/
def request (patterns : List VarPattern) (rules : List Rule) (excludeInferred : Bool) :
    QueryRequest where
  patterns := patterns.map sparqlVarpatToProto
  rules := rules.map sparqlRuleToProto
  graphs := (translation.dataset.map SparqlDataset.default).getD []
  asOfTxTime := Timestamp.zero
  snapshotTs := Timestamp.zero
  asOfValidTime := Timestamp.zero
  excludeInferred := excludeInferred
  userId := ""
  txId := ""

/-- The filtered rows of patterns, or the refusal of the service. -/
def matchedRows (patterns : List VarPattern) (rules : List Rule) (filters : List SparqlFilter)
    (excludeInferred : Bool) : Handler (Except Status (List SparqlBindings)) := do
  match ← askQuery (translation.request patterns rules excludeInferred) with
  | .error refused => return .error refused
  | .ok solutions =>
    let rows := (solutions.map sparqlRow).filter (translation.graphVarsOk ext)
    return .ok (← filterSparqlRows ext arith lib rows filters)

/-- Rows joined with an optional part; when the service refuses it, the rows as they are. -/
def joinOptional (excludeInferred : Bool) (rows : List SparqlBindings) (part : OptionalBranch) :
    Handler (List SparqlBindings) := do
  match ← translation.matchedRows ext arith lib part.patterns part.rules part.filters
      excludeInferred with
  | .error _ => return rows
  | .ok right => return leftJoin ext rows right

/-- The rows of one alternative. -/
def branchRows (excludeInferred : Bool) (branch : Branch) :
    Handler (Except Status (List SparqlBindings)) := do
  match ← translation.matchedRows ext arith lib branch.patterns branch.rules branch.filters
      excludeInferred with
  | .error refused => return .error refused
  | .ok rows =>
    let rows ← branch.optionalBranches.foldlM
      (translation.joinOptional ext arith lib excludeInferred) rows
    let rows ← if branch.edgeAnnotationSteps.isEmpty then pure rows
      else executeAnnotationSteps rows branch.edgeAnnotationSteps
    let rows ← if branch.edgeAnnotationObjectSteps.isEmpty then pure rows
      else executeAnnotationObjectSteps rows branch.edgeAnnotationObjectSteps
    return .ok rows

/-- The rows of some alternatives, in their order. -/
def unionRows (excludeInferred : Bool) :
    List Branch → Handler (Except Status (List SparqlBindings))
  | [] => pure (.ok [])
  | branch :: rest => do
    match ← translation.branchRows ext arith lib excludeInferred branch with
    | .error refused => return .error refused
    | .ok rows =>
      match ← unionRows excludeInferred rest with
      | .error refused => return .error refused
      | .ok others => return .ok (rows ++ others)

/-- The selected variables. -/
def selected (rows : List SparqlBindings) : List String :=
  translation.projection.getD
    (((rows.flatMap (fun row => row.map Prod.fst)).dedup).insertionSort (· ≤ ·))

/-- The answer made from the rows of all alternatives. -/
def finish (rows : List SparqlBindings) (names : IriNames) : SparqlAnswer :=
  let rows := executeSparqlAggregations ext arith lib rows translation.groupBy
    translation.aggregates translation.havingFilter names
  let rows := orderBindings ext arith lib rows translation.orderBy names
  let vars := translation.selected rows
  let projected := rows.map fun row =>
    (vars.dedup).filterMap (fun var => (row.lookup var).map (fun value => (var, value)))
  let projected := if translation.distinct then distinctRows projected else projected
  let kept := projected.drop translation.offset
  let kept := match translation.limit with
    | some limit => kept.take limit
    | none => kept
  if translation.isAsk then .boolean (!kept.isEmpty) else .rows vars kept names

/-- Answer a translated query. -/
def executeSparqlQuery (excludeInferred : Bool) : Handler (Except Status SparqlAnswer) := do
  match ← translation.unionRows ext arith lib excludeInferred translation.branches with
  | .error refused => return .error refused
  | .ok rows =>
    let names ← resolveNames (nodeIdsInBindings rows)
    return .ok (translation.finish ext arith lib rows names)

end SparqlTranslation

/-- What happens to the service between two requests of a handler. -/
inductive ServiceChange where
  /-- Another transaction commits. -/
  | commit (tx : Transaction) (wall : Timestamp)
  /-- The cached access is rebuilt. -/
  | refresh (graphAccess : GraphAccessIndex) (accessCache : List (String × List NodeId))
  /-- Time passes. -/
  | elapse (now : Timestamp)

/-- The service after a change. -/
def QueryServer.changed (server : QueryServer) : ServiceChange → QueryServer
  | .commit tx wall => { server with store := (server.store.commit ext tx wall).1 }
  | .refresh graphAccess accessCache =>
    { server with graphAccess := graphAccess, accessCache := accessCache }
  | .elapse now => { server with now := now }

end Library

end Polargraph
