import Polargraph.Query.Cypher
import Polargraph.Server.CreateGraph
import Polargraph.Server.NodeAccess

/-! The requests that run queries over patterns or over Cypher, at once or streamed. -/

namespace Polargraph

/-- How many solutions a chunk of a stream has. -/
def STREAM_CHUNK_SIZE : Nat := 500

/-- A message of a stream of solutions. -/
structure QueryStreamChunk where
  /-- The solutions. -/
  results : List Solution
  /-- Its position. -/
  chunkIndex : Nat
  /-- Whether it is the last one. -/
  done : Bool
deriving DecidableEq

/-- The messages that deliver solutions. -/
def resultChunks (results : List Solution) : List QueryStreamChunk :=
  if results.isEmpty then [⟨[], 0, true⟩]
  else
    let chunks := (results.length + STREAM_CHUNK_SIZE - 1) / STREAM_CHUNK_SIZE
    (List.range chunks).map fun index =>
      ⟨(results.drop (index * STREAM_CHUNK_SIZE)).take STREAM_CHUNK_SIZE, index,
        decide (index + 1 = chunks)⟩

/-- The compiler of Cypher texts. -/
structure CypherCompiler where
  /-- The compiled query of a text, names resolved through a vocabulary. -/
  compile : Vocabulary → String → Except String CompiledQuery
  /-- Whether a text is a write statement. -/
  isWriteStatement : String → Bool
  /-- The graph of the graph clause a text starts with. -/
  useGraph : String → Option String

/-- What a server answers queries from. -/
structure QueryServer where
  /-- The store. -/
  store : TripleStore
  /-- The namespaces of the declared prefixes. -/
  prefixes : String → Option String
  /-- The registered edge types. -/
  registry : EdgeTypeRegistry
  /-- The cached graph access of every user. -/
  graphAccess : GraphAccessIndex
  /-- The cached nodes each user of a group may access, by the text of the user's node. -/
  accessCache : List (String × List NodeId)
  /-- The open transactions. -/
  openTx : String → Option Transaction
  /-- The visible hits of a vector search, nearest first. -/
  vectorHits : VectorNearClause → Option UserGraphAccess → List NodeId
  /-- The edges of derived facts. -/
  edges : NodeId × NodeId → EdgeId
  /-- How many rounds of its rules a query may take. -/
  rounds : Nat
  /-- The clock. -/
  now : Timestamp

/-- A query over patterns. -/
structure QueryRequest where
  /-- The patterns. -/
  patterns : List VarPattern
  /-- The rules. -/
  rules : List Rule
  /-- The IRIs of the graphs of the dataset, every graph when there are none. -/
  graphs : List String
  /-- The transaction time to read at, zero for the latest. -/
  asOfTxTime : Timestamp
  /-- The transaction time to read at when the other one is zero. -/
  snapshotTs : Timestamp
  /-- The valid time to read at, zero for now. -/
  asOfValidTime : Timestamp
  /-- Whether inferred graphs are left out. -/
  excludeInferred : Bool
  /-- The caller. -/
  userId : String
  /-- The open transaction to read in, if any. -/
  txId : String

/-- A query in Cypher. -/
structure CypherQueryRequest where
  /-- The text. -/
  cypher : String
  /-- The values of its parameters. -/
  params : List (String × Value)
  /-- The IRIs of the graphs of the dataset, the default graph for the empty one. -/
  graphs : List String
  /-- The transaction time to read at, zero for the latest. -/
  asOfTxTime : Timestamp
  /-- The valid time to read at, zero for now. -/
  asOfValidTime : Timestamp
  /-- Whether inferred graphs are left out. -/
  excludeInferred : Bool
  /-- Whether it has a query vector. -/
  hasVector : Bool
  /-- The caller. -/
  userId : String
  /-- The open transaction to read in, if any. -/
  txId : String

/-- A query that starts from the hits of a vector search. -/
structure VectorSeedQueryRequest where
  /-- Whether it has a query vector. -/
  hasVector : Bool
  /-- The variable the hits are bound to. -/
  seedVariable : String
  /-- The patterns. -/
  patterns : List VarPattern
  /-- The IRIs of the graphs of the dataset, every graph when there are none. -/
  graphs : List String
  /-- The transaction time to read at, zero for the latest. -/
  snapshotTs : Timestamp
  /-- The caller. -/
  userId : String

/-- One row of a Cypher query's answer. -/
structure CypherBinding where
  /-- The nodes of its variables. -/
  nodes : Bindings
  /-- Its values, the latest for a key first. -/
  values : List (String × Value)
deriving DecidableEq

namespace ReadAt

/-- A read confined to some graphs. -/
def withinGraphs (point : ReadAt) (included : List GraphId) : ReadAt :=
  { point with
    readable := some (match point.readable with
      | some readable => readable.filter (fun raw => (included.map GraphId.raw).contains raw)
      | none => included.map GraphId.raw) }

/-- A read that leaves some graphs out. -/
def withoutGraphs (point : ReadAt) (store : TripleStore) (excluded : List GraphId) : ReadAt :=
  if excluded.isEmpty then point
  else
    let readable := point.readable.getD
      (GraphId.DEFAULT.raw :: store.listGraphs.map (fun entry => entry.1.raw))
    { point with
      readable := some (readable.filter (fun raw => !(excluded.map GraphId.raw).contains raw)) }

end ReadAt

namespace TripleStore

/-- The inferred graphs. -/
def inferredGraphs (store : TripleStore) : List GraphId :=
  store.listGraphs.filterMap fun (g, iri) => (store.inferredLabel iri).map (fun _ => g)

end TripleStore

namespace QueryServer

section External

variable (ext : External) (arith : FloatArithmetic) (matchesRegex : String → String → Bool)
  (compiler : CypherCompiler) (server : QueryServer)

/-- A snapshot at a time, confined to what a caller may read. -/
def snapshotFor (ts : Timestamp) (access : Option UserGraphAccess) : Snapshot where
  store := server.store
  point := ⟨ts, none, access.map (fun own => own.readable.map GraphId.raw)⟩
  now := server.now
  prefixes := server.prefixes

/-- A snapshot at a given time, or at the latest commit when the time is zero. -/
def snapshotAt (ts : Timestamp) (access : Option UserGraphAccess) : Snapshot :=
  if ts = Timestamp.zero then server.snapshotFor server.store.begin.readTs access
  else server.snapshotFor ts access

/-- A snapshot with a valid time, unless it is zero. -/
def withVtAsOf (snapshot : Snapshot) (vt : Timestamp) : Snapshot :=
  if vt = Timestamp.zero then snapshot
  else { snapshot with point := { snapshot.point with vtAsOf := some vt } }

/-- A snapshot without the inferred graphs, for a request that leaves them out. -/
def inferredScope (snapshot : Snapshot) (exclude : Bool) : Snapshot :=
  if exclude then { snapshot with
    point := snapshot.point.withoutGraphs server.store server.store.inferredGraphs }
  else snapshot

/-- The nodes a user may access, or nothing when rows are not filtered for the user. -/
def getAccessFilter (userId : String) : Option (List NodeId) :=
  if userId = "" then none else Latest.lookup userId server.accessCache

/-- The rows that bind allowed nodes only. -/
def filterBindings (rows : List Bindings) (allowed : Option (List NodeId)) : List Bindings :=
  match allowed with
  | none => rows
  | some nodes => rows.filter (fun row => row.all (fun bound => nodes.contains bound.2))

/-- The solutions that bind allowed nodes only. -/
def filterBindingsFull (rows : List Solution) (allowed : Option (List NodeId)) : List Solution :=
  match allowed with
  | none => rows
  | some nodes => rows.filter (fun row => row.nodes.all (fun bound => nodes.contains bound.2))

/-- The patterns of a request, those of no graph matched in its dataset. -/
def datasetPatterns (patterns : List VarPattern) (graphs : List String) : List VarPattern :=
  patterns.map fun vp =>
    if vp.graph = .union ∧ !graphs.isEmpty then
      { vp with graph := .set (graphs.filterMap server.store.graphId) }
    else vp

/-- The solutions of patterns over stored facts, or over those the rules derive too. -/
def solve (snapshot : Snapshot) (patterns : List VarPattern) (rules : List Rule) :
    Option (Except StorageError (List Solution)) :=
  if rules.isEmpty then some (snapshot.executeQueryFull ext patterns (some server.registry))
  else (snapshot.executeRecursive ext server.edges rules server.rounds []).map fun derived => do
    snapshot.executeQueryHybridFull ext server.edges patterns (← derived)

/-- The snapshot a query over patterns reads. -/
def querySnapshot (request : QueryRequest) : Snapshot :=
  let access := callerAccess ext server.graphAccess request.userId
  let ts := if request.asOfTxTime ≠ Timestamp.zero then request.asOfTxTime else request.snapshotTs
  server.inferredScope (withVtAsOf (server.snapshotAt ts access) request.asOfValidTime)
    request.excludeInferred

/-- The refusal of a query without patterns. -/
def noPatterns : Status :=
  .status .invalidArgument "query must contain at least one pattern"

/-- Answer a query over patterns, nothing when its rules take more rounds. -/
def query (request : QueryRequest) : Option (Except Status (List Solution)) :=
  if request.patterns.isEmpty then some (.error noPatterns)
  else
    let patterns := server.datasetPatterns request.patterns request.graphs
    let results :=
      if request.txId ≠ "" then
        match server.openTx request.txId with
        | none => some (.error (.status .notFound
            ("unknown or expired transaction: " ++ request.txId)))
        | some tx =>
          -- The transaction's own read time takes the place of the requested ones.
          let access := callerAccess ext server.graphAccess request.userId
          let snapshot := server.inferredScope (server.snapshotFor tx.readTs access)
            request.excludeInferred
          some (storageErrToStatus (snapshot.executeQueryWithPendingFull ext patterns
            (tx.writes.map PendingWrite.triple) (some server.registry)))
      else (server.solve ext (server.querySnapshot ext request) patterns request.rules).map
        storageErrToStatus
    results.map fun rows =>
      rows.map (fun rows => filterBindingsFull rows (server.getAccessFilter request.userId))

/-- Stream the answer of a query over patterns. -/
def queryStream (request : QueryRequest) : Option (Except Status (List QueryStreamChunk)) :=
  if request.patterns.isEmpty then some (.error noPatterns)
  else
    let patterns := server.datasetPatterns request.patterns request.graphs
    (server.solve ext (server.querySnapshot ext request) patterns request.rules).map fun rows =>
      (storageErrToStatus rows).map resultChunks

/-- The graphs some IRIs name, the default graph for the empty one. -/
def cypherGraphs (graphs : List String) : List GraphId :=
  graphs.filterMap fun iri => if iri = "" then some GraphId.DEFAULT else server.store.graphId iri

/-- A compiled query whose patterns without a graph are matched in a request's dataset. -/
def cypherDataset (compiled : CompiledQuery) (graphs : List String) : CompiledQuery :=
  if graphs.isEmpty then compiled else compiled.scopeTo (.set (server.cypherGraphs graphs))

/-- A snapshot confined to the graph of the graph clause, or else to a request's dataset. -/
def cypherSnapshotScope (snapshot : Snapshot) (cypher : String) (graphs : List String) : Snapshot :=
  let graphs := match compiler.useGraph cypher with
    | some graph => [graph]
    | none => graphs
  if graphs.isEmpty then snapshot
  else { snapshot with point := snapshot.point.withinGraphs (server.cypherGraphs graphs) }

/-- The compiled query of a request, its parameters replaced by their values. -/
def compileRequest (request : CypherQueryRequest) : Except Status CompiledQuery := do
  let compiled ← (compiler.compile server.store.vocabulary request.cypher).mapError
    (fun text => .status .invalidArgument ("cypher parse error: " ++ text))
  let compiled ← (compiled.substituteParams request.params).mapError
    (fun text => .status .invalidArgument ("parameter error: " ++ text))
  return server.cypherDataset compiled request.graphs

/-- The time a Cypher query reads at, that of its open transaction if it names one. -/
def cypherReadAt (request : CypherQueryRequest) (access : Option UserGraphAccess) :
    Except Status Snapshot :=
  if request.txId ≠ "" then
    match server.openTx request.txId with
    | none => .error (.status .notFound
        ("transaction '" ++ request.txId ++ "' not found or expired"))
    | some tx => .ok (server.snapshotFor tx.readTs access)
  else .ok (server.snapshotAt request.asOfTxTime access)

/-- The snapshot a Cypher query reads, given the one it starts from. -/
def cypherSnapshot (request : CypherQueryRequest) (snapshot : Snapshot) : Snapshot :=
  server.cypherSnapshotScope compiler (server.inferredScope
    (withVtAsOf snapshot request.asOfValidTime) request.excludeInferred) request.cypher request.graphs

/-- The rows a compiled query matches, before any filter. -/
def cypherMatch (request : CypherQueryRequest) (access : Option UserGraphAccess)
    (compiled : CompiledQuery) (snapshot : Snapshot) : Option (Except Status (List Bindings)) :=
  match compiled.vectorNear with
  | some clause =>
    if !request.hasVector then some (.error (.status .invalidArgument
      "VECTOR_NEAR requires a query vector in the request (field 'vector')"))
    else
      let hits := server.vectorHits clause access
      some (if hits.isEmpty then .ok []
        else storageErrToStatus (snapshot.executeQuerySeeded ext compiled.query
          (hits.map (fun node => [(clause.seedVariable, node)])) (some server.registry)))
  | none =>
    if compiled.rules.isEmpty then
      some (storageErrToStatus (snapshot.executeQuery ext compiled.query (some server.registry)))
    else
      (snapshot.executeRecursive ext server.edges compiled.rules server.rounds []).map fun derived =>
        storageErrToStatus (do
          snapshot.executeQueryHybrid ext server.edges compiled.query (← derived))

/-- The value a property of a node is returned with. -/
def propertyOf (snapshot : Snapshot) (node : NodeId) (prop : String) : Option Value :=
  match snapshot.scanBySubjectPredicate ext node
      (snapshot.store.vocabulary.expand snapshot.prefixes prop) with
  | .error _ => none
  | .ok triples => triples.findSome? fun triple => match triple with
    | .property _ _ value _ => some value
    | _ => none

/-- The value a property of an edge is returned with, read from the store itself. -/
def edgePropertyOf (snapshot : Snapshot) (edge : EdgeId) (prop : String) : Option Value :=
  match server.store.getEdgeAnnotation ext edge
      (snapshot.store.vocabulary.expand snapshot.prefixes prop) snapshot.point.ts with
  | .ok (some ⟨_, .scalar value⟩) => some value
  | _ => none

/-- The returned values of a row's aggregates, properties and identifiers, the latest first. -/
def projectedValues (compiled : CompiledQuery) (snapshot : Snapshot) (row : AggregatedRow) :
    List (String × Value) :=
  let props := compiled.propProjections.filterMap fun (var, prop) =>
    ((row.groupKeys.lookup var).bind (fun node => propertyOf ext snapshot node prop)).map
      (fun value => (var ++ "." ++ prop, value))
  let edgeProps := compiled.edgePropProjections.filterMap fun (var, prop) =>
    ((row.groupKeys.lookup var).bind
      (fun node => server.edgePropertyOf ext snapshot ⟨node.uuid⟩ prop)).map
        (fun value => (var ++ "." ++ prop, value))
  let ids := (compiled.edgeIdProjections ++ compiled.nodeIdProjections).filterMap fun proj =>
    (row.groupKeys.lookup proj.var).map (fun node => (proj.outputKey, .text node.uuid.display))
  (row.aggValues ++ props ++ edgeProps ++ ids).reverse

/-- The answer's row for a result row. -/
def projectRow (compiled : CompiledQuery) (snapshot : Snapshot) (row : AggregatedRow) :
    CypherBinding where
  nodes :=
    if compiled.returnVars.isEmpty && compiled.propProjections.isEmpty then row.groupKeys
    else compiled.returnVars.filterMap (fun v => (row.groupKeys.lookup v).map (fun node => (v, node)))
  values := server.projectedValues ext compiled snapshot row

/-- The refusal of a query without a text. -/
def noCypher : Status := .status .invalidArgument "cypher query string must not be empty"

/-- The refusal of a write statement by the request for queries. -/
def writeStatement : Status := .status .invalidArgument
  "CypherQuery does not accept write statements (CREATE/MERGE/SET/DELETE); use CypherWrite instead"

/-- The answer's rows for the rows a compiled query matches. -/
def finishCypher (request : CypherQueryRequest) (compiled : CompiledQuery) (snapshot : Snapshot)
    (found : Except Status (List Bindings)) : Except Status (List CypherBinding) := do
  let rows := filterBindings (← found) (server.getAccessFilter request.userId)
  let rows ← storageErrToStatus (snapshot.applyFilters ext matchesRegex compiled rows)
  return (applyAggregations ext arith snapshot rows compiled.groupKeys compiled.aggregations
    compiled.orderBy compiled.skip compiled.limit).map (server.projectRow ext compiled snapshot)

/-- Answer a query in Cypher, nothing when its rules take more rounds. -/
def cypherQuery (request : CypherQueryRequest) : Option (Except Status (List CypherBinding)) :=
  let access := callerAccess ext server.graphAccess request.userId
  if request.cypher = "" then some (.error noCypher)
  else if compiler.isWriteStatement request.cypher then some (.error writeStatement)
  else match server.compileRequest compiler request with
    | .error refused => some (.error refused)
    | .ok compiled =>
      match server.cypherReadAt request access with
      | .error refused => some (.error refused)
      | .ok start =>
        let snapshot := server.cypherSnapshot compiler request start
        (server.cypherMatch ext request access compiled snapshot).map
          (server.finishCypher ext arith matchesRegex request compiled snapshot)

/-- The returned part of a row of a stream; an identifier is returned as the node itself. -/
def streamedRow (compiled : CompiledQuery) (row : Bindings) : Bindings :=
  if compiled.returnVars.isEmpty && compiled.edgeIdProjections.isEmpty &&
      compiled.nodeIdProjections.isEmpty then row
  else
    let vars := compiled.returnVars.filterMap (fun v => (row.lookup v).map (fun node => (v, node)))
    let ids := (compiled.edgeIdProjections ++ compiled.nodeIdProjections).filterMap fun proj =>
      (row.lookup proj.var).map (fun node => (proj.outputKey, node))
    (vars ++ ids).reverse

/-- The messages for the rows a compiled query matches. -/
def finishCypherStream (compiled : CompiledQuery) (snapshot : Snapshot)
    (found : Except Status (List Bindings)) : Except Status (List QueryStreamChunk) := do
  let rows ← storageErrToStatus (snapshot.applyFilters ext matchesRegex compiled (← found))
  let limited := match compiled.limit with
    | some limit => rows.take limit
    | none => rows
  return resultChunks ((limited.map (streamedRow compiled)).map Solution.fromNodes)

/-- Stream the answer of a query in Cypher. -/
def cypherQueryStream (request : CypherQueryRequest) :
    Option (Except Status (List QueryStreamChunk)) :=
  let access := callerAccess ext server.graphAccess request.userId
  if request.cypher = "" then some (.error noCypher)
  else match server.compileRequest compiler request with
    | .error refused => some (.error refused)
    | .ok compiled =>
      let snapshot := server.cypherSnapshot compiler request
        (server.snapshotAt request.asOfTxTime access)
      (server.cypherMatch ext request access compiled snapshot).map
        (finishCypherStream ext matchesRegex compiled snapshot)

/-- Answer a query that starts from the hits of a vector search, given those that are visible. -/
def vectorSeedQuery (request : VectorSeedQueryRequest) (hits : Except Status (List NodeId)) :
    Except Status (List Bindings) :=
  let access := callerAccess ext server.graphAccess request.userId
  if !request.hasVector then .error (.status .invalidArgument "query_vector must not be empty")
  else if request.seedVariable = "" then
    .error (.status .invalidArgument "seed_variable must not be empty")
  else match hits with
    | .error refused => .error refused
    | .ok [] => .ok []
    | .ok hits => do
      let snapshot := server.snapshotAt request.snapshotTs access
      let rows ← storageErrToStatus (snapshot.executeQuerySeeded ext
        (server.datasetPatterns request.patterns request.graphs)
        (hits.map (fun node => [(request.seedVariable, node)])) (some server.registry))
      return filterBindings rows (server.getAccessFilter request.userId)

end External

end QueryServer

end Polargraph
