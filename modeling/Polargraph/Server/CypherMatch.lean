import Polargraph.Query.CypherCompile
import Polargraph.Server.Query
import Polargraph.Server.Transactions

/-! Cypher writes with a matching part, and the queries that return what it matches. -/

namespace Polargraph

/-- A parsed Cypher write with a matching part. -/
structure Cypher.MatchWrite where
  /-- The paths to match. -/
  matchPatterns : List Cypher.CypherPath
  /-- The conditions. -/
  whereClauses : List Cypher.WhereClause
  /-- The operations, carried out once for each row. -/
  writes : List Cypher.WriteOp
  /-- The graph of a graph clause. -/
  graph : Option String
  /-- A graph clause names a graph. -/
  named : graph ≠ some ""

namespace Cypher.MatchWrite

/-- The matching part as a query that returns nothing. -/
def matchQuery (statement : MatchWrite) : CypherQuery where
  callClause := none
  matchPatterns := statement.matchPatterns
  whereClauses := statement.whereClauses
  returnItems := []
  limit := none
  orderBy := []
  skip := none
  withFilters := []
  graph := none

/-- The variables of the matching part. -/
def matchVars (statement : MatchWrite) : List String :=
  statement.matchPatterns.flatMap fun path =>
    path.start.var.toList ++ path.hops.flatMap fun hop => hop.rel.var.toList ++ hop.target.var.toList

/-- The query with the same matching part that returns all its variables. -/
def returning (statement : MatchWrite) (graph : Option String) : CypherQuery :=
  { statement.matchQuery with
    returnItems := statement.matchVars.map .var
    graph := graph }

/-- The graph a request writes to and matches in: the request's, which a graph clause agrees with. -/
def graphIri (statement : MatchWrite) (graph : String) : Except Status (Option String) :=
  match statement.graph with
  | some own =>
    if graph ≠ "" ∧ own ≠ graph then .error (.status .invalidArgument
      ("USE GRAPH <" ++ own ++ "> conflicts with request graph <" ++ graph ++ ">"))
    else .ok (some own)
  | none => .ok (if graph = "" then none else some graph)

section External

variable (ext : External) (matchesRegex : String → String → Bool)

/-- The compiled matching part of a write; its names are resolved before the store is known. -/
def compiled (statement : MatchWrite) (graph : Option String) : CompiledQuery :=
  let compiled := statement.matchQuery.compileWithVocabulary ext Vocabulary.default (fun _ => none)
  graph.elim compiled (fun iri => compiled.scopeTo (.iri iri))

/-- The rows a write acts on: those of its patterns that pass the filters on values and on texts. -/
def rows (statement : MatchWrite) (graph : Option String) (prefixes : String → Option String)
    (store : TripleStore) (point : ReadAt) (now : Timestamp) : Except Status (List Bindings) :=
  let snapshot : Snapshot := ⟨store, point, now, prefixes⟩
  let query := statement.compiled ext graph
  match snapshot.executeQuery ext query.query none with
  | .error problem =>
    .error (.status .internal ("match query error: storage error: " ++ problem.display))
  | .ok raw => storageErrToStatus do
    let rows ← keepPassing (snapshot.passesValue ext) query.valueFilters raw
    keepPassing (snapshot.passesText ext matchesRegex) query.textFilters rows

/-- The write of a request, once its graph is known by its identifier too. -/
def write (statement : MatchWrite) (author : String) (access : Option UserGraphAccess)
    (graph : Option String) (target : Option GraphId) (prefixes : String → Option String)
    (drawn : Nat → Uuid) (debug : CypherValue → String) : CypherWrite where
  author := author
  readable := access.map (fun own => own.readable.map GraphId.raw)
  matched := some (statement.rows ext matchesRegex graph prefixes)
  ops := statement.writes
  graph := target
  prefixes := prefixes
  drawn := drawn
  debug := debug

/-- The compiler of the query that returns what a write matches. -/
def compiler (statement : MatchWrite) (graph : Option String) (prefixes : String → Option String) :
    CypherCompiler where
  compile vocabulary _ :=
    .ok ((statement.returning graph).compileWithVocabulary ext vocabulary prefixes)
  isWriteStatement _ := false
  useGraph _ := graph

end External

end Cypher.MatchWrite

/-- The request for a query's text in the latest state, or in that of an open transaction. -/
def CypherQueryRequest.plain (cypher userId txId : String) : CypherQueryRequest where
  cypher := cypher
  params := []
  graphs := []
  asOfTxTime := Timestamp.zero
  asOfValidTime := Timestamp.zero
  excludeInferred := false
  hasVector := false
  userId := userId
  txId := txId

/-- The transaction a write is carried out in: the open one it names, or one of its own. -/
def QueryServer.writeTx (server : QueryServer) (txId : String) : Option Transaction :=
  if txId = "" then some server.store.begin else server.openTx txId

/-- The rows a write carries out its operations on in a transaction. -/
def CypherWrite.actedRows (write : CypherWrite) (store : TripleStore) (now : Timestamp)
    (tx : Transaction) : Except Status (List Bindings) :=
  write.matched.elim (.ok [[]]) fun rows => rows store ⟨tx.readTs, none, write.readable⟩ now

end Polargraph
