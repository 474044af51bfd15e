import Polargraph.Server.Query

/-! When a stream delivers the rows of the answer given at once. -/

namespace Polargraph

/-- Messages deliver all the solutions, in their order. -/
theorem flatMap_resultChunks (results : List Solution) :
    (resultChunks results).flatMap QueryStreamChunk.results = results := by
  -- The pieces up to a position are the solutions up to the piece's end.
  have pieces : ∀ count, (List.range count).flatMap (fun index =>
      (results.drop (index * STREAM_CHUNK_SIZE)).take STREAM_CHUNK_SIZE) =
        results.take (count * STREAM_CHUNK_SIZE) := by
    intro count
    induction count with
    | zero => simp
    | succ count ih =>
      rw [List.range_succ, List.flatMap_append, ih, List.flatMap_singleton, Nat.succ_mul,
        List.take_add]
  unfold resultChunks
  split
  · rename_i empty
    simp [List.isEmpty_iff.mp empty]
  · rw [List.flatMap_map]
    have enough : results.length ≤
        (results.length + STREAM_CHUNK_SIZE - 1) / STREAM_CHUNK_SIZE * STREAM_CHUNK_SIZE := by
      unfold STREAM_CHUNK_SIZE
      omega
    exact (pieces _).trans (List.take_of_length_le enough)

/-- Two outcomes are the same refusal, or rows that are related. -/
def Outcomes {α β : Type} (related : List α → List β → Prop) :
    Option (Except Status (List α)) → Option (Except Status (List β)) → Prop
  | none, none => True
  | some (.error left), some (.error right) => left = right
  | some (.ok left), some (.ok right) => related left right
  | _, _ => False

/-- The solutions a stream delivers. -/
def streamed (chunks : List QueryStreamChunk) : List Solution :=
  chunks.flatMap QueryStreamChunk.results

namespace CompiledQuery

/-- The names of what a query returns, when it returns variables and identifiers. -/
def columns (compiled : CompiledQuery) : List String :=
  compiled.returnVars ++
    (compiled.edgeIdProjections ++ compiled.nodeIdProjections).map IdProjection.outputKey

/-- Nothing but variables and identifiers is returned. -/
def ReturnsNodes (compiled : CompiledQuery) : Prop :=
  compiled.aggregations = [] ∧ compiled.propProjections = [] ∧ compiled.edgePropProjections = []

/-- What a row of an answer has for a name: the text of an identifier, or of the node of a variable. -/
def answerCell (compiled : CompiledQuery) (row : CypherBinding) (key : String) : Option String :=
  match row.values.lookup key with
  | some (.text text) => some text
  | some _ => none
  | none =>
    if key ∈ compiled.returnVars then (row.nodes.lookup key).map (fun node => node.uuid.display)
    else none

/-- What a row of a stream has for a name. -/
def streamCell (row : Solution) (key : String) : Option String :=
  (row.nodes.lookup key).map (fun node => node.uuid.display)

end CompiledQuery

namespace QueryServer

section External

variable (ext : External) (arith : FloatArithmetic) (matchesRegex : String → String → Bool)
  (compiler : CypherCompiler) (server : QueryServer)

/-- A stream delivers the same node bindings as the answer given at once. -/
def QueriesAgree (request : QueryRequest) : Prop :=
  Outcomes (fun rows chunks =>
    (rows.map Solution.nodes).Perm ((streamed chunks).map Solution.nodes))
    (server.query ext request) (server.queryStream ext request)

/-- A stream delivers the same rows as the answer given at once, in its order when it is sorted. -/
def CypherQueriesAgree (request : CypherQueryRequest) (compiled : CompiledQuery) : Prop :=
  Outcomes (fun rows chunks =>
    let answered := rows.map (fun row => compiled.columns.map (compiled.answerCell row))
    let delivered := (streamed chunks).map
      (fun row => compiled.columns.map (CompiledQuery.streamCell row))
    answered.Perm delivered ∧ (compiled.orderBy ≠ [] → answered = delivered))
    (server.cypherQuery ext arith matchesRegex compiler request)
    (server.cypherQueryStream ext matchesRegex compiler request)

end External

variable {ext : External} {arith : FloatArithmetic} {matchesRegex : String → String → Bool}
  {compiler : CypherCompiler} {server : QueryServer}

/-- Without a filter every row is kept. -/
theorem queriesAgree_of_unfiltered {request : QueryRequest}
    (unfiltered : server.getAccessFilter request.userId = none) (free : request.txId = "") :
    server.QueriesAgree ext request := by
  unfold QueriesAgree query queryStream
  split_ifs with empty named
  · exact rfl
  · exact absurd free named
  · rw [unfiltered]
    dsimp only
    cases server.solve ext (server.querySnapshot ext request)
      (server.datasetPatterns request.patterns request.graphs) request.rules with
    | none => trivial
    | some solved =>
      cases solved with
      | error problem => exact rfl
      | ok rows =>
        show (rows.map Solution.nodes).Perm ((streamed (resultChunks rows)).map Solution.nodes)
        rw [streamed, flatMap_resultChunks]

/-- What a row has for a variable that is returned is its node. -/
theorem lookup_returned (row : Bindings) (vars : List String) (key : String) :
    (vars.filterMap (fun v => (row.lookup v).map (fun node => (v, node)))).lookup key =
      if key ∈ vars then row.lookup key else none := by
  induction vars with
  | nil => rfl
  | cons first rest ih =>
    cases found : row.lookup first with
    | none =>
      by_cases same : key = first
      · subst same
        simp [found, ih]
      · simp [found, ih, same]
    | some node =>
      by_cases same : key = first
      · subst same
        simp [found]
      · simp [found, ih, same, List.lookup_cons, beq_false_of_ne same]

/-- The values of a list whose entries are changed. -/
theorem lookup_map_snd {α β : Type} (f : α → β) (key : String) (entries : List (String × α)) :
    (entries.map (fun entry => (entry.1, f entry.2))).lookup key = (entries.lookup key).map f := by
  induction entries with
  | nil => rfl
  | cons first rest ih =>
    rw [List.map_cons, List.lookup_cons, List.lookup_cons]
    split <;> simp_all

/-- A row is returned with the same variables and identifiers by both requests. -/
theorem cell_projectRow {compiled : CompiledQuery} (returns : compiled.ReturnsNodes)
    (snapshot : Snapshot) (row : Bindings) {key : String} (column : key ∈ compiled.columns) :
    compiled.answerCell (server.projectRow ext compiled snapshot ⟨row, []⟩) key =
      CompiledQuery.streamCell (Solution.fromNodes (streamedRow compiled row)) key := by
  obtain ⟨_, props, edgeProps⟩ := returns
  -- Identifiers are texts in an answer and nodes in a stream.
  have texts : server.projectedValues ext compiled snapshot ⟨row, []⟩ =
      (((compiled.edgeIdProjections ++ compiled.nodeIdProjections).filterMap fun proj =>
        (row.lookup proj.var).map (fun node => (proj.outputKey, node))).reverse).map
          (fun entry => (entry.1, Value.text entry.2.uuid.display)) := by
    unfold projectedValues
    rw [props, edgeProps, List.map_reverse, List.map_filterMap]
    simp [Option.map_map, Function.comp_def]
  -- A query with a column returns something.
  have some_column : (compiled.returnVars.isEmpty && compiled.edgeIdProjections.isEmpty &&
      compiled.nodeIdProjections.isEmpty) = false := by
    by_contra all
    simp only [Bool.not_eq_false, Bool.and_eq_true, List.isEmpty_iff] at all
    obtain ⟨⟨vars, edges⟩, nodes⟩ := all
    simp [CompiledQuery.columns, vars, edges, nodes] at column
  unfold CompiledQuery.answerCell CompiledQuery.streamCell streamedRow
  simp only [projectRow, texts, some_column, Bool.false_eq_true, if_false, Solution.fromNodes,
    List.reverse_append, List.lookup_append, ← List.filterMap_reverse, lookup_returned,
    List.mem_reverse]
  rw [lookup_map_snd (fun node : NodeId => Value.text node.uuid.display)]
  cases found : ((compiled.nodeIdProjections.reverse ++ compiled.edgeIdProjections.reverse).filterMap
      fun proj => (row.lookup proj.var).map (fun node => (proj.outputKey, node))).lookup key with
  | some node => simp
  | none =>
    simp only [Option.map_none, Option.none_or]
    by_cases var : key ∈ compiled.returnVars
    · have vars : compiled.returnVars.isEmpty = false := by
        cases all : compiled.returnVars with
        | nil => simp [all] at var
        | cons first rest => rfl
      simp [var, vars, lookup_returned]
    · simp [var]

/-- Without a filter, sort keys and rows to skip, the rows of a query are answered as they are streamed. -/
theorem outcomes_finish {request : CypherQueryRequest} {compiled : CompiledQuery}
    (unfiltered : server.getAccessFilter request.userId = none) (returns : compiled.ReturnsNodes)
    (unsorted : compiled.orderBy = []) (whole : compiled.skip.getD 0 = 0) (snapshot : Snapshot)
    (found : Except Status (List Bindings)) :
    Outcomes (fun rows chunks =>
      let answered := rows.map (fun row => compiled.columns.map (compiled.answerCell row))
      let delivered := (streamed chunks).map
        (fun row => compiled.columns.map (CompiledQuery.streamCell row))
      answered.Perm delivered ∧ (compiled.orderBy ≠ [] → answered = delivered))
      (some (server.finishCypher ext arith matchesRegex request compiled snapshot found))
      (some (finishCypherStream ext matchesRegex compiled snapshot found)) := by
  unfold finishCypher finishCypherStream
  cases found with
  | error refused => exact rfl
  | ok rows =>
    simp only [unfiltered, filterBindings, bind, Except.bind, pure, Except.pure]
    cases snapshot.applyFilters ext matchesRegex compiled rows with
    | error problem => exact rfl
    | ok kept =>
      simp only [storageErrToStatus]
      have same (limited : List Bindings) : ((limited.map (fun row => AggregatedRow.mk row [])).map
          (server.projectRow ext compiled snapshot)).map
            (fun row => compiled.columns.map (compiled.answerCell row)) =
          ((limited.map (streamedRow compiled)).map Solution.fromNodes).map
            (fun row => compiled.columns.map (CompiledQuery.streamCell row)) := by
        simp only [List.map_map]
        refine List.map_congr_left fun row _ => List.map_congr_left fun key column => ?_
        exact cell_projectRow returns snapshot row column
      rw [applyAggregations, returns.1, unsorted]
      simp only [List.isEmpty_nil, if_true, applyOrderSkipLimit, whole, List.drop_zero, ne_eq,
        not_true_eq_false, false_implies, and_true]
      -- Both take the first rows, as many as the limit.
      cases compiled.limit with
      | none =>
        simp only [Outcomes, streamed, flatMap_resultChunks, same]
        exact .refl _
      | some limit =>
        simp only [Outcomes, streamed, flatMap_resultChunks, ← List.map_take, same]
        exact .refl _

/-- Without a filter, sort keys and rows to skip, a stream delivers what is answered at once. -/
theorem cypherQueriesAgree_of_unfiltered {request : CypherQueryRequest} {compiled : CompiledQuery}
    (unfiltered : server.getAccessFilter request.userId = none) (free : request.txId = "")
    (reads : compiler.isWriteStatement request.cypher = false)
    (compiles : server.compileRequest compiler request = .ok compiled)
    (returns : compiled.ReturnsNodes) (unsorted : compiled.orderBy = [])
    (whole : compiled.skip.getD 0 = 0) :
    server.CypherQueriesAgree ext arith matchesRegex compiler request compiled := by
  have start : server.cypherReadAt request (callerAccess ext server.graphAccess request.userId) =
      .ok (server.snapshotAt request.asOfTxTime
        (callerAccess ext server.graphAccess request.userId)) := by
    simp [cypherReadAt, free]
  unfold CypherQueriesAgree cypherQuery cypherQueryStream
  simp only [compiles, start, reads, Bool.false_eq_true, if_false]
  split_ifs with blank
  · exact rfl
  · cases server.cypherMatch ext request (callerAccess ext server.graphAccess request.userId) compiled
      (server.cypherSnapshot compiler request (server.snapshotAt request.asOfTxTime
        (callerAccess ext server.graphAccess request.userId))) with
    | none => trivial
    | some found => exact outcomes_finish unfiltered returns unsorted whole _ found

/-- The user of a concrete store. -/
def someReader : NodeId := NodeId.ofByte 1

/-- Third-party code that reads the text of the user. -/
def readerText : External :=
  { External.unreached with
    parseUuid := fun text => if text = someReader.uuid.display then some someReader.uuid else none }

/-- A relation from the first clock tick on. -/
def related (subject object edge : UInt8) (predicate : String) : Triple :=
  .relation (NodeId.ofByte subject) predicate (NodeId.ofByte object) ⟨(NodeId.ofByte edge).uuid⟩
    ⟨Timestamp.zero, Timestamp.END_OF_TIME, Timestamp.zero⟩

/-- A store in which the user's group may access one end of a relation. -/
def acquaintedStore : TripleStore :=
  (TripleStore.create.commit readerText ((((Transaction.new Timestamp.zero).insertIn
    (related 1 2 11 BUILTIN_MEMBER_OF_PRED) GraphId.DEFAULT .auto).insertIn
    (related 2 3 12 BUILTIN_HAS_ACCESS_PRED) GraphId.DEFAULT .auto).insertIn
    (related 3 4 13 "urn:knows") GraphId.DEFAULT .auto) (Timestamp.wrap 5)).1

/-- A server that answers queries from a store, with the caches of the store. -/
def answering (store : TripleStore) : QueryServer where
  store := store
  prefixes _ := none
  registry := []
  graphAccess := (store.buildGraphAccess readerText (Timestamp.wrap 6)).toOption.getD
    ⟨[], .fromLevels [] []⟩
  accessCache := (store.buildAccessCache readerText (fun _ => none) ⟨[]⟩ (Timestamp.wrap 6)).toOption.getD
    []
  openTx _ := none
  vectorHits _ _ := []
  edges _ := ⟨(NodeId.ofByte 20).uuid⟩
  rounds := 5
  now := Timestamp.wrap 6

/-- A pattern over the ends of a relation. -/
def ends (predicate : String) : VarPattern :=
  ⟨.var "s", some predicate, none, .var "o", none, none, .union⟩

/-- A request of a user for the ends of a relation, at the latest commit. -/
def endsRequest (userId : String) : QueryRequest where
  patterns := [ends "urn:knows"]
  rules := []
  graphs := []
  asOfTxTime := Timestamp.zero
  snapshotTs := Timestamp.zero
  asOfValidTime := Timestamp.zero
  excludeInferred := false
  userId := userId
  txId := ""

/-- Arithmetic for runs without numbers. -/
def noArithmetic : FloatArithmetic := ⟨fun _ => 0, fun _ => 0, fun _ _ => 0, fun _ _ => 0, fun _ _ => 0⟩

/-- A compiled query that returns the ends of a relation. -/
def endsPlan (predicate : String) : CompiledQuery where
  query := [ends predicate]
  rules := []
  valueFilters := []
  textFilters := []
  returnVars := ["s", "o"]
  limit := some 1
  vectorNear := none
  aggregations := []
  groupKeys := ["s", "o"]
  orderBy := []
  skip := none
  edgeAnnotationFilters := []
  propProjections := []
  edgePropProjections := []
  edgeIdProjections := []
  nodeIdProjections := []
  graph := none

/-- A compiler of the text of that query. -/
def endsCompiler : CypherCompiler where
  compile _ _ := .ok (endsPlan "urn:knows")
  isWriteStatement _ := false
  useGraph _ := none

/-- A request in Cypher of a user for the ends of a relation. -/
def endsCypher (userId : String) : CypherQueryRequest where
  cypher := "MATCH (s)-[:<urn:knows>]->(o) RETURN s, o LIMIT 1"
  params := []
  graphs := []
  asOfTxTime := Timestamp.zero
  asOfValidTime := Timestamp.zero
  excludeInferred := false
  hasVector := false
  userId := userId
  txId := ""

end QueryServer

end Polargraph
