import Polargraph.Proofs.Query.CypherCompile
import Polargraph.Proofs.Server.Query
import Polargraph.Server.CypherMatch

/-! When a Cypher write acts on the rows that the query of its matching part returns. -/

namespace Polargraph

namespace TripleStore

variable {ext : External} {store : TripleStore}

/-- An entry counts alike for readers that may see the same graphs of a scope. -/
theorem scanEntry_readers {order : Order} {point other : ReadAt} {vt : Timestamp} {scope : GraphScope}
    (time : other.ts = point.ts)
    (same : ∀ g, scope.admits g = true → other.canRead g = point.canRead g) :
    scanEntry order other vt scope = scanEntry order point vt scope := by
  funext latest entry
  obtain ⟨key, value⟩ := entry
  dsimp only [scanEntry]
  rw [time]
  -- An entry outside of the scope is passed over by both.
  cases admits : scope.admits (order.graphOf key) with
  | false => rfl
  | true => rw [same _ admits]

/-- A scoped scan finds the same for readers that may see the same graphs of its scope. -/
theorem scanScopedAt_readers {s : Option NodeId} {p : Option String} {o : Option NodeId}
    {scope : GraphScope} {point other : ReadAt} {now : Timestamp}
    (time : other.ts = point.ts) (valid : other.vtAsOf = point.vtAsOf)
    (same : ∀ g, scope.admits g = true → other.canRead g = point.canRead g) :
    store.scanScopedAt ext s p o scope other now = store.scanScopedAt ext s p o scope point now := by
  have live : ∀ order start vt, store.scanLive order start other vt scope =
      store.scanLive order start point vt scope := by
    intro order start vt
    unfold scanLive scanLatest
    rw [scanEntry_readers time same]
  have keyed : ∀ order start, store.snapshotScanKeyed ext order start other now scope =
      store.snapshotScanKeyed ext order start point now scope := by
    intro order start
    unfold snapshotScanKeyed
    simp only [valid, live]
    cases scope with
    | one g =>
      dsimp only
      rw [same g (by simp [GraphScope.admits])]
    | _ => rfl
  unfold scanScopedAt
  simp only [keyed]

end TripleStore

/-- What a row binds some variables to. -/
def valuesOf (vars : List String) (row : Bindings) : List (Option NodeId) :=
  vars.map fun name => row.lookup name

/-- A write acts on the rows a query returns, as often as it returns them, or both fail. -/
def SameRows (vars : List String) (acted : Except Status (List Bindings))
    (answered : Option (Except Status (List CypherBinding))) : Prop :=
  match acted, answered with
  | .ok rows, some (.ok answers) =>
    (rows.map (valuesOf vars)).Perm (answers.map fun answer => valuesOf vars answer.nodes)
  | .error _, some (.error _) => True
  | _, _ => False

namespace Cypher.MatchWrite

section External

variable (ext : External) (arith : FloatArithmetic) (matchesRegex : String → String → Bool)

/-- A write acts on the rows that the query of its matching part returns in the same state. -/
def ActsOnMatched (server : QueryServer) (statement : MatchWrite) (graph : Option String)
    (cypher userId txId : String) : Prop :=
  ∀ tx target drawn debug, server.writeTx txId = some tx → SameRows statement.matchVars
    ((statement.write ext matchesRegex userId (callerAccess ext server.graphAccess userId) graph target
      server.prefixes drawn debug).actedRows server.store server.now tx)
    (server.cypherQuery ext arith matchesRegex (statement.compiler ext graph server.prefixes)
      (.plain cypher userId txId))

/-- What the matching part compiles to under the names of a store. -/
def made (server : QueryServer) (statement : MatchWrite) : CompiledMatch :=
  statement.matchQuery.compileMatch ext server.store.vocabulary server.prefixes

/-- A write leaves out nothing that a query does. -/
structure LeavesNothingOut (server : QueryServer) (statement : MatchWrite) (graph : Option String)
    (userId : String) : Prop where
  /-- The names of the statement mean the same in the store as in a new one. -/
  names : statement.matchQuery.compileMatch ext Vocabulary.default (fun _ => none) =
    statement.made ext server
  /-- No relationship stands for paths of any length. -/
  rules : (statement.made ext server).rules = []
  /-- There is no vector search. -/
  vectorNear : (statement.made ext server).vectorNear = none
  /-- There are no conditions on relationships. -/
  edges : (statement.made ext server).edgeAnnotationFilters = []
  /-- There are no parameters. -/
  literals : ∀ filter ∈ (statement.made ext server).valueFilters,
    ∃ value, filter.value = .literal value
  /-- The rows of the caller are not confined to the nodes of its groups. -/
  access : server.getAccessFilter userId = none
  /-- In every graph, no type is required of the ends of a predicate; in one, nothing else is read. -/
  place : match graph with
    | none => ∀ vp ∈ (statement.made ext server).patterns, ∀ predicate definition,
        vp.predicate = some predicate → server.registry.getEdgeType server.store.vocabulary
          server.prefixes predicate = some definition →
            definition.domain = none ∧ definition.range = none
    | some _ => (statement.made ext server).valueFilters = [] ∧
        (statement.made ext server).textFilters = [] ∧
          ∀ vp ∈ (statement.made ext server).patterns, vp.maxHops = none

end External

end Cypher.MatchWrite

namespace Snapshot

variable {ext : External} {snapshot other : Snapshot}

/-- Patterns that are matched alike in every solution are evaluated alike. -/
theorem evaluateSolutions_congr {bindValues : Bool}
    {scan scan' : Pattern → Except StorageError (List Triple)} {patterns : List VarPattern}
    (same : ∀ vp ∈ patterns, ∀ sol, other.matchOne ext bindValues scan' vp sol =
      snapshot.matchOne ext bindValues scan vp sol) (solutions : List Solution) :
    other.evaluateSolutions ext bindValues scan' patterns solutions =
      snapshot.evaluateSolutions ext bindValues scan patterns solutions := by
  induction patterns generalizing solutions with
  | nil => cases solutions <;> rfl
  | cons vp rest ih =>
    obtain ⟨own, others⟩ := List.forall_mem_cons.mp same
    cases solutions with
    | nil => rfl
    | cons first more =>
      have matched : other.matchOne ext bindValues scan' vp =
          snapshot.matchOne ext bindValues scan vp := funext own
      simp only [evaluateSolutions, matched, ih others]

/-- Without a required type, the registry changes no match of a pattern. -/
theorem matchOne_unconstrained {bindValues : Bool} {registry : EdgeTypeRegistry} {vp : VarPattern}
    (free : ∀ predicate definition, vp.predicate = some predicate →
      registry.getEdgeType snapshot.store.vocabulary snapshot.prefixes predicate = some definition →
        definition.domain = none ∧ definition.range = none)
    (named : vp.predicateVar = none) (sol : Solution) :
    snapshot.matchOne ext bindValues (snapshot.evaluateWithRegistry ext (some registry)) vp sol =
      snapshot.matchOne ext bindValues (snapshot.evaluateWithRegistry ext none) vp sol := by
  have scan : snapshot.evaluateWithRegistry ext (some registry) (substitute ext vp sol) =
      snapshot.evaluateWithRegistry ext none (substitute ext vp sol) := by
    have predicate : (substitute ext vp sol).predicate = vp.predicate := by
      simp [substitute, named]
    unfold evaluateWithRegistry
    simp only [Option.bind_some, Option.bind_none, predicate]
    cases known : vp.predicate with
    | none => rfl
    | some name =>
      simp only [Option.bind_some]
      cases typed : registry.getEdgeType snapshot.store.vocabulary snapshot.prefixes name with
      | none => rfl
      | some definition =>
        obtain ⟨domain, range⟩ := free name definition known typed
        simp only [domain, range, slotHasType]
        rfl
  unfold matchOne
  cases vp.maxHops with
  | some hops => rfl
  | none =>
    simp only [matchPattern, scan]

/-- A pattern of one graph is matched alike by readers that may see the same of that graph. -/
theorem matchOne_within {bindValues : Bool} {scan scan' : Pattern → Except StorageError (List Triple)}
    {vp : VarPattern} {iri : String} (place : vp.graph = .iri iri) (short : vp.maxHops = none)
    {point : ReadAt} (time : point.ts = snapshot.point.ts) (valid : point.vtAsOf = snapshot.point.vtAsOf)
    (same : ∀ g, snapshot.store.graphId iri = some g → point.canRead g = snapshot.point.canRead g)
    (sol : Solution) :
    Snapshot.matchOne ext { snapshot with point := point } bindValues scan' vp sol =
      snapshot.matchOne ext bindValues scan vp sol := by
  have within : ∀ pattern scope, (∀ g, scope.admits g = true → snapshot.store.graphId iri = some g) →
      Snapshot.scanScoped ext { snapshot with point := point } pattern scope =
        snapshot.scanScoped ext pattern scope := by
    intro pattern scope admits
    exact TripleStore.scanScopedAt_readers time valid fun g own => same g (admits g own)
  unfold matchOne
  simp only [short, matchPattern, place, graphScope]
  cases known : snapshot.store.graphId iri with
  | none =>
    -- A graph that does not exist has nothing in scope.
    have none_ : ∀ g, (GraphScope.ofGraphs []).admits g = true →
        snapshot.store.graphId iri = some g := by
      intro g admits
      cases admits
    simp only [within _ _ none_]
    rfl
  | some g =>
    have one : ∀ other, (GraphScope.one g).admits other = true →
        snapshot.store.graphId iri = some other := by
      intro other admits
      rw [known, of_decide_eq_true admits]
    simp only [within _ _ one]
    rfl

end Snapshot

/-- What a row binds some variables to is what its answer binds them to. -/
theorem lookup_answer (vars : List String) (row : Bindings) {name : String} (member : name ∈ vars) :
    (vars.filterMap (fun v => (row.lookup v).map (fun node => (v, node)))).lookup name =
      row.lookup name := by
  induction vars with
  | nil => cases member
  | cons first rest ih =>
    cases held : row.lookup first with
    | none =>
      rw [List.filterMap_cons_none (by rw [held]; rfl)]
      -- An unbound variable is not looked up in vain: it has no entry at all.
      by_cases later : name ∈ rest
      · exact ih later
      · obtain rfl := (List.mem_cons.mp member).resolve_right later
        rw [held, List.lookup_eq_none_iff]
        intro entry found
        obtain ⟨other, _, made⟩ := List.mem_filterMap.mp found
        obtain ⟨node, _, rfl⟩ := Option.map_eq_some_iff.mp made
        simp only [bne_iff_ne]
        rintro rfl
        simp_all
    | some node =>
      rw [List.filterMap_cons_some (by rw [held]; rfl), List.lookup_cons]
      by_cases own : name = first
      · rw [own, held]
        simp
      · rw [beq_false_of_ne own]
        exact ih ((List.mem_cons.mp member).resolve_left own)

/-- Filters that do not exist keep every row. -/
theorem keepPassing_nil {φ : Type} (check : φ → Bindings → Except StorageError Bool)
    (rows : List Bindings) : keepPassing check [] rows = .ok rows := by
  induction rows with
  | nil => rfl
  | cons row rest ih =>
    rw [keepPassing, ih]
    rfl

/-- A query without parameters is its own instance. -/
theorem CompiledQuery.substituteParams_literals {compiled : CompiledQuery}
    (literals : ∀ filter ∈ compiled.valueFilters, ∃ value, filter.value = .literal value)
    (params : List (String × Value)) : compiled.substituteParams params = .ok compiled := by
  have kept : ∀ filters : List ValueFilter, (∀ filter ∈ filters, ∃ value,
      filter.value = .literal value) → filters.mapM (substituteParam params) = .ok filters := by
    intro filters
    induction filters with
    | nil => exact fun _ => rfl
    | cons filter rest ih =>
      intro all
      obtain ⟨⟨value, own⟩, others⟩ := List.forall_mem_cons.mp all
      rw [List.mapM_cons, ih others, substituteParam, own]
      rfl
  unfold substituteParams
  rw [kept _ literals]
  rfl

namespace Cypher.MatchWrite

variable {ext : External} {arith : FloatArithmetic} {matchesRegex : String → String → Bool}
  {server : QueryServer} {statement : MatchWrite} {graph : Option String} {userId : String}

/-- What is evaluated for a compiled match in a graph. -/
def scopedPatterns (made : CompiledMatch) (graph : Option String) : List VarPattern :=
  graph.elim made.patterns fun iri =>
    made.patterns.map (scopeToGraph (made.rules.map Rule.headPredicate) (.iri iri))

/-- The parts of a compiled match that a query evaluates and filters by. -/
structure Carries (compiled : CompiledQuery) (made : CompiledMatch) (graph : Option String) :
    Prop where
  /-- The patterns. -/
  query : compiled.query = scopedPatterns made graph
  /-- The rules, of which there are as many. -/
  rules : compiled.rules.isEmpty = made.rules.isEmpty
  /-- Filters on property values. -/
  valueFilters : compiled.valueFilters = made.valueFilters
  /-- Filters on texts. -/
  textFilters : compiled.textFilters = made.textFilters
  /-- The vector search. -/
  vectorNear : compiled.vectorNear = made.vectorNear
  /-- Filters on edge annotations. -/
  edgeAnnotationFilters : compiled.edgeAnnotationFilters = made.edgeAnnotationFilters

/-- The compiled matching part of a write carries the match under the names of a new store. -/
theorem carries_compiled (graph : Option String) : Carries (statement.compiled ext graph)
    (statement.matchQuery.compileMatch ext Vocabulary.default (fun _ => none)) graph := by
  cases graph with
  | none => exact ⟨rfl, rfl, rfl, rfl, rfl, rfl⟩
  | some iri => exact ⟨rfl, List.isEmpty_map, rfl, rfl, rfl, rfl⟩

/-- The compiled query carries the match under the names of the store. -/
theorem carries_returning (graph : Option String) :
    Carries ((statement.returning graph).compileWithVocabulary ext server.store.vocabulary
      server.prefixes) (statement.made ext server) graph := by
  cases graph with
  | none => exact ⟨rfl, rfl, rfl, rfl, rfl, rfl⟩
  | some iri => exact ⟨rfl, List.isEmpty_map, rfl, rfl, rfl, rfl⟩

/-- The query that returns the variables of a match aggregates, sorts, skips and limits nothing. -/
theorem plain_returning (graph : Option String) (vocabulary : Vocabulary)
    (prefixes : String → Option String) :
    let compiled := (statement.returning graph).compileWithVocabulary ext vocabulary prefixes
    compiled.returnVars = statement.matchVars ∧ compiled.propProjections = [] ∧
      compiled.aggregations = [] ∧ compiled.orderBy = [] ∧ compiled.skip = none ∧
        compiled.limit = none := by
  have returned : ∀ (vars : List String) (name : ReturnItem → Option String),
      (∀ var, name (.var var) = some var) → (vars.map ReturnItem.var).filterMap name = vars := by
    intro vars name own
    rw [List.filterMap_map, show name ∘ ReturnItem.var = some from funext own]
    exact List.filterMap_some
  have nothing : ∀ {β : Type} (vars : List String) (item : ReturnItem → Option β),
      (∀ var, item (.var var) = none) → (vars.map ReturnItem.var).filterMap item = [] := by
    intro β vars item other
    rw [List.filterMap_map]
    exact List.filterMap_eq_nil_iff.mpr fun var _ => other var
  have kept : ∀ (item : ReturnItem → Option (String × String)) (keep : String × String → Bool),
      (∀ var, item (.var var) = none) →
        ((statement.matchVars.map ReturnItem.var).filterMap item).filter keep = [] := by
    intro item keep other
    rw [nothing _ item other]
    rfl
  cases graph with
  | none =>
    exact ⟨returned _ _ fun _ => rfl, kept _ _ fun _ => rfl, nothing _ _ fun _ => rfl, rfl, rfl, rfl⟩
  | some iri =>
    exact ⟨returned _ _ fun _ => rfl, kept _ _ fun _ => rfl, nothing _ _ fun _ => rfl, rfl, rfl, rfl⟩

/-- The answer for a row binds the variables of the match as the row does. -/
theorem valuesOf_projectRow {compiled : CompiledQuery} {snapshot : Snapshot}
    {vars : List String} (returned : compiled.returnVars = vars)
    (props : compiled.propProjections = []) (row : Bindings) :
    valuesOf vars (server.projectRow ext compiled snapshot ⟨row, []⟩).nodes = valuesOf vars row := by
  unfold QueryServer.projectRow valuesOf
  simp only [returned, props, List.isEmpty_nil, Bool.and_true]
  apply List.map_congr_left
  intro name member
  split
  · rfl
  · exact lookup_answer vars row member

/-- The patterns of a query are evaluated as those of the write are. -/
theorem executeQuery_returning (nothing : LeavesNothingOut ext server statement graph userId)
    (named : graph ≠ some "") {start : Snapshot} (stored : start.store = server.store)
    (prefixed : start.prefixes = server.prefixes) :
    (server.cypherSnapshotScope (statement.compiler ext graph server.prefixes) start "" []).executeQuery
        ext (scopedPatterns (statement.made ext server) graph) (some server.registry) =
      start.executeQuery ext (scopedPatterns (statement.made ext server) graph) none := by
  have unscoped := statement.matchQuery.unscoped_compileMatch ext server.store.vocabulary
    server.prefixes
  have place := nothing.place
  unfold Snapshot.executeQuery Snapshot.executeQuerySeeded
  cases graph with
  | none =>
    -- The snapshot is the same, and the registry requires no types.
    have scope : server.cypherSnapshotScope (statement.compiler ext none server.prefixes) start "" [] =
        start := rfl
    have matched : ∀ vp ∈ scopedPatterns (statement.made ext server) none, ∀ sol,
        start.matchOne ext false (start.evaluateWithRegistry ext (some server.registry)) vp sol =
          start.matchOne ext false (start.evaluateWithRegistry ext none) vp sol := by
      intro vp member sol
      refine Snapshot.matchOne_unconstrained (fun predicate definition own typed => ?_)
        (unscoped vp member).2 sol
      rw [stored, prefixed] at typed
      exact place vp member predicate definition own typed
    rw [scope, Snapshot.evaluateSolutions_congr matched]
  | some iri =>
    have scope : server.cypherSnapshotScope (statement.compiler ext (some iri) server.prefixes) start
        "" [] = { start with point := start.point.withinGraphs (server.cypherGraphs [iri]) } := rfl
    rw [scope]
    have matched : ∀ vp ∈ scopedPatterns (statement.made ext server) (some iri), ∀ sol,
        Snapshot.matchOne ext { start with
            point := start.point.withinGraphs (server.cypherGraphs [iri]) } false
          (Snapshot.evaluateWithRegistry ext { start with
            point := start.point.withinGraphs (server.cypherGraphs [iri]) } (some server.registry))
          vp sol =
        start.matchOne ext false (start.evaluateWithRegistry ext none) vp sol := by
      intro vp member sol
      obtain ⟨own, within, rfl⟩ := List.mem_map.mp member
      -- Every pattern is moved to the graph, since nothing is derived.
      have moved : scopeToGraph ((statement.made ext server).rules.map Rule.headPredicate) (.iri iri)
          own = { own with graph := .iri iri } := by
        have union := (unscoped own within).1
        rw [nothing.rules]
        unfold scopeToGraph
        cases own.predicate <;> simp [union]
      rw [moved]
      refine @Snapshot.matchOne_within ext start false _ _ { own with graph := .iri iri } iri rfl
        (place.2.2 own within) (start.point.withinGraphs (server.cypherGraphs [iri])) rfl rfl
        (fun g known => ?_) sol
      rw [stored] at known
      have listed : server.cypherGraphs [iri] = [g] := by
        have absolute : iri ≠ "" := fun blank => named (congrArg some blank)
        simp [QueryServer.cypherGraphs, absolute, known]
      rw [listed]
      unfold ReadAt.withinGraphs ReadAt.canRead
      cases start.point.readable with
      | none => simp
      | some readable => simp [List.contains_eq_mem]
    rw [Snapshot.evaluateSolutions_congr matched]

/-- A write that leaves nothing out acts on the rows that the query of its matching part returns. -/
theorem actsOnMatched_of_leavesNothingOut (named : graph ≠ some "") {cypher txId : String}
    (text : cypher ≠ "") (nothing : LeavesNothingOut ext server statement graph userId) :
    ActsOnMatched ext arith matchesRegex server statement graph cypher userId txId := by
  intro tx target drawn debug opened
  have own := @carries_compiled ext statement graph
  rw [nothing.names] at own
  have other := @carries_returning ext server statement graph
  obtain ⟨returned, props, aggregates, order, skip, limit⟩ :=
    @plain_returning ext statement graph server.store.vocabulary server.prefixes
  -- Both read the same state.
  have read : server.cypherReadAt (.plain cypher userId txId)
      (callerAccess ext server.graphAccess userId) =
        .ok (server.snapshotFor tx.readTs (callerAccess ext server.graphAccess userId)) := by
    unfold QueryServer.writeTx at opened
    unfold QueryServer.cypherReadAt
    by_cases alone : txId = ""
    · rw [if_pos alone] at opened
      obtain rfl := Option.some.inj opened
      simp [CypherQueryRequest.plain, alone, QueryServer.snapshotAt]
    · rw [if_neg alone] at opened
      simp [CypherQueryRequest.plain, alone, opened]
  have compiles : server.compileRequest (statement.compiler ext graph server.prefixes)
      (.plain cypher userId txId) =
        .ok ((statement.returning graph).compileWithVocabulary ext server.store.vocabulary
          server.prefixes) := by
    unfold QueryServer.compileRequest
    have literals := CompiledQuery.substituteParams_literals
      (other.valueFilters ▸ nothing.literals) []
    simp only [compiler, CypherQueryRequest.plain, Except.mapError, bind, Except.bind, literals]
    rfl
  generalize (statement.returning graph).compileWithVocabulary ext server.store.vocabulary
    server.prefixes = compiled at other returned props aggregates order skip limit compiles
  generalize at_ : server.snapshotFor tx.readTs (callerAccess ext server.graphAccess userId) = start
    at read
  have stored : start.store = server.store := at_ ▸ rfl
  have prefixed : start.prefixes = server.prefixes := at_ ▸ rfl
  have evaluated := executeQuery_returning nothing named stored prefixed
  generalize scope : server.cypherSnapshotScope (statement.compiler ext graph server.prefixes) start
    "" [] = snapshot at evaluated
  have answered : server.cypherQuery ext arith matchesRegex (statement.compiler ext graph server.prefixes)
      (.plain cypher userId txId) = some (server.finishCypher ext arith matchesRegex
        (.plain cypher userId txId) compiled snapshot
        (storageErrToStatus (start.executeQuery ext compiled.query none))) := by
    unfold QueryServer.cypherQuery
    rw [if_neg (show ¬ (CypherQueryRequest.plain cypher userId txId).cypher = "" from text)]
    have reads : (statement.compiler ext graph server.prefixes).isWriteStatement
      (CypherQueryRequest.plain cypher userId txId).cypher = false := rfl
    have confined : server.cypherSnapshot (statement.compiler ext graph server.prefixes)
        (.plain cypher userId txId) start = snapshot := scope
    have free : compiled.rules.isEmpty = true := by
      rw [other.rules, nothing.rules]
      rfl
    simp only [reads, Bool.false_eq_true, if_false, compiles]
    rw [show (CypherQueryRequest.plain cypher userId txId).userId = userId from rfl, read]
    simp only [confined, QueryServer.cypherMatch, other.vectorNear, nothing.vectorNear, free, if_true,
      Option.map_some, other.query, evaluated]
  rw [answered]
  have acted : (statement.write ext matchesRegex userId (callerAccess ext server.graphAccess userId)
      graph target server.prefixes drawn debug).actedRows server.store server.now tx =
        statement.rows ext matchesRegex graph start.prefixes start.store start.point start.now := by
    rw [← at_]
    rfl
  rw [acted]
  unfold rows
  simp only [own.query, own.valueFilters, own.textFilters]
  rw [show (Snapshot.mk start.store start.point start.now start.prefixes) = start from rfl,
    ← other.query]
  cases start.executeQuery ext compiled.query none with
  | error problem => exact trivial
  | ok raw =>
    -- Both filter alike: in every graph they read the same, in one graph there are no filters.
    have filtered : snapshot.applyFilters ext matchesRegex compiled raw = (do
        let rows ← keepPassing (start.passesValue ext) (statement.made ext server).valueFilters raw
        keepPassing (start.passesText ext matchesRegex) (statement.made ext server).textFilters
          rows) := by
      have place := nothing.place
      unfold Snapshot.applyFilters
      simp only [other.valueFilters, other.textFilters, other.edgeAnnotationFilters, nothing.edges,
        keepPassing_nil]
      cases graph with
      | none =>
        obtain rfl : start = snapshot := scope
        cases keepPassing (start.passesValue ext) (statement.made ext server).valueFilters raw with
        | error problem => rfl
        | ok rows =>
          simp only [bind, Except.bind]
          cases keepPassing (start.passesText ext matchesRegex)
              (statement.made ext server).textFilters rows <;> rfl
      | some iri =>
        rw [place.1, place.2.1]
        simp only [keepPassing_nil]
        rfl
    dsimp only
    rw [← filtered]
    unfold QueryServer.finishCypher
    simp only [storageErrToStatus, bind, Except.bind,
      show (CypherQueryRequest.plain cypher userId txId).userId = userId from rfl, nothing.access,
      QueryServer.filterBindings]
    cases snapshot.applyFilters ext matchesRegex compiled raw with
    | error problem => exact trivial
    | ok rows =>
      simp only [applyAggregations, aggregates, order, skip, limit, applyOrderSkipLimit,
        List.isEmpty_nil, if_true, Option.getD_none, List.drop_zero, List.map_map]
      refine List.Perm.of_eq ?_
      rw [List.map_map]
      apply List.map_congr_left
      intro row _
      exact (valuesOf_projectRow returned props row).symm

open QueryServer (answering acquaintedStore readerText noArithmetic)

/-- The node of a variable. -/
def nodeOf (name : String) : NodePat := ⟨some name, none, []⟩

/-- `MATCH (a)-[:<urn:knows>]->(b) DELETE a`. -/
def deleteKnowing : MatchWrite :=
  ⟨[⟨nodeOf "a", [⟨⟨none, "urn:knows", false, none⟩, .out, nodeOf "b"⟩]⟩], [], [.delete ["a"]], none,
    by decide⟩

/-- `MATCH (a)-[r:<urn:knows>]->(b) WHERE r.<urn:since> = 1 DELETE a`. -/
def deleteSince : MatchWrite :=
  ⟨[⟨nodeOf "a", [⟨⟨some "r", "urn:knows", false, none⟩, .out, nodeOf "b"⟩]⟩],
    [.propertyEq "r" "urn:since" (.int 1)], [.delete ["a"]], none, by decide⟩

/-- `MATCH (a)-[:<urn:knows>*]->(b) DELETE a`. -/
def deleteReaching : MatchWrite :=
  ⟨[⟨nodeOf "a", [⟨⟨none, "urn:knows", true, none⟩, .out, nodeOf "b"⟩]⟩], [], [.delete ["a"]], none,
    by decide⟩

/-- A write that matches one relationship acts on the rows that its query returns. -/
theorem deleteKnowing_actsOnMatched :
    ActsOnMatched readerText noArithmetic (fun _ _ => false) (answering acquaintedStore) deleteKnowing
      none "MATCH (a)-[:<urn:knows>]->(b) RETURN a, b" "" "" := by
  refine actsOnMatched_of_leavesNothingOut (by decide) (by decide) ?_
  exact {
    names := rfl
    rules := rfl
    vectorNear := rfl
    edges := rfl
    literals := by
      intro filter member
      cases member
    access := rfl
    place := by
      intro vp member predicate definition own typed
      cases typed }

/-- Neither a condition on a relationship nor a path of any length is matched by a write. -/
theorem matched_otherwise :
    ¬ ActsOnMatched readerText noArithmetic (fun _ _ => false) (answering acquaintedStore) deleteSince
      none "MATCH (a)-[r:<urn:knows>]->(b) WHERE r.<urn:since> = 1 RETURN a, r, b" "" "" ∧
    ¬ ActsOnMatched readerText noArithmetic (fun _ _ => false) (answering acquaintedStore)
      deleteReaching none "MATCH (a)-[:<urn:knows>*]->(b) RETURN a, b" "" "" := by
  have counts : ∀ {vars acted answered} (few many : Nat), SameRows vars acted answered →
      acted.toOption.map List.length = some many →
      answered.bind (fun outcome => outcome.toOption.map List.length) = some few → few = many := by
    intro vars acted answered few many same writes reads
    cases acted with
    | error refused => cases writes
    | ok rows =>
      cases answered with
      | none => cases reads
      | some outcome =>
        cases outcome with
        | error refused => cases reads
        | ok answers =>
          cases writes
          cases reads
          simpa using same.length_eq.symm
  constructor
  · intro acts
    have same := acts _ none (fun _ => (NodeId.ofByte 30).uuid) (fun _ => "") rfl
    exact absurd (counts 0 1 same (by decide +kernel) (by decide +kernel)) (by decide)
  · intro acts
    have same := acts _ none (fun _ => (NodeId.ofByte 30).uuid) (fun _ => "") rfl
    exact absurd (counts 1 0 same (by decide +kernel) (by decide +kernel)) (by decide)

end Cypher.MatchWrite

end Polargraph
