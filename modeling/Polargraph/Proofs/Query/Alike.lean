import Polargraph.Query.Cypher

/-! Queries over snapshots whose scans agree have the same answers. -/

namespace Polargraph

namespace Snapshot

/-- Two snapshots whose scans, names and clocks agree. -/
structure Alike (ext : External) (left right : Snapshot) : Prop where
  /-- The clock. -/
  now : left.now = right.now
  /-- The namespaces of the declared prefixes. -/
  prefixes : left.prefixes = right.prefixes
  /-- The vocabulary. -/
  vocabulary : left.store.vocabulary = right.store.vocabulary
  /-- The graphs of IRIs. -/
  graphId : ∀ iri, left.store.graphId iri = right.store.graphId iri
  /-- The graphs of nodes. -/
  graphForNode : ∀ node, left.store.graphForNode ext node = right.store.graphForNode ext node
  /-- The nodes of graphs. -/
  graphNode : ∀ g, left.store.graphNode ext g = right.store.graphNode ext g
  /-- Scans of a subject and a predicate. -/
  bySubjectPredicate : ∀ subject predicate, left.scanBySubjectPredicate ext subject predicate =
    right.scanBySubjectPredicate ext subject predicate
  /-- Scans of a predicate. -/
  byPredicate : ∀ predicate, left.scanByPredicate ext predicate = right.scanByPredicate ext predicate
  /-- Scans within a scope. -/
  inScope : ∀ pattern scope, left.scanScoped ext pattern scope = right.scanScoped ext pattern scope
  /-- The scans of an index. -/
  execute : ∀ choice, left.execute ext choice = right.execute ext choice
  /-- The annotations of edges. -/
  annotations : ∀ edge,
    left.store.scanEdgeAnnotationsWith ext edge left.point.ts left.point.readable =
      right.store.scanEdgeAnnotationsWith ext edge right.point.ts right.point.readable

variable {ext : External} {left right : Snapshot}

namespace Alike

/-- A pattern has the same matches. -/
theorem evaluate (alike : Alike ext left right) : left.evaluate ext = right.evaluate ext :=
  funext fun _ => alike.execute _

/-- A slot has its type in both, or in neither. -/
theorem slotHasType (alike : Alike ext left right) (expected : Option String)
    (slot : Option NodeId) : left.slotHasType ext expected slot = right.slotHasType ext expected slot := by
  cases expected with
  | none => rfl
  | some name =>
    cases slot with
    | none => rfl
    | some node =>
      simp only [Snapshot.slotHasType, nodeHasType, classNode, alike.bySubjectPredicate,
        alike.vocabulary, alike.prefixes]
      rfl

/-- A pattern has the same matches when bound slots are checked for their types. -/
theorem evaluateWithRegistry (alike : Alike ext left right) (registry : Option EdgeTypeRegistry) :
    left.evaluateWithRegistry ext registry = right.evaluateWithRegistry ext registry := by
  funext pattern
  simp only [Snapshot.evaluateWithRegistry, alike.vocabulary, alike.prefixes, alike.slotHasType,
    alike.evaluate]

/-- The graphs a pattern is matched in are the same. -/
theorem graphScope (alike : Alike ext left right) (sol : Solution) (graph : Datalog.GraphTerm) :
    left.graphScope ext sol graph = right.graphScope ext sol graph := by
  cases graph with
  | union | default | bound => rfl
  | iri iri => simp only [Snapshot.graphScope, alike.graphId]
  | var name => simp only [Snapshot.graphScope, alike.graphForNode]
  | set graphs => rfl

/-- A match extends a solution in the same way. -/
theorem extendQuad (alike : Alike ext left right) :
    left.extendQuad ext = right.extendQuad ext := by
  funext vp bindValues sol quad
  simp only [Snapshot.extendQuad, alike.graphNode]

/-- A pattern extends a solution in the same ways. -/
theorem matchPattern (alike : Alike ext left right) :
    left.matchPattern ext = right.matchPattern ext := by
  funext vp bindValues scan sol
  simp only [Snapshot.matchPattern, alike.graphScope, alike.inScope, alike.extendQuad]

/-- The same nodes are visited. -/
theorem visitHops (alike : Alike ext left right) (predicate : String) (hops : Nat) :
    left.visitHops ext predicate hops = right.visitHops ext predicate hops := by
  have visit : left.visitNode ext predicate = right.visitNode ext predicate := by
    funext state node
    simp only [visitNode, alike.bySubjectPredicate]
  induction hops with
  | zero => rfl
  | succ hops ih =>
    funext visited frontier
    simp only [Snapshot.visitHops, visit, ih]

/-- A pattern of paths extends a solution in the same ways. -/
theorem matchPath (alike : Alike ext left right) : left.matchPath ext = right.matchPath ext := by
  funext vp hops sol
  have starts : left.pathStarts ext = right.pathStarts ext := by
    funext predicate start
    simp only [pathStarts, alike.byPredicate]
  have paths : left.pathsFrom ext = right.pathsFrom ext := by
    funext vp predicate hops sol start
    simp only [pathsFrom, reachableFromHops, alike.visitHops]
  simp only [Snapshot.matchPath, starts, paths]

/-- Patterns have the same solutions. -/
theorem evaluateSolutions (alike : Alike ext left right) (bindValues : Bool)
    (scan : Pattern → Except StorageError (List Triple)) :
    left.evaluateSolutions ext bindValues scan = right.evaluateSolutions ext bindValues scan := by
  have one : left.matchOne ext = right.matchOne ext := by
    funext bindValues scan vp sol
    simp only [matchOne, alike.matchPath, alike.matchPattern]
  funext patterns
  induction patterns with
  | nil => funext solutions; cases solutions <;> rfl
  | cons vp rest ih =>
    funext solutions
    cases solutions with
    | nil => rfl
    | cons first others => simp only [Snapshot.evaluateSolutions, one, ih]

/-- A query that starts from some bindings has the same answers. -/
theorem executeQuerySeeded (alike : Alike ext left right) :
    left.executeQuerySeeded ext = right.executeQuerySeeded ext := by
  funext query initial registry
  simp only [Snapshot.executeQuerySeeded, alike.evaluateWithRegistry, alike.evaluateSolutions]

/-- A query has the same answers. -/
theorem executeQuery (alike : Alike ext left right) :
    left.executeQuery ext = right.executeQuery ext := by
  funext query registry
  simp only [Snapshot.executeQuery, alike.executeQuerySeeded]

/-- A pattern has the same matches among stored and derived facts. -/
theorem evaluateHybrid (alike : Alike ext left right) (edges : NodeId × NodeId → EdgeId) :
    left.evaluateHybrid ext edges = right.evaluateHybrid ext edges := by
  funext derived pattern
  simp only [Snapshot.evaluateHybrid, alike.evaluate, alike.now]

/-- A query over stored and derived facts has the same answers. -/
theorem executeQueryHybrid (alike : Alike ext left right) (edges : NodeId × NodeId → EdgeId) :
    left.executeQueryHybrid ext edges = right.executeQueryHybrid ext edges := by
  funext query derived
  simp only [Snapshot.executeQueryHybrid, alike.evaluateHybrid, alike.evaluateSolutions]

/-- Rules derive the same facts. -/
theorem executeRecursive (alike : Alike ext left right) (edges : NodeId × NodeId → EdgeId)
    (rules : List Rule) (rounds : Nat) :
    left.executeRecursive ext edges rules rounds = right.executeRecursive ext edges rules rounds := by
  have apply_ : left.applyRule ext edges = right.applyRule ext edges := by
    funext state rule
    simp only [applyRule, executeQueryHybridFull, alike.evaluateHybrid, alike.evaluateSolutions]
  induction rounds with
  | zero => rfl
  | succ rounds ih =>
    funext derived
    simp only [Snapshot.executeRecursive, apply_, ih]

/-- The same rows pass the filters of a query. -/
theorem applyFilters (alike : Alike ext left right) (matchesRegex : String → String → Bool) :
    left.applyFilters ext matchesRegex = right.applyFilters ext matchesRegex := by
  have values : left.passesValue ext = right.passesValue ext := by
    funext filter binding
    simp only [passesValue, alike.bySubjectPredicate]
  have texts : left.passesText ext matchesRegex = right.passesText ext matchesRegex := by
    funext filter binding
    simp only [passesText, alike.bySubjectPredicate]
  have edges : left.passesEdgeAnnotation ext = right.passesEdgeAnnotation ext := by
    funext filter binding
    simp only [ passesEdgeAnnotation, alike.annotations, alike.vocabulary]
  funext compiled rows
  simp only [Snapshot.applyFilters, values, texts, edges]

/-- Rows are aggregated to the same values. -/
theorem applyAggregations (alike : Alike ext left right) (arith : FloatArithmetic) :
    applyAggregations ext arith left = applyAggregations ext arith right := by
  have numbers : extractNumericValues ext arith left = extractNumericValues ext arith right := by
    funext group var prop
    simp only [extractNumericValues, alike.bySubjectPredicate, alike.vocabulary, alike.prefixes]
  have aggregate : computeAgg ext arith left = computeAgg ext arith right := by
    funext group func
    cases func <;> simp only [computeAgg, numbers]
  funext rows keys specs orderBy skip limit
  simp only [Polargraph.applyAggregations, aggregate]

end Alike

end Snapshot

end Polargraph
