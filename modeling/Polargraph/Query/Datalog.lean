import Polargraph.Query.Eval
import Polargraph.Server.DeleteTriples
import Polargraph.Server.GraphAcl

/-! Conjunctive queries over a snapshot, bounded paths, and rules run to a fixed point. -/

namespace Polargraph

/-- A slot of a pattern. -/
inductive Term where
  /-- A known node. -/
  | bound (node : NodeId)
  /-- A named variable. -/
  | var (name : String)
  /-- Anything. -/
  | any
  /-- A parameter that was not substituted, which matches anything. -/
  | param (name : String)
  /-- A literal value, which only a property matches. -/
  | literal (value : Value)
deriving DecidableEq

/-- The graph slot of a pattern. -/
inductive Datalog.GraphTerm where
  /-- Every graph, each triple once. -/
  | union
  /-- Only the default graph. -/
  | default
  /-- One named graph. -/
  | bound (g : GraphId)
  /-- One named graph by its IRI. -/
  | iri (iri : String)
  /-- A variable for the graph of each match. -/
  | var (name : String)
  /-- A dataset of graphs. -/
  | set (graphs : List GraphId)
deriving DecidableEq

/-- A triple pattern whose slots can be variables. -/
structure VarPattern where
  /-- The subject. -/
  subject : Term
  /-- The predicate, or any. -/
  predicate : Option String
  /-- The variable that receives the predicate of a match. -/
  predicateVar : Option String
  /-- The object. -/
  object : Term
  /-- The variable that receives the edge of a match. -/
  edgeVar : Option String
  /-- The length of the paths to follow, for a pattern of paths. -/
  maxHops : Option Nat
  /-- The graphs to match in. -/
  graph : Datalog.GraphTerm
deriving DecidableEq

/-- One solution of a query. -/
structure Solution where
  /-- The nodes of variables. -/
  nodes : List (String × NodeId)
  /-- The predicates of variables. -/
  preds : List (String × String)
  /-- The property values of variables. -/
  values : List (String × Value)
deriving DecidableEq

/-- A rule whose head relates two variables of its body. -/
structure Rule where
  /-- The predicate the rule derives. -/
  headPredicate : String
  /-- The variable of the head's subject. -/
  headSubjectVar : String
  /-- The variable of the head's object. -/
  headObjectVar : String
  /-- The patterns that must hold together. -/
  body : List VarPattern

/-- The pairs derived for each predicate. -/
abbrev DerivedFacts := List (String × List (NodeId × NodeId))

namespace Solution

/-- The solution that binds nothing. -/
def empty : Solution := ⟨[], [], []⟩

/-- A solution that binds nodes only. -/
def fromNodes (nodes : Bindings) : Solution := ⟨nodes, [], []⟩

/-- Bind a variable to a node, or check that it is bound to it. -/
def bindVar (sol : Solution) (name : String) (node : NodeId) : Option Solution :=
  -- A variable that holds a value is no node.
  if (sol.values.lookup name).isSome then none
  else match sol.nodes.lookup name with
    | some held => if held = node then some sol else none
    | none => some { sol with nodes := (name, node) :: sol.nodes }

/-- Bind a term to a node; a literal is never a node. -/
def bindNode (sol : Solution) : Term → NodeId → Option Solution
  | .any, _ => some sol
  | .bound _, _ => some sol
  | .param _, _ => some sol
  | .literal _, _ => none
  | .var name, node => sol.bindVar name node

/-- Bind a variable to a property value, or check that it is bound to an equal one. -/
def bindValue (sol : Solution) (name : String) (value : Value) : Option Solution :=
  if (sol.nodes.lookup name).isSome then none
  else match sol.values.lookup name with
    | some held => if held.same value then some sol else none
    | none => some { sol with values := (name, value) :: sol.values }

/-- Bind a variable to a predicate, or check that it is bound to it. -/
def bindPred (sol : Solution) (name predicate : String) : Option Solution :=
  match sol.preds.lookup name with
  | some held => if held = predicate then some sol else none
  | none => some { sol with preds := (name, predicate) :: sol.preds }

end Solution

/-- Whether a property value can be bound to a variable. -/
def bindable : Value → Bool
  | .vector _ => false
  | _ => true

/-- Extend a solution by the object slot of a match. -/
def extendObject (triple : Triple) (object : Term) (bindValues : Bool) (sol : Solution) :
    Option Solution :=
  match object with
  | .any | .param _ => some sol
  | .bound _ => some sol
  | .literal expected => match triple with
    | .property _ _ value _ => if value.same expected then some sol else none
    | _ => none
  | .var name => match triple with
    | .relation _ _ object _ _ => sol.bindVar name object
    | .property _ _ value _ => if bindValues && bindable value then sol.bindValue name value else none
    | _ => none

/-- Extend a solution by the edge of a match, when it is a relation. -/
def extendEdge (triple : Triple) (edgeVar : Option String) (sol : Solution) : Option Solution :=
  match edgeVar, triple with
  | some name, .relation _ _ _ edge _ => sol.bindVar name ⟨edge.uuid⟩
  | _, _ => some sol

/-- Extend a solution by the predicate of a match. -/
def extendPred (triple : Triple) (predicateVar : Option String) (sol : Solution) : Option Solution :=
  match predicateVar with
  | some name => sol.bindPred name triple.predicate
  | none => some sol

/-- Extend a solution by a triple that matches a pattern, unless they conflict. -/
def extendFull (triple : Triple) (vp : VarPattern) (bindValues : Bool) (sol : Solution) :
    Option Solution := do
  let sol ← sol.bindNode vp.subject triple.subject
  let sol ← extendObject triple vp.object bindValues sol
  let sol ← extendEdge triple vp.edgeVar sol
  extendPred triple vp.predicateVar sol

/-- Add an element that is not there yet. -/
def insertNew {α : Type} [DecidableEq α] (held : List α) (item : α) : List α :=
  if item ∈ held then held else held ++ [item]

section External

variable (ext : External)

/-- The node a slot stands for in a solution; a value stands for its hash. -/
def resolveTerm (sol : Solution) : Term → Option NodeId
  | .bound node => some node
  | .var name => match sol.nodes.lookup name with
    | some node => some node
    | none => (sol.values.lookup name).map (valueObject ext)
  | .any => none
  | .param _ => none
  | .literal value => some (valueObject ext value)

/-- The pattern that is left when the variables of a solution are substituted. -/
def substitute (vp : VarPattern) (sol : Solution) : Pattern where
  subject := resolveTerm ext sol vp.subject
  predicate := vp.predicate.or (vp.predicateVar.bind fun name => sol.preds.lookup name)
  object := resolveTerm ext sol vp.object

/-- Scope every unscoped pattern to a graph, unless it is over a derived predicate. -/
def scopeToGraph (derived : List String) (graph : Datalog.GraphTerm) (vp : VarPattern) : VarPattern :=
  let overDerived := vp.predicate.any derived.contains
  if vp.graph = .union ∧ !overDerived then { vp with graph := graph } else vp

namespace Snapshot

/-- The graphs a pattern is matched in, none for every graph. -/
def graphScope (snapshot : Snapshot) (sol : Solution) : Datalog.GraphTerm → Option GraphScope
  | .union => none
  | .default => some (.one GraphId.DEFAULT)
  | .bound g => some (.one g)
  | .iri iri => match snapshot.store.graphId iri with
    | some g => some (.one g)
    | none => some (.ofGraphs [])
  | .set graphs => some (.ofGraphs graphs)
  | .var name => match sol.nodes.lookup name with
    | some node => match snapshot.store.graphForNode ext node with
      | some g => some (.one g)
      | none => some (.ofGraphs [])
    | none => if (sol.values.lookup name).isSome then some (.ofGraphs []) else some .named

/-- Extend a solution by a match in a graph, whose node the graph variable receives. -/
def extendQuad (snapshot : Snapshot) (vp : VarPattern) (bindValues : Bool) (sol : Solution)
    (quad : GraphId × Triple) : Option Solution := do
  let next ← extendFull quad.2 vp bindValues sol
  match vp.graph with
  | .var name =>
    -- The default graph is no named graph.
    let node ← snapshot.store.graphNode ext quad.1
    next.bindVar name node
  | _ => some next

/-- The solutions that extend one by the matches of a pattern. -/
def matchPattern (snapshot : Snapshot) (vp : VarPattern) (bindValues : Bool)
    (ungraphed : Pattern → Except StorageError (List Triple)) (sol : Solution) :
    Except StorageError (List Solution) :=
  let pattern := substitute ext vp sol
  match snapshot.graphScope ext sol vp.graph with
  | none => do
    let triples ← ungraphed pattern
    return triples.filterMap (fun triple => extendFull triple vp bindValues sol)
  | some scope => do
    let quads ← snapshot.scanScoped ext pattern scope
    return quads.filterMap (snapshot.extendQuad ext vp bindValues sol)

/-- Visit the objects of a node's relations that were not visited before. -/
def visitNode (snapshot : Snapshot) (predicate : String) (state : List NodeId × List NodeId)
    (node : NodeId) : Except StorageError (List NodeId × List NodeId) := do
  let triples ← snapshot.scanBySubjectPredicate ext node predicate
  return triples.foldl (fun state triple => match triple with
    | .relation _ _ object _ _ =>
      if object ∈ state.1 then state else (state.1 ++ [object], state.2 ++ [object])
    | _ => state) state

/-- The nodes within some steps of a frontier, with those visited before. -/
def visitHops (snapshot : Snapshot) (predicate : String) :
    Nat → List NodeId → List NodeId → Except StorageError (List NodeId)
  | 0, visited, _ => .ok visited
  | hops + 1, visited, frontier => do
    let (visited, next) ← frontier.foldlM (snapshot.visitNode ext predicate) (visited, [])
    if next.isEmpty then .ok visited else snapshot.visitHops predicate hops visited next

/-- The nodes reachable in at most some steps along a predicate. -/
def reachableFromHops (snapshot : Snapshot) (start : NodeId) (predicate : String) (maxHops : Nat) :
    Except StorageError (List NodeId) :=
  snapshot.visitHops ext predicate maxHops [] [start]

/-- Bind the object of a pattern of paths to a node a path reaches. -/
def bindTarget (object : Term) (base : Solution) (target : NodeId) : Option Solution :=
  match object with
  | .bound node => if node = target then some base else none
  | .literal _ => none
  | term => base.bindNode term target

/-- The nodes a pattern of paths starts from: the bound subject, or every subject of an edge. -/
def pathStarts (snapshot : Snapshot) (predicate : String) (start : Option NodeId) :
    Except StorageError (List NodeId) :=
  match start with
  | some node => .ok [node]
  | none => do
    let triples ← snapshot.scanByPredicate ext predicate
    return triples.foldl (fun seen triple => match triple with
      | .relation subject _ _ _ _ => insertNew seen subject
      | _ => seen) []

/-- The solutions that extend one by the paths from a node. -/
def pathsFrom (snapshot : Snapshot) (vp : VarPattern) (predicate : String) (hops : Nat)
    (sol : Solution) (start : NodeId) : Except StorageError (List Solution) :=
  match sol.bindNode vp.subject start with
  | none => .ok []
  | some base => do
    let reachable ← snapshot.reachableFromHops ext start predicate hops
    return reachable.filterMap (bindTarget vp.object base)

/-- The solutions that extend one by the paths of a pattern. -/
def matchPath (snapshot : Snapshot) (vp : VarPattern) (hops : Nat) (sol : Solution) :
    Except StorageError (List Solution) :=
  match vp.predicate with
  | none => .ok []
  | some predicate =>
    -- A value cannot start a path.
    let held := match vp.subject with
      | .var name => (sol.values.lookup name).isSome
      | _ => false
    if held then .ok []
    else do
      let starts ← snapshot.pathStarts ext predicate (resolveTerm ext sol vp.subject)
      let found ← starts.mapM (snapshot.pathsFrom ext vp predicate hops sol)
      return found.flatten

/-- The solutions that extend one by a pattern. -/
def matchOne (snapshot : Snapshot) (bindValues : Bool)
    (scan : Pattern → Except StorageError (List Triple)) (vp : VarPattern) (sol : Solution) :
    Except StorageError (List Solution) :=
  match vp.maxHops with
  | some hops => snapshot.matchPath ext vp hops sol
  | none => snapshot.matchPattern ext vp bindValues scan sol

/-- Evaluate patterns from left to right, starting from some solutions. -/
def evaluateSolutions (snapshot : Snapshot) (bindValues : Bool)
    (scan : Pattern → Except StorageError (List Triple)) :
    List VarPattern → List Solution → Except StorageError (List Solution)
  | _, [] => .ok []
  | [], solutions => .ok solutions
  | vp :: rest, solutions => do
    let found ← solutions.mapM (snapshot.matchOne ext bindValues scan vp)
    snapshot.evaluateSolutions bindValues scan rest found.flatten

/-- Run a query from some bindings, binding nodes only. -/
def executeQuerySeeded (snapshot : Snapshot) (query : List VarPattern) (initial : List Bindings)
    (registry : Option EdgeTypeRegistry) : Except StorageError (List Bindings) := do
  let solutions ← snapshot.evaluateSolutions ext false (snapshot.evaluateWithRegistry ext registry)
    query (initial.map Solution.fromNodes)
  return solutions.map Solution.nodes

/-- Run a query, binding nodes only. -/
def executeQuery (snapshot : Snapshot) (query : List VarPattern)
    (registry : Option EdgeTypeRegistry) : Except StorageError (List Bindings) :=
  snapshot.executeQuerySeeded ext query [[]] registry

/-- Run a query, binding property values too. -/
def executeQueryFull (snapshot : Snapshot) (query : List VarPattern)
    (registry : Option EdgeTypeRegistry) : Except StorageError (List Solution) :=
  snapshot.evaluateSolutions ext true (snapshot.evaluateWithRegistry ext registry) query
    [Solution.empty]

/-- Run a query over a transaction's own writes too. -/
def executeQueryWithPendingFull (snapshot : Snapshot) (query : List VarPattern)
    (pending : List Triple) (registry : Option EdgeTypeRegistry) :
    Except StorageError (List Solution) :=
  snapshot.evaluateSolutions ext true (snapshot.evaluateWithOverlay ext pending registry) query
    [Solution.empty]

/-- The triples that match a pattern: those derived for its predicate, or else those stored. -/
def evaluateHybrid (snapshot : Snapshot) (edges : NodeId × NodeId → EdgeId) (derived : DerivedFacts)
    (pattern : Pattern) : Except StorageError (List Triple) :=
  match pattern.predicate.bind (fun predicate =>
      (derived.lookup predicate).map (fun pairs => (predicate, pairs))) with
  | none => snapshot.evaluate ext pattern
  | some (predicate, pairs) => .ok <|
    (pairs.filter fun pair => pattern.subject.all (fun s => decide (s = pair.1)) &&
      pattern.object.all (fun o => decide (o = pair.2))).map fun pair =>
        .relation pair.1 predicate pair.2 (edges pair) (.assertNow snapshot.now)

/-- Run a query over stored and derived facts, binding nodes only. -/
def executeQueryHybrid (snapshot : Snapshot) (edges : NodeId × NodeId → EdgeId)
    (query : List VarPattern) (derived : DerivedFacts) : Except StorageError (List Bindings) := do
  let solutions ← snapshot.evaluateSolutions ext false (snapshot.evaluateHybrid ext edges derived)
    query [Solution.empty]
  return solutions.map Solution.nodes

/-- Run a query over stored and derived facts, binding property values too. -/
def executeQueryHybridFull (snapshot : Snapshot) (edges : NodeId × NodeId → EdgeId)
    (query : List VarPattern) (derived : DerivedFacts) : Except StorageError (List Solution) :=
  snapshot.evaluateSolutions ext true (snapshot.evaluateHybrid ext edges derived) query
    [Solution.empty]

/-- The pair a solution of a rule's body derives, when both variables of the head are nodes. -/
def derivedPair (rule : Rule) (sol : Solution) : Option (NodeId × NodeId) := do
  let s ← sol.nodes.lookup rule.headSubjectVar
  let o ← sol.nodes.lookup rule.headObjectVar
  return (s, o)

/-- Apply a rule to the facts derived so far; whether it adds any. -/
def applyRule (snapshot : Snapshot) (edges : NodeId × NodeId → EdgeId)
    (state : DerivedFacts × Bool) (rule : Rule) : Except StorageError (DerivedFacts × Bool) := do
  let solutions ← snapshot.executeQueryHybridFull ext edges rule.body state.1
  let pairs := solutions.filterMap (derivedPair rule)
  let held := (state.1.lookup rule.headPredicate).getD []
  let derived := Latest.entryUpdate rule.headPredicate []
    (fun held => pairs.foldl insertNew held) state.1
  return (derived, state.2 || pairs.any (fun pair => !held.contains pair))

/-- Apply rules until no new fact is derived, for some rounds at most. -/
def executeRecursive (snapshot : Snapshot) (edges : NodeId × NodeId → EdgeId) (rules : List Rule) :
    Nat → DerivedFacts → Option (Except StorageError DerivedFacts)
  | 0, _ => none
  | rounds + 1, derived =>
    match rules.foldlM (snapshot.applyRule ext edges) (derived, false) with
    | .error problem => some (.error problem)
    | .ok (next, true) => snapshot.executeRecursive edges rules rounds next
    | .ok (next, false) => some (.ok next)

end Snapshot

end External

end Polargraph
