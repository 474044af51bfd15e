import Polargraph.Query.Cypher

/-! Parsed Cypher queries and their compilation to patterns, rules, filters and projections. -/

namespace Polargraph

namespace Cypher

/-- A node of a path. -/
structure NodePat where
  /-- Its variable. -/
  var : Option String
  /-- Its label. -/
  label : Option String
  /-- The properties it must have. -/
  props : List (String × CypherValue)

/-- Which way a relationship goes. -/
inductive Direction where
  /-- From left to right. -/
  | out
  /-- From right to left. -/
  | into
deriving DecidableEq

/-- A relationship of a path. -/
structure RelPat where
  /-- Its variable. -/
  var : Option String
  /-- Its type. -/
  predicate : String
  /-- Whether it stands for a path of relationships. -/
  recursive : Bool
  /-- How long the path may be, when it is bounded. -/
  maxHops : Option Nat

/-- A relationship and the node it leads to. -/
structure HopPat where
  /-- The relationship. -/
  rel : RelPat
  /-- Its direction. -/
  direction : Direction
  /-- The node. -/
  target : NodePat

/-- A path of nodes. -/
structure CypherPath where
  /-- The node it starts at. -/
  start : NodePat
  /-- The rest of it. -/
  hops : List HopPat

/-- A condition. -/
inductive WhereClause where
  /-- A property equals a value. -/
  | propertyEq (var prop : String) (value : CypherValue)
  /-- A property compares with a value. -/
  | propertyCmp (var prop : String) (op : ComparisonOp) (value : CypherValue)
  /-- A node is near a vector. -/
  | vectorNear (var space : String) (k : Nat) (ef : Option Nat)
  /-- A text contains another one. -/
  | contains (var prop value : String)
  /-- A text starts with another one. -/
  | startsWith (var prop value : String)
  /-- A text matches a regular expression. -/
  | regex (var prop pattern : String)

/-- What is returned. -/
inductive ReturnItem where
  /-- A variable. -/
  | var (name : String)
  /-- A property. -/
  | propProjection (var prop : String)
  /-- The identifier of a variable. -/
  | edgeId (relVar : String)
  /-- An aggregate. -/
  | aggregation (func : AggFunc) (aliasName : String)

/-- A leading call of a vector search. -/
structure CallClause where
  /-- The space to search. -/
  space : String
  /-- How many hits are wanted. -/
  k : Nat
  /-- The width of the search, when given. -/
  ef : Option Nat
  /-- The variables for the node and its score. -/
  yieldVars : List String

/-- A parsed query. -/
structure CypherQuery where
  /-- The leading call, if any. -/
  callClause : Option CallClause
  /-- The paths to match. -/
  matchPatterns : List CypherPath
  /-- The conditions. -/
  whereClauses : List WhereClause
  /-- What is returned. -/
  returnItems : List ReturnItem
  /-- How many rows are returned at most. -/
  limit : Option Nat
  /-- The sort keys. -/
  orderBy : List OrderSpec
  /-- How many rows are skipped. -/
  skip : Option Nat
  /-- The conditions of the clause between matching and returning. -/
  withFilters : List WhereClause
  /-- The graph of a graph clause. -/
  graph : Option String

end Cypher

/-- A value to compare with, its parameter kept. -/
def CypherValue.toFilterValue : CypherValue → FilterValue
  | param name => .param name
  | other => .literal other.toCoreValue

/-- A pattern of a predicate, in every graph. -/
def VarPattern.of (subject : Term) (predicate : String) (object : Term) : VarPattern :=
  ⟨subject, some predicate, none, object, none, none, .union⟩

/-- The predicate of paths of any length along another one. -/
def tcPredicate (predicate : String) : String := "__tc_" ++ predicate

/-- The rules that derive the paths of any length along a predicate. -/
def tcRules (predicate : String) : List Rule :=
  [⟨tcPredicate predicate, "x", "y", [.of (.var "x") predicate (.var "y")]⟩,
    ⟨tcPredicate predicate, "x", "z",
      [.of (.var "x") (tcPredicate predicate) (.var "y"), .of (.var "y") predicate (.var "z")]⟩]

/-- What the paths and conditions of a query compile to. -/
structure CompiledMatch where
  /-- The patterns. -/
  patterns : List VarPattern
  /-- The rules. -/
  rules : List Rule
  /-- Filters on property values. -/
  valueFilters : List ValueFilter
  /-- Filters on texts. -/
  textFilters : List TextFilter
  /-- A vector search to start from. -/
  vectorNear : Option VectorNearClause
  /-- Filters on edge annotations. -/
  edgeAnnotationFilters : List EdgeAnnotationFilter
  /-- The predicates that have rules. -/
  derivedPreds : List String
  /-- The variables of relationships. -/
  edgeVars : List String
  /-- How many nodes without a variable were named. -/
  anon : Nat

namespace CompiledMatch

/-- Nothing compiled yet. -/
def empty : CompiledMatch := ⟨[], [], [], [], none, [], [], [], 0⟩

/-- The name of a node, made up when it has none. -/
def getOrAnon (made : CompiledMatch) : Option String → String × CompiledMatch
  | some name => (name, made)
  | none => ("__anon_" ++ toString made.anon, { made with anon := made.anon + 1 })

/-- Add a pattern. -/
def pattern (made : CompiledMatch) (vp : VarPattern) : CompiledMatch :=
  { made with patterns := made.patterns ++ [vp] }

/-- Add a filter on a property value. -/
def valueFilter (made : CompiledMatch) (var predicate : String) (value : FilterValue) :
    CompiledMatch :=
  { made with valueFilters := made.valueFilters ++ [⟨var, predicate, value⟩] }

/-- Add a filter on a text. -/
def textFilter (made : CompiledMatch) (var predicate : String) (kind : TextFilterKind) :
    CompiledMatch :=
  { made with textFilters := made.textFilters ++ [⟨var, predicate, kind⟩] }

/-- Add a filter on an edge annotation. -/
def edgeFilter (made : CompiledMatch) (var predicate : String) (op : ComparisonOp)
    (value : CypherValue) : CompiledMatch :=
  { made with
    edgeAnnotationFilters := made.edgeAnnotationFilters ++ [⟨var, predicate, op, value.toCoreValue⟩] }

section Names

variable (ext : External) (vocabulary : Vocabulary) (prefixes : String → Option String)

/-- The pattern of a label. -/
def labelPattern (var label : String) : VarPattern :=
  .of (.var var) RDF_TYPE (.bound (iriToNodeId ext (vocabulary.expand prefixes label)))

/-- Compile a node on its own: its label binds it, or else its first property does. -/
def emitNodeBinding (made : CompiledMatch) (var : String) (node : Cypher.NodePat) : CompiledMatch :=
  let labelled := node.label.elim made
    (fun label => made.pattern (labelPattern ext vocabulary prefixes var label))
  let bound := match node.label, node.props with
    | none, (key, _) :: _ =>
      labelled.pattern (.of (.var var) (vocabulary.resolveName prefixes key) .any)
    | _, _ => labelled
  node.props.foldl (fun made prop =>
    made.valueFilter var (vocabulary.resolveName prefixes prop.1) prop.2.toFilterValue) bound

/-- Compile a node that a relationship binds. -/
def emitNodeFilters (made : CompiledMatch) (var : String) (node : Cypher.NodePat) : CompiledMatch :=
  let labelled := node.label.elim made
    (fun label => made.pattern (labelPattern ext vocabulary prefixes var label))
  node.props.foldl (fun made prop =>
    made.valueFilter var (vocabulary.resolveName prefixes prop.1) prop.2.toFilterValue) labelled

/-- Compile a relationship between two variables. -/
def emitRel (made : CompiledMatch) (rel : Cypher.RelPat) (subject object : String) : CompiledMatch :=
  let predicate := vocabulary.resolveName prefixes rel.predicate
  if rel.recursive then
    match rel.maxHops with
    -- A bounded path is followed at run time.
    | some hops =>
      made.pattern { VarPattern.of (.var subject) predicate (.var object) with maxHops := some hops }
    -- A path of any length has rules, made once for each predicate.
    | none =>
      let derived := tcPredicate predicate
      let ruled := if made.derivedPreds.contains derived then made
        else { made with
          derivedPreds := made.derivedPreds ++ [derived]
          rules := made.rules ++ tcRules predicate }
      ruled.pattern (.of (.var subject) derived (.var object))
  else
    { made.pattern { VarPattern.of (.var subject) predicate (.var object) with edgeVar := rel.var } with
      edgeVars := made.edgeVars ++ rel.var.toList }

/-- Compile a step of a path from a variable, with the variable it leads to. -/
def emitHop (made : CompiledMatch) (current : String) (hop : Cypher.HopPat) :
    CompiledMatch × String :=
  let (reached, named) := made.getOrAnon hop.target.var
  let related := match hop.direction with
    | .out => named.emitRel vocabulary prefixes hop.rel current reached
    | .into => named.emitRel vocabulary prefixes hop.rel reached current
  (related.emitNodeFilters ext vocabulary prefixes reached hop.target, reached)

/-- Compile a path. -/
def compilePath (made : CompiledMatch) (path : Cypher.CypherPath) : CompiledMatch :=
  let (start, named) := made.getOrAnon path.start.var
  if path.hops.isEmpty then named.emitNodeBinding ext vocabulary prefixes start path.start
  else
    (path.hops.foldl (fun state hop => state.1.emitHop ext vocabulary prefixes state.2 hop)
      (named.emitNodeFilters ext vocabulary prefixes start path.start, start)).1

/-- Compile a condition; of the comparisons of a node's property only equality is kept. -/
def addWhere (made : CompiledMatch) : Cypher.WhereClause → CompiledMatch
  | .propertyEq var prop value =>
    let prop := vocabulary.resolveName prefixes prop
    if made.edgeVars.contains var then made.edgeFilter var prop .eq value
    else made.valueFilter var prop value.toFilterValue
  | .propertyCmp var prop op value =>
    let prop := vocabulary.resolveName prefixes prop
    if made.edgeVars.contains var then made.edgeFilter var prop op value
    else if op = .eq then made.valueFilter var prop value.toFilterValue
    else made
  | .vectorNear var space k ef =>
    { made with vectorNear := made.vectorNear.or (some ⟨var, space, k, ef⟩) }
  | .contains var prop value =>
    made.textFilter var (vocabulary.resolveName prefixes prop) (.contains value)
  | .startsWith var prop value =>
    made.textFilter var (vocabulary.resolveName prefixes prop) (.startsWith value)
  | .regex var prop text => made.textFilter var (vocabulary.resolveName prefixes prop) (.regex text)

end Names

/-- The variables that patterns bind in their subject and object slots. -/
def boundVars (made : CompiledMatch) : List String :=
  made.patterns.flatMap fun vp => [vp.subject, vp.object].filterMap fun term => match term with
    | .var name => some name
    | _ => none

/-- Bind the variables of filters that no pattern binds, each by its first filter's property. -/
def bindFilters (made : CompiledMatch) : CompiledMatch :=
  let filtered := made.valueFilters.map (fun filter => (filter.var, filter.predicate)) ++
    made.textFilters.map (fun filter => (filter.var, filter.predicate))
  let unbound := filtered.filter (fun filter => !made.boundVars.contains filter.1)
  let first := unbound.foldl (fun kept filter =>
    if (kept.map Prod.fst).contains filter.1 then kept else kept ++ [filter]) []
  { made with
    patterns := made.patterns ++ first.map (fun filter => .of (.var filter.1) filter.2 .any) }

end CompiledMatch

namespace Cypher.CypherQuery

section Names

variable (ext : External) (vocabulary : Vocabulary) (prefixes : String → Option String)

/-- What the paths and conditions of a query compile to. -/
def compileMatch (query : CypherQuery) : CompiledMatch :=
  let paths := query.matchPatterns.foldl (·.compilePath ext vocabulary prefixes) CompiledMatch.empty
  let conditions := query.whereClauses.foldl (·.addWhere vocabulary prefixes) paths
  -- A leading call takes precedence over a vector search among the conditions.
  let called := query.callClause.elim conditions fun call => { conditions with
    vectorNear := some ⟨call.yieldVars.head?.getD "__call_node", call.space, call.k, call.ef⟩ }
  (query.withFilters.foldl (·.addWhere vocabulary prefixes) called).bindFilters

/-- Compile a query, names resolved through a vocabulary. -/
def compileWithVocabulary (query : CypherQuery) : CompiledQuery :=
  let made := query.compileMatch ext vocabulary prefixes
  let isEdge (name : String) : Bool := made.edgeVars.contains name
  let returned := query.returnItems.filterMap fun item => match item with
    | .var name => some name
    | _ => none
  let props := query.returnItems.filterMap fun item => match item with
    | .propProjection var prop => some (var, prop)
    | _ => none
  let ids := query.returnItems.filterMap fun item => match item with
    | .edgeId name => some (IdProjection.mk ("id(" ++ name ++ ")") name)
    | _ => none
  let compiled : CompiledQuery :=
    { query := made.patterns
      rules := made.rules
      valueFilters := made.valueFilters
      textFilters := made.textFilters
      returnVars := returned
      limit := query.limit
      vectorNear := made.vectorNear
      aggregations := query.returnItems.filterMap fun item => match item with
        | .aggregation func aliasName => some ⟨func, aliasName⟩
        | _ => none
      groupKeys := returned
      orderBy := query.orderBy
      skip := query.skip
      edgeAnnotationFilters := made.edgeAnnotationFilters
      propProjections := props.filter (fun proj => !isEdge proj.1)
      edgePropProjections := props.filter (fun proj => isEdge proj.1)
      edgeIdProjections := ids.filter (fun proj => isEdge proj.var)
      nodeIdProjections := ids.filter (fun proj => !isEdge proj.var)
      graph := none }
  query.graph.elim compiled fun graph =>
    { compiled.scopeTo (.iri graph) with graph := some graph }

end Names

end Cypher.CypherQuery

end Polargraph
