import Mathlib.Data.List.Infix
import Polargraph.Query.Aggregation

/-! Compiled Cypher queries: their parameters, their scope, and the filters applied to their rows. -/

namespace Polargraph

/-- A value to compare with, or a parameter to be substituted. -/
inductive FilterValue where
  /-- A literal. -/
  | literal (value : Value)
  /-- A named parameter. -/
  | param (name : String)
deriving DecidableEq

/-- A property of a variable's node must have a value. -/
structure ValueFilter where
  /-- The variable. -/
  var : String
  /-- The predicate. -/
  predicate : String
  /-- The value. -/
  value : FilterValue
deriving DecidableEq

/-- How a text is matched. -/
inductive TextFilterKind where
  /-- It contains a text. -/
  | contains (needle : String)
  /-- It starts with a text. -/
  | startsWith (start : String)
  /-- It matches a regular expression. -/
  | regex (pattern : String)
deriving DecidableEq

/-- A text property of a variable's node must match. -/
structure TextFilter where
  /-- The variable. -/
  var : String
  /-- The predicate. -/
  predicate : String
  /-- How it must match. -/
  kind : TextFilterKind
deriving DecidableEq

/-- Comparison operators. -/
inductive ComparisonOp where
  /-- Equal. -/
  | eq
  /-- Not equal. -/
  | ne
  /-- Greater. -/
  | gt
  /-- Greater or equal. -/
  | gte
  /-- Less. -/
  | lt
  /-- Less or equal. -/
  | lte
deriving DecidableEq

/-- An annotation of a variable's edge must compare with a value. -/
structure EdgeAnnotationFilter where
  /-- The variable. -/
  var : String
  /-- The predicate. -/
  predicate : String
  /-- The operator. -/
  op : ComparisonOp
  /-- The value. -/
  value : Value
deriving DecidableEq

/-- The identifier of a variable's edge or node is returned under a key. -/
structure IdProjection where
  /-- The key. -/
  outputKey : String
  /-- The variable. -/
  var : String
deriving DecidableEq

/-- A vector search whose hits a variable starts from. -/
structure VectorNearClause where
  /-- The variable. -/
  seedVariable : String
  /-- The space to search. -/
  space : String
  /-- How many hits are wanted. -/
  k : Nat
  /-- The width of the search, when given. -/
  ef : Option Nat

/-- A Cypher query compiled to patterns, rules, filters and projections. -/
structure CompiledQuery where
  /-- The patterns. -/
  query : List VarPattern
  /-- The rules for paths of any length. -/
  rules : List Rule
  /-- Filters on property values. -/
  valueFilters : List ValueFilter
  /-- Filters on texts. -/
  textFilters : List TextFilter
  /-- The variables that are returned. -/
  returnVars : List String
  /-- How many rows are returned at most. -/
  limit : Option Nat
  /-- A vector search to start from. -/
  vectorNear : Option VectorNearClause
  /-- The aggregates. -/
  aggregations : List AggregationSpec
  /-- The variables rows are grouped by. -/
  groupKeys : List String
  /-- The sort keys. -/
  orderBy : List OrderSpec
  /-- How many rows are skipped. -/
  skip : Option Nat
  /-- Filters on edge annotations. -/
  edgeAnnotationFilters : List EdgeAnnotationFilter
  /-- Properties of nodes that are returned. -/
  propProjections : List (String × String)
  /-- Properties of edges that are returned. -/
  edgePropProjections : List (String × String)
  /-- Identifiers of edges that are returned. -/
  edgeIdProjections : List IdProjection
  /-- Identifiers of nodes that are returned. -/
  nodeIdProjections : List IdProjection
  /-- The graph of a graph clause, which the patterns are scoped to. -/
  graph : Option String

namespace CompiledQuery

/-- Scope the patterns that have no graph yet, except over derived predicates. -/
def scopeTo (compiled : CompiledQuery) (graph : Datalog.GraphTerm) : CompiledQuery :=
  let derived := compiled.rules.map Rule.headPredicate
  { compiled with
    query := compiled.query.map (scopeToGraph derived graph)
    rules := compiled.rules.map fun rule =>
      { rule with body := rule.body.map (scopeToGraph derived graph) } }

/-- A filter whose parameter is replaced by its value. -/
def substituteParam (params : List (String × Value)) (filter : ValueFilter) :
    Except String ValueFilter :=
  match filter.value with
  | .literal _ => .ok filter
  | .param name => match params.lookup name with
    | some value => .ok { filter with value := .literal value }
    | none => .error ("missing required parameter '$" ++ name ++ "'")

/-- The query whose parameters are replaced by their values. -/
def substituteParams (compiled : CompiledQuery) (params : List (String × Value)) :
    Except String CompiledQuery := do
  let filters ← compiled.valueFilters.mapM (substituteParam params)
  return { compiled with valueFilters := filters }

end CompiledQuery

namespace Value

/-- Whether values compare by an operator; values of different kinds can only be equal. -/
def compareBy (actual : Value) (op : ComparisonOp) (expected : Value) : Bool :=
  let ordered (ord : Option Ordering) : Bool :=
    match ord, op with
    | some .eq, .eq | some .eq, .gte | some .eq, .lte => true
    | some .lt, .lt | some .lt, .lte | some .lt, .ne => true
    | some .gt, .gt | some .gt, .gte | some .gt, .ne => true
    | _, _ => false
  match actual, expected with
  | .int x, .int y => ordered (some (compare (signed x) (signed y)))
  | .float x, .float y => ordered (compareFloats x y)
  | .text x, .text y => ordered (some (compareTexts x y))
  | .bool x, .bool y => ordered (some (compare x.toNat y.toNat))
  -- A tagged string is compared by its text.
  | .langText x _, .text y => ordered (some (compareTexts x y))
  | .langText x _, .langText y _ => ordered (some (compareTexts x y))
  | .text x, .langText y _ => ordered (some (compareTexts x y))
  | left, right => decide (op = .eq) && left.same right

end Value

/-- Whether a row passes every filter; those after the first it fails are not tried. -/
def passesAll {φ : Type} (check : φ → Bindings → Except StorageError Bool) :
    List φ → Bindings → Except StorageError Bool
  | [], _ => .ok true
  | filter :: rest, binding => do
    let passes ← check filter binding
    if passes then passesAll check rest binding else .ok false

/-- The rows that pass every filter. -/
def keepPassing {φ : Type} (check : φ → Bindings → Except StorageError Bool) (filters : List φ) :
    List Bindings → Except StorageError (List Bindings)
  | [] => .ok []
  | binding :: rest => do
    let passes ← passesAll check filters binding
    let others ← keepPassing check filters rest
    return if passes then binding :: others else others

section External

variable (ext : External) (matchesRegex : String → String → Bool)

namespace Snapshot

/-- Whether a property of a row's node has a filter's value; a row without the node fails. -/
def passesValue (snapshot : Snapshot) (filter : ValueFilter) (binding : Bindings) :
    Except StorageError Bool :=
  match binding.lookup filter.var, filter.value with
  | some node, .literal expected => do
    let triples ← snapshot.scanBySubjectPredicate ext node filter.predicate
    return triples.any fun triple => match triple with
      | .property _ _ value _ => value.same expected
      | _ => false
  | _, _ => .ok false

/-- Whether a text matches. -/
def textMatches (kind : TextFilterKind) (text : String) : Bool :=
  match kind with
  | .contains needle => decide (utf8 needle <:+: utf8 text)
  | .startsWith start => decide (utf8 start <+: utf8 text)
  | .regex pattern => matchesRegex pattern text

/-- Whether a text property of a row's node matches; a row without the node fails. -/
def passesText (snapshot : Snapshot) (filter : TextFilter) (binding : Bindings) :
    Except StorageError Bool :=
  match binding.lookup filter.var with
  | some node => do
    let triples ← snapshot.scanBySubjectPredicate ext node filter.predicate
    return triples.any fun triple => match triple with
      | .property _ _ value _ => value.asText.any (textMatches matchesRegex filter.kind)
      | _ => false
  | none => .ok false

/-- Whether an annotation of a row's edge compares with a value; a row without the edge fails. -/
def passesEdgeAnnotation (snapshot : Snapshot) (filter : EdgeAnnotationFilter)
    (binding : Bindings) : Except StorageError Bool :=
  match binding.lookup filter.var with
  | some node => do
    let annotations ← snapshot.store.scanEdgeAnnotationsWith ext ⟨node.uuid⟩ snapshot.point.ts
      snapshot.point.readable
    -- Stored predicates are canonical.
    let wanted := snapshot.store.vocabulary.canonicalPredicate filter.predicate
    return annotations.any fun annotation => decide ( annotation.predicate = wanted) &&
      match annotation.value with
      | .scalar value => value.compareBy filter.op filter.value
      | .node _ => false
  | none => .ok false

/-- The rows that pass the filters on values, on texts and on edge annotations. -/
def applyFilters (snapshot : Snapshot) (compiled : CompiledQuery) (rows : List Bindings) :
    Except StorageError (List Bindings) := do
  let rows ← keepPassing (snapshot.passesValue ext) compiled.valueFilters rows
  let rows ← keepPassing (snapshot.passesText ext matchesRegex) compiled.textFilters rows
  keepPassing ( snapshot.passesEdgeAnnotation ext) compiled.edgeAnnotationFilters rows

end Snapshot

end External

end Polargraph
