import Polargraph.Shacl.Shapes

/-! Shape evaluation. -/

namespace Polargraph

namespace Shacl

/-- One result of a validation. -/
structure ValidationResult where
  /-- The node that was validated. -/
  focusNode : Obj
  /-- The path of the shape. -/
  path : Option Path
  /-- The value that violates a constraint. -/
  value : Option Obj
  /-- The shape. -/
  sourceShape : NodeId
  /-- The local name of the component of the constraint. -/
  component : String
  /-- The severity of the shape. -/
  severity : Severity
  /-- The message of the shape, or what is wrong. -/
  message : String

/-- Every shape of the shapes graphs, by node. -/
abbrev Shapes := List (NodeId × Shape)

/-- A shape to evaluate at a focus node, under the pairs of a shape and a value being evaluated. -/
structure Config where
  /-- The pairs being evaluated through `sh:node`, to stop recursive shapes. -/
  stack : List (NodeId × NodeId)
  /-- The shape. -/
  shape : Shape
  /-- The focus node. -/
  focus : Obj

section External

variable (ext : External) (lib : Library)

section Data

variable (data : DataView)

mutual

/-- The values of a path from a focus node. -/
def pathValues : Path → Obj → Except ShapeError (List Obj)
  | .predicate name, .node n => .ok (data.objects ext n name)
  | .predicate _, .lit _ => .ok []
  | .inverse (.predicate name), focus => .ok ((data.subjects ext name focus).map .node)
  | .inverse (.inverse _), _ => .error ⟨"", "only predicate paths can be inverted"⟩
  | .inverse (.sequence _), _ => .error ⟨"", "only predicate paths can be inverted"⟩
  | .sequence steps, focus => stepValues steps [focus]

/-- The values of the steps of a path from some objects. -/
def stepValues : List Path → List Obj → Except ShapeError (List Obj)
  | [], cur => .ok cur
  | step :: rest, cur => do
    let found ← cur.mapM (pathValues step)
    stepValues rest (Seen.distinctBy (Obj.key ext) [] found.flatten)

end

/-- The values of a shape at a focus node: those of its path, or the focus node itself. -/
def shapeValues (shape : Shape) (focus : Obj) : Except ShapeError (List Obj) :=
  match shape.path with
  | some path => (pathValues ext data path focus).map (Seen.distinctBy (Obj.key ext) [])
  | none => .ok [focus]

/-- The nodes a target selects, unless the walk is cut off. -/
def targetNodes : Target → Option (List Obj)
  | .class c => (data.instances ext c).map (List.map .node)
  | .node obj => some [obj]
  | .subjectsOf p => some ((data.subjectsOf ext p).map .node)
  | .objectsOf p => some (data.objectsOf ext p)

/-- A literal's lexical form. -/
def lexical : Value → Option String
  | .text text => some text
  | .langText text _ => some text
  | .typed lexical _ => some lexical
  | .int word => some (toString (Value.signed word))
  | .float bits => some (lib.displayF64 bits)
  | .bool truth => some (toString truth)
  | _ => none

/-- The string form for patterns and lengths, nothing for a blank node. -/
def stringValue : Obj → Option String
  | .lit value => lexical lib value
  | .node n => if data.isBlank n then none else some (data.iri n)

/-- Whether a value has a datatype. -/
def hasDatatype (value : Value) (datatype : String) : Bool :=
  let xsd := strippedPrefix XSD datatype
  match value with
  | .text _ => decide (xsd = some "string")
  | .langText _ _ => decide (datatype = RDF_LANG_STRING)
  | .int word => match xsd with
    | some "integer" | some "long" | some "int" | some "short" | some "byte" => true
    | some "nonNegativeInteger" => decide (0 ≤ Value.signed word)
    | some "positiveInteger" => decide (0 < Value.signed word)
    | _ => false
  | .float _ => decide (xsd = some "double" ∨ xsd = some "float" ∨ xsd = some "decimal")
  | .bool _ => decide (xsd = some "boolean")
  | .typed _ held => decide (held = datatype)
  | _ => false

/-- A number as a double. -/
def number : Value → Option UInt64
  | .int word => some (lib.arith.ofInt word)
  | .float bits => some bits
  | _ => none

/-- Compare literals, unless they cannot be compared. -/
def compareLiterals (left right : Value) : Option Ordering :=
  let numbers := do Value.compareFloats (← number lib left) (← number lib right)
  match left, right with
  | .typed x dx, .typed y dy => if dx = dy then some (Value.compareTexts x y) else numbers
  | .text x, .text y => some (Value.compareTexts x y)
  | _, _ => numbers

/-- What is wrong with a value that must compare to a bound in some way. -/
def range (value : Obj) (bound : Value) (ok : Ordering → Bool) (op : String) : Option String :=
  let order := match value with
    | .lit literal => compareLiterals lib literal bound
    | .node _ => none
  if order.any ok then none
  else some ("value is not " ++ op ++ " " ++ (lexical lib bound).getD "")

/-- The name of a kind in a message. -/
def NodeKind.debug : NodeKind → String
  | iri => "Iri"
  | blankNode => "BlankNode"
  | literal => "Literal"
  | blankNodeOrIri => "BlankNodeOrIri"
  | blankNodeOrLiteral => "BlankNodeOrLiteral"
  | iriOrLiteral => "IriOrLiteral"

/-- The kind of an object. -/
def actualKind : Obj → NodeKind
  | .lit _ => .literal
  | .node n => if data.isBlank n then .blankNode else .iri

/-- Whether an object is of a kind. -/
def NodeKind.admits (kind actual : NodeKind) : Bool :=
  match kind with
  | blankNodeOrIri => decide (actual ≠ literal)
  | blankNodeOrLiteral => decide (actual ≠ iri)
  | iriOrLiteral => decide (actual ≠ blankNode)
  | kind => decide (kind = actual)

/-- A message unless a check passed. -/
def failed (ok : Bool) (message : String) : Option String := if ok then none else some message

/-- Whether an object is an instance of a class or of one below it. -/
def isInstance (class_ : NodeId) : Obj → Fuelled ShapeError Bool
  | .node n => do return decide (class_ ∈ (← Fuelled.ofOption (data.types ext n)))
  | .lit _ => return false

/-- What is wrong with a value under a constraint, with the way to tell whether it conforms to a shape. -/
def checkValue (conforms : NodeId → Obj → Fuelled ShapeError Bool) (c : Constraint) (v : Obj) :
    Fuelled ShapeError (Option String) :=
  match c with
  | .datatype datatype =>
    let ok := match v with
      | .lit value => hasDatatype value datatype
      | .node _ => false
    return failed ok ("value does not have datatype " ++ datatype)
  | .class class_ => do
    return failed (← isInstance ext data class_ v) ("value is not an instance of " ++ data.iri class_)
  | .nodeKind kind =>
    return failed (kind.admits (actualKind data v)) ("value node kind is not " ++ kind.debug)
  | .minInclusive bound => return range lib v bound Ordering.isGE ">="
  | .maxInclusive bound => return range lib v bound Ordering.isLE "<="
  | .minExclusive bound => return range lib v bound Ordering.isGT ">"
  | .maxExclusive bound => return range lib v bound Ordering.isLT "<"
  | .pattern regex =>
    return failed ((stringValue lib data v).any (lib.isMatch regex))
      ("value does not match pattern " ++ regex)
  | .minLength length =>
    return failed ((stringValue lib data v).any fun text => decide (length ≤ text.length))
      ("value is shorter than " ++ toString length ++ " characters")
  | .maxLength length =>
    return failed ((stringValue lib data v).any fun text => decide (text.length ≤ length))
      ("value is longer than " ++ toString length ++ " characters")
  | .in allowed =>
    return failed (allowed.any fun other => decide (other.key ext = v.key ext))
      "value is not in the allowed list"
  | .node shape => do
    return failed (← conforms shape v) ("value does not conform to shape " ++ data.iri shape)
  | .minCount _ | .maxCount _ | .closed _ => return none

/-- The result of a constraint of a shape at a focus node. -/
def resultOf (shape : Shape) (focus : Obj) (c : Constraint) (value : Option Obj) (detail : String) :
    ValidationResult where
  focusNode := focus
  path := shape.path
  value := value
  sourceShape := shape.id
  component := c.component
  severity := shape.severity
  message := shape.message.getD detail

/-- The predicates of a focus node that a closed shape does not allow, in order. -/
def extraPredicates (focus : NodeId) (allowed : List String) : List String :=
  ((data.predicatesOf ext focus).filter fun p => decide (p ∉ allowed)).insertionSort (· ≤ ·)

/-- The results of one constraint of a shape at a focus node with some values. -/
def constraintResults (conforms : NodeId → Obj → Fuelled ShapeError Bool) (shape : Shape)
    (focus : Obj) (values : List Obj) (c : Constraint) : Fuelled ShapeError (List ValidationResult) :=
  match c with
  | .minCount count =>
    return if values.length < count then [resultOf shape focus c none
      ("expected at least " ++ toString count ++ " value(s), found " ++ toString values.length)]
      else []
  | .maxCount count =>
    return if count < values.length then [resultOf shape focus c none
      ("expected at most " ++ toString count ++ " value(s), found " ++ toString values.length)]
      else []
  | .closed allowed =>
    return match focus with
    | .node n => (extraPredicates ext data n allowed).flatMap fun p =>
        (data.objects ext n p).map fun v => resultOf shape focus c (some v)
          ("property " ++ p ++ " is not allowed by a closed shape")
    | .lit _ => []
  | c => do
    let details ← values.mapM fun v => do
      return (← checkValue ext lib data conforms c v).map (resultOf shape focus c (some v))
    return details.filterMap (fun result => result)

variable (shapes : Shapes)

/-- Whether a value conforms to a shape, with the way to evaluate shapes. -/
def conformsBody (again : Config → Fuelled ShapeError (List ValidationResult))
    (stack : List (NodeId × NodeId)) (shapeId : NodeId) (v : Obj) : Fuelled ShapeError Bool :=
  match Latest.lookup shapeId shapes with
  | none => return true
  | some shape =>
    -- A recursive shape is assumed to conform.
    if (shapeId, v.key ext) ∈ stack then return true
    else do return (← again ⟨stack ++ [(shapeId, v.key ext)], shape, v⟩).isEmpty

/-- Evaluate one shape, with the way to evaluate those it refers to. -/
def validateBody (again : Config → Fuelled ShapeError (List ValidationResult)) (config : Config) :
    Fuelled ShapeError (List ValidationResult) :=
  if config.shape.deactivated then return []
  else do
    let values ← Fuelled.ofExcept (shapeValues ext data config.shape config.focus)
    let results ← config.shape.constraints.mapM
      (constraintResults ext lib data (conformsBody ext shapes again config.stack) config.shape
        config.focus values)
    let nested ← config.shape.properties.mapM fun p =>
      match Latest.lookup p shapes with
      | some shape => again ⟨config.stack, shape, config.focus⟩
      | none => return []
    return results.flatten ++ nested.flatten

/-- Evaluate a shape at a focus node, to some depth. -/
def validateShape : Nat → Config → Fuelled ShapeError (List ValidationResult) :=
  Fuelled.iterate (validateBody ext lib data shapes)

/-- The nodes that a shape is evaluated at. -/
def focusNodes (focus : Option (List NodeId)) (shape : Shape) : Fuelled ShapeError (List Obj) := do
  let selected ← shape.targets.mapM fun target => Fuelled.ofOption (targetNodes ext data target)
  return Seen.distinctBy (Obj.key ext) [] (selected.flatten.filter fun node =>
    focus.all fun focus => node.asNode.any fun n => decide (n ∈ focus))

/-- The shapes in the order they are evaluated in. -/
def shapesInOrder : List Shape :=
  ((shapes.map Prod.fst).insertionSort fun left right => left.uuid.bytes ≤ right.uuid.bytes).filterMap
    fun id => Latest.lookup id shapes

/-- Validate the data against shapes, evaluating them to some depth. -/
def validate (focus : Option (List NodeId)) (fuel : Nat) :
    Fuelled ShapeError (List ValidationResult) := do
  let reports ← (shapesInOrder shapes).mapM fun shape =>
    if shape.deactivated ∨ shape.targets = [] then return []
    else do
      let nodes ← focusNodes ext data focus shape
      let results ← nodes.mapM fun node => validateShape ext lib data shapes fuel ⟨[], shape, node⟩
      return results.flatten
  return reports.flatten

end Data

end External

end Shacl

end Polargraph
