import Polargraph.Lib.Fuelled
import Polargraph.Shacl.Data

/-! Shapes, and how they are read from the triples of a shapes graph. -/

namespace Polargraph

namespace Shacl

/-- An invalid shape. -/
structure ShapeError where
  /-- The IRI of the shape. -/
  shape : String
  /-- What is wrong with it. -/
  message : String
deriving DecidableEq

/-- How the focus nodes of a shape are found. -/
inductive Target where
  /-- Instances of a class. -/
  | class (id : NodeId)
  /-- A node or a literal. -/
  | node (obj : Obj)
  /-- Subjects of a predicate. -/
  | subjectsOf (predicate : String)
  /-- Objects of a predicate. -/
  | objectsOf (predicate : String)

/-- A path from a focus node to its values. -/
inductive Path where
  /-- Along a predicate. -/
  | predicate (name : String)
  /-- Against a path. -/
  | inverse (inner : Path)
  /-- Some paths one after another. -/
  | sequence (steps : List Path)

/-- A kind of RDF terms. -/
inductive NodeKind where
  | iri
  | blankNode
  | literal
  | blankNodeOrIri
  | blankNodeOrLiteral
  | iriOrLiteral
deriving DecidableEq

/-- What a shape requires of its focus node or its values. -/
inductive Constraint where
  | minCount (count : Nat)
  | maxCount (count : Nat)
  | datatype (iri : String)
  | class (id : NodeId)
  | nodeKind (kind : NodeKind)
  | minInclusive (bound : Value)
  | maxInclusive (bound : Value)
  | minExclusive (bound : Value)
  | maxExclusive (bound : Value)
  | pattern (regex : String)
  | minLength (length : Nat)
  | maxLength (length : Nat)
  | in (allowed : List Obj)
  | node (shape : NodeId)
  | closed (allowed : List String)

/-- The local name of the component a constraint is of. -/
def Constraint.component : Constraint → String
  | minCount _ => "MinCountConstraintComponent"
  | maxCount _ => "MaxCountConstraintComponent"
  | datatype _ => "DatatypeConstraintComponent"
  | «class» _ => "ClassConstraintComponent"
  | nodeKind _ => "NodeKindConstraintComponent"
  | minInclusive _ => "MinInclusiveConstraintComponent"
  | maxInclusive _ => "MaxInclusiveConstraintComponent"
  | minExclusive _ => "MinExclusiveConstraintComponent"
  | maxExclusive _ => "MaxExclusiveConstraintComponent"
  | pattern _ => "PatternConstraintComponent"
  | minLength _ => "MinLengthConstraintComponent"
  | maxLength _ => "MaxLengthConstraintComponent"
  | «in» _ => "InConstraintComponent"
  | node _ => "NodeConstraintComponent"
  | closed _ => "ClosedConstraintComponent"

/-- How severe the results of a shape are. -/
inductive Severity where
  | info
  | warning
  | violation
deriving DecidableEq

/-- A node shape, which has no path, or a property shape, which has one. -/
structure Shape where
  /-- Its node. -/
  id : NodeId
  /-- Where it applies. -/
  targets : List Target
  /-- The path to its values. -/
  path : Option Path
  /-- What it requires. -/
  constraints : List Constraint
  /-- Its property shapes. -/
  properties : List NodeId
  /-- How severe its results are. -/
  severity : Severity
  /-- The message of its results. -/
  message : Option String
  /-- Whether it is not evaluated. -/
  deactivated : Bool

/-- Third-party code for texts: numbers, regular expressions and reports on objects. -/
structure Library where
  /-- An integer as a double. -/
  arith : FloatArithmetic
  /-- Write a double in decimal. -/
  displayF64 : UInt64 → String
  /-- Compile a regular expression, or report what is wrong with it. -/
  regexNew : String → Except String Unit
  /-- Whether a regular expression matches in a text. -/
  isMatch : String → String → Bool
  /-- The text of an object in a report. -/
  debugObj : Obj → String

section External

variable (ext : External) (lib : Library)

namespace DataView

variable (view : DataView)

/-- The values of a shape term on a node. -/
def get (id : NodeId) (term : String) : List Obj :=
  (Latest.lookup (sh term) (view.properties ext id)).getD []

/-- Refuse a shape. -/
def invalid (id : NodeId) (message : String) : ShapeError := ⟨view.iri id, message⟩

/-- The node that a value must be. -/
def nodeOf (id : NodeId) (term : String) (value : Obj) : Except ShapeError NodeId :=
  match value with
  | .node n => .ok n
  | .lit _ => .error (view.invalid id ("sh:" ++ term ++ " must be an IRI"))

/-- The non-negative number that the first value must be. -/
def parseInt (id : NodeId) (term : String) : Except ShapeError (Option Nat) :=
  let refused (other : Obj) := ShapeError.mk (view.iri id)
    ("sh:" ++ term ++ " must be a non-negative integer, got " ++ lib.debugObj other)
  match (view.get ext id term).head? with
  | none => .ok none
  | some (.lit (.int word)) =>
    if 0 ≤ Value.signed word then .ok (some word.toNat) else .error (refused (.lit (.int word)))
  | some other => .error (refused other)

/-- The members of a list from a node on, unless the walk is cut off. -/
def listFrom : Nat → List NodeId → NodeId → Option (List Obj)
  | 0, _, _ => none
  | fuel + 1, seen, cur =>
    if cur = iriToNodeId ext RDF_NIL ∨ cur ∈ seen then some []
    else
      let props := view.properties ext cur
      let first := ((Latest.lookup RDF_FIRST props).bind List.head?).toList
      match (Latest.lookup RDF_REST props).bind List.head? with
      | some (.node next) => (listFrom fuel (cur :: seen) next).map (first ++ ·)
      | _ => some first

/-- The members of the list that starts at a node, unless the walk is cut off. -/
def list (head : NodeId) : Option (List Obj) :=
  view.listFrom ext ((view.triples ext).length + 1) [] head

/-- The path terms that are not supported. -/
def UNSUPPORTED_PATHS : List String :=
  ["alternativePath", "zeroOrMorePath", "oneOrMorePath", "zeroOrOnePath"]

/-- Parse one step of a path, with the way to parse the paths it is made of. -/
def pathBody (id : NodeId) (again : NodeId → Fuelled ShapeError Path) (n : NodeId) :
    Fuelled ShapeError Path :=
  let props := view.properties ext n
  if (Latest.lookup RDF_FIRST props).isSome then do
    let items ← Fuelled.ofOption (view.list ext n)
    let steps ← items.mapM fun
      | .node step => again step
      | .lit _ => throw (view.invalid id "sequence path steps must be IRIs")
    return .sequence steps
  else match (Latest.lookup (sh "inversePath") props).bind List.head? with
    | some (.node inner) => do return .inverse (← again inner)
    | _ =>
      match UNSUPPORTED_PATHS.find? fun term => (Latest.lookup (sh term) props).isSome with
      | some term => throw (view.invalid id ("sh:" ++ term ++ " is not supported"))
      | none => return .predicate (view.iri n)

/-- Parse the path of a node for a shape, to some depth. -/
def parsePath (id : NodeId) : Nat → NodeId → Fuelled ShapeError Path :=
  Fuelled.iterate (view.pathBody ext id)

/-- Where a shape applies. -/
def parseTargets (id : NodeId) : Except ShapeError (List Target) := do
  let classes ← (view.get ext id "targetClass").mapM (view.nodeOf id "targetClass")
  let subjects ← (view.get ext id "targetSubjectsOf").mapM (view.nodeOf id "targetSubjectsOf")
  let objects ← (view.get ext id "targetObjectsOf").mapM (view.nodeOf id "targetObjectsOf")
  let types := (Latest.lookup RDF_TYPE (view.properties ext id)).getD []
  return classes.map .class ++ (view.get ext id "targetNode").map .node ++
    subjects.map (fun n => .subjectsOf (view.iri n)) ++
    objects.map (fun n => .objectsOf (view.iri n)) ++
    -- A shape that is also a class targets its instances.
    if .node (iriToNodeId ext RDFS_CLASS) ∈ types then [.class id] else []

/-- Parse the path of a shape, to some depth. -/
def parseOwnPath (fuel : Nat) (id : NodeId) : Fuelled ShapeError (Option Path) :=
  match (view.get ext id "path").head? with
  | none => return none
  | some value => do
    let n ← Fuelled.ofExcept (view.nodeOf id "path" value)
    return some (← view.parsePath ext id fuel n)

/-- The kind that a shape term names. -/
def nodeKindOf (id : NodeId) (kind : String) : Except ShapeError NodeKind :=
  match strippedPrefix SH kind with
  | some "IRI" => .ok .iri
  | some "BlankNode" => .ok .blankNode
  | some "Literal" => .ok .literal
  | some "BlankNodeOrIRI" => .ok .blankNodeOrIri
  | some "BlankNodeOrLiteral" => .ok .blankNodeOrLiteral
  | some "IRIOrLiteral" => .ok .iriOrLiteral
  | _ => .error (view.invalid id ("unknown sh:nodeKind " ++ kind))

/-- The range constraints of a shape by one term. -/
def parseRange (id : NodeId) (term : String) (make : Value → Constraint) :
    Except ShapeError (List Constraint) :=
  (view.get ext id term).mapM fun
    | .lit bound => .ok (make bound)
    | .node _ => .error (view.invalid id ("sh:" ++ term ++ " must be a literal"))

/-- The pattern constraint of a shape. -/
def parsePattern (id : NodeId) : Except ShapeError (List Constraint) :=
  match (view.get ext id "pattern").head? with
  | some (.lit pattern) =>
    let flags := match (view.get ext id "flags").head? with
      | some (.lit flags) => flags.asText.getD ""
      | _ => ""
    let source := if flags = "" then pattern.asText.getD ""
      else "(?" ++ flags ++ ")" ++ pattern.asText.getD ""
    match lib.regexNew source with
    | .ok () => .ok [.pattern source]
    | .error problem => .error (view.invalid id ("bad sh:pattern: " ++ problem))
  | _ => .ok []

/-- The constraints of a shape that are not about members of a list, in the order of the source. -/
def parseValueConstraints (id : NodeId) : Except ShapeError (List Constraint) := do
  let minCount ← view.parseInt ext lib id "minCount"
  let maxCount ← view.parseInt ext lib id "maxCount"
  let datatypes ← (view.get ext id "datatype").mapM (view.nodeOf id "datatype")
  let classes ← (view.get ext id "class").mapM (view.nodeOf id "class")
  let kinds ← (view.get ext id "nodeKind").mapM fun value => do
    view.nodeKindOf id (view.iri (← view.nodeOf id "nodeKind" value))
  let minInclusive ← view.parseRange ext id "minInclusive" .minInclusive
  let maxInclusive ← view.parseRange ext id "maxInclusive" .maxInclusive
  let minExclusive ← view.parseRange ext id "minExclusive" .minExclusive
  let maxExclusive ← view.parseRange ext id "maxExclusive" .maxExclusive
  let pattern ← view.parsePattern ext lib id
  let minLength ← view.parseInt ext lib id "minLength"
  let maxLength ← view.parseInt ext lib id "maxLength"
  return minCount.toList.map .minCount ++ maxCount.toList.map .maxCount ++
    datatypes.map (fun n => .datatype (view.iri n)) ++ classes.map .class ++ kinds.map .nodeKind ++
    minInclusive ++ maxInclusive ++ minExclusive ++ maxExclusive ++ pattern ++
    minLength.toList.map .minLength ++ maxLength.toList.map .maxLength

/-- The members of the list that a shape term names, nothing without the term. -/
def parseList (id : NodeId) (term : String) : Fuelled ShapeError (Option (List Obj)) :=
  match (view.get ext id term).head? with
  | none => return none
  | some value => do
    let head ← Fuelled.ofExcept (view.nodeOf id term value)
    return some (← Fuelled.ofOption (view.list ext head))

/-- The constraints of a shape, except that it is closed. -/
def parseConstraints (id : NodeId) : Fuelled ShapeError (List Constraint) := do
  let values ← Fuelled.ofExcept (view.parseValueConstraints ext lib id)
  let allowed ← view.parseList ext id "in"
  let nodes ← Fuelled.ofExcept ((view.get ext id "node").mapM (view.nodeOf id "node"))
  return values ++ allowed.toList.map .in ++ nodes.map .node

/-- The property shapes of a shape. -/
def parseProperties (id : NodeId) : Except ShapeError (List NodeId) :=
  (view.get ext id "property").mapM (view.nodeOf id "property")

/-- The predicate a property shape of a closed shape allows, when its path is one. -/
def parseAllowed (fuel : Nat) (id p : NodeId) : Fuelled ShapeError (Option String) :=
  match (view.get ext p "path").head? with
  | some (.node path) => do
    match ← view.parsePath ext id fuel path with
    | .predicate name => return some name
    | _ => return none
  | _ => return none

/-- The predicates a closed shape allows, nothing when the shape is not closed. -/
def parseClosed (fuel : Nat) (id : NodeId) (properties : List NodeId) :
    Fuelled ShapeError (List Constraint) :=
  if (view.get ext id "closed").head? = some (.lit (.bool true)) then do
    let allowed ← properties.mapM (view.parseAllowed ext fuel id)
    let ignored ← view.parseList ext id "ignoredProperties"
    let names ← Fuelled.ofExcept ((ignored.getD []).mapM (view.nodeOf id "ignoredProperties"))
    return [.closed (allowed.filterMap (fun name => name) ++ names.map view.iri)]
  else return []

/-- How severe the results of a shape are. -/
def parseSeverity (id : NodeId) : Except ShapeError Severity :=
  match (view.get ext id "severity").head? with
  | none => .ok .violation
  | some value => do
    match strippedPrefix SH (view.iri (← view.nodeOf id "severity" value)) with
    | some "Warning" => return .warning
    | some "Info" => return .info
    | _ => return .violation

/-- Parse the shape of a node, with its paths to some depth. -/
def parseShape (fuel : Nat) (id : NodeId) : Fuelled ShapeError Shape := do
  let targets ← Fuelled.ofExcept (view.parseTargets ext id)
  let path ← view.parseOwnPath ext fuel id
  let constraints ← view.parseConstraints ext lib id
  let properties ← Fuelled.ofExcept (view.parseProperties ext id)
  let closed ← view.parseClosed ext fuel id properties
  let severity ← Fuelled.ofExcept (view.parseSeverity ext id)
  return {
    id := id
    targets := targets
    path := path
    constraints := constraints ++ closed
    properties := properties
    severity := severity
    message := match (view.get ext id "message").head? with
      | some (.lit text) => text.asText
      | _ => none
    deactivated := decide ((view.get ext id "deactivated").head? = some (.lit (.bool true))) }

/-- The nodes that are shapes: typed as one, with a target, or referenced by one. -/
def shapeIds : List NodeId :=
  Seen.distinctBy id [] (
    (["NodeShape", "PropertyShape"].flatMap fun kind =>
      view.subjects ext RDF_TYPE (.node (iriToNodeId ext (sh kind)))) ++
    (["targetClass", "targetNode", "targetSubjectsOf", "targetObjectsOf"].flatMap fun term =>
      view.subjectsOf ext (sh term)) ++
    (["property", "node"].flatMap fun term =>
      (view.objectsOf ext (sh term)).filterMap Obj.asNode))

/-- Parse shapes in an order, with their paths to some depth. -/
def loadIn (fuel : Nat) (order : List NodeId) : Fuelled ShapeError (List (NodeId × Shape)) :=
  order.mapM fun id => do return (id, ← view.parseShape ext lib fuel id)

end DataView

end External

end Shacl

end Polargraph
