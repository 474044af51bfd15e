import Polargraph.Core.Temporal
import Polargraph.Core.Value

/-! The atomic storage unit: a triple with its bitemporal envelope. -/

namespace Polargraph

/-- The four flavours of triple. -/
inductive Triple where
  /-- A subject related to an object node. -/
  | relation (subject : NodeId) (predicate : String) (object : NodeId) (edgeId : EdgeId)
      (temporal : BiTemporalRange)
  /-- A subject with a scalar value. -/
  | property (subject : NodeId) (predicate : String) (value : Value) (temporal : BiTemporalRange)
  /-- An edge annotated with a scalar value. -/
  | edgeProperty (edge : EdgeId) (predicate : String) (value : Value) (temporal : BiTemporalRange)
  /-- An edge annotated with a relation to a node. -/
  | edgeRelation (edge : EdgeId) (predicate : String) (object : NodeId)
      (temporal : BiTemporalRange)
deriving DecidableEq

namespace Triple

/-- The subject node, which for an annotation is the edge read as a node. -/
def subject : Triple → NodeId
  | relation subject _ _ _ _ => subject
  | property subject _ _ _ => subject
  | edgeProperty edge _ _ _ => ⟨edge.uuid⟩
  | edgeRelation edge _ _ _ => ⟨edge.uuid⟩

/-- The predicate name. -/
def predicate : Triple → String
  | relation _ predicate _ _ _ => predicate
  | property _ predicate _ _ => predicate
  | edgeProperty _ predicate _ _ => predicate
  | edgeRelation _ predicate _ _ => predicate

/-- The bitemporal envelope. -/
def temporal : Triple → BiTemporalRange
  | relation _ _ _ _ temporal => temporal
  | property _ _ _ temporal => temporal
  | edgeProperty _ _ _ temporal => temporal
  | edgeRelation _ _ _ temporal => temporal

end Triple

/-- How a property write treats existing values of the same subject, predicate and graph. -/
inductive WriteMode where
  /-- Replace for an open-ended property, and add otherwise. -/
  | auto
  /-- Close every other open value, then write. -/
  | replace
  /-- Write alongside existing values. -/
  | add
deriving DecidableEq

/-- The effective mode of a triple, with the automatic mode resolved. -/
def WriteMode.resolve : WriteMode → Triple → WriteMode
  | auto, .property _ _ _ temporal =>
    if temporal.vtEnd = Timestamp.END_OF_TIME then replace else add
  | auto, _ => add
  | mode, _ => mode

/-- A buffered write: the triple, its graph and how it treats existing values. -/
structure PendingWrite where
  /-- The triple to write. -/
  triple : Triple
  /-- The graph it goes to. -/
  graph : GraphId
  /-- How a property treats existing values. -/
  mode : WriteMode
deriving DecidableEq

end Polargraph
