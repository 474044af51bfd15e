import Polargraph.Server.Access
import Polargraph.Storage.Reads

/-! Cypher writes: operations buffered into a transaction once for each matched row. -/

namespace Polargraph

/-- The predicate of the types of a node. -/
def RDF_TYPE : String := "http://www.w3.org/1999/02/22-rdf-syntax-ns#type"

/-- A literal of a Cypher statement. -/
inductive CypherValue where
  /-- A string. -/
  | str (text : String)
  /-- A signed 64-bit number, as its word. -/
  | int (word : UInt64)
  /-- A double, as its bits. -/
  | float (bits : UInt64)
  /-- A truth value. -/
  | bool (truth : Bool)
  /-- A parameter that was not substituted. -/
  | param (name : String)
deriving DecidableEq

/-- The value a literal stores. -/
def CypherValue.toCoreValue : CypherValue → Value
  | str text => .text text
  | int word => .int word
  | float bits => .float bits
  | bool truth => .bool truth
  | param _ => .null

/-- A clause that sets a property of a variable's node. -/
structure SetClause where
  /-- The variable. -/
  var : String
  /-- The property. -/
  key : String
  /-- Its new value. -/
  value : CypherValue

/-- One operation of a Cypher write. -/
inductive Cypher.WriteOp where
  /-- Create a node. -/
  | createNode (var label : Option String) (props : List (String × CypherValue))
  /-- Relate the nodes of two variables. -/
  | createRelation (subjectVar predicate objectVar : String)
  /-- Find a node, or create it. -/
  | merge (var label : Option String) (props : List (String × CypherValue))
  /-- Set properties. -/
  | set (clauses : List SetClause)
  /-- Close every live triple of the nodes of some variables. -/
  | delete (vars : List String)

/-- Why a Cypher write failed. -/
inductive CypherWriteError where
  /-- A variable has no node. -/
  | unboundVariable (name : String)
  /-- The store failed. -/
  | storage (problem : StorageError)
  /-- An identifier property is not the text of an identifier. -/
  | invalidNodeId (given : CypherValue)
deriving DecidableEq

/-- What a Cypher write did. -/
structure WriteResult where
  /-- The nodes it created. -/
  createdIds : List NodeId
  /-- How many triples it wrote. -/
  triplesWritten : Nat
  /-- How many triples it closed. -/
  triplesDeleted : Nat
deriving DecidableEq

/-- The nodes of the variables, the latest binding of each first. -/
abbrev Bindings := List (String × NodeId)

namespace Vocabulary

/-- A name as an IRI, given the namespaces of the declared prefixes. -/
def expand (vocabulary : Vocabulary) (prefixes : String → Option String) (name : String) : String :=
  if isBare name then vocabulary.base ++ name
  else
    let letters := name.toList
    let declared := String.ofList (letters.takeWhile (fun c => decide (c ≠ ':')))
    match letters.dropWhile (fun c => decide (c ≠ ':')) with
    | [] => name
    | _ :: local_ =>
      match prefixes declared with
      | some ns => if "//".toList.isPrefixOf local_ then name else ns ++ String.ofList local_
      | none => name

/-- A predicate name of a statement: bare names are resolved when they are stored. -/
def resolveName (vocabulary : Vocabulary) (prefixes : String → Option String) (name : String) :
    String :=
  if isBare name then name else vocabulary.expand prefixes name

end Vocabulary

/-- The node an identifier property names, if there is one. -/
def nodeIdFromProps (ext : External) (props : List (String × CypherValue)) :
    Except CypherWriteError (Option NodeId) :=
  match props.find? (fun prop => decide (prop.1 = "id")) with
  | none => .ok none
  | some (_, .str text) =>
    match ext.parseUuid text with
    | some uuid => .ok (some ⟨uuid⟩)
    | none => .error (.invalidNodeId (.str text))
  | some (_, other) => .error (.invalidNodeId other)

/-- A triple with its valid time closed at a time, annotations included. -/
def closeValidTime (now : Timestamp) : Triple → Triple
  | .relation subject predicate object edgeId temporal =>
    .relation subject predicate object edgeId { temporal with vtEnd := now }
  | .property subject predicate value temporal =>
    .property subject predicate value { temporal with vtEnd := now }
  | .edgeProperty edge predicate value temporal =>
    .edgeProperty edge predicate value { temporal with vtEnd := now }
  | .edgeRelation edge predicate object temporal =>
    .edgeRelation edge predicate object { temporal with vtEnd := now }

/-- What a Cypher write reads and where it writes. -/
structure WriteContext where
  /-- The store. -/
  store : TripleStore
  /-- The point it reads at. -/
  point : ReadAt
  /-- The namespaces of the declared prefixes. -/
  prefixes : String → Option String
  /-- The graph it writes to, if one is named. -/
  graph : Option GraphId
  /-- The identifiers it draws at random, one after another. -/
  drawn : Nat → Uuid
  /-- The clock. -/
  now : Timestamp

/-- What a Cypher write has buffered and bound so far. -/
structure WriteState where
  /-- The transaction it buffers into. -/
  tx : Transaction
  /-- The nodes of the variables. -/
  bindings : Bindings
  /-- How many identifiers it has drawn. -/
  draws : Nat
  /-- What it did. -/
  result : WriteResult

/-- A storage operation of a Cypher write. -/
def cypherStorage {α : Type} : Except StorageError α → Except CypherWriteError α
  | .ok value => .ok value
  | .error problem => .error (.storage problem)

namespace WriteContext

section External

variable (ext : External) (context : WriteContext)

/-- Live triples by subject or predicate, of the written graph or of every graph. -/
def readScoped (subject : Option NodeId) (predicate : Option String) :
    Except StorageError (List Triple) :=
  let store := context.store
  match context.graph, subject, predicate with
  | some g, s, p => do
    let quads ← store.scanScopedAt ext s p none (.one g) context.point context.now
    return quads.map Prod.snd
  | none, some s, some p => store.scanBySubjectPredicateAt ext s p context.point context.now
  | none, some s, none => store.scanBySubjectAt ext s context.point context.now
  | none, none, some p => store.scanByPredicateAt ext p context.point context.now
  | none, none, none => store.scanAllAt ext context.point context.now

/-- The class node of a label, with its IRI. -/
def labelClass (label : String) : String × NodeId :=
  let iri := context.store.vocabulary.expand context.prefixes label
  (iri, iriToNodeId ext iri)

/-- The name a property or relation is stored under. -/
def resolve (name : String) : String := context.store.vocabulary.resolveName context.prefixes name

/-- Whether one of some triples is a property with a value. -/
def holdsValue (value : Value) (triples : List Triple) : Bool :=
  triples.any fun triple =>
    match triple with
    | .property _ _ held _ => held.same value
    | _ => false

/-- Whether a node has every one of some properties. -/
def hasProps (node : NodeId) : List (String × CypherValue) → Except StorageError Bool
  | [] => .ok true
  | (key, value) :: rest => do
    let triples ← context.readScoped ext (some node) (some (context.resolve key))
    if holdsValue value.toCoreValue triples then hasProps node rest else return false

/-- The first of some nodes that has every one of some properties. -/
def firstWithProps (props : List (String × CypherValue)) :
    List NodeId → Except StorageError (Option NodeId)
  | [] => .ok none
  | node :: rest => do
    if ← context.hasProps ext node props then return some node else firstWithProps props rest

/-- The first node with a label and properties. -/
def findMatchingNode (label : Option String) (props : List (String × CypherValue)) :
    Except StorageError (Option NodeId) :=
  match label, props with
  | some label, _ => do
    let scope := context.graph.elim GraphScope.union GraphScope.one
    let typed ← context.store.scanScopedAt ext none (some RDF_TYPE)
      (some (context.labelClass ext label).2) scope context.point context.now
    context.firstWithProps ext props (typed.map (fun quad => quad.2.subject))
  | none, (key, value) :: _ => do
    let triples ← context.readScoped ext none (some (context.resolve key))
    context.firstWithProps ext props (triples.filterMap fun triple =>
      match triple with
      | .property subject _ held _ => if held.same value.toCoreValue then some subject else none
      | _ => none)
  | none, [] => .ok none

/-- Buffer a triple for the written graph. -/
def put (tx : Transaction) (triple : Triple) : Transaction :=
  tx.insertIn triple (context.graph.getD GraphId.DEFAULT) .auto

/-- Buffer the type of a node. -/
def putLabel (tx : Transaction) (node : NodeId) (label : String) : Transaction :=
  let (iri, cls) := context.labelClass ext label
  context.put (tx.bindIri iri) (.relation node RDF_TYPE cls
    (edgeIdFor ext node.uuid.display RDF_TYPE iri) (.assertNow context.now))

/-- Buffer a new node with its label and properties. -/
def putNode (state : WriteState) (node : NodeId) (label : Option String)
    (props : List (String × CypherValue)) : WriteState :=
  let labelled := label.elim state.tx (context.putLabel ext state.tx node)
  let tx := props.foldl (fun tx prop => context.put tx (.property node (context.resolve prop.1)
    prop.2.toCoreValue (.assertNow context.now))) labelled
  { state with
    tx := tx
    result := { state.result with
      createdIds := state.result.createdIds ++ [node]
      triplesWritten := state.result.triplesWritten + label.toList.length + props.length } }

/-- Bind a variable, if there is one, to a node. -/
def bind (state : WriteState) (var : Option String) (node : NodeId) : WriteState :=
  { state with bindings := (var.map (fun name => (name, node))).toList ++ state.bindings }

/-- The node of a variable. -/
def boundNode (state : WriteState) (var : String) : Except CypherWriteError NodeId :=
  match state.bindings.lookup var with
  | some node => .ok node
  | none => .error (.unboundVariable var)

/-- The node a new node gets: the one it names, or one drawn at random. -/
def newNode (state : WriteState) (named : Option NodeId) : WriteState × NodeId :=
  match named with
  | some node => (state, node)
  | none => ({ state with draws := state.draws + 1 }, ⟨context.drawn state.draws⟩)

/-- Set properties one after another; what was set before a failure stays buffered. -/
def setAll (state : WriteState) : List SetClause → WriteState × Except CypherWriteError Unit
  | [] => (state, .ok ())
  | clause :: rest =>
    match boundNode state clause.var with
    | .error problem => (state, .error problem)
    | .ok node =>
      setAll { state with
        tx := context.put state.tx (.property node (context.resolve clause.key)
          clause.value.toCoreValue (.assertNow context.now))
        result := { state.result with
          triplesWritten := state.result.triplesWritten + 1 } } rest

/-- Close the live triples of the nodes of variables one after another. -/
def deleteAll (state : WriteState) : List String → WriteState × Except CypherWriteError Unit
  | [] => (state, .ok ())
  | var :: rest =>
    match boundNode state var with
    | .error problem => (state, .error problem)
    | .ok node =>
      match cypherStorage (context.store.scanScopedAt ext (some node) none none
          (context.graph.elim GraphScope.union GraphScope.one) context.point context.now) with
      | .error problem => (state, .error problem)
      | .ok quads =>
        deleteAll { state with
          tx := quads.foldl (fun tx quad =>
            tx.insertIn (closeValidTime context.now quad.2) quad.1 .add) state.tx
          result := { state.result with
            triplesDeleted := state.result.triplesDeleted + quads.length } } rest

/-- The node a merge finds: the one it names when that has data, or one that matches. -/
def mergeFinds (named : Option NodeId) (label : Option String)
    (props : List (String × CypherValue)) : Except StorageError (Option NodeId) :=
  match named with
  | some node => do
    let triples ← context.readScoped ext (some node) none
    return if triples.isEmpty then none else some node
  | none => context.findMatchingNode ext label props

/-- Carry out one operation; what it buffered before a failure stays buffered. -/
def executeOp (state : WriteState) : Cypher.WriteOp → WriteState × Except CypherWriteError Unit
  | .createNode var label props =>
    match nodeIdFromProps ext props with
    | .error problem => (state, .error problem)
    | .ok named =>
      let (state, node) := context.newNode state named
      (bind (context.putNode ext state node label props) var node, .ok ())
  | .createRelation subjectVar predicate objectVar =>
    match boundNode state subjectVar, boundNode state objectVar with
    | .error problem, _ => (state, .error problem)
    | .ok _, .error problem => (state, .error problem)
    | .ok subject, .ok object =>
      ({ state with
        tx := context.put state.tx (.relation subject (context.resolve predicate) object
          ⟨context.drawn state.draws⟩ (.assertNow context.now))
        draws := state.draws + 1
        result := { state.result with
          triplesWritten := state.result.triplesWritten + 1 } }, .ok ())
  | .merge var label props =>
    match nodeIdFromProps ext props with
    | .error problem => (state, .error problem)
    | .ok named =>
      match cypherStorage (context.mergeFinds ext named label props) with
      | .error problem => (state, .error problem)
      | .ok (some node) => (bind state var node, .ok ())
      | .ok none =>
        let (state, node) := context.newNode state named
        (bind (context.putNode ext state node label props) var node, .ok ())
  | .set clauses => context.setAll state clauses
  | .delete vars => context.deleteAll ext state vars

/-- Carry out operations one after another. -/
def executeWriteOpsIn (state : WriteState) :
    List Cypher.WriteOp → WriteState × Except CypherWriteError Unit
  | [] => (state, .ok ())
  | op :: rest =>
    match context.executeOp ext state op with
    | (state, .error problem) => (state, .error problem)
    | (state, .ok ()) => executeWriteOpsIn state rest

/-- Carry out the operations once for each matched row. -/
def executeRows (ops : List Cypher.WriteOp) (state : WriteState) :
    List Bindings → WriteState × Except CypherWriteError Unit
  | [] => (state, .ok ())
  | row :: rest =>
    match context.executeWriteOpsIn ext { state with bindings := row } ops with
    | (state, .error problem) => (state, .error problem)
    | (state, .ok ()) => executeRows ops state rest

end External

end WriteContext

end Polargraph
