import Polargraph.Storage.Graphs

/-! What callers may do with graphs, and the statuses that refuse them. -/

namespace Polargraph

/-- A graph-level access grant; each level implies the ones below it. -/
inductive GraphAccessLevel where
  /-- Read the graph's quads. -/
  | read
  /-- Submit proposals against the graph. -/
  | propose
  /-- Write quads into the graph. -/
  | write
  /-- Manage the graph. -/
  | admin
deriving DecidableEq

namespace GraphAccessLevel

/-- The number of a level. -/
def rank : GraphAccessLevel → Nat
  | read => 0
  | propose => 1
  | write => 2
  | admin => 3

/-- The levels, lowest first. -/
def ALL : List GraphAccessLevel := [read, propose, write, admin]

/-- The name of a level. -/
def asStr : GraphAccessLevel → String
  | read => "read"
  | propose => "propose"
  | write => "write"
  | admin => "admin"

end GraphAccessLevel

/-- One user's effective graph access. -/
structure UserGraphAccess where
  /-- The graphs where the user's level is a level or higher. -/
  atLeast : GraphAccessLevel → List GraphId
  /-- The readable graphs, the default graph included. -/
  readable : List GraphId

namespace UserGraphAccess

/-- The user's level on a graph; the default graph is writable by everyone. -/
def level (access : UserGraphAccess) (g : GraphId) : Option GraphAccessLevel :=
  if g = GraphId.DEFAULT then some .write
  else GraphAccessLevel.ALL.reverse.find? (fun level => (access.atLeast level).contains g)

/-- Whether the user has at least a level on a graph. -/
def allows (access : UserGraphAccess) (g : GraphId) (level : GraphAccessLevel) : Bool :=
  (access.level g).any (fun own => decide (level.rank ≤ own.rank))

end UserGraphAccess

/-- The codes of the statuses the modelled requests fail with. -/
inductive StatusCode where
  /-- The request is malformed. -/
  | invalidArgument
  /-- Something named does not exist. -/
  | notFound
  /-- Something named exists with another meaning. -/
  | alreadyExists
  /-- The caller may not do this. -/
  | permissionDenied
  /-- The request is too large. -/
  | resourceExhausted
  /-- The state does not allow the request. -/
  | failedPrecondition
  /-- Another transaction was first. -/
  | aborted
  /-- The server failed. -/
  | internal
deriving DecidableEq

/-- The text of a storage error. -/
def StorageError.display : StorageError → String
  | .serde text => "Serialisation error: " ++ text
  | .keyDecode text => "Key decode error: " ++ text
  | .writeConflict conflict => "Write conflict: write conflict on (" ++ conflict.subject.uuid.display
      ++ ", " ++ conflict.predicate ++ "): committed by another transaction after read_ts"
  | .validation text => "Validation error: " ++ text
  | .iriCollision node existing new => "IRI collision on node " ++ node.uuid.display ++ ": "
      ++ existing.quote ++ " already stored, " ++ new.quote ++ " rejected"

/-- Why a request failed. -/
inductive Status where
  /-- A code and a text. -/
  | status (code : StatusCode) (message : String)
  /-- An error of the store. -/
  | storage (problem : StorageError)
deriving DecidableEq

/-- The code of a status. -/
def Status.code : Status → StatusCode
  | status code _ => code
  | storage (.writeConflict _) => .aborted
  | storage (.serde _) => .internal
  | storage (.keyDecode _) => .internal
  | storage (.validation _) => .failedPrecondition
  | storage (.iriCollision ..) => .alreadyExists

/-- The result of a storage operation as that of a request. -/
def storageErrToStatus {α : Type} : Except StorageError α → Except Status α
  | .ok value => .ok value
  | .error problem => .error (.storage problem)

/-- IRI prefix of inferred graphs. -/
def INFERRED_GRAPH_PREFIX : String := "urn:pg:inferred:"

/-- Whether an IRI names an inferred graph. -/
def isInferredGraphIri (iri : String) : Bool := INFERRED_GRAPH_PREFIX.toList.isPrefixOf iri.toList

/-- Predicates that define access control, which only service calls may write. -/
def ACCESS_CONTROL_PREDS : List String :=
  ["MEMBER_OF", "HAS_ACCESS", "HAS_ACCESS_TYPE", "HAS_GRAPH_ACCESS", "GRAPH_ACCESS_LEVEL"]

/-- Refuse a user's write that contains access-control triples. -/
def rejectUserAclWrites (access : Option UserGraphAccess) (predicates : List String) :
    Except Status Unit :=
  if access.isNone then .ok ()
  else match predicates.find? (fun pred => ACCESS_CONTROL_PREDS.contains pred) with
    | some pred => .error (.status .permissionDenied
        (pred ++ " triples are access control and can only be written by a service call"))
    | none => .ok ()

/-- Refuse a write to an inferred graph, which inference alone writes. -/
def rejectInferredGraph (iri : String) : Except Status Unit :=
  if isInferredGraphIri iri then
    .error (.status .permissionDenied
      ("<" ++ iri ++ "> is an inferred graph; it is written by OWL RL inference only"))
  else .ok ()

/-- Refuse a caller without a level on a graph; service calls have every level. -/
def requireLevel (access : Option UserGraphAccess) (g : GraphId) (level : GraphAccessLevel)
    (graphName : String) : Except Status Unit :=
  match access with
  | some own =>
    if !own.allows g level then
      .error (.status .permissionDenied
        (level.asStr ++ " access to graph <" ++ graphName ++ "> required"))
    else .ok ()
  | none => .ok ()

namespace TripleStore

/-- The graph an IRI names, the default graph for the empty one. -/
def existingGraph (store : TripleStore) (iri : String) : Except Status GraphId :=
  if iri = "" then .ok GraphId.DEFAULT
  else match store.graphId iri with
    | some g => .ok g
    | none => .error (.status .notFound ("unknown graph: " ++ iri))

section External

variable (ext : External)

/-- A write target, created on first use. -/
def targetGraph (store : TripleStore) (iri : String) (now : Timestamp) :
    TripleStore × Except Status GraphId :=
  if iri = "" then (store, .ok GraphId.DEFAULT)
  else match rejectInferredGraph iri with
    | .error refused => (store, .error refused)
    | .ok () =>
      let (store, created) := store.createGraphBy ext iri [] "" now
      (store, storageErrToStatus created)

/-- The graph an IRI names, when the caller has a level on it; only service calls create graphs. -/
def graphFor (store : TripleStore) (access : Option UserGraphAccess) (iri : String)
    (level : GraphAccessLevel) (create : Bool) (now : Timestamp) :
    TripleStore × Except Status GraphId :=
  match if GraphAccessLevel.propose.rank ≤ level.rank then rejectInferredGraph iri else .ok () with
  | .error refused => (store, .error refused)
  | .ok () =>
    if access.isNone then
      if create then store.targetGraph ext iri now else (store, store.existingGraph iri)
    else match store.existingGraph iri with
      | .error refused =>
        if refused.code = .notFound then
          (store, .error (.status .permissionDenied (level.asStr ++ " access to graph <" ++ iri
            ++ "> required (create it with CreateGraph first)")))
        else (store, .error refused)
      | .ok g =>
        match requireLevel access g level iri with
        | .error refused => (store, .error refused)
        | .ok () => (store, .ok g)

end External

end TripleStore

end Polargraph
