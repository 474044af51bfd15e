import Polargraph.Lib.Machine
import Polargraph.Server.ApplyChanges
import Polargraph.Server.GraphAcl

/-! Creating graphs: the check, the creation and the grant of a request, each a step of its own. -/

namespace Polargraph

/-- A request to create a graph, with the user it is resolved to. -/
structure CreateGraphRequest where
  /-- The user, empty for a service call. -/
  author : String
  /-- The IRI of the graph. -/
  iri : String
  /-- The metadata to set. -/
  metadata : List (String × Option Value)

/-- The metadata of a request. -/
def metadataFromProto (given : List (String × Option Value)) :
    Except Status (List (String × Value)) :=
  given.mapM fun (predicate, value) => do
    if predicate = "" then .error (.status .invalidArgument "metadata predicate must not be empty")
    return (predicate, ← requiredValue "metadata value is required" value)

/-- How far a request to create a graph is. -/
inductive CreateGraphCall where
  /-- The check has passed; the creator is to become admin. -/
  | checked (request : CreateGraphRequest) (creator : Option NodeId)
      (metadata : List (String × Value))
  /-- The graph exists; the creator is to become admin. -/
  | created (iri : String) (creator : Option NodeId) (g : GraphId)

/-- The store, the requests to create a graph that are under way, and what came of the others. -/
structure GraphCreation where
  /-- The store. -/
  store : TripleStore
  /-- The requests under way. -/
  calls : Nat → Option CreateGraphCall
  /-- The graphs that were created, each with the user that did, which is empty for a service call. -/
  origins : List (String × String)
  /-- The users that received Admin by creating a graph. -/
  admins : List (String × NodeId)

/-- A step of a request to create a graph, of a service call or of another transaction. -/
inductive CreationStep where
  /-- A request is checked against the graphs and against the cached grants. -/
  | check (call : Nat) (request : CreateGraphRequest) (index : GraphAccessIndex)
  /-- A checked request creates the graph. -/
  | create (call : Nat) (now : Timestamp)
  /-- A request that created the graph grants Admin. -/
  | grant (call : Nat) (now : Timestamp)
  /-- A service call writes to a graph, which creates it on first use. -/
  | serviceWrite (iri : String) (now : Timestamp)
  /-- Another transaction commits. -/
  | other (tx : Transaction) (wall : Timestamp)

/-- The access of a caller, absent for a service call. -/
def callerAccess (ext : External) (index : GraphAccessIndex) (userId : String) :
    Option UserGraphAccess :=
  if userId = "" then none
  else match principalNode ext userId with
    | .ok user => some (index.forUser user)
    | .error _ => none

namespace TripleStore

/-- The user that becomes admin of a new graph; changing an existing graph's metadata needs Admin. -/
def creatorOf (ext : External) (store : TripleStore) (access : Option UserGraphAccess)
    (request : CreateGraphRequest) : Except Status (Option NodeId) :=
  match access, store.graphId request.iri with
  | some own, some g => (requireLevel (some own) g .admin request.iri).map (fun _ => none)
  | some _, none => (principalNode ext request.author).map some
  | none, _ => .ok none

/-- The check of a request to create a graph: the user to become admin, and the metadata to set. -/
def checkCreateGraph (ext : External) (store : TripleStore) (index : GraphAccessIndex)
    (request : CreateGraphRequest) : Except Status (Option NodeId × List (String × Value)) :=
  if request.iri = "" then .error (.status .invalidArgument "graph iri must not be empty")
  else do
    rejectInferredGraph request.iri
    let creator ← store.creatorOf ext (callerAccess ext index request.author) request
    let metadata ← metadataFromProto request.metadata
    return (creator, metadata)

end TripleStore

namespace GraphCreation

/-- A store without requests. -/
def opened (store : TripleStore) : GraphCreation := ⟨store, fun _ => none, [], []⟩

/-- The state after a write that creates a graph unless it exists. -/
def afterCreating (state : GraphCreation) (store : TripleStore) (iri author : String) :
    GraphCreation :=
  { state with
    store := store
    origins := if (state.store.graphId iri).isNone && (store.graphId iri).isSome then
        state.origins ++ [(iri, author)]
      else state.origins }

/-- The state after a step, unless the step is not enabled. -/
def next (ext : External) (state : GraphCreation) : CreationStep → Option GraphCreation
  | .check call request index =>
    match state.calls call with
    | some _ => none
    | none =>
      match state.store.checkCreateGraph ext index request with
      | .error _ => some state
      | .ok (creator, metadata) => some { state with
          calls := Function.update state.calls call (some (.checked request creator metadata)) }
  | .create call now =>
    match state.calls call with
    | some (.checked request creator metadata) =>
      let (store, created) :=
        state.store.createGraphBy ext request.iri metadata request.author now
      some { state.afterCreating store request.iri request.author with
        calls := Function.update state.calls call (match created with
          | .ok g => some (.created request.iri creator g)
          | .error _ => none) }
    | _ => none
  | .grant call now =>
    match state.calls call with
    | some (.created iri creator g) =>
      let ended := Function.update state.calls call none
      match creator with
      | none => some { state with calls := ended }
      | some user =>
        match state.store.grantGraphAccess ext user g .admin now with
        | (store, .error _) => some { state with store := store, calls := ended }
        | (store, .ok ()) => some { state with
            store := store
            calls := ended
            admins := state.admins ++ [(iri, user)] }
    | _ => none
  | .serviceWrite iri now =>
    some (state.afterCreating (state.store.targetGraph ext iri now).1 iri "")
  | .other tx wall => some { state with store := (state.store.commit ext tx wall).1 }

end GraphCreation

end Polargraph
