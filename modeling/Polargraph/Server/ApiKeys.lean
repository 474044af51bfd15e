import Polargraph.Lib.Machine
import Polargraph.Rest.SparqlValue

/-! API keys: the check of each request, and the requests that add and revoke keys. -/

namespace Polargraph

namespace ApiKeys

/-- Method paths that bypass authentication. -/
def EXEMPT_PATHS : List String := ["/polargraph.v1.PolarGraphService/ReplicaStatus"]

/-- Whether a key that was provided is a valid one. -/
def keyMatchesCt (provided valid : String) : Bool :=
  if (utf8 provided).length ≠ (utf8 valid).length then false
  else decide (utf8 provided = utf8 valid)

/-- Whether the authorization header carries a recognized key; it is absent when it is no text. -/
def checkBearerAuth (header : Option String) (keys : List String) : Bool :=
  match header with
  | none => false
  | some value =>
    match strippedPrefix "Bearer " value with
    | some key => keys.any (keyMatchesCt key)
    | none => match strippedPrefix "ApiKey " value with
      | some key => keys.any (keyMatchesCt key)
      | none => false

/-- Whether a request is passed on to the service, with the keys there are when it arrives. -/
def passes (keys : List String) (path : String) (header : Option String) : Bool :=
  -- Authentication is disabled without keys.
  keys.isEmpty || decide (path ∈ EXEMPT_PATHS) || checkBearerAuth header keys

/-- A request that manages keys. -/
inductive Change where
  /-- Add a key. -/
  | addApiKey (key : String)
  /-- Revoke a key. -/
  | revokeApiKey (key : String)
deriving DecidableEq

/-- The method path of a request. -/
def Change.path : Change → String
  | addApiKey _ => "/polargraph.v1.PolarGraphService/AddApiKey"
  | revokeApiKey _ => "/polargraph.v1.PolarGraphService/RevokeApiKey"

/-- The check of a request under the first lock. -/
def Change.check (keys : List String) : Change → Except Status Unit
  | addApiKey "" => .error (.status .invalidArgument "key must not be empty")
  | _ => if keys = [] then .error (.status .failedPrecondition
      "auth is disabled; start the server with --api-key to enable key management") else .ok ()

/-- The keys after a request under the second lock, with whether a key was found that is revoked. -/
def Change.write (keys : List String) : Change → List String × Bool
  | addApiKey key => (keys ++ [key], false)
  | revokeApiKey key =>
    let kept := keys.filter fun k => decide (k ≠ key)
    (kept, decide (kept.length < keys.length))

/-- The server: the keys, and the requests under way that were passed on or checked. -/
structure State where
  /-- The keys. -/
  keys : List String
  /-- Requests that are not checked yet. -/
  arrived : List Change
  /-- Requests that are checked and not written yet. -/
  checked : List Change
deriving DecidableEq

/-- What the server does next. -/
inductive Step where
  /-- A request arrives with a header. -/
  | arrive (header : Option String) (change : Change)
  /-- A request is checked. -/
  | check (change : Change)
  /-- A request is written. -/
  | write (change : Change)

/-- The state after a step. -/
def next (state : State) : Step → Option State
  | .arrive header change =>
    if passes state.keys change.path header then
      some { state with arrived := state.arrived ++ [change] }
    else some state
  | .check change =>
    if change ∈ state.arrived then
      match change.check state.keys with
      | .ok () => some { state with
          arrived := state.arrived.erase change
          checked := state.checked ++ [change] }
      | .error _ => some { state with arrived := state.arrived.erase change }
    else none
  | .write change =>
    if change ∈ state.checked then
      some { state with
        keys := (change.write state.keys).1
        checked := state.checked.erase change }
    else none

/-- A server that is started with a key and maybe more. -/
def start (first : String) (more : List String) : State := ⟨first :: more, [], []⟩

end ApiKeys

end Polargraph
