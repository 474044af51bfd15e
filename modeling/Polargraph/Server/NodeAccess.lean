import Polargraph.Lib.Machine
import Polargraph.Server.CypherWrite
import Polargraph.Server.DeleteTriples
import Polargraph.Server.GraphAcl

/-! Node-level access control: grants to groups, memberships, and the cache built from them. -/

namespace Polargraph

/-- `(Group) -[HAS_ACCESS]-> (Node)`. -/
def BUILTIN_HAS_ACCESS_PRED : String := "HAS_ACCESS"

/-- Property of a group: the name of a type whose instances it has access to. -/
def BUILTIN_HAS_ACCESS_TYPE_PRED : String := "HAS_ACCESS_TYPE"

/-- What a group is granted. -/
inductive GrantTarget where
  /-- A node, in bytes. -/
  | nodeId (bytes : Bytes)
  /-- All instances of a type. -/
  | typeName (name : String)

/-- A request to grant something to a group, or to revoke it. -/
structure AccessRequest where
  /-- The group, in bytes. -/
  groupId : Bytes
  /-- What is granted or revoked. -/
  target : Option GrantTarget

/-- A request to add a user to a group. -/
structure AddUserToGroupRequest where
  /-- The user, in bytes. -/
  userId : Bytes
  /-- The group, in bytes. -/
  groupId : Bytes

/-- The current instances of every class. -/
structure TypeIndex where
  /-- Classes with their instances. -/
  byClass : List (NodeId × List NodeId)

/-- The instances of any of some classes. -/
def TypeIndex.instancesOf (index : TypeIndex) (classes : List NodeId) : List NodeId :=
  (classes.filterMap (fun node => Latest.lookup node index.byClass)).flatten

/-- Limit a request to service calls. -/
def requireService (access : Option UserGraphAccess) : Except Status Unit :=
  match access with
  | some _ => .error (.status .permissionDenied "this RPC is limited to service calls (no user id)")
  | none => .ok ()

/-- A fact of node-level access control. -/
inductive AccessFact where
  /-- A user is in a group. -/
  | member (user group : NodeId)
  /-- A group is granted a node. -/
  | node (group node : NodeId)
  /-- A group is granted the instances of a type. -/
  | type (group : NodeId) (name : String)
deriving DecidableEq

namespace AccessFact

/-- The subject of the triple of a fact. -/
def subject : AccessFact → NodeId
  | member user _ => user
  | node group _ => group
  | type group _ => group

/-- The predicate of the triple of a fact. -/
def predicate : AccessFact → String
  | member .. => BUILTIN_MEMBER_OF_PRED
  | node .. => BUILTIN_HAS_ACCESS_PRED
  | type .. => BUILTIN_HAS_ACCESS_TYPE_PRED

/-- The triple of a fact over a window. -/
def triple (fact : AccessFact) (edge : EdgeId) (window : BiTemporalRange) : Triple :=
  match fact with
  | member user group => .relation user BUILTIN_MEMBER_OF_PRED group edge window
  | node group target => .relation group BUILTIN_HAS_ACCESS_PRED target edge window
  | type group name => .property group BUILTIN_HAS_ACCESS_TYPE_PRED (.text name) window

/-- Whether a triple has the object or the value of a fact, which is of its subject and predicate. -/
def same (fact : AccessFact) : Triple → Bool
  | .relation _ _ object _ _ => match fact with
    | member _ group => decide (object = group)
    | node _ target => decide (object = target)
    | type .. => false
  | .property _ _ value _ => match fact with
    | type _ name => decide (value = .text name)
    | _ => false
  | _ => false

end AccessFact

/-- What a request grants or revokes, checked in the order of the source. -/
def AccessRequest.fact (request : AccessRequest) : Except Status AccessFact := do
  let group ← nodeFromSlice request.groupId "group_id must be a 16-byte UUID"
  match request.target with
  | some (.nodeId bytes) =>
    let node ← nodeFromSlice bytes "node_id must be a 16-byte UUID"
    return .node group node
  | some (.typeName name) => return .type group name
  | none => .error (.status .invalidArgument "target (node_id or type_name) must be set")

/-- The membership a request adds. -/
def AddUserToGroupRequest.fact (request : AddUserToGroupRequest) : Except Status AccessFact := do
  let user ← nodeFromSlice request.userId "user_id must be a 16-byte UUID"
  let group ← nodeFromSlice request.groupId "group_id must be a 16-byte UUID"
  return .member user group

namespace TripleStore

section External

variable (ext : External)

/-- The class nodes of some type names, resolved through the vocabulary. -/
def classNodes (store : TripleStore) (prefixes : String → Option String) (names : List String) :
    List NodeId :=
  names.map fun name => iriToNodeId ext (store.vocabulary.expand prefixes name)

/-- The relations among some triples that have no end, as object and subject. -/
def endlessRelations (triples : List Triple) : List (NodeId × NodeId) :=
  triples.filterMap fun
    | .relation subject _ object _ temporal =>
      if temporal.vtEnd = Timestamp.END_OF_TIME then some (object, subject) else none
    | _ => none

/-- The text properties among some triples that have no end, as subject and text. -/
def endlessTexts (triples : List Triple) : List (NodeId × String) :=
  triples.filterMap fun
    | .property subject _ (.text text) temporal =>
      if temporal.vtEnd = Timestamp.END_OF_TIME then some (subject, text) else none
    | _ => none

/-- The nodes each user has access to through its groups, by the text of its identifier. -/
def buildAccessCache (store : TripleStore) (prefixes : String → Option String) (index : TypeIndex)
    (now : Timestamp) : Except StorageError (List (String × List NodeId)) := do
  let point : ReadAt := ⟨store.committed, none, none⟩
  let members ← store.scanByPredicateAt ext BUILTIN_MEMBER_OF_PRED point now
  let groupToUsers := Latest.gather ((endlessRelations members).map fun pair => (pair.1, [pair.2]))
  let grants ← store.scanByPredicateAt ext BUILTIN_HAS_ACCESS_PRED point now
  let groupToNodes := Latest.gather ((endlessRelations grants).map fun pair => (pair.2, [pair.1]))
  let types ← store.scanByPredicateAt ext BUILTIN_HAS_ACCESS_TYPE_PRED point now
  let groupToTypes := Latest.gather ((endlessTexts types).map fun pair => (pair.1, [pair.2]))
  return Latest.gather (groupToUsers.flatMap fun (group, users) =>
    let direct := (Latest.lookup group groupToNodes).getD []
    let typed := ((Latest.lookup group groupToTypes).map fun names =>
      index.instancesOf (store.classNodes ext prefixes names)).getD []
    users.map fun user => (user.uuid.display, direct ++ typed))

/-- Write the triple of a fact, from the epoch on. -/
def assertFact (store : TripleStore) (fact : AccessFact) (edge : EdgeId) (now : Timestamp) :
    TripleStore × Except Status Unit :=
  let triple := fact.triple edge ⟨Timestamp.zero, Timestamp.END_OF_TIME, now⟩
  match store.commit ext (store.begin.insertIn triple GraphId.DEFAULT .auto) now with
  | (store, .error problem) => (store, .error (.storage problem))
  | (store, .ok _) => (store, .ok ())

/-- The writes that close the open-ended triples of a fact among those of its subject. -/
def factClosings (fact : AccessFact) (edges : Nat → EdgeId) (now : Timestamp)
    (existing : List Triple) : List Triple :=
  (existing.filter fun triple => fact.same triple
      && decide (triple.temporal.vtEnd = Timestamp.END_OF_TIME)).mapIdx
    fun n triple => fact.triple (edges n) ⟨triple.temporal.vtStart, now, now⟩

/-- Close the triples of a fact. -/
def retractFact (store : TripleStore) (fact : AccessFact) (edges : Nat → EdgeId) (now : Timestamp) :
    TripleStore × Except Status Unit :=
  match store.scanBySubjectPredicateAt ext fact.subject fact.predicate
      ⟨store.committed, none, none⟩ now with
  | .error problem => (store, .error (.storage problem))
  | .ok existing =>
    let tx := (factClosings fact edges now existing).foldl
      (fun (tx : Transaction) triple => tx.insertIn triple GraphId.DEFAULT .auto) store.begin
    match store.commit ext tx now with
    | (store, .error problem) => (store, .error (.storage problem))
    | (store, .ok _) => (store, .ok ())

/-- Grant a group access to a node or to all nodes of a type. -/
def grantAccess (store : TripleStore) (access : Option UserGraphAccess) (request : AccessRequest)
    (edge : EdgeId) (now : Timestamp) : TripleStore × Except Status Unit :=
  match (do requireService access; request.fact) with
  | .error refused => (store, .error refused)
  | .ok fact => store.assertFact ext fact edge now

/-- Revoke a group's grant by closing its valid time. -/
def revokeAccess (store : TripleStore) (access : Option UserGraphAccess) (request : AccessRequest)
    (edges : Nat → EdgeId) (now : Timestamp) : TripleStore × Except Status Unit :=
  match (do requireService access; request.fact) with
  | .error refused => (store, .error refused)
  | .ok fact => store.retractFact ext fact edges now

/-- Add a user to a group. -/
def addUserToGroup (store : TripleStore) (access : Option UserGraphAccess)
    (request : AddUserToGroupRequest) (edge : EdgeId) (now : Timestamp) :
    TripleStore × Except Status Unit :=
  match (do requireService access; request.fact) with
  | .error refused => (store, .error refused)
  | .ok fact => store.assertFact ext fact edge now

end External

end TripleStore

/-- A store, the clock, and the grants and memberships that hold by the requests so far. -/
structure AccessHistory where
  /-- The store. -/
  store : TripleStore
  /-- The clock. -/
  now : Timestamp
  /-- The memberships that were added, and the grants that were not revoked since. -/
  facts : List AccessFact

/-- A request about node-level access, or another transaction. -/
inductive AccessStep where
  /-- A grant. -/
  | grant (access : Option UserGraphAccess) (request : AccessRequest) (edge : EdgeId)
      (now : Timestamp)
  /-- A revocation. -/
  | revoke (access : Option UserGraphAccess) (request : AccessRequest) (edges : Nat → EdgeId)
      (now : Timestamp)
  /-- A membership. -/
  | addUser (access : Option UserGraphAccess) (request : AddUserToGroupRequest) (edge : EdgeId)
      (now : Timestamp)
  /-- A transaction that writes none of the predicates of node-level access. -/
  | other (tx : Transaction) (now : Timestamp)

/-- The predicates of node-level access. -/
def NODE_ACCESS_PREDS : List String :=
  [BUILTIN_MEMBER_OF_PRED, BUILTIN_HAS_ACCESS_PRED, BUILTIN_HAS_ACCESS_TYPE_PRED]

namespace AccessHistory

/-- A new store, without grants and memberships. -/
def fresh (inlineMax : Nat) (vocabulary : Vocabulary) (canonical : Bool) : AccessHistory :=
  ⟨TripleStore.configured inlineMax vocabulary canonical, Timestamp.zero, []⟩

/-- The facts after a request that asserts one, unless it failed. -/
def afterAsserting (state : AccessHistory) (fact : Except Status AccessFact) (now : Timestamp)
    (done : TripleStore × Except Status Unit) : AccessHistory :=
  ⟨done.1, now, match fact, done.2 with
    | .ok fact, .ok () => fact :: state.facts
    | _, _ => state.facts⟩

/-- The facts after a request that retracts one, unless it failed. -/
def afterRetracting (state : AccessHistory) (fact : Except Status AccessFact) (now : Timestamp)
    (done : TripleStore × Except Status Unit) : AccessHistory :=
  ⟨done.1, now, match fact, done.2 with
    | .ok fact, .ok () => state.facts.filter (fun other => decide (other ≠ fact))
    | _, _ => state.facts⟩

/-- The time of a step. -/
def time : AccessStep → Timestamp
  | .grant _ _ _ now => now
  | .revoke _ _ _ now => now
  | .addUser _ _ _ now => now
  | .other _ now => now

/-- The state after a step, when the clock does not go back and no other step writes the predicates. -/
def next (ext : External) (state : AccessHistory) (step : AccessStep) : Option AccessHistory :=
  if time step < state.now then none
  else match step with
    | .grant access request edge now => some (state.afterAsserting request.fact now
        (state.store.grantAccess ext access request edge now))
    | .revoke access request edges now => some (state.afterRetracting request.fact now
        (state.store.revokeAccess ext access request edges now))
    | .addUser access request edge now => some (state.afterAsserting request.fact now
        (state.store.addUserToGroup ext access request edge now))
    | .other tx now =>
      if tx.writes.any (fun w => NODE_ACCESS_PREDS.contains w.triple.predicate) then none
      else some { state with store := (state.store.commit ext tx now).1, now := now }

/-- A user may access a node through one of its groups. -/
def MayAccess (ext : External) (state : AccessHistory) (prefixes : String → Option String)
    (index : TypeIndex) (user node : NodeId) : Prop :=
  ∃ group, .member user group ∈ state.facts ∧ (.node group node ∈ state.facts ∨
    ∃ name, .type group name ∈ state.facts ∧
      node ∈ index.instancesOf (state.store.classNodes ext prefixes [name]))

/-- The cache gives every user exactly the nodes its groups are granted, from now on. -/
def AddsUp (ext : External) (state : AccessHistory) : Prop :=
  ∀ prefixes index now, state.now ≤ now → now ≠ Timestamp.END_OF_TIME →
    ∃ cache, state.store.buildAccessCache ext prefixes index now = .ok cache ∧
      ∀ user node, node ∈ (Latest.lookup user.uuid.display cache).getD [] ↔
        state.MayAccess ext prefixes index user node

end AccessHistory

end Polargraph
