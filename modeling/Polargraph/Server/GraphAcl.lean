import Polargraph.Server.Access
import Polargraph.Storage.OwlRl
import Polargraph.Storage.Reads

/-! Graph-level access control: grants in the system graph, and the index built from them. -/

namespace Polargraph

/-- `(User) -[MEMBER_OF]-> (Group)`. -/
def BUILTIN_MEMBER_OF_PRED : String := "MEMBER_OF"

/-- `(User or Group) -[HAS_GRAPH_ACCESS]-> (graph node)`. -/
def BUILTIN_HAS_GRAPH_ACCESS_PRED : String := "HAS_GRAPH_ACCESS"

/-- Edge annotation on a grant: the level as text. -/
def BUILTIN_GRAPH_ACCESS_LEVEL_PRED : String := "GRAPH_ACCESS_LEVEL"

/-- Parse the name of a level, whatever the case of its letters. -/
def GraphAccessLevel.parse (text : String) : Option GraphAccessLevel :=
  GraphAccessLevel.ALL.find? (fun level =>
    decide (level.asStr.toList.map Char.toLower = text.toList.map Char.toLower))

/-- The higher of two levels. -/
def GraphAccessLevel.higher (left right : GraphAccessLevel) : GraphAccessLevel :=
  if left.rank ≤ right.rank then right else left

/-- One live graph grant. -/
structure GraphGrant where
  /-- The user or group it is for. -/
  principal : NodeId
  /-- The graph it is on. -/
  graph : GraphId
  /-- The level it grants. -/
  level : GraphAccessLevel
deriving DecidableEq

/-- Effective graph access of every user. -/
structure GraphAccessIndex where
  /-- The access of the users that have a grant or a group. -/
  users : List (NodeId × UserGraphAccess)
  /-- The access of the others. -/
  noGrants : UserGraphAccess

/-- The graphs where levels reach a level, lowest identifier first. -/
def graphsAtLeast (levels : List (GraphId × GraphAccessLevel)) (level : GraphAccessLevel) :
    List GraphId :=
  ((levels.filter (fun entry => decide (level.rank ≤ entry.2.rank))).map Prod.fst).insertionSort
    (fun left right => left.raw ≤ right.raw)

/-- The access some levels give; an inferred graph is readable by whoever can read its source. -/
def UserGraphAccess.fromLevels (levels : List (GraphId × GraphAccessLevel))
    (companions : List (GraphId × GraphId)) : UserGraphAccess :=
  { atLeast := Polargraph.graphsAtLeast levels
    readable := companions.foldl (fun readable pair =>
      if readable.contains pair.2 then pair.1 :: readable else readable)
      (GraphId.DEFAULT :: Polargraph.graphsAtLeast levels .read) }

/-- The access of a user, that to the default graph only when it has no grants. -/
def GraphAccessIndex.forUser (index : GraphAccessIndex) (user : NodeId) : UserGraphAccess :=
  (index.users.lookup user).getD index.noGrants

/-- Take a level on a graph into account. -/
def raiseLevel (g : GraphId) (level : GraphAccessLevel) (levels : List (GraphId × GraphAccessLevel)) :
    List (GraphId × GraphAccessLevel) :=
  Latest.entryUpdate g level (fun held => held.higher level) levels

/-- The levels that grants give each principal directly. -/
def directLevels (grants : List GraphGrant) : List (NodeId × List (GraphId × GraphAccessLevel)) :=
  grants.foldl (fun direct grant =>
    Latest.entryUpdate grant.principal [] (raiseLevel grant.graph grant.level) direct) []

/-- The groups of each user. -/
def groupsOf (members : List Triple) : List (NodeId × List NodeId) :=
  members.foldl (fun groups triple => match triple with
    | .relation subject _ object _ _ =>
      Latest.entryUpdate subject [] (fun held => held ++ [object]) groups
    | _ => groups) []

/-- The levels of a principal: its own, raised by those of its groups. -/
def effectiveLevels (direct : List (NodeId × List (GraphId × GraphAccessLevel)))
    (groups : List (NodeId × List NodeId)) (principal : NodeId) :
    List (GraphId × GraphAccessLevel) :=
  ((groups.lookup principal).getD []).foldl (fun levels group =>
    ((direct.lookup group).getD []).foldl (fun levels entry => raiseLevel entry.1 entry.2 levels)
      levels) ((direct.lookup principal).getD [])

/-- A user or group named by node identifier or IRI. -/
def principalNode (ext : External) (text : String) : Except Status NodeId :=
  if text = "" then .error (.status .invalidArgument "principal must not be empty")
  else .ok (match ext.parseUuid text with
    | some uuid => ⟨uuid⟩
    | none => iriToNodeId ext text)

namespace TripleStore

/-- Every interned named graph, ordered by identifier. -/
def listGraphs (store : TripleStore) : List (GraphId × String) :=
  (List.range store.nextGraphId.toNat).filterMap fun n =>
    (store.graphIri ⟨UInt32.ofNat n⟩).map (fun iri => (⟨UInt32.ofNat n⟩, iri))

/-- The label of a graph, if it is an inferred one of a known source. -/
def inferredLabel (store : TripleStore) (iri : String) : Option Label :=
  if !isInferredGraphIri iri then none
  else
    let rest := String.ofList (iri.toList.drop INFERRED_GRAPH_PREFIX.length)
    if rest = "cross" then some .cross
    else if rest = "default" then some (.graph GraphId.DEFAULT)
    else (store.graphId rest).map Label.graph

/-- The inferred graphs, each with its source. -/
def companions (store : TripleStore) : List (GraphId × GraphId) :=
  store.listGraphs.filterMap fun (g, iri) =>
    match store.inferredLabel iri with
    | some (.graph source) => some (g, source)
    | _ => none

section External

variable (ext : External)

/-- The named graph whose IRI names a node; the last one, when several IRIs name it. -/
def graphForNode (store : TripleStore) (node : NodeId) : Option GraphId :=
  (store.listGraphs.reverse.find? (fun entry => decide (iriToNodeId ext entry.2 = node))).map Prod.fst

/-- The edge of a principal's grant on a graph node, so that granting again updates the same edge. -/
def grantEdge (principal graphNode : NodeId) : EdgeId :=
  edgeIdFor ext principal.uuid.display BUILTIN_HAS_GRAPH_ACCESS_PRED graphNode.uuid.display

/-- The two triples of a grant. -/
def grantTriples (principal graphNode : NodeId) (level : GraphAccessLevel) (now : Timestamp) :
    List Triple :=
  let edge := grantEdge ext principal graphNode
  [.relation principal BUILTIN_HAS_GRAPH_ACCESS_PRED graphNode edge (.assertNow now),
    .edgeProperty edge BUILTIN_GRAPH_ACCESS_LEVEL_PRED (.text level.asStr) (.assertNow now)]

/-- Grant a user or group a level on a named graph, replacing any earlier level. -/
def grantGraphAccess (store : TripleStore) (principal : NodeId) (g : GraphId)
    (level : GraphAccessLevel) (now : Timestamp) : TripleStore × Except StorageError Unit :=
  match store.graphNode ext g with
  | none => (store, .error (.validation ("g" ++ toString g.raw.toNat
      ++ " is not a named graph (the default graph needs no grant)")))
  | some graphNode =>
    match store.systemGraph ext with
    | .error problem => (store, .error problem)
    | .ok (store, meta_) =>
      let tx := (grantTriples ext principal graphNode level now).foldl
        (fun (tx : Transaction) triple => tx.insertIn triple meta_ .add) store.begin
      match store.commit ext tx now with
      | (store, .error problem) => (store, .error problem)
      | (store, .ok _) => (store, .ok ())

/-- The live grants of a principal, or of all, on a graph node, or on all. -/
def liveGrants (store : TripleStore) (principal graphNode : Option NodeId) (meta_ : GraphId)
    (now : Timestamp) : Except StorageError (List (GraphId × Triple)) :=
  store.scanScopedAt ext principal (some BUILTIN_HAS_GRAPH_ACCESS_PRED) graphNode (.one meta_)
    ⟨store.committed, none, none⟩ now

/-- Close a principal's grant on a graph; whether there was a live one. -/
def revokeGraphAccess (store : TripleStore) (principal : NodeId) (g : GraphId) (now : Timestamp) :
    TripleStore × Except StorageError Bool :=
  match store.graphNode ext g, store.graphId SYSTEM_GRAPH_IRI with
  | some graphNode, some meta_ =>
    match store.liveGrants ext (some principal) (some graphNode) meta_ now with
    | .error problem => (store, .error problem)
    | .ok live =>
      if live.isEmpty then (store, .ok false)
      else
        let tx := live.foldl (fun (tx : Transaction) (entry : GraphId × Triple) =>
          tx.insertIn (closeAt now entry.2) meta_ .add) store.begin
        match store.commit ext tx now with
        | (store, .error problem) => (store, .error problem)
        | (store, .ok _) => (store, .ok true)
  | _, _ => (store, .ok false)

/-- The level a grant's annotation gives, the lowest when it has none. -/
def grantLevel (store : TripleStore) (edge : EdgeId) : Except StorageError GraphAccessLevel := do
  let annotations ← store.scanEdgeAnnotationsWith ext edge store.committed none
  return match annotations.find? (fun ann => decide (ann.predicate = BUILTIN_GRAPH_ACCESS_LEVEL_PRED)) with
    | some ⟨_, .scalar (.text name)⟩ => (GraphAccessLevel.parse name).getD .read
    | _ => .read

/-- The grant a triple records, if its object names a graph. -/
def grantOf (store : TripleStore) : Triple → Except StorageError (Option GraphGrant)
  | .relation subject _ object edge _ =>
    match store.graphForNode ext object with
    | none => .ok none
    | some graph => do
      let level ← store.grantLevel ext edge
      return some ⟨subject, graph, level⟩
  | _ => .ok none

/-- Every live graph grant. -/
def graphGrants (store : TripleStore) (now : Timestamp) : Except StorageError (List GraphGrant) :=
  match store.graphId SYSTEM_GRAPH_IRI with
  | none => .ok []
  | some meta_ => do
    let live ← store.liveGrants ext none none meta_ now
    let grants ← live.mapM (fun entry => store.grantOf ext entry.2)
    return grants.filterMap id

/-- The index built from the live grants and memberships. -/
def buildGraphAccess (store : TripleStore) (now : Timestamp) : Except StorageError GraphAccessIndex := do
  let companions := store.companions
  let direct := directLevels (← store.graphGrants ext now)
  let members ← store.scanByPredicateAt ext BUILTIN_MEMBER_OF_PRED ⟨store.committed, none, none⟩ now
  let groups := groupsOf members
  let principals := direct.map Prod.fst ++ groups.map Prod.fst
  return ⟨principals.map (fun principal =>
    (principal, .fromLevels (effectiveLevels direct groups principal) companions)),
    .fromLevels [] companions⟩

end External

end TripleStore

end Polargraph
