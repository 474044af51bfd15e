import Polargraph.Lib.Assign
import Polargraph.Server.ApplyChanges
import Polargraph.Server.Subscribe

/-! The events of a logged commit, and a consumer that keeps a set of quads by them. -/

namespace Polargraph

/-- What an event reports. -/
inductive ChangeKind where
  /-- A version without end was written. -/
  | assert
  /-- A version with an end was written. -/
  | close
  /-- A graph was created. -/
  | graphCreated
  /-- A graph was dropped. -/
  | graphDropped
  /-- A graph was copied. -/
  | graphCopied
deriving DecidableEq

/-- An event of a subscription. -/
structure ChangeEvent where
  /-- The transaction time of the commit. -/
  commitTs : Timestamp
  /-- The IRI of the graph, empty for the default graph. -/
  graph : String
  /-- What it reports. -/
  kind : ChangeKind
  /-- The quad, absent for operations on graphs. -/
  quad : Option ProtoTriple
  /-- The user that committed. -/
  author : String
  /-- The edge of a relation, empty otherwise. -/
  edgeId : Bytes
  /-- The IRI of the copied graph, empty otherwise. -/
  sourceGraph : String

/-- What a subscription delivers. -/
structure ChangeFilter where
  /-- The graphs, or all. -/
  graphs : Option (List GraphId)
  /-- The predicates, or all. -/
  predicates : Option (List String)
  /-- The types of the subjects, or all when empty. -/
  types : List String
  /-- Whether property values are delivered. -/
  includeValues : Bool

/-- A subscription to everything. -/
def ChangeFilter.unfiltered : ChangeFilter := ⟨none, none, [], true⟩

/-- Whether a subscriber may see the changes of a graph and asked for them. -/
def ChangeFilter.visible (filter : ChangeFilter) (access : Option UserGraphAccess) (g : GraphId) :
    Bool :=
  filter.graphs.all (fun graphs => graphs.contains g) && access.all (fun own => own.allows g .read)

/-- The wire form of a triple, which annotations have none of. -/
def tripleToProto (includeValues : Bool) : Triple → Option ProtoTriple
  | .relation subject predicate object _ temporal => some (.relation (some subject.uuid.bytes)
      predicate (some object.uuid.bytes) temporal.vtStart temporal.vtEnd [])
  | .property subject predicate value temporal => some (.property (some subject.uuid.bytes)
      predicate (if includeValues then some value else none) temporal.vtStart temporal.vtEnd 2)
  | _ => none

/-- The edge of a relation, in bytes. -/
def edgeIdBytes : Triple → Bytes
  | .relation _ _ _ edgeId _ => edgeId.uuid.bytes
  | _ => []

/-- What is reported of a version. -/
def ChangeKind.ofTriple (triple : Triple) : ChangeKind :=
  if triple.temporal.vtEnd = Timestamp.END_OF_TIME then .assert else .close

namespace TripleStore

/-- The IRI of a graph, empty for the default graph. -/
def graphName (store : TripleStore) (g : GraphId) : String := (store.graphIri g).getD ""

/-- The event of a version that a commit wrote. -/
def quadEvent (store : TripleStore) (instancesOf : List String → NodeId → Bool)
    (filter : ChangeFilter) (access : Option UserGraphAccess) (record : ChangeRecord)
    (entry : GraphId × Triple) : Option ChangeEvent :=
  let (g, triple) := entry
  if !filter.visible access g || !filter.predicates.all (fun known => known.contains triple.predicate)
      || !(filter.types.isEmpty || instancesOf filter.types triple.subject) then none
  else (tripleToProto filter.includeValues triple).map fun quad =>
    ⟨record.commitTs, store.graphName g, .ofTriple triple, some quad, record.author,
      edgeIdBytes triple, ""⟩

/-- The event of an operation on a graph. -/
def opEvent (store : TripleStore) (filter : ChangeFilter) (access : Option UserGraphAccess)
    (record : ChangeRecord) (op : GraphOp) : Option ChangeEvent :=
  let event (g : GraphId) (kind : ChangeKind) : ChangeEvent :=
    ⟨record.commitTs, store.graphName g, kind, none, record.author, [], ""⟩
  match op with
  | .created g => if filter.visible access g then some (event g .graphCreated) else none
  | .dropped g => if filter.visible access g then some (event g .graphDropped) else none
  | .copied source target =>
    if filter.visible access target then some { event target .graphCopied with
      -- A source graph the subscriber cannot read is not named.
      sourceGraph := if access.all (fun own => own.allows source .read) then store.graphName source
        else "" }
    else none

/-- The events a logged commit produces for one subscriber. -/
def changeEvents (store : TripleStore) (instancesOf : List String → NodeId → Bool)
    (filter : ChangeFilter) (access : Option UserGraphAccess) (record : ChangeRecord) :
    List ChangeEvent :=
  record.quads.filterMap (store.quadEvent instancesOf filter access record) ++
    record.graphOps.filterMap (store.opEvent filter access record)

end TripleStore

/-- How a consumer tells quads apart. -/
structure QuadName where
  /-- The subject. -/
  s : NodeId
  /-- The predicate. -/
  p : String
  /-- The object node, or the content hash of the value. -/
  o : NodeId
  /-- The IRI of the graph, empty for the default graph. -/
  g : String
deriving DecidableEq

/-- The quad an event is about. -/
def ProtoTriple.quadName (ext : External) (g : String) : ProtoTriple → Option QuadName
  | .relation (some subject) predicate (some object) _ _ _ =>
    some ⟨⟨Uuid.fromSlice subject⟩, predicate, ⟨Uuid.fromSlice object⟩, g⟩
  | .property (some subject) predicate (some value) _ _ _ =>
    some ⟨⟨Uuid.fromSlice subject⟩, predicate, valueObject ext value, g⟩
  | _ => none

/-- What an event makes of the consumer's set: an assertion inserts its quad, a closing removes it. -/
def ChangeEvent.change (ext : External) (event : ChangeEvent) : Option (Change QuadName) :=
  (event.quad.bind (ProtoTriple.quadName ext event.graph)).bind fun name =>
    match event.kind with
    | .assert => some ⟨name, true⟩
    | .close => some ⟨name, false⟩
    | _ => none

/-- The quad of a scan result, as a consumer tells it apart. -/
def TripleStore.nameOf (ext : External) (store : TripleStore) (entry : GraphId × Triple) :
    Option QuadName :=
  (tripleToProto true entry.2).bind (ProtoTriple.quadName ext (store.graphName entry.1))

/-- A store, the clock, and the set of a consumer that has received every event so far. -/
structure Feed where
  /-- The store. -/
  store : TripleStore
  /-- The clock. -/
  now : Timestamp
  /-- The quads the consumer holds. -/
  held : List QuadName

/-- A step of a writer; the consumer follows. -/
inductive FeedStep where
  /-- A graph is interned. -/
  | internGraph (iri : String)
  /-- A transaction commits at a time of the clock. -/
  | commit (tx : Transaction) (now : Timestamp)

namespace Feed

/-- A new store and a consumer that holds nothing. -/
def fresh (inlineMax : Nat) (vocabulary : Vocabulary) (canonical : Bool) : Feed :=
  ⟨TripleStore.configured inlineMax vocabulary canonical, Timestamp.zero, []⟩

/-- The set of the consumer after it received the events of some records. -/
def receive (ext : External) (store : TripleStore) (held : List QuadName)
    (records : List ChangeRecord) : List QuadName :=
  let events := records.flatMap (store.changeEvents (fun _ _ => true) .unfiltered none)
  (events.filterMap (ChangeEvent.change ext)).foldl Change.apply held

/-- What is delivered of the log, nothing when it cannot be read. -/
def delivered : Except StorageError (List ChangeRecord) → List ChangeRecord
  | .ok records => records
  | .error _ => []

/-- The state after a step of a writer and the delivery of what it logged. -/
def next (ext : External) (feed : Feed) : FeedStep → Option Feed
  | .internGraph iri => match feed.store.internGraph ext iri with
    | .ok (store, _) => some { feed with store := store }
    | .error _ => some feed
  | .commit tx now =>
    let store := (feed.store.commit ext tx now).1
    let records := delivered (store.changesAfter ext feed.store.committed SUBSCRIBE_BATCH)
    some ⟨store, now, receive ext store feed.held records⟩

/-- The consumer holds exactly the quads that are live at the latest commit and now. -/
def Reproduces (ext : External) (feed : Feed) : Prop :=
  ∃ live, feed.store.scanScopedAt ext none none none .union ⟨feed.store.committed, none, none⟩
      feed.now = .ok live ∧
    ∀ name, name ∈ feed.held ↔ ∃ quad ∈ live, feed.store.nameOf ext quad = some name

end Feed

end Polargraph
