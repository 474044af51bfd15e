import Polargraph.Storage.Codec
import Polargraph.Storage.Db

/-! The main storage handle: vocabulary, interning, the oracle, out-of-line values. -/

namespace Polargraph

/-- Predicates that keep their exact name. -/
def BUILTIN_PREDICATES : List String :=
  ["MEMBER_OF", "HAS_ACCESS", "HAS_ACCESS_TYPE", "HAS_GRAPH_ACCESS", "GRAPH_ACCESS_LEVEL"]

/-- Base IRI of the store's vocabulary, which is absolute. -/
structure Vocabulary where
  /-- The base IRI that bare names are stored under. -/
  base : String
  /-- An absolute IRI has a scheme separator. -/
  absolute : ':' ∈ base.toList

namespace Vocabulary

/-- The vocabulary a new store starts with. -/
def default : Vocabulary := ⟨"urn:pg:vocab:", by decide⟩

/-- Whether a name is an internal predicate kept verbatim. -/
def isInternal (name : String) : Bool :=
  "__".toList.isPrefixOf name.toList || BUILTIN_PREDICATES.contains name

/-- Whether a name is bare: relative to the base. -/
def isBare (name : String) : Bool :=
  decide (name ≠ "") && !name.toList.contains ':' && !isInternal name

/-- The stored form of a predicate name: bare names under the base, everything else unchanged. -/
def canonicalPredicate (vocabulary : Vocabulary) (name : String) : String :=
  if isBare name then vocabulary.base ++ name else name

end Vocabulary

/-- The persistent contents of a store together with its in-memory tables and counters. -/
structure TripleStore where
  /-- The key-value database. -/
  db : Db
  /-- Current highest committed timestamp. -/
  committed : Timestamp
  /-- Predicate names to identifiers. -/
  fwd : String → Option PredId
  /-- Predicate identifiers to names. -/
  rev : PredId → Option String
  /-- The next predicate identifier. -/
  nextPredId : PredId
  /-- Graph IRIs to identifiers. -/
  graphFwd : String → Option GraphId
  /-- Graph identifiers to IRIs. -/
  graphRev : GraphId → Option String
  /-- The next graph identifier. -/
  nextGraphId : UInt32
  /-- Property payloads above this many bytes are stored out of line. -/
  inlineValueMaxBytes : Nat
  /-- The vocabulary. -/
  vocabulary : Vocabulary
  /-- Whether bare predicate names are stored under the vocabulary base. -/
  canonicalNames : Bool

/-- Default inline threshold. -/
def DEFAULT_INLINE_VALUE_MAX_BYTES : Nat := 256

/-- Key of the oracle counter. -/
def META_ORACLE_CTR : Bytes := utf8 "__oracle_ctr"

/-- Key of the predicate counter. -/
def META_PRED_CTR : Bytes := utf8 "__pred_ctr"

/-- Key of the graph counter. -/
def META_GRAPH_CTR : Bytes := utf8 "__graph_ctr"

/-- Key of the storage format. -/
def META_STORAGE_FORMAT : Bytes := utf8 "__storage__/format"

/-- Key of the time up to which the change log is not, or no longer, complete. -/
def META_CHANGES_FLOOR : Bytes := utf8 "__changes__/floor"

/-- Key from a predicate name to its identifier. -/
def metaForwardKey (pred : String) : Bytes := utf8 "p/" ++ utf8 pred

/-- Key from a predicate identifier to its name. -/
def metaReverseKey (id : PredId) : Bytes := utf8 "pid/" ++ u32Bytes id

/-- Key from a graph IRI to its identifier. -/
def metaGraphKey (iri : String) : Bytes := utf8 "g/" ++ utf8 iri

/-- Key from a graph identifier to its IRI. -/
def metaGraphRevKey (id : GraphId) : Bytes := utf8 "gid/" ++ u32Bytes id.raw

namespace TripleStore

/-- A store opened on an empty directory. -/
def create : TripleStore where
  db := Db.empty.write [
    .put .metadata META_STORAGE_FORMAT (u32Bytes 3),
    .put .metadata META_CHANGES_FLOOR Timestamp.zero.toBeBytes]
  committed := Timestamp.zero
  fwd := fun _ => none
  rev := fun _ => none
  nextPredId := 1
  graphFwd := fun _ => none
  graphRev := fun _ => none
  nextGraphId := 1
  inlineValueMaxBytes := DEFAULT_INLINE_VALUE_MAX_BYTES
  vocabulary := Vocabulary.default
  canonicalNames := true

/-- A new store with its settings made. -/
def configured (inlineMax : Nat) (vocabulary : Vocabulary) (canonical : Bool) : TripleStore :=
  { create with
    inlineValueMaxBytes := inlineMax
    vocabulary := vocabulary
    canonicalNames := canonical }

/-- Set the payload size above which property values are stored out of line. -/
def setInlineValueMaxBytes (store : TripleStore) (n : Nat) : TripleStore :=
  { store with inlineValueMaxBytes := n }

/-- Write a batch to the database. -/
def dbWrite (store : TripleStore) (batch : WriteBatch) : TripleStore :=
  { store with db := store.db.write batch }

/-- The stored form of a predicate name. -/
def canonicalName (store : TripleStore) (pred : String) : String :=
  if store.canonicalNames then store.vocabulary.canonicalPredicate pred else pred

/-- The name of an interned predicate. -/
def predicateString (store : TripleStore) (id : PredId) : Option String := store.rev id

/-- Look up a predicate identifier without assigning one. -/
def predicateId (store : TripleStore) (pred : String) : Option PredId :=
  if Vocabulary.isBare pred then store.fwd (store.canonicalName pred) else store.fwd pred

/-- Look up a predicate identifier, assigning the next one to a new name. -/
def internPredicate (store : TripleStore) (pred : String) : TripleStore × PredId :=
  let name := store.canonicalName pred
  match store.fwd name with
  | some id => (store, id)
  | none =>
    let id := store.nextPredId
    let next := id + 1
    ({ store.dbWrite [
        .put .metadata (metaForwardKey name) (u32Bytes id),
        .put .metadata (metaReverseKey id) (utf8 name),
        .put .metadata META_PRED_CTR (u32Bytes next)] with
      fwd := Function.update store.fwd name (some id)
      rev := Function.update store.rev id (some name)
      nextPredId := next }, id)

/-- Snapshot the current committed timestamp for a new read transaction. -/
def readTs (store : TripleStore) : Timestamp := store.committed

/-- Advance the committed timestamp to at least a given one. -/
def advanceTo (store : TripleStore) (ts : Timestamp) : TripleStore :=
  if store.committed < ts then { store with committed := ts } else store

/-- The commit timestamp: past the counter and not before the wall clock. -/
def nextCommitTs (store : TripleStore) (wall : Timestamp) : Timestamp :=
  max (Timestamp.wrap (store.committed.micros + 1)) wall

/-- Advance the counter and hand out the commit timestamp. -/
def beginCommit (store : TripleStore) (wall : Timestamp) : TripleStore × Timestamp :=
  let newTs := store.nextCommitTs wall
  ({ store with committed := newTs }, newTs)

section External

variable (ext : External)

/-- Encode a property value for an index entry, moving a large payload out of line. -/
def encodePropertyEntry (store : TripleStore) (batch : WriteBatch) (value : Value)
    (temporal : BiTemporalRange) : Except StorageError (WriteBatch × Bytes) := do
  let inline ← encodeProperty ext value temporal
  if inline.length - 17 ≤ store.inlineValueMaxBytes then return (batch, inline)
  let payload ← encodeBlob ext value
  return (batch ++ [.put .blob (contentHash ext value).bytes payload], encodePropertyRef temporal)

/-- The error of a reference whose out-of-line value is not stored. -/
def missingBlob (hash : NodeId) : StorageError :=
  .keyDecode ("missing blob for value hash " ++ hash.uuid.display)

/-- Resolve an out-of-line value by its content hash. -/
def loadBlob (store : TripleStore) (hash : NodeId) : Except StorageError Value :=
  match store.db.get .blob hash.uuid.bytes with
  | none => .error (missingBlob hash)
  | some bytes => decodeBlob ext bytes

/-- The name of an interned predicate, or an error. -/
def predicateOrErr (store : TripleStore) (predId : PredId) : Except StorageError String :=
  match store.predicateString predId with
  | none => .error (.keyDecode ("unknown pred_id " ++ toString predId.toNat))
  | some name => .ok name

/-- Rebuild a triple from its key and its index value. -/
def reconstruct (store : TripleStore) (subject : NodeId) (predId : PredId) (object : NodeId)
    (tt : Timestamp) (valueBytes : Bytes) : Except StorageError Triple := do
  let predicate ← store.predicateOrErr predId
  match ← decodeValue ext valueBytes with
  | .relation edgeId temporal =>
    return .relation subject predicate object edgeId { temporal with tt := tt }
  | .property value temporal => return .property subject predicate value { temporal with tt := tt }
  | .propertyRef temporal => do
    let value ← store.loadBlob ext object
    return .property subject predicate value { temporal with tt := tt }

/-- The IRI stored for a node. -/
def iriOf (store : TripleStore) (node : NodeId) : Except StorageError (Option String) :=
  match store.db.get .iri node.uuid.bytes with
  | none => .ok none
  | some bytes =>
    match fromUtf8 bytes with
    | some iri => .ok (some iri)
    | none => .error (.keyDecode ("IRI for " ++ node.uuid.display ++ " is not UTF-8"))

/-- The IRI that already names a node, in the batch or in the database. -/
def existingIri (store : TripleStore) (node : NodeId) (pending : List (NodeId × String)) :
    Except StorageError (Option String) :=
  match pending.lookup node with
  | some stored => .ok (some stored)
  | none => store.iriOf node

/-- Add the dictionary entry of an IRI to a batch, checking the entries already there. -/
def batchIri (store : TripleStore) (batch : WriteBatch) (iri : String)
    (pending : List (NodeId × String)) :
    Except StorageError (WriteBatch × List (NodeId × String)) := do
  if !needsDictionary ext iri then return (batch, pending)
  let node := iriToNodeId ext iri
  match ← store.existingIri node pending with
  | some stored =>
    if stored = iri then return (batch, pending) else .error (.iriCollision node stored iri)
  | none => return (batch ++ [.put .iri node.uuid.bytes (utf8 iri)], (node, iri) :: pending)

/-- Look up a graph identifier, assigning the next one to a new IRI. -/
def internGraph (store : TripleStore) (iri : String) :
    Except StorageError (TripleStore × GraphId) := do
  if iri = "" then .error (.validation "graph IRI must not be empty")
  else match store.graphFwd iri with
    | some id => return (store, id)
    | none => do
      let id : GraphId := ⟨store.nextGraphId⟩
      let next := store.nextGraphId + 1
      let (batch, _) ← store.batchIri ext [
        .put .metadata (metaGraphKey iri) (u32Bytes id.raw),
        .put .metadata (metaGraphRevKey id) (utf8 iri),
        .put .metadata META_GRAPH_CTR (u32Bytes next)] iri []
      return ({ store.dbWrite batch with
        graphFwd := Function.update store.graphFwd iri (some id)
        graphRev := Function.update store.graphRev id (some iri)
        nextGraphId := next }, id)

end External

/-- The IRI of a named graph. -/
def graphIri (store : TripleStore) (id : GraphId) : Option String := store.graphRev id

/-- The identifier of a graph IRI that has been interned. -/
def graphId (store : TripleStore) (iri : String) : Option GraphId := store.graphFwd iri

/-- The node a named graph's IRI names. -/
def graphNode (ext : External) (store : TripleStore) (id : GraphId) : Option NodeId :=
  (store.graphIri id).map (iriToNodeId ext)

end TripleStore

end Polargraph
