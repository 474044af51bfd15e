import Polargraph.Replication.Replica
import Polargraph.Storage.Graphs
import Polargraph.Storage.HnswRecords
import Polargraph.Storage.Open

/-! The memory of a replica: what opening it loads, and what an applied batch refreshes. -/

namespace Polargraph

/-- The node of the system graph that has the vocabulary. -/
def VOCAB_NODE : String := "urn:pg:vocab"

/-- Its property with the base. -/
def VOCAB_BASE_PRED : String := "urn:pg:vocabBase"

/-- What its properties with namespaces begin with. -/
def VOCAB_PREFIX_PRED : String := "urn:pg:prefix:"

/-- A base, and the namespaces of prefixes. -/
structure LoadedVocabulary where
  /-- The base. -/
  base : Vocabulary
  /-- The namespaces. -/
  prefixes : String → Option String

/-- The vocabulary without stored properties. -/
def LoadedVocabulary.default : LoadedVocabulary := ⟨Vocabulary.default, fun _ => none⟩

/-- Take a property of the vocabulary; a base that was set is absolute. -/
def LoadedVocabulary.take (vocabulary : LoadedVocabulary) : Triple → LoadedVocabulary
  | .property _ predicate (.text v) _ =>
    if predicate = VOCAB_BASE_PRED then
      if absolute : ':' ∈ v.toList then { vocabulary with base := ⟨v, absolute⟩ } else vocabulary
    else if VOCAB_PREFIX_PRED.toList.isPrefixOf predicate.toList then
      let name := String.ofList (predicate.toList.drop VOCAB_PREFIX_PRED.length)
      { vocabulary with prefixes := Function.update vocabulary.prefixes name (some v) }
    else vocabulary
  | _ => vocabulary

/-- An operation of a batch, on any column family. -/
inductive BatchOp where
  /-- On the column families without the vector spaces. -/
  | data (op : ReplicatedOp)
  /-- A put of a record of a vector space. -/
  | hnswPut (key value : Bytes)
  /-- A delete of a record of a vector space. -/
  | hnswDelete (key : Bytes)

/-- What a replica has on disk. -/
structure Disk where
  /-- The column families without the vector spaces. -/
  contents : Contents
  /-- The records of the vector spaces. -/
  hnsw : SortedMap Bytes Bytes

/-- Carry out one operation. -/
def Disk.apply (disk : Disk) : BatchOp → Disk
  | .data op => { disk with contents := disk.contents.apply op }
  | .hnswPut key value => { disk with hnsw := disk.hnsw.insert key value }
  | .hnswDelete key => { disk with hnsw := disk.hnsw.erase key }

/-- Carry out a batch as one step. -/
def Disk.write (disk : Disk) (ops : List BatchOp) : Disk := ops.foldl apply disk

/-- How a store is configured when it has been opened. -/
structure Settings where
  /-- Property payloads above this many bytes are stored out of line. -/
  inlineValueMaxBytes : Nat
  /-- Whether bare predicate names are stored under the vocabulary base. -/
  canonicalNames : Bool

/-- A running replica. -/
structure RunningReplica (F : Type) where
  /-- The column families without the counters and the vector spaces, and the tables in memory. -/
  store : TripleStore
  /-- The counters. -/
  sts : SortedMap Bytes Bytes
  /-- The records of the vector spaces. -/
  hnsw : SortedMap Bytes Bytes
  /-- The namespaces of prefixes. -/
  prefixes : String → Option String
  /-- The vector spaces in memory. -/
  spaces : String → Option (SpaceIndex F)

namespace TripleStore

variable (ext : External)

/-- Read the vocabulary from the system graph; `now` is the clock at the read. -/
def readVocabulary (store : TripleStore) (now : Timestamp) : Except StorageError LoadedVocabulary :=
  match store.graphId SYSTEM_GRAPH_IRI with
  | none => .ok .default
  | some meta_ => do
    let triples ← store.scanBySubjectInGraphAt ext meta_ (iriToNodeId ext VOCAB_NODE)
      ⟨store.committed, none, none⟩ now
    return triples.foldl LoadedVocabulary.take .default

/-- Take the predicates that were loaded. -/
def withPredicates (store : TripleStore) (names : LoadedNames) : TripleStore :=
  { store with fwd := names.fwd, rev := names.rev, nextPredId := names.next }

/-- Take the graphs that were loaded. -/
def withGraphs (store : TripleStore) (names : LoadedNames) : TripleStore :=
  { store with
    graphFwd := fun iri => (names.fwd iri).map GraphId.mk
    graphRev := fun g => names.rev g.raw
    nextGraphId := names.next }

end TripleStore

namespace RunningReplica

variable {F : Type}

/-- What the replica has on disk. -/
def disk (replica : RunningReplica F) : Disk := ⟨⟨replica.store.db, replica.sts⟩, replica.hnsw⟩

/-- The replica with other contents on disk. -/
def withDisk (replica : RunningReplica F) (disk : Disk) : RunningReplica F :=
  { replica with
    store := { replica.store with db := disk.contents.db }
    sts := disk.contents.sts
    hnsw := disk.hnsw }

/-- The batch and its sequence number are written. -/
def received (disk : Disk) (seq : Nat) (ops : List BatchOp) : Disk :=
  { disk.write ops with contents := (disk.write ops).contents.putSeq seq }

variable (ext : External) (utf8Error : Bytes → String)

/-- Apply a batch of the primary, and refresh the tables in memory. -/
def applyReplicatedBatch (replica : RunningReplica F) (seq : Nat) (ops : List BatchOp) (now : Timestamp) :
    RunningReplica F × Except StorageError Unit :=
  let replica := replica.withDisk (received replica.disk seq ops)
  match replica.store.db.loadPredicates utf8Error with
  | .error problem => (replica, .error problem)
  | .ok predicates =>
    let oracleTs := replica.store.db.loadOracleTs
    let replica := { replica with store := replica.store.withPredicates predicates }
    match replica.store.db.loadGraphs utf8Error with
    | .error problem => (replica, .error problem)
    | .ok graphs =>
      let replica := { replica with store := (replica.store.withGraphs graphs).advanceTo oracleTs }
      -- The batch may have changed the vocabulary.
      match replica.store.readVocabulary ext now with
      | .error problem => (replica, .error problem)
      | .ok vocabulary =>
        ({ replica with
          store := { replica.store with vocabulary := vocabulary.base }
          prefixes := vocabulary.prefixes }, .ok ())

end RunningReplica

/-- Open a replica, and configure it. -/
def openReplica {F : Type} (ext : External) (utf8Error : Bytes → String)
    (floats : Floats VectorBits F Bytes) (files : VectorFiles) (settings : Settings) (disk : Disk)
    (now : Timestamp) : Except OpenError (RunningReplica F) := do
  let db ← disk.contents.db.checkFormat
  let predicates ← (db.loadPredicates utf8Error).mapError OpenError.storage
  let graphs ← (db.loadGraphs utf8Error).mapError OpenError.storage
  let spaces ← (loadHnswSpaces floats files disk.hnsw).mapError OpenError.storage
  let store := ({ TripleStore.create with
    db := db
    committed := db.loadOracleTs
    inlineValueMaxBytes := settings.inlineValueMaxBytes
    canonicalNames := settings.canonicalNames }.withPredicates predicates).withGraphs graphs
  let vocabulary ← (store.readVocabulary ext now).mapError OpenError.storage
  return {
    store := { store with vocabulary := vocabulary.base }
    sts := disk.contents.sts
    hnsw := disk.hnsw
    prefixes := vocabulary.prefixes
    spaces := spaces }

end Polargraph
