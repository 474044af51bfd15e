import Polargraph.Storage.Store

/-! Opening a store: what memory is loaded from the column families. -/

namespace Polargraph

/-- The storage format this build reads. -/
def STORAGE_FORMAT : UInt32 := 3

/-- Why a store cannot be opened. -/
inductive OpenError where
  /-- Its contents cannot be read. -/
  | storage (problem : StorageError)
  /-- It was written by a newer build. -/
  | unsupportedFormat (version : UInt32)
deriving DecidableEq

/-- The two directions of a table of names, and the next identifier. -/
structure LoadedNames where
  /-- Names to identifiers. -/
  fwd : String → Option UInt32
  /-- Identifiers to names. -/
  rev : UInt32 → Option String
  /-- The next identifier. -/
  next : UInt32

namespace Db

/-- The storage format recorded, if any. -/
def storedFormat (db : Db) : Option UInt32 :=
  match db.get .metadata META_STORAGE_FORMAT with
  | some bytes => if bytes.length = 4 then some (u32From bytes) else none
  | none => none

/-- Accept the format of this build, and record it for a store that has none. -/
def checkFormat (db : Db) : Except OpenError Db :=
  match db.storedFormat with
  | some version =>
    if version = STORAGE_FORMAT then .ok db else .error (.unsupportedFormat version)
  | none => .ok (db.write [.put .metadata META_STORAGE_FORMAT (u32Bytes STORAGE_FORMAT)])

/-- Take one entry of a table of names. -/
def loadName (utf8Error : Bytes → String) (bad : String → String) (front : Nat)
    (names : (String → Option UInt32) × (UInt32 → Option String)) (entry : Bytes × Bytes) :
    Except StorageError ((String → Option UInt32) × (UInt32 → Option String)) :=
  match fromUtf8 (entry.1.drop front) with
  | none => .error (.keyDecode (utf8Error (entry.1.drop front)))
  | some name =>
    if entry.2.length ≠ 4 then .error (.keyDecode (bad name))
    else
      let id := u32From entry.2
      .ok (Function.update names.1 name (some id), Function.update names.2 id (some name))

/-- The counter under a key of the metadata, which starts at one. -/
def loadCounter (db : Db) (key : Bytes) : UInt32 :=
  match db.get .metadata key with
  | some bytes => if bytes.length = 4 then u32From bytes else 1
  | none => 1

/-- Load a table of names from the keys under a prefix, and the counter of its identifiers. -/
def loadNames (db : Db) (utf8Error : Bytes → String) (start : Bytes) (bad : String → String)
    (counter : Bytes) : Except StorageError LoadedNames := do
  let (fwd, rev) ← ((db.family .metadata).scanPrefix start).foldlM
    (loadName utf8Error bad start.length) (fun _ => none, fun _ => none)
  return ⟨fwd, rev, db.loadCounter counter⟩

/-- Load the predicates; `utf8Error` is the text of a decoding error. -/
def loadPredicates (db : Db) (utf8Error : Bytes → String) : Except StorageError LoadedNames :=
  db.loadNames utf8Error (utf8 "p/") (fun name => "bad predicate value for " ++ name) META_PRED_CTR

/-- Load the graphs. -/
def loadGraphs (db : Db) (utf8Error : Bytes → String) : Except StorageError LoadedNames :=
  db.loadNames utf8Error (utf8 "g/") (fun iri => "bad graph id for " ++ iri) META_GRAPH_CTR

/-- The counter the oracle starts at. -/
def loadOracleTs (db : Db) : Timestamp :=
  match db.get .metadata META_ORACLE_CTR with
  | some bytes => if bytes.length = 8 then Timestamp.fromBeBytes bytes else Timestamp.zero
  | none => Timestamp.zero

/-- Record where the change log starts, unless it is recorded. -/
def initChangesFloor (db : Db) (oracleTs : Timestamp) : Db :=
  match db.get .metadata META_CHANGES_FLOOR with
  | some _ => db
  | none => db.write [.put .metadata META_CHANGES_FLOOR oracleTs.toBeBytes]

end Db

/--
Open a store on its column families.

The vocabulary is the one that is read back from the system graph.
-/
def TripleStore.open (db : Db) (utf8Error : Bytes → String) (vocabulary : Vocabulary) :
    Except OpenError TripleStore := do
  let db ← db.checkFormat
  let predicates ← (db.loadPredicates utf8Error).mapError OpenError.storage
  let graphs ← (db.loadGraphs utf8Error).mapError OpenError.storage
  let oracleTs := db.loadOracleTs
  return {
    db := db.initChangesFloor oracleTs
    committed := oracleTs
    fwd := predicates.fwd
    rev := predicates.rev
    nextPredId := predicates.next
    graphFwd := fun iri => (graphs.fwd iri).map GraphId.mk
    graphRev := fun g => graphs.rev g.raw
    nextGraphId := graphs.next
    inlineValueMaxBytes := DEFAULT_INLINE_VALUE_MAX_BYTES
    vocabulary := vocabulary
    canonicalNames := true }

end Polargraph
