import Polargraph.Storage.Scan

/-! The change log: one entry per commit, written in the same batch as its quads. -/

namespace Polargraph

/-- Version of the entry layout. -/
def CHANGES_VERSION : UInt8 := 1

/-- A graph-level operation recorded alongside a commit's quads. -/
inductive GraphOp where
  /-- A graph was created. -/
  | created (g : GraphId)
  /-- A graph was dropped. -/
  | dropped (g : GraphId)
  /-- The quads of one graph were copied into another. -/
  | copied (source target : GraphId)
deriving DecidableEq

/-- One logged commit. -/
structure ChangeRecord where
  /-- The commit's transaction time. -/
  commitTs : Timestamp
  /-- The caller's user id. -/
  author : String
  /-- The graph-level operations. -/
  graphOps : List GraphOp
  /-- The quad versions written, each with its graph. -/
  quads : List (GraphId × Triple)

/-- A quad version staged in a commit, as written to the quad index. -/
structure StagedQuad where
  /-- The key, in no particular order of components. -/
  key : QuadKey
  /-- The index value. -/
  value : Bytes
deriving DecidableEq

/-- The nine bytes of a graph operation. -/
def GraphOp.encode : GraphOp → Bytes
  | created g => 1 :: (u32Bytes g.raw ++ u32Bytes GraphId.DEFAULT.raw)
  | dropped g => 2 :: (u32Bytes g.raw ++ u32Bytes GraphId.DEFAULT.raw)
  | copied source target => 3 :: (u32Bytes target.raw ++ u32Bytes source.raw)

/-- The bytes of a logged quad version. -/
def StagedQuad.encode (quad : StagedQuad) : Bytes :=
  quad.key.s.uuid.bytes ++ u32Bytes quad.key.p ++ quad.key.o.uuid.bytes
    ++ u32Bytes quad.key.g.raw ++ beBytes 4 quad.value.length ++ quad.value

/-- The author bytes that fit the entry. -/
def authorBytes (author : String) : Bytes := (utf8 author).take (min (utf8 author).length 65535)

/-- The bytes of a change-log entry. -/
def encodeChange (author : String) (ops : List GraphOp) (quads : List StagedQuad) : Bytes :=
  CHANGES_VERSION :: (beBytes 2 (authorBytes author).length ++ authorBytes author
    ++ beBytes 2 ops.length ++ ops.flatMap GraphOp.encode
    ++ beBytes 4 quads.length ++ quads.flatMap StagedQuad.encode)

/-- The log entry of a commit, or nothing when it has no quads and no graph operations. -/
def batchChange (tt : Timestamp) (author : String) (ops : List GraphOp)
    (quads : List StagedQuad) : WriteBatch :=
  if ops.isEmpty && quads.isEmpty then []
  else [.put .chg tt.toBeBytes (encodeChange author ops quads)]

/-- Cut a number of bytes off the front of a reader's buffer. -/
def readBytes (n : Nat) (buf : Bytes) : Option (Bytes × Bytes) :=
  if n ≤ buf.length then some (buf.take n, buf.drop n) else none

/-- Read a node from a reader's buffer. -/
def readNode (buf : Bytes) : Option (NodeId × Bytes) :=
  (readBytes 16 buf).map (fun (bytes, rest) => (⟨Uuid.fromSlice bytes⟩, rest))

/-- Read a 32-bit number from a reader's buffer. -/
def readU32 (buf : Bytes) : Option (UInt32 × Bytes) :=
  (readBytes 4 buf).map (fun (bytes, rest) => (u32From bytes, rest))

/-- Read a graph operation from a reader's buffer. -/
def readGraphOp (buf : Bytes) : Option (GraphOp × Bytes) := do
  let (kind, rest) ← readBytes 1 buf
  let (g, rest) ← readU32 rest
  let (source, rest) ← readU32 rest
  if kind = [1] then some (.created ⟨g⟩, rest)
  else if kind = [2] then some (.dropped ⟨g⟩, rest)
  else if kind = [3] then some (.copied ⟨source⟩ ⟨g⟩, rest)
  else none

/-- Read a number of graph operations. -/
def readGraphOps : Nat → Bytes → Option (List GraphOp × Bytes)
  | 0, buf => some ([], buf)
  | n + 1, buf => do
    let (op, rest) ← readGraphOp buf
    let (ops, rest) ← readGraphOps n rest
    return (op :: ops, rest)

/-- Read the components and the value of one logged quad version. -/
def readQuad (buf : Bytes) : Option (QuadIds × Bytes × Bytes) := do
  let (s, rest) ← readNode buf
  let (p, rest) ← readU32 rest
  let (o, rest) ← readNode rest
  let (g, rest) ← readU32 rest
  let (len, rest) ← readU32 rest
  let (value, rest) ← readBytes len.toNat rest
  return (⟨s, p, o, ⟨g⟩⟩, value, rest)

/-- A missing part of an entry is reported with the entry's commit time. -/
def orBad {α : Type} (commitTs : Timestamp) : Option α → Except StorageError α
  | some value => .ok value
  | none => .error (.keyDecode ("corrupt change-log entry at " ++ toString commitTs.micros))

namespace TripleStore

variable (ext : External)

/-- Read a number of logged quad versions. -/
def readQuads (store : TripleStore) (commitTs : Timestamp) :
    Nat → Bytes → Except StorageError (List (GraphId × Triple))
  | 0, _ => .ok []
  | n + 1, buf => do
    let (ids, value, rest) ← orBad commitTs (readQuad buf)
    let triple ← store.reconstruct ext ids.s ids.p ids.o commitTs value
    let quads ← readQuads store commitTs n rest
    return (ids.g, triple) :: quads

/-- Decode a change-log entry. -/
def decodeChange (store : TripleStore) (commitTs : Timestamp) (entry : Bytes) :
    Except StorageError ChangeRecord := do
  let (version, rest) ← orBad commitTs (readBytes 1 entry)
  if version ≠ [CHANGES_VERSION] then
    .error (.keyDecode ("unsupported change-log version at " ++ toString commitTs.micros))
  else do
    let (authorLen, rest) ← orBad commitTs (readBytes 2 rest)
    let (authorBytes, rest) ← orBad commitTs (readBytes (beNat authorLen) rest)
    let author ← orBad commitTs (fromUtf8 authorBytes)
    let (nOps, rest) ← orBad commitTs (readBytes 2 rest)
    let (graphOps, rest) ← orBad commitTs (readGraphOps (beNat nOps) rest)
    let (nQuads, rest) ← orBad commitTs (readU32 rest)
    let quads ← store.readQuads ext commitTs nQuads.toNat rest
    return ⟨commitTs, author, graphOps, quads⟩

/-- Logged commits after a time, oldest first, up to a limit. -/
def changesAfter (store : TripleStore) (after : Timestamp) (limit : Nat) :
    Except StorageError (List ChangeRecord) :=
  let start := (max (Timestamp.clamp (after.micros + 1)) Timestamp.zero).toBeBytes
  (((store.db.family .chg).seek start).take limit).mapM fun (key, entry) =>
    store.decodeChange ext (Timestamp.fromBeBytes (key.take 8)) entry

/-- The oldest point a subscriber can resume from. -/
def changesFloor (store : TripleStore) : Timestamp :=
  match store.db.get .metadata META_CHANGES_FLOOR with
  | some bytes => if bytes.length = 8 then Timestamp.fromBeBytes bytes else Timestamp.zero
  | none => Timestamp.zero

/-- Delete log entries committed before a time and raise the floor; also count them. -/
def pruneChanges (store : TripleStore) (before : Timestamp) : TripleStore × Nat :=
  let stop := (max before Timestamp.zero).toBeBytes
  let removed := ((store.db.family .chg).entries.takeWhile (fun pair => decide (pair.1 < stop))).length
  let floor : WriteBatch :=
    if store.changesFloor < before then
      [.put .metadata META_CHANGES_FLOOR (Timestamp.wrap (before.micros - 1)).toBeBytes]
    else []
  (store.dbWrite (.deleteRange .chg Timestamp.zero.toBeBytes stop :: floor), removed)

end TripleStore

end Polargraph
