import Polargraph.Storage.Write

/-! The offline migration of the quads of a store from format 2 to format 3. -/

namespace Polargraph

namespace V2

/-- A decoded key of the leading order of format 2. -/
structure Spo where
  /-- The subject. -/
  s : NodeId
  /-- The predicate. -/
  p : PredId
  /-- The object, which is the same for all values of a property. -/
  o : NodeId
  /-- The transaction time. -/
  tt : Timestamp
deriving DecidableEq

/-- The width of a key. -/
def KEY_LEN : Nat := 44

/-- The object slot of property keys. -/
def PROPERTY_SENTINEL : NodeId := ⟨⟨List.replicate 16 0xff, rfl⟩⟩

/-- The key of a version. -/
def encodeSpo (k : Spo) : Bytes :=
  k.s.uuid.bytes ++ u32Bytes k.p ++ k.o.uuid.bytes ++ k.tt.toBeBytes

/-- Read a key. -/
def decodeSpo (key : Bytes) : Except StorageError Spo := do
  checkLen key KEY_LEN "v2 SPO"
  return ⟨⟨Uuid.fromSlice (slice key 0 16)⟩, u32From (slice key 16 20),
    ⟨Uuid.fromSlice (slice key 20 36)⟩, Timestamp.fromBeBytes (slice key 36 44)⟩

end V2

/-- What a migration counts. -/
structure MigrationReport where
  /-- Quad versions written. -/
  quadVersions : Nat
  /-- Property versions read. -/
  propertyVersions : Nat
  /-- Closing versions added. -/
  closingVersionsSynthesized : Nat
  /-- Property values moved out of line. -/
  valuesOutOfLine : Nat
deriving DecidableEq

/-- A checksum of versions that does not depend on their order. -/
structure Checksum where
  /-- How many versions were added. -/
  count : Nat
  /-- The sum of their digests. -/
  sum : Nat
deriving DecidableEq

/-- What a migration writes. -/
structure QuadOut where
  /-- The versions, each of which goes to the file of every order. -/
  quads : List StagedQuad
  /-- Out-of-line values and trigrams. -/
  side : WriteBatch
  /-- The checksum of the versions. -/
  checksum : Checksum
  /-- What was counted. -/
  report : MigrationReport

section External

variable (ext : External)

/-- Add a version to a checksum. -/
def Checksum.add (checksum : Checksum) (q : QuadKey) (vt : Timestamp × Timestamp) : Checksum :=
  let buf := q.s.uuid.bytes ++ u32Bytes q.p ++ q.o.uuid.bytes ++ q.tt.toBeBytes ++
    vt.1.toBeBytes ++ vt.2.toBeBytes
  ⟨checksum.count + 1, (checksum.sum + ext.xxh3_128 buf) % 2 ^ 128⟩

namespace QuadOut

/-- Write a version. -/
def emit (out : QuadOut) (q : QuadKey) (bytes : Bytes) : Except StorageError QuadOut :=
  match validTime bytes with
  | none => .error (.keyDecode "value without valid time")
  | some vt => .ok { out with
    quads := out.quads ++ [⟨q, bytes⟩]
    checksum := out.checksum.add ext q vt
    report := { out.report with quadVersions := out.report.quadVersions + 1 } }

/-- Whether a value is still open at a time. -/
def stillOpen (time : Timestamp) (bytes : Bytes) : Bool :=
  (validTime bytes).any (fun window => decide (time < window.2))

/-- Close the other values that are still open when a value begins. -/
def closeOthers (k : V2.Spo) (o : NodeId) (time : Timestamp) :
    QuadOut → List (NodeId × Bytes) → Except StorageError (QuadOut × List (NodeId × Bytes))
  | out, [] => .ok (out, [])
  | out, (other, bytes) :: rest =>
    if other = o || !stillOpen time bytes then do
      let (out, rest) ← closeOthers k o time out rest
      return (out, (other, bytes) :: rest)
    else do
      let closed ← withVtEnd bytes time
      let out ← out.emit ext ⟨⟨k.s, k.p, other, GraphId.DEFAULT⟩, k.tt⟩ closed
      let out := { out with report := { out.report with
        closingVersionsSynthesized := out.report.closingVersionsSynthesized + 1 } }
      let (out, rest) ← closeOthers k o time out rest
      return (out, (other, closed) :: rest)

/-- The latest bytes of a value replace the earlier ones. -/
def setLatest (o : NodeId) (bytes : Bytes) : List (NodeId × Bytes) → List (NodeId × Bytes)
  | [] => [(o, bytes)]
  | (other, held) :: rest =>
    if other = o then (o, bytes) :: rest else (other, held) :: setLatest o bytes rest

/-- Count a property version, and keep what its encoding puts elsewhere. -/
def readProperty (out : QuadOut) (side : WriteBatch) (bytes : Bytes) : QuadOut :=
  let outOfLine := if bytes.head? = some DISC_PROPERTY_REF then 1 else 0
  { out with
    side := side
    report := { out.report with
      propertyVersions := out.report.propertyVersions + 1
      valuesOutOfLine := out.report.valuesOutOfLine + outOfLine } }

/-- Rewrite one version, after those of the same key that were recorded before it. -/
def version (store : TripleStore) (state : QuadOut × List (NodeId × Bytes))
    (entry : V2.Spo × Bytes) : Except StorageError (QuadOut × List (NodeId × Bytes)) := do
  let (out, latest) := state
  let (k, value) := entry
  match ← decodeValue ext value with
  | .relation .. =>
    let out ← out.emit ext ⟨⟨k.s, k.p, k.o, GraphId.DEFAULT⟩, k.tt⟩ value
    return (out, latest)
  | .property v temporal =>
    let trigrams := (v.asText.map (batchTextTrigrams k.s k.p GraphId.DEFAULT)).getD []
    let (side, bytes) ← store.encodePropertyEntry ext (out.side ++ trigrams) v temporal
    let out := out.readProperty side bytes
    let o := valueObject ext v
    -- An open-ended value replaces the others that are still open when it begins.
    let (out, latest) ←
      if temporal.vtEnd = Timestamp.END_OF_TIME then closeOthers ext k o temporal.vtStart out latest
      else .ok (out, latest)
    let out ← out.emit ext ⟨⟨k.s, k.p, o, GraphId.DEFAULT⟩, k.tt⟩ bytes
    return (out, setLatest o bytes latest)
  | .propertyRef _ => .error (.keyDecode "v2 store contains a v3 property reference")

/-- Rewrite every version of one subject, predicate and object slot. -/
def group (store : TripleStore) (out : QuadOut) (versions : List (V2.Spo × Bytes)) :
    Except StorageError QuadOut := do
  let (out, _) ← versions.foldlM (version ext store) (out, [])
  return out

/-- Collect the versions of one key, and rewrite them when those of the next begin. -/
def collect (store : TripleStore) (state : QuadOut × List (V2.Spo × Bytes)) (item : Bytes × Bytes) :
    Except StorageError (QuadOut × List (V2.Spo × Bytes)) := do
  let (out, versions) := state
  let k ← V2.decodeSpo item.1
  match versions with
  | (g, _) :: _ =>
    if (g.s, g.p, g.o) ≠ (k.s, k.p, k.o) then do
      let out ← out.group ext store versions
      return (out, [(k, item.2)])
    else return (out, versions ++ [(k, item.2)])
  | [] => return (out, [(k, item.2)])

/-- A migration that has written nothing. -/
def empty : QuadOut := ⟨[], [], ⟨0, 0⟩, ⟨0, 0, 0, 0⟩⟩

end QuadOut

/-- Rewrite the versions of a store of format 2, which are read in key order. -/
def migrateQuads (store : TripleStore) (spo : SortedMap Bytes Bytes) : Except StorageError QuadOut := do
  let (out, versions) ← spo.entries.foldlM (QuadOut.collect ext store) (QuadOut.empty, [])
  out.group ext store versions

end External

end Polargraph
