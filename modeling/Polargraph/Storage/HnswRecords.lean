import Polargraph.Storage.Codec
import Polargraph.Storage.Db
import Polargraph.Storage.Hnsw

/-! The records of the vector spaces, and how the spaces are loaded from them. -/

namespace Polargraph

/-- A vector: the bits of its 32-bit floats. -/
abbrev VectorBits := List UInt32

/-- The neighbours of a node above layer zero. -/
def DEFAULT_M : Nat := 16

/-- The neighbours of a node at layer zero. -/
def DEFAULT_M_MAX0 : Nat := 32

/-- How many candidates an insertion considers. -/
def DEFAULT_EF_CONSTRUCTION : Nat := 200

/-- Suffix of the key of the entry point of a space. -/
def EP_SUFFIX : Bytes := utf8 "/__ep"

/-- What stands between the name of a space and a node. -/
def NODE_INFIX : Bytes := utf8 "/n/"

/-- Stands for the dimension in the record of a node whose vector is mapped. -/
def MMAP_SENTINEL : Nat := 2 ^ 32 - 1

/-- Stands for the dimension in the record of a node whose vector has its own key. -/
def SEPARATE_SENTINEL : Nat := 2 ^ 32 - 2

/-- The key of the vector of a node. -/
def vectorKeyForSpace (space : String) (id : NodeId) : Bytes := utf8 space ++ utf8 "/v/" ++ id.uuid.bytes

/-- A vector as it is stored. -/
def vectorToBytes (v : VectorBits) : Bytes := v.flatMap fun bits => leBytes 4 bits.toNat

/-- A stored vector; bytes that make no whole float are left out. -/
def vectorFromBytes : Bytes → VectorBits
  | a :: b :: c :: d :: rest => UInt32.ofNat (leNat [a, b, c, d]) :: vectorFromBytes rest
  | _ => []

/-- The key of the entry point of a space. -/
def epKeyForSpace (space : String) : Bytes := utf8 space ++ EP_SUFFIX

/-- What the keys of the nodes of a space begin with. -/
def nodePrefixForSpace (space : String) : Bytes := utf8 space ++ NODE_INFIX

/-- The key of a node of a space. -/
def nodeKeyForSpace (space : String) (id : NodeId) : Bytes := utf8 space ++ NODE_INFIX ++ id.uuid.bytes

/-- What the keys of the codes of a space begin with. -/
def codesPrefixForSpace (space : String) : Bytes := utf8 space ++ utf8 "/q/"

/-- The key of the codes of a node. -/
def codesKeyForSpace (space : String) (id : NodeId) : Bytes := codesPrefixForSpace space ++ id.uuid.bytes

/-- The key that marks a space as quantized. -/
def int8MarkerKey (space : String) : Bytes := utf8 space ++ utf8 "/__q"

/-- The name of the space a key is the entry point of. -/
def parseEpKey (key : Bytes) : Option String :=
  if EP_SUFFIX.isSuffixOf key then fromUtf8 (key.take (key.length - EP_SUFFIX.length)) else none

/-- The record of an entry point. -/
def serializeEntryPoint (id : NodeId) (maxLayer : Nat) : Bytes := id.uuid.bytes ++ leBytes 4 maxLayer

/-- Read the record of an entry point. -/
def deserializeEntryPoint (bytes : Bytes) : Except StorageError (NodeId × Nat) :=
  if bytes.length < 20 then .error (.keyDecode "ep record too short")
  else .ok (⟨Uuid.fromSlice (slice bytes 0 16)⟩, leNat (slice bytes 16 20))

/-- Where the record of a node has its vector. -/
inductive NodeVector where
  /-- In the record. -/
  | data (vector : VectorBits)
  /-- In the mapped file, at an index. -/
  | mmapIndex (index : Nat)
  /-- Under a key of its own. -/
  | separate (vector : VectorBits)

/-- The list of neighbours at a layer, as a record has it. -/
def serializeNeighbors (ids : List NodeId) : Bytes :=
  leBytes 4 ids.length ++ ids.flatMap fun id => id.uuid.bytes

/-- The record of a node. -/
def serializeNode (node : HnswNode VectorBits) (denseIndex : Option Nat) : Bytes :=
  leBytes 4 node.maxLayer ++
    (match denseIndex with
    | some index => leBytes 4 MMAP_SENTINEL ++ leBytes 4 index
    | none =>
      if !node.inline then leBytes 4 SEPARATE_SENTINEL
      else leBytes 4 node.vector.length ++ vectorToBytes node.vector) ++
    (List.range (node.maxLayer + 1)).flatMap fun l => serializeNeighbors (node.neighbors[l]?.getD [])

/-- Read some identifiers, and what follows them. -/
def deserializeIds : Nat → Bytes → Except StorageError (List NodeId × Bytes)
  | 0, bytes => .ok ([], bytes)
  | n + 1, bytes => do
    if bytes.length < 16 then .error (.keyDecode "hnsw neighbor id truncated")
    else do
      let (ids, rest) ← deserializeIds n (bytes.drop 16)
      return (⟨Uuid.fromSlice (bytes.take 16)⟩ :: ids, rest)

/-- Read the neighbours of some layers. -/
def deserializeNeighbors : Nat → Bytes → Except StorageError (List (List NodeId))
  | 0, _ => .ok []
  | layers + 1, bytes => do
    if bytes.length < 4 then .error (.keyDecode "hnsw neighbor count truncated")
    else do
      let (ids, rest) ← deserializeIds (leNat (bytes.take 4)) (bytes.drop 4)
      return ids :: (← deserializeNeighbors layers rest)

/-- Read where a record has its vector, and what follows it. -/
def deserializeVector (bytes : Bytes) : Except StorageError (NodeVector × Bytes) :=
  let dim := leNat (slice bytes 4 8)
  if dim = MMAP_SENTINEL then
    if bytes.length < 12 then .error (.keyDecode "hnsw mmap node record too short")
    else .ok (.mmapIndex (leNat (slice bytes 8 12)), bytes.drop 12)
  else if dim = SEPARATE_SENTINEL then .ok (.separate [], bytes.drop 8)
  else if bytes.length < 8 + dim * 4 then .error (.keyDecode "hnsw node vector truncated")
  else .ok (.data (vectorFromBytes (slice bytes 8 (8 + dim * 4))), bytes.drop (8 + dim * 4))

/-- Read the record of a node. -/
def deserializeNode (bytes : Bytes) : Except StorageError (NodeVector × Nat × List (List NodeId)) :=
  if bytes.length < 8 then .error (.keyDecode "hnsw node record too short")
  else do
    let maxLayer := leNat (slice bytes 0 4)
    let (vector, rest) ← deserializeVector bytes
    return (vector, maxLayer, ← deserializeNeighbors (maxLayer + 1) rest)

/-- The vectors of a mapped file by their indexes, if the file of a space exists and opens. -/
abbrev VectorFiles := String → Option (Except StorageError (Nat → Option VectorBits))

section Load

variable {F : Type} (floats : Floats VectorBits F Bytes)

/-- An index of a space as it is kept in memory. -/
abbrev SpaceIndex (F : Type) := HnswIndex VectorBits F Bytes

/-- Take the record of an entry point. -/
def HnswIndex.loadEntryPoint (index : SpaceIndex F) (id : NodeId) (maxLayer : Nat) : SpaceIndex F :=
  { index with entryPoint := some id, globalMaxLayer := maxLayer }

/-- Take the record of a node. -/
def HnswIndex.loadNode (index : SpaceIndex F) (rows : Nat → Option VectorBits) (id : NodeId)
    (nodeData : NodeVector) (maxLayer : Nat) (neighbors : List (List NodeId)) : SpaceIndex F :=
  let (vector, inline, index) :=
    match nodeData with
    | .data v => (v, true, index)
    | .separate v => (v, false, index)
    | .mmapIndex i => ([], false,
        { index with mmapState := index.mmapState.map fun slice => Function.update slice id (rows i) })
  let n := match index.mmapState with
    | some slice => (slice id).map floats.norm
    | none => some (floats.norm vector)
  { index with
    norms := match n with
      | some n => Function.update index.norms id (some n)
      | none => index.norms
    nodes := index.nodes.insert id ⟨vector, maxLayer, neighbors, inline⟩ }

/-- Take the codes of a node. -/
def HnswIndex.loadCodes (index : SpaceIndex F) (id : NodeId) (codes : Bytes) : SpaceIndex F :=
  { index with int8 := some (Function.update (index.int8.getD fun _ => none) id (some codes)) }

/-- Load a node of a space from an entry under its prefix. -/
def loadSpaceNode (hnsw : SortedMap Bytes Bytes) (rows : Nat → Option VectorBits) (space : String)
    (index : SpaceIndex F) (entry : Bytes × Bytes) : Except StorageError (SpaceIndex F) := do
  let idStart := (nodePrefixForSpace space).length
  if entry.1.length < idStart + 16 then return index
  else do
    let id : NodeId := ⟨Uuid.fromSlice (slice entry.1 idStart (idStart + 16))⟩
    let (vector, maxLayer, neighbors) ← deserializeNode entry.2
    match vector with
    | .separate _ =>
      match hnsw.find? (vectorKeyForSpace space id) with
      | none => .error (.keyDecode ("hnsw vector missing for " ++ id.uuid.display))
      | some bytes =>
        return index.loadNode floats rows id (.separate (vectorFromBytes bytes)) maxLayer neighbors
    | vector => return index.loadNode floats rows id vector maxLayer neighbors

/-- Load the codes of a space from the entries under their prefix, up to one of another length. -/
def loadSpaceCodes (space : String) (index : SpaceIndex F) (entries : List (Bytes × Bytes)) :
    SpaceIndex F :=
  let idStart := (codesPrefixForSpace space).length
  (entries.takeWhile fun entry => decide (entry.1.length = idStart + 16)).foldl
    (fun index entry => index.loadCodes ⟨Uuid.fromSlice (entry.1.drop idStart)⟩ entry.2) index

/-- Compute the codes that are missing. -/
def quantizeMissing (index : SpaceIndex F) : SpaceIndex F :=
  (index.nodes.keys.filter fun id => (index.codesOf id).isNone).foldl
    (fun index id => index.loadCodes id (floats.quantize ((index.sliceOf id).getD floats.empty))) index

/-- The index of a space before its records are loaded, and the rows of its file. -/
def openSpace (F : Type) (files : VectorFiles) (space : String) :
    Except StorageError ((Nat → Option VectorBits) × SpaceIndex F) :=
  match files space with
  | none => .ok (fun _ => none,
      HnswIndex.withParams DEFAULT_M DEFAULT_M_MAX0 DEFAULT_EF_CONSTRUCTION false false)
  | some opened => opened.map fun rows => (rows,
      { HnswIndex.withParams DEFAULT_M DEFAULT_M_MAX0 DEFAULT_EF_CONSTRUCTION false true with
        mmapState := some fun _ => none })

/-- Load a space whose entry point is recorded. -/
def loadHnswSpace (files : VectorFiles) (hnsw : SortedMap Bytes Bytes) (space : String) (epId : NodeId)
    (epLayer : Nat) : Except StorageError (SpaceIndex F) := do
  let (rows, index) ← openSpace F files space
  let index := index.loadEntryPoint epId epLayer
  let index ← (hnsw.scanPrefix (nodePrefixForSpace space)).foldlM
    (loadSpaceNode floats hnsw rows space) index
  match hnsw.find? (int8MarkerKey space) with
  | none => return index
  | some _ =>
    let index := loadSpaceCodes space index (hnsw.scanPrefix (codesPrefixForSpace space))
    return quantizeMissing floats index

/-- The entry points that are recorded. -/
def loadEntryPoints : List (Bytes × Bytes) → Except StorageError (List (String × NodeId × Nat))
  | [] => .ok []
  | (key, value) :: rest =>
    match parseEpKey key with
    | none => loadEntryPoints rest
    | some space => do
      let (epId, epLayer) ← deserializeEntryPoint value
      return (space, epId, epLayer) :: (← loadEntryPoints rest)

/-- Load all spaces. -/
def loadHnswSpaces (files : VectorFiles) (hnsw : SortedMap Bytes Bytes) :
    Except StorageError (String → Option (SpaceIndex F)) := do
  let entryPoints ← loadEntryPoints hnsw.entries
  entryPoints.foldlM (fun spaces (space, epId, epLayer) => do
    let index ← loadHnswSpace floats files hnsw space epId epLayer
    return Function.update spaces space (some index)) fun _ => none

end Load

end Polargraph
