import Polargraph.Core.Triple

/-! Errors, index orders, and the fixed-width keys of the column families. -/

namespace Polargraph

/-- Which subject and predicate another transaction committed first. -/
structure ConflictError where
  /-- The subject of the rejected write. -/
  subject : NodeId
  /-- Its predicate name. -/
  predicate : String
deriving DecidableEq

/-- The errors the modelled storage operations return. -/
inductive StorageError where
  /-- Serialisation error. -/
  | serde (text : String)
  /-- Key decode error. -/
  | keyDecode (text : String)
  /-- Write conflict. -/
  | writeConflict (conflict : ConflictError)
  /-- Validation error. -/
  | validation (text : String)
  /-- Two different IRIs hash to the same node. -/
  | iriCollision (node : NodeId) (existing new : String)
deriving DecidableEq

/-- Width of a quad index key. -/
def QUAD_KEY_LEN : Nat := 48

/-- Width of the quad prefix of a key: everything but the transaction time. -/
def QUAD_TUPLE_LEN : Nat := QUAD_KEY_LEN - 8

/-- Offset of the graph slot in the six orders that do not lead with it. -/
def GRAPH_OFFSET_NON_LEADING : Nat := 36

/-- Subject, predicate, object slot and graph of a quad. -/
structure QuadIds where
  /-- The subject node. -/
  s : NodeId
  /-- The interned predicate. -/
  p : PredId
  /-- The object node, or the value hash for property triples. -/
  o : NodeId
  /-- The graph. -/
  g : GraphId
deriving DecidableEq

/-- A decoded quad key: the quad and the transaction time of one of its versions. -/
structure QuadKey extends QuadIds where
  /-- The transaction time. -/
  tt : Timestamp
deriving DecidableEq

/-- A component of a quad. -/
inductive Slot where
  /-- The subject. -/
  | s
  /-- The predicate. -/
  | p
  /-- The object. -/
  | o
  /-- The graph. -/
  | g
deriving DecidableEq

/-- Bytes a component takes in a key. -/
def Slot.width : Slot → Nat
  | s | o => 16
  | p | g => 4

/-- The key bytes of one component of a quad. -/
def Slot.bytes (ids : QuadIds) : Slot → Bytes
  | s => ids.s.uuid.bytes
  | p => u32Bytes ids.p
  | o => ids.o.uuid.bytes
  | g => u32Bytes ids.g.raw

/-- Store the key bytes of one component into a quad. -/
def Slot.read (slice : Bytes) (ids : QuadIds) : Slot → QuadIds
  | s => { ids with s := ⟨Uuid.fromSlice slice⟩ }
  | p => { ids with p := u32From slice }
  | o => { ids with o := ⟨Uuid.fromSlice slice⟩ }
  | g => { ids with g := ⟨u32From slice⟩ }

/-- One of the eight quad index orders. -/
inductive Order where
  /-- Subject, predicate, object, graph. -/
  | spog
  /-- Subject, object, predicate, graph. -/
  | sopg
  /-- Predicate, subject, object, graph. -/
  | psog
  /-- Predicate, object, subject, graph. -/
  | posg
  /-- Object, subject, predicate, graph. -/
  | ospg
  /-- Object, predicate, subject, graph. -/
  | opsg
  /-- Graph, subject, predicate, object. -/
  | gspo
  /-- Graph, predicate, object, subject. -/
  | gpos
deriving DecidableEq

/-- Which components of a quad a scan binds. -/
structure Bound where
  /-- The subject, when bound. -/
  s : Option NodeId
  /-- The predicate, when bound. -/
  p : Option PredId
  /-- The object slot, when bound. -/
  o : Option NodeId
  /-- The graph, when bound. -/
  g : Option GraphId

/-- The key bytes of a bound component. -/
def Bound.bytes (bound : Bound) : Slot → Option Bytes
  | .s => bound.s.map (fun s => s.uuid.bytes)
  | .p => bound.p.map u32Bytes
  | .o => bound.o.map (fun o => o.uuid.bytes)
  | .g => bound.g.map (fun g => u32Bytes g.raw)

namespace Order

/-- Every order a quad is written to. -/
def ALL : List Order := [spog, sopg, psog, posg, ospg, opsg, gspo, gpos]

/-- The column family holding an order. -/
def cf : Order → String
  | spog => "spog"
  | sopg => "sopg"
  | psog => "psog"
  | posg => "posg"
  | ospg => "ospg"
  | opsg => "opsg"
  | gspo => "gspo"
  | gpos => "gpos"

/-- The components of an order, leading one first. -/
def slots : Order → List Slot
  | spog => [.s, .p, .o, .g]
  | sopg => [.s, .o, .p, .g]
  | psog => [.p, .s, .o, .g]
  | posg => [.p, .o, .s, .g]
  | ospg => [.o, .s, .p, .g]
  | opsg => [.o, .p, .s, .g]
  | gspo => [.g, .s, .p, .o]
  | gpos => [.g, .p, .o, .s]

/-- The quad prefix of a key in an order, shared by every version of the quad. -/
def tuple (order : Order) (ids : QuadIds) : Bytes := order.slots.flatMap (Slot.bytes ids)

/-- Encode a quad key in an order. -/
def encode (order : Order) (key : QuadKey) : Bytes :=
  order.tuple key.toQuadIds ++ key.tt.toBeBytes

/-- Read the components of a key one after another. -/
def readSlots : List Slot → Bytes → QuadIds → QuadIds
  | [], _, ids => ids
  | slot :: rest, key, ids =>
    readSlots rest (key.drop slot.width) (slot.read (key.take slot.width) ids)

end Order

/-- Read the transaction time from the last eight bytes of a versioned key. -/
def keyTt (key : Bytes) : Timestamp := Timestamp.fromBeBytes (key.drop (key.length - 8))

/-- A key of the wrong width is an error that names the column family. -/
def checkLen (key : Bytes) (expected : Nat) (name : String) : Except StorageError Unit :=
  if key.length ≠ expected then
    .error (.keyDecode (name ++ " key must be " ++ toString expected ++ " bytes, got "
      ++ toString key.length))
  else .ok ()

namespace Order

/-- Decode a key written in an order. -/
def decode (order : Order) (key : Bytes) : Except StorageError QuadKey := do
  checkLen key QUAD_KEY_LEN order.cf
  let blank : QuadIds := ⟨⟨Uuid.nil⟩, 0, ⟨Uuid.nil⟩, GraphId.DEFAULT⟩
  return {
    toQuadIds := readSlots order.slots (key.take QUAD_TUPLE_LEN) blank
    tt := Timestamp.fromBeBytes (key.drop QUAD_TUPLE_LEN) }

/-- The bytes of the leading components that are bound, up to the first unbound one. -/
def boundPrefix (bound : Bound) : List Slot → Bytes
  | [] => []
  | slot :: rest =>
    match bound.bytes slot with
    | some bytes => bytes ++ boundPrefix bound rest
    | none => []

/-- Key prefix for a scan in an order. -/
def keyPrefix (order : Order) (s : Option NodeId) (p : Option PredId) (o : Option NodeId)
    (g : Option GraphId) : Bytes :=
  boundPrefix ⟨s, p, o, g⟩ order.slots

/-- The graph of a key in an order, read without a full decode. -/
def graphOf (order : Order) (key : Bytes) : GraphId :=
  let start := match order with
    | gspo | gpos => 0
    | _ => GRAPH_OFFSET_NON_LEADING
  ⟨u32From ((key.drop start).take 4)⟩

end Order

/-- The distinct three-byte windows of a text, a shorter text being padded with zeros. -/
def extractTrigrams (text : String) : List Bytes :=
  let bytes := utf8 text
  if bytes.isEmpty then []
  else if bytes.length < 3 then [bytes ++ List.replicate (3 - bytes.length) 0]
  else ((List.range (bytes.length - 2)).map (fun start => (bytes.drop start).take 3)).dedup

/-- Key of a trigram entry. -/
def encodeTri (trigram : Bytes) (predId : PredId) (g : GraphId) (subject : NodeId) : Bytes :=
  trigram ++ u32Bytes predId ++ u32Bytes g.raw ++ subject.uuid.bytes

/-- Key of an edge-property annotation. -/
def encodeEpaKey (edge : EdgeId) (predId : PredId) (g : GraphId) (tt : Timestamp) : Bytes :=
  edge.uuid.bytes ++ u32Bytes predId ++ u32Bytes g.raw ++ tt.toBeBytes

/-- Key of an edge-relation annotation. -/
def encodeEpoKey (edge : EdgeId) (predId : PredId) (obj : NodeId) (g : GraphId)
    (tt : Timestamp) : Bytes :=
  edge.uuid.bytes ++ u32Bytes predId ++ obj.uuid.bytes ++ u32Bytes g.raw ++ tt.toBeBytes

/-- Key of an edge-property annotation in the predicate-first index. -/
def encodePeaKey (predId : PredId) (edge : EdgeId) (g : GraphId) (tt : Timestamp) : Bytes :=
  u32Bytes predId ++ edge.uuid.bytes ++ u32Bytes g.raw ++ tt.toBeBytes

end Polargraph
