import Polargraph.Storage.Keys

/-! Binary codec for the values of the quad index and of the blob column family. -/

namespace Polargraph

/-- Discriminant of a relation. -/
def DISC_RELATION : UInt8 := 0x01

/-- Discriminant of a property held as JSON. -/
def DISC_PROPERTY : UInt8 := 0x02

/-- Discriminant of a vector held as binary floats. -/
def DISC_VECTOR : UInt8 := 0x03

/-- Discriminant of a property stored out of line. -/
def DISC_PROPERTY_REF : UInt8 := 0x04

/-- The bytes from a position up to another. -/
def slice (bytes : Bytes) (start stop : Nat) : Bytes := (bytes.drop start).take (stop - start)

/-- Where the valid time of each discriminant starts and ends, and the least length it needs. -/
def vtOffsets (disc : UInt8) : Option (Nat × Nat × Nat) :=
  if disc = DISC_RELATION then some (17, 25, 33)
  else if disc = DISC_PROPERTY ∨ disc = DISC_VECTOR ∨ disc = DISC_PROPERTY_REF then some (1, 9, 17)
  else none

/-- The valid time of an encoded value, without a full decode. -/
def validTime (bytes : Bytes) : Option (Timestamp × Timestamp) := do
  let disc ← bytes.head?
  let (s, e, min) ← vtOffsets disc
  if bytes.length < min then none
  else some (Timestamp.fromBeBytes (slice bytes s e), Timestamp.fromBeBytes (slice bytes e (e + 8)))

/-- A copy of an encoded value with its end of valid time replaced. -/
def withVtEnd (bytes : Bytes) (vtEnd : Timestamp) : Except StorageError Bytes :=
  match bytes.head?.bind vtOffsets with
  | none => .error (.keyDecode "unknown value discriminant")
  | some (_, e, min) =>
    if bytes.length < min then .error (.keyDecode "value too short")
    else .ok (bytes.take e ++ vtEnd.toBeBytes ++ bytes.drop (e + 8))

/-- A property reference: the value itself is in the blob column family. -/
def encodePropertyRef (temporal : BiTemporalRange) : Bytes :=
  DISC_PROPERTY_REF :: (temporal.vtStart.toBeBytes ++ temporal.vtEnd.toBeBytes)

/-- The index value of a relation. -/
def encodeRelation (edgeId : EdgeId) (temporal : BiTemporalRange) : Bytes :=
  DISC_RELATION :: (edgeId.uuid.bytes ++ temporal.vtStart.toBeBytes ++ temporal.vtEnd.toBeBytes)

section External

variable (ext : External)

/-- The inline index value of a property. -/
def encodeProperty (value : Value) (temporal : BiTemporalRange) : Except StorageError Bytes :=
  match value with
  | .vector floats =>
    .ok (DISC_VECTOR :: (temporal.vtStart.toBeBytes ++ temporal.vtEnd.toBeBytes
      ++ leBytes 4 floats.length ++ floats.flatMap (fun bits => leBytes 4 bits.toNat)))
  | _ =>
    match ext.jsonToVec value with
    | .error text => .error (.serde text)
    | .ok json =>
      .ok (DISC_PROPERTY :: (temporal.vtStart.toBeBytes ++ temporal.vtEnd.toBeBytes ++ json))

/-- The blob payload of a value: its property encoding without the temporal bytes. -/
def encodeBlob (value : Value) : Except StorageError Bytes := do
  let zero : BiTemporalRange := ⟨Timestamp.zero, Timestamp.zero, Timestamp.zero⟩
  let full ← encodeProperty ext value zero
  return full.take 1 ++ full.drop 17

/-- What an index value decodes to. -/
inductive DecodedValue where
  /-- A relation through an edge. -/
  | relation (edgeId : EdgeId) (temporal : BiTemporalRange)
  /-- A property held inline. -/
  | property (value : Value) (temporal : BiTemporalRange)
  /-- A property whose value is in the blob column family under the object slot. -/
  | propertyRef (temporal : BiTemporalRange)
deriving DecidableEq

/-- The floats of a vector encoding, four little-endian bytes each. -/
def readFloats (bytes : Bytes) (len : Nat) : List UInt32 :=
  (List.range len).map (fun i => UInt32.ofNat (leNat (slice bytes (21 + i * 4) (21 + i * 4 + 4))))

/-- The envelope of a decoded value, whose transaction time the caller fills in. -/
def decodedWindow (bytes : Bytes) (s e : Nat) : BiTemporalRange :=
  ⟨Timestamp.fromBeBytes (slice bytes s e), Timestamp.fromBeBytes (slice bytes e (e + 8)),
    Timestamp.zero⟩

/-- Decode an index value. -/
def decodeValue (bytes : Bytes) : Except StorageError DecodedValue :=
  match bytes.head? with
  | none => .error (.keyDecode "empty value bytes")
  | some disc =>
    if disc = DISC_RELATION then
      if bytes.length < 33 then .error (.keyDecode "relation value too short")
      else .ok (.relation ⟨Uuid.fromSlice (slice bytes 1 17)⟩ (decodedWindow bytes 17 25))
    else if disc = DISC_PROPERTY then
      if bytes.length < 17 then .error (.keyDecode "property value too short")
      else match ext.jsonFromSlice (bytes.drop 17) with
        | .error text => .error (.serde text)
        | .ok value => .ok (.property value (decodedWindow bytes 1 9))
    else if disc = DISC_VECTOR then
      if bytes.length < 21 then .error (.keyDecode "vector value too short")
      else if bytes.length < 21 + leNat (slice bytes 17 21) * 4 then
        .error (.keyDecode "vector value truncated")
      else .ok (.property (.vector (readFloats bytes (leNat (slice bytes 17 21))))
        (decodedWindow bytes 1 9))
    else if disc = DISC_PROPERTY_REF then
      match validTime bytes with
      | none => .error (.keyDecode "property ref too short")
      | some (vtStart, vtEnd) => .ok (.propertyRef ⟨vtStart, vtEnd, Timestamp.zero⟩)
    else .error (.keyDecode ("unknown discriminant 0x" ++ Uuid.hexByte disc))

/-- Decode a blob payload. -/
def decodeBlob (bytes : Bytes) : Except StorageError Value :=
  match bytes with
  | [] => .error (.keyDecode "empty blob")
  | disc :: payload => do
    match ← decodeValue ext (disc :: (List.replicate 16 0 ++ payload)) with
    | .property value _ => return value
    | _ => .error (.keyDecode ("blob has non-property discriminant 0x" ++ Uuid.hexByte disc))

end External

end Polargraph
