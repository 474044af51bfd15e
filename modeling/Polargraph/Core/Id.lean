import Polargraph.Lib.Bytes

/-! Node, edge, predicate and graph identifiers, and the code they are computed with. -/

namespace Polargraph

/-- Sixteen bytes that name a node or an edge. -/
@[ext] structure Uuid where
  /-- The bytes, most significant first. -/
  bytes : Bytes
  /-- There are sixteen of them. -/
  width : bytes.length = 16
deriving DecidableEq

namespace Uuid

/-- The all-zero identifier. -/
def nil : Uuid := ⟨List.replicate 16 0, rfl⟩

/-- Read an identifier from a slice of sixteen bytes. -/
def fromSlice (slice : Bytes) : Uuid :=
  if width : slice.length = 16 then ⟨slice, width⟩ else nil

/-- An identifier reads back from its own bytes. -/
@[simp] theorem fromSlice_bytes (uuid : Uuid) : fromSlice uuid.bytes = uuid := by
  simp [fromSlice, uuid.width]

/-- A slice of the right width is the bytes of the identifier read from it. -/
theorem bytes_fromSlice {slice : Bytes} (width : slice.length = 16) :
    (fromSlice slice).bytes = slice := by
  simp [fromSlice, width]

/-- The two hexadecimal digits of a byte. -/
def hexByte (byte : UInt8) : String :=
  String.ofList [Nat.digitChar (byte.toNat / 16), Nat.digitChar (byte.toNat % 16)]

/-- The hyphenated lower-case form an identifier is displayed in. -/
def display (uuid : Uuid) : String :=
  let group (start count : Nat) := String.join (((uuid.bytes.drop start).take count).map hexByte)
  group 0 4 ++ "-" ++ group 4 2 ++ "-" ++ group 6 2 ++ "-" ++ group 8 2 ++ "-" ++ group 10 6

/-- The two digits of a byte tell which byte it is. -/
theorem hexByte_inj {left right : UInt8} (same : (hexByte left).toList = (hexByte right).toList) :
    left = right := by
  have digits : ∀ left < 16, ∀ right < 16, Nat.digitChar left = Nat.digitChar right → left = right := by
    decide
  simp only [hexByte, String.toList_ofList, List.cons.injEq, and_true] at same
  have bound := left.toNat_lt
  have bound' := right.toNat_lt
  have high := digits _ (by omega) _ (by omega) same.1
  have low := digits _ (by omega) _ (by omega) same.2
  exact UInt8.toNat_inj.mp (by omega)

/-- The digits of some bytes are twice as many as these, and tell which bytes they are. -/
theorem hexBytes_inj {left right : Bytes} (width : left.length = right.length) :
    (String.join (left.map hexByte)).toList.length = (String.join (right.map hexByte)).toList.length ∧
      ((String.join (left.map hexByte)).toList = (String.join (right.map hexByte)).toList →
        left = right) := by
  have two : ∀ byte, (hexByte byte).toList.length = 2 := by simp [hexByte]
  induction left generalizing right with
  | nil =>
    obtain rfl := List.length_eq_zero_iff.mp width.symm
    exact ⟨rfl, fun _ => rfl⟩
  | cons first rest ih =>
    cases right with
    | nil => cases width
    | cons first' rest' =>
      obtain ⟨lengths, inj⟩ := ih (Nat.succ.inj width)
      simp only [List.map_cons, String.join_cons, String.toList_append, List.length_append, two,
        lengths, true_and]
      intro same
      obtain ⟨head, tail⟩ := List.append_inj same (by rw [two, two])
      rw [hexByte_inj head, inj tail]

/-- Identifiers are told apart by the form they are displayed in. -/
theorem display_inj {left right : Uuid} (same : left.display = right.display) : left = right := by
  have group : ∀ start count,
      ((left.bytes.drop start).take count).length = ((right.bytes.drop start).take count).length := by
    intro start count
    simp only [List.length_take, List.length_drop, left.width, right.width]
  have parts := fun start count => hexBytes_inj (group start count)
  have letters := congrArg String.toList same
  simp only [display, String.toList_append] at letters
  -- The five groups have the same widths in both forms, so they agree one by one.
  obtain ⟨letters, last⟩ := List.append_inj' letters (parts 10 6).1
  obtain ⟨letters, _⟩ := List.append_inj' letters rfl
  obtain ⟨letters, fourth⟩ := List.append_inj' letters (parts 8 2).1
  obtain ⟨letters, _⟩ := List.append_inj' letters rfl
  obtain ⟨letters, third⟩ := List.append_inj' letters (parts 6 2).1
  obtain ⟨letters, _⟩ := List.append_inj' letters rfl
  obtain ⟨letters, second⟩ := List.append_inj' letters (parts 4 2).1
  obtain ⟨first, _⟩ := List.append_inj' letters rfl
  -- From the last group on, the bytes of each group extend those of the next.
  have extend : ∀ start count, (left.bytes.drop start).take count = (right.bytes.drop start).take count →
      left.bytes.drop (start + count) = right.bytes.drop (start + count) →
        left.bytes.drop start = right.bytes.drop start := by
    intro start count group rest
    rw [← List.take_append_drop count (left.bytes.drop start),
      ← List.take_append_drop count (right.bytes.drop start), List.drop_drop, List.drop_drop, group, rest]
  have final : left.bytes.drop 16 = right.bytes.drop 16 := by
    rw [List.drop_eq_nil_of_le (le_of_eq left.width), List.drop_eq_nil_of_le (le_of_eq right.width)]
  refine Uuid.ext ?_
  have ten := extend 10 6 ((parts 10 6).2 last) final
  have eight := extend 8 2 ((parts 8 2).2 fourth) ten
  have six := extend 6 2 ((parts 6 2).2 third) eight
  have four := extend 4 2 ((parts 4 2).2 second) six
  exact extend 0 4 ((parts 0 4).2 first) four

end Uuid

/-- Opaque identifier of a node in the graph. -/
@[ext] structure NodeId where
  /-- The identifier's bytes. -/
  uuid : Uuid
deriving DecidableEq

/-- The node whose bytes are all the same. -/
def NodeId.ofByte (byte : UInt8) : NodeId := ⟨⟨List.replicate 16 byte, List.length_replicate⟩⟩

/-- Opaque identifier of an edge instance. -/
@[ext] structure EdgeId where
  /-- The identifier's bytes. -/
  uuid : Uuid
deriving DecidableEq

/-- Interned predicate identifier. -/
abbrev PredId := UInt32

/-- Interned identifier of a named graph. -/
@[ext] structure GraphId where
  /-- The interned number. -/
  raw : UInt32
deriving DecidableEq

/-- The default graph. -/
def GraphId.DEFAULT : GraphId := ⟨0⟩

/-- Four big-endian bytes of a 32-bit identifier. -/
def u32Bytes (id : UInt32) : Bytes := beBytes 4 id.toNat

/-- The 32-bit identifier spelled by four big-endian bytes. -/
def u32From (slice : Bytes) : UInt32 := UInt32.ofNat (beNat slice)

/-- A 32-bit identifier takes four bytes. -/
@[simp] theorem u32Bytes_length (id : UInt32) : (u32Bytes id).length = 4 := by simp [u32Bytes]

/-- A 32-bit identifier reads back from its own bytes. -/
@[simp] theorem u32From_u32Bytes (id : UInt32) : u32From (u32Bytes id) = id := by
  have bound : id.toNat < 256 ^ 4 := id.toNat_lt
  rw [u32From, u32Bytes, beNat_beBytes_of_lt bound, UInt32.ofNat_toNat]

/-- Four bytes are the bytes of the identifier they spell. -/
theorem u32Bytes_u32From {slice : Bytes} (width : slice.length = 4) :
    u32Bytes (u32From slice) = slice := by
  -- Both sides have four bytes that spell the same number.
  have bound := beNat_lt slice
  rw [width] at bound
  have spelled : beNat (u32Bytes (u32From slice)) = beNat slice := by
    have small : (u32From slice).toNat = beNat slice := by
      simp only [u32From, UInt32.toNat_ofNat']
      exact Nat.mod_eq_of_lt bound
    rw [u32Bytes, small, beNat_beBytes_of_lt bound]
  have lengths : (u32Bytes (u32From slice)).length = slice.length := by simp [width]
  refine le_antisymm (not_lt.mp fun above => ?_) (not_lt.mp fun above => ?_)
  · rw [lt_iff_beNat_lt lengths.symm, spelled] at above
    exact lt_irrefl _ above
  · rw [lt_iff_beNat_lt lengths, spelled] at above
    exact lt_irrefl _ above

end Polargraph
