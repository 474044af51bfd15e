import Mathlib.Data.List.Lex
import Mathlib.Tactic.Ring

/-! Byte strings, and fixed-width big-endian numbers whose byte order is their numeric order. -/

/-- Bytes are ordered as the numbers they hold. -/
instance uint8LinearOrder : LinearOrder UInt8 where
  le_refl byte := UInt8.le_refl byte
  le_trans _ _ _ := UInt8.le_trans
  lt_iff_le_not_ge left right := by
    rw [UInt8.lt_iff_toNat_lt, UInt8.le_iff_toNat_le, UInt8.le_iff_toNat_le]
    omega
  le_antisymm _ _ := UInt8.le_antisymm
  le_total := UInt8.le_total
  toDecidableLE := inferInstance
  toDecidableEq := inferInstance
  toDecidableLT := inferInstance

/-- A byte string. -/
abbrev Bytes := List UInt8

/-- Byte strings are the same where their comparison says so. -/
instance bytesLawfulBEq : LawfulBEq Bytes := inferInstance

/-- The `width` low base-256 digits of a number, most significant first. -/
def beBytes : Nat → Nat → Bytes
  | 0, _ => []
  | width + 1, value => UInt8.ofNat (value / 256 ^ width) :: beBytes width value

/-- The number a byte string spells in base 256, most significant byte first. -/
def beNat : Bytes → Nat
  | [] => 0
  | byte :: rest => byte.toNat * 256 ^ rest.length + beNat rest

/-- A fixed-width encoding has that width. -/
@[simp] theorem beBytes_length (width value : Nat) : (beBytes width value).length = width := by
  induction width with
  | zero => rfl
  | succ width ih => simp [beBytes, ih]

/-- Reading back a fixed-width encoding gives the number modulo its range. -/
theorem beNat_beBytes (width value : Nat) : beNat (beBytes width value) = value % 256 ^ width := by
  -- The leading digit contributes the part of the number above the remaining width.
  induction width with
  | zero => simp [beBytes, beNat, Nat.mod_one]
  | succ width ih =>
    simp only [beBytes, beNat, beBytes_length, ih, UInt8.toNat_ofNat']
    rw [show 256 ^ (width + 1) = 256 ^ width * 256 from rfl, Nat.mod_mul, Nat.add_comm,
      Nat.mul_comm (256 ^ width)]

/-- A number within the width reads back unchanged. -/
theorem beNat_beBytes_of_lt {width value : Nat} (fits : value < 256 ^ width) :
    beNat (beBytes width value) = value := by
  rw [beNat_beBytes, Nat.mod_eq_of_lt fits]

/-- A byte string spells a number below the power of its length. -/
theorem beNat_lt (bytes : Bytes) : beNat bytes < 256 ^ bytes.length := by
  -- One more leading digit is below 256 times the range of the rest.
  induction bytes with
  | nil => simp [beNat]
  | cons byte rest ih =>
    have digit : byte.toNat ≤ 255 := by have := byte.toNat_lt; omega
    simp only [beNat, List.length_cons, Nat.pow_succ]
    calc byte.toNat * 256 ^ rest.length + beNat rest
        < byte.toNat * 256 ^ rest.length + 256 ^ rest.length := by omega
      _ = (byte.toNat + 1) * 256 ^ rest.length := by ring
      _ ≤ 256 * 256 ^ rest.length := Nat.mul_le_mul_right _ (by omega)
      _ = 256 ^ rest.length * 256 := by ring

/-- For byte strings of one length, the lexicographic order is the numeric order. -/
theorem lt_iff_beNat_lt {left right : Bytes} (same : left.length = right.length) :
    left < right ↔ beNat left < beNat right := by
  -- The leading bytes decide unless they agree, and then the tails do.
  induction left generalizing right with
  | nil =>
    have empty : right = [] := List.eq_nil_of_length_eq_zero (by simpa using same.symm)
    subst empty
    simp
  | cons byte rest ih =>
    cases right with
    | nil => simp at same
    | cons other tail =>
      have lengths : rest.length = tail.length := by simpa using same
      have below := beNat_lt rest
      have above := beNat_lt tail
      rw [lengths] at below
      rw [List.cons_lt_cons_iff, ih lengths, UInt8.lt_iff_toNat_lt]
      simp only [beNat, lengths]
      rcases Nat.lt_trichotomy byte.toNat other.toNat with smaller | equal | larger
      · have gap : (byte.toNat + 1) * 256 ^ tail.length ≤ other.toNat * 256 ^ tail.length :=
          Nat.mul_le_mul_right _ smaller
        rw [Nat.add_mul] at gap
        simp only [smaller, true_or, true_iff]
        omega
      · have equal : byte = other := UInt8.toNat_inj.mp equal
        subst equal
        simp
      · have gap : (other.toNat + 1) * 256 ^ tail.length ≤ byte.toNat * 256 ^ tail.length :=
          Nat.mul_le_mul_right _ larger
        have apart : byte ≠ other := fun equal => by rw [equal] at larger; omega
        rw [Nat.add_mul] at gap
        simp only [apart, false_and, or_false]
        omega

/-- Numbers within the width are ordered as their encodings. -/
theorem beBytes_lt_iff {width left right : Nat} (fitsLeft : left < 256 ^ width)
    (fitsRight : right < 256 ^ width) :
    beBytes width left < beBytes width right ↔ left < right := by
  rw [lt_iff_beNat_lt (by simp), beNat_beBytes_of_lt fitsLeft, beNat_beBytes_of_lt fitsRight]

/-- The `width` low base-256 digits of a number, least significant first. -/
def leBytes (width value : Nat) : Bytes := (beBytes width value).reverse

/-- The number a byte string spells in base 256, least significant byte first. -/
def leNat (bytes : Bytes) : Nat := beNat bytes.reverse

/-- A little-endian encoding has its width. -/
@[simp] theorem leBytes_length (width value : Nat) : (leBytes width value).length = width := by
  simp [leBytes]

/-- Reading back a little-endian encoding gives the number modulo its range. -/
theorem leNat_leBytes (width value : Nat) : leNat (leBytes width value) = value % 256 ^ width := by
  rw [leNat, leBytes, List.reverse_reverse, beNat_beBytes]
