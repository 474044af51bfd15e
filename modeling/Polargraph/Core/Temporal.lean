import Polargraph.Lib.Bytes

/-! Bitemporal timestamps. -/

namespace Polargraph

/-- Microseconds since the Unix epoch, held in a signed 64-bit word. -/
@[ext] structure Timestamp where
  /-- The signed count of microseconds. -/
  micros : Int
  /-- The count is not below the least signed 64-bit number. -/
  low : -2 ^ 63 ≤ micros
  /-- The count is not above the greatest signed 64-bit number. -/
  high : micros < 2 ^ 63
deriving DecidableEq

namespace Timestamp

/-- Timestamps are ordered as their counts. -/
instance : LinearOrder Timestamp :=
  LinearOrder.lift' micros fun _ _ same => Timestamp.ext same

/-- Earlier means a smaller count. -/
theorem lt_iff {left right : Timestamp} : left < right ↔ left.micros < right.micros := Iff.rfl

/-- No later means no larger a count. -/
theorem le_iff {left right : Timestamp} : left ≤ right ↔ left.micros ≤ right.micros := Iff.rfl

/-- A count modulo two to the sixty-fourth fits a word. -/
theorem bmod_bounds (count : Int) :
    -2 ^ 63 ≤ Int.bmod count (2 ^ 64) ∧ Int.bmod count (2 ^ 64) < 2 ^ 63 := by
  have low := Int.le_bmod (x := count) (m := 2 ^ 64) (by decide)
  have high := Int.bmod_lt (x := count) (m := 2 ^ 64) (by decide)
  norm_num at low high ⊢
  omega

/-- The timestamp whose word agrees with a count modulo two to the sixty-fourth. -/
def wrap (count : Int) : Timestamp where
  micros := Int.bmod count (2 ^ 64)
  low := (bmod_bounds count).1
  high := (bmod_bounds count).2

/-- The timestamp nearest to a count, as saturating arithmetic computes it. -/
def clamp (count : Int) : Timestamp where
  micros := max (-2 ^ 63) (min count (2 ^ 63 - 1))
  low := le_max_left _ _
  high := by omega

/-- The least timestamp. -/
def MIN : Timestamp := ⟨-2 ^ 63, by decide, by decide⟩

/-- Sentinel of a fact without an end, which is still current. -/
def END_OF_TIME : Timestamp := ⟨2 ^ 63 - 1, by decide, by decide⟩

/-- The Unix epoch. -/
def zero : Timestamp := ⟨0, by decide, by decide⟩

/-- No timestamp is below the least one. -/
theorem MIN_le (time : Timestamp) : MIN ≤ time := time.low

/-- No timestamp is above the end of time. -/
theorem le_END_OF_TIME (time : Timestamp) : time ≤ END_OF_TIME := by
  have high := time.high
  rw [le_iff]
  simp only [END_OF_TIME]
  omega

/-- A count within the signed range is kept by wrapping. -/
theorem wrap_micros (time : Timestamp) : wrap time.micros = time := by
  have low := time.low
  have high := time.high
  refine Timestamp.ext ?_
  simp only [wrap]
  exact Int.bmod_eq_of_le (by omega) (by omega)

/-- Adding one to a timestamp before the end of time gives a later one. -/
theorem lt_wrap_succ {time : Timestamp} (room : time ≠ END_OF_TIME) :
    time < wrap (time.micros + 1) := by
  -- Short of the end of time the addition does not wrap.
  have low := time.low
  have high := time.high
  have below : time.micros ≠ 2 ^ 63 - 1 := fun same => room (Timestamp.ext same)
  rw [lt_iff]
  simp only [wrap]
  rw [Int.bmod_eq_of_le (by omega) (by omega)]
  omega

/-- The unsigned number whose eight big-endian bytes stand for a timestamp. -/
def word (time : Timestamp) : Nat := (time.micros % 2 ^ 64).toNat

/-- Fixed-width 8-byte big-endian representation for index keys. -/
def toBeBytes (time : Timestamp) : Bytes := beBytes 8 time.word

/-- The timestamp spelled by eight big-endian bytes. -/
def fromBeBytes (bytes : Bytes) : Timestamp := wrap (beNat bytes)

/-- A timestamp takes eight bytes. -/
@[simp] theorem toBeBytes_length (time : Timestamp) : time.toBeBytes.length = 8 := by
  simp [toBeBytes]

/-- A timestamp reads back from its own bytes. -/
@[simp] theorem fromBeBytes_toBeBytes (time : Timestamp) : fromBeBytes time.toBeBytes = time := by
  -- The bytes spell the count modulo the word, which wrapping undoes.
  have low := time.low
  have high := time.high
  have spelled : beNat time.toBeBytes = time.word := by
    refine beNat_beBytes_of_lt ?_
    simp only [word]
    omega
  refine Timestamp.ext ?_
  simp only [fromBeBytes, spelled, wrap, word]
  rw [Int.toNat_of_nonneg (by omega)]
  have folded : Int.bmod (time.micros % 2 ^ 64) (2 ^ 64) = Int.bmod time.micros (2 ^ 64) :=
    Int.emod_bmod time.micros (2 ^ 64)
  rw [folded]
  exact Int.bmod_eq_of_le (by omega) (by omega)

/-- Timestamps with the same bytes are equal. -/
theorem toBeBytes_inj {left right : Timestamp} (same : left.toBeBytes = right.toBeBytes) :
    left = right := by
  rw [← fromBeBytes_toBeBytes left, same, fromBeBytes_toBeBytes]

end Timestamp

/-- Bitemporal envelope attached to every asserted fact. -/
structure BiTemporalRange where
  /-- Start of the period during which the fact was true in the world. -/
  vtStart : Timestamp
  /-- End of the valid period. -/
  vtEnd : Timestamp
  /-- Transaction time at which this version was recorded. -/
  tt : Timestamp
deriving DecidableEq

end Polargraph
