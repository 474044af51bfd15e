import Polargraph.Query.Cypher

/-! When property values are equal, compare as equal, and have the same object slot. -/

namespace Polargraph

namespace Value

/-- Two doubles together have no magnitude when neither has one. -/
theorem magnitude_or_iff {left right : UInt64} :
    (left ||| right) &&& 0x7fffffffffffffff = 0 ↔
      left &&& 0x7fffffffffffffff = 0 ∧ right &&& 0x7fffffffffffffff = 0 := by
  have apart : (left ||| right) &&& 0x7fffffffffffffff =
      (left &&& 0x7fffffffffffffff) ||| (right &&& 0x7fffffffffffffff) := by
    apply UInt64.toBitVec_inj.mp
    ext bit inside
    simp [Bool.and_or_distrib_right]
  rw [apart, UInt64.or_eq_zero_iff]

/-- Doubles that are equal as numbers compare as equal. -/
theorem compareFloats_of_same {left right : UInt64} (same : sameFloat left right = true) :
    compareFloats left right = some .eq := by
  simp only [sameFloat, Bool.and_eq_true, Bool.not_eq_true', decide_eq_true_eq] at same
  obtain ⟨⟨leftNumber, rightNumber⟩, equal⟩ := same
  rw [compareFloats, leftNumber, rightNumber]
  have ranks : floatRank left = floatRank right := by
    rcases equal with rfl | zeros
    · rfl
    · -- Both are a zero, of either sign.
      obtain ⟨zero, zero'⟩ := magnitude_or_iff.mp zeros
      simp [floatRank, zero, zero']
  rw [ranks]
  simp

/-- Equal values compare as equal. -/
theorem compareBy_of_same {held expected : Value} (same : held.same expected = true) :
    held.compareBy .eq expected = true := by
  cases held with
  | float own =>
    cases expected with
    | float other => simp [compareBy, compareFloats_of_same same]
    | _ => simp [Value.same] at same
  | vector own => cases expected <;> simp_all [compareBy, Value.same]
  | _ =>
    -- The other kinds are equal only to themselves.
    simp only [Value.same, decide_eq_true_eq] at same
    subst same
    simp [compareBy, compareTexts, Value.same]

/-- The bits of a double with both zeros folded together. -/
def foldedFloat (bits : UInt64) : UInt64 := if bits &&& 0x7fffffffffffffff = 0 then 0 else bits

/-- A value with both zeros folded together. -/
def folded : Value → Value
  | float bits => float (foldedFloat bits)
  | other => other

/-- Whether a value is equal to itself. -/
def equalsItself : Value → Bool
  | float bits => !isNan bits
  | _ => true

/-- Folding keeps what is a number. -/
theorem isNan_foldedFloat (bits : UInt64) : isNan (foldedFloat bits) = isNan bits := by
  rw [foldedFloat]
  split_ifs with zero
  · have number : isNan bits = false := by simp [isNan, zero]
    rw [number]
    decide
  · rfl

/-- Folding keeps what is equal to itself. -/
theorem equalsItself_folded (value : Value) : value.folded.equalsItself = value.equalsItself := by
  cases value with
  | float bits => simp only [folded, equalsItself, isNan_foldedFloat]
  | _ => rfl

/-- Doubles are equal as numbers when they fold to the same one, which is a number. -/
theorem sameFloat_iff {left right : UInt64} : sameFloat left right = true ↔
    foldedFloat left = foldedFloat right ∧ isNan right = false := by
  simp only [sameFloat, Bool.and_eq_true, Bool.not_eq_true', decide_eq_true_eq]
  constructor
  · rintro ⟨⟨_, rightNumber⟩, equal⟩
    refine ⟨?_, rightNumber⟩
    rcases equal with rfl | zeros
    · rfl
    · obtain ⟨first, second⟩ := magnitude_or_iff.mp zeros
      simp [foldedFloat, first, second]
  · intro ⟨equal, rightNumber⟩
    -- What folds to a number is one.
    have leftNumber : isNan left = false := by
      rw [← isNan_foldedFloat, equal, isNan_foldedFloat]
      exact rightNumber
    refine ⟨⟨leftNumber, rightNumber⟩, ?_⟩
    unfold foldedFloat at equal
    split_ifs at equal with first second second
    · exact Or.inr (magnitude_or_iff.mpr ⟨first, second⟩)
    · exact absurd (by rw [← equal]; rfl) second
    · exact absurd (by rw [equal]; rfl) first
    · exact Or.inl equal

/-- Doubles that are equal as numbers have the same canonical bits. -/
theorem canonicalFloat_of_same {left right : UInt64} (same : sameFloat left right = true) :
    canonicalFloat left = canonicalFloat right := by
  obtain ⟨equal, number⟩ := sameFloat_iff.mp same
  have canonical (bits : UInt64) (number : isNan bits = false) :
      canonicalFloat bits = foldedFloat bits := by
    rw [canonicalFloat, number]
    rfl
  have leftNumber : isNan left = false := by
    rw [← isNan_foldedFloat, equal, isNan_foldedFloat]
    exact number
  rw [canonical left leftNumber, canonical right number, equal]

/-- Values that can be bound are equal when they fold to the same one, which is equal to itself. -/
theorem same_iff {held value : Value} (plain : bindable value = true) :
    held.same value = true ↔ held.folded = value.folded ∧ value.equalsItself = true := by
  cases value with
  | vector => cases plain
  | float bits =>
    cases held with
    | float own => simp [same, folded, equalsItself, sameFloat_iff]
    | _ => simp [same, folded]
  | _ => cases held <;> simp [same, folded, equalsItself]

/-- Equal values have the same object slot. -/
theorem valueObject_of_same (ext : External) {held value : Value} (plain : bindable value = true)
    (equal : held.same value = true) : valueObject ext held = valueObject ext value := by
  have bytes : held.canonicalBytes = value.canonicalBytes := by
    cases value with
    | vector => cases plain
    | float bits =>
      cases held with
      | float own =>
        have canonical : canonicalFloat own = canonicalFloat bits := canonicalFloat_of_same equal
        simp [canonicalBytes, canonical]
      | _ => simp [same] at equal
    | _ =>
      -- The other kinds are equal only to themselves.
      obtain ⟨folds, _⟩ := (same_iff plain).mp equal
      cases held <;> cases folds
      rfl
  rw [valueObject, valueObject, contentHash, contentHash, bytes]

end Value

end Polargraph
