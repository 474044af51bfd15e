import Polargraph.Query.Aggregation

/-! What the literals of RDF are mapped to. -/

namespace Polargraph

/-- The number that decimal digits spell. -/
private theorem foldl_digits (n : Nat) :
    (Nat.toDigits 10 n).foldl (fun size digit => size * 10 + (digit.toNat - 48)) 0 = n := by
  have spelled := @Nat.ofDigitChars_ten_toDigits n
  rw [Nat.ofDigitChars] at spelled
  calc
    _ = (Nat.toDigits 10 n).foldl (fun size digit => 10 * size + (digit.toNat - '0'.toNat)) 0 := by
      congr 1
      funext size digit
      rw [Nat.mul_comm]
      rfl
    _ = n := spelled

/-- Decimal digits are not empty, all digits, and start with no sign. -/
private theorem digits_shape (n : Nat) : (Nat.toDigits 10 n).isEmpty = false ∧
    (Nat.toDigits 10 n).all Char.isDigit ∧
    ∀ char rest, Nat.toDigits 10 n = char :: rest → char ≠ '-' ∧ char ≠ '+' := by
  have digit : ∀ char ∈ Nat.toDigits 10 n, char.isDigit := fun char member =>
    Nat.isDigit_of_mem_toDigits (b := 10) (by decide) (by decide) member
  refine ⟨by simp, List.all_eq_true.mpr digit, fun char rest spelled => ?_⟩
  have first := digit char (by rw [spelled]; exact List.mem_cons_self)
  constructor <;> rintro rfl <;> cases first

/-- Digits behind no sign are read as they are. -/
private theorem parseI64_digits {text : String} {number : Nat}
    (spelled : text.toList = Nat.toDigits 10 number) :
    parseI64 text = if -2 ^ 63 ≤ (number : Int) ∧ (number : Int) < 2 ^ 63 then
      some (UInt64.ofInt number) else none := by
  obtain ⟨full, digits, first⟩ := digits_shape number
  rw [parseI64, spelled]
  split
  rename_i same
  split at same
  · exact absurd rfl (first _ _ ‹_›).1
  · exact absurd rfl (first _ _ ‹_›).2
  · cases same
    simp only [full, digits, foldl_digits, Bool.not_true, Bool.or_self, Bool.false_eq_true, if_false]

/-- Digits behind a minus sign are read as a negative number. -/
private theorem parseI64_negative {text : String} {number : Nat}
    (spelled : text.toList = '-' :: Nat.toDigits 10 number) :
    parseI64 text = if -2 ^ 63 ≤ (-number : Int) ∧ (-number : Int) < 2 ^ 63 then
      some (UInt64.ofInt (-number)) else none := by
  obtain ⟨full, digits, _⟩ := digits_shape number
  rw [parseI64, spelled]
  simp only [full, digits, foldl_digits]
  rfl

/-- A signed number reads back from its decimal form. -/
theorem parseI64_toString (word : UInt64) : parseI64 (toString (Value.signed word)) = some word := by
  have low : -2 ^ 63 ≤ Value.signed word := word.toInt64.le_toInt
  have high : Value.signed word < 2 ^ 63 := word.toInt64.toInt_lt
  have own : UInt64.ofInt (Value.signed word) = word := by
    apply UInt64.toNat_inj.mp
    have spelled : Value.signed word = (word.toNat : Int).bmod (2 ^ 64) := word.toBitVec.toInt_eq_toNat_bmod
    have bound := word.toNat_lt
    have wrapped : (word.toNat : Int).bmod (2 ^ 64) % 2 ^ 64 = word.toNat % 2 ^ 64 := Int.bmod_emod
    rw [UInt64.ofInt, UInt64.toNat_ofNat', spelled, wrapped]
    omega
  rw [Int.toString_eq_repr, Int.repr_eq_if]
  split_ifs with sign
  · have same : ((Value.signed word).toNat : Int) = Value.signed word := Int.toNat_of_nonneg sign
    rw [parseI64_digits Nat.toList_repr, same, if_pos ⟨low, high⟩, own]
  · have same : (-((-Value.signed word).toNat : Int)) = Value.signed word := by omega
    have spelled : ("-" ++ (-Value.signed word).toNat.repr).toList =
        '-' :: Nat.toDigits 10 (-Value.signed word).toNat := by
      rw [String.toList_append, Nat.toList_repr]
      rfl
    rw [parseI64_negative spelled, same, if_pos ⟨low, high⟩, own]

variable {parseF64 : String → Option UInt64}

/-- A literal with a language tag is a tagged text. -/
theorem literalToValue_tagged {lang : String} (tagged : lang ≠ "") (lexical : String)
    (datatype : Option String) :
    literalToValue parseF64 lexical datatype (some lang) = .langText lexical lang := by
  simp [literalToValue, Option.filter, tagged]

/-- Strings, whole numbers, doubles and truth values are read as such. -/
theorem literalToValue_string (lexical : String) :
    literalToValue parseF64 lexical (some (XSD ++ "string")) none = .text lexical := by
  rfl

/-- A whole number is read when it fits a signed word. -/
theorem literalToValue_integer (lexical : String) :
    literalToValue parseF64 lexical (some (XSD ++ "integer")) none =
      ((parseI64 lexical).map Value.int).getD (.typed lexical (XSD ++ "integer")) := by
  rfl

/-- A double is read from its decimal form. -/
theorem literalToValue_double (lexical : String) :
    literalToValue parseF64 lexical (some (XSD ++ "double")) none =
      ((parseF64 lexical).map Value.float).getD (.typed lexical (XSD ++ "double")) := by
  rfl

/-- A truth value is read from its name. -/
theorem literalToValue_boolean (truth : Bool) :
    literalToValue parseF64 (toString truth) (some (XSD ++ "boolean")) none = .bool truth := by
  cases truth <;> rfl

/-- A native value, or a literal kept with its datatype. -/
def Value.IsReading (lexical datatype : String) (value : Value) : Prop :=
  value = .typed lexical datatype ∨ value = .text lexical ∨ (∃ word, value = .int word) ∨
    (∃ bits, value = .float bits) ∨ ∃ truth, value = .bool truth

/-- A literal without a language tag is a native value, or kept with its datatype. -/
theorem literalToValue_isReading (lexical datatype : String) :
    (literalToValue parseF64 lexical (some datatype) none).IsReading lexical datatype := by
  have kept : (Value.typed lexical datatype).IsReading lexical datatype := .inl rfl
  have whole : (((parseI64 lexical).map Value.int).getD (.typed lexical datatype)).IsReading
      lexical datatype := by
    cases parseI64 lexical with
    | none => exact kept
    | some word => exact .inr (.inr (.inl ⟨word, rfl⟩))
  have double : (((parseF64 lexical).map Value.float).getD (.typed lexical datatype)).IsReading
      lexical datatype := by
    cases parseF64 lexical with
    | none => exact kept
    | some bits => exact .inr (.inr (.inr (.inl ⟨bits, rfl⟩)))
  have truth : (if lexical = "true" ∨ lexical = "1" then Value.bool true
      else if lexical = "false" ∨ lexical = "0" then .bool false
      else .typed lexical datatype).IsReading lexical datatype := by
    split_ifs
    · exact .inr (.inr (.inr (.inr ⟨_, rfl⟩)))
    · exact .inr (.inr (.inr (.inr ⟨_, rfl⟩)))
    · exact kept
  unfold literalToValue
  simp only [Option.filter_none]
  split
  · split
    case h_1 => exact .inr (.inl rfl)
    all_goals first | exact whole | exact double | exact truth | exact kept
  · exact kept

end Polargraph
