import Polargraph.Proofs.Core.Term
import Polargraph.Proofs.Core.Utf8
import Polargraph.Rest.RdfImport
import Polargraph.Rest.Serialize

/-! Which values survive as literals, and which as values of results. -/

namespace Polargraph

/-- What follows a start in a text is what the text continues with. -/
theorem strippedPrefix_eq_some {start text rest : String} :
    strippedPrefix start text = some rest ↔ text = start ++ rest := by
  rw [strippedPrefix]
  split_ifs with begins
  · obtain ⟨chars, same⟩ := List.isPrefixOf_iff_prefix.mp begins
    have dropped : text.toList.drop start.length = chars := by
      rw [← same, ← String.length_toList, List.drop_left]
    rw [dropped, Option.some.injEq]
    constructor
    · rintro rfl
      apply String.toList_injective
      rw [String.toList_append, String.toList_ofList, same]
    · rintro rfl
      rw [String.toList_append] at same
      rw [List.append_cancel_left same, String.ofList_toList]
  · refine iff_of_false nofun ?_
    rintro rfl
    exact begins (List.isPrefixOf_iff_prefix.mpr (by rw [String.toList_append]; exact List.prefix_append _ _))

/-- A start is taken off the text it begins. -/
theorem strippedPrefix_append (start rest : String) :
    strippedPrefix start (start ++ rest) = some rest := strippedPrefix_eq_some.mpr rfl

/-- A text does not begin with another start of at most the length of its own. -/
theorem strippedPrefix_other {start own : String} (rest : String)
    (apart : start.toList.isPrefixOf own.toList = false) (short : start.length ≤ own.length) :
    strippedPrefix start (own ++ rest) = none := by
  cases other : strippedPrefix start (own ++ rest) with
  | none => rfl
  | some after =>
    have same := congrArg String.toList (strippedPrefix_eq_some.mp other)
    rw [String.toList_append, String.toList_append] at same
    have begins : start.toList <+: own.toList := List.prefix_of_prefix_length_le
      (by rw [same]; exact List.prefix_append _ _) (List.prefix_append _ _)
      (by rw [String.length_toList, String.length_toList]; exact short)
    rw [List.isPrefixOf_iff_prefix.mpr begins] at apart
    cases apart

/-- The character behind a backslash. -/
def unescapeChar : Char → Option Char
  | 't' => some '\t'
  | 'b' => some '\x08'
  | 'n' => some '\n'
  | 'r' => some '\r'
  | 'f' => some '\x0c'
  | '"' => some '"'
  | '\'' => some '\''
  | '\\' => some '\\'
  | _ => none

/-- The text up to the closing quote of a literal, and what follows the quote. -/
def unquote : List Char → Option (List Char × List Char)
  | [] => none
  | '"' :: rest => some ([], rest)
  | '\\' :: escaped :: rest => do
    let char ← unescapeChar escaped
    let (text, after) ← unquote rest
    return (char :: text, after)
  | char :: rest => do
    if char = '\\' ∨ char = '\n' ∨ char = '\r' then none
    let (text, after) ← unquote rest
    return (char :: text, after)

/-- A text is written as some characters between quotes. -/
def Quoted (text quoted : String) : Prop :=
  ∀ after, unquote (quoted.toList ++ '"' :: after) = some (text.toList, after)

/-- A character that stands for itself is read as it is. -/
theorem unquote_plain {char : Char} {rest text after : List Char}
    (quote : char ≠ '"') (backslash : char ≠ '\\') (newline : char ≠ '\n') (carriage : char ≠ '\r')
    (later : unquote rest = some (text, after)) :
    unquote (char :: rest) = some (char :: text, after) := by
  rw [unquote.eq_4 _ _ (by rintro rfl; exact absurd rfl quote)
    (by rintro _ _ rfl; exact absurd rfl backslash)]
  simp [backslash, newline, carriage, later]

/-- Characters that stand for themselves are written as they are. -/
theorem quoted_of_plain {text : String}
    (plain : ∀ char ∈ text.toList, char ≠ '"' ∧ char ≠ '\\' ∧ char ≠ '\n' ∧ char ≠ '\r') :
    Quoted text text := by
  intro after
  generalize text.toList = chars at plain ⊢
  induction chars with
  | nil => rfl
  | cons char rest ih =>
    obtain ⟨quote, backslash, newline, carriage⟩ := plain char List.mem_cons_self
    exact unquote_plain quote backslash newline carriage
      (ih fun other member => plain other (List.mem_cons_of_mem _ member))

/-- A character as it is written between quotes. -/
def escapedChar (char : Char) : List Char :=
  if char = '\\' then ['\\', '\\']
  else if char = '"' then ['\\', '"']
  else if char = '\n' then ['\\', 'n']
  else if char = '\r' then ['\\', 'r']
  else if char = '\t' then ['\\', 't']
  else [char]

/-- The replacements of the writer, one after another, write each character on its own. -/
theorem toList_ntEscape (text : String) : (ntEscape text).toList = text.toList.flatMap escapedChar := by
  simp only [ntEscape, replaceChar, String.toList_ofList, List.flatMap_assoc]
  congr 1
  funext char
  -- No replacement writes a character that a later one replaces.
  rw [escapedChar]
  split_ifs with backslash quote newline carriage tab
  · subst backslash
    rfl
  · subst quote
    rfl
  · subst newline
    rfl
  · subst carriage
    rfl
  · subst tab
    rfl
  · simp only [List.flatMap_cons, List.flatMap_nil, List.append_nil, if_neg quote,
      if_neg newline, if_neg carriage, if_neg tab]

/-- An escaped text is read back between quotes. -/
theorem quoted_ntEscape (text : String) : Quoted text (ntEscape text) := by
  intro after
  rw [toList_ntEscape]
  generalize text.toList = chars
  induction chars with
  | nil => rfl
  | cons char rest ih =>
    rw [List.flatMap_cons, List.append_assoc, escapedChar]
    split_ifs with backslash quote newline carriage tab
    · subst backslash
      simp [unquote, unescapeChar, ih]
    · subst quote
      simp [unquote, unescapeChar, ih]
    · subst newline
      simp [unquote, unescapeChar, ih]
    · subst carriage
      simp [unquote, unescapeChar, ih]
    · subst tab
      simp [unquote, unescapeChar, ih]
    · exact unquote_plain quote backslash newline carriage ih

/-- The decimal form of a number is made of digits and a sign. -/
theorem mem_toString_int {number : Int} {char : Char} (member : char ∈ (toString number).toList) :
    char = '-' ∨ char.isDigit := by
  rw [Int.toString_eq_repr, Int.repr_eq_if] at member
  split_ifs at member
  · rw [Nat.toList_repr] at member
    exact .inr (Nat.isDigit_of_mem_toDigits (b := 10) (by decide) (by decide) member)
  · rw [String.toList_append, Nat.toList_repr, List.mem_append] at member
    rcases member with minus | digits
    · exact .inl (List.mem_singleton.mp minus)
    · exact .inr (Nat.isDigit_of_mem_toDigits (b := 10) (by decide) (by decide) digits)

/-- The decimal form of a number is written as it is. -/
theorem quoted_toString (number : Int) : Quoted (toString number) (toString number) := by
  apply quoted_of_plain
  intro char member
  rcases mem_toString_int member with rfl | digit
  · decide
  · refine ⟨?_, ?_, ?_, ?_⟩ <;> rintro rfl <;> cases digit

/-- Hexadecimal digits are written as they are. -/
theorem quoted_hexBytes (bytes : Bytes) :
    Quoted (String.join (bytes.map Uuid.hexByte)) (String.join (bytes.map Uuid.hexByte)) := by
  have digits : ∀ half < 16, Nat.digitChar half ≠ '"' ∧ Nat.digitChar half ≠ '\\' ∧
      Nat.digitChar half ≠ '\n' ∧ Nat.digitChar half ≠ '\r' := by decide
  apply quoted_of_plain
  intro char member
  induction bytes with
  | nil => cases member
  | cons byte rest ih =>
    rw [List.map_cons, String.join_cons, String.toList_append, List.mem_append] at member
    rcases member with own | later
    · have bound := byte.toNat_lt
      simp only [Uuid.hexByte, String.toList_ofList, List.mem_cons, List.not_mem_nil, or_false] at own
      rcases own with rfl | rfl
      · exact digits _ (by omega)
      · exact digits _ (by omega)
    · exact ih later

/-- A parser of N-Triples reads the text, the datatype and the tag of a literal unchanged. -/
structure ReadsLiterals (read : String → Option RioLiteral) : Prop where
  /-- A literal with a datatype. -/
  typed : ∀ text quoted datatype, Quoted text quoted →
    read (typedNtLiteral quoted datatype) = some (.typed text datatype)
  /-- A language-tagged string. -/
  tagged : ∀ text quoted lang, Quoted text quoted → lang ≠ "" →
    read ("\"" ++ quoted ++ "\"@" ++ lang) = some (.languageTaggedString text lang)

/-- A double is read back from its decimal form, made of digits, a point and a sign. -/
def TextLibrary.ReadsDouble (lib : TextLibrary) (bits : UInt64) : Prop :=
  lib.parseF64 (lib.displayF64 bits) = some bits ∧
    ∀ char ∈ (lib.displayF64 bits).toList, char.isDigit ∨ char = '.' ∨ char = '-'

/-- The decimal form of a double is written as it is. -/
theorem TextLibrary.ReadsDouble.quoted {lib : TextLibrary} {bits : UInt64}
    (double : lib.ReadsDouble bits) : Quoted (lib.displayF64 bits) (lib.displayF64 bits) := by
  apply quoted_of_plain
  intro char member
  rcases double.2 char member with digit | rfl | rfl
  · refine ⟨?_, ?_, ?_, ?_⟩ <;> rintro rfl <;> cases digit
  · decide
  · decide

/-- The value that is imported for the literal a value is exported as. -/
def reimported (lib : TextLibrary) (displayF32 : UInt32 → String)
    (read : String → Option RioLiteral) (value : Value) : Option Value :=
  (read (valueToNtLiteral lib.displayF64 displayF32 value)).map fun literal =>
    (rioLiteralToImported lib.parseF64 literal).1

/-- The values an import or a query can make. -/
def Value.FromRdf (lib : TextLibrary) : Value → Prop
  | .bool _ | .int _ | .text _ | .blob _ | .langText _ _ => True
  | .float bits => Value.isFinite bits
  | .typed lexical datatype =>
    literalToValue lib.parseF64 lexical (some datatype) none = .typed lexical datatype
  | .null | .vector _ => False

/-- The values that survive export and import: all but raw bytes, and texts under an empty tag. -/
def Value.SurvivesExport : Value → Prop
  | .blob _ => False
  | .langText _ lang => lang ≠ ""
  | _ => True

/-- The values that results keep: all but hexadecimal digits under their datatype. -/
def Value.KeptInResults : Value → Prop
  | .typed lexical datatype =>
    datatype = XSD_HEX_BINARY → SparqlValue.decodeHex (utf8 lexical) = none
  | _ => True

variable {lib : TextLibrary} {displayF32 : UInt32 → String} {read : String → Option RioLiteral}

/-- No import makes a text under an empty language tag. -/
private theorem rioLiteralToImported_ne {parseF64 : String → Option UInt64} {literal : RioLiteral}
    {text : String} : (rioLiteralToImported parseF64 literal).1 ≠ .langText text "" := by
  intro same
  cases literal with
  | simple value => cases same
  | languageTaggedString value language =>
    by_cases tagged : language = ""
    · subst tagged
      cases same
    · rw [rioLiteralToImported, literalToValue_tagged tagged] at same
      cases same
      exact tagged rfl
  | typed value datatype =>
    rcases @literalToValue_isReading parseF64 value datatype with kept | plain | ⟨_, whole⟩ | ⟨_, double⟩ | ⟨_, truth⟩
    · cases kept.symm.trans same
    · cases plain.symm.trans same
    · cases whole.symm.trans same
    · cases double.symm.trans same
    · cases truth.symm.trans same

/-- What a literal with a datatype is imported as. -/
private theorem reimported_typed (reads : ReadsLiterals read) {value : Value}
    {text quoted datatype : String} (spelled : Quoted text quoted)
    (writes : valueToNtLiteral lib.displayF64 displayF32 value = typedNtLiteral quoted datatype) :
    reimported lib displayF32 read value =
      some (literalToValue lib.parseF64 text (some datatype) none) := by
  rw [reimported, writes, reads.typed text quoted datatype spelled]
  rfl

/-- A value that can be imported survives export and import exactly if it is no raw bytes. -/
theorem reimported_iff (reads : ReadsLiterals read) {value : Value} (rdf : value.FromRdf lib)
    (doubles : ∀ bits, value = .float bits → lib.ReadsDouble bits) :
    reimported lib displayF32 read value = some value ↔ value.SurvivesExport := by
  cases value with
  | null | vector => cases rdf
  | bool truth =>
    have plain : Quoted (toString truth) (toString truth) := by
      apply quoted_of_plain
      cases truth <;> simp [toString]
    rw [reimported_typed reads plain rfl, literalToValue_boolean]
    exact iff_of_true rfl trivial
  | int word =>
    rw [reimported_typed reads (quoted_toString _) rfl, literalToValue_integer, parseI64_toString]
    exact iff_of_true rfl trivial
  | float bits =>
    have double := doubles bits rfl
    rw [reimported_typed reads double.quoted rfl, literalToValue_double, double.1]
    exact iff_of_true rfl trivial
  | text text =>
    rw [reimported_typed reads (quoted_ntEscape text) rfl, literalToValue_string]
    exact iff_of_true rfl trivial
  | blob bytes =>
    rw [reimported_typed reads (quoted_hexBytes bytes) rfl]
    -- The datatype of raw bytes is no native one, so the literal is kept as it is.
    refine iff_of_false (fun same => ?_) id
    cases same
  | langText text lang =>
    constructor
    · intro same untagged
      obtain ⟨literal, _, made⟩ := Option.map_eq_some_iff.mp same
      exact rioLiteralToImported_ne (by rw [made, untagged])
    · intro tagged
      rw [reimported, valueToNtLiteral, reads.tagged text _ lang (quoted_ntEscape text) tagged]
      exact congrArg some (literalToValue_tagged tagged text none)
  | typed lexical datatype =>
    rw [reimported_typed reads (quoted_ntEscape lexical) rfl, rdf]
    exact iff_of_true rfl trivial

/-- A hexadecimal digit of either case is one byte, which is no sign and has the digit's value. -/
theorem hexDigit_digitChar {half : Nat} (small : half < 16) {digit : Char}
    (spelled : digit = Nat.digitChar half ∨ digit = (Nat.digitChar half).toUpper) :
    ∃ letter, String.utf8EncodeChar digit = [letter] ∧ letter ≠ 43 ∧
      SparqlValue.hexDigit letter = some (UInt8.ofNat half) := by
  -- Sixteen values, each written in one of two ways.
  rcases spelled with rfl | rfl
  all_goals
    rcases half with _ | _ | _ | _ | _ | _ | _ | _ | _ | _ | _ | _ | _ | _ | _ | _ | half
    all_goals first | exact ⟨_, rfl, by decide, rfl⟩ | omega

/-- Two digits that stand for the halves of a byte spell the byte. -/
theorem byteFromStrRadix_halves {byte first second : UInt8} (sign : first ≠ 43)
    (high : SparqlValue.hexDigit first = some (UInt8.ofNat (byte.toNat / 16)))
    (low : SparqlValue.hexDigit second = some (UInt8.ofNat (byte.toNat % 16))) :
    SparqlValue.byteFromStrRadix first second = some byte := by
  have bound := byte.toNat_lt
  have whole : (16 : UInt8) * UInt8.ofNat (byte.toNat / 16) + UInt8.ofNat (byte.toNat % 16) = byte := by
    apply UInt8.toNat_inj.mp
    rw [UInt8.toNat_add, UInt8.toNat_mul, UInt8.toNat_ofNat', UInt8.toNat_ofNat']
    simp
    omega
  rw [SparqlValue.byteFromStrRadix, if_neg sign, high, low]
  exact congrArg some whole

/-- The digits of a byte in results are those of its halves. -/
theorem toList_upperHexByte (byte : UInt8) : (upperHexByte byte).toList =
    [(Nat.digitChar (byte.toNat / 16)).toUpper, (Nat.digitChar (byte.toNat % 16)).toUpper] := by
  rw [upperHexByte, Uuid.hexByte, String.toUpper, String.toList_map]
  simp

/-- The digits of a byte in results spell the byte. -/
private theorem byteFromStrRadix_upper (byte : UInt8) : ∃ first second,
    utf8 (upperHexByte byte) = [first, second] ∧ SparqlValue.byteFromStrRadix first second = some byte := by
  have bound := byte.toNat_lt
  obtain ⟨first, written, sign, high⟩ :=
    @hexDigit_digitChar (byte.toNat / 16) (by omega) _ (.inr rfl)
  obtain ⟨second, written', _, low⟩ :=
    @hexDigit_digitChar (byte.toNat % 16) (by omega) _ (.inr rfl)
  refine ⟨first, second, ?_, byteFromStrRadix_halves sign high low⟩
  rw [← String.ofList_toList (s := upperHexByte byte), toList_upperHexByte, utf8_ofList,
    List.flatMap_cons, List.flatMap_cons, written, written']
  rfl

/-- The digits of raw bytes in results spell the bytes. -/
theorem decodeHex_upper (bytes : Bytes) :
    SparqlValue.decodeHex (utf8 (String.join (bytes.map upperHexByte))) = some bytes := by
  induction bytes with
  | nil => rw [List.map_nil, String.join_nil, ← String.ofList_nil, utf8_ofList]; rfl
  | cons byte rest ih =>
    obtain ⟨first, second, digits, spelled⟩ := byteFromStrRadix_upper byte
    rw [List.map_cons, String.join_cons, utf8_append, digits]
    simp [SparqlValue.decodeHex, spelled, ih]

/-- A value that can be imported is kept in results exactly if it is no hexadecimal literal. -/
theorem toValue_fromValue_iff {value : Value} (rdf : value.FromRdf lib) :
    (SparqlValue.fromValue value).bind SparqlValue.toValue = some value ↔ value.KeptInResults := by
  cases value with
  | null | vector => cases rdf
  | blob bytes =>
    refine iff_of_true ?_ trivial
    simp only [SparqlValue.fromValue, SparqlValue.toValue, Option.bind_some, if_true, decodeHex_upper]
  | typed lexical datatype =>
    simp only [SparqlValue.fromValue, SparqlValue.toValue, Option.bind_some, Value.KeptInResults]
    split_ifs with hex
    · cases SparqlValue.decodeHex (utf8 lexical) with
      | none => exact iff_of_true rfl fun _ => rfl
      | some bytes => exact iff_of_false (fun same => by cases same) fun kept => by cases kept hex
    · exact iff_of_true rfl fun same => absurd same hex
  | _ => exact iff_of_true rfl trivial

/--
Which of the values that can be imported survive.

Export and import keep all but raw bytes and texts under an empty tag; results keep all but
hexadecimal digits under their datatype.
-/
theorem literals_survive (reads : ReadsLiterals read) {value : Value} (rdf : value.FromRdf lib)
    (doubles : ∀ bits, value = .float bits → lib.ReadsDouble bits) :
    (reimported lib displayF32 read value = some value ↔ value.SurvivesExport) ∧
      ((SparqlValue.fromValue value).bind SparqlValue.toValue = some value ↔ value.KeptInResults) :=
  ⟨reimported_iff reads rdf doubles, toValue_fromValue_iff rdf⟩

/-- A reader of literals that takes any datatype and any tag. -/
def readNtLiteral (literal : String) : Option RioLiteral :=
  match literal.toList with
  | '"' :: quoted => do
    let (text, after) ← unquote quoted
    match after with
    | [] => some (.simple (String.ofList text))
    | '@' :: lang =>
      if lang = [] then none
      else some (.languageTaggedString (String.ofList text) (String.ofList lang))
    | '^' :: '^' :: '<' :: datatype =>
      if datatype.getLast? = some '>' then
        some (.typed (String.ofList text) (String.ofList datatype.dropLast))
      else none
    | _ => none
  | _ => none

/-- The reader returns the text, the datatype and the tag unchanged. -/
theorem readsLiterals_readNtLiteral : ReadsLiterals readNtLiteral where
  typed text quoted datatype spelled := by
    have chars : (typedNtLiteral quoted datatype).toList =
        '"' :: (quoted.toList ++ '"' :: '^' :: '^' :: '<' :: (datatype.toList ++ ['>'])) := by
      simp [typedNtLiteral]
    have read : unquote (quoted.toList ++ '"' :: '^' :: '^' :: '<' :: (datatype.toList ++ ['>'])) =
        some (text.toList, '^' :: '^' :: '<' :: (datatype.toList ++ ['>'])) := spelled _
    rw [readNtLiteral, chars]
    simp [read]
  tagged text quoted lang spelled tagged := by
    have chars : ("\"" ++ quoted ++ "\"@" ++ lang).toList =
        '"' :: (quoted.toList ++ '"' :: '@' :: lang.toList) := by
      simp
    have read : unquote (quoted.toList ++ '"' :: '@' :: lang.toList) =
        some (text.toList, '@' :: lang.toList) := spelled _
    rw [readNtLiteral, chars]
    simp [read, tagged]

/-- A library that reads and writes one and a half. -/
def oneAndAHalf : TextLibrary where
  parseF64 text := if text = "1.5" then some 0x3ff8000000000000 else none
  displayF64 _ := "1.5"
  regexMatch _ _ _ := none

/-- One and a half survives export and import, and is kept in results. -/
theorem literals_survive_double :
    reimported oneAndAHalf (fun _ => "") readNtLiteral (.float 0x3ff8000000000000) =
        some (.float 0x3ff8000000000000) ∧
      (SparqlValue.fromValue (.float 0x3ff8000000000000)).bind SparqlValue.toValue =
        some (.float 0x3ff8000000000000) := by
  have double : oneAndAHalf.ReadsDouble 0x3ff8000000000000 :=
    ⟨rfl, by simp [oneAndAHalf]⟩
  have finite : Value.isFinite 0x3ff8000000000000 = true := by decide
  obtain ⟨exported, kept⟩ := @literals_survive oneAndAHalf (fun _ => "") readNtLiteral
    readsLiterals_readNtLiteral (.float 0x3ff8000000000000) finite
    (fun bits same => by cases same; exact double)
  exact ⟨exported.mpr trivial, kept.mpr trivial⟩

/-- Raw bytes come back as a literal, and a literal of hexadecimal digits as raw bytes. -/
theorem hex_confused :
    (Value.blob [0xab]).FromRdf oneAndAHalf ∧
      reimported oneAndAHalf (fun _ => "") readNtLiteral (.blob [0xab]) =
        some (.typed "ab" XSD_HEX_BINARY) ∧
      (Value.typed "AB" XSD_HEX_BINARY).FromRdf oneAndAHalf ∧
      (SparqlValue.fromValue (.typed "AB" XSD_HEX_BINARY)).bind SparqlValue.toValue =
        some (.blob [0xab]) := by
  refine ⟨trivial, ?_, rfl, ?_⟩
  · rw [reimported_typed readsLiterals_readNtLiteral (quoted_hexBytes [0xab]) rfl]
    rfl
  · have spelled : SparqlValue.decodeHex (utf8 "AB") = some [0xab] := by decide +kernel
    simp [SparqlValue.fromValue, SparqlValue.toValue, spelled]

end Polargraph
