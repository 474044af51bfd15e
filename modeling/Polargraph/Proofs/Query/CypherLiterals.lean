import Polargraph.Proofs.Core.Utf8
import Polargraph.Proofs.Query.CypherLexer
import Polargraph.Query.CypherParser
import Polargraph.Storage.ValueJson

/-! What the literals of a Cypher text denote. -/

namespace Polargraph

namespace Cypher

/-! Characters and bytes -/

/-- A character is of the ASCII set. -/
def Ascii (c : Char) : Prop := c.toNat < 128

instance (c : Char) : Decidable (Ascii c) := inferInstanceAs (Decidable (_ < _))

/-- The byte of an ASCII character holds its number. -/
theorem toNat_byte {c : Char} (ascii : Ascii c) : (byte c).toNat = c.toNat := by
  have small : c.toNat < 2 ^ 8 := Nat.lt_trans ascii (by omega)
  exact UInt8.toNat_ofNat_of_lt' small

/-- ASCII characters with the same byte are the same. -/
theorem byte_inj {c d : Char} (ascii : Ascii c) (other : Ascii d) : byte c = byte d ↔ c = d := by
  constructor
  · intro same
    have numbers := congrArg UInt8.toNat same
    rw [toNat_byte ascii, toNat_byte other] at numbers
    exact Char.toNat_inj.mp numbers
  · exact congrArg byte

/-- The byte of an ASCII character stands for it. -/
theorem asChar_byte {c : Char} (ascii : Ascii c) : asChar (byte c) = c := by
  rw [asChar, toNat_byte ascii, Char.ofNat_toNat]

/-- An ASCII character is encoded as its byte. -/
theorem utf8EncodeChar_of_ascii {c : Char} (ascii : Ascii c) :
    String.utf8EncodeChar c = [byte c] := by
  have single : c.utf8Size = 1 := by
    rw [Char.utf8Size_eq_one_iff]
    exact UInt32.le_iff_toNat_le.mpr (Nat.le_of_lt_succ ascii)
  rw [String.utf8EncodeChar_eq_singleton single]
  rfl

/-- A byte with its highest bit set is not ASCII. -/
theorem high_ofNat {n : Nat} (least : 128 ≤ n) (most : n < 256) : 128 ≤ UInt8.ofNat n := by
  rw [UInt8.le_iff_toNat_le, UInt8.toNat_ofNat_of_lt' most]
  exact least

/-- Any other character is encoded as at least two bytes that are not ASCII. -/
theorem utf8EncodeChar_of_not_ascii {c : Char} (other : ¬ Ascii c) :
    2 ≤ (String.utf8EncodeChar c).length ∧ ∀ b ∈ String.utf8EncodeChar c, 128 ≤ b := by
  have wide : ¬ c.val.toNat ≤ 127 := fun small => other (Nat.lt_succ_of_le small)
  have rest : ∀ n, 128 ≤ UInt8.ofNat (n % 64 + 128) := fun n => high_ofNat (by omega) (by omega)
  unfold String.utf8EncodeChar
  dsimp only
  rw [if_neg wide]
  -- The first byte counts the bytes, and the others hold six bits each.
  split
  · refine ⟨Nat.le_refl _, ?_⟩
    simp only [List.forall_mem_cons]
    exact ⟨high_ofNat (by omega) (by omega), rest _, nofun⟩
  · split
    · refine ⟨Nat.le_succ _, ?_⟩
      simp only [List.forall_mem_cons]
      exact ⟨high_ofNat (by omega) (by omega), rest _, rest _, nofun⟩
    · refine ⟨by simp only [List.length_cons]; omega, ?_⟩
      simp only [List.forall_mem_cons]
      exact ⟨high_ofNat (by omega) (by omega), rest _, rest _, rest _, nofun⟩

/-- What stands behind an ASCII byte of a text is a text. -/
theorem exists_utf8_behind {input : List Char} {taken rest : Bytes} {c : UInt8} (ascii : c < 128)
    (same : utf8 (String.ofList input) = taken ++ c :: rest) :
    ∃ chars, rest = utf8 (String.ofList chars) := by
  rw [utf8_ofList] at same
  -- The induction is on the characters; the byte is in the first one or behind it.
  induction input generalizing taken with
  | nil =>
    have empty := congrArg List.length same
    simp at empty
  | cons d input ih =>
    rw [List.flatMap_cons, List.append_eq_append_iff] at same
    rcases same with ⟨more, _, behind⟩ | ⟨part, first, behind⟩
    · exact ih behind
    · cases part with
      | nil => exact @ih [] behind.symm
      | cons b part =>
        obtain ⟨rfl, rfl⟩ := List.cons.inj behind
        by_cases plain : Ascii d
        · -- The byte is the whole character.
          rw [utf8EncodeChar_of_ascii plain] at first
          have last : part = [] := by
            have count := congrArg List.length first
            simp only [List.length_append, List.length_cons, List.length_nil] at count
            exact List.eq_nil_of_length_eq_zero (by omega)
          rw [last]
          exact ⟨input, (utf8_ofList input).symm⟩
        · have high := (utf8EncodeChar_of_not_ascii plain).2 c (by rw [first]; simp)
          rw [UInt8.le_iff_toNat_le] at high
          rw [UInt8.lt_iff_toNat_lt] at ascii
          omega

/-! Strings -/

/-- The character that a backslash stands for together with the one behind it. -/
def unescape (c : Char) : Option Char :=
  if c = 'n' then some '\n'
  else if c = 't' then some '\t'
  else if c = '\x22' then some '\x22'
  else if c = '\x27' then some '\x27'
  else if c = '\x5c' then some '\x5c'
  else none

/-- The text that is written up to a quote, with its escapes resolved. -/
def literalText (quote : Char) : List Char → Option (List Char)
  | [] => none
  | c :: rest =>
    if c = quote then some []
    else if c = '\x5c' then
      match rest with
      | [] => none
      | e :: rest =>
        match unescape e with
        | none => none
        | some char => (literalText quote rest).map (char :: ·)
    else (literalText quote rest).map (c :: ·)

/-- The characters that are written up to a quote. -/
def literalBody (quote : Char) : List Char → List Char
  | [] => []
  | c :: rest =>
    if c = quote then []
    else if c = '\x5c' then
      match rest with
      | [] => [c]
      | e :: rest => c :: e :: literalBody quote rest
    else c :: literalBody quote rest

/-- An escape of bytes is that of the characters. -/
theorem escape_byte {e : Char} (ascii : Ascii e) : escape (byte e) = unescape e := by
  have plain : Ascii 'n' ∧ Ascii 't' ∧ Ascii '\x22' ∧ Ascii '\x27' ∧ Ascii '\x5c' := by decide
  rw [escape, unescape]
  simp only [byte_inj ascii plain.1, byte_inj ascii plain.2.1, byte_inj ascii plain.2.2.1,
    byte_inj ascii plain.2.2.2.1, byte_inj ascii plain.2.2.2.2]

/-- A byte that is not ASCII is not that of an ASCII character. -/
theorem ne_byte_of_high {b : UInt8} (high : 128 ≤ b) {c : Char} (ascii : Ascii c) : b ≠ byte c := by
  intro same
  rw [same, UInt8.le_iff_toNat_le, toNat_byte ascii] at high
  exact absurd ascii (Nat.not_lt.mpr high)

/-- A byte that is not ASCII is no escape. -/
theorem escape_high {b : UInt8} (high : 128 ≤ b) : escape b = none := by
  have other : ∀ c : Char, Ascii c → b ≠ byte c := fun c ascii => ne_byte_of_high high ascii
  rw [escape, if_neg (other _ (by decide)), if_neg (other _ (by decide)),
    if_neg (other _ (by decide)), if_neg (other _ (by decide)), if_neg (other _ (by decide))]

/-- Bytes that are not ASCII each stand for a character of their own. -/
theorem readString_high {quote : Char} (ascii : Ascii quote) (start : Nat) {bytes : Bytes}
    (high : ∀ b ∈ bytes, 128 ≤ b) (rest : Bytes) (pos : Nat) (text : List Char) :
    readString (byte quote) start (bytes ++ rest) pos text =
      readString (byte quote) start rest (pos + bytes.length) (text ++ bytes.map asChar) := by
  induction bytes generalizing pos text with
  | nil => simp
  | cons b bytes ih =>
    obtain ⟨first, others⟩ := List.forall_mem_cons.mp high
    have plain := ne_byte_of_high first (c := '\x5c') (by decide)
    rw [List.cons_append, readString_plain _ _ _ _ _ (ne_byte_of_high first ascii) plain, ih others]
    simp [Nat.add_comm, Nat.add_left_comm]

/-- What is seen of a string is its text where its characters are ASCII, and is longer otherwise. -/
def Sees (seen resolved body : List Char) : Prop :=
  resolved.length ≤ seen.length ∧ (seen = resolved ↔ ∀ c ∈ body, Ascii c)

/-- A character that is seen as itself, however it is written. -/
theorem Sees.cons {seen resolved body : List Char} (sees : Sees seen resolved body) (c : Char)
    {written : List Char} (ascii : ∀ d ∈ written, Ascii d) :
    Sees (c :: seen) (c :: resolved) (written ++ body) := by
  refine ⟨Nat.succ_le_succ sees.1, ?_⟩
  rw [List.cons.injEq, sees.2, List.forall_mem_append]
  exact ⟨fun same => ⟨ascii, same.2⟩, fun both => ⟨rfl, both.2⟩⟩

/-- A character that is seen as several others. -/
theorem Sees.wide {seen resolved body : List Char} (sees : Sees seen resolved body) {c : Char}
    (other : ¬ Ascii c) {several : List Char} (many : 2 ≤ several.length) :
    Sees (several ++ seen) (c :: resolved) (c :: body) := by
  have least := sees.1
  constructor
  · rw [List.length_append, List.length_cons]
    omega
  · constructor
    · intro same
      have lengths := congrArg List.length same
      rw [List.length_append, List.length_cons] at lengths
      omega
    · intro all
      exact absurd (all c List.mem_cons_self) other

/-- Characters behind a backslash are ASCII. -/
theorem ascii_of_unescape {e char : Char} (stands : unescape e = some char) : Ascii e := by
  unfold unescape at stands
  split_ifs at stands with first second third fourth fifth
  · exact first ▸ by decide
  · exact second ▸ by decide
  · exact third ▸ by decide
  · exact fourth ▸ by decide
  · exact fifth ▸ by decide

/-- A character that is no escape starts with a byte that is none. -/
theorem exists_escaped {e : Char} (unknown : unescape e = none) (rest : List Char) :
    ∃ b bytes, (e :: rest).flatMap String.utf8EncodeChar = b :: bytes ∧ escape b = none := by
  by_cases plain : Ascii e
  · refine ⟨byte e, rest.flatMap String.utf8EncodeChar, ?_, (escape_byte plain).trans unknown⟩
    rw [List.flatMap_cons, utf8EncodeChar_of_ascii plain, List.singleton_append]
  · obtain ⟨many, high⟩ := utf8EncodeChar_of_not_ascii plain
    rw [List.flatMap_cons]
    generalize String.utf8EncodeChar e = bytes at many high
    cases bytes with
    | nil => cases many
    | cons b bytes =>
      exact ⟨b, bytes ++ rest.flatMap String.utf8EncodeChar, rfl,
        escape_high (high b List.mem_cons_self)⟩

/-- What is read of a string up to its quote, compared with its text. -/
theorem readString_spec {quote : Char} (ascii : Ascii quote) (other : quote ≠ '\x5c') {start : Nat}
    {chars text : List Char} {pos : Nat} {token : Token} {after : Lexer}
    (read : readString (byte quote) start (chars.flatMap String.utf8EncodeChar) pos text =
      .ok (token, after)) :
    ∃ resolved seen, literalText quote chars = some resolved ∧
      token = .str (String.ofList (text ++ seen)) ∧
      Sees seen resolved (literalBody quote chars) := by
  have backslash : Ascii '\x5c' := by decide
  have apart : byte '\x5c' ≠ byte quote := fun same => other ((byte_inj backslash ascii).mp same).symm
  -- The induction follows the characters of the text, an escape at a time.
  induction chars using literalText.induct quote generalizing pos text with
  | case1 =>
    cases read
  | case2 rest =>
    rw [List.flatMap_cons, utf8EncodeChar_of_ascii ascii, List.singleton_append,
      readString_quote] at read
    cases read
    refine ⟨[], [], ?_, by rw [List.append_nil], Nat.le_refl _, ?_⟩
    · rw [literalText.eq_def]
      exact if_pos rfl
    · rw [literalBody.eq_def]
      simp
  | case3 _ =>
    rw [List.flatMap_cons, utf8EncodeChar_of_ascii backslash, List.singleton_append,
      List.flatMap_nil, readString_lone _ _ _ _ apart] at read
    cases read
  | case4 e rest unknown _ =>
    rw [List.flatMap_cons, utf8EncodeChar_of_ascii backslash, List.singleton_append] at read
    obtain ⟨b, bytes, first, none_of⟩ := exists_escaped unknown rest
    rw [first, readString_escape _ _ _ _ _ apart, none_of] at read
    cases read
  | case5 e rest char stands _ ih =>
    have plain := ascii_of_unescape stands
    rw [List.flatMap_cons, utf8EncodeChar_of_ascii backslash, List.singleton_append,
      List.flatMap_cons, utf8EncodeChar_of_ascii plain, List.singleton_append,
      readString_escape _ _ _ _ _ apart, escape_byte plain, stands] at read
    obtain ⟨resolved, seen, known, same, sees⟩ := ih read
    refine ⟨char :: resolved, char :: seen, ?_, ?_, ?_⟩
    · rw [literalText.eq_def]
      simp only [if_neg other.symm, if_pos, stands, known, Option.map_some]
    · rw [same, List.append_assoc, List.singleton_append]
    · have body : literalBody quote ('\x5c' :: e :: rest) =
          ['\x5c', e] ++ literalBody quote rest := by
        rw [literalBody.eq_def]
        simp only [if_neg other.symm, if_pos, List.cons_append, List.nil_append]
      rw [body]
      exact sees.cons char (List.forall_mem_cons.mpr ⟨backslash, List.forall_mem_singleton.mpr plain⟩)
  | case6 c rest unquoted unescaped ih =>
    have body : literalBody quote (c :: rest) = c :: literalBody quote rest := by
      rw [literalBody.eq_def]
      simp only [if_neg unquoted, if_neg unescaped]
    have whole : literalText quote (c :: rest) = (literalText quote rest).map (c :: ·) := by
      rw [literalText.eq_def]
      simp only [if_neg unquoted, if_neg unescaped]
    rw [whole, body]
    rw [List.flatMap_cons] at read
    by_cases plain : Ascii c
    · -- An ASCII character is seen as itself.
      rw [utf8EncodeChar_of_ascii plain, List.singleton_append, readString_plain _ _ _ _ _
        (mt (byte_inj plain ascii).mp unquoted) (mt (byte_inj plain backslash).mp unescaped),
        asChar_byte plain] at read
      obtain ⟨resolved, seen, known, same, sees⟩ := ih read
      refine ⟨c :: resolved, c :: seen, by rw [known]; rfl, ?_, ?_⟩
      · rw [same, List.append_assoc, List.singleton_append]
      · exact sees.cons c (List.forall_mem_singleton.mpr plain)
    · -- Any other one is seen as several characters.
      obtain ⟨many, high⟩ := utf8EncodeChar_of_not_ascii plain
      rw [readString_high ascii start high] at read
      obtain ⟨resolved, seen, known, same, sees⟩ := ih read
      refine ⟨c :: resolved, (String.utf8EncodeChar c).map asChar ++ seen, by rw [known]; rfl, ?_, ?_⟩
      · rw [same, List.append_assoc]
      · exact sees.wide plain (by rw [List.length_map]; exact many)

/-! Numbers -/

/-- The digits and single dots at the start of a text. -/
def numeral : Bytes → Bytes
  | [] => []
  | c :: rest =>
    if isDigit c ∨ c = byte '.' ∧ rest.head? ≠ some (byte '.') then c :: numeral rest else []

/-- The number of dots in a numeral. -/
def dots (raw : Bytes) : Nat := raw.count (byte '.')

/-- A digit is no other character. -/
theorem ne_of_isDigit {c : UInt8} (digit : isDigit c = true) {d : UInt8} (other : isDigit d = false) :
    c ≠ d := by
  intro same
  rw [same, other] at digit
  cases digit

/-- A digit adds no dot. -/
theorem dots_cons_digit {c : UInt8} (digit : isDigit c = true) (raw : Bytes) :
    dots (c :: raw) = dots raw :=
  List.count_cons_of_ne (ne_of_isDigit digit (by decide))

/-- Reading digits reads the numeral, and whether it has a dot. -/
theorem readDigits_fst (rest : Bytes) (pos : Nat) (s : Bytes) (isFloat : Bool) :
    (readDigits rest pos s isFloat).1 =
      (s ++ numeral rest, isFloat || decide (dots (numeral rest) ≠ 0)) := by
  induction rest generalizing pos s isFloat with
  | nil => simp [readDigits, numeral, dots]
  | cons c rest ih =>
    rw [readDigits, numeral]
    by_cases digit : isDigit c = true
    · rw [if_pos digit, if_pos (.inl digit), ih, dots_cons_digit digit]
      simp
    · rw [if_neg digit]
      by_cases dot : c = byte '.' ∧ rest.head? ≠ some (byte '.')
      · rw [if_pos dot, if_pos (.inr dot), ih, dot.1]
        simp [dots]
      · rw [if_neg dot, if_neg (not_or.mpr ⟨digit, dot⟩)]
        simp [dots]

section Library

variable (parseF64 : String → Option UInt64) (debug : DebugText)

/-- What a numeral denotes: an integer without a dot, and with a single one the finite double that
the text is parsed as. -/
def NumeralDenotes (raw : Bytes) (token : Token) : Prop :=
  dots raw = 0 ∧ (∃ word, token = .int word ∧ Value.signed word = decimal raw) ∨
    dots raw = 1 ∧ ∃ bits, parseF64 (asciiText raw) = some bits ∧ Value.isFinite bits = true ∧
      token = .float bits

/-- A numeral is in range: an integer of 63 bits, or parsed as a finite double. -/
def NumeralRegular (raw : Bytes) : Prop :=
  dots raw = 0 ∧ decimal raw < 2 ^ 63 ∨
    dots raw = 1 ∧ ∃ bits, parseF64 (asciiText raw) = some bits ∧ Value.isFinite bits = true

/-- The word of a number of 63 bits holds that number. -/
theorem signed_toUInt64 {n : Nat} (small : n < 2 ^ 63) : Value.signed n.toUInt64 = n := by
  have spelled : Value.signed n.toUInt64 = (n.toUInt64.toNat : Int).bmod (2 ^ 64) :=
    n.toUInt64.toBitVec.toInt_eq_toNat_bmod
  have number : n.toUInt64.toNat = n := UInt64.toNat_ofNat_of_lt' (Nat.lt_trans small (by decide))
  rw [spelled, number]
  exact Int.bmod_eq_of_le (by omega) (by omega)

/-- A numeral is read as what it denotes where it is in range. -/
theorem readNumber_denotes_iff {c : UInt8} (digit : isDigit c = true) (lexer : Lexer) :
    NumeralDenotes parseF64 (c :: numeral lexer.rest) (readNumber parseF64 c lexer).1 ↔
      NumeralRegular parseF64 (c :: numeral lexer.rest) := by
  have parts := readDigits_fst lexer.rest lexer.pos [c] false
  rw [readNumber]
  generalize readDigits lexer.rest lexer.pos [c] false = read at parts
  obtain ⟨⟨s, isFloat⟩, after⟩ := read
  obtain ⟨rfl, rfl⟩ := Prod.mk.inj parts
  rw [List.singleton_append, ← dots_cons_digit digit (numeral lexer.rest)]
  generalize c :: numeral lexer.rest = raw
  dsimp only
  rw [NumeralDenotes, NumeralRegular]
  by_cases whole : dots raw = 0
  · -- A numeral that is not parsed as an integer is read as zero, which it does not denote.
    have int : (false || decide (dots raw ≠ 0)) = false := by simp [whole]
    rw [int]
    simp only [whole, true_and, Nat.zero_ne_one, false_and, or_false, Bool.false_eq_true, if_false,
      Token.int.injEq, exists_eq_left', parseInt]
    by_cases small : decimal raw < 2 ^ 63
    · rw [if_pos small]
      exact ⟨fun _ => small, fun _ => signed_toUInt64 small⟩
    · rw [if_neg small]
      refine ⟨fun same => ?_, fun fits => absurd fits small⟩
      have none : Value.signed 0 = 0 := by decide
      rw [Option.getD_none, none] at same
      omega
  · have float : (false || decide (dots raw ≠ 0)) = true := by simp [whole]
    rw [float]
    simp only [whole, false_and, false_or, if_true, Token.float.injEq]
    refine and_congr_right fun _ => exists_congr fun bits => ?_
    refine and_congr_right fun parsed => and_iff_left ?_
    rw [parsed, Option.getD_some]

/-! Tokens -/

/-- Whether a byte is a quote. -/
def isQuote (c : UInt8) : Prop := c = byte '\x22' ∨ c = byte '\x27'

instance (c : UInt8) : Decidable (isQuote c) := inferInstanceAs (Decidable (_ ∨ _))

/-- A token that stands for a literal denotes what is written there: a string the Unicode text up
to its quote with its escapes resolved, and a numeral its number. -/
def Denotes : Bytes → Token → Prop
  | [], _ => True
  | c :: rest, token =>
    if isQuote c then
      ∃ chars text, rest = utf8 (String.ofList chars) ∧ literalText (asChar c) chars = some text ∧
        token = .str (String.ofList text)
    else if isDigit c then NumeralDenotes parseF64 (c :: numeral rest) token
    else True

/-- A literal is written in ASCII characters or is a numeral in range. -/
def Regular : Bytes → Prop
  | [] => True
  | c :: rest =>
    if isQuote c then
      ∃ chars, rest = utf8 (String.ofList chars) ∧ ∀ d ∈ literalBody (asChar c) chars, Ascii d
    else if isDigit c then NumeralRegular parseF64 (c :: numeral rest)
    else True

variable {parseF64 debug}

/-- A quote starts a string. -/
theorem readToken_quote {pos : Nat} {c : UInt8} {lexer : Lexer} (quote : isQuote c) :
    readToken parseF64 debug pos c lexer = readString c lexer.pos lexer.rest lexer.pos [] := by
  have unmarked : mark c = none := by
    rcases quote with rfl | rfl
    · decide
    · decide
  have others : c ≠ byte '-' ∧ c ≠ byte '<' ∧ c ≠ byte '>' ∧ c ≠ byte '.' := by
    rcases quote with rfl | rfl
    · decide
    · decide
  rw [readToken, unmarked]
  dsimp only
  rw [if_neg others.1, if_neg others.2.1, if_neg others.2.2.1, if_neg others.2.2.2]
  exact if_pos quote

/-- A digit starts a number. -/
theorem readToken_digit {pos : Nat} {c : UInt8} {lexer : Lexer} (digit : isDigit c = true) :
    readToken parseF64 debug pos c lexer = .ok (readNumber parseF64 c lexer) := by
  have other : ∀ d, isDigit d = false → c ≠ d := fun d => ne_of_isDigit digit
  have unmarked : mark c = none := by
    simp (disch := decide) only [mark, if_neg, other]
  have quote : ¬ (c = byte '\x22' ∨ c = byte '\x27') :=
    not_or.mpr ⟨other _ (by decide), other _ (by decide)⟩
  rw [readToken, unmarked]
  dsimp only
  rw [if_neg (other _ (by decide)), if_neg (other _ (by decide)), if_neg (other _ (by decide)),
    if_neg (other _ (by decide)), if_neg quote, if_pos digit]

/-- A quote is the byte of an ASCII character other than the backslash. -/
theorem exists_of_isQuote {c : UInt8} (quote : isQuote c) :
    Ascii (asChar c) ∧ byte (asChar c) = c ∧ asChar c ≠ '\x5c' ∧ c < 128 := by
  rcases quote with rfl | rfl
  · decide
  · decide

/-- A token denotes the literal that it is read from where that is regular. -/
theorem denotes_iff {input : List Char} {taken rest : Bytes} {c : UInt8} {pos : Nat} {token : Token}
    {after : Lexer} (text : utf8 (String.ofList input) = taken ++ c :: rest)
    (read : readToken parseF64 debug pos c ⟨rest, pos + 1⟩ = .ok (token, after)) :
    Denotes parseF64 (c :: rest) token ↔ Regular parseF64 (c :: rest) := by
  rw [Denotes, Regular]
  by_cases quote : isQuote c
  · rw [if_pos quote, if_pos quote]
    rw [readToken_quote quote] at read
    obtain ⟨ascii, same, other, small⟩ := exists_of_isQuote quote
    obtain ⟨chars, rfl⟩ := exists_utf8_behind small text
    rw [utf8_ofList, ← same] at read
    obtain ⟨resolved, seen, known, rfl, _, plain⟩ := readString_spec ascii other read
    have only : ∀ others, utf8 (String.ofList chars) = utf8 (String.ofList others) → others = chars :=
      fun others equal => (String.ofList_injective (utf8_inj equal)).symm
    rw [same] at *
    constructor
    · intro denotes
      obtain ⟨others, text, equal, resolves, token⟩ := denotes
      cases only others equal
      rw [known] at resolves
      cases resolves
      have equal := String.ofList_injective (Token.str.inj token)
      exact ⟨chars, rfl, plain.mp equal⟩
    · intro regular
      obtain ⟨others, equal, body⟩ := regular
      cases only others equal
      refine ⟨chars, resolved, rfl, known, ?_⟩
      rw [List.nil_append, plain.mpr body]
  · rw [if_neg quote, if_neg quote]
    by_cases digit : isDigit c = true
    · rw [if_pos digit, if_pos digit]
      rw [readToken_digit digit] at read
      have iff_regular := readNumber_denotes_iff parseF64 digit ⟨rest, pos + 1⟩
      rw [Except.ok.inj read] at iff_regular
      exact iff_regular
    · rw [if_neg digit, if_neg digit]

end Library

/-! Counts -/

namespace Parser

section Debug

variable {debug : DebugText} {α β : Type} {tokens rest : Tokens}

/-- Two parsers one after the other come to a result when both do. -/
theorem run_bind_eq_done {p : Parser α} {next : α → Parser β} {result : β × Tokens} :
    (p >>= next).run tokens = .done result ↔
      ∃ value rest, p.run tokens = .done (value, rest) ∧ (next value).run rest = .done result := by
  have joined : (p >>= next).run tokens =
      (p.run tokens).bind fun result => (next result.1).run result.2 := rfl
  rw [joined]
  cases p.run tokens with
  | done first => exact ⟨fun done => ⟨first.1, first.2, rfl, done⟩, fun ⟨_, _, same, done⟩ => by
      cases same
      exact done⟩
  | failed | panicked => exact ⟨nofun, nofun⟩

/-- An expected token is the one that stands there. -/
theorem expect_eq_done {expected : Token} {nothing : Unit}
    (done : (expect debug expected).run tokens = .done (nothing, rest)) :
    ∃ pos, tokens = (pos, expected) :: rest := by
  cases tokens with
  | nil => cases done
  | cons token others =>
    obtain ⟨pos, token⟩ := token
    change (if token = expected then _ else _ : Parser Unit).run _ = _ at done
    by_cases same : token = expected
    · rw [if_pos same] at done
      cases done
      exact ⟨pos, by rw [same]⟩
    · rw [if_neg same] at done
      cases done

/-- Moving on takes the token that was looked at. -/
theorem advance_eq_done {token : Option Token} {given : Token}
    (done : advance.run tokens = .done (token, rest))
    (looked : tokens.head?.map Prod.snd = some given) : ∃ pos, tokens = (pos, given) :: rest := by
  cases tokens with
  | nil => cases looked
  | cons first others =>
    cases done
    cases looked
    exact ⟨first.1, rfl⟩

/-- A name is the token that stands there. -/
theorem expectIdent_eq_done {name : String}
    (done : (expectIdent debug).run tokens = .done (name, rest)) :
    ∃ pos, tokens = (pos, .ident name) :: rest := by
  cases tokens with
  | nil => cases done
  | cons token others =>
    obtain ⟨pos, token⟩ := token
    cases token with
    | ident found =>
      cases done
      exact ⟨pos, rfl⟩
    | _ => cases done

/-- An integer is the token that stands there. -/
theorem expectInt_eq_done {word : UInt64}
    (done : (expectInt debug).run tokens = .done (word, rest)) :
    ∃ pos, tokens = (pos, .int word) :: rest := by
  cases tokens with
  | nil => cases done
  | cons token others =>
    obtain ⟨pos, token⟩ := token
    cases token with
    | int found =>
      cases done
      exact ⟨pos, rfl⟩
    | _ => cases done

/-- A string is the token that stands there. -/
theorem expectStr_eq_done {expectation text : String}
    (done : (expectStr debug expectation).run tokens = .done (text, rest)) :
    ∃ pos, tokens = (pos, .str text) :: rest := by
  cases tokens with
  | nil => cases done
  | cons token others =>
    obtain ⟨pos, token⟩ := token
    cases token with
    | str found =>
      cases done
      exact ⟨pos, rfl⟩
    | _ => cases done

/-- A count is the integer that stands there, cut to 32 bits. -/
theorem parseCount_eq_done {message : String} {k : Nat}
    (done : (parseCount debug message).run tokens = .done (k, rest)) :
    ∃ pos word, tokens = (pos, .int word) :: rest ∧ k = word.toNat % 2 ^ 32 := by
  obtain ⟨word, others, found, checked⟩ := run_bind_eq_done.mp done
  obtain ⟨pos, same⟩ := expectInt_eq_done found
  by_cases bad : Value.signed word ≤ 0
  · rw [if_pos bad] at checked
    cases checked
  · rw [if_neg bad] at checked
    cases checked
    exact ⟨pos, word, same, rfl⟩

/-- A width is missing, or is the integer that stands there, cut to 32 bits. -/
theorem parseEf_eq_done {clause : String} {ef : Option Nat}
    (done : (parseEf debug clause).run tokens = .done (ef, rest)) :
    (tokens.head?.map Prod.snd ≠ some .comma ∧ ef = none ∧ tokens = rest) ∨
      ∃ comma name eq pos word, tokens =
        (comma, .comma) :: name :: eq :: (pos, .int word) :: rest ∧
          ef = some (word.toNat % 2 ^ 32) := by
  obtain ⟨token, others, looked, chosen⟩ := run_bind_eq_done.mp done
  cases looked
  by_cases given : tokens.head?.map Prod.snd = some .comma
  · refine .inr ?_
    rw [if_pos given] at chosen
    obtain ⟨comma, others, taken, named⟩ := run_bind_eq_done.mp chosen
    obtain ⟨name, more, read, checked⟩ := run_bind_eq_done.mp named
    obtain ⟨place, second⟩ := expectIdent_eq_done read
    by_cases other : name.toLower ≠ "ef"
    · rw [if_pos other] at checked
      cases checked
    · rw [if_neg other] at checked
      obtain ⟨_, after, equals, counted⟩ := run_bind_eq_done.mp checked
      obtain ⟨eq, third⟩ := expect_eq_done equals
      obtain ⟨count, last, number, finished⟩ := run_bind_eq_done.mp counted
      obtain ⟨pos, word, fourth, cut⟩ := parseCount_eq_done number
      cases finished
      obtain ⟨start, first⟩ := advance_eq_done taken given
      exact ⟨start, _, _, pos, word, by rw [first, second, third, fourth], by rw [cut]⟩
  · rw [if_neg given] at chosen
    cases chosen
    exact .inl ⟨given, rfl, rfl⟩

/-- The counts that are written in a vector clause: how many hits are wanted, and the width of the
search if it is given. -/
def writtenCounts (tokens : Tokens) : Option (Nat × Option Nat) :=
  match tokens.drop 6 with
  | (_, .int k) :: (_, .comma) :: _ :: _ :: (_, .int ef) :: _ => some (k.toNat, some ef.toNat)
  | (_, .int k) :: _ => some (k.toNat, none)
  | _ => none

/-- The arguments of a vector search behind its name hold the counts that are written, cut to 32
bits. -/
theorem parseVectorArguments_counts {clause name space : String} {k : Nat} {ef : Option Nat}
    (done : (parseVectorArguments debug clause).run tokens = .done ((name, space, k, ef), rest))
    (head : Nat × Token) :
    ∃ written width, writtenCounts (head :: tokens) = some (written, width) ∧
      k = written % 2 ^ 32 ∧ ef = width.map (· % 2 ^ 32) := by
  -- Five tokens stand before the first count.
  obtain ⟨_, _, opens, named⟩ := run_bind_eq_done.mp done
  obtain ⟨_, first⟩ := expect_eq_done opens
  obtain ⟨_, _, names, separated⟩ := run_bind_eq_done.mp named
  obtain ⟨_, second⟩ := expectIdent_eq_done names
  obtain ⟨_, _, comma, spaced⟩ := run_bind_eq_done.mp separated
  obtain ⟨_, third⟩ := expect_eq_done comma
  obtain ⟨_, _, texts, separated⟩ := run_bind_eq_done.mp spaced
  obtain ⟨_, fourth⟩ := expectStr_eq_done texts
  obtain ⟨_, _, comma, counted⟩ := run_bind_eq_done.mp separated
  obtain ⟨_, fifth⟩ := expect_eq_done comma
  obtain ⟨_, behind, count, widened⟩ := run_bind_eq_done.mp counted
  obtain ⟨pos, word, sixth, cut⟩ := parseCount_eq_done count
  obtain ⟨_, after, width, closed⟩ := run_bind_eq_done.mp widened
  obtain ⟨_, last, close, finished⟩ := run_bind_eq_done.mp closed
  obtain ⟨_, final⟩ := expect_eq_done close
  cases finished
  rw [first, second, third, fourth, fifth, sixth, writtenCounts]
  rcases parseEf_eq_done width with ⟨_, missing, same⟩ | ⟨_, _, _, _, ef, same, given⟩
  · rw [same, final]
    exact ⟨word.toNat, none, rfl, cut, missing⟩
  · rw [same]
    exact ⟨word.toNat, some ef.toNat, rfl, cut, given⟩

/-- A vector clause with its counts is read at the front of some tokens. -/
def VectorClause (debug : DebugText) (tokens : Tokens) (k : Nat) (ef : Option Nat) : Prop :=
  (∃ call rest, (parseCallClause debug).run tokens = .done (call, rest) ∧ call.k = k ∧
    call.ef = ef) ∨
    ∃ var space rest, (parseCondition debug).run tokens = .done (.vectorNear var space k ef, rest)

/-- A leading call reads the counts that are written, cut to 32 bits. -/
theorem parseCallClause_counts {call : CallClause}
    (done : (parseCallClause debug).run tokens = .done (call, rest)) :
    ∃ written width, writtenCounts tokens = some (written, width) ∧ call.k = written % 2 ^ 32 ∧
      call.ef = width.map (· % 2 ^ 32) := by
  obtain ⟨_, _, looked, named⟩ := run_bind_eq_done.mp done
  cases looked
  obtain ⟨procedure, _, names, checked⟩ := run_bind_eq_done.mp named
  obtain ⟨_, first⟩ := expectIdent_eq_done names
  by_cases other : procedure.toLower ≠ "vector_near"
  · rw [if_pos other] at checked
    cases checked
  · rw [if_neg other] at checked
    obtain ⟨⟨name, space, k, ef⟩, after, arguments, yields⟩ := run_bind_eq_done.mp checked
    have counts := parseVectorArguments_counts arguments
    obtain ⟨_, _, looked, yields⟩ := run_bind_eq_done.mp yields
    cases looked
    obtain ⟨given, _, looked, yields⟩ := run_bind_eq_done.mp yields
    cases looked
    by_cases yield : isKeyword "YIELD" (after.head?.map Prod.snd) = true
    · rw [if_pos yield] at yields
      obtain ⟨_, _, _, yields⟩ := run_bind_eq_done.mp yields
      obtain ⟨_, _, _, finished⟩ := run_bind_eq_done.mp yields
      cases finished
      rw [first]
      exact counts _
    · rw [if_neg yield] at yields
      cases yields

/-- Every result of a parser is of a kind. -/
def Yields (kind : α → Prop) (p : Parser α) : Prop :=
  ∀ tokens value rest, p.run tokens = .done (value, rest) → kind value

/-- A parser with a result of a kind. -/
theorem Yields.pure {kind : α → Prop} {value : α} (holds : kind value) :
    Yields kind (Pure.pure value : Parser α) := by
  intro tokens value rest done
  cases done
  exact holds

/-- A parser that gives up has no result. -/
theorem Yields.fail (kind : α → Prop) (pos : Nat) (msg : String) :
    Yields kind (Parser.fail pos msg : Parser α) := nofun

/-- A result of two parsers one after the other is one of the second. -/
theorem Yields.seq {kind : β → Prop} {p : Parser α} {next : α → Parser β}
    (second : ∀ value, Yields kind (next value)) : Yields kind (p >>= next) := by
  intro tokens value rest done
  obtain ⟨first, middle, _, later⟩ := run_bind_eq_done.mp done
  exact second first middle value rest later

/-- A result of a choice is one of either side. -/
theorem Yields.ite {kind : α → Prop} {c : Prop} [Decidable c] {p q : Parser α} (yes : Yields kind p)
    (no : Yields kind q) : Yields kind (if c then p else q) := by
  split
  · exact yes
  · exact no

/-- Whether a condition is a vector search. -/
def isVectorNear : WhereClause → Bool
  | .vectorNear .. => true
  | _ => false

/-- A condition on a property is no vector search. -/
theorem parseComparison_yields (debug : DebugText) (first : String) :
    Yields (fun clause => isVectorNear clause = true → False) (parseComparison debug first) := by
  apply Yields.seq
  intro _
  apply Yields.seq
  intro prop
  apply Yields.seq
  intro contains
  refine .ite (.seq fun _ => .seq fun text => .pure nofun) ?_
  apply Yields.seq
  intro starts
  refine .ite (.seq fun _ => .seq fun pos => .seq fun withs => .ite ?_ (.fail _ _ _)) ?_
  · exact .seq fun _ => .seq fun text => .pure nofun
  apply Yields.seq
  intro equals
  refine .ite (.seq fun _ => .seq fun tilde => .ite ?_ ?_) ?_
  · exact .seq fun _ => .seq fun text => .pure nofun
  · exact .seq fun value => .pure nofun
  apply Yields.seq
  intro compares
  refine .ite (.seq fun token => ?_) (.seq fun pos => .fail _ _ _)
  split
  · exact .seq fun value => .pure nofun
  · exact nofun

/-- A condition on a vector search reads the counts that are written, cut to 32 bits. -/
theorem parseCondition_counts {var space : String} {k : Nat} {ef : Option Nat}
    (done : (parseCondition debug).run tokens = .done (.vectorNear var space k ef, rest)) :
    ∃ written width, writtenCounts tokens = some (written, width) ∧ k = written % 2 ^ 32 ∧
      ef = width.map (· % 2 ^ 32) := by
  obtain ⟨name, _, names, chosen⟩ := run_bind_eq_done.mp done
  obtain ⟨_, first⟩ := expectIdent_eq_done names
  by_cases near : name.toLower = "vector_near"
  · rw [if_pos near] at chosen
    obtain ⟨⟨var, space, k, ef⟩, after, arguments, finished⟩ := run_bind_eq_done.mp chosen
    cases finished
    rw [first]
    exact parseVectorArguments_counts arguments _
  · rw [if_neg near] at chosen
    exact (parseComparison_yields debug name _ _ _ chosen rfl).elim

/-- A vector clause reads the counts that are written, cut to 32 bits. -/
theorem VectorClause.counts {k : Nat} {ef : Option Nat} (clause : VectorClause debug tokens k ef) :
    ∃ written width, writtenCounts tokens = some (written, width) ∧ k = written % 2 ^ 32 ∧
      ef = width.map (· % 2 ^ 32) := by
  rcases clause with ⟨call, rest, done, rfl, rfl⟩ | ⟨var, space, rest, done⟩
  · exact parseCallClause_counts done
  · exact parseCondition_counts done

/-- The counts that are written in a vector clause fit 32 bits. -/
def SmallCounts (tokens : Tokens) : Prop :=
  ∀ written width, writtenCounts tokens = some (written, width) →
    written < 2 ^ 32 ∧ ∀ n, width = some n → n < 2 ^ 32

/-- A vector clause keeps the counts that are written where they fit 32 bits. -/
theorem VectorClause.keeps_iff {k : Nat} {ef : Option Nat} (clause : VectorClause debug tokens k ef) :
    writtenCounts tokens = some (k, ef) ↔ SmallCounts tokens := by
  obtain ⟨written, width, found, rfl, rfl⟩ := clause.counts
  rw [SmallCounts, found]
  constructor
  · intro same others more equal
    cases equal
    obtain ⟨first, second⟩ := Prod.mk.inj (Option.some.inj same)
    refine ⟨by omega, fun n given => ?_⟩
    rw [given, Option.map_some, Option.some.injEq] at second
    omega
  · intro small
    obtain ⟨first, second⟩ := small written width rfl
    rw [Nat.mod_eq_of_lt first]
    cases width with
    | none => rfl
    | some n => rw [Option.map_some, Nat.mod_eq_of_lt (second n rfl)]

end Debug

end Parser

section Library

variable (parseF64 : String → Option UInt64) (debug : DebugText)

/-- The literals of a text denote what is written: every token what stands at its position, and
every vector clause the counts at its place. -/
def LiteralsDenote (input : String) (tokens : Tokens) : Prop :=
  (∀ t ∈ tokens, Denotes parseF64 ((utf8 input).drop t.1) t.2) ∧
    ∀ part, part <:+ tokens → ∀ k ef, Parser.VectorClause debug part k ef →
      Parser.writtenCounts part = some (k, ef)

/-- The literals of a text are regular: strings in ASCII, numerals in range, and the counts of
vector clauses of 32 bits. -/
def LiteralsRegular (input : String) (tokens : Tokens) : Prop :=
  (∀ t ∈ tokens, Regular parseF64 ((utf8 input).drop t.1)) ∧
    ∀ part, part <:+ tokens → ∀ k ef, Parser.VectorClause debug part k ef → Parser.SmallCounts part

/-- The literals of a text that is split into tokens denote what is written exactly where they are
regular. -/
theorem literalsDenote_iff {input : String} {tokens : Tokens}
    (read : tokenize parseF64 debug input = some (.ok tokens)) :
    LiteralsDenote parseF64 debug input tokens ↔ LiteralsRegular parseF64 debug input tokens := by
  refine and_congr (forall₂_congr fun t member => ?_) ?_
  · obtain ⟨c, rest, after, behind, found⟩ := exists_readToken_of_mem read member
    have text : utf8 (String.ofList input.toList) = (utf8 input).take t.1 ++ c :: rest := by
      rw [← behind, List.take_append_drop, String.ofList_toList]
    rw [behind]
    exact denotes_iff text found
  · exact forall₂_congr fun part _ => forall₃_congr fun k ef clause => clause.keeps_iff

/-- No message shows anything. -/
def DebugText.silent : DebugText := ⟨fun _ => "", fun _ => "", fun _ => ""⟩

/-- The literals of a text with a name, a string and an integer. -/
theorem literalsDenote_iff_three :
    LiteralsDenote (fun _ => none) .silent "n 'ab' 42" [(0, .ident "n"), (2, .str "ab"), (7, .int 42)] ↔
      LiteralsRegular (fun _ => none) .silent "n 'ab' 42"
        [(0, .ident "n"), (2, .str "ab"), (7, .int 42)] :=
  literalsDenote_iff _ _ (by decide +kernel)

/-- A string of one character that is not ASCII is read as two characters. -/
theorem string_mangled :
    tokenize (fun _ => none) .silent "'é'" = some (.ok [(0, .str "Ã©")]) ∧
      ¬ LiteralsDenote (fun _ => none) .silent "'é'" [(0, .str "Ã©")] := by
  constructor
  · decide +kernel
  · intro denote
    have bytes : (utf8 "'é'").drop 0 = byte '\x27' :: utf8 (String.ofList ['é', '\x27']) := by
      decide +kernel
    have literal := denote.1 _ List.mem_cons_self
    rw [bytes, Denotes, if_pos (by decide)] at literal
    obtain ⟨chars, text, same, resolves, token⟩ := literal
    rw [← String.ofList_injective (utf8_inj same)] at resolves
    have one : literalText (asChar (byte '\x27')) ['é', '\x27'] = some ['é'] := by decide
    rw [one] at resolves
    cases resolves
    exact absurd (Token.str.inj token) (by decide)

end Library

end Cypher

end Polargraph
