import Polargraph.Lib.Except
import Polargraph.Query.CypherLexer

/-! Where the tokens of a Cypher text are read, and that reading them comes to an end. -/

namespace Polargraph

namespace Cypher

/-- A lexer got to a later place of the same text. -/
def Lexer.Advances (before after : Lexer) : Prop :=
  ∃ taken, before.rest = taken ++ after.rest ∧ after.pos = before.pos + taken.length

namespace Lexer.Advances

variable {before middle after : Lexer}

/-- A lexer is where it is. -/
theorem refl (lexer : Lexer) : lexer.Advances lexer := ⟨[], rfl, rfl⟩

/-- Later places of later places are later. -/
theorem trans (first : before.Advances middle) (second : middle.Advances after) :
    before.Advances after := by
  obtain ⟨taken, same, moved⟩ := first
  obtain ⟨more, rest, further⟩ := second
  refine ⟨taken ++ more, ?_, ?_⟩
  · rw [same, rest, List.append_assoc]
  · rw [further, moved, List.length_append]
    omega

/-- Taking a byte goes on. -/
theorem byte (c : UInt8) (rest : Bytes) (pos : Nat) :
    Lexer.Advances ⟨c :: rest, pos⟩ ⟨rest, pos + 1⟩ := ⟨[c], rfl, rfl⟩

/-- Nothing is added to what is left. -/
theorem length_le (advances : before.Advances after) : after.rest.length ≤ before.rest.length := by
  obtain ⟨taken, same, _⟩ := advances
  rw [same, List.length_append]
  omega

/-- What is left is the text from the position on. -/
theorem drop_eq {input : Bytes} (advances : Lexer.Advances ⟨input, 0⟩ after) :
    input.drop after.pos = after.rest := by
  obtain ⟨taken, same, moved⟩ := advances
  have there : after.pos = taken.length := by simpa using moved
  rw [show input = taken ++ after.rest from same, there, List.drop_left]

end Lexer.Advances

/-- Skipping blanks goes on. -/
theorem skipWhitespace_advances (rest : Bytes) (pos : Nat) :
    Lexer.Advances ⟨rest, pos⟩ (skipWhitespace rest pos) := by
  induction rest generalizing pos with
  | nil => exact .refl _
  | cons c rest ih =>
    rw [skipWhitespace]
    split
    · exact (Lexer.Advances.byte c rest pos).trans (ih (pos + 1))
    · exact .refl _

section Strings

variable (quote : UInt8) (start pos : Nat) (text : List Char) (rest : Bytes)

/-- The quote ends a string. -/
theorem readString_quote : readString quote start (quote :: rest) pos text =
    .ok (.str (String.ofList text), ⟨rest, pos + 1⟩) := by
  rw [readString.eq_def]
  exact if_pos rfl

/-- A backslash at the end is an error. -/
theorem readString_lone (other : byte '\x5c' ≠ quote) :
    readString quote start [byte '\x5c'] pos text = .error ⟨start, "invalid escape in string"⟩ := by
  rw [readString.eq_def]
  simp only [if_neg other, if_pos]

/-- A backslash stands for a character with the byte behind it, or is an error. -/
theorem readString_escape (other : byte '\x5c' ≠ quote) (e : UInt8) :
    readString quote start (byte '\x5c' :: e :: rest) pos text =
      match escape e with
      | some char => readString quote start rest (pos + 2) (text ++ [char])
      | none => .error ⟨start, "invalid escape in string"⟩ := by
  rw [readString.eq_def]
  simp only [if_neg other, if_pos]
  all_goals cases escape e <;> rfl

/-- Any other byte stands for the character of its number. -/
theorem readString_plain {c : UInt8} (other : c ≠ quote) (plain : c ≠ byte '\x5c') :
    readString quote start (c :: rest) pos text =
      readString quote start rest (pos + 1) (text ++ [asChar c]) := by
  rw [readString.eq_def]
  simp only [if_neg other, if_neg plain]

end Strings

/-- Reading a string goes on. -/
theorem readString_advances {quote : UInt8} {start : Nat} {rest : Bytes} {pos : Nat}
    {text : List Char} {token : Token} {after : Lexer}
    (read : readString quote start rest pos text = .ok (token, after)) :
    Lexer.Advances ⟨rest, pos⟩ after := by
  induction rest, pos, text using readString.induct quote with
  | case1 pos text =>
    rw [readString] at read
    cases read
  | case2 rest pos text =>
    rw [readString_quote] at read
    cases read
    exact .byte quote rest pos
  | case3 pos text other =>
    rw [readString_lone quote start pos text other] at read
    cases read
  | case4 pos text e rest char stands other ih =>
    rw [readString_escape quote start pos text rest other e, stands] at read
    exact ((Lexer.Advances.byte _ (e :: rest) pos).trans (.byte e rest (pos + 1))).trans (ih read)
  | case5 pos text e rest unknown other =>
    rw [readString_escape quote start pos text rest other e, unknown] at read
    cases read
  | case6 c rest pos text other plain ih =>
    rw [readString_plain quote start pos text rest other plain] at read
    exact (Lexer.Advances.byte c rest pos).trans (ih read)

/-- Reading digits goes on. -/
theorem readDigits_advances (rest : Bytes) (pos : Nat) (s : Bytes) (isFloat : Bool) :
    Lexer.Advances ⟨rest, pos⟩ (readDigits rest pos s isFloat).2 := by
  induction rest generalizing pos s isFloat with
  | nil => exact .refl _
  | cons c rest ih =>
    rw [readDigits]
    split
    · exact (Lexer.Advances.byte c rest pos).trans (ih _ _ _)
    · split
      · exact (Lexer.Advances.byte c rest pos).trans (ih _ _ _)
      · exact .refl _

/-- Reading a name goes on. -/
theorem readName_advances (rest : Bytes) (pos : Nat) (s : Bytes) :
    Lexer.Advances ⟨rest, pos⟩ (readName rest pos s).2 := by
  induction rest generalizing pos s with
  | nil => exact .refl _
  | cons c rest ih =>
    rw [readName]
    split
    · exact (Lexer.Advances.byte c rest pos).trans (ih _ _)
    · exact .refl _

/-- Reading a quoted name goes on. -/
theorem readQuoted_advances {start : Nat} {rest : Bytes} {pos : Nat} {s name : Bytes}
    {after : Lexer} (read : readQuoted start rest pos s = .ok (name, after)) :
    Lexer.Advances ⟨rest, pos⟩ after := by
  induction rest, pos, s using readQuoted.induct with
  | case1 pos s =>
    rw [readQuoted] at read
    cases read
  | case2 pos s =>
    rw [readQuoted.eq_def] at read
    simp only [if_pos] at read
    cases read
    exact .byte _ [] pos
  | case3 pos s rest ih =>
    rw [readQuoted.eq_def] at read
    simp only [if_pos] at read
    exact ((Lexer.Advances.byte _ _ pos).trans (.byte _ rest (pos + 1))).trans (ih read)
  | case4 pos s d rest other =>
    rw [readQuoted.eq_def] at read
    simp only [if_pos, if_neg other] at read
    cases read
    exact .byte _ _ pos
  | case5 c rest pos s other ih =>
    rw [readQuoted.eq_def] at read
    simp only [if_neg other] at read
    exact (Lexer.Advances.byte c rest pos).trans (ih read)

/-- A second byte is taken if it follows. -/
theorem follows_advances {lexer : Lexer} (second : Char) (two : Token) {otherwise : Token × Lexer}
    (goes : lexer.Advances otherwise.2) :
    lexer.Advances (lexer.follows second two otherwise).2 := by
  obtain ⟨rest, pos⟩ := lexer
  cases rest with
  | nil => exact goes
  | cons d rest =>
    change Lexer.Advances _ (if d = byte second then _ else _ : Token × Lexer).2
    split
    · exact .byte d rest pos
    · exact goes

section Library

variable {parseF64 : String → Option UInt64} {debug : DebugText}

/-- Reading a number goes on. -/
theorem readNumber_advances (c : UInt8) (lexer : Lexer) :
    lexer.Advances (readNumber parseF64 c lexer).2 := by
  have goes := readDigits_advances lexer.rest lexer.pos [c] false
  simp only [readNumber]
  split
  · exact goes
  · exact goes

/-- Reading a token goes on. -/
theorem readToken_advances {pos : Nat} {c : UInt8} {lexer after : Lexer} {token : Token}
    (read : readToken parseF64 debug pos c lexer = .ok (token, after)) :
    lexer.Advances after := by
  have stays : lexer.Advances lexer := .refl lexer
  -- What is read without an error is the token that is returned.
  have direct : ∀ result : Token × Lexer, lexer.Advances result.2 →
      (.ok result : Except CypherError _) = .ok (token, after) → lexer.Advances after := by
    intro result goes same
    rw [Except.ok.inj same] at goes
    exact goes
  rw [readToken] at read
  cases marked : mark c with
  | some mark =>
    rw [marked] at read
    exact direct _ stays read
  | none =>
    rw [marked] at read
    dsimp only at read
    by_cases dash : c = byte '-'
    · rw [if_pos dash] at read
      exact direct _ (follows_advances _ _ stays) read
    rw [if_neg dash] at read
    by_cases less : c = byte '<'
    · rw [if_pos less] at read
      have third : lexer.Advances (lexer.follows '>' .ne (.lt, lexer)).2 :=
        follows_advances _ _ stays
      exact direct _ (follows_advances _ _ (follows_advances _ _ third)) read
    rw [if_neg less] at read
    by_cases greater : c = byte '>'
    · rw [if_pos greater] at read
      exact direct _ (follows_advances _ _ stays) read
    rw [if_neg greater] at read
    by_cases dot : c = byte '.'
    · rw [if_pos dot] at read
      exact direct _ (follows_advances _ _ stays) read
    rw [if_neg dot] at read
    by_cases quote : c = byte '\x22' ∨ c = byte '\x27'
    · rw [if_pos quote] at read
      exact readString_advances read
    rw [if_neg quote] at read
    by_cases digit : isDigit c = true
    · rw [if_pos digit] at read
      exact direct _ (readNumber_advances c lexer) read
    rw [if_neg digit] at read
    by_cases dollar : c = byte '$'
    · rw [if_pos dollar] at read
      have goes := readName_advances lexer.rest lexer.pos []
      split at read
      · cases read
      · exact direct _ goes read
    rw [if_neg dollar] at read
    by_cases backtick : c = byte '\x60'
    · rw [if_pos backtick] at read
      obtain ⟨⟨s, behind⟩, quoted, read⟩ := Except.bind_eq_ok.mp read
      have goes := readQuoted_advances quoted
      dsimp only at read
      split at read
      · cases read
      · split at read
        · cases read
        · exact direct _ goes read
    rw [if_neg backtick] at read
    by_cases letter : (isAsciiAlphabetic c || c == byte '_') = true
    · rw [if_pos letter] at read
      have goes := readName_advances lexer.rest lexer.pos [c]
      split at read
      · exact direct _ goes read
      · split at read
        · exact direct _ goes read
        · exact direct _ goes read
    · rw [if_neg letter] at read
      cases read

/-- A token is read behind its first byte, at its position. -/
theorem nextToken_spec {lexer after : Lexer} {pos : Nat} {token : Token}
    (next : nextToken parseF64 debug lexer = .ok (some ((pos, token), after))) :
    ∃ c rest, lexer.Advances ⟨c :: rest, pos⟩ ∧
      readToken parseF64 debug pos c ⟨rest, pos + 1⟩ = .ok (token, after) := by
  have skipped := skipWhitespace_advances lexer.rest lexer.pos
  rw [nextToken] at next
  generalize skipWhitespace lexer.rest lexer.pos = start at skipped next
  obtain ⟨left, at_start⟩ := start
  dsimp only at next
  cases left with
  | nil => cases next
  | cons c rest =>
    obtain ⟨⟨read, behind⟩, found, same⟩ := Except.bind_eq_ok.mp next
    cases same
    exact ⟨c, rest, skipped, found⟩

/-- A token leaves the lexer behind it. -/
theorem nextToken_advances {lexer after : Lexer} {pos : Nat} {token : Token}
    (next : nextToken parseF64 debug lexer = .ok (some ((pos, token), after))) :
    lexer.Advances after ∧ after.rest.length < lexer.rest.length := by
  obtain ⟨c, rest, skipped, found⟩ := nextToken_spec next
  have goes := readToken_advances found
  have fewer := skipped.length_le
  have least := goes.length_le
  simp only [List.length_cons] at fewer least
  exact ⟨skipped.trans ((Lexer.Advances.byte c rest pos).trans goes), by omega⟩

/-- Reading comes to an end before the rounds run out. -/
theorem tokensFrom_isSome (rounds : Nat) (lexer : Lexer) (enough : lexer.rest.length < rounds) :
    (tokensFrom parseF64 debug rounds lexer).isSome = true := by
  -- Every token takes a byte, so there are fewer left for the rounds that remain.
  induction rounds generalizing lexer with
  | zero => omega
  | succ rounds ih =>
    rw [tokensFrom]
    split
    · rfl
    · rfl
    · rename_i token after next
      have fewer := (nextToken_advances next).2
      rw [Option.isSome_map]
      exact ih after (by omega)

/-- Reading the tokens of a text comes to an end. -/
theorem tokenize_isSome (input : String) : (tokenize parseF64 debug input).isSome = true :=
  tokensFrom_isSome _ _ (Nat.lt_succ_self _)

/-- The tokens that are left are read at their positions. -/
theorem exists_readToken_of_tokensFrom {rounds : Nat} {lexer : Lexer} {tokens : List (Nat × Token)}
    (read : tokensFrom parseF64 debug rounds lexer = some (.ok tokens)) {pos : Nat} {token : Token}
    (member : (pos, token) ∈ tokens) :
    ∃ c rest after, lexer.Advances ⟨c :: rest, pos⟩ ∧
      readToken parseF64 debug pos c ⟨rest, pos + 1⟩ = .ok (token, after) := by
  induction rounds generalizing lexer tokens with
  | zero => cases read
  | succ rounds ih =>
    rw [tokensFrom] at read
    split at read
    · cases read
    · cases read
      cases member
    · rename_i first after next
      obtain ⟨result, more, same⟩ := Option.map_eq_some_iff.mp read
      obtain ⟨others, rfl, rfl⟩ := Except.map_eq_ok.mp same
      rcases List.mem_cons.mp member with rfl | later
      · obtain ⟨c, rest, skipped, found⟩ := nextToken_spec next
        exact ⟨c, rest, after, skipped, found⟩
      · obtain ⟨c, rest, behind, goes, found⟩ := ih more later
        exact ⟨c, rest, behind, (nextToken_advances next).1.trans goes, found⟩

/-- Every token of a text is read from what stands at its position. -/
theorem exists_readToken_of_mem {input : String} {tokens : List (Nat × Token)}
    (read : tokenize parseF64 debug input = some (.ok tokens)) {pos : Nat} {token : Token}
    (member : (pos, token) ∈ tokens) :
    ∃ c rest after, (utf8 input).drop pos = c :: rest ∧
      readToken parseF64 debug pos c ⟨rest, pos + 1⟩ = .ok (token, after) := by
  obtain ⟨c, rest, after, goes, found⟩ := exists_readToken_of_tokensFrom read member
  exact ⟨c, rest, after, goes.drop_eq, found⟩

end Library

end Cypher

end Polargraph
