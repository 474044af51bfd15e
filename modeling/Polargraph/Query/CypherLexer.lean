import Polargraph.Server.CypherWrite

/-! The tokens of a Cypher text. -/

namespace Polargraph

namespace Cypher

/-- Why a text is not parsed. -/
structure CypherError where
  /-- The position in bytes. -/
  pos : Nat
  /-- What is wrong. -/
  msg : String
deriving DecidableEq

/-- A token. -/
inductive Token where
  /-- `(` -/
  | lparen
  /-- `)` -/
  | rparen
  /-- `[` -/
  | lbracket
  /-- `]` -/
  | rbracket
  /-- An opening brace. -/
  | lbrace
  /-- A closing brace. -/
  | rbrace
  /-- `:` -/
  | colon
  /-- `,` -/
  | comma
  /-- `.` -/
  | dot
  /-- `=` -/
  | eq
  /-- `*` -/
  | star
  /-- `..` -/
  | dotDot
  /-- `->` -/
  | arrow
  /-- `<-` -/
  | leftArrow
  /-- `-` -/
  | dash
  /-- `~` -/
  | tilde
  /-- `>` -/
  | gt
  /-- `<` -/
  | lt
  /-- `>=` -/
  | gte
  /-- `<=` -/
  | lte
  /-- `<>` -/
  | ne
  /-- A name. -/
  | ident (name : String)
  /-- A string literal. -/
  | str (text : String)
  /-- An integer literal, as its word. -/
  | int (word : UInt64)
  /-- A floating-point literal, as its bits. -/
  | float (bits : UInt64)
  /-- A named parameter. -/
  | param (name : String)
deriving DecidableEq

/-- How values are shown in messages. -/
structure DebugText where
  /-- A token. -/
  token : Token → String
  /-- A character. -/
  char : Char → String
  /-- A text. -/
  text : String → String

/-- What a lexer has left to read, and where that starts. -/
structure Lexer where
  /-- The bytes that are left. -/
  rest : Bytes
  /-- The position in bytes. -/
  pos : Nat
deriving DecidableEq

/-- The byte of an ASCII character. -/
def byte (char : Char) : UInt8 := char.toNat.toUInt8

/-- A byte as a character. -/
def asChar (c : UInt8) : Char := Char.ofNat c.toNat

/-- Whether a byte is a digit. -/
def isDigit (c : UInt8) : Bool := byte '0' ≤ c && c ≤ byte '9'

/-- Whether a byte is a letter. -/
def isAsciiAlphabetic (c : UInt8) : Bool :=
  (byte 'a' ≤ c && c ≤ byte 'z') || (byte 'A' ≤ c && c ≤ byte 'Z')

/-- Whether a byte can be part of a name. -/
def isNameByte (c : UInt8) : Bool := isAsciiAlphabetic c || isDigit c || c == byte '_'

/-- Whether a byte is skipped between tokens. -/
def isBlank (c : UInt8) : Bool := c == 32 || c == 9 || c == 10 || c == 13

/-- The character that an escape stands for. -/
def escape (c : UInt8) : Option Char :=
  if c = byte 'n' then some '\n'
  else if c = byte 't' then some '\t'
  else if c = byte '\x22' then some '\x22'
  else if c = byte '\x27' then some '\x27'
  else if c = byte '\x5c' then some '\x5c'
  else none

/-- Skip the blanks. -/
def skipWhitespace : Bytes → Nat → Lexer
  | [], pos => ⟨[], pos⟩
  | c :: rest, pos => if isBlank c then skipWhitespace rest (pos + 1) else ⟨c :: rest, pos⟩

/-- Read a string up to its quote; a byte stands for the character of its number. -/
def readString (quote : UInt8) (start : Nat) :
    Bytes → Nat → List Char → Except CypherError (Token × Lexer)
  | [], _, _ => .error ⟨start, "unterminated string literal"⟩
  | c :: rest, pos, text =>
    if c = quote then .ok (.str (String.ofList text), ⟨rest, pos + 1⟩)
    else if c = byte '\x5c' then
      match rest with
      | [] => .error ⟨start, "invalid escape in string"⟩
      | e :: rest =>
        match escape e with
        | some char => readString quote start rest (pos + 2) (text ++ [char])
        | none => .error ⟨start, "invalid escape in string"⟩
    else readString quote start rest (pos + 1) (text ++ [asChar c])

/-- Read digits and single dots, and whether there was a dot. -/
def readDigits : Bytes → Nat → Bytes → Bool → (Bytes × Bool) × Lexer
  | [], pos, s, isFloat => ((s, isFloat), ⟨[], pos⟩)
  | c :: rest, pos, s, isFloat =>
    if isDigit c then readDigits rest (pos + 1) (s ++ [c]) isFloat
    else if c = byte '.' ∧ rest.head? ≠ some (byte '.') then
      readDigits rest (pos + 1) (s ++ [c]) true
    else ((s, isFloat), ⟨c :: rest, pos⟩)

/-- The number that digits denote. -/
def decimal (digits : Bytes) : Nat :=
  digits.foldl (fun value c => 10 * value + (c.toNat - 48)) 0

/-- Digits as a signed 64-bit number, if they denote one. -/
def parseInt (digits : Bytes) : Option UInt64 :=
  if decimal digits < 2 ^ 63 then some (decimal digits).toUInt64 else none

/-- Read the bytes of a name. -/
def readName : Bytes → Nat → Bytes → Bytes × Lexer
  | [], pos, s => (s, ⟨[], pos⟩)
  | c :: rest, pos, s =>
    if isNameByte c then readName rest (pos + 1) (s ++ [c]) else (s, ⟨c :: rest, pos⟩)

/-- Read a quoted name up to its backtick; a doubled one is part of the name. -/
def readQuoted (start : Nat) : Bytes → Nat → Bytes → Except CypherError (Bytes × Lexer)
  | [], _, _ => .error ⟨start, "unterminated \x60name\x60"⟩
  | c :: rest, pos, s =>
    if c = byte '\x60' then
      match rest with
      | [] => .ok (s, ⟨[], pos + 1⟩)
      | d :: after =>
        if d = byte '\x60' then readQuoted start after (pos + 2) (s ++ [c])
        else .ok (s, ⟨d :: after, pos + 1⟩)
    else readQuoted start rest (pos + 1) (s ++ [c])

/-- Bytes that are ASCII as a text. -/
def asciiText (s : Bytes) : String := String.ofList (s.map asChar)

/-- The token of a single byte that no other byte can join. -/
def mark (c : UInt8) : Option Token :=
  if c = byte '(' then some .lparen
  else if c = byte ')' then some .rparen
  else if c = byte '[' then some .lbracket
  else if c = byte ']' then some .rbracket
  else if c = byte '\x7b' then some .lbrace
  else if c = byte '\x7d' then some .rbrace
  else if c = byte ':' then some .colon
  else if c = byte ',' then some .comma
  else if c = byte '=' then some .eq
  else if c = byte '~' then some .tilde
  else if c = byte '*' then some .star
  else none

/-- The token of two bytes if the second one follows, and another one otherwise. -/
def Lexer.follows (lexer : Lexer) (second : Char) (two : Token) (otherwise : Token × Lexer) :
    Token × Lexer :=
  match lexer.rest with
  | [] => otherwise
  | d :: rest => if d = byte second then (two, ⟨rest, lexer.pos + 1⟩) else otherwise

section Library

variable (parseF64 : String → Option UInt64) (debug : DebugText)

/-- Read a number; one that cannot be parsed is zero. -/
def readNumber (first : UInt8) (lexer : Lexer) : Token × Lexer :=
  let ((s, isFloat), after) := readDigits lexer.rest lexer.pos [first] false
  if isFloat then (.float ((parseF64 (asciiText s)).getD 0), after)
  else (.int ((parseInt s).getD 0), after)

/-- The token that starts with a byte, and what is left behind it. -/
def readToken (pos : Nat) (c : UInt8) (lexer : Lexer) : Except CypherError (Token × Lexer) :=
  match mark c with
  | some token => .ok (token, lexer)
  | none =>
    if c = byte '-' then .ok (lexer.follows '>' .arrow (.dash, lexer))
    else if c = byte '<' then
      .ok (lexer.follows '-' .leftArrow (lexer.follows '=' .lte (lexer.follows '>' .ne (.lt, lexer))))
    else if c = byte '>' then .ok (lexer.follows '=' .gte (.gt, lexer))
    else if c = byte '.' then .ok (lexer.follows '.' .dotDot (.dot, lexer))
    else if c = byte '\x22' ∨ c = byte '\x27' then readString c lexer.pos lexer.rest lexer.pos []
    else if isDigit c then .ok (readNumber parseF64 c lexer)
    else if c = byte '$' then
      let (s, after) := readName lexer.rest lexer.pos []
      if s = [] then .error ⟨lexer.pos, "expected identifier after '$'"⟩
      else .ok (.param (asciiText s), after)
    else if c = byte '\x60' then do
      let (s, after) ← readQuoted pos lexer.rest lexer.pos []
      match fromUtf8 s with
      | none => .error ⟨pos, "\x60name\x60 is not valid UTF-8"⟩
      | some name =>
        if name = "" then .error ⟨pos, "empty \x60name\x60"⟩ else .ok (.ident name, after)
    else if isAsciiAlphabetic c || c == byte '_' then
      let (s, after) := readName lexer.rest lexer.pos [c]
      let upper := (asciiText s).toUpper
      if upper = "TRUE" then .ok (.ident "true", after)
      else if upper = "FALSE" then .ok (.ident "false", after)
      else .ok (.ident (asciiText s), after)
    else .error ⟨pos, "unexpected character " ++ debug.char (asChar c)⟩

/-- The next token with its position, and what is left behind it; nothing at the end. -/
def nextToken (lexer : Lexer) : Except CypherError (Option ((Nat × Token) × Lexer)) :=
  let lexer := skipWhitespace lexer.rest lexer.pos
  match lexer.rest with
  | [] => .ok none
  | c :: rest => do
    let (token, after) ← readToken parseF64 debug lexer.pos c ⟨rest, lexer.pos + 1⟩
    return some ((lexer.pos, token), after)

/-- The tokens that are left, read in at most some rounds. -/
def tokensFrom : Nat → Lexer → Option (Except CypherError (List (Nat × Token)))
  | 0, _ => none
  | rounds + 1, lexer =>
    match nextToken parseF64 debug lexer with
    | .error problem => some (.error problem)
    | .ok none => some (.ok [])
    | .ok (some (token, after)) =>
      (tokensFrom rounds after).map fun result => result.map (token :: ·)

/-- The tokens of a text, if reading them comes to an end. -/
def tokenize (input : String) : Option (Except CypherError (List (Nat × Token))) :=
  tokensFrom parseF64 debug ((utf8 input).length + 1) ⟨utf8 input, 0⟩

end Library

end Cypher

end Polargraph
