import Polargraph.Query.Aggregation

/-! Values of SPARQL results: their conversion, their comparison and their identity as terms. -/

namespace Polargraph

/-- A value a variable of a result is bound to. -/
inductive SparqlValue where
  /-- A node. -/
  | uri (node : NodeId)
  /-- An IRI known by its text, the same term as its node. -/
  | iri (iri : String)
  /-- A plain string. -/
  | literal (text : String)
  /-- A signed 64-bit number, as its word. -/
  | literalInt (word : UInt64)
  /-- A double, as its bits. -/
  | literalFloat (bits : UInt64)
  /-- A truth value. -/
  | literalBool (truth : Bool)
  /-- A language-tagged string. -/
  | langLiteral (text lang : String)
  /-- A literal of any other datatype. -/
  | typedLiteral (lexical datatype : String)
deriving DecidableEq

/-- One row of a result: the values of its variables, each variable once. -/
abbrev SparqlBindings := List (String × SparqlValue)

/-- Bind a variable, in place of what it was bound to. -/
def SparqlBindings.insert (row : SparqlBindings) (var : String) (value : SparqlValue) :
    SparqlBindings :=
  (var, value) :: row.filter (fun bound => decide (bound.1 ≠ var))

/-- What the standard library and the regular expressions do with texts and doubles. -/
structure TextLibrary where
  /-- Read a double from its decimal form. -/
  parseF64 : String → Option UInt64
  /-- Write a double in decimal. -/
  displayF64 : UInt64 → String
  /-- Match a text against a pattern under some flags, nothing for an invalid pattern or flag. -/
  regexMatch : String → String → String → Option Bool

/-- Whether a character is white space. -/
def isWhiteSpace (char : Char) : Bool :=
  let code := char.toNat
  (9 ≤ code && code ≤ 13) || (0x2000 ≤ code && code ≤ 0x200a) ||
    [0x20, 0x85, 0xa0, 0x1680, 0x2028, 0x2029, 0x202f, 0x205f, 0x3000].contains code

/-- A text without the white space at its ends. -/
def trimmed (text : String) : String :=
  String.ofList ((text.toList.dropWhile isWhiteSpace).reverse.dropWhile isWhiteSpace).reverse

/-- What follows a start in a text, nothing when the text starts otherwise. -/
def strippedPrefix (start text : String) : Option String :=
  if start.toList.isPrefixOf text.toList then some (String.ofList (text.toList.drop start.length))
  else none

/-- A byte as two upper-case hexadecimal digits. -/
def upperHexByte (byte : UInt8) : String := (Uuid.hexByte byte).toUpper

/-- The datatype of raw bytes. -/
def XSD_HEX_BINARY : String := XSD ++ "hexBinary"

namespace SparqlValue

/-- A stored value as a value of a result; nothing for vectors and the absent value. -/
def fromValue : Value → Option SparqlValue
  | .null | .vector _ => none
  | .bool truth => some (.literalBool truth)
  | .int word => some (.literalInt word)
  | .float bits => some (.literalFloat bits)
  | .text text => some (.literal text)
  | .blob bytes => some (.typedLiteral (String.join (bytes.map upperHexByte)) XSD_HEX_BINARY)
  | .langText text lang => some (.langLiteral text lang)
  | .typed lexical datatype => some (.typedLiteral lexical datatype)

/-- The value of a hexadecimal digit. -/
def hexDigit (digit : UInt8) : Option UInt8 :=
  if 48 ≤ digit ∧ digit ≤ 57 then some (digit - 48)
  else if 97 ≤ digit ∧ digit ≤ 102 then some (digit - 87)
  else if 65 ≤ digit ∧ digit ≤ 70 then some (digit - 55)
  else none

/-- The byte of a text of two bytes in base sixteen. -/
def byteFromStrRadix (first second : UInt8) : Option UInt8 :=
  -- The standard library takes a sign in front of a number.
  if first = 43 then hexDigit second
  else do return 16 * (← hexDigit first) + (← hexDigit second)

/-- The bytes that hexadecimal digits spell, two digits a byte. -/
def decodeHex : Bytes → Option Bytes
  | [] => some []
  | [_] => none
  -- A slice that cuts a letter holds a byte that is no digit, so it fails like the source's.
  | first :: second :: rest => do
    let byte ← byteFromStrRadix first second
    let bytes ← decodeHex rest
    return byte :: bytes

/-- The stored form of a literal, nothing for an IRI. -/
def toValue : SparqlValue → Option Value
  | .uri _ | .iri _ => none
  | .literal text => some (.text text)
  | .literalInt word => some (.int word)
  | .literalFloat bits => some (.float bits)
  | .literalBool truth => some (.bool truth)
  | .langLiteral text lang => some (.langText text lang)
  | .typedLiteral lexical datatype =>
    if datatype = XSD_HEX_BINARY then
      match decodeHex (utf8 lexical) with
      | some bytes => some (.blob bytes)
      | none => some (.typed lexical datatype)
    else some (.typed lexical datatype)

/-- Whether a value is an IRI. -/
def isIri : SparqlValue → Bool
  | .uri _ | .iri _ => true
  | _ => false

/-- A number of a literal. -/
inductive Num where
  /-- A signed 64-bit number, as its word. -/
  | int (word : UInt64)
  /-- A double, as its bits. -/
  | dbl (bits : UInt64)

/-- A number as a double. -/
def Num.asF64 (arith : FloatArithmetic) : Num → UInt64
  | int word => arith.ofInt word
  | dbl bits => bits

/-- Compare numbers, integers exactly; nothing when one is not a number. -/
def Num.cmp (arith : FloatArithmetic) : Num → Num → Option Ordering
  | int left, int right => some (compare (Value.signed left) (Value.signed right))
  | left, right => Value.compareFloats (left.asF64 arith) (right.asF64 arith)

/-- The local names of the integer datatypes. -/
def XSD_INTEGERS : List String :=
  ["integer", "long", "int", "short", "byte", "nonNegativeInteger", "positiveInteger",
    "nonPositiveInteger", "negativeInteger", "unsignedLong", "unsignedInt", "unsignedShort",
    "unsignedByte"]

/-- Whether the lexical forms of a datatype order like its values. -/
def isTemporal (datatype : String) : Bool :=
  match strippedPrefix XSD datatype with
  | some name => ["date", "dateTime", "time", "gYear", "gYearMonth"].contains name
  | none => false

section Library

variable (ext : External) (arith : FloatArithmetic) (lib : TextLibrary)

/-- The lexical form of a literal. -/
def lexical : SparqlValue → Option String
  | .uri _ | .iri _ => none
  | .literal text => some text
  | .literalInt word => some (toString (Value.signed word))
  | .literalFloat bits => some (lib.displayF64 bits)
  | .literalBool truth => some (toString truth)
  | .langLiteral text _ => some text
  | .typedLiteral lexical _ => some lexical

/-- The number of a numeric literal. -/
def numeric : SparqlValue → Option Num
  | .literalInt word => some (.int word)
  | .literalFloat bits => some (.dbl bits)
  | .typedLiteral lexical datatype =>
    (strippedPrefix XSD datatype).bind fun name =>
      if XSD_INTEGERS.contains name then (parseI64 (trimmed lexical)).map .int
      else if ["decimal", "double", "float"].contains name then
        (lib.parseF64 (trimmed lexical)).map .dbl
      else none
  | _ => none

/-- The node an IRI names. -/
def nodeOf : SparqlValue → Option NodeId
  | .uri node => some node
  | .iri name => some (iriToNodeId ext name)
  | _ => none

/-- The identity of a term: language tags are compared without case. -/
def termKey : SparqlValue → String
  | .uri node => "U" ++ node.uuid.display
  | .iri name => "U" ++ (iriToNodeId ext name).uuid.display
  | .literal text => "S" ++ text
  | .literalInt word => "I" ++ toString (Value.signed word)
  | .literalFloat bits => "D" ++ toString bits.toNat
  | .literalBool truth => "B" ++ toString truth
  | .langLiteral text lang => "L" ++ lang.toLower ++ "\x00" ++ text
  | .typedLiteral lexical datatype => "T" ++ datatype ++ "\x00" ++ lexical

/-- Equality of values, nothing for values that do not compare. -/
def sparqlEq (left right : SparqlValue) : Option Bool :=
  match left.numeric lib, right.numeric lib with
  | some x, some y => (x.cmp arith y).map (fun order => decide (order = .eq))
  | _, _ =>
    match left.nodeOf ext, right.nodeOf ext with
    | some x, some y => some (decide (x = y))
    | some _, none | none, some _ => some false
    | none, none =>
      let sameTerm := if left.termKey ext = right.termKey ext then some true else none
      match left, right with
      | .literal x, .literal y => some (decide (x = y))
      | .literalBool x, .literalBool y => some (decide (x = y))
      | .langLiteral x first, .langLiteral y second =>
        some (decide (x = y) && decide (first.toLower = second.toLower))
      | .typedLiteral x first, .typedLiteral y second =>
        if first = second then some (decide (x = y)) else sameTerm
      | _, _ => sameTerm

/-- The order of values, nothing for values that do not compare. -/
def sparqlCmp (left right : SparqlValue) : Option Ordering :=
  match left.numeric lib, right.numeric lib with
  | some x, some y => x.cmp arith y
  | _, _ =>
    match left, right with
    | .literal x, .literal y => some (Value.compareTexts x y)
    | .literalBool x, .literalBool y => some (compare x.toNat y.toNat)
    | .typedLiteral x first, .typedLiteral y second =>
      if first = second && isTemporal first then some (Value.compareTexts x y) else none
    | _, _ => none

end Library

end SparqlValue

/-- The IRIs the nodes of a result are shown under. -/
abbrev IriNames := List (NodeId × String)

/-- The IRI of a node that has no name. -/
def fallbackIri (node : NodeId) : String := "urn:uuid:" ++ node.uuid.display

/-- The IRI a node is shown under. -/
def IriNames.iri (names : IriNames) (node : NodeId) : String :=
  -- The latest name given to a node is the one kept.
  (names.reverse.lookup node).getD (fallbackIri node)

namespace SparqlValue

/-- The text of an IRI. -/
def iriText (names : IriNames) : SparqlValue → String
  | .uri node => names.iri node
  | .iri name => name
  | _ => ""

section Library

variable (ext : External) (arith : FloatArithmetic) (lib : TextLibrary)

/-- The place of the kinds of values in the order of results. -/
def rank : Option SparqlValue → Nat
  | none => 0
  | some value =>
    if value.isIri then 1
    else if (value.numeric lib).isSome then 2
    else match value with
      | .literalBool _ => 3
      | .literal _ => 4
      | .langLiteral _ _ => 5
      | _ => 6

/-- The total order of results. -/
def orderCmp (names : IriNames) (left right : Option SparqlValue) : Ordering :=
  (compare (rank lib left) (rank lib right)).then <|
    match left, right with
    | some left, some right =>
      let numbers := match left.numeric lib, right.numeric lib with
        | some x, some y => (x.cmp arith y).getD .eq
        | _, _ => .eq
      let within := match left, right with
        | .uri _, _ | .iri _, _ => Value.compareTexts (left.iriText names) (right.iriText names)
        | .literalBool x, .literalBool y => compare x.toNat y.toNat
        | .literal x, .literal y => Value.compareTexts x y
        | .langLiteral x first, .langLiteral y second =>
          (Value.compareTexts x y).then (Value.compareTexts first.toLower second.toLower)
        | .typedLiteral x first, .typedLiteral y second =>
          if (left.numeric lib).isNone then
            (Value.compareTexts first second).then (Value.compareTexts x y)
          else numbers
        | _, _ => numbers
      within.then (Value.compareTexts (left.termKey ext) (right.termKey ext))
    | _, _ => .eq

end Library

end SparqlValue

end Polargraph
