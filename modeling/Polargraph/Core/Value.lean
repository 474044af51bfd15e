import Polargraph.Core.Id

/-! Property values, their canonical bytes and their content hash, and RDF literals as values. -/

namespace Polargraph

/-- A typed property value, with floating-point numbers held as their bits. -/
inductive Value where
  /-- The absent value. -/
  | null
  /-- A truth value. -/
  | bool (truth : Bool)
  /-- A signed 64-bit number, as its word. -/
  | int (word : UInt64)
  /-- A double, as its bits. -/
  | float (bits : UInt64)
  /-- A string. -/
  | text (text : String)
  /-- Raw bytes. -/
  | blob (bytes : Bytes)
  /-- A dense vector of single-precision floats, as their bits. -/
  | vector (floats : List UInt32)
  /-- A language-tagged string. -/
  | langText (text lang : String)
  /-- A literal whose datatype has no native variant. -/
  | typed (lexical datatype : String)
deriving DecidableEq

/-- Third-party code the store calls: hashing, identifier parsing and JSON. -/
structure External where
  /-- xxHash3-128 of a byte string. -/
  xxh3_128 : Bytes → Nat
  /-- Parse the text form of an identifier. -/
  parseUuid : String → Option Uuid
  /-- Serialise a value to JSON text, or report why it cannot be. -/
  jsonToVec : Value → Except String Bytes
  /-- Read a value back from JSON text, or report why it cannot be. -/
  jsonFromSlice : Bytes → Except String Value

/-- Third-party code for runs over relations, which never reach it. -/
def External.unreached : External where
  xxh3_128 _ := 0
  parseUuid _ := none
  jsonToVec _ := .error "unreached"
  jsonFromSlice _ := .error "unreached"

/-- The UTF-8 bytes of a string. -/
def utf8 (text : String) : Bytes := text.toUTF8.toList

/-- The string that bytes are the UTF-8 encoding of. -/
def fromUtf8 (bytes : Bytes) : Option String := String.fromUTF8? ⟨bytes.toArray⟩

namespace Value

/-- Whether the bits of a double are those of a not-a-number. -/
def isNan (bits : UInt64) : Bool :=
  decide (0x7ff0000000000000 < (bits &&& 0x7fffffffffffffff))

/-- The bits of a double with every not-a-number and both zeros folded together. -/
def canonicalFloat (bits : UInt64) : UInt64 :=
  if isNan bits then 0x7ff8000000000000
  else if bits &&& 0x7fffffffffffffff = 0 then 0
  else bits

/-- Canonical, stable byte encoding used for the content hash. -/
def canonicalBytes : Value → Bytes
  | null => [0x00]
  | bool truth => [0x01, if truth then 1 else 0]
  | int word => 0x02 :: beBytes 8 word.toNat
  | float bits => 0x03 :: beBytes 8 (canonicalFloat bits).toNat
  | text content => 0x04 :: utf8 content
  | blob bytes => 0x05 :: bytes
  | vector floats => 0x06 :: floats.flatMap (fun bits => leBytes 4 bits.toNat)
  -- Language tags compare case-insensitively.
  | langText content lang => 0x07 :: (utf8 lang.toLower ++ 0x00 :: utf8 content)
  | typed lexical datatype => 0x08 :: (utf8 datatype ++ 0x00 :: utf8 lexical)

/-- The string content of textual values. -/
def asText : Value → Option String
  | text content => some content
  | langText content _ => some content
  | _ => none

end Value

/-- Read an identifier from the little-endian bytes of a 128-bit number. -/
def Uuid.ofLe (number : Nat) : Uuid := ⟨leBytes 16 number, leBytes_length 16 number⟩

variable (ext : External)

/-- 128-bit content hash of a value: the object slot of property keys. -/
def contentHash (value : Value) : Uuid := Uuid.ofLe (ext.xxh3_128 value.canonicalBytes)

/-- The object slot of a property triple: the content hash of its value as a node. -/
def valueObject (value : Value) : NodeId := ⟨contentHash ext value⟩

/-- Deterministic node of an IRI: the hash of its bytes. -/
def NodeId.fromIri (iri : String) : NodeId := ⟨Uuid.ofLe (ext.xxh3_128 (utf8 iri))⟩

/-- Prefix of IRIs that carry a node identifier directly. -/
def UUID_IRI_PREFIX : String := "urn:uuid:"

/-- The node a well-formed `urn:uuid:` IRI carries. -/
def uuidIri (iri : String) : Option NodeId :=
  if UUID_IRI_PREFIX.toList.isPrefixOf iri.toList then
    (ext.parseUuid (String.ofList (iri.toList.drop UUID_IRI_PREFIX.length))).map NodeId.mk
  else none

/-- The node an IRI names. -/
def iriToNodeId (iri : String) : NodeId := (uuidIri ext iri).getD (NodeId.fromIri ext iri)

/-- The edge of a relation between terms, a hash of the three. -/
def edgeIdFor (subject predicate object : String) : EdgeId :=
  ⟨Uuid.ofLe (ext.xxh3_128 (utf8 subject ++ 0 :: utf8 predicate ++ 0 :: utf8 object))⟩

/-- Whether an IRI needs a dictionary entry to be recovered from its node. -/
def needsDictionary (iri : String) : Bool := (uuidIri ext iri).isNone

/-- Start of the datatype IRIs of XML Schema. -/
def XSD : String := "http://www.w3.org/2001/XMLSchema#"

/-- A signed 64-bit number in decimal, with or without a sign. -/
def parseI64 (lexical : String) : Option UInt64 :=
  let (negative, digits) := match lexical.toList with
    | '-' :: rest => (true, rest)
    | '+' :: rest => (false, rest)
    | chars => (false, chars)
  if digits.isEmpty || !digits.all Char.isDigit then none
  else
    let size : Nat := digits.foldl (fun size digit => size * 10 + (digit.toNat - 48)) 0
    let number : Int := if negative then -size else size
    if -2 ^ 63 ≤ number ∧ number < 2 ^ 63 then some (UInt64.ofInt number) else none

/-- The value of a literal; `parseF64` reads the bits of a double from its decimal form. -/
def literalToValue (parseF64 : String → Option UInt64) (lexical : String)
    (datatype lang : Option String) : Value :=
  match lang.filter (fun lang => decide (lang ≠ "")), datatype with
  | some lang, _ => .langText lexical lang
  | none, none => .text lexical
  | none, some datatype =>
    let typed : Value := .typed lexical datatype
    if XSD.toList.isPrefixOf datatype.toList then
      match String.ofList (datatype.toList.drop XSD.length) with
      | "string" => .text lexical
      | "integer" | "long" | "int" | "short" | "byte" | "nonNegativeInteger" | "positiveInteger" =>
        ((parseI64 lexical).map Value.int).getD typed
      | "double" | "float" | "decimal" => ((parseF64 lexical).map Value.float).getD typed
      | "boolean" =>
        if lexical = "true" ∨ lexical = "1" then .bool true
        else if lexical = "false" ∨ lexical = "0" then .bool false
        else typed
      | _ => typed
    else typed

end Polargraph
