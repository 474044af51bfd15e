import Polargraph.Storage.Codec

/-! The JSON form of property values, and the writer and reader of JSON text. -/

namespace Polargraph

/-- A JSON document, with the numbers that the writer and the reader tell apart. -/
inductive Json where
  /-- The absent value. -/
  | null
  /-- A truth value. -/
  | bool (truth : Bool)
  /-- A signed 64-bit number, as its word. -/
  | int (word : UInt64)
  /-- A double, as its bits. -/
  | float (bits : UInt64)
  /-- A string. -/
  | string (text : String)
  /-- A list. -/
  | array (items : List Json)
  /-- Named fields. -/
  | object (fields : List (String × Json))

/-- Whether a double is neither infinite nor not-a-number. -/
def Value.isFinite (bits : UInt64) : Bool :=
  decide (bits &&& 0x7ff0000000000000 ≠ 0x7ff0000000000000)

namespace Json

mutual

/-- The document a reader finds in a text: a double that is not finite was written as null. -/
def written : Json → Json
  | float bits => if Value.isFinite bits then float bits else null
  | array items => array (writtenItems items)
  | object fields => object (writtenFields fields)
  | other => other

/-- The items of a list as a reader finds them. -/
def writtenItems : List Json → List Json
  | [] => []
  | item :: rest => written item :: writtenItems rest

/-- The fields of an object as a reader finds them. -/
def writtenFields : List (String × Json) → List (String × Json)
  | [] => []
  | (name, item) :: rest => (name, written item) :: writtenFields rest

end

/-- The content of a string. -/
def asString : Json → Option String
  | string text => some text
  | _ => none

/-- A byte of a list of bytes. -/
def asByte : Json → Option UInt8
  | int word => if word.toNat < 256 then some (UInt8.ofNat word.toNat) else none
  | _ => none

/-- A field of an object. -/
def field (name : String) : Json → Option Json
  | object fields => fields.lookup name
  | _ => none

end Json

/-- The text writer and reader of JSON, and what the reader says of a document it cannot use. -/
structure SerdeJson where
  /-- Write a document. -/
  toVec : Json → Bytes
  /-- Read a text, or report why it is no document. -/
  fromSlice : Bytes → Except String Json
  /-- The report on a document of another shape. -/
  refusal : Json → String
  /-- The double of a whole number. -/
  floatOfInt : UInt64 → UInt64

namespace Value

/-- A value under the name of its variant. -/
def tagged (variant : String) (content : Json) : Json :=
  .object [("type", .string variant), ("v", content)]

/-- The JSON document of a value; vectors have a binary encoding instead. -/
def toJson : Value → Option Json
  | null => some (.object [("type", .string "Null")])
  | bool truth => some (tagged "Bool" (.bool truth))
  | int word => some (tagged "Int" (.int word))
  | float bits => some (tagged "Float" (.float bits))
  | text content => some (tagged "Text" (.string content))
  | blob bytes =>
    some (tagged "Blob" (.array (bytes.map fun byte => .int (UInt64.ofNat byte.toNat))))
  | vector _ => none
  | langText content lang =>
    some (tagged "LangText" (.object [("text", .string content), ("lang", .string lang)]))
  | typed lexical datatype =>
    some (tagged "Typed" (.object [("lexical", .string lexical), ("datatype", .string datatype)]))

/-- The value of a document: the variant that the type names, made from the content. -/
def fromJson (serde : SerdeJson) (document : Json) : Option Value := do
  let variant ← (← document.field "type").asString
  match variant, document.field "v" with
  | "Null", none => some null
  | "Null", some .null => some null
  | "Bool", some (.bool truth) => some (bool truth)
  | "Int", some (.int word) => some (int word)
  | "Float", some (.float bits) => some (float bits)
  | "Float", some (.int word) => some (float (serde.floatOfInt word))
  | "Text", some (.string content) => some (text content)
  | "Blob", some (.array items) => (items.mapM Json.asByte).map blob
  | "LangText", some content => do
    return langText (← (← content.field "text").asString) (← (← content.field "lang").asString)
  | "Typed", some content => do
    return typed (← (← content.field "lexical").asString)
      (← (← content.field "datatype").asString)
  | _, _ => none

end Value

/-- The third-party code of a store that writes values as JSON documents. -/
def External.withJson (ext : External) (serde : SerdeJson) : External :=
  { ext with
    jsonToVec := fun value => match value.toJson with
      | some document => .ok (serde.toVec document)
      | none => .error "vectors are not written as JSON"
    jsonFromSlice := fun bytes => do
      let document ← serde.fromSlice bytes
      match Value.fromJson serde document with
      | some value => return value
      | none => .error (serde.refusal document) }

end Polargraph
