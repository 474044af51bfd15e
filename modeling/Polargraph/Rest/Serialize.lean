import Mathlib.Data.String.Basic
import Polargraph.Rest.SparqlValue
import Polargraph.Storage.ValueJson

/-! Export of triples: values as N-Triples literals, and triples as a JSON-LD document. -/

namespace Polargraph

/-- A text with every copy of a character replaced. -/
def replaceChar (char : Char) (replacement text : String) : String :=
  String.ofList (text.toList.flatMap fun c => if c = char then replacement.toList else [c])

/-- A text as it is written between the quotes of a literal. -/
def ntEscape (text : String) : String :=
  let text := replaceChar '\\' "\\\\" text
  let text := replaceChar '"' "\\\"" text
  let text := replaceChar '\n' "\\n" text
  let text := replaceChar '\r' "\\r" text
  replaceChar '\t' "\\t" text

/-- A literal with a datatype. -/
def typedNtLiteral (quoted datatype : String) : String := "\"" ++ quoted ++ "\"^^<" ++ datatype ++ ">"

/-- A value as a literal, given how doubles and single-precision floats are written. -/
def valueToNtLiteral (displayF64 : UInt64 → String) (displayF32 : UInt32 → String) :
    Value → String
  | .text text => typedNtLiteral (ntEscape text) (XSD ++ "string")
  | .int word => typedNtLiteral (toString (Value.signed word)) (XSD ++ "integer")
  | .float bits => typedNtLiteral (displayF64 bits) (XSD ++ "double")
  | .bool truth => typedNtLiteral (toString truth) (XSD ++ "boolean")
  | .blob bytes => typedNtLiteral (String.join (bytes.map Uuid.hexByte)) XSD_HEX_BINARY
  | .vector floats =>
    typedNtLiteral ("[" ++ ",".intercalate (floats.map displayF32) ++ "]") (XSD ++ "string")
  | .null => typedNtLiteral "" (XSD ++ "string")
  | .langText text lang => "\"" ++ ntEscape text ++ "\"@" ++ lang
  | .typed lexical datatype => typedNtLiteral (ntEscape lexical) datatype

/-- A triple that is ready to be written: each part is rendered. -/
structure RdfTriple where
  /-- An IRI in angle brackets, or a blank node. -/
  subject : String
  /-- An IRI in angle brackets. -/
  predicate : String
  /-- An IRI in angle brackets, a blank node or a literal. -/
  object : String

/-- A text without the angle brackets around it. -/
def stripBrackets (text : String) : String :=
  match text.toList with
  | '<' :: rest => if rest.getLast? = some '>' then String.ofList rest.dropLast else text
  | _ => text

/-- A text without the copies of a character at its end. -/
def trimEndMatches (char : Char) (text : String) : String :=
  String.ofList (text.toList.reverse.dropWhile (fun c => decide (c = char))).reverse

/-- The native form in JSON of a literal of a datatype, if it has one. -/
def coerceXsdValue (parseF64 : String → Option UInt64) (lexical datatype : String) : Json :=
  if ["integer", "long", "int", "short", "byte"].contains ((strippedPrefix XSD datatype).getD "") then
    match parseI64 lexical with
    | some word => .int word
    | none => .string lexical
  else if ["double", "float", "decimal"].contains ((strippedPrefix XSD datatype).getD "") then
    match parseF64 lexical with
    | some bits => if Value.isFinite bits then .float bits else .string lexical
    | none => .string lexical
  else if datatype = XSD ++ "boolean" then
    if lexical = "true" ∨ lexical = "1" then .bool true
    else if lexical = "false" ∨ lexical = "0" then .bool false
    else .string lexical
  else .string lexical

/-- The value and the type of a literal, from its text and from what follows the closing quote. -/
def jsonldLiteral (parseF64 : String → Option UInt64) (lexical after : String) : Json :=
  let (typeStr, coerced) := match strippedPrefix "^^<" after with
    | some dtPart =>
      let dtIri := trimEndMatches '>' dtPart
      let short := match strippedPrefix XSD dtIri with
        | some name => "xsd:" ++ name
        | none => dtIri
      (short, coerceXsdValue parseF64 lexical dtIri)
    | none => match strippedPrefix "@" after with
      | some langPart => ("rdf:langString@" ++ trimmed langPart, .string lexical)
      | none => ("xsd:string", .string lexical)
  .object [("@type", .string typeStr), ("@value", coerced)]

/-- A rendered object in JSON-LD. -/
def ntObjectToJsonld (parseF64 : String → Option UInt64) (obj : String) : Json :=
  if (strippedPrefix "_:" obj).isSome then .object [("@id", .string obj)]
  else if (strippedPrefix "<" obj).isSome then .object [("@id", .string (stripBrackets obj))]
  else match strippedPrefix "\"" obj with
    | some rest =>
      -- The literal ends at the first quote, whether or not a backslash stands before it.
      match rest.toList.dropWhile (fun char => decide (char ≠ '"')) with
      | _ :: after =>
        jsonldLiteral parseF64
          (String.ofList (rest.toList.takeWhile (fun char => decide (char ≠ '"'))))
          (String.ofList after)
      | [] => .string obj
    | none => .string obj

/-- The triples of each subject, the subjects in order. -/
def bySubject (triples : List RdfTriple) : SortedMap String (List (String × String)) :=
  triples.foldl (fun groups t => groups.insert t.subject
    ((groups.find? t.subject).getD [] ++ [(t.predicate, t.object)])) SortedMap.empty

/-- Add an object of a predicate to a node, as a list from the second object on. -/
def addObject (parseF64 : String → Option UInt64) (node : SortedMap String Json)
    (pred : String × String) : SortedMap String Json :=
  let predIri := stripBrackets pred.1
  let value := ntObjectToJsonld parseF64 pred.2
  match node.find? predIri with
  | some (.array items) => node.insert predIri (.array (items ++ [value]))
  | some existing => node.insert predIri (.array [existing, value])
  | none => node.insert predIri value

/-- The node of a subject. -/
def subjectNode (parseF64 : String → Option UInt64) (group : String × List (String × String)) : Json :=
  let start := SortedMap.empty.insert "@id" (.string (stripBrackets group.1))
  .object (group.2.foldl (addObject parseF64) start).entries

/-- The names of vocabularies that a document may shorten. -/
def jsonldContext : Json :=
  .object [("owl", .string "http://www.w3.org/2002/07/owl#"),
    ("rdf", .string "http://www.w3.org/1999/02/22-rdf-syntax-ns#"),
    ("rdfs", .string "http://www.w3.org/2000/01/rdf-schema#"), ("xsd", .string XSD)]

/-- The JSON-LD document of some triples. -/
def jsonldDocument (parseF64 : String → Option UInt64) (triples : List RdfTriple) : Json :=
  .object [("@context", jsonldContext),
    ("@graph", .array ((bySubject triples).entries.map (subjectNode parseF64)))]

/-- The text of the JSON-LD document of some triples, as its bytes. -/
def serializeJsonld (parseF64 : String → Option UInt64) (serde : SerdeJson)
    (triples : List RdfTriple) : Bytes :=
  serde.toVec (jsonldDocument parseF64 triples)

end Polargraph
