import Polargraph.Rest.SparqlValue
import Polargraph.Storage.ValueJson

/-! Import of triples: terms of N-Triples and Turtle, and JSON-LD documents. -/

namespace Polargraph

/-- A literal as the parser hands it over. -/
inductive RioLiteral where
  /-- A plain string. -/
  | simple (value : String)
  /-- A language-tagged string. -/
  | languageTaggedString (value language : String)
  /-- A literal with a datatype. -/
  | typed (value datatype : String)
deriving DecidableEq

/-- The value of a parsed literal, and its datatype. -/
def rioLiteralToImported (parseF64 : String → Option UInt64) : RioLiteral → Value × String
  | .simple value => (.text value, XSD ++ "string")
  | .languageTaggedString value language =>
    (literalToValue parseF64 value none (some language), "lang:" ++ language)
  | .typed value datatype => (literalToValue parseF64 value (some datatype) none, datatype)

/-- The object of an imported triple. -/
inductive ImportedObject where
  /-- An IRI. -/
  | iri (iri : String)
  /-- A blank node, by its label. -/
  | blankNode (label : String)
  /-- A literal: its value and its datatype. -/
  | literal (value : Value) (datatype : String)
deriving DecidableEq

/-- A parsed triple. -/
structure ImportedTriple where
  /-- The IRI or the label of the subject. -/
  subject : String
  /-- Whether the subject is a blank node. -/
  subjectIsBnode : Bool
  /-- The IRI of the predicate. -/
  predicate : String
  /-- The object. -/
  object : ImportedObject
  /-- The named graph, none for the default graph. -/
  graph : Option String
deriving DecidableEq

/-- A subject as the parser hands it over. -/
inductive RioSubject where
  /-- An IRI. -/
  | namedNode (iri : String)
  /-- A blank node, by its label. -/
  | blankNode (id : String)
  /-- A quoted triple, its parts as they are displayed. -/
  | triple (subject predicate object : String)

/-- An object as the parser hands it over. -/
inductive RioTerm where
  /-- An IRI. -/
  | namedNode (iri : String)
  /-- A blank node, by its label. -/
  | blankNode (id : String)
  /-- A literal. -/
  | literal (lit : RioLiteral)
  /-- A quoted triple, its parts as they are displayed. -/
  | triple (subject predicate object : String)

/-- A triple as the parser hands it over. -/
structure RioTriple where
  /-- The subject. -/
  subject : RioSubject
  /-- The IRI of the predicate. -/
  predicate : String
  /-- The object. -/
  object : RioTerm

/-- The text of a quoted triple, given its displayed parts. -/
def quotedTriple (subject predicate object : String) : String :=
  "<< " ++ subject ++ " " ++ predicate ++ " " ++ object ++ " >>"

/-- The text of a subject, and whether it is a blank node. -/
def rioSubjectToParts : RioSubject → String × Bool
  | .namedNode iri => (iri, false)
  | .blankNode id => (id, true)
  | .triple s p o => (quotedTriple s p o, false)

/-- The object of a parsed triple. -/
def rioObjectToImported (parseF64 : String → Option UInt64) : RioTerm → ImportedObject
  | .namedNode iri => .iri iri
  | .blankNode id => .blankNode id
  | .literal lit =>
    let (value, datatype) := rioLiteralToImported parseF64 lit
    .literal value datatype
  | .triple s p o => .iri (quotedTriple s p o)

/-- A triple of the default graph, as it is imported. -/
def collectTriple (parseF64 : String → Option UInt64) (t : RioTriple) : ImportedTriple :=
  let (subject, subjectIsBnode) := rioSubjectToParts t.subject
  ⟨subject, subjectIsBnode, t.predicate, rioObjectToImported parseF64 t.object, none⟩

/-- The triples of a Turtle document, given the parser of its bytes. -/
def parseTurtle (parseF64 : String → Option UInt64)
    (rio : Bytes → Except String (List RioTriple)) (input : Bytes) :
    Except String (List ImportedTriple) := do
  let triples ← (rio input).mapError (fun e => "Turtle parse error: " ++ e)
  return triples.map (collectTriple parseF64)

/-- A datatype with the shortened start of its IRI written out. -/
def expandXsdPrefix (dt : String) : String :=
  match strippedPrefix "xsd:" dt with
  | some name => XSD ++ name
  | none => match strippedPrefix "rdfs:" dt with
    | some name => "http://www.w3.org/2000/01/rdf-schema#" ++ name
    | none => dt

section JsonLd

variable (parseF64 : String → Option UInt64) (serde : SerdeJson)

/-- The object of an item of a predicate, nothing for an item that is skipped. -/
def jsonldObject (item : Json) : Option ImportedObject :=
  match (item.field "@id").bind Json.asString with
  | some id => match strippedPrefix "_:" id with
    | some label => some (.blankNode label)
    | none => some (.iri id)
  | none => match item.field "@value" with
    | some raw =>
      let typeStr := ((item.field "@type").bind Json.asString).getD "xsd:string"
      let fullDt := expandXsdPrefix typeStr
      let lang := (item.field "@language").bind Json.asString
      let lexical := raw.asString.getD ((fromUtf8 (serde.toVec raw)).getD "")
      some (.literal (literalToValue parseF64 lexical (some fullDt) lang) fullDt)
    | none => match item with
      | .string text => some (.literal (.text text) (XSD ++ "string"))
      | .int word => some (.literal (.int word) (XSD ++ "integer"))
      | .float bits => some (.literal (.float bits) (XSD ++ "double"))
      | .bool truth => some (.literal (.bool truth) (XSD ++ "boolean"))
      | _ => none

/-- The items of a predicate: those of a list, or the only one. -/
def Json.items : Json → List Json
  | .array items => items
  | item => [item]

/-- The triples of a node, none for a node without an identifier. -/
def jsonldNode (node : Json) : List ImportedTriple :=
  match node with
  | .object fields => match (fields.lookup "@id").bind Json.asString with
    | none => []
    | some id =>
      let (subject, subjectIsBnode) := match strippedPrefix "_:" id with
        | some label => (label, true)
        | none => (id, false)
      fields.flatMap fun (key, val) =>
        if (strippedPrefix "@" key).isSome then []
        else val.items.filterMap fun item =>
          (jsonldObject parseF64 serde item).map fun object =>
            ⟨subject, subjectIsBnode, key, object, none⟩
  | _ => []

/-- The triples of a JSON-LD document, given as the bytes of its text. -/
def parseJsonld (input : Bytes) : Except String (List ImportedTriple) := do
  let doc ← (serde.fromSlice input).mapError (fun e => "JSON parse error: " ++ e)
  match doc.field "@graph" with
  | none => .error "JSON-LD document missing @graph"
  | some (.array graph) => return graph.flatMap (jsonldNode parseF64 serde)
  | some _ => .error "@graph must be an array"

end JsonLd

end Polargraph
