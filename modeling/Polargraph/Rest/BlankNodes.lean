import Polargraph.Rest.Protocol

/-! Blank nodes: the skolem IRIs imports give them, and the labels they are written under. -/

namespace Polargraph

/-- Path segment marking a skolem IRI. -/
def GENID_SEGMENT : String := "/.well-known/genid/"

/-- Scope in which the labels of blank nodes are unique: one import call. -/
structure ImportScope where
  /-- An absolute IRI prefix without `/` at its end. -/
  base : String
  /-- What tells this import from the others. -/
  importId : String

namespace ImportScope

/-- A scope under an identifier the caller gives. -/
def new (base importId : String) : ImportScope := ⟨trimEndMatches '/' base, importId⟩

/-- The skolem IRI of a label, given without its `_:`. -/
def skolemIri (scope : ImportScope) (label : String) : String :=
  scope.base ++ GENID_SEGMENT ++ scope.importId ++ "/" ++ label

/-- The node of a label. -/
def bnodeNodeId (ext : External) (scope : ImportScope) (label : String) : NodeId :=
  NodeId.fromIri ext (scope.skolemIri label)

end ImportScope

/-- Split a skolem IRI into the import's identifier and the label. -/
def parseSkolemIri (iri : String) : Option (String × String) := do
  let (_, rest) ← splitOnce GENID_SEGMENT iri
  let (importId, label) ← splitOnce "/" rest
  if importId ≠ "" ∧ label ≠ "" then some (importId, label) else none

/-- Whether a character is kept in the label of a blank node. -/
def keptInLabel (char : Char) : Bool := char.isAlphanum || char == '-'

/-- A character as the label of a blank node has it. -/
def labelChar (char : Char) : Char := if keptInLabel char then char else '_'

/-- The label of a blank node for a skolem IRI. -/
def deskolemizedLabel (iri : String) : Option String :=
  (parseSkolemIri iri).map fun (importId, label) =>
    String.ofList ((importId ++ "_" ++ label).toList.map labelChar)

/-- The bytes the identifier of an import may have. -/
def importIdByte (byte : UInt8) : Bool :=
  (48 ≤ byte && byte ≤ 57) || (65 ≤ byte && byte ≤ 90) || (97 ≤ byte && byte ≤ 122) ||
    byte == 45 || byte == 95 || byte == 46 || byte == 126

/-- Whether an identifier can be a path segment of the skolem IRIs of an import. -/
def validImportId (id : String) : Bool :=
  !(utf8 id).isEmpty && decide ((utf8 id).length ≤ 128) && (utf8 id).all importIdByte

/-- The blank-node label of a node, when labels are wanted and its IRI is a skolem IRI. -/
def IriNames.bnodeLabel (names : IriNames) (deskolemize : Bool) (node : NodeId) : Option String :=
  if deskolemize then (names.reverse.lookup node).bind deskolemizedLabel else none

/-- A node as a term of N-Triples and Turtle. -/
def IriNames.term (names : IriNames) (deskolemize : Bool) (node : NodeId) : String :=
  match names.bnodeLabel deskolemize node with
  | some label => "_:" ++ label
  | none => "<" ++ names.iri node ++ ">"

end Polargraph
