import Mathlib.Data.List.Basic

/-! Turtle documents: how they are written, and the triples they stand for. -/

namespace Turtle

/-- A directive that lets a document shorten the IRIs of a namespace. -/
structure Directive where
  /-- What stands before the colon of a shortened IRI. -/
  name : String
  /-- What the shortened IRIs start with. -/
  namespace_ : String
  /-- The blanks between the name and the namespace. -/
  blanks : String

/-- A term of a statement. -/
inductive Term where
  /-- An IRI in angle brackets. -/
  | iri (text : String)
  /-- An IRI that a directive shortens. -/
  | short (directive : Directive) (local_ : String)
  /-- The word for the predicate that gives a type. -/
  | a

/-- A statement: a subject, and objects for each of its predicates. -/
structure Statement where
  /-- The subject. -/
  subject : Term
  /-- The predicates, each with its objects. -/
  predicates : List (Term × List Term)

/-- The predicate that gives a type. -/
def TYPE : String := "http://www.w3.org/1999/02/22-rdf-syntax-ns#type"

/-- The IRI that a term stands for. -/
def Term.meaning : Term → String
  | .iri text => text
  | .short directive local_ => directive.namespace_ ++ local_
  | .a => TYPE

/-- The terms of a statement. -/
def Statement.terms (statement : Statement) : List Term :=
  statement.subject :: statement.predicates.flatMap fun predicate => predicate.1 :: predicate.2

/-- A document, which declares what it shortens. -/
structure Document where
  /-- The directives at its start. -/
  directives : List Directive
  /-- The statements, in order. -/
  statements : List Statement
  /-- No name is declared twice. -/
  distinct : (directives.map Directive.name).Nodup
  /-- What the statements shorten is declared. -/
  declared : ∀ statement ∈ statements, ∀ directive local_,
    Term.short directive local_ ∈ statement.terms → directive ∈ directives

/-- A directive as it is written. -/
def Directive.write (directive : Directive) : String :=
  "@prefix " ++ directive.name ++ ":" ++ directive.blanks ++ "<" ++ directive.namespace_ ++ "> .\n"

/-- A term as it is written. -/
def Term.write : Term → String
  | .iri text => "<" ++ text ++ ">"
  | .short directive local_ => directive.name ++ ":" ++ local_
  | .a => "a"

/-- A predicate and its objects as they are written. -/
def writePredicate (predicate : Term × List Term) : String :=
  predicate.1.write ++ " " ++ ", ".intercalate (predicate.2.map Term.write)

/-- A statement as it is written, each predicate after the first on a line of its own. -/
def Statement.write (statement : Statement) : String :=
  statement.subject.write ++ " " ++ " ;\n    ".intercalate (statement.predicates.map writePredicate) ++
    " .\n"

/-- A document as it is written: directives, an empty line, statements. -/
def Document.write (document : Document) : String :=
  String.join (document.directives.map Directive.write) ++ "\n" ++
    String.join (document.statements.map Statement.write)

/-- The triples that a statement stands for. -/
def Statement.triples (statement : Statement) : List (String × String × String) :=
  statement.predicates.flatMap fun predicate => predicate.2.map fun object =>
    (statement.subject.meaning, predicate.1.meaning, object.meaning)

/-- The triples that a document stands for, in the order in which they are written. -/
def Document.triples (document : Document) : List (String × String × String) :=
  document.statements.flatMap Statement.triples

end Turtle
