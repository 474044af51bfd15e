import Mathlib.Data.String.Basic
import Polargraph.Rest.SparqlValue

/-! The vocabulary with its declared prefixes: changing it, and IRIs in their shortest form. -/

namespace Polargraph

/-- Base IRI and prefix map. -/
structure PrefixedVocabulary where
  /-- The base IRI. -/
  base : Vocabulary
  /-- Prefix name to namespace IRI. -/
  prefixes : SortedMap String String

/-- A text that may be a base or a namespace: not empty, with a `:` and without white space. -/
def AbsoluteIri (iri : String) : Prop :=
  iri ≠ "" ∧ ':' ∈ iri.toList ∧ ∀ char ∈ iri.toList, isWhiteSpace char = false

instance (iri : String) : Decidable (AbsoluteIri iri) :=
  decidable_of_iff (iri ≠ "" ∧ ':' ∈ iri.toList ∧
    (iri.toList.all fun char => !isWhiteSpace char) = true) (by simp [AbsoluteIri])

/-- URI schemes that are not usable as prefix names. -/
def URI_SCHEMES : List String := ["http", "https", "urn", "file", "mailto", "tag"]

section Debug

variable (debug : String → String)

/-- Refuse a text that is no absolute IRI. -/
def validateIri (what iri : String) : Except StorageError (PLift (AbsoluteIri iri)) :=
  if valid : AbsoluteIri iri then .ok ⟨valid⟩
  else .error (.validation (what ++ " must be an absolute IRI, got " ++ debug iri))

/-- Whether a name starts with a letter and has only letters, digits, `_` and `-`. -/
def prefixName (name : String) : Bool :=
  match name.toList with
  | [] => false
  | first :: rest => first.isAlpha && rest.all fun c => c.isAlphanum || c == '_' || c == '-'

/-- Refuse a text that is no usable prefix name. -/
def validatePrefix (name : String) : Except StorageError Unit :=
  if prefixName name = false then
    .error (.validation
      ("prefix names start with a letter and use letters, digits, _ or -: " ++ debug name))
  -- A prefix named like a URI scheme would rewrite full IRIs.
  else if URI_SCHEMES.contains name then
    .error (.validation (debug name ++ " is a URI scheme, not a usable prefix name"))
  else .ok ()

end Debug

namespace PrefixedVocabulary

/-- The vocabulary a new store starts with. -/
def default : PrefixedVocabulary := ⟨Vocabulary.default, SortedMap.empty⟩

section Debug

variable (debug : String → String)

/-- Set the base IRI for bare names. -/
def setVocabularyBase (vocabulary : PrefixedVocabulary) (base : String) :
    Except StorageError PrefixedVocabulary := do
  let valid ← validateIri debug "vocabulary base" base
  return { vocabulary with base := ⟨base, valid.down.2.1⟩ }

/-- Declare or re-point a prefix. -/
def putPrefix (vocabulary : PrefixedVocabulary) (name ns : String) :
    Except StorageError PrefixedVocabulary := do
  validatePrefix debug name
  let _ ← validateIri debug "prefix namespace" ns
  return { vocabulary with prefixes := vocabulary.prefixes.insert name ns }

end Debug

/-- Remove a prefix. -/
def removePrefix (vocabulary : PrefixedVocabulary) (name : String) : PrefixedVocabulary :=
  { vocabulary with prefixes := vocabulary.prefixes.erase name }

/-- A name as an IRI. -/
def expand (vocabulary : PrefixedVocabulary) (name : String) : String :=
  vocabulary.base.expand vocabulary.prefixes.find? name

/-- The last entry whose namespace is longest, among those that an IRI extends. -/
def best (vocabulary : PrefixedVocabulary) (iri : String) : Option (String × String) :=
  match vocabulary.prefixes.entries.filter (fun entry =>
    entry.2.toList.isPrefixOf iri.toList && decide (entry.2.utf8ByteSize < iri.utf8ByteSize)) with
  | [] => none
  | first :: rest => some (rest.foldl (fun best entry =>
      if entry.2.utf8ByteSize < best.2.utf8ByteSize then best else entry) first)

/-- An IRI under the longest namespace of a prefix, else unchanged. -/
def compactPrefix (vocabulary : PrefixedVocabulary) (iri : String) : String :=
  match vocabulary.best iri with
  | some (name, ns) => name ++ ":" ++ String.ofList (iri.toList.drop ns.length)
  | none => iri

/-- An IRI in its shortest form. -/
def compact (vocabulary : PrefixedVocabulary) (iri : String) : String :=
  match strippedPrefix vocabulary.base.base iri with
  | some rest =>
    if rest ≠ "" ∧ ':' ∉ rest.toList ∧ '/' ∉ rest.toList then rest
    else vocabulary.compactPrefix iri
  | none => vocabulary.compactPrefix iri

end PrefixedVocabulary

end Polargraph
