import Mathlib.Data.List.TakeWhile
import Polargraph.Proofs.Rest.JsonLd

/-! Which values and which lists of triples survive a JSON-LD export. -/

namespace Polargraph

variable {lib : TextLibrary} {serde : SerdeJson} {displayF32 : UInt32 → String}

/-- The writer of numbers in JSON: whole numbers and truth values as such, doubles to be read back. -/
structure WritesNumbers (lib : TextLibrary) (serde : SerdeJson) : Prop where
  /-- A whole number is written in decimal. -/
  ints : ∀ word, fromUtf8 (serde.toVec (.int word)) = some (toString (Value.signed word))
  /-- A truth value is written by its name. -/
  truths : ∀ truth : Bool, fromUtf8 (serde.toVec (.bool truth)) = some (toString truth)
  /-- A finite double is written in a form it is read back from. -/
  doubles : ∀ bits, Value.isFinite bits → ∃ text,
    fromUtf8 (serde.toVec (.float bits)) = some text ∧ lib.parseF64 text = some bits

/-- The lexical form that a JSON value stands for. -/
def rawLexical (serde : SerdeJson) (raw : Json) : String :=
  raw.asString.getD ((fromUtf8 (serde.toVec raw)).getD "")

/-- The integer datatypes of the writer are integer datatypes of the reader. -/
private theorem literalToValue_ints (lexical : String) {datatype name : String}
    (xsd : strippedPrefix XSD datatype = some name)
    (member : ["integer", "long", "int", "short", "byte"].contains name) :
    literalToValue lib.parseF64 lexical (some datatype) none =
      ((parseI64 lexical).map Value.int).getD (.typed lexical datatype) := by
  rw [strippedPrefix_eq_some] at xsd
  subst xsd
  simp only [List.contains_eq_mem, List.mem_cons, List.not_mem_nil, or_false, decide_eq_true_eq] at member
  rcases member with rfl | rfl | rfl | rfl | rfl <;> rfl

/-- So are the datatypes of doubles. -/
private theorem literalToValue_doubles (lexical : String) {datatype name : String}
    (xsd : strippedPrefix XSD datatype = some name)
    (member : ["double", "float", "decimal"].contains name) :
    literalToValue lib.parseF64 lexical (some datatype) none =
      ((lib.parseF64 lexical).map Value.float).getD (.typed lexical datatype) := by
  rw [strippedPrefix_eq_some] at xsd
  subst xsd
  simp only [List.contains_eq_mem, List.mem_cons, List.not_mem_nil, or_false, decide_eq_true_eq] at member
  rcases member with rfl | rfl | rfl <;> rfl

/-- The native form of a literal is read like the literal. -/
theorem literalToValue_coerced (writes : WritesNumbers lib serde) (lexical datatype : String) :
    literalToValue lib.parseF64 (rawLexical serde (coerceXsdValue lib.parseF64 lexical datatype))
      (some datatype) none = literalToValue lib.parseF64 lexical (some datatype) none := by
  rw [coerceXsdValue]
  split_ifs with whole double truth yes no
  · cases xsd : strippedPrefix XSD datatype with
    | none =>
      rw [xsd] at whole
      cases whole
    | some name =>
      rw [xsd] at whole
      cases parsed : parseI64 lexical with
      | none => rfl
      | some word =>
        have raw : rawLexical serde (.int word) = toString (Value.signed word) :=
          congrArg (fun text => text.getD "") (writes.ints word)
        dsimp only
        rw [raw, literalToValue_ints _ xsd whole, literalToValue_ints _ xsd whole, parsed,
          parseI64_toString]
        rfl
  · cases xsd : strippedPrefix XSD datatype with
    | none =>
      rw [xsd] at double
      cases double
    | some name =>
      rw [xsd] at double
      cases parsed : lib.parseF64 lexical with
      | none => rfl
      | some bits =>
        dsimp only
        split_ifs with finite
        · obtain ⟨text, written, reads⟩ := writes.doubles bits finite
          have raw : rawLexical serde (.float bits) = text :=
            congrArg (fun text => text.getD "") written
          rw [raw, literalToValue_doubles _ xsd double, literalToValue_doubles _ xsd double, parsed,
            reads]
          rfl
        · rfl
  · subst truth
    have raw : rawLexical serde (.bool true) = "true" :=
      congrArg (fun text => text.getD "") (writes.truths true)
    rw [raw]
    rcases yes with rfl | rfl <;> rfl
  · subst truth
    have raw : rawLexical serde (.bool false) = "false" :=
      congrArg (fun text => text.getD "") (writes.truths false)
    rw [raw]
    rcases no with rfl | rfl <;> rfl
  · rfl
  · rfl

/-- The datatype as the writer shortens it and the reader expands it. -/
def rereadDatatype (dtPart : String) : String :=
  let dtIri := trimEndMatches '>' dtPart
  expandXsdPrefix (match strippedPrefix XSD dtIri with
    | some name => "xsd:" ++ name
    | none => dtIri)

/-- The datatype that is read for what follows the closing quote of a literal. -/
def datatypeOf (after : String) : String :=
  match strippedPrefix "^^<" after with
  | some dtPart => rereadDatatype dtPart
  | none => match strippedPrefix "@" after with
    | some langPart => "rdf:langString@" ++ trimmed langPart
    | none => XSD ++ "string"

/-- A datatype of the vocabulary of XML Schema is shortened and expanded again. -/
theorem rereadDatatype_cases (dtPart : String) :
    rereadDatatype dtPart = trimEndMatches '>' dtPart ∨
      (strippedPrefix XSD (trimEndMatches '>' dtPart) = none ∧
        ∃ name, (trimEndMatches '>' dtPart = "xsd:" ++ name ∧ rereadDatatype dtPart = XSD ++ name) ∨
          (trimEndMatches '>' dtPart = "rdfs:" ++ name ∧
            rereadDatatype dtPart = "http://www.w3.org/2000/01/rdf-schema#" ++ name)) := by
  rw [rereadDatatype]
  generalize trimEndMatches '>' dtPart = dtIri
  cases xsd : strippedPrefix XSD dtIri with
  | some name =>
    left
    simp only [expandXsdPrefix, strippedPrefix_append]
    exact (strippedPrefix_eq_some.mp xsd).symm
  | none =>
    cases short : strippedPrefix "xsd:" dtIri with
    | some name =>
      right
      exact ⟨rfl, name, .inl ⟨strippedPrefix_eq_some.mp short, by simp [expandXsdPrefix, short]⟩⟩
    | none =>
      cases shorter : strippedPrefix "rdfs:" dtIri with
      | some name =>
        right
        exact ⟨rfl, name, .inr ⟨strippedPrefix_eq_some.mp shorter,
          by simp [expandXsdPrefix, short, shorter]⟩⟩
      | none =>
        left
        simp [expandXsdPrefix, short, shorter]

/-- Whichever datatype is read for the native form of a literal, the literal is read with it. -/
private theorem literalToValue_reread (writes : WritesNumbers lib serde) (lexical dtPart : String) :
    literalToValue lib.parseF64
      (rawLexical serde (coerceXsdValue lib.parseF64 lexical (trimEndMatches '>' dtPart)))
      (some (rereadDatatype dtPart)) none =
      literalToValue lib.parseF64 lexical (some (rereadDatatype dtPart)) none := by
  rcases rereadDatatype_cases dtPart with same | ⟨other, _⟩
  · rw [same]
    exact literalToValue_coerced writes lexical _
  · -- Only the datatypes of XML Schema have a native form.
    have boolean : trimEndMatches '>' dtPart ≠ XSD ++ "boolean" := by
      intro same
      rw [same, strippedPrefix_append] at other
      cases other
    have kept : coerceXsdValue lib.parseF64 lexical (trimEndMatches '>' dtPart) = .string lexical := by
      rw [coerceXsdValue, other, if_neg (by decide), if_neg (by decide), if_neg boolean]
    rw [kept]
    rfl

/-- A literal of a document is read as one of the datatype that follows its text. -/
theorem jsonldObject_literal (writes : WritesNumbers lib serde) (lexical after : String) :
    jsonldObject lib.parseF64 serde (jsonldLiteral lib.parseF64 lexical after) =
      some (.literal (literalToValue lib.parseF64 lexical (some (datatypeOf after)) none)
        (datatypeOf after)) := by
  -- A literal has no identifier and no language, so its type and its value are read.
  have fields : ∀ typeStr raw, jsonldObject lib.parseF64 serde
      (.object [("@type", .string typeStr), ("@value", raw)]) =
      some (.literal (literalToValue lib.parseF64 (rawLexical serde raw)
        (some (expandXsdPrefix typeStr)) none) (expandXsdPrefix typeStr)) := fun _ _ => rfl
  have raw : rawLexical serde (.string lexical) = lexical := rfl
  rw [jsonldLiteral, datatypeOf]
  cases strippedPrefix "^^<" after with
  | some dtPart =>
    have same := literalToValue_reread writes lexical dtPart
    dsimp only
    rw [rereadDatatype] at same ⊢
    -- The writer and the reader agree on whether the datatype is one of XML Schema.
    generalize strippedPrefix XSD (trimEndMatches '>' dtPart) = short at same ⊢
    cases short with
    | some name =>
      refine (fields _ _).trans ?_
      dsimp only at same ⊢
      rw [same]
    | none =>
      refine (fields _ _).trans ?_
      dsimp only at same ⊢
      rw [same]
  | none =>
    cases strippedPrefix "@" after with
    | some langPart =>
      refine (fields _ _).trans ?_
      have kept : expandXsdPrefix ("rdf:langString@" ++ trimmed langPart) =
          "rdf:langString@" ++ trimmed langPart := by
        rw [expandXsdPrefix, strippedPrefix_other _ (by decide) (by decide)]
        dsimp only
        rw [strippedPrefix_other _ (by decide) (by decide)]
      dsimp only
      rw [raw, kept]
    | none =>
      refine (fields _ _).trans ?_
      have string : expandXsdPrefix "xsd:string" = XSD ++ "string" := by decide
      dsimp only
      rw [raw, string]

/-- The datatypes that are read begin with no shortened vocabulary. -/
theorem datatypeOf_expanded (after : String) :
    strippedPrefix "xsd:" (datatypeOf after) = none ∧ strippedPrefix "rdfs:" (datatypeOf after) = none := by
  have expanded : ∀ dt, strippedPrefix "xsd:" (expandXsdPrefix dt) = none ∧
      strippedPrefix "rdfs:" (expandXsdPrefix dt) = none := by
    intro dt
    rw [expandXsdPrefix]
    cases short : strippedPrefix "xsd:" dt with
    | some name =>
      exact ⟨strippedPrefix_other _ (by decide) (by decide), strippedPrefix_other _ (by decide) (by decide)⟩
    | none =>
      cases shorter : strippedPrefix "rdfs:" dt with
      | some name =>
        exact ⟨strippedPrefix_other _ (by decide) (by decide), strippedPrefix_other _ (by decide) (by decide)⟩
      | none => exact ⟨short, shorter⟩
  rw [datatypeOf]
  cases strippedPrefix "^^<" after with
  | some dtPart =>
    dsimp only [rereadDatatype]
    exact expanded _
  | none =>
    cases strippedPrefix "@" after with
    | some langPart =>
      dsimp only
      exact ⟨strippedPrefix_other _ (by decide) (by decide), strippedPrefix_other _ (by decide) (by decide)⟩
    | none =>
      dsimp only
      exact ⟨strippedPrefix_other _ (by decide) (by decide), strippedPrefix_other _ (by decide) (by decide)⟩

/-- Whether a text ends in a closing bracket. -/
def endsInBracket (text : String) : Bool := decide (text.toList.getLast? = some '>')

/-- Trimming leaves no bracket at the end. -/
theorem endsInBracket_trimEndMatches (text : String) :
    endsInBracket (trimEndMatches '>' text) = false := by
  rw [endsInBracket, trimEndMatches, String.toList_ofList, List.getLast?_reverse]
  apply decide_eq_false
  intro first
  cases chars : text.toList.reverse.dropWhile (fun c => decide (c = '>')) with
  | nil =>
    rw [chars] at first
    cases first
  | cons char rest =>
    have stopped := List.head?_dropWhile_not (fun c => decide (c = '>')) text.toList.reverse
    rw [first] at stopped
    simp at stopped

/-- A bracket behind a datatype that ends in none is the only one trimmed. -/
theorem trimEndMatches_append {datatype : String} (own : endsInBracket datatype = false) :
    trimEndMatches '>' (datatype ++ ">") = datatype := by
  have last := of_decide_eq_false own
  have kept : datatype.toList.reverse.dropWhile (fun c => decide (c = '>')) = datatype.toList.reverse := by
    cases chars : datatype.toList.reverse with
    | nil => rfl
    | cons char rest =>
      have tail : datatype.toList.getLast? = some char := by
        rw [← List.head?_reverse, chars]
        rfl
      rw [tail] at last
      exact List.dropWhile_cons_of_neg (by simpa using last)
  have chars : (datatype ++ ">").toList.reverse = '>' :: datatype.toList.reverse := by simp
  rw [trimEndMatches, chars, List.dropWhile_cons_of_pos (by simp), kept, List.reverse_reverse,
    String.ofList_toList]

/-- A text ends in a bracket exactly if what it continues with does, unless it does not continue. -/
theorem endsInBracket_append {start name : String} (plain : endsInBracket start = false) :
    endsInBracket (start ++ name) = endsInBracket name := by
  by_cases blank : name = ""
  · subst blank
    rw [String.append_empty, plain]
    rfl
  · have full : name.toList ≠ [] := by simpa using blank
    rw [endsInBracket, endsInBracket, String.toList_append, List.getLast?_append_of_ne_nil _ full]

/-- No datatype that is read for a literal with one ends in a bracket. -/
theorem endsInBracket_rereadDatatype (dtPart : String) :
    endsInBracket (rereadDatatype dtPart) = false := by
  have trimmed := endsInBracket_trimEndMatches dtPart
  rcases rereadDatatype_cases dtPart with same | ⟨_, name, ⟨short, same⟩ | ⟨short, same⟩⟩
  · rw [same]
    exact trimmed
  · rw [short, endsInBracket_append (by decide)] at trimmed
    rw [same, endsInBracket_append (by decide), trimmed]
  · rw [short, endsInBracket_append (by decide)] at trimmed
    rw [same, endsInBracket_append (by decide), trimmed]

/-- The datatype that is read for a literal is its own exactly if it is not shortened or trimmed. -/
theorem rereadDatatype_iff (datatype : String) :
    rereadDatatype (datatype ++ ">") = datatype ↔ strippedPrefix "xsd:" datatype = none ∧
      strippedPrefix "rdfs:" datatype = none ∧ endsInBracket datatype = false := by
  constructor
  · intro same
    have expanded := datatypeOf_expanded ("^^<" ++ (datatype ++ ">"))
    rw [datatypeOf, strippedPrefix_append] at expanded
    dsimp only at expanded
    rw [same] at expanded
    rw [← same]
    exact ⟨by rw [same]; exact expanded.1, by rw [same]; exact expanded.2,
      endsInBracket_rereadDatatype _⟩
  · intro ⟨xsd, rdfs, own⟩
    rcases rereadDatatype_cases (datatype ++ ">") with same | ⟨_, name, ⟨short, _⟩ | ⟨short, _⟩⟩
    · rw [same, trimEndMatches_append own]
    · rw [trimEndMatches_append own] at short
      rw [short, strippedPrefix_append] at xsd
      cases xsd
    · rw [trimEndMatches_append own] at short
      rw [short, strippedPrefix_append] at rdfs
      cases rdfs

/-- A text needs no escapes. -/
def Plain (text : String) : Prop := ∀ char ∈ text.toList, char ∉ ['\\', '"', '\n', '\r', '\t']

/-- A character that needs no escape is written as it is, any other as two. -/
theorem escapedChar_cases (char : Char) :
    (char ∉ ['\\', '"', '\n', '\r', '\t'] ∧ escapedChar char = [char]) ∨
      (char ∈ ['\\', '"', '\n', '\r', '\t'] ∧ (escapedChar char).length = 2) := by
  rw [escapedChar]
  split_ifs with backslash quote newline carriage tab
  · exact .inr ⟨by simp [backslash], rfl⟩
  · exact .inr ⟨by simp [quote], rfl⟩
  · exact .inr ⟨by simp [newline], rfl⟩
  · exact .inr ⟨by simp [carriage], rfl⟩
  · exact .inr ⟨by simp [tab], rfl⟩
  · exact .inl ⟨by simp [backslash, quote, newline, carriage, tab], rfl⟩

/-- A text that needs no escapes is written as it is. -/
theorem ntEscape_of_plain {text : String} (plain : Plain text) : ntEscape text = text := by
  apply String.toList_injective
  rw [toList_ntEscape]
  rw [Plain] at plain
  generalize text.toList = chars at plain ⊢
  induction chars with
  | nil => rfl
  | cons char rest ih =>
    obtain ⟨_, own⟩ := (escapedChar_cases char).resolve_right fun ⟨special, _⟩ =>
      plain char List.mem_cons_self special
    rw [List.flatMap_cons, own, ih fun other member => plain other (List.mem_cons_of_mem _ member)]
    rfl

/-- Escapes make a text longer. -/
theorem length_ntEscape (text : String) : text.length ≤ (ntEscape text).length ∧
    (¬ Plain text → text.length < (ntEscape text).length) := by
  rw [← String.length_toList, ← String.length_toList, toList_ntEscape, Plain]
  induction text.toList with
  | nil => simp
  | cons char rest ih =>
    rw [List.flatMap_cons, List.length_append, List.length_cons, List.forall_mem_cons]
    rcases escapedChar_cases char with ⟨plain, own⟩ | ⟨special, two⟩
    · rw [own, List.length_singleton]
      refine ⟨by omega, fun escapes => ?_⟩
      have later := ih.2 fun others => escapes ⟨plain, others⟩
      omega
    · rw [two]
      exact ⟨by omega, fun _ => by omega⟩

/-- Only a quote is written with a quote. -/
theorem quote_mem_ntEscape {text : String} : '"' ∈ (ntEscape text).toList ↔ '"' ∈ text.toList := by
  rw [toList_ntEscape, List.mem_flatMap]
  constructor
  · intro ⟨char, member, quote⟩
    have own : char = '"' := by
      by_contra other
      rw [escapedChar, if_neg other] at quote
      split_ifs at quote
      case neg => exact other (List.mem_singleton.mp quote).symm
      all_goals simp at quote
    exact own ▸ member
  · intro member
    exact ⟨'"', member, by decide⟩

/-- The first quote of a literal ends its text. -/
theorem ntObjectToJsonld_quoted (quoted after : String) : ∃ lexical rest,
    ntObjectToJsonld lib.parseF64 ("\"" ++ (quoted ++ ("\"" ++ after))) =
      jsonldLiteral lib.parseF64 lexical rest ∧
    '"' ∉ lexical.toList ∧ ('"' ∉ quoted.toList → lexical = quoted ∧ rest = after) := by
  have blank : strippedPrefix "_:" ("\"" ++ (quoted ++ ("\"" ++ after))) = none := by
    rw [strippedPrefix, if_neg (by simp [List.isPrefixOf])]
  have iri : strippedPrefix "<" ("\"" ++ (quoted ++ ("\"" ++ after))) = none := by
    rw [strippedPrefix, if_neg (by simp [List.isPrefixOf])]
  have chars : (quoted ++ ("\"" ++ after)).toList = quoted.toList ++ '"' :: after.toList := by simp
  -- There is a first quote, at the latest the one behind the text.
  obtain ⟨rest, found⟩ : ∃ rest, (quoted.toList ++ '"' :: after.toList).dropWhile
      (fun char => decide (char ≠ '"')) = '"' :: rest := by
    cases dropped : (quoted.toList ++ '"' :: after.toList).dropWhile
        (fun char => decide (char ≠ '"')) with
    | nil =>
      have all := List.dropWhile_eq_nil_iff.mp dropped '"' (by simp)
      simp at all
    | cons char rest =>
      have stopped := List.head?_dropWhile_not (fun char => decide (char ≠ '"'))
        (quoted.toList ++ '"' :: after.toList)
      rw [dropped] at stopped
      simp at stopped
      exact ⟨rest, by rw [stopped]⟩
  refine ⟨String.ofList ((quoted.toList ++ '"' :: after.toList).takeWhile
    (fun char => decide (char ≠ '"'))), String.ofList rest, ?_, ?_, fun quoteless => ?_⟩
  · rw [ntObjectToJsonld, blank, iri, strippedPrefix_append]
    simp only [Option.isSome_none, Bool.false_eq_true, if_false, chars, found]
  · rw [String.toList_ofList]
    intro member
    have kept := List.mem_takeWhile_imp member
    simp at kept
  · have own : ∀ char ∈ quoted.toList, decide (char ≠ '"') = true := fun char member =>
      decide_eq_true fun same => quoteless (same ▸ member)
    rw [List.dropWhile_append_of_pos own, List.dropWhile_cons_of_neg (by simp)] at found
    cases found
    rw [List.takeWhile_append_of_pos own, List.takeWhile_cons_of_neg (by simp), List.append_nil,
      String.ofList_toList, String.ofList_toList]
    exact ⟨rfl, rfl⟩

namespace Value

/-- The kinds of values an export renders: a double is finite. -/
def Exported : Value → Prop
  | bool _ | int _ | text _ | langText _ _ | typed _ _ => True
  | float bits => isFinite bits
  | null | vector _ | blob _ => False

/-- The values that a JSON-LD document keeps.

A text has no tag and needs no escapes, and a datatype is native, or neither shortened nor trimmed.
-/
def SurvivesJsonld (lib : TextLibrary) : Value → Prop
  | langText _ _ => False
  | text content => Plain content
  | typed lexical datatype => Plain lexical ∧
    literalToValue lib.parseF64 lexical (some datatype) none = typed lexical datatype ∧
    strippedPrefix "xsd:" datatype = none ∧ strippedPrefix "rdfs:" datatype = none ∧
    endsInBracket datatype = false
  | _ => True

/-- The text of a value that is a text or a literal of a datatype of its own. -/
def content? : Value → Option String
  | text content | typed content _ => some content
  | _ => none

end Value

/-- What is known of the value that a literal of a document is read as. -/
structure Reread (lib : TextLibrary) (value read : Value) : Prop where
  /-- A value that survives is read as itself. -/
  kept : value.SurvivesJsonld lib → read = value
  /-- No text is read with a tag. -/
  untagged : ∀ text lang, read ≠ .langText text lang
  /-- No text is read with a quote. -/
  quoteless : ∀ text, read.content? = some text → '"' ∉ text.toList
  /-- A literal keeps its datatype only if it is not native, and the datatype is expanded. -/
  own : ∀ lexical datatype, read = .typed lexical datatype →
    literalToValue lib.parseF64 lexical (some datatype) none = .typed lexical datatype ∧
      strippedPrefix "xsd:" datatype = none ∧ strippedPrefix "rdfs:" datatype = none
  /-- A text without quotes and tag is read as it is written. -/
  escaped : ∀ text, value.content? = some text → '"' ∉ text.toList →
    ∀ found, read.content? = some found → found = ntEscape text
  /-- A value that is neither tagged nor quoted is read with a trimmed datatype. -/
  trimmed : (∀ text lang, value ≠ .langText text lang) →
    (∀ text, value.content? = some text → '"' ∉ text.toList) →
    ∀ lexical datatype, read = .typed lexical datatype → endsInBracket datatype = false
  /-- Only texts and literals are read as texts and literals. -/
  content : value.content? = none → (∀ text lang, value ≠ .langText text lang) → read.content? = none

/-- The text between the quotes of an exported value, and what follows it. -/
def ntParts (lib : TextLibrary) : Value → String × String
  | .text text => (ntEscape text, "^^<" ++ (XSD ++ "string" ++ ">"))
  | .int word => (toString (Value.signed word), "^^<" ++ (XSD ++ "integer" ++ ">"))
  | .float bits => (lib.displayF64 bits, "^^<" ++ (XSD ++ "double" ++ ">"))
  | .bool truth => (toString truth, "^^<" ++ (XSD ++ "boolean" ++ ">"))
  | .langText text lang => (ntEscape text, "@" ++ lang)
  | .typed lexical datatype => (ntEscape lexical, "^^<" ++ (datatype ++ ">"))
  | _ => ("", "")

/-- An exported value is written as its parts. -/
theorem valueToNtLiteral_eq {value : Value} (exported : value.Exported) :
    valueToNtLiteral lib.displayF64 displayF32 value =
      "\"" ++ ((ntParts lib value).1 ++ ("\"" ++ (ntParts lib value).2)) := by
  cases value with
  | null | vector | blob => cases exported
  | _ =>
    apply String.toList_injective
    simp [valueToNtLiteral, typedNtLiteral, ntParts]

/-- The datatype that is read for a literal of a datatype that is neither shortened nor trimmed. -/
theorem datatypeOf_own {datatype : String} (xsd : strippedPrefix "xsd:" datatype = none)
    (rdfs : strippedPrefix "rdfs:" datatype = none) (own : endsInBracket datatype = false) :
    datatypeOf ("^^<" ++ (datatype ++ ">")) = datatype := by
  rw [datatypeOf, strippedPrefix_append]
  exact (rereadDatatype_iff datatype).mpr ⟨xsd, rdfs, own⟩

/-- The datatypes of native values are read as they are. -/
theorem datatypeOf_xsd {name : String} (named : name ∈ ["string", "integer", "double", "boolean"]) :
    datatypeOf ("^^<" ++ (XSD ++ name ++ ">")) = XSD ++ name := by
  apply datatypeOf_own
  · exact strippedPrefix_other _ (by decide) (by decide)
  · exact strippedPrefix_other _ (by decide) (by decide)
  · simp only [List.mem_cons, List.not_mem_nil, or_false] at named
    rcases named with rfl | rfl | rfl | rfl <;> decide

/-- A reading has the lexical form and the datatype of its literal, if any. -/
theorem Value.IsReading.parts {lexical datatype : String} {read : Value}
    (reading : read.IsReading lexical datatype) :
    (∀ text, read.content? = some text → text = lexical) ∧
      (∀ text lang, read ≠ .langText text lang) ∧
      ∀ text found, read = .typed text found → text = lexical ∧ found = datatype := by
  rcases reading with rfl | rfl | ⟨_, rfl⟩ | ⟨_, rfl⟩ | ⟨_, rfl⟩
  · refine ⟨fun text same => (Option.some.inj same).symm, nofun, fun text found same => ?_⟩
    cases same
    exact ⟨rfl, rfl⟩
  · exact ⟨fun text same => (Option.some.inj same).symm, nofun, nofun⟩
  · exact ⟨nofun, nofun, nofun⟩
  · exact ⟨nofun, nofun, nofun⟩
  · exact ⟨nofun, nofun, nofun⟩

/-- The text of a value without quotes is written without quotes. -/
theorem quoteless_ntParts {value : Value} (exported : value.Exported)
    (doubles : ∀ bits, value = .float bits → lib.ReadsDouble bits)
    (untagged : ∀ text lang, value ≠ .langText text lang)
    (quoteless : ∀ text, value.content? = some text → '"' ∉ text.toList) :
    '"' ∉ (ntParts lib value).1.toList := by
  cases value with
  | null | vector | blob => cases exported
  | bool truth =>
    have plain : '"' ∉ (toString truth).toList := by cases truth <;> decide
    exact plain
  | int word =>
    intro quote
    rcases mem_toString_int quote with same | digit
    · cases same
    · cases digit
  | float bits =>
    intro quote
    rcases (doubles bits rfl).2 '"' quote with digit | same | same
    · cases digit
    · cases same
    · cases same
  | text content => exact fun quote => quoteless content rfl (quote_mem_ntEscape.mp quote)
  | typed lexical datatype => exact fun quote => quoteless lexical rfl (quote_mem_ntEscape.mp quote)
  | langText text lang => exact absurd rfl (untagged text lang)

/-- A value that survives is the literal that its parts are read as. -/
theorem literalToValue_ntParts {value : Value} (exported : value.Exported)
    (doubles : ∀ bits, value = .float bits → lib.ReadsDouble bits)
    (survives : value.SurvivesJsonld lib) :
    literalToValue lib.parseF64 (ntParts lib value).1 (some (datatypeOf (ntParts lib value).2)) none =
      value := by
  cases value with
  | null | vector | blob => cases exported
  | bool truth =>
    rw [ntParts, datatypeOf_xsd (by simp)]
    exact literalToValue_boolean truth
  | int word =>
    rw [ntParts, datatypeOf_xsd (by simp), literalToValue_integer, parseI64_toString]
    rfl
  | float bits =>
    rw [ntParts, datatypeOf_xsd (by simp), literalToValue_double, (doubles bits rfl).1]
    rfl
  | text content =>
    rw [ntParts, datatypeOf_xsd (by simp), literalToValue_string, ntEscape_of_plain survives]
  | typed lexical datatype =>
    obtain ⟨plain, own, xsd, rdfs, bracket⟩ := survives
    rw [ntParts, datatypeOf_own xsd rdfs bracket, ntEscape_of_plain plain, own]
  | langText text lang => cases survives

/-- A plain text has no quote. -/
theorem Plain.quoteless {text : String} (plain : Plain text) : '"' ∉ text.toList := fun quote =>
  plain '"' quote (by simp)

/-- What an exported value is read as. -/
theorem exists_reread (writes : WritesNumbers lib serde) {value : Value} (exported : value.Exported)
    (doubles : ∀ bits, value = .float bits → lib.ReadsDouble bits) :
    ∃ read datatype, jsonldObject lib.parseF64 serde (ntObjectToJsonld lib.parseF64
      (valueToNtLiteral lib.displayF64 displayF32 value)) = some (.literal read datatype) ∧
      Reread lib value read := by
  obtain ⟨lexical, rest, found, unquoted, own⟩ :=
    @ntObjectToJsonld_quoted lib (ntParts lib value).1 (ntParts lib value).2
  rw [valueToNtLiteral_eq exported, found, jsonldObject_literal writes]
  refine ⟨_, _, rfl, ?_⟩
  obtain ⟨content, untagged, typed⟩ :=
    (@literalToValue_isReading lib.parseF64 lexical (datatypeOf rest)).parts
  have whole : value.SurvivesJsonld lib → lexical = (ntParts lib value).1 ∧ rest = (ntParts lib value).2 := by
    intro survives
    refine own (quoteless_ntParts exported doubles (fun text lang same => ?_) fun text same => ?_)
    · rw [same] at survives
      exact survives
    · cases value <;> cases same
      · exact Plain.quoteless survives
      · exact Plain.quoteless survives.1
  have kept : value.SurvivesJsonld lib →
      literalToValue lib.parseF64 lexical (some (datatypeOf rest)) none = value := by
    intro survives
    obtain ⟨rfl, rfl⟩ := whole survives
    exact literalToValue_ntParts exported doubles survives
  refine ⟨kept, untagged, fun text same => content text same ▸ unquoted, ?_, ?_, ?_, ?_⟩
  · intro text datatype same
    obtain ⟨rfl, rfl⟩ := typed text datatype same
    exact ⟨same, datatypeOf_expanded rest⟩
  · intro text same quoteless other read
    rw [content other read]
    cases value <;> cases same
    · exact (own fun quote => quoteless (quote_mem_ntEscape.mp quote)).1
    · exact (own fun quote => quoteless (quote_mem_ntEscape.mp quote)).1
  · intro plain quoteless text datatype same
    obtain ⟨rfl, rfl⟩ := typed text datatype same
    obtain ⟨rfl, rfl⟩ := own (quoteless_ntParts exported doubles plain quoteless)
    cases value with
    | null | vector | blob => cases exported
    | langText text lang => exact absurd rfl (plain text lang)
    | typed lexical datatype =>
      rw [ntParts, datatypeOf, strippedPrefix_append]
      exact endsInBracket_rereadDatatype _
    | _ =>
      rw [ntParts, datatypeOf_xsd (by simp)]
      decide
  · intro blank plain
    cases value with
    | null | vector | blob => cases exported
    | langText text lang => exact absurd rfl (plain text lang)
    | typed | text => cases blank
    | _ =>
      rw [kept trivial]
      rfl

/-- Values of which each is what another is read as survive. -/
theorem survives_of_closed {held : Value → Prop}
    (closed : ∀ value, held value → ∃ earlier, held earlier ∧ Reread lib earlier value)
    {value : Value} (member : held value) : value.SurvivesJsonld lib := by
  have untagged : ∀ value, held value → ∀ text lang, value ≠ .langText text lang := by
    intro value member
    obtain ⟨earlier, _, read⟩ := closed value member
    exact read.untagged
  have quoteless : ∀ value, held value → ∀ text, value.content? = some text → '"' ∉ text.toList := by
    intro value member
    obtain ⟨earlier, _, read⟩ := closed value member
    exact read.quoteless
  -- The induction is on the length: a text with escapes would be read from a shorter one.
  have plain : ∀ size, ∀ value, held value → ∀ text, value.content? = some text →
      text.length = size → Plain text := by
    intro size
    induction size using Nat.strong_induction_on with
    | h size ih =>
      intro value member text found length
      obtain ⟨earlier, before, read⟩ := closed value member
      cases own : earlier.content? with
      | none =>
        rw [read.content own (untagged earlier before)] at found
        cases found
      | some shorter =>
        obtain rfl := read.escaped shorter own (quoteless earlier before shorter own) text found
        by_contra escapes
        have special : ¬ Plain shorter := fun plain => escapes (by rw [ntEscape_of_plain plain]; exact plain)
        exact special (ih shorter.length (length ▸ (length_ntEscape shorter).2 special) earlier before
          shorter own rfl)
  cases value with
  | text content => exact plain _ _ member content rfl rfl
  | langText text lang => exact absurd rfl (untagged _ member text lang)
  | typed lexical datatype =>
    obtain ⟨earlier, before, read⟩ := closed _ member
    obtain ⟨own, xsd, rdfs⟩ := read.own lexical datatype rfl
    exact ⟨plain _ _ member lexical rfl rfl, own, xsd, rdfs,
      read.trimmed (untagged earlier before) (quoteless earlier before) lexical datatype rfl⟩
  | _ => trivial

/-- A subject, or an object that is no literal. -/
inductive RdfNode where
  /-- An IRI. -/
  | iri (text : String)
  /-- A blank node, by its label. -/
  | blank (label : String)
deriving DecidableEq

/-- The object of a statement. -/
inductive RdfObject where
  /-- A node. -/
  | node (node : RdfNode)
  /-- A literal, by its value. -/
  | literal (value : Value)
deriving DecidableEq

/-- What a triple says. -/
@[ext] structure Statement where
  /-- The subject. -/
  subject : RdfNode
  /-- The IRI of the predicate. -/
  predicate : String
  /-- The object. -/
  object : RdfObject
deriving DecidableEq

/-- A node as it is rendered. -/
def RdfNode.rendered : RdfNode → String
  | iri text => "<" ++ (text ++ ">")
  | blank label => "_:" ++ label

/-- No IRI begins like a blank node. -/
def RdfNode.WellFormed : RdfNode → Prop
  | iri text => strippedPrefix "_:" text = none
  | blank _ => True

/-- A statement as it is rendered. -/
def Statement.rendered (lib : TextLibrary) (displayF32 : UInt32 → String) (statement : Statement) :
    RdfTriple where
  subject := statement.subject.rendered
  predicate := "<" ++ (statement.predicate ++ ">")
  object := match statement.object with
    | .node node => node.rendered
    | .literal value => valueToNtLiteral lib.displayF64 displayF32 value

/-- The terms of a statement are such as are rendered: no IRI begins like a keyword. -/
structure Statement.WellFormed (lib : TextLibrary) (statement : Statement) : Prop where
  /-- The subject is an IRI or a blank node. -/
  subject : statement.subject.WellFormed
  /-- The predicate is an IRI. -/
  predicate : strippedPrefix "@" statement.predicate = none
  /-- An object that is a node is an IRI or a blank node. -/
  node : ∀ node, statement.object = .node node → node.WellFormed
  /-- An object that is a literal has an exported kind. -/
  literal : ∀ value, statement.object = .literal value → value.Exported
  /-- The decimal form of a double is read back. -/
  doubles : ∀ bits, statement.object = .literal (.float bits) → lib.ReadsDouble bits

/-- What an imported triple says. -/
def ImportedTriple.statement (t : ImportedTriple) : Statement where
  subject := if t.subjectIsBnode then .blank t.subject else .iri t.subject
  predicate := t.predicate
  object := match t.object with
    | .iri iri => .node (.iri iri)
    | .blankNode label => .node (.blank label)
    | .literal value _ => .literal value

/-- An IRI is rendered in brackets, and read without. -/
theorem stripBrackets_iri (iri : String) : stripBrackets ("<" ++ (iri ++ ">")) = iri := by
  have chars : ("<" ++ (iri ++ ">")).toList = '<' :: (iri.toList ++ ['>']) := by simp
  simp [stripBrackets, chars]

/-- A blank node is rendered without brackets. -/
theorem stripBrackets_blank (label : String) : stripBrackets ("_:" ++ label) = "_:" ++ label := by
  have chars : ("_:" ++ label).toList = '_' :: ':' :: label.toList := by simp
  simp [stripBrackets, chars]

/-- A rendered node is read back as the node. -/
theorem jsonldObject_node {node : RdfNode} (wellFormed : node.WellFormed) :
    ∃ object, jsonldObject lib.parseF64 serde (ntObjectToJsonld lib.parseF64 node.rendered) =
      some object ∧ ∀ t : ImportedTriple, t.object = object → t.statement.object = .node node := by
  cases node with
  | iri text =>
    refine ⟨.iri text, ?_, fun t same => by simp [ImportedTriple.statement, same]⟩
    have other : strippedPrefix "_:" ("<" ++ (text ++ ">")) = none := by
      rw [strippedPrefix, if_neg (by simp [List.isPrefixOf])]
    have plain : strippedPrefix "_:" text = none := wellFormed
    rw [RdfNode.rendered, ntObjectToJsonld, other, strippedPrefix_append, stripBrackets_iri]
    simp [jsonldObject, Json.field, Json.asString, plain]
  | blank label =>
    refine ⟨.blankNode label, ?_, fun t same => by simp [ImportedTriple.statement, same]⟩
    rw [RdfNode.rendered, ntObjectToJsonld, strippedPrefix_append]
    simp [jsonldObject, Json.field, Json.asString, strippedPrefix_append]

/-- A rendered statement is read back under its subject and its predicate. -/
theorem exists_statement_reread {statement : Statement} (wellFormed : statement.WellFormed lib)
    {object : ImportedObject}
    (read : jsonldObject lib.parseF64 serde
      (ntObjectToJsonld lib.parseF64 (statement.rendered lib displayF32).object) = some object) :
    ∃ t, reread lib.parseF64 serde (statement.rendered lib displayF32) = some t ∧
      t.object = object ∧ t.statement.subject = statement.subject ∧
      t.statement.predicate = statement.predicate := by
  obtain ⟨subject, predicate, given⟩ := statement
  have name : stripBrackets ("<" ++ (predicate ++ ">")) = predicate := stripBrackets_iri predicate
  rw [reread, read]
  cases subject with
  | iri text =>
    have plain : strippedPrefix "_:" text = none := wellFormed.subject
    refine ⟨⟨text, false, predicate, object, none⟩, ?_, rfl, rfl, rfl⟩
    simp [Statement.rendered, RdfNode.rendered, stripBrackets_iri, plain]
  | blank label =>
    refine ⟨⟨label, true, predicate, object, none⟩, ?_, rfl, rfl, rfl⟩
    simp [Statement.rendered, RdfNode.rendered, stripBrackets_iri, stripBrackets_blank,
      strippedPrefix_append]

/-- A statement whose object is a node is read back as itself. -/
theorem reread_node (statement : Statement) (wellFormed : statement.WellFormed lib) {node : RdfNode}
    (object : statement.object = .node node) :
    ∃ t, reread lib.parseF64 serde (statement.rendered lib displayF32) = some t ∧
      t.statement = statement := by
  obtain ⟨found, read, same⟩ := @jsonldObject_node lib serde node (wellFormed.node node object)
  have rendered : (statement.rendered lib displayF32).object = node.rendered := by
    rw [Statement.rendered, object]
  obtain ⟨t, made, own, subject, predicate⟩ :=
    @exists_statement_reread lib serde displayF32 statement wellFormed _ (by rw [rendered]; exact read)
  exact ⟨t, made, Statement.ext subject predicate ((same t own).trans object.symm)⟩

/-- A statement whose object is a literal is read back with what its value is read as. -/
theorem reread_literal (writes : WritesNumbers lib serde) (statement : Statement)
    (wellFormed : statement.WellFormed lib) {value : Value} (object : statement.object = .literal value) :
    ∃ t read, reread lib.parseF64 serde (statement.rendered lib displayF32) = some t ∧
      t.statement = { statement with object := .literal read } ∧ Reread lib value read := by
  obtain ⟨read, datatype, found, facts⟩ := @exists_reread lib serde displayF32 writes value
    (wellFormed.literal value object) fun bits same => wellFormed.doubles bits (by rw [object, same])
  have rendered : (statement.rendered lib displayF32).object =
      valueToNtLiteral lib.displayF64 displayF32 value := by
    rw [Statement.rendered, object]
  obtain ⟨t, made, own, subject, predicate⟩ :=
    @exists_statement_reread lib serde displayF32 statement wellFormed _ (by rw [rendered]; exact found)
  have last : t.statement.object = .literal read := by simp [ImportedTriple.statement, own]
  exact ⟨t, read, made, Statement.ext subject predicate last, facts⟩

/-- The statements of a document that is exported are those that were given. -/
def ReimportsJsonld (lib : TextLibrary) (displayF32 : UInt32 → String) (serde : SerdeJson)
    (statements : List Statement) : Prop :=
  ∃ imported, parseJsonld lib.parseF64 serde (serializeJsonld lib.parseF64 serde
      (statements.map (Statement.rendered lib displayF32))) = .ok imported ∧
    ∀ statement, statement ∈ imported.map ImportedTriple.statement ↔ statement ∈ statements

/--
An export as JSON-LD imports as the same statements exactly if every literal survives.

A literal survives when it is no tagged text, needs no escapes, and its datatype is kept.
-/
theorem reimportsJsonld_iff (writes : WritesNumbers lib serde) {statements : List Statement}
    (wellFormed : ∀ statement ∈ statements, statement.WellFormed lib)
    (reads : serde.Rereads (jsonldDocument lib.parseF64
      (statements.map (Statement.rendered lib displayF32)))) :
    ReimportsJsonld lib displayF32 serde statements ↔
      ∀ statement ∈ statements, ∀ value, statement.object = .literal value →
        value.SurvivesJsonld lib := by
  have named : ∀ t ∈ statements.map (Statement.rendered lib displayF32),
      strippedPrefix "@" (stripBrackets t.predicate) = none := by
    intro t member
    obtain ⟨statement, given, rfl⟩ := List.mem_map.mp member
    rw [Statement.rendered, stripBrackets_iri]
    exact (wellFormed statement given).predicate
  obtain ⟨imported, parsed, all⟩ := parseJsonld_serializeJsonld reads named
  have said : ∀ statement, statement ∈ imported.map ImportedTriple.statement ↔
      ∃ given ∈ statements, ∃ t, reread lib.parseF64 serde (given.rendered lib displayF32) = some t ∧
        t.statement = statement := by
    intro statement
    simp only [List.mem_map, all]
    constructor
    · intro ⟨t, ⟨_, ⟨given, member, rfl⟩, made⟩, same⟩
      exact ⟨given, member, t, made, same⟩
    · intro ⟨given, member, t, made, same⟩
      exact ⟨t, ⟨_, ⟨given, member, rfl⟩, made⟩, same⟩
  constructor
  · intro ⟨others, again, same⟩ statement member value object
    rw [parsed] at again
    cases again
    -- Under a subject and a predicate, each value is what another one is read as.
    let among (value : Value) : Prop := { statement with object := .literal value } ∈ statements
    have itself : among value := by
      change { statement with object := .literal value } ∈ statements
      rw [← object]
      exact member
    refine @survives_of_closed lib among (fun value held => ?_) value itself
    obtain ⟨given, before, t, made, told⟩ := (said _).mp ((same _).mpr held)
    cases kind : given.object with
    | node node =>
      obtain ⟨t', made', own⟩ := @reread_node lib serde displayF32 given (wellFormed given before) node kind
      rw [made] at made'
      cases made'
      rw [own] at told
      rw [told] at kind
      cases kind
    | literal earlier =>
      obtain ⟨t', read, made', own, facts⟩ :=
        @reread_literal lib serde displayF32 writes given (wellFormed given before) earlier kind
      rw [made] at made'
      cases made'
      rw [own] at told
      obtain ⟨subject, predicate, _⟩ := given
      cases kind
      cases told
      exact ⟨earlier, before, facts⟩
  · intro survives
    have itself : ∀ given ∈ statements, ∃ t,
        reread lib.parseF64 serde (given.rendered lib displayF32) = some t ∧ t.statement = given := by
      intro given member
      cases kind : given.object with
      | node node => exact reread_node given (wellFormed given member) kind
      | literal value =>
        obtain ⟨t, read, made, own, facts⟩ :=
          @reread_literal lib serde displayF32 writes given (wellFormed given member) value kind
        refine ⟨t, made, ?_⟩
        rw [own, facts.kept (survives given member value kind), ← kind]
    refine ⟨imported, parsed, fun statement => (said statement).trans ?_⟩
    constructor
    · intro ⟨given, member, t, made, told⟩
      obtain ⟨t', made', own⟩ := itself given member
      rw [made] at made'
      cases made'
      rw [← told, own]
      exact member
    · intro member
      obtain ⟨t, made, own⟩ := itself statement member
      exact ⟨statement, member, t, made, own⟩

/-- A library that writes and reads doubles by their bits. -/
def bitwiseDoubles : TextLibrary where
  parseF64 := parseI64
  displayF64 bits := toString (Value.signed bits)
  regexMatch _ _ _ := none

/-- A writer and reader of numbers, truth values and one document. -/
def documentJson (text : String) (document : Json) : SerdeJson where
  toVec
    | .int word => utf8 (toString (Value.signed word))
    | .float bits => utf8 (toString (Value.signed bits))
    | .bool truth => utf8 (toString truth)
    | _ => utf8 text
  fromSlice bytes := if bytes = utf8 text then .ok document else .error "expected value"
  refusal _ := ""
  floatOfInt word := word

/-- Numbers and truth values are read back as they are written. -/
theorem writesNumbers_documentJson (text : String) (document : Json) :
    WritesNumbers bitwiseDoubles (documentJson text document) where
  ints _ := fromUtf8_utf8 _
  truths _ := fromUtf8_utf8 _
  doubles bits _ := ⟨_, fromUtf8_utf8 _, parseI64_toString bits⟩

/-- A node is called something. -/
def greeted (value : Value) : Statement := ⟨.iri "urn:a", "urn:p", .literal value⟩

/-- The JSON text of the document of a node under a type, from the context to the end. -/
def greetedText (typeStr lexical : String) : String :=
  "\x7b\"@context\":\x7b\"owl\":\"http://www.w3.org/2002/07/owl#\"," ++
    "\"rdf\":\"http://www.w3.org/1999/02/22-rdf-syntax-ns#\"," ++
    "\"rdfs\":\"http://www.w3.org/2000/01/rdf-schema#\"," ++
    "\"xsd\":\"http://www.w3.org/2001/XMLSchema#\"\x7d," ++
    "\"@graph\":[\x7b\"@id\":\"urn:a\",\"urn:p\":\x7b\"@type\":\"" ++ typeStr ++
    "\",\"@value\":\"" ++ lexical ++ "\"\x7d\x7d]\x7d"

/-- The writer and reader of the document of a node. -/
def greetedJson (value : Value) (typeStr lexical : String) : SerdeJson :=
  documentJson (greetedText typeStr lexical) (jsonldDocument bitwiseDoubles.parseF64
    [(greeted value).rendered bitwiseDoubles fun _ => ""])

/-- The document of a node is read as it was written. -/
theorem rereads_greeted (value : Value) (typeStr lexical : String) :
    (greetedJson value typeStr lexical).Rereads (jsonldDocument bitwiseDoubles.parseF64
      ([greeted value].map (Statement.rendered bitwiseDoubles fun _ => ""))) := by
  rw [SerdeJson.Rereads, written_jsonldDocument]
  exact if_pos rfl

/-- A text under a node is a statement that can be rendered. -/
theorem greeted_wellFormed {value : Value} (exported : value.Exported)
    (other : ∀ bits, value ≠ .float bits) : (greeted value).WellFormed bitwiseDoubles where
  subject := by
    have plain : strippedPrefix "_:" "urn:a" = none := by decide
    exact plain
  predicate := by
    have plain : strippedPrefix "@" "urn:p" = none := by decide
    exact plain
  node := nofun
  literal found same := by
    cases same
    exact exported
  doubles bits same := absurd (RdfObject.literal.inj same) (other bits)

/-- A plain text survives its export. -/
theorem reimportsJsonld_plain :
    ReimportsJsonld bitwiseDoubles (fun _ => "") (greetedJson (.text "hi") "xsd:string" "hi")
      [greeted (.text "hi")] := by
  have wellFormed : ∀ statement ∈ [greeted (.text "hi")], statement.WellFormed bitwiseDoubles := by
    intro statement member
    rw [List.mem_singleton.mp member]
    exact greeted_wellFormed trivial nofun
  apply (reimportsJsonld_iff (writesNumbers_documentJson _ _) wellFormed (rereads_greeted _ _ _)).mpr
  intro statement member value object
  rw [List.mem_singleton.mp member] at object
  cases object
  have plain : ∀ char ∈ "hi".toList, char ∉ ['\\', '"', '\n', '\r', '\t'] := by simp
  exact plain

/-- A greeting in a language comes back as a literal of a datatype made of the language. -/
theorem tagged_greeting_lost :
    (greeted (.langText "hi" "en")).WellFormed bitwiseDoubles ∧
    (∃ t, parseJsonld bitwiseDoubles.parseF64
        (greetedJson (.langText "hi" "en") "rdf:langString@en" "hi")
        (serializeJsonld bitwiseDoubles.parseF64
          (greetedJson (.langText "hi" "en") "rdf:langString@en" "hi")
          [(greeted (.langText "hi" "en")).rendered bitwiseDoubles fun _ => ""]) = .ok [t] ∧
      t.statement = greeted (.typed "hi" "rdf:langString@en")) ∧
    ¬ ReimportsJsonld bitwiseDoubles (fun _ => "")
      (greetedJson (.langText "hi" "en") "rdf:langString@en" "hi")
      [greeted (.langText "hi" "en")] := by
  let serde := greetedJson (.langText "hi" "en") "rdf:langString@en" "hi"
  have node : jsonldNode bitwiseDoubles.parseF64 serde (subjectNode bitwiseDoubles.parseF64
      ("<urn:a>", [("<urn:p>", "\"hi\"@en")])) =
      [⟨"urn:a", false, "urn:p", .literal (.typed "hi" "rdf:langString@en") "rdf:langString@en", none⟩] := by
    decide +kernel
  have parsed : parseJsonld bitwiseDoubles.parseF64 serde
      (serializeJsonld bitwiseDoubles.parseF64 serde
        [(greeted (.langText "hi" "en")).rendered bitwiseDoubles fun _ => ""]) =
      .ok [⟨"urn:a", false, "urn:p", .literal (.typed "hi" "rdf:langString@en") "rdf:langString@en", none⟩] := by
    have reads := rereads_greeted (.langText "hi" "en") "rdf:langString@en" "hi"
    rw [SerdeJson.Rereads, written_jsonldDocument, List.map_singleton] at reads
    rw [parseJsonld, serializeJsonld, reads]
    exact congrArg Except.ok ((List.append_nil _).trans node)
  refine ⟨greeted_wellFormed trivial (fun _ float => by cases float), ⟨_, parsed, rfl⟩, ?_⟩
  rintro ⟨imported, again, same⟩
  rw [List.map_singleton, parsed] at again
  cases again
  have lost := (same (greeted (.langText "hi" "en"))).mpr List.mem_cons_self
  exact absurd lost (by decide +kernel)

end Polargraph
