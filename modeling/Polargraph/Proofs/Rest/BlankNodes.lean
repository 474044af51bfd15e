import Polargraph.Proofs.Core.Utf8
import Polargraph.Rest.BlankNodes

/-! Blank nodes keep their own skolem IRIs, and share a label when their texts are confusable. -/

namespace Polargraph

/-- Texts that differ at most where neither has a letter, a digit or `-`. -/
def Confusable (left right : String) : Prop :=
  List.Forall₂
    (fun one two => one = two ∨ (keptInLabel one = false ∧ keptInLabel two = false))
    left.toList right.toList

/-- Skolem IRIs whose identifiers and labels are confusable, or neither of which is read. -/
def Unseparated (left right : String) : Prop :=
  match parseSkolemIri left, parseSkolemIri right with
  | some (leftId, leftLabel), some (rightId, rightLabel) =>
    Confusable (leftId ++ "_" ++ leftLabel) (rightId ++ "_" ++ rightLabel)
  | none, none => True
  | _, _ => False

/-- A skolem IRI made for a blank node of an import. -/
structure Minted where
  /-- The prefix the scope was made with. -/
  base : String
  /-- The identifier of the import. -/
  importId : String
  /-- The label of the blank node. -/
  label : String
  /-- The identifier is one an import may have. -/
  valid : validImportId importId = true
  /-- The label has no `/`. -/
  plain : '/' ∉ label.toList

/-- The IRI that was made. -/
def Minted.iri (minted : Minted) : String :=
  (ImportScope.new minted.base minted.importId).skolemIri minted.label

/-- Characters come out the same in a label exactly when they are equal or neither is kept. -/
theorem labelChar_eq_iff {one two : Char} :
    labelChar one = labelChar two ↔
      one = two ∨ (keptInLabel one = false ∧ keptInLabel two = false) := by
  -- The character put in place of the others is itself not kept.
  have underscore : keptInLabel '_' = false := by decide
  cases first : keptInLabel one with
  | false =>
    cases second : keptInLabel two with
    | false => simp [labelChar, first, second]
    | true =>
      have apart : two ≠ '_' := fun same => by rw [same, underscore] at second; cases second
      have differ : one ≠ two := fun same => by rw [same, second] at first; cases first
      simp [labelChar, first, second, apart.symm, differ]
  | true =>
    cases second : keptInLabel two with
    | false =>
      have apart : one ≠ '_' := fun same => by rw [same, underscore] at first; cases first
      simp only [labelChar, first, second, if_true, apart, Bool.false_eq_true, if_false, false_and,
        or_false, Bool.true_eq_false, false_iff]
      intro same
      rw [same, second] at first
      cases first
    | true => simp [labelChar, first, second]

/-- Texts come out the same in a label exactly when they are confusable. -/
theorem map_labelChar_eq_iff {left right : String} :
    left.toList.map labelChar = right.toList.map labelChar ↔ Confusable left right := by
  rw [← List.forall₂_eq_eq_eq, List.forall₂_map_left_iff, List.forall₂_map_right_iff, Confusable]
  have same : (fun one two => labelChar one = labelChar two) = fun one two =>
      one = two ∨ (keptInLabel one = false ∧ keptInLabel two = false) := by
    funext one two
    exact propext labelChar_eq_iff
  rw [same]

/-- Skolem IRIs come out under the same label exactly when they are not kept apart. -/
theorem deskolemizedLabel_eq_iff {left right : String} :
    deskolemizedLabel left = deskolemizedLabel right ↔ Unseparated left right := by
  unfold deskolemizedLabel Unseparated
  cases first : parseSkolemIri left with
  | none => cases parseSkolemIri right <;> simp
  | some one =>
    cases second : parseSkolemIri right with
    | none => simp
    | some two =>
      simp only [Option.map_some, Option.some.injEq, String.ofList_inj]
      exact map_labelChar_eq_iff

/-- The identifier of an import has no `/`. -/
theorem slash_notMem_of_validImportId {id : String} (valid : validImportId id = true) :
    '/' ∉ id.toList := by
  intro member
  -- The character is one byte, which is none of those the check lets pass.
  have byte : (47 : UInt8) ∈ utf8 id := by
    rw [← String.ofList_toList (s := id), utf8_ofList]
    exact List.mem_flatMap.mpr ⟨'/', member, by decide⟩
  simp only [validImportId, Bool.and_eq_true, List.all_eq_true] at valid
  have passes := valid.2 47 byte
  exact absurd passes (by decide)

/-- What a text is split into at a character that only the second part may have. -/
theorem splitOnce_slash {before : String} (absent : '/' ∉ before.toList) (after : String) :
    splitOnce "/" (before ++ "/" ++ after) = some (before, after) := by
  have whole : (before ++ "/" ++ after).toList = before.toList ++ '/' :: after.toList := by simp
  rw [splitOnce, whole, show "/".toList = ['/'] from rfl, Splitting.once_single absent]
  simp

/-- A skolem IRI reads back as the identifier and the label it was made from. -/
theorem parseSkolemIri_skolemIri {minted : Minted}
    (apart : ¬ GENID_SEGMENT.toList <:+:
      (trimEndMatches '/' minted.base).toList ++ GENID_SEGMENT.toList.dropLast)
    (labelled : minted.label ≠ "") :
    parseSkolemIri minted.iri = some (minted.importId, minted.label) := by
  have named : minted.importId ≠ "" := by
    intro empty
    have valid := minted.valid
    have refused : validImportId "" = false := by decide +kernel
    rw [empty, refused] at valid
    cases valid
  have segment : splitOnce GENID_SEGMENT minted.iri =
      some (trimEndMatches '/' minted.base, minted.importId ++ "/" ++ minted.label) := by
    rw [splitOnce, Minted.iri, ImportScope.new, ImportScope.skolemIri]
    simp only [String.toList_append]
    rw [List.append_assoc _ minted.importId.toList, List.append_assoc _ _ minted.label.toList,
      Splitting.once_append apart]
    simp [String.append_assoc]
  have parts := splitOnce_slash (slash_notMem_of_validImportId minted.valid) minted.label
  simp [parseSkolemIri, segment, parts, named, labelled]

/-- A scope's skolem IRIs are those of one identifier and one label. -/
theorem skolemIri_inj {base id id' label label' : String}
    (valid : validImportId id = true) (valid' : validImportId id' = true)
    (same : (ImportScope.new base id).skolemIri label = (ImportScope.new base id').skolemIri label') :
    id = id' ∧ label = label' := by
  have chars := congrArg String.toList same
  simp only [ImportScope.skolemIri, ImportScope.new, String.toList_append, List.append_assoc] at chars
  have rest : (id ++ "/" ++ label).toList = (id' ++ "/" ++ label').toList := by
    simp only [String.toList_append, List.append_assoc]
    exact List.append_cancel_left (List.append_cancel_left chars)
  have split := splitOnce_slash (slash_notMem_of_validImportId valid) label
  have split' := splitOnce_slash (slash_notMem_of_validImportId valid') label'
  rw [String.toList_inj.mp rest, split'] at split
  cases split
  exact ⟨rfl, rfl⟩

/-- Nodes known under skolem IRIs are written under one label exactly when these are not kept apart. -/
theorem bnodeLabel_eq_iff {names : IriNames} {one two : NodeId} {left right : String}
    (first : names.reverse.lookup one = some left) (second : names.reverse.lookup two = some right) :
    names.bnodeLabel true one = names.bnodeLabel true two ↔ Unseparated left right := by
  rw [IriNames.bnodeLabel, IriNames.bnodeLabel, if_pos rfl, if_pos rfl, first, second]
  exact deskolemizedLabel_eq_iff

/-- Two skolem IRIs of imports have labels of their own exactly when their texts are kept apart. -/
theorem deskolemizedLabel_ne_iff (names : IriNames) :
    (∀ one two : Minted, one.iri ≠ two.iri →
      (deskolemizedLabel one.iri ≠ deskolemizedLabel two.iri ↔ ¬ Unseparated one.iri two.iri)) ∧
    (∀ (one two : NodeId) (first second : Minted),
      names.reverse.lookup one = some first.iri → names.reverse.lookup two = some second.iri →
      (names.bnodeLabel true one ≠ names.bnodeLabel true two ↔
        ¬ Unseparated first.iri second.iri)) ∧
    ∀ (base id id' label label' : String), validImportId id = true → validImportId id' = true →
      (ImportScope.new base id).skolemIri label = (ImportScope.new base id').skolemIri label' →
      id = id' ∧ label = label' := by
  refine ⟨fun one two _ => not_congr deskolemizedLabel_eq_iff, ?_, ?_⟩
  · intro one two first second named named'
    exact not_congr (bnodeLabel_eq_iff named named')
  · intro base id id' label label' valid valid' same
    exact skolemIri_inj valid valid' same

/-- A blank node of an import. -/
private def firstNode : Minted where
  base := "https://polargraph.invalid"
  importId := "run-1"
  label := "b0"
  valid := by decide +kernel
  plain := by decide

/-- The IRI made for a blank node reads back as its import and its label. -/
theorem parseSkolemIri_firstNode : parseSkolemIri firstNode.iri = some ("run-1", "b0") :=
  parseSkolemIri_skolemIri (by decide +kernel) (by decide)

/-- Another blank node of the same import. -/
private def secondNode : Minted where
  base := "https://polargraph.invalid"
  importId := "run-1"
  label := "b1"
  valid := by decide +kernel
  plain := by decide

/-- Two blank nodes whose labels differ in a digit keep labels of their own. -/
theorem deskolemizedLabel_ne_numbered :
    deskolemizedLabel firstNode.iri ≠ deskolemizedLabel secondNode.iri ↔
      ¬ Unseparated firstNode.iri secondNode.iri := by
  have differ : firstNode.iri ≠ secondNode.iri := by decide +kernel
  exact (deskolemizedLabel_ne_iff []).1 firstNode secondNode differ

/-- The blank node `c` of one import. -/
private def underscored : Minted where
  base := "https://polargraph.invalid"
  importId := "a_b"
  label := "c"
  valid := by decide +kernel
  plain := by decide

/-- The blank node `b_c` of another import. -/
private def underscoredLabel : Minted where
  base := "https://polargraph.invalid"
  importId := "a"
  label := "b_c"
  valid := by decide +kernel
  plain := by decide

/-- Blank nodes of two imports are written under one label. -/
theorem labels_merge :
    ¬ ∀ one two : Minted, one.iri ≠ two.iri →
      deskolemizedLabel one.iri ≠ deskolemizedLabel two.iri := by
  intro apart
  have differ : underscored.iri ≠ underscoredLabel.iri := by decide +kernel
  have same : deskolemizedLabel underscored.iri = deskolemizedLabel underscoredLabel.iri := by
    decide +kernel
  exact apart underscored underscoredLabel differ same

end Polargraph
