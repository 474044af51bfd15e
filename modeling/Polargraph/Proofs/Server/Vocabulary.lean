import Mathlib.Data.List.TakeWhile
import Polargraph.Lib.Except
import Polargraph.Lib.Splitting
import Polargraph.Proofs.Rest.Literals
import Polargraph.Server.Vocabulary

/-! When an IRI in its shortest form is read back as the IRI. -/

namespace Polargraph

namespace PrefixedVocabulary

/-- A vocabulary that the operations of a store lead to. -/
inductive Accepted (debug : String → String) : PrefixedVocabulary → Prop where
  /-- A new store has the default vocabulary. -/
  | default : Accepted debug .default
  /-- The base may be set. -/
  | setBase {vocabulary next : PrefixedVocabulary} {base : String} (before : Accepted debug vocabulary)
      (set : vocabulary.setVocabularyBase debug base = .ok next) : Accepted debug next
  /-- A prefix may be put. -/
  | putPrefix {vocabulary next : PrefixedVocabulary} {name ns : String}
      (before : Accepted debug vocabulary)
      (put : vocabulary.putPrefix debug name ns = .ok next) : Accepted debug next
  /-- A prefix may be removed. -/
  | removePrefix {vocabulary : PrefixedVocabulary} (name : String)
      (before : Accepted debug vocabulary) : Accepted debug (vocabulary.removePrefix name)

/-- A name that an IRI has under the base, short enough to stand alone. -/
def Local (vocabulary : PrefixedVocabulary) (iri name : String) : Prop :=
  iri = vocabulary.base.base ++ name ∧ name ≠ "" ∧ ':' ∉ name.toList ∧ '/' ∉ name.toList

/-- A declared prefix whose namespace an IRI extends. -/
structure Extends (vocabulary : PrefixedVocabulary) (iri name ns rest : String) : Prop where
  /-- The prefix is declared. -/
  declared : vocabulary.prefixes.find? name = some ns
  /-- The IRI continues the namespace. -/
  split : iri = ns ++ rest
  /-- It is longer than the namespace. -/
  more : rest ≠ ""

/-- The longest such namespace, under the greatest of its prefixes. -/
def Longest (vocabulary : PrefixedVocabulary) (iri name ns rest : String) : Prop :=
  vocabulary.Extends iri name ns rest ∧
    ∀ other ns' rest', vocabulary.Extends iri other ns' rest' →
      ns'.utf8ByteSize < ns.utf8ByteSize ∨ (ns'.utf8ByteSize = ns.utf8ByteSize ∧ other ≤ name)

/-- The IRIs that the shortest form keeps. -/
structure Invertible (vocabulary : PrefixedVocabulary) (iri : String) : Prop where
  /-- What an IRI has behind the base is no name kept verbatim. -/
  bare : ∀ name, vocabulary.Local iri name → Vocabulary.isInternal name = false
  /-- What an IRI has behind its longest namespace does not start with `//`. -/
  longest : (∀ name, ¬ vocabulary.Local iri name) → ∀ name ns rest,
    vocabulary.Longest iri name ns rest → "//".toList <+: rest.toList → ns = name ++ ":"
  /-- An IRI under no namespace does not start with a declared prefix, or is not read by it. -/
  plain : (∀ name, ¬ vocabulary.Local iri name) →
    (∀ name ns rest, ¬ vocabulary.Extends iri name ns rest) → ∀ name ns rest,
      ':' ∉ name.toList → iri = name ++ ":" ++ rest → vocabulary.prefixes.find? name = some ns →
      "//".toList <+: rest.toList ∨ ns = name ++ ":"

/-- The declared prefixes of a store have names without `:`. -/
theorem Accepted.colon_notMem {debug : String → String} {vocabulary : PrefixedVocabulary}
    (accepted : Accepted debug vocabulary) {name ns : String}
    (declared : vocabulary.prefixes.find? name = some ns) : ':' ∉ name.toList := by
  induction accepted generalizing name ns with
  | default => cases declared
  | setBase before set ih =>
    obtain ⟨valid, _, same⟩ := Except.bind_eq_ok.mp set
    cases same
    exact ih declared
  | @putPrefix vocabulary next added space before put ih =>
    obtain ⟨_, checked, rest⟩ := Except.bind_eq_ok.mp put
    obtain ⟨_, _, same⟩ := Except.bind_eq_ok.mp rest
    cases same
    by_cases here : name = added
    · -- The check lets no `:` pass.
      have named : prefixName name = true := by
        rw [here]
        by_contra refused
        rw [validatePrefix, if_pos (Bool.eq_false_iff.mpr refused)] at checked
        cases checked
      rw [prefixName] at named
      intro colon
      cases letters : name.toList with
      | nil => rw [letters] at colon; exact absurd colon List.not_mem_nil
      | cons first others =>
        rw [letters] at named colon
        simp only [Bool.and_eq_true, List.all_eq_true] at named
        rcases List.mem_cons.mp colon with same | later
        · rw [← same] at named
          exact absurd named.1 (by decide)
        · exact absurd (named.2 ':' later) (by decide)
    · rw [SortedMap.find?_insert_ne _ _ here] at declared
      exact ih declared
  | removePrefix removed before ih =>
    have kept := SortedMap.find?_eq_some.mp declared
    exact ih (SortedMap.find?_eq_some.mpr (SortedMap.mem_erase.mp kept).1)

/-- Keeping the later of two entries of one length finds the last of the longest. -/
private theorem foldl_longest {entries : List (String × String)} {first : String × String}
    (sorted : (first :: entries).Pairwise fun left right => left.1 < right.1) :
    let best := entries.foldl (fun best entry =>
      if entry.2.utf8ByteSize < best.2.utf8ByteSize then best else entry) first
    best ∈ first :: entries ∧ ∀ entry ∈ first :: entries,
      entry.2.utf8ByteSize < best.2.utf8ByteSize ∨
        (entry.2.utf8ByteSize = best.2.utf8ByteSize ∧ entry.1 ≤ best.1) := by
  induction entries generalizing first with
  | nil => simp
  | cons head rest ih =>
    obtain ⟨above, tail⟩ := List.pairwise_cons.mp sorted
    have after := above head List.mem_cons_self
    simp only [List.foldl_cons]
    split_ifs with shorter
    · -- The head is dropped, being shorter than what is kept.
      obtain ⟨member, most⟩ := @ih first (List.pairwise_cons.mpr
        ⟨fun entry listed => above entry (List.mem_cons_of_mem head listed),
          (List.pairwise_cons.mp tail).2⟩)
      refine ⟨?_, fun entry listed => ?_⟩
      · rcases List.mem_cons.mp member with same | later
        · exact List.mem_cons.mpr (.inl same)
        · exact List.mem_cons_of_mem _ (List.mem_cons_of_mem _ later)
      · have kept := most first List.mem_cons_self
        rcases List.mem_cons.mp listed with rfl | later
        · exact kept
        · rcases List.mem_cons.mp later with rfl | later
          · left
            rcases kept with less | ⟨same, _⟩ <;> omega
          · exact most entry (List.mem_cons_of_mem _ later)
    · -- The first entry gives way to a head that is as long.
      obtain ⟨member, most⟩ := @ih head tail
      refine ⟨List.mem_cons_of_mem _ member, fun entry listed => ?_⟩
      have kept := most head List.mem_cons_self
      rcases List.mem_cons.mp listed with rfl | later
      · rcases kept with less | ⟨same, order⟩
        · left; omega
        · rcases Nat.lt_or_eq_of_le (not_lt.mp shorter) with less | equal
          · left; omega
          · right
            exact ⟨by omega, after.le.trans order⟩
      · exact most entry later

/-- The entries whose namespace an IRI extends. -/
theorem mem_filter_extends {vocabulary : PrefixedVocabulary} {iri name ns : String} :
    (name, ns) ∈ vocabulary.prefixes.entries.filter (fun entry =>
      entry.2.toList.isPrefixOf iri.toList && decide (entry.2.utf8ByteSize < iri.utf8ByteSize)) ↔
      ∃ rest, vocabulary.Extends iri name ns rest := by
  rw [List.mem_filter, ← SortedMap.find?_eq_some, Bool.and_eq_true, decide_eq_true_eq,
    List.isPrefixOf_iff_prefix]
  constructor
  · intro ⟨declared, ⟨chars, same⟩, longer⟩
    have split : iri = ns ++ String.ofList chars := by
      apply String.toList_injective
      rw [String.toList_append, String.toList_ofList, same]
    refine ⟨String.ofList chars, declared, split, fun empty => ?_⟩
    rw [split, empty, String.append_empty] at longer
    exact absurd longer (lt_irrefl _)
  · intro ⟨rest, extended⟩
    refine ⟨extended.declared, ⟨rest.toList, ?_⟩, ?_⟩
    · rw [extended.split, String.toList_append]
    · rw [extended.split, String.utf8ByteSize_append]
      have positive : rest.utf8ByteSize ≠ 0 := fun empty =>
        extended.more (String.utf8ByteSize_eq_zero_iff.mp empty)
      have size : (name, ns).2.utf8ByteSize = ns.utf8ByteSize := rfl
      omega

/-- The entry that is found has the longest namespace, under its greatest prefix. -/
theorem best_eq_some {vocabulary : PrefixedVocabulary} {iri name ns : String}
    (found : vocabulary.best iri = some (name, ns)) :
    ∃ rest, vocabulary.Longest iri name ns rest := by
  rw [best] at found
  have sorted := vocabulary.prefixes.sorted.filter (fun entry =>
    entry.2.toList.isPrefixOf iri.toList && decide (entry.2.utf8ByteSize < iri.utf8ByteSize))
  cases entries : vocabulary.prefixes.entries.filter (fun entry =>
      entry.2.toList.isPrefixOf iri.toList && decide (entry.2.utf8ByteSize < iri.utf8ByteSize)) with
  | nil => rw [entries] at found; cases found
  | cons first rest =>
    rw [entries] at found sorted
    obtain ⟨member, most⟩ := foldl_longest sorted
    rw [Option.some.inj found, ← entries] at member
    obtain ⟨tail, extended⟩ := mem_filter_extends.mp member
    refine ⟨tail, extended, fun other ns' rest' others => ?_⟩
    have listed := mem_filter_extends.mpr ⟨rest', others⟩
    rw [entries] at listed
    have bound := most _ listed
    rw [Option.some.inj found] at bound
    exact bound

/-- No entry is found exactly when the IRI extends no namespace. -/
theorem best_eq_none {vocabulary : PrefixedVocabulary} {iri : String} :
    vocabulary.best iri = none ↔ ∀ name ns rest, ¬ vocabulary.Extends iri name ns rest := by
  rw [best]
  constructor
  · intro none name ns rest extended
    have listed := mem_filter_extends.mpr ⟨rest, extended⟩
    split at none
    · next empty => rw [empty] at listed; exact absurd listed List.not_mem_nil
    · cases none
  · intro none
    split
    · rfl
    · next first rest same =>
      have listed : (first.1, first.2) ∈ first :: rest := List.mem_cons_self
      rw [← same] at listed
      obtain ⟨tail, extended⟩ := mem_filter_extends.mp listed
      exact absurd extended (none _ _ _)

/-- A prefixed name is read under the namespace of its prefix, unless it looks like an IRI. -/
theorem expand_prefixed (vocabulary : PrefixedVocabulary) {name : String}
    (plain : ':' ∉ name.toList) (rest : String) :
    vocabulary.expand (name ++ ":" ++ rest) = match vocabulary.prefixes.find? name with
      | some ns => if "//".toList <+: rest.toList then name ++ ":" ++ rest else ns ++ rest
      | none => name ++ ":" ++ rest := by
  have letters : (name ++ ":" ++ rest).toList = name.toList ++ ':' :: rest.toList := by simp
  have named : Vocabulary.isBare (name ++ ":" ++ rest) = false := by
    simp [Vocabulary.isBare]
  have all : ∀ char ∈ name.toList, decide (char ≠ ':') = true := by
    intro char member
    exact decide_eq_true fun same => plain (same ▸ member)
  have before : (name.toList ++ ':' :: rest.toList).takeWhile (fun c => decide (c ≠ ':')) =
      name.toList := by
    rw [List.takeWhile_append_of_pos all]
    simp
  have behind : (name.toList ++ ':' :: rest.toList).dropWhile (fun c => decide (c ≠ ':')) =
      ':' :: rest.toList := by
    rw [List.dropWhile_append_of_pos all]
    simp
  rw [expand, Vocabulary.expand, if_neg (by rw [named]; decide)]
  simp only [letters, before, behind, String.ofList_toList]
  cases vocabulary.prefixes.find? name with
  | none => rfl
  | some ns => simp only [List.isPrefixOf_iff_prefix]

/-- An IRI that has no short name under the base is compacted under its longest namespace. -/
theorem compact_eq_compactPrefix {vocabulary : PrefixedVocabulary} {iri : String}
    (apart : ∀ name, ¬ vocabulary.Local iri name) :
    vocabulary.compact iri = vocabulary.compactPrefix iri := by
  rw [compact]
  cases read : strippedPrefix vocabulary.base.base iri with
  | none => rfl
  | some rest =>
    refine if_neg fun short => apart rest ⟨strippedPrefix_eq_some.mp read, short⟩

/-- The short name under the base is read back exactly when it is not kept verbatim. -/
theorem expand_local {vocabulary : PrefixedVocabulary} {iri name : String}
    (short : vocabulary.Local iri name) :
    vocabulary.expand (vocabulary.compact iri) = iri ↔ Vocabulary.isInternal name = false := by
  obtain ⟨split, some, colon, slash⟩ := short
  have compacted : vocabulary.compact iri = name := by
    rw [compact, strippedPrefix_eq_some.mpr split]
    exact if_pos ⟨some, colon, slash⟩
  rw [compacted, expand, Vocabulary.expand]
  cases kept : Vocabulary.isInternal name with
  | false =>
    have bare : Vocabulary.isBare name = true := by simp [Vocabulary.isBare, some, colon, kept]
    rw [if_pos bare, split]
    exact iff_of_true rfl rfl
  | true =>
    -- A name kept verbatim has no prefix, and is not the IRI, which has a `:`.
    have verbatim : Vocabulary.isBare name = false := by simp [Vocabulary.isBare, kept]
    have none : name.toList.dropWhile (fun c => decide (c ≠ ':')) = [] := by
      rw [List.dropWhile_eq_nil_iff]
      intro char member
      exact decide_eq_true fun same => colon (same ▸ member)
    rw [if_neg (by rw [verbatim]; decide)]
    simp only [none]
    refine iff_of_false (fun same => ?_) (by decide)
    rw [same, split, String.toList_append, List.mem_append, not_or] at colon
    exact colon.1 vocabulary.base.absolute

/-- Only one prefix is the greatest of those with the longest namespace. -/
theorem Longest.unique {vocabulary : PrefixedVocabulary} {iri name ns rest name' ns' rest' : String}
    (first : vocabulary.Longest iri name ns rest) (second : vocabulary.Longest iri name' ns' rest') :
    name = name' ∧ ns = ns' ∧ rest = rest' := by
  have below := first.2 _ _ _ second.1
  have above := second.2 _ _ _ first.1
  have named : name = name' := by
    rcases below with less | ⟨_, order⟩
    · rcases above with less' | ⟨same, _⟩ <;> omega
    · rcases above with less' | ⟨_, order'⟩
      · omega
      · exact le_antisymm order' order
  have declared := first.1.declared
  rw [named, second.1.declared] at declared
  cases declared
  exact ⟨named, rfl, (String.append_right_inj _).mp (first.1.split.symm.trans second.1.split)⟩

/-- A text has one part before its first `:`. -/
theorem colon_split_inj {name rest name' rest' : String} (plain : ':' ∉ name.toList)
    (plain' : ':' ∉ name'.toList) (same : name ++ ":" ++ rest = name' ++ ":" ++ rest') :
    name = name' ∧ rest = rest' := by
  have letters : ∀ name rest : String,
      (name ++ ":" ++ rest).toList = name.toList ++ ':' :: rest.toList := by simp
  have split := Splitting.once_single plain rest.toList
  rw [← letters, same, letters, Splitting.once_single plain'] at split
  obtain ⟨before, after⟩ := Prod.mk.inj (Option.some.inj split)
  exact ⟨(String.toList_inj.mp before).symm, (String.toList_inj.mp after).symm⟩

/-- An IRI with a `:` comes back from its shortest form exactly when it is one that form keeps. -/
theorem expand_compact_iff {debug : String → String} {vocabulary : PrefixedVocabulary}
    (accepted : Accepted debug vocabulary) {iri : String} (absolute : ':' ∈ iri.toList) :
    vocabulary.expand (vocabulary.compact iri) = iri ↔ vocabulary.Invertible iri := by
  by_cases short : ∃ name, vocabulary.Local iri name
  · obtain ⟨name, short⟩ := short
    rw [expand_local short]
    constructor
    · intro bare
      refine ⟨fun other others => ?_, fun apart => absurd short (apart name),
        fun apart => absurd short (apart name)⟩
      -- The base leaves only one rest.
      rw [(String.append_right_inj _).mp (others.1.symm.trans short.1)]
      exact bare
    · intro kept
      exact kept.bare name short
  · have apart : ∀ name, ¬ vocabulary.Local iri name := fun name short' => short ⟨name, short'⟩
    rw [compact_eq_compactPrefix apart, compactPrefix]
    cases found : vocabulary.best iri with
    | some entry =>
      obtain ⟨name, ns⟩ := entry
      obtain ⟨rest, extended, most⟩ := best_eq_some found
      have dropped : String.ofList (iri.toList.drop ns.length) = rest := by
        apply String.toList_injective
        rw [extended.split, String.toList_append, String.toList_ofList, ← String.length_toList,
          List.drop_left]
      have plain := accepted.colon_notMem extended.declared
      dsimp only
      rw [dropped, expand_prefixed vocabulary plain, extended.declared]
      dsimp only
      constructor
      · intro back
        refine ⟨fun other others => absurd others (apart other), fun _ => ?_, fun _ none => ?_⟩
        · intro other ns' rest' longest slashes
          obtain ⟨sameName, sameNs, sameRest⟩ := longest.unique ⟨extended, most⟩
          rw [sameRest] at slashes
          rw [if_pos slashes, extended.split] at back
          rw [sameNs, sameName]
          exact ((String.append_left_inj rest).mp back).symm
        · exact absurd extended (none name ns rest)
      · intro kept
        split_ifs with slashes
        · rw [kept.longest apart name ns rest ⟨extended, most⟩ slashes] at extended
          exact extended.split.symm
        · exact extended.split.symm
    | none =>
      have none := best_eq_none.mp found
      dsimp only
      -- The IRI is read as its text up to the first `:` has it.
      obtain ⟨before, after, letters, first⟩ := List.eq_append_cons_of_mem absolute
      have split : iri = String.ofList before ++ ":" ++ String.ofList after := by
        apply String.toList_injective
        simp [letters]
      have plain : ':' ∉ (String.ofList before).toList := by rwa [String.toList_ofList]
      generalize String.ofList before = name at split plain
      generalize String.ofList after = rest at split
      have others : ∀ name' rest', ':' ∉ name'.toList → iri = name' ++ ":" ++ rest' →
          name' = name ∧ rest' = rest := fun name' rest' plain' split' =>
        colon_split_inj plain' plain (split'.symm.trans split)
      rw [split, expand_prefixed vocabulary plain, ← split]
      cases declared : vocabulary.prefixes.find? name with
      | none =>
        refine iff_of_true rfl ⟨fun other short' => absurd short' (apart other),
          fun _ other ns' rest' longest => absurd longest.1 (none other ns' rest'), fun _ _ => ?_⟩
        intro name' ns' rest' plain' split' declared'
        rw [(others name' rest' plain' split').1, declared] at declared'
        cases declared'
      | some ns =>
        dsimp only
        constructor
        · intro back
          refine ⟨fun other short' => absurd short' (apart other),
            fun _ other ns' rest' longest => absurd longest.1 (none other ns' rest'), fun _ _ => ?_⟩
          intro name' ns' rest' plain' split' declared'
          obtain ⟨rfl, rfl⟩ := others name' rest' plain' split'
          rw [declared] at declared'
          cases declared'
          by_cases slashes : "//".toList <+: rest'.toList
          · exact .inl slashes
          · rw [if_neg slashes, split'] at back
            exact .inr ((String.append_left_inj rest').mp back)
        · intro kept
          split_ifs with slashes
          · rfl
          · rcases kept.plain apart none name ns rest plain split declared with slashes' | same
            · exact absurd slashes' slashes
            · rw [same]
              exact split.symm

/-- A name under the base of a new store is read back. -/
theorem expand_compact_person :
    PrefixedVocabulary.default.expand (PrefixedVocabulary.default.compact "urn:pg:vocab:Person") =
        "urn:pg:vocab:Person" ↔
      PrefixedVocabulary.default.Invertible "urn:pg:vocab:Person" :=
  expand_compact_iff (@Accepted.default id) (by decide)

/-- A name under the base that is kept verbatim is not read back. -/
theorem expand_compact_internal :
    ¬ ∀ (debug : String → String) (vocabulary : PrefixedVocabulary), Accepted debug vocabulary →
      ∀ iri, AbsoluteIri iri → vocabulary.expand (vocabulary.compact iri) = iri := by
  intro inverse
  have absolute : AbsoluteIri "urn:pg:vocab:MEMBER_OF" := by decide +kernel
  have back := inverse id .default .default "urn:pg:vocab:MEMBER_OF" absolute
  have shown : PrefixedVocabulary.default.expand
      (PrefixedVocabulary.default.compact "urn:pg:vocab:MEMBER_OF") = "MEMBER_OF" := by
    decide +kernel
  rw [shown] at back
  exact absurd back (by decide)

end PrefixedVocabulary

end Polargraph
