import Mathlib.Data.List.Destutter
import Mathlib.Data.List.Sort

/-! Sorting entries by key without stability, and keeping the first entry of each key. -/

variable {κ β : Type}

/-- Sorting by key, with the entries of one key in any order. -/
structure SortsByKey [LE κ] (sort : List (κ × β) → List (κ × β)) : Prop where
  /-- The same entries come out. -/
  perm : ∀ entries, (sort entries).Perm entries
  /-- Their keys ascend. -/
  ordered : ∀ entries, (sort entries).Pairwise (fun first second => first.1 ≤ second.1)

section LinearOrder

variable [LinearOrder κ]

/-- Drop each entry that has the key of the last one kept. -/
def dedupByKey (entries : List (κ × β)) : List (κ × β) :=
  entries.destutter (fun first second => first.1 ≠ second.1)

/-- The first entry with a key. -/
def firstOf (entries : List (κ × β)) (key : κ) : Option (κ × β) :=
  entries.find? (fun entry => decide (entry.1 = key))

/-- An entry found under a key is listed, and has the key. -/
theorem mem_of_firstOf {entries : List (κ × β)} {key : κ} {entry : κ × β}
    (found : firstOf entries key = some entry) : entry ∈ entries ∧ entry.1 = key :=
  ⟨List.mem_of_find?_eq_some found, by simpa using List.find?_some found⟩

/-- A listed key has a first entry. -/
theorem exists_firstOf {entries : List (κ × β)} {entry : κ × β} (member : entry ∈ entries) :
    ∃ first, firstOf entries entry.1 = some first := by
  rw [← Option.isSome_iff_exists, firstOf, List.find?_isSome]
  exact ⟨entry, member, by simp⟩

/-- A list in which no entry has a key has no first entry with it. -/
theorem firstOf_eq_none {entries : List (κ × β)} {key : κ} :
    firstOf entries key = none ↔ ∀ entry ∈ entries, entry.1 ≠ key := by
  simp [firstOf]

/-- What is kept of ascending entries after a first one are the first entries of their keys. -/
private theorem mem_destutter' (first : κ × β) (rest : List (κ × β))
    (ordered : (first :: rest).Pairwise (fun first second => first.1 ≤ second.1)) (entry : κ × β) :
    entry ∈ rest.destutter' (fun first second => first.1 ≠ second.1) first ↔
      firstOf (first :: rest) entry.1 = some entry := by
  induction rest generalizing first with
  | nil =>
    by_cases same : first.1 = entry.1
    · simp [firstOf, same, eq_comm]
    · have apart : entry ≠ first := fun equal => same (by rw [equal])
      simp [firstOf, same, apart]
  | cons second rest ih =>
    obtain ⟨least, tail⟩ := List.pairwise_cons.mp ordered
    by_cases same : first.1 = second.1
    · -- The second entry repeats the key, and is dropped.
      have shorter : (first :: rest).Pairwise (fun first second => first.1 ≤ second.1) :=
        List.pairwise_cons.mpr ⟨fun other member => least other (List.mem_cons_of_mem _ member),
          (List.pairwise_cons.mp tail).2⟩
      rw [List.destutter'_cons_neg _ (by simpa using same), ih first shorter]
      simp only [firstOf, List.find?_cons, same]
      cases decide (second.1 = entry.1) <;> rfl
    · -- The first entry is the only one with its key.
      rw [List.destutter'_cons_pos _ (by simpa using same), List.mem_cons, ih second tail]
      by_cases own : first.1 = entry.1
      · have above : firstOf (second :: rest) entry.1 = none := by
          rw [firstOf_eq_none]
          intro other member equal
          have after : second.1 ≤ other.1 := by
            rcases List.mem_cons.mp member with rfl | later
            · exact le_refl _
            · exact (List.pairwise_cons.mp tail).1 other later
          have before := least second List.mem_cons_self
          exact same (le_antisymm before (own ▸ equal ▸ after))
        rw [above]
        simp [firstOf, own, eq_comm]
      · have apart : entry ≠ first := fun equal => own (by rw [equal])
        simp [firstOf, own, apart]

/-- What is kept of ascending entries are the first entries of their keys. -/
theorem mem_dedupByKey {entries : List (κ × β)}
    (ordered : entries.Pairwise (fun first second => first.1 ≤ second.1)) (entry : κ × β) :
    entry ∈ dedupByKey entries ↔ firstOf entries entry.1 = some entry := by
  cases entries with
  | nil =>
    show entry ∈ [] ↔ _
    simp [firstOf]
  | cons first rest => exact mem_destutter' first rest ordered entry

variable [DecidableEq β]

/-- Whether an entry may come before another when a value is favored within its key. -/
def favors (value : β) (first second : κ × β) : Bool :=
  decide (first.1 < second.1) ||
    (decide (first.1 = second.1) && (decide (first.2 = value) || decide (second.2 ≠ value)))

/-- Sorting by key, with a value before the others of its key. -/
def sortFavoring (value : β) (entries : List (κ × β)) : List (κ × β) :=
  entries.insertionSort (fun first second => favors value first second)

/-- The order that favors a value is transitive. -/
theorem favors_trans (value : β) (first second third : κ × β)
    (before : favors value first second = true) (after : favors value second third = true) :
    favors value first third = true := by
  simp only [favors, Bool.or_eq_true, Bool.and_eq_true, decide_eq_true_eq] at before after ⊢
  rcases before with less | ⟨same, ahead⟩
  · rcases after with less' | ⟨same', _⟩
    · exact Or.inl (lt_trans less less')
    · exact Or.inl (same' ▸ less)
  · rcases after with less' | ⟨same', ahead'⟩
    · exact Or.inl (same ▸ less')
    · refine Or.inr ⟨same.trans same', ?_⟩
      tauto

/-- The order that favors a value is total. -/
theorem favors_total (value : β) (first second : κ × β) :
    (favors value first second || favors value second first) = true := by
  simp only [favors, Bool.or_eq_true, Bool.and_eq_true, decide_eq_true_eq]
  rcases lt_trichotomy first.1 second.1 with less | same | greater
  · exact Or.inl (Or.inl less)
  · by_cases own : first.2 = value
    · exact Or.inl (Or.inr ⟨same, Or.inl own⟩)
    · exact Or.inr (Or.inr ⟨same.symm, Or.inr own⟩)
  · exact Or.inr (Or.inl greater)

/-- Entries sorted with a value before the others of their key are in that order. -/
theorem pairwise_sortFavoring (value : β) (entries : List (κ × β)) :
    (sortFavoring value entries).Pairwise
      (fun first second => favors value first second = true) := by
  have trans : IsTrans (κ × β) (fun first second => favors value first second = true) :=
    ⟨favors_trans value⟩
  have total : Std.Total (fun first second : κ × β => favors value first second = true) :=
    ⟨fun first second => by simpa using favors_total value first second⟩
  exact List.pairwise_insertionSort _ entries

/-- Favoring a value sorts by key. -/
theorem sortFavoring_sorts (value : β) : SortsByKey (sortFavoring (κ := κ) value) where
  perm entries := List.perm_insertionSort _ entries
  ordered entries := by
    refine (pairwise_sortFavoring value entries).imp fun before => ?_
    simp only [favors, Bool.or_eq_true, Bool.and_eq_true, decide_eq_true_eq] at before
    rcases before with less | ⟨same, _⟩
    · exact le_of_lt less
    · exact le_of_eq same

/-- The favored value is the first of its key. -/
theorem firstOf_sortFavoring {entries : List (κ × β)} {key : κ} {value : β}
    (member : (key, value) ∈ entries) :
    firstOf (sortFavoring value entries) key = some (key, value) := by
  have sorted := pairwise_sortFavoring value entries
  have within : (key, value) ∈ sortFavoring value entries :=
    (List.perm_insertionSort _ entries).mem_iff.mpr member
  obtain ⟨first, found⟩ := exists_firstOf within
  obtain ⟨listed, named⟩ := mem_of_firstOf found
  obtain ⟨key', value'⟩ := first
  obtain rfl : key' = key := named
  rw [found]
  -- An entry before the favored one has its value.
  obtain ⟨_, before, after, split, skipped⟩ := List.find?_eq_some_iff_append.mp found
  have ahead : (key', value) ∈ (key', value') :: after := by
    rw [sortFavoring] at within
    have whole : sortFavoring value entries = before ++ (key', value') :: after := split
    rw [← sortFavoring, whole, List.mem_append] at within
    rcases within with early | here
    · have absent := skipped _ early
      simp at absent
    · exact here
  rcases List.mem_cons.mp ahead with same | later
  · rw [same]
  · have whole : (before ++ (key', value') :: after).Pairwise
        (fun first second => favors value first second = true) := split ▸ sorted
    have order := (List.pairwise_cons.mp (List.pairwise_append.mp whole).2.1).1 _ later
    simp only [favors, lt_irrefl, decide_false, Bool.false_or, decide_true, Bool.true_and, ne_eq,
      not_true_eq_false, Bool.or_false, decide_eq_true_eq] at order
    rw [order]

end LinearOrder
