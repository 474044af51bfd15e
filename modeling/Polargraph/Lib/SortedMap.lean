import Mathlib.Data.List.Basic
import Mathlib.Order.Basic
import Mathlib.Order.Lattice

/-! Finite maps kept as lists in strictly increasing key order. -/

/-- A finite map whose entries are stored in strictly increasing key order. -/
structure SortedMap (K V : Type) [LinearOrder K] where
  /-- The stored pairs, smallest key first. -/
  entries : List (K × V)
  /-- No key is stored twice, and keys only grow along the list. -/
  sorted : entries.Pairwise (fun left right => left.1 < right.1)

namespace SortedMap

variable {K V : Type} [LinearOrder K]

/-- The map with no entries. -/
def empty : SortedMap K V := ⟨[], List.Pairwise.nil⟩

/-- Insertion into an ordered list, replacing the value of an equal key. -/
def insertEntry (key : K) (value : V) : List (K × V) → List (K × V)
  | [] => [(key, value)]
  | (other, stored) :: rest =>
    if key < other then (key, value) :: (other, stored) :: rest
    else if key = other then (key, value) :: rest
    else (other, stored) :: insertEntry key value rest

/-- Every inserted list holds the new pair and the old pairs at or beside its key. -/
theorem mem_insertEntry_imp {key : K} {value : V} {entries : List (K × V)} {pair : K × V}
    (member : pair ∈ insertEntry key value entries) :
    pair = (key, value) ∨ pair ∈ entries := by
  -- Each branch keeps the tail, replaces the head, or puts the new pair in front.
  induction entries with
  | nil => simpa [insertEntry] using member
  | cons head rest ih =>
    obtain ⟨other, stored⟩ := head
    simp only [insertEntry] at member
    split_ifs at member <;> simp only [List.mem_cons] at member ⊢ <;> tauto

/-- Inserting keeps the keys strictly increasing. -/
theorem insertEntry_sorted (key : K) (value : V) {entries : List (K × V)}
    (sorted : entries.Pairwise (fun left right => left.1 < right.1)) :
    (insertEntry key value entries).Pairwise (fun left right => left.1 < right.1) := by
  -- The new pair stops in front of the first larger key.
  induction entries with
  | nil => simp [insertEntry]
  | cons head rest ih =>
    obtain ⟨other, stored⟩ := head
    obtain ⟨above, tail⟩ := List.pairwise_cons.mp sorted
    simp only [insertEntry]
    split_ifs with before same
    · refine List.pairwise_cons.mpr ⟨?_, sorted⟩
      intro pair member
      rcases List.mem_cons.mp member with rfl | member
      · exact before
      · exact lt_trans before (above pair member)
    · subst same
      exact List.pairwise_cons.mpr ⟨above, tail⟩
    · refine List.pairwise_cons.mpr ⟨?_, ih tail⟩
      intro pair member
      rcases mem_insertEntry_imp member with rfl | member
      · exact lt_of_le_of_ne (not_lt.mp before) (Ne.symm same)
      · exact above pair member

/-- Insert a pair, replacing the value of an equal key. -/
def insert (m : SortedMap K V) (key : K) (value : V) : SortedMap K V :=
  ⟨insertEntry key value m.entries, insertEntry_sorted key value m.sorted⟩

/-- Keep the entries a predicate on keys accepts. -/
def filterKeys (m : SortedMap K V) (keep : K → Bool) : SortedMap K V :=
  ⟨m.entries.filter (fun pair => keep pair.1), m.sorted.filter _⟩

/-- Remove one key. -/
def erase (m : SortedMap K V) (key : K) : SortedMap K V :=
  m.filterKeys (fun other => decide (other ≠ key))

/-- Remove the keys from `low` up to but not including `high`. -/
def eraseRange (m : SortedMap K V) (low high : K) : SortedMap K V :=
  m.filterKeys (fun other => decide ¬(low ≤ other ∧ other < high))

/-- The value stored under a key. -/
def find? (m : SortedMap K V) (key : K) : Option V :=
  (m.entries.find? (fun pair => decide (pair.1 = key))).map Prod.snd

private theorem unique_of_sorted {entries : List (K × V)}
    (sorted : entries.Pairwise (fun left right => left.1 < right.1)) {key : K} {left right : V}
    (first : (key, left) ∈ entries) (second : (key, right) ∈ entries) : left = right := by
  -- Whichever of the two stands at the head, every later key is strictly larger.
  induction entries with
  | nil => simp at first
  | cons head rest ih =>
    obtain ⟨above, tail⟩ := List.pairwise_cons.mp sorted
    rcases List.mem_cons.mp first with rfl | firstTail
    · rcases List.mem_cons.mp second with same | secondTail
      · exact (congrArg Prod.snd same).symm
      · exact absurd (above _ secondTail) (lt_irrefl _)
    · rcases List.mem_cons.mp second with rfl | secondTail
      · exact absurd (above _ firstTail) (lt_irrefl _)
      · exact ih tail firstTail secondTail

/-- A key is stored at most once. -/
theorem unique (m : SortedMap K V) {key : K} {left right : V}
    (first : (key, left) ∈ m.entries) (second : (key, right) ∈ m.entries) : left = right :=
  unique_of_sorted m.sorted first second

/-- Lookup finds exactly the stored pair of a key. -/
theorem find?_eq_some {m : SortedMap K V} {key : K} {value : V} :
    m.find? key = some value ↔ (key, value) ∈ m.entries := by
  constructor
  · -- The search returns a stored pair whose key passed the test.
    intro found
    obtain ⟨pair, located, rfl⟩ := Option.map_eq_some_iff.mp found
    have named := List.find?_some located
    simp only [decide_eq_true_eq] at named
    subst named
    exact List.mem_of_find?_eq_some located
  · -- A stored pair makes the search succeed, and keys are unique.
    intro member
    unfold find?
    cases located : m.entries.find? (fun pair => decide (pair.1 = key)) with
    | none =>
      have missing := List.find?_eq_none.mp located (key, value) member
      simp at missing
    | some pair =>
      have named := List.find?_some located
      simp only [decide_eq_true_eq] at named
      have stored := List.mem_of_find?_eq_some located
      obtain ⟨name, other⟩ := pair
      subst named
      simp [m.unique stored member]

/-- Lookup fails exactly when no pair of the key is stored. -/
theorem find?_eq_none {m : SortedMap K V} {key : K} :
    m.find? key = none ↔ ∀ value, (key, value) ∉ m.entries := by
  -- Failure is the absence of every success.
  rw [Option.eq_none_iff_forall_ne_some]
  exact forall_congr' fun value => not_congr find?_eq_some

private theorem mem_insertEntry {key : K} {value : V} {entries : List (K × V)} {pair : K × V}
    (sorted : entries.Pairwise (fun left right => left.1 < right.1)) :
    pair ∈ insertEntry key value entries ↔
      pair = (key, value) ∨ (pair ∈ entries ∧ pair.1 ≠ key) := by
  -- Below the insertion point nothing changes, and an equal key can only be the replaced head.
  induction entries with
  | nil => simp [insertEntry]
  | cons head rest ih =>
    obtain ⟨other, stored⟩ := head
    obtain ⟨above, tail⟩ := List.pairwise_cons.mp sorted
    simp only [insertEntry]
    split_ifs with before same
    · have larger : ∀ later ∈ (other, stored) :: rest, later.1 ≠ key := by
        intro later member
        rcases List.mem_cons.mp member with rfl | member
        · exact (ne_of_lt before).symm
        · exact (ne_of_lt (lt_trans before (above later member))).symm
      rw [List.mem_cons]
      exact or_congr_right ⟨fun member => ⟨member, larger pair member⟩, And.left⟩
    · subst same
      have larger : ∀ later ∈ rest, later.1 ≠ key := fun later member =>
        (ne_of_lt (above later member)).symm
      simp only [List.mem_cons]
      constructor
      · rintro (rfl | member)
        · exact Or.inl rfl
        · exact Or.inr ⟨Or.inr member, larger pair member⟩
      · rintro (rfl | ⟨rfl | member, apart⟩)
        · exact Or.inl rfl
        · exact absurd rfl apart
        · exact Or.inr member
    · simp only [List.mem_cons, ih tail]
      constructor
      · rintro (rfl | rfl | ⟨member, apart⟩)
        · exact Or.inr ⟨Or.inl rfl, Ne.symm same⟩
        · exact Or.inl rfl
        · exact Or.inr ⟨Or.inr member, apart⟩
      · rintro (rfl | ⟨rfl | member, apart⟩)
        · exact Or.inr (Or.inl rfl)
        · exact Or.inl rfl
        · exact Or.inr (Or.inr ⟨member, apart⟩)

/-- Insertion stores the new pair and keeps the pairs of every other key. -/
theorem mem_insert {m : SortedMap K V} {key : K} {value : V} {pair : K × V} :
    pair ∈ (m.insert key value).entries ↔
      pair = (key, value) ∨ (pair ∈ m.entries ∧ pair.1 ≠ key) :=
  mem_insertEntry m.sorted

/-- Filtering by key keeps exactly the accepted pairs. -/
theorem mem_filterKeys {m : SortedMap K V} {keep : K → Bool} {pair : K × V} :
    pair ∈ (m.filterKeys keep).entries ↔ pair ∈ m.entries ∧ keep pair.1 = true :=
  List.mem_filter

/-- Erasing removes the pairs of one key. -/
theorem mem_erase {m : SortedMap K V} {key : K} {pair : K × V} :
    pair ∈ (m.erase key).entries ↔ pair ∈ m.entries ∧ pair.1 ≠ key := by
  simp [erase, mem_filterKeys]

/-- Range deletion removes the pairs whose key lies in the half-open interval. -/
theorem mem_eraseRange {m : SortedMap K V} {low high : K} {pair : K × V} :
    pair ∈ (m.eraseRange low high).entries ↔
      pair ∈ m.entries ∧ ¬(low ≤ pair.1 ∧ pair.1 < high) := by
  rw [eraseRange, mem_filterKeys, decide_eq_true_eq]

/-- A freshly inserted key reads back its value. -/
@[simp] theorem find?_insert_self (m : SortedMap K V) (key : K) (value : V) :
    (m.insert key value).find? key = some value :=
  find?_eq_some.mpr (mem_insert.mpr (Or.inl rfl))

/-- Inserting one key leaves the lookups of the others alone. -/
theorem find?_insert_ne (m : SortedMap K V) {key other : K} (value : V) (apart : other ≠ key) :
    (m.insert key value).find? other = m.find? other := by
  -- Both lookups succeed on the same pairs.
  ext found
  rw [find?_eq_some, find?_eq_some, mem_insert]
  constructor
  · rintro (same | ⟨member, _⟩)
    · exact absurd (congrArg Prod.fst same) apart
    · exact member
  · exact fun member => Or.inr ⟨member, apart⟩

end SortedMap
