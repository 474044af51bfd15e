import Mathlib.Data.List.Lex
import Polargraph.Lib.SortedMap

/-! Scans of a sorted map by prefix, and the groups of adjacent entries under one prefix. -/

namespace SortedMap

variable {α V : Type} [LinearOrder α]

/-- The entries whose key is at or after a starting point, in key order. -/
def seek (m : SortedMap (List α) V) (start : List α) : List (List α × V) :=
  m.entries.dropWhile (fun pair => decide (pair.1 < start))

/-- Seek to a prefix and read until the first key that does not start with it. -/
def scanPrefix (m : SortedMap (List α) V) (start : List α) : List (List α × V) :=
  (m.seek start).takeWhile (fun pair => start.isPrefixOf pair.1)

/-- No list is below one of its prefixes. -/
theorem not_lt_of_isPrefix {start key : List α} (extends_ : start <+: key) : ¬ key < start := by
  -- Equal leading symbols are cancelled until the prefix is empty.
  induction start generalizing key with
  | nil => simp
  | cons symbol start ih =>
    obtain ⟨suffix, rfl⟩ := extends_
    rw [List.cons_append, List.cons_lt_cons_iff]
    rintro (smaller | ⟨_, smaller⟩)
    · exact lt_irrefl _ smaller
    · exact ih ⟨suffix, rfl⟩ smaller

/-- A key between a prefix and one of its extensions also extends the prefix. -/
theorem isPrefix_of_between {start middle last : List α} (above : ¬ middle < start)
    (below : middle < last) (extends_ : start <+: last) : start <+: middle := by
  -- The first symbols must agree, which reduces the claim to the tails.
  induction start generalizing middle last with
  | nil => exact List.nil_prefix
  | cons symbol start ih =>
    obtain ⟨suffix, rfl⟩ := extends_
    cases middle with
    | nil => exact absurd (List.nil_lt_cons symbol start) above
    | cons other middle =>
      rw [List.cons_append, List.cons_lt_cons_iff] at below
      rw [List.cons_lt_cons_iff, not_or] at above
      rcases below with smaller | ⟨rfl, below⟩
      · exact absurd smaller above.1
      · have rest : ¬ middle < start := fun smaller => above.2 ⟨rfl, smaller⟩
        exact (List.prefix_cons_inj other).mpr (ih rest below ⟨suffix, rfl⟩)

/-- Between two keys with a common prefix, every key has that prefix. -/
theorem take_eq_of_between {len : Nat} {first middle last : List α}
    (same : first.take len = last.take len) (long : len ≤ first.length) (after : first < middle)
    (before : middle < last) :
    middle.take len = first.take len := by
  have lower : ¬ middle < first.take len := fun below =>
    not_lt_of_isPrefix (List.take_prefix len first) (lt_trans after below)
  have within := isPrefix_of_between lower before (same ▸ List.take_prefix len last)
  have width : (first.take len).length = len := by rw [List.length_take]; omega
  obtain ⟨suffix, whole⟩ := within
  rw [← whole]
  exact List.take_left' width

/-- Keys with a common front are ordered as their rests. -/
theorem append_lt_append_iff {front left right : List α} :
    front ++ left < front ++ right ↔ left < right := by
  induction front with
  | nil => exact Iff.rfl
  | cons first rest ih =>
    rw [List.cons_append, List.cons_append, List.cons_lt_cons_iff]
    exact ⟨fun order => ih.mp (order.resolve_left (lt_irrefl _)).2,
      fun order => Or.inr ⟨rfl, ih.mpr order⟩⟩

private theorem dropWhile_eq_filter (start : List α) :
    ∀ entries : List (List α × V), entries.Pairwise (fun left right => left.1 < right.1) →
      entries.dropWhile (fun pair => decide (pair.1 < start)) =
        entries.filter (fun pair => decide ¬ pair.1 < start) := by
  -- Keys only grow, so nothing below the start follows the first key at or above it.
  intro entries sorted
  induction entries with
  | nil => rfl
  | cons head rest ih =>
    obtain ⟨above, tail⟩ := List.pairwise_cons.mp sorted
    by_cases before : head.1 < start
    · simp [before, ih tail]
    · have all : ∀ pair ∈ head :: rest, decide (¬ pair.1 < start) = true := by
        intro pair member
        rcases List.mem_cons.mp member with rfl | member
        · exact decide_eq_true before
        · exact decide_eq_true fun smaller => before (lt_trans (above pair member) smaller)
      rw [List.filter_eq_self.mpr all]
      simp [before]

/-- A pair is found from a start on exactly when it is stored and not below the start. -/
theorem mem_seek {m : SortedMap (List α) V} {start : List α} {pair : List α × V} :
    pair ∈ m.seek start ↔ pair ∈ m.entries ∧ ¬ pair.1 < start := by
  rw [seek, dropWhile_eq_filter start m.entries m.sorted, List.mem_filter, decide_eq_true_eq]

/-- Keys from a start on are visited in strictly increasing order. -/
theorem seek_sorted (m : SortedMap (List α) V) (start : List α) :
    (m.seek start).Pairwise (fun left right => left.1 < right.1) :=
  m.sorted.sublist (List.dropWhile_sublist _)

private theorem takeWhile_eq_filter (start : List α) :
    ∀ entries : List (List α × V), entries.Pairwise (fun left right => left.1 < right.1) →
      (∀ pair ∈ entries, ¬ pair.1 < start) →
      entries.takeWhile (fun pair => start.isPrefixOf pair.1) =
        entries.filter (fun pair => start.isPrefixOf pair.1) := by
  -- Once one key at or above the start leaves the prefix, no larger key re-enters it.
  intro entries sorted reached
  induction entries with
  | nil => rfl
  | cons head rest ih =>
    obtain ⟨above, tail⟩ := List.pairwise_cons.mp sorted
    by_cases under : start.isPrefixOf head.1 = true
    · simp [under, ih tail (fun pair member => reached pair (List.mem_cons_of_mem _ member))]
    · have none : rest.filter (fun pair => start.isPrefixOf pair.1) = [] := by
        rw [List.filter_eq_nil_iff]
        intro pair member extends_
        exact under (List.isPrefixOf_iff_prefix.mpr (isPrefix_of_between
          (reached head List.mem_cons_self) (above pair member)
          (List.isPrefixOf_iff_prefix.mp extends_)))
      simp [under, none]

/-- A prefix scan is the filter of the whole map by that prefix. -/
theorem scanPrefix_eq_filter (m : SortedMap (List α) V) (start : List α) :
    m.scanPrefix start = m.entries.filter (fun pair => start.isPrefixOf pair.1) := by
  -- Seeking drops keys below the prefix, none of which extends it.
  unfold scanPrefix seek
  rw [dropWhile_eq_filter start m.entries m.sorted,
    takeWhile_eq_filter start _ (m.sorted.filter _) (by simp), List.filter_filter]
  refine List.filter_congr fun pair _ => ?_
  by_cases under : start.isPrefixOf pair.1 = true
  · simp [under, not_lt_of_isPrefix (List.isPrefixOf_iff_prefix.mp under)]
  · simp [under]

/-- A key without a prefix does not change what is scanned under it. -/
theorem scanPrefix_insert (m : SortedMap (List α) V) {start key : List α} (value : V)
    (apart : ¬ start <+: key) : (m.insert key value).scanPrefix start = m.scanPrefix start := by
  rw [scanPrefix_eq_filter, scanPrefix_eq_filter]
  have outside : start.isPrefixOf key = false := by
    rw [← Bool.not_eq_true, List.isPrefixOf_iff_prefix]
    exact apart
  obtain ⟨entries, sorted⟩ := m
  change (insertEntry key value entries).filter _ = entries.filter _
  clear sorted
  induction entries with
  | nil => simp [insertEntry, outside]
  | cons first rest ih =>
    obtain ⟨other, stored⟩ := first
    simp only [insertEntry]
    split_ifs with before same
    · simp [outside]
    · subst same
      simp [outside]
    · rw [List.filter_cons, List.filter_cons, ih]

/-- A pair is scanned exactly when it is stored under a key that starts with the prefix. -/
theorem mem_scanPrefix {m : SortedMap (List α) V} {start : List α} {pair : List α × V} :
    pair ∈ m.scanPrefix start ↔ pair ∈ m.entries ∧ start <+: pair.1 := by
  rw [scanPrefix_eq_filter, List.mem_filter, List.isPrefixOf_iff_prefix]

/-- A prefix scan visits keys in strictly increasing order. -/
theorem scanPrefix_sorted (m : SortedMap (List α) V) (start : List α) :
    (m.scanPrefix start).Pairwise (fun left right => left.1 < right.1) := by
  rw [scanPrefix_eq_filter]
  exact m.sorted.filter _

/-- Whether an entry belongs to the group whose first entry is given. -/
def sameGroup (len : Nat) (group : List (List α × V)) (entry : List α × V) : Bool :=
  match group with
  | [] => false
  | first :: _ => decide (len ≤ first.1.length ∧ len ≤ entry.1.length ∧
      first.1.take len = entry.1.take len)

/-- The groups of consecutive entries, given the group under construction. -/
def prefixGroups (len : Nat) : List (List α × V) → List (List α × V) → List (List (List α × V))
  | group, [] => if group.isEmpty then [] else [group]
  | group, entry :: rest =>
    if sameGroup len group entry then prefixGroups len (group ++ [entry]) rest
    else if group.isEmpty then prefixGroups len [entry] rest
    else group :: prefixGroups len [entry] rest

/-- The groups put together are the entries. -/
theorem flatten_prefixGroups (len : Nat) (group entries : List (List α × V)) :
    (prefixGroups len group entries).flatten = group ++ entries := by
  induction entries generalizing group with
  | nil =>
    cases group with
    | nil => rfl
    | cons => simp [prefixGroups]
  | cons entry rest ih =>
    simp only [prefixGroups]
    split_ifs with same empty
    · rw [ih, List.append_assoc, List.singleton_append]
    · rw [List.isEmpty_iff.mp empty, ih]
      rfl
    · rw [List.flatten_cons, ih]
      rfl

/--
In a list sorted by key, every group holds exactly the entries that share its prefix.

The group under construction must itself share one prefix, which every later entry has only while
the group continues.
-/
theorem prefixGroups_eq_filter (len : Nat) :
    ∀ (entries group : List (List α × V)),
      (group ++ entries).Pairwise (fun left right => left.1 < right.1) →
      (∀ entry ∈ group ++ entries, len ≤ entry.1.length) →
      (∀ left ∈ group, ∀ right ∈ group, left.1.take len = right.1.take len) →
      ∀ run ∈ prefixGroups len group entries, ∀ member ∈ run,
        run = (group ++ entries).filter
          (fun entry => decide (entry.1.take len = member.1.take len)) := by
  -- A group ends where the prefix changes, and a prefix that was left never comes back.
  intro entries
  induction entries with
  | nil =>
    intro group _ _ alike run within member inside
    have whole : run = group := by
      cases group with
      | nil => simp [prefixGroups] at within
      | cons => simpa [prefixGroups] using within
    subst whole
    rw [List.append_nil, List.filter_eq_self.mpr]
    exact fun entry present => decide_eq_true (alike entry present member inside)
  | cons entry rest ih =>
    intro group sorted long alike run within member inside
    simp only [prefixGroups] at within
    have splits : group ++ entry :: rest = (group ++ [entry]) ++ rest := by simp
    cases group with
    | nil =>
      simp only [sameGroup, List.isEmpty_nil, if_true, Bool.false_eq_true, if_false] at within
      exact ih [entry] sorted long (by simp) run within member inside
    | cons first group =>
      split_ifs at within with same empty
      · -- The entry continues the group.
        rw [splits] at sorted long ⊢
        have shared : first.1.take len = entry.1.take len := by
          simpa [sameGroup] using (of_decide_eq_true same).2.2
        refine ih _ sorted long ?_ run within member inside
        have join : ∀ other ∈ (first :: group) ++ [entry], other.1.take len = first.1.take len := by
          intro other present
          rcases List.mem_append.mp present with old | new
          · exact alike other old first List.mem_cons_self
          · rw [List.mem_singleton.mp new]
            exact shared.symm
        exact fun left one right two => (join left one).trans (join right two).symm
      · simp at empty
      · -- The entry starts another group, and the two share no prefix.
        have lengths := long first (by simp)
        have differs : first.1.take len ≠ entry.1.take len := by
          intro shared
          exact same (decide_eq_true ⟨lengths, long entry (by simp), shared⟩)
        obtain ⟨_, tail, across⟩ := List.pairwise_append.mp sorted
        have later : ∀ other ∈ entry :: rest, other.1.take len ≠ first.1.take len := by
          intro other present shared
          rcases List.mem_cons.mp present with rfl | present
          · exact differs shared.symm
          · have above := across first List.mem_cons_self entry List.mem_cons_self
            have below := (List.pairwise_cons.mp tail).1 other present
            exact differs (take_eq_of_between shared.symm lengths above
              below).symm
        rcases List.mem_cons.mp within with rfl | within
        · rw [List.filter_append, List.filter_eq_self.mpr, List.filter_eq_nil_iff.mpr,
            List.append_nil]
          · intro other present
            rw [decide_eq_true_eq, alike member inside first List.mem_cons_self]
            exact later other present
          · exact fun other present => decide_eq_true (alike other present member inside)
        · have own := ih [entry] tail (fun other present => long other (by
            rw [List.mem_append]; exact Or.inr present)) (by simp) run within member inside
          have listed : member ∈ entry :: rest := by
            have flat := flatten_prefixGroups len [entry] rest
            have present : member ∈ (prefixGroups len [entry] rest).flatten :=
              List.mem_flatten.mpr ⟨run, within, inside⟩
            rw [flat] at present
            exact present
          rw [List.filter_append, List.filter_eq_nil_iff.mpr, List.nil_append]
          · exact own
          · intro other present
            rw [decide_eq_true_eq, alike other present first List.mem_cons_self]
            exact fun shared => later member listed shared.symm

end SortedMap
