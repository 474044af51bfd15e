import Mathlib.Data.List.Infix

/-! Splitting a list at the first occurrence of a separator. -/

namespace Splitting

variable {α : Type} [DecidableEq α]

/-- What is before and after the first occurrence of a separator, nothing when there is none. -/
def once (separator : List α) : List α → Option (List α × List α)
  | [] => if separator = [] then some ([], []) else none
  | head :: rest =>
    if separator <+: head :: rest then some ([], (head :: rest).drop separator.length)
    else (once separator rest).map fun parts => (head :: parts.1, parts.2)

variable {separator before after text : List α}

/-- A text that starts with the separator is split there. -/
theorem once_prefix (separator after : List α) :
    once separator (separator ++ after) = some ([], after) := by
  cases separator with
  | nil =>
    cases after with
    | nil => rfl
    | cons head rest => simp [once]
  | cons head rest => simp [once]

/-- The separator is between the parts. -/
theorem append_of_once (found : once separator text = some (before, after)) :
    text = before ++ separator ++ after := by
  induction text generalizing before with
  | nil =>
    rw [once] at found
    split_ifs at found with empty
    cases found
    simp [empty]
  | cons head rest ih =>
    rw [once] at found
    split_ifs at found with here
    · cases found
      obtain ⟨others, same⟩ := here
      rw [← same, List.drop_left, List.nil_append]
    · obtain ⟨⟨first, second⟩, later, same⟩ := Option.map_eq_some_iff.mp found
      cases same
      rw [ih later, List.cons_append, List.cons_append]

/-- A separator that does not occur earlier, not even in part, is where a text is split. -/
theorem once_append (absent : ¬ separator <:+: before ++ separator.dropLast) :
    once separator (before ++ separator ++ after) = some (before, after) := by
  induction before with
  | nil => rw [List.nil_append, once_prefix]
  | cons head rest ih =>
    have later : ¬ separator <:+: rest ++ separator.dropLast := fun inside =>
      absent (inside.trans (List.suffix_cons head _).isInfix)
    have short : separator.length ≤ (head :: rest ++ separator.dropLast).length := by
      rw [List.length_append, List.length_cons, List.length_dropLast]
      omega
    -- An occurrence at the start would not reach behind the separator itself.
    have start : ¬ separator <+: head :: (rest ++ separator ++ after) := by
      intro here
      have whole : head :: rest ++ separator.dropLast <+: head :: (rest ++ separator ++ after) := by
        rw [List.cons_append]
        refine (List.prefix_cons_inj head).mpr ?_
        rw [List.append_assoc]
        exact (List.prefix_append_right_inj rest).mpr
          ((List.dropLast_prefix separator).trans (List.prefix_append separator after))
      exact absent (List.prefix_of_prefix_length_le here whole short).isInfix
    rw [List.cons_append, List.cons_append, once, if_neg start, ih later]
    rfl

/-- A text is split at the first of one element. -/
theorem once_single {item : α} (absent : item ∉ before) (after : List α) :
    once [item] (before ++ item :: after) = some (before, after) := by
  rw [show before ++ item :: after = before ++ [item] ++ after by simp]
  refine once_append ?_
  rintro ⟨left, right, same⟩
  refine absent ?_
  rw [List.dropLast_singleton, List.append_nil] at same
  rw [← same]
  simp

/-- What is before the first of an element does not have it. -/
theorem notMem_of_once_single {item : α} (found : once [item] text = some (before, after)) :
    item ∉ before := by
  intro member
  obtain ⟨first, rest, rfl, absent⟩ := List.eq_append_cons_of_mem member
  have whole := append_of_once found
  rw [List.append_assoc, List.append_assoc, List.cons_append] at whole
  have split := @once_single α _ first item absent (rest ++ ([item] ++ after))
  rw [← whole, found] at split
  have same := congrArg List.length (Prod.mk.inj (Option.some.inj split)).1
  rw [List.length_append, List.length_cons] at same
  omega

end Splitting
