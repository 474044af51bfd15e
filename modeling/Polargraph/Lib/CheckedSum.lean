import Mathlib.Algebra.Order.BigOperators.Group.List
import Mathlib.Algebra.Order.Group.Int
import Mathlib.Algebra.Ring.Int.Defs

/-! Adding numbers one after the other, as long as every partial sum stays between two bounds. -/

namespace CheckedSum

variable {low high : Int}

/-- Add a number to a partial sum, nothing when the sum leaves the bounds. -/
def add (low high : Int) (held : Option Int) (number : Int) : Option Int :=
  held.bind fun sum => if low ≤ sum + number ∧ sum + number < high then some (sum + number) else none

/-- The sum of some numbers, nothing when a partial sum leaves the bounds. -/
def checked (low high : Int) (numbers : List Int) : Option Int :=
  numbers.foldl (add low high) (some 0)

/-- The sum of the positive numbers. -/
def positives (numbers : List Int) : Int := (numbers.filter fun number => decide (0 < number)).sum

/-- The sum of the numbers that are not positive. -/
def negatives (numbers : List Int) : Int := (numbers.filter fun number => !decide (0 < number)).sum

/-- The positive numbers and the others add up to the sum. -/
theorem positives_add_negatives (numbers : List Int) :
    positives numbers + negatives numbers = numbers.sum := by
  rw [positives, negatives, ← List.sum_append]
  exact (List.filter_append_perm _ numbers).sum_eq

/-- The positive numbers do not add up to less than nothing. -/
theorem positives_nonneg (numbers : List Int) : 0 ≤ positives numbers := by
  refine List.sum_nonneg fun number member => ?_
  have positive := of_decide_eq_true (List.mem_filter.mp member).2
  omega

/-- The numbers that are not positive do not add up to more than nothing. -/
theorem negatives_nonpos (numbers : List Int) : negatives numbers ≤ 0 := by
  have each : ∀ number ∈ numbers.filter (fun number => !decide (0 < number)), number ≤ 0 := by
    intro number member
    have positive := (List.mem_filter.mp member).2
    simp only [Bool.not_eq_true', decide_eq_false_iff_not] at positive
    omega
  have total := List.sum_le_card_nsmul _ 0 each
  rwa [nsmul_zero] at total

/-- Nothing stays nothing. -/
theorem foldl_none (numbers : List Int) : numbers.foldl (add low high) none = none := by
  induction numbers with
  | nil => rfl
  | cons number rest ih => exact ih

/-- A sum that is found is the sum of the numbers. -/
theorem foldl_eq_some {numbers : List Int} {start sum : Int}
    (found : numbers.foldl (add low high) (some start) = some sum) : sum = start + numbers.sum := by
  induction numbers generalizing start with
  | nil =>
    cases found
    simp
  | cons number rest ih =>
    rw [List.foldl_cons, add, Option.bind_some] at found
    split_ifs at found with fits
    · rw [ih found, List.sum_cons]
      omega
    · rw [foldl_none] at found
      cases found

/-- When what is positive and what is not stay in the bounds, so does every partial sum. -/
theorem foldl_of_fits {numbers : List Int} {start : Int} (below : low ≤ start + negatives numbers)
    (above : start + positives numbers < high) :
    numbers.foldl (add low high) (some start) = some (start + numbers.sum) := by
  induction numbers generalizing start with
  | nil => simp
  | cons number rest ih =>
    have pos := positives_nonneg rest
    have neg := negatives_nonpos rest
    have split : (positives (number :: rest) = number + positives rest ∧
        negatives (number :: rest) = negatives rest ∧ 0 < number) ∨
        (positives (number :: rest) = positives rest ∧
          negatives (number :: rest) = number + negatives rest ∧ ¬ 0 < number) := by
      by_cases positive : 0 < number
      · exact .inl (by simp [positives, negatives, positive])
      · exact .inr (by simp [positives, negatives, positive])
    -- The number goes to one of the two sides.
    have fits : low ≤ start + number ∧ start + number < high := by omega
    rw [List.foldl_cons, add, Option.bind_some, if_pos fits, ih (by omega) (by omega), List.sum_cons]
    congr 1
    omega

/-- When both sides stay in the bounds, the sum is found in every order. -/
theorem checked_of_fits {numbers : List Int} (below : low ≤ negatives numbers)
    (above : positives numbers < high) : checked low high numbers = some numbers.sum := by
  rw [checked, foldl_of_fits (by omega) (by omega), Int.zero_add]

/-- A sum out of the bounds is not found. -/
theorem checked_of_not_fits {numbers : List Int} (zero : low ≤ 0 ∧ 0 < high)
    (out : ¬ (low ≤ numbers.sum ∧ numbers.sum < high)) : checked low high numbers = none := by
  rcases List.eq_nil_or_concat numbers with rfl | ⟨before, last, rfl⟩
  · exact absurd zero out
  · rw [checked, List.concat_eq_append, List.foldl_append, List.foldl_cons, List.foldl_nil]
    cases found : before.foldl (add low high) (some 0) with
    | none => rfl
    | some sum =>
      have whole := foldl_eq_some found
      rw [add, Option.bind_some, if_neg]
      rw [List.concat_eq_append, List.sum_append, List.sum_singleton] at out
      rw [whole, Int.zero_add]
      exact out

/-- A sum that starts with numbers that leave the bounds is not found. -/
theorem checked_append_of_not_fits {first rest : List Int} (zero : low ≤ 0 ∧ 0 < high)
    (out : ¬ (low ≤ first.sum ∧ first.sum < high)) : checked low high (first ++ rest) = none := by
  have none := checked_of_not_fits zero out
  rw [checked] at none ⊢
  rw [List.foldl_append, none, foldl_none]

end CheckedSum
