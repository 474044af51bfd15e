import Mathlib.Algebra.BigOperators.Group.List.Basic
import Mathlib.Algebra.Order.Group.Int
import Mathlib.Algebra.Ring.Int.Defs
import Mathlib.Data.List.Infix

/-! Saturating sums, and when they do not depend on how adjacent numbers are grouped. -/

namespace Saturating

variable (lo hi : Int)

/-- The number within the bounds that is nearest to a number. -/
def clamp (x : Int) : Int := max lo (min hi x)

/-- The saturating sum of some numbers, one after another. -/
def fold (numbers : List Int) : Int := numbers.foldl (fun total d => clamp lo hi (total + d)) 0

/-- A sum that leaves the bounds is not followed or preceded by one of the opposite sign. -/
def Apart (a b : Int) : Prop :=
  (hi < a → 0 ≤ b) ∧ (a < lo → b ≤ 0) ∧ (hi < b → 0 ≤ a) ∧ (b < lo → a ≤ 0)

/-- No run of adjacent numbers whose sum leaves the bounds is next to one of the opposite sign. -/
def Steady (numbers : List Int) : Prop := ∀ a b, a ++ b <:+: numbers → Apart lo hi a.sum b.sum

/-- What adjacent numbers may be merged to, in any grouping. -/
inductive Merged : List Int → Int → Prop
  /-- A number that is not merged. -/
  | one (d : Int) : Merged [d] d
  /-- Two adjacent results. -/
  | pair {a b : List Int} {x y : Int} (left : Merged a x) (right : Merged b y) :
      Merged (a ++ b) (clamp lo hi (x + y))

/-- Something is merged. -/
theorem Merged.ne_nil {lo hi : Int} {run : List Int} {x : Int} (merged : Merged lo hi run x) :
    run ≠ [] := by
  induction merged with
  | one d => exact List.cons_ne_nil d []
  | pair left _ ih => exact List.append_ne_nil_of_left_ne_nil ih _

variable {lo hi} (low : lo ≤ 0) (high : 0 ≤ hi)

include low high

/-- Sums that are apart are added up to the sum of both. -/
theorem clamp_add {a b : Int} (apart : Apart lo hi a b) :
    clamp lo hi (clamp lo hi a + clamp lo hi b) = clamp lo hi (a + b) := by
  unfold Apart at apart
  unfold clamp
  omega

/-- The sum of nothing is within the bounds. -/
theorem clamp_zero : clamp lo hi 0 = 0 := by
  unfold clamp
  omega

/-- Adding up the sums of adjacent runs gives the sum of all. -/
theorem foldl_runs {first : List Int} {runs : List (List Int)}
    (steady : Steady lo hi (first ++ runs.flatten)) :
    (runs.map fun run => clamp lo hi run.sum).foldl (fun total d => clamp lo hi (total + d))
      (clamp lo hi first.sum) = clamp lo hi (first ++ runs.flatten).sum := by
  induction runs generalizing first with
  | nil => simp
  | cons run rest ih =>
    have next := clamp_add low high (steady first run
      ⟨[], rest.flatten, by simp [List.append_assoc]⟩)
    rw [List.map_cons, List.foldl_cons, next, ← List.sum_append, List.flatten_cons,
      ← List.append_assoc]
    rw [List.flatten_cons, ← List.append_assoc] at steady
    exact ih steady

/-- The saturating sum is the sum within the bounds. -/
theorem fold_of_steady {numbers : List Int} (within : ∀ d ∈ numbers, lo ≤ d ∧ d ≤ hi)
    (steady : Steady lo hi numbers) : fold lo hi numbers = clamp lo hi numbers.sum := by
  have singles : (numbers.map fun d => [d]).flatten = numbers := by
    rw [← List.flatMap_def]
    exact List.flatMap_singleton' numbers
  have runs := @foldl_runs lo hi low high [] (numbers.map fun d => [d]) (by rwa [singles])
  rw [singles, List.map_map, List.sum_nil, clamp_zero low high] at runs
  rw [fold, ← List.nil_append numbers, ← runs]
  congr 1
  refine (List.map_id _).symm.trans (List.map_congr_left fun d member => ?_)
  obtain ⟨least, most⟩ := within d member
  simp only [id, Function.comp_apply, List.sum_singleton, clamp]
  omega

/-- A run whose parts are apart may be merged to its sum. -/
theorem merged_clamp {run : List Int} (within : ∀ d ∈ run, lo ≤ d ∧ d ≤ hi) (filled : run ≠ [])
    (steady : Steady lo hi run) : Merged lo hi run (clamp lo hi run.sum) := by
  induction run using List.reverseRecOn with
  | nil => exact absurd rfl filled
  | append_singleton init d ih =>
    obtain ⟨least, most⟩ := within d (by simp)
    have own : clamp lo hi d = d := by
      unfold clamp
      omega
    by_cases start : init = []
    · subst start
      rw [List.nil_append, List.sum_singleton, own]
      exact .one d
    · have before := ih (fun e member => within e (List.mem_append_left _ member)) start
        fun a b inside => steady a b (inside.trans (List.prefix_append _ _).isInfix)
      have last := clamp_add low high (steady init [d] (List.infix_refl _))
      rw [List.sum_append, List.sum_singleton, ← (List.sum_singleton : [d].sum = d), ← last,
        List.sum_singleton, own]
      exact before.pair (.one d)

/-- Runs that are merged to one number in every grouping are steady. -/
theorem steady_of_merged {numbers : List Int} (within : ∀ d ∈ numbers, lo ≤ d ∧ d ≤ hi)
    (alike : ∀ run, run <:+: numbers → ∀ x y, Merged lo hi run x → Merged lo hi run y → x = y) :
    Steady lo hi numbers := by
  intro a b inside
  -- A shortest violation would make two groupings of its two runs differ.
  induction length : (a ++ b).length using Nat.strongRecOn generalizing a b with
  | ind size ih =>
    have smaller : ∀ run, run <:+: a ++ b → run.length < size → Steady lo hi run := by
      intro run part shorter c d sub
      refine ih _ ?_ c d (sub.trans (part.trans inside)) rfl
      exact Nat.lt_of_le_of_lt sub.length_le shorter
    have merged : ∀ run, run <:+: a ++ b → run.length < size → run ≠ [] →
        Merged lo hi run (clamp lo hi run.sum) := by
      intro run part shorter filled
      refine merged_clamp low high (fun d member => ?_) filled (smaller run part shorter)
      exact within d (inside.subset (part.subset member))
    by_cases left : a = []
    · subst left
      simp only [Apart, List.sum_nil]
      omega
    by_cases right : b = []
    · subst right
      simp only [Apart, List.sum_nil]
      omega
    have leftLength := List.length_pos_iff.mpr left
    have rightLength := List.length_pos_iff.mpr right
    rw [List.length_append] at length
    have whole := (merged a (List.prefix_append _ _).isInfix (by omega) left).pair
      (merged b (List.suffix_append _ _).isInfix (by omega) right)
    have one : ∀ d, [d] <:+: a ++ b → lo ≤ d ∧ d ≤ hi := fun d part =>
      within d (inside.subset (part.subset List.mem_cons_self))
    have first : (hi < a.sum → 0 ≤ b.sum) ∧ (a.sum < lo → b.sum ≤ 0) := by
      rcases a with _ | ⟨d, rest⟩
      · exact absurd rfl left
      · have bounds := one d ⟨[], rest ++ b, by simp⟩
        by_cases more : rest = []
        · subst more
          rw [List.sum_singleton]
          omega
        · have restLength := List.length_pos_iff.mpr more
          simp only [List.length_cons] at length
          have early := smaller (d :: rest) (List.prefix_append _ _).isInfix (by simp; omega)
            [d] rest (List.infix_refl _)
          have late := smaller (rest ++ b) ⟨[d], [], by simp⟩ (by simp; omega) rest b
            (List.infix_refl _)
          have other := (Merged.one d).pair (merged (rest ++ b) ⟨[d], [], by simp⟩
            (by simp; omega) (by simp [more]))
          have same := alike _ inside _ _ whole other
          simp only [Apart, clamp, List.sum_append, List.sum_cons, List.sum_nil] at early late same ⊢
          omega
    have second : (hi < b.sum → 0 ≤ a.sum) ∧ (b.sum < lo → a.sum ≤ 0) := by
      rcases List.eq_nil_or_concat b with rfl | ⟨rest, d, rfl⟩
      · exact absurd rfl right
      · rw [List.concat_eq_append] at *
        have bounds := one d ⟨a ++ rest, [], by simp⟩
        by_cases more : rest = []
        · subst more
          rw [List.nil_append, List.sum_singleton]
          omega
        · have restLength := List.length_pos_iff.mpr more
          simp only [List.length_append, List.length_singleton] at length
          have late := smaller (rest ++ [d]) (List.suffix_append _ _).isInfix (by simp; omega)
            rest [d] (List.infix_refl _)
          have early := smaller (a ++ rest) ⟨[], [d], by simp⟩ (by simp; omega) a rest
            (List.infix_refl _)
          have other := (merged (a ++ rest) ⟨[], [d], by simp⟩ (by simp; omega)
            (by simp [more])).pair (Merged.one d)
          rw [List.append_assoc] at other
          have same := alike _ inside _ _ whole other
          simp only [Apart, clamp, List.sum_append, List.sum_cons, List.sum_nil] at early late same ⊢
          omega
    exact ⟨first.1, first.2, second.1, second.2⟩

end Saturating
