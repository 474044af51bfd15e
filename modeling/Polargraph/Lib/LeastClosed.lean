import Mathlib.Data.Set.Card
import Mathlib.Order.CompletePartialOrder

/-! The least set that contains a seed and is closed under monotone rules, reached by passes. -/

namespace LeastClosed

variable {α ρ : Type} (derive : ρ → Set α → Set α)

/-- What the rules derive from a set is in it. -/
def Closed (rules : List ρ) (facts : Set α) : Prop := ∀ rule ∈ rules, derive rule facts ⊆ facts

/-- The least closed set that contains a seed. -/
def least (seed : Set α) (rules : List ρ) : Set α :=
  ⋂₀ {facts | seed ⊆ facts ∧ Closed derive rules facts}

/-- Add what each rule derives in turn, so that a rule sees what the rules before it derived. -/
def pass (rules : List ρ) (facts : Set α) : Set α :=
  rules.foldl (fun facts rule => facts ∪ derive rule facts) facts

variable {derive} {rules : List ρ} {seed facts bound : Set α}

/-- The least closed set contains the seed. -/
theorem subset_least : seed ⊆ least derive seed rules :=
  fun _ member _ holds => holds.1 member

/-- The least closed set is within every closed set that contains the seed. -/
theorem least_subset (above : seed ⊆ facts) (closed : Closed derive rules facts) :
    least derive seed rules ⊆ facts := fun _ member => member facts ⟨above, closed⟩

/-- The least closed set is closed when the rules are monotone. -/
theorem closed_least (mono : ∀ rule ∈ rules, Monotone (derive rule)) :
    Closed derive rules (least derive seed rules) := by
  intro rule inside fact derived other holds
  -- What a rule derives from the least set it derives from each closed set too.
  have below : least derive seed rules ⊆ other := least_subset holds.1 holds.2
  exact holds.2 rule inside (mono rule inside below derived)

/-- The order of the rules does not matter to the least closed set. -/
theorem least_perm {other : List ρ} (perm : other.Perm rules) :
    least derive seed other = least derive seed rules := by
  have same : ∀ facts, Closed derive other facts ↔ Closed derive rules facts := fun facts =>
    ⟨fun closed rule member => closed rule (perm.mem_iff.mpr member),
      fun closed rule member => closed rule (perm.mem_iff.mp member)⟩
  simp only [least, same]

/-- A pass only adds. -/
theorem subset_pass : facts ⊆ pass derive rules facts := by
  induction rules generalizing facts with
  | nil => exact subset_refl _
  | cons rule rest ih => exact subset_trans Set.subset_union_left ih

/-- A pass stays within every closed set. -/
theorem pass_subset (mono : ∀ rule ∈ rules, Monotone (derive rule)) (below : facts ⊆ bound)
    (closed : Closed derive rules bound) : pass derive rules facts ⊆ bound := by
  induction rules generalizing facts with
  | nil => exact below
  | cons rule rest ih =>
    refine ih (fun other member => mono other (List.mem_cons_of_mem _ member)) ?_
      (fun other member => closed other (List.mem_cons_of_mem _ member))
    exact Set.union_subset below (subset_trans (mono rule List.mem_cons_self below)
      (closed rule List.mem_cons_self))

/-- A set to which a pass adds nothing is closed. -/
theorem closed_of_pass (stable : pass derive rules facts ⊆ facts) : Closed derive rules facts := by
  induction rules generalizing facts with
  | nil => exact fun _ => nofun
  | cons rule rest ih =>
    -- Whatever the first rule adds would still be there at the end of the pass.
    have first : facts ∪ derive rule facts ⊆ facts := subset_trans subset_pass stable
    have same : facts ∪ derive rule facts = facts := subset_antisymm first Set.subset_union_left
    intro other member
    rcases List.mem_cons.mp member with rfl | later
    · exact subset_trans Set.subset_union_right first
    · have rest_ : pass derive rest facts ⊆ facts := by
        have whole := stable
        rw [pass, List.foldl_cons, same] at whole
        exact whole
      exact ih rest_ other later

/-- A set between the seed and the least closed set to which a pass adds nothing is that set. -/
theorem eq_least (above : seed ⊆ facts) (below : facts ⊆ least derive seed rules)
    (stable : pass derive rules facts ⊆ facts) : facts = least derive seed rules :=
  subset_antisymm below (least_subset above (closed_of_pass stable))

/-- A larger set leaves less of a finite set missing. -/
theorem missing_lt {other : Set α} (finite : bound.Finite) (grows : facts ⊆ other)
    (within : other ⊆ bound) (new : ¬ other ⊆ facts) :
    (bound \ other).ncard < (bound \ facts).ncard := by
  obtain ⟨fact, member, absent⟩ := Set.not_subset.mp new
  refine Set.ncard_lt_ncard ⟨Set.sdiff_subset_sdiff_right grows, fun all => ?_⟩
    (finite.subset Set.sdiff_subset)
  exact (all ⟨within member, absent⟩).2 member

end LeastClosed
