import Mathlib.Logic.Relation
import Mathlib.Order.Basic

/-! Graphs whose edges descend in rank, and what such a graph keeps when edges are redirected. -/

/-- Every node has a rank that all its edges descend from. -/
def Ranked {α : Type} (edge : α → α → Prop) : Prop :=
  ∃ rank : α → Nat, ∀ source target, edge source target → rank target < rank source

namespace Ranked

variable {α : Type} {edge other : α → α → Prop}

/-- A graph of ranks has no cycle. -/
theorem acyclic (ranked : Ranked edge) (node : α) : ¬ Relation.TransGen edge node node := by
  obtain ⟨rank, descends⟩ := ranked
  have lower : ∀ {source target}, Relation.TransGen edge source target →
      rank target < rank source := by
    intro source target path
    induction path with
    | single step => exact descends _ _ step
    | tail _ step ih => exact Nat.lt_trans (descends _ _ step) ih
  intro cycle
  exact Nat.lt_irrefl _ (lower cycle)

/-- A graph with fewer edges has the same ranks. -/
theorem mono (ranked : Ranked edge) (fewer : ∀ source target, other source target →
    edge source target) : Ranked other := by
  obtain ⟨rank, descends⟩ := ranked
  exact ⟨rank, fun source target step => descends source target (fewer source target step)⟩

/-- A graph without edges has ranks. -/
theorem of_empty (empty : ∀ source target, ¬ edge source target) : Ranked edge :=
  ⟨fun _ => 0, fun source target step => absurd step (empty source target)⟩

open Classical in
/-- Edges out of a node can go to others from which the node is not reached. -/
theorem redirect (ranked : Ranked edge) {node : α} (targets : List α)
    (apart : ∀ target ∈ targets, ¬ Relation.ReflTransGen edge target node)
    (same : ∀ source target, source ≠ node → other source target → edge source target)
    (new : ∀ target, other node target → target ∈ targets) : Ranked other := by
  -- What reaches the node is lifted above its new targets, which stay where they are.
  obtain ⟨rank, descends⟩ := ranked
  obtain ⟨bound, above⟩ : ∃ bound, ∀ target ∈ targets, rank target < bound := by
    clear apart new
    induction targets with
    | nil => exact ⟨0, nofun⟩
    | cons first rest ih =>
      obtain ⟨bound, above⟩ := ih
      refine ⟨max bound (rank first + 1), fun target member => ?_⟩
      rcases List.mem_cons.mp member with rfl | later
      · omega
      · exact Nat.lt_of_lt_of_le (above target later) (Nat.le_max_left _ _)
  refine ⟨fun source => if Relation.ReflTransGen edge source node then rank source + bound
    else rank source, fun source target step => ?_⟩
  dsimp only
  by_cases own : source = node
  · subst own
    have member := new target step
    have least := above target member
    rw [if_pos Relation.ReflTransGen.refl, if_neg (apart target member)]
    omega
  · have old := same source target own step
    have less := descends source target old
    by_cases lifted : Relation.ReflTransGen edge target node
    · rw [if_pos lifted, if_pos (Relation.ReflTransGen.head old lifted)]
      omega
    · rw [if_neg lifted]
      split
      · omega
      · exact less

end Ranked
