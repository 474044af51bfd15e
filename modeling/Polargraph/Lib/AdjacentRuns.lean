import Mathlib.Data.List.Basic
import Mathlib.Order.Defs.LinearOrder
import Mathlib.Order.Lattice

/-! A walk that keeps the best of the items of a key, when the items of a key follow each other. -/

namespace AdjacentRuns

variable {κ σ ω ρ : Type} [DecidableEq κ] [LinearOrder ω] [LinearOrder ρ] (rank : σ → ρ)

/-- The better of two values, the one that is held when they are ranked alike. -/
def better (held offered : σ) : σ := if rank held < rank offered then offered else held

/-- The best item of each run of one key, given the best of the run under way. -/
def runs : κ × σ → List (κ × σ) → List (κ × σ)
  | current, [] => [current]
  | current, item :: rest =>
    if current.1 = item.1 then runs (current.1, better rank current.2 item.2) rest
    else current :: runs item rest

/-- The best item of each run of one key. -/
def bests : List (κ × σ) → List (κ × σ)
  | [] => []
  | first :: rest => runs rank first rest

variable {rank}

/-- The better of two values is one of them, and is ranked no lower than either. -/
theorem better_spec (held offered : σ) :
    (better rank held offered = held ∨ better rank held offered = offered) ∧
      rank held ≤ rank (better rank held offered) ∧
      rank offered ≤ rank (better rank held offered) := by
  rw [better]
  split_ifs with above
  · exact ⟨.inr rfl, le_of_lt above, le_refl _⟩
  · exact ⟨.inl rfl, le_refl _, not_lt.mp above⟩

/-- An item of a run is one of the items, ranked no lower than those of its key. -/
structure IsBest (rank : σ → ρ) (items : List (κ × σ)) (item : κ × σ) : Prop where
  /-- It is one of the items. -/
  member : item ∈ items
  /-- No item of its key is ranked higher. -/
  above : ∀ other ∈ items, other.1 = item.1 → rank other.2 ≤ rank item.2

/-- The runs of sorted items have sorted keys, one best item each, and every key. -/
theorem runs_spec {order : κ → ω} (injective : Function.Injective order) {current : κ × σ}
    {rest : List (κ × σ)}
    (sorted : (current :: rest).Pairwise fun left right => order left.1 ≤ order right.1) :
    (runs rank current rest).Pairwise (fun left right => order left.1 < order right.1) ∧
      (∀ item ∈ runs rank current rest, IsBest rank (current :: rest) item) ∧
      ∀ item ∈ current :: rest, ∃ best ∈ runs rank current rest, best.1 = item.1 := by
  induction rest generalizing current with
  | nil =>
    refine ⟨List.pairwise_singleton _ _, fun item member => ?_, fun item member => ?_⟩
    · obtain rfl := List.mem_singleton.mp member
      refine ⟨List.mem_cons_self, fun other listed _ => ?_⟩
      rw [List.mem_singleton.mp listed]
    · obtain rfl := List.mem_singleton.mp member
      exact ⟨item, List.mem_cons_self, rfl⟩
  | cons next rest ih =>
    obtain ⟨first, later⟩ := List.pairwise_cons.mp sorted
    rw [runs]
    split_ifs with same
    · -- The item goes on with the run: the better of the two stands for both.
      have spec : (better rank current.2 next.2 = current.2 ∨ better rank current.2 next.2 = next.2) ∧
          rank current.2 ≤ rank (better rank current.2 next.2) ∧
          rank next.2 ≤ rank (better rank current.2 next.2) := better_spec current.2 next.2
      obtain ⟨own, held, offered⟩ := spec
      have sorted' : ((current.1, better rank current.2 next.2) :: rest).Pairwise
          fun left right => order left.1 ≤ order right.1 :=
        List.pairwise_cons.mpr ⟨fun item listed => first item (List.mem_cons_of_mem _ listed),
          (List.pairwise_cons.mp later).2⟩
      obtain ⟨pairwise, best, covers⟩ := ih sorted'
      have inside : (current.1, better rank current.2 next.2) ∈ current :: next :: rest := by
        rcases own with same' | same'
        · rw [same']
          exact List.mem_cons_self
        · rw [same', same]
          exact List.mem_cons_of_mem _ List.mem_cons_self
      refine ⟨pairwise, fun item member => ?_, fun item member => ?_⟩
      · obtain ⟨listed, above⟩ := best item member
        refine ⟨?_, fun other there key => ?_⟩
        · rcases List.mem_cons.mp listed with rfl | listed
          · exact inside
          · exact List.mem_cons_of_mem _ (List.mem_cons_of_mem _ listed)
        · have through := above (current.1, better rank current.2 next.2) List.mem_cons_self
          rcases List.mem_cons.mp there with rfl | there
          · exact le_trans held (through key)
          · rcases List.mem_cons.mp there with rfl | there
            · exact le_trans offered (through (same.trans key))
            · exact above other (List.mem_cons_of_mem _ there) key
      · have own := covers (current.1, better rank current.2 next.2) List.mem_cons_self
        rcases List.mem_cons.mp member with rfl | member
        · exact own
        · rcases List.mem_cons.mp member with rfl | member
          · rw [← same]
            exact own
          · exact covers item (List.mem_cons_of_mem _ member)
    · -- The run ends: what follows has greater keys.
      obtain ⟨pairwise, best, covers⟩ := ih later
      have less : ∀ item ∈ next :: rest, order current.1 < order item.1 := by
        intro item member
        have start : order current.1 < order next.1 :=
          lt_of_le_of_ne (first next List.mem_cons_self) fun tie => same (injective tie)
        rcases List.mem_cons.mp member with rfl | listed
        · exact start
        · exact lt_of_lt_of_le start ((List.pairwise_cons.mp later).1 item listed)
      refine ⟨List.pairwise_cons.mpr ⟨fun item member => less item (best item member).member,
        pairwise⟩, fun item member => ?_, fun item member => ?_⟩
      · rcases List.mem_cons.mp member with rfl | member
        · refine ⟨List.mem_cons_self, fun other there key => ?_⟩
          rcases List.mem_cons.mp there with rfl | there
          · exact le_refl _
          · have above := less other there
            rw [key] at above
            exact absurd above (lt_irrefl _)
        · obtain ⟨listed, above⟩ := best item member
          refine ⟨List.mem_cons_of_mem _ listed, fun other there key => ?_⟩
          rcases List.mem_cons.mp there with rfl | there
          · have beyond := less item listed
            rw [key] at beyond
            exact absurd beyond (lt_irrefl _)
          · exact above other there key
      · rcases List.mem_cons.mp member with rfl | member
        · exact ⟨item, List.mem_cons_self, rfl⟩
        · obtain ⟨found, listed, key⟩ := covers item member
          exact ⟨found, List.mem_cons_of_mem _ listed, key⟩

/-- The best items of sorted items: one for each key. -/
theorem bests_spec {order : κ → ω} (injective : Function.Injective order) {items : List (κ × σ)}
    (sorted : items.Pairwise fun left right => order left.1 ≤ order right.1) :
    ((bests rank items).map Prod.fst).Nodup ∧
      (∀ item ∈ bests rank items, IsBest rank items item) ∧
      ∀ item ∈ items, ∃ best ∈ bests rank items, best.1 = item.1 := by
  cases items with
  | nil => exact ⟨List.nodup_nil, nofun, nofun⟩
  | cons first rest =>
    obtain ⟨pairwise, best, covers⟩ := @runs_spec _ _ _ _ _ _ _ rank _ injective first rest sorted
    refine ⟨?_, best, covers⟩
    rw [List.Nodup, List.pairwise_map]
    exact pairwise.imp fun less same => absurd (same ▸ less) (lt_irrefl _)

end AdjacentRuns
