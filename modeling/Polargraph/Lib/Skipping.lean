import Polargraph.Lib.Except
import Polargraph.Lib.PrefixScan

/-! Loops that skip some items depend on the items they keep only. -/

namespace List

variable {α β ε : Type} {keep : α → Bool} {items : List α}

/-- A loop that skips the items not kept runs over the kept ones. -/
theorem foldl_of_skips {step : β → α → β}
    (skips : ∀ state, ∀ item ∈ items, keep item = false → step state item = state) (state : β) :
    items.foldl step state = (items.filter keep).foldl step state := by
  induction items generalizing state with
  | nil => rfl
  | cons item rest ih =>
    have later := ih fun state other member => skips state other (List.mem_cons_of_mem _ member)
    cases kept : keep item with
    | true => rw [List.filter_cons_of_pos kept, List.foldl_cons, List.foldl_cons, later]
    | false =>
      rw [List.filter_cons_of_neg (by simp [kept]), List.foldl_cons,
        skips state item List.mem_cons_self kept, later]

/-- A loop that may fail and skips the items not kept runs over the kept ones. -/
theorem foldlM_of_skips {step : β → α → Except ε β}
    (skips : ∀ state, ∀ item ∈ items, keep item = false → step state item = .ok state) (state : β) :
    items.foldlM step state = (items.filter keep).foldlM step state := by
  induction items generalizing state with
  | nil => rfl
  | cons item rest ih =>
    have later := ih fun state other member => skips state other (List.mem_cons_of_mem _ member)
    cases kept : keep item with
    | true =>
      rw [List.filter_cons_of_pos kept, List.foldlM_cons, List.foldlM_cons]
      exact congrArg _ (funext later)
    | false =>
      rw [List.filter_cons_of_neg (by simp [kept]), List.foldlM_cons,
        skips state item List.mem_cons_self kept]
      exact later state

/-- Loops whose steps agree on the items run alike. -/
theorem foldlM_congr_items {first second : β → α → Except ε β}
    (same : ∀ item ∈ items, ∀ state, first state item = second state item) (state : β) :
    items.foldlM first state = items.foldlM second state := by
  induction items generalizing state with
  | nil => rfl
  | cons item rest ih =>
    have later := ih fun other member => same other (List.mem_cons_of_mem _ member)
    rw [List.foldlM_cons, List.foldlM_cons, same item List.mem_cons_self]
    exact congrArg _ (funext later)

/-- What every step of a loop that may fail preserves holds at its end. -/
theorem foldlM_invariant {step : β → α → Except ε β} (holds : β → Prop)
    (preserved : ∀ state item after, item ∈ items → holds state → step state item = .ok after →
      holds after) {first last : β} (done : items.foldlM step first = .ok last)
    (initial : holds first) : holds last := by
  induction items generalizing first with
  | nil => cases done; exact initial
  | cons item rest ih =>
    rw [List.foldlM_cons] at done
    obtain ⟨middle, here, later⟩ := Except.bind_eq_ok.mp done
    exact ih (fun state other after member => preserved state other after
      (List.mem_cons_of_mem _ member)) later
      (preserved first item middle List.mem_cons_self initial here)

end List

namespace Except

variable {ε α β : Type}

/-- Steps that agree on every item give the same results. -/
theorem mapM_congr {first second : α → Except ε β} {items : List α}
    (same : ∀ item ∈ items, first item = second item) : items.mapM first = items.mapM second := by
  induction items with
  | nil => rfl
  | cons item rest ih =>
    rw [List.mapM_cons, List.mapM_cons, same item List.mem_cons_self,
      ih fun other member => same other (List.mem_cons_of_mem _ member)]

end Except

namespace SortedMap

variable {α V : Type} [LinearOrder α]

/-- Maps with the same kept pairs have the same kept pairs under every prefix. -/
theorem filter_scanPrefix_congr {left right : SortedMap (List α) V} {keep : List α × V → Bool}
    (same : left.entries.filter keep = right.entries.filter keep) (start : List α) :
    (left.scanPrefix start).filter keep = (right.scanPrefix start).filter keep := by
  rw [scanPrefix_eq_filter, scanPrefix_eq_filter, List.filter_comm, same, List.filter_comm]

end SortedMap
