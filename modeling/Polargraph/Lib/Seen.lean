import Mathlib.Algebra.GroupWithZero.Nat
import Mathlib.Algebra.Order.BigOperators.Group.List
import Mathlib.Algebra.Order.Group.Nat

/-! Loops that keep what they have seen: items of distinct keys, and what is reached by a worklist. -/

namespace Seen

section Distinct

variable {α κ : Type} [DecidableEq κ] (key : α → κ)

/-- Keep the first item of each key that was not seen before. -/
def distinctBy : List κ → List α → List α
  | _, [] => []
  | seen, item :: rest =>
    if key item ∈ seen then distinctBy seen rest else item :: distinctBy (key item :: seen) rest

variable {key}

/-- What is kept was there, under a key that was not seen. -/
theorem mem_of_distinctBy {seen : List κ} {items : List α} {item : α}
    (member : item ∈ distinctBy key seen items) : item ∈ items ∧ key item ∉ seen := by
  induction items generalizing seen with
  | nil => cases member
  | cons first rest ih =>
    rw [distinctBy] at member
    split_ifs at member with held
    · obtain ⟨inside, new⟩ := ih member
      exact ⟨List.mem_cons_of_mem _ inside, new⟩
    · rcases List.mem_cons.mp member with rfl | later
      · exact ⟨List.mem_cons_self, held⟩
      · obtain ⟨inside, new⟩ := ih later
        exact ⟨List.mem_cons_of_mem _ inside, fun seen => new (List.mem_cons_of_mem _ seen)⟩

end Distinct

section Close

variable {α : Type} [DecidableEq α] (next : α → List α)

/-- Take items off a stack and push what follows those that are new, unless it is cut off. -/
def close : Nat → List α → List α → Option (List α)
  | 0, _, _ => none
  | fuel + 1, seen, todo =>
    match todo.getLast? with
    | none => some seen
    | some item =>
      if item ∈ seen then close fuel seen todo.dropLast
      else close fuel (seen ++ [item]) (todo.dropLast ++ next item)

variable {next}

/-- What follows the items of a list that are not seen. -/
def ahead (next : α → List α) (items seen : List α) : Nat :=
  ((items.filter fun item => decide (item ∉ seen)).map fun item => (next item).length).sum

/-- Seeing one more item leaves no more ahead. -/
theorem ahead_mono (items seen : List α) (item : α) :
    ahead next items (seen ++ [item]) ≤ ahead next items seen := by
  refine List.Sublist.sum_le_sum (List.Sublist.map _ ?_) (fun _ _ => Nat.zero_le _)
  refine List.monotone_filter_right _ fun other away => ?_
  simp only [List.mem_append, not_or, decide_eq_true_eq] at away ⊢
  exact away.1

/-- Seeing an item of the list takes what follows it off what is ahead. -/
theorem ahead_append {items seen : List α} {item : α} (member : item ∈ items) (new : item ∉ seen) :
    ahead next items (seen ++ [item]) + (next item).length ≤ ahead next items seen := by
  induction items with
  | nil => cases member
  | cons first rest ih =>
    unfold ahead at ih ⊢
    by_cases same : first = item
    · subst same
      rw [List.filter_cons_of_neg (by simp), List.filter_cons_of_pos (by simpa using new),
        List.map_cons, List.sum_cons]
      have fewer := @ahead_mono α _ next rest seen first
      unfold ahead at fewer
      omega
    · have later : item ∈ rest := (List.mem_cons.mp member).resolve_left (Ne.symm same)
      have shorter := ih later
      by_cases held : first ∈ seen
      · rw [List.filter_cons_of_neg (by simp [held]), List.filter_cons_of_neg (by simpa using held)]
        exact shorter
      · rw [List.filter_cons_of_pos (by simp [held, same]),
          List.filter_cons_of_pos (by simpa using held), List.map_cons, List.sum_cons, List.map_cons,
          List.sum_cons]
        omega

/-- A loop over a stack ends when only finitely many items are followed by others. -/
theorem exists_close {items : List α} (leaves : ∀ item, item ∉ items → next item = [])
    {fuel : Nat} {seen todo : List α} (enough : todo.length + ahead next items seen < fuel) :
    ∃ reached, close next fuel seen todo = some reached := by
  induction fuel generalizing seen todo with
  | zero => exact absurd enough (Nat.not_lt_zero _)
  | succ fuel ih =>
    rw [close]
    rcases List.eq_nil_or_concat todo with rfl | ⟨front, item, rfl⟩
    · exact ⟨seen, rfl⟩
    · rw [List.concat_eq_append] at enough ⊢
      simp only [List.getLast?_append, List.getLast?_singleton, Option.some_or, List.dropLast_concat]
      rw [List.length_append, List.length_singleton] at enough
      split_ifs with held
      · exact ih (by omega)
      · refine ih ?_
        rw [List.length_append]
        by_cases listed : item ∈ items
        · have less := @ahead_append _ _ next _ _ _ listed held
          omega
        · -- An item that is not listed is followed by nothing.
          have unchanged := @ahead_mono α _ next items seen item
          rw [leaves item listed]
          simp only [List.length_nil]
          omega

end Close

section Drain

variable {α : Type} [DecidableEq α] (next : α → List α)

/-- Take items off a queue and add what follows those that are new, as long as there is fuel. -/
def drain : Nat → List α → List α → List α
  | fuel + 1, seen, item :: todo =>
    if item ∈ seen then drain fuel seen todo else drain fuel (seen ++ [item]) (todo ++ next item)
  | _, seen, _ => seen

variable {next}

/-- Nothing is seen twice. -/
theorem nodup_drain {fuel : Nat} {seen todo : List α} (distinct : seen.Nodup) :
    (drain next fuel seen todo).Nodup := by
  fun_induction drain next fuel seen todo with
  | case1 fuel seen item todo held ih => exact ih distinct
  | case2 fuel seen item todo new ih => exact ih (by grind)
  | case3 => exact distinct

/-- What is seen was seen before, or can be reached from the queue. -/
theorem of_mem_drain {fuel : Nat} {seen todo : List α} {item : α}
    (member : item ∈ drain next fuel seen todo) :
    item ∈ seen ∨ ∃ start ∈ todo, Relation.ReflTransGen (fun a b => b ∈ next a) start item := by
  fun_induction drain next fuel seen todo with
  | case1 fuel seen first todo held ih =>
    rcases ih member with before | ⟨start, queued, path⟩
    · exact Or.inl before
    · exact Or.inr ⟨start, List.mem_cons_of_mem _ queued, path⟩
  | case2 fuel seen first todo new ih =>
    rcases ih member with before | ⟨start, queued, path⟩
    · rcases List.mem_append.mp before with old | own
      · exact Or.inl old
      · exact Or.inr ⟨first, List.mem_cons_self, by rw [List.mem_singleton.mp own]⟩
    · rcases List.mem_append.mp queued with behind | step
      · exact Or.inr ⟨start, List.mem_cons_of_mem _ behind, path⟩
      · exact Or.inr ⟨first, List.mem_cons_self, .head step path⟩
  | case3 => exact Or.inl member

/-- With enough fuel, what was seen or queued is seen, and what follows it. -/
theorem drain_closed {items : List α} (leaves : ∀ item, item ∉ items → next item = []) {fuel : Nat}
    {seen todo : List α} (enough : todo.length + ahead next items seen ≤ fuel)
    (followed : ∀ item ∈ seen, ∀ later ∈ next item, later ∈ seen ∨ later ∈ todo) :
    (∀ item, item ∈ seen ∨ item ∈ todo → item ∈ drain next fuel seen todo) ∧
      ∀ item ∈ drain next fuel seen todo, ∀ later ∈ next item,
        later ∈ drain next fuel seen todo := by
  fun_induction drain next fuel seen todo with
  | case1 fuel seen first todo held ih =>
    rw [List.length_cons] at enough
    obtain ⟨kept, closed⟩ := ih (by omega) (by grind)
    exact ⟨fun item known => kept item (by grind), closed⟩
  | case2 fuel seen first todo new ih =>
    have less : (todo ++ next first).length + ahead next items (seen ++ [first]) ≤ fuel := by
      rw [List.length_append]
      rw [List.length_cons] at enough
      by_cases listed : first ∈ items
      · have fewer := @ahead_append _ _ next _ _ _ listed new
        omega
      · have unchanged := @ahead_mono _ _ next items seen first
        rw [leaves first listed, List.length_nil]
        omega
    obtain ⟨kept, closed⟩ := ih less (by grind)
    exact ⟨fun item known => kept item (by grind), closed⟩
  | case3 fuel seen todo short =>
    -- The fuel lasts until the queue is empty.
    have done : todo = [] := by
      cases todo with
      | nil => rfl
      | cons first rest =>
        rw [List.length_cons] at enough
        exact absurd rfl (short (fuel - 1) first rest (by omega))
    subst done
    exact ⟨by simp, fun item member later after => by simpa using followed item member later after⟩

end Drain

end Seen
