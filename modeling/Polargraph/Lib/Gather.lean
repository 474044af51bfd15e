import Mathlib.Data.List.Basic
import Mathlib.Data.List.Pairwise

/-! Gathering neighbours of a list that have one key into groups. -/

namespace List

variable {α κ : Type} [DecidableEq κ]

/-- Gather the elements of a list after those of a group that has begun. -/
def gather (key : α → κ) : List α → List α → List (List α)
  | group, [] => [group]
  | [], next :: rest => gather key [next] rest
  | first :: more, next :: rest =>
    if key first = key next then gather key (first :: more ++ [next]) rest
    else (first :: more) :: gather key [next] rest

variable {key : α → κ} {group rest : List α}

/-- The groups are the list, cut. -/
theorem flatten_gather : (gather key group rest).flatten = group ++ rest := by
  fun_induction gather key group rest with
  | case1 group => simp
  | case2 next rest ih => simp [ih]
  | case3 first more next rest same ih =>
    rw [ih, append_assoc]
    rfl
  | case4 first more next rest apart ih => simp [ih]

/-- A group has one key. -/
theorem key_eq_of_mem_gather (one : ∀ a ∈ group, ∀ b ∈ group, key a = key b) :
    ∀ found ∈ gather key group rest, ∀ a ∈ found, ∀ b ∈ found, key a = key b := by
  fun_induction gather key group rest with
  | case1 group =>
    intro found member
    rw [mem_singleton.mp member]
    exact one
  | case2 next rest ih => exact ih (by simp)
  | case3 first more next rest same ih =>
    -- All of the group have the key of its first element, and so has the next one.
    have shared : ∀ a ∈ first :: more ++ [next], key a = key first := by
      intro a member
      rcases mem_append.mp member with old | new
      · exact one a old first mem_cons_self
      · rw [mem_singleton.mp new, same]
    exact ih fun a memberA b memberB => (shared a memberA).trans (shared b memberB).symm
  | case4 first more next rest apart ih =>
    intro found member
    rcases mem_cons.mp member with rfl | member
    · exact one
    · exact ih (by simp) found member

/-- Elements with one key stand together. -/
def Contiguous (key : α → κ) (list : List α) : Prop :=
  ∀ a b c, [a, b, c] <+ list → key a = key c → key b = key a

/-- If elements with one key stand together, different groups have different keys. -/
theorem pairwise_gather (one : ∀ a ∈ group, ∀ b ∈ group, key a = key b)
    (together : Contiguous key (group ++ rest)) :
    (gather key group rest).Pairwise fun left right => ∀ a ∈ left, ∀ b ∈ right, key a ≠ key b := by
  fun_induction gather key group rest with
  | case1 group => simp
  | case2 next rest ih => exact ih (by simp) together
  | case3 first more next rest same ih =>
    have shared : ∀ a ∈ first :: more ++ [next], key a = key first := by
      intro a member
      rcases mem_append.mp member with old | new
      · exact one a old first mem_cons_self
      · rw [mem_singleton.mp new, same]
    refine ih (fun a memberA b memberB => (shared a memberA).trans (shared b memberB).symm) ?_
    rw [append_assoc]
    exact together
  | case4 first more next rest apart ih =>
    refine pairwise_cons.mpr ⟨fun right member a memberA b memberB same => ?_, ih (by simp) fun a b c
      sub equal => together a b c (sub.trans (sublist_append_right _ _)) equal⟩
    have within : b ∈ next :: rest := by
      have flat : b ∈ (gather key [next] rest).flatten := mem_flatten.mpr ⟨right, member, memberB⟩
      rw [flatten_gather] at flat
      exact flat
    have lead := one a memberA first mem_cons_self
    rcases mem_cons.mp within with rfl | later
    · exact apart (lead.symm.trans same)
    · -- The next element stands between two of one key, but has another.
      have sub : [a, next, b] <+ first :: more ++ next :: rest :=
        (singleton_sublist.mpr memberA).append ((singleton_sublist.mpr later).cons_cons next)
      exact apart (lead.symm.trans (together a next b sub same).symm)

/-- A group is all elements with its key. -/
theorem eq_filter_of_mem_gather {list found : List α} (together : Contiguous key list)
    (member : found ∈ gather key [] list) {a : α} (within : a ∈ found) :
    found = list.filter (fun b => decide (key b = key a)) := by
  have one := @key_eq_of_mem_gather α κ _ key [] list (by simp) found member
  have apart := @pairwise_gather α κ _ key [] list (by simp) together
  have flat := @flatten_gather α κ _ key [] list
  obtain ⟨before, after, cut⟩ := append_of_mem member
  rw [cut] at apart flat
  obtain ⟨_, later, earlier⟩ := pairwise_append.mp apart
  rw [nil_append] at flat
  rw [← flat, flatten_append, flatten_cons, filter_append, filter_append]
  have first : before.flatten.filter (fun b => decide (key b = key a)) = [] := by
    refine filter_eq_nil_iff.mpr fun b inside same => ?_
    obtain ⟨left, memberL, memberB⟩ := mem_flatten.mp inside
    exact earlier left memberL found mem_cons_self b memberB a within (of_decide_eq_true same)
  have last : after.flatten.filter (fun b => decide (key b = key a)) = [] := by
    refine filter_eq_nil_iff.mpr fun b inside same => ?_
    obtain ⟨right, memberR, memberB⟩ := mem_flatten.mp inside
    exact (pairwise_cons.mp later).1 right memberR a within b memberB (of_decide_eq_true same).symm
  have middle : found.filter (fun b => decide (key b = key a)) = found :=
    filter_eq_self.mpr fun b inside => decide_eq_true (one b inside a within)
  rw [first, middle, last, nil_append, append_nil]

end List
