import Mathlib.Data.List.Induction

/-! Updates made one after another, of which the last one stands: of a value, of a set and of a map. -/

/-- An update that ignores the value it updates, or leaves it alone. -/
def Overwrites {α : Type} (update : α → α) : Prop :=
  (∀ value, update value = value) ∨ ∃ result, ∀ value, update value = result

namespace Overwrites

variable {α ι : Type} {first second : α → α}

/-- An overwrite after an overwrite is one. -/
theorem comp (later : Overwrites second) (earlier : Overwrites first) :
    Overwrites (fun value => second (first value)) := by
  rcases later with keeps | ⟨result, sets⟩
  · simp only [keeps]
    exact earlier
  · exact Or.inr ⟨result, fun value => sets _⟩

/-- Repeating an overwrite changes nothing. -/
theorem idem (overwrites : Overwrites first) (value : α) : first (first value) = first value := by
  rcases overwrites with keeps | ⟨result, sets⟩
  · rw [keeps]
  · rw [sets, sets]

/-- Overwrites one after another make an overwrite. -/
theorem foldl {update : α → ι → α} {items : List ι}
    (each : ∀ item ∈ items, Overwrites (fun value => update value item)) :
    Overwrites (fun value => items.foldl update value) := by
  induction items with
  | nil => exact Or.inl fun _ => rfl
  | cons item rest ih =>
    exact (ih fun other member => each other (List.mem_cons_of_mem _ member)).comp
      (each item List.mem_cons_self)

end Overwrites

/-- A change to a set: an element, and whether it belongs to the set from now on. -/
structure Change (κ : Type) where
  /-- The element. -/
  key : κ
  /-- Whether it is inserted, or else removed. -/
  present : Bool

namespace Change

variable {κ : Type} [DecidableEq κ]

/-- The set after a change. -/
def apply (held : List κ) (change : Change κ) : List κ :=
  if change.present then
    if change.key ∈ held then held else change.key :: held
  else held.filter (fun key => decide (key ≠ change.key))

/-- What the last change of an element says about it. -/
def last (changes : List (Change κ)) (key : κ) : Option Bool :=
  ((changes.filter (fun change => decide (change.key = key))).getLast?).map Change.present

/-- A change decides about its own element and leaves the others alone. -/
theorem mem_apply {held : List κ} {change : Change κ} {key : κ} :
    key ∈ apply held change ↔ if change.key = key then change.present = true else key ∈ held := by
  unfold apply
  by_cases same : change.key = key
  · subst same
    cases change.present with
    | true =>
      simp only [if_true]
      split_ifs with inside
      · simp [inside]
      · simp
    | false => simp
  · have other : key ≠ change.key := fun equal => same equal.symm
    cases change.present with
    | true =>
      simp only [if_true, if_neg same]
      split_ifs
      · rfl
      · simp [other]
    | false => simp [same, other]

/-- The last change of an element decides, and without one nothing happens to it. -/
theorem mem_foldl_apply {changes : List (Change κ)} {held : List κ} {key : κ} :
    key ∈ changes.foldl apply held ↔ (last changes key).getD (decide (key ∈ held)) = true := by
  -- The induction takes the last change off.
  induction changes using List.reverseRecOn with
  | nil => simp [last]
  | append_singleton before change ih =>
    rw [List.foldl_append, List.foldl_cons, List.foldl_nil, mem_apply]
    by_cases same : change.key = key
    · simp [last, same]
    · simp only [if_neg same, ih]
      simp [last, same]

end Change

variable {κ ι ν : Type} [DecidableEq κ] [DecidableEq ι]

/-- A map after some assignments, made one after another. -/
def assigned (held : κ → Option ν) (pairs : List (κ × ν)) : κ → Option ν :=
  pairs.foldl (fun map pair => Function.update map pair.1 (some pair.2)) held

/-- A key without an assignment keeps what it has. -/
theorem assigned_of_forall_ne (held : κ → Option ν) {pairs : List (κ × ν)} {key : κ}
    (apart : ∀ pair ∈ pairs, pair.1 ≠ key) : assigned held pairs key = held key := by
  induction pairs generalizing held with
  | nil => rfl
  | cons pair rest ih =>
    have later := ih (Function.update held pair.1 (some pair.2))
      fun other member => apart other (List.mem_cons_of_mem _ member)
    exact later.trans (Function.update_of_ne (apart pair List.mem_cons_self).symm _ _)

/-- Assignments to the keys of one part of a map are those to the part. -/
theorem assigned_map (held : κ → Option ν) {part : ι → κ} (injective : Function.Injective part)
    (pairs : List (ι × ν)) (key : ι) :
    assigned held (pairs.map fun pair => (part pair.1, pair.2)) (part key) =
      assigned (fun inner => held (part inner)) pairs key := by
  induction pairs generalizing held with
  | nil => rfl
  | cons pair rest ih =>
    have updated : (fun inner => Function.update held (part pair.1) (some pair.2) (part inner)) =
        Function.update (fun inner => held (part inner)) pair.1 (some pair.2) := by
      funext inner
      by_cases same : inner = pair.1
      · subst same
        simp
      · rw [Function.update_of_ne same, Function.update_of_ne fun equal => same (injective equal)]
    refine (ih (Function.update held (part pair.1) (some pair.2))).trans ?_
    rw [updated]
    rfl

/-- A key that is assigned one value only has that value after the assignments. -/
theorem assigned_of_mem (held : κ → Option ν) {pairs : List (κ × ν)} {key : κ} {value : ν}
    (member : (key, value) ∈ pairs) (only : ∀ other, (key, other) ∈ pairs → other = value) :
    assigned held pairs key = some value := by
  induction pairs generalizing held with
  | nil => cases member
  | cons pair rest ih =>
    change assigned (Function.update held pair.1 (some pair.2)) rest key = some value
    by_cases later : (key, value) ∈ rest
    · exact ih _ later fun other inside => only other (List.mem_cons_of_mem _ inside)
    · -- The assignment at the front is the last one of the key.
      obtain rfl : (key, value) = pair := (List.mem_cons.mp member).resolve_right later
      refine (assigned_of_forall_ne _ fun pair inside same => later ?_).trans
        (Function.update_self _ _ _)
      subst same
      rwa [← only pair.2 (List.mem_cons_of_mem _ inside)]
