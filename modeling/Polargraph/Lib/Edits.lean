import Mathlib.Data.List.Induction

/-! Inserts and deletes of one thing, made one after another. -/

namespace Edits

variable {α : Type}

section Edits

variable (inserts deletes : α → Prop)

/-- Whether a thing is there after some edits; an edit that does both inserts. -/
def edited (there : Prop) (edits : List α) : Prop :=
  edits.foldl (fun there edit => (there ∧ ¬ deletes edit) ∨ inserts edit) there

/-- Some edit inserts a thing that no later one deletes. -/
def Stands (edits : List α) : Prop :=
  ∃ before edit rest, edits = before ++ edit :: rest ∧ inserts edit ∧ ∀ later ∈ rest, ¬ deletes later

end Edits

variable {inserts deletes : α → Prop}

/-- Nothing stands before the first edit. -/
@[simp] theorem stands_nil : ¬ Stands inserts deletes [] := by
  rintro ⟨before, edit, rest, same, _⟩
  simp at same

/-- After one more edit a thing stands when the edit inserts it, or leaves it standing. -/
@[simp] theorem stands_concat (edits : List α) (last : α) :
    Stands inserts deletes (edits ++ [last]) ↔
      inserts last ∨ (Stands inserts deletes edits ∧ ¬ deletes last) := by
  constructor
  · rintro ⟨before, edit, rest, same, inserted, kept⟩
    -- Either the last edit is the insert, or it is one of the later ones.
    rcases List.eq_nil_or_concat rest with rfl | ⟨rest, final, rfl⟩
    · obtain ⟨_, own⟩ := List.append_inj' same rfl
      obtain rfl := List.singleton_inj.mp own
      exact Or.inl inserted
    · rw [List.concat_eq_append, ← List.cons_append, ← List.append_assoc] at same
      obtain ⟨rfl, own⟩ := List.append_inj' same rfl
      obtain rfl := List.singleton_inj.mp own
      refine Or.inr ⟨⟨before, edit, rest, rfl, inserted, fun later member => ?_⟩, ?_⟩
      · exact kept later (by simp [member])
      · exact kept last (by simp)
  · rintro (inserted | ⟨⟨before, edit, rest, rfl, inserted, kept⟩, last_kept⟩)
    · exact ⟨edits, last, [], rfl, inserted, by simp⟩
    · refine ⟨before, edit, rest ++ [last], by simp, inserted, fun later member => ?_⟩
      rcases List.mem_append.mp member with within | own
      · exact kept later within
      · rw [List.mem_singleton.mp own]
        exact last_kept

/-- A thing is there after some edits when it stands, or was there and is never deleted. -/
theorem edited_iff (there : Prop) (edits : List α) : edited inserts deletes there edits ↔
    Stands inserts deletes edits ∨ (there ∧ ∀ edit ∈ edits, ¬ deletes edit) := by
  -- The induction is on the last edit.
  induction edits using List.reverseRecOn with
  | nil => simp [edited]
  | append_singleton edits last ih =>
    have step : edited inserts deletes there (edits ++ [last]) ↔
        (edited inserts deletes there edits ∧ ¬ deletes last) ∨ inserts last := by
      simp [edited]
    rw [step, ih, stands_concat]
    simp only [List.mem_append, List.mem_singleton, or_imp, forall_and, forall_eq]
    tauto

/-- What stands was inserted. -/
theorem Stands.exists {edits : List α} (stands : Stands inserts deletes edits) :
    ∃ edit ∈ edits, inserts edit := by
  obtain ⟨before, edit, rest, rfl, inserted, _⟩ := stands
  exact ⟨edit, by simp, inserted⟩

/-- What was inserted and does not stand is deleted. -/
theorem deleted_of_not_stands {edits : List α} (falls : ¬ Stands inserts deletes edits)
    {edit : α} (member : edit ∈ edits) (inserted : inserts edit) : ∃ later ∈ edits, deletes later := by
  obtain ⟨before, rest, rfl⟩ := List.append_of_mem member
  by_contra none_
  simp only [not_exists, not_and] at none_
  exact falls ⟨before, edit, rest, rfl, inserted, fun later within => none_ later (by simp [within])⟩

end Edits
