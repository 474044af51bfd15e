import Mathlib.Data.List.Forall2

/-! Sequences of steps that may fail. -/

namespace Except

variable {ε α β : Type}

/-- A sequence succeeds when its first step does and the rest does on its result. -/
theorem bind_eq_ok {step : Except ε α} {next : α → Except ε β} {result : β} :
    (step >>= next) = .ok result ↔ ∃ middle, step = .ok middle ∧ next middle = .ok result := by
  cases step with
  | error problem => simp [bind, Except.bind]
  | ok middle => simp [bind, Except.bind]

/-- A mapped step succeeds when the step does. -/
theorem map_eq_ok {step : Except ε α} {f : α → β} {result : β} :
    step.map f = .ok result ↔ ∃ middle, step = .ok middle ∧ f middle = result := by
  cases step with
  | error problem => simp [Except.map]
  | ok middle => simp [Except.map]

/-- A sequence fails when its first step does or the rest does on its result. -/
theorem bind_eq_error {step : Except ε α} {next : α → Except ε β} {problem : ε} :
    (step >>= next) = .error problem ↔
      step = .error problem ∨ ∃ middle, step = .ok middle ∧ next middle = .error problem := by
  cases step with
  | error problem => simp [bind, Except.bind]
  | ok middle => simp [bind, Except.bind]

/-- A step applied to every item fails only where it fails on one of them. -/
theorem exists_of_mapM_error {step : α → Except ε β} {items : List α} {problem : ε}
    (failed : items.mapM step = .error problem) : ∃ item ∈ items, step item = .error problem := by
  induction items with
  | nil => cases failed
  | cons item rest ih =>
    rw [List.mapM_cons] at failed
    rcases bind_eq_error.mp failed with here | ⟨result, _, later⟩
    · exact ⟨item, List.mem_cons_self, here⟩
    · rcases bind_eq_error.mp later with there | ⟨results, _, done⟩
      · obtain ⟨other, member, stuck⟩ := ih there
        exact ⟨other, List.mem_cons_of_mem _ member, stuck⟩
      · cases done

/-- A step applied to every item succeeds when it does on each of them. -/
theorem mapM_eq_ok {step : α → Except ε β} {items : List α} {results : List β} :
    items.mapM step = .ok results ↔
      List.Forall₂ (fun item result => step item = .ok result) items results := by
  -- The first item is stepped before the rest.
  induction items generalizing results with
  | nil =>
    simp only [List.mapM_nil, List.forall₂_nil_left_iff]
    exact ⟨fun same => (Except.ok.inj same).symm, fun same => by rw [same]; rfl⟩
  | cons item rest ih =>
    simp only [List.mapM_cons, bind_eq_ok, ih, List.forall₂_cons_left_iff]
    constructor
    · rintro ⟨result, first, others, more, same⟩
      exact ⟨result, others, first, more, (Except.ok.inj same).symm⟩
    · rintro ⟨result, others, first, more, rfl⟩
      exact ⟨result, first, others, more, rfl⟩

/-- A step applied to every item succeeds exactly when it does on each of them. -/
theorem mapM_isOk_iff {step : α → Except ε β} {items : List α} :
    (∃ results, items.mapM step = .ok results) ↔ ∀ item ∈ items, ∃ result, step item = .ok result := by
  induction items with
  | nil => simp [pure, Except.pure]
  | cons item rest ih =>
    simp only [List.mapM_cons, bind_eq_ok, List.forall_mem_cons, ← ih]
    constructor
    · rintro ⟨_, result, first, others, more, _⟩
      exact ⟨⟨result, first⟩, others, more⟩
    · rintro ⟨⟨result, first⟩, others, more⟩
      exact ⟨_, result, first, others, more, rfl⟩

/-- A result of a step applied to every item is the result of one of them. -/
theorem mem_of_mapM {step : α → Except ε β} {items : List α} {results : List β}
    (done : items.mapM step = .ok results) {result : β} :
    result ∈ results ↔ ∃ item ∈ items, step item = .ok result := by
  -- Items and results correspond one by one.
  have pairs := mapM_eq_ok.mp done
  clear done
  induction pairs with
  | nil => simp
  | cons first _ ih =>
    simp only [List.mem_cons, ih, exists_eq_or_imp, first, Except.ok.injEq]
    exact or_congr_left eq_comm

/-- What a step keeps of each item is kept of the whole list. -/
theorem map_eq_of_mapM {γ : Type} {step : α → Except ε β} {before : α → γ} {after : β → γ}
    (keeps : ∀ item result, step item = .ok result → after result = before item)
    {items : List α} {results : List β} (done : items.mapM step = .ok results) :
    results.map after = items.map before := by
  have pairs := mapM_eq_ok.mp done
  clear done
  induction pairs with
  | nil => rfl
  | cons first _ ih => rw [List.map_cons, List.map_cons, keeps _ _ first, ih]

/-- A result is that of a computation whose errors are renamed. -/
theorem mapError_eq_ok {ε' : Type} {rename : ε → ε'} {result : Except ε α} {value : α} :
    result.mapError rename = .ok value ↔ result = .ok value := by
  cases result <;> simp [Except.mapError]

end Except
