import Mathlib.Data.Set.Card

/-! A search by levels, of at most some levels: with enough of them it visits all that is reached. -/

namespace BreadthFirst

section Steps

variable {α : Type} (next : α → List α)

/-- One element is a successor of another. -/
def Step (source target : α) : Prop := target ∈ next source

/-- An element is reached from another in one or more steps. -/
def Reached (start target : α) : Prop := Relation.TransGen (Step next) start target

variable {next}

/-- Visited elements are reached, and what is not on the frontier has its successors visited. -/
structure Invariant (next : α → List α) (start : α) (visited frontier : List α) : Prop where
  /-- Visited elements are reached. -/
  sound : ∀ node ∈ visited, Reached next start node
  /-- The frontier is reached, or is the start. -/
  ahead : ∀ node ∈ frontier, node = start ∨ Reached next start node
  /-- The successors of what is behind the frontier are visited. -/
  behind : ∀ node, node = start ∨ node ∈ visited → node ∉ frontier →
    ∀ target, Step next node target → target ∈ visited

/-- The search starts with nothing visited. -/
theorem invariant_start (start : α) : Invariant next start [] [start] where
  sound := nofun
  ahead node member := .inl (List.mem_singleton.mp member)
  behind node known away := by
    rcases known with rfl | none
    · exact absurd (List.mem_singleton_self _) away
    · cases none

/-- With no frontier all that is reached is visited. -/
theorem Invariant.complete {start : α} {visited : List α} (holds : Invariant next start visited [])
    {node : α} (reached : Reached next start node) : node ∈ visited := by
  induction reached with
  | single step => exact holds.behind _ (.inl rfl) List.not_mem_nil _ step
  | tail _ step ih => exact holds.behind _ (.inr ih) List.not_mem_nil _ step

end Steps

variable {α : Type} [DecidableEq α] (next : α → List α)

/-- Visit the successors of an element that were not visited before. -/
def visit (state : List α × List α) (node : α) : List α × List α :=
  (next node).foldl (fun state target =>
    if target ∈ state.1 then state else (state.1 ++ [target], state.2 ++ [target])) state

/-- The elements within some levels of a frontier, with those visited before. -/
def search : Nat → List α → List α → List α
  | 0, visited, _ => visited
  | hops + 1, visited, frontier =>
    let level := frontier.foldl (visit next) (visited, [])
    if level.2.isEmpty then level.1 else search hops level.1 level.2

variable {next}

/-- A visit adds the successors, and lists those among them that are new. -/
theorem mem_visit (state : List α × List α) (node target : α) :
    (target ∈ (visit next state node).1 ↔ target ∈ state.1 ∨ target ∈ next node) ∧
    (target ∈ (visit next state node).2 ↔
      target ∈ state.2 ∨ (target ∈ next node ∧ target ∉ state.1)) := by
  rw [visit]
  induction next node generalizing state with
  | nil => simp
  | cons head rest ih =>
    rw [List.foldl_cons]
    obtain ⟨visited, new⟩ := ih (if head ∈ state.1 then state
      else (state.1 ++ [head], state.2 ++ [head]))
    rw [visited, new]
    by_cases there : head ∈ state.1
    · -- A successor that was visited changes nothing.
      simp only [if_pos there, List.mem_cons]
      constructor
      · constructor
        · exact fun member => member.imp_right .inr
        · rintro (held | rfl | later)
          · exact .inl held
          · exact .inl there
          · exact .inr later
      · constructor
        · exact fun member => member.imp_right (And.imp_left .inr)
        · rintro (held | ⟨rfl | later, fresh⟩)
          · exact .inl held
          · exact absurd there fresh
          · exact .inr ⟨later, fresh⟩
    · simp only [if_neg there, List.mem_append, List.mem_cons, List.not_mem_nil, or_false]
      constructor
      · rw [or_assoc]
      · by_cases same : target = head
        · simp [same, there]
        · simp [same]

/-- A level adds the successors of its frontier, and lists those among them that are new. -/
theorem mem_level (frontier : List α) (state : List α × List α) (target : α) :
    (target ∈ (frontier.foldl (visit next) state).1 ↔
      target ∈ state.1 ∨ ∃ node ∈ frontier, Step next node target) ∧
    (target ∈ (frontier.foldl (visit next) state).2 ↔
      target ∈ state.2 ∨ ((∃ node ∈ frontier, Step next node target) ∧ target ∉ state.1)) := by
  induction frontier generalizing state with
  | nil => simp
  | cons head rest ih =>
    obtain ⟨visited, new⟩ := ih (visit next state head)
    obtain ⟨visited', new'⟩ := @mem_visit _ _ next state head target
    rw [List.foldl_cons, visited, new, visited', new']
    simp only [List.mem_cons, exists_eq_or_imp, Step]
    constructor
    · rw [or_assoc]
    · by_cases held : target ∈ state.1
      · simp [held]
      · by_cases first : target ∈ next head <;> simp [held, first]

/-- A level keeps the invariant. -/
theorem Invariant.level {start : α} {visited frontier : List α}
    (holds : Invariant next start visited frontier) :
    Invariant next start (frontier.foldl (visit next) (visited, [])).1
      (frontier.foldl (visit next) (visited, [])).2 := by
  have spec := fun target => @mem_level _ _ next frontier (visited, []) target
  simp only [List.not_mem_nil, false_or] at spec
  have reached : ∀ target, (∃ node ∈ frontier, Step next node target) → Reached next start target := by
    intro target ⟨node, member, step⟩
    rcases holds.ahead node member with rfl | before
    · exact .single step
    · exact .tail before step
  refine ⟨fun node member => ?_, fun node member => .inr ?_, fun node known away target step => ?_⟩
  · rcases (spec node).1.mp member with held | new
    · exact holds.sound node held
    · exact reached node new
  · exact reached node ((spec node).2.mp member).1
  · -- What is known was known before, as it is not on the new frontier.
    have before : node = start ∨ node ∈ visited := by
      rcases known with same | there
      · exact .inl same
      · right
        by_contra fresh
        rcases (spec node).1.mp there with held | new
        · exact fresh held
        · exact away ((spec node).2.mpr ⟨new, fresh⟩)
    refine (spec target).1.mpr ?_
    by_cases on : node ∈ frontier
    · exact .inr ⟨node, on, step⟩
    · exact .inl (holds.behind node before on target step)

/-- With as many levels as there are elements left to visit, the search visits all that is reached. -/
theorem Invariant.mem_search {start : α} (finite : {node | Reached next start node}.Finite)
    {hops : Nat} {visited frontier : List α} (holds : Invariant next start visited frontier)
    (enough : {node | Reached next start node}.ncard ≤ {node | node ∈ visited}.ncard + hops)
    (node : α) : node ∈ search next hops visited frontier ↔ Reached next start node := by
  induction hops generalizing visited frontier with
  | zero =>
    -- As many are visited as are reached.
    have sub : {node | node ∈ visited} ⊆ {node | Reached next start node} := holds.sound
    have same := Set.eq_of_subset_of_ncard_le sub (by simpa using enough) finite
    exact Set.ext_iff.mp same node
  | succ hops ih =>
    have kept := holds.level
    have spec := fun target => @mem_level _ _ next frontier (visited, []) target
    simp only [List.not_mem_nil, false_or] at spec
    rw [search]
    cases new : (frontier.foldl (visit next) (visited, [])).2 with
    | nil =>
      rw [new] at kept
      exact ⟨kept.sound node, kept.complete⟩
    | cons first rest =>
      rw [new] at kept
      refine ih kept ?_
      -- The first of the new elements was not visited before.
      have fresh := (spec first).2.mp (by rw [new]; exact List.mem_cons_self)
      have finite' : {node | node ∈ (frontier.foldl (visit next) (visited, [])).1}.Finite :=
        finite.subset kept.sound
      have grows : {node | node ∈ visited} ⊂
          {node | node ∈ (frontier.foldl (visit next) (visited, [])).1} := by
        refine ⟨fun node held => (spec node).1.mpr (.inl held), fun back => ?_⟩
        exact fresh.2 (back ((spec first).1.mpr (.inr fresh.1)))
      have more := Set.ncard_lt_ncard grows finite'
      omega

/-- With as many levels as elements are reached, a search from the start visits all of them. -/
theorem mem_search_start (start : α) (finite : {node | Reached next start node}.Finite) {hops : Nat}
    (enough : {node | Reached next start node}.ncard ≤ hops) (node : α) :
    node ∈ search next hops [] [start] ↔ Reached next start node :=
  (invariant_start start).mem_search finite (by omega) node

end BreadthFirst
