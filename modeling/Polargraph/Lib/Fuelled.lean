import Mathlib.Logic.Relation
import Mathlib.Data.List.Forall2

/-! Computations that may fail or be cut off, and the recursion that a bound cuts off. -/

/-- A computation that may fail, or is cut off before its end. -/
abbrev Fuelled (ε α : Type) := ExceptT ε Option α

namespace Fuelled

variable {ε α β : Type}

/-- The computation that is cut off. -/
def cut : Fuelled ε α := ExceptT.mk none

/-- Go on with a result that may be cut off. -/
def ofOption (result : Option α) : Fuelled ε α := ExceptT.mk (result.map .ok)

/-- Go on with a result that may be an error. -/
def ofExcept (result : Except ε α) : Fuelled ε α := ExceptT.mk (some result)

/-- A computation comes to its end, with a result or an error. -/
def Ends (x : Fuelled ε α) : Prop := ∃ outcome, x.run = some outcome

/-- A computation returns a result. -/
def Returns (x : Fuelled ε α) (a : α) : Prop := x.run = some (.ok a)

/-- A computation ends as another one does, if it ends. -/
def Below (x y : Fuelled ε α) : Prop := ∀ outcome, x.run = some outcome → y.run = some outcome

/-- What returns ends. -/
theorem Returns.ends {x : Fuelled ε α} {a : α} (returns : x.Returns a) : x.Ends := ⟨_, returns⟩

/-- A computation returns one result. -/
theorem Returns.unique {x : Fuelled ε α} {a b : α} (left : x.Returns a) (right : x.Returns b) :
    a = b := by
  have same := left.symm.trans right
  cases same
  rfl

/-- Every computation is below itself. -/
theorem Below.refl (x : Fuelled ε α) : Below x x := fun _ ended => ended

/-- What is above a computation that ends does so too. -/
theorem Below.ends {x y : Fuelled ε α} (below : Below x y) (ends : x.Ends) : y.Ends := by
  obtain ⟨outcome, ended⟩ := ends
  exact ⟨outcome, below outcome ended⟩

/-- The computation that is cut off is below all others. -/
theorem cut_below (x : Fuelled ε α) : Below cut x := by
  intro outcome ended
  cases ended

/-- What is returned at once ends. -/
theorem ends_pure (a : α) : Ends (pure a : Fuelled ε α) := ⟨.ok a, rfl⟩

/-- What fails at once ends. -/
theorem ends_throw (problem : ε) : Ends (throw problem : Fuelled ε α) := ⟨.error problem, rfl⟩

/-- What is returned at once is what is given. -/
theorem returns_pure {a b : α} : Returns (pure a : Fuelled ε α) b ↔ a = b := by
  constructor
  · intro returns
    cases returns
    rfl
  · rintro rfl
    rfl

/-- A result that may be an error is an outcome. -/
theorem ends_ofExcept (result : Except ε α) : (ofExcept result).Ends := ⟨result, rfl⟩

/-- A result that may be an error is returned unless it is one. -/
theorem returns_ofExcept {result : Except ε α} {a : α} :
    (ofExcept result).Returns a ↔ result = .ok a := by
  constructor
  · intro returns
    exact Option.some.inj returns
  · rintro rfl
    rfl

/-- A result that may be cut off is returned when it is not. -/
theorem returns_ofOption {result : Option α} {a : α} :
    (ofOption result : Fuelled ε α).Returns a ↔ result = some a := by
  cases result with
  | none => exact iff_of_false nofun nofun
  | some b => exact ⟨fun returns => by cases returns; rfl, fun same => by cases same; rfl⟩

/-- A result that is not cut off is an outcome. -/
theorem ends_ofOption {result : Option α} {a : α} (found : result = some a) :
    (ofOption result : Fuelled ε α).Ends := (returns_ofOption.mpr found).ends

/-- A composition runs its second part after what the first returns. -/
theorem run_bind (x : Fuelled ε α) (f : α → Fuelled ε β) :
    (x >>= f).run = x.run.bind (fun outcome => match outcome with
      | .ok a => (f a).run
      | .error problem => some (.error problem)) := by
  rw [ExceptT.run_bind]
  cases x.run with
  | none => rfl
  | some outcome => cases outcome <;> rfl

/-- A composition returns what its second part makes of the result of the first. -/
theorem returns_bind {x : Fuelled ε α} {f : α → Fuelled ε β} {b : β} :
    (x >>= f).Returns b ↔ ∃ a, x.Returns a ∧ (f a).Returns b := by
  unfold Returns
  rw [run_bind]
  cases x.run with
  | none => simp
  | some outcome => cases outcome <;> simp

/-- A composition ends when its first part does, and its second part after what that returns. -/
theorem ends_bind {x : Fuelled ε α} {f : α → Fuelled ε β} :
    (x >>= f).Ends ↔ x.Ends ∧ ∀ a, x.Returns a → (f a).Ends := by
  unfold Ends Returns
  rw [run_bind]
  cases x.run with
  | none => simp
  | some outcome => cases outcome <;> simp

/-- Compositions of parts that are below others are below their composition. -/
theorem Below.bind {x y : Fuelled ε α} {f g : α → Fuelled ε β} (first : Below x y)
    (later : ∀ a, Below (f a) (g a)) : Below (x >>= f) (y >>= g) := by
  intro outcome ended
  rw [ExceptT.run_bind] at ended ⊢
  cases run : x.run with
  | none =>
    rw [run] at ended
    cases ended
  | some result =>
    rw [run] at ended
    rw [first result run]
    cases result with
    | ok a => exact later a outcome ended
    | error problem => exact ended

/-- A loop over items ends when each item does that comes after items that return. -/
theorem ends_mapM {f : α → Fuelled ε β} {items : List α} :
    (items.mapM f).Ends ↔ ∀ front item back, items = front ++ item :: back →
      (∀ other ∈ front, ∃ b, (f other).Returns b) → (f item).Ends := by
  induction items with
  | nil =>
    refine iff_of_true (ends_pure _) fun front item back split => ?_
    simp at split
  | cons first rest ih =>
    rw [List.mapM_cons, ends_bind]
    simp only [ends_bind, ends_pure, implies_true, and_true]
    rw [ih]
    constructor
    · rintro ⟨own, later⟩ front item back split returned
      cases front with
      | nil =>
        obtain ⟨rfl, rfl⟩ := List.cons.inj split
        exact own
      | cons other front =>
        obtain ⟨rfl, rfl⟩ := List.cons.inj split
        obtain ⟨⟨b, done⟩, others⟩ := List.forall_mem_cons.mp returned
        exact later b done front item back rfl others
    · intro each
      refine ⟨each [] first rest rfl nofun, fun b done front item back split returned => ?_⟩
      refine each (first :: front) item back (by rw [split]; rfl) ?_
      exact List.forall_mem_cons.mpr ⟨⟨b, done⟩, returned⟩

/-- A loop over items returns what each of them returns. -/
theorem returns_mapM {f : α → Fuelled ε β} {items : List α} {results : List β} :
    (items.mapM f).Returns results ↔ List.Forall₂ (fun item b => (f item).Returns b) items results := by
  induction items generalizing results with
  | nil =>
    rw [List.mapM_nil, returns_pure, List.forall₂_nil_left_iff, eq_comm]
  | cons first rest ih =>
    rw [List.mapM_cons, returns_bind, List.forall₂_cons_left_iff]
    constructor
    · rintro ⟨b, done, more⟩
      obtain ⟨bs, later, made⟩ := returns_bind.mp more
      obtain rfl := returns_pure.mp made
      exact ⟨b, bs, done, ih.mp later, rfl⟩
    · rintro ⟨b, bs, done, later, rfl⟩
      exact ⟨b, done, returns_bind.mpr ⟨bs, ih.mpr later, returns_pure.mpr rfl⟩⟩

/-- A loop over items returns exactly when each of them does. -/
theorem exists_returns_mapM {f : α → Fuelled ε β} {items : List α} :
    (∃ results, (items.mapM f).Returns results) ↔ ∀ item ∈ items, ∃ b, (f item).Returns b := by
  induction items with
  | nil => exact iff_of_true ⟨[], returns_pure.mpr rfl⟩ nofun
  | cons first rest ih =>
    rw [List.forall_mem_cons, ← ih]
    simp only [returns_mapM, List.forall₂_cons_left_iff]
    constructor
    · rintro ⟨_, b, bs, own, later, _⟩
      exact ⟨⟨b, own⟩, bs, later⟩
    · rintro ⟨⟨b, own⟩, bs, later⟩
      exact ⟨b :: bs, b, bs, own, later, rfl⟩

/-- Where a loop over items ends, an item does whose forerunners return if they end. -/
theorem ends_of_mapM {f : α → Fuelled ε β} {front back : List α} {item : α}
    (ended : ((front ++ item :: back).mapM f).Ends)
    (early : ∀ other ∈ front, (f other).Ends → ∃ b, (f other).Returns b) : (f item).Ends := by
  refine ends_mapM.mp ended front item back rfl fun other member => ?_
  -- Each forerunner ends in turn, since those before it return.
  induction front with
  | nil => cases member
  | cons first rest ih =>
    have own := ends_mapM.mp ended [] first (rest ++ item :: back) rfl nofun
    obtain ⟨returned, others⟩ := List.forall_mem_cons.mp early
    obtain ⟨b, done⟩ := returned own
    rcases List.mem_cons.mp member with rfl | later
    · exact ⟨b, done⟩
    · rw [List.cons_append, List.mapM_cons, ends_bind] at ended
      exact ih (ends_bind.mp (ended.2 b done)).1 others later

/-- Loops whose items are below others are below the loop over them. -/
theorem Below.mapM {f g : α → Fuelled ε β} {items : List α}
    (each : ∀ item ∈ items, Below (f item) (g item)) : Below (items.mapM f) (items.mapM g) := by
  induction items with
  | nil => exact .refl _
  | cons first rest ih =>
    obtain ⟨own, later⟩ := List.forall_mem_cons.mp each
    rw [List.mapM_cons, List.mapM_cons]
    exact own.bind fun b => (ih later).bind fun bs => .refl _

/-- A computation does not fail: it is cut off or returns a result. -/
def Safe (x : Fuelled ε α) : Prop := x.Ends → ∃ a, x.Returns a

/-- What returns at once does not fail. -/
theorem safe_pure (a : α) : Safe (pure a : Fuelled ε α) := fun _ => ⟨a, returns_pure.mpr rfl⟩

/-- A composition of parts that do not fail does not fail. -/
theorem Safe.bind {x : Fuelled ε α} {f : α → Fuelled ε β} (first : Safe x)
    (later : ∀ a, x.Returns a → Safe (f a)) : Safe (x >>= f) := by
  intro ended
  obtain ⟨own, rest⟩ := ends_bind.mp ended
  obtain ⟨a, done⟩ := first own
  obtain ⟨b, more⟩ := later a done (rest a done)
  exact ⟨b, returns_bind.mpr ⟨a, done, more⟩⟩

/-- A loop over items that do not fail does not fail. -/
theorem Safe.mapM {f : α → Fuelled ε β} {items : List α} (each : ∀ item ∈ items, Safe (f item)) :
    Safe (items.mapM f) := by
  intro ended
  refine exists_returns_mapM.mpr fun item member => ?_
  obtain ⟨front, back, rfl⟩ := List.append_of_mem member
  refine each item member (ends_of_mapM ended fun other early => ?_)
  exact each other (List.mem_append_left _ early)

section Iterate

/-- Recursion that is cut off at a depth. -/
def iterate (body : (α → Fuelled ε β) → α → Fuelled ε β) : Nat → α → Fuelled ε β
  | 0, _ => cut
  | fuel + 1, a => body (iterate body fuel) a

variable {body : (α → Fuelled ε β) → α → Fuelled ε β}

/-- A recursion whose body does no less when its calls do no less ends alike at a greater depth. -/
theorem iterate_mono (mono : ∀ f g, (∀ b, Below (f b) (g b)) → ∀ a, Below (body f a) (body g a))
    {fuel more : Nat} (least : fuel ≤ more) (a : α) :
    Below (iterate body fuel a) (iterate body more a) := by
  induction fuel generalizing more a with
  | zero => exact cut_below _
  | succ fuel ih =>
    obtain ⟨more, rfl⟩ : ∃ before, more = before + 1 := ⟨more - 1, by omega⟩
    exact mono _ _ (fun b => ih (by omega) b) a

/-- One depth is enough for finitely many arguments. -/
theorem exists_common {ended : Nat → α → Prop}
    (mono : ∀ {fuel more}, fuel ≤ more → ∀ a, ended fuel a → ended more a) {wanted : α → Prop}
    {items : List α} (each : ∀ a ∈ items, wanted a → ∃ fuel, ended fuel a) :
    ∃ fuel, ∀ a ∈ items, wanted a → ended fuel a := by
  induction items with
  | nil => exact ⟨0, nofun⟩
  | cons first rest ih =>
    obtain ⟨own, others⟩ := List.forall_mem_cons.mp each
    obtain ⟨fuel, later⟩ := ih others
    by_cases asked : wanted first
    · obtain ⟨least, done⟩ := own asked
      refine ⟨max least fuel, List.forall_mem_cons.mpr ⟨fun _ => ?_, fun other member asks => ?_⟩⟩
      · exact mono (Nat.le_max_left _ _) first done
      · exact mono (Nat.le_max_right _ _) other (later other member asks)
    · exact ⟨fuel, List.forall_mem_cons.mpr ⟨fun asks => absurd asks asked, later⟩⟩

/-- A recursion ends where its calls, finitely many from each argument, cannot go on forever. -/
theorem ends_of_acc (mono : ∀ f g, (∀ b, Below (f b) (g b)) → ∀ a, Below (body f a) (body g a))
    {calls : α → α → Prop} (finite : ∀ a, ∃ called : List α, ∀ b, calls a b → b ∈ called)
    (total : ∀ fuel a, (∀ b, calls a b → (iterate body fuel b).Ends) →
      (body (iterate body fuel) a).Ends) {a : α} (accessible : Acc (fun b a => calls a b) a) :
    ∃ fuel, (iterate body fuel a).Ends := by
  -- The induction is on what is called; the depth is above those of all calls.
  induction accessible with
  | intro a _ ih =>
    obtain ⟨called, complete⟩ := finite a
    obtain ⟨fuel, ended⟩ := exists_common (fun least b => (iterate_mono mono least b).ends)
      fun b (_ : b ∈ called) calls_b => ih b calls_b
    exact ⟨fuel + 1, total fuel a fun b calls_b => ended b (complete b calls_b) calls_b⟩

/-- Where a recursion ends at some depth, its needed calls cannot go on forever. -/
theorem acc_of_ends {calls : α → α → Prop} {fuel : Nat} {a : α}
    (needs : ∀ fuel a, (body (iterate body fuel) a).Ends → ∀ b, calls a b →
      (iterate body fuel b).Ends) (ended : (iterate body fuel a).Ends) :
    Acc (fun b a => calls a b) a := by
  induction fuel generalizing a with
  | zero =>
    obtain ⟨outcome, run⟩ := ended
    cases run
  | succ fuel ih => exact ⟨a, fun b calls_b => ih (needs fuel a ended b calls_b)⟩

end Iterate

open Classical in
/-- Where finitely many things are reached and none of them from itself, no chain goes on forever. -/
theorem acc_of_acyclic {calls : α → α → Prop} {items : List α}
    (finite : ∀ a b, calls a b → b ∈ items) {a : α} (listed : a ∈ items)
    (acyclic : ∀ b, Relation.ReflTransGen calls a b → ¬ Relation.TransGen calls b b) :
    Acc (fun b a => calls a b) a := by
  -- The induction is on the items that are not above what is reached.
  obtain ⟨above, clear, up⟩ : ∃ above : List α, a ∉ above ∧ ∀ b ∈ above, Relation.TransGen calls b a :=
    ⟨[], List.not_mem_nil, nofun⟩
  induction left : (items.filter fun b => decide (b ∉ above)).length using Nat.strongRecOn
    generalizing a above with
  | ind count ih =>
    refine ⟨a, fun b leads => ?_⟩
    have higher : ∀ c ∈ a :: above, Relation.TransGen calls c b := by
      intro c member
      rcases List.mem_cons.mp member with rfl | old
      · exact .single leads
      · exact (up c old).tail leads
    refine ih _ ?_ (finite a b leads) (fun c path => acyclic c (.head leads path)) (a :: above)
      (fun member => acyclic b (.single leads) (higher b member)) higher rfl
    subst left
    have fewer : (items.filter fun b => decide (b ∉ a :: above)) =
        (items.filter fun b => decide (b ∉ above)).filter fun b => decide (b ≠ a) := by
      rw [List.filter_filter]
      refine List.filter_congr fun b _ => ?_
      simp [not_or]
    rw [fewer]
    exact List.length_filter_lt_length_iff_exists.mpr
      ⟨a, List.mem_filter.mpr ⟨listed, by simpa using clear⟩, by simp⟩

end Fuelled
