import Polargraph.Lib.Assign
import Polargraph.Lib.Ranks
import Polargraph.Storage.Registry

/-! What the cycle check of the type registry rules out, and why walks along parents end. -/

namespace Polargraph

namespace TypeCache

variable {cache : TypeCache} {definition : NodeTypeDef}

/-- A cached type names a parent. -/
def Parent (cache : TypeCache) (child parent : String) : Prop :=
  ∃ definition, Latest.lookup child cache = some definition ∧ parent ∈ definition.parentTypes

/-- A check passes some items when it passes each of them. -/
theorem passes_eq_true {α : Type} {check : α → Option Bool} {items : List α} :
    passes check items = some true ↔ ∀ item ∈ items, check item = some true := by
  induction items with
  | nil => simp [passes]
  | cons item rest ih =>
    rw [passes, List.forall_mem_cons, ← ih]
    cases check item with
    | none => simp
    | some passed => cases passed <;> simp

/-- A check of some items is not cut off when none of each is. -/
theorem isSome_passes {α : Type} {check : α → Option Bool} {items : List α}
    (each : ∀ item ∈ items, (check item).isSome) : (passes check items).isSome := by
  induction items with
  | nil => rfl
  | cons item rest ih =>
    obtain ⟨first, later⟩ := List.forall_mem_cons.mp each
    obtain ⟨passed, done⟩ := Option.isSome_iff_exists.mp first
    rw [passes, done]
    cases passed with
    | false => rfl
    | true => exact ih later

/-- An item does not pass a check that some items do not pass. -/
theorem exists_of_passes {α : Type} {check : α → Option Bool} {items : List α}
    (failed : passes check items = some false) : ∃ item ∈ items, check item = some false := by
  induction items with
  | nil => cases failed
  | cons item rest ih =>
    rw [passes] at failed
    cases done : check item with
    | none => simp [done] at failed
    | some passed => cases passed <;> simp_all

/-- A walk that passes meets none of the ancestors above a type. -/
theorem not_reaches_of_dfsCycleCheck {fuel : Nat} {ancestors : List String} {current : String}
    (passed : dfsCycleCheck cache fuel ancestors current = some true) :
    ∀ ancestor ∈ ancestors, ¬ Relation.ReflTransGen cache.Parent current ancestor := by
  -- The induction follows the walk, whose ancestors grow by the type it is at.
  induction fuel generalizing ancestors current with
  | zero => cases passed
  | succ fuel ih =>
    intro ancestor member reaches
    rw [dfsCycleCheck] at passed
    by_cases met : current ∈ ancestors
    · rw [if_pos met] at passed
      cases passed
    rw [if_neg met] at passed
    rcases reaches.cases_head with rfl | ⟨parent, ⟨definition, cached, among⟩, rest⟩
    · exact met member
    · rw [cached] at passed
      exact ih (passes_eq_true.mp passed parent among) ancestor (List.mem_cons_of_mem _ member) rest

/-- A type that is found is cached. -/
theorem mem_of_lookup {name : String} (found : Latest.lookup name cache = some definition) :
    (name, definition) ∈ cache := by
  induction cache with
  | nil => cases found
  | cons first rest ih =>
    obtain ⟨other, slot⟩ := first
    rw [Latest.lookup] at found
    by_cases same : other = name
    · rw [if_pos same] at found
      cases found
      rw [same]
      exact List.mem_cons_self
    · rw [if_neg same] at found
      exact List.mem_cons_of_mem _ (ih found)

/-- The cached types that a walk has not met. -/
def unmet (cache : TypeCache) (ancestors : List String) : TypeCache :=
  cache.filter fun entry => decide (entry.1 ∉ ancestors)

/-- A walk is not cut off before it has met every cached type. -/
theorem isSome_dfsCycleCheck {fuel : Nat} {ancestors : List String} {current : String}
    (enough : (cache.unmet ancestors).length < fuel) :
    (dfsCycleCheck cache fuel ancestors current).isSome := by
  induction fuel generalizing ancestors current with
  | zero => exact absurd enough (Nat.not_lt_zero _)
  | succ fuel ih =>
    rw [dfsCycleCheck]
    split_ifs with met
    · rfl
    · cases cached : Latest.lookup current cache with
      | none => rfl
      | some definition =>
        refine isSome_passes fun parent _ => ih ?_
        -- The type the walk is at is cached and was not met before.
        have member : (current, definition) ∈ cache.unmet ancestors :=
          List.mem_filter.mpr ⟨mem_of_lookup cached, decide_eq_true met⟩
        have fewer : (cache.unmet (current :: ancestors)).length <
            (cache.unmet ancestors).length := by
          have again : cache.unmet (current :: ancestors) =
              (cache.unmet ancestors).filter fun entry => decide (entry.1 ≠ current) := by
            simp only [unmet, List.filter_filter]
            refine List.filter_congr fun entry _ => ?_
            simp [List.mem_cons, not_or]
          rw [again]
          exact List.length_filter_lt_length_iff_exists.mpr ⟨_, member, by simp⟩
        omega

/-- A walk that passes meets no type above which the type itself is. -/
theorem not_cyclic_of_dfsCycleCheck {fuel : Nat} {ancestors : List String} {current : String}
    (passed : dfsCycleCheck cache fuel ancestors current = some true) {name : String}
    (reaches : Relation.ReflTransGen cache.Parent current name) :
    ¬ Relation.TransGen cache.Parent name name := by
  induction fuel generalizing ancestors current with
  | zero => cases passed
  | succ fuel ih =>
    -- The walk goes on above every parent, with the type as one of the ancestors.
    have above : ∀ parent, cache.Parent current parent →
        dfsCycleCheck cache fuel (current :: ancestors) parent = some true := by
      rintro parent ⟨definition, cached, among⟩
      rw [dfsCycleCheck, cached] at passed
      split_ifs at passed
      · cases passed
      · exact passes_eq_true.mp passed parent among
    rcases reaches.cases_head with rfl | ⟨parent, step, rest⟩
    · intro cycle
      obtain ⟨parent, step, back⟩ := Relation.TransGen.head'_iff.mp cycle
      exact not_reaches_of_dfsCycleCheck (above parent step) current List.mem_cons_self back
    · exact ih (above parent step) rest

/-- A walk that fails meets an ancestor, or a type above which the type itself is. -/
theorem meets_of_dfsCycleCheck {fuel : Nat} {ancestors : List String} {current : String}
    (failed : dfsCycleCheck cache fuel ancestors current = some false) :
    (∃ name ∈ ancestors, Relation.ReflTransGen cache.Parent current name) ∨
      ∃ name, Relation.ReflTransGen cache.Parent current name ∧
        Relation.TransGen cache.Parent name name := by
  induction fuel generalizing ancestors current with
  | zero => cases failed
  | succ fuel ih =>
    rw [dfsCycleCheck] at failed
    split_ifs at failed with met
    · exact Or.inl ⟨current, met, .refl⟩
    · split at failed
      · cases failed
      · rename_i definition cached
        obtain ⟨parent, among, failed⟩ := exists_of_passes failed
        have step : cache.Parent current parent := ⟨definition, cached, among⟩
        rcases ih failed with ⟨name, member, rest⟩ | ⟨name, rest, cycle⟩
        · rcases List.mem_cons.mp member with rfl | earlier
          · exact Or.inr ⟨name, .refl, .head' step rest⟩
          · exact Or.inl ⟨name, earlier, .head step rest⟩
        · exact Or.inr ⟨name, .head step rest, cycle⟩

/-- The check of a type passes when the walk from each of its parents does. -/
theorem checkNoCycle_eq_ok {typeName : String} {parents : List String} :
    checkNoCycle cache typeName parents = .ok () ↔
      ∀ parent ∈ parents, dfsCycleCheck cache (cache.length + 1) [typeName] parent = some true := by
  induction parents with
  | nil => simp [checkNoCycle]
  | cons parent rest ih =>
    rw [checkNoCycle, List.forall_mem_cons, ← ih]
    split_ifs with passed <;> simp [passed]

/-- The check of a type passes exactly when neither the type nor a cycle is above its parents. -/
theorem checkNoCycle_eq_ok_iff {typeName : String} {parents : List String} :
    checkNoCycle cache typeName parents = .ok () ↔ ∀ parent ∈ parents,
      ¬ Relation.ReflTransGen cache.Parent parent typeName ∧
        ∀ name, Relation.ReflTransGen cache.Parent parent name →
          ¬ Relation.TransGen cache.Parent name name := by
  rw [checkNoCycle_eq_ok]
  refine forall₂_congr fun parent _ => ⟨fun passed =>
    ⟨not_reaches_of_dfsCycleCheck passed typeName List.mem_cons_self,
      fun _ => not_cyclic_of_dfsCycleCheck passed⟩, fun apart => ?_⟩
  -- There are no more types to meet than are cached, so the walk is not cut off.
  obtain ⟨passed, done⟩ := Option.isSome_iff_exists.mp (@isSome_dfsCycleCheck cache _ [typeName] parent
    (Nat.lt_succ_of_le (List.length_filter_le _ cache)))
  cases passed with
  | true => exact done
  | false =>
    rcases meets_of_dfsCycleCheck done with ⟨name, member, reaches⟩ | ⟨name, reaches, cycle⟩
    · exact absurd (List.mem_singleton.mp member ▸ reaches) apart.1
    · exact absurd cycle (apart.2 name reaches)

/-- No parent of a type that passes the check reaches the type. -/
theorem not_reaches_of_checkNoCycle {typeName : String} {parents : List String}
    (passed : cache.checkNoCycle typeName parents = .ok ()) :
    ∀ parent ∈ parents, ¬ Relation.ReflTransGen cache.Parent parent typeName := fun parent member =>
  not_reaches_of_dfsCycleCheck (checkNoCycle_eq_ok.mp passed parent member) typeName
    List.mem_cons_self

/-- The types a cache has after one more. -/
theorem lookup_insert (cache : TypeCache) (definition : NodeTypeDef) :
    (fun name => Latest.lookup name (cache.insert definition)) =
      Function.update (fun name => Latest.lookup name cache) definition.typeName
        (some definition) := by
  funext name
  by_cases same : name = definition.typeName
  · subst same
    rw [Function.update_self]
    exact Latest.lookup_entryUpdate_self ..
  · rw [Function.update_of_ne same]
    exact Latest.lookup_entryUpdate_ne same ..

/-- The types a cache has after some more. -/
theorem lookup_foldl_insert (definitions : List NodeTypeDef) (cache : TypeCache) :
    (fun name => Latest.lookup name (definitions.foldl insert cache)) =
      assigned (fun name => Latest.lookup name cache)
        (definitions.map fun definition => (definition.typeName, definition)) := by
  induction definitions generalizing cache with
  | nil => rfl
  | cons definition rest ih =>
    rw [List.foldl_cons, ih, lookup_insert]
    rfl

/-- Caching a type that passes the check keeps ranks. -/
theorem ranked_insert (ranked : Ranked cache.Parent)
    (passed : cache.checkNoCycle definition.typeName definition.parentTypes = .ok ()) :
    Ranked (cache.insert definition).Parent := by
  have held := congrFun (lookup_insert cache definition)
  refine ranked.redirect definition.parentTypes (not_reaches_of_checkNoCycle passed) ?_ ?_
  · rintro child parent other ⟨found, cached, among⟩
    have same := held child
    rw [Function.update_of_ne other] at same
    exact ⟨found, same.symm.trans cached, among⟩
  · rintro parent ⟨found, cached, among⟩
    have same := held definition.typeName
    rw [Function.update_self] at same
    rw [Option.some.inj (same.symm.trans cached)]
    exact among

/-- A fold over items that each succeed succeeds. -/
theorem exists_foldlM {α β : Type} {step : β → α → Option β} {items : List α}
    (each : ∀ item ∈ items, ∀ found, ∃ next, step found item = some next) (found : β) :
    ∃ last, items.foldlM step found = some last := by
  induction items generalizing found with
  | nil => exact ⟨found, rfl⟩
  | cons item rest ih =>
    obtain ⟨first, later⟩ := List.forall_mem_cons.mp each
    obtain ⟨next, done⟩ := first found
    obtain ⟨last, more⟩ := ih later next
    exact ⟨last, by rw [List.foldlM_cons, done]; exact more⟩

/-- The fields of every type are collected when types have ranks. -/
theorem exists_collectFields (ranked : Ranked cache.Parent) (typeName : String) :
    ∃ fuel, ∀ found, ∃ collected, collectFields cache fuel found typeName = some collected := by
  obtain ⟨rank, descends⟩ := ranked
  have walk : ∀ fuel typeName, rank typeName < fuel → ∀ found,
      ∃ collected, collectFields cache fuel found typeName = some collected := by
    intro fuel
    induction fuel with
    | zero => exact fun _ below => absurd below (Nat.not_lt_zero _)
    | succ fuel ih =>
      intro typeName below found
      rw [collectFields]
      cases cached : Latest.lookup typeName cache with
      | none => exact ⟨found, rfl⟩
      | some definition =>
        refine exists_foldlM (fun parent among => ih parent ?_) _
        have less := descends typeName parent ⟨definition, cached, among⟩
        omega
  exact ⟨rank typeName + 1, walk _ typeName (Nat.lt_succ_self _)⟩

end TypeCache

end Polargraph
