import Polargraph.Shacl.Shapes

/-! What the reads of a validation find, and why their loops end. -/

namespace Polargraph

namespace Shacl

namespace DataView

variable {ext : External} {view : DataView}

/-- What matches is a triple of the view that was asked for. -/
theorem mem_of_matching {s : Option NodeId} {p : Option String} {o : Option Obj} {spo : Spo}
    (member : spo ∈ view.matching ext s p o) : spo ∈ view.triples ext ∧
      asked ext s p (o.map (Obj.key ext)) spo = true :=
  List.mem_filter.mp (Seen.mem_of_distinctBy member).1

/-- A triple that matches a subject has it. -/
theorem subject_of_matching {s : NodeId} {p : Option String} {o : Option Obj} {spo : Spo}
    (member : spo ∈ view.matching ext (some s) p o) : spo.1 = s := by
  obtain ⟨s', p', o'⟩ := spo
  have wanted := (mem_of_matching member).2
  simp only [asked, Option.all_some, Bool.and_eq_true, decide_eq_true_eq] at wanted
  exact wanted.1.1.symm

/-- A value of a predicate on a subject is of a triple of the view. -/
theorem mem_of_objects {s : NodeId} {p : String} {o : Obj} (member : o ∈ view.objects ext s p) :
    ∃ spo ∈ view.triples ext, spo.1 = s ∧ spo.2.2 = o := by
  obtain ⟨spo, inside, rfl⟩ := List.mem_map.mp member
  exact ⟨spo, (mem_of_matching inside).1, subject_of_matching inside, rfl⟩

/-- A subject with a value of a predicate is one of a triple of the view with that value. -/
theorem mem_of_subjects {s : NodeId} {p : String} {o : Obj} (member : s ∈ view.subjects ext p o) :
    ∃ spo ∈ view.triples ext, spo.1 = s ∧ spo.2.2.key ext = o.key ext := by
  obtain ⟨⟨s', p', o'⟩, inside, rfl⟩ := List.mem_map.mp member
  have wanted := (mem_of_matching inside).2
  simp only [asked, Option.map_some, Option.all_some, Bool.and_eq_true, decide_eq_true_eq] at wanted
  exact ⟨_, (mem_of_matching inside).1, rfl, wanted.2.symm⟩

/-- A node with values of a predicate is a subject of the view. -/
theorem subject_of_lookup {n : NodeId} {p : String} {values : List Obj}
    (found : Latest.lookup p (view.properties ext n) = some values) :
    ∃ spo ∈ view.triples ext, spo.1 = n := by
  have present : (Latest.lookup p (view.properties ext n)).isSome := by
    rw [found]
    rfl
  obtain ⟨items, member⟩ := Latest.isSome_lookup_gather.mp present
  obtain ⟨spo, inside, _⟩ := List.mem_map.mp member
  exact ⟨spo, (mem_of_matching inside).1, subject_of_matching inside⟩

/-- The triples whose subjects a walk has not met. -/
def unmet (ext : External) (view : DataView) (seen : List NodeId) : List Spo :=
  (view.triples ext).filter fun spo => decide (spo.1 ∉ seen)

/-- A walk along a list ends before it has met every subject. -/
theorem exists_listFrom {fuel : Nat} {seen : List NodeId} {cur : NodeId}
    (enough : (unmet ext view seen).length < fuel) :
    ∃ items, view.listFrom ext fuel seen cur = some items := by
  induction fuel generalizing seen cur with
  | zero => exact absurd enough (Nat.not_lt_zero _)
  | succ fuel ih =>
    rw [listFrom]
    split_ifs with met
    · exact ⟨[], rfl⟩
    · dsimp only
      split
      · rename_i next rest
        obtain ⟨values, found, _⟩ := Option.bind_eq_some_iff.mp rest
        obtain ⟨spo, member, subject⟩ := subject_of_lookup found
        -- The node the walk is at has triples, and was not met before.
        have inside : spo ∈ unmet ext view seen :=
          List.mem_filter.mpr ⟨member, decide_eq_true fun held => met (Or.inr (subject ▸ held))⟩
        have fewer : (unmet ext view (cur :: seen)).length < (unmet ext view seen).length := by
          have again : unmet ext view (cur :: seen) =
              (unmet ext view seen).filter fun other => decide (other.1 ≠ cur) := by
            simp only [unmet, List.filter_filter]
            refine List.filter_congr fun other _ => ?_
            simp [List.mem_cons, not_or]
          rw [again]
          exact List.length_filter_lt_length_iff_exists.mpr ⟨spo, inside, by simp [subject]⟩
        obtain ⟨items, done⟩ := @ih (cur :: seen) next (by omega)
        exact ⟨_, by rw [done]; rfl⟩
      · exact ⟨_, rfl⟩

/-- Every list is read to its end. -/
theorem exists_list (head : NodeId) : ∃ items, view.list ext head = some items :=
  exists_listFrom (Nat.lt_succ_of_le (List.length_filter_le _ _))

/-- What follows some nodes along the triples of a view fits the bound of a walk. -/
theorem ahead_lt_bound {next : NodeId → List NodeId} {items : List NodeId} (starts : Nat)
    (few : items.length ≤ (view.triples ext).length)
    (each : ∀ n, (next n).length ≤ (view.triples ext).length) :
    starts + Seen.ahead next items [] < view.bound ext starts := by
  have total : Seen.ahead next items [] ≤ items.length * (view.triples ext).length := by
    unfold Seen.ahead
    refine le_trans (List.sum_le_card_nsmul _ (view.triples ext).length ?_) ?_
    · intro length member
      obtain ⟨n, _, rfl⟩ := List.mem_map.mp member
      exact each n
    · rw [List.length_map]
      exact Nat.mul_le_mul_right _ (List.length_filter_le _ _)
  have most := Nat.mul_le_mul_right (view.triples ext).length few
  unfold bound
  omega

/-- No more triples match than there are. -/
theorem length_matching (s : Option NodeId) (p : Option String) (o : Option Obj) :
    (view.matching ext s p o).length ≤ (view.triples ext).length := by
  have kept : ∀ (seen : List (NodeId × String × NodeId)) (items : List Spo),
      (Seen.distinctBy (spoKey ext) seen items).length ≤ items.length := by
    intro seen items
    induction items generalizing seen with
    | nil => exact Nat.le_refl _
    | cons first rest ih =>
      rw [Seen.distinctBy]
      split_ifs
      · exact Nat.le_succ_of_le (ih seen)
      · exact Nat.succ_le_succ (ih _)
  exact le_trans (kept _ _) (List.length_filter_le _ _)

/-- The classes of a node are found. -/
theorem exists_types (n : NodeId) : ∃ classes, view.types ext n = some classes := by
  refine @Seen.exists_close _ _ _ ((view.triples ext).map Prod.fst) (fun c absent => ?_) _ _ _ ?_
  · -- A class that is no subject has none above it.
    refine List.eq_nil_iff_forall_not_mem.mpr fun target member => absent ?_
    obtain ⟨o, inside, _⟩ := List.mem_filterMap.mp member
    obtain ⟨spo, triple, rfl, _⟩ := mem_of_objects inside
    exact List.mem_map.mpr ⟨spo, triple, rfl⟩
  · refine ahead_lt_bound _ (by rw [List.length_map]) fun c => ?_
    refine le_trans (List.length_filterMap_le _ _) ?_
    rw [objects, List.length_map]
    exact length_matching ..

/-- The instances of a class are found. -/
theorem exists_instances (c : NodeId) : ∃ nodes, view.instances ext c = some nodes := by
  have closed : ∃ classes, Seen.close (view.subclasses ext) (view.bound ext 1) [] [c] =
      some classes := by
    refine @Seen.exists_close _ _ _ ((view.triples ext).map fun spo => spo.2.2.key ext)
      (fun c absent => ?_) _ _ _ ?_
    · refine List.eq_nil_iff_forall_not_mem.mpr fun target member => absent ?_
      obtain ⟨spo, triple, _, key⟩ := mem_of_subjects member
      exact List.mem_map.mpr ⟨spo, triple, key⟩
    · refine ahead_lt_bound 1 (by rw [List.length_map]) fun c => ?_
      rw [subclasses, subjects, List.length_map]
      exact length_matching ..
  obtain ⟨classes, done⟩ := closed
  exact ⟨_, by rw [instances, done]; rfl⟩

end DataView

end Shacl

end Polargraph
