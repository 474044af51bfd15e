import Mathlib.Data.List.Nodup
import Polargraph.Storage.OwlRl

/-! The labelled closure holds what can be reached within each label, and across labels. -/

namespace Polargraph

/-- Edges of one label lead from a node to another. -/
def Leads (edges : List LabelledEdge) (l : Label) : NodeId → NodeId → Prop :=
  Relation.TransGen fun a b => (a, b, l) ∈ edges

/-- Edges lead to the successors of a node. -/
theorem mem_successors {edges : List (NodeId × NodeId)} {a b : NodeId} :
    b ∈ successors edges a ↔ (a, b) ∈ edges := Latest.mem_pushAll

/-- The closure of edges has each pair once. -/
theorem nodup_closure (edges : List (NodeId × NodeId)) : (closure edges).Nodup := by
  refine List.nodup_flatMap.mpr ⟨fun start _ => ?_, ?_⟩
  · exact (Seen.nodup_drain List.nodup_nil).map (Prod.mk_right_injective start)
  · refine (Latest.nodup_gather _).imp fun {left right} apart pair first second => ?_
    obtain ⟨_, _, rfl⟩ := List.mem_map.mp first
    obtain ⟨_, _, same⟩ := List.mem_map.mp second
    exact apart (congrArg Prod.fst same).symm

/-- The closure of edges has the pairs that a path joins. -/
theorem mem_closure {edges : List (NodeId × NodeId)} {a b : NodeId} :
    (a, b) ∈ closure edges ↔ Relation.TransGen (fun a b => (a, b) ∈ edges) a b := by
  have leaves : ∀ item, item ∉ (Latest.pushAll edges).map Prod.fst → successors edges item = [] :=
    fun item new => Latest.getD_lookup_of_notMem new
  constructor
  · intro member
    obtain ⟨start, _, within⟩ := List.mem_flatMap.mp member
    obtain ⟨_, reached, same⟩ := List.mem_map.mp within
    cases same
    obtain ⟨first, queued, path⟩ := (Seen.of_mem_drain reached).resolve_left List.not_mem_nil
    simp only [mem_successors] at queued path
    exact .head' queued path
  · intro path
    obtain ⟨first, edge, rest⟩ := Relation.TransGen.head'_iff.mp path
    have queued := mem_successors.mpr edge
    refine List.mem_flatMap.mpr ⟨a, ?_, List.mem_map.mpr ⟨b, ?_, rfl⟩⟩
    · by_contra new
      rw [leaves a new] at queued
      exact absurd queued List.not_mem_nil
    · -- The first step is queued, and each later one follows what was seen.
      obtain ⟨kept, closed⟩ := @Seen.drain_closed _ _ _ _ leaves _ [] (successors edges a) (le_refl _)
        (fun _ member => absurd member List.not_mem_nil)
      clear path
      induction rest with
      | refl => exact kept _ (Or.inr queued)
      | tail _ step ih => exact closed _ ih _ (mem_successors.mpr step)

/-- The closures of the labels hold what can be reached within each. -/
theorem mem_closures {edges : List LabelledEdge} {a b : NodeId} {l : Label} :
    (a, b, l) ∈ (Latest.pushAll (edges.map fun (a, b, l) => (l, a, b))).flatMap (fun (label, es) =>
      (closure es).map fun (a, b) => (a, b, label)) ↔ Leads edges l a b := by
  set filed := Latest.pushAll (edges.map fun (a, b, l) => (l, a, b)) with pushed
  have once : (filed.map Prod.fst).Nodup := Latest.nodup_gather _
  have own : ∀ {es : List (NodeId × NodeId)}, (l, es) ∈ filed → ∀ a b,
      (a, b) ∈ es ↔ (a, b, l) ∈ edges := by
    intro es listed a b
    have held : (a, b) ∈ (Latest.lookup l filed).getD [] ↔ _ := Latest.mem_pushAll
    rw [(Latest.mem_iff_lookup once).mp listed, Option.getD_some] at held
    rw [held]
    simp
  simp only [List.mem_flatMap, List.mem_map, Prod.exists, Prod.mk.injEq]
  constructor
  · rintro ⟨_, es, listed, _, _, joined, rfl, rfl, rfl⟩
    have path := mem_closure.mp joined
    simp only [own listed] at path
    exact path
  · intro path
    obtain ⟨first, edge, _⟩ := Relation.TransGen.head'_iff.mp path
    -- The first edge of the path files a list under its label.
    have held : (a, first) ∈ (Latest.lookup l filed).getD [] :=
      Latest.mem_pushAll.mpr (List.mem_map.mpr ⟨_, edge, rfl⟩)
    cases found : Latest.lookup l filed with
    | none =>
      rw [found] at held
      exact absurd held List.not_mem_nil
    | some es =>
      have listed := (Latest.mem_iff_lookup once).mpr found
      refine ⟨l, es, listed, a, b, mem_closure.mpr ?_, rfl, rfl, rfl⟩
      simp only [own listed]
      exact path

/-- The labelled closure is the transitive closure within each label and across labels, once. -/
theorem labelledClosure_closes (edges : List LabelledEdge) :
    (labelledClosure edges).Nodup ∧ ∀ a b,
      (∀ g, (a, b, .graph g) ∈ labelledClosure edges ↔ Leads edges (.graph g) a b) ∧
      ((a, b, .cross) ∈ labelledClosure edges ↔ Leads edges .cross a b ∨
        Relation.TransGen (fun a b => ∃ l, (a, b, l) ∈ edges) a b ∧ ∀ l, ¬ Leads edges l a b) := by
  unfold labelledClosure
  refine ⟨List.nodup_append'.mpr ⟨List.nodup_flatMap.mpr ⟨fun entry _ => ?_, ?_⟩, ?_, ?_⟩,
    fun a b => ⟨fun g => ?_, ?_⟩⟩
  · exact (nodup_closure _).map fun left right same => by
      simpa [Prod.ext_iff] using same
  · refine List.Pairwise.imp ?_ (List.pairwise_map.mp (Latest.nodup_gather _))
    intro left right apart edge first second
    obtain ⟨_, _, rfl⟩ := List.mem_map.mp first
    obtain ⟨_, _, same⟩ := List.mem_map.mp second
    exact apart (congrArg (fun edge => edge.2.2) same).symm
  · exact ((nodup_closure _).filter _).map fun left right same => by
      simpa [Prod.ext_iff] using same
  · -- A pair that is added across labels is in no closure of a label.
    intro edge inside added
    obtain ⟨pair, kept, rfl⟩ := List.mem_map.mp added
    have new := (List.mem_filter.mp kept).2
    rw [List.contains_iff_mem.mpr (List.mem_map.mpr ⟨_, inside, rfl⟩)] at new
    cases new
  · rw [List.mem_append, mem_closures, or_iff_left]
    rintro added
    obtain ⟨_, _, same⟩ := List.mem_map.mp added
    cases congrArg (fun edge => edge.2.2) same
  · rw [List.mem_append, mem_closures]
    refine or_congr_right ?_
    simp only [List.mem_map, List.mem_filter, Bool.not_eq_true',
      List.contains_eq_mem, decide_eq_false_iff_not, Prod.exists, Prod.mk.injEq,
      mem_closures, mem_closure, not_exists, not_and]
    constructor
    · rintro ⟨_, _, ⟨path, new⟩, rfl, rfl, _⟩
      exact ⟨by simpa using path, fun l own => new _ _ l own rfl rfl⟩
    · rintro ⟨path, new⟩
      exact ⟨a, b, ⟨by simpa using path, fun _ _ l own first second =>
        new l (first ▸ second ▸ own)⟩, rfl, rfl, trivial⟩

end Polargraph
