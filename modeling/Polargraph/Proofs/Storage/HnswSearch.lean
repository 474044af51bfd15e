import Polargraph.Proofs.Storage.Hnsw

/-! What a search of the vector index finds. -/

namespace Polargraph

namespace HnswIndex

variable {V F C : Type} {floats : Floats V F C} {index : HnswIndex V F C}
  {similarities : Similarities F}

/-- Links of a well-formed graph lead from nodes of the index to nodes of the index. -/
theorem WellFormed.reached (formed : index.WellFormed) {start node : NodeId} {layer : Nat}
    (known : start ∈ index.nodes) (path : Relation.ReflTransGen (index.Links layer) start node) :
    node ∈ index.nodes := by
  rcases eq_or_listed path with rfl | ⟨a, listed⟩
  · exact known
  · have reaches := (formed.wired.linked a layer node listed).2
    rw [HnswIndex.reaches] at reaches
    split at reaches
    · exact AList.lookup_isSome.mp (by simp [*])
    · cases reaches

/-- A descent through a well-formed graph ends at a node of the index. -/
theorem WellFormed.descent_mem (formed : index.WellFormed) (query : Probe V F C) {ep : NodeId}
    (entered : index.entryPoint = some ep) : index.descent floats query ep ∈ index.nodes := by
  have start : ep ∈ index.nodes := by
    obtain ⟨n, found, _⟩ := formed.entry ep entered
    exact AList.lookup_isSome.mp (by simp [found])
  refine List.foldlRecOn (motive := fun nearest : F × NodeId => nearest.2 ∈ index.nodes) _ _ start
    fun nearest known layer _ => ?_
  rw [descend]
  rcases nearer_spec floats nearest (floats.ranking.sorted
    (index.searchLayer floats query nearest.2 1 layer)) with same | ⟨c, found, same⟩
  · rwa [same]
  · rw [← same]
    exact formed.reached known ((index.searchLayer_spec floats query nearest.2 1 layer).2 c
      ((floats.ranking.sorted_perm _).subset found))

/-- After insertions of new nodes a search returns at most `k` of them, each once. -/
theorem search_of_run {m mMax0 efConstruction : Nat} {int8 mmapPath : Bool}
    (run : Runs (fun index insertion => some (inserted floats index insertion))
      (fun index insertion => index.Unreferenced insertion.id)
      (withParams m mMax0 efConstruction int8 mmapPath) index) (query : V) (k ef : Nat) :
    (index.search floats similarities query k ef).length ≤ k ∧
      ((index.search floats similarities query k ef).map Prod.fst).Nodup ∧
      ∀ c ∈ index.search floats similarities query k ef, c.1 ∈ index.nodes := by
  have formed : index.WellFormed := run.invariant (fun _ insertion _ formed free taken => by
    cases taken
    exact formed.insert free floats insertion.file insertion.level insertion.vector)
    (wellFormed_withParams m mMax0 efConstruction int8 mmapPath)
  -- Whatever ranks what the search of layer zero found, a part of it is returned.
  have part (found : List (F × NodeId)) (answer ranked : List (NodeId × F))
      (perm : (ranked.map Prod.fst).Perm (found.map Prod.snd)) (first : answer = ranked.take k)
      (once : (found.map Prod.snd).Nodup) (known : ∀ c ∈ found, c.2 ∈ index.nodes) :
      answer.length ≤ k ∧ (answer.map Prod.fst).Nodup ∧ ∀ c ∈ answer, c.1 ∈ index.nodes := by
    subst first
    refine ⟨List.length_take_le _ _, (perm.nodup_iff.mpr once).sublist
      ((List.take_sublist _ _).map _), fun c member => ?_⟩
    obtain ⟨d, listed, same⟩ := List.mem_map.mp
      (perm.subset (List.mem_map_of_mem (List.mem_of_mem_take member)))
    exact same ▸ known d listed
  unfold search
  split
  · exact ⟨Nat.zero_le _, List.nodup_nil, nofun⟩
  · rename_i ep entered
    dsimp only
    generalize (max (if ef = 0 then max (index.efConstruction / 2) k else ef) k) = size
    have spec := index.searchLayer_spec floats (index.probe floats query)
      (index.descent floats (index.probe floats query) ep) size 0
    have start : index.descent floats (index.probe floats query) ep ∈ index.nodes :=
      formed.descent_mem _ entered
    have known := fun c found => formed.reached start (spec.2 c found)
    split_ifs
    · refine part _ _ _ ?_ rfl spec.1 known
      exact ((similarities.sorted_perm _).map _).trans (.of_eq (by simp [Function.comp_def]))
    · refine part _ _ _ ?_ (List.map_take ..) spec.1 known
      rw [List.map_map]
      exact (floats.ranking.sorted_perm _).map Prod.snd

/-- What a search with a beam wide enough returns: the nearest of all that can be reached. -/
structure Nearest (floats : Floats V F C) (index : HnswIndex V F C) (similarities : Similarities F)
    (query : V) (start : NodeId) (k : Nat) (answer : List (NodeId × F))
    (ranked : List (F × NodeId)) : Prop where
  /-- No node is ranked twice. -/
  once : (ranked.map Prod.snd).Nodup
  /-- All nodes that can be reached are ranked, each by its distance. -/
  all : ∀ c, c ∈ ranked ↔ c.1 = index.dist floats c.2 (index.probe floats query) ∧
    Relation.ReflTransGen (index.Links 0) start c.2
  /-- No node is further than a later one. -/
  ascending : ranked.Pairwise fun near far => floats.ranking.lt far.1 near.1 = false
  /-- The first are returned. -/
  first : answer = (ranked.take k).map fun c => (c.2, similarities.ofDistance c.1)

/-- A search whose beam has room for all that can be reached returns the nearest of it. -/
theorem search_nearest {comparable : F → Prop} (orders : floats.ranking.Orders comparable)
    {ep : NodeId} (entered : index.entryPoint = some ep) (full : index.int8 = none) {query : V}
    {k ef : Nat}
    (valued : ∀ node, Relation.ReflTransGen (index.Links 0)
      (index.descent floats (index.probe floats query) ep) node →
        comparable (index.dist floats node (index.probe floats query)))
    (few : ReachesAtMost (fun node => index.neighborsAt node 0)
      (index.descent floats (index.probe floats query) ep)
      (max (if ef = 0 then max (index.efConstruction / 2) k else ef) k)) :
    ∃ ranked, Nearest floats index similarities query
      (index.descent floats (index.probe floats query) ep) k
      (index.search floats similarities query k ef) ranked := by
  obtain ⟨once, all⟩ := (Ranking.roomy_start _ _ _).exhausts orders valued few
    (index.searchLayer_ends floats _ _ _ _)
  have perm := floats.ranking.sorted_perm (index.searchLayer floats (index.probe floats query)
    (index.descent floats (index.probe floats query) ep)
    (max (if ef = 0 then max (index.efConstruction / 2) k else ef) k) 0)
  refine ⟨_, (perm.map Prod.snd).nodup_iff.mpr once, fun c => perm.mem_iff.trans (all c),
    orders.ascending _ fun c found => ?_, ?_⟩
  · obtain ⟨own, reached⟩ := (all c).mp found
    rw [own]
    exact valued c.2 reached
  · simp only [search, entered, full, Option.isSome_none, Bool.false_eq_true, if_false]

/-- Numbers are compared in order. -/
theorem numbers_orders : numbers.ranking.Orders fun _ => True where
  furthest entries top rest _ popped entry member := by
    have sorted := List.pairwise_insertionSort (fun a b : Nat × NodeId => b.1 ≤ a.1) entries
    have listed := (numbers.ranking.far.perm _ _ _ popped).mem_iff.mpr member
    simp only [numbers, sortedQueue] at popped ⊢
    split at popped
    · cases popped
    · rename_i whole
      cases popped
      rw [whole, List.pairwise_cons] at sorted
      rcases List.mem_cons.mp listed with rfl | later
      · exact decide_eq_false (lt_irrefl _)
      · exact decide_eq_false (not_lt.mpr (sorted.1 entry later))
  ascending entries _ :=
    (List.pairwise_insertionSort (fun a b : Nat × NodeId => a.1 ≤ b.1) entries).imp fun le =>
      decide_eq_false (not_lt.mpr le)

/-- An index of one number. -/
def oneNumber : HnswIndex Nat Nat Nat := inserted numbers noNumbers (insertionOf 1 10)

/-- Distances that are similarities, in the order of the search. -/
def asFound : Similarities Nat := ⟨id, id, fun _ => .refl _⟩

/-- A search of an index of one number finds no more. -/
theorem search_of_run_one : (oneNumber.search numbers asFound 12 1 0).length ≤ 1 ∧
    ((oneNumber.search numbers asFound 12 1 0).map Prod.fst).Nodup ∧
    ∀ c ∈ oneNumber.search numbers asFound 12 1 0, c.1 ∈ oneNumber.nodes :=
  search_of_run (.step (insertionOf 1 10) (.done noNumbers)
    ((wellFormed_withParams 16 32 200 false false).unreferenced rfl) rfl) 12 1 0

/-- A search of an index of one number finds it. -/
theorem search_nearest_one : ∃ ranked, Nearest numbers oneNumber asFound 12 (NodeId.ofByte 1) 1
    (oneNumber.search numbers asFound 12 1 0) ranked := by
  have formed : oneNumber.WellFormed := (wellFormed_withParams 16 32 200 false false).insert
    ((wellFormed_withParams 16 32 200 false false).unreferenced rfl) numbers
    (insertionOf 1 10).file 0 10
  have entered : oneNumber.entryPoint = some (NodeId.ofByte 1) := rfl
  refine search_nearest numbers_orders entered rfl (fun _ _ => trivial)
    fun nodes distinct reached => ?_
  have few := (List.subperm_of_subset distinct fun node member =>
    formed.reached (formed.descent_mem _ entered) (reached node member)).length_le
  exact few.trans (by decide +kernel)

end HnswIndex

end Polargraph
