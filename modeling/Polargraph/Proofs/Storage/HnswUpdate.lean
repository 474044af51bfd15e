import Polargraph.Proofs.Storage.Hnsw

/-! Which nodes stay reachable when a vector is updated. -/

namespace Polargraph

namespace HnswIndex

variable {V F C : Type} {floats : Floats V F C} {index : HnswIndex V F C} {id other : NodeId}
  {layer : Nat} {list : List NodeId}

/-- The neighbours that are set are at most those given. -/
theorem neighborsAt_setNeighbors_subset (index : HnswIndex V F C) (id : NodeId) (layer : Nat)
    (list : List NodeId) : ∀ other ∈ (index.setNeighbors id layer list).neighborsAt id layer,
      other ∈ list := by
  intro other member
  unfold neighborsAt at member
  rw [lookup_setNeighbors, if_pos rfl] at member
  cases found : index.nodes.lookup id with
  | none =>
    rw [found] at member
    cases member
  | some n =>
    rw [found] at member
    dsimp only [Option.map_some] at member
    rw [List.getElem?_set_self'] at member
    split_ifs at member
    · cases within : n.neighbors[layer]? with
      | none =>
        rw [within] at member
        cases member
      | some before =>
        rw [within] at member
        exact member
    · cases member

/-- Setting a list that has at least what was there takes no link away. -/
theorem subset_neighborsAt_setNeighbors (more : ∀ other ∈ index.neighborsAt id layer, other ∈ list)
    (node : NodeId) (at_ : Nat) : ∀ other ∈ index.neighborsAt node at_,
      other ∈ (index.setNeighbors id layer list).neighborsAt node at_ := by
  intro other member
  by_cases here : node = id ∧ at_ = layer
  · obtain ⟨rfl, rfl⟩ := here
    have kept := more other member
    unfold neighborsAt at member ⊢
    rw [lookup_setNeighbors, if_pos rfl]
    cases found : index.nodes.lookup node with
    | none =>
      rw [found] at member
      cases member
    | some n =>
      rw [found] at member
      dsimp only [Option.map_some] at member ⊢
      rw [List.getElem?_set_self']
      split_ifs at member ⊢
      · cases within : n.neighbors[at_]? with
        | none =>
          rw [within] at member
          cases member
        | some before => exact kept
      · cases member
  · rw [index.neighborsAt_setNeighbors_of_ne list (not_and_or.mp here)]
    exact member

/-- No list becomes too long when a node is linked with those chosen for it. -/
def Fits (floats : Floats V F C) (id : NodeId) (lc : Nat) :
    HnswIndex V F C × List NodeId → List NodeId → Prop
  | _, [] => True
  | state, neighborId :: rest =>
    (state.1.reaches neighborId lc = true →
      (state.1.neighborsAt neighborId lc).length < state.1.mMax lc) ∧
    Fits floats id lc (linkNeighbor floats id lc state neighborId) rest

/-- Linking that prunes no list takes no link away. -/
theorem Fits.subset {lc : Nat} {chosen : List NodeId} {state : HnswIndex V F C × List NodeId}
    (fits : Fits floats id lc state chosen) (node : NodeId) (at_ : Nat) :
    ∀ other ∈ state.1.neighborsAt node at_,
      other ∈ (chosen.foldl (linkNeighbor floats id lc) state).1.neighborsAt node at_ := by
  induction chosen generalizing state with
  | nil => exact fun _ member => member
  | cons neighborId rest ih =>
    intro other member
    apply ih fits.2 other
    rw [linkNeighbor_index]
    split_ifs with reaches
    · obtain ⟨list, same, _, _, _, whole⟩ := state.1.linkBack_spec floats id lc neighborId
      rw [same, whole (fits.1 reaches)]
      exact subset_neighborsAt_setNeighbors
        (fun other old => List.mem_append_left _ old) node at_ other member
    · exact member

/-- Linking a node with itself alone lists no other node. -/
theorem linkAll_itself {lc : Nat} {chosen : List NodeId} {state : HnswIndex V F C × List NodeId}
    (itself : ∀ node ∈ chosen, node = id) (before : ∀ other ∈ state.1.neighborsAt id lc, other = id) :
    ∀ other ∈ (chosen.foldl (linkNeighbor floats id lc) state).1.neighborsAt id lc, other = id := by
  induction chosen generalizing state with
  | nil => exact before
  | cons neighborId rest ih =>
    apply ih (fun node member => itself node (List.mem_cons_of_mem _ member))
    rw [linkNeighbor_index, itself neighborId List.mem_cons_self]
    split_ifs
    · obtain ⟨list, same, among, _⟩ := state.1.linkBack_spec floats id lc id
      rw [same]
      intro other member
      have listed := among other (state.1.neighborsAt_setNeighbors_subset id lc list other member)
      rcases List.mem_append.mp listed with old | new
      · exact before other old
      · exact List.mem_singleton.mp new
    · exact before

/-- How the index compares the vector of an insertion. -/
def queryOf (floats : Floats V F C) (index : HnswIndex V F C) (insertion : Insertion V) :
    Probe V F C :=
  (index.storeVector floats insertion.file insertion.id insertion.vector).probe floats insertion.vector

/-- An insertion that has yet to link layer zero. -/
def aboveZero (floats : Floats V F C) (index : HnswIndex V F C) (insertion : Insertion V)
    (ep : NodeId) : Linking V F C :=
  let query := index.queryOf floats insertion
  let index := index.storeVector floats insertion.file insertion.id insertion.vector
  let nearest := (List.range' (insertion.level + 1) (index.globalMaxLayer - insertion.level)).reverse.foldl
    (index.descend floats query) (index.dist floats ep query, ep)
  let node := index.freshNode floats insertion.vector insertion.level
  ((List.range (min insertion.level index.globalMaxLayer)).map Nat.succ).reverse.foldl
    (linkLayer floats insertion.id query)
    ⟨{ index with nodes := index.nodes.insert insertion.id node }, nearest, []⟩

/-- An insertion links layer zero last, and becomes the entry point if it is above the others. -/
theorem inserted_eq (floats : Floats V F C) {insertion : Insertion V} {ep : NodeId}
    (entered : index.entryPoint = some ep) :
    inserted floats index insertion =
      let linked := (linkLayer floats insertion.id (index.queryOf floats insertion)
        (index.aboveZero floats insertion ep) 0).index
      if insertion.level > index.globalMaxLayer then
        { linked with entryPoint := some insertion.id, globalMaxLayer := insertion.level }
      else linked := by
  obtain ⟨int8, norms, mmapPath, mmapState, same⟩ :=
    index.storeVector_graph floats insertion.file insertion.id insertion.vector
  have entry : (index.storeVector floats insertion.file insertion.id insertion.vector).entryPoint =
      some ep := by rw [same]; exact entered
  have top : (index.storeVector floats insertion.file insertion.id insertion.vector).globalMaxLayer =
      index.globalMaxLayer := by rw [same]
  unfold inserted HnswIndex.insert aboveZero queryOf
  dsimp only
  rw [entry, top]
  dsimp only
  rw [List.range_succ_eq_map, List.reverse_cons, List.foldl_append]
  dsimp only [List.foldl_cons, List.foldl_nil]
  split_ifs <;> rfl

/-- No list of layer zero becomes too long when a node is inserted. -/
def PrunesNothing (floats : Floats V F C) (index : HnswIndex V F C) (insertion : Insertion V) : Prop :=
  ∀ ep, index.entryPoint = some ep →
    let state := index.aboveZero floats insertion ep
    let chosen := (chooseNeighbors floats state (index.queryOf floats insertion) 0).1
    Fits floats insertion.id 0
      (state.index.setNeighbors insertion.id 0 chosen, state.modified ++ [insertion.id]) chosen

/-- A node can be reached from the entry point along layer zero. -/
def Reachable (index : HnswIndex V F C) (node : NodeId) : Prop :=
  ∃ ep, index.entryPoint = some ep ∧ Relation.ReflTransGen (index.Links 0) ep node

/-- A node can be reached from the entry point by a path that comes through another at most at its start. -/
def ReachableWithout (index : HnswIndex V F C) (id node : NodeId) : Prop :=
  ∃ ep, index.entryPoint = some ep ∧
    Relation.ReflTransGen (fun a b => index.Links 0 a b ∧ b ≠ id) ep node

/-- An update leaves the other nodes that were reachable without the node reachable. -/
def HidesNothing (floats : Floats V F C) (index : HnswIndex V F C) (insertion : Insertion V) : Prop :=
  ∀ node, node ≠ insertion.id → index.ReachableWithout insertion.id node →
    (inserted floats index insertion).Reachable node

/-- The state before layer zero is linked has the links of layer zero of the other nodes. -/
theorem neighborsAt_aboveZero (floats : Floats V F C) (index : HnswIndex V F C)
    (insertion : Insertion V) (ep node : NodeId) :
    (index.aboveZero floats insertion ep).index.neighborsAt node 0 =
      if node = insertion.id then [] else index.neighborsAt node 0 := by
  obtain ⟨int8, norms, mmapPath, mmapState, same⟩ :=
    index.storeVector_graph floats insertion.file insertion.id insertion.vector
  have linked : ∀ (query : Probe V F C) (layers : List Nat) (state : Linking V F C),
      ((layers.map Nat.succ).foldl (linkLayer floats insertion.id query) state).index.neighborsAt
        node 0 = state.index.neighborsAt node 0 := by
    intro query layers
    induction layers with
    | nil => exact fun _ => rfl
    | cons lc rest ih =>
      intro state
      exact (ih _).trans (neighborsAt_linkLayer floats insertion.id query state
        (Nat.zero_ne_add_one lc) node)
  unfold aboveZero
  dsimp only
  rw [← List.map_reverse, linked]
  rw [neighborsAt_insert (n := freshNode floats _ insertion.vector insertion.level) _ _ rfl]
  rw [same]
  rfl

/-- Linking layer zero last leaves the entry point, unless the node is above the others. -/
theorem entryPoint_linkLayer (floats : Floats V F C) (index : HnswIndex V F C)
    (insertion : Insertion V) (ep : NodeId) (query : Probe V F C) :
    (linkLayer floats insertion.id query (index.aboveZero floats insertion ep) 0).index.entryPoint =
      index.entryPoint := by
  obtain ⟨int8, norms, mmapPath, mmapState, same⟩ :=
    index.storeVector_graph floats insertion.file insertion.id insertion.vector
  obtain ⟨_, last⟩ := (relinks_linkLayer floats insertion.id query
    (index.aboveZero floats insertion ep) 0).rest
  have above : (index.aboveZero floats insertion ep).index.entryPoint = index.entryPoint := by
    unfold aboveZero
    dsimp only
    obtain ⟨_, kept⟩ := (relinks_linkLayers floats insertion.id (index.queryOf floats insertion)
      ((List.range (min insertion.level (index.storeVector floats insertion.file insertion.id
        insertion.vector).globalMaxLayer)).map Nat.succ).reverse _).rest
    rw [kept, same]
  rw [last]
  exact above

/-- An update of another node than the entry point that stays below it hides nothing. -/
theorem hidesNothing_of_other {insertion : Insertion V} {ep : NodeId}
    (entered : index.entryPoint = some ep) (unpruned : index.PrunesNothing floats insertion)
    (other : insertion.id ≠ ep) (low : insertion.level ≤ index.globalMaxLayer) :
    index.HidesNothing floats insertion := by
  have after := @inserted_eq _ _ _ _ floats insertion _ entered
  rw [if_neg (by omega)] at after
  -- Every other node keeps its links.
  have kept : ∀ a, a ≠ insertion.id → ∀ b, index.Links 0 a b →
      (inserted floats index insertion).Links 0 a b := by
    intro a apart b link
    have before := neighborsAt_aboveZero floats index insertion ep a
    rw [if_neg apart] at before
    have set : b ∈ ((index.aboveZero floats insertion ep).index.setNeighbors insertion.id 0
        (chooseNeighbors floats (index.aboveZero floats insertion ep)
          (index.queryOf floats insertion) 0).1).neighborsAt a 0 := by
      rw [neighborsAt_setNeighbors_of_ne _ _ (Or.inl apart), before]
      exact link
    have grown := (unpruned ep entered).subset a 0 b set
    rw [HnswIndex.Links, after]
    exact grown
  intro node apart reachable
  clear apart
  obtain ⟨first, same, path⟩ := reachable
  rw [entered] at same
  cases same
  refine ⟨ep, ?_, ?_⟩
  · rw [after, entryPoint_linkLayer, entered]
  · -- The path never leaves the node that is updated, so every step of it is kept.
    have both : node ≠ insertion.id ∧
        Relation.ReflTransGen ((inserted floats index insertion).Links 0) ep node := by
      induction path with
      | refl => exact ⟨other.symm, .refl⟩
      | tail _ step ih => exact ⟨step.2, ih.2.tail (kept _ ih.1 _ step.1)⟩
    exact both.2

/-- An update of the entry point that does not descend lists the entry point alone. -/
theorem linkLayer_itself {state : Linking V F C} {lc : Nat} (start : state.nearest.2 = id)
    (bare : ∀ other ∈ state.index.neighborsAt id lc, other = id) (floats : Floats V F C)
    (query : Probe V F C) : (linkLayer floats id query state lc).nearest.2 = id ∧
      ∀ other ∈ (linkLayer floats id query state lc).index.neighborsAt id lc, other = id := by
  -- The search finds nothing but the node it starts at, which has no other neighbour.
  have alone : ∀ node, Relation.ReflTransGen (state.index.Links lc) id node → node = id := by
    intro node path
    induction path with
    | refl => rfl
    | tail _ step ih => exact bare _ (ih ▸ step)
  have found : ∀ c ∈ floats.ranking.sorted (state.index.searchLayer floats query state.nearest.2
      state.index.efConstruction lc), c.2 = id := by
    intro c member
    have path := (state.index.searchLayer_spec floats query state.nearest.2
      state.index.efConstruction lc).2 c ((floats.ranking.sorted_perm _).subset member)
    rw [start] at path
    exact alone c.2 path
  have chosen : ∀ node ∈ (chooseNeighbors floats state query lc).1, node = id := by
    intro node member
    obtain ⟨c, listed, rfl⟩ := List.mem_map.mp ((select_spec floats state.index _ _).1.subset member)
    exact found c listed
  constructor
  · rcases nearer_spec floats state.nearest (floats.ranking.sorted (state.index.searchLayer floats
      query state.nearest.2 state.index.efConstruction lc)) with same | ⟨c, member, same⟩
    · exact same.trans start
    · exact same.symm.trans (found c member)
  · apply linkAll_itself chosen
    intro other member
    exact chosen other (neighborsAt_setNeighbors_subset state.index id lc _ other member)

/-- An update of the entry point that does not descend is searched from it at every layer. -/
theorem linkLayers_itself {layers : List Nat} (distinct : layers.Nodup) {state : Linking V F C}
    (start : state.nearest.2 = id)
    (bare : ∀ lc ∈ layers, ∀ other ∈ state.index.neighborsAt id lc, other = id)
    (floats : Floats V F C) (query : Probe V F C) :
    (layers.foldl (linkLayer floats id query) state).nearest.2 = id := by
  induction layers generalizing state with
  | nil => exact start
  | cons lc rest ih =>
    obtain ⟨absent, distinct⟩ := List.nodup_cons.mp distinct
    obtain ⟨next, _⟩ := linkLayer_itself start (bare lc List.mem_cons_self) floats query
    apply ih distinct next
    intro layer member
    have apart : layer ≠ lc := by
      rintro rfl
      exact absent member
    rw [neighborsAt_linkLayer floats id query state apart id]
    exact bare layer (List.mem_cons_of_mem _ member)

/-- An update of the entry point at the top layer or above hides whatever was reachable. -/
theorem hidesNothing_of_entry {insertion : Insertion V}
    (entered : index.entryPoint = some insertion.id) (high : index.globalMaxLayer ≤ insertion.level) :
    index.HidesNothing floats insertion ↔
      ∀ node, node ≠ insertion.id → ¬ index.ReachableWithout insertion.id node := by
  have after := @inserted_eq _ _ _ _ floats insertion _ entered
  obtain ⟨int8, norms, mmapPath, mmapState, same⟩ :=
    index.storeVector_graph floats insertion.file insertion.id insertion.vector
  have start : (index.aboveZero floats insertion insertion.id).nearest.2 = insertion.id := by
    unfold aboveZero
    dsimp only
    apply linkLayers_itself
    · rw [List.nodup_reverse]
      exact List.nodup_range.map Nat.succ_injective
    · have none_ : (index.storeVector floats insertion.file insertion.id
          insertion.vector).globalMaxLayer - insertion.level = 0 := by
        rw [same]
        exact Nat.sub_eq_zero_of_le high
      rw [none_]
      rfl
    · intro lc _ other member
      rw [neighborsAt_insert (n := freshNode floats _ insertion.vector insertion.level) _ _ rfl,
        if_pos rfl] at member
      cases member
  have bare := neighborsAt_aboveZero floats index insertion insertion.id insertion.id
  rw [if_pos rfl] at bare
  obtain ⟨_, alone⟩ := linkLayer_itself start (by rw [bare]; exact fun _ none_ => nomatch none_)
    floats (index.queryOf floats insertion)
  -- The entry point is the node, which lists no other.
  have entry : (inserted floats index insertion).entryPoint = some insertion.id := by
    rw [after]
    dsimp only
    split_ifs
    · rfl
    · rw [entryPoint_linkLayer, entered]
  have links : ∀ other, (inserted floats index insertion).Links 0 insertion.id other →
      other = insertion.id := by
    intro other link
    rw [HnswIndex.Links, after] at link
    dsimp only at link
    split_ifs at link
    · exact alone other link
    · exact alone other link
  have only : ∀ node, (inserted floats index insertion).Reachable node → node = insertion.id := by
    intro node reachable
    obtain ⟨ep, first, path⟩ := reachable
    rw [entry] at first
    cases first
    induction path with
    | refl => rfl
    | tail _ step ih => exact links _ (ih ▸ step)
  constructor
  · intro hides node apart reachable
    exact apart (only node (hides node apart reachable))
  · intro none_ node apart reachable
    exact absurd reachable (none_ node apart)

/-- Whether lists stay short enough can be computed. -/
instance decidableFits (floats : Floats V F C) (id : NodeId) (lc : Nat) :
    ∀ state chosen, Decidable (Fits floats id lc state chosen)
  | _, [] => isTrue trivial
  | state, neighborId :: rest =>
    have := decidableFits floats id lc (linkNeighbor floats id lc state neighborId) rest
    inferInstanceAs (Decidable (_ ∧ _))

end HnswIndex

end Polargraph
