import Mathlib.Data.List.Sort
import Polargraph.Lib.Machine
import Polargraph.Storage.Hnsw

/-! The layered graph of a vector index is well formed after insertions. -/

namespace Polargraph

namespace HnswIndex

variable {V F C : Type} {floats : Floats V F C} {index : HnswIndex V F C} {id other : NodeId}
  {layer : Nat} {list : List NodeId}

/-- The record of a node after a list of neighbours was set. -/
theorem lookup_setNeighbors (index : HnswIndex V F C) (id : NodeId) (layer : Nat)
    (list : List NodeId) (other : NodeId) :
    (index.setNeighbors id layer list).nodes.lookup other =
      if other = id then (index.nodes.lookup id).map fun n =>
        { n with neighbors := n.neighbors.set layer list }
      else index.nodes.lookup other := by
  unfold setNeighbors
  cases found : index.nodes.lookup id with
  | none =>
    split_ifs with same
    · rw [same, found]
      rfl
    · rfl
  | some n =>
    split_ifs with same
    · rw [same]
      exact AList.lookup_insert _
    · exact AList.lookup_insert_ne same

/-- Setting neighbours leaves everything but the nodes. -/
theorem setNeighbors_eq (index : HnswIndex V F C) (id : NodeId) (layer : Nat) (list : List NodeId) :
    ∃ nodes, index.setNeighbors id layer list = { index with nodes := nodes } := by
  unfold setNeighbors
  cases index.nodes.lookup id with
  | none => exact ⟨index.nodes, rfl⟩
  | some n => exact ⟨_, rfl⟩

/-- Setting neighbours keeps the layers of every node. -/
@[simp] theorem reaches_setNeighbors (index : HnswIndex V F C) (id : NodeId) (layer : Nat)
    (list : List NodeId) (other : NodeId) (at_ : Nat) :
    (index.setNeighbors id layer list).reaches other at_ = index.reaches other at_ := by
  unfold reaches
  rw [lookup_setNeighbors]
  split_ifs with same
  · subst same
    cases index.nodes.lookup other <;> rfl
  · rfl

/-- A node that reaches a layer reaches those below. -/
theorem reaches_of_le {lower : Nat} (reaches : index.reaches id layer = true)
    (below : lower ≤ layer) : index.reaches id lower = true := by
  unfold HnswIndex.reaches at reaches ⊢
  split at reaches
  · simp only [decide_eq_true_eq] at reaches ⊢
    exact Nat.le_trans below reaches
  · cases reaches

/-- Setting the neighbours of one node at one layer leaves the others. -/
theorem neighborsAt_setNeighbors_of_ne (index : HnswIndex V F C) {id : NodeId} {layer : Nat}
    (list : List NodeId) {other : NodeId} {at_ : Nat} (apart : other ≠ id ∨ at_ ≠ layer) :
    (index.setNeighbors id layer list).neighborsAt other at_ = index.neighborsAt other at_ := by
  unfold neighborsAt
  rw [lookup_setNeighbors]
  split_ifs with same
  · subst same
    have layers := apart.resolve_left (fun different => different rfl)
    cases index.nodes.lookup other with
    | none => rfl
    | some n =>
      simp only [Option.map_some]
      rw [List.getElem?_set_ne (Ne.symm layers)]
  · rfl

/-- Every node has a list of neighbours for each of its layers. -/
def Shaped (index : HnswIndex V F C) : Prop :=
  ∀ id n, index.nodes.lookup id = some n → n.neighbors.length = n.maxLayer + 1

/-- The neighbours that are set are those of the node from then on. -/
theorem neighborsAt_setNeighbors (shaped : index.Shaped) (reaches : index.reaches id layer = true)
    (list : List NodeId) : (index.setNeighbors id layer list).neighborsAt id layer = list := by
  unfold HnswIndex.reaches at reaches
  unfold neighborsAt
  rw [lookup_setNeighbors, if_pos rfl]
  split at reaches
  · rename_i n found
    have within := of_decide_eq_true reaches
    have width := shaped id n found
    simp only [found, Option.map_some, within, if_true]
    rw [List.getElem?_set_self (by omega)]
    rfl
  · cases reaches

/-- Setting neighbours keeps the shape. -/
theorem Shaped.setNeighbors (shaped : index.Shaped) (id : NodeId) (layer : Nat)
    (list : List NodeId) : (index.setNeighbors id layer list).Shaped := by
  intro other n found
  rw [lookup_setNeighbors] at found
  split_ifs at found with same
  · obtain ⟨before, record, rfl⟩ := Option.map_eq_some_iff.mp found
    simpa using shaped id before record
  · exact shaped other n found

/-- Setting neighbours twice keeps the second. -/
theorem setNeighbors_setNeighbors (index : HnswIndex V F C) (id : NodeId) (layer : Nat)
    (first second : List NodeId) :
    (index.setNeighbors id layer first).setNeighbors id layer second =
      index.setNeighbors id layer second := by
  have record := index.lookup_setNeighbors id layer first id
  rw [if_pos rfl] at record
  cases found : index.nodes.lookup id with
  | none => simp only [setNeighbors, found]
  | some n =>
    rw [found] at record
    rw [HnswIndex.setNeighbors, record]
    simp only [Option.map_some, setNeighbors, found, AList.insert_insert, List.set_set]

/-- What the heuristic selects are some of the candidates, not too many, in their order. -/
theorem select_spec (floats : Floats V F C) (index : HnswIndex V F C) (candidates : List (F × NodeId))
    (m : Nat) : (index.selectNeighborsHeuristic floats candidates m).Sublist
        (candidates.map Prod.snd) ∧
      (index.selectNeighborsHeuristic floats candidates m).length ≤ m := by
  unfold selectNeighborsHeuristic
  split_ifs with few
  · exact ⟨.refl _, by simpa using few⟩
  · -- The candidates kept so far are followed by some of those to come.
    suffices folded : ∀ (candidates : List (F × NodeId)) (kept : List NodeId), kept.length ≤ m →
        ∃ more, candidates.foldl (fun kept candidate =>
          if kept.length ≥ m then kept
          else if kept.all (fun k => floats.ranking.lt candidate.1
            (index.distNodes floats k candidate.2)) then kept ++ [candidate.2]
          else kept) kept = kept ++ more ∧ more.Sublist (candidates.map Prod.snd) ∧
            (kept ++ more).length ≤ m by
      obtain ⟨more, same, sub, bounded⟩ := folded candidates [] (Nat.zero_le _)
      refine ⟨same ▸ ?_, same ▸ bounded⟩
      simpa using sub
    intro candidates
    induction candidates with
    | nil => exact fun kept bounded => ⟨[], by simp, .refl _, by simpa using bounded⟩
    | cons candidate rest ih =>
      obtain ⟨d, c⟩ := candidate
      intro kept bounded
      rw [List.foldl_cons]
      dsimp only
      split_ifs with full near
      · obtain ⟨more, same, sub, bounded⟩ := ih kept bounded
        exact ⟨more, same, sub.cons _, bounded⟩
      · obtain ⟨more, same, sub, bounded⟩ := ih (kept ++ [c]) (by simp; omega)
        refine ⟨c :: more, ?_, sub.cons_cons _, ?_⟩
        · rw [same, List.append_assoc]
          rfl
        · simpa [List.append_assoc] using bounded
      · obtain ⟨more, same, sub, bounded⟩ := ih kept bounded
        exact ⟨more, same, sub.cons _, bounded⟩

/-- One node lists another at a layer. -/
def Links (index : HnswIndex V F C) (layer : Nat) (a b : NodeId) : Prop :=
  b ∈ index.neighborsAt a layer

/-- Every listed neighbour is among those that bound a search. -/
theorem mem_listed (linked : index.Links layer id other) : other ∈ index.listed layer := by
  have member : other ∈ index.neighborsAt id layer := linked
  unfold neighborsAt at member
  split at member
  · rename_i n found
    refine List.mem_flatMap.mpr ⟨⟨id, n⟩, AList.mem_lookup_iff.mp found, linked⟩
  · cases member

/-- The search of a layer comes to an end. -/
theorem searchLayer_ends (floats : Floats V F C) (index : HnswIndex V F C) (query : Probe V F C)
    (entry : NodeId) (ef layer : Nat) :
    floats.ranking.expand (fun c => index.neighborsAt c layer) ef
      (fun id => index.dist floats id query) ((index.listed layer).length + 2)
      (Ranking.start (fun id => index.dist floats id query) entry) =
        some (index.searchLayer floats query entry ef layer) := by
  have ends := @Ranking.expand_isSome _ _ floats.ranking (fun c => index.neighborsAt c layer) ef
    (fun id => index.dist floats id query)
    (Ranking.start (fun id => index.dist floats id query) entry) _ (index.listed layer)
    (fun c e member => mem_listed member) ((index.listed layer).length + 2) (by
      have fewer : (Ranking.unvisited (index.listed layer) (Ranking.start
          (fun id => index.dist floats id query) entry)).length ≤ (index.listed layer).length :=
        List.length_filter_le _ _
      have one : (Ranking.start (fun id => index.dist floats id query) entry).candidates.length = 1 :=
        rfl
      omega)
  obtain ⟨found, same⟩ := Option.isSome_iff_exists.mp ends
  rw [searchLayer, same]
  rfl

/-- The search of a layer finds distinct nodes, which the layer's links lead to. -/
theorem searchLayer_spec (floats : Floats V F C) (index : HnswIndex V F C) (query : Probe V F C)
    (entry : NodeId) (ef layer : Nat) :
    ((index.searchLayer floats query entry ef layer).map Prod.snd).Nodup ∧
      ∀ c ∈ index.searchLayer floats query entry ef layer,
        Relation.ReflTransGen (index.Links layer) entry c.2 :=
  Ranking.expand_explores (Ranking.start_explores _ _ entry)
    (index.searchLayer_ends floats query entry ef layer)

/-- A node that links lead to is where they start, or is listed. -/
theorem eq_or_listed {a b : NodeId} (path : Relation.ReflTransGen (index.Links layer) a b) :
    b = a ∨ ∃ c, index.Links layer c b := by
  cases path with
  | refl => exact Or.inl rfl
  | tail _ last => exact Or.inr ⟨_, last⟩

/-- The nearest is the best so far, or one of those found. -/
theorem nearer_spec (floats : Floats V F C) (best : F × NodeId) (found : List (F × NodeId)) :
    (nearer floats best found).2 = best.2 ∨
      ∃ c ∈ found, c.2 = (nearer floats best found).2 := by
  unfold nearer
  split
  · split_ifs
    · exact Or.inr ⟨_, List.mem_cons_self, rfl⟩
    · exact Or.inl rfl
  · exact Or.inl rfl

/--
The lists of neighbours are as the graph needs them.

There is one for each layer of a node, of bounded length, and what it lists are other nodes at that
layer, each once.
-/
structure Wired (index : HnswIndex V F C) : Prop where
  /-- Every node has a list for each of its layers. -/
  shaped : index.Shaped
  /-- The lists are not too long. -/
  bounded : ∀ id layer, (index.neighborsAt id layer).length ≤ index.mMax layer
  /-- What is listed at a layer are other nodes that reach it. -/
  linked : ∀ id layer, ∀ other ∈ index.neighborsAt id layer,
    other ≠ id ∧ index.reaches other layer = true
  /-- No neighbour is listed twice. -/
  once : ∀ id layer, (index.neighborsAt id layer).Nodup

/-- The bound on a list does not depend on the nodes. -/
theorem mMax_setNeighbors (index : HnswIndex V F C) (id : NodeId) (layer : Nat)
    (list : List NodeId) (at_ : Nat) : (index.setNeighbors id layer list).mMax at_ = index.mMax at_ := by
  obtain ⟨nodes, same⟩ := index.setNeighbors_eq id layer list
  rw [same]
  rfl

/-- A list that is as it has to be can be set. -/
theorem Wired.setNeighbors (wired : index.Wired) (reaches : index.reaches id layer = true)
    (bounded : list.length ≤ index.mMax layer) (once : list.Nodup)
    (linked : ∀ other ∈ list, other ≠ id ∧ index.reaches other layer = true) :
    (index.setNeighbors id layer list).Wired := by
  have own := neighborsAt_setNeighbors wired.shaped reaches list
  refine ⟨wired.shaped.setNeighbors id layer list, ?_, ?_, ?_⟩
  all_goals
    intro node at_
    by_cases here : node = id ∧ at_ = layer
    · obtain ⟨rfl, rfl⟩ := here
      simp only [own, mMax_setNeighbors, reaches_setNeighbors]
      assumption
    · have apart := not_and_or.mp here
      simp only [index.neighborsAt_setNeighbors_of_ne list apart, mMax_setNeighbors,
        reaches_setNeighbors]
      first
        | exact wired.bounded node at_
        | exact wired.linked node at_
        | exact wired.once node at_

/-- Linking back sets the list of one node: what it had and the new node, or some of these. -/
theorem linkBack_spec (floats : Floats V F C) (index : HnswIndex V F C) (id : NodeId) (lc : Nat)
    (neighborId : NodeId) : ∃ list,
      index.linkBack floats id lc neighborId = index.setNeighbors neighborId lc list ∧
      (∀ other ∈ list, other ∈ index.neighborsAt neighborId lc ++ [id]) ∧
      ((index.neighborsAt neighborId lc ++ [id]).Nodup → list.Nodup) ∧
      list.length ≤ index.mMax lc ∧
      ((index.neighborsAt neighborId lc).length < index.mMax lc →
        list = index.neighborsAt neighborId lc ++ [id]) := by
  unfold linkBack
  dsimp only
  rw [mMax_setNeighbors]
  split_ifs with many
  · -- The list is pruned to a selection of it.
    rw [setNeighbors_setNeighbors]
    set pushed := index.setNeighbors neighborId lc (index.neighborsAt neighborId lc ++ [id])
    set all := (index.neighborsAt neighborId lc ++ [id]).map
      (fun c => (pushed.distNodes floats neighborId c, c)) with scored
    obtain ⟨sub, bounded⟩ := select_spec floats pushed (floats.sortBy all) (index.mMax lc)
    have perm : ((floats.sortBy all).map Prod.snd).Perm (index.neighborsAt neighborId lc ++ [id]) := by
      have names : all.map Prod.snd = index.neighborsAt neighborId lc ++ [id] := by
        rw [scored, List.map_map]
        exact List.map_id _
      rw [← names]
      exact (floats.sortBy_perm all).map Prod.snd
    refine ⟨_, rfl, fun other member => perm.subset (sub.subset member), fun once => ?_, bounded,
      fun few => ?_⟩
    · exact (perm.nodup_iff.mpr once).sublist sub
    · simp only [List.length_append, List.length_singleton] at many
      omega
  · exact ⟨_, rfl, fun _ member => member, fun once => once, by omega, fun _ => rfl⟩

/-- Only lists of neighbours differ between two indexes. -/
structure Relinks (index after : HnswIndex V F C) : Prop where
  /-- The same nodes have the same layers. -/
  levels : ∀ id, (after.nodes.lookup id).map (·.maxLayer) = (index.nodes.lookup id).map (·.maxLayer)
  /-- Nothing but the nodes differs. -/
  rest : ∃ nodes, after = { index with nodes := nodes }

/-- An index relinks to itself. -/
theorem Relinks.refl (index : HnswIndex V F C) : Relinks index index :=
  ⟨fun _ => rfl, index.nodes, rfl⟩

/-- Relinking twice is relinking. -/
theorem Relinks.trans {middle after : HnswIndex V F C} (first : Relinks index middle)
    (second : Relinks middle after) : Relinks index after := by
  refine ⟨fun id => (second.levels id).trans (first.levels id), ?_⟩
  obtain ⟨nodes, rfl⟩ := first.rest
  exact second.rest

/-- Setting neighbours relinks. -/
theorem relinks_setNeighbors (index : HnswIndex V F C) (id : NodeId) (layer : Nat)
    (list : List NodeId) : Relinks index (index.setNeighbors id layer list) := by
  refine ⟨fun other => ?_, index.setNeighbors_eq id layer list⟩
  rw [lookup_setNeighbors]
  split_ifs with same
  · subst same
    rw [Option.map_map]
    rfl
  · rfl

/-- Relinking keeps which nodes reach a layer. -/
theorem Relinks.reaches {after : HnswIndex V F C} (relinks : Relinks index after) (id : NodeId)
    (layer : Nat) : after.reaches id layer = index.reaches id layer := by
  have all : ∀ some_ : HnswIndex V F C, some_.reaches id layer =
      (((some_.nodes.lookup id).map (·.maxLayer)).map fun top => decide (layer ≤ top)).getD false := by
    intro some_
    unfold HnswIndex.reaches
    cases some_.nodes.lookup id <;> rfl
  rw [all, all, relinks.levels id]

/-- Linking back relinks. -/
theorem relinks_linkBack (floats : Floats V F C) (index : HnswIndex V F C) (id : NodeId) (lc : Nat)
    (neighborId : NodeId) : Relinks index (index.linkBack floats id lc neighborId) := by
  obtain ⟨list, same, _⟩ := index.linkBack_spec floats id lc neighborId
  rw [same]
  exact index.relinks_setNeighbors neighborId lc list

/-- Linking a node with a neighbour links back if the neighbour reaches the layer. -/
theorem linkNeighbor_index (floats : Floats V F C) (id : NodeId) (lc : Nat)
    (state : HnswIndex V F C × List NodeId) (neighborId : NodeId) :
    (linkNeighbor floats id lc state neighborId).1 =
      if state.1.reaches neighborId lc then state.1.linkBack floats id lc neighborId
      else state.1 := by
  unfold linkNeighbor
  dsimp only
  cases state.1.reaches neighborId lc <;> rfl

/-- Linking a node with those chosen for it relinks. -/
theorem relinks_linkAll (floats : Floats V F C) (id : NodeId) (lc : Nat) (chosen : List NodeId)
    (state : HnswIndex V F C × List NodeId) :
    Relinks state.1 (chosen.foldl (linkNeighbor floats id lc) state).1 := by
  induction chosen generalizing state with
  | nil => exact .refl _
  | cons neighborId rest ih =>
    have one : Relinks state.1 (linkNeighbor floats id lc state neighborId).1 := by
      rw [linkNeighbor_index]
      split_ifs
      · exact state.1.relinks_linkBack floats id lc neighborId
      · exact .refl _
    exact one.trans (ih _)

/-- Linking a node with those chosen for it changes lists at one layer only. -/
theorem neighborsAt_linkAll (floats : Floats V F C) (id : NodeId) (lc : Nat) (chosen : List NodeId)
    (state : HnswIndex V F C × List NodeId) {node : NodeId} {at_ : Nat}
    (apart : node ∉ chosen ∨ at_ ≠ lc) :
    (chosen.foldl (linkNeighbor floats id lc) state).1.neighborsAt node at_ =
      state.1.neighborsAt node at_ := by
  induction chosen generalizing state with
  | nil => rfl
  | cons neighborId rest ih =>
    have here : node ≠ neighborId ∨ at_ ≠ lc := apart.imp_left (fun absent same =>
      absent (same ▸ List.mem_cons_self))
    have later : node ∉ rest ∨ at_ ≠ lc := apart.imp_left (fun absent member =>
      absent (List.mem_cons_of_mem _ member))
    rw [List.foldl_cons, ih _ later]
    rw [linkNeighbor_index]
    split_ifs
    · obtain ⟨list, same, _⟩ := state.1.linkBack_spec floats id lc neighborId
      rw [same]
      exact state.1.neighborsAt_setNeighbors_of_ne list here
    · rfl

/-- Linking a node with distinct others keeps the lists as the graph needs them. -/
theorem Wired.linkAll {lc : Nat} {chosen : List NodeId} {state : HnswIndex V F C × List NodeId}
    (wired : state.1.Wired) (own : state.1.reaches id lc = true) (distinct : chosen.Nodup)
    (others : ∀ node ∈ chosen, node ≠ id)
    (unnamed : ∀ node ∈ chosen, id ∉ state.1.neighborsAt node lc) :
    (chosen.foldl (linkNeighbor floats id lc) state).1.Wired := by
  induction chosen generalizing state with
  | nil => exact wired
  | cons neighborId rest ih =>
    obtain ⟨absent, distinct⟩ := List.nodup_cons.mp distinct
    have relinked := relinks_linkAll floats id lc [neighborId] state
    -- The others that were chosen still do not list the node.
    have still : ∀ node ∈ rest,
        id ∉ (linkNeighbor floats id lc state neighborId).1.neighborsAt node lc := by
      intro node member
      have kept := @neighborsAt_linkAll _ _ _ floats id lc [neighborId] state node lc
        (Or.inl (by rw [List.mem_singleton]; rintro rfl; exact absent member))
      rw [List.foldl_cons, List.foldl_nil] at kept
      rw [kept]
      exact unnamed node (List.mem_cons_of_mem _ member)
    have one : (linkNeighbor floats id lc state neighborId).1.Wired := by
      rw [linkNeighbor_index]
      split_ifs with reaches
      · obtain ⟨list, same, among, once, bounded, _⟩ := state.1.linkBack_spec floats id lc neighborId
        rw [same]
        apply wired.setNeighbors reaches bounded
        · apply once
          rw [List.nodup_append]
          refine ⟨wired.once neighborId lc, List.nodup_singleton id, fun a member b single => ?_⟩
          rw [List.mem_singleton.mp single]
          rintro rfl
          exact unnamed neighborId List.mem_cons_self member
        · intro other member
          rcases List.mem_append.mp (among other member) with old | new
          · exact wired.linked neighborId lc other old
          · rw [List.mem_singleton.mp new]
            exact ⟨(others neighborId List.mem_cons_self).symm, own⟩
      · exact wired
    refine ih one ?_ distinct (fun node member => others node (List.mem_cons_of_mem _ member)) still
    rw [← own]
    exact relinked.reaches id lc

/-- A search that starts at another node of a layer finds other nodes of it. -/
theorem searchLayer_layer (wired : index.Wired) {entry : NodeId} (start : entry ≠ id)
    (reaches : index.reaches entry layer = true) (unnamed : ∀ a, id ∉ index.neighborsAt a layer)
    (floats : Floats V F C) (query : Probe V F C) (ef : Nat) :
    ∀ c ∈ floats.ranking.sorted (index.searchLayer floats query entry ef layer),
      c.2 ≠ id ∧ index.reaches c.2 layer = true := by
  intro c member
  have found := (floats.ranking.sorted_perm _).subset member
  rcases eq_or_listed ((index.searchLayer_spec floats query entry ef layer).2 c found) with
    same | ⟨a, listed⟩
  · rw [same]
    exact ⟨start, reaches⟩
  · refine ⟨fun same => unnamed a ?_, (wired.linked a layer c.2 listed).2⟩
    rw [← same]
    exact listed

/-- The nearest node after a search is another node of the layer again. -/
theorem nearer_layer {best : F × NodeId} {found : List (F × NodeId)}
    (before : best.2 ≠ id ∧ index.reaches best.2 layer = true)
    (all : ∀ c ∈ found, c.2 ≠ id ∧ index.reaches c.2 layer = true) (floats : Floats V F C) :
    (nearer floats best found).2 ≠ id ∧ index.reaches (nearer floats best found).2 layer = true := by
  rcases nearer_spec floats best found with same | ⟨c, member, same⟩
  · rw [same]
    exact before
  · rw [← same]
    exact all c member

/-- The descent ends at another node that reaches every layer it is not above. -/
theorem descend_layer (wired : index.Wired) (unnamed : ∀ a layer, id ∉ index.neighborsAt a layer)
    (floats : Floats V F C) (query : Probe V F C) {layers : List Nat}
    (descending : layers.Pairwise (fun upper lower => lower ≤ upper)) {lowest : Nat}
    (above : ∀ layer ∈ layers, lowest ≤ layer) {nearest : F × NodeId} (start : nearest.2 ≠ id)
    (reaches : ∀ layer ∈ layers, index.reaches nearest.2 layer = true)
    (low : index.reaches nearest.2 lowest = true) :
    (layers.foldl (index.descend floats query) nearest).2 ≠ id ∧
      index.reaches (layers.foldl (index.descend floats query) nearest).2 lowest = true := by
  induction layers generalizing nearest with
  | nil => exact ⟨start, low⟩
  | cons layer rest ih =>
    obtain ⟨below, descending⟩ := List.pairwise_cons.mp descending
    have here := reaches layer List.mem_cons_self
    have next := nearer_layer ⟨start, here⟩
      (searchLayer_layer wired start here (fun a => unnamed a layer) floats query 1) floats
    -- The next node reaches this layer, and so every layer below it.
    apply ih descending (fun lower member => above lower (List.mem_cons_of_mem _ member)) next.1
    · exact fun lower member => reaches_of_le next.2 (below lower member)
    · exact reaches_of_le next.2 (above layer List.mem_cons_self)

/-- An insertion under way, before the node is linked at some layers. -/
structure Weaves (id : NodeId) (layers : List Nat) (state : Linking V F C) : Prop where
  /-- The lists are as the graph needs them. -/
  wired : state.index.Wired
  /-- No list of these layers names the node. -/
  unnamed : ∀ layer ∈ layers, ∀ a, id ∉ state.index.neighborsAt a layer
  /-- The next layer is searched from another node. -/
  start : state.nearest.2 ≠ id
  /-- That node reaches these layers. -/
  reaches : ∀ layer ∈ layers, state.index.reaches state.nearest.2 layer = true
  /-- So does the node that is inserted. -/
  own : ∀ layer ∈ layers, state.index.reaches id layer = true

/-- Linking at a layer relinks. -/
theorem relinks_linkLayer (floats : Floats V F C) (id : NodeId) (query : Probe V F C)
    (state : Linking V F C) (lc : Nat) :
    Relinks state.index (linkLayer floats id query state lc).index :=
  (state.index.relinks_setNeighbors id lc _).trans (relinks_linkAll floats id lc _ (_, _))

/-- Linking at layers relinks. -/
theorem relinks_linkLayers (floats : Floats V F C) (id : NodeId) (query : Probe V F C)
    (layers : List Nat) (state : Linking V F C) :
    Relinks state.index (layers.foldl (linkLayer floats id query) state).index := by
  induction layers generalizing state with
  | nil => exact .refl _
  | cons lc rest ih => exact (relinks_linkLayer floats id query state lc).trans (ih _)

/-- Linking at a layer changes no list at another. -/
theorem neighborsAt_linkLayer (floats : Floats V F C) (id : NodeId) (query : Probe V F C)
    (state : Linking V F C) {lc at_ : Nat} (apart : at_ ≠ lc) (node : NodeId) :
    (linkLayer floats id query state lc).index.neighborsAt node at_ =
      state.index.neighborsAt node at_ :=
  (neighborsAt_linkAll floats id lc _ (_, _) (Or.inr apart)).trans
    (state.index.neighborsAt_setNeighbors_of_ne _ (Or.inr apart))

/-- Linking the node at a layer leaves it to be linked at those below. -/
theorem Weaves.linkLayer {lc : Nat} {rest : List Nat} {state : Linking V F C}
    (weaves : Weaves id (lc :: rest) state) (below : ∀ layer ∈ rest, layer < lc)
    (floats : Floats V F C) (query : Probe V F C) :
    Weaves id rest (linkLayer floats id query state lc) := by
  obtain ⟨wired, unnamed, start, reaches, own⟩ := weaves
  have relinks := relinks_linkLayer floats id query state lc
  have here := reaches lc List.mem_cons_self
  have hidden := unnamed lc List.mem_cons_self
  have all := searchLayer_layer wired start here hidden floats query state.index.efConstruction
  have next := nearer_layer ⟨start, here⟩ all floats
  refine ⟨?_, ?_, next.1, ?_, ?_⟩
  · -- What is chosen are distinct other nodes of the layer, none of which lists the node.
    obtain ⟨sub, bounded⟩ := select_spec floats state.index (floats.ranking.sorted
      (state.index.searchLayer floats query state.nearest.2 state.index.efConstruction lc))
      (state.index.mMax lc)
    have distinct : (chooseNeighbors floats state query lc).1.Nodup := by
      have found := (state.index.searchLayer_spec floats query state.nearest.2
        state.index.efConstruction lc).1
      exact (((floats.ranking.sorted_perm _).map Prod.snd).nodup_iff.mpr found).sublist sub
    have chosen : ∀ node ∈ (chooseNeighbors floats state query lc).1,
        node ≠ id ∧ state.index.reaches node lc = true := by
      intro node member
      obtain ⟨c, found, rfl⟩ := List.mem_map.mp (sub.subset member)
      exact all c found
    have listed := wired.setNeighbors (own lc List.mem_cons_self) bounded distinct chosen
    apply @Wired.linkAll _ _ _ floats id lc _
      (state.index.setNeighbors id lc (chooseNeighbors floats state query lc).1,
        state.modified ++ [id]) listed
    · dsimp only
      rw [reaches_setNeighbors]
      exact own lc List.mem_cons_self
    · exact distinct
    · exact fun node member => (chosen node member).1
    · intro node member
      dsimp only
      rw [state.index.neighborsAt_setNeighbors_of_ne _ (Or.inl (chosen node member).1)]
      exact hidden node
  · intro layer member a
    rw [neighborsAt_linkLayer floats id query state (Nat.ne_of_lt (below layer member)) a]
    exact unnamed layer (List.mem_cons_of_mem _ member) a
  · intro layer member
    rw [relinks.reaches]
    exact reaches_of_le next.2 (Nat.le_of_lt (below layer member))
  · intro layer member
    rw [relinks.reaches]
    exact own layer (List.mem_cons_of_mem _ member)

/-- Linking the node at all its layers leaves lists as the graph needs them. -/
theorem Weaves.linkLayers {layers : List Nat} {state : Linking V F C}
    (weaves : Weaves id layers state)
    (descending : layers.Pairwise (fun upper lower => lower < upper)) (floats : Floats V F C)
    (query : Probe V F C) :
    (layers.foldl (HnswIndex.linkLayer floats id query) state).index.Wired := by
  induction layers generalizing state with
  | nil => exact weaves.wired
  | cons lc rest ih =>
    obtain ⟨below, descending⟩ := List.pairwise_cons.mp descending
    exact ih (weaves.linkLayer below floats query) descending

/-- Storing a vector leaves the graph. -/
theorem storeVector_graph (floats : Floats V F C) (index : HnswIndex V F C) (file : VectorFile V)
    (id : NodeId) (vector : V) : ∃ int8 norms mmapPath mmapState,
      index.storeVector floats file id vector = { index with
        int8 := int8, norms := norms, mmapPath := mmapPath, mmapState := mmapState } := by
  unfold storeVector
  dsimp only
  split_ifs
  · split <;> exact ⟨_, _, _, _, rfl⟩
  · split <;> exact ⟨_, _, _, _, rfl⟩
  · exact ⟨_, _, _, _, rfl⟩

/-- The graph of an index is well formed. -/
structure WellFormed (index : HnswIndex V F C) : Prop where
  /-- The lists of neighbours are as the graph needs them. -/
  wired : index.Wired
  /-- Only an index of no nodes has no entry point. -/
  empty : index.entryPoint = none → index.nodes = ∅
  /-- The entry point is a node at the top layer. -/
  entry : ∀ ep, index.entryPoint = some ep →
    ∃ n, index.nodes.lookup ep = some n ∧ n.maxLayer = index.globalMaxLayer
  /-- No node is above the top layer. -/
  top : ∀ id n, index.nodes.lookup id = some n → n.maxLayer ≤ index.globalMaxLayer

/-- Nothing refers to a node: it is not the entry point, and no list names it. -/
def Unreferenced (index : HnswIndex V F C) (id : NodeId) : Prop :=
  index.entryPoint ≠ some id ∧ ∀ a layer, id ∉ index.neighborsAt a layer

/-- A new record has no neighbours, and the others keep theirs. -/
theorem neighborsAt_insert (index : HnswIndex V F C) (id : NodeId) {n : HnswNode V} {count : Nat}
    (bare : n.neighbors = List.replicate count []) (node : NodeId) (layer : Nat) :
    neighborsAt { index with nodes := index.nodes.insert id n } node layer =
      if node = id then [] else index.neighborsAt node layer := by
  unfold neighborsAt
  dsimp only
  split_ifs with same
  · subst same
    rw [AList.lookup_insert]
    simp only [bare, List.getElem?_replicate]
    split_ifs <;> rfl
  · rw [AList.lookup_insert_ne same]

/-- A new record reaches the layers up to its level, and the others reach what they did. -/
theorem reaches_insert (index : HnswIndex V F C) (id : NodeId) (n : HnswNode V) (node : NodeId)
    (layer : Nat) : reaches { index with nodes := index.nodes.insert id n } node layer =
      if node = id then decide (layer ≤ n.maxLayer) else index.reaches node layer := by
  unfold reaches
  dsimp only
  split_ifs with same
  · subst same
    rw [AList.lookup_insert]
  · rw [AList.lookup_insert_ne same]

/-- A new record for a node that no list names keeps the lists as the graph needs them. -/
theorem Wired.insert (wired : index.Wired) (unnamed : ∀ a layer, id ∉ index.neighborsAt a layer)
    {n : HnswNode V} (bare : n.neighbors = List.replicate (n.maxLayer + 1) []) :
    Wired { index with nodes := index.nodes.insert id n } := by
  refine ⟨fun node record found => ?_, fun node layer => ?_, fun node layer other member => ?_,
    fun node layer => ?_⟩
  · dsimp only at found
    by_cases same : node = id
    · subst same
      rw [AList.lookup_insert] at found
      cases found
      rw [bare, List.length_replicate]
    · rw [AList.lookup_insert_ne same] at found
      exact wired.shaped node record found
  · rw [neighborsAt_insert index id bare]
    split_ifs
    · exact Nat.zero_le _
    · exact wired.bounded node layer
  · rw [neighborsAt_insert index id bare] at member
    split_ifs at member
    · cases member
    · obtain ⟨apart, reaches⟩ := wired.linked node layer other member
      refine ⟨apart, ?_⟩
      have known : other ≠ id := by
        rintro rfl
        exact unnamed node layer member
      rw [reaches_insert, if_neg known]
      exact reaches
  · rw [neighborsAt_insert index id bare]
    split_ifs
    · exact List.nodup_nil
    · exact wired.once node layer

/-- Storing a vector leaves a well-formed graph, and what refers to a node. -/
theorem WellFormed.storeVector (formed : index.WellFormed) (free : index.Unreferenced id)
    (floats : Floats V F C) (file : VectorFile V) (vector : V) :
    (index.storeVector floats file id vector).WellFormed ∧
      (index.storeVector floats file id vector).Unreferenced id := by
  obtain ⟨int8, norms, mmapPath, mmapState, same⟩ := index.storeVector_graph floats file id vector
  rw [same]
  obtain ⟨⟨shaped, bounded, linked, once⟩, empty, entry, top⟩ := formed
  exact ⟨⟨⟨shaped, bounded, linked, once⟩, empty, entry, top⟩, free⟩

/-- The layers below a bound, from the highest, descend. -/
theorem pairwise_range_reverse (count : Nat) :
    (List.range count).reverse.Pairwise (fun upper lower => lower < upper) :=
  List.pairwise_reverse.mpr List.pairwise_lt_range

/-- The entry point reaches every layer of the index. -/
theorem WellFormed.entry_reaches (formed : index.WellFormed) {ep : NodeId}
    (entered : index.entryPoint = some ep) (within : layer ≤ index.globalMaxLayer) :
    index.reaches ep layer = true := by
  obtain ⟨record, found, highest⟩ := formed.entry ep entered
  simp only [reaches, found, highest, decide_eq_true_eq]
  exact within

/-- The first node is the entry point, and its level the top layer. -/
theorem WellFormed.first (formed : index.WellFormed) (none_ : index.entryPoint = none)
    (free : index.Unreferenced id) {n : HnswNode V}
    (bare : n.neighbors = List.replicate (n.maxLayer + 1) []) :
    WellFormed { index with
      nodes := index.nodes.insert id n, entryPoint := some id, globalMaxLayer := n.maxLayer } := by
  have nothing := formed.empty none_
  obtain ⟨shaped, bounded, linked, once⟩ := formed.wired.insert free.2 bare
  refine ⟨⟨shaped, bounded, linked, once⟩, nofun, fun ep same => ?_, fun other record found => ?_⟩
  · cases same
    exact ⟨n, AList.lookup_insert _, rfl⟩
  · dsimp only at found
    by_cases same : other = id
    · subst same
      rw [AList.lookup_insert] at found
      cases found
      exact Nat.le_refl _
    · rw [AList.lookup_insert_ne same, nothing, AList.lookup_empty] at found
      cases found

/-- The descent to a level ends at another node of the first layer that is linked. -/
theorem WellFormed.descent (formed : index.WellFormed) (free : index.Unreferenced id) {ep : NodeId}
    (entered : index.entryPoint = some ep) (floats : Floats V F C) (query : Probe V F C)
    (level : Nat) (d : F) :
    ((List.range' (level + 1) (index.globalMaxLayer - level)).reverse.foldl
      (index.descend floats query) (d, ep)).2 ≠ id ∧
    index.reaches ((List.range' (level + 1) (index.globalMaxLayer - level)).reverse.foldl
      (index.descend floats query) (d, ep)).2 (min level index.globalMaxLayer) = true := by
  have bounds : ∀ layer ∈ (List.range' (level + 1) (index.globalMaxLayer - level)).reverse,
      level < layer ∧ layer ≤ index.globalMaxLayer := by
    intro layer member
    have bound := List.mem_range'_1.mp (List.mem_reverse.mp member)
    omega
  apply descend_layer formed.wired free.2 floats query
  · exact List.pairwise_reverse.mpr ((List.pairwise_lt_range' ..).imp Nat.le_of_lt)
  · intro layer member
    have bound := bounds layer member
    omega
  · exact fun same => free.1 (by rw [entered, show ep = id from same])
  · exact fun layer member => formed.entry_reaches entered (bounds layer member).2
  · exact formed.entry_reaches entered (Nat.min_le_right _ _)

/-- A new record is ready to be linked at the layers up to its level. -/
theorem Wired.weaves (wired : index.Wired) (unnamed : ∀ a layer, id ∉ index.neighborsAt a layer)
    {n : HnswNode V} (bare : n.neighbors = List.replicate (n.maxLayer + 1) []) {top : Nat}
    {nearest : F × NodeId} (start : nearest.2 ≠ id) (low : index.reaches nearest.2 top = true)
    (within : top ≤ n.maxLayer) {layers : List Nat} (below : ∀ layer ∈ layers, layer ≤ top) :
    Weaves id layers ⟨{ index with nodes := index.nodes.insert id n }, nearest, []⟩ := by
  refine ⟨wired.insert unnamed bare, fun layer _ a => ?_, start, fun layer member => ?_,
    fun layer member => ?_⟩
  · dsimp only
    rw [neighborsAt_insert index id bare]
    split_ifs
    · exact List.not_mem_nil
    · exact unnamed a layer
  · dsimp only
    rw [reaches_insert, if_neg start]
    exact reaches_of_le low (below layer member)
  · dsimp only
    rw [reaches_insert, if_pos rfl, decide_eq_true_eq]
    exact Nat.le_trans (below layer member) within

/-- A new record that was linked is the entry point if it is above the others. -/
theorem WellFormed.relinked (formed : index.WellFormed) {ep : NodeId}
    (entered : index.entryPoint = some ep) (apart : ep ≠ id) {n : HnswNode V}
    {after : HnswIndex V F C}
    (relinks : Relinks { index with nodes := index.nodes.insert id n } after) (wired : after.Wired) :
    (n.maxLayer > index.globalMaxLayer →
      WellFormed { after with entryPoint := some id, globalMaxLayer := n.maxLayer }) ∧
    (n.maxLayer ≤ index.globalMaxLayer → after.WellFormed) := by
  -- Linking kept the layers of every node.
  have levels : ∀ other, (after.nodes.lookup other).map (·.maxLayer) =
      if other = id then some n.maxLayer else (index.nodes.lookup other).map (·.maxLayer) := by
    intro other
    rw [relinks.levels]
    dsimp only
    split_ifs with same
    · subst same
      rw [AList.lookup_insert]
      rfl
    · rw [AList.lookup_insert_ne same]
  have level : ∀ other record, after.nodes.lookup other = some record →
      record.maxLayer = n.maxLayer ∨ record.maxLayer ≤ index.globalMaxLayer := by
    intro other record found
    have own := levels other
    rw [found] at own
    split_ifs at own
    · exact Or.inl (Option.some.inj own)
    · obtain ⟨before, was, same⟩ := Option.map_eq_some_iff.mp own.symm
      exact Or.inr (Nat.le_trans (Nat.le_of_eq same.symm) (formed.top other before was))
  obtain ⟨nodes, kept⟩ := relinks.rest
  have entryKept : after.entryPoint = some ep := by rw [kept]; exact entered
  have topKept : after.globalMaxLayer = index.globalMaxLayer := by rw [kept]
  constructor
  · intro higher
    refine ⟨⟨wired.shaped, wired.bounded, wired.linked, wired.once⟩, nofun, fun first same => ?_,
      fun other record found => ?_⟩
    · cases same
      have own := levels id
      rw [if_pos rfl] at own
      exact Option.map_eq_some_iff.mp own
    · have bound := level other record found
      dsimp only
      omega
  · intro lower
    refine ⟨wired, fun none_ => ?_, fun first same => ?_, fun other record found => ?_⟩
    · rw [entryKept] at none_
      cases none_
    · rw [entryKept] at same
      cases same
      obtain ⟨record, found, highest⟩ := formed.entry ep entered
      have own := levels ep
      rw [if_neg apart, found] at own
      obtain ⟨now, found', same⟩ := Option.map_eq_some_iff.mp own
      exact ⟨now, found', by rw [topKept, ← highest]; exact same⟩
    · have bound := level other record found
      rw [topKept]
      omega

/-- Inserting a node that nothing refers to keeps the graph well formed. -/
theorem WellFormed.insert (formed : index.WellFormed) (free : index.Unreferenced id)
    (floats : Floats V F C) (file : VectorFile V) (level : Nat) (vector : V) :
    (index.insert floats file level id vector).1.WellFormed := by
  obtain ⟨formed, free⟩ := formed.storeVector free floats file vector
  unfold HnswIndex.insert
  dsimp only
  generalize index.storeVector floats file id vector = index at formed free ⊢
  have node : (index.freshNode floats vector level).maxLayer = level ∧
      (index.freshNode floats vector level).neighbors = List.replicate (level + 1) [] := ⟨rfl, rfl⟩
  generalize index.freshNode floats vector level = n at node ⊢
  obtain ⟨rfl, bare⟩ := node
  split
  · rename_i none_
    exact formed.first none_ free bare
  · rename_i ep entered
    have apart : ep ≠ id := fun same => free.1 (by rw [entered, same])
    have below : ∀ layer ∈ (List.range (min n.maxLayer index.globalMaxLayer + 1)).reverse,
        layer ≤ min n.maxLayer index.globalMaxLayer := by
      intro layer member
      have bound := List.mem_range.mp (List.mem_reverse.mp member)
      omega
    -- The descent leads to where linking starts, and linking ends with lists as they have to be.
    obtain ⟨other, low⟩ := formed.descent free entered floats (index.probe floats vector) n.maxLayer
      (index.dist floats ep (index.probe floats vector))
    generalize (List.range' (n.maxLayer + 1) (index.globalMaxLayer - n.maxLayer)).reverse.foldl
      (index.descend floats (index.probe floats vector))
      (index.dist floats ep (index.probe floats vector), ep) = nearest at other low ⊢
    have weaves := formed.wired.weaves free.2 bare other low (Nat.min_le_left _ _) below
    have wired := weaves.linkLayers (pairwise_range_reverse _) floats (index.probe floats vector)
    have relinks := relinks_linkLayers floats id (index.probe floats vector)
      (List.range (min n.maxLayer index.globalMaxLayer + 1)).reverse
      ⟨{ index with nodes := index.nodes.insert id n }, nearest, []⟩
    obtain ⟨above, within⟩ := formed.relinked entered apart relinks wired
    split_ifs with higher
    · exact above higher
    · exact within (Nat.le_of_not_gt higher)

/-- The insertion of a vector under an identifier, at a drawn level. -/
structure Insertion (V : Type) where
  /-- The node. -/
  id : NodeId
  /-- Its vector. -/
  vector : V
  /-- The level that is drawn. -/
  level : Nat
  /-- What becomes of the file of mapped vectors. -/
  file : VectorFile V

/-- The index after an insertion. -/
def inserted (floats : Floats V F C) (index : HnswIndex V F C) (insertion : Insertion V) :
    HnswIndex V F C :=
  (index.insert floats insertion.file insertion.level insertion.id insertion.vector).1

/-- An index of no nodes is well formed. -/
theorem wellFormed_withParams (m mMax0 efConstruction : Nat) (int8 mmapPath : Bool) :
    (withParams m mMax0 efConstruction int8 mmapPath : HnswIndex V F C).WellFormed where
  wired := ⟨nofun, fun _ _ => Nat.zero_le _, nofun, fun _ _ => List.nodup_nil⟩
  empty _ := rfl
  entry := nofun
  top := nofun

/-- Insertions of nodes that nothing refers to keep the graph well formed. -/
theorem wellFormed_of_run {m mMax0 efConstruction : Nat} {int8 mmapPath : Bool}
    (run : Runs (fun index insertion => some (inserted floats index insertion))
      (fun index insertion => index.Unreferenced insertion.id)
      (withParams m mMax0 efConstruction int8 mmapPath) index) : index.WellFormed :=
  run.invariant
    (fun _ insertion _ formed free taken => by
      cases taken
      exact formed.insert free floats insertion.file insertion.level insertion.vector)
    (wellFormed_withParams m mMax0 efConstruction int8 mmapPath)

/-- Nothing refers to a node that a well-formed graph does not have. -/
theorem WellFormed.unreferenced (formed : index.WellFormed) (absent : index.nodes.lookup id = none) :
    index.Unreferenced id := by
  refine ⟨fun entered => ?_, fun a layer member => ?_⟩
  · obtain ⟨n, found, _⟩ := formed.entry id entered
    rw [absent] at found
    cases found
  · have reaches := (formed.wired.linked a layer id member).2
    rw [HnswIndex.reaches, absent] at reaches
    cases reaches

/-- The queue that gives back entries in the order of a relation. -/
def sortedQueue {δ α : Type} (before : δ × α → δ × α → Prop) [DecidableRel before] : Queue δ α where
  pop entries :=
    match entries.insertionSort before with
    | [] => none
    | top :: rest => some (top, rest)
  perm entries top rest popped := by
    split at popped
    · cases popped
    · rename_i first others sorted
      cases popped
      rw [← sorted]
      exact List.perm_insertionSort before entries
  empty entries popped := by
    split at popped
    · rename_i sorted
      exact List.perm_nil.mp (sorted ▸ (List.perm_insertionSort before entries).symm)
    · cases popped

/-- Vectors that are numbers, as far apart as these. -/
def numbers : Floats Nat Nat Nat where
  empty := 0
  norm v := v
  quantize v := v
  codeDistance a b := (a - b) + (b - a)
  cosine v _ query _ := (v - query) + (query - v)
  ranking := {
    lt := fun a b => decide (a < b)
    infinity := 1000
    near := sortedQueue fun a b => a.1 ≤ b.1
    far := sortedQueue fun a b => b.1 ≤ a.1
    sorted := List.insertionSort fun a b => a.1 ≤ b.1
    sorted_perm := List.perm_insertionSort _ }
  sortBy := List.insertionSort fun a b => a.1 ≤ b.1
  sortBy_perm := List.perm_insertionSort _

/-- The insertion of a number at layer zero, in memory. -/
def insertionOf (node : UInt8) (vector : Nat) : Insertion Nat where
  id := NodeId.ofByte node
  vector := vector
  level := 0
  file := ⟨false, fun slice _ _ => slice⟩

/-- An index of no numbers. -/
def noNumbers : HnswIndex Nat Nat Nat := withParams 16 32 200 false false

/-- An index of two numbers. -/
def twoNumbers : HnswIndex Nat Nat Nat :=
  inserted numbers (inserted numbers noNumbers (insertionOf 1 10)) (insertionOf 2 20)

/-- Two nodes that are inserted one after the other are well linked. -/
theorem wellFormed_of_run_two : twoNumbers.WellFormed := by
  have first : noNumbers.Unreferenced (NodeId.ofByte 1) :=
    (wellFormed_withParams 16 32 200 false false).unreferenced rfl
  have formed := (wellFormed_withParams 16 32 200 false false).insert first numbers
    (insertionOf 1 10).file 0 10
  have second : (inserted numbers noNumbers (insertionOf 1 10)).Unreferenced (NodeId.ofByte 2) :=
    formed.unreferenced (by
      have absent : ((inserted numbers noNumbers (insertionOf 1 10)).nodes.lookup
          (NodeId.ofByte 2)).isNone = true := by decide +kernel
      exact Option.isNone_iff_eq_none.mp absent)
  exact wellFormed_of_run (.step (insertionOf 2 20) (.step (insertionOf 1 10) (.done noNumbers) first rfl)
    second rfl)

/-- A node that is inserted again is listed by itself, twice. -/
theorem reinsertion_lists_itself : ¬ ∀ index : HnswIndex Nat Nat Nat,
    Runs (fun index insertion => some (inserted numbers index insertion)) (fun _ _ => True)
      noNumbers index → index.WellFormed := by
  intro always
  have formed := always _ (.step (insertionOf 1 20) (.step (insertionOf 1 10) (.done noNumbers)
    trivial rfl) trivial rfl)
  have once := formed.wired.once (NodeId.ofByte 1) 0
  have twice : (inserted numbers (inserted numbers noNumbers (insertionOf 1 10))
      (insertionOf 1 20)).neighborsAt (NodeId.ofByte 1) 0 =
        [NodeId.ofByte 1, NodeId.ofByte 1] := by decide +kernel
  rw [twice] at once
  exact absurd once (by simp)

end HnswIndex

end Polargraph
