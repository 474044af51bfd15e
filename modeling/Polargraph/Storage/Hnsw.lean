import Mathlib.Data.List.AList
import Polargraph.Core.Id
import Polargraph.Lib.BeamSearch

/-! The vector index: a layered graph of nodes, and the insertion of a vector. -/

namespace Polargraph

/--
What the index does with vectors and floats.

Vectors have the type `V`, floats the type `F`, and the codes of a quantized vector the type `C`.
-/
structure Floats (V F C : Type) where
  /-- The vector of no dimension. -/
  empty : V
  /-- The norm of a vector. -/
  norm : V → F
  /-- The codes of a vector. -/
  quantize : V → C
  /-- The distance between two code vectors. -/
  codeDistance : C → C → F
  /-- The cosine distance between two vectors, each with its norm. -/
  cosine : V → F → V → F → F
  /-- How distances are compared, and nodes queued by them. -/
  ranking : Ranking F NodeId
  /-- Nodes sorted by distance. -/
  sortBy : List (F × NodeId) → List (F × NodeId)
  /-- Sorting keeps the nodes. -/
  sortBy_perm : ∀ scored, (sortBy scored).Perm scored

/-- The file that vectors are mapped from. -/
structure VectorFile (V : Type) where
  /-- Whether it can be created. -/
  creates : Bool
  /-- The vectors that can be read from it after one was appended. -/
  append : (NodeId → Option V) → NodeId → V → NodeId → Option V

/-- A node of the index. -/
structure HnswNode (V : Type) where
  /-- The vector, which is empty when vectors are mapped. -/
  vector : V
  /-- The highest layer of the node. -/
  maxLayer : Nat
  /-- The neighbours at each layer. -/
  neighbors : List (List NodeId)
  /-- The node was read from a record with its vector. -/
  inline : Bool

/-- A vector index. -/
structure HnswIndex (V F C : Type) where
  /-- The nodes. -/
  nodes : AList (fun _ : NodeId => HnswNode V)
  /-- The codes of the nodes of a quantized index. -/
  int8 : Option (NodeId → Option C)
  /-- The norms of vectors. -/
  norms : NodeId → Option F
  /-- Where a search starts. -/
  entryPoint : Option NodeId
  /-- The highest layer of the index. -/
  globalMaxLayer : Nat
  /-- The most neighbours above layer zero. -/
  m : Nat
  /-- The most neighbours at layer zero. -/
  mMax0 : Nat
  /-- How many candidates an insertion considers. -/
  efConstruction : Nat
  /-- Whether vectors are mapped from a file. -/
  mmapPath : Bool
  /-- The vectors that can be read from the file, once it is open. -/
  mmapState : Option (NodeId → Option V)

/-- How similar nodes are, and how they are ranked by it. -/
structure Similarities (F : Type) where
  /-- One less a distance. -/
  ofDistance : F → F
  /-- Nodes from the most similar to the least. -/
  sorted : List (NodeId × F) → List (NodeId × F)
  /-- They are the nodes that were given. -/
  sorted_perm : ∀ scored, (sorted scored).Perm scored

/-- A query as the index compares it. -/
inductive Probe (V F C : Type) where
  /-- The vector with its norm. -/
  | exact (query : V) (norm : F)
  /-- Its codes. -/
  | int8 (codes : C)

namespace HnswIndex

variable {V F C : Type}

/-- An index of no nodes. -/
def withParams (m mMax0 efConstruction : Nat) (int8 mmapPath : Bool) : HnswIndex V F C where
  nodes := ∅
  int8 := if int8 then some (fun _ => none) else none
  norms := fun _ => none
  entryPoint := none
  globalMaxLayer := 0
  m := m
  mMax0 := mMax0
  efConstruction := efConstruction
  mmapPath := mmapPath
  mmapState := none

/-- The neighbours of a node at a layer. -/
def neighborsAt (index : HnswIndex V F C) (id : NodeId) (layer : Nat) : List NodeId :=
  match index.nodes.lookup id with
  | some n => if layer ≤ n.maxLayer then n.neighbors[layer]?.getD [] else []
  | none => []

/-- Give a node its neighbours at a layer. -/
def setNeighbors (index : HnswIndex V F C) (id : NodeId) (layer : Nat) (list : List NodeId) :
    HnswIndex V F C :=
  match index.nodes.lookup id with
  | some n =>
    { index with nodes := index.nodes.insert id { n with neighbors := n.neighbors.set layer list } }
  | none => index

/-- The most neighbours at a layer. -/
def mMax (index : HnswIndex V F C) (layer : Nat) : Nat := if layer = 0 then index.mMax0 else index.m

section Floats

variable (floats : Floats V F C)

/-- The vector of a node, in memory or mapped. -/
def sliceOf (index : HnswIndex V F C) (id : NodeId) : Option V :=
  match index.mmapState with
  | some slice => slice id
  | none => (index.nodes.lookup id).map (·.vector)

/-- The norm of the vector of a node. -/
def normOf (index : HnswIndex V F C) (id : NodeId) : Option F :=
  match index.norms id with
  | some n => some n
  | none => (index.sliceOf id).map floats.norm

/-- The cosine distance from a node to a vector. -/
def cosineWith (index : HnswIndex V F C) (id : NodeId) (query : V) (norm : F) : F :=
  match index.sliceOf id, index.normOf floats id with
  | some v, some vn => floats.cosine v vn query norm
  | _, _ => floats.ranking.infinity

/-- The codes of a node. -/
def codesOf (index : HnswIndex V F C) (id : NodeId) : Option C :=
  index.int8.bind (fun codes => codes id)

/-- How the index compares a query. -/
def probe (index : HnswIndex V F C) (query : V) : Probe V F C :=
  if index.int8.isSome then .int8 (floats.quantize query) else .exact query (floats.norm query)

/-- The distance from a node to a query. -/
def dist (index : HnswIndex V F C) (id : NodeId) : Probe V F C → F
  | .exact query norm => index.cosineWith floats id query norm
  | .int8 codes =>
    match index.codesOf id with
    | some own => floats.codeDistance own codes
    | none => floats.ranking.infinity

/-- The distance between two nodes. -/
def distNodes (index : HnswIndex V F C) (a b : NodeId) : F :=
  if index.int8.isSome then
    match index.codesOf a, index.codesOf b with
    | some x, some y => floats.codeDistance x y
    | _, _ => floats.ranking.infinity
  else
    match index.sliceOf a, index.normOf floats a with
    | some v, some n => index.cosineWith floats b v n
    | _, _ => floats.ranking.infinity

/-- All neighbours listed at a layer, which bound how long a search takes. -/
def listed (index : HnswIndex V F C) (layer : Nat) : List NodeId :=
  index.nodes.entries.flatMap (fun entry => index.neighborsAt entry.1 layer)

/-- The greedy beam search at one layer. -/
def searchLayer (index : HnswIndex V F C) (query : Probe V F C) (entry : NodeId) (ef layer : Nat) :
    List (F × NodeId) :=
  let dist := fun id => index.dist floats id query
  (floats.ranking.expand (fun c => index.neighborsAt c layer) ef dist
    ((index.listed layer).length + 2) (Ranking.start dist entry)).getD []

/-- Up to `m` of the candidates, each closer to the base than to those kept before it. -/
def selectNeighborsHeuristic (index : HnswIndex V F C) (candidates : List (F × NodeId)) (m : Nat) :
    List NodeId :=
  if candidates.length ≤ m then candidates.map Prod.snd
  else candidates.foldl (fun kept (d, c) =>
    if kept.length ≥ m then kept
    else if kept.all (fun k => floats.ranking.lt d (index.distNodes floats k c)) then kept ++ [c]
    else kept) []

/-- The nearest of the nodes found, if it is nearer than the best so far. -/
def nearer (best : F × NodeId) (found : List (F × NodeId)) : F × NodeId :=
  match found with
  | (d, nearest) :: _ => if floats.ranking.lt d best.1 then (d, nearest) else best
  | [] => best

/-- Keep the vector of a node to be inserted where its distances are computed from. -/
def storeVector (index : HnswIndex V F C) (file : VectorFile V) (id : NodeId) (vector : V) :
    HnswIndex V F C :=
  let index :=
    if index.mmapPath then
      match index.mmapState with
      | some slice => { index with mmapState := some (file.append slice id vector) }
      | none =>
        if file.creates then { index with mmapState := some (file.append (fun _ => none) id vector) }
        else { index with mmapPath := false }
    else index
  { index with
    int8 := index.int8.map (fun codes => Function.update codes id (some (floats.quantize vector)))
    norms := Function.update index.norms id (some (floats.norm vector)) }

/-- A node without neighbours. -/
def freshNode (index : HnswIndex V F C) (vector : V) (level : Nat) : HnswNode V where
  vector := if index.mmapPath then floats.empty else vector
  maxLayer := level
  neighbors := List.replicate (level + 1) []
  inline := false

/-- Add a node to the neighbours of one of its own, pruning those that are too many. -/
def linkBack (index : HnswIndex V F C) (id : NodeId) (lc : Nat) (neighborId : NodeId) :
    HnswIndex V F C :=
  let list := index.neighborsAt neighborId lc ++ [id]
  let index := index.setNeighbors neighborId lc list
  if list.length > index.mMax lc then
    let scored := floats.sortBy (list.map (fun c => (index.distNodes floats neighborId c, c)))
    index.setNeighbors neighborId lc
      (index.selectNeighborsHeuristic floats scored (index.mMax lc))
  else index

/-- Whether a node has neighbours at a layer. -/
def reaches (index : HnswIndex V F C) (id : NodeId) (layer : Nat) : Bool :=
  match index.nodes.lookup id with
  | some n => decide (layer ≤ n.maxLayer)
  | none => false

/-- An insertion under way. -/
structure Linking (V F C : Type) where
  /-- The index so far. -/
  index : HnswIndex V F C
  /-- Where the next layer is searched from, and its distance. -/
  nearest : F × NodeId
  /-- Nodes whose neighbours changed. -/
  modified : List NodeId

/-- Link a node with one of the neighbours chosen for it. -/
def linkNeighbor (id : NodeId) (lc : Nat) (state : HnswIndex V F C × List NodeId)
    (neighborId : NodeId) : HnswIndex V F C × List NodeId :=
  let (index, modified) := state
  if index.reaches neighborId lc then
    (index.linkBack floats id lc neighborId,
      if neighborId ∈ modified then modified else modified ++ [neighborId])
  else state

/-- The neighbours chosen for a node at a layer, and where the next layer is searched from. -/
def chooseNeighbors (state : Linking V F C) (query : Probe V F C) (lc : Nat) :
    List NodeId × (F × NodeId) :=
  let found := floats.ranking.sorted
    (state.index.searchLayer floats query state.nearest.2 state.index.efConstruction lc)
  (state.index.selectNeighborsHeuristic floats found (state.index.mMax lc),
    nearer floats state.nearest found)

/-- Link a node at one layer. -/
def linkLayer (id : NodeId) (query : Probe V F C) (state : Linking V F C) (lc : Nat) :
    Linking V F C :=
  let (chosen, nearest) := chooseNeighbors floats state query lc
  let index := state.index.setNeighbors id lc chosen
  let (index, modified) := chosen.foldl (linkNeighbor floats id lc) (index, state.modified ++ [id])
  ⟨index, nearest, modified⟩

/-- Descend one layer without linking. -/
def descend (index : HnswIndex V F C) (query : Probe V F C) (nearest : F × NodeId) (lc : Nat) :
    F × NodeId :=
  nearer floats nearest (floats.ranking.sorted (index.searchLayer floats query nearest.2 1 lc))

/--
Insert a node at a drawn level.

The result lists the nodes whose neighbours changed.
-/
def insert (index : HnswIndex V F C) (file : VectorFile V) (level : Nat) (id : NodeId) (vector : V) :
    HnswIndex V F C × List NodeId :=
  let index := index.storeVector floats file id vector
  let query := index.probe floats vector
  let node := index.freshNode floats vector level
  match index.entryPoint with
  | none =>
    ({ index with
      nodes := index.nodes.insert id node
      entryPoint := some id
      globalMaxLayer := level }, [id])
  | some ep =>
    -- Greedy descent from the top layer to the one above the level.
    let nearest := (List.range' (level + 1) (index.globalMaxLayer - level)).reverse.foldl
      (index.descend floats query) (index.dist floats ep query, ep)
    -- Connections from the level down to layer zero.
    let started : Linking V F C := ⟨{ index with nodes := index.nodes.insert id node }, nearest, []⟩
    let linked := (List.range (min level index.globalMaxLayer + 1)).reverse.foldl
      (linkLayer floats id query) started
    if level > index.globalMaxLayer then
      ({ linked.index with entryPoint := some id, globalMaxLayer := level }, linked.modified)
    else (linked.index, linked.modified)

/-- Where a search of layer zero starts: the end of a descent through the layers above. -/
def descent (index : HnswIndex V F C) (query : Probe V F C) (ep : NodeId) : NodeId :=
  ((List.range' 1 index.globalMaxLayer).reverse.foldl (index.descend floats query)
    (index.dist floats ep query, ep)).2

/-- At most `k` nodes whose vectors are similar to one, with how similar they are. -/
def search (index : HnswIndex V F C) (similarities : Similarities F) (query : V) (k ef : Nat) :
    List (NodeId × F) :=
  match index.entryPoint with
  | none => []
  | some ep =>
    let ef := if ef = 0 then max (index.efConstruction / 2) k else ef
    let probe := index.probe floats query
    let found := index.searchLayer floats probe (index.descent floats probe ep) (max ef k) 0
    if index.int8.isSome then
      -- Codes only choose the candidates, which are ranked by their vectors.
      (similarities.sorted (found.map fun c =>
        (c.2, similarities.ofDistance
          (index.cosineWith floats c.2 query (floats.norm query))))).take k
    else ((floats.ranking.sorted found).take k).map fun c => (c.2, similarities.ofDistance c.1)

end Floats

end HnswIndex

end Polargraph
