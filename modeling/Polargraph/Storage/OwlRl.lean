import Polargraph.Core.Id
import Polargraph.Lib.Latest
import Polargraph.Lib.Seen

/-! OWL RL inference: the labels of facts, and the closure of labelled edges. -/

namespace Polargraph

/-- Which inferred graph a fact belongs to. -/
inductive Label where
  /-- That of a source graph. -/
  | graph (g : GraphId)
  /-- The cross graph. -/
  | cross
deriving DecidableEq

/-- An edge with its label. -/
abbrev LabelledEdge := NodeId × NodeId × Label

/-- Where the edges from a node lead. -/
def successors (edges : List (NodeId × NodeId)) (node : NodeId) : List NodeId :=
  (Latest.lookup node (Latest.pushAll edges)).getD []

/-- The transitive closure of edges, from each node in turn. -/
def closure (edges : List (NodeId × NodeId)) : List (NodeId × NodeId) :=
  let starts := (Latest.pushAll edges).map Prod.fst
  starts.flatMap fun start =>
    let queue := successors edges start
    (Seen.drain (successors edges) (queue.length + Seen.ahead (successors edges) starts []) []
      queue).map (Prod.mk start)

/-- Per-label closures keep their label; pairs only reachable across labels get the cross label. -/
def labelledClosure (edges : List LabelledEdge) : List LabelledEdge :=
  let byLabel := Latest.pushAll (edges.map fun (a, b, l) => (l, a, b))
  let out := byLabel.flatMap fun (label, es) => (closure es).map fun (a, b) => (a, b, label)
  let covered := out.map fun (a, b, _) => (a, b)
  let all := edges.map fun (a, b, _) => (a, b)
  out ++ ((closure all).filter (!covered.contains ·)).map fun (a, b) => (a, b, .cross)

end Polargraph
