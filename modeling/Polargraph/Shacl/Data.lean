import Polargraph.Lib.Seen
import Polargraph.Rest.BlankNodes

/-! The data a validation reads: the triples of a dataset, with changes that are not committed. -/

namespace Polargraph

namespace Shacl

/-- The namespace of shape terms. -/
def SH : String := "http://www.w3.org/ns/shacl#"

/-- A class of a node. -/
def RDF_TYPE : String := "http://www.w3.org/1999/02/22-rdf-syntax-ns#type"

/-- The first member of a list. -/
def RDF_FIRST : String := "http://www.w3.org/1999/02/22-rdf-syntax-ns#first"

/-- The rest of a list. -/
def RDF_REST : String := "http://www.w3.org/1999/02/22-rdf-syntax-ns#rest"

/-- The empty list. -/
def RDF_NIL : String := "http://www.w3.org/1999/02/22-rdf-syntax-ns#nil"

/-- The datatype of language-tagged strings. -/
def RDF_LANG_STRING : String := "http://www.w3.org/1999/02/22-rdf-syntax-ns#langString"

/-- A class above a class. -/
def RDFS_SUBCLASS_OF : String := "http://www.w3.org/2000/01/rdf-schema#subClassOf"

/-- The class of classes. -/
def RDFS_CLASS : String := "http://www.w3.org/2000/01/rdf-schema#Class"

/-- The IRI of a shape term. -/
def sh (term : String) : String := SH ++ term

/-- An RDF object: a node or a literal value. -/
inductive Obj where
  /-- A node. -/
  | node (id : NodeId)
  /-- A literal. -/
  | lit (value : Value)
deriving DecidableEq

/-- A subject, a predicate and an object. -/
abbrev Spo := NodeId × String × Obj

namespace Obj

/-- The object slot it occupies in the quad index. -/
def key (ext : External) : Obj → NodeId
  | node id => id
  | lit value => valueObject ext value

/-- The node, unless it is a literal. -/
def asNode : Obj → Option NodeId
  | node id => some id
  | lit _ => none

/-- The subject, the predicate and the object of a triple that is not on an edge. -/
def ofTriple : Triple → Option Spo
  | .relation subject predicate object _ _ => some (subject, predicate, node object)
  | .property subject predicate value _ => some (subject, predicate, lit value)
  | _ => none

end Obj

/-- Uncommitted changes to validate as if applied. -/
structure Overlay where
  /-- The triples that are added, whatever their graph. -/
  adds : List Triple
  /-- The quads that are retracted. -/
  retractions : List (GraphId × Spo)

/-- Read access to the graphs of a dataset at a snapshot, plus an overlay. -/
structure DataView where
  /-- The triples of the graphs at the snapshot, each with its graph. -/
  stored : List (GraphId × Triple)
  /-- The IRIs of the dictionary. -/
  iriOf : NodeId → Option String
  /-- What the overlay adds. -/
  adds : List Spo
  /-- What the overlay retracts. -/
  retracted : List (GraphId × NodeId × String × NodeId)

section External

variable (ext : External)

namespace DataView

/-- The view of some triples under an overlay. -/
def new (stored : List (GraphId × Triple)) (iriOf : NodeId → Option String) (overlay : Overlay) :
    DataView where
  stored := stored
  iriOf := iriOf
  adds := overlay.adds.filterMap Obj.ofTriple
  retracted := overlay.retractions.map fun (g, s, p, o) => (g, s, p, o.key ext)

/-- Every node the overlay mentions. -/
def touched (view : DataView) : List NodeId :=
  (view.adds.flatMap fun (s, _, o) => s :: o.asNode.toList) ++
    view.retracted.flatMap fun (_, s, _, o) => [s, o]

/-- What a triple is told from others by. -/
def spoKey : Spo → NodeId × String × NodeId
  | (s, p, o) => (s, p, o.key ext)

/-- Whether a triple has the subject, the predicate and the object that are asked for. -/
def asked (s : Option NodeId) (p : Option String) (o : Option NodeId) : Spo → Bool
  | (s', p', o') => s.all (fun s => decide (s = s')) && p.all (fun p => decide (p = p')) &&
      o.all (fun o => decide (o = o'.key ext))

/-- The stored triples that are not retracted, followed by those that are added. -/
def triples (view : DataView) : List Spo :=
  (view.stored.filterMap fun (g, triple) =>
    (Obj.ofTriple triple).filter fun spo => decide ((g, spoKey ext spo) ∉ view.retracted)) ++ view.adds

/-- Matching triples: stored ones less retractions plus those added, de-duplicated. -/
def matching (view : DataView) (s : Option NodeId) (p : Option String) (o : Option Obj) : List Spo :=
  Seen.distinctBy (spoKey ext) []
    ((view.triples ext).filter (asked ext s p (o.map (Obj.key ext))))

/-- Values of a predicate on a subject. -/
def objects (view : DataView) (s : NodeId) (p : String) : List Obj :=
  (view.matching ext (some s) (some p) none).map fun spo => spo.2.2

/-- Subjects with a value of a predicate. -/
def subjects (view : DataView) (p : String) (o : Obj) : List NodeId :=
  (view.matching ext none (some p) (some o)).map Prod.fst

/-- Every subject of a predicate. -/
def subjectsOf (view : DataView) (p : String) : List NodeId :=
  Seen.distinctBy id [] ((view.matching ext none (some p) none).map Prod.fst)

/-- Every object of a predicate. -/
def objectsOf (view : DataView) (p : String) : List Obj :=
  (view.matching ext none (some p) none).map fun spo => spo.2.2

/-- Predicates used on a subject. -/
def predicatesOf (view : DataView) (s : NodeId) : List String :=
  Seen.distinctBy id [] ((view.matching ext (some s) none none).map fun spo => spo.2.1)

/-- A bound on the steps of a walk along the triples of a view. -/
def bound (view : DataView) (starts : Nat) : Nat :=
  starts + (view.triples ext).length * (view.triples ext).length + 1

/-- Classes above a class. -/
def superclasses (view : DataView) (c : NodeId) : List NodeId :=
  (view.objects ext c RDFS_SUBCLASS_OF).filterMap Obj.asNode

/-- Classes of a node, closed over the classes above them, unless the walk is cut off. -/
def types (view : DataView) (n : NodeId) : Option (List NodeId) :=
  let todo := (view.objects ext n RDF_TYPE).filterMap Obj.asNode
  Seen.close (view.superclasses ext) (view.bound ext todo.length) [] todo

/-- Classes below a class. -/
def subclasses (view : DataView) (c : NodeId) : List NodeId :=
  view.subjects ext RDFS_SUBCLASS_OF (.node c)

/-- Instances of a class or of any class below it, unless the walk is cut off. -/
def instances (view : DataView) (c : NodeId) : Option (List NodeId) :=
  (Seen.close (view.subclasses ext) (view.bound ext 1) [] [c]).map fun classes =>
    Seen.distinctBy id [] (classes.flatMap fun c => view.subjects ext RDF_TYPE (.node c))

/-- The IRI of a node. -/
def iri (view : DataView) (n : NodeId) : String :=
  (view.iriOf n).getD (fallbackIri n)

/-- Whether a node is a blank node. -/
def isBlank (view : DataView) (n : NodeId) : Bool :=
  (splitOnce GENID_SEGMENT (view.iri n)).isSome

/-- The values of each predicate of a subject. -/
def properties (view : DataView) (s : NodeId) : List (String × List Obj) :=
  Latest.gather ((view.matching ext (some s) none none).map fun spo => (spo.2.1, [spo.2.2]))

end DataView

end External

end Shacl

end Polargraph
