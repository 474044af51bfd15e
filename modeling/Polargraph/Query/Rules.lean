import Polargraph.Lib.LeastClosed
import Polargraph.Query.Datalog

/-! Rules from a seed, what they say, and the nodes that paths lead to by them. -/

namespace Polargraph

/-- A derived fact: a predicate with its subject and object. -/
abbrev Fact := String × NodeId × NodeId

namespace DerivedFacts

/-- The facts of a seed, each once. -/
def ofSeed (seed : List Fact) : DerivedFacts :=
  seed.foldl (fun derived (pred, s, o) =>
    Latest.entryUpdate pred [] (fun held => insertNew held (s, o)) derived) []

/-- The facts that are held. -/
def facts (derived : DerivedFacts) : Set Fact :=
  {fact | ∃ pairs, derived.lookup fact.1 = some pairs ∧ fact.2 ∈ pairs}

end DerivedFacts

/-- The predicates that are derived: those of the seed and those of the heads of the rules. -/
def derivedPredicates (seed : List Fact) (rules : List Rule) : Set String :=
  {name | (∃ fact ∈ seed, fact.1 = name) ∨ ∃ rule ∈ rules, rule.headPredicate = name}

/-- A node is reached from another in at least one step and at most some steps. -/
def Reaches (facts : Set Fact) (predicate : String) : Nat → NodeId → NodeId → Prop
  | 0, _, _ => False
  | hops + 1, start, target => (predicate, start, target) ∈ facts ∨
      ∃ middle, (predicate, start, middle) ∈ facts ∧ Reaches facts predicate hops middle target

/-- A read succeeds and finds an item. -/
def Finds {α : Type} (read : Except StorageError (List α)) (item : α) : Prop :=
  ∃ items, read = .ok items ∧ item ∈ items

/-- Patterns extend a solution one after the other, each as a relation says. -/
def Solves (extends_ : VarPattern → Solution → Solution → Prop) :
    List VarPattern → Solution → Solution → Prop
  | [], sol, last => last = sol
  | vp :: rest, sol, last => ∃ next, extends_ vp sol next ∧ Solves extends_ rest next last

/-- A variable may be bound to a derived predicate by a pattern that names one. -/
def MayName (derived : Set String) (body : List VarPattern) (var : String) : Prop :=
  ∃ vp ∈ body, vp.predicateVar = some var ∧ ∃ name ∈ derived, vp.predicate = some name

section External

variable (ext : External)

namespace Snapshot

/-- A stored triple is of one of some predicates, by whatever name. -/
def IsOf (snapshot : Snapshot) (predicates : Set String) (triple : Triple) : Prop :=
  ∃ name ∈ predicates,
    snapshot.store.predicateId name = snapshot.store.predicateId triple.predicate

/-- A triple stands for a pattern: a fact of a derived predicate, or a stored triple of another. -/
def Stands (snapshot : Snapshot) (derived : Set String) (facts : Set Fact) (pattern : Pattern)
    (triple : Triple) : Prop :=
  (∃ name s o edge window, name ∈ derived ∧ pattern.predicate = some name ∧ (name, s, o) ∈ facts ∧
    (∀ node, pattern.subject = some node → node = s) ∧
    (∀ node, pattern.object = some node → node = o) ∧ triple = .relation s name o edge window) ∨
  (Finds (snapshot.evaluate ext pattern) triple ∧ ¬ snapshot.IsOf derived triple)

/-- A path over derived facts extends a solution. -/
def ExtendsAlong (facts : Set Fact) (predicate : String) (hops : Nat) (vp : VarPattern)
    (sol next : Solution) : Prop :=
  ∃ start target base, (∀ node, resolveTerm ext sol vp.subject = some node → node = start) ∧
    Reaches facts predicate hops start target ∧ sol.bindNode vp.subject start = some base ∧
    bindTarget vp.object base target = some next

/-- A pattern extends a solution when a derived predicate holds of derived facts only. -/
def Extends (snapshot : Snapshot) (derived : Set String) (facts : Set Fact) (vp : VarPattern)
    (sol next : Solution) : Prop :=
  match vp.maxHops with
  | some hops => ∃ name, vp.predicate = some name ∧
    ((name ∈ derived ∧ ExtendsAlong ext facts name hops vp sol next) ∨
      ((∀ other ∈ derived,
          snapshot.store.predicateId other ≠ snapshot.store.predicateId name) ∧
        Finds (snapshot.matchPath ext vp hops sol) next))
  | none => match snapshot.graphScope ext sol vp.graph with
    | none => ∃ triple, snapshot.Stands ext derived facts (substitute ext vp sol) triple ∧
        extendFull triple vp true sol = some next
    -- A derived fact is in no graph.
    | some scope => ∃ quad, Finds (snapshot.scanScoped ext (substitute ext vp sol) scope) quad ∧
        ¬ snapshot.IsOf derived quad.2 ∧ snapshot.extendQuad ext vp true sol quad = some next

/-- The facts that a rule derives from some facts. -/
def derives (snapshot : Snapshot) (derived : Set String) (rule : Rule) (facts : Set Fact) :
    Set Fact :=
  {fact | fact.1 = rule.headPredicate ∧ ∃ sol,
    Solves (snapshot.Extends ext derived facts) rule.body Solution.empty sol ∧
    derivedPair rule sol = some fact.2}

/-- The least facts that contain a seed and are closed under rules. -/
def leastFacts (snapshot : Snapshot) (seed : List Fact) (rules : List Rule) : Set Fact :=
  LeastClosed.least (snapshot.derives ext (derivedPredicates seed rules)) {fact | fact ∈ seed} rules

/-- In every order the rules are run to their least facts, whatever the edges of derived facts. -/
def RunsToLeast (snapshot : Snapshot) (seed : List Fact) (rules : List Rule) : Prop :=
  ∀ (edges : NodeId × NodeId → EdgeId) (order : List Rule), order.Perm rules →
    ∃ rounds derived, (∀ more, rounds ≤ more →
      snapshot.executeRecursive ext edges order more (DerivedFacts.ofSeed seed) =
        some (.ok derived)) ∧
      derived.facts = snapshot.leastFacts ext seed rules

/-- The store has no triple of a predicate that the snapshot can read. -/
def Unstored (snapshot : Snapshot) (predicate : String) : Prop :=
  snapshot.evaluate ext ⟨none, some predicate, none⟩ = .ok []

/-- Patterns that name a derived predicate ask for its facts only, and no other reads them. -/
structure Separate (snapshot : Snapshot) (derived : Set String) (body : List VarPattern)
    (vp : VarPattern) : Prop where
  /-- A pattern over a derived predicate follows no paths, binds no edge, and asks for no graph. -/
  plain : ∀ name ∈ derived, vp.predicate = some name → vp.maxHops = none ∧ vp.edgeVar = none ∧
    (vp.graph = .union ∨ snapshot.Unstored ext name)
  /-- A pattern over another predicate does not read a derived one by another name. -/
  other : ∀ name ∉ derived, vp.predicate = some name → ∀ held ∈ derived,
    snapshot.store.predicateId held = snapshot.store.predicateId name → snapshot.Unstored ext held
  /-- A pattern over all predicates reads no derived one from the store. -/
  all : vp.predicate = none → ∀ held ∈ derived, snapshot.Unstored ext held
  /-- It binds no edge when its variable may stand for a derived predicate. -/
  free : ∀ var, vp.predicate = none → vp.predicateVar = some var → MayName derived body var →
    vp.edgeVar = none

end Snapshot

end External

/-- The node that a relation leads to. -/
def relatedNode : Triple → Option NodeId
  | .relation _ _ object _ _ => some object
  | _ => none

/-- The rule that extends a path by one more edge. -/
def reachableRule (predicate : String) : Rule where
  headPredicate := "reachable"
  headSubjectVar := "x"
  headObjectVar := "z"
  body := [⟨.var "x", some "reachable", none, .var "y", none, none, .union⟩,
    ⟨.var "y", some predicate, none, .var "z", none, none, .union⟩]

section External

variable (ext : External)

namespace Snapshot

/-- The nodes that paths of one or more edges lead to, in some rounds at most. -/
def reachableFrom (snapshot : Snapshot) (edges : NodeId × NodeId → EdgeId) (start : NodeId)
    (predicate : String) (rounds : Nat) : Option (Except StorageError (List NodeId)) :=
  match snapshot.evaluate ext ⟨some start, some predicate, none⟩ with
  | .error problem => some (.error problem)
  | .ok direct =>
    let seed : List Fact := direct.filterMap fun triple =>
      (relatedNode triple).map fun object => ("reachable", triple.subject, object)
    if seed.isEmpty then some (.ok [])
    else (snapshot.executeRecursive ext edges [reachableRule predicate] rounds
        (DerivedFacts.ofSeed seed)).map fun done => do
      let derived ← done
      let pairs := (derived.lookup "reachable").getD []
      return (pairs.filter fun pair => decide (pair.1 = start)).map Prod.snd

end Snapshot

end External

end Polargraph
