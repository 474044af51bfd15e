import Polargraph.Lib.BreadthFirst
import Polargraph.Proofs.Query.Rules

/-! When rules and a search by levels find the same reachable nodes. -/

namespace Polargraph

open BreadthFirst

variable {ext : External} {snapshot : Snapshot}

section External

variable (ext : External)

namespace Snapshot

/-- The nodes that the relations of a node lead to. -/
def relatedNodes (snapshot : Snapshot) (predicate : String) (node : NodeId) : List NodeId :=
  match snapshot.scanBySubjectPredicate ext node predicate with
  | .ok triples => triples.filterMap relatedNode
  | .error _ => []

/-- A node is reached from another by one or more relations of a predicate. -/
def ReachedFrom (snapshot : Snapshot) (predicate : String) (start node : NodeId) : Prop :=
  Reached (snapshot.relatedNodes ext predicate) start node

/-- The nodes that the relations a snapshot reads connect. -/
def connected (snapshot : Snapshot) : Set NodeId :=
  {node | ∃ triple object, Finds (snapshot.evaluate ext ⟨none, none, none⟩) triple ∧
    relatedNode triple = some object ∧ (node = triple.subject ∨ node = object)}

/-- Rules and searches of enough levels both find exactly the nodes that are reached. -/
structure ReachesAlike (snapshot : Snapshot) (start : NodeId) (predicate : String) : Prop where
  /-- The rules are run to the nodes that are reached. -/
  rules : ∀ edges, ∃ rounds nodes,
    (∀ more, rounds ≤ more → snapshot.reachableFrom ext edges start predicate more = some (.ok nodes)) ∧
    ∀ node, node ∈ nodes ↔ snapshot.ReachedFrom ext predicate start node
  /-- As many levels as there are nodes visit the nodes that are reached. -/
  levels : ∀ hops, (snapshot.connected ext).ncard ≤ hops → ∃ nodes,
    snapshot.reachableFromHops ext start predicate hops = .ok nodes ∧
    ∀ node, node ∈ nodes ↔ snapshot.ReachedFrom ext predicate start node

end Snapshot

end External

namespace Snapshot

/-- In an intact store the nodes related to a node are those of the triples read. -/
theorem exists_related (intact : snapshot.store.Intact ext) (predicate : String) (node : NodeId) :
    ∃ triples, snapshot.scanBySubjectPredicate ext node predicate = .ok triples ∧
      snapshot.relatedNodes ext predicate node = triples.filterMap relatedNode := by
  obtain ⟨triples, read⟩ := exists_evaluate intact ⟨some node, some predicate, none⟩
  have read : snapshot.scanBySubjectPredicate ext node predicate = .ok triples := read
  exact ⟨triples, read, by rw [relatedNodes, read]⟩

/-- Visiting a node is visiting the nodes related to it. -/
theorem visitNode_eq (intact : snapshot.store.Intact ext) (predicate : String)
    (state : List NodeId × List NodeId) (node : NodeId) :
    snapshot.visitNode ext predicate state node =
      .ok (visit (snapshot.relatedNodes ext predicate) state node) := by
  obtain ⟨triples, read, related⟩ := @exists_related ext snapshot intact predicate node
  refine Except.bind_eq_ok.mpr ⟨triples, read, ?_⟩
  rw [visit, related]
  clear read related
  refine congrArg Except.ok ?_
  induction triples generalizing state with
  | nil => rfl
  | cons triple rest ih =>
    rw [List.foldl_cons, ih]
    cases triple <;> rfl

/-- The levels of paths are those of a search over related nodes. -/
theorem visitHops_eq (intact : snapshot.store.Intact ext) (predicate : String) (hops : Nat)
    (visited frontier : List NodeId) : snapshot.visitHops ext predicate hops visited frontier =
      .ok (search (snapshot.relatedNodes ext predicate) hops visited frontier) := by
  have level : ∀ (frontier : List NodeId) state,
      frontier.foldlM (snapshot.visitNode ext predicate) state =
        .ok (frontier.foldl (visit (snapshot.relatedNodes ext predicate)) state) := by
    intro frontier
    induction frontier with
    | nil => exact fun _ => rfl
    | cons node rest ih =>
      intro state
      rw [List.foldlM_cons, visitNode_eq intact]
      exact ih _
  induction hops generalizing visited frontier with
  | zero => rfl
  | succ hops ih =>
    refine Except.bind_eq_ok.mpr ⟨_, level frontier (visited, []), ?_⟩
    rw [search]
    dsimp only
    split_ifs
    · rfl
    · exact ih _ _

/-- A triple that is read by its subject has it. -/
theorem subject_of_evaluate (intact : snapshot.store.Intact ext) {node : NodeId}
    {predicate o} {triple : Triple}
    (found : Finds (snapshot.evaluate ext ⟨some node, predicate, o⟩) triple) :
    triple.subject = node := by
  obtain ⟨triples, done, member⟩ := found
  obtain ⟨ids, answers, shows, tt, version, governs, _, _, rebuilt⟩ :=
    exists_of_evaluate intact done member
  have keyed := intact.sound.keyed
  have stored := (Index.history_eq_some.mp governs.seen.stored).1
  rw [← answers.wanted.subject node rfl]
  obtain ⟨_, ⟨edge, window, same⟩ | ⟨value, window, same, _⟩⟩ :=
    TripleStore.triple_of_reconstruct (keyed.values _ _ stored) keyed.blobs rebuilt
  · rw [same]
    rfl
  · rw [same]
    rfl

/-- A triple that is read by any pattern is read by the pattern that binds nothing. -/
theorem finds_all (intact : snapshot.store.Intact ext) {pattern : Pattern} {triple : Triple}
    (found : Finds (snapshot.evaluate ext pattern) triple) :
    Finds (snapshot.evaluate ext ⟨none, none, none⟩) triple := by
  obtain ⟨triples, done, member⟩ := found
  obtain ⟨ids, answers, shows, read⟩ := exists_of_evaluate intact done member
  obtain ⟨quads, evaluated, result⟩ := snapshot.evaluate_spec intact ⟨none, none, none⟩
  have wanted : snapshot.Answers ⟨none, none, none⟩ ids :=
    ⟨⟨nofun, nofun, nofun, rfl, answers.wanted.readable⟩, answers.lowest⟩
  obtain ⟨quad, listed, rfl⟩ := List.mem_map.mp ((result.mem_iff ids).mpr ⟨wanted, shows⟩)
  rw [read.unique (result.read quad listed)]
  exact ⟨_, evaluated, List.mem_map.mpr ⟨quad, listed, rfl⟩⟩

/-- One node leads to another by a relation that is read by its subject and predicate. -/
theorem step_iff (intact : snapshot.store.Intact ext) {predicate : String} {node target : NodeId} :
    Step (snapshot.relatedNodes ext predicate) node target ↔
      ∃ triple, Finds (snapshot.evaluate ext ⟨some node, some predicate, none⟩) triple ∧
        relatedNode triple = some target := by
  obtain ⟨triples, read, related⟩ := @exists_related ext snapshot intact predicate node
  have read : snapshot.evaluate ext ⟨some node, some predicate, none⟩ = .ok triples := read
  rw [Step, related, List.mem_filterMap]
  constructor
  · rintro ⟨triple, member, leads⟩
    exact ⟨triple, ⟨triples, read, member⟩, leads⟩
  · rintro ⟨triple, ⟨items, same, member⟩, leads⟩
    cases read.symm.trans same
    exact ⟨triple, member, leads⟩

/-- A related node is connected. -/
theorem connected_of_step (intact : snapshot.store.Intact ext) {predicate : String}
    {node target : NodeId} (step : Step (snapshot.relatedNodes ext predicate) node target) :
    target ∈ snapshot.connected ext := by
  obtain ⟨triple, found, leads⟩ := (step_iff intact).mp step
  exact ⟨triple, target, finds_all intact found, leads, .inr rfl⟩

/-- As many levels as there are connected nodes visit the nodes that are reached. -/
theorem reachableFromHops_spec (intact : snapshot.store.Intact ext) (start : NodeId)
    (predicate : String) {hops : Nat} (enough : (snapshot.connected ext).ncard ≤ hops) :
    ∃ nodes, snapshot.reachableFromHops ext start predicate hops = .ok nodes ∧
      ∀ node, node ∈ nodes ↔ snapshot.ReachedFrom ext predicate start node := by
  have nodes := finite_nodeId
  have sub : {node | snapshot.ReachedFrom ext predicate start node} ⊆ snapshot.connected ext := by
    intro node reached
    obtain step | ⟨_, step⟩ := reached
    · exact connected_of_step intact step
    · exact connected_of_step intact step
  have fewer := Set.ncard_le_ncard sub (Set.toFinite _)
  exact ⟨_, visitHops_eq intact predicate hops [] [start],
    mem_search_start start (Set.toFinite _) (le_trans fewer enough)⟩

/-- A pattern of the rule: it binds its slots only, in every graph. -/
def edgePattern (subject : Term) (predicate : String) (object : Term) : VarPattern :=
  ⟨subject, some predicate, none, object, none, none, .union⟩

/-- What a pattern of the rule finds. -/
theorem finds_matchOne {scan : Pattern → Except StorageError (List Triple)} {subject object : Term}
    {predicate : String} {sol next : Solution} :
    Finds (snapshot.matchOne ext true scan (edgePattern subject predicate object) sol) next ↔
      ∃ triple, Finds (scan ⟨resolveTerm ext sol subject, some predicate, resolveTerm ext sol object⟩)
          triple ∧
        extendFull triple (edgePattern subject predicate object) true sol = some next := by
  have run : snapshot.matchOne ext true scan (edgePattern subject predicate object) sol = (do
      let triples ← scan ⟨resolveTerm ext sol subject, some predicate, resolveTerm ext sol object⟩
      return triples.filterMap fun triple =>
        extendFull triple (edgePattern subject predicate object) true sol) := rfl
  rw [run]
  constructor
  · rintro ⟨items, done, member⟩
    obtain ⟨triples, read, done⟩ := Except.bind_eq_ok.mp done
    cases done
    obtain ⟨triple, inside, extended⟩ := List.mem_filterMap.mp member
    exact ⟨triple, ⟨triples, read, inside⟩, extended⟩
  · rintro ⟨triple, ⟨triples, read, inside⟩, extended⟩
    exact ⟨_, Except.bind_eq_ok.mpr ⟨triples, read, rfl⟩,
      List.mem_filterMap.mpr ⟨triple, inside, extended⟩⟩

variable {state : DerivedFacts}

/-- A predicate that facts are held of is read from these. -/
theorem finds_evaluateHybrid {edges : NodeId × NodeId → EdgeId} {name : String}
    (held : (state.lookup name).isSome) {s : Option NodeId} {triple : Triple} :
    Finds (snapshot.evaluateHybrid ext edges state ⟨s, some name, none⟩) triple ↔
      ∃ pair, (name, pair) ∈ state.facts ∧ (∀ node, s = some node → node = pair.1) ∧
        triple = .relation pair.1 name pair.2 (edges pair) (.assertNow snapshot.now) := by
  obtain ⟨pairs, found⟩ := Option.isSome_iff_exists.mp held
  have run : snapshot.evaluateHybrid ext edges state ⟨s, some name, none⟩ = .ok
      ((pairs.filter fun pair => s.all (fun s => decide (s = pair.1)) && true).map fun pair =>
        .relation pair.1 name pair.2 (edges pair) (.assertNow snapshot.now)) := by
    rw [evaluateHybrid, Option.bind_some, found]
    rfl
  have slot : ∀ pair : NodeId × NodeId, (s.all (fun s => decide (s = pair.1)) && true) = true ↔
      ∀ node, s = some node → node = pair.1 := by
    intro pair
    cases s <;> simp
  rw [run]
  constructor
  · rintro ⟨items, done, member⟩
    cases done
    obtain ⟨pair, inside, rfl⟩ := List.mem_map.mp member
    obtain ⟨there, agrees⟩ := List.mem_filter.mp inside
    exact ⟨pair, ⟨pairs, found, there⟩, (slot pair).mp agrees, rfl⟩
  · rintro ⟨pair, ⟨items, same, there⟩, agrees, rfl⟩
    cases found.symm.trans same
    exact ⟨_, rfl, List.mem_map.mpr ⟨pair, List.mem_filter.mpr ⟨there, (slot pair).mpr agrees⟩, rfl⟩⟩

/-- A predicate that no facts are held of is read from the store. -/
theorem evaluateHybrid_absent {edges : NodeId × NodeId → EdgeId} {name : String}
    (absent : state.lookup name = none) {s : Option NodeId} :
    snapshot.evaluateHybrid ext edges state ⟨s, some name, none⟩ =
      snapshot.evaluate ext ⟨s, some name, none⟩ := by
  rw [evaluateHybrid, Option.bind_some, absent]
  rfl

/-- Only facts of the reachable relation are held, if any. -/
def HoldsReachable (state : DerivedFacts) : Prop :=
  ∀ name, (state.lookup name).isSome ↔ name = "reachable"

/-- One node leads to another: by a held fact when the rule is about its own relation. -/
def Leads (ext : External) (snapshot : Snapshot) (predicate : String) (facts : Set Fact)
    (node target : NodeId) : Prop :=
  if predicate = "reachable" then ("reachable", node, target) ∈ facts
  else Step (snapshot.relatedNodes ext predicate) node target

/-- The paths that are one edge longer. -/
def longerPaths (ext : External) (snapshot : Snapshot) (predicate : String) (facts : Set Fact) :
    Set Fact :=
  {fact | fact.1 = "reachable" ∧ ∃ middle, ("reachable", fact.2.1, middle) ∈ facts ∧
    Leads ext snapshot predicate facts middle fact.2.2}

/-- The solution that a path binds. -/
def pathSolution (pair : NodeId × NodeId) : Solution := ⟨[("y", pair.2), ("x", pair.1)], [], []⟩

/-- The first pattern binds the ends of a path. -/
theorem extendFull_path (s o : NodeId) (edge : EdgeId) (window : BiTemporalRange) :
    extendFull (.relation s "reachable" o edge window)
      (edgePattern (.var "x") "reachable" (.var "y")) true Solution.empty =
        some (pathSolution (s, o)) := rfl

/-- The second pattern derives a pair for a relation of the node that the path ends in. -/
theorem derivedPair_edge (predicate : String) (pair target : NodeId × NodeId) (triple : Triple) :
    (extendFull triple (edgePattern (.var "y") predicate (.var "z")) true (pathSolution pair)).bind
        (derivedPair (reachableRule predicate)) = some target ↔
      pair.2 = triple.subject ∧ target.1 = pair.1 ∧ relatedNode triple = some target.2 := by
  have first : (pathSolution pair).bindNode (.var "y") triple.subject =
      if pair.2 = triple.subject then some (pathSolution pair) else none := rfl
  rw [extendFull]
  change ((pathSolution pair).bindNode (.var "y") triple.subject >>= _).bind _ = _ ↔ _
  rw [first]
  by_cases same : pair.2 = triple.subject
  · rw [if_pos same]
    -- Only a relation binds the third variable to a node.
    cases triple with
    | relation s name o edge window =>
      have bound : derivedPair (reachableRule predicate)
          ⟨[("z", o), ("y", pair.2), ("x", pair.1)], [], []⟩ = some (pair.1, o) := rfl
      change derivedPair (reachableRule predicate)
        ⟨[("z", o), ("y", pair.2), ("x", pair.1)], [], []⟩ = _ ↔ _
      rw [bound, relatedNode]
      constructor
      · rintro ⟨rfl⟩
        exact ⟨same, rfl, rfl⟩
      · rintro ⟨_, start, ends⟩
        rw [Option.some.inj ends, ← start]
    | property s name value window =>
      have free : (pathSolution pair).nodes.lookup "z" = none := rfl
      have unbound : derivedPair (reachableRule predicate)
          ⟨(pathSolution pair).nodes, [], [("z", value)]⟩ = none := rfl
      have bound : (pathSolution pair).bindValue "z" value =
          some ⟨(pathSolution pair).nodes, [], [("z", value)]⟩ := rfl
      cases holds : bindable value
      · simp [relatedNode, extendObject, edgePattern, holds]
      · simp [relatedNode, extendObject, extendEdge, extendPred, edgePattern, holds, bound, unbound]
    | _ => simp [relatedNode, extendObject, edgePattern]
  · simp [same]

/-- One node leads to another by a relation that stored and held facts are read for. -/
theorem leads_iff (intact : snapshot.store.Intact ext) {edges : NodeId × NodeId → EdgeId}
    (held : HoldsReachable state) {predicate : String} {node target : NodeId} :
    Leads ext snapshot predicate state.facts node target ↔
      ∃ triple, Finds (snapshot.evaluateHybrid ext edges state ⟨some node, some predicate, none⟩)
          triple ∧ node = triple.subject ∧ relatedNode triple = some target := by
  rw [Leads]
  by_cases own : predicate = "reachable"
  · -- The rule reads its own relation.
    rw [if_pos own, own]
    simp only [finds_evaluateHybrid ((held "reachable").mpr rfl)]
    constructor
    · intro fact
      exact ⟨_, ⟨(node, target), fact, fun other same => (Option.some.inj same).symm, rfl⟩, rfl, rfl⟩
    · rintro ⟨_, ⟨pair, fact, agrees, rfl⟩, _, leads⟩
      rw [agrees node rfl, ← Option.some.inj leads]
      exact fact
  · have absent : state.lookup predicate = none :=
      Option.not_isSome_iff_eq_none.mp fun found => own ((held predicate).mp found)
    rw [if_neg own, evaluateHybrid_absent absent, step_iff intact]
    constructor
    · rintro ⟨triple, found, leads⟩
      exact ⟨triple, found, (subject_of_evaluate intact found).symm, leads⟩
    · rintro ⟨triple, found, _, leads⟩
      exact ⟨triple, found, leads⟩

/-- In an intact store stored and held facts are read. -/
theorem exists_evaluateHybrid (intact : snapshot.store.Intact ext) (edges : NodeId × NodeId → EdgeId)
    (pattern : Pattern) :
    ∃ triples, snapshot.evaluateHybrid ext edges state pattern = .ok triples := by
  unfold evaluateHybrid
  split
  · exact exists_evaluate intact pattern
  · exact ⟨_, rfl⟩

/-- The solutions of the rule's body derive the paths that are one edge longer. -/
theorem exists_solutions (intact : snapshot.store.Intact ext) (edges : NodeId × NodeId → EdgeId)
    (held : HoldsReachable state) (predicate : String) : ∃ solutions,
      snapshot.executeQueryHybridFull ext edges (reachableRule predicate).body state = .ok solutions ∧
      longerPaths ext snapshot predicate state.facts = {fact | fact.1 = "reachable" ∧
        fact.2 ∈ solutions.filterMap (derivedPair (reachableRule predicate))} := by
  have body : (reachableRule predicate).body = [edgePattern (.var "x") "reachable" (.var "y"),
    edgePattern (.var "y") predicate (.var "z")] := rfl
  have reachable := (held "reachable").mpr rfl
  -- Each pattern finds something or nothing, and what it finds extends the solution.
  have each : ∀ vp ∈ (reachableRule predicate).body, ∀ sol, True → ∃ found,
      snapshot.matchOne ext true (snapshot.evaluateHybrid ext edges state) vp sol = .ok found ∧
      ∀ next, next ∈ found ↔
        Finds (snapshot.matchOne ext true (snapshot.evaluateHybrid ext edges state) vp sol) next := by
    intro vp member sol _
    have succeeds : ∃ found,
        snapshot.matchOne ext true (snapshot.evaluateHybrid ext edges state) vp sol = .ok found := by
      obtain ⟨triples, read⟩ := @exists_evaluateHybrid ext snapshot state intact edges
        (substitute ext vp sol)
      rw [body] at member
      simp only [List.mem_cons, List.not_mem_nil, or_false] at member
      rcases member with rfl | rfl
      · exact ⟨_, Except.bind_eq_ok.mpr ⟨triples, read, rfl⟩⟩
      · exact ⟨_, Except.bind_eq_ok.mpr ⟨triples, read, rfl⟩⟩
    obtain ⟨found, done⟩ := succeeds
    refine ⟨found, done, fun next => ⟨fun inside => ⟨found, done, inside⟩, ?_⟩⟩
    rintro ⟨items, same, inside⟩
    cases done.symm.trans same
    exact inside
  obtain ⟨solutions, evaluated, solved⟩ := @evaluateSolutions_spec ext snapshot true _ (fun _ => True)
    _ (reachableRule predicate).body each (fun _ _ _ _ _ _ => trivial) [Solution.empty]
    fun _ _ => trivial
  refine ⟨solutions, evaluated, ?_⟩
  ext ⟨name, s, target⟩
  simp only [longerPaths, Set.mem_ofPred_eq, List.mem_filterMap, solved, List.mem_singleton,
    exists_eq_left, body, Solves]
  refine and_congr_right' ?_
  constructor
  · rintro ⟨middle, path, leads⟩
    obtain ⟨triple, found, subject, related⟩ :=
      (@leads_iff ext snapshot state intact edges held _ _ _).mp leads
    have derived := (derivedPair_edge predicate (s, middle) (s, target) triple).mpr
      ⟨subject, rfl, related⟩
    obtain ⟨last, extended, derived⟩ := Option.bind_eq_some_iff.mp derived
    have step := (@finds_evaluateHybrid ext snapshot state edges _ reachable none _).mpr
      ⟨(s, middle), path, fun _ none_ => (by cases none_), rfl⟩
    have first := (@finds_matchOne ext snapshot _ _ _ _ _ _).mpr
      ⟨_, step, extendFull_path s middle _ _⟩
    exact ⟨last, ⟨_, first, last, finds_matchOne.mpr ⟨triple, found, extended⟩, rfl⟩, derived⟩
  · rintro ⟨last, ⟨next, first, _, second, rfl⟩, derived⟩
    obtain ⟨_, path, extended⟩ := finds_matchOne.mp first
    obtain ⟨pair, fact, _, rfl⟩ :=
      (@finds_evaluateHybrid ext snapshot state edges _ reachable none _).mp path
    rw [extendFull_path] at extended
    cases extended
    obtain ⟨triple, found, extended⟩ := finds_matchOne.mp second
    obtain ⟨subject, start, related⟩ := (derivedPair_edge predicate pair (s, target) triple).mp
      (Option.bind_eq_some_iff.mpr ⟨last, extended, derived⟩)
    have leads := (@leads_iff ext snapshot state intact edges held _ _ _).mpr
      ⟨triple, found, subject, related⟩
    have start : s = pair.1 := start
    exact ⟨pair.2, start ▸ fact, leads⟩

/-- The relations of a node, as facts of the reachable relation. -/
def firstSteps (ext : External) (snapshot : Snapshot) (predicate : String) (start : NodeId) : Set Fact :=
  {fact | fact.1 = "reachable" ∧ fact.2.1 = start ∧
    Step (snapshot.relatedNodes ext predicate) start fact.2.2}

/-- The least facts that contain the relations of a node and every path that is one edge longer. -/
def leastPaths (ext : External) (snapshot : Snapshot) (predicate : String) (start : NodeId) : Set Fact :=
  LeastClosed.least (fun _ => longerPaths ext snapshot predicate)
    (firstSteps ext snapshot predicate start) [reachableRule predicate]

/-- More facts have more paths that are one edge longer. -/
theorem longerPaths_mono (predicate : String) : Monotone (longerPaths ext snapshot predicate) := by
  intro facts more grows fact ⟨name, middle, path, leads⟩
  refine ⟨name, middle, grows path, ?_⟩
  rw [Leads] at leads ⊢
  split_ifs at leads ⊢
  · exact grows leads
  · exact leads

/-- The least paths start at the node. -/
theorem leastPaths_subset (predicate : String) (start : NodeId) :
    leastPaths ext snapshot predicate start ⊆ {fact | fact.1 = "reachable" ∧ fact.2.1 = start} := by
  refine LeastClosed.least_subset (fun fact member => ⟨member.1, member.2.1⟩) ?_
  rintro rule _ fact ⟨name, middle, path, _⟩
  exact ⟨name, path.2⟩

/-- A rule about another predicate derives all that is reached. -/
theorem mem_leastPaths_of_ne {predicate : String} (other : predicate ≠ "reachable")
    (start node : NodeId) : ("reachable", start, node) ∈ leastPaths ext snapshot predicate start ↔
      snapshot.ReachedFrom ext predicate start node := by
  constructor
  · -- What is reached contains the relations of the node and is closed.
    have within : leastPaths ext snapshot predicate start ⊆
        {fact | fact.2.1 = start → snapshot.ReachedFrom ext predicate start fact.2.2} := by
      refine LeastClosed.least_subset (fun fact member _ => .single member.2.2) ?_
      rintro rule _ fact ⟨_, middle, path, leads⟩ same
      rw [Leads, if_neg other] at leads
      exact .tail (path same) leads
    exact fun member => within member rfl
  · intro reached
    induction reached with
    | single step => exact LeastClosed.subset_least ⟨rfl, rfl, step⟩
    | @tail middle target _ step ih =>
      refine LeastClosed.closed_least (fun _ _ => longerPaths_mono predicate) _
        List.mem_cons_self ⟨rfl, middle, ih, ?_⟩
      rw [Leads, if_neg other]
      exact step

/-- A rule about its own relation derives no more than the relations of the node. -/
theorem mem_leastPaths_reachable (start node : NodeId) :
    ("reachable", start, node) ∈ leastPaths ext snapshot "reachable" start ↔
      Step (snapshot.relatedNodes ext "reachable") start node := by
  have within : leastPaths ext snapshot "reachable" start ⊆
      firstSteps ext snapshot "reachable" start := by
    refine LeastClosed.least_subset (fun _ member => member) ?_
    rintro rule _ fact ⟨name, middle, path, leads⟩
    -- The second fact starts at the node too, so it is one of its relations.
    rw [Leads, if_pos rfl] at leads
    exact ⟨name, path.2.1, leads.2.2⟩
  exact ⟨fun member => (within member).2.2, fun step => LeastClosed.subset_least ⟨rfl, rfl, step⟩⟩

/-- Applying the rule adds the paths that are one edge longer. -/
theorem pass_reachableRule (intact : snapshot.store.Intact ext) (edges : NodeId × NodeId → EdgeId)
    (predicate : String) (state : DerivedFacts) (held : HoldsReachable state) : ∃ next again,
      [reachableRule predicate].foldlM (snapshot.applyRule ext edges) (state, false) =
        .ok (next, again) ∧ HoldsReachable next ∧
      next.facts = LeastClosed.pass (fun _ => longerPaths ext snapshot predicate)
        [reachableRule predicate] state.facts ∧
      (again = true ↔ ¬ LeastClosed.pass (fun _ => longerPaths ext snapshot predicate)
        [reachableRule predicate] state.facts ⊆ state.facts) := by
  obtain ⟨solutions, evaluated, derives⟩ := exists_solutions intact edges held predicate
  obtain ⟨next, again, applied, keys, facts, grew⟩ := applyRule_of_solved false evaluated derives
  have pass : LeastClosed.pass (fun _ => longerPaths ext snapshot predicate)
      [reachableRule predicate] state.facts =
        state.facts ∪ longerPaths ext snapshot predicate state.facts := rfl
  refine ⟨next, again, ?_, fun name => ?_, by rw [pass, facts], ?_⟩
  · rw [List.foldlM_cons]
    exact Except.bind_eq_ok.mpr ⟨_, applied, rfl⟩
  · rw [keys, held]
    exact or_self_iff
  · rw [grew, pass, Set.union_subset_iff]
    simp

/-- The rules find the end of every least path of a node. -/
theorem reachableFrom_spec (intact : snapshot.store.Intact ext) (edges : NodeId × NodeId → EdgeId)
    (start : NodeId) (predicate : String) : ∃ rounds nodes,
      (∀ more, rounds ≤ more →
        snapshot.reachableFrom ext edges start predicate more = some (.ok nodes)) ∧
      ∀ node, node ∈ nodes ↔ ("reachable", start, node) ∈ leastPaths ext snapshot predicate start := by
  obtain ⟨direct, read⟩ := exists_evaluate intact ⟨some start, some predicate, none⟩
  -- The seed has the relations of the node.
  let seed : List Fact := direct.filterMap fun triple =>
    (relatedNode triple).map fun object => ("reachable", triple.subject, object)
  have mem_seed : {fact | fact ∈ seed} = firstSteps ext snapshot predicate start := by
    ext ⟨name, s, target⟩
    simp only [seed, firstSteps, Set.mem_ofPred_eq, List.mem_filterMap, Option.map_eq_some_iff,
      step_iff intact, Prod.mk.injEq]
    constructor
    · rintro ⟨triple, member, _, leads, rfl, rfl, rfl⟩
      exact ⟨rfl, subject_of_evaluate intact ⟨direct, read, member⟩, triple, ⟨direct, read, member⟩,
        leads⟩
    · rintro ⟨rfl, rfl, triple, ⟨items, same, member⟩, leads⟩
      cases read.symm.trans same
      exact ⟨triple, member, target, leads, rfl,
        subject_of_evaluate intact ⟨direct, read, member⟩, rfl⟩
  obtain ⟨facts, keys⟩ := DerivedFacts.ofSeed_spec seed
  rw [mem_seed] at facts
  have run : ∀ rounds, snapshot.reachableFrom ext edges start predicate rounds =
      if seed.isEmpty then some (.ok [])
      else (snapshot.executeRecursive ext edges [reachableRule predicate] rounds
          (DerivedFacts.ofSeed seed)).map fun done => do
        let derived ← done
        let pairs := (derived.lookup "reachable").getD []
        return (pairs.filter fun pair => decide (pair.1 = start)).map Prod.snd := by
    intro rounds
    rw [reachableFrom, read]
  cases empty : seed with
  | nil =>
    refine ⟨0, [], fun more _ => by rw [run, empty]; rfl, fun node => ?_⟩
    -- Without relations of the node nothing is derived.
    have none : firstSteps ext snapshot predicate start = ∅ := by
      rw [← mem_seed, empty]
      simp
    have within : leastPaths ext snapshot predicate start ⊆ ∅ := by
      refine LeastClosed.least_subset (by rw [none]) ?_
      rintro rule _ fact ⟨_, middle, path, _⟩
      exact path
    exact ⟨nofun, fun member => absurd (within member) (Set.notMem_empty _)⟩
  | cons first rest =>
    have held : HoldsReachable (DerivedFacts.ofSeed seed) := by
      intro name
      rw [keys]
      have each : ∀ fact ∈ seed, fact.1 = "reachable" := by
        intro fact member
        have inside : fact ∈ firstSteps ext snapshot predicate start := mem_seed ▸ member
        exact inside.1
      constructor
      · rintro ⟨fact, member, rfl⟩
        exact each fact member
      · rintro rfl
        have member : first ∈ seed := by simp [empty]
        exact ⟨first, member, each first member⟩
    have nodes := finite_nodeId
    have finite : (leastPaths ext snapshot predicate start).Finite := by
      refine (Set.finite_range fun node : NodeId => (("reachable", start, node) : Fact)).subset ?_
      rintro ⟨name, s, node⟩ member
      obtain ⟨rfl, rfl⟩ := leastPaths_subset predicate start member
      exact ⟨node, rfl⟩
    obtain ⟨rounds, result, done, all⟩ := executeRecursive_least
      (fun _ _ => longerPaths_mono predicate) (pass_reachableRule intact edges predicate)
      (firstSteps ext snapshot predicate start) finite held (by rw [facts])
      (by rw [facts]; exact LeastClosed.subset_least)
    have some_ : seed.isEmpty = false := by rw [empty, List.isEmpty_cons]
    refine ⟨rounds, (((result.lookup "reachable").getD []).filter fun pair =>
      decide (pair.1 = start)).map Prod.snd, fun more enough => ?_, fun node => ?_⟩
    · rw [run, some_, done more enough]
      rfl
    · rw [leastPaths, ← all, DerivedFacts.facts, Set.mem_ofPred_eq]
      cases result.lookup "reachable" <;> simp

/-- When both find the same, a rule about its own relation is about one that is closed at the node. -/
theorem ReachesAlike.closed (intact : snapshot.store.Intact ext) {start : NodeId}
    (alike : snapshot.ReachesAlike ext start "reachable") {middle node : NodeId}
    (first : middle ∈ snapshot.relatedNodes ext "reachable" start)
    (second : node ∈ snapshot.relatedNodes ext "reachable" middle) :
    node ∈ snapshot.relatedNodes ext "reachable" start := by
  obtain ⟨rounds, nodes, done, reached⟩ := alike.rules fun _ => ⟨Uuid.nil⟩
  obtain ⟨rounds', nodes', done', found⟩ :=
    reachableFrom_spec intact (fun _ => ⟨Uuid.nil⟩) start "reachable"
  -- Both describe the result of enough rounds.
  have same := (done (max rounds rounds') (le_max_left _ _)).symm.trans
    (done' (max rounds rounds') (le_max_right _ _))
  cases same
  have path : snapshot.ReachedFrom ext "reachable" start node := .tail (.single first) second
  exact (mem_leastPaths_reachable start node).mp ((found node).mp ((reached node).mpr path))

/-- Rules and searches agree unless the predicate is that of the rules and has longer paths. -/
theorem reachesAlike_iff (intact : snapshot.store.Intact ext) (start : NodeId) (predicate : String) :
    snapshot.ReachesAlike ext start predicate ↔
      (predicate = "reachable" → ∀ middle ∈ snapshot.relatedNodes ext predicate start,
        ∀ node ∈ snapshot.relatedNodes ext predicate middle,
          node ∈ snapshot.relatedNodes ext predicate start) := by
  constructor
  · rintro alike rfl middle first node second
    exact alike.closed intact first second
  · intro closed
    refine ⟨fun edges => ?_, fun hops enough => reachableFromHops_spec intact start predicate enough⟩
    obtain ⟨rounds, nodes, done, found⟩ := reachableFrom_spec intact edges start predicate
    refine ⟨rounds, nodes, done, fun node => ?_⟩
    rw [found]
    by_cases own : predicate = "reachable"
    · subst own
      rw [mem_leastPaths_reachable]
      refine ⟨.single, fun reached => ?_⟩
      induction reached with
      | single step => exact step
      | tail _ step ih => exact closed rfl _ ih _ step
    · exact mem_leastPaths_of_ne own start node

/-- A store in which a node is related to a second, and that to a third. -/
def chained (predicate : String) : TripleStore :=
  (TripleStore.create.commit External.unreached
    ((TripleStore.create.begin.insertIn (.relation (NodeId.ofByte 1) predicate (NodeId.ofByte 2)
      ⟨(NodeId.ofByte 4).uuid⟩ ⟨Timestamp.zero, Timestamp.END_OF_TIME, Timestamp.zero⟩)
        GraphId.DEFAULT .add).insertIn (.relation (NodeId.ofByte 2) predicate (NodeId.ofByte 3)
      ⟨(NodeId.ofByte 5).uuid⟩ ⟨Timestamp.zero, Timestamp.END_OF_TIME, Timestamp.zero⟩)
        GraphId.DEFAULT .add) (Timestamp.wrap 5)).1

/-- The store with two relations is intact. -/
theorem chained_intact (predicate : String) : (chained predicate).Intact External.unreached := by
  have created : TripleStore.create.Intact External.unreached :=
    TripleStore.intact_configured External.unreached DEFAULT_INLINE_VALUE_MAX_BYTES
      Vocabulary.default true
  refine created.commit nofun (fun w member => ?_) _
  rcases List.mem_cons.mp member with rfl | later
  · exact fun _ _ _ _ => nofun
  · obtain rfl := List.mem_singleton.mp later
    exact fun _ _ _ _ => nofun

/-- The latest snapshot of that store. -/
def chain (predicate : String) : Snapshot where
  store := chained predicate
  point := ⟨Timestamp.wrap 5, none, none⟩
  now := Timestamp.wrap 6
  prefixes _ := none

/-- Rules and searches agree on whom one node knows. -/
theorem reachesAlike_knows :
    (chain "knows").ReachesAlike External.unreached (NodeId.ofByte 1) "knows" ↔
      ("knows" = "reachable" → ∀ middle ∈ (chain "knows").relatedNodes External.unreached "knows"
        (NodeId.ofByte 1), ∀ node ∈ (chain "knows").relatedNodes External.unreached "knows" middle,
          node ∈ (chain "knows").relatedNodes External.unreached "knows" (NodeId.ofByte 1)) :=
  reachesAlike_iff (chained_intact "knows") (NodeId.ofByte 1) "knows"

/-- Of a stored relation that is called like that of the rules, only the first steps are found. -/
theorem reachable_not_alike :
    ¬ (chain "reachable").ReachesAlike External.unreached (NodeId.ofByte 1) "reachable" := by
  intro alike
  have first : NodeId.ofByte 2 ∈ (chain "reachable").relatedNodes External.unreached "reachable"
      (NodeId.ofByte 1) := by decide +kernel
  have second : NodeId.ofByte 3 ∈ (chain "reachable").relatedNodes External.unreached "reachable"
      (NodeId.ofByte 2) := by decide +kernel
  have absent : NodeId.ofByte 3 ∉ (chain "reachable").relatedNodes External.unreached "reachable"
      (NodeId.ofByte 1) := by decide +kernel
  exact absent (alike.closed (chained_intact "reachable") first second)

end Snapshot

end Polargraph
