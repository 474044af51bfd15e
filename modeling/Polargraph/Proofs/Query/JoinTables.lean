import Polargraph.Proofs.Query.Rules
import Polargraph.Proofs.Query.SolutionRows

/-! The matches of one pattern as a table of assignments, whatever is bound already. -/

namespace Polargraph

open Solution

/-- Whether several patterns can bind one variable to the object of a triple. -/
def shareable : Triple → Bool
  | .property _ _ value _ => bindable value && value.equalsItself
  | _ => true

namespace Snapshot

variable (ext : External)

/-- A slot has the type that is expected of it, if any. -/
def Typed (snapshot : Snapshot) (expected : Option String) (slot : Option NodeId) : Prop :=
  snapshot.slotHasType ext expected slot = .ok true

/-- The definition that a predicate is pruned by. -/
def typeOf (snapshot : Snapshot) (registry : Option EdgeTypeRegistry) (name : String) :
    Option EdgeTypeDef :=
  registry.bind fun registry =>
    registry.getEdgeType snapshot.store.vocabulary snapshot.prefixes name

/-- A pattern whose bound slots have the types that its predicate requires. -/
def Admitted (snapshot : Snapshot) (registry : Option EdgeTypeRegistry) (pattern : Pattern) : Prop :=
  ∀ name definition, pattern.predicate = some name →
    snapshot.typeOf registry name = some definition →
    snapshot.Typed ext definition.domain pattern.subject ∧
      snapshot.Typed ext definition.range pattern.object

/-- Every triple that is read for a predicate has the types that the predicate requires. -/
def Conforms (snapshot : Snapshot) (registry : Option EdgeTypeRegistry) : Prop :=
  ∀ name definition ids triple, snapshot.typeOf registry name = some definition →
    snapshot.Answers ⟨none, some name, none⟩ ids →
    snapshot.store.Shows snapshot.point.ts snapshot.vt ids →
    snapshot.store.ReadFrom ext snapshot.point.ts snapshot.vt ids triple →
    snapshot.Typed ext definition.domain (some ids.s) ∧
      (shareable triple = true ∨ triple.predicate = name →
        snapshot.Typed ext definition.range (some ids.o))

/-- Every graph with a triple is the one that its node leads to. -/
def GraphsTold (snapshot : Snapshot) : Prop :=
  ∀ ids node, snapshot.point.canRead ids.g = true →
    snapshot.store.Shows snapshot.point.ts snapshot.vt ids →
    snapshot.store.graphNode ext ids.g = some node →
    snapshot.store.graphForNode ext node = some ids.g

/-- The matches of a pattern extend every solution by the records of one table. -/
def Tabulates (snapshot : Snapshot) (registry : Option EdgeTypeRegistry) (vp : VarPattern)
    (table : Multiset Cells) : Prop :=
  ∀ sol : Solution, sol.Apart → ∃ found,
    snapshot.matchOne ext true (snapshot.evaluateWithRegistry ext registry) vp sol = .ok found ∧
    (∀ next ∈ found, next.Apart) ∧
    Multiset.ofList (found.map Solution.row) =
      table.filterMap fun record => Joins.assignAll Cell.repeats record sol.row

variable {ext : External} {snapshot : Snapshot} {registry : Option EdgeTypeRegistry}

/-- What is read from a quad is one triple. -/
theorem read_unique {ts vt : Timestamp} {ids : QuadIds} {triple other : Triple}
    (read : snapshot.store.ReadFrom ext ts vt ids triple)
    (again : snapshot.store.ReadFrom ext ts vt ids other) : triple = other := by
  obtain ⟨tt, version, governs, _, _, rebuilt⟩ := read
  obtain ⟨tt', version', governs', _, _, rebuilt'⟩ := again
  obtain ⟨rfl, rfl⟩ := governs.unique governs'
  rw [rebuilt] at rebuilt'
  exact Except.ok.inj rebuilt'

/-- A triple that is read is a relation or a property of its quad. -/
theorem parts_of_read (keyed : snapshot.store.Keyed ext) {ts vt : Timestamp} {ids : QuadIds}
    {triple : Triple} (read : snapshot.store.ReadFrom ext ts vt ids triple) :
    triple.subject = ids.s ∧ ((∃ edge window,
        triple = .relation ids.s triple.predicate ids.o edge window) ∨
      ∃ value window, triple = .property ids.s triple.predicate value window ∧
        valueObject ext value = ids.o) := by
  obtain ⟨tt, version, governs, _, _, rebuilt⟩ := read
  have stored := (Index.history_eq_some.mp governs.seen.stored).1
  obtain ⟨_, relation | property⟩ :=
    TripleStore.triple_of_reconstruct (keyed.values _ _ stored) keyed.blobs rebuilt
  · obtain ⟨edge, window, same⟩ := relation
    exact ⟨by rw [same]; rfl, Or.inl ⟨edge, window, same⟩⟩
  · obtain ⟨value, window, same, slot⟩ := property
    exact ⟨by rw [same]; rfl, Or.inr ⟨value, window, same, slot⟩⟩

/-- What a variable of a solution stands for is in its row. -/
theorem row_of_resolve {sol : Solution} {name : String} {node : NodeId}
    (resolved : resolveTerm ext sol (.var name) = some node) :
    sol.row (.var name) = some (.node node) ∨
      ∃ value, sol.row (.var name) = some (.value value.folded) ∧ valueObject ext value = node := by
  unfold resolveTerm at resolved
  cases own : sol.nodes.lookup name with
  | some held =>
    simp only [own] at resolved
    refine Or.inl ?_
    simp [row, own, Option.some.inj resolved]
  | none =>
    simp only [own] at resolved
    obtain ⟨value, held, same⟩ := Option.map_eq_some_iff.mp resolved
    refine Or.inr ⟨value, ?_, same⟩
    simp [row, own, held]

/-- Constants stand for the same whatever a solution binds. -/
theorem resolve_empty {term : Term} {node : NodeId} (sol : Solution)
    (resolved : resolveTerm ext Solution.empty term = some node) :
    resolveTerm ext sol term = some node := by
  cases term with
  | var => cases resolved
  | _ => exact resolved

/-- A quad whose triple extends a solution has what the solution binds in its slots. -/
theorem agrees_of_cells (keyed : snapshot.store.Keyed ext) {ts vt : Timestamp} {ids : QuadIds}
    {triple : Triple} (read : snapshot.store.ReadFrom ext ts vt ids triple) {vp : VarPattern}
    {sol : Solution} {scope : GraphScope} {point : ReadAt}
    (wanted : snapshot.store.Wanted (substitute ext vp Solution.empty).subject
      (substitute ext vp Solution.empty).predicate (substitute ext vp Solution.empty).object scope
      point ids)
    {cells : Cells} (own : matchCells vp triple = some cells) {next : Column → Option Cell}
    (done : Joins.assignAll Cell.repeats cells sol.row = some next) :
    (∀ node, (substitute ext vp sol).subject = some node → ids.s = node) ∧
      (∀ name, (substitute ext vp sol).predicate = some name →
        snapshot.store.predicateId name = some ids.p ∧
          (vp.predicate = none → triple.predicate = name)) ∧
      ∀ node, (substitute ext vp sol).object = some node → ids.o = node := by
  obtain ⟨subjectIs, kinds⟩ := parts_of_read keyed read
  unfold matchCells at own
  obtain ⟨subject, first, whole⟩ := Option.bind_eq_some_iff.mp own
  obtain ⟨rest, others, joined⟩ := Option.map_eq_some_iff.mp whole
  obtain ⟨object, second, last⟩ := Option.bind_eq_some_iff.mp others
  cases last
  subst joined
  -- Whatever the solution has agrees with each assignment.
  have agree (column : Column) (cell held : Cell) (member : (column, cell) ∈ subject ++ (object ++
      (edgeCells triple vp.edgeVar ++ predCells triple vp.predicateVar)))
      (there : sol.row column = some held) : held = cell ∧ Cell.repeats cell = true :=
    Joins.agrees_of_assignAll done member there
  refine ⟨fun node bound => ?_, fun name bound => ?_, fun node bound => ?_⟩
  · have resolved : resolveTerm ext sol vp.subject = some node := bound
    cases term : vp.subject with
    | var name =>
      rw [term] at first resolved
      cases first
      have member : ((.var name, .node triple.subject) : Column × Cell) ∈
          [(.var name, .node triple.subject)] ++ (object ++
            (edgeCells triple vp.edgeVar ++ predCells triple vp.predicateVar)) :=
        List.mem_append_left _ (List.mem_singleton_self _)
      rcases row_of_resolve resolved with held | ⟨value, held, _⟩
      · rw [← subjectIs]
        exact (Cell.node.inj (agree _ _ _ member held).1).symm
      · cases (agree _ _ _ member held).1
    | literal => rw [term] at first; cases first
    | bound other =>
      rw [term] at resolved
      cases resolved
      exact wanted.subject _ (by rw [substitute, term]; rfl)
    | _ => rw [term] at resolved; cases resolved
  · unfold substitute at bound
    cases given : vp.predicate with
    | some text =>
      rw [given] at bound
      cases bound
      exact ⟨wanted.predicate _ (by rw [substitute, given]; rfl), fun none_ => by cases none_⟩
    | none =>
      rw [given] at bound
      obtain ⟨variable_, named, held⟩ := Option.bind_eq_some_iff.mp bound
      have member : ((.pred variable_, .pred triple.predicate) : Column × Cell) ∈ subject ++ (object ++
          (edgeCells triple vp.edgeVar ++ predCells triple vp.predicateVar)) := by
        simp [predCells, named]
      have same := (agree _ _ (.pred name) member (by simp [row, held])).1
      have spelled : triple.predicate = name := (Cell.pred.inj same).symm
      rw [← spelled]
      exact ⟨predicateId_of_read keyed read, fun _ => rfl⟩
  · have resolved : resolveTerm ext sol vp.object = some node := bound
    cases term : vp.object with
    | var name =>
      rw [term] at second resolved
      rcases kinds with ⟨edge, window, same⟩ | ⟨value, window, same, slot⟩
      · rw [same] at second
        cases second
        have member : ((.var name, .node ids.o) : Column × Cell) ∈ subject ++
            ([(.var name, .node ids.o)] ++
              (edgeCells triple vp.edgeVar ++ predCells triple vp.predicateVar)) := by
          simp
        rcases row_of_resolve resolved with held | ⟨value, held, _⟩
        · exact (Cell.node.inj (agree _ _ _ member held).1).symm
        · cases (agree _ _ _ member held).1
      · rw [same] at second
        simp only [objectCells] at second
        split_ifs at second with plain
        cases second
        have member : ((.var name, .value value.folded) : Column × Cell) ∈ subject ++
            ([(.var name, .value value.folded)] ++
              (edgeCells triple vp.edgeVar ++ predCells triple vp.predicateVar)) := by
          simp
        rcases row_of_resolve resolved with held | ⟨old, held, own⟩
        · cases (agree _ _ _ member held).1
        · obtain ⟨folds, repeats⟩ := agree _ _ _ member held
          have itself := (Value.equalsItself_folded value).symm.trans repeats
          rw [← slot, ← own]
          exact (Value.valueObject_of_same ext plain
            ((Value.same_iff plain).mpr ⟨Cell.value.inj folds, itself⟩)).symm
    | any | param => rw [term] at resolved; cases resolved
    | bound other =>
      rw [term] at resolved
      exact wanted.object _ (by rw [substitute, term]; exact resolved)
    | literal value =>
      rw [term] at resolved
      exact wanted.object _ (by rw [substitute, term]; exact resolved)

/-- In an intact store every type check is answered. -/
theorem exists_slotHasType (intact : snapshot.store.Intact ext) (expected : Option String)
    (slot : Option NodeId) : ∃ answer, snapshot.slotHasType ext expected slot = .ok answer := by
  cases expected with
  | none => exact ⟨true, rfl⟩
  | some name =>
    cases slot with
    | none => exact ⟨true, rfl⟩
    | some node =>
      obtain ⟨triples, read⟩ := exists_evaluate intact ⟨some node, some RDF_TYPE, none⟩
      exact ⟨_, Except.bind_eq_ok.mpr ⟨triples, read, rfl⟩⟩

/-- With a registry a pattern evaluates as without one when it is admitted, and to nothing otherwise. -/
theorem evaluateWithRegistry_spec (intact : snapshot.store.Intact ext) (pattern : Pattern) :
    ∃ quads : List (QuadIds × Triple),
      snapshot.evaluateWithRegistry ext registry pattern = .ok (quads.map Prod.snd) ∧
      snapshot.store.ScanResult ext snapshot.point.ts snapshot.vt
        (fun ids => snapshot.Answers pattern ids ∧ snapshot.Admitted ext registry pattern) quads := by
  obtain ⟨quads, done, result⟩ := snapshot.evaluate_spec intact pattern
  have whole (admitted : snapshot.Admitted ext registry pattern) :
      snapshot.store.ScanResult ext snapshot.point.ts snapshot.vt
        (fun ids => snapshot.Answers pattern ids ∧ snapshot.Admitted ext registry pattern) quads :=
    ⟨result.distinct, fun ids => by rw [result.mem_iff, and_iff_left admitted], result.read⟩
  have pruned (refused : ¬ snapshot.Admitted ext registry pattern) :
      snapshot.store.ScanResult ext snapshot.point.ts snapshot.vt
        (fun ids => snapshot.Answers pattern ids ∧ snapshot.Admitted ext registry pattern) [] :=
    ⟨List.nodup_nil, fun ids => by simp [refused], by simp⟩
  unfold evaluateWithRegistry
  cases found : registry.bind fun registry => pattern.predicate.bind fun predicate =>
      registry.getEdgeType snapshot.store.vocabulary snapshot.prefixes predicate with
  | none =>
    refine ⟨quads, done, whole fun name definition named typed => ?_⟩
    unfold typeOf at typed
    rw [named] at found
    simp only [Option.bind_some] at found
    rw [found] at typed
    cases typed
  | some definition =>
    obtain ⟨registry', given, found⟩ := Option.bind_eq_some_iff.mp found
    obtain ⟨name, named, found⟩ := Option.bind_eq_some_iff.mp found
    have typed : snapshot.typeOf registry name = some definition := by
      rw [typeOf, given]
      exact found
    have admitted_iff : snapshot.Admitted ext registry pattern ↔
        snapshot.Typed ext definition.domain pattern.subject ∧
          snapshot.Typed ext definition.range pattern.object := by
      refine ⟨fun admitted => admitted name definition named typed, fun both name' definition' => ?_⟩
      intro named' typed'
      rw [named] at named'
      cases named'
      rw [typed] at typed'
      cases typed'
      exact both
    obtain ⟨domain, first⟩ := exists_slotHasType intact definition.domain pattern.subject
    cases domain with
    | false =>
      refine ⟨[], Except.bind_eq_ok.mpr ⟨false, first, rfl⟩, pruned fun admitted => ?_⟩
      have other := (admitted_iff.mp admitted).1
      rw [Typed, first] at other
      cases other
    | true =>
      obtain ⟨range, second⟩ := exists_slotHasType intact definition.range pattern.object
      cases range with
      | false =>
        refine ⟨[], Except.bind_eq_ok.mpr ⟨true, first, Except.bind_eq_ok.mpr ⟨false, second, rfl⟩⟩,
          pruned fun admitted => ?_⟩
        have other := (admitted_iff.mp admitted).2
        rw [Typed, second] at other
        cases other
      | true =>
        exact ⟨quads, Except.bind_eq_ok.mpr ⟨true, first, Except.bind_eq_ok.mpr ⟨true, second, done⟩⟩,
          whole (admitted_iff.mpr ⟨first, second⟩)⟩

/-- Scans of which one is wider extend a solution alike, if what the other lacks conflicts with it. -/
theorem rows_of_scans {ts vt : Timestamp} {wanted wider : QuadIds → Prop}
    {small large : List (QuadIds × Triple)}
    (narrow : snapshot.store.ScanResult ext ts vt wanted small)
    (wide : snapshot.store.ScanResult ext ts vt wider large) (weaker : ∀ ids, wanted ids → wider ids)
    {step : QuadIds × Triple → Solution → Option Solution} {cells : QuadIds × Triple → Option Cells}
    (assigns : ∀ quad, Assigns (step quad) (cells quad)) {sol : Solution} (apart : sol.Apart)
    (binds : ∀ quad ∈ large, ∀ record next, cells quad = some record →
      Joins.assignAll Cell.repeats record sol.row = some next → wanted quad.1) :
    (∀ next ∈ small.filterMap (fun quad => step quad sol), next.Apart) ∧
      Multiset.ofList ((small.filterMap fun quad => step quad sol).map Solution.row) =
        (Multiset.ofList (large.filterMap cells)).filterMap
          fun record => Joins.assignAll Cell.repeats record sol.row := by
  constructor
  · intro next member
    obtain ⟨quad, _, extended⟩ := List.mem_filterMap.mp member
    exact (assigns quad sol apart).2 next extended
  · have same : (fun quad => (step quad sol).map Solution.row) = fun quad =>
        (cells quad).bind fun record => Joins.assignAll Cell.repeats record sol.row :=
      funext fun quad => (assigns quad sol apart).1
    rw [List.map_filterMap, same, Multiset.filterMap_coe, List.filterMap_filterMap]
    refine Multiset.coe_eq_coe.mpr (Joins.filterMap_perm narrow.distinct.of_map wide.distinct.of_map
      (fun quad member absent => ?_) fun quad member absent => ?_)
    · -- A quad of the narrow scan is also in the wide one.
      obtain ⟨asked, shows⟩ := (narrow.mem_iff quad.1).mp (List.mem_map.mpr ⟨quad, member, rfl⟩)
      obtain ⟨other, there, own⟩ := List.mem_map.mp
        ((wide.mem_iff quad.1).mpr ⟨weaker _ asked, shows⟩)
      have read := wide.read other there
      rw [own] at read
      have equal : other = quad := Prod.ext own (read_unique read (narrow.read quad member))
      exact absurd (equal ▸ there) absent
    · -- A quad that extends the solution is in the narrow scan.
      by_contra extends_
      obtain ⟨next, done⟩ := Option.ne_none_iff_exists'.mp extends_
      obtain ⟨record, own, made⟩ := Option.bind_eq_some_iff.mp done
      obtain ⟨_, shows⟩ := (wide.mem_iff quad.1).mp (List.mem_map.mpr ⟨quad, member, rfl⟩)
      obtain ⟨other, there, named⟩ := List.mem_map.mp
        ((narrow.mem_iff quad.1).mpr ⟨binds quad member record next own made, shows⟩)
      have read := narrow.read other there
      rw [named] at read
      have equal : other = quad := Prod.ext named (read_unique read (wide.read quad member))
      exact absurd (equal ▸ there) absent

/-- A pattern has a bound predicate only, before anything is bound. -/
theorem predicate_empty {vp : VarPattern} {name : String}
    (bound : (substitute ext vp Solution.empty).predicate = some name) : vp.predicate = some name := by
  unfold substitute at bound
  cases given : vp.predicate with
  | some text =>
    rw [given] at bound
    exact bound
  | none =>
    rw [given] at bound
    obtain ⟨_, _, held⟩ := Option.bind_eq_some_iff.mp bound
    cases held

/-- What is wanted after some substitutions is wanted before. -/
theorem wanted_empty {vp : VarPattern} {sol : Solution} {scope wider : GraphScope} {point : ReadAt}
    {ids : QuadIds} (wanted : snapshot.store.Wanted (substitute ext vp sol).subject
      (substitute ext vp sol).predicate (substitute ext vp sol).object scope point ids)
    (admits : wider.admits ids.g = true) :
    snapshot.store.Wanted (substitute ext vp Solution.empty).subject
      (substitute ext vp Solution.empty).predicate (substitute ext vp Solution.empty).object wider
      point ids where
  subject node bound := wanted.subject node (resolve_empty sol bound)
  predicate name bound := wanted.predicate name (by rw [substitute, predicate_empty bound]; rfl)
  object node bound := wanted.object node (resolve_empty sol bound)
  scope := admits
  readable := wanted.readable

/-- What is admitted after some substitutions is admitted before. -/
theorem admitted_empty {vp : VarPattern} {sol : Solution}
    (admitted : snapshot.Admitted ext registry (substitute ext vp sol)) :
    snapshot.Admitted ext registry (substitute ext vp Solution.empty) := by
  intro name definition bound typed
  obtain ⟨domain, range⟩ := admitted name definition
    (by rw [substitute, predicate_empty bound]; rfl) typed
  have slot (expected : Option String) (term : Term)
      (whole : snapshot.Typed ext expected (resolveTerm ext sol term)) :
      snapshot.Typed ext expected (resolveTerm ext Solution.empty term) := by
    cases held : resolveTerm ext Solution.empty term with
    | none => cases expected <;> rfl
    | some node =>
      rw [resolve_empty sol held] at whole
      exact whole
  exact ⟨slot _ _ domain, slot _ _ range⟩

/-- An object that several patterns cannot bind is a constant of the pattern, if anything. -/
theorem object_of_not_shareable {vp : VarPattern} {triple : Triple} {cells : Cells}
    (own : matchCells vp triple = some cells) {sol : Solution} {next : Column → Option Cell}
    (done : Joins.assignAll Cell.repeats cells sol.row = some next)
    (alone : ¬ shareable triple = true) {node : NodeId}
    (bound : (substitute ext vp sol).object = some node) :
    (substitute ext vp Solution.empty).object = some node := by
  have resolved : resolveTerm ext sol vp.object = some node := bound
  unfold substitute
  cases term : vp.object with
  | var name =>
    rw [term] at resolved
    unfold matchCells at own
    obtain ⟨subject, _, whole⟩ := Option.bind_eq_some_iff.mp own
    obtain ⟨rest, others, joined⟩ := Option.map_eq_some_iff.mp whole
    obtain ⟨object, second, last⟩ := Option.bind_eq_some_iff.mp others
    cases last
    subst joined
    rw [term] at second
    cases triple with
    | relation => exact absurd rfl alone
    | property s p value window =>
      simp only [objectCells] at second
      split_ifs at second with plain
      cases second
      have some_ : ∃ held, sol.row (.var name) = some held := by
        rcases row_of_resolve resolved with there | ⟨_, there, _⟩ <;> exact ⟨_, there⟩
      obtain ⟨held, there⟩ := some_
      have member : ((.var name, .value value.folded) : Column × Cell) ∈ subject ++
          ([(.var name, .value value.folded)] ++
            (edgeCells (.property s p value window) vp.edgeVar ++
              predCells (.property s p value window) vp.predicateVar)) := by
        simp
      have repeats := (Joins.agrees_of_assignAll done member there).2
      refine absurd ?_ alone
      rw [shareable, plain, Bool.true_and, ← Value.equalsItself_folded]
      exact repeats
    | _ => cases second
  | any | param => rw [term] at resolved; cases resolved
  | _ =>
    rw [term] at resolved
    exact resolved

/-- When every triple conforms, one that extends a solution is not pruned. -/
theorem admitted_of_cells (intact : snapshot.store.Intact ext)
    (conforms : snapshot.Conforms ext registry) {vp : VarPattern} {ids : QuadIds} {triple : Triple}
    (answers : snapshot.Answers (substitute ext vp Solution.empty) ids)
    (admitted : snapshot.Admitted ext registry (substitute ext vp Solution.empty))
    (shows : snapshot.store.Shows snapshot.point.ts snapshot.vt ids)
    (read : snapshot.store.ReadFrom ext snapshot.point.ts snapshot.vt ids triple)
    {cells : Cells} (own : matchCells vp triple = some cells) {sol : Solution}
    {next : Column → Option Cell}
    (done : Joins.assignAll Cell.repeats cells sol.row = some next) :
    snapshot.Answers (substitute ext vp sol) ids ∧
      snapshot.Admitted ext registry (substitute ext vp sol) := by
  obtain ⟨subject, predicate, object⟩ :=
    agrees_of_cells intact.sound.keyed read answers.wanted own done
  have answers' : snapshot.Answers (substitute ext vp sol) ids :=
    ⟨⟨subject, fun name bound => (predicate name bound).1, object, rfl, answers.wanted.readable⟩,
      answers.lowest⟩
  refine ⟨answers', fun name definition bound typed => ?_⟩
  obtain ⟨known, spelled⟩ := predicate name bound
  have listed : snapshot.Answers ⟨none, some name, none⟩ ids :=
    ⟨⟨nofun, fun other same => by rw [← Option.some.inj same]; exact known, nofun, rfl,
      answers.wanted.readable⟩, answers.lowest⟩
  obtain ⟨domain, range⟩ := conforms name definition ids triple typed listed shows read
  constructor
  · cases held : (substitute ext vp sol).subject with
    | none => cases definition.domain <;> rfl
    | some node =>
      rw [← subject node held]
      exact domain
  · cases held : (substitute ext vp sol).object with
    | none => cases definition.range <;> rfl
    | some node =>
      by_cases checked : shareable triple = true ∨ triple.predicate = name
      · rw [← object node held]
        exact range checked
      · -- An object that no other pattern binds is checked only when it is a constant.
        obtain ⟨alone, other⟩ := not_or.mp checked
        have constant := object_of_not_shareable own done alone held
        have named : (substitute ext vp Solution.empty).predicate = some name := by
          cases given : vp.predicate with
          | none => exact absurd (spelled given) other
          | some text =>
            rw [substitute, given] at bound ⊢
            exact bound
        have typed' := (admitted name definition named typed).2
        rwa [constant] at typed'

/-- A pattern over every graph matches as its table says, when every triple conforms. -/
theorem exists_table_union (intact : snapshot.store.Intact ext)
    (conforms : snapshot.Conforms ext registry) {vp : VarPattern} (flat : vp.maxHops = none)
    (whole : vp.graph = .union) : ∃ table, snapshot.Tabulates ext registry vp table := by
  obtain ⟨large, _, wide⟩ :=
    @evaluateWithRegistry_spec ext snapshot registry intact (substitute ext vp Solution.empty)
  refine ⟨Multiset.ofList (large.filterMap fun quad => matchCells vp quad.2), fun sol apart => ?_⟩
  obtain ⟨small, done, narrow⟩ :=
    @evaluateWithRegistry_spec ext snapshot registry intact (substitute ext vp sol)
  obtain ⟨kept, rows⟩ := rows_of_scans narrow wide
    (fun ids ⟨answers, admitted⟩ =>
      ⟨⟨wanted_empty answers.wanted rfl, answers.lowest⟩, admitted_empty admitted⟩)
    (fun quad => assigns_extendFull vp quad.2) apart fun quad member record next own made => by
      obtain ⟨⟨answers, admitted⟩, shows⟩ :=
        (wide.mem_iff quad.1).mp (List.mem_map.mpr ⟨quad, member, rfl⟩)
      exact admitted_of_cells intact conforms answers admitted shows (wide.read quad member) own made
  refine ⟨small.filterMap fun quad => extendFull quad.2 vp true sol, ?_, kept, rows⟩
  unfold matchOne matchPattern
  rw [flat, whole]
  refine Except.bind_eq_ok.mpr ⟨_, done, ?_⟩
  rw [List.filterMap_map]
  rfl

/-- The assignments of the graph of a match. -/
def graphCells (ext : External) (snapshot : Snapshot) (vp : VarPattern) (g : GraphId) :
    Option Cells :=
  match vp.graph with
  | .var name => (snapshot.store.graphNode ext g).map fun node => [(.var name, .node node)]
  | _ => some []

/-- Extending solutions by a match in a graph makes the assignments of both. -/
theorem assigns_extendQuad (vp : VarPattern) (quad : GraphId × Triple) :
    Assigns (fun sol => snapshot.extendQuad ext vp true sol quad)
      ((matchCells vp quad.2).bind fun cells =>
        (graphCells ext snapshot vp quad.1).map fun more => cells ++ more) := by
  have graph : Assigns (fun next => match vp.graph with
      | .var name => (snapshot.store.graphNode ext quad.1).bind fun node => next.bindVar name node
      | _ => some next) (graphCells ext snapshot vp quad.1) := by
    unfold graphCells
    cases vp.graph with
    | var name =>
      cases snapshot.store.graphNode ext quad.1 with
      | none => exact assigns_none
      | some node => exact assigns_bindVar name node
    | _ => exact assigns_some
  exact (assigns_extendFull vp quad.2).bind graph

/-- A scan of some graphs returns the wanted quads. -/
theorem scanScoped_spec (intact : snapshot.store.Intact ext) (pattern : Pattern)
    (scope : GraphScope) : ∃ quads : List (QuadIds × Triple),
      snapshot.scanScoped ext pattern scope = .ok (quads.map fun quad => (quad.1.g, quad.2)) ∧
      snapshot.store.ScanResult ext snapshot.point.ts snapshot.vt
        (snapshot.store.Wanted pattern.subject pattern.predicate pattern.object scope snapshot.point)
        quads := by
  obtain ⟨found, done⟩ := intact.scans pattern.subject pattern.predicate pattern.object scope
    snapshot.point snapshot.now
  obtain ⟨quads, rfl, result⟩ := TripleStore.scanScopedAt_spec intact.sound.keyed.holds done
  exact ⟨quads, done, result⟩

/-- The graph that a node leads to is no default graph. -/
theorem graphForNode_ne (named : snapshot.store.GraphsNamed) {node : NodeId} {g : GraphId}
    (leads : snapshot.store.graphForNode ext node = some g) : g ≠ GraphId.DEFAULT := by
  rintro rfl
  obtain ⟨⟨_, iri⟩, found, rfl⟩ := Option.map_eq_some_iff.mp leads
  have listed := List.mem_reverse.mp (List.mem_of_find?_eq_some found)
  obtain ⟨n, _, made⟩ := List.mem_filterMap.mp listed
  obtain ⟨text, known, same⟩ := Option.map_eq_some_iff.mp made
  rw [(Prod.mk.inj same).1, TripleStore.graphIri, named.default.1] at known
  cases known

/-- The graphs that a pattern is matched in, when it does not match in every graph. -/
theorem exists_graphScope {graph : Datalog.GraphTerm} (restricted : graph ≠ .union) (sol : Solution) :
    ∃ scope, snapshot.graphScope ext sol graph = some scope := by
  unfold graphScope
  cases graph with
  | union => exact absurd rfl restricted
  | default | bound | set => exact ⟨_, rfl⟩
  | iri iri =>
    dsimp only
    split <;> exact ⟨_, rfl⟩
  | var name =>
    dsimp only
    split
    · split <;> exact ⟨_, rfl⟩
    · split_ifs <;> exact ⟨_, rfl⟩

/-- The graphs that a graph variable admits are named ones. -/
theorem admits_empty (named : snapshot.store.GraphsNamed) {graph : Datalog.GraphTerm}
    {sol : Solution} {scope wider : GraphScope} (own : snapshot.graphScope ext sol graph = some scope)
    (whole : snapshot.graphScope ext Solution.empty graph = some wider) {g : GraphId}
    (admits : scope.admits g = true) : wider.admits g = true := by
  cases graph with
  | var name =>
    cases whole
    have apart : g ≠ GraphId.DEFAULT := by
      simp only [graphScope] at own
      split at own
      · split at own
        · rename_i leads
          cases own
          rw [← of_decide_eq_true admits]
          exact graphForNode_ne named leads
        · cases own
          cases admits
      · split_ifs at own
        · cases own
          cases admits
        · cases own
          exact of_decide_eq_true admits
    exact decide_eq_true apart
  | _ =>
    -- The other terms stand for the same graphs whatever is bound.
    have same : some scope = some wider := own.symm.trans whole
    cases same
    exact admits

/-- A match in a graph that a solution's graph variable may have is in its scope. -/
theorem admits_of_cells (told : snapshot.GraphsTold ext) {vp : VarPattern} {sol : Solution}
    {scope wider : GraphScope} (own : snapshot.graphScope ext sol vp.graph = some scope)
    (whole : snapshot.graphScope ext Solution.empty vp.graph = some wider) {ids : QuadIds}
    (readable : snapshot.point.canRead ids.g = true)
    (shows : snapshot.store.Shows snapshot.point.ts snapshot.vt ids)
    (admits : wider.admits ids.g = true) {more : Cells}
    (cells : graphCells ext snapshot vp ids.g = some more) {row next : Column → Option Cell}
    (kept : ∀ column held, sol.row column = some held → row column = some held)
    (done : Joins.assignAll Cell.repeats more row = some next) : scope.admits ids.g = true := by
  cases graph : vp.graph with
  | var name =>
    rw [graph] at own whole
    simp only [graphCells, graph] at cells
    obtain ⟨node, leads, same⟩ := Option.map_eq_some_iff.mp cells
    subst same
    have agree (held : Cell) (there : sol.row (.var name) = some held) : held = .node node :=
      (Joins.agrees_of_assignAll done (List.mem_singleton_self _) (kept _ _ there)).1
    simp only [graphScope] at own whole
    cases whole
    cases bound : sol.nodes.lookup name with
    | some other =>
      have equal : other = node :=
        Cell.node.inj (agree (.node other) (by simp [Solution.row, bound]))
      subst equal
      simp only [bound, told ids other readable shows leads] at own
      cases own
      exact decide_eq_true rfl
    | none =>
      cases held : sol.values.lookup name with
      | some value => cases agree (.value value.folded) (by simp [Solution.row, bound, held])
      | none =>
        simp only [bound, held] at own
        cases own
        exact admits
  | _ =>
    rw [graph] at own whole
    have same : some scope = some wider := own.symm.trans whole
    cases same
    exact admits

/-- A pattern over some graphs matches as its table says. -/
theorem exists_table_scoped (intact : snapshot.store.Intact ext)
    (named : snapshot.store.GraphsNamed) (told : snapshot.GraphsTold ext) {vp : VarPattern}
    (flat : vp.maxHops = none) (restricted : vp.graph ≠ .union) :
    ∃ table, snapshot.Tabulates ext registry vp table := by
  obtain ⟨wider, whole⟩ := @exists_graphScope ext snapshot vp.graph restricted Solution.empty
  obtain ⟨large, _, wide⟩ := scanScoped_spec intact (substitute ext vp Solution.empty) wider
  refine ⟨Multiset.ofList (large.filterMap fun quad => (matchCells vp quad.2).bind fun cells =>
    (graphCells ext snapshot vp quad.1.g).map fun more => cells ++ more), fun sol apart => ?_⟩
  obtain ⟨scope, own⟩ := @exists_graphScope ext snapshot vp.graph restricted sol
  obtain ⟨small, done, narrow⟩ := scanScoped_spec intact (substitute ext vp sol) scope
  obtain ⟨kept, rows⟩ := rows_of_scans narrow wide
    (fun ids wanted => wanted_empty wanted (admits_empty named own whole wanted.scope))
    (fun quad => assigns_extendQuad vp (quad.1.g, quad.2)) apart
    fun quad member record next cells made => by
      obtain ⟨wanted, shows⟩ := (wide.mem_iff quad.1).mp (List.mem_map.mpr ⟨quad, member, rfl⟩)
      obtain ⟨first, matched, cells⟩ := Option.bind_eq_some_iff.mp cells
      obtain ⟨more, graph, joined⟩ := Option.map_eq_some_iff.mp cells
      subst joined
      rw [Joins.assignAll_append] at made
      obtain ⟨middle, here, later⟩ := Option.bind_eq_some_iff.mp made
      obtain ⟨subject, predicate, object⟩ :=
        agrees_of_cells intact.sound.keyed (wide.read quad member) wanted matched here
      exact ⟨subject, fun name bound => (predicate name bound).1, object,
        admits_of_cells told own whole wanted.readable shows wanted.scope graph
          (fun _ _ there => Joins.kept_of_assignAll here there) later, wanted.readable⟩
  refine ⟨small.filterMap fun quad => snapshot.extendQuad ext vp true sol (quad.1.g, quad.2), ?_,
    kept, rows⟩
  unfold matchOne matchPattern
  rw [flat, own]
  refine Except.bind_eq_ok.mpr ⟨_, done, ?_⟩
  rw [List.filterMap_map]
  rfl

/-- The assignments of the target of a path to a term. -/
def targetCells (object : Term) (target : NodeId) : Option Cells :=
  match object with
  | .bound node => if node = target then some [] else none
  | term => nodeCells term target

/-- Binding a term to the target of a path assigns it. -/
theorem assigns_bindTarget (object : Term) (target : NodeId) :
    Assigns (fun sol => bindTarget object sol target) (targetCells object target) := by
  cases object with
  | bound node =>
    by_cases same : node = target
    · have step : (fun sol => bindTarget (.bound node) sol target) = some :=
        funext fun sol => if_pos same
      rw [step, targetCells, if_pos same]
      exact assigns_some
    · have step : (fun sol => bindTarget (.bound node) sol target) = fun _ => none :=
        funext fun sol => if_neg same
      rw [step, targetCells, if_neg same]
      exact assigns_none
  | var name => exact assigns_bindVar name target
  | literal => exact assigns_none
  | _ => exact assigns_some

/-- The assignments of a path between two nodes. -/
def pathCells (vp : VarPattern) (start target : NodeId) : Option Cells :=
  (nodeCells vp.subject start).bind fun cells =>
    (targetCells vp.object target).map fun more => cells ++ more

/-- What a map over a list gives when it gives nothing for what is missing at first. -/
theorem filterMap_bind {α β γ : Type} (first : Option α) (items : List γ)
    (next : α → γ → Option β) :
    items.filterMap (fun item => first.bind fun held => next held item) =
      match first with
      | none => []
      | some held => items.filterMap (next held) := by
  cases first with
  | none => simp
  | some held => rfl

/-- The solutions that extend one by the paths from a node. -/
theorem pathsFrom_eq {vp : VarPattern} {predicate : String} {hops : Nat} {start : NodeId}
    {reached : List NodeId}
    (done : snapshot.reachableFromHops ext start predicate hops = .ok reached) (sol : Solution) :
    snapshot.pathsFrom ext vp predicate hops sol start =
      .ok (reached.filterMap fun target =>
        (sol.bindNode vp.subject start).bind fun base => bindTarget vp.object base target) := by
  rw [filterMap_bind, pathsFrom]
  cases sol.bindNode vp.subject start with
  | none => rfl
  | some base => exact Except.bind_eq_ok.mpr ⟨reached, done, rfl⟩

/-- The subject of a relation. -/
def relationSubject : Triple → Option NodeId
  | .relation subject _ _ _ _ => some subject
  | _ => none

/-- Elements that are inserted one after another do not repeat. -/
theorem nodup_foldl_insertNew {α : Type} [DecidableEq α] (items : List α) {held : List α}
    (distinct : held.Nodup) : (items.foldl insertNew held).Nodup := by
  induction items generalizing held with
  | nil => exact distinct
  | cons item rest ih =>
    refine ih ?_
    unfold insertNew
    split_ifs with there
    · exact distinct
    · exact List.nodup_append.mpr ⟨distinct, List.nodup_singleton item, fun old inside new same =>
        by rw [List.mem_singleton.mp same]; exact fun equal => there (equal ▸ inside)⟩

/-- Paths start from the subjects of the relations of their predicate. -/
theorem pathStarts_spec (intact : snapshot.store.Intact ext) (predicate : String) :
    ∃ triples starts, snapshot.scanByPredicate ext predicate = .ok triples ∧
      snapshot.pathStarts ext predicate none = .ok starts ∧ starts.Nodup ∧
      ∀ triple ∈ triples, ∀ node, relationSubject triple = some node → node ∈ starts := by
  obtain ⟨triples, read⟩ := exists_evaluate intact ⟨none, some predicate, none⟩
  have folds (triples : List Triple) (seen : List NodeId) :
      triples.foldl (fun seen triple => match triple with
        | .relation subject _ _ _ _ => insertNew seen subject
        | _ => seen) seen = (triples.filterMap relationSubject).foldl insertNew seen := by
    induction triples generalizing seen with
    | nil => rfl
    | cons triple rest ih =>
      rw [List.foldl_cons, ih]
      cases triple <;> rfl
  refine ⟨triples, (triples.filterMap relationSubject).foldl insertNew [], read, ?_,
    nodup_foldl_insertNew _ List.nodup_nil, fun triple member node subject => ?_⟩
  · exact Except.bind_eq_ok.mpr ⟨triples, read, congrArg Except.ok (folds triples [])⟩
  · exact (DerivedFacts.mem_foldl_insertNew _ _ _).mpr
      (Or.inr (List.mem_filterMap.mpr ⟨triple, member, subject⟩))

/-- From a node that is the subject of no relation nothing is reached. -/
theorem reachable_nil (intact : snapshot.store.Intact ext) {start : NodeId} {predicate : String}
    (hops : Nat) {triples : List Triple} (all : snapshot.scanByPredicate ext predicate = .ok triples)
    (absent : ∀ triple ∈ triples, relationSubject triple ≠ some start) :
    snapshot.reachableFromHops ext start predicate hops = .ok [] := by
  cases hops with
  | zero => rfl
  | succ hops =>
    obtain ⟨own, read, narrow⟩ := snapshot.evaluate_spec intact ⟨some start, some predicate, none⟩
    obtain ⟨quads, listed, wide⟩ := snapshot.evaluate_spec intact ⟨none, some predicate, none⟩
    cases all.symm.trans listed
    -- A relation of the node would be one of the predicate.
    have free : ∀ triple ∈ own.map Prod.snd, relationSubject triple = none := by
      intro triple member
      obtain ⟨quad, inside, rfl⟩ := List.mem_map.mp member
      obtain ⟨answers, shows⟩ := (narrow.mem_iff quad.1).mp (List.mem_map.mpr ⟨quad, inside, rfl⟩)
      have broad : snapshot.Answers ⟨none, some predicate, none⟩ quad.1 :=
        ⟨⟨nofun, answers.wanted.predicate, nofun, rfl, answers.wanted.readable⟩, answers.lowest⟩
      obtain ⟨other, there, same⟩ := List.mem_map.mp ((wide.mem_iff quad.1).mpr ⟨broad, shows⟩)
      have reads := wide.read other there
      rw [same] at reads
      have equal : other.2 = quad.2 := read_unique reads (narrow.read quad inside)
      have subject := (parts_of_read intact.sound.keyed (narrow.read quad inside)).1
      rw [answers.wanted.subject start rfl] at subject
      have distinct := absent other.2 (List.mem_map.mpr ⟨other, there, rfl⟩)
      rw [equal] at distinct
      cases kind : quad.2 with
      | relation s p o edge window =>
        rw [kind] at subject distinct
        exact absurd (congrArg some subject) distinct
      | _ => rfl
    have still : ∀ triples : List Triple, (∀ triple ∈ triples, relationSubject triple = none) →
        ∀ state : List NodeId × List NodeId, triples.foldl (fun state triple => match triple with
          | .relation _ _ object _ _ =>
            if object ∈ state.1 then state else (state.1 ++ [object], state.2 ++ [object])
          | _ => state) state = state := by
      intro triples
      induction triples with
      | nil => exact fun _ _ => rfl
      | cons triple rest ih =>
        intro free state
        have first := free triple List.mem_cons_self
        rw [List.foldl_cons]
        cases triple with
        | relation => cases first
        | _ => exact ih (fun other member => free other (List.mem_cons_of_mem _ member)) state
    have visit : [start].foldlM (snapshot.visitNode ext predicate) ([], []) = .ok ([], []) := by
      rw [List.foldlM_cons]
      exact Except.bind_eq_ok.mpr ⟨_, Except.bind_eq_ok.mpr ⟨_, read,
        congrArg Except.ok (still _ free ([], []))⟩, rfl⟩
    exact Except.bind_eq_ok.mpr ⟨_, visit, rfl⟩

/-- What a variable that starts a path stands for is the start. -/
theorem pathCells_nil {vp : VarPattern} {name : String} (term : vp.subject = .var name)
    {row : Column → Option Cell} {held : Cell} (own : row (.var name) = some held) {start : NodeId}
    (apart : held ≠ .node start) (targets : List NodeId) :
    (targets.filterMap (pathCells vp start)).filterMap
      (fun record => Joins.assignAll Cell.repeats record row) = [] := by
  rw [List.filterMap_filterMap, List.filterMap_eq_nil_iff]
  intro target _
  by_contra extends_
  obtain ⟨next, done⟩ := Option.ne_none_iff_exists'.mp extends_
  obtain ⟨record, cells, made⟩ := Option.bind_eq_some_iff.mp done
  obtain ⟨subject, first, whole⟩ := Option.bind_eq_some_iff.mp cells
  obtain ⟨more, _, joined⟩ := Option.map_eq_some_iff.mp whole
  subst joined
  rw [term] at first
  cases first
  exact apart (Joins.agrees_of_assignAll made
    (List.mem_append_left _ (List.mem_singleton_self (Column.var name, Cell.node start))) own).1

/-- A pattern of paths matches as its table says. -/
theorem exists_table_path (intact : snapshot.store.Intact ext) {vp : VarPattern} {hops : Nat}
    (long : vp.maxHops = some hops) : ∃ table, snapshot.Tabulates ext registry vp table := by
  cases given : vp.predicate with
  | none =>
    refine ⟨0, fun sol _ => ⟨[], ?_, by simp, rfl⟩⟩
    unfold matchOne matchPath
    rw [long, given]
  | some predicate =>
    obtain ⟨triples, subjects, read, all, distinct, covers⟩ := pathStarts_spec intact predicate
    choose reached reaches using fun start =>
      exists_visitHops intact predicate hops [] [start]
    -- The nodes that a path can start from, by what is bound.
    let startsOf (node : Option NodeId) : List NodeId := node.elim subjects fun node => [node]
    have starting (node : Option NodeId) :
        snapshot.pathStarts ext predicate node = .ok (startsOf node) := by
      cases node with
      | none => exact all
      | some node => rfl
    refine ⟨Multiset.ofList ((startsOf (resolveTerm ext Solution.empty vp.subject)).flatMap fun start =>
      (reached start).filterMap (pathCells vp start)), fun sol apart => ?_⟩
    let gives (start : NodeId) : List (Column → Option Cell) :=
      ((reached start).filterMap (pathCells vp start)).filterMap
        fun record => Joins.assignAll Cell.repeats record sol.row
    let step (start target : NodeId) (sol : Solution) : Option Solution :=
      (sol.bindNode vp.subject start).bind fun base => bindTarget vp.object base target
    have assigns (start target : NodeId) : Assigns (step start target) (pathCells vp start target) :=
      (assigns_bindNode vp.subject start).bind (assigns_bindTarget vp.object target)
    have rows (starts : List NodeId) :
        (starts.flatMap fun start => (reached start).filterMap fun target => step start target sol).map
          Solution.row = starts.flatMap gives := by
      rw [List.map_flatMap]
      refine congrArg (fun next => starts.flatMap next) (funext fun start => ?_)
      have same : (fun target => (step start target sol).map Solution.row) = fun target =>
          (pathCells vp start target).bind
            fun record => Joins.assignAll Cell.repeats record sol.row :=
        funext fun target => (assigns start target sol apart).1
      rw [List.map_filterMap, same]
      exact (List.filterMap_filterMap).symm
    have table : (Multiset.ofList ((startsOf (resolveTerm ext Solution.empty vp.subject)).flatMap
        fun start => (reached start).filterMap (pathCells vp start))).filterMap
          (fun record => Joins.assignAll Cell.repeats record sol.row) =
        Multiset.ofList ((startsOf (resolveTerm ext Solution.empty vp.subject)).flatMap gives) := by
      rw [Multiset.filterMap_coe, List.filterMap_flatMap]
    rw [table]
    by_cases value : ∃ name, vp.subject = .var name ∧ (sol.values.lookup name).isSome
    · -- A value cannot start a path, and assigns differently from every node.
      obtain ⟨name, term, bound⟩ := value
      refine ⟨[], ?_, by simp, ?_⟩
      · unfold matchOne matchPath
        rw [long, given]
        simp only [term, bound, if_true]
      · obtain ⟨held, own⟩ := Option.isSome_iff_exists.mp bound
        have free : sol.nodes.lookup name = none := by
          by_contra some_
          have absent := apart name (Option.isSome_iff_ne_none.mpr some_)
          rw [own] at absent
          cases absent
        have mine : sol.row (.var name) = some (.value held.folded) := by
          simp [Solution.row, free, own]
        refine congrArg _ (List.flatMap_eq_nil_iff.mpr fun start _ => ?_).symm
        exact pathCells_nil term mine (fun same => by cases same) _
    · refine ⟨(startsOf (resolveTerm ext sol vp.subject)).flatMap fun start =>
        (reached start).filterMap fun target => step start target sol, ?_, ?_, ?_⟩
      · unfold matchOne matchPath
        rw [long, given]
        refine (if_neg fun bound => ?_).trans ?_
        · cases term : vp.subject with
          | var name =>
            rw [term] at bound
            exact value ⟨name, term, bound⟩
          | _ =>
            rw [term] at bound
            cases bound
        refine Except.bind_eq_ok.mpr ⟨_, starting _, Except.bind_eq_ok.mpr ⟨_,
          Except.mapM_eq_ok.mpr (List.forall₂_map_right_iff.mpr (List.forall₂_same.mpr
            fun start _ => pathsFrom_eq (reaches start) sol)), ?_⟩⟩
        rw [List.flatMap_def]
        rfl
      · intro next member
        obtain ⟨start, _, inside⟩ := List.mem_flatMap.mp member
        obtain ⟨target, _, extended⟩ := List.mem_filterMap.mp inside
        exact (assigns start target sol apart).2 next extended
      · rw [rows]
        refine Multiset.coe_eq_coe.mpr ?_
        cases before : resolveTerm ext Solution.empty vp.subject with
        | some node => rw [resolve_empty sol before]
        | none =>
          cases after : resolveTerm ext sol vp.subject with
          | none => rfl
          | some node =>
            obtain ⟨name, term⟩ : ∃ name, vp.subject = .var name := by
              cases term : vp.subject with
              | var name => exact ⟨name, rfl⟩
              | any | param => rw [term] at after; cases after
              | bound | literal => rw [term] at before; cases before
            rw [term] at after
            have own : sol.row (.var name) = some (.node node) := by
              rcases row_of_resolve after with own | ⟨held, own, _⟩
              · exact own
              · -- The variable stands for no value.
                refine absurd ⟨name, term, ?_⟩ value
                by_contra free
                simp only [Solution.row, Option.not_isSome_iff_eq_none.mp free] at own
                split at own <;> cases own
            refine Joins.flatMap_perm (List.nodup_singleton node) distinct
              (fun start member absent => ?_) fun start _ absent => ?_
            · cases List.mem_singleton.mp member
              have none := reachable_nil intact hops read
                fun triple inside subject => absent (covers triple inside node subject)
              have empty : reached node = [] := Except.ok.inj ((reaches node).symm.trans none)
              simp only [gives, empty, List.filterMap_nil]
            · exact pathCells_nil term own
                (fun same => absent (List.mem_singleton.mpr (Cell.node.inj same).symm)) _

/-- Every pattern matches as its table says, when every triple conforms and every graph is told. -/
theorem exists_table (intact : snapshot.store.Intact ext) (named : snapshot.store.GraphsNamed)
    (conforms : snapshot.Conforms ext registry) (told : snapshot.GraphsTold ext) (vp : VarPattern) :
    ∃ table, snapshot.Tabulates ext registry vp table := by
  cases flat : vp.maxHops with
  | some hops => exact exists_table_path intact flat
  | none =>
    by_cases whole : vp.graph = .union
    · exact exists_table_union intact conforms flat whole
    · exact exists_table_scoped intact named told flat whole

end Snapshot

end Polargraph
