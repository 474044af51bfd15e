import Polargraph.Proofs.Query.JoinTables

/-! The solutions of patterns do not depend on the order in which the patterns are joined. -/

namespace Polargraph

open Solution

/-- A pattern of one step over every graph. -/
def VarPattern.Flat (vp : VarPattern) : Prop := vp.maxHops = none ∧ vp.graph = .union

namespace Snapshot

variable {ext : External} {snapshot : Snapshot} {registry : Option EdgeTypeRegistry}

/-- Permuted patterns have the same solutions, each as often. -/
def OrderFree (ext : External) (snapshot : Snapshot) (registry : Option EdgeTypeRegistry) : Prop :=
  ∀ query others : List VarPattern, query.Perm others → ∃ left right,
    snapshot.executeQueryFull ext query registry = .ok left ∧
    snapshot.executeQueryFull ext others registry = .ok right ∧
    (left.map Solution.row).Perm (right.map Solution.row)

/-- Solutions that are each extended by the records of a table are extended by the table. -/
theorem extend_of_forall₂ {table : Multiset Cells} {solutions : List Solution}
    {found : List (List Solution)}
    (each : List.Forall₂ (fun sol part => Multiset.ofList (part.map Solution.row) =
      table.filterMap fun record => Joins.assignAll Cell.repeats record sol.row) solutions found) :
    Multiset.ofList (found.flatten.map Solution.row) =
      Joins.extend Cell.repeats table (Multiset.ofList (solutions.map Solution.row)) := by
  induction each with
  | nil => exact (Multiset.zero_bind _).symm
  | cons first rest ih =>
    rw [List.flatten_cons, List.map_append, ← Multiset.coe_add, first, ih]
    exact (Multiset.cons_bind _ _ _).symm

/-- Patterns are evaluated to the join of their tables. -/
theorem evaluateSolutions_join {table : VarPattern → Multiset Cells} (query : List VarPattern)
    (tables : ∀ vp, snapshot.Tabulates ext registry vp (table vp)) {solutions : List Solution}
    (apart : ∀ sol ∈ solutions, sol.Apart) : ∃ found,
      snapshot.evaluateSolutions ext true (snapshot.evaluateWithRegistry ext registry) query
        solutions = .ok found ∧
      Multiset.ofList (found.map Solution.row) =
        Joins.join Cell.repeats (query.map table) (Multiset.ofList (solutions.map Solution.row)) := by
  -- The induction is on the patterns: each extends the rows of the solutions so far.
  induction query generalizing solutions with
  | nil =>
    refine ⟨solutions, ?_, rfl⟩
    cases solutions <;> rfl
  | cons vp rest ih =>
    cases solutions with
    | nil => exact ⟨[], rfl, (Joins.join_zero _).symm⟩
    | cons first others =>
      choose step matched kept rows using fun (sol : Solution) (own : sol.Apart) => tables vp sol own
      let found := (first :: others).attach.map fun sol => step sol.1 (apart sol.1 sol.2)
      have each {holds : Solution → List Solution → Prop}
          (own : ∀ sol apart, holds sol (step sol apart)) :
          List.Forall₂ holds (first :: others) found := by
        have along : List.Forall₂ holds ((first :: others).attach.map Subtype.val) found :=
          List.forall₂_map_left_iff.mpr (List.forall₂_map_right_iff.mpr
            (List.forall₂_same.mpr fun sol _ => own sol.1 (apart sol.1 sol.2)))
        rwa [List.attach_map_subtype_val] at along
      have still : ∀ next ∈ found.flatten, next.Apart := by
        intro next member
        obtain ⟨part, inside, here⟩ := List.mem_flatten.mp member
        obtain ⟨sol, _, rfl⟩ := List.mem_map.mp inside
        exact kept sol.1 (apart sol.1 sol.2) next here
      obtain ⟨last, evaluated, same⟩ := ih still
      refine ⟨last, Except.bind_eq_ok.mpr ⟨found, Except.mapM_eq_ok.mpr (each matched), evaluated⟩, ?_⟩
      rw [same, extend_of_forall₂ (each rows)]
      rfl

/-- The order of the patterns does not matter when every triple conforms and every graph is told. -/
theorem orderFree_of_conforms (intact : snapshot.store.Intact ext)
    (named : snapshot.store.GraphsNamed) (conforms : snapshot.Conforms ext registry)
    (told : snapshot.GraphsTold ext) : snapshot.OrderFree ext registry := by
  choose table tables using exists_table intact named conforms told
  intro query others perm
  have start : ∀ sol ∈ [Solution.empty], sol.Apart := by
    intro sol member
    rw [List.mem_singleton.mp member]
    exact apart_empty
  obtain ⟨left, done, rows⟩ := evaluateSolutions_join query tables start
  obtain ⟨right, done', rows'⟩ := evaluateSolutions_join others tables start
  refine ⟨left, right, done, done', Multiset.coe_eq_coe.mp ?_⟩
  rw [rows, rows', Joins.join_perm (perm.map table)]

/-- A pattern over every graph extends a solution by a triple that it evaluates to. -/
def Extended (ext : External) (snapshot : Snapshot) (registry : Option EdgeTypeRegistry)
    (vp : VarPattern) (sol next : Solution) : Prop :=
  ∃ ids triple, snapshot.Answers (substitute ext vp sol) ids ∧
    snapshot.Admitted ext registry (substitute ext vp sol) ∧
    snapshot.store.Shows snapshot.point.ts snapshot.vt ids ∧
    snapshot.store.ReadFrom ext snapshot.point.ts snapshot.vt ids triple ∧
    extendFull triple vp true sol = some next

/-- A pattern of one step over every graph finds what it extends a solution by. -/
theorem matchOne_flat_spec (intact : snapshot.store.Intact ext) {vp : VarPattern}
    (flat : vp.Flat) (sol : Solution) : ∃ found,
      snapshot.matchOne ext true (snapshot.evaluateWithRegistry ext registry) vp sol = .ok found ∧
      ∀ next, next ∈ found ↔ snapshot.Extended ext registry vp sol next := by
  obtain ⟨quads, done, result⟩ :=
    @evaluateWithRegistry_spec ext snapshot registry intact (substitute ext vp sol)
  refine ⟨(quads.map Prod.snd).filterMap fun triple => extendFull triple vp true sol, ?_,
    fun next => ?_⟩
  · unfold matchOne matchPattern
    rw [flat.1, flat.2]
    exact Except.bind_eq_ok.mpr ⟨_, done, rfl⟩
  · rw [List.mem_filterMap]
    constructor
    · intro ⟨triple, member, extended⟩
      obtain ⟨quad, inside, rfl⟩ := List.mem_map.mp member
      obtain ⟨⟨answers, admitted⟩, shows⟩ :=
        (result.mem_iff quad.1).mp (List.mem_map.mpr ⟨quad, inside, rfl⟩)
      exact ⟨quad.1, quad.2, answers, admitted, shows, result.read quad inside, extended⟩
    · intro ⟨ids, triple, answers, admitted, shows, read, extended⟩
      obtain ⟨quad, inside, rfl⟩ := List.mem_map.mp
        ((result.mem_iff ids).mpr ⟨⟨answers, admitted⟩, shows⟩)
      have same : quad.2 = triple := read_unique (result.read quad inside) read
      exact ⟨triple, List.mem_map.mpr ⟨quad, inside, same⟩, extended⟩

/-- When order does not matter, what two patterns extend in turn is found in the other order too. -/
theorem OrderFree.swap (free : snapshot.OrderFree ext registry)
    (intact : snapshot.store.Intact ext) {first second : VarPattern}
    (flat : first.Flat) (flat' : second.Flat) {middle last : Solution}
    (one : snapshot.Extended ext registry first Solution.empty middle)
    (two : snapshot.Extended ext registry second middle last) : ∃ other final,
      snapshot.Extended ext registry second Solution.empty other ∧
      snapshot.Extended ext registry first other final ∧ final.row = last.row := by
  obtain ⟨left, right, done, done', perm⟩ := free [first, second] [second, first] (.swap _ _ _)
  have found (query : List VarPattern) (all : ∀ vp ∈ query, vp.Flat) :
      ∃ found, snapshot.executeQueryFull ext query registry = .ok found ∧
        ∀ last, last ∈ found ↔ Solves (snapshot.Extended ext registry) query Solution.empty last := by
    obtain ⟨found, done, members⟩ := @evaluateSolutions_spec ext snapshot true
      (snapshot.evaluateWithRegistry ext registry) (fun _ => True)
      (snapshot.Extended ext registry) query
      (fun vp member sol _ => matchOne_flat_spec intact (all vp member) sol)
      (fun _ _ _ _ _ _ => trivial) [Solution.empty] (fun _ _ => trivial)
    exact ⟨found, done, fun last => by simp [members]⟩
  obtain ⟨left', again, members⟩ := found [first, second] (by simp [flat, flat'])
  obtain ⟨right', again', members'⟩ := found [second, first] (by simp [flat, flat'])
  cases done.symm.trans again
  cases done'.symm.trans again'
  have inside : last.row ∈ left.map Solution.row :=
    List.mem_map.mpr ⟨last, (members last).mpr ⟨middle, one, last, two, rfl⟩, rfl⟩
  obtain ⟨final, there, same⟩ := List.mem_map.mp (perm.mem_iff.mp inside)
  obtain ⟨other, begun, _, ended, rfl⟩ := (members' final).mp there
  exact ⟨other, _, begun, ended, same⟩

/-- A pattern extends solutions by the assignments of a match. -/
theorem Extended.cells {vp : VarPattern} {sol next : Solution}
    (extended : snapshot.Extended ext registry vp sol next) (apart : sol.Apart) :
    next.Apart ∧ ∃ triple cells, matchCells vp triple = some cells ∧
      Joins.assignAll Cell.repeats cells sol.row = some next.row := by
  obtain ⟨_, triple, _, _, _, _, made⟩ := extended
  obtain ⟨same, kept⟩ := assigns_extendFull vp triple sol apart
  rw [made, Option.map_some] at same
  obtain ⟨cells, own, done⟩ := Option.bind_eq_some_iff.mp same.symm
  exact ⟨kept next made, triple, cells, own, done⟩

/-- What a first pattern binds is what the solution of both has. -/
theorem row_of_extended {first second : VarPattern} {middle last : Solution} {column : Column}
    {cell : Cell} (one : snapshot.Extended ext registry first Solution.empty middle)
    (two : snapshot.Extended ext registry second middle last)
    (binds : ∀ triple cells, matchCells first triple = some cells → ∃ cell, (column, cell) ∈ cells)
    (held : last.row column = some cell) : middle.row column = some cell := by
  obtain ⟨apart, triple, cells, own, done⟩ := one.cells apart_empty
  obtain ⟨_, _, _, _, later⟩ := two.cells apart
  obtain ⟨bound, member⟩ := binds triple cells own
  have here := Joins.assigned_of_assignAll done member
  rw [here, ← held]
  exact (Joins.kept_of_assignAll later here).symm

/-- A variable that stands for a node resolves to it. -/
theorem resolve_of_node {sol : Solution} {name : String} {node : NodeId}
    (held : sol.row (.var name) = some (.node node)) :
    resolveTerm ext sol (.var name) = some node := by
  unfold Solution.row at held
  unfold resolveTerm
  cases own : sol.nodes.lookup name with
  | some other =>
    simp only [own] at held ⊢
    exact congrArg some (Cell.node.inj (Option.some.inj held))
  | none =>
    simp only [own] at held
    obtain ⟨_, _, same⟩ := Option.map_eq_some_iff.mp held
    cases same

/-- A variable that stands for a value resolves to the slot of a value that folds alike. -/
theorem resolve_of_value {sol : Solution} {name : String} {folded : Value}
    (held : sol.row (.var name) = some (.value folded)) : ∃ value : Value, value.folded = folded ∧
      resolveTerm ext sol (.var name) = some (valueObject ext value) := by
  unfold Solution.row at held
  unfold resolveTerm
  cases own : sol.nodes.lookup name with
  | some other =>
    simp only [own] at held
    cases Option.some.inj held
  | none =>
    simp only [own] at held
    obtain ⟨value, there, same⟩ := Option.map_eq_some_iff.mp held
    exact ⟨value, Cell.value.inj same, by simp only [own, there, Option.map_some]⟩

/-- A pattern of one step over every graph, by its slots. -/
def flatPattern (subject : Term) (predicate predicateVar : Option String) (object : Term) :
    VarPattern := ⟨subject, predicate, predicateVar, object, none, none, .union⟩

section

variable (free : snapshot.OrderFree ext registry) (intact : snapshot.store.Intact ext) {name : String}
  {definition : EdgeTypeDef} {ids : QuadIds} {triple : Triple}
  (typed : snapshot.typeOf registry name = some definition)
  (answers : snapshot.Answers ⟨none, some name, none⟩ ids)
  (shows : snapshot.store.Shows snapshot.point.ts snapshot.vt ids)
  (read : snapshot.store.ReadFrom ext snapshot.point.ts snapshot.vt ids triple)
include free intact typed answers shows read

/-- When order does not matter, the subjects of a predicate have the type that it requires. -/
theorem OrderFree.domain : snapshot.Typed ext definition.domain (some ids.s) := by
  have subject : triple.subject = ids.s := (parts_of_read intact.sound.keyed read).1
  -- The predicate is asked for before its subject is bound, and then after it is.
  let asked := flatPattern (.var "x") (some name) none .any
  let all := flatPattern (.var "x") none none .any
  let bound : Solution := ⟨[("x", ids.s)], [], []⟩
  have one : snapshot.Extended ext registry asked Solution.empty bound := by
    refine ⟨ids, triple, answers, fun _ definition _ _ => ?_, shows, read, ?_⟩
    · exact ⟨by cases definition.domain <;> rfl, by cases definition.range <;> rfl⟩
    · have made : extendFull triple asked true Solution.empty =
          some ⟨[("x", triple.subject)], [], []⟩ := rfl
      rw [made, subject]
  have two : snapshot.Extended ext registry all bound bound := by
    refine ⟨ids, triple, ?_, fun _ _ none_ => (by cases none_), shows, read, ?_⟩
    · exact ⟨⟨fun node same => Option.some.inj same, fun _ none_ => (by cases none_),
      fun _ none_ => (by cases none_), rfl, answers.wanted.readable⟩,
        answers.lowest⟩
    · simp [extendFull, extendObject, extendEdge, extendPred, all, flatPattern, Solution.bindNode,
        Solution.bindVar, bound, subject]
  obtain ⟨other, final, first, second, same⟩ := free.swap intact ⟨rfl, rfl⟩ ⟨rfl, rfl⟩ one two
  have held : other.row (.var "x") = some (.node ids.s) := by
    refine row_of_extended first second (fun triple cells own => ?_) (by rw [same]; rfl)
    obtain ⟨_, start, whole⟩ := Option.bind_eq_some_iff.mp own
    cases start
    obtain ⟨_, _, rfl⟩ := Option.map_eq_some_iff.mp whole
    exact ⟨_, List.mem_append_left _ (List.mem_singleton_self _)⟩
  obtain ⟨_, _, _, admitted, _⟩ := second
  have domain := (admitted name definition rfl typed).1
  have resolved : (substitute ext asked other).subject = some ids.s := resolve_of_node held
  rwa [resolved] at domain

/-- When order does not matter, the objects of a predicate have the type that it requires. -/
theorem OrderFree.range (shared : shareable triple = true) :
    snapshot.Typed ext definition.range (some ids.o) := by
  let asked := flatPattern .any (some name) none (.var "x")
  let all := flatPattern .any none none (.var "x")
  have binds (triple : Triple) (cells : Cells) (own : matchCells all triple = some cells) :
      ∃ cell, (Column.var "x", cell) ∈ cells := by
    obtain ⟨_, _, whole⟩ := Option.bind_eq_some_iff.mp own
    obtain ⟨_, others, rfl⟩ := Option.map_eq_some_iff.mp whole
    obtain ⟨object, second, last⟩ := Option.bind_eq_some_iff.mp others
    cases last
    suffices there : ∃ cell, (Column.var "x", cell) ∈ object by
      obtain ⟨cell, member⟩ := there
      exact ⟨cell, List.mem_append_right _ (List.mem_append_left _ member)⟩
    cases triple with
    | relation =>
      cases second
      exact ⟨_, List.mem_singleton_self _⟩
    | property =>
      simp only [all, flatPattern, objectCells] at second
      split_ifs at second
      cases second
      exact ⟨_, List.mem_singleton_self _⟩
    | _ => cases second
  -- Whatever the object is bound to, the variable resolves to its slot.
  obtain ⟨bound, cell, made, again, row, resolved⟩ : ∃ (bound : Solution) (cell : Cell),
      extendFull triple asked true Solution.empty = some bound ∧
      extendFull triple all true bound = some bound ∧ bound.row (.var "x") = some cell ∧
      ∀ sol : Solution, sol.row (.var "x") = some cell →
        resolveTerm ext sol (.var "x") = some ids.o := by
    obtain ⟨_, ⟨edge, window, kind⟩ | ⟨value, window, kind, slot⟩⟩ :=
      parts_of_read intact.sound.keyed read
    · refine ⟨⟨[("x", ids.o)], [], []⟩, .node ids.o, ?_, ?_, rfl, fun sol held => resolve_of_node held⟩
      · rw [kind]
        rfl
      · rw [kind]
        simp [extendFull, extendObject, extendEdge, extendPred, all, flatPattern,
          Solution.bindNode, Solution.bindVar]
    · rw [kind, shareable, Bool.and_eq_true] at shared
      obtain ⟨plain, itself⟩ := shared
      have same : value.same value = true := (Value.same_iff plain).mpr ⟨rfl, itself⟩
      refine ⟨⟨[], [], [("x", value)]⟩, .value value.folded, ?_, ?_, rfl, fun sol held => ?_⟩
      · rw [kind]
        simp [extendFull, extendObject, extendEdge, extendPred, asked, flatPattern, plain,
          Solution.bindNode, Solution.bindValue, Solution.empty]
      · rw [kind]
        simp [extendFull, extendObject, extendEdge, extendPred, all, flatPattern, plain,
          Solution.bindNode, Solution.bindValue, same]
      · obtain ⟨other, folds, resolved⟩ := @resolve_of_value ext sol "x" value.folded held
        rw [resolved, ← slot, Value.valueObject_of_same ext plain
          ((Value.same_iff plain).mpr ⟨folds, itself⟩)]
  have one : snapshot.Extended ext registry asked Solution.empty bound := by
    refine ⟨ids, triple, answers, fun _ definition _ _ => ?_, shows, read, made⟩
    exact ⟨by cases definition.domain <;> rfl, by cases definition.range <;> rfl⟩
  have two : snapshot.Extended ext registry all bound bound := by
    refine ⟨ids, triple, ?_, fun _ _ none_ => (by cases none_), shows, read, again⟩
    refine ⟨⟨fun _ none_ => (by cases none_), fun _ none_ => (by cases none_),
      fun node same => ?_, rfl, answers.wanted.readable⟩, answers.lowest⟩
    have here : some ids.o = some node := (resolved bound row).symm.trans same
    exact Option.some.inj here
  obtain ⟨other, final, first, second, same⟩ := free.swap intact ⟨rfl, rfl⟩ ⟨rfl, rfl⟩ one two
  have held : other.row (.var "x") = some cell :=
    row_of_extended first second binds (by rw [same]; exact row)
  obtain ⟨_, _, _, admitted, _⟩ := second
  have range := (admitted name definition rfl typed).2
  have slot : (substitute ext asked other).object = some ids.o := resolved other held
  rwa [slot] at range

/-- The objects of a predicate have the type that its stored name requires. -/
theorem OrderFree.named (spelled : triple.predicate = name) :
    snapshot.Typed ext definition.range (some ids.o) := by
  -- The object is a constant, and the predicate is bound before or after it is looked for.
  let asked := flatPattern .any none (some "x") (.bound ids.o)
  let all := flatPattern .any none (some "x") .any
  let bound : Solution := ⟨[], [("x", name)], []⟩
  have one : snapshot.Extended ext registry asked Solution.empty bound := by
    refine ⟨ids, triple, ?_, fun _ _ none_ => (by cases none_), shows, read, ?_⟩
    · exact ⟨⟨fun _ none_ => (by cases none_), fun _ none_ => (by cases none_),
      fun node same => Option.some.inj same, rfl, answers.wanted.readable⟩,
        answers.lowest⟩
    · have made : extendFull triple asked true Solution.empty =
          some ⟨[], [("x", triple.predicate)], []⟩ := rfl
      rw [made, spelled]
  have two : snapshot.Extended ext registry all bound bound := by
    refine ⟨ids, triple, answers, fun _ definition _ _ => ?_, shows, read, ?_⟩
    · exact ⟨by cases definition.domain <;> rfl, by cases definition.range <;> rfl⟩
    · simp [extendFull, extendObject, extendEdge, extendPred, all, flatPattern, Solution.bindNode,
        Solution.bindPred, bound, spelled]
  obtain ⟨other, final, first, second, same⟩ := free.swap intact ⟨rfl, rfl⟩ ⟨rfl, rfl⟩ one two
  have held : other.row (.pred "x") = some (.pred name) := by
    refine row_of_extended first second (fun triple cells own => ?_) (by rw [same]; rfl)
    cases own
    exact ⟨_, List.mem_singleton_self _⟩
  have predicate : (substitute ext asked other).predicate = some name := by
    obtain ⟨text, there, spelled⟩ := Option.map_eq_some_iff.mp held
    rw [Cell.pred.inj spelled] at there
    exact there
  obtain ⟨_, _, _, admitted, _⟩ := second
  exact (admitted name definition predicate typed).2

end

/-- When order does not matter, every triple conforms. -/
theorem OrderFree.conforms (free : snapshot.OrderFree ext registry)
    (intact : snapshot.store.Intact ext) : snapshot.Conforms ext registry := by
  intro name definition ids triple typed answers shows read
  refine ⟨free.domain intact typed answers shows read, fun checked => ?_⟩
  rcases checked with shared | spelled
  · exact free.range intact typed answers shows read shared
  · exact free.named intact typed answers shows read spelled

end Snapshot

end Polargraph
