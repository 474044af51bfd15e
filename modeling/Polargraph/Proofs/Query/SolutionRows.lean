import Polargraph.Lib.Joins
import Polargraph.Proofs.Query.Values

/-! Solutions as rows of what their variables stand for, and matches as records that extend them. -/

namespace Polargraph

/-- What a solution can have a binding for. -/
inductive Column where
  /-- A variable for a node or a value. -/
  | var (name : String)
  /-- A variable for a predicate. -/
  | pred (name : String)
deriving DecidableEq

/-- What a variable stands for, equal values folded together. -/
inductive Cell where
  /-- A node. -/
  | node (node : NodeId)
  /-- A value. -/
  | value (folded : Value)
  /-- A predicate. -/
  | pred (name : String)
deriving DecidableEq

/-- Whether a second match can agree with what a variable stands for. -/
def Cell.repeats : Cell → Bool
  | value folded => folded.equalsItself
  | _ => true

/-- The assignments of a match. -/
abbrev Cells := List (Column × Cell)

namespace Solution

/-- What the variables of a solution stand for. -/
def row (sol : Solution) : Column → Option Cell
  | .var name => match sol.nodes.lookup name with
    | some node => some (.node node)
    | none => (sol.values.lookup name).map fun value => .value value.folded
  | .pred name => (sol.preds.lookup name).map .pred

/-- No variable stands for both a node and a value. -/
def Apart (sol : Solution) : Prop :=
  ∀ name, (sol.nodes.lookup name).isSome → sol.values.lookup name = none

/-- The solution that binds nothing has no such variable. -/
theorem apart_empty : empty.Apart := fun _ => nofun

/-- A step extends solutions by some assignments, or by none at all. -/
def Assigns (step : Solution → Option Solution) (cells : Option Cells) : Prop :=
  ∀ sol : Solution, sol.Apart →
    (step sol).map row = cells.bind (fun cells => Joins.assignAll Cell.repeats cells sol.row) ∧
      ∀ next, step sol = some next → next.Apart

/-- A step that changes nothing assigns nothing. -/
theorem assigns_some : Assigns some (some []) := by
  intro sol apart
  refine ⟨rfl, fun next same => ?_⟩
  cases same
  exact apart

/-- A step that always fails has no assignments. -/
theorem assigns_none : Assigns (fun _ => none) none := fun _ _ => ⟨rfl, fun _ => nofun⟩

/-- Two steps in turn make the assignments of both. -/
theorem Assigns.bind {step next : Solution → Option Solution} {cells more : Option Cells}
    (first : Assigns step cells) (second : Assigns next more) :
    Assigns (fun sol => (step sol).bind next)
      (cells.bind fun cells => more.map fun more => cells ++ more) := by
  intro sol apart
  obtain ⟨extended, kept⟩ := first sol apart
  beta_reduce
  constructor
  · cases done : step sol with
    | none =>
      rw [done] at extended
      cases cells with
      | none => rfl
      | some own =>
        -- The first assignments fail already.
        have fails : Joins.assignAll Cell.repeats own sol.row = none := extended.symm
        cases more with
        | none => rfl
        | some other =>
          simp only [Option.bind_none, Option.map_none, Option.bind_some, Option.map_some,
            Joins.assignAll_append, fails]
    | some middle =>
      rw [done] at extended
      obtain ⟨own, rfl⟩ : ∃ own, cells = some own := by
        cases cells with
        | none => cases extended
        | some own => exact ⟨own, rfl⟩
      have made : Joins.assignAll Cell.repeats own sol.row = some middle.row := extended.symm
      have later := (second middle (kept middle done)).1
      rw [Option.bind_some, later]
      cases more with
      | none => rfl
      | some other =>
        simp only [Option.bind_some, Option.map_some, Joins.assignAll_append, made]
  · intro last done
    obtain ⟨middle, here, there⟩ := Option.bind_eq_some_iff.mp done
    exact (second middle (kept middle here)).2 last there

/-- A new entry does not hide those of other names. -/
private theorem lookup_cons_of_ne {α : Type} {name other : String} (apart : other ≠ name) (item : α)
    (entries : List (String × α)) :
    List.lookup other ((name, item) :: entries) = List.lookup other entries := by
  rw [List.lookup_cons, beq_eq_false_iff_ne.mpr apart]

/-- A variable that is bound to a node stands for it. -/
theorem row_bound {sol : Solution} {name : String} (node : NodeId)
    (free : sol.values.lookup name = none) :
    ({ sol with nodes := (name, node) :: sol.nodes } : Solution).row =
      Function.update sol.row (.var name) (some (.node node)) := by
  funext column
  cases column with
  | pred other => rfl
  | var other =>
    by_cases same : other = name
    · subst same
      simp [row]
    · have apart : (Column.var other) ≠ .var name := fun equal => same (Column.var.inj equal)
      rw [Function.update_of_ne apart]
      simp only [row, lookup_cons_of_ne same]

/-- Binding a variable to a node assigns it. -/
theorem assigns_bindVar (name : String) (node : NodeId) :
    Assigns (fun sol => sol.bindVar name node) (some [(.var name, .node node)]) := by
  intro sol apart
  rw [Option.bind_some, Joins.assignAll_single]
  beta_reduce
  unfold bindVar
  cases held : sol.values.lookup name with
  | some value =>
    -- A variable that stands for a value stands for no node.
    have free : sol.nodes.lookup name = none := by
      cases own : sol.nodes.lookup name with
      | none => rfl
      | some other =>
        have none := apart name (by rw [own]; rfl)
        rw [held] at none
        cases none
    have own : sol.row (.var name) = some (.value value.folded) := by
      simp [row, free, held]
    rw [Joins.assign_of_some own]
    simp
  | none =>
    simp only [Option.isSome_none, Bool.false_eq_true, if_false]
    cases own : sol.nodes.lookup name with
    | none =>
      have free : sol.row (.var name) = none := by simp [row, own, held]
      rw [Joins.assign_of_none free]
      refine ⟨congrArg some (row_bound node held), fun next done => ?_⟩
      cases done
      intro other bound
      by_cases same : other = name
      · rw [same]
        exact held
      · rw [lookup_cons_of_ne same] at bound
        exact apart other bound
    | some other =>
      have mine : sol.row (.var name) = some (.node other) := by simp [row, own]
      rw [Joins.assign_of_some mine]
      dsimp only
      by_cases same : other = node
      · subst same
        simp [Cell.repeats, apart]
      · simp [same]

/-- Binding a variable to a value assigns it. -/
theorem assigns_bindValue (name : String) {value : Value} (plain : bindable value = true) :
    Assigns (fun sol => sol.bindValue name value) (some [(.var name, .value value.folded)]) := by
  intro sol apart
  rw [Option.bind_some, Joins.assignAll_single]
  beta_reduce
  unfold bindValue
  cases own : sol.nodes.lookup name with
  | some node =>
    have mine : sol.row (.var name) = some (.node node) := by simp [row, own]
    rw [Joins.assign_of_some mine]
    simp
  | none =>
    simp only [Option.isSome_none, Bool.false_eq_true, if_false]
    cases held : sol.values.lookup name with
    | none =>
      have free : sol.row (.var name) = none := by simp [row, own, held]
      rw [Joins.assign_of_none free]
      constructor
      · refine congrArg some (funext fun column => ?_)
        cases column with
        | pred other => rfl
        | var other =>
          by_cases same : other = name
          · subst same
            simp [row, own]
          · have distinct : (Column.var other) ≠ .var name := fun equal => same (Column.var.inj equal)
            rw [Function.update_of_ne distinct]
            simp only [row, lookup_cons_of_ne same]
      · intro next done other bound
        cases done
        have distinct : other ≠ name := by
          rintro rfl
          rw [own] at bound
          cases bound
        rw [lookup_cons_of_ne distinct]
        exact apart other bound
    | some old =>
      have mine : sol.row (.var name) = some (.value old.folded) := by simp [row, own, held]
      rw [Joins.assign_of_some mine]
      dsimp only
      by_cases same : old.same value = true
      · obtain ⟨folds, itself⟩ := (Value.same_iff plain).mp same
        have repeats : Cell.repeats (.value value.folded) = true :=
          (Value.equalsItself_folded value).trans itself
        rw [if_pos same, if_pos ⟨congrArg Cell.value folds, repeats⟩]
        exact ⟨rfl, fun next done => Option.some.inj done ▸ apart⟩
      · rw [if_neg same, if_neg]
        · exact ⟨rfl, nofun⟩
        · rintro ⟨folds, repeats⟩
          have itself := (Value.equalsItself_folded value).symm.trans repeats
          exact same ((Value.same_iff plain).mpr ⟨Cell.value.inj folds, itself⟩)

/-- Binding a variable to a predicate assigns it. -/
theorem assigns_bindPred (name predicate : String) :
    Assigns (fun sol => sol.bindPred name predicate) (some [(.pred name, .pred predicate)]) := by
  intro sol apart
  rw [Option.bind_some, Joins.assignAll_single]
  beta_reduce
  unfold bindPred
  cases own : sol.preds.lookup name with
  | none =>
    have free : sol.row (.pred name) = none := by simp [row, own]
    rw [Joins.assign_of_none free]
    constructor
    · refine congrArg some (funext fun column => ?_)
      cases column with
      | var other => rfl
      | pred other =>
        by_cases same : other = name
        · subst same
          simp [row]
        · have distinct : (Column.pred other) ≠ .pred name := fun equal => same (Column.pred.inj equal)
          rw [Function.update_of_ne distinct]
          simp only [row, lookup_cons_of_ne same]
    · intro next done
      cases done
      exact apart
  | some held =>
    have mine : sol.row (.pred name) = some (.pred held) := by simp [row, own]
    rw [Joins.assign_of_some mine]
    dsimp only
    by_cases same : held = predicate
    · subst same
      simp [Cell.repeats, apart]
    · simp [same]

/-- The assignments of a node to a term. -/
def nodeCells : Term → NodeId → Option Cells
  | .literal _, _ => none
  | .var name, node => some [(.var name, .node node)]
  | _, _ => some []

/-- Binding a term to a node assigns it. -/
theorem assigns_bindNode (term : Term) (node : NodeId) :
    Assigns (fun sol => sol.bindNode term node) (nodeCells term node) := by
  cases term with
  | var name => exact assigns_bindVar name node
  | literal => exact assigns_none
  | _ => exact assigns_some

end Solution

section Matches

open Solution

/-- The assignments of the object of a match to a term. -/
def objectCells (triple : Triple) (object : Term) : Option Cells :=
  match object with
  | .any | .param _ | .bound _ => some []
  | .literal expected => match triple with
    | .property _ _ value _ => if value.same expected then some [] else none
    | _ => none
  | .var name => match triple with
    | .relation _ _ object _ _ => some [(.var name, .node object)]
    | .property _ _ value _ => if bindable value then some [(.var name, .value value.folded)] else none
    | _ => none

/-- The assignments of the edge of a match. -/
def edgeCells (triple : Triple) (edgeVar : Option String) : Cells :=
  match edgeVar, triple with
  | some name, .relation _ _ _ edge _ => [(.var name, .node ⟨edge.uuid⟩)]
  | _, _ => []

/-- The assignments of the predicate of a match. -/
def predCells (triple : Triple) (predicateVar : Option String) : Cells :=
  match predicateVar with
  | some name => [(.pred name, .pred triple.predicate)]
  | none => []

/-- The assignments of a match of a pattern. -/
def matchCells (vp : VarPattern) (triple : Triple) : Option Cells :=
  (nodeCells vp.subject triple.subject).bind fun subject =>
    ((objectCells triple vp.object).bind fun object =>
      some (object ++ (edgeCells triple vp.edgeVar ++ predCells triple vp.predicateVar))).map
        fun rest => subject ++ rest

/-- Extending solutions by a match makes its assignments. -/
theorem assigns_extendFull (vp : VarPattern) (triple : Triple) :
    Assigns (extendFull triple vp true) (matchCells vp triple) := by
  have object : Assigns (extendObject triple vp.object true) (objectCells triple vp.object) := by
    cases own : vp.object with
    | var name =>
      cases triple with
      | relation => exact assigns_bindVar name _
      | property subject predicate value window =>
        cases plain : bindable value with
        | true =>
          have step : extendObject (.property subject predicate value window) (.var name) true =
              fun sol => sol.bindValue name value := by
            funext sol
            simp [extendObject, plain]
          have cells : objectCells (.property subject predicate value window) (.var name) =
              some [(.var name, .value value.folded)] := by
            simp [objectCells, plain]
          rw [step, cells]
          exact assigns_bindValue name plain
        | false =>
          have step : extendObject (.property subject predicate value window) (.var name) true =
              fun _ => none := by
            funext sol
            simp [extendObject, plain]
          have cells : objectCells (.property subject predicate value window) (.var name) = none := by
            simp [objectCells, plain]
          rw [step, cells]
          exact assigns_none
      | _ => exact assigns_none
    | literal expected =>
      cases triple with
      | property subject predicate value window =>
        have step : extendObject (.property subject predicate value window) (.literal expected) true =
            fun sol => if value.same expected = true then some sol else none := rfl
        have cells : objectCells (.property subject predicate value window) (.literal expected) =
            if value.same expected = true then some [] else none := rfl
        rw [step, cells]
        split_ifs
        · exact assigns_some
        · exact assigns_none
      | _ => exact assigns_none
    | _ => exact assigns_some
  have edge : Assigns (extendEdge triple vp.edgeVar) (some (edgeCells triple vp.edgeVar)) := by
    cases vp.edgeVar with
    | none => exact assigns_some
    | some name =>
      cases triple with
      | relation => exact assigns_bindVar name _
      | _ => exact assigns_some
  have pred : Assigns (extendPred triple vp.predicateVar)
      (some (predCells triple vp.predicateVar)) := by
    cases vp.predicateVar with
    | none => exact assigns_some
    | some name => exact assigns_bindPred name _
  have last := edge.bind pred
  exact (assigns_bindNode vp.subject triple.subject).bind (object.bind last)

end Matches

end Polargraph
