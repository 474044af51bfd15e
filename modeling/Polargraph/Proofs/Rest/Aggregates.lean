import Mathlib.Data.Fintype.EquivFin
import Polargraph.Lib.CheckedSum
import Polargraph.Proofs.Rest.ResultOrder

/-! When the aggregates of a query do not depend on the order of the rows. -/

namespace Polargraph

open Comparator

namespace SparqlBindings

/-- A variable that was just bound is looked up. -/
theorem lookup_insert_self (row : SparqlBindings) (var : String) (value : SparqlValue) :
    (row.insert var value).lookup var = some value := by
  simp [SparqlBindings.insert]

/-- Binding a variable leaves the others as they are. -/
theorem lookup_insert_ne (row : SparqlBindings) {var other : String} (value : SparqlValue)
    (apart : other ≠ var) : (row.insert var value).lookup other = row.lookup other := by
  have skipped : (row.insert var value).lookup other =
      (row.filter fun bound => decide (bound.1 ≠ var)).lookup other := by
    rw [SparqlBindings.insert, List.lookup_cons, beq_false_of_ne apart]
  rw [skipped]
  clear skipped
  induction row with
  | nil => rfl
  | cons head rest ih =>
    obtain ⟨name, held⟩ := head
    rw [List.filter_cons]
    split_ifs with kept
    · rw [List.lookup_cons, List.lookup_cons, ih]
    · -- What is dropped has the other name.
      have same : name = var := by simpa using kept
      have differ : (other == name) = false := beq_false_of_ne (by rw [same]; exact apart)
      rw [ih, List.lookup_cons, differ]

end SparqlBindings

section Library

variable (ext : External) (arith : FloatArithmetic) (lib : TextLibrary) (names : IriNames)

/-- The key of the group a row is in: the terms of its grouping variables. -/
def groupKey (groupBy : List String) (row : SparqlBindings) : List String :=
  groupBy.map fun var => ((row.lookup var).map (SparqlValue.termKey ext)).getD ""

/-- The rows that are in the group of a row. -/
def groupRows (groupBy : List String) (rows : List SparqlBindings) (row : SparqlBindings) :
    List SparqlBindings :=
  rows.filter fun other => decide (groupKey ext groupBy other = groupKey ext groupBy row)

/-- The values of the grouping variables of a group. -/
def sharedRow (groupBy : List String) (members : List SparqlBindings) : SparqlBindings :=
  match members.head? with
  | some first => groupBy.foldl (fun row var => match first.lookup var with
    | some value => row.insert var value
    | none => row) []
  | none => []

/-- The result row of a group. -/
def resultRow (groupBy : List String) (aggregates : List SparqlAggregateSpec)
    (members : List SparqlBindings) : SparqlBindings :=
  aggregates.foldl (fun row spec =>
    match computeAggregate ext arith lib names members spec.func with
    | some value => row.insert spec.aliasName value
    | none => row) (sharedRow groupBy members)

end Library

variable {ext : External} {arith : FloatArithmetic} {lib : TextLibrary} {names : IriNames}
  {groupBy : List String} {rows : List SparqlBindings}

/-- A row is in its own group. -/
theorem mem_groupRows {row : SparqlBindings} (member : row ∈ rows) :
    row ∈ groupRows ext groupBy rows row :=
  List.mem_filter.mpr ⟨member, decide_eq_true rfl⟩

/-- The result rows are those of the groups that the filter keeps. -/
theorem mem_executeSparqlAggregations {aggregates : List SparqlAggregateSpec}
    {having : Option SparqlFilter} {out : SparqlBindings}
    (grouped : ¬ (aggregates = [] ∧ groupBy = [])) :
    out ∈ executeSparqlAggregations ext arith lib rows groupBy aggregates having names ↔
      (∃ row ∈ rows,
        out = resultRow ext arith lib names groupBy aggregates (groupRows ext groupBy rows row)) ∧
      having.all (applySparqlFilterNamed ext arith lib names out) = true := by
  have plain : (aggregates.isEmpty && groupBy.isEmpty) = false := by
    simpa [Bool.and_eq_true, List.isEmpty_iff] using grouped
  rw [executeSparqlAggregations, plain]
  simp only [Bool.false_eq_true, if_false, List.mem_filter]
  refine and_congr_left' ?_
  -- The groups are collected under distinct keys, each with its rows in order.
  have absorbed : ∀ items held : List SparqlBindings,
      items.foldl (fun held row => held ++ [row]) held = held ++ items := by
    intro items
    induction items with
    | nil => simp
    | cons item rest ih => intro held; simp [ih]
  have distinct := @Latest.nodup_collect _ _ _ _ (groupKey ext groupBy) ([] : List SparqlBindings)
    (fun row held => held ++ [row]) rows [] List.nodup_nil
  have found := fun key => @Latest.lookup_collect _ _ _ _ (groupKey ext groupBy)
    ([] : List SparqlBindings) (fun row held => held ++ [row]) key rows []
  simp only [absorbed, List.nil_append, Latest.lookup, Option.getD_none] at found
  constructor
  · intro member
    obtain ⟨⟨key, members⟩, listed, rfl⟩ := List.mem_map.mp member
    have stored := (Latest.mem_iff_lookup distinct).mp listed
    rw [found key] at stored
    split_ifs at stored with empty
    cases stored
    obtain ⟨row, inside⟩ := List.exists_mem_of_ne_nil _ empty
    obtain ⟨own, same⟩ := List.mem_filter.mp inside
    refine ⟨row, own, ?_⟩
    rw [groupRows, of_decide_eq_true same]
    rfl
  · rintro ⟨row, own, rfl⟩
    have stored := found (groupKey ext groupBy row)
    have some := List.ne_nil_of_mem (@mem_groupRows ext groupBy rows row own)
    rw [groupRows] at some
    rw [if_neg some] at stored
    exact List.mem_map.mpr ⟨_, (Latest.mem_iff_lookup distinct).mpr stored, rfl⟩

/-- The values of the grouping variables are those of the first row. -/
theorem lookup_sharedRow (first : SparqlBindings) (rest : List SparqlBindings) (var : String) :
    (sharedRow groupBy (first :: rest)).lookup var =
      if var ∈ groupBy then first.lookup var else none := by
  have general : ∀ (vars : List String) (held : SparqlBindings),
      (vars.foldl (fun row var => match first.lookup var with
        | some value => row.insert var value
        | none => row) held).lookup var =
        if var ∈ vars then (first.lookup var).or (held.lookup var) else held.lookup var := by
    intro vars
    induction vars with
    | nil => intro held; simp
    | cons name others ih =>
      intro held
      rw [List.foldl_cons, ih]
      by_cases here : var = name
      · rw [here]
        cases bound : first.lookup name with
        | none => simp
        | some value => simp [SparqlBindings.lookup_insert_self]
      · have kept : (match first.lookup name with
            | some value => held.insert name value
            | none => held).lookup var = held.lookup var := by
          cases first.lookup name with
          | none => rfl
          | some value => exact held.lookup_insert_ne value here
        rw [kept]
        simp [here]
  rw [sharedRow, List.head?_cons]
  dsimp only
  rw [general]
  simp

/-- The values of a group's result row, when there is one aggregate under a name of its own. -/
theorem lookup_resultRow {first : SparqlBindings} {rest : List SparqlBindings}
    {spec : SparqlAggregateSpec} (own : spec.aliasName ∉ groupBy) (var : String) :
    (resultRow ext arith lib names groupBy [spec] (first :: rest)).lookup var =
      if var = spec.aliasName then computeAggregate ext arith lib names (first :: rest) spec.func
      else if var ∈ groupBy then first.lookup var else none := by
  rw [resultRow, List.foldl_cons, List.foldl_nil]
  by_cases here : var = spec.aliasName
  · rw [if_pos here, here]
    cases computeAggregate ext arith lib names (first :: rest) spec.func with
    | none => rw [lookup_sharedRow, if_neg own]
    | some value => exact SparqlBindings.lookup_insert_self _ _ _
  · rw [if_neg here, ← lookup_sharedRow first rest]
    cases computeAggregate ext arith lib names (first :: rest) spec.func with
    | none => rfl
    | some value => exact SparqlBindings.lookup_insert_ne _ _ here

/-- A number that is an integer. -/
def SparqlValue.Num.toInt : SparqlValue.Num → Option Int
  | .int word => some (Value.signed word)
  | .dbl _ => none

section Library

variable (ext : External) (arith : FloatArithmetic) (lib : TextLibrary) (names : IriNames)

/-- The number of a value that is an integer. -/
def intOf (value : SparqlValue) : Option Int := (value.numeric lib).bind SparqlValue.Num.toInt

/-- The integers a variable is bound to in some rows. -/
def intsOf (members : List SparqlBindings) (var : String) : List Int :=
  members.filterMap fun row => (row.lookup var).bind (intOf lib)

/-- Every value of a variable is an integer. -/
def AllInts (members : List SparqlBindings) (var : String) : Prop :=
  ∀ value ∈ boundValues members var, (intOf lib value).isSome

/-- A number fits in a signed 64-bit number. -/
def FitsI64 (number : Int) : Prop := -2 ^ 63 ≤ number ∧ number < 2 ^ 63

/-- The sum of integers is exact whenever it fits. -/
def SumExact (members : List SparqlBindings) (var : String) : Prop :=
  AllInts lib members var → FitsI64 (intsOf lib members var).sum →
    computeAggregate ext arith lib names members (.sum var) =
      some (.literalInt (UInt64.ofInt (intsOf lib members var).sum))

/-- What an aggregate gives for a group is settled without regard to the order of its rows. -/
def Settled (members : List SparqlBindings) : SparqlAggFunc → Prop
  -- Neither the positive numbers nor the others leave the range of a sum that fits.
  | .sum var => AllInts lib members var → FitsI64 (intsOf lib members var).sum →
    FitsI64 (CheckedSum.positives (intsOf lib members var)) ∧
      FitsI64 (CheckedSum.negatives (intsOf lib members var))
  -- One value is below all that differ from it.
  | .min var => boundValues members var = [] ∨ ∃ held ∈ boundValues members var,
    ∀ value ∈ boundValues members var,
      value = held ∨ SparqlValue.orderCmp ext arith lib names (some held) (some value) = .lt
  -- One value is above all that differ from it.
  | .max var => boundValues members var = [] ∨ ∃ held ∈ boundValues members var,
    ∀ value ∈ boundValues members var,
      value = held ∨ SparqlValue.orderCmp ext arith lib names (some value) (some held) = .lt
  | _ => True

/-- Rows of a group have the same values for the grouping variables. -/
def Agrees (groupBy : List String) (members : List SparqlBindings) : Prop :=
  ∀ var ∈ groupBy, ∀ first ∈ members, ∀ second ∈ members, first.lookup var = second.lookup var

/-- Aggregates over some functions give the same rows in every order, and exact sums. -/
structure FreeOfOrder (groupBy : List String) (rows : List SparqlBindings)
    (funcs : SparqlAggFunc → Prop) : Prop where
  /-- The set of result rows is the same. -/
  same : ∀ rows', rows.Perm rows' → ∀ (aggregates : List SparqlAggregateSpec)
    (having : Option SparqlFilter), (∀ spec ∈ aggregates, funcs spec.func) → ∀ out,
      out ∈ executeSparqlAggregations ext arith lib rows groupBy aggregates having names ↔
        out ∈ executeSparqlAggregations ext arith lib rows' groupBy aggregates having names
  /-- Sums of integers are exact. -/
  exact : ∀ rows', rows.Perm rows' → ∀ row ∈ rows', ∀ var, funcs (.sum var) →
    SumExact ext arith lib names (groupRows ext groupBy rows' row) var

end Library

/-- Adding doubles does not depend on their order. -/
def FloatArithmetic.AddsExactly (arith : FloatArithmetic) : Prop :=
  ∀ first second : List UInt64, first.Perm second → arith.sum first = arith.sum second

/-- Whether a function is neither a sample nor a concatenation. -/
def SparqlAggFunc.isPlain : SparqlAggFunc → Bool
  | .sample _ | .groupConcat _ _ => false
  | _ => true

/-- Values of which one is no number have no list of numbers. -/
theorem mapM_numeric_none {values : List SparqlValue} {value : SparqlValue} (member : value ∈ values)
    (missing : value.numeric lib = none) : values.mapM (SparqlValue.numeric lib) = none := by
  induction values with
  | nil => exact absurd member List.not_mem_nil
  | cons head rest ih =>
    rw [List.mapM_cons]
    rcases List.mem_cons.mp member with rfl | later
    · rw [missing]
      rfl
    · rw [ih later]
      cases head.numeric lib <;> rfl

/-- Values that are all numbers have the list of their numbers. -/
theorem mapM_numeric_some {values : List SparqlValue}
    (each : ∀ value ∈ values, (value.numeric lib).isSome) :
    values.mapM (SparqlValue.numeric lib) = some (values.filterMap (SparqlValue.numeric lib)) := by
  induction values with
  | nil => rfl
  | cons head rest ih =>
    obtain ⟨number, read⟩ := Option.isSome_iff_exists.mp (each head List.mem_cons_self)
    rw [List.mapM_cons, ih fun value member => each value (List.mem_cons_of_mem _ member), read,
      List.filterMap_cons_some read]
    rfl

/-- The exact sum of some numbers, nothing when one is a double or a partial sum does not fit. -/
def exactSum (numbers : List SparqlValue.Num) : Option Int :=
  numbers.foldl (fun held number => match held, number with
    | some sum, .int word =>
      let next := sum + Value.signed word
      if -2 ^ 63 ≤ next ∧ next < 2 ^ 63 then some next else none
    | _, _ => none) (some (0 : Int))

/-- The sum of a group is exact, or rounded, or missing for want of a number. -/
theorem computeAggregate_sum (members : List SparqlBindings) (var : String) :
    computeAggregate ext arith lib names members (.sum var) =
      ((boundValues members var).mapM (SparqlValue.numeric lib)).map fun numbers =>
        match exactSum numbers with
        | some sum => .literalInt (UInt64.ofInt sum)
        | none => .literalFloat (arith.sum (numbers.map (SparqlValue.Num.asF64 arith))) := by
  rw [computeAggregate]
  cases (boundValues members var).mapM (SparqlValue.numeric lib) with
  | none => rfl
  | some numbers =>
    rw [Option.bind_eq_bind, Option.bind_some, Option.map_some]
    change (match exactSum numbers with | some sum => _ | none => _) = _
    cases exactSum numbers <;> rfl

/-- With a double among the numbers there is no exact sum. -/
theorem exactSum_of_dbl {numbers : List SparqlValue.Num} {number : SparqlValue.Num}
    (member : number ∈ numbers) (double : number.toInt = none) : exactSum numbers = none := by
  have lost : ∀ numbers : List SparqlValue.Num, numbers.foldl (fun held number =>
      match held, number with
      | some sum, .int word =>
        let next := sum + Value.signed word
        if -2 ^ 63 ≤ next ∧ next < 2 ^ 63 then some next else none
      | _, _ => none) (none : Option Int) = none := by
    intro numbers
    induction numbers with
    | nil => rfl
    | cons head rest ih => exact ih
  rw [exactSum]
  generalize some (0 : Int) = held
  induction numbers generalizing held with
  | nil => exact absurd member List.not_mem_nil
  | cons head rest ih =>
    rw [List.foldl_cons]
    rcases List.mem_cons.mp member with rfl | later
    · cases number with
      | int word => cases double
      | dbl bits =>
        have first : (match held, SparqlValue.Num.dbl bits with
            | some sum, .int word =>
              let next := sum + Value.signed word
              if -2 ^ 63 ≤ next ∧ next < 2 ^ 63 then some next else none
            | _, _ => none) = (none : Option Int) := by cases held <;> rfl
        rw [first]
        exact lost rest
    · exact ih later _

/-- The exact sum of integers is their checked sum. -/
theorem exactSum_of_ints {numbers : List SparqlValue.Num}
    (ints : ∀ number ∈ numbers, number.toInt.isSome) :
    exactSum numbers =
      CheckedSum.checked (-2 ^ 63) (2 ^ 63) (numbers.filterMap SparqlValue.Num.toInt) := by
  rw [exactSum, CheckedSum.checked]
  generalize some (0 : Int) = held
  induction numbers generalizing held with
  | nil => rfl
  | cons head rest ih =>
    have later := fun number member => ints number (List.mem_cons_of_mem head member)
    cases head with
    | dbl bits =>
      have int := ints (.dbl bits) List.mem_cons_self
      cases int
    | int word =>
      have read : (SparqlValue.Num.int word).toInt = some (Value.signed word) := rfl
      rw [List.foldl_cons, List.filterMap_cons_some read, List.foldl_cons, ih later]
      congr 1
      cases held <;> rfl

/-- The integers of a group are those among the numbers of its values. -/
theorem intsOf_eq (members : List SparqlBindings) (var : String) :
    intsOf lib members var = ((boundValues members var).filterMap
      (SparqlValue.numeric lib)).filterMap SparqlValue.Num.toInt := by
  rw [boundValues, List.filterMap_filterMap, List.filterMap_filterMap, intsOf]
  refine List.filterMap_congr fun row _ => ?_
  cases row.lookup var with
  | none => rfl
  | some value => rfl

/-- The sum of a group of integers is their checked sum, or rounded when that is not found. -/
theorem computeAggregate_sum_ints {members : List SparqlBindings} {var : String}
    (ints : AllInts lib members var) :
    computeAggregate ext arith lib names members (.sum var) =
      some (match CheckedSum.checked (-2 ^ 63) (2 ^ 63) (intsOf lib members var) with
        | some sum => .literalInt (UInt64.ofInt sum)
        | none => .literalFloat (arith.sum (((boundValues members var).filterMap
          (SparqlValue.numeric lib)).map (SparqlValue.Num.asF64 arith)))) := by
  have numeric : ∀ value ∈ boundValues members var, (value.numeric lib).isSome := by
    intro value member
    have int := ints value member
    rw [intOf] at int
    cases read : value.numeric lib with
    | none => rw [read] at int; cases int
    | some number => rfl
  have each : ∀ number ∈ (boundValues members var).filterMap (SparqlValue.numeric lib),
      number.toInt.isSome := by
    intro number member
    obtain ⟨value, listed, read⟩ := List.mem_filterMap.mp member
    have int := ints value listed
    rw [intOf, read] at int
    exact int
  rw [computeAggregate_sum, mapM_numeric_some numeric, Option.map_some, exactSum_of_ints each,
    intsOf_eq]

/-- Integers stay integers in every order of the rows. -/
theorem AllInts.perm {members members' : List SparqlBindings} {var : String}
    (ints : AllInts lib members var) (perm : members.Perm members') : AllInts lib members' var :=
  fun value member => ints value ((perm_boundValues perm var).mem_iff.mpr member)

/-- A settled sum does not depend on the order of the rows. -/
theorem sum_perm (exact : arith.AddsExactly) {members members' : List SparqlBindings} {var : String}
    (perm : members.Perm members') (settled : Settled ext arith lib names members (.sum var)) :
    computeAggregate ext arith lib names members (.sum var) =
      computeAggregate ext arith lib names members' (.sum var) := by
  have values := perm_boundValues perm var
  have rounded : arith.sum (((boundValues members var).filterMap
        (SparqlValue.numeric lib)).map (SparqlValue.Num.asF64 arith)) =
      arith.sum (((boundValues members' var).filterMap
        (SparqlValue.numeric lib)).map (SparqlValue.Num.asF64 arith)) :=
    exact _ _ ((values.filterMap _).map _)
  by_cases ints : AllInts lib members var
  · have listed : (intsOf lib members var).Perm (intsOf lib members' var) := perm.filterMap _
    have total := listed.sum_eq
    rw [computeAggregate_sum_ints ints, computeAggregate_sum_ints (ints.perm perm), rounded]
    by_cases fits : FitsI64 (intsOf lib members var).sum
    · -- Both sides of the sum fit, so it is found in both orders.
      obtain ⟨positive, negative⟩ := settled ints fits
      have same : CheckedSum.positives (intsOf lib members var) =
          CheckedSum.positives (intsOf lib members' var) := (listed.filter _).sum_eq
      have same' : CheckedSum.negatives (intsOf lib members var) =
          CheckedSum.negatives (intsOf lib members' var) := (listed.filter _).sum_eq
      rw [CheckedSum.checked_of_fits negative.1 positive.2,
        CheckedSum.checked_of_fits (same' ▸ negative.1) (same ▸ positive.2), total]
    · rw [CheckedSum.checked_of_not_fits (by decide) fits,
        CheckedSum.checked_of_not_fits (by decide) (total ▸ fits)]
  · rw [computeAggregate_sum, computeAggregate_sum]
    by_cases numeric : ∀ value ∈ boundValues members var, (value.numeric lib).isSome
    · have numeric' : ∀ value ∈ boundValues members' var, (value.numeric lib).isSome :=
        fun value member => numeric value (values.mem_iff.mpr member)
      -- Some number is a double, so the sum is rounded.
      have double : ∃ number ∈ (boundValues members var).filterMap (SparqlValue.numeric lib),
          number.toInt = none := by
        rw [AllInts] at ints
        simp only [not_forall] at ints
        obtain ⟨value, member, other⟩ := ints
        obtain ⟨number, read⟩ := Option.isSome_iff_exists.mp (numeric value member)
        refine ⟨number, List.mem_filterMap.mpr ⟨value, member, read⟩, ?_⟩
        rw [intOf, read, Option.bind_some] at other
        simpa using other
      obtain ⟨number, member, double⟩ := double
      rw [mapM_numeric_some numeric, mapM_numeric_some numeric', Option.map_some, Option.map_some,
        exactSum_of_dbl member double,
        exactSum_of_dbl ((values.filterMap _).mem_iff.mp member) double, rounded]
    · simp only [not_forall] at numeric
      obtain ⟨value, member, missing⟩ := numeric
      have missing' : value.numeric lib = none := by simpa using missing
      rw [mapM_numeric_none member missing', mapM_numeric_none (values.mem_iff.mp member) missing']

/-- A settled choice does not depend on the order of the values. -/
theorem picked_perm {pick : SparqlValue → List SparqlValue → SparqlValue}
    {values values' : List SparqlValue} (perm : values.Perm values')
    (settled : values = [] ∨ ∃ held ∈ values, ∀ first rest, values.Perm (first :: rest) →
      pick first rest = held) : picked pick values = picked pick values' := by
  rcases settled with rfl | ⟨held, member, each⟩
  · rw [List.nil_perm.mp perm]
  · cases values with
    | nil => exact absurd member List.not_mem_nil
    | cons first rest =>
      cases values' with
      | nil => exact absurd (List.perm_nil.mp perm) (List.cons_ne_nil _ _)
      | cons first' rest' =>
        rw [picked, picked, each first rest (.refl _), each first' rest' perm]

/-- What is settled does not depend on the order of the rows. -/
theorem computeAggregate_perm (exact : arith.AddsExactly) {members members' : List SparqlBindings}
    (perm : members.Perm members') {func : SparqlAggFunc} (plain : func.isPlain = true)
    (settled : Settled ext arith lib names members func) :
    computeAggregate ext arith lib names members func =
      computeAggregate ext arith lib names members' func := by
  cases func with
  | countStar => rw [computeAggregate, computeAggregate, perm.length_eq]
  | countVar var =>
    rw [computeAggregate, computeAggregate, (perm_boundValues perm var).length_eq]
  | sum var => exact sum_perm exact perm settled
  | avg var =>
    have values := perm_boundValues perm var
    rw [computeAggregate, computeAggregate]
    by_cases numeric : ∀ value ∈ boundValues members var, (value.numeric lib).isSome
    · have numeric' : ∀ value ∈ boundValues members' var, (value.numeric lib).isSome :=
        fun value member => numeric value (values.mem_iff.mpr member)
      have numbers := values.filterMap (SparqlValue.numeric lib)
      rw [mapM_numeric_some numeric, mapM_numeric_some numeric']
      simp only [Option.bind_eq_bind, Option.bind_some]
      rw [exact _ _ (numbers.map _), numbers.length_eq, numbers.isEmpty_eq]
    · simp only [not_forall] at numeric
      obtain ⟨value, member, missing⟩ := numeric
      have missing' : value.numeric lib = none := by simpa using missing
      rw [mapM_numeric_none member missing', mapM_numeric_none (values.mem_iff.mp member) missing']
  | min var =>
    rw [computeAggregate_min, computeAggregate_min]
    refine picked_perm (perm_boundValues perm var) (settled.imp_right ?_)
    rintro ⟨held, member, below⟩
    refine ⟨held, member, fun first rest order => ?_⟩
    exact least_eq (fun a b => SparqlValue.orderCmp_swap (some a) (some b)) (order.mem_iff.mp member)
      fun value listed => below value (order.mem_iff.mpr listed)
  | max var =>
    rw [computeAggregate_max, computeAggregate_max]
    refine picked_perm (perm_boundValues perm var) (settled.imp_right ?_)
    rintro ⟨held, member, above⟩
    refine ⟨held, member, fun first rest order => ?_⟩
    exact greatest_eq (fun a b => SparqlValue.orderCmp_swap (some a) (some b))
      (order.mem_iff.mp member) fun value listed => above value (order.mem_iff.mpr listed)
  | groupConcat | sample => cases plain

/-- Rows that agree share the same values, whichever of them comes first. -/
theorem sharedRow_perm {members members' : List SparqlBindings} (perm : members.Perm members')
    (agrees : Agrees groupBy members) : sharedRow groupBy members = sharedRow groupBy members' := by
  cases members with
  | nil => rw [List.nil_perm.mp perm]
  | cons first rest =>
    cases members' with
    | nil => exact absurd (List.perm_nil.mp perm) (List.cons_ne_nil _ _)
    | cons first' rest' =>
      rw [sharedRow, sharedRow, List.head?_cons, List.head?_cons]
      dsimp only
      have same : ∀ var ∈ groupBy, first.lookup var = first'.lookup var := fun var listed =>
        agrees var listed first List.mem_cons_self first' (perm.mem_iff.mpr List.mem_cons_self)
      generalize ([] : SparqlBindings) = held
      induction groupBy generalizing held with
      | nil => rfl
      | cons var others ih =>
        rw [List.foldl_cons, List.foldl_cons, same var List.mem_cons_self]
        exact ih (fun var listed => agrees var (List.mem_cons_of_mem _ listed))
          (fun var listed => same var (List.mem_cons_of_mem _ listed)) _

/-- The result row of a settled group does not depend on the order of the rows. -/
theorem resultRow_perm (exact : arith.AddsExactly) {members members' : List SparqlBindings}
    (perm : members.Perm members') (agrees : Agrees groupBy members)
    {aggregates : List SparqlAggregateSpec} (plain : ∀ spec ∈ aggregates, spec.func.isPlain = true)
    (settled : ∀ spec ∈ aggregates, Settled ext arith lib names members spec.func) :
    resultRow ext arith lib names groupBy aggregates members =
      resultRow ext arith lib names groupBy aggregates members' := by
  rw [resultRow, resultRow, sharedRow_perm perm agrees]
  generalize sharedRow groupBy members' = held
  induction aggregates generalizing held with
  | nil => rfl
  | cons spec rest ih =>
    rw [List.foldl_cons, List.foldl_cons, computeAggregate_perm exact perm
      (plain spec List.mem_cons_self) (settled spec List.mem_cons_self)]
    exact ih (fun spec listed => plain spec (List.mem_cons_of_mem _ listed))
      (fun spec listed => settled spec (List.mem_cons_of_mem _ listed)) _

/-- A settled sum of integers is exact. -/
theorem sumExact_of_settled {members : List SparqlBindings} {var : String}
    (settled : Settled ext arith lib names members (.sum var)) :
    SumExact ext arith lib names members var := by
  intro ints fits
  obtain ⟨positive, negative⟩ := settled ints fits
  rw [computeAggregate_sum_ints ints, CheckedSum.checked_of_fits negative.1 positive.2]

/-- A group has the same rows in every order of the rows. -/
theorem groupRows_perm {rows' : List SparqlBindings} (perm : rows.Perm rows') (row : SparqlBindings) :
    (groupRows ext groupBy rows row).Perm (groupRows ext groupBy rows' row) := perm.filter _

/-- Aggregates that are settled in every group do not depend on the order of the rows. -/
theorem freeOfOrder_of_settled (exact : arith.AddsExactly) {funcs : SparqlAggFunc → Prop}
    (plain : ∀ func, funcs func → func.isPlain = true)
    (each : ∀ row ∈ rows, Agrees groupBy (groupRows ext groupBy rows row) ∧
      ∀ func, funcs func → Settled ext arith lib names (groupRows ext groupBy rows row) func) :
    FreeOfOrder ext arith lib names groupBy rows funcs where
  same rows' perm aggregates having covered out := by
    by_cases grouped : aggregates = [] ∧ groupBy = []
    · -- Without groups the rows themselves are the result.
      obtain ⟨rfl, rfl⟩ := grouped
      exact perm.mem_iff
    · have row_eq : ∀ row ∈ rows,
          resultRow ext arith lib names groupBy aggregates (groupRows ext groupBy rows row) =
            resultRow ext arith lib names groupBy aggregates (groupRows ext groupBy rows' row) :=
        fun row member => resultRow_perm exact (groupRows_perm perm row) (each row member).1
          (fun spec listed => plain _ (covered spec listed))
          fun spec listed => (each row member).2 _ (covered spec listed)
      rw [mem_executeSparqlAggregations grouped, mem_executeSparqlAggregations grouped]
      refine and_congr_left' ⟨?_, ?_⟩
      · intro ⟨row, member, result⟩
        exact ⟨row, perm.mem_iff.mp member, result.trans (row_eq row member)⟩
      · intro ⟨row, member, result⟩
        have listed := perm.mem_iff.mpr member
        exact ⟨row, listed, result.trans (row_eq row listed).symm⟩
  exact rows' perm row member var covered := by
    intro ints fits
    have listed := perm.mem_iff.mpr member
    have members : (groupRows ext groupBy rows row).Perm (groupRows ext groupBy rows' row) :=
      groupRows_perm perm row
    have settled := (each row listed).2 _ covered
    have total : (intsOf lib (groupRows ext groupBy rows row) var).sum =
        (intsOf lib (groupRows ext groupBy rows' row) var).sum := (members.filterMap _).sum_eq
    rw [← sum_perm exact members settled, ← total]
    exact sumExact_of_settled settled (ints.perm members.symm) (total ▸ fits)

/-- The values of the grouping variables stay when the aggregates have other names. -/
theorem lookup_resultRow_shared {aggregates : List SparqlAggregateSpec} {var : String}
    (apart : ∀ spec ∈ aggregates, var ≠ spec.aliasName) (members : List SparqlBindings) :
    (resultRow ext arith lib names groupBy aggregates members).lookup var =
      (sharedRow groupBy members).lookup var := by
  rw [resultRow]
  generalize sharedRow groupBy members = held
  induction aggregates generalizing held with
  | nil => rfl
  | cons spec rest ih =>
    rw [List.foldl_cons, ih fun other listed => apart other (List.mem_cons_of_mem _ listed)]
    cases computeAggregate ext arith lib names members spec.func with
    | none => rfl
    | some value => exact SparqlBindings.lookup_insert_ne _ _ (apart spec List.mem_cons_self)

/-- The result row of a group has the key of the group. -/
theorem groupKey_resultRow {aggregates : List SparqlAggregateSpec}
    (own : ∀ spec ∈ aggregates, spec.aliasName ∉ groupBy) {row : SparqlBindings} (member : row ∈ rows) :
    groupKey ext groupBy
        (resultRow ext arith lib names groupBy aggregates (groupRows ext groupBy rows row)) =
      groupKey ext groupBy row := by
  cases members : groupRows ext groupBy rows row with
  | nil => exact absurd members (List.ne_nil_of_mem (mem_groupRows member))
  | cons first rest =>
    have inside : first ∈ groupRows ext groupBy rows row := by
      rw [members]
      exact List.mem_cons_self
    rw [← of_decide_eq_true (List.mem_filter.mp inside).2, groupKey, groupKey]
    refine List.map_congr_left fun var listed => ?_
    have apart : ∀ spec ∈ aggregates, var ≠ spec.aliasName := by
      intro spec member same
      exact own spec member (same ▸ listed)
    rw [lookup_resultRow_shared apart, lookup_sharedRow, if_pos listed]

/-- Orders of the rows with the same result rows have the same result row for each group. -/
theorem resultRow_eq_of_same {rows' : List SparqlBindings}
    {aggregates : List SparqlAggregateSpec} (grouped : ¬ (aggregates = [] ∧ groupBy = []))
    (own : ∀ spec ∈ aggregates, spec.aliasName ∉ groupBy)
    (same : ∀ out, out ∈ executeSparqlAggregations ext arith lib rows groupBy aggregates none names ↔
      out ∈ executeSparqlAggregations ext arith lib rows' groupBy aggregates none names)
    {row : SparqlBindings} (member : row ∈ rows) :
    resultRow ext arith lib names groupBy aggregates (groupRows ext groupBy rows row) =
      resultRow ext arith lib names groupBy aggregates (groupRows ext groupBy rows' row) := by
  have listed := (same _).mp
    ((mem_executeSparqlAggregations grouped).mpr ⟨⟨row, member, rfl⟩, rfl⟩)
  obtain ⟨⟨row', member', result⟩, _⟩ := (mem_executeSparqlAggregations grouped).mp listed
  -- The result row tells which group it is of.
  have key : groupKey ext groupBy row = groupKey ext groupBy row' := by
    rw [← groupKey_resultRow own member, result, groupKey_resultRow own member']
  rw [result, groupRows, groupRows, key]

/-- Rows whose results do not depend on their order agree on the grouping variables. -/
theorem agrees_of_free {funcs : SparqlAggFunc → Prop}
    (free : FreeOfOrder ext arith lib names groupBy rows funcs) {row : SparqlBindings} :
    Agrees groupBy (groupRows ext groupBy rows row) := by
  intro var listed first inside second inside'
  have grouped : ¬ (([] : List SparqlAggregateSpec) = [] ∧ groupBy = []) := by
    intro ⟨_, absent⟩
    rw [absent] at listed
    cases listed
  -- Each of the rows may come first, and then the result row has its values.
  have shared : ∀ head ∈ groupRows ext groupBy rows row,
      (sharedRow groupBy (groupRows ext groupBy rows row)).lookup var = head.lookup var := by
    intro head inside
    obtain ⟨member, key⟩ := List.mem_filter.mp inside
    have key := of_decide_eq_true key
    have perm : rows.Perm (head :: rows.erase head) := List.perm_cons_erase member
    have same := resultRow_eq_of_same grouped
      (fun spec absent => absurd absent List.not_mem_nil)
      (free.same _ perm [] none fun spec absent => absurd absent List.not_mem_nil) member
    rw [resultRow, resultRow, List.foldl_nil, List.foldl_nil, groupRows, groupRows,
      List.filter_cons_of_pos (by simp), key, ← groupRows] at same
    rw [same, lookup_sharedRow, if_pos listed]
  rw [← shared first inside, shared second inside']

/-- There is a name that is not among some names. -/
theorem exists_fresh (vars : List String) : ∃ name, name ∉ vars := by
  have infinite : Infinite String :=
    Infinite.of_injective String.ofList fun first second same => String.ofList_injective same
  obtain ⟨name, fresh⟩ := Infinite.exists_notMem_finset vars.toFinset
  exact ⟨name, fun listed => fresh (List.mem_toFinset.mpr listed)⟩

/-- The rows of a group come in every order, as the rows do. -/
theorem exists_rows {row : SparqlBindings} {members : List SparqlBindings}
    (perm : (groupRows ext groupBy rows row).Perm members) :
    ∃ rows', rows.Perm rows' ∧ groupRows ext groupBy rows' row = members := by
  refine ⟨members ++ rows.filter fun other =>
    !decide (groupKey ext groupBy other = groupKey ext groupBy row), ?_, ?_⟩
  · exact (List.filter_append_perm _ rows).symm.trans (perm.append_right _)
  · have inside : members.filter (fun other =>
        decide (groupKey ext groupBy other = groupKey ext groupBy row)) = members := by
      refine List.filter_eq_self.mpr fun other listed => ?_
      exact (List.mem_filter.mp (perm.mem_iff.mpr listed)).2
    rw [groupRows, List.filter_append, inside, List.filter_filter]
    simp

/-- What an aggregate gives does not depend on the order of the rows of its group. -/
theorem computeAggregate_of_free {funcs : SparqlAggFunc → Prop}
    (free : FreeOfOrder ext arith lib names groupBy rows funcs) {func : SparqlAggFunc}
    (covered : funcs func) {row : SparqlBindings} (member : row ∈ rows)
    {members : List SparqlBindings} (perm : (groupRows ext groupBy rows row).Perm members) :
    computeAggregate ext arith lib names (groupRows ext groupBy rows row) func =
      computeAggregate ext arith lib names members func := by
  obtain ⟨rows', order, rfl⟩ := exists_rows perm
  -- The aggregate is asked for under a name of its own.
  obtain ⟨name, fresh⟩ := exists_fresh groupBy
  have covers : ∀ spec ∈ [(⟨name, func⟩ : SparqlAggregateSpec)], funcs spec.func := by
    intro spec listed
    rwa [List.mem_singleton.mp listed]
  have own : ∀ spec ∈ [(⟨name, func⟩ : SparqlAggregateSpec)], spec.aliasName ∉ groupBy := by
    intro spec listed
    rwa [List.mem_singleton.mp listed]
  have same := resultRow_eq_of_same (by simp) own (free.same _ order _ none covers) member
  have found : ∀ members : List SparqlBindings, members ≠ [] →
      (resultRow ext arith lib names groupBy [⟨name, func⟩] members).lookup name =
        computeAggregate ext arith lib names members func := by
    intro members some
    obtain ⟨first, rest, rfl⟩ := List.exists_cons_of_ne_nil some
    rw [lookup_resultRow fresh, if_pos rfl]
  rw [← found _ (List.ne_nil_of_mem (mem_groupRows member)), same,
    found _ (List.ne_nil_of_mem (mem_groupRows (order.mem_iff.mp member)))]

namespace SparqlValue

/-- A value that names a node is no number. -/
theorem numeric_of_nodeOf {value : SparqlValue} {node : NodeId}
    (named : value.nodeOf ext = some node) : value.numeric lib = none := by
  cases value <;> first | rfl | cases named

/-- Values that differ and are the same term are no numbers. -/
theorem numeric_of_sameTerm {left right : SparqlValue} (same : SameTerm ext left right)
    (differ : left ≠ right) : left.numeric lib = none ∧ right.numeric lib = none := by
  cases same with
  | node first second => exact ⟨numeric_of_nodeOf first, numeric_of_nodeOf second⟩
  | lang text same => exact ⟨rfl, rfl⟩
  | refl => exact absurd rfl differ

/-- With a value that is no number the order of results compares texts, then terms. -/
theorem orderCmp_of_not_numeric {left : SparqlValue} (plain : left.numeric lib = none)
    (right : SparqlValue) : orderCmp ext arith lib names (some left) (some right) =
      thenBy (byTexts lib names) (byTerm ext) (some left) (some right) := by
  rw [orderCmp_eq, thenBy, thenBy, byValue, thenBy, numbers_of_not_numeric (.inl plain),
    Ordering.then_eq]

/-- Values that tie and differ compare alike with every other. -/
theorem orderCmp_congr_of_tie {left right : SparqlValue} (differ : left ≠ right)
    (tie : orderCmp ext arith lib names (some left) (some right) = .eq) (value : SparqlValue) :
    orderCmp ext arith lib names (some left) (some value) =
      orderCmp ext arith lib names (some right) (some value) := by
  obtain ⟨first, second⟩ := @numeric_of_sameTerm ext lib _ _ (sameTerm_of_tie tie) differ
  have orders := (@orders_byTexts lib names fun _ => True).thenBy (@orders_byTerm ext fun _ => True)
  rw [orderCmp_of_not_numeric first] at tie ⊢
  rw [orderCmp_of_not_numeric second]
  exact orders.congr_of_tie trivial trivial trivial tie

end SparqlValue

variable {ext : External} {arith : FloatArithmetic} {lib : TextLibrary} {names : IriNames}
  {groupBy : List String} {rows : List SparqlBindings}

/-- What some elements are mapped to comes in every order, as the elements do. -/
theorem exists_perm_filterMap {α β : Type} {f : α → Option β} {items : List α} {found : List β}
    (perm : (items.filterMap f).Perm found) :
    ∃ items', items.Perm items' ∧ items'.filterMap f = found := by
  induction found generalizing items with
  | nil => exact ⟨items, .refl _, List.perm_nil.mp perm⟩
  | cons head rest ih =>
    obtain ⟨item, member, maps⟩ := List.mem_filterMap.mp (perm.mem_iff.mpr List.mem_cons_self)
    -- The element that is mapped to the head comes first, the others after it.
    obtain ⟨before, after, rfl⟩ := List.append_of_mem member
    have first : (before ++ item :: after).Perm (item :: (before ++ after)) := List.perm_middle
    have later := (first.filterMap f).symm.trans perm
    rw [List.filterMap_cons_some maps] at later
    obtain ⟨items', order, rfl⟩ := ih later.cons_inv
    exact ⟨item :: items', first.trans (order.cons item), List.filterMap_cons_some maps⟩

/-- A choice that is the same in every order of the rows is the same in every order of the values. -/
theorem picked_of_same {pick : SparqlValue → List SparqlValue → SparqlValue}
    {members : List SparqlBindings} {var : String}
    (same : ∀ members', members.Perm members' →
      picked pick (boundValues members var) = picked pick (boundValues members' var))
    {head first : SparqlValue} {tail rest : List SparqlValue}
    (values : boundValues members var = head :: tail)
    (perm : (boundValues members var).Perm (first :: rest)) : pick first rest = pick head tail := by
  obtain ⟨members', order, found⟩ := exists_perm_filterMap perm
  have equal := same members' order
  rw [values, boundValues, found, picked, picked] at equal
  exact (Option.some.inj equal).symm

/-- What does not depend on the order of the rows is settled. -/
theorem settled_of_same {members : List SparqlBindings} {func : SparqlAggFunc}
    (same : ∀ members', members.Perm members' →
      computeAggregate ext arith lib names members func =
        computeAggregate ext arith lib names members' func)
    (exact : ∀ var, func = .sum var → ∀ members', members.Perm members' →
      SumExact ext arith lib names members' var) :
    Settled ext arith lib names members func := by
  cases func with
  | min var =>
    simp only [computeAggregate_min] at same
    cases values : boundValues members var with
    | nil => exact .inl values
    | cons head tail =>
      have chosen := @least_mem _ (fun a b => SparqlValue.orderCmp ext arith lib names (some a) (some b))
        head tail
      rw [← values] at chosen
      refine .inr ⟨_, chosen, ?_⟩
      refine below_of_least (fun a b => SparqlValue.orderCmp_swap (some a) (some b)) ?_ ?_
      · intro a b differ tie c
        exact SparqlValue.orderCmp_congr_of_tie differ tie c
      · intro first rest perm
        exact picked_of_same same values perm
  | max var =>
    simp only [computeAggregate_max] at same
    cases values : boundValues members var with
    | nil => exact .inl values
    | cons head tail =>
      have chosen := @greatest_mem _ (fun a b => SparqlValue.orderCmp ext arith lib names (some a) (some b))
        head tail
      rw [← values] at chosen
      refine .inr ⟨_, chosen, ?_⟩
      refine above_of_greatest (fun a b => SparqlValue.orderCmp_swap (some a) (some b)) ?_
      intro first rest perm
      exact picked_of_same same values perm
  | sum var =>
    intro ints fits
    have whole := CheckedSum.positives_add_negatives (intsOf lib members var)
    have above := CheckedSum.positives_nonneg (intsOf lib members var)
    have below := CheckedSum.negatives_nonpos (intsOf lib members var)
    obtain ⟨low, high⟩ := fits
    -- The sum of each side is a partial sum when that side comes first.
    have sides : ∀ side : Int → Bool, FitsI64 ((intsOf lib members var).filter side).sum := by
      intro side
      by_contra out
      obtain ⟨members', order, found⟩ := exists_perm_filterMap
        (f := fun row : SparqlBindings => (row.lookup var).bind (intOf lib))
        (List.filter_append_perm side (intsOf lib members var)).symm
      have total : (intsOf lib members' var).sum = (intsOf lib members var).sum :=
        (order.filterMap _).sum_eq.symm
      have result := exact var rfl members' order (ints.perm order) (total ▸ ⟨low, high⟩)
      have listed : intsOf lib members' var = _ := found
      rw [computeAggregate_sum_ints (ints.perm order), listed,
        CheckedSum.checked_append_of_not_fits (by decide) out] at result
      cases result
    exact ⟨sides _, sides _⟩
  | _ => trivial

/-- Aggregates do not depend on the order of the rows exactly when every group agrees on the
grouping variables and settles what each function gives. -/
theorem freeOfOrder_iff (exact : arith.AddsExactly) {funcs : SparqlAggFunc → Prop}
    (plain : ∀ func, funcs func → func.isPlain = true) :
    FreeOfOrder ext arith lib names groupBy rows funcs ↔
      ∀ row ∈ rows, Agrees groupBy (groupRows ext groupBy rows row) ∧
        ∀ func, funcs func → Settled ext arith lib names (groupRows ext groupBy rows row) func := by
  constructor
  · intro free row member
    refine ⟨agrees_of_free free, fun func covered => settled_of_same ?_ ?_⟩
    · exact fun members order => computeAggregate_of_free free covered member order
    · rintro var rfl members order
      obtain ⟨rows', perm, rfl⟩ := exists_rows order
      exact free.exact rows' perm row (perm.mem_iff.mp member) var covered
  · exact freeOfOrder_of_settled exact plain

/-- A sum that is always the same does not depend on the order. -/
theorem addsExactly_unit : unitArithmetic.AddsExactly := fun _ _ _ => rfl

/-- The sum of two numbers of either sign. -/
theorem freeOfOrder_two :
    FreeOfOrder External.unreached unitArithmetic ⟨fun _ => none, fun _ => "", fun _ _ _ => none⟩ []
        ["g"] [[("g", .literal "a"), ("x", .literalInt 5)], [("g", .literal "a"), ("x", .literalInt (-3))]]
        (fun func => func = .sum "x" ∨ func = .min "x") ↔
      ∀ row ∈ [[("g", SparqlValue.literal "a"), ("x", .literalInt 5)],
          [("g", .literal "a"), ("x", .literalInt (-3))]],
        Agrees ["g"] (groupRows External.unreached ["g"] [[("g", .literal "a"), ("x", .literalInt 5)],
          [("g", .literal "a"), ("x", .literalInt (-3))]] row) ∧
        ∀ func, (func = .sum "x" ∨ func = .min "x") →
          Settled External.unreached unitArithmetic ⟨fun _ => none, fun _ => "", fun _ _ _ => none⟩ []
            (groupRows External.unreached ["g"] [[("g", .literal "a"), ("x", .literalInt 5)],
              [("g", .literal "a"), ("x", .literalInt (-3))]] row) func :=
  freeOfOrder_iff addsExactly_unit fun func covered => by
    rcases covered with rfl | rfl <;> rfl

/-- A sum that fits is rounded when a partial sum does not. -/
theorem sum_of_order :
    ¬ ∀ (ext : External) (arith : FloatArithmetic) (lib : TextLibrary) (names : IriNames)
      (groupBy : List String) (rows : List SparqlBindings), arith.AddsExactly →
      FreeOfOrder ext arith lib names groupBy rows fun func => func.isPlain = true := by
  intro free
  -- The greatest number, one more and one less, with the one less in the middle.
  have same := (free External.unreached unitArithmetic ⟨fun _ => none, fun _ => "", fun _ _ _ => none⟩
    [] [] [[("x", .literalInt 0x7fffffffffffffff)], [("x", .literalInt 1)], [("x", .literalInt (-1))]]
    addsExactly_unit).same
    [[("x", .literalInt 0x7fffffffffffffff)], [("x", .literalInt (-1))], [("x", .literalInt 1)]]
    ((List.Perm.swap _ _ _).cons _) [⟨"s", .sum "x"⟩] none
    (fun spec listed => by rw [List.mem_singleton.mp listed]; rfl) [("s", .literalFloat 0)]
  exact absurd (same.mp (by decide +kernel)) (by decide +kernel)

end Polargraph
