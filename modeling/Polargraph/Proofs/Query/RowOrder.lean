import Mathlib.Data.String.Basic
import Polargraph.Lib.Comparators
import Polargraph.Query.Aggregation

/-! When the sort keys of result rows put the rows in an order. -/

namespace Polargraph

namespace Value

/-- Whether two values are of one kind of values that compare. -/
def sameKind : Value → Value → Bool
  | .int _, .int _ | .text _, .text _ | .bool _, .bool _ => true
  | .float left, .float right => !isNan left && !isNan right
  | _, _ => false

/-- Texts compare by their order. -/
theorem compareTexts_eq_compare (left right : String) :
    compareTexts left right = compare left right := by
  rw [compareTexts]
  split_ifs with same less
  · exact (compare_eq_iff_eq.mpr same).symm
  · exact (compare_lt_iff_lt.mpr less).symm
  · exact (compare_gt_iff_gt.mpr (lt_of_le_of_ne (not_lt.mp less) (Ne.symm same))).symm

/-- Doubles that are numbers compare by their rank. -/
theorem compareFloats_numbers {left right : UInt64} (first : isNan left = false)
    (second : isNan right = false) :
    compareFloats left right = some (compare (floatRank left) (floatRank right)) := by
  simp [compareFloats, first, second]

/-- Being of one kind goes both ways. -/
theorem sameKind_comm (left right : Value) : left.sameKind right = right.sameKind left := by
  cases left <;> cases right <;> simp [sameKind, Bool.and_comm]

/-- Being of one kind carries over. -/
theorem sameKind_trans {first second third : Value} (same : first.sameKind second = true)
    (same' : second.sameKind third = true) : first.sameKind third = true := by
  cases first <;> cases second <;> simp [sameKind] at same <;>
    cases third <;> simp [sameKind] at same' ⊢
  exact ⟨same.1, same'.2⟩

/-- A value of one kind with another is of one kind with itself. -/
theorem sameKind_self {left right : Value} (same : left.sameKind right = true) :
    left.sameKind left = true :=
  sameKind_trans same (by rw [sameKind_comm]; exact same)

end Value

open Comparator

/-- Values that are not of one kind tie. -/
theorem compareKeys_apart {left right : Value} (apart : left.sameKind right = false) :
    compareKeys (some left) (some right) = .eq := by
  cases left <;> cases right <;> simp [Value.sameKind] at apart <;> try rfl
  next left right =>
    rw [compareKeys, Value.compareFloats]
    have nan : (Value.isNan left || Value.isNan right) = true := by
      cases first : Value.isNan left with
      | true => rfl
      | false => exact apart first
    rw [if_pos nan]
    rfl

/-- What integers are ordered by. -/
def intKey : Value → Int
  | .int word => Value.signed word
  | _ => 0

/-- What floats are ordered by. -/
def floatKey : Value → Int
  | .float bits => Value.floatRank bits
  | _ => 0

/-- What texts are ordered by. -/
def textKey : Value → String
  | .text text => text
  | _ => ""

/-- What truth values are ordered by. -/
def boolKey : Value → Nat
  | .bool truth => truth.toNat
  | _ => 0

/-- Values of one kind are ordered. -/
theorem orders_kind (own : Value) :
    Orders (fun left right => compareKeys (some left) (some right))
      (fun value => own.sameKind value = true) := by
  cases own with
  | int word =>
    refine Orders.ofKey intKey fun a first b second => ?_
    cases a <;> simp [Value.sameKind] at first
    cases b <;> simp [Value.sameKind] at second
    rfl
  | float bits =>
    refine Orders.ofKey floatKey fun a first b second => ?_
    cases a <;> simp [Value.sameKind] at first
    cases b <;> simp [Value.sameKind] at second
    rw [compareKeys, Value.compareFloats_numbers first.2 second.2]
    rfl
  | text text =>
    refine Orders.ofKey textKey fun a first b second => ?_
    cases a <;> simp [Value.sameKind] at first
    cases b <;> simp [Value.sameKind] at second
    exact Value.compareTexts_eq_compare _ _
  | bool truth =>
    refine Orders.ofKey boolKey fun a first b second => ?_
    cases a <;> simp [Value.sameKind] at first
    cases b <;> simp [Value.sameKind] at second
    rfl
  | _ => exact ⟨fun a first => by simp [Value.sameKind] at first,
      fun a first => by simp [Value.sameKind] at first⟩

/-- The value that is less is of the other's kind. -/
theorem sameKind_of_lt {left right : Value} (less : compareKeys (some left) (some right) = .lt) :
    left.sameKind right = true := by
  by_contra apart
  rw [compareKeys_apart (Bool.eq_false_iff.mpr apart)] at less
  cases less

/-- Comparing sort keys in the other direction swaps. -/
theorem compareKeys_swap (left right : Option Value) :
    compareKeys left right = (compareKeys right left).swap := by
  cases left with
  | none => cases right <;> rfl
  | some left =>
    cases right with
    | none => rfl
    | some right =>
      cases kind : left.sameKind right with
      | true => exact (orders_kind left).swap left (Value.sameKind_self kind) right kind
      | false =>
        rw [compareKeys_apart kind, compareKeys_apart (by rw [Value.sameKind_comm]; exact kind)]
        rfl

/-- Sort keys are told apart by a strict order. -/
theorem separates_compareKeys (dom : Option Value → Prop) : Separates compareKeys dom where
  swap a _ b _ := compareKeys_swap a b
  trans a _ b _ c _ below above := by
    cases b with
    | none => cases a <;> cases below
    | some second =>
      cases c with
      | none => cases above
      | some third =>
        cases a with
        | none => rfl
        | some first =>
          have kind := sameKind_of_lt below
          have kind' := Value.sameKind_trans kind (sameKind_of_lt above)
          exact (orders_kind first).separates.trans first (Value.sameKind_self kind) second kind
            third kind' below above

/-- Where two values of a column differ, every value it has is of their kind. -/
def OneKind (column : List (Option Value)) : Prop :=
  ∀ x y z, some x ∈ column → some y ∈ column → some z ∈ column →
    compareKeys (some x) (some y) = .lt → x.sameKind z = true

/-- A column is ordered exactly when its values are of one kind, or all tie. -/
theorem orders_column_iff {column : List (Option Value)} :
    Orders compareKeys (fun key => key ∈ column) ↔ OneKind column := by
  rw [orders_iff (separates_compareKeys _)]
  constructor
  · -- A value of another kind ties with both.
    intro none x y z first second third less
    by_contra apart
    have kind := sameKind_of_lt less
    have apart' : y.sameKind z = false := by
      refine Bool.eq_false_iff.mpr fun same => apart (Value.sameKind_trans kind same)
    have tie := compareKeys_apart apart'
    have tie' : compareKeys (some z) (some x) = .eq :=
      compareKeys_apart (by rw [Value.sameKind_comm]; exact Bool.eq_false_iff.mpr apart)
    exact none ⟨some x, first, some y, second, some z, third, less, tie, tie'⟩
  · intro one ⟨x, first, y, second, w, third, less, tie, tie'⟩
    cases w with
    | none =>
      -- An absent key ties only with absent ones.
      cases y with
      | none => cases x <;> cases less
      | some y => cases tie
    | some w =>
      cases x with
      | none => cases tie'
      | some x =>
        cases y with
        | none => cases less
        | some y =>
          have kind := sameKind_of_lt less
          have kind' := one x y w first second third less
          have self := Value.sameKind_self kind
          -- In one kind ties carry over.
          have whole := (orders_kind x).lt_of_lt_of_isLE self kind kind' less (by rw [tie]; rfl)
          rw [compareKeys_swap, tie'] at whole
          cases whole

namespace AggregatedRow

/-- The comparison of rows by one sort key. -/
def compareSpec (spec : OrderSpec) (left right : AggregatedRow) : Ordering :=
  let own := compareKeys (left.sortKey spec.key) (right.sortKey spec.key)
  if spec.direction = .desc then own.swap else own

/-- Rows are compared by the first of their sort keys that tells them apart. -/
theorem compareBy_eq_lexAll (order : List OrderSpec) :
    compareBy order = lexAll (order.map compareSpec) := by
  funext left right
  induction order with
  | nil => rfl
  | cons spec rest ih =>
    rw [compareBy, ih, List.map_cons, lexAll, thenBy, compareSpec]
    split_ifs with desc tie tie
    · rw [tie]; rfl
    · cases own : (compareKeys (left.sortKey spec.key) (right.sortKey spec.key)).swap with
      | eq => exact absurd own tie
      | _ => rfl
    · rw [tie]; rfl
    · cases own : compareKeys (left.sortKey spec.key) (right.sortKey spec.key) with
      | eq => exact absurd own tie
      | _ => rfl

end AggregatedRow

/-- The keys of rows under a name. -/
def columnOf (rows : List AggregatedRow) (key : String) : List (Option Value) :=
  rows.map fun row => row.sortKey key

/-- Rows are ordered by a sort key exactly when their keys are of one kind, or all tie. -/
theorem orders_compareSpec_iff {rows : List AggregatedRow} {spec : OrderSpec} :
    Orders (AggregatedRow.compareSpec spec) (fun row => row ∈ rows) ↔
      OneKind (columnOf rows spec.key) := by
  -- Without the direction, the rows compare as their keys do.
  have plain : Orders (fun left right : AggregatedRow =>
      compareKeys (left.sortKey spec.key) (right.sortKey spec.key)) (fun row => row ∈ rows) ↔
        OneKind (columnOf rows spec.key) := by
    rw [← orders_column_iff]
    constructor
    · intro orders
      refine ⟨fun a _ b _ => compareKeys_swap a b, fun a first b second c third => ?_⟩
      obtain ⟨one, here, rfl⟩ := List.mem_map.mp first
      obtain ⟨two, here', rfl⟩ := List.mem_map.mp second
      obtain ⟨three, here'', rfl⟩ := List.mem_map.mp third
      exact orders.trans one here two here' three here''
    · intro orders
      exact orders.comap fun row member => List.mem_map_of_mem member
  rw [← plain]
  by_cases desc : spec.direction = .desc
  · have reversed : AggregatedRow.compareSpec spec = fun left right =>
        (compareKeys (left.sortKey spec.key) (right.sortKey spec.key)).swap := by
      funext left right
      exact if_pos desc
    rw [reversed]
    constructor
    · intro orders
      have back := orders.reverse
      simp only [Ordering.swap_swap] at back
      exact back
    · intro orders
      exact orders.reverse
  · have same : AggregatedRow.compareSpec spec = fun left right =>
        compareKeys (left.sortKey spec.key) (right.sortKey spec.key) := by
      funext left right
      exact if_neg desc
    rw [same]

/-- A sort order puts rows in order: it is a total preorder on them, which the output follows. -/
structure SortsRows (rows : List AggregatedRow) (order : List OrderSpec) : Prop where
  /-- Each row is at most itself. -/
  refl : ∀ row ∈ rows, (AggregatedRow.compareBy order row row).isLE
  /-- Of two rows one is at most the other. -/
  total : ∀ first ∈ rows, ∀ second ∈ rows, (AggregatedRow.compareBy order first second).isLE ∨
    (AggregatedRow.compareBy order second first).isLE
  /-- Being at most is transitive. -/
  trans : ∀ first ∈ rows, ∀ second ∈ rows, ∀ third ∈ rows,
    (AggregatedRow.compareBy order first second).isLE →
    (AggregatedRow.compareBy order second third).isLE →
    (AggregatedRow.compareBy order first third).isLE
  /-- In the output each row is at most every later one. -/
  sorted : ∀ skip limit, (applyOrderSkipLimit rows order skip limit).Pairwise fun first second =>
    (AggregatedRow.compareBy order first second).isLE

/-- Comparing rows by one sort key in the other direction swaps. -/
theorem compareSpec_swap (spec : OrderSpec) (left right : AggregatedRow) :
    AggregatedRow.compareSpec spec left right =
      (AggregatedRow.compareSpec spec right left).swap := by
  rw [AggregatedRow.compareSpec, AggregatedRow.compareSpec, compareKeys_swap]
  split_ifs <;> rfl

/-- Rows are sorted when the sort keys are orders of the rows. -/
theorem sortsRows_of_orders {rows : List AggregatedRow} {order : List OrderSpec}
    (orders : Orders (AggregatedRow.compareBy order) fun row => row ∈ rows) :
    SortsRows rows order where
  refl row member := by
    rw [self_of_swap orders.swap member]
    rfl
  total first member second member' := by
    rw [orders.swap first member second member']
    cases AggregatedRow.compareBy order second first <;> simp
  trans first here second next third last := orders.trans first here second next third last
  sorted skip limit := by
    have whole : (if order.isEmpty then rows else rows.mergeSort fun first second =>
        (AggregatedRow.compareBy order first second).isLE).Pairwise fun first second =>
          (AggregatedRow.compareBy order first second).isLE := by
      split_ifs with empty
      · -- Without sort keys all rows tie.
        rw [List.isEmpty_iff.mp empty]
        exact List.pairwise_of_forall fun _ _ => rfl
      · exact orders.pairwise_mergeSort
    have rest := whole.sublist (List.drop_sublist (skip.getD 0) _)
    cases limit with
    | none => exact rest
    | some limit => exact rest.sublist (List.take_sublist limit _)

/-- Rows are sorted by every order of some keys exactly when the rows have one kind of each. -/
theorem sortsRows_iff (rows : List AggregatedRow) (keys : String → Prop) :
    (∀ order : List OrderSpec, order ≠ [] → (∀ spec ∈ order, keys spec.key) → SortsRows rows order) ↔
      ∀ key, keys key → OneKind (columnOf rows key) := by
  constructor
  · intro sorts key wanted
    -- One sort key alone compares as that key does.
    have alone := sorts [⟨key, .asc⟩] (List.cons_ne_nil _ _) fun spec member => by
      rw [List.mem_singleton.mp member]
      exact wanted
    refine (@orders_compareSpec_iff rows ⟨key, .asc⟩).mp
      ⟨fun a _ b _ => compareSpec_swap _ a b, fun a first b second c third => ?_⟩
    have steps := alone.trans a first b second c third
    simp only [AggregatedRow.compareBy_eq_lexAll, List.map_cons, List.map_nil, lexAll, thenBy,
      Ordering.then_eq] at steps
    exact steps
  · intro kinds order _ wanted
    refine sortsRows_of_orders ?_
    rw [AggregatedRow.compareBy_eq_lexAll]
    refine orders_lexAll fun cmp member => ?_
    obtain ⟨spec, listed, rfl⟩ := List.mem_map.mp member
    exact orders_compareSpec_iff.mpr (kinds spec.key (wanted spec listed))

/-- Three groups by the mean of a property: `2.0`, no number at all, and `1.0`. -/
private def meanRows : List AggregatedRow :=
  [⟨[], [("mean", .float 0x4000000000000000)]⟩, ⟨[], [("mean", .null)]⟩,
    ⟨[], [("mean", .float 0x3ff0000000000000)]⟩]

/-- Rows with a mean that is missing are not put in order by it. -/
theorem not_sortsRows_mean :
    ¬ ∀ (rows : List AggregatedRow) (order : List OrderSpec), order ≠ [] → SortsRows rows order := by
  intro sorts
  have chain := (sorts meanRows [⟨"mean", .asc⟩] (List.cons_ne_nil _ _)).trans
    ⟨[], [("mean", .float 0x4000000000000000)]⟩ (by decide)
    ⟨[], [("mean", .null)]⟩ (by decide)
    ⟨[], [("mean", .float 0x3ff0000000000000)]⟩ (by decide)
    (by decide +kernel) (by decide +kernel)
  exact absurd chain (by decide +kernel)

end Polargraph
