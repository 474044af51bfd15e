import Polargraph.Query.Datalog

/-! Grouping, ordering, skipping and limiting of result rows. -/

namespace Polargraph

/-- Arithmetic of doubles on their bits. -/
structure FloatArithmetic where
  /-- The double nearest to a signed number. -/
  ofInt : UInt64 → UInt64
  /-- The sum of some doubles, from left to right. -/
  sum : List UInt64 → UInt64
  /-- A double divided by a count. -/
  div : UInt64 → Nat → UInt64
  /-- The lesser of two doubles. -/
  min : UInt64 → UInt64 → UInt64
  /-- The greater of two doubles. -/
  max : UInt64 → UInt64 → UInt64

/-- Aggregate functions. -/
inductive AggFunc where
  /-- Count all rows. -/
  | countStar
  /-- Count the rows that bind a variable. -/
  | count (var : String)
  /-- Collect the nodes of a variable. -/
  | collect (var : String)
  /-- Sum a property of a variable's nodes. -/
  | sum (var prop : String)
  /-- Average a property of a variable's nodes. -/
  | avg (var prop : String)
  /-- Least value of a property of a variable's nodes. -/
  | min (var prop : String)
  /-- Greatest value of a property of a variable's nodes. -/
  | max (var prop : String)

/-- A single aggregation with its alias. -/
structure AggregationSpec where
  /-- The function. -/
  func : AggFunc
  /-- The alias of its result. -/
  aliasName : String

/-- Sort direction. -/
inductive SortDir where
  /-- Ascending. -/
  | asc
  /-- Descending. -/
  | desc
deriving DecidableEq

/-- A single sort key. -/
structure OrderSpec where
  /-- A variable, or the alias of an aggregate. -/
  key : String
  /-- The direction. -/
  direction : SortDir
deriving DecidableEq

/-- One result row. -/
structure AggregatedRow where
  /-- The nodes of its variables. -/
  groupKeys : Bindings
  /-- The values of its aggregates. -/
  aggValues : List (String × Value)
deriving DecidableEq

namespace Value

/-- The number a signed word holds. -/
def signed (word : UInt64) : Int := word.toInt64.toInt

/-- A double that is a number, as an integer that orders like it. -/
def floatRank (bits : UInt64) : Int :=
  let magnitude : Int := (bits &&& 0x7fffffffffffffff).toNat
  if bits &&& 0x8000000000000000 = 0 then magnitude else -magnitude

/-- Compare doubles, unless one is not a number. -/
def compareFloats (left right : UInt64) : Option Ordering :=
  if isNan left || isNan right then none else some (compare (floatRank left) (floatRank right))

/-- Compare texts by their characters. -/
def compareTexts (left right : String) : Ordering :=
  if left = right then .eq else if left < right then .lt else .gt

end Value

/-- Compare sort keys; those of different kinds are equal. -/
def compareKeys : Option Value → Option Value → Ordering
  | none, none => .eq
  | none, some _ => .lt
  | some _, none => .gt
  | some (.int x), some (.int y) => compare (Value.signed x) (Value.signed y)
  | some (.float x), some (.float y) => (Value.compareFloats x y).getD .eq
  | some (.text x), some (.text y) => Value.compareTexts x y
  | some (.bool x), some (.bool y) => compare x.toNat y.toNat
  | _, _ => .eq

namespace AggregatedRow

/-- The sort key of a row: an aggregate by its alias, or the text of a node. -/
def sortKey (row : AggregatedRow) (key : String) : Option Value :=
  match row.aggValues.lookup key with
  | some value => some value
  | none => (row.groupKeys.lookup key).map (fun node => .text node.uuid.display)

/-- Compare rows by the first sort key that tells them apart. -/
def compareBy : List OrderSpec → AggregatedRow → AggregatedRow → Ordering
  | [], _, _ => .eq
  | spec :: rest, left, right =>
    let own := compareKeys (left.sortKey spec.key) (right.sortKey spec.key)
    let directed := if spec.direction = .desc then own.swap else own
    if directed = .eq then compareBy rest left right else directed

end AggregatedRow

/-- Sort rows when there are sort keys, then skip some and keep a limited number. -/
def applyOrderSkipLimit (rows : List AggregatedRow) (orderBy : List OrderSpec)
    (skip limit : Option Nat) : List AggregatedRow :=
  let sorted := if orderBy.isEmpty then rows
    else rows.mergeSort (fun left right => (AggregatedRow.compareBy orderBy left right).isLE)
  let rest := sorted.drop (skip.getD 0)
  match limit with
  | some limit => rest.take limit
  | none => rest

/-- The key of the group of a row: a byte that says whether each variable is bound, and its node. -/
def groupKeyBytes (binding : Bindings) (groupKeys : List String) : Bytes :=
  groupKeys.flatMap fun key => match binding.lookup key with
    | some node => 1 :: node.uuid.bytes
    | none => 0 :: List.replicate 16 0

/-- A list of texts as a JSON array. -/
def formatJsonArray (items : List String) : String :=
  if items.isEmpty then "[]"
  else "[" ++ ",".intercalate (items.map (fun item => "\"" ++ item ++ "\"")) ++ "]"

section External

variable (ext : External) (arith : FloatArithmetic)

/-- The numbers a property of a variable's nodes has, one for each row that has one. -/
def extractNumericValues (snapshot : Snapshot) (group : List Bindings) (var prop : String) :
    List UInt64 :=
  (group.filterMap (fun binding => binding.lookup var)).filterMap fun node =>
    match snapshot.scanBySubjectPredicate ext node
        (snapshot.store.vocabulary.expand snapshot.prefixes prop) with
    | .error _ => none
    | .ok triples => triples.findSome? fun triple => match triple with
      | .property _ _ (.float bits) _ => some bits
      | .property _ _ (.int word) _ => some (arith.ofInt word)
      | _ => none

/-- The value of an aggregate over a group. -/
def computeAgg (snapshot : Snapshot) (group : List Bindings) : AggFunc → Value
  | .countStar => .int (UInt64.ofNat group.length)
  | .count var =>
    .int (UInt64.ofNat (group.filter (fun binding => (binding.lookup var).isSome)).length)
  | .collect var => .text (formatJsonArray
      ((group.filterMap (fun binding => binding.lookup var)).map
        (fun node => node.uuid.display)).eraseReps)
  | .sum var prop => .float (arith.sum (extractNumericValues ext arith snapshot group var prop))
  | .avg var prop =>
    let numbers := extractNumericValues ext arith snapshot group var prop
    if numbers.isEmpty then .null else .float (arith.div (arith.sum numbers) numbers.length)
  | .min var prop => match extractNumericValues ext arith snapshot group var prop with
    | [] => .null
    | first :: rest => .float (rest.foldl arith.min first)
  | .max var prop => match extractNumericValues ext arith snapshot group var prop with
    | [] => .null
    | first :: rest => .float (rest.foldl arith.max first)

/-- Group rows, aggregate each group, then order, skip and limit; without aggregates, keep the rows. -/
def applyAggregations (snapshot : Snapshot) (bindings : List Bindings) (groupKeys : List String)
    (specs : List AggregationSpec) (orderBy : List OrderSpec) (skip limit : Option Nat) :
    List AggregatedRow :=
  if specs.isEmpty then
    applyOrderSkipLimit (bindings.map (fun binding => ⟨binding, []⟩)) orderBy skip limit
  else
    let buckets := bindings.foldl (fun buckets binding =>
      Latest.entryUpdate (groupKeyBytes binding groupKeys) [] (fun held => held ++ [binding]) buckets) []
    let rows := buckets.map fun bucket => AggregatedRow.mk
      (match bucket.2.head? with
        | some first => groupKeys.filterMap fun key =>
          (first.lookup key).map (fun node => (key, node))
        | none => [])
      (specs.map fun spec => (spec.aliasName, computeAgg ext arith snapshot bucket.2 spec.func))
    applyOrderSkipLimit rows orderBy skip limit

end External

end Polargraph
