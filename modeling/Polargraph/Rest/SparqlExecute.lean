import Mathlib.Data.List.Infix
import Polargraph.Rest.SparqlValue

/-! What is done with SPARQL rows once they are found: filters, left joins, groups and order. -/

namespace Polargraph

/-- A constant of a comparison. -/
inductive SparqlLiteral where
  /-- A signed 64-bit number, as its word. -/
  | int (word : UInt64)
  /-- A double, as its bits. -/
  | float (bits : UInt64)
  /-- A plain string. -/
  | str (text : String)
  /-- A truth value. -/
  | bool (truth : Bool)
  /-- A language-tagged string. -/
  | lang (text lang : String)
  /-- A literal of any other datatype. -/
  | typed (lexical datatype : String)

/-- A constant as a value of a result. -/
def SparqlLiteral.toValue : SparqlLiteral → SparqlValue
  | int word => .literalInt word
  | float bits => .literalFloat bits
  | str text => .literal text
  | bool truth => .literalBool truth
  | lang text tag => .langLiteral text tag
  | typed lexical datatype => .typedLiteral lexical datatype

/-- An operand of a comparison. -/
inductive FilterExpr where
  /-- A variable. -/
  | var (name : String)
  /-- A constant. -/
  | const (value : SparqlValue)
  /-- The text of a term. -/
  | str (operand : FilterExpr)
  /-- The language tag of a literal. -/
  | lang (operand : FilterExpr)
  /-- The datatype of a literal. -/
  | datatype (operand : FilterExpr)

/-- A test of two strings. -/
inductive StringTest where
  /-- The second is part of the first. -/
  | contains
  /-- The second starts the first. -/
  | strStarts
  /-- The second ends the first. -/
  | strEnds

/-- A comparison. -/
inductive CmpOp where
  /-- Equal. -/
  | eq
  /-- Less. -/
  | lt
  /-- Less or equal. -/
  | le
  /-- Greater. -/
  | gt
  /-- Greater or equal. -/
  | ge

/-- A filter over one row. -/
inductive SparqlFilter where
  /-- A variable is bound. -/
  | bound (var : String)
  /-- Two variables have equal values. -/
  | varEq (left right : String)
  /-- Two variables are the same term. -/
  | sameTerm (left right : String)
  /-- A variable is an IRI. -/
  | isIri (var : String)
  /-- A variable is a literal. -/
  | isLiteral (var : String)
  /-- A variable is a blank node, which none is. -/
  | isBlank (var : String)
  /-- A filter does not hold. -/
  | not (inner : SparqlFilter)
  /-- Two filters hold. -/
  | and (left right : SparqlFilter)
  /-- One of two filters holds. -/
  | or (left right : SparqlFilter)
  /-- A variable is greater than a constant. -/
  | greaterThan (var : String) (literal : SparqlLiteral)
  /-- A variable is less than a constant. -/
  | lessThan (var : String) (literal : SparqlLiteral)
  /-- A variable is greater than a constant or equal to it. -/
  | greaterOrEqual (var : String) (literal : SparqlLiteral)
  /-- A variable is less than a constant or equal to it. -/
  | lessOrEqual (var : String) (literal : SparqlLiteral)
  /-- A variable equals a constant. -/
  | equalLiteral (var : String) (literal : SparqlLiteral)
  /-- A variable differs from a constant. -/
  | notEqualLiteral (var : String) (literal : SparqlLiteral)
  /-- Any other comparison. -/
  | compare (op : CmpOp) (left right : FilterExpr)
  /-- A test of two strings. -/
  | stringTest (test : StringTest) (arg part : FilterExpr)
  /-- A language tag is in a range. -/
  | langMatches (tag range : FilterExpr)
  /-- A text matches a pattern. -/
  | regex (text pattern : FilterExpr) (flags : Option FilterExpr)

/-- Whether an operand reads the text of IRIs. -/
def FilterExpr.usesIriText : FilterExpr → Bool
  | str _ => true
  | lang operand | datatype operand => operand.usesIriText
  | var _ | const _ => false

/-- Whether a filter reads the text of IRIs. -/
def SparqlFilter.usesIriText : SparqlFilter → Bool
  | compare _ left right | stringTest _ left right | langMatches left right =>
    left.usesIriText || right.usesIriText
  | regex text pattern flags =>
    text.usesIriText || pattern.usesIriText || flags.any FilterExpr.usesIriText
  | not inner => inner.usesIriText
  | and left right | or left right => left.usesIriText || right.usesIriText
  | _ => false

/-- A sort key of a query. -/
structure SparqlOrder where
  /-- The variable. -/
  var : String
  /-- Whether the order is reversed. -/
  descending : Bool

/-- An aggregate function of a query. -/
inductive SparqlAggFunc where
  /-- Count the rows. -/
  | countStar
  /-- Count the rows that bind a variable. -/
  | countVar (var : String)
  /-- Add the values of a variable. -/
  | sum (var : String)
  /-- The mean of the values of a variable. -/
  | avg (var : String)
  /-- The least value of a variable. -/
  | min (var : String)
  /-- The greatest value of a variable. -/
  | max (var : String)
  /-- The texts of a variable, joined by a separator. -/
  | groupConcat (var : String) (separator : Option String)
  /-- Some value of a variable. -/
  | sample (var : String)

/-- An aggregate with the variable it is bound to. -/
structure SparqlAggregateSpec where
  /-- The variable it is bound to. -/
  aliasName : String
  /-- The function. -/
  func : SparqlAggFunc

/-- The datatype of language-tagged strings. -/
def RDF_LANG_STRING : String := "http://www.w3.org/1999/02/22-rdf-syntax-ns#langString"

/-- The text and the tag of a string literal. -/
def stringLiteral : SparqlValue → Option (String × Option String)
  | .literal text => some (text, none)
  | .langLiteral text lang => some (text, some lang)
  | _ => none

/-- The text of a plain string. -/
def simpleLiteral : SparqlValue → Option String
  | .literal text => some text
  | _ => none

/-- The texts of two strings whose tags allow a test of one against the other. -/
def compatibleStrings (left right : SparqlValue) : Option (String × String) := do
  let (text, first) ← stringLiteral left
  let (part, second) ← stringLiteral right
  match first, second with
  | _, none => return (text, part)
  | some x, some y => if x.toLower = y.toLower then return (text, part) else none
  | none, some _ => none

/-- Whether a language tag is in a range. -/
def langMatches (tag range : String) : Bool :=
  if range = "*" then !tag.isEmpty
  else
    let (tag, range) := (tag.toLower, range.toLower)
    !range.isEmpty && (decide (tag = range) || (range ++ "-").toList.isPrefixOf tag.toList)

/-- The outcome of a test of two strings. -/
def StringTest.holds (text part : String) : StringTest → Bool
  | contains => decide (part.toList <:+: text.toList)
  | strStarts => part.toList.isPrefixOf text.toList
  | strEnds => part.toList.isSuffixOf text.toList

section Library

variable (ext : External) (arith : FloatArithmetic) (lib : TextLibrary)

/-- The value of an operand, nothing for an error. -/
def evalExpr (names : IriNames) (row : SparqlBindings) : FilterExpr → Option SparqlValue
  | .var name => row.lookup name
  | .const value => some value
  | .str operand => do
    match ← evalExpr names row operand with
    | .uri node => return .literal (names.iri node)
    | .iri name => return .literal name
    | literal => return .literal (← literal.lexical lib)
  | .lang operand => do
    match ← evalExpr names row operand with
    | .uri _ | .iri _ => none
    | .langLiteral _ lang => return .literal lang
    | _ => return .literal ""
  | .datatype operand => do
    match ← evalExpr names row operand with
    | .uri _ | .iri _ => none
    | .literal _ => return .iri (XSD ++ "string")
    | .literalInt _ => return .iri (XSD ++ "integer")
    | .literalFloat _ => return .iri (XSD ++ "double")
    | .literalBool _ => return .iri (XSD ++ "boolean")
    | .langLiteral _ _ => return .iri RDF_LANG_STRING
    | .typedLiteral _ datatype => return .iri datatype

/-- The outcome of a comparison of values, nothing for an error. -/
def CmpOp.holds (left right : SparqlValue) : CmpOp → Option Bool
  | eq => left.sparqlEq ext arith lib right
  | lt => (left.sparqlCmp arith lib right).map Ordering.isLT
  | le => (left.sparqlCmp arith lib right).map Ordering.isLE
  | gt => (left.sparqlCmp arith lib right).map Ordering.isGT
  | ge => (left.sparqlCmp arith lib right).map Ordering.isGE

/-- The outcome of a filter on a row, nothing for an error. -/
def evalFilter (names : IriNames) (row : SparqlBindings) : SparqlFilter → Option Bool
  | .bound var => some (row.lookup var).isSome
  | .varEq left right => do (← row.lookup left).sparqlEq ext arith lib (← row.lookup right)
  | .sameTerm left right => do
    return decide ((← row.lookup left).termKey ext = (← row.lookup right).termKey ext)
  | .isIri var => (row.lookup var).map SparqlValue.isIri
  | .isLiteral var => (row.lookup var).map (fun value => !value.isIri)
  | .isBlank var => (row.lookup var).map (fun _ => false)
  | .not inner => (evalFilter names row inner).map (fun outcome => !outcome)
  | .and left right =>
    match evalFilter names row left, evalFilter names row right with
    | some false, _ | _, some false => some false
    | some true, some true => some true
    | _, _ => none
  | .or left right =>
    match evalFilter names row left, evalFilter names row right with
    | some true, _ | _, some true => some true
    | some false, some false => some false
    | _, _ => none
  | .greaterThan var literal => do CmpOp.gt.holds ext arith lib (← row.lookup var) literal.toValue
  | .lessThan var literal => do CmpOp.lt.holds ext arith lib (← row.lookup var) literal.toValue
  | .greaterOrEqual var literal => do
    CmpOp.ge.holds ext arith lib (← row.lookup var) literal.toValue
  | .lessOrEqual var literal => do CmpOp.le.holds ext arith lib (← row.lookup var) literal.toValue
  | .equalLiteral var literal => do CmpOp.eq.holds ext arith lib (← row.lookup var) literal.toValue
  | .notEqualLiteral var literal => do
    (CmpOp.eq.holds ext arith lib (← row.lookup var) literal.toValue).map (fun outcome => !outcome)
  | .compare op left right => do
    op.holds ext arith lib (← evalExpr lib names row left) (← evalExpr lib names row right)
  | .stringTest test arg part => do
    let (text, part) ← compatibleStrings (← evalExpr lib names row arg)
      (← evalExpr lib names row part)
    return test.holds text part
  | .langMatches tag range => do
    let tag ← simpleLiteral (← evalExpr lib names row tag)
    let range ← simpleLiteral (← evalExpr lib names row range)
    return langMatches tag range
  | .regex text pattern flags => do
    let (text, _) ← stringLiteral (← evalExpr lib names row text)
    let pattern ← simpleLiteral (← evalExpr lib names row pattern)
    let flags ← match flags with
      | some flags => do simpleLiteral (← evalExpr lib names row flags)
      | none => some ""
    lib.regexMatch text pattern flags

/-- Whether a filter keeps a row. -/
def applySparqlFilterNamed (names : IriNames) (row : SparqlBindings) (filter : SparqlFilter) : Bool :=
  evalFilter ext arith lib names row filter == some true

/-- Whether two rows agree on every variable they share. -/
def compatibleRows (left right : SparqlBindings) : Bool :=
  left.all fun bound => match right.lookup bound.1 with
    | some other => decide (bound.2.termKey ext = other.termKey ext)
    | none => true

/-- Two rows as one; the second has the last word. -/
def mergeRows (left right : SparqlBindings) : SparqlBindings :=
  right.foldl (fun row bound => row.insert bound.1 bound.2) left

/-- Each row joined with every compatible one, or kept as it is when there is none. -/
def leftJoin (left right : List SparqlBindings) : List SparqlBindings :=
  left.flatMap fun row =>
    let merged := (right.filter (compatibleRows ext row)).map (mergeRows row)
    if merged.isEmpty then [row] else merged

/-- The values a variable has in some rows. -/
def boundValues (rows : List SparqlBindings) (var : String) : List SparqlValue :=
  rows.filterMap (fun row => row.lookup var)

/-- The value of an aggregate over the rows of a group, nothing when it is unbound. -/
def computeAggregate (names : IriNames) (rows : List SparqlBindings) :
    SparqlAggFunc → Option SparqlValue
  | .countStar => some (.literalInt (UInt64.ofNat rows.length))
  | .countVar var => some (.literalInt (UInt64.ofNat (boundValues rows var).length))
  | .sum var => do
    let numbers ← (boundValues rows var).mapM (SparqlValue.numeric lib)
    -- Integers are added exactly, as long as the sum fits.
    let exact := numbers.foldl (fun held number => match held, number with
      | some sum, .int word =>
        let next := sum + Value.signed word
        if -2 ^ 63 ≤ next ∧ next < 2 ^ 63 then some next else none
      | _, _ => none) (some (0 : Int))
    match exact with
    | some sum => return .literalInt (UInt64.ofInt sum)
    | none => return .literalFloat (arith.sum (numbers.map (SparqlValue.Num.asF64 arith)))
  | .avg var => do
    let numbers ← (boundValues rows var).mapM (SparqlValue.numeric lib)
    let sum := arith.sum (numbers.map (SparqlValue.Num.asF64 arith))
    return if numbers.isEmpty then .literalInt 0 else .literalFloat (arith.div sum numbers.length)
  | .min var => match boundValues rows var with
    | [] => none
    | first :: rest => some (rest.foldl (fun held value =>
        if SparqlValue.orderCmp ext arith lib names (some held) (some value) = .gt then value
        else held) first)
  | .max var => match boundValues rows var with
    | [] => none
    | first :: rest => some (rest.foldl (fun held value =>
        if SparqlValue.orderCmp ext arith lib names (some held) (some value) = .gt then held
        else value) first)
  | .groupConcat var separator =>
    some (.literal ((separator.getD " ").intercalate ((boundValues rows var).map fun value =>
      match value with
      | .uri node => names.iri node
      | literal => (literal.lexical lib).getD "")))
  | .sample var => (boundValues rows var).head?

/-- One row for each group of rows; the rows themselves when nothing is grouped. -/
def executeSparqlAggregations (rows : List SparqlBindings) (groupBy : List String)
    (aggregates : List SparqlAggregateSpec) (having : Option SparqlFilter) (names : IriNames) :
    List SparqlBindings :=
  if aggregates.isEmpty && groupBy.isEmpty then rows
  else
    let groups := rows.foldl (fun groups row =>
      Latest.entryUpdate
        (groupBy.map fun var => ((row.lookup var).map (SparqlValue.termKey ext)).getD "") []
        (fun held => held ++ [row]) groups) []
    let results := groups.map fun group =>
      let shared : SparqlBindings := match group.2.head? with
        | some first => groupBy.foldl (fun row var => match first.lookup var with
          | some value => row.insert var value
          | none => row) []
        | none => []
      aggregates.foldl (fun row spec =>
        match computeAggregate ext arith lib names group.2 spec.func with
        | some value => row.insert spec.aliasName value
        | none => row) shared
    results.filter fun row => having.all (applySparqlFilterNamed ext arith lib names row)

/-- Compare rows by the first sort key that tells them apart. -/
def compareRows (names : IriNames) :
    List SparqlOrder → SparqlBindings → SparqlBindings → Ordering
  | [], _, _ => .eq
  | key :: rest, left, right =>
    let own := SparqlValue.orderCmp ext arith lib names (left.lookup key.var) (right.lookup key.var)
    (if key.descending then own.swap else own).then (compareRows names rest left right)

/-- Sort rows, keeping the order of those that compare equal. -/
def orderBindings (rows : List SparqlBindings) (order : List SparqlOrder) (names : IriNames) :
    List SparqlBindings :=
  if order.isEmpty then rows
  else rows.mergeSort fun left right => (compareRows ext arith lib names order left right).isLE

end Library

end Polargraph
