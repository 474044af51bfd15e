import Polargraph.Lib.Splitting
import Polargraph.Proofs.Query.RowOrder
import Polargraph.Proofs.Rest.Literals
import Polargraph.Rest.SparqlExecute

/-! When the order of result values is an order, and what follows for sorting and for extremes. -/

namespace Polargraph

open Comparator

/-- Rounding a signed number to a double gives a number and keeps the order. -/
structure FloatArithmetic.Rounds (arith : FloatArithmetic) : Prop where
  /-- The double is a number. -/
  number : ∀ word, Value.isNan (arith.ofInt word) = false
  /-- A greater number is not rounded to a lesser one. -/
  mono : ∀ left right, Value.signed left ≤ Value.signed right →
    Value.floatRank (arith.ofInt left) ≤ Value.floatRank (arith.ofInt right)

namespace SparqlValue

/-- Terms that are the same: one node, one language-tagged string up to the tag's case, one literal. -/
inductive SameTerm (ext : External) : SparqlValue → SparqlValue → Prop where
  /-- IRIs of one node are the same term. -/
  | node {left right : SparqlValue} {node : NodeId} (first : left.nodeOf ext = some node)
      (second : right.nodeOf ext = some node) : SameTerm ext left right
  /-- The case of a language tag makes no difference. -/
  | lang (text : String) {first second : String} (same : first.toLower = second.toLower) :
      SameTerm ext (.langLiteral text first) (.langLiteral text second)
  /-- Every value is the same term as itself. -/
  | refl (value : SparqlValue) : SameTerm ext value value

section Library

variable (ext : External) (arith : FloatArithmetic) (lib : TextLibrary) (names : IriNames)

/-- The comparison of two numbers, a tie when one of them is not a number. -/
def compareNumbers (left right : SparqlValue.Num) : Ordering := (left.cmp arith right).getD .eq

/-- The comparison of two numeric values, a tie when one of them is not numeric. -/
def numbers : Option SparqlValue → Option SparqlValue → Ordering
  | some left, some right => match left.numeric lib, right.numeric lib with
    | some x, some y => compareNumbers arith x y
    | _, _ => .eq
  | _, _ => .eq

/-- The texts that values of one rank are compared by, none for numbers. -/
def texts : Option SparqlValue → String × String
  | none => ("", "")
  | some value =>
    if (value.numeric lib).isSome then ("", "")
    else match value with
      | .uri _ | .iri _ => (value.iriText names, "")
      | .literalBool truth => (if truth then "1" else "", "")
      | .literal text => (text, "")
      | .langLiteral text lang => (text, lang.toLower)
      | .typedLiteral lexical datatype => (datatype, lexical)
      | _ => ("", "")

/-- The identity of a term, no text for an unbound variable. -/
def termText : Option SparqlValue → String
  | none => ""
  | some value => value.termKey ext

/-- Whether values differ in rank or in their texts. -/
def byTexts : Option SparqlValue → Option SparqlValue → Ordering :=
  lexAll [fun left right => compare (rank lib left) (rank lib right),
    fun left right => Value.compareTexts (texts lib names left).1 (texts lib names right).1,
    fun left right => Value.compareTexts (texts lib names left).2 (texts lib names right).2]

/-- The comparison of values before ties are broken. -/
def byValue : Option SparqlValue → Option SparqlValue → Ordering :=
  thenBy (byTexts lib names) (numbers arith lib)

/-- The comparison that breaks ties. -/
def byTerm (left right : Option SparqlValue) : Ordering :=
  Value.compareTexts (termText ext left) (termText ext right)

/-- Numbers between which, in the other order of their terms, stands a number that ties with both. -/
def NumbersInverted (values : Option SparqlValue → Prop) : Prop :=
  ∃ x y w : SparqlValue, ∃ a b c : SparqlValue.Num,
    values (some x) ∧ values (some y) ∧ values (some w) ∧
    x.numeric lib = some a ∧ y.numeric lib = some b ∧ w.numeric lib = some c ∧
    a.cmp arith b = some .lt ∧ compareNumbers arith b c = .eq ∧ compareNumbers arith c a = .eq ∧
    y.termKey ext ≤ w.termKey ext ∧ w.termKey ext ≤ x.termKey ext

end Library

variable {ext : External} {arith : FloatArithmetic} {lib : TextLibrary} {names : IriNames}

/-- A signed number is a number. -/
@[simp] theorem numeric_int (word : UInt64) : (literalInt word).numeric lib = some (.int word) := rfl

/-- A double is a number. -/
@[simp] theorem numeric_float (bits : UInt64) :
    (literalFloat bits).numeric lib = some (.dbl bits) := rfl

/-- A numeric value has the rank of numbers. -/
theorem rank_of_numeric {value : SparqlValue} {number : SparqlValue.Num}
    (read : value.numeric lib = some number) : rank lib (some value) = 2 := by
  have plain : value.isIri = false := by cases value <;> simp_all [isIri, numeric]
  simp [rank, plain, read]

/-- Only numeric values have the rank of numbers. -/
theorem numeric_of_rank {value : SparqlValue} (ranked : rank lib (some value) = 2) :
    ∃ number, value.numeric lib = some number := by
  cases read : value.numeric lib with
  | some number => exact ⟨number, rfl⟩
  | none => cases value <;> simp [rank, isIri, read] at ranked

/-- Texts compare as equal exactly when they are. -/
theorem compareTexts_eq {left right : String} :
    Value.compareTexts left right = .eq ↔ left = right := by
  rw [Value.compareTexts_eq_compare, compare_eq_iff_eq]

/-- A text is at most another exactly when it is in the order of texts. -/
theorem compareTexts_isLE {left right : String} :
    (Value.compareTexts left right).isLE ↔ left ≤ right := by
  rw [Value.compareTexts_eq_compare, ← Ordering.ne_gt_iff_isLE]
  exact compare_le_iff_le

/-- Without numbers only ranks and texts are compared. -/
theorem numbers_of_not_numeric {left right : SparqlValue}
    (apart : left.numeric lib = none ∨ right.numeric lib = none) :
    numbers arith lib (some left) (some right) = .eq := by
  rw [numbers]
  rcases apart with none | none
  · rw [none]
  · rw [none]
    cases left.numeric lib <;> rfl

/-- A bound variable has a greater rank than an unbound one. -/
theorem rank_pos (value : SparqlValue) : 0 < rank lib (some value) := by
  cases value with
  | typedLiteral lexical datatype =>
    have typed : rank lib (some (.typedLiteral lexical datatype)) =
        if ((typedLiteral lexical datatype).numeric lib).isSome then 2 else 6 := rfl
    rw [typed]
    split_ifs <;> decide
  | _ => simp [rank, isIri, numeric]

/-- Truth values compare like the texts that stand for them. -/
theorem compare_truths (left right : Bool) : compare left.toNat right.toNat =
    Value.compareTexts (if left then "1" else "") (if right then "1" else "") := by
  cases left <;> cases right <;> rfl

/-- The order of results compares by rank and texts, then by number, then by term. -/
theorem orderCmp_eq (left right : Option SparqlValue) :
    orderCmp ext arith lib names left right =
      thenBy (byValue arith lib names) (byTerm ext) left right := by
  have same : ∀ text, Value.compareTexts text text = .eq := fun text => compareTexts_eq.mpr rfl
  cases left with
  | none =>
    cases right with
    | none => simp [orderCmp, thenBy, byValue, byTexts, lexAll, numbers, byTerm, same]
    | some right =>
      have less : compare (rank lib none) (rank lib (some right)) = .lt :=
        compare_lt_iff_lt.mpr (rank_pos right)
      simp [orderCmp, thenBy, byValue, byTexts, lexAll, less]
  | some left =>
    cases right with
    | none =>
      have greater : compare (rank lib (some left)) (rank lib none) = .gt :=
        compare_gt_iff_gt.mpr (rank_pos left)
      simp [orderCmp, thenBy, byValue, byTexts, lexAll, greater]
    | some right =>
      rw [orderCmp, thenBy, byValue, thenBy, byTexts, lexAll, thenBy]
      cases ranks : compare (rank lib (some left)) (rank lib (some right)) with
      | lt | gt => rfl
      | eq =>
        rw [compare_eq_iff_eq] at ranks
        simp only [Ordering.eq_then, lexAll, thenBy, Ordering.then_eq, byTerm, termText]
        congr 1
        cases read : left.numeric lib with
        | some x =>
          rw [rank_of_numeric read] at ranks
          obtain ⟨y, read'⟩ := numeric_of_rank ranks.symm
          have plain : (texts lib names (some left)) = ("", "") := by simp [texts, read]
          have plain' : (texts lib names (some right)) = ("", "") := by simp [texts, read']
          rw [plain, plain', numbers, read, read', same]
          cases left <;> cases right <;> first | rfl | cases read
        | none =>
          have read' : right.numeric lib = none := by
            cases read' : right.numeric lib with
            | none => rfl
            | some y =>
              rw [rank_of_numeric read'] at ranks
              obtain ⟨x, number⟩ := numeric_of_rank ranks
              rw [read] at number
              cases number
          rw [numbers_of_not_numeric (.inl read)]
          -- Values of one rank are of one kind.
          cases left <;> cases right <;> simp_all [rank, isIri, texts, iriText]
          exact compare_truths _ _

/-- Ranks and texts are an order. -/
theorem orders_byTexts (dom : Option SparqlValue → Prop) : Orders (byTexts lib names) dom := by
  refine orders_lexAll fun cmp member => ?_
  simp only [List.mem_cons, List.not_mem_nil, or_false] at member
  rcases member with rfl | rfl | rfl
  · exact Orders.ofKey (rank lib) fun _ _ _ _ => rfl
  · exact Orders.ofKey (fun value => (texts lib names value).1) fun _ _ _ _ =>
      Value.compareTexts_eq_compare _ _
  · exact Orders.ofKey (fun value => (texts lib names value).2) fun _ _ _ _ =>
      Value.compareTexts_eq_compare _ _

/-- Terms are an order. -/
theorem orders_byTerm (dom : Option SparqlValue → Prop) : Orders (byTerm ext) dom :=
  Orders.ofKey (termText ext) fun _ _ _ _ => Value.compareTexts_eq_compare _ _

/-- Comparing doubles in the other direction swaps. -/
theorem compareFloats_swap (left right : UInt64) :
    Value.compareFloats left right = (Value.compareFloats right left).map Ordering.swap := by
  rw [Value.compareFloats, Value.compareFloats, Bool.or_comm]
  split_ifs
  · rfl
  · exact congrArg some Std.OrientedOrd.eq_swap

/-- Comparing numbers in the other direction swaps. -/
theorem compareNumbers_swap (left right : SparqlValue.Num) :
    compareNumbers arith left right = (compareNumbers arith right left).swap := by
  have doubles : ∀ x y, (Value.compareFloats x y).getD .eq =
      ((Value.compareFloats y x).getD .eq).swap := by
    intro x y
    rw [compareFloats_swap]
    cases Value.compareFloats y x <;> rfl
  cases left with
  | int x =>
    cases right with
    | int y => exact Std.OrientedOrd.eq_swap
    | dbl y => exact doubles _ _
  | dbl x => cases right <;> exact doubles _ _

/-- A double that is less is a number, and ranks less. -/
theorem compareFloats_lt {left right : UInt64} :
    (Value.compareFloats left right).getD .eq = .lt ↔
      Value.isNan left = false ∧ Value.isNan right = false ∧
        Value.floatRank left < Value.floatRank right := by
  cases first : Value.isNan left with
  | true => simp [Value.compareFloats, first]
  | false =>
    cases second : Value.isNan right with
    | true => simp [Value.compareFloats, second]
    | false =>
      rw [Value.compareFloats_numbers first second, Option.getD_some, compare_lt_iff_lt]
      simp

/-- Being less is transitive among numbers. -/
theorem compareNumbers_trans (rounds : arith.Rounds) {x y z : SparqlValue.Num}
    (first : compareNumbers arith x y = .lt) (second : compareNumbers arith y z = .lt) :
    compareNumbers arith x z = .lt := by
  -- Rounding keeps the order, so doubles and integers may be mixed.
  have ints : ∀ {left right : UInt64}, compareNumbers arith (.int left) (.int right) = .lt ↔
      Value.signed left < Value.signed right := compare_lt_iff_lt
  have doubles : ∀ {left right : UInt64}, (Value.compareFloats left right).getD .eq = .lt ↔ _ :=
    compareFloats_lt
  cases x with
  | int x =>
    cases y with
    | int y =>
      have less := ints.mp first
      cases z with
      | int z => exact ints.mpr (less.trans (ints.mp second))
      | dbl z =>
        obtain ⟨_, number, above⟩ := doubles.mp second
        exact doubles.mpr ⟨rounds.number x, number, (rounds.mono x y less.le).trans_lt above⟩
    | dbl y =>
      obtain ⟨number, _, below⟩ := doubles.mp first
      obtain ⟨_, number', above⟩ := doubles.mp second
      cases z with
      | int z =>
        refine ints.mpr (not_le.mp fun back => ?_)
        exact absurd ((rounds.mono z x back).trans_lt below) (not_lt.mpr above.le)
      | dbl z => exact doubles.mpr ⟨number, number', below.trans above⟩
  | dbl x =>
    cases y with
    | int y =>
      obtain ⟨number, _, below⟩ := doubles.mp first
      cases z with
      | int z =>
        have less := ints.mp second
        exact doubles.mpr ⟨number, rounds.number z, below.trans_le (rounds.mono y z less.le)⟩
      | dbl z =>
        obtain ⟨_, number', above⟩ := doubles.mp second
        exact doubles.mpr ⟨number, number', below.trans above⟩
    | dbl y =>
      obtain ⟨number, _, below⟩ := doubles.mp first
      cases z <;>
        (obtain ⟨_, number', above⟩ := doubles.mp second
         exact doubles.mpr ⟨number, number', below.trans above⟩)

/-- Comparing numeric values in the other direction swaps. -/
theorem numbers_swap (left right : Option SparqlValue) :
    numbers arith lib left right = (numbers arith lib right left).swap := by
  cases left with
  | none => cases right <;> rfl
  | some left =>
    cases right with
    | none => rfl
    | some right =>
      rw [numbers, numbers]
      cases left.numeric lib with
      | none => cases right.numeric lib <;> rfl
      | some x =>
        cases right.numeric lib with
        | none => rfl
        | some y => exact compareNumbers_swap x y

/-- Numeric values are told apart by a strict order. -/
theorem separates_numbers (rounds : arith.Rounds) (dom : Option SparqlValue → Prop) :
    Separates (numbers arith lib) dom where
  swap a _ b _ := numbers_swap a b
  trans a _ b _ c _ below above := by
    -- What is less is numeric.
    have numeric : ∀ {left right}, numbers arith lib left right = .lt → ∃ first second x y,
        left = some first ∧ right = some second ∧ first.numeric lib = some x ∧
          second.numeric lib = some y ∧ compareNumbers arith x y = .lt := by
      intro left right less
      cases left with
      | none => cases less
      | some first =>
        cases right with
        | none => cases less
        | some second =>
          rw [numbers] at less
          cases read : first.numeric lib with
          | none => rw [read] at less; cases less
          | some x =>
            cases read' : second.numeric lib with
            | none => rw [read, read'] at less; cases less
            | some y =>
              rw [read, read'] at less
              exact ⟨first, second, x, y, rfl, rfl, read, read', less⟩
    obtain ⟨first, second, x, y, rfl, rfl, readX, readY, less⟩ := numeric below
    obtain ⟨_, third, y', z, same, rfl, readY', readZ, less'⟩ := numeric above
    cases same
    rw [readY] at readY'
    cases readY'
    rw [numbers, readX, readZ]
    exact compareNumbers_trans rounds less less'

/-- Values are told apart by a strict order before ties are broken. -/
theorem separates_byValue (rounds : arith.Rounds) (dom : Option SparqlValue → Prop) :
    Separates (byValue arith lib names) dom :=
  (orders_byTexts dom).thenSeparates (separates_numbers rounds dom)

/-- The letter that the identity of a term starts with. -/
def tag : SparqlValue → Char
  | .uri _ | .iri _ => 'U'
  | .literal _ => 'S'
  | .literalInt _ => 'I'
  | .literalFloat _ => 'D'
  | .literalBool _ => 'B'
  | .langLiteral _ _ => 'L'
  | .typedLiteral _ _ => 'T'

/-- The identity of a term starts with the letter of its kind. -/
theorem termKey_eq (value : SparqlValue) :
    ∃ rest, value.termKey ext = String.ofList [value.tag] ++ rest := by
  cases value with
  | langLiteral text lang => exact ⟨lang.toLower ++ "\x00" ++ text, by simp [termKey, tag]; rfl⟩
  | typedLiteral lexical datatype =>
    exact ⟨datatype ++ "\x00" ++ lexical, by simp [termKey, tag]; rfl⟩
  | _ => exact ⟨_, rfl⟩

/-- Values of one term are of one kind. -/
theorem tag_eq {left right : SparqlValue} (same : left.termKey ext = right.termKey ext) :
    left.tag = right.tag := by
  obtain ⟨rest, first⟩ := @termKey_eq ext left
  obtain ⟨rest', second⟩ := @termKey_eq ext right
  rw [first, second] at same
  have letters := congrArg String.toList same
  rw [String.toList_append, String.toList_append, String.toList_ofList, String.toList_ofList] at letters
  exact (List.cons.inj letters).1

/-- The datatype of a numeric literal is one of the numeric datatypes. -/
theorem datatype_of_numeric {lexical datatype : String} {number : SparqlValue.Num}
    (read : (typedLiteral lexical datatype).numeric lib = some number) :
    ∃ name ∈ XSD_INTEGERS ++ ["decimal", "double", "float"], datatype = XSD ++ name := by
  obtain ⟨name, stripped, rest⟩ := Option.bind_eq_some_iff.mp read
  refine ⟨name, ?_, strippedPrefix_eq_some.mp stripped⟩
  rw [List.mem_append]
  split_ifs at rest with integer double
  · exact .inl (List.contains_iff_mem.mp integer)
  · exact .inr (List.contains_iff_mem.mp double)

/-- Lexical form and datatype of a numeric literal are read off its identity. -/
theorem termKey_inj_of_numeric {lexical datatype lexical' datatype' : String}
    {number number' : SparqlValue.Num}
    (read : (typedLiteral lexical datatype).numeric lib = some number)
    (read' : (typedLiteral lexical' datatype').numeric lib = some number')
    (same : (typedLiteral lexical datatype).termKey ext = (typedLiteral lexical' datatype').termKey ext) :
    lexical = lexical' ∧ datatype = datatype' := by
  -- No numeric datatype has the character that separates it from the lexical form.
  have plain : ∀ {lexical datatype number},
      (typedLiteral lexical datatype).numeric lib = some number → '\x00' ∉ datatype.toList := by
    intro lexical datatype number read
    obtain ⟨name, member, rfl⟩ := datatype_of_numeric read
    have each : ∀ name ∈ XSD_INTEGERS ++ ["decimal", "double", "float"],
        '\x00' ∉ (XSD ++ name).toList := by decide +kernel
    exact each name member
  have letters := congrArg String.toList same
  simp only [termKey, String.toList_append, List.append_assoc] at letters
  have rest := List.append_cancel_left letters
  have split := Splitting.once_single (plain read) lexical.toList
  have split' := Splitting.once_single (plain read') lexical'.toList
  have same : datatype.toList ++ '\x00' :: lexical.toList =
      datatype'.toList ++ '\x00' :: lexical'.toList := rest
  rw [same, split'] at split
  obtain ⟨first, second⟩ := Prod.mk.inj (Option.some.inj split)
  exact ⟨(String.toList_inj.mp second).symm, (String.toList_inj.mp first).symm⟩

/-- Numbers are told apart by the text they are written as. -/
theorem toString_inj {left right : Nat} (same : toString left = toString right) : left = right := by
  have digits : Nat.toDigits 10 left = Nat.toDigits 10 right := by
    have letters := congrArg String.toList same
    simpa [toString, Nat.repr] using letters
  rw [← @Nat.ofDigitChars_ten_toDigits left, digits, Nat.ofDigitChars_ten_toDigits]

/-- Only values of one term tie. -/
theorem sameTerm_of_tie {left right : SparqlValue}
    (tie : orderCmp ext arith lib names (some left) (some right) = .eq) : SameTerm ext left right := by
  rw [orderCmp_eq, thenBy, Ordering.then_eq_eq, byValue, thenBy, Ordering.then_eq_eq, byTexts, lexAll,
    thenBy, lexAll, thenBy, lexAll, thenBy, Ordering.then_eq_eq, Ordering.then_eq_eq,
    Ordering.then_eq_eq, byTerm, compareTexts_eq, compareTexts_eq, compareTexts_eq,
    compare_eq_iff_eq] at tie
  obtain ⟨⟨⟨ranks, first, second, _⟩, _⟩, terms⟩ := tie
  have tags := tag_eq terms
  -- The letters leave values of one kind.
  have node : ∀ {x y : NodeId}, "U" ++ x.uuid.display = "U" ++ y.uuid.display → x = y := by
    intro x y same
    have uuid := Uuid.display_inj ((String.append_right_inj "U").mp same)
    cases x
    cases y
    exact congrArg NodeId.mk uuid
  cases left with
  | uri x =>
    cases right with
    | uri | iri => exact .node rfl (congrArg some (node terms).symm)
    | _ => cases tags
  | iri x =>
    cases right with
    | uri | iri => exact .node rfl (congrArg some (node terms).symm)
    | _ => cases tags
  | literal x =>
    cases right with
    | literal y =>
      rw [(String.append_right_inj "S").mp terms]
      exact .refl _
    | _ => cases tags
  | literalInt x =>
    cases right with
    | literalInt y =>
      have read := congrArg parseI64 ((String.append_right_inj "I").mp terms)
      rw [parseI64_toString, parseI64_toString] at read
      cases read
      exact .refl _
    | _ => cases tags
  | literalFloat x =>
    cases right with
    | literalFloat y =>
      rw [UInt64.toNat_inj.mp (toString_inj ((String.append_right_inj "D").mp terms))]
      exact .refl _
    | _ => cases tags
  | literalBool x =>
    cases right with
    | literalBool y =>
      have same : (if x then "1" else "") = if y then "1" else "" := first
      cases x <;> cases y <;> first | exact .refl _ | exact absurd same (by decide)
    | _ => cases tags
  | langLiteral x tag =>
    cases right with
    | langLiteral y tag' =>
      have text : x = y := first
      rw [text]
      exact .lang y second
    | _ => cases tags
  | typedLiteral x datatype =>
    cases right with
    | typedLiteral y datatype' =>
      cases read : (typedLiteral x datatype).numeric lib with
      | some number =>
        rw [rank_of_numeric read] at ranks
        obtain ⟨number', read'⟩ := numeric_of_rank ranks.symm
        obtain ⟨rfl, rfl⟩ := @termKey_inj_of_numeric ext lib _ _ _ _ _ _ read read' terms
        exact .refl _
      | none =>
        cases read' : (typedLiteral y datatype').numeric lib with
        | some number' =>
          rw [rank_of_numeric read'] at ranks
          obtain ⟨number, read''⟩ := numeric_of_rank ranks
          rw [read] at read''
          cases read''
        | none =>
          simp only [texts, read, read', Option.isSome_none, Bool.false_eq_true, if_false] at first second
          rw [first, second]
          exact .refl _
    | _ => cases tags

/-- Numbers tie in rank and texts. -/
theorem byTexts_of_numeric {x y : SparqlValue} {a b : SparqlValue.Num}
    (first : x.numeric lib = some a) (second : y.numeric lib = some b) :
    byTexts lib names (some x) (some y) = .eq := by
  have plain : texts lib names (some x) = ("", "") := by simp [texts, first]
  have plain' : texts lib names (some y) = ("", "") := by simp [texts, second]
  simp only [byTexts, lexAll, thenBy, rank_of_numeric first, rank_of_numeric second, plain, plain']
  rfl

/-- An inversion is one of numbers. -/
theorem inverted_iff {values : Option SparqlValue → Prop} :
    Inverted (byValue arith lib names) (byTerm ext) values ↔ NumbersInverted ext arith lib values := by
  constructor
  · rintro ⟨x, here, y, here', w, here'', less, tie, tie', below, above⟩
    rw [byValue, thenBy, Ordering.then_eq_eq] at tie tie'
    -- Ties in the texts carry over, so the difference is one of numbers.
    have texts := (@orders_byTexts lib names fun _ => True)
    have same := texts.tie_trans trivial trivial trivial tie.1 tie'.1
    have same' : byTexts lib names x y = .eq := by rw [texts.swap x trivial y trivial, same]; rfl
    rw [byValue, thenBy, same', Ordering.eq_then] at less
    cases x with
    | none => cases less
    | some x =>
      cases y with
      | none => cases less
      | some y =>
        rw [numbers] at less
        cases read : x.numeric lib with
        | none => rw [read] at less; cases less
        | some a =>
          cases read' : y.numeric lib with
          | none => rw [read, read'] at less; cases less
          | some b =>
            have ranks : rank lib w = 2 := by
              have first := tie'.1
              rw [byTexts, lexAll, thenBy, Ordering.then_eq_eq, compare_eq_iff_eq,
                rank_of_numeric read] at first
              exact first.1
            cases w with
            | none => cases ranks
            | some w =>
              obtain ⟨c, read''⟩ := numeric_of_rank ranks
              rw [numbers, read', read''] at tie
              rw [numbers, read, read''] at tie'
              rw [read, read'] at less
              refine ⟨x, y, w, a, b, c, here, here', here'', read, read', read'', ?_, tie.2, tie'.2,
                compareTexts_isLE.mp below, compareTexts_isLE.mp above⟩
              have plain : compareNumbers arith a b = .lt := less
              rw [compareNumbers] at plain
              cases order : a.cmp arith b with
              | none => rw [order] at plain; cases plain
              | some order' => rw [order] at plain; exact congrArg some plain
  · rintro ⟨x, y, w, a, b, c, here, here', here'', read, read', read'', less, tie, tie', below, above⟩
    refine ⟨some x, here, some y, here', some w, here'', ?_, ?_, ?_,
      compareTexts_isLE.mpr below, compareTexts_isLE.mpr above⟩
    · rw [byValue, thenBy, byTexts_of_numeric read read', Ordering.eq_then, numbers, read, read']
      exact congrArg (Option.getD · .eq) less
    · rw [byValue, thenBy, byTexts_of_numeric read' read'', Ordering.eq_then, numbers, read', read'']
      exact tie
    · rw [byValue, thenBy, byTexts_of_numeric read'' read, Ordering.eq_then, numbers, read, read'']
      exact tie'

/-- The order of results orders some values exactly when no numbers among them are inverted. -/
theorem orders_orderCmp_iff (rounds : arith.Rounds) {values : Option SparqlValue → Prop} :
    Orders (orderCmp ext arith lib names) values ↔ ¬ NumbersInverted ext arith lib values := by
  have same : orderCmp ext arith lib names = thenBy (byValue arith lib names) (byTerm ext) := by
    funext left right
    exact orderCmp_eq left right
  rw [same, orders_thenBy_iff (separates_byValue rounds values) (orders_byTerm values), inverted_iff]

/-- Comparing values in the other direction swaps. -/
theorem orderCmp_swap (left right : Option SparqlValue) :
    orderCmp ext arith lib names left right = (orderCmp ext arith lib names right left).swap := by
  rw [orderCmp_eq, orderCmp_eq, thenBy, thenBy, byValue, thenBy, thenBy,
    (orders_byTexts fun _ => True).swap left trivial right trivial,
    (orders_byTerm fun _ => True).swap left trivial right trivial, numbers_swap left right,
    Ordering.swap_then, Ordering.swap_then]

end SparqlValue

section Library

variable (ext : External) (arith : FloatArithmetic) (lib : TextLibrary) (names : IriNames)

/-- The comparison of rows by one sort key. -/
def compareKey (key : SparqlOrder) (left right : SparqlBindings) : Ordering :=
  let own := SparqlValue.orderCmp ext arith lib names (left.lookup key.var) (right.lookup key.var)
  if key.descending then own.swap else own

/-- The values that rows have for sort keys are among some values. -/
def Within (values : Option SparqlValue → Prop) (rows : List SparqlBindings) (order : List SparqlOrder) :
    Prop :=
  ∀ row ∈ rows, ∀ key ∈ order, values (row.lookup key.var)

/-- What the order of results is for some values: an order of terms, so that sorting sorts. -/
structure OrdersResults (values : Option SparqlValue → Prop) : Prop where
  /-- Comparing in the other direction swaps. -/
  antisymm : ∀ a, values a → ∀ b, values b →
    SparqlValue.orderCmp ext arith lib names a b = (SparqlValue.orderCmp ext arith lib names b a).swap
  /-- Being at most is transitive. -/
  trans : ∀ a, values a → ∀ b, values b → ∀ c, values c →
    (SparqlValue.orderCmp ext arith lib names a b).isLE →
    (SparqlValue.orderCmp ext arith lib names b c).isLE →
    (SparqlValue.orderCmp ext arith lib names a c).isLE
  /-- Only equal terms tie. -/
  term : ∀ a, values a → ∀ b, values b → SparqlValue.orderCmp ext arith lib names a b = .eq →
    Option.Rel (SparqlValue.SameTerm ext) a b
  /-- Sorting gives the same rows, each at most every later one. -/
  sorted : ∀ rows order, Within values rows order →
    (orderBindings ext arith lib rows order names).Perm rows ∧
      (orderBindings ext arith lib rows order names).Pairwise fun first second =>
        (compareRows ext arith lib names order first second).isLE
  /-- The least value is the same term in every order of the rows. -/
  min : ∀ rows rows' var, rows.Perm rows' → (∀ value ∈ boundValues rows var, values (some value)) →
    Option.Rel (SparqlValue.SameTerm ext) (computeAggregate ext arith lib names rows (.min var))
      (computeAggregate ext arith lib names rows' (.min var))
  /-- The greatest value is the same term in every order of the rows. -/
  max : ∀ rows rows' var, rows.Perm rows' → (∀ value ∈ boundValues rows var, values (some value)) →
    Option.Rel (SparqlValue.SameTerm ext) (computeAggregate ext arith lib names rows (.max var))
      (computeAggregate ext arith lib names rows' (.max var))

end Library

variable {ext : External} {arith : FloatArithmetic} {lib : TextLibrary} {names : IriNames}

/-- Rows are compared by the first of their sort keys that tells them apart. -/
theorem compareRows_eq_lexAll (order : List SparqlOrder) :
    compareRows ext arith lib names order = lexAll (order.map (compareKey ext arith lib names)) := by
  funext left right
  induction order with
  | nil => rfl
  | cons key rest ih => rw [compareRows, ih]; rfl

/-- Rows are ordered when the values of their sort keys are. -/
theorem orders_compareRows {values : Option SparqlValue → Prop}
    (orders : Orders (SparqlValue.orderCmp ext arith lib names) values) {rows : List SparqlBindings}
    {order : List SparqlOrder} (within : Within values rows order) :
    Orders (compareRows ext arith lib names order) fun row => row ∈ rows := by
  rw [compareRows_eq_lexAll]
  refine orders_lexAll fun cmp member => ?_
  obtain ⟨key, listed, rfl⟩ := List.mem_map.mp member
  have plain := @Orders.comap _ _ _ _ (fun row => row ∈ rows) orders
    (fun row : SparqlBindings => row.lookup key.var) fun row here => within row here key listed
  cases direction : key.descending with
  | false =>
    have same : compareKey ext arith lib names key = fun left right =>
        SparqlValue.orderCmp ext arith lib names (left.lookup key.var) (right.lookup key.var) := by
      funext left right
      simp [compareKey, direction]
    rw [same]
    exact plain
  | true =>
    have same : compareKey ext arith lib names key = fun left right =>
        (SparqlValue.orderCmp ext arith lib names (left.lookup key.var)
          (right.lookup key.var)).swap := by
      funext left right
      simp [compareKey, direction]
    rw [same]
    exact plain.reverse

/-- The values of a variable are the same in every order of the rows. -/
theorem perm_boundValues {rows rows' : List SparqlBindings} (perm : rows.Perm rows') (var : String) :
    (boundValues rows var).Perm (boundValues rows' var) := perm.filterMap _

/-- An unbound variable is below a bound one. -/
theorem orderCmp_none_some (right : SparqlValue) :
    SparqlValue.orderCmp ext arith lib names none (some right) = .lt := by
  have less : compare (SparqlValue.rank lib none) (SparqlValue.rank lib (some right)) = .lt :=
    compare_lt_iff_lt.mpr (SparqlValue.rank_pos right)
  simp [SparqlValue.orderCmp, less]

/-- Values that tie are equal terms. -/
theorem rel_of_tie {left right : Option SparqlValue}
    (tie : SparqlValue.orderCmp ext arith lib names left right = .eq) :
    Option.Rel (SparqlValue.SameTerm ext) left right := by
  cases left with
  | none =>
    cases right with
    | none => exact .none
    | some right =>
      rw [orderCmp_none_some] at tie
      cases tie
  | some left =>
    cases right with
    | none =>
      rw [SparqlValue.orderCmp_swap, orderCmp_none_some] at tie
      cases tie
    | some right => exact .some (SparqlValue.sameTerm_of_tie tie)

/-- What is picked from some values, nothing when there are none. -/
def picked (pick : SparqlValue → List SparqlValue → SparqlValue) :
    List SparqlValue → Option SparqlValue
  | [] => none
  | first :: rest => some (pick first rest)

/-- The least value of a group is picked from the values of the variable. -/
theorem computeAggregate_min (rows : List SparqlBindings) (var : String) :
    computeAggregate ext arith lib names rows (.min var) =
      picked (least fun a b => SparqlValue.orderCmp ext arith lib names (some a) (some b))
        (boundValues rows var) := by
  rw [computeAggregate]
  cases boundValues rows var <;> rfl

/-- The greatest value of a group is picked from the values of the variable. -/
theorem computeAggregate_max (rows : List SparqlBindings) (var : String) :
    computeAggregate ext arith lib names rows (.max var) =
      picked (greatest fun a b => SparqlValue.orderCmp ext arith lib names (some a) (some b))
        (boundValues rows var) := by
  rw [computeAggregate]
  cases boundValues rows var <;> rfl

/-- What is picked from the values of rows is the same term in every order of the rows. -/
theorem rel_of_extreme {values : Option SparqlValue → Prop} {le : SparqlValue → SparqlValue → Prop}
    (tied : ∀ a b, le a b → le b a → SparqlValue.orderCmp ext arith lib names (some a) (some b) = .eq)
    {pick : SparqlValue → List SparqlValue → SparqlValue}
    (spec : ∀ first rest, (∀ value ∈ first :: rest, values (some value)) →
      pick first rest ∈ first :: rest ∧ ∀ value ∈ first :: rest, le (pick first rest) value)
    {listed listed' : List SparqlValue} (perm : listed.Perm listed')
    (within : ∀ value ∈ listed, values (some value)) :
    Option.Rel (SparqlValue.SameTerm ext) (picked pick listed) (picked pick listed') := by
  cases listed with
  | nil =>
    cases listed' with
    | nil => exact .none
    | cons first' rest' => exact absurd perm.length_eq (by simp)
  | cons first rest =>
    cases listed' with
    | nil => exact absurd perm.length_eq (by simp)
    | cons first' rest' =>
      obtain ⟨member, below⟩ := spec first rest within
      obtain ⟨member', below'⟩ := spec first' rest' fun value here =>
        within value (perm.mem_iff.mpr here)
      exact .some (SparqlValue.sameTerm_of_tie (tied _ _ (below _ (perm.mem_iff.mpr member'))
        (below' _ (perm.mem_iff.mp member))))

/-- Listed values are ordered when they are among ordered ones. -/
theorem orders_listed {values : Option SparqlValue → Prop}
    (orders : Orders (SparqlValue.orderCmp ext arith lib names) values) {listed : List SparqlValue}
    (within : ∀ value ∈ listed, values (some value)) :
    Orders (fun left right => SparqlValue.orderCmp ext arith lib names (some left) (some right))
      fun value => value ∈ listed :=
  @Orders.comap _ _ _ _ (fun value => value ∈ listed) orders some within

/-- The order of results is one of terms exactly for values without inverted numbers. -/
theorem ordersResults_iff (rounds : arith.Rounds) (values : Option SparqlValue → Prop) :
    OrdersResults ext arith lib names values ↔ ¬ SparqlValue.NumbersInverted ext arith lib values := by
  rw [← @SparqlValue.orders_orderCmp_iff ext arith lib names rounds values]
  constructor
  · intro results
    exact ⟨results.antisymm, results.trans⟩
  · intro orders
    refine ⟨orders.swap, orders.trans, fun a _ b _ tie => rel_of_tie tie, ?_, ?_, ?_⟩
    · intro rows order within
      rw [orderBindings]
      split_ifs with empty
      · -- Without sort keys all rows tie.
        rw [List.isEmpty_iff.mp empty]
        exact ⟨.refl _, List.pairwise_of_forall fun _ _ => rfl⟩
      · exact ⟨List.mergeSort_perm rows _, (orders_compareRows orders within).pairwise_mergeSort⟩
    · intro rows rows' var perm within
      rw [computeAggregate_min, computeAggregate_min]
      refine @rel_of_extreme ext arith lib names values
        (fun a b => (SparqlValue.orderCmp ext arith lib names (some a) (some b)).isLE) ?_ _ ?_ _ _
        (perm_boundValues perm var) within
      · intro a b below above
        rw [SparqlValue.orderCmp_swap] at above
        exact Ordering.eq_eq_of_isLE_of_isLE_swap below above
      · intro first rest listed
        exact (orders_listed orders listed).least_spec
    · intro rows rows' var perm within
      rw [computeAggregate_max, computeAggregate_max]
      refine @rel_of_extreme ext arith lib names values
        (fun a b => (SparqlValue.orderCmp ext arith lib names (some b) (some a)).isLE) ?_ _ ?_ _ _
        (perm_boundValues perm var) within
      · intro a b below above
        rw [SparqlValue.orderCmp_swap] at below
        exact Ordering.eq_eq_of_isLE_of_isLE_swap above below
      · intro first rest listed
        exact (orders_listed orders listed).greatest_spec

/-- A rounding that is exact for the numbers zero and one. -/
def unitArithmetic : FloatArithmetic where
  ofInt word := if Value.signed word ≤ 0 then 0 else 0x3ff0000000000000
  sum _ := 0
  div _ _ := 0
  min left _ := left
  max left _ := left

/-- The rounding keeps the order. -/
theorem rounds_unit : unitArithmetic.Rounds where
  number word := by
    rw [unitArithmetic]
    dsimp only
    split_ifs <;> decide
  mono left right below := by
    rw [unitArithmetic]
    dsimp only
    by_cases second : Value.signed right ≤ 0
    · rw [if_pos (below.trans second), if_pos second]
    · rw [if_neg second]
      split_ifs
      · decide
      · exact le_refl _

/-- Two integers are in order. -/
theorem ordersResults_ints :
    OrdersResults External.unreached unitArithmetic ⟨fun _ => none, fun _ => "", fun _ _ _ => none⟩ []
        (fun value => value = some (.literalInt 0) ∨ value = some (.literalInt 1)) ↔
      ¬ SparqlValue.NumbersInverted External.unreached unitArithmetic
        ⟨fun _ => none, fun _ => "", fun _ _ _ => none⟩
        (fun value => value = some (.literalInt 0) ∨ value = some (.literalInt 1)) :=
  ordersResults_iff rounds_unit _

/-- Between one and negative zero stands a double that is not a number. -/
theorem orderCmp_not_trans :
    ¬ ∀ (ext : External) (arith : FloatArithmetic) (lib : TextLibrary) (names : IriNames)
      (a b c : Option SparqlValue), arith.Rounds →
      (SparqlValue.orderCmp ext arith lib names a b).isLE →
      (SparqlValue.orderCmp ext arith lib names b c).isLE →
      (SparqlValue.orderCmp ext arith lib names a c).isLE := by
  intro trans
  have chain := trans External.unreached unitArithmetic
    ⟨fun _ => none, fun _ => "", fun _ _ _ => none⟩ []
    (some (.literalFloat 0x3ff0000000000000)) (some (.literalFloat 0x7ff8000000000000))
    (some (.literalFloat 0x8000000000000000)) rounds_unit (by decide +kernel) (by decide +kernel)
  exact absurd chain (by decide +kernel)

end Polargraph
