import Mathlib.Data.List.Basic
import Mathlib.Order.Defs.LinearOrder

/-! Comparators on a set of elements: when they order it, ties broken by a key, sorting and extremes. -/

namespace Comparator

variable {α β : Type}

/-- Comparing in the other direction swaps, and being at most is transitive, on a set. -/
structure Orders (cmp : α → α → Ordering) (dom : α → Prop) : Prop where
  /-- Comparing in the other direction swaps. -/
  swap : ∀ a, dom a → ∀ b, dom b → cmp a b = (cmp b a).swap
  /-- Being at most is transitive. -/
  trans : ∀ a, dom a → ∀ b, dom b → ∀ c, dom c → (cmp a b).isLE → (cmp b c).isLE → (cmp a c).isLE

/-- Comparing in the other direction swaps, and being less is transitive, on a set. -/
structure Separates (cmp : α → α → Ordering) (dom : α → Prop) : Prop where
  /-- Comparing in the other direction swaps. -/
  swap : ∀ a, dom a → ∀ b, dom b → cmp a b = (cmp b a).swap
  /-- Being less is transitive. -/
  trans : ∀ a, dom a → ∀ b, dom b → ∀ c, dom c → cmp a b = .lt → cmp b c = .lt → cmp a c = .lt

/-- A comparator with its ties broken by another. -/
def thenBy (cmp key : α → α → Ordering) (a b : α) : Ordering := (cmp a b).then (key a b)

/-- Elements that differ, between which the key places, in the other order, one that ties with both. -/
def Inverted (cmp key : α → α → Ordering) (dom : α → Prop) : Prop :=
  ∃ x, dom x ∧ ∃ y, dom y ∧ ∃ w, dom w ∧ cmp x y = .lt ∧ cmp y w = .eq ∧ cmp w x = .eq ∧
    (key y w).isLE ∧ (key w x).isLE

variable {cmp key : α → α → Ordering} {dom : α → Prop}

/-- An element ties with itself. -/
theorem self_of_swap (swap : ∀ a, dom a → ∀ b, dom b → cmp a b = (cmp b a).swap) {a : α}
    (member : dom a) : cmp a a = .eq :=
  Ordering.eq_eq_of_eq_swap (swap a member a member)

namespace Orders

/-- A comparator that agrees with an order on a set is an order there. -/
theorem congr {other : α → α → Ordering} (orders : Orders cmp dom)
    (same : ∀ a, dom a → ∀ b, dom b → other a b = cmp a b) : Orders other dom where
  swap a first b second := by
    rw [same a first b second, same b second a first]
    exact orders.swap a first b second
  trans a first b second c third := by
    rw [same a first b second, same b second c third, same a first c third]
    exact orders.trans a first b second c third

/-- A lawful comparator is an order on every set. -/
theorem ofTransCmp [Std.TransCmp cmp] : Orders cmp dom where
  swap _ _ _ _ := Std.OrientedCmp.eq_swap
  trans _ _ _ _ _ _ := Std.TransCmp.isLE_trans

/-- Elements are ordered by what a function makes of them. -/
theorem comap {source : β → Prop} (orders : Orders cmp dom) {f : β → α} (into : ∀ b, source b → dom (f b)) :
    Orders (fun a b => cmp (f a) (f b)) source where
  swap a first b second := orders.swap _ (into a first) _ (into b second)
  trans a first b second c third :=
    orders.trans _ (into a first) _ (into b second) _ (into c third)

/-- Elements are ordered by a key of a linear order. -/
theorem ofKey {κ : Type} [LinearOrder κ] (f : α → κ)
    (same : ∀ a, dom a → ∀ b, dom b → cmp a b = compare (f a) (f b)) : Orders cmp dom := by
  have keys : Orders (compare : κ → κ → Ordering) fun _ => True := ofTransCmp
  exact (keys.comap (f := f) fun _ _ => trivial).congr same

/-- The reverse order is an order. -/
theorem reverse (orders : Orders cmp dom) : Orders (fun a b => (cmp a b).swap) dom where
  swap a first b second := congrArg Ordering.swap (orders.swap a first b second)
  trans a first b second c third below above := by
    rw [← orders.swap b second a first] at below
    rw [← orders.swap c third b second] at above
    rw [← orders.swap c third a first]
    exact orders.trans c third b second a first above below

/-- Everything ties. -/
theorem tied : Orders (fun _ _ => .eq) dom where
  swap _ _ _ _ := rfl
  trans _ _ _ _ _ _ _ _ := rfl

/-- Being less is transitive with being at most. -/
theorem lt_of_lt_of_isLE (orders : Orders cmp dom) {a b c : α} (first : dom a) (second : dom b)
    (third : dom c) (below : cmp a b = .lt) (above : (cmp b c).isLE) : cmp a c = .lt := by
  have whole := orders.trans a first b second c third (by rw [below]; rfl) above
  rcases Ordering.isLE_iff_eq_lt_or_eq_eq.mp whole with less | tie
  · exact less
  · -- Otherwise the third is at most the first, and so is the second.
    have back : (cmp c a).isLE := by rw [orders.swap c third a first, tie]; rfl
    have reversed := orders.trans b second c third a first above back
    rw [orders.swap b second a first, below] at reversed
    cases reversed

/-- Ties of an order carry over. -/
theorem tie_trans (orders : Orders cmp dom) {a b c : α} (first : dom a) (second : dom b)
    (third : dom c) (below : cmp a b = .eq) (above : cmp b c = .eq) : cmp a c = .eq := by
  have whole := orders.trans a first b second c third (by rw [below]; rfl) (by rw [above]; rfl)
  have back := orders.trans c third b second a first
    (by rw [orders.swap c third b second, above]; rfl)
    (by rw [orders.swap b second a first, below]; rfl)
  rw [orders.swap c third a first] at back
  exact Ordering.eq_eq_of_isLE_of_isLE_swap whole back

/-- Elements that tie compare alike with every other. -/
theorem congr_of_tie (orders : Orders cmp dom) {a b c : α} (first : dom a) (second : dom b)
    (third : dom c) (tie : cmp a b = .eq) : cmp a c = cmp b c := by
  have tied : (cmp b a).isLE := by rw [orders.swap b second a first, tie]; rfl
  cases above : cmp b c with
  | eq => exact orders.tie_trans first second third tie above
  | gt =>
    have below := orders.lt_of_lt_of_isLE third second first
      (by rw [orders.swap c third b second, above]; rfl) tied
    rw [orders.swap a first c third, below]
    rfl
  | lt =>
    -- Otherwise the third would be at most the second.
    by_contra other
    have back : (cmp c a).isLE := by
      rw [orders.swap c third a first]
      cases order : cmp a c with
      | lt => exact absurd order other
      | eq => rfl
      | gt => rfl
    have loop := orders.trans c third a first b second back (by rw [tie]; rfl)
    rw [orders.swap c third b second, above] at loop
    cases loop

/-- An order separates. -/
theorem separates (orders : Orders cmp dom) : Separates cmp dom where
  swap := orders.swap
  trans a first b second c third below above :=
    orders.lt_of_lt_of_isLE first second third below (by rw [above]; rfl)

/-- Ties of an order may be broken by a comparator that separates. -/
theorem thenSeparates (orders : Orders cmp dom) (separates : Separates key dom) :
    Separates (Comparator.thenBy cmp key) dom where
  swap a first b second := by
    rw [Comparator.thenBy, Comparator.thenBy, orders.swap a first b second,
      separates.swap a first b second, Ordering.swap_then]
  trans a first b second c third below above := by
    rw [Comparator.thenBy, Ordering.then_eq_lt] at below above ⊢
    rcases below with less | ⟨tie, less⟩
    · left
      refine orders.lt_of_lt_of_isLE first second third less ?_
      rcases above with less' | ⟨tie', _⟩
      · rw [less']; rfl
      · rw [tie']; rfl
    · rcases above with less' | ⟨tie', less'⟩
      · -- The third is not at most the first, with which the second ties.
        left
        have back := orders.trans a first b second c third (by rw [tie]; rfl) (by rw [less']; rfl)
        rcases Ordering.isLE_iff_eq_lt_or_eq_eq.mp back with less | tied
        · exact less
        · have loop := orders.tie_trans second first third
            (by rw [orders.swap b second a first, tie]; rfl) tied
          rw [less'] at loop
          cases loop
      · exact .inr ⟨orders.tie_trans first second third tie tie',
          separates.trans a first b second c third less less'⟩

/-- Ties of an order may be broken by another order. -/
theorem thenBy (orders : Orders cmp dom) (keys : Orders key dom) : Orders (thenBy cmp key) dom where
  swap a first b second := by
    rw [Comparator.thenBy, Comparator.thenBy, orders.swap a first b second,
      keys.swap a first b second, Ordering.swap_then]
  trans a first b second c third below above := by
    rw [Comparator.thenBy, Ordering.isLE_then_iff_and] at below above ⊢
    refine ⟨orders.trans a first b second c third below.1 above.1, ?_⟩
    rcases below.2 with less | key
    · exact .inl (orders.lt_of_lt_of_isLE first second third less above.1)
    · rcases above.2 with less' | key'
      · refine .inl ?_
        -- The second is below the third, so the third is not at most the first.
        have whole := orders.trans a first b second c third below.1 above.1
        rcases Ordering.isLE_iff_eq_lt_or_eq_eq.mp whole with less | tie
        · exact less
        · have back : (cmp c a).isLE := by rw [orders.swap c third a first, tie]; rfl
          have reversed := orders.trans c third a first b second back below.1
          rw [orders.swap c third b second, less'] at reversed
          cases reversed
      · exact .inr (keys.trans a first b second c third key key')

end Orders

/-- Breaking ties by a key orders a set exactly when no tie is between elements in inverted order. -/
theorem orders_thenBy_iff (separates : Separates cmp dom) (keys : Orders key dom) :
    Orders (thenBy cmp key) dom ↔ ¬ Inverted cmp key dom := by
  have swapped : ∀ {a b : α}, dom a → dom b → ∀ {order}, cmp a b = order → cmp b a = order.swap := by
    intro a b first second order same
    rw [separates.swap b second a first, same]
  constructor
  · -- The element that ties with both leads from the greater to the lesser.
    intro orders ⟨x, first, y, second, w, third, less, tie, tie', below, above⟩
    have up : (thenBy cmp key y w).isLE := by rw [thenBy, tie]; exact below
    have down : (thenBy cmp key w x).isLE := by rw [thenBy, tie']; exact above
    have whole := orders.trans y second w third x first up down
    rw [thenBy, swapped first second less] at whole
    cases whole
  · intro none
    refine ⟨fun a first b second => ?_, fun a first b second c third below above => ?_⟩
    · rw [thenBy, thenBy, separates.swap a first b second, keys.swap a first b second,
        Ordering.swap_then]
    · rw [thenBy, Ordering.isLE_then_iff_or] at below above ⊢
      cases outer : cmp a c with
      | lt => exact .inl rfl
      | eq =>
        refine .inr ⟨rfl, ?_⟩
        by_contra greater
        -- The keys of the outer two are in the wrong order, so one step was less.
        have back : (key c a).isLE := by
          have same : key a c = .gt :=
            by_contra fun other => greater (Ordering.isLE_iff_ne_gt.mpr other)
          rw [keys.swap c third a first, same]
          rfl
        rcases below with less | ⟨tie, kept⟩
        · rcases above with less' | ⟨tie', kept'⟩
          · rw [separates.trans a first b second c third less less'] at outer
            cases outer
          · exact none ⟨a, first, b, second, c, third, less, tie', swapped first third outer,
              kept', back⟩
        · rcases above with less' | ⟨tie', kept'⟩
          · exact none ⟨b, second, c, third, a, first, less', swapped first third outer, tie,
              back, kept⟩
          · exact greater (keys.trans a first b second c third kept kept')
      | gt =>
        exfalso
        have less := swapped first third outer
        rcases below with less' | ⟨tie, kept⟩
        · -- The third is below the second, which is at most the third.
          have chain := separates.trans c third a first b second less less'
          rcases above with less'' | ⟨tie', _⟩
          · rw [swapped third second chain] at less''
            cases less''
          · rw [swapped third second chain] at tie'
            cases tie'
        · rcases above with less' | ⟨tie', kept'⟩
          · have chain := separates.trans b second c third a first less' less
            rw [swapped second first chain] at tie
            cases tie
          · exact none ⟨c, third, a, first, b, second, less, tie, tie', kept, kept'⟩

/-- A comparator orders a set exactly when no element ties with two that differ. -/
theorem orders_iff (separates : Separates cmp dom) :
    Orders cmp dom ↔
      ¬ ∃ x, dom x ∧ ∃ y, dom y ∧ ∃ w, dom w ∧ cmp x y = .lt ∧ cmp y w = .eq ∧ cmp w x = .eq := by
  have plain : thenBy cmp (fun _ _ => .eq) = cmp := by
    funext a b
    exact Ordering.then_eq
  have ties := orders_thenBy_iff separates (@Orders.tied _ dom)
  rw [plain] at ties
  rw [ties, Inverted]
  simp only [Ordering.isLE_eq, and_true]

/-- The comparison by the first of some comparators that tells elements apart. -/
def lexAll : List (α → α → Ordering) → α → α → Ordering
  | [] => fun _ _ => .eq
  | cmp :: rest => thenBy cmp (lexAll rest)

/-- Comparing by several orders is an order. -/
theorem orders_lexAll {cmps : List (α → α → Ordering)} (each : ∀ cmp ∈ cmps, Orders cmp dom) :
    Orders (lexAll cmps) dom := by
  induction cmps with
  | nil => exact Orders.tied
  | cons cmp rest ih =>
    have first := each cmp List.mem_cons_self
    exact first.thenBy (ih fun cmp member => each cmp (List.mem_cons_of_mem _ member))

/-- Sorting by a comparator that orders the elements puts each before those it is at most. -/
theorem Orders.pairwise_mergeSort {items : List α} (orders : Orders cmp fun a => a ∈ items) :
    (items.mergeSort fun a b => (cmp a b).isLE).Pairwise fun a b => (cmp a b).isLE := by
  -- Sort the elements together with their membership, where the comparator is an order outright.
  have plain : (items.attach.mergeSort fun a b => (cmp a.1 b.1).isLE).map Subtype.val =
      items.mergeSort fun a b => (cmp a b).isLE := by
    rw [@List.map_mergeSort _ _ (fun a b => (cmp a.1 b.1).isLE) (fun a b => (cmp a b).isLE)
      Subtype.val items.attach fun _ _ _ _ => rfl, List.attach_map_subtype_val]
  have sorted : (items.attach.mergeSort fun a b => (cmp a.1 b.1).isLE).Pairwise
      fun a b => (cmp a.1 b.1).isLE := by
    refine List.pairwise_mergeSort ?_ ?_ _
    · intro a b c below above
      exact orders.trans a.1 a.2 b.1 b.2 c.1 c.2 below above
    · intro a b
      rw [orders.swap b.1 b.2 a.1 a.2]
      cases cmp a.1 b.1 <;> rfl
  rw [← plain, List.pairwise_map]
  exact sorted

/-- Choosing one of two elements again and again leaves one that is related to each. -/
theorem foldl_pick_spec {pick : α → α → α} {le : α → α → Prop} {first : α} {rest : List α}
    (own : ∀ a b, pick a b = a ∨ pick a b = b)
    (held : ∀ a ∈ first :: rest, ∀ b ∈ first :: rest, le (pick a b) a)
    (given : ∀ a ∈ first :: rest, ∀ b ∈ first :: rest, le (pick a b) b)
    (refl : ∀ a ∈ first :: rest, le a a)
    (trans : ∀ a ∈ first :: rest, ∀ b ∈ first :: rest, ∀ c ∈ first :: rest, le a b → le b c → le a c) :
    rest.foldl pick first ∈ first :: rest ∧ ∀ value ∈ first :: rest, le (rest.foldl pick first) value := by
  induction rest generalizing first with
  | nil =>
    refine ⟨List.mem_cons_self, fun value member => ?_⟩
    rw [List.mem_singleton.mp member]
    exact refl first List.mem_cons_self
  | cons head rest ih =>
    have here : first ∈ first :: head :: rest := List.mem_cons_self
    have next : head ∈ first :: head :: rest := List.mem_cons_of_mem _ List.mem_cons_self
    -- What is chosen first is one of the elements, and the rest go on with it.
    have chosen : pick first head ∈ first :: head :: rest := by
      rcases own first head with same | same <;> rw [same]
      · exact here
      · exact next
    have sub : ∀ a ∈ pick first head :: rest, a ∈ first :: head :: rest := by
      intro a listed
      rcases List.mem_cons.mp listed with rfl | later
      · exact chosen
      · exact List.mem_cons_of_mem _ (List.mem_cons_of_mem _ later)
    obtain ⟨member, below⟩ := @ih (pick first head)
      (fun a one b two => held a (sub a one) b (sub b two))
      (fun a one b two => given a (sub a one) b (sub b two))
      (fun a one => refl a (sub a one))
      (fun a one b two c three => trans a (sub a one) b (sub b two) c (sub c three))
    rw [List.foldl_cons]
    have whole := sub _ member
    refine ⟨whole, fun value listed => ?_⟩
    have first' := below (pick first head) List.mem_cons_self
    rcases List.mem_cons.mp listed with rfl | listed
    · exact trans _ whole _ chosen _ here first' (held _ here _ next)
    · rcases List.mem_cons.mp listed with rfl | later
      · exact trans _ whole _ chosen _ next first' (given _ here _ next)
      · exact below value (List.mem_cons_of_mem _ later)

/-- The element that keeping the lesser of two, or the earlier of a tie, leaves. -/
def least (cmp : α → α → Ordering) (first : α) (rest : List α) : α :=
  rest.foldl (fun held value => if cmp held value = .gt then value else held) first

/-- The element that keeping the greater of two, or the later of a tie, leaves. -/
def greatest (cmp : α → α → Ordering) (first : α) (rest : List α) : α :=
  rest.foldl (fun held value => if cmp held value = .gt then held else value) first

/-- An element of an order is at most itself. -/
theorem Orders.isLE_self (orders : Orders cmp dom) {a : α} (member : dom a) : (cmp a a).isLE := by
  rw [self_of_swap orders.swap member]
  rfl

/-- The least of some elements is one of them, and at most each. -/
theorem Orders.least_spec {first : α} {rest : List α} (orders : Orders cmp fun a => a ∈ first :: rest) :
    least cmp first rest ∈ first :: rest ∧
      ∀ value ∈ first :: rest, (cmp (least cmp first rest) value).isLE := by
  refine foldl_pick_spec ?_ ?_ ?_ (fun a member => orders.isLE_self member) orders.trans
  · intro a b
    split_ifs <;> simp
  · intro a one b two
    split_ifs with greater
    · rw [orders.swap b two a one, greater]
      rfl
    · exact orders.isLE_self one
  · intro a one b two
    split_ifs with greater
    · exact orders.isLE_self two
    · exact Ordering.isLE_iff_ne_gt.mpr greater

/-- The greatest of some elements is one of them, and each is at most it. -/
theorem Orders.greatest_spec {first : α} {rest : List α}
    (orders : Orders cmp fun a => a ∈ first :: rest) :
    greatest cmp first rest ∈ first :: rest ∧
      ∀ value ∈ first :: rest, (cmp value (greatest cmp first rest)).isLE := by
  refine @foldl_pick_spec _ _ (fun a b => (cmp b a).isLE) _ _ ?_ ?_ ?_
    (fun a member => orders.isLE_self member)
    fun a one b two c three below above => orders.trans c three b two a one above below
  · intro a b
    split_ifs <;> simp
  · intro a one b two
    split_ifs with greater
    · exact orders.isLE_self one
    · exact Ordering.isLE_iff_ne_gt.mpr greater
  · intro a one b two
    split_ifs with greater
    · rw [orders.swap b two a one, greater]
      rfl
    · exact orders.isLE_self two

/-- The least of some elements and a last one. -/
theorem least_concat (first : α) (rest : List α) (last : α) :
    least cmp first (rest ++ [last]) =
      if cmp (least cmp first rest) last = .gt then last else least cmp first rest := by
  rw [least, List.foldl_append]
  rfl

/-- The greatest of some elements and a last one. -/
theorem greatest_concat (first : α) (rest : List α) (last : α) :
    greatest cmp first (rest ++ [last]) =
      if cmp (greatest cmp first rest) last = .gt then greatest cmp first rest else last := by
  rw [greatest, List.foldl_append]
  rfl

/-- An element that is at most all others is the least when it comes first. -/
theorem least_of_first {first : α} {rest : List α} (below : ∀ value ∈ rest, cmp first value ≠ .gt) :
    least cmp first rest = first := by
  rw [least]
  induction rest with
  | nil => rfl
  | cons head rest ih =>
    rw [List.foldl_cons, if_neg (below head List.mem_cons_self)]
    exact ih fun value member => below value (List.mem_cons_of_mem _ member)

/-- The least of some elements is one of them. -/
theorem least_mem (first : α) (rest : List α) : least cmp first rest ∈ first :: rest :=
  (@foldl_pick_spec _ _ (fun _ _ => True) first rest (fun a b => by split_ifs <;> simp)
    (fun _ _ _ _ => trivial) (fun _ _ _ _ => trivial) (fun _ _ => trivial)
    fun _ _ _ _ _ _ _ _ => trivial).1

/-- The greatest of some elements is one of them. -/
theorem greatest_mem (first : α) (rest : List α) : greatest cmp first rest ∈ first :: rest :=
  (@foldl_pick_spec _ _ (fun _ _ => True) first rest (fun a b => by split_ifs <;> simp)
    (fun _ _ _ _ => trivial) (fun _ _ _ _ => trivial) (fun _ _ => trivial)
    fun _ _ _ _ _ _ _ _ => trivial).1

/-- Choosing again and again comes to an element that is always chosen. -/
theorem foldl_pick_eq {pick : α → α → α} {first : α} {rest : List α} {held : α}
    (member : held ∈ first :: rest) (kept : ∀ a ∈ first :: rest, pick held a = held)
    (taken : ∀ a ∈ first :: rest, pick a held = held) (own : ∀ a b, pick a b = a ∨ pick a b = b) :
    rest.foldl pick first = held := by
  induction rest generalizing first with
  | nil => exact (List.mem_singleton.mp member).symm
  | cons head rest ih =>
    rw [List.foldl_cons]
    have sub : ∀ a ∈ pick first head :: rest, a ∈ first :: head :: rest := by
      intro a listed
      rcases List.mem_cons.mp listed with rfl | later
      · rcases own first head with same | same <;> rw [same] <;> simp
      · exact List.mem_cons_of_mem _ (List.mem_cons_of_mem _ later)
    refine ih ?_ (fun a listed => kept a (sub a listed)) fun a listed => taken a (sub a listed)
    rcases List.mem_cons.mp member with rfl | later
    · rw [kept head (List.mem_cons_of_mem _ List.mem_cons_self)]
      exact List.mem_cons_self
    · rcases List.mem_cons.mp later with rfl | later
      · rw [taken first List.mem_cons_self]
        exact List.mem_cons_self
      · exact List.mem_cons_of_mem _ later

/-- The least of some elements is the one below all others. -/
theorem least_eq (swap : ∀ a b, cmp a b = (cmp b a).swap) {first held : α} {rest : List α}
    (member : held ∈ first :: rest)
    (below : ∀ value ∈ first :: rest, value = held ∨ cmp held value = .lt) :
    least cmp first rest = held := by
  refine foldl_pick_eq member ?_ ?_ ?_
  · intro a listed
    rcases below a listed with rfl | less
    · simp
    · simp [less]
  · intro a listed
    rcases below a listed with rfl | less
    · simp
    · rw [swap a held, less]
      rfl
  · intro a b
    split_ifs <;> simp

/-- The greatest of some elements is the one above all others. -/
theorem greatest_eq (swap : ∀ a b, cmp a b = (cmp b a).swap) {first held : α} {rest : List α}
    (member : held ∈ first :: rest)
    (above : ∀ value ∈ first :: rest, value = held ∨ cmp value held = .lt) :
    greatest cmp first rest = held := by
  refine foldl_pick_eq member ?_ ?_ ?_
  · intro a listed
    rcases above a listed with rfl | less
    · simp
    · rw [swap held a, less]
      rfl
  · intro a listed
    rcases above a listed with rfl | less
    · simp
    · simp [less]
  · intro a b
    split_ifs <;> simp

/-- An element that is the least in every order is below all that differ from it. -/
theorem below_of_least (swap : ∀ a b, cmp a b = (cmp b a).swap)
    (congr : ∀ a b, a ≠ b → cmp a b = .eq → ∀ c, cmp a c = cmp b c) {values : List α} {held : α}
    (same : ∀ first rest, values.Perm (first :: rest) → least cmp first rest = held) :
    ∀ value ∈ values, value = held ∨ cmp held value = .lt := by
  -- An element that differs is not below the one that is left when it comes last.
  have last : ∀ value ∈ values, value ≠ held → cmp held value ≠ .gt := by
    intro value member differ greater
    obtain ⟨before, after, rfl⟩ := List.append_of_mem member
    have order : (before ++ value :: after).Perm ((before ++ after) ++ [value]) :=
      List.perm_middle.trans (List.perm_append_singleton _ _).symm
    cases rest : before ++ after with
    | nil =>
      rw [rest] at order
      exact differ (same value [] order)
    | cons head tail =>
      rw [rest] at order
      have found := same head (tail ++ [value]) order
      rw [least_concat] at found
      split_ifs at found with above
      · exact differ found
      · rw [found] at above
        exact above greater
  intro value member
  by_cases here : value = held
  · exact .inl here
  · right
    cases order : cmp held value with
    | lt => rfl
    | gt => exact absurd order (last value member here)
    | eq =>
      -- Of two that tie the earlier is left, so each would be.
      obtain ⟨before, after, rfl⟩ := List.append_of_mem member
      have found := same value (before ++ after) List.perm_middle
      rw [least_of_first] at found
      · exact absurd found here
      · intro other listed
        rw [← congr held value (Ne.symm here) order other]
        by_cases again : other = held
        · rw [again, Ordering.eq_eq_of_eq_swap (swap held held)]
          exact nofun
        · exact last other (List.perm_middle.mem_iff.mpr (List.mem_cons_of_mem _ listed)) again

/-- An element that is the greatest in every order is above all that differ from it. -/
theorem above_of_greatest (swap : ∀ a b, cmp a b = (cmp b a).swap) {values : List α} {held : α}
    (same : ∀ first rest, values.Perm (first :: rest) → greatest cmp first rest = held) :
    ∀ value ∈ values, value = held ∨ cmp value held = .lt := by
  intro value member
  by_cases here : value = held
  · exact .inl here
  · right
    -- An element that comes last is left unless the one before it is greater.
    obtain ⟨before, after, rfl⟩ := List.append_of_mem member
    have order : (before ++ value :: after).Perm ((before ++ after) ++ [value]) :=
      List.perm_middle.trans (List.perm_append_singleton _ _).symm
    cases rest : before ++ after with
    | nil =>
      rw [rest] at order
      exact absurd (same value [] order) here
    | cons head tail =>
      rw [rest] at order
      have found := same head (tail ++ [value]) order
      rw [greatest_concat] at found
      split_ifs at found with above
      · rw [found] at above
        rw [swap value held, above]
        rfl
      · exact absurd found here

end Comparator
