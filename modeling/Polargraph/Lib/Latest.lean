import Mathlib.Data.List.Basic
import Mathlib.Order.Basic
import Mathlib.Order.Lattice

/-! Hash-map entries updated in a loop, and loops that keep the best item of each key. -/

namespace Latest

variable {κ σ ι : Type} [DecidableEq κ]

/-- Look a key up in an association list. -/
def lookup (key : κ) : List (κ × σ) → Option σ
  | [] => none
  | (other, slot) :: rest => if other = key then some slot else lookup key rest

/-- Update the slot of a key, starting from a fresh slot when the key is new. -/
def entryUpdate (key : κ) (fresh : σ) (update : σ → σ) : List (κ × σ) → List (κ × σ)
  | [] => [(key, update fresh)]
  | (other, slot) :: rest =>
    if other = key then (other, update slot) :: rest
    else (other, slot) :: entryUpdate key fresh update rest

/-- The updated key reads back its updated slot. -/
@[simp] theorem lookup_entryUpdate_self (key : κ) (fresh : σ) (update : σ → σ)
    (slots : List (κ × σ)) :
    lookup key (entryUpdate key fresh update slots) =
      some (update ((lookup key slots).getD fresh)) := by
  -- The first occurrence of the key is the one updated.
  induction slots with
  | nil => simp [entryUpdate, lookup]
  | cons head rest ih =>
    obtain ⟨other, slot⟩ := head
    by_cases same : other = key <;> simp [entryUpdate, lookup, same, ih]

/-- Other keys keep their slots. -/
theorem lookup_entryUpdate_ne {key other : κ} (apart : other ≠ key) (fresh : σ) (update : σ → σ)
    (slots : List (κ × σ)) :
    lookup other (entryUpdate key fresh update slots) = lookup other slots := by
  -- Neither the updated head nor an appended entry is found under another key.
  induction slots with
  | nil => simp [entryUpdate, lookup, apart.symm]
  | cons head rest ih =>
    obtain ⟨name, slot⟩ := head
    by_cases same : name = key
    · subst same
      simp [entryUpdate, lookup, apart.symm]
    · simp [entryUpdate, lookup, same, ih]

/-- Updating an entry adds no key but its own. -/
theorem keys_entryUpdate {key : κ} {fresh : σ} {update : σ → σ} {slots : List (κ × σ)} {name : κ} :
    name ∈ (entryUpdate key fresh update slots).map Prod.fst ↔
      name = key ∨ name ∈ slots.map Prod.fst := by
  induction slots with
  | nil => simp [entryUpdate]
  | cons head rest ih =>
    obtain ⟨other, slot⟩ := head
    by_cases same : other = key
    · subst same
      simp [entryUpdate]
    · simp only [entryUpdate, if_neg same, List.map_cons, List.mem_cons, ih]
      tauto

/-- Updating an entry keeps the keys distinct. -/
theorem nodup_entryUpdate (key : κ) (fresh : σ) (update : σ → σ) {slots : List (κ × σ)}
    (distinct : (slots.map Prod.fst).Nodup) :
    ((entryUpdate key fresh update slots).map Prod.fst).Nodup := by
  induction slots with
  | nil => simp [entryUpdate]
  | cons head rest ih =>
    obtain ⟨other, slot⟩ := head
    obtain ⟨absent, tail⟩ := List.nodup_cons.mp distinct
    by_cases same : other = key
    · simpa [entryUpdate, same] using distinct
    · simp only [entryUpdate, if_neg same, List.map_cons]
      refine List.nodup_cons.mpr ⟨?_, ih tail⟩
      rw [keys_entryUpdate]
      rintro (equal | member)
      · exact same equal
      · exact absent member

/-- The entry of a new key comes last. -/
theorem entryUpdate_of_new {key : κ} {fresh : σ} {update : σ → σ} {slots : List (κ × σ)}
    (new : key ∉ slots.map Prod.fst) :
    entryUpdate key fresh update slots = slots ++ [(key, update fresh)] := by
  induction slots with
  | nil => rfl
  | cons head rest ih =>
    obtain ⟨other, slot⟩ := head
    simp only [List.map_cons, List.mem_cons, not_or] at new
    simp only [entryUpdate, if_neg (Ne.symm new.1), ih new.2, List.cons_append]

/-- What holds of every entry and of the updated ones holds of every entry after an update. -/
theorem forall_entryUpdate {holds : κ × σ → Prop} {key : κ} {fresh : σ} {update : σ → σ}
    {slots : List (κ × σ)} (old : ∀ entry ∈ slots, holds entry) (new : holds (key, update fresh))
    (updated : ∀ slot, (key, slot) ∈ slots → holds (key, update slot)) :
    ∀ entry ∈ entryUpdate key fresh update slots, holds entry := by
  induction slots with
  | nil => simpa [entryUpdate] using new
  | cons head rest ih =>
    obtain ⟨other, slot⟩ := head
    by_cases same : other = key
    · subst same
      simp only [entryUpdate, if_true, List.forall_mem_cons]
      exact ⟨updated slot List.mem_cons_self,
        fun entry member => old entry (List.mem_cons_of_mem _ member)⟩
    · simp only [entryUpdate, if_neg same, List.forall_mem_cons]
      exact ⟨old _ List.mem_cons_self,
        ih (fun entry member => old entry (List.mem_cons_of_mem _ member))
          fun slot member => updated slot (List.mem_cons_of_mem _ member)⟩

/-- With distinct keys, the stored pairs are exactly the successful lookups. -/
theorem mem_iff_lookup {slots : List (κ × σ)} (distinct : (slots.map Prod.fst).Nodup)
    {key : κ} {slot : σ} : (key, slot) ∈ slots ↔ lookup key slots = some slot := by
  -- The head answers its own key, and distinctness keeps that key out of the tail.
  induction slots with
  | nil => simp [lookup]
  | cons head rest ih =>
    obtain ⟨other, stored⟩ := head
    obtain ⟨absent, tail⟩ := List.nodup_cons.mp distinct
    by_cases same : other = key
    · subst same
      have missing : (other, slot) ∉ rest := fun member =>
        absent (List.mem_map.mpr ⟨(other, slot), member, rfl⟩)
      simp [lookup, missing, eq_comm]
    · simp [lookup, same, Ne.symm same, ih tail]

variable (name : ι → κ) (fresh : σ) (absorb : ι → σ → σ)

/-- A loop that updates the entry of each item in turn. -/
def collect (items : List ι) (slots : List (κ × σ)) : List (κ × σ) :=
  items.foldl (fun slots item => entryUpdate (name item) fresh (absorb item) slots) slots

/-- The loop keeps the keys distinct. -/
theorem nodup_collect (items : List ι) {slots : List (κ × σ)}
    (distinct : (slots.map Prod.fst).Nodup) :
    ((collect name fresh absorb items slots).map Prod.fst).Nodup := by
  induction items generalizing slots with
  | nil => exact distinct
  | cons item rest ih => exact ih (nodup_entryUpdate _ _ _ distinct)

/-- Each key ends with its own items absorbed, in order, into the slot it started with. -/
theorem lookup_collect (key : κ) (items : List ι) (slots : List (κ × σ)) :
    lookup key (collect name fresh absorb items slots) =
      if items.filter (fun item => decide (name item = key)) = [] then lookup key slots
      else some ((items.filter (fun item => decide (name item = key))).foldl
        (fun slot item => absorb item slot) ((lookup key slots).getD fresh)) := by
  -- Items of other keys leave the entry alone, and its own items extend the fold.
  induction items generalizing slots with
  | nil => simp [collect]
  | cons item rest ih =>
    have step : collect name fresh absorb (item :: rest) slots =
        collect name fresh absorb rest (entryUpdate (name item) fresh (absorb item) slots) := rfl
    rw [step, ih]
    by_cases same : name item = key
    · subst same
      by_cases final : rest.filter (fun other => decide (name other = name item)) = []
      · simp [final]
      · simp [final]
    · rw [lookup_entryUpdate_ne (Ne.symm same)]
      simp [same]

/-- Collect the items that come with each key. -/
def gather {α : Type} (pairs : List (κ × List α)) : List (κ × List α) :=
  collect Prod.fst [] (fun pair held => held ++ pair.2) pairs []

/-- Each key is collected once. -/
theorem nodup_gather {α : Type} (pairs : List (κ × List α)) : ((gather pairs).map Prod.fst).Nodup :=
  nodup_collect _ _ _ pairs List.nodup_nil

/-- A key has a slot when something comes with it. -/
theorem isSome_lookup_gather {α : Type} {pairs : List (κ × List α)} {key : κ} :
    (lookup key (gather pairs)).isSome ↔ ∃ items, (key, items) ∈ pairs := by
  rw [gather, lookup_collect]
  split
  · rename_i none
    simp only [lookup, Option.isSome_none, Bool.false_eq_true, false_iff, not_exists]
    intro items member
    exact List.filter_eq_nil_iff.mp none (key, items) member (decide_eq_true rfl)
  · rename_i some_
    simp only [Option.isSome_some, true_iff]
    obtain ⟨pair, member⟩ := List.exists_mem_of_ne_nil _ some_
    obtain ⟨inside, same⟩ := List.mem_filter.mp member
    exact ⟨pair.2, by rw [← of_decide_eq_true same]; exact inside⟩

/-- What is collected of a key is what comes with it. -/
theorem mem_gather {α : Type} {pairs : List (κ × List α)} {key : κ} {item : α} :
    item ∈ (lookup key (gather pairs)).getD [] ↔ ∃ items, (key, items) ∈ pairs ∧ item ∈ items := by
  have appended : ∀ (rest : List (κ × List α)) (held : List α),
      item ∈ rest.foldl (fun held pair => held ++ pair.2) held ↔
        item ∈ held ∨ ∃ pair ∈ rest, item ∈ pair.2 := by
    intro rest
    induction rest with
    | nil => simp
    | cons first rest ih =>
      intro held
      rw [List.foldl_cons, ih, List.mem_append, or_assoc]
      simp
  have own : (∃ items, (key, items) ∈ pairs ∧ item ∈ items) ↔
      ∃ pair ∈ pairs.filter (fun pair => decide (pair.1 = key)), item ∈ pair.2 := by
    constructor
    · rintro ⟨items, member, inside⟩
      exact ⟨(key, items), List.mem_filter.mpr ⟨member, by simp⟩, inside⟩
    · rintro ⟨⟨name, items⟩, member, inside⟩
      obtain ⟨paired, same⟩ := List.mem_filter.mp member
      obtain rfl : name = key := of_decide_eq_true same
      exact ⟨items, paired, inside⟩
  rw [gather, lookup_collect, own]
  split_ifs with none
  · simp [none, lookup]
  · rw [Option.getD_some, appended]
    simp [lookup]

/-- Push each item on the list of its key. -/
def pushAll {α : Type} (pairs : List (κ × α)) : List (κ × List α) :=
  gather (pairs.map fun (key, item) => (key, [item]))

/-- The list of a key has the items that were pushed on it. -/
theorem mem_pushAll {α : Type} {pairs : List (κ × α)} {key : κ} {item : α} :
    item ∈ (lookup key (pushAll pairs)).getD [] ↔ (key, item) ∈ pairs := by
  rw [pushAll, mem_gather]
  simp

/-- A key that is not held has an empty list. -/
theorem getD_lookup_of_notMem {α : Type} {slots : List (κ × List α)} {key : κ}
    (new : key ∉ slots.map Prod.fst) : (lookup key slots).getD [] = [] := by
  induction slots with
  | nil => rfl
  | cons head rest ih =>
    obtain ⟨other, slot⟩ := head
    rw [List.map_cons, List.mem_cons, not_or] at new
    rw [lookup, if_neg (Ne.symm new.1), ih new.2]

/-- What is collected under a key, of all keys, is what comes with it. -/
theorem exists_mem_gather {α : Type} {pairs : List (κ × List α)} {key : κ} {item : α} :
    (∃ items, (key, items) ∈ gather pairs ∧ item ∈ items) ↔
      ∃ items, (key, items) ∈ pairs ∧ item ∈ items := by
  refine Iff.trans ?_ mem_gather
  have found : ∀ items, (key, items) ∈ gather pairs ↔ lookup key (gather pairs) = some items :=
    fun _ => mem_iff_lookup (nodup_gather pairs)
  simp only [found]
  cases lookup key (gather pairs) <;> simp

section Best

variable {ρ : Type} [LinearOrder ρ] (rank : σ → ρ)

/-- Keep the higher ranked of two slots, preferring the one already held on a tie. -/
def keepBetter (held offered : σ) : σ := if rank held < rank offered then offered else held

/-- The result of keeping the better slot is one of the candidates and no candidate outranks it. -/
theorem foldl_keepBetter (offers : List σ) (held : σ) :
    (offers.foldl (keepBetter rank) held = held ∨
      (offers.foldl (keepBetter rank) held ∈ offers ∧
        rank held < rank (offers.foldl (keepBetter rank) held))) ∧
    rank held ≤ rank (offers.foldl (keepBetter rank) held) ∧
    ∀ offer ∈ offers, rank offer ≤ rank (offers.foldl (keepBetter rank) held) := by
  -- Each step either keeps the held slot or replaces it by a strictly better offer.
  induction offers generalizing held with
  | nil => simp
  | cons offer rest ih =>
    simp only [List.foldl_cons]
    by_cases better : rank held < rank offer
    · have chosen : keepBetter rank held offer = offer := if_pos better
      rw [chosen]
      obtain ⟨origin, above, all⟩ := ih offer
      refine ⟨Or.inr ⟨?_, lt_of_lt_of_le better above⟩, le_trans (le_of_lt better) above, ?_⟩
      · rcases origin with same | ⟨member, _⟩
        · rw [same]; exact List.mem_cons_self
        · exact List.mem_cons_of_mem _ member
      · intro other member
        rcases List.mem_cons.mp member with rfl | member
        · exact above
        · exact all other member
    · have kept : keepBetter rank held offer = held := if_neg better
      rw [kept]
      obtain ⟨origin, above, all⟩ := ih held
      refine ⟨?_, above, ?_⟩
      · rcases origin with same | ⟨member, higher⟩
        · exact Or.inl same
        · exact Or.inr ⟨List.mem_cons_of_mem _ member, higher⟩
      · intro other member
        rcases List.mem_cons.mp member with rfl | member
        · exact le_trans (not_lt.mp better) above
        · exact all other member

/-- A loop that keeps the better slot of each key ends with the fresh slot or a better one. -/
theorem fresh_or_higher_of_mem_collect (offer : ι → σ) {items : List ι} {key : κ} {slot : σ}
    (member : (key, slot) ∈
      collect name fresh (fun item held => keepBetter rank held (offer item)) items []) :
    slot = fresh ∨ rank fresh < rank slot := by
  rw [mem_iff_lookup (nodup_collect name fresh _ items (by simp)), lookup_collect] at member
  split_ifs at member
  · simp [lookup] at member
  · have ends := Option.some.inj member
    rw [← List.foldl_map] at ends
    rcases (foldl_keepBetter rank _ _).1 with same | ⟨_, higher⟩
    · exact Or.inl (ends.symm.trans same)
    · rw [ends] at higher
      exact Or.inr higher

/--
A loop that keeps the better slot of each key ends with the highest ranked offer of that key.

Offers that do not outrank the fresh slot leave it in place.
-/
theorem mem_collect_keepBetter (offer : ι → σ) {items : List ι}
    (distinct : ∀ left ∈ items, ∀ right ∈ items, name left = name right →
      rank (offer left) = rank (offer right) → offer left = offer right)
    {key : κ} {slot : σ} (higher : rank fresh < rank slot) :
    (key, slot) ∈ collect name fresh (fun item held => keepBetter rank held (offer item)) items []
      ↔ (∃ item ∈ items, name item = key ∧ offer item = slot) ∧
        ∀ item ∈ items, name item = key → rank (offer item) ≤ rank slot := by
  -- The entry of the key is the fold over the offers made to it.
  have folded : (items.filter (fun item => decide (name item = key))).foldl
      (fun held item => keepBetter rank held (offer item)) fresh =
      ((items.filter (fun item => decide (name item = key))).map offer).foldl
        (keepBetter rank) fresh := by
    rw [List.foldl_map]
  have offers : ∀ other, other ∈ (items.filter (fun item => decide (name item = key))).map offer ↔
      ∃ item ∈ items, name item = key ∧ offer item = other := by
    intro other
    simp only [List.mem_map, List.mem_filter, decide_eq_true_eq, and_assoc]
  obtain ⟨origin, above, all⟩ := foldl_keepBetter rank
    ((items.filter (fun item => decide (name item = key))).map offer) fresh
  rw [mem_iff_lookup (nodup_collect name fresh _ items (by simp)), lookup_collect]
  simp only [lookup, Option.getD_none, folded]
  constructor
  · intro found
    split_ifs at found with empty
    rw [Option.some.inj found] at origin above all
    constructor
    · rcases origin with same | ⟨member, _⟩
      · exact absurd higher (same ▸ lt_irrefl _)
      · exact (offers slot).mp member
    · exact fun item member named => all _ ((offers _).mpr ⟨item, member, named, rfl⟩)
  · rintro ⟨⟨item, member, named, rfl⟩, best⟩
    have offered := (offers (offer item)).mpr ⟨item, member, named, rfl⟩
    rw [if_neg (by
      intro empty
      rw [empty] at offered
      simp at offered)]
    rcases origin with same | ⟨kept, _⟩
    · have below := all _ offered
      rw [same] at below
      exact absurd higher (not_lt.mpr below)
    · obtain ⟨other, within, alike, equal⟩ := (offers _).mp kept
      have tied : rank (offer other) = rank (offer item) :=
        le_antisymm (best other within alike) (equal ▸ all _ offered)
      rw [← equal, distinct other within item member (alike.trans named.symm) tied]

end Best

end Latest
