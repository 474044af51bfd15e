import Mathlib.Data.List.Induction
import Polargraph.Proofs.Storage.Staging

/-! The values a replacing write looks at: the last version of each in key order. -/

namespace Polargraph

/-- Keys in key order between two keys of one quad are of that quad. -/
theorem Order.ids_of_between {order : Order} {first middle last : QuadKey}
    (same : first.toQuadIds = last.toQuadIds) (after : order.encode first < order.encode middle)
    (before : order.encode middle < order.encode last) : middle.toQuadIds = first.toQuadIds := by
  -- All three keys start with the same quad prefix.
  have take : ∀ key : QuadKey,
      (order.encode key).take QUAD_TUPLE_LEN = order.tuple key.toQuadIds := fun key =>
    List.take_left' (Order.tuple_length _ _)
  have shared : (order.encode first).take QUAD_TUPLE_LEN =
      (order.encode last).take QUAD_TUPLE_LEN := by rw [take, take, same]
  have long : QUAD_TUPLE_LEN ≤ (order.encode first).length := by
    rw [Order.encode_length]
    decide
  have between := SortedMap.take_eq_of_between shared long after before
  rw [take, take] at between
  exact Order.tuple_inj between

/-- The last of two versions of a quad in key order is the one with the higher time word. -/
theorem Order.encode_lt_iff {order : Order} {ids : QuadIds} {left right : Timestamp} :
    order.encode ⟨ids, left⟩ < order.encode ⟨ids, right⟩ ↔ left.word < right.word := by
  have fits : ∀ time : Timestamp, time.word < 256 ^ 8 := by
    intro time
    simp only [Timestamp.word]
    omega
  have tails : order.encode ⟨ids, left⟩ < order.encode ⟨ids, right⟩ ↔
      left.toBeBytes < right.toBeBytes := by
    simp only [Order.encode]
    exact SortedMap.append_lt_append_iff
  rw [tails]
  exact beBytes_lt_iff (fits left) (fits right)

/-- Pushing a value replaces the last one of the same object, and is added otherwise. -/
theorem pushLatest_append (object previous : NodeId) (value bytes : Bytes)
    (front : List (NodeId × Bytes)) :
    pushLatest object value (front ++ [(previous, bytes)]) =
      if previous = object then front ++ [(previous, value)]
      else front ++ [(previous, bytes), (object, value)] := by
  induction front with
  | nil => rfl
  | cons first rest ih =>
    cases rest with
    | nil =>
      simp only [List.cons_append, List.nil_append, pushLatest]
      split_ifs <;> rfl
    | cons second rest =>
      have step : pushLatest object value (first :: second :: rest ++ [(previous, bytes)]) =
          first :: pushLatest object value (second :: rest ++ [(previous, bytes)]) := rfl
      rw [step, ih]
      split_ifs <;> rfl

/-- Pushing a value whose object is the last one or a new one puts the value in its place. -/
theorem mem_pushLatest {object : NodeId} {value : Bytes} {latest : List (NodeId × Bytes)}
    (distinct : (latest.map Prod.fst).Nodup)
    (last : object ∈ latest.map Prod.fst → latest.getLast?.map Prod.fst = some object) :
    ((pushLatest object value latest).map Prod.fst).Nodup ∧
      (pushLatest object value latest).getLast?.map Prod.fst = some object ∧
      ∀ other bytes, (other, bytes) ∈ pushLatest object value latest ↔
        (other = object ∧ bytes = value) ∨ (other ≠ object ∧ (other, bytes) ∈ latest) := by
  rcases List.eq_nil_or_concat latest with rfl | ⟨front, ⟨previous, held⟩, rfl⟩
  · exact ⟨by simp [pushLatest], by simp [pushLatest], fun other bytes => by simp [pushLatest]⟩
  · rw [List.concat_eq_append] at *
    rw [pushLatest_append]
    rw [List.map_append, List.nodup_append] at distinct
    obtain ⟨unique, _, apart⟩ := distinct
    have absent : ∀ bytes, (previous, bytes) ∉ front := fun bytes member =>
      apart previous (List.mem_map.mpr ⟨_, member, rfl⟩) previous (by simp) rfl
    split_ifs with same
    · -- The last value is replaced, and no earlier one is of its object.
      subst same
      refine ⟨?_, by simp, fun other bytes => ?_⟩
      · rw [List.map_append, List.nodup_append]
        exact ⟨unique, by simp, apart⟩
      · simp only [List.mem_append, List.mem_singleton, Prod.mk.injEq]
        constructor
        · rintro (old | new)
          · exact Or.inr ⟨fun equal => absent bytes (equal ▸ old), Or.inl old⟩
          · exact Or.inl new
        · rintro (new | ⟨other_, old | ⟨equal, _⟩⟩)
          · exact Or.inr new
          · exact Or.inl old
          · exact absurd equal other_
    · -- The object is new, since it would have been the last one.
      have new : object ∉ (front ++ [(previous, held)]).map Prod.fst := by
        intro member
        have ends := last member
        simp only [List.getLast?_append, List.getLast?_singleton, Option.some_or, Option.map_some,
          Option.some.injEq] at ends
        exact same ends
      have fresh : ∀ bytes, (object, bytes) ∉ front ++ [(previous, held)] := fun bytes member =>
        new (List.mem_map.mpr ⟨_, member, rfl⟩)
      have whole : front ++ [(previous, held), (object, value)] =
          (front ++ [(previous, held)]) ++ [(object, value)] := by simp
      rw [whole]
      refine ⟨?_, by simp, fun other bytes => ?_⟩
      · rw [List.map_append, List.nodup_append]
        refine ⟨?_, by simp, fun name member other single => ?_⟩
        · rw [List.map_append, List.nodup_append]
          exact ⟨unique, by simp, apart⟩
        · have only : other = object := by simpa using single
          exact fun equal => new ((equal.trans only) ▸ member)
      · rw [List.mem_append, List.mem_singleton, Prod.mk.injEq]
        constructor
        · rintro (old | added)
          · exact Or.inr ⟨fun equal => fresh bytes (equal ▸ old), old⟩
          · exact Or.inl added
        · rintro (added | ⟨_, old⟩)
          · exact Or.inr added
          · exact Or.inl old

/-- A version is the last one of its quad among some entries in key order. -/
def LastOf (entries : List (QuadKey × Bytes)) (object : NodeId) (bytes : Bytes) : Prop :=
  ∃ entry ∈ entries, entry.1.o = object ∧ entry.2 = bytes ∧
    ∀ other ∈ entries, other.1.o = object →
      ¬ Order.gspo.encode entry.1 < Order.gspo.encode other.1

/-- A later entry becomes the last one of its object, and the others keep theirs. -/
private theorem lastOf_append {front : List (QuadKey × Bytes)} {entry : QuadKey × Bytes}
    (below : ∀ other ∈ front, Order.gspo.encode other.1 < Order.gspo.encode entry.1)
    {object : NodeId} {bytes : Bytes} : LastOf (front ++ [entry]) object bytes ↔
      (object = entry.1.o ∧ bytes = entry.2) ∨
        (object ≠ entry.1.o ∧ LastOf front object bytes) := by
  constructor
  · rintro ⟨own, member, rfl, rfl, top⟩
    rcases List.mem_append.mp member with old | new
    · by_cases same : own.1.o = entry.1.o
      · exact absurd (below own old) (top entry (by simp) same.symm)
      · exact Or.inr ⟨same, own, old, rfl, rfl, fun other inside =>
          top other (List.mem_append_left _ inside)⟩
    · rw [List.mem_singleton.mp new]
      exact Or.inl ⟨rfl, rfl⟩
  · rintro (⟨rfl, rfl⟩ | ⟨apart, own, old, rfl, rfl, top⟩)
    · refine ⟨entry, by simp, rfl, rfl, fun other member _ => ?_⟩
      rcases List.mem_append.mp member with old | new
      · exact lt_asymm (below other old)
      · rw [List.mem_singleton.mp new]
        exact lt_irrefl _
    · refine ⟨own, List.mem_append_left _ old, rfl, rfl, fun other member same => ?_⟩
      rcases List.mem_append.mp member with old' | new
      · exact top other old' same
      · rw [List.mem_singleton.mp new] at same
        exact absurd same.symm apart

/-- Pushing the entries of one property in key order keeps the last value of each object. -/
theorem foldl_pushLatest {s : NodeId} {p : PredId} {g : GraphId}
    (entries : List (QuadKey × Bytes))
    (slot : ∀ entry ∈ entries, entry.1.s = s ∧ entry.1.p = p ∧ entry.1.g = g)
    (sorted : entries.Pairwise fun left right =>
      Order.gspo.encode left.1 < Order.gspo.encode right.1) :
    let latest := entries.foldl (fun latest entry => pushLatest entry.1.o entry.2 latest) []
    (latest.map Prod.fst).Nodup ∧ latest.getLast?.map Prod.fst = entries.getLast?.map (·.1.o) ∧
      ∀ object bytes, (object, bytes) ∈ latest ↔ LastOf entries object bytes := by
  -- The entries of one object follow one another, so only the last pushed value can be replaced.
  induction entries using List.reverseRecOn with
  | nil => simp [LastOf]
  | append_singleton front entry ih =>
    obtain ⟨early, _, across⟩ := List.pairwise_append.mp sorted
    have below : ∀ other ∈ front, Order.gspo.encode other.1 < Order.gspo.encode entry.1 :=
      fun other member => across other member entry (List.mem_singleton_self _)
    obtain ⟨distinct, ends, listed⟩ := ih (fun other member => slot other
      (List.mem_append_left _ member)) early
    simp only [List.foldl_append, List.foldl_cons, List.foldl_nil]
    generalize front.foldl (fun latest entry => pushLatest entry.1.o entry.2 latest) [] = latest
      at distinct ends listed
    have last : entry.1.o ∈ latest.map Prod.fst → latest.getLast?.map Prod.fst = some entry.1.o := by
      intro member
      obtain ⟨⟨object, bytes⟩, held, named⟩ := List.mem_map.mp member
      obtain ⟨own, old, same, _⟩ := (listed object bytes).mp held
      rw [ends]
      rcases List.eq_nil_or_concat front with rfl | ⟨init, final, rfl⟩
      · simp at old
      · rw [List.concat_eq_append] at *
        rw [List.getLast?_append_cons, List.getLast?_singleton, Option.map_some, Option.some.injEq]
        rcases List.mem_append.mp old with before | here
        · have ids : own.1.toQuadIds = entry.1.toQuadIds := by
            obtain ⟨subject, predicate, graph⟩ := slot own (List.mem_append_left _ old)
            obtain ⟨subject', predicate', graph'⟩ := slot entry (by simp)
            exact QuadIds.mk.injEq .. |>.mpr ⟨subject.trans subject'.symm,
              predicate.trans predicate'.symm, same.trans named, graph.trans graph'.symm⟩
          have after := (List.pairwise_append.mp early).2.2 own before final (by simp)
          have between := Order.ids_of_between ids after (below final (by simp))
          exact (congrArg QuadIds.o between).trans (same.trans named)
        · rw [← List.mem_singleton.mp here]
          exact same.trans named
    obtain ⟨distinct', ends', listed'⟩ := mem_pushLatest distinct last
    refine ⟨distinct', ends'.trans (by simp), fun object bytes => ?_⟩
    rw [listed', lastOf_append below, listed]

/-- A value is the last version of a quad by the word of its transaction time. -/
def Index.Newest (index : Index) (ids : QuadIds) (bytes : Bytes) : Prop :=
  ∃ tt, index ⟨ids, tt⟩ = some bytes ∧
    ∀ other, (index ⟨ids, other⟩).isSome → other.word ≤ tt.word

namespace TripleStore

variable {store : TripleStore} {index : Index}

/-- The open values of a property are the last versions of its values that are still open. -/
theorem openValues_spec (holds : store.db.OrderHolds .gspo index) (s : NodeId) (p : PredId)
    (g : GraphId) (time : Timestamp) :
    ∃ values, store.openValues s p g time = .ok values ∧ (values.map Prod.fst).Nodup ∧
      ∀ object bytes, (object, bytes) ∈ values ↔
        index.Newest ⟨s, p, object, g⟩ bytes ∧ openAt time bytes = true := by
  have short := Order.gspo.keyPrefix_short (some s) (some p) none (some g)
  obtain ⟨decoded, entries, stored⟩ := holds.exists_decoded short
  have slot : ∀ entry : QuadKey × Bytes, entry ∈ decoded ↔
      index entry.1 = some entry.2 ∧ entry.1.s = s ∧ entry.1.p = p ∧ entry.1.g = g := by
    intro entry
    rw [stored, ← Db.isPrefix_encode_iff short, Order.gspo_values_isPrefix_iff]
  have sorted : decoded.Pairwise fun left right =>
      Order.gspo.encode left.1 < Order.gspo.encode right.1 := by
    have whole := SortedMap.scanPrefix_sorted (store.db.family (.quads .gspo))
      (Order.gspo.keyPrefix (some s) (some p) none (some g))
    rw [← entries, List.pairwise_map] at whole
    exact whole
  obtain ⟨distinct, _, listed⟩ :=
    foldl_pushLatest decoded (fun entry member => ((slot entry).mp member).2) sorted
  -- The loop decodes every key, so it is the fold over the decoded entries.
  have run : ∀ (rest : List (QuadKey × Bytes)) (latest : List (NodeId × Bytes)),
      (rest.map (fun entry => (Order.gspo.encode entry.1, entry.2))).foldlM
        (fun latest entry => do
          let q ← Order.gspo.decode entry.1
          return pushLatest q.o entry.2 latest) latest =
      (.ok (rest.foldl (fun latest entry => pushLatest entry.1.o entry.2 latest) latest) :
        Except StorageError _) := by
    intro rest
    induction rest with
    | nil => exact fun latest => rfl
    | cons entry rest ih =>
      intro latest
      rw [List.map_cons, List.foldlM_cons, Order.decode_encode]
      exact ih _
  refine ⟨_, by rw [openValues, ← entries, run]; rfl, ?_, fun object bytes => ?_⟩
  · exact distinct.sublist (List.filter_sublist.map _)
  · rw [List.mem_filter, listed]
    refine and_congr_left fun _ => ?_
    constructor
    · rintro ⟨⟨key, value⟩, member, rfl, rfl, top⟩
      obtain ⟨found, rfl, rfl, rfl⟩ := (slot _).mp member
      refine ⟨key.tt, found, fun other present => ?_⟩
      obtain ⟨held, present⟩ := Option.isSome_iff_exists.mp present
      have last := top (⟨key.toQuadIds, other⟩, held) ((slot _).mpr ⟨present, rfl, rfl, rfl⟩) rfl
      rwa [Order.encode_lt_iff, not_lt] at last
    · rintro ⟨tt, found, top⟩
      refine ⟨(⟨⟨s, p, object, g⟩, tt⟩, bytes), (slot _).mpr ⟨found, rfl, rfl, rfl⟩, rfl, rfl, ?_⟩
      rintro ⟨⟨ids, other⟩, held⟩ member rfl
      obtain ⟨present, rfl, rfl, rfl⟩ := (slot _).mp member
      have below := top other (Option.isSome_iff_exists.mpr ⟨held, present⟩)
      rwa [Order.encode_lt_iff, not_lt]

end TripleStore

end Polargraph
