import Mathlib.Data.List.Perm.Subperm
import Polargraph.Proofs.Storage.Staging
import Polargraph.Proofs.Storage.Scan

/-! Every choice of index answers a scoped scan alike, except where the scan loop goes wrong. -/

namespace Polargraph

namespace TripleStore

/-- The chosen prefix is no longer than a quad. -/
theorem chooseOrder_short (s : Option NodeId) (p : Option PredId) (o : Option NodeId)
    (scope : GraphScope) : (chooseOrder s p o scope).2.length ≤ QUAD_TUPLE_LEN := by
  unfold chooseOrder
  split <;> exact Order.keyPrefix_short _ _ _ _ _

/-- A quad with the bound components is under their prefix in every order. -/
theorem keyPrefix_covers {s : Option NodeId} {p : Option PredId} {o : Option NodeId}
    {g : Option GraphId} {ids : QuadIds} (agrees : Bound.Matches ⟨s, p, o, g⟩ ids) (order : Order) :
    order.keyPrefix s p o g <+: order.tuple ids := by
  have under : order.keyPrefix s p o g <+: order.encode ⟨ids, Timestamp.zero⟩ :=
    Order.keyPrefix_isPrefix agrees order
  exact (Db.isPrefix_encode_iff (order.keyPrefix_short s p o g)).mp under

/-- A quad with the bound components and a graph in scope is under the chosen prefix. -/
theorem chooseOrder_covers {s : Option NodeId} {p : Option PredId} {o : Option NodeId}
    {scope : GraphScope} {ids : QuadIds} (subject : ∀ node, s = some node → ids.s = node)
    (predicate : ∀ id, p = some id → ids.p = id) (object : ∀ node, o = some node → ids.o = node)
    (admitted : scope.admits ids.g = true) :
    (chooseOrder s p o scope).2 <+: (chooseOrder s p o scope).1.tuple ids := by
  have graph : ∀ g, scope = .one g → ids.g = g := by
    rintro g rfl
    exact (by simpa [GraphScope.admits] using admitted : g = ids.g).symm
  unfold chooseOrder
  -- Whatever the choice, the prefix binds only components that agree with the quad.
  split <;> refine keyPrefix_covers ⟨?_, ?_, ?_, ?_⟩ _ <;> simp_all

/-- An optional component agrees with an own one when it is absent or equal. -/
private theorem all_eq_iff {α : Type} [DecidableEq α] (given : Option α) (own : α) :
    given.all (fun value => decide (value = own)) = true ↔ ∀ value, given = some value → own = value := by
  cases given with
  | none => simp
  | some value => simp [eq_comm]

/-- The filter keeps the quads whose bound components agree. -/
theorem boundAgrees_iff {s : Option NodeId} {p : Option PredId} {o : Option NodeId}
    {ids : QuadIds} : boundAgrees s p o ids = true ↔
      (∀ node, s = some node → ids.s = node) ∧ (∀ id, p = some id → ids.p = id) ∧
        ∀ node, o = some node → ids.o = node := by
  simp only [boundAgrees, Bool.and_eq_true, all_eq_iff, and_assoc]

/--
What makes a scoped scan answer as the naive read does.

No wanted live quad is governed by a version at the least start and the least transaction time,
and every live quad under the chosen prefix can be rebuilt from its governing version.
-/
structure ScanSafe (ext : External) (store : TripleStore) (s : Option NodeId)
    (predicate : Option String) (o : Option NodeId) (scope : GraphScope) (point : ReadAt)
    (now : Timestamp) : Prop where
  /-- Governing versions of wanted quads are not at the least start and transaction time. -/
  ranked : ∀ ids tt version, store.Wanted s predicate o scope point ids →
    (store.index.history ids).Governs point.ts (point.vtAsOf.getD now) tt version →
    point.vtAsOf.getD now < version.stop →
    ¬ (version.start = Timestamp.MIN ∧ tt = Timestamp.MIN)
  /-- Live quads under the chosen prefix can be rebuilt. -/
  rebuilt : ∀ p : Option PredId, predicate.map store.predicateId = p.map some →
    ∀ ids slot, ScanFinds store.index (chooseOrder s p o scope).1 (chooseOrder s p o scope).2
      point (point.vtAsOf.getD now) scope ids slot →
    ∃ triple, store.reconstruct ext ids.s ids.p ids.o slot.tt slot.bytes = .ok triple

variable {ext : External} {store : TripleStore} {s : Option NodeId} {predicate : Option String}
  {o : Option NodeId} {scope : GraphScope} {point : ReadAt} {now : Timestamp}

/-- A scoped scan whose predicate is unbound or interned runs the chosen scan and filters it. -/
theorem scanScopedAt_eq {p : Option PredId} (resolved : predicate.map store.predicateId = p.map some) :
    store.scanScopedAt ext s predicate o scope point now =
      (do
        let quads ← store.snapshotScanKeyed ext (chooseOrder s p o scope).1
          (chooseOrder s p o scope).2 point now scope
        return (quads.filter (fun quad => boundAgrees s p o quad.1)).map
          (fun quad => (quad.1.g, quad.2))) := by
  cases predicate with
  | none =>
    cases p with
    | none => rfl
    | some id => simp at resolved
  | some name =>
    cases p with
    | none => simp at resolved
    | some id =>
      have known : store.predicateId name = some id := by simpa using resolved
      simp only [scanScopedAt, known]

/-- A scan for a predicate that is not interned is empty. -/
theorem scanScopedAt_unknown {name : String} (unknown : store.predicateId name = none) :
    store.scanScopedAt ext s (some name) o scope point now = .ok [] := by
  simp only [scanScopedAt, unknown]
  rfl

/-- A wanted quad has the resolved predicate when one is bound. -/
theorem Wanted.pred {ids : QuadIds} {p : Option PredId}
    (wanted : store.Wanted s predicate o scope point ids)
    (resolved : predicate.map store.predicateId = p.map some) : ∀ id, p = some id → ids.p = id := by
  rintro id rfl
  cases predicate with
  | none => simp at resolved
  | some name =>
    have known : store.predicateId name = some id := by simpa using resolved
    exact Option.some.inj ((wanted.predicate name rfl).symm.trans known)

/-- The filtered results of the chosen scan are the wanted quads under its prefix. -/
theorem wanted_iff {ids : QuadIds} {p : Option PredId}
    (resolved : predicate.map store.predicateId = p.map some) :
    store.Wanted s predicate o scope point ids ↔
      ScanAdmits (chooseOrder s p o scope).1 (chooseOrder s p o scope).2 point scope ids ∧
        boundAgrees s p o ids = true := by
  rw [boundAgrees_iff]
  constructor
  · intro wanted
    exact ⟨⟨chooseOrder_covers wanted.subject (wanted.pred resolved) wanted.object wanted.scope,
      wanted.scope, wanted.readable⟩, wanted.subject, wanted.pred resolved, wanted.object⟩
  · rintro ⟨admits, subject, pred, object⟩
    refine ⟨subject, ?_, object, admits.scope, admits.readable⟩
    rintro name rfl
    cases p with
    | none => simp at resolved
    | some id =>
      have known : store.predicateId name = some id := by simpa using resolved
      rw [known, pred id rfl]

/-- A version outranks the empty slot unless it is at the least start and transaction time. -/
theorem fresh_rank_lt_iff {slot : VersionSlot} : VersionSlot.fresh.rank < slot.rank ↔
    ¬ (slot.vtStart = Timestamp.MIN ∧ slot.tt = Timestamp.MIN) := by
  rw [VersionSlot.rank_lt_iff]
  have start := Timestamp.MIN_le slot.vtStart
  have record := Timestamp.MIN_le slot.tt
  simp only [VersionSlot.fresh]
  constructor
  · rintro (later | ⟨_, later⟩) ⟨low, least⟩
    · exact ne_of_gt later low
    · exact ne_of_gt later least
  · intro apart
    by_cases low : slot.vtStart = Timestamp.MIN
    · exact Or.inr ⟨low.symm, lt_of_le_of_ne record fun least => apart ⟨low, least.symm⟩⟩
    · exact Or.inl (lt_of_le_of_ne start (Ne.symm low))

/-- A wanted quad is live below the ranks of the empty slot, or found by the chosen scan. -/
theorem mem_filtered_iff {index : Index} {p : Option PredId} {quads : List (QuadIds × Triple)}
    (resolved : predicate.map store.predicateId = p.map some)
    (found : ∀ ids triple, (ids, triple) ∈ quads ↔
      ∃ slot, ScanFinds index (chooseOrder s p o scope).1 (chooseOrder s p o scope).2 point
          (point.vtAsOf.getD now) scope ids slot ∧
        store.reconstruct ext ids.s ids.p ids.o slot.tt slot.bytes = .ok triple) (ids : QuadIds)
    (triple : Triple) :
    (ids, triple) ∈ quads.filter (fun quad => boundAgrees s p o quad.1) ↔
      store.Wanted s predicate o scope point ids ∧ ∃ slot : VersionSlot,
        (index.history ids).Governs point.ts (point.vtAsOf.getD now) slot.tt slot.version ∧
        point.vtAsOf.getD now < slot.vtEnd ∧ VersionSlot.fresh.rank < slot.rank ∧
        store.reconstruct ext ids.s ids.p ids.o slot.tt slot.bytes = .ok triple := by
  rw [List.mem_filter, found, wanted_iff resolved]
  constructor
  · rintro ⟨⟨slot, finds, rebuilt⟩, agrees⟩
    exact ⟨⟨finds.admits, agrees⟩, slot, finds.governs, finds.covers, finds.higher, rebuilt⟩
  · rintro ⟨⟨admits, agrees⟩, slot, governs, covers, higher, rebuilt⟩
    exact ⟨⟨slot, ⟨admits, governs, covers, higher⟩, rebuilt⟩, agrees⟩

/-- A safe scan returns the wanted live quads. -/
private theorem refines_of_safe {p : Option PredId}
    (holds : ∀ order, store.db.OrderHolds order store.index)
    (resolved : predicate.map store.predicateId = p.map some)
    (safe : ScanSafe ext store s predicate o scope point now) :
    RefinesNaiveRead ext store s predicate o scope point now := by
  -- The chosen scan succeeds, and its filtered results are the witness.
  obtain ⟨succeeds, spec⟩ := snapshotScanKeyed_spec ext (holds (chooseOrder s p o scope).1)
    (chooseOrder_short s p o scope) point now scope
  obtain ⟨all, run⟩ := succeeds.mpr (safe.rebuilt p resolved)
  obtain ⟨distinct, found⟩ := spec all run
  have members := mem_filtered_iff resolved found
  refine ⟨all.filter (fun quad => boundAgrees s p o quad.1), ?_, ?_, fun ids => ?_,
    fun ids triple member => ?_⟩
  · rw [scanScopedAt_eq resolved, run]
    rfl
  · exact distinct.sublist (List.filter_sublist.map _)
  · constructor
    · intro member
      obtain ⟨⟨_, triple⟩, within, rfl⟩ := List.mem_map.mp member
      obtain ⟨wanted, slot, governs, covers, _, _⟩ := (members _ _).mp within
      exact ⟨wanted, slot.tt, slot.version, governs, covers⟩
    · rintro ⟨wanted, tt, version, governs, covers⟩
      -- The governing version fills a slot above the empty one, so the scan finds it.
      have higher : VersionSlot.fresh.rank < VersionSlot.rank
          ⟨version.start, tt, version.stop, version.content⟩ :=
        fresh_rank_lt_iff.mpr (safe.ranked ids tt version wanted governs covers)
      obtain ⟨triple, rebuilt⟩ := safe.rebuilt p resolved ids
        ⟨version.start, tt, version.stop, version.content⟩
        ⟨((wanted_iff resolved).mp wanted).1, governs, covers, higher⟩
      exact List.mem_map.mpr ⟨(ids, triple), (members _ _).mpr
        ⟨wanted, _, governs, covers, higher, rebuilt⟩, rfl⟩
  · obtain ⟨_, slot, governs, _, _, rebuilt⟩ := (members ids triple).mp member
    exact ⟨slot.tt, slot.version, governs, rebuilt⟩

/-- A scan that returns the wanted live quads is safe. -/
private theorem safe_of_refines {p : Option PredId}
    (holds : ∀ order, store.db.OrderHolds order store.index)
    (resolved : predicate.map store.predicateId = p.map some)
    (refines : RefinesNaiveRead ext store s predicate o scope point now) :
    ScanSafe ext store s predicate o scope point now := by
  obtain ⟨succeeds, spec⟩ := snapshotScanKeyed_spec ext (holds (chooseOrder s p o scope).1)
    (chooseOrder_short s p o scope) point now scope
  obtain ⟨quads, result, distinct, live, _⟩ := refines
  rw [scanScopedAt_eq resolved] at result
  obtain ⟨all, run, result⟩ := Except.bind_eq_ok.mp result
  have answers := Except.ok.inj result
  obtain ⟨allDistinct, found⟩ := spec all run
  have members := mem_filtered_iff resolved found
  constructor
  · -- Both lists have one entry per quad and the same length, so a missed quad leaves no room.
    intro ids tt version wanted governs covers low
    have included : (all.filter (fun quad => boundAgrees s p o quad.1)).map Prod.fst ⊆
        quads.map Prod.fst := by
      intro other member
      obtain ⟨⟨_, triple⟩, within, rfl⟩ := List.mem_map.mp member
      obtain ⟨want, slot, leads, stays, _, _⟩ := (members _ _).mp within
      exact (live _).mpr ⟨want, slot.tt, slot.version, leads, stays⟩
    have lengths := congrArg List.length answers
    simp only [List.length_map] at lengths
    have same := (List.subperm_of_subset
      (allDistinct.sublist (List.filter_sublist.map _)) included).perm_of_length_le
      (by rw [List.length_map, List.length_map, lengths])
    have present := same.mem_iff.mpr ((live ids).mpr ⟨wanted, tt, version, governs, covers⟩)
    obtain ⟨⟨_, triple⟩, within, rfl⟩ := List.mem_map.mp present
    obtain ⟨_, slot, leads, _, higher, _⟩ := (members _ _).mp within
    obtain ⟨sameTime, sameVersion⟩ := leads.unique governs
    refine fresh_rank_lt_iff.mp higher ⟨?_, sameTime.trans low.2⟩
    exact (congrArg Version.start sameVersion).trans low.1
  · -- The scan succeeded, so everything it found could be rebuilt.
    intro p' other
    rw [resolved] at other
    rw [← Option.map_injective (Option.some_injective _) other]
    exact succeeds.mp ⟨all, run⟩

/--
A scoped scan of a reachable store answers as the naive read does exactly when it is safe.

The scan may use any of ten index choices; all of them are covered by the eight orders holding one
set of versions.
-/
theorem scanScopedAt_refines_iff (reachable : Reachable ext store) :
    RefinesNaiveRead ext store s predicate o scope point now ↔
      ScanSafe ext store s predicate o scope point now := by
  have holds := reachable.ordersHold
  cases predicate with
  | none =>
    exact ⟨safe_of_refines (p := none) holds rfl, refines_of_safe (p := none) holds rfl⟩
  | some name =>
    cases known : store.predicateId name with
    | some id =>
      have resolved : (some name).map store.predicateId = (some id).map some := by
        rw [Option.map_some, known, Option.map_some]
      exact ⟨safe_of_refines holds resolved, refines_of_safe holds resolved⟩
    | none =>
      -- A predicate that is not interned is on no quad, and the scan is empty.
      have nothing : ∀ ids, ¬ store.Wanted s (some name) o scope point ids := by
        intro ids wanted
        have interned := wanted.predicate name rfl
        rw [known] at interned
        cases interned
      constructor
      · intro _
        refine ⟨fun ids _ _ wanted => absurd wanted (nothing ids), fun p resolved => ?_⟩
        cases p <;> simp [known] at resolved
      · intro _
        refine ⟨[], scanScopedAt_unknown known, by simp, fun ids => ?_, by simp⟩
        simp [nothing ids]

/-- The scan of a store with one ordinary relation is exactly the naive read when it is safe. -/
theorem scanScopedAt_refines_iff_single :
    RefinesNaiveRead External.unreached (single Timestamp.zero Timestamp.zero) none (some "knows")
        none .union ⟨Timestamp.zero, none, none⟩ Timestamp.zero ↔
      ScanSafe External.unreached (single Timestamp.zero Timestamp.zero) none (some "knows")
        none .union ⟨Timestamp.zero, none, none⟩ Timestamp.zero :=
  scanScopedAt_refines_iff (single_reachable Timestamp.zero Timestamp.zero)

/-- A live relation recorded at the least time and valid from the least start is not returned. -/
theorem scanScopedAt_misses_earliest :
    Reachable External.unreached (single Timestamp.MIN Timestamp.MIN) ∧
      ¬ RefinesNaiveRead External.unreached (single Timestamp.MIN Timestamp.MIN) none none none
        .union ⟨Timestamp.zero, none, none⟩ Timestamp.zero := by
  refine ⟨single_reachable _ _, ?_⟩
  rintro ⟨quads, result, _, live, _⟩
  -- The scan is empty, yet the only stored version governs and is open-ended.
  have empty : (single Timestamp.MIN Timestamp.MIN).scanScopedAt External.unreached none none none
      .union ⟨Timestamp.zero, none, none⟩ Timestamp.zero = .ok [] := by decide +kernel
  rw [empty] at result
  have none_found : quads = [] := by simpa using (Except.ok.inj result).symm
  subst none_found
  have stored : (single Timestamp.MIN Timestamp.MIN).index
      ⟨⟨NodeId.ofByte 1, 1, NodeId.ofByte 2, GraphId.DEFAULT⟩, Timestamp.MIN⟩ =
      some (encodeRelation ⟨(NodeId.ofByte 3).uuid⟩
        ⟨Timestamp.MIN, Timestamp.END_OF_TIME, Timestamp.MIN⟩) := by decide +kernel
  have sole : (((single Timestamp.MIN Timestamp.MIN).db.family (.quads .spog)).entries.map
      (fun entry => keyTt entry.1)) = [Timestamp.MIN] := by decide +kernel
  have only : ∀ tt version, (single Timestamp.MIN Timestamp.MIN).index.history
      ⟨NodeId.ofByte 1, 1, NodeId.ofByte 2, GraphId.DEFAULT⟩ tt = some version →
      tt = Timestamp.MIN := by
    intro tt version kept
    have entry := ((single_reachable Timestamp.MIN Timestamp.MIN).ordersHold .spog _ _).mpr
      ⟨_, rfl, (Index.history_eq_some.mp kept).1⟩
    have listed := List.mem_map_of_mem (f := fun entry : Bytes × Bytes => keyTt entry.1) entry
    rw [sole, List.mem_singleton, Order.keyTt_encode] at listed
    exact listed
  have seen : ((single Timestamp.MIN Timestamp.MIN).index.history
      ⟨NodeId.ofByte 1, 1, NodeId.ofByte 2, GraphId.DEFAULT⟩).Sees Timestamp.zero Timestamp.zero
      Timestamp.MIN ⟨Timestamp.MIN, Timestamp.END_OF_TIME, _⟩ :=
    ⟨Index.history_eq_some.mpr ⟨stored, validTime_encodeRelation _ _⟩, by decide, by decide⟩
  have member := (live ⟨NodeId.ofByte 1, 1, NodeId.ofByte 2, GraphId.DEFAULT⟩).mpr
    ⟨⟨by simp, by simp, by simp, rfl, rfl⟩, _, _, seen.governs_of_sole only, by decide⟩
  simp at member

end TripleStore

end Polargraph
