import Polargraph.Lib.AdjacentRuns
import Polargraph.Proofs.Storage.ScopedScan
import Polargraph.Storage.Reads

/-! When the walk over headers reports the quads that a snapshot scan returns. -/

namespace Polargraph

open AdjacentRuns

namespace CurrentQuad

/-- The quad under way after a version of it was seen first. -/
def ofItem (item : QuadIds × VersionSlot) : CurrentQuad :=
  ⟨Order.spog.tuple item.1, item.2.vtStart, item.2.tt, item.2.vtEnd⟩

/-- The call for a quad whose best version is given, none when that does not cover the valid time. -/
def callOf (vt : Timestamp) (item : QuadIds × VersionSlot) : List (NodeId × GraphId) :=
  if vt < item.2.vtEnd then [(item.1.s, item.1.g)] else []

/-- The graph is read from the forty bytes of a quad. -/
theorem graphOf_tuple (ids : QuadIds) : Order.spog.graphOf (Order.spog.tuple ids) = ids.g := by
  have read : ∀ key, Order.spog.graphOf key = ⟨u32From ((key.drop 36).take 4)⟩ := fun _ => rfl
  have width : (Order.spog.tuple (QuadKey.mk ids Timestamp.zero).toQuadIds).length = 40 :=
    Order.tuple_length .spog ids
  rw [← Order.graphOf_encode .spog ⟨ids, Timestamp.zero⟩, read, read, Order.encode,
    List.drop_append_of_le_length (by omega),
    List.take_append_of_le_length (by rw [List.length_drop]; omega)]

/-- The subject is read from the first sixteen bytes of a quad. -/
theorem subject_of_tuple (ids : QuadIds) :
    (⟨Uuid.fromSlice ((Order.spog.tuple ids).take 16)⟩ : NodeId) = ids.s := by
  have front : (Order.spog.tuple ids).take 16 = ids.s.uuid.bytes := by
    rw [Order.tuple, Order.slots, List.flatMap_cons, Slot.bytes]
    exact List.take_left' ids.s.uuid.width
  rw [front, Uuid.fromSlice_bytes]

/-- A finished quad is reported by its subject and graph. -/
theorem flush_ofItem (vt : Timestamp) (item : QuadIds × VersionSlot) :
    (ofItem item).flush vt = callOf vt item := by
  rw [flush, ofItem, graphOf_tuple, subject_of_tuple, callOf]

/-- What one version that the scan takes into account does to the walk. -/
def advance (vt : Timestamp) (state : List (NodeId × GraphId) × Option CurrentQuad)
    (item : QuadIds × VersionSlot) : List (NodeId × GraphId) × Option CurrentQuad :=
  match state.2 with
  | none => (state.1, some (ofItem item))
  | some best =>
    if best.id = Order.spog.tuple item.1 then
      if best.vtStart < item.2.vtStart ∨ (item.2.vtStart = best.vtStart ∧ best.tt < item.2.tt) then
        (state.1, some (ofItem item))
      else state
    else (state.1 ++ best.flush vt, some (ofItem item))

end CurrentQuad

namespace TripleStore

open CurrentQuad

variable {ext : External} {store : TripleStore} {point : ReadAt} {vt : Timestamp}

/-- One step of the walk: entries that are no candidates are passed over. -/
theorem liveEntry_encode (state : List (NodeId × GraphId) × Option CurrentQuad)
    (entry : QuadKey × Bytes) :
    liveEntry point vt state (Order.spog.encode entry.1, entry.2) =
      match candidate point vt .union entry with
      | none => state
      | some item => advance vt state item := by
  obtain ⟨key, value⟩ := entry
  have width : ¬ (Order.spog.encode key).length < 48 := by
    rw [Order.encode_length]
    decide
  have front : (Order.spog.encode key).take 40 = Order.spog.tuple key.toQuadIds := by
    rw [Order.encode]
    exact List.take_left' (Order.tuple_length .spog key.toQuadIds)
  simp only [liveEntry, candidate, Order.keyTt_encode, Order.graphOf_encode, width, front, false_or]
  by_cases late : point.ts < key.tt
  · rw [if_pos late, if_neg (fun both => absurd both.1 (not_le.mpr late))]
  · rw [if_neg late]
    by_cases readable : point.canRead key.g = true
    · rw [if_neg (by simp [readable]), if_pos ⟨not_lt.mp late, rfl, readable⟩]
      cases read : validTime value with
      | none => rfl
      | some window =>
        simp only [Option.bind_some]
        by_cases future : vt < window.1
        · rw [if_pos future, if_neg (not_le.mpr future)]
        · rw [if_neg future, if_pos (not_lt.mp future)]
          rfl
    · rw [if_pos (by simpa using readable), if_neg fun all => readable all.2.2]

/-- The calls of a walk that has come to a state, with the one for the last quad. -/
def finished (vt : Timestamp) (state : List (NodeId × GraphId) × Option CurrentQuad) :
    List (NodeId × GraphId) :=
  state.1 ++ (state.2.map (CurrentQuad.flush vt)).getD []

/-- From a quad under way, the walk reports the best versions of the runs of one quad. -/
theorem foldl_liveEntry (decoded : List (QuadKey × Bytes)) (calls : List (NodeId × GraphId))
    (current : QuadIds × VersionSlot) :
    finished vt ((decoded.map fun entry => (Order.spog.encode entry.1, entry.2)).foldl
        (liveEntry point vt) (calls, some (ofItem current))) =
      calls ++ (runs VersionSlot.rank current
        (decoded.filterMap (candidate point vt .union))).flatMap (callOf vt) := by
  induction decoded generalizing calls current with
  | nil => simp [finished, runs, flush_ofItem]
  | cons entry rest ih =>
    rw [List.map_cons, List.foldl_cons, liveEntry_encode]
    cases offered : candidate point vt .union entry with
    | none =>
      rw [List.filterMap_cons_none offered]
      exact ih calls current
    | some item =>
      rw [List.filterMap_cons_some offered, runs]
      simp only [advance]
      by_cases same : current.1 = item.1
      · -- Another version of the quad under way.
        rw [if_pos (by rw [ofItem, same]), if_pos same, better]
        by_cases higher : current.2.rank < item.2.rank
        · have later : (ofItem current).vtStart < item.2.vtStart ∨
              (item.2.vtStart = (ofItem current).vtStart ∧ (ofItem current).tt < item.2.tt) :=
            (VersionSlot.rank_lt_iff.mp higher).imp_right fun both => ⟨both.1.symm, both.2⟩
          rw [if_pos later, if_pos higher, ih, same]
        · have earlier : ¬ ((ofItem current).vtStart < item.2.vtStart ∨
              (item.2.vtStart = (ofItem current).vtStart ∧ (ofItem current).tt < item.2.tt)) :=
            fun later => higher (VersionSlot.rank_lt_iff.mpr
              (later.imp_right fun both => ⟨both.1.symm, both.2⟩))
          rw [if_neg earlier, if_neg higher, ih]
      · have apart : ¬ (ofItem current).id = Order.spog.tuple item.1 :=
          fun tuple => same (Order.tuple_inj tuple)
        rw [if_neg apart, if_neg same, ih, flush_ofItem, List.flatMap_cons, List.append_assoc]

/-- From the start, the walk reports the best version of each quad. -/
theorem foldl_liveEntry_start (decoded : List (QuadKey × Bytes)) :
    finished vt ((decoded.map fun entry => (Order.spog.encode entry.1, entry.2)).foldl
        (liveEntry point vt) ([], none)) =
      (bests VersionSlot.rank (decoded.filterMap (candidate point vt .union))).flatMap (callOf vt) := by
  induction decoded with
  | nil => rfl
  | cons entry rest ih =>
    rw [List.map_cons, List.foldl_cons, liveEntry_encode]
    cases offered : candidate point vt .union entry with
    | none =>
      rw [List.filterMap_cons_none offered]
      exact ih
    | some item =>
      rw [List.filterMap_cons_some offered, bests]
      exact foldl_liveEntry rest [] item

/-- The calls for some quads are those for the ones whose best version covers the valid time. -/
theorem flatMap_callOf (vt : Timestamp) (items : List (QuadIds × VersionSlot)) :
    items.flatMap (callOf vt) = ((items.filter fun item => decide (vt < item.2.vtEnd)).map
      Prod.fst).map fun ids => (ids.s, ids.g) := by
  induction items with
  | nil => rfl
  | cons item rest ih =>
    rw [List.flatMap_cons, ih, callOf, List.filter_cons]
    by_cases covers : vt < item.2.vtEnd
    · simp [covers]
    · simp [covers]

/-- Sequences are in order when their first parts of one length are. -/
theorem le_of_append_lt {α : Type} [LinearOrder α] {first second before after : List α}
    (width : first.length = second.length) (below : first ++ before < second ++ after) :
    first ≤ second := by
  induction first generalizing second with
  | nil =>
    rw [List.length_eq_zero_iff.mp width.symm]
  | cons head rest ih =>
    cases second with
    | nil => cases width
    | cons head' rest' =>
      rw [List.cons_append, List.cons_append, List.cons_lt_cons_iff] at below
      rcases below with less | ⟨rfl, below⟩
      · exact le_of_lt (List.cons_lt_cons_iff.mpr (.inl less))
      · rcases lt_or_eq_of_le (ih (Nat.succ.inj width) below) with less | same
        · exact le_of_lt (List.cons_lt_cons_iff.mpr (.inr ⟨rfl, less⟩))
        · rw [same]

/-- Keys are ordered first by their quads. -/
theorem tuple_le_of_encode_lt {order : Order} {left right : QuadKey}
    (below : order.encode left < order.encode right) :
    order.tuple left.toQuadIds ≤ order.tuple right.toQuadIds := by
  rw [Order.encode, Order.encode] at below
  have width : (order.tuple left.toQuadIds).length = (order.tuple right.toQuadIds).length := by
    rw [Order.tuple_length, Order.tuple_length]
  exact le_of_append_lt width below

/-- The walk reports the quads that have a governing version that covers the valid time, each once. -/
theorem liveSubjectGraphsAt_spec {index : Index} (holds : store.db.OrderHolds .spog index)
    {start : Bytes} (short : start.length ≤ QUAD_TUPLE_LEN) (point : ReadAt) (now : Timestamp) :
    ∃ live : List QuadIds, live.Nodup ∧
      store.liveSubjectGraphsAt start point now = live.map (fun ids => (ids.s, ids.g)) ∧
      ∀ ids, ids ∈ live ↔ ScanAdmits .spog start point .union ids ∧
        (index.history ids).Live point.ts (point.vtAsOf.getD now) := by
  obtain ⟨decoded, entries, stored⟩ := holds.exists_decoded short
  have offered := mem_candidates stored point (point.vtAsOf.getD now) .union
  let items := decoded.filterMap (candidate point (point.vtAsOf.getD now) .union)
  -- The versions that are looked at come in the order of their quads.
  have sorted : items.Pairwise fun left right =>
      Order.spog.tuple left.1 ≤ Order.spog.tuple right.1 := by
    have keys := (store.db.family (.quads .spog)).scanPrefix_sorted start
    rw [← entries, List.pairwise_map] at keys
    refine List.Pairwise.filterMap _ (fun left right below => ?_) keys
    intro item chosen other chosen'
    rw [(candidate_eq_some.mp chosen).1, (candidate_eq_some.mp chosen').1] at below
    exact tuple_le_of_encode_lt below
  obtain ⟨distinct, best, covers⟩ := @bests_spec _ _ _ _ _ _ _ VersionSlot.rank Order.spog.tuple
    (fun _ _ same => Order.tuple_inj same) items sorted
  have calls : store.liveSubjectGraphsAt start point now =
      (bests VersionSlot.rank items).flatMap (callOf (point.vtAsOf.getD now)) := by
    rw [← foldl_liveEntry_start decoded, entries]
    rfl
  have governs : ∀ ids slot, (ids, slot) ∈ bests VersionSlot.rank items →
      ScanAdmits .spog start point .union ids ∧
        (index.history ids).Governs point.ts (point.vtAsOf.getD now) slot.tt slot.version := by
    intro ids slot listed
    obtain ⟨member, above⟩ := best (ids, slot) listed
    obtain ⟨admits, seen⟩ := (offered ids slot).mp member
    exact ⟨admits, VersionSlot.governs_of_rank_le seen fun other sees =>
      above (ids, other) ((offered ids other).mpr ⟨admits, sees⟩) rfl⟩
  refine ⟨((bests VersionSlot.rank items).filter fun item =>
    decide (point.vtAsOf.getD now < item.2.vtEnd)).map Prod.fst, ?_, ?_, fun ids => ?_⟩
  · exact distinct.sublist (List.filter_sublist.map _)
  · rw [calls, flatMap_callOf]
  · rw [List.mem_map]
    constructor
    · rintro ⟨⟨own, slot⟩, listed, rfl⟩
      obtain ⟨listed, covers⟩ := List.mem_filter.mp listed
      obtain ⟨admits, governs⟩ := governs own slot listed
      exact ⟨admits, slot.tt, slot.version, governs, of_decide_eq_true covers⟩
    · rintro ⟨admits, tt, version, governed, ends⟩
      -- The best version of the quad is the one that governs.
      have member := (offered ids ⟨version.start, tt, version.stop, version.content⟩).mpr
        ⟨admits, governed.seen⟩
      obtain ⟨⟨own, slot⟩, listed, same⟩ := covers _ member
      obtain rfl : own = ids := same
      obtain ⟨_, same⟩ := governed.unique (governs own slot listed).2
      have stop : version.stop = slot.vtEnd := congrArg Version.stop same
      exact ⟨(own, slot), List.mem_filter.mpr ⟨listed, decide_eq_true (stop ▸ ends)⟩, rfl⟩

/-- The prefix of the keys of a subject, or of all keys. -/
def subjectPrefix (subject : Option NodeId) : Bytes := (subject.map fun node => node.uuid.bytes).getD []

/-- The walk makes one call for each quad that the scan returns, and no others. -/
def ReportsScanned (ext : External) (store : TripleStore) (subject : Option NodeId) (point : ReadAt)
    (now : Timestamp) : Prop :=
  ∃ quads, store.snapshotScanKeyed ext .spog (subjectPrefix subject) point now .union = .ok quads ∧
    (store.liveSubjectGraphsAt (subjectPrefix subject) point now).Perm
      (quads.map fun quad => (quad.1.s, quad.1.g))

/-- What the scan finds can be rebuilt, and no quad is live by a version of the least times. -/
structure ScansAll (ext : External) (store : TripleStore) (subject : Option NodeId) (point : ReadAt)
    (now : Timestamp) : Prop where
  /-- The triple of every quad that is found can be rebuilt. -/
  rebuilt : ∀ ids slot, ScanFinds store.index .spog (subjectPrefix subject) point
    (point.vtAsOf.getD now) .union ids slot →
      ∃ triple, store.reconstruct ext ids.s ids.p ids.o slot.tt slot.bytes = .ok triple
  /-- A version from the least start, recorded at the least time, that governs a quad has ended. -/
  ended : ∀ ids version, ScanAdmits .spog (subjectPrefix subject) point .union ids →
    (store.index.history ids).Governs point.ts (point.vtAsOf.getD now) Timestamp.MIN version →
      version.start = Timestamp.MIN → version.stop ≤ point.vtAsOf.getD now

/-- The walk reports the scanned quads exactly when the scan returns all live ones. -/
theorem reportsScanned_iff (holds : store.db.OrderHolds .spog store.index) (subject : Option NodeId)
    (point : ReadAt) (now : Timestamp) :
    ReportsScanned ext store subject point now ↔ ScansAll ext store subject point now := by
  have short : (subjectPrefix subject).length ≤ QUAD_TUPLE_LEN := by
    cases subject with
    | none => exact Nat.zero_le _
    | some node =>
      have width := node.uuid.width
      rw [subjectPrefix, Option.map_some, Option.getD_some, width]
      decide
  obtain ⟨live, distinct, calls, reported⟩ := liveSubjectGraphsAt_spec holds short point now
  obtain ⟨succeeds, returns⟩ := snapshotScanKeyed_spec ext holds short point now .union
  -- What is found is live, so it is reported.
  have live_of_finds : ∀ ids slot, ScanFinds store.index .spog (subjectPrefix subject) point
      (point.vtAsOf.getD now) .union ids slot → ids ∈ live := fun ids slot finds =>
    (reported ids).mpr ⟨finds.admits, slot.tt, slot.version, finds.governs, finds.covers⟩
  constructor
  · rintro ⟨quads, done, perm⟩
    refine ⟨succeeds.mp ⟨quads, done⟩, fun ids version admits governs least => ?_⟩
    by_contra open_
    have scanned := (returns quads done).1
    have sub : ∀ other ∈ quads.map Prod.fst, other ∈ live := by
      intro other member
      obtain ⟨slot, finds⟩ := (mem_ids_of_scan holds short done other).mp member
      exact live_of_finds other slot finds
    have count : live.length = (quads.map Prod.fst).length := by
      have total := perm.length_eq
      rw [calls, List.length_map, List.length_map] at total
      rw [List.length_map, total]
    -- As many quads are scanned as are reported, so the quad is among them.
    have all := (scanned.subperm sub).perm_of_length_le (le_of_eq count)
    have member := all.mem_iff.mpr
      ((reported ids).mpr ⟨admits, Timestamp.MIN, version, governs, not_le.mp open_⟩)
    obtain ⟨slot, finds⟩ := (mem_ids_of_scan holds short done ids).mp member
    obtain ⟨time, same⟩ := governs.unique finds.governs
    have start : version.start = slot.vtStart := congrArg Version.start same
    exact fresh_rank_lt_iff.mp finds.higher ⟨start ▸ least, time.symm⟩
  · intro ⟨rebuilt, ended⟩
    obtain ⟨quads, done⟩ := succeeds.mpr rebuilt
    refine ⟨quads, done, ?_⟩
    have same : live.Perm (quads.map Prod.fst) := by
      refine (List.perm_ext_iff_of_nodup distinct (returns quads done).1).mpr fun ids => ?_
      rw [reported, mem_ids_of_scan holds short done]
      constructor
      · rintro ⟨admits, tt, version, governs, covers⟩
        refine ⟨⟨version.start, tt, version.stop, version.content⟩, admits, governs, covers,
          fresh_rank_lt_iff.mpr ?_⟩
        rintro ⟨start, rfl⟩
        exact absurd covers (not_lt.mpr (ended ids version admits governs start))
      · rintro ⟨slot, finds⟩
        exact (reported ids).mp (live_of_finds ids slot finds)
    rw [calls]
    have pairs := same.map fun ids => (ids.s, ids.g)
    rwa [List.map_map] at pairs

/-- The walk over a store with one ordinary relation reports what the scan returns. -/
theorem reportsScanned_single :
    ReportsScanned External.unreached (single Timestamp.zero Timestamp.zero) none
        ⟨Timestamp.zero, none, none⟩ Timestamp.zero ↔
      ScansAll External.unreached (single Timestamp.zero Timestamp.zero) none
        ⟨Timestamp.zero, none, none⟩ Timestamp.zero :=
  reportsScanned_iff ((single_reachable Timestamp.zero Timestamp.zero).ordersHold .spog) none _ _

/-- The walk reports a relation of the least times, which the scan does not return. -/
theorem reports_earliest : Reachable External.unreached (single Timestamp.MIN Timestamp.MIN) ∧
    ¬ ReportsScanned External.unreached (single Timestamp.MIN Timestamp.MIN) none
      ⟨Timestamp.zero, none, none⟩ Timestamp.zero := by
  refine ⟨single_reachable _ _, ?_⟩
  rintro ⟨quads, done, perm⟩
  have empty : (single Timestamp.MIN Timestamp.MIN).snapshotScanKeyed External.unreached .spog
      (subjectPrefix none) ⟨Timestamp.zero, none, none⟩ Timestamp.zero .union = .ok [] := by
    decide +kernel
  have one : ((single Timestamp.MIN Timestamp.MIN).liveSubjectGraphsAt (subjectPrefix none)
      ⟨Timestamp.zero, none, none⟩ Timestamp.zero).length = 1 := by
    decide +kernel
  cases empty.symm.trans done
  have count := perm.length_eq
  rw [one] at count
  cases count

end TripleStore

end Polargraph
