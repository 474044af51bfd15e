import Polargraph.Lib.Except
import Polargraph.Proofs.Storage.Index

/-! A scan finds exactly the live quads under its prefix, each with its governing version. -/

namespace Polargraph

/-- A quad a scan takes into account: under the prefix, in scope and readable. -/
structure ScanAdmits (order : Order) (start : Bytes) (point : ReadAt) (graphs : GraphScope)
    (ids : QuadIds) : Prop where
  /-- Its keys start with the prefix. -/
  under : start <+: order.tuple ids
  /-- Its graph is in scope. -/
  scope : graphs.admits ids.g = true
  /-- Its graph is readable. -/
  readable : point.canRead ids.g = true

namespace VersionSlot

/-- Slots are ranked by start, and by record among equal starts. -/
def rank (slot : VersionSlot) : Timestamp ×ₗ Timestamp := toLex (slot.vtStart, slot.tt)

/-- The version a slot holds. -/
def version (slot : VersionSlot) : Version Timestamp Bytes :=
  ⟨slot.vtStart, slot.vtEnd, slot.bytes⟩

/-- A slot is outranked by a later start, or by an equal start recorded later. -/
theorem rank_lt_iff {left right : VersionSlot} : left.rank < right.rank ↔
    left.vtStart < right.vtStart ∨ (left.vtStart = right.vtStart ∧ left.tt < right.tt) :=
  Prod.Lex.toLex_lt_toLex

/-- Absorbing a version keeps the better ranked slot. -/
theorem absorb_eq_keepBetter : (fun offered held => absorb offered held) =
    fun offered held => Latest.keepBetter rank held offered := by
  funext offered held
  simp only [absorb, Latest.keepBetter, rank_lt_iff]
  by_cases same : held.vtStart = offered.vtStart
  · simp [same]
  · simp [same, Ne.symm same]

/-- A history stores one version per transaction time. -/
theorem eq_of_sees {history : History Timestamp Bytes} {ts vt : Timestamp}
    {left right : VersionSlot} (first : history.Sees ts vt left.tt left.version)
    (second : history.Sees ts vt right.tt right.version) (together : left.tt = right.tt) :
    left = right := by
  have same := first.stored
  rw [together, second.stored] at same
  obtain ⟨start, stop, bytes⟩ := Version.mk.inj (Option.some.inj same)
  cases left
  cases right
  simp only at start stop bytes together
  rw [start, stop, bytes, together]

/-- No seen version outranks the governing one. -/
theorem rank_le_of_governs {history : History Timestamp Bytes} {ts vt : Timestamp}
    {best other : VersionSlot} (governs : history.Governs ts vt best.tt best.version)
    (seen : history.Sees ts vt other.tt other.version) : other.rank ≤ best.rank := by
  rw [← not_lt, rank_lt_iff]
  rintro (later | ⟨same, recorded⟩)
  · rcases governs.latest _ _ seen with before | ⟨equal, _⟩
    · exact lt_asymm later before
    · exact ne_of_gt later equal
  · rcases governs.latest _ _ seen with before | ⟨_, order⟩
    · exact ne_of_gt before same
    · exact absurd recorded (not_lt.mpr order)

/-- A seen version that none outranks governs. -/
theorem governs_of_rank_le {history : History Timestamp Bytes} {ts vt : Timestamp}
    {best : VersionSlot} (seen : history.Sees ts vt best.tt best.version)
    (above : ∀ other : VersionSlot, history.Sees ts vt other.tt other.version →
      other.rank ≤ best.rank) : history.Governs ts vt best.tt best.version := by
  refine ⟨seen, fun tt version sees => ?_⟩
  have low := above ⟨version.start, tt, version.stop, version.content⟩ sees
  rw [← not_lt, rank_lt_iff, not_or, not_and, not_lt] at low
  rcases lt_or_eq_of_le low.1 with before | same
  · exact Or.inl before
  · exact Or.inr ⟨same, not_lt.mp (low.2 same.symm)⟩

end VersionSlot

/-- A quad the scan finds: admitted, with a governing version that covers the valid time. -/
structure ScanFinds (index : Index) (order : Order) (start : Bytes) (point : ReadAt)
    (vt : Timestamp) (graphs : GraphScope) (ids : QuadIds) (slot : VersionSlot) : Prop where
  /-- The scan takes the quad into account. -/
  admits : ScanAdmits order start point graphs ids
  /-- The version governs the point of the read. -/
  governs : (index.history ids).Governs point.ts vt slot.tt slot.version
  /-- Its window covers the valid time. -/
  covers : vt < slot.vtEnd
  /-- It is not at the least start and the least transaction time, where the empty slot is kept. -/
  higher : VersionSlot.fresh.rank < slot.rank

/-- A scan finds the same versions in two indexes that agree up to its transaction time. -/
theorem scanFinds_congr {left right : Index} {order : Order} {start : Bytes} {point : ReadAt}
    {vt : Timestamp} {graphs : GraphScope} {ids : QuadIds} {slot : VersionSlot}
    (agree : ∀ key, key.tt ≤ point.ts → left key = right key) :
    ScanFinds left order start point vt graphs ids slot ↔
      ScanFinds right order start point vt graphs ids slot := by
  have histories : ∀ tt ≤ point.ts, left.history ids tt = right.history ids tt := fun tt early => by
    simp only [Index.history, agree ⟨ids, tt⟩ early]
  have same : (left.history ids).Governs point.ts vt slot.tt slot.version ↔
      (right.history ids).Governs point.ts vt slot.tt slot.version :=
    History.governs_congr histories
  exact ⟨fun finds => ⟨finds.admits, same.mp finds.governs, finds.covers, finds.higher⟩,
    fun finds => ⟨finds.admits, same.mpr finds.governs, finds.covers, finds.higher⟩⟩

namespace TripleStore

/-- The slot an index entry offers to the quad it belongs to, when the scan takes it into account. -/
def candidate (point : ReadAt) (vt : Timestamp) (graphs : GraphScope)
    (entry : QuadKey × Bytes) : Option (QuadIds × VersionSlot) :=
  if entry.1.tt ≤ point.ts ∧ graphs.admits entry.1.g = true ∧ point.canRead entry.1.g = true then
    (validTime entry.2).bind fun window =>
      if window.1 ≤ vt then
        some (entry.1.toQuadIds, ⟨window.1, entry.1.tt, window.2, entry.2⟩)
      else none
  else none

/-- A candidate offers the version of its key, as the scan sees it. -/
theorem candidate_eq_some {point : ReadAt} {vt : Timestamp} {graphs : GraphScope}
    {entry : QuadKey × Bytes} {ids : QuadIds} {slot : VersionSlot} :
    candidate point vt graphs entry = some (ids, slot) ↔
      entry = (⟨ids, slot.tt⟩, slot.bytes) ∧ graphs.admits ids.g = true ∧
        point.canRead ids.g = true ∧ slot.tt ≤ point.ts ∧
        validTime slot.bytes = some (slot.vtStart, slot.vtEnd) ∧ slot.vtStart ≤ vt := by
  obtain ⟨⟨own, tt⟩, value⟩ := entry
  constructor
  · intro offered
    unfold candidate at offered
    split_ifs at offered with seen
    obtain ⟨window, read, offered⟩ := Option.bind_eq_some_iff.mp offered
    split_ifs at offered with begun
    obtain ⟨rfl, rfl⟩ := Prod.mk.inj (Option.some.inj offered)
    exact ⟨rfl, seen.2.1, seen.2.2, seen.1, read, begun⟩
  · rintro ⟨same, scope, readable, recorded, read, begun⟩
    obtain ⟨key, rfl⟩ := Prod.mk.inj same
    obtain ⟨rfl, rfl⟩ := QuadKey.mk.inj key
    unfold candidate
    rw [if_pos ⟨recorded, scope, readable⟩, read]
    exact if_pos begun

/-- The candidates among decoded entries are the versions that the scan sees of admitted quads. -/
theorem mem_candidates {index : Index} {order : Order} {start : Bytes}
    {decoded : List (QuadKey × Bytes)}
    (stored : ∀ entry, entry ∈ decoded ↔
      index entry.1 = some entry.2 ∧ start <+: order.tuple entry.1.toQuadIds)
    (point : ReadAt) (vt : Timestamp) (graphs : GraphScope) (ids : QuadIds) (slot : VersionSlot) :
    (ids, slot) ∈ decoded.filterMap (candidate point vt graphs) ↔
      ScanAdmits order start point graphs ids ∧
        (index.history ids).Sees point.ts vt slot.tt slot.version := by
  simp only [List.mem_filterMap]
  constructor
  · rintro ⟨entry, member, chosen⟩
    obtain ⟨rfl, scope, readable, recorded, read, begun⟩ := candidate_eq_some.mp chosen
    obtain ⟨found, under⟩ := (stored _).mp member
    exact ⟨⟨under, scope, readable⟩, Index.history_eq_some.mpr ⟨found, read⟩, recorded, begun⟩
  · rintro ⟨admits, seen⟩
    obtain ⟨found, read⟩ := Index.history_eq_some.mp seen.stored
    exact ⟨(⟨ids, slot.tt⟩, slot.bytes), (stored _).mpr ⟨found, admits.under⟩,
      candidate_eq_some.mpr ⟨rfl, admits.scope, admits.readable, seen.recorded, read,
        seen.begun⟩⟩

/-- One step of the loop offers the entry's slot, if it has one, to its quad. -/
private theorem scanEntry_encode (order : Order) (point : ReadAt) (vt : Timestamp)
    (graphs : GraphScope) (latest : LatestVersions) (entry : QuadKey × Bytes) :
    scanEntry order point vt graphs latest (order.encode entry.1, entry.2) =
      .ok (match candidate point vt graphs entry with
        | none => latest
        | some item =>
          Latest.entryUpdate item.1 VersionSlot.fresh (VersionSlot.absorb item.2) latest) := by
  -- Each early exit of the loop body is one way of not being a candidate.
  obtain ⟨key, value⟩ := entry
  simp only [scanEntry, candidate, Order.keyTt_encode, Order.graphOf_encode, Order.decode_encode]
  by_cases late : point.ts < key.tt
  · rw [if_pos late, if_neg (fun both => absurd both.1 (not_le.mpr late))]
    rfl
  · rw [if_neg late]
    by_cases seen : graphs.admits key.g = true ∧ point.canRead key.g = true
    · obtain ⟨scope, readable⟩ := seen
      rw [if_neg (by simp [scope, readable]), if_pos ⟨not_lt.mp late, scope, readable⟩]
      cases read : validTime value with
      | none => rfl
      | some window =>
        simp only [Option.bind_some]
        by_cases future : vt < window.1
        · rw [if_pos future, if_neg (not_le.mpr future)]
          rfl
        · rw [if_neg future, if_pos (not_lt.mp future)]
          rfl
    · rw [if_pos (by simpa [Bool.or_eq_true, Bool.not_eq_true', ← not_and_or] using
          (not_and_or.mp seen).imp (fun h => by simpa using h) (fun h => by simpa using h)),
        if_neg (fun all => seen all.2)]
      rfl

/-- The loop offers the slots of the candidates in turn. -/
private theorem foldlM_scanEntry (order : Order) (point : ReadAt) (vt : Timestamp)
    (graphs : GraphScope) (decoded : List (QuadKey × Bytes)) (latest : LatestVersions) :
    (decoded.map (fun entry => (order.encode entry.1, entry.2))).foldlM
        (scanEntry order point vt graphs) latest =
      .ok (Latest.collect Prod.fst VersionSlot.fresh (fun item => VersionSlot.absorb item.2)
        (decoded.filterMap (candidate point vt graphs)) latest) := by
  induction decoded generalizing latest with
  | nil => rfl
  | cons entry rest ih =>
    rw [List.map_cons, List.foldlM_cons, scanEntry_encode]
    cases offered : candidate point vt graphs entry with
    | none => rw [List.filterMap_cons_none offered]; exact ih latest
    | some item => rw [List.filterMap_cons_some offered]; exact ih _

/--
The scan keeps, for every live quad it takes into account, its governing version.

A version at the least start and the least transaction time never replaces the empty slot.
-/
theorem scanLive_eq {store : TripleStore} {order : Order} {index : Index}
    (holds : store.db.OrderHolds order index) {start : Bytes}
    (short : start.length ≤ QUAD_TUPLE_LEN) (point : ReadAt) (vt : Timestamp)
    (graphs : GraphScope) :
    ∃ live, store.scanLive order start point vt graphs = .ok live ∧
      (live.map Prod.fst).Nodup ∧
      ∀ ids slot, (ids, slot) ∈ live ↔ ScanFinds index order start point vt graphs ids slot := by
  -- The loop runs over decodable entries, so it is a fold that keeps the better slot per quad.
  obtain ⟨decoded, entries, stored⟩ := holds.exists_decoded short
  have offered := mem_candidates stored point vt graphs
  have run : store.scanLatest order start point vt graphs =
      .ok (Latest.collect Prod.fst VersionSlot.fresh
        (fun item held => Latest.keepBetter VersionSlot.rank held item.2)
        (decoded.filterMap (candidate point vt graphs)) []) := by
    rw [scanLatest, ← entries, foldlM_scanEntry]
    simp only [VersionSlot.absorb_eq_keepBetter]
  have distinct : ∀ left ∈ decoded.filterMap (candidate point vt graphs),
      ∀ right ∈ decoded.filterMap (candidate point vt graphs), left.1 = right.1 →
        left.2.rank = right.2.rank → left.2 = right.2 := by
    rintro ⟨ids, left⟩ first ⟨other, right⟩ second same tied
    simp only at same tied
    subst same
    exact VersionSlot.eq_of_sees ((offered _ _).mp first).2 ((offered _ _).mp second).2
      (congrArg (fun pair => (ofLex pair).2) tied)
  refine ⟨_, by rw [scanLive, run]; rfl, ?_, fun ids slot => ?_⟩
  · exact (Latest.nodup_collect _ _ _ _ (by simp)).sublist (List.filter_sublist.map _)
  · rw [List.mem_filter, decide_eq_true_eq]
    constructor
    · rintro ⟨member, covers⟩
      have higher : VersionSlot.fresh.rank < slot.rank := by
        rcases Latest.fresh_or_higher_of_mem_collect _ _ _ _ member with rfl | higher
        · exact absurd covers (not_lt.mpr (Timestamp.MIN_le vt))
        · exact higher
      obtain ⟨⟨⟨own, offer⟩, offers, rfl, rfl⟩, best⟩ :=
        (Latest.mem_collect_keepBetter _ _ _ _ distinct higher).mp member
      obtain ⟨admits, seen⟩ := (offered _ _).mp offers
      refine ⟨admits, VersionSlot.governs_of_rank_le seen fun other sees => ?_, covers, higher⟩
      exact best (own, other) ((offered _ _).mpr ⟨admits, sees⟩) rfl
    · rintro ⟨admits, governs, covers, higher⟩
      refine ⟨(Latest.mem_collect_keepBetter Prod.fst VersionSlot.fresh VersionSlot.rank Prod.snd
        distinct higher).mpr ⟨⟨(ids, slot), (offered _ _).mpr ⟨admits, governs.seen⟩, rfl, rfl⟩,
          ?_⟩, covers⟩
      rintro ⟨other, offer⟩ member rfl
      have seen := ((offered _ _).mp member).2
      exact VersionSlot.rank_le_of_governs governs seen

variable {ext : External} {store : TripleStore} {order : Order} {index : Index} {start : Bytes}

/-- Rebuild the triple of a found quad. -/
def rebuild (ext : External) (store : TripleStore) (found : QuadIds × VersionSlot) :
    Except StorageError (QuadIds × Triple) := do
  let triple ← store.reconstruct ext found.1.s found.1.p found.1.o found.2.tt found.2.bytes
  return (found.1, triple)

/-- A found quad is rebuilt under its own identifiers. -/
theorem rebuild_eq_ok {found : QuadIds × VersionSlot} {quad : QuadIds × Triple} :
    rebuild ext store found = .ok quad ↔ quad.1 = found.1 ∧
      store.reconstruct ext found.1.s found.1.p found.1.o found.2.tt found.2.bytes =
        .ok quad.2 := by
  rw [rebuild, Except.bind_eq_ok]
  constructor
  · rintro ⟨triple, done, same⟩
    cases same
    exact ⟨rfl, done⟩
  · rintro ⟨same, done⟩
    exact ⟨quad.2, done, by rw [← same]; rfl⟩

/-- A snapshot scan rebuilds the quads it finds one after another. -/
theorem snapshotScanKeyed_eq (ext : External) (holds : store.db.OrderHolds order index)
    (short : start.length ≤ QUAD_TUPLE_LEN) (point : ReadAt) (now : Timestamp)
    (graphs : GraphScope) : ∃ live : LatestVersions, (live.map Prod.fst).Nodup ∧
      (∀ ids slot, (ids, slot) ∈ live ↔
        ScanFinds index order start point (point.vtAsOf.getD now) graphs ids slot) ∧
      store.snapshotScanKeyed ext order start point now graphs = live.mapM (rebuild ext store) := by
  obtain ⟨live, run, distinct, found⟩ := scanLive_eq holds short point (point.vtAsOf.getD now) graphs
  by_cases hidden : ∃ g, graphs = .one g ∧ point.canRead g = false
  · -- A single unreadable graph admits nothing, so the early return is right.
    obtain ⟨g, rfl, unreadable⟩ := hidden
    refine ⟨[], by simp, fun ids slot => ⟨by simp, fun finds => ?_⟩, ?_⟩
    · have same : g = ids.g := by simpa [GraphScope.admits] using finds.admits.scope
      rw [same, finds.admits.readable] at unreadable
      cases unreadable
    · simp [snapshotScanKeyed, unreadable]
  · refine ⟨live, distinct, found, ?_⟩
    unfold snapshotScanKeyed
    cases graphs with
    | one g =>
      have readable : point.canRead g = true := by
        by_contra unreadable
        exact hidden ⟨g, rfl, by simpa using unreadable⟩
      simp only [readable, Bool.not_true, run]
      rfl
    | union | set | named => simp only [run]; rfl

/--
A snapshot scan succeeds exactly when every quad it finds can be rebuilt.

It then returns those quads, each once, with their governing versions.
-/
theorem snapshotScanKeyed_spec (ext : External) (holds : store.db.OrderHolds order index)
    (short : start.length ≤ QUAD_TUPLE_LEN) (point : ReadAt) (now : Timestamp)
    (graphs : GraphScope) :
    ((∃ quads, store.snapshotScanKeyed ext order start point now graphs = .ok quads) ↔
      ∀ ids slot, ScanFinds index order start point (point.vtAsOf.getD now) graphs ids slot →
        ∃ triple, store.reconstruct ext ids.s ids.p ids.o slot.tt slot.bytes = .ok triple) ∧
    ∀ quads, store.snapshotScanKeyed ext order start point now graphs = .ok quads →
      (quads.map Prod.fst).Nodup ∧
      ∀ ids triple, (ids, triple) ∈ quads ↔
        ∃ slot, ScanFinds index order start point (point.vtAsOf.getD now) graphs ids slot ∧
          store.reconstruct ext ids.s ids.p ids.o slot.tt slot.bytes = .ok triple := by
  obtain ⟨live, distinct, found, result⟩ := snapshotScanKeyed_eq ext holds short point now graphs
  constructor
  · rw [result, Except.mapM_isOk_iff]
    constructor
    · intro all ids slot finds
      obtain ⟨quad, done⟩ := all (ids, slot) ((found ids slot).mpr finds)
      exact ⟨quad.2, (rebuild_eq_ok.mp done).2⟩
    · rintro all ⟨ids, slot⟩ member
      obtain ⟨triple, done⟩ := all ids slot ((found ids slot).mp member)
      exact ⟨(ids, triple), rebuild_eq_ok.mpr ⟨rfl, done⟩⟩
  · intro quads done
    rw [result] at done
    refine ⟨?_, fun ids triple => ?_⟩
    · have names : quads.map Prod.fst = live.map Prod.fst :=
        Except.map_eq_of_mapM (fun _ _ one => (rebuild_eq_ok.mp one).1) done
      rw [names]
      exact distinct
    · rw [Except.mem_of_mapM done]
      constructor
      · rintro ⟨⟨own, slot⟩, member, done⟩
        obtain ⟨rfl, done⟩ := rebuild_eq_ok.mp done
        exact ⟨slot, (found _ _).mp member, done⟩
      · rintro ⟨slot, finds, done⟩
        exact ⟨(ids, slot), (found ids slot).mpr finds, rebuild_eq_ok.mpr ⟨rfl, done⟩⟩

/-- A scan that fails could not rebuild one of the quads it finds. -/
theorem snapshotScanKeyed_error (holds : store.db.OrderHolds order index)
    (short : start.length ≤ QUAD_TUPLE_LEN) {point : ReadAt} {now : Timestamp}
    {graphs : GraphScope} {problem : StorageError}
    (failed : store.snapshotScanKeyed ext order start point now graphs = .error problem) :
    ∃ ids slot, ScanFinds index order start point (point.vtAsOf.getD now) graphs ids slot ∧
      store.reconstruct ext ids.s ids.p ids.o slot.tt slot.bytes = .error problem := by
  obtain ⟨live, _, found, result⟩ := snapshotScanKeyed_eq ext holds short point now graphs
  rw [result] at failed
  obtain ⟨⟨ids, slot⟩, member, stuck⟩ := Except.exists_of_mapM_error failed
  refine ⟨ids, slot, (found ids slot).mp member, ?_⟩
  rcases Except.bind_eq_error.mp stuck with here | ⟨triple, _, later⟩
  · exact here
  · cases later

/-- A scan that succeeds returns exactly the quads it finds. -/
theorem mem_ids_of_scan (holds : store.db.OrderHolds order index)
    (short : start.length ≤ QUAD_TUPLE_LEN) {point : ReadAt} {now : Timestamp}
    {graphs : GraphScope} {quads : List (QuadIds × Triple)}
    (done : store.snapshotScanKeyed ext order start point now graphs = .ok quads) (ids : QuadIds) :
    ids ∈ quads.map Prod.fst ↔
      ∃ slot, ScanFinds index order start point (point.vtAsOf.getD now) graphs ids slot := by
  obtain ⟨succeeds, returns⟩ := snapshotScanKeyed_spec ext holds short point now graphs
  obtain ⟨_, listed⟩ := returns quads done
  rw [List.mem_map]
  constructor
  · rintro ⟨⟨own, triple⟩, member, rfl⟩
    obtain ⟨slot, finds, _⟩ := (listed own triple).mp member
    exact ⟨slot, finds⟩
  · rintro ⟨slot, finds⟩
    obtain ⟨triple, rebuilt⟩ := succeeds.mp ⟨quads, done⟩ ids slot finds
    exact ⟨(ids, triple), (listed ids triple).mpr ⟨slot, finds, rebuilt⟩, rfl⟩

end TripleStore

end Polargraph
