import Polargraph.Proofs.Storage.Additions
import Polargraph.Proofs.Storage.ScopedScan
import Polargraph.Storage.Graphs

/-! What scans return, in terms of the quads a snapshot shows. -/

namespace Polargraph

variable {ext : External}

/-- A decoded value has the window of its bytes. -/
theorem decodeValue_window {bytes : Bytes} {vtStart vtEnd : Timestamp} {decoded : DecodedValue}
    (read : validTime bytes = some (vtStart, vtEnd)) (done : decodeValue ext bytes = .ok decoded) :
    (match decoded with
      | .relation _ temporal => temporal
      | .property _ temporal => temporal
      | .propertyRef temporal => temporal) = ⟨vtStart, vtEnd, Timestamp.zero⟩ := by
  obtain ⟨disc, s, e, min, head, offsets, long, rfl, rfl, _, rfl, rfl⟩ := validTime_eq_some read
  unfold decodeValue at done
  rw [head] at done
  simp only at done
  split_ifs at done with relation short property short' vector short' truncated ref
  · cases done
    rw [relation, vtOffsets, if_pos rfl] at offsets
    cases offsets
    rfl
  · split at done
    · cases done
    · cases done
      rw [vtOffsets, if_neg relation, if_pos (Or.inl property)] at offsets
      cases offsets
      rfl
  · cases done
    rw [vtOffsets, if_neg relation, if_pos (Or.inr (Or.inl vector))] at offsets
    cases offsets
    rfl
  · rw [read] at done
    cases done
    rfl

namespace TripleStore

variable {store : TripleStore}

/-- A rebuilt triple has the window of its version and its transaction time. -/
theorem temporal_of_reconstruct {s o : NodeId} {p : PredId} {tt vtStart vtEnd : Timestamp}
    {bytes : Bytes} {triple : Triple} (read : validTime bytes = some (vtStart, vtEnd))
    (rebuilt : store.reconstruct ext s p o tt bytes = .ok triple) :
    triple.temporal = ⟨vtStart, vtEnd, tt⟩ := by
  obtain ⟨predicate, _, rebuilt⟩ := Except.bind_eq_ok.mp rebuilt
  obtain ⟨decoded, done, rebuilt⟩ := Except.bind_eq_ok.mp rebuilt
  have window := decodeValue_window read done
  cases decoded with
  | relation edgeId temporal =>
    cases rebuilt
    simp only at window
    rw [window]
    rfl
  | property value temporal =>
    cases rebuilt
    simp only at window
    rw [window]
    rfl
  | propertyRef temporal =>
    obtain ⟨value, _, rebuilt⟩ := Except.bind_eq_ok.mp rebuilt
    cases rebuilt
    simp only at window
    rw [window]
    rfl

/-- What a snapshot shows of a quad in a scope is what a scan finds of it. -/
theorem finds_iff {order : Order} {start : Bytes} {point : ReadAt} {vt : Timestamp}
    {graphs : GraphScope} {ids : QuadIds} (admits : ScanAdmits order start point graphs ids) :
    (∃ slot, ScanFinds store.index order start point vt graphs ids slot) ↔
      store.Shows point.ts vt ids := by
  constructor
  · rintro ⟨slot, finds⟩
    exact ⟨slot.tt, slot.version, finds.governs, finds.covers, fresh_rank_lt_iff.mp finds.higher⟩
  · rintro ⟨tt, version, governs, covers, ranked⟩
    exact ⟨⟨version.start, tt, version.stop, version.content⟩, admits, governs, covers,
      fresh_rank_lt_iff.mpr ranked⟩

/-- A triple was read from the version that makes a snapshot show a quad. -/
def ReadFrom (ext : External) (store : TripleStore) (ts vt : Timestamp) (ids : QuadIds)
    (triple : Triple) : Prop :=
  ∃ tt version, (store.index.history ids).Governs ts vt tt version ∧ vt < version.stop ∧
    triple.temporal = ⟨version.start, version.stop, tt⟩ ∧
    store.reconstruct ext ids.s ids.p ids.o tt version.content = .ok triple

/-- The results of a scan are some shown quads, each once, with the triples read from them. -/
structure ScanResult (ext : External) (store : TripleStore) (ts vt : Timestamp)
    (wanted : QuadIds → Prop) (quads : List (QuadIds × Triple)) : Prop where
  /-- No quad is returned twice. -/
  distinct : (quads.map Prod.fst).Nodup
  /-- The wanted quads that the snapshot shows are returned. -/
  mem_iff : ∀ ids, ids ∈ quads.map Prod.fst ↔ wanted ids ∧ store.Shows ts vt ids
  /-- Each triple was read from its quad. -/
  read : ∀ quad ∈ quads, store.ReadFrom ext ts vt quad.1 quad.2

/-- What a scan of one order returns. -/
theorem scanResult_of_keyed {order : Order} (holds : store.db.OrderHolds order store.index)
    {start : Bytes} (short : start.length ≤ QUAD_TUPLE_LEN) {point : ReadAt} {now : Timestamp}
    {graphs : GraphScope} {quads : List (QuadIds × Triple)}
    (done : store.snapshotScanKeyed ext order start point now graphs = .ok quads) :
    store.ScanResult ext point.ts (point.vtAsOf.getD now) (ScanAdmits order start point graphs)
      quads := by
  obtain ⟨distinct, listed⟩ := (snapshotScanKeyed_spec ext holds short point now graphs).2 quads done
  refine ⟨distinct, fun ids => ?_, fun quad member => ?_⟩
  · rw [mem_ids_of_scan holds short done]
    constructor
    · rintro ⟨slot, finds⟩
      exact ⟨finds.admits, (finds_iff finds.admits).mp ⟨slot, finds⟩⟩
    · rintro ⟨admits, shows⟩
      exact (finds_iff admits).mpr shows
  · obtain ⟨slot, finds, rebuilt⟩ := (listed quad.1 quad.2).mp member
    have window := (Index.history_eq_some.mp finds.governs.seen.stored).2
    exact ⟨slot.tt, slot.version, finds.governs, finds.covers,
      temporal_of_reconstruct window rebuilt, rebuilt⟩

/-- The live quads of a graph are the ones the latest snapshot shows of it. -/
theorem liveQuads_spec (holds : store.db.OrdersHold store.index) {g : GraphId} {now : Timestamp}
    {live : List Triple} (done : store.liveQuads ext g now = .ok live) :
    ∃ quads : List (QuadIds × Triple), live = quads.map Prod.snd ∧
      store.ScanResult ext store.committed now (fun ids => ids.g = g) quads := by
  obtain ⟨quads, scanned, done⟩ := Except.bind_eq_ok.mp done
  cases done
  have result := scanResult_of_keyed (holds .gspo)
    (Order.keyPrefix_short .gspo none none none (some g)) scanned
  refine ⟨quads, rfl, result.distinct, fun ids => ?_, result.read⟩
  rw [result.mem_iff]
  refine and_congr_left fun _ => ⟨fun admits => ?_, ?_⟩
  · exact (by simpa [GraphScope.admits] using admits.scope : g = ids.g).symm
  · rintro rfl
    exact ⟨keyPrefix_covers ⟨by simp, by simp, by simp, by simp⟩ .gspo,
      by simp [GraphScope.admits], rfl⟩

/-- A scoped scan returns the wanted quads that the snapshot shows. -/
theorem scanScopedAt_spec (holds : store.db.OrdersHold store.index) {s : Option NodeId}
    {predicate : Option String} {o : Option NodeId} {scope : GraphScope} {point : ReadAt}
    {now : Timestamp} {found : List (GraphId × Triple)}
    (done : store.scanScopedAt ext s predicate o scope point now = .ok found) :
    ∃ quads : List (QuadIds × Triple), found = quads.map (fun quad => (quad.1.g, quad.2)) ∧
      store.ScanResult ext point.ts (point.vtAsOf.getD now)
        (store.Wanted s predicate o scope point) quads := by
  by_cases known : ∃ p : Option PredId, predicate.map store.predicateId = p.map some
  · obtain ⟨p, resolved⟩ := known
    rw [scanScopedAt_eq resolved] at done
    obtain ⟨quads, scanned, done⟩ := Except.bind_eq_ok.mp done
    cases done
    have result := scanResult_of_keyed (holds _) (chooseOrder_short s p o scope) scanned
    refine ⟨_, rfl, result.distinct.sublist (List.filter_sublist.map _), fun ids => ?_,
      fun quad member => result.read quad (List.mem_filter.mp member).1⟩
    rw [wanted_iff resolved]
    constructor
    · intro member
      obtain ⟨quad, within, rfl⟩ := List.mem_map.mp member
      obtain ⟨inside, agrees⟩ := List.mem_filter.mp within
      obtain ⟨admits, shows⟩ := (result.mem_iff quad.1).mp (List.mem_map.mpr ⟨quad, inside, rfl⟩)
      exact ⟨⟨admits, agrees⟩, shows⟩
    · rintro ⟨⟨admits, agrees⟩, shows⟩
      obtain ⟨quad, inside, rfl⟩ := List.mem_map.mp ((result.mem_iff ids).mpr ⟨admits, shows⟩)
      exact List.mem_map.mpr ⟨quad, List.mem_filter.mpr ⟨inside, agrees⟩, rfl⟩
  · -- The predicate has no identifier, so it is on no quad.
    cases predicate with
    | none => exact absurd ⟨none, rfl⟩ known
    | some name =>
      cases found_id : store.predicateId name with
      | some id => exact absurd ⟨some id, by simp [found_id]⟩ known
      | none =>
        rw [scanScopedAt_unknown found_id] at done
        cases done
        refine ⟨[], rfl, by simp, fun ids => ⟨by simp, fun ⟨wanted, _⟩ => ?_⟩, by simp⟩
        have interned := wanted.predicate name rfl
        rw [found_id] at interned
        cases interned

end TripleStore

end Polargraph
