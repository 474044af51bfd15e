import Polargraph.Proofs.Storage.Additions
import Polargraph.Proofs.Storage.Noninterference

/-! Reads at points that see the same versions, and annotations, which are recorded by the counter. -/

namespace Polargraph

namespace TripleStore

variable {ext : External} {store : TripleStore} {first second : ReadAt}

/-- Two points of a read see the same graphs and the same versions in them. -/
structure SeenAlike (store : TripleStore) (first second : ReadAt) : Prop where
  /-- The valid time. -/
  vtAsOf : first.vtAsOf = second.vtAsOf
  /-- The readable graphs. -/
  canRead : ∀ g, first.canRead g = second.canRead g
  /-- The versions in them. -/
  quads : ∀ order : Order, ∀ entry ∈ (store.db.family (.quads order)).entries,
    first.canRead (order.graphOf entry.1) = true →
      (first.ts < keyTt entry.1 ↔ second.ts < keyTt entry.1)
  /-- The edge-property annotations in them. -/
  epa : ∀ entry ∈ (store.db.family .epa).entries, ∀ dk, decodeEpaKey entry.1 = .ok dk →
    first.canRead dk.g = true → (first.ts < dk.tt ↔ second.ts < dk.tt)
  /-- The edge-relation annotations in them. -/
  epo : ∀ entry ∈ (store.db.family .epo).entries, ∀ dk, decodeEpoKey entry.1 = .ok dk →
    first.canRead dk.g = true → (first.ts < dk.tt ↔ second.ts < dk.tt)

/-- A point is seen as another with the same time and the same graphs. -/
theorem SeenAlike.of_graphs (store : TripleStore) (ts : first.ts = second.ts)
    (vtAsOf : first.vtAsOf = second.vtAsOf) (canRead : ∀ g, first.canRead g = second.canRead g) :
    store.SeenAlike first second where
  vtAsOf := vtAsOf
  canRead := canRead
  quads _ _ _ _ := by rw [ts]
  epa _ _ _ _ _ := by rw [ts]
  epo _ _ _ _ _ := by rw [ts]

/-- Whether an entry is readable only depends on what a point can read. -/
theorem readableAdmits_eq (point : ReadAt) (g : GraphId) :
    readableAdmits point.readable g = point.canRead g := rfl

/-- An entry is taken into account in the same way. -/
theorem SeenAlike.scanEntry (alike : store.SeenAlike first second) {order : Order}
    {entry : Bytes × Bytes} (member : entry ∈ (store.db.family (.quads order)).entries)
    (vt : Timestamp) (graphs : GraphScope) (latest : LatestVersions) :
    scanEntry order first vt graphs latest entry = scanEntry order second vt graphs latest entry := by
  obtain ⟨key, value⟩ := entry
  have graph := alike.canRead (order.graphOf key)
  by_cases reads : first.canRead (order.graphOf key) = true
  · have time := alike.quads order (key, value) member reads
    simp only [TripleStore.scanEntry, graph, time]
  · -- An entry of an unreadable graph is skipped whenever it was recorded.
    have hidden : second.canRead (order.graphOf key) = false := by simpa [graph] using reads
    simp only [TripleStore.scanEntry, graph, hidden, Bool.not_false, Bool.or_true, if_true]
    split_ifs <;> rfl

/-- A scan of an order finds the same. -/
theorem SeenAlike.snapshotScanKeyed (alike : store.SeenAlike first second) (order : Order)
    (start : Bytes) (now : Timestamp) (graphs : GraphScope) :
    store.snapshotScanKeyed ext order start first now graphs =
      store.snapshotScanKeyed ext order start second now graphs := by
  have latest : ∀ vt, store.scanLatest order start first vt graphs =
      store.scanLatest order start second vt graphs := by
    intro vt
    exact List.foldlM_congr_items (fun entry member latest =>
      alike.scanEntry (SortedMap.mem_scanPrefix.mp member).1 vt graphs latest) []
  simp only [TripleStore.snapshotScanKeyed, scanLive, latest, alike.vtAsOf, alike.canRead]

/-- A scan across all graphs finds the same. -/
theorem SeenAlike.scanUnion (alike : store.SeenAlike first second) (order : Order) (start : Bytes)
    (now : Timestamp) :
    store.scanUnion ext order start first now = store.scanUnion ext order start second now := by
  simp only [TripleStore.scanUnion, alike.snapshotScanKeyed]

/-- So does one under a predicate. -/
theorem SeenAlike.scanPredicate (alike : store.SeenAlike first second) (predicate : String)
    (order : Order) (start : PredId → Bytes) (now : Timestamp) :
    store.scanPredicate ext predicate order start first now =
      store.scanPredicate ext predicate order start second now := by
  simp only [TripleStore.scanPredicate, alike.scanUnion]

/-- A scan within a scope finds the same. -/
theorem SeenAlike.scanScopedAt (alike : store.SeenAlike first second) (subject : Option NodeId)
    (predicate : Option String) (object : Option NodeId) (scope : GraphScope) (now : Timestamp) :
    store.scanScopedAt ext subject predicate object scope first now =
      store.scanScopedAt ext subject predicate object scope second now := by
  simp only [TripleStore.scanScopedAt, alike.snapshotScanKeyed]

/-- The latest annotations among some entries are the same. -/
theorem latestAnnotations_alike {κ : Type} [DecidableEq κ]
    {decode : Bytes → Except StorageError DecodedAnnotation} {entries : List (Bytes × Bytes)}
    (canRead : ∀ g, first.canRead g = second.canRead g)
    (times : ∀ entry ∈ entries, ∀ dk, decode entry.1 = .ok dk → first.canRead dk.g = true →
      (first.ts < dk.tt ↔ second.ts < dk.tt)) (name : DecodedAnnotation → κ) :
    latestAnnotations decode name first.ts first.readable entries =
      latestAnnotations decode name second.ts second.readable entries := by
  refine List.foldlM_congr_items (fun entry member latest => ?_) []
  obtain ⟨key, value⟩ := entry
  cases decoded : decode key with
  | error problem => simp only [decoded, bind, Except.bind]
  | ok dk =>
    have graph := canRead dk.g
    simp only [decoded, bind, Except.bind, readableAdmits_eq]
    by_cases reads : first.canRead dk.g = true
    · have time := times (key, value) member dk decoded reads
      exact if_congr (or_congr time (by rw [graph])) rfl rfl
    · have hidden : second.canRead dk.g = false := by simpa [graph] using reads
      simp only [graph, hidden, Bool.not_false, or_true, if_true]

/-- The annotations of an edge are the same. -/
theorem SeenAlike.scanEdgeAnnotationsWith (alike : store.SeenAlike first second) (edge : EdgeId) :
    store.scanEdgeAnnotationsWith ext edge first.ts first.readable =
      store.scanEdgeAnnotationsWith ext edge second.ts second.readable := by
  have under (cf : Cf) (entry : Bytes × Bytes)
      (member : entry ∈ (store.db.family cf).scanPrefix edge.uuid.bytes) :
      entry ∈ (store.db.family cf).entries := (SortedMap.mem_scanPrefix.mp member).1
  simp only [TripleStore.scanEdgeAnnotationsWith,
    latestAnnotations_alike alike.canRead fun entry member => alike.epa entry (under .epa entry member),
    latestAnnotations_alike alike.canRead fun entry member => alike.epo entry (under .epo entry member)]

/-- The column families of annotations. -/
def ANNOTATIONS : List Cf := [.epa, .pea, .epo]

/-- Staging a quad adds nothing to the annotations. -/
theorem stageWrite_ofQuad {tt : Timestamp} {p : PredId} {staging next : Staging} {w : PendingWrite}
    (quad : ofQuad w = true) (done : store.stageWrite ext tt p staging w = .ok next) :
    ∀ op ∈ next.batch, op ∈ staging.batch ∨ op.cf ∉ ANNOTATIONS := by
  obtain ⟨triple, g, mode⟩ := w
  intro op member
  cases triple with
  | relation subject predicate object edgeId window =>
    cases done
    rcases List.mem_append.mp member with old | new
    · exact Or.inl old
    · obtain ⟨order, family⟩ := batchQuads_cf new
      exact Or.inr (by simp [family, ANNOTATIONS])
  | property subject predicate value window =>
    obtain ⟨blobs, bytes, closing, _, apart, _, _, batch, _⟩ := stageWrite_property done
    rw [batch] at member
    simp only [List.mem_append] at member
    rcases member with ((before | blob) | quad) | text
    · exact Or.inl before
    · exact Or.inr (by simp [apart op blob, ANNOTATIONS])
    · obtain ⟨order, family⟩ := batchQuads_cf quad
      exact Or.inr (by simp [family, ANNOTATIONS])
    · exact Or.inr (by simp [batchTextTrigrams_cf text, ANNOTATIONS])
  | edgeProperty | edgeRelation => cases quad

/-- Staging quads adds nothing to the annotations. -/
theorem stageWrites_ofQuad {tt : Timestamp} {staging next : Staging} {writes : List PendingWrite}
    {store after : TripleStore} (quads : ∀ w ∈ writes, ofQuad w = true)
    (apart : ∀ op ∈ staging.batch, op.cf ∉ ANNOTATIONS)
    (done : stageWrites ext tt store staging writes = (after, .ok next)) :
    ∀ op ∈ next.batch, op.cf ∉ ANNOTATIONS :=
  stageWrites_stages apart done fun w listed _ _ _ apart staged op member =>
    (stageWrite_ofQuad (quads w listed) staged op member).elim (apart op) id

/-- The end of a key is what was put last. -/
theorem slice_end {before last : Bytes} {start stop : Nat} (ends : before.length = start)
    (fits : last.length = stop - start) : slice (before ++ last) start stop = last := by
  rw [slice, ← ends, List.drop_left, ends, ← fits, List.take_length]

/-- The key of an edge property has its transaction time. -/
theorem decodeEpaKey_tt {edge : EdgeId} {p : PredId} {g : GraphId} {tt : Timestamp}
    {dk : DecodedAnnotation} (decoded : decodeEpaKey (encodeEpaKey edge p g tt) = .ok dk) :
    dk.tt = tt := by
  obtain ⟨_, _, same⟩ := Except.bind_eq_ok.mp decoded
  cases same
  have last : slice (edge.uuid.bytes ++ u32Bytes p ++ u32Bytes g.raw ++ tt.toBeBytes) 24 32 =
      tt.toBeBytes := slice_end (by simp [Uuid.width]) (by simp)
  simp only [encodeEpaKey, last, Timestamp.fromBeBytes_toBeBytes]

/-- The key of an edge relation has its transaction time. -/
theorem decodeEpoKey_tt {edge : EdgeId} {p : PredId} {object : NodeId} {g : GraphId}
    {tt : Timestamp} {dk : DecodedAnnotation}
    (decoded : decodeEpoKey (encodeEpoKey edge p object g tt) = .ok dk) : dk.tt = tt := by
  obtain ⟨_, _, same⟩ := Except.bind_eq_ok.mp decoded
  cases same
  have last : slice (edge.uuid.bytes ++ u32Bytes p ++ object.uuid.bytes ++ u32Bytes g.raw ++
      tt.toBeBytes) 40 48 = tt.toBeBytes := slice_end (by simp [Uuid.width]) (by simp)
  simp only [encodeEpoKey, last, Timestamp.fromBeBytes_toBeBytes]

/-- No annotation was recorded after a time. -/
structure DatedBy (db : Db) (ts : Timestamp) : Prop where
  /-- Edge properties. -/
  epa : ∀ entry ∈ (db.family .epa).entries, ∀ dk, decodeEpaKey entry.1 = .ok dk → dk.tt ≤ ts
  /-- Edge relations. -/
  epo : ∀ entry ∈ (db.family .epo).entries, ∀ dk, decodeEpoKey entry.1 = .ok dk → dk.tt ≤ ts

/-- Annotations are read alike at every time they were recorded by. -/
theorem latestAnnotations_dated {κ : Type} [DecidableEq κ]
    {decode : Bytes → Except StorageError DecodedAnnotation} {name : DecodedAnnotation → κ}
    {ts later : Timestamp} (readable : Option (List UInt32)) {entries : List (Bytes × Bytes)}
    (reached : ts ≤ later)
    (dated : ∀ entry ∈ entries, ∀ dk, decode entry.1 = .ok dk → dk.tt ≤ ts) :
    latestAnnotations decode name later readable entries =
      latestAnnotations decode name ts readable entries := by
  -- Every entry is seen at both times.
  have canRead : ∀ g, (ReadAt.mk later none readable).canRead g = (ReadAt.mk ts none readable).canRead g :=
    fun _ => rfl
  refine latestAnnotations_alike canRead (fun entry member dk decoded _ => ?_) name
  have early := dated entry member dk decoded
  exact iff_of_false (not_lt.mpr (le_trans early reached)) (not_lt.mpr early)

/-- An annotation that an operation puts is recorded at a time. -/
def Dates (tt : Timestamp) (op : WriteOp) : Prop :=
  ∀ key value dk, (op = .put .epa key value → decodeEpaKey key = .ok dk → dk.tt = tt) ∧
    (op = .put .epo key value → decodeEpoKey key = .ok dk → dk.tt = tt)

/-- Operations on other families put no annotations. -/
theorem dates_of_apart {tt : Timestamp} {op : WriteOp} (apart : op.cf ∉ ANNOTATIONS) :
    Dates tt op := by
  refine fun key value dk => ⟨?_, ?_⟩ <;> rintro rfl <;> simp [ANNOTATIONS, WriteOp.cf] at apart

/-- Staging a write puts annotations at its transaction time only. -/
theorem stageWrite_dates {tt : Timestamp} {p : PredId} {staging next : Staging} {w : PendingWrite}
    (done : store.stageWrite ext tt p staging w = .ok next) :
    ∀ op ∈ next.batch, op ∈ staging.batch ∨ Dates tt op := by
  by_cases quad : ofQuad w = true
  · intro op member
    exact (stageWrite_ofQuad quad done op member).imp_right dates_of_apart
  obtain ⟨triple, g, mode⟩ := w
  intro op member
  cases triple with
  | relation | property => exact absurd rfl quad
  | edgeProperty edge predicate value window =>
    obtain ⟨bytes, _, done⟩ := Except.bind_eq_ok.mp done
    cases done
    rcases List.mem_append.mp member with old | new
    · exact Or.inl old
    · simp only [batchEpa, List.mem_cons, List.not_mem_nil, or_false] at new
      rcases new with rfl | rfl
      · refine Or.inr fun key value dk => ⟨fun same => ?_, fun same => by cases same⟩
        cases same
        exact decodeEpaKey_tt
      · exact Or.inr fun key value dk => ⟨fun same => (by cases same), fun same => by cases same⟩
  | edgeRelation edge predicate object window =>
    cases done
    rcases List.mem_append.mp member with old | new
    · exact Or.inl old
    · rw [List.mem_singleton.mp new]
      refine Or.inr fun key value dk => ⟨fun same => (by cases same), fun same => ?_⟩
      cases same
      exact decodeEpoKey_tt

/-- Staging any writes puts annotations at their transaction time only. -/
theorem stageWrites_dates {tt : Timestamp} {staging next : Staging} {writes : List PendingWrite}
    {store after : TripleStore} (dates : ∀ op ∈ staging.batch, Dates tt op)
    (done : stageWrites ext tt store staging writes = (after, .ok next)) :
    ∀ op ∈ next.batch, Dates tt op :=
  stageWrites_stages dates done fun _ _ _ _ _ dates staged op member =>
    (stageWrite_dates staged op member).elim (dates op) id

/-- A new store has no annotations. -/
theorem datedBy_configured (inlineMax : Nat) (vocabulary : Vocabulary) (canonical : Bool)
    (ts : Timestamp) : DatedBy (configured inlineMax vocabulary canonical).db ts := by
  constructor
  · rw [family_configured (by simp)]
    exact fun entry member => absurd member List.not_mem_nil
  · rw [family_configured (by simp)]
    exact fun entry member => absurd member List.not_mem_nil

/-- A commit records annotations by its own time. -/
theorem DatedBy.commit (dated : DatedBy store.db store.committed)
    (room : store.committed ≠ Timestamp.END_OF_TIME) (tx : Transaction) (wall : Timestamp) :
    DatedBy (store.commit ext tx wall).1.db (store.commit ext tx wall).1.committed := by
  have later : store.committed ≤ store.nextCommitTs wall :=
    le_of_lt (lt_of_lt_of_le (Timestamp.lt_wrap_succ room) (le_max_left _ _))
  have earlier : DatedBy store.db (store.nextCommitTs wall) :=
    ⟨fun entry member dk decoded => le_trans (dated.epa entry member dk decoded) later,
      fun entry member dk decoded => le_trans (dated.epo entry member dk decoded) later⟩
  have interned : ∀ cf ∈ [Cf.epa, .epo], (stageWrites ext (store.beginCommit wall).2
      (store.beginCommit wall).1 Staging.none tx.writes).1.db.family cf = store.db.family cf :=
    fun cf member => family_stageWrites _ _ _ _ (by rintro rfl; simp at member)
  refine commit_rule ext store tx wall (fun _ => dated) (fun _ => earlier) fun _ => ?_
  rw [committed_flush]
  refine flush_rule ext _ tx _ (fun _ => ?_) fun after staging batch staged built => ?_
  · exact ⟨by rw [interned .epa (by simp)]; exact earlier.epa,
      by rw [interned .epo (by simp)]; exact earlier.epo⟩
  · rw [staged] at interned
    have own := stageWrites_dates (fun _ member => absurd member List.not_mem_nil) staged
    -- Every annotation put is one of the staged operations.
    have put : ∀ op ∈ batch, Dates (store.beginCommit wall).2 op := by
      intro op member
      rcases mem_commitBatch built member with quad | other
      · exact own op quad
      · exact dates_of_apart (by rcases other with same | same | same <;> simp [same, ANNOTATIONS])
    constructor
    · refine Db.keys_write .epa
        (fun key => ∀ dk, decodeEpaKey key = .ok dk → dk.tt ≤ (store.beginCommit wall).2) ?_
        fun key value member dk decoded => le_of_eq ((put _ member key value dk).1 rfl decoded)
      rw [interned .epa (by simp)]
      exact earlier.epa
    · refine Db.keys_write .epo
        (fun key => ∀ dk, decodeEpoKey key = .ok dk → dk.tt ≤ (store.beginCommit wall).2) ?_
        fun key value member dk decoded => le_of_eq ((put _ member key value dk).2 rfl decoded)
      rw [interned .epo (by simp)]
      exact earlier.epo

end TripleStore

end Polargraph
