import Mathlib.Data.List.Dedup
import Polargraph.Lib.Skipping
import Polargraph.Proofs.Storage.LogEntry
import Polargraph.Proofs.Storage.Retention
import Polargraph.Storage.Reads

/-! What a restricted reader sees does not depend on the graphs it may not read. -/

namespace Polargraph

/-- The entries of a column family in readable graphs. -/
def readableEntries (readable : List UInt32) (graphOf : Bytes → GraphId)
    (entries : List (Bytes × Bytes)) : List (Bytes × Bytes) :=
  entries.filter (fun entry => readableAdmits (some readable) (graphOf entry.1))

/-- The graph of an edge-property annotation, read from its key in either index. -/
def annotationGraph (key : Bytes) : GraphId := ⟨u32From (slice key 20 24)⟩

/-- The graph of an edge-relation annotation, read from its key. -/
def edgeRelationGraph (key : Bytes) : GraphId := ⟨u32From (slice key 36 40)⟩

/-- Two stores hold the same versions in the readable graphs and the same names. -/
structure SameReadable (readable : List UInt32) (left right : TripleStore) : Prop where
  /-- Predicate names have the same identifiers. -/
  predicateId : ∀ name, left.predicateId name = right.predicateId name
  /-- Predicate identifiers have the same names. -/
  rev : ∀ id, left.rev id = right.rev id
  /-- The same graph identifiers are assigned. -/
  nextGraphId : left.nextGraphId = right.nextGraphId
  /-- The orders hold the same versions. -/
  versions : ∀ order : Order,
    readableEntries readable order.graphOf (left.db.family (.quads order)).entries =
      readableEntries readable order.graphOf (right.db.family (.quads order)).entries
  /-- The out-of-line values that these versions refer to are the same. -/
  blobs : ∀ order : Order, ∀ entry ∈
    readableEntries readable order.graphOf (left.db.family (.quads order)).entries,
    entry.2.head? = some DISC_PROPERTY_REF → ∀ q, order.decode entry.1 = .ok q →
      left.db.get .blob q.o.uuid.bytes = right.db.get .blob q.o.uuid.bytes
  /-- The edge-property annotations are the same. -/
  epa : readableEntries readable annotationGraph (left.db.family .epa).entries =
    readableEntries readable annotationGraph (right.db.family .epa).entries
  /-- So are they in the predicate-first index. -/
  pea : readableEntries readable annotationGraph (left.db.family .pea).entries =
    readableEntries readable annotationGraph (right.db.family .pea).entries
  /-- The edge-relation annotations are the same. -/
  epo : readableEntries readable edgeRelationGraph (left.db.family .epo).entries =
    readableEntries readable edgeRelationGraph (right.db.family .epo).entries

/-- The keys of annotations have their widths. -/
structure Db.WellKeyed (db : Db) : Prop where
  /-- Keys of the edge-property annotations. -/
  epa : ∀ entry ∈ (db.family .epa).entries, entry.1.length = 32
  /-- Keys of the predicate-first index. -/
  pea : ∀ entry ∈ (db.family .pea).entries, entry.1.length = 32
  /-- Keys of the edge-relation annotations. -/
  epo : ∀ entry ∈ (db.family .epo).entries, entry.1.length = 48

/-- Databases with the same annotations have keys of the same widths. -/
theorem Db.WellKeyed.congr {left right : Db} (keyed : left.WellKeyed)
    (same : ∀ cf ∈ [Cf.epa, .pea, .epo], right.family cf = left.family cf) : right.WellKeyed where
  epa := by simpa [same .epa] using keyed.epa
  pea := by simpa [same .pea] using keyed.pea
  epo := by simpa [same .epo] using keyed.epo

/-- A batch of staged operations and operations on other families keeps the widths. -/
theorem Db.WellKeyed.write {db : Db} (keyed : db.WellKeyed) {batch : WriteBatch}
    (known : ∀ op ∈ batch, op.Staged ∨ op.cf ∈ [Cf.metadata, .iri, .chg]) :
    (db.write batch).WellKeyed where
  epa := Db.keys_write .epa (·.length = 32) keyed.epa fun key value member => by
    rcases known _ member with staged | other
    · cases staged
      simp [encodeEpaKey, Uuid.width]
    · simp [WriteOp.cf] at other
  pea := Db.keys_write .pea (·.length = 32) keyed.pea fun key value member => by
    rcases known _ member with staged | other
    · cases staged
      simp [encodePeaKey, Uuid.width]
    · simp [WriteOp.cf] at other
  epo := Db.keys_write .epo (·.length = 48) keyed.epo fun key value member => by
    rcases known _ member with staged | other
    · cases staged
      simp [encodeEpoKey, Uuid.width]
    · simp [WriteOp.cf] at other

namespace TripleStore

variable {ext : External} {readable : List UInt32} {left right : TripleStore}

/-- A commit keeps keys well formed. -/
theorem wellKeyed_commit {store : TripleStore} (keyed : store.db.WellKeyed) (tx : Transaction)
    (wall : Timestamp) : (store.commit ext tx wall).1.db.WellKeyed := by
  have interned : (stageWrites ext (store.beginCommit wall).2 (store.beginCommit wall).1 Staging.none
      tx.writes).1.db.WellKeyed :=
    keyed.congr fun cf member => family_stageWrites _ (store.beginCommit wall).1 _ _
      (by rintro rfl; simp at member)
  refine commit_rule ext store tx wall (fun _ => keyed) (fun _ => keyed) fun _ => ?_
  refine flush_rule ext _ tx _ (fun _ => interned) fun after staging batch staged built => ?_
  rw [staged] at interned
  refine interned.write fun op member => ?_
  rcases mem_commitBatch built member with own | other
  · exact Or.inl (stageWrites_staged (fun _ member => absurd member List.not_mem_nil) staged op own)
  · exact Or.inr (by rcases other with same | same | same <;> simp [same])

/-- The keys of annotations have their widths in every reachable store. -/
theorem Reachable.wellKeyed {store : TripleStore} (reachable : Reachable ext store) :
    store.db.WellKeyed := by
  induction reachable with
  | create inlineMax vocabulary canonical =>
    have empty : ∀ cf ≠ Cf.metadata,
        ((configured inlineMax vocabulary canonical).db.family cf).entries = [] := fun cf apart =>
      congrArg SortedMap.entries (family_configured apart ..)
    exact ⟨by simp [empty], by simp [empty], by simp [empty]⟩
  | commit tx wall _ ih =>
    exact wellKeyed_commit ih tx wall
  | insertAtTs triple tt _ ih =>
    rename_i store _
    have interned : ∀ writes, (stageWrites ext tt store Staging.none writes).1.db.WellKeyed :=
      fun writes => ih.congr fun cf member =>
        family_stageWrites tt store _ _ (by rintro rfl; simp at member)
    have kept := interned [⟨triple, GraphId.DEFAULT, .auto⟩]
    simp only [TripleStore.insertAtTs]
    split
    · rename_i after problem staged
      rwa [staged] at kept
    · rename_i after staging staged
      rw [staged] at kept
      have written :
          (after.db.write (staging.batch ++ batchChange tt "" [] staging.quads)).WellKeyed := by
        refine kept.write fun op member => ?_
        rcases List.mem_append.mp member with own | change
        · exact Or.inl
            (stageWrites_staged (fun _ member => absurd member List.not_mem_nil) staged op own)
        · exact Or.inr (by simp [batchChange_cf change])
      unfold advanceTo
      split_ifs <;> exact written
  | internGraph _ done ih =>
    unfold TripleStore.internGraph at done
    split_ifs at done
    split at done
    · cases done
      exact ih
    · obtain ⟨⟨batch, pending⟩, built, done⟩ := Except.bind_eq_ok.mp done
      cases done
      obtain ⟨entry, rfl, apart⟩ := batchIri_cf built
      refine ih.write fun op member => Or.inr ?_
      rcases List.mem_append.mp member with tables | dictionary
      · simp only [List.mem_cons, List.not_mem_nil, or_false] at tables
        rcases tables with rfl | rfl | rfl <;> simp [WriteOp.cf]
      · simp [apart op dictionary]

/-- A restricted reader's read point reads no other graph. -/
theorem canRead_eq {point : ReadAt} (restricted : point.readable = some readable) (g : GraphId) :
    point.canRead g = readableAdmits (some readable) g := by
  simp only [ReadAt.canRead, restricted, readableAdmits]

/-- A found version has no bytes, or is that of an entry. -/
def FoundIn (order : Order) (entries : List (Bytes × Bytes)) (found : QuadIds × VersionSlot) :
    Prop :=
  found.2.bytes = [] ∨ ∃ entry ∈ entries, ∃ q, order.decode entry.1 = .ok q ∧
    q.toQuadIds = found.1 ∧ entry.2 = found.2.bytes

/-- The versions a scan finds are those of its entries. -/
theorem foundIn_scan {order : Order} {point : ReadAt} {vt : Timestamp} {graphs : GraphScope}
    {entries : List (Bytes × Bytes)} {latest : LatestVersions}
    (done : entries.foldlM (scanEntry order point vt graphs) [] = .ok latest) :
    ∀ found ∈ latest, FoundIn order entries found := by
  refine List.foldlM_invariant (fun latest => ∀ found ∈ latest, FoundIn order entries found)
    (fun latest entry after member before step => ?_) done (fun found member => by cases member)
  obtain ⟨key, value⟩ := entry
  simp only [scanEntry] at step
  split_ifs at step
  · cases step; exact before
  · cases step; exact before
  · split at step
    · cases step; exact before
    · split_ifs at step
      · cases step; exact before
      · obtain ⟨q, decoded, step⟩ := Except.bind_eq_ok.mp step
        cases step
        -- The slot of the quad keeps its version or takes that of the entry.
        have absorbs : ∀ offered held : VersionSlot, offered.bytes = value →
            FoundIn order entries (q.toQuadIds, held) →
            FoundIn order entries (q.toQuadIds, offered.absorb held) := by
          intro offered held same kept
          unfold VersionSlot.absorb
          split_ifs
          · exact Or.inr ⟨_, member, q, decoded, rfl, same.symm⟩
          · exact kept
        exact Latest.forall_entryUpdate before (absorbs _ _ rfl (Or.inl rfl))
          fun slot held => absorbs _ slot rfl (before _ held)

/-- A restricted scan of an order finds the same in stores with the same readable versions. -/
theorem snapshotScanKeyed_congr (same : SameReadable readable left right) {point : ReadAt}
    (restricted : point.readable = some readable) (order : Order) (start : Bytes) (now : Timestamp)
    (graphs : GraphScope) : left.snapshotScanKeyed ext order start point now graphs =
      right.snapshotScanKeyed ext order start point now graphs := by
  have skips : ∀ (vt : Timestamp) (latest : LatestVersions) (entry : Bytes × Bytes),
      readableAdmits (some readable) (order.graphOf entry.1) = false →
      scanEntry order point vt graphs latest entry = .ok latest := by
    rintro vt latest ⟨key, value⟩ unread
    simp only [scanEntry, canRead_eq restricted, unread, Bool.not_false, Bool.or_true, if_true]
    split_ifs <;> rfl
  have only : ∀ (store : TripleStore) (vt : Timestamp),
      store.scanLatest order start point vt graphs =
        (((store.db.family (.quads order)).scanPrefix start).filter (fun entry =>
          readableAdmits (some readable) (order.graphOf entry.1))).foldlM
          (scanEntry order point vt graphs) [] := fun store vt =>
    List.foldlM_of_skips (fun latest entry _ unread => skips vt latest entry unread) []
  have entries := SortedMap.filter_scanPrefix_congr (same.versions order) start
  have latest : ∀ vt, left.scanLatest order start point vt graphs =
      right.scanLatest order start point vt graphs := fun vt => by
    rw [only, only, entries]
  have rebuilt : (left.scanLive order start point (point.vtAsOf.getD now) graphs >>= fun live =>
      live.mapM fun found => (do
        let triple ← left.reconstruct ext found.1.s found.1.p found.1.o found.2.tt found.2.bytes
        return (found.1, triple))) =
      right.scanLive order start point (point.vtAsOf.getD now) graphs >>= fun live =>
        live.mapM fun found => (do
          let triple ← right.reconstruct ext found.1.s found.1.p found.1.o found.2.tt found.2.bytes
          return (found.1, triple)) := by
    simp only [scanLive, latest]
    cases scanned : right.scanLatest order start point (point.vtAsOf.getD now) graphs with
    | error problem => rfl
    | ok found =>
      refine Except.mapM_congr fun version live => ?_
      rw [only] at scanned
      have member := foundIn_scan scanned version (List.mem_filter.mp live).1
      refine congrArg (· >>= fun triple => Except.ok (version.1, triple))
        (reconstruct_congr ext (same.rev _) fun isRef => ?_)
      rcases member with empty | ⟨entry, stored, q, decoded, ids, bytes⟩
      · rw [empty] at isRef
        cases isRef
      · rw [← ids]
        refine same.blobs order entry ?_ (bytes ▸ isRef) q decoded
        rw [same.versions]
        obtain ⟨under, admitted⟩ := List.mem_filter.mp stored
        exact List.mem_filter.mpr ⟨(SortedMap.mem_scanPrefix.mp under).1, admitted⟩
  unfold snapshotScanKeyed
  split
  · split_ifs
    · rfl
    · exact rebuilt
  · exact rebuilt

/-- So does a restricted scan across all graphs. -/
theorem scanUnion_congr (same : SameReadable readable left right) {point : ReadAt}
    (restricted : point.readable = some readable) (order : Order) (start : Bytes)
    (now : Timestamp) : left.scanUnion ext order start point now =
      right.scanUnion ext order start point now := by
  have unnamed : left.noGraphs = right.noGraphs := by rw [noGraphs, noGraphs, same.nextGraphId]
  simp only [scanUnion, snapshotScanKeyed_congr same restricted, unnamed]

/-- So does a restricted scan for a predicate. -/
theorem scanPredicate_congr (same : SameReadable readable left right) {point : ReadAt}
    (restricted : point.readable = some readable) (predicate : String) (order : Order)
    (start : PredId → Bytes) (now : Timestamp) :
    left.scanPredicate ext predicate order start point now =
      right.scanPredicate ext predicate order start point now := by
  simp only [scanPredicate, same.predicateId, scanUnion_congr same restricted]

/-- So does a restricted scan of some bound components. -/
theorem scanScopedAt_congr (same : SameReadable readable left right) {point : ReadAt}
    (restricted : point.readable = some readable) (subject : Option NodeId)
    (predicate : Option String) (object : Option NodeId) (scope : GraphScope) (now : Timestamp) :
    left.scanScopedAt ext subject predicate object scope point now =
      right.scanScopedAt ext subject predicate object scope point now := by
  simp only [scanScopedAt, same.predicateId, snapshotScanKeyed_congr same restricted]

/-- A restricted reader finds the same live subjects and graphs. -/
theorem liveSubjectGraphsAt_congr (same : SameReadable readable left right) {point : ReadAt}
    (restricted : point.readable = some readable) (start : Bytes) (now : Timestamp) :
    left.liveSubjectGraphsAt start point now = right.liveSubjectGraphsAt start point now := by
  have only : ∀ (store : TripleStore) (vt : Timestamp),
      ((store.db.family (.quads .spog)).scanPrefix start).foldl (liveEntry point vt) ([], none) =
        (((store.db.family (.quads .spog)).scanPrefix start).filter (fun entry =>
          readableAdmits (some readable) (Order.spog.graphOf entry.1))).foldl
          (liveEntry point vt) ([], none) := by
    refine fun store vt => List.foldl_of_skips (fun state entry _ unread => ?_) _
    obtain ⟨key, value⟩ := entry
    simp only [liveEntry, canRead_eq restricted, unread, Bool.not_false, if_true]
    split_ifs <;> rfl
  simp only [liveSubjectGraphsAt, only,
    SortedMap.filter_scanPrefix_congr (same.versions .spog) start]

/-- A restricted reader confirms the same text matches. -/
theorem confirmText_congr (ext : External) (same : SameReadable readable left right) {point : ReadAt}
    (restricted : point.readable = some readable) (toLowercase : String → String)
    (predicate query : String) (now : Timestamp) (node : NodeId) :
    left.confirmText ext toLowercase predicate query point now node =
      right.confirmText ext toLowercase predicate query point now node := by
  simp only [confirmText, scanBySubjectPredicateAt, scanPredicate_congr same restricted]

/-- A restricted reader finds the same latest annotations when keys of other graphs decode. -/
theorem latestAnnotations_congr {κ : Type} [DecidableEq κ]
    {decode : Bytes → Except StorageError DecodedAnnotation} {graphOf : Bytes → GraphId}
    {width : Nat} (decodes : ∀ key : Bytes, key.length = width →
      ∃ dk, decode key = .ok dk ∧ dk.g = graphOf key)
    {first second : SortedMap Bytes Bytes}
    (firstWide : ∀ entry ∈ first.entries, entry.1.length = width)
    (secondWide : ∀ entry ∈ second.entries, entry.1.length = width)
    (same : readableEntries readable graphOf first.entries =
      readableEntries readable graphOf second.entries)
    (name : DecodedAnnotation → κ) (ts : Timestamp) (start : Bytes) :
    latestAnnotations decode name ts (some readable) (first.scanPrefix start) =
      latestAnnotations decode name ts (some readable) (second.scanPrefix start) := by
  have only : ∀ entries : List (Bytes × Bytes), (∀ entry ∈ entries, entry.1.length = width) →
      latestAnnotations decode name ts (some readable) entries =
        latestAnnotations decode name ts (some readable)
          (entries.filter fun entry => readableAdmits (some readable) (graphOf entry.1)) := by
    refine fun entries wide => List.foldlM_of_skips (fun latest entry member unread => ?_) []
    obtain ⟨key, value⟩ := entry
    obtain ⟨dk, decoded, graph⟩ := decodes key (wide _ member)
    refine Except.bind_eq_ok.mpr ⟨dk, decoded, ?_⟩
    rw [if_pos (Or.inr (by rw [graph, unread]; rfl))]
    rfl
  rw [only _ fun entry member => firstWide entry (SortedMap.mem_scanPrefix.mp member).1,
    only _ fun entry member => secondWide entry (SortedMap.mem_scanPrefix.mp member).1,
    SortedMap.filter_scanPrefix_congr same start]

/-- A key of the edge-property annotations decodes when it has its width. -/
theorem decodeEpaKey_ok (key : Bytes) (wide : key.length = 32) :
    ∃ dk, decodeEpaKey key = .ok dk ∧ dk.g = annotationGraph key :=
  ⟨_, by simp [decodeEpaKey, checkLen, wide]; rfl, rfl⟩

/-- A key of the predicate-first index decodes when it has its width. -/
theorem decodePeaKey_ok (key : Bytes) (wide : key.length = 32) :
    ∃ dk, decodePeaKey key = .ok dk ∧ dk.g = annotationGraph key :=
  ⟨_, by simp [decodePeaKey, checkLen, wide]; rfl, rfl⟩

/-- A key of the edge-relation annotations decodes when it has its width. -/
theorem decodeEpoKey_ok (key : Bytes) (wide : key.length = 48) :
    ∃ dk, decodeEpoKey key = .ok dk ∧ dk.g = edgeRelationGraph key :=
  ⟨_, by simp [decodeEpoKey, checkLen, wide]; rfl, rfl⟩

/-- A restricted reader finds the same annotations of an edge. -/
theorem scanEdgeAnnotationsWith_congr (same : SameReadable readable left right)
    (first : left.db.WellKeyed) (second : right.db.WellKeyed) (edge : EdgeId) (ts : Timestamp) :
    left.scanEdgeAnnotationsWith ext edge ts (some readable) =
      right.scanEdgeAnnotationsWith ext edge ts (some readable) := by
  simp only [scanEdgeAnnotationsWith, predicateOrErr, predicateString, same.rev,
    latestAnnotations_congr decodeEpaKey_ok first.epa second.epa same.epa,
    latestAnnotations_congr decodeEpoKey_ok first.epo second.epo same.epo]

/-- A restricted reader finds the same annotations of a predicate. -/
theorem scanAnnotationsByPredicateWith_congr (same : SameReadable readable left right)
    (first : left.db.WellKeyed) (second : right.db.WellKeyed) (predicate : String)
    (ts : Timestamp) :
    left.scanAnnotationsByPredicateWith ext predicate ts (some readable) =
      right.scanAnnotationsByPredicateWith ext predicate ts (some readable) := by
  simp only [scanAnnotationsByPredicateWith, same.predicateId,
    latestAnnotations_congr decodePeaKey_ok first.pea second.pea same.pea]

/-- A restricted reader finds the same edges of a relation. -/
theorem scanSpoForEdgeIdsIn_congr (same : SameReadable readable left right) (subject : NodeId)
    (p : PredId) (object : NodeId) (ts : Timestamp) :
    left.scanSpoForEdgeIdsIn ext subject p object ts (some readable) =
      right.scanSpoForEdgeIdsIn ext subject p object ts (some readable) := by
  have only : ∀ entries : List (Bytes × Bytes), entries.foldl (edgeEntry ext ts (some readable)) [] =
      (entries.filter fun entry =>
        readableAdmits (some readable) (Order.spog.graphOf entry.1)).foldl
        (edgeEntry ext ts (some readable)) [] := by
    refine fun entries => List.foldl_of_skips (fun best entry _ unread => ?_) []
    obtain ⟨key, value⟩ := entry
    simp only [edgeEntry, unread, Bool.not_false, or_true, if_true]
  simp only [scanSpoForEdgeIdsIn, only (SortedMap.scanPrefix _ _),
    SortedMap.filter_scanPrefix_congr (same.versions .spog)]

/-- A restricted reader finds the same history of a property. -/
theorem scanPropertyHistoryIn_congr (same : SameReadable readable left right) (subject : NodeId)
    (predicate : String) (limit : Nat) :
    left.scanPropertyHistoryIn ext subject predicate limit (some readable) =
      right.scanPropertyHistoryIn ext subject predicate limit (some readable) := by
  have only : ∀ entries : List (Bytes × Bytes), entries.foldlM (historyEntry (some readable)) [] =
      (entries.filter fun entry =>
        readableAdmits (some readable) (Order.spog.graphOf entry.1)).foldlM
        (historyEntry (some readable)) [] := by
    refine fun entries => List.foldlM_of_skips (fun versions entry _ unread => ?_) []
    obtain ⟨key, value⟩ := entry
    simp only [historyEntry, unread, Bool.not_false, or_true, if_true]
    rfl
  simp only [scanPropertyHistoryIn, same.predicateId, only (SortedMap.scanPrefix _ _),
    SortedMap.filter_scanPrefix_congr (same.versions .spog)]
  cases right.predicateId predicate with
  | none => rfl
  | some p =>
    simp only
    generalize scanned : List.foldlM (historyEntry (some readable)) []
      (((right.db.family (.quads .spog)).scanPrefix
        (Order.spog.keyPrefix (some subject) (some p) none none)).filter _) = result
    cases result with
    | error problem => rfl
    | ok versions =>
      -- Every version is that of a readable entry, whose out-of-line value is the same.
      have found : ∀ version ∈ versions, version.bytes.head? = some DISC_PROPERTY_REF →
          left.db.get .blob version.o.uuid.bytes = right.db.get .blob version.o.uuid.bytes := by
        refine List.foldlM_invariant (fun versions : List PropertyVersion =>
          ∀ version ∈ versions, version.bytes.head? = some DISC_PROPERTY_REF →
            left.db.get .blob version.o.uuid.bytes = right.db.get .blob version.o.uuid.bytes)
          (fun versions entry after member before step => ?_) scanned
          (fun version member => by cases member)
        obtain ⟨key, value⟩ := entry
        obtain ⟨under, admitted⟩ := List.mem_filter.mp member
        simp only [historyEntry] at step
        split_ifs at step
        · cases step; exact before
        · split at step
          · cases step; exact before
          · obtain ⟨q, decoded, step⟩ := Except.bind_eq_ok.mp step
            cases step
            intro version listed isRef
            rcases List.mem_append.mp listed with old | new
            · exact before version old isRef
            · rw [List.mem_singleton.mp new] at isRef ⊢
              refine same.blobs .spog (key, value) ?_ isRef q decoded
              rw [same.versions]
              exact List.mem_filter.mpr ⟨(SortedMap.mem_scanPrefix.mp under).1, admitted⟩
      refine congrArg (· >>= fun values => Except.ok values.flatten)
        (Except.mapM_congr fun version member => ?_)
      have listed : version ∈ versions :=
        (List.mem_filter.mp (List.mem_insertionSort _ |>.mp (List.mem_of_mem_take member))).1
      cases decoded : decodeValue ext version.bytes with
      | error problem => rfl
      | ok value =>
        cases value with
        | relation | property => rfl
        | propertyRef temporal =>
          have blob := found version listed (head_of_decode_propertyRef decoded)
          simp only [bind, Except.bind, loadBlob, blob]

/-- A node has an entry of every trigram of a query under a predicate, in some graph. -/
def HasTrigrams (store : TripleStore) (predicate query : String) (node : NodeId) : Prop :=
  ∃ p, store.predicateId predicate = some p ∧ extractTrigrams query ≠ [] ∧
    ∀ trigram ∈ extractTrigrams query, node ∈ store.scanTrigramCandidates p trigram

/-- The candidates of a text search are the nodes with every trigram. -/
theorem mem_textCandidates {store : TripleStore} {p : PredId} {query : String} {node : NodeId} :
    node ∈ store.textCandidates p query ↔ extractTrigrams query ≠ [] ∧
      ∀ trigram ∈ extractTrigrams query, node ∈ store.scanTrigramCandidates p trigram := by
  -- Sorting the candidate sets only permutes them.
  have sorted := List.perm_insertionSort (fun left right : List NodeId => left.length ≤ right.length)
    ((extractTrigrams query).map (store.scanTrigramCandidates p))
  have empty : extractTrigrams query = [] ↔ ((extractTrigrams query).map
      (store.scanTrigramCandidates p)).insertionSort
        (fun left right => left.length ≤ right.length) = [] := by
    rw [← List.map_eq_nil_iff (f := store.scanTrigramCandidates p)]
    exact ⟨fun none => List.perm_nil.mp (none ▸ sorted),
      fun none => List.perm_nil.mp (none ▸ sorted.symm)⟩
  have members : (∀ trigram ∈ extractTrigrams query, node ∈ store.scanTrigramCandidates p trigram) ↔
      ∀ set ∈ ((extractTrigrams query).map (store.scanTrigramCandidates p)).insertionSort
        (fun left right => left.length ≤ right.length), node ∈ set := by
    simp only [sorted.mem_iff, List.mem_map, forall_exists_index, and_imp,
      forall_apply_eq_imp_iff₂]
  rw [members, ne_eq, empty, textCandidates]
  split
  · rename_i none
    simp [none]
  · rename_i first others some
    simp [some, List.mem_dedup]

/-- The same nodes, or a failure in both cases. -/
def SameNodes : Except StorageError (List NodeId) → Except StorageError (List NodeId) → Prop
  | .ok left, .ok right => ∀ node, node ∈ left ↔ node ∈ right
  | .error _, .error _ => True
  | _, _ => False

/-- A text search fails on a candidate, or finds the candidates that are confirmed. -/
theorem textSearchAt_spec (store : TripleStore) (ext : External) (toLowercase : String → String)
    (predicate query : String) (point : ReadAt) (now : Timestamp) :
    (∃ problem, store.textSearchAt ext toLowercase predicate query point now = .error problem ∧
      ∃ node, store.HasTrigrams predicate query node ∧ ∃ problem,
        store.confirmText ext toLowercase predicate query point now node = .error problem) ∨
    ∃ nodes, store.textSearchAt ext toLowercase predicate query point now = .ok nodes ∧
      (∀ node, store.HasTrigrams predicate query node → ∀ problem,
        store.confirmText ext toLowercase predicate query point now node ≠ .error problem) ∧
      ∀ node, node ∈ nodes ↔ store.HasTrigrams predicate query node ∧
        store.confirmText ext toLowercase predicate query point now node = .ok true := by
  cases known : store.predicateId predicate with
  | none =>
    have unknown : ∀ node, ¬ store.HasTrigrams predicate query node := by
      rintro node ⟨p, same, _⟩
      rw [known] at same
      cases same
    refine Or.inr ⟨[], by simp only [textSearchAt, known], fun node has => absurd has (unknown node),
      fun node => ?_⟩
    simp [unknown node]
  | some p =>
    have candidate : ∀ node, store.HasTrigrams predicate query node ↔
        node ∈ store.textCandidates p query := by
      intro node
      rw [mem_textCandidates]
      refine ⟨?_, fun has => ⟨p, known, has⟩⟩
      rintro ⟨other, same, has⟩
      rw [Option.some.inj (known.symm.trans same)]
      exact has
    simp only [textSearchAt, known]
    generalize searched : (store.textCandidates p query).mapM (fun node => do
      return (node, ← store.confirmText ext toLowercase predicate query point now node)) = result
    cases result with
    | error problem =>
      obtain ⟨node, member, failed⟩ := Except.exists_of_mapM_error searched
      refine Or.inl ⟨problem, rfl, node, (candidate node).mpr member, problem, ?_⟩
      rcases Except.bind_eq_error.mp failed with here | ⟨_, _, done⟩
      · exact here
      · cases done
    | ok confirmed =>
      refine Or.inr ⟨_, rfl, fun node has problem failed => ?_, fun node => ?_⟩
      · obtain ⟨result, done⟩ := Except.mapM_isOk_iff.mp ⟨_, searched⟩ node ((candidate node).mp has)
        obtain ⟨_, here, _⟩ := Except.bind_eq_ok.mp done
        rw [failed] at here
        cases here
      · rw [candidate]
        simp only [List.mem_map, List.mem_filter, Except.mem_of_mapM searched]
        constructor
        · rintro ⟨found, ⟨⟨other, member, done⟩, matched⟩, rfl⟩
          obtain ⟨answer, here, same⟩ := Except.bind_eq_ok.mp done
          cases same
          exact ⟨member, here.trans (congrArg _ matched)⟩
        · rintro ⟨member, here⟩
          exact ⟨(node, true), ⟨⟨node, member, Except.bind_eq_ok.mpr ⟨true, here, rfl⟩⟩, rfl⟩, rfl⟩

/-- Every read of a restricted snapshot gives the same result on two stores. -/
structure ReadsAgree (ext : External) (toLowercase : String → String) (readable : List UInt32)
    (left right : TripleStore) : Prop where
  /-- Scans of a subject. -/
  bySubject : ∀ subject point now, point.readable = some readable →
    left.scanBySubjectAt ext subject point now = right.scanBySubjectAt ext subject point now
  /-- Scans of a subject and a predicate. -/
  bySubjectPredicate : ∀ subject predicate point now, point.readable = some readable →
    left.scanBySubjectPredicateAt ext subject predicate point now =
      right.scanBySubjectPredicateAt ext subject predicate point now
  /-- Scans of a predicate. -/
  byPredicate : ∀ predicate point now, point.readable = some readable →
    left.scanByPredicateAt ext predicate point now =
      right.scanByPredicateAt ext predicate point now
  /-- Scans of a predicate and an object. -/
  byPredicateObject : ∀ predicate object point now, point.readable = some readable →
    left.scanByPredicateObjectAt ext predicate object point now =
      right.scanByPredicateObjectAt ext predicate object point now
  /-- Scans of a predicate and a value. -/
  byPredicateValue : ∀ predicate value point now, point.readable = some readable →
    left.scanByPredicateValueAt ext predicate value point now =
      right.scanByPredicateValueAt ext predicate value point now
  /-- Scans of an object. -/
  byObject : ∀ object point now, point.readable = some readable →
    left.scanByObjectAt ext object point now = right.scanByObjectAt ext object point now
  /-- Scans of a subject and an object. -/
  bySubjectObject : ∀ subject object point now, point.readable = some readable →
    left.scanBySubjectObjectAt ext subject object point now =
      right.scanBySubjectObjectAt ext subject object point now
  /-- Scans of the whole store. -/
  all : ∀ point now, point.readable = some readable →
    left.scanAllAt ext point now = right.scanAllAt ext point now
  /-- Scans of some bound components under any scope. -/
  bound : ∀ subject predicate object scope point now, point.readable = some readable →
    left.scanScopedAt ext subject predicate object scope point now =
      right.scanScopedAt ext subject predicate object scope point now
  /-- Scans of a graph. -/
  graph : ∀ g point now, point.readable = some readable →
    left.scanGraphAt ext g point now = right.scanGraphAt ext g point now
  /-- Scans of a subject in a graph. -/
  bySubjectInGraph : ∀ g subject point now, point.readable = some readable →
    left.scanBySubjectInGraphAt ext g subject point now =
      right.scanBySubjectInGraphAt ext g subject point now
  /-- The graphs in which a subject is live. -/
  subjectGraphs : ∀ subject point now, point.readable = some readable →
    left.subjectGraphs subject point now = right.subjectGraphs subject point now
  /-- The graphs in which some subjects are live. -/
  allSubjectGraphs : ∀ keep point now, point.readable = some readable →
    left.allSubjectGraphs keep point now = right.allSubjectGraphs keep point now
  /-- The annotations of an edge. -/
  edgeAnnotations : ∀ edge ts, left.scanEdgeAnnotationsWith ext edge ts (some readable) =
    right.scanEdgeAnnotationsWith ext edge ts (some readable)
  /-- The annotations of an edge as triples. -/
  edgeAnnotationsAsTriples : ∀ edge ts now,
    left.scanEdgeAnnotationsAsTriplesWith ext edge ts (some readable) now =
      right.scanEdgeAnnotationsAsTriplesWith ext edge ts (some readable) now
  /-- The annotations with a predicate. -/
  annotationsByPredicate : ∀ predicate ts,
    left.scanAnnotationsByPredicateWith ext predicate ts (some readable) =
      right.scanAnnotationsByPredicateWith ext predicate ts (some readable)
  /-- The history of a property. -/
  history : ∀ subject predicate limit,
    left.scanPropertyHistoryIn ext subject predicate limit (some readable) =
      right.scanPropertyHistoryIn ext subject predicate limit (some readable)
  /-- The edges of a relation. -/
  edgeIds : ∀ subject p object ts, left.scanSpoForEdgeIdsIn ext subject p object ts (some readable) =
    right.scanSpoForEdgeIdsIn ext subject p object ts (some readable)
  /-- Text searches. -/
  textSearch : ∀ predicate query point now, point.readable = some readable →
    SameNodes (left.textSearchAt ext toLowercase predicate query point now)
      (right.textSearchAt ext toLowercase predicate query point now)

/--
A node whose readable text matches a query has the query's trigrams in both stores or in neither.

A candidate whose text cannot be read exists in both stores or in neither.
-/
def TextIndexAgrees (ext : External) (toLowercase : String → String) (readable : List UInt32)
    (left right : TripleStore) : Prop :=
  ∀ predicate query point now, point.readable = some readable →
    let confirm := left.confirmText ext toLowercase predicate query point now
    let fails (store : TripleStore) :=
      ∃ node, store.HasTrigrams predicate query node ∧ ∃ problem, confirm node = .error problem
    (fails left ↔ fails right) ∧ (¬ fails left → ∀ node, confirm node = .ok true →
      (left.HasTrigrams predicate query node ↔ right.HasTrigrams predicate query node))

/-- A text search gives the same nodes exactly when the trigrams of its matches agree. -/
theorem sameNodes_textSearch_iff (same : SameReadable readable left right) {point : ReadAt}
    (restricted : point.readable = some readable) (toLowercase : String → String)
    (predicate query : String) (now : Timestamp) :
    SameNodes (left.textSearchAt ext toLowercase predicate query point now)
      (right.textSearchAt ext toLowercase predicate query point now) ↔
    let confirm := left.confirmText ext toLowercase predicate query point now
    let fails (store : TripleStore) :=
      ∃ node, store.HasTrigrams predicate query node ∧ ∃ problem, confirm node = .error problem
    (fails left ↔ fails right) ∧ (¬ fails left → ∀ node, confirm node = .ok true →
      (left.HasTrigrams predicate query node ↔ right.HasTrigrams predicate query node)) := by
  have confirmed := confirmText_congr ext same restricted toLowercase predicate query now
  have first := left.textSearchAt_spec ext toLowercase predicate query point now
  have second := right.textSearchAt_spec ext toLowercase predicate query point now
  simp only [← confirmed] at second
  rcases first with ⟨_, failed, fails⟩ | ⟨nodes, found, succeeds, mem⟩ <;>
    rcases second with ⟨_, failed', fails'⟩ | ⟨nodes', found', succeeds', mem'⟩
  · simp only [failed, failed', SameNodes, true_iff]
    exact ⟨iff_of_true fails fails', fun none => absurd fails none⟩
  · simp only [failed, found', SameNodes, false_iff]
    rintro ⟨both, _⟩
    obtain ⟨node, has, problem, stuck⟩ := both.mp fails
    exact succeeds' node has problem stuck
  · simp only [found, failed', SameNodes, false_iff]
    rintro ⟨both, _⟩
    obtain ⟨node, has, problem, stuck⟩ := both.mpr fails'
    exact succeeds node has problem stuck
  · have calm : ¬ ∃ node, left.HasTrigrams predicate query node ∧ ∃ problem,
        left.confirmText ext toLowercase predicate query point now node = .error problem :=
      fun ⟨node, has, problem, stuck⟩ => succeeds node has problem stuck
    have calm' : ¬ ∃ node, right.HasTrigrams predicate query node ∧ ∃ problem,
        left.confirmText ext toLowercase predicate query point now node = .error problem :=
      fun ⟨node, has, problem, stuck⟩ => succeeds' node has problem stuck
    simp only [found, found', SameNodes, mem, mem']
    constructor
    · exact fun agree => ⟨iff_of_false calm calm', fun _ node matched =>
        ⟨fun has => ((agree node).mp ⟨has, matched⟩).1,
          fun has => ((agree node).mpr ⟨has, matched⟩).1⟩⟩
    · rintro ⟨_, agree⟩ node
      exact ⟨fun ⟨has, matched⟩ => ⟨(agree calm node matched).mp has, matched⟩,
        fun ⟨has, matched⟩ => ⟨(agree calm node matched).mpr has, matched⟩⟩

/-- A text that is too long for the trigram index. -/
def longText : String := String.ofList (List.replicate (TRIGRAM_MAX_TEXT_BYTES + 1) 'a')

/-- Outside functions that encode texts of one letter as JSON and decode them. -/
def jsonText : External where
  xxh3_128 bytes := bytes.length
  parseUuid _ := none
  jsonToVec
    | .text content => .ok (utf8 "\x7b\"Text\":\"" ++ utf8 content ++ utf8 "\"\x7d")
    | _ => .error "not a text"
  jsonFromSlice bytes := .ok (.text (String.ofList (List.replicate (bytes.length - 11) 'a')))

/-- A transaction that gives a node a title in a graph. -/
def titled (readTs : Timestamp) (title : String) (g : GraphId) : Transaction :=
  (Transaction.new readTs).insertIn (.property (NodeId.ofByte 1) "title" (.text title)
    ⟨Timestamp.zero, Timestamp.END_OF_TIME, Timestamp.zero⟩) g .auto

/-- A new store in which a graph has been interned. -/
def withGraph : TripleStore :=
  match create.internGraph jsonText "urn:g" with
  | .ok (store, _) => store
  | .error _ => create

/-- A store in which a node has a long title in the default graph. -/
def withLongTitle : TripleStore :=
  (withGraph.commit jsonText (titled Timestamp.zero longText GraphId.DEFAULT) Timestamp.zero).1

/-- The same store with a short title of the node in another graph. -/
def withShortTitle : TripleStore :=
  (withLongTitle.commit jsonText (titled (Timestamp.wrap 1) "aaa" ⟨1⟩) Timestamp.zero).1

/-- Both stores are reachable. -/
theorem withTitles_reachable :
    Reachable jsonText withLongTitle ∧ Reachable jsonText withShortTitle := by
  have empty : Reachable jsonText create :=
    .create DEFAULT_INLINE_VALUE_MAX_BYTES Vocabulary.default true
  have named : Reachable jsonText withGraph := by
    unfold withGraph
    split
    · rename_i done
      exact .internGraph empty done
    · exact empty
  have long : Reachable jsonText withLongTitle := .commit _ _ named
  exact ⟨long, .commit _ _ long⟩

/-- The stores differ in a graph other than the default graph. -/
theorem withTitles_same : SameReadable [0] withLongTitle withShortTitle := by
  have known : ∀ w ∈ (titled (Timestamp.wrap 1) "aaa" ⟨1⟩).writes,
      (withLongTitle.predicateId w.triple.predicate).isSome := by
    decide +kernel
  obtain ⟨db, committed, after⟩ := @commit_known jsonText _ _ Timestamp.zero known
  have values : (withLongTitle.db.family .blob).entries =
      (withShortTitle.db.family .blob).entries := by
    decide +kernel
  have versions : ∀ order ∈ Order.ALL,
      readableEntries [0] order.graphOf (withLongTitle.db.family (.quads order)).entries =
        readableEntries [0] order.graphOf (withShortTitle.db.family (.quads order)).entries := by
    decide +kernel
  exact {
    predicateId := fun name => by rw [withShortTitle, after]; rfl
    rev := fun id => by rw [withShortTitle, after]
    nextGraphId := by rw [withShortTitle, after]
    versions := fun order => versions order (by cases order <;> decide)
    blobs := fun order entry _ _ q _ => by
      rw [Db.get, Db.get, SortedMap.find?, SortedMap.find?, values]
    epa := by decide +kernel
    pea := by decide +kernel
    epo := by decide +kernel }

end TripleStore

end Polargraph
