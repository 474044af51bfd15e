import Polargraph.Proofs.Storage.Staging

/-! What a flush puts into the change log: the entry of its commit and nothing else. -/

namespace Polargraph

namespace Timestamp

/-- Timestamps from the epoch on are ordered as their bytes. -/
theorem toBeBytes_lt_iff {left right : Timestamp} (first : zero ≤ left) (second : zero ≤ right) :
    left.toBeBytes < right.toBeBytes ↔ left < right := by
  have bound : ∀ time : Timestamp, zero ≤ time →
      time.word < 256 ^ 8 ∧ (time.word : Int) = time.micros := by
    intro time nonnegative
    have low : (0 : Int) ≤ time.micros := nonnegative
    have high := time.high
    simp only [word]
    omega
  obtain ⟨fitsLeft, sameLeft⟩ := bound left first
  obtain ⟨fitsRight, sameRight⟩ := bound right second
  rw [toBeBytes, toBeBytes, beBytes_lt_iff fitsLeft fitsRight, lt_iff]
  omega

/-- The first eight bytes of a key are the timestamp it consists of. -/
theorem fromBeBytes_take (time : Timestamp) : fromBeBytes (time.toBeBytes.take 8) = time := by
  rw [List.take_of_length_le (le_of_eq time.toBeBytes_length), fromBeBytes_toBeBytes]

end Timestamp

/-- The operations that staging a write may add to a batch. -/
inductive WriteOp.Staged : WriteOp → Prop
  /-- A quad version in one of the orders. -/
  | quad (order : Order) (key : QuadKey) (value : Bytes) :
      Staged (.put (.quads order) (order.encode key) value)
  /-- An out-of-line value. -/
  | blob (hash payload : Bytes) : Staged (.put .blob hash payload)
  /-- A trigram entry. -/
  | tri (trigram : Bytes) (p : PredId) (g : GraphId) (subject : NodeId) :
      Staged (.put .tri (encodeTri trigram p g subject) [])
  /-- An edge-property annotation. -/
  | epa (edge : EdgeId) (p : PredId) (g : GraphId) (tt : Timestamp) (value : Bytes) :
      Staged (.put .epa (encodeEpaKey edge p g tt) value)
  /-- The same annotation in the predicate-first index. -/
  | pea (edge : EdgeId) (p : PredId) (g : GraphId) (tt : Timestamp) (value : Bytes) :
      Staged (.put .pea (encodePeaKey p edge g tt) value)
  /-- An edge-relation annotation. -/
  | epo (edge : EdgeId) (p : PredId) (object : NodeId) (g : GraphId) (tt : Timestamp) (value : Bytes) :
      Staged (.put .epo (encodeEpoKey edge p object g tt) value)

/-- Staged operations leave the log and the metadata alone. -/
theorem WriteOp.Staged.apart {op : WriteOp} (staged : op.Staged) :
    op.cf ≠ .chg ∧ op.cf ≠ .metadata := by
  cases staged <;> simp [WriteOp.cf]

namespace TripleStore

variable {ext : External} {store : TripleStore}

/-- Versions are written to the quad orders only. -/
theorem batchQuads_cf {quads : List StagedQuad} {op : WriteOp}
    (member : op ∈ quads.flatMap batchQuad) : ∃ order, op.cf = .quads order := by
  obtain ⟨quad, _, member⟩ := List.mem_flatMap.mp member
  obtain ⟨order, _, rfl⟩ := List.mem_map.mp member
  exact ⟨order, rfl⟩

/-- Quad versions are staged operations. -/
private theorem staged_batchQuads {quads : List StagedQuad} {op : WriteOp}
    (member : op ∈ quads.flatMap batchQuad) : op.Staged := by
  obtain ⟨quad, _, member⟩ := List.mem_flatMap.mp member
  obtain ⟨order, _, rfl⟩ := List.mem_map.mp member
  exact .quad order quad.key quad.value

/-- The out-of-line value of an encoded entry is a staged operation. -/
private theorem staged_encodePropertyEntry {batch blobs : WriteBatch} {value : Value}
    {temporal : BiTemporalRange} {bytes : Bytes}
    (encoded : store.encodePropertyEntry ext batch value temporal = .ok (batch ++ blobs, bytes))
    {op : WriteOp} (member : op ∈ blobs) : op.Staged := by
  rcases encodePropertyEntry_cases encoded with ⟨_, same⟩ | ⟨payload, _, _, same⟩
  · rw [show blobs = [] by simpa using same] at member
    cases member
  · rw [List.append_cancel_left same, List.mem_singleton] at member
    subst member
    exact .blob _ payload

/-- Trigram entries are staged operations. -/
private theorem staged_batchTextTrigrams {subject : NodeId} {p : PredId} {g : GraphId}
    {text : Option String} {op : WriteOp}
    (member : op ∈ (text.map (batchTextTrigrams subject p g)).getD []) : op.Staged := by
  cases text with
  | none => simp at member
  | some text =>
    simp only [Option.map_some, Option.getD_some, batchTextTrigrams] at member
    split_ifs at member
    · simp at member
    · obtain ⟨trigram, _, rfl⟩ := List.mem_map.mp member
      exact .tri trigram p g subject

/-- Staging one write adds staged operations only. -/
theorem stageWrite_staged {tt : Timestamp} {p : PredId} {staging next : Staging} {w : PendingWrite}
    (staged : ∀ op ∈ staging.batch, op.Staged) (done : store.stageWrite ext tt p staging w = .ok next) :
    ∀ op ∈ next.batch, op.Staged := by
  obtain ⟨triple, g, mode⟩ := w
  intro op member
  cases triple with
  | relation subject predicate object edgeId window =>
    cases done
    rcases List.mem_append.mp member with old | new
    · exact staged op old
    · exact staged_batchQuads new
  | property subject predicate value window =>
    obtain ⟨blobs, bytes, closing, encoded, _, _, _, batch, _⟩ := stageWrite_property done
    rw [batch] at member
    simp only [List.mem_append] at member
    rcases member with ((before | blob) | quad) | text
    · exact staged op before
    · exact staged_encodePropertyEntry encoded blob
    · exact staged_batchQuads quad
    · exact staged_batchTextTrigrams text
  | edgeProperty edge predicate value window =>
    obtain ⟨bytes, _, done⟩ := Except.bind_eq_ok.mp done
    cases done
    rcases List.mem_append.mp member with old | new
    · exact staged op old
    · simp only [batchEpa, List.mem_cons, List.not_mem_nil, or_false] at new
      rcases new with rfl | rfl
      · exact .epa edge p g tt bytes
      · exact .pea edge p g tt bytes
  | edgeRelation edge predicate object window =>
    cases done
    rcases List.mem_append.mp member with old | new
    · exact staged op old
    · rw [List.mem_singleton.mp new]
      exact .epo edge p object g tt _

/-- Staging any number of writes adds staged operations only. -/
theorem stageWrites_staged {tt : Timestamp} {staging next : Staging} {writes : List PendingWrite}
    {store after : TripleStore} (earlier : ∀ op ∈ staging.batch, op.Staged)
    (done : stageWrites ext tt store staging writes = (after, .ok next)) :
    ∀ op ∈ next.batch, op.Staged :=
  stageWrites_stages earlier done fun _ _ _ _ _ earlier staged => stageWrite_staged earlier staged

/-- Interning leaves the other counters of the metadata alone. -/
theorem get_internPredicate (store : TripleStore) (pred : String) {key : Bytes}
    (other : key.head? = some 0x5f) (counter : key ≠ META_PRED_CTR) :
    (store.internPredicate pred).1.db.get .metadata key = store.db.get .metadata key := by
  cases known : store.fwd (store.canonicalName pred) with
  | some id => simp only [internPredicate, known]
  | none =>
    simp only [internPredicate, known]
    -- The keys of the predicate tables start with another letter.
    have apart : ∀ first rest : Bytes, first.head? = some 0x70 → key ≠ first ++ rest := by
      intro first rest letter same
      rw [same, List.head?_append, letter] at other
      simp at other
    have forward := fun rest => apart (utf8 "p/") rest (by decide +kernel)
    have reverse := fun rest => apart (utf8 "pid/") rest (by decide +kernel)
    simp only [dbWrite, Db.write, List.foldl_cons, List.foldl_nil, Db.get_apply_put,
      metaForwardKey, metaReverseKey, forward, reverse, counter, and_false, if_false]

/-- Staging leaves the other counters of the metadata alone. -/
theorem get_stageWrites (tt : Timestamp) (store : TripleStore) (staging : Staging)
    (writes : List PendingWrite) {key : Bytes} (other : key.head? = some 0x5f)
    (counter : key ≠ META_PRED_CTR) :
    (stageWrites ext tt store staging writes).1.db.get .metadata key =
      store.db.get .metadata key :=
  stageWrites_keeps ext tt store staging writes rfl fun before pred held =>
    (before.get_internPredicate pred other counter).trans held

/-- The batch of a commit puts its log entry in between operations on other families. -/
theorem commitBatch_parts {tx : Transaction} {commitTs : Timestamp} {staging : Staging}
    {batch : WriteBatch} (done : store.commitBatch ext tx commitTs staging = .ok batch) :
    ∃ iris, (∀ op ∈ iris, op.cf = .iri) ∧ batch = staging.batch ++
      batchChange commitTs tx.author tx.graphOps staging.quads ++ iris ++
      [.put .metadata META_ORACLE_CTR commitTs.toBeBytes] := by
  obtain ⟨logged, entries, done⟩ := Except.bind_eq_ok.mp done
  cases done
  obtain ⟨iris, rfl, apart⟩ := batchIris_cf entries
  exact ⟨iris, apart, rfl⟩

/-- What a commit adds to its staged operations is on three other families. -/
theorem mem_commitBatch {tx : Transaction} {commitTs : Timestamp} {staging : Staging}
    {batch : WriteBatch} (done : store.commitBatch ext tx commitTs staging = .ok batch) {op : WriteOp}
    (member : op ∈ batch) : op ∈ staging.batch ∨ op.cf = .chg ∨ op.cf = .iri ∨ op.cf = .metadata := by
  obtain ⟨iris, others, rfl⟩ := commitBatch_parts done
  simp only [List.mem_append, List.mem_singleton] at member
  rcases member with ((own | change) | iri) | rfl
  · exact Or.inl own
  · exact Or.inr (Or.inl (batchChange_cf change))
  · exact Or.inr (Or.inr (Or.inl (others op iri)))
  · exact Or.inr (Or.inr (Or.inr rfl))

/-- A flush logs its commit, and leaves the rest of the log alone. -/
theorem chg_flush (store : TripleStore) (tx : Transaction) (commitTs : Timestamp) :
    (store.flush ext tx commitTs).1.db.family .chg = if store.logs ext tx commitTs then
      (store.db.family .chg).insert commitTs.toBeBytes
        (encodeChange tx.author tx.graphOps (store.stagedQuads ext tx commitTs))
      else store.db.family .chg := by
  have same : (stageWrites ext commitTs store Staging.none tx.writes).1.db.family .chg =
      store.db.family .chg := family_stageWrites commitTs store _ _ (by simp)
  unfold logs
  refine flush_rule ext store tx commitTs (fun _ => by simpa [Except.isOk, Except.toBool] using same)
    fun after staging batch staged built => ?_
  rw [staged] at same
  obtain ⟨iris, others, rfl⟩ := commitBatch_parts built
  have apart := fun op member => (stageWrites_staged
    (fun _ member => absurd member List.not_mem_nil) staged op member).apart
  simp only [dbWrite, Db.write_append]
  rw [Db.family_write_of_forall_ne _ (by simp [WriteOp.cf]),
    Db.family_write_of_forall_ne _ (fun op member => by simp [others op member])]
  have before := Db.family_write_of_forall_ne after.db (fun op member => ((apart op member).1).symm)
  unfold batchChange
  cases empty : (tx.graphOps.isEmpty && staging.quads.isEmpty) with
  | true => simpa [Except.isOk, Except.toBool, Db.write] using before.trans same
  | false =>
    simp only [Except.isOk, Except.toBool, Bool.not_false, Bool.and_self, if_true,
      Bool.false_eq_true, if_false]
    rw [← same, ← before]
    simp only [Db.write, List.foldl_cons, List.foldl_nil, Db.apply, Db.setFamily,
      Function.update_self]

/-- The floor of the log is read from the metadata. -/
theorem changesFloor_congr {left right : TripleStore}
    (same : left.db.get .metadata META_CHANGES_FLOOR = right.db.get .metadata META_CHANGES_FLOOR) :
    left.changesFloor = right.changesFloor := by
  simp only [changesFloor, same]

/-- A flush leaves the floor of the log alone. -/
theorem changesFloor_flush (store : TripleStore) (tx : Transaction) (commitTs : Timestamp) :
    (store.flush ext tx commitTs).1.changesFloor = store.changesFloor := by
  have same : (stageWrites ext commitTs store Staging.none tx.writes).1.db.get .metadata
      META_CHANGES_FLOOR = store.db.get .metadata META_CHANGES_FLOOR :=
    get_stageWrites commitTs store Staging.none tx.writes (by decide +kernel) (by decide +kernel)
  refine changesFloor_congr ?_
  refine flush_rule ext store tx commitTs (fun _ => same) fun after staging batch staged built => ?_
  rw [staged] at same
  obtain ⟨iris, others, rfl⟩ := commitBatch_parts built
  have apart := fun op member => (stageWrites_staged
    (fun _ member => absurd member List.not_mem_nil) staged op member).apart
  have keys : META_CHANGES_FLOOR ≠ META_ORACLE_CTR := by decide +kernel
  have counter : ∀ db : Db, (db.write [.put .metadata META_ORACLE_CTR commitTs.toBeBytes]).get
      .metadata META_CHANGES_FLOOR = db.get .metadata META_CHANGES_FLOOR := fun db => by
    simp [Db.write, Db.get_apply_put, keys]
  refine Eq.trans ?_ same
  simp only [dbWrite, Db.write_append, counter]
  rw [Db.get, Db.family_write_of_forall_ne _ (fun op member => by simp [others op member]),
    Db.family_write_of_forall_ne _ (fun op member => by simp [batchChange_cf member]),
    Db.family_write_of_forall_ne _ (fun op member => ((apart op member).2).symm), Db.get]

/-- Pruning the change log removes the entries before a time. -/
theorem chg_pruneChanges (store : TripleStore) (before : Timestamp) :
    (store.pruneChanges before).1.db.family .chg =
      (store.db.family .chg).eraseRange Timestamp.zero.toBeBytes
        (max before Timestamp.zero).toBeBytes := by
  have removed : ∀ (db : Db) (low high : Bytes),
      (db.apply (.deleteRange .chg low high)).family .chg =
        (db.family .chg).eraseRange low high := by
    intro db low high
    simp only [Db.apply, Db.setFamily, Function.update_self]
  simp only [pruneChanges, dbWrite]
  split_ifs
  · simp only [Db.write, List.foldl_cons, List.foldl_nil]
    rw [Db.family_apply_ne _ (by simp [WriteOp.cf]), removed]
  · simp only [Db.write, List.foldl_cons, List.foldl_nil, removed]

/-- Pruning the change log before a time raises the floor to one before it. -/
theorem changesFloor_pruneChanges (store : TripleStore) (before : Timestamp) :
    (store.pruneChanges before).1.changesFloor =
      max store.changesFloor (Timestamp.clamp (before.micros - 1)) := by
  have high := before.high
  have low := before.low
  have least := store.changesFloor.low
  simp only [pruneChanges, dbWrite]
  split_ifs with raises
  · -- The new floor is one before a later time.
    have later := Timestamp.lt_iff.mp raises
    have floor : Timestamp.wrap (before.micros - 1) = Timestamp.clamp (before.micros - 1) := by
      refine (Timestamp.wrap_micros ⟨before.micros - 1, by omega, by omega⟩).trans ?_
      refine Timestamp.ext ?_
      simp only [Timestamp.clamp]
      omega
    have read : changesFloor ⟨(store.db.apply (.deleteRange .chg Timestamp.zero.toBeBytes
        (max before Timestamp.zero).toBeBytes)).apply (.put .metadata META_CHANGES_FLOOR
          (Timestamp.wrap (before.micros - 1)).toBeBytes), store.committed, store.fwd, store.rev,
        store.nextPredId, store.graphFwd, store.graphRev, store.nextGraphId,
        store.inlineValueMaxBytes, store.vocabulary, store.canonicalNames⟩ =
        Timestamp.wrap (before.micros - 1) := by
      simp [changesFloor, Db.get_apply_put]
    refine read.trans (floor.trans (max_eq_right ?_).symm)
    rw [Timestamp.le_iff]
    simp only [Timestamp.clamp]
    omega
  · have kept : (store.dbWrite [.deleteRange .chg Timestamp.zero.toBeBytes
        (max before Timestamp.zero).toBeBytes]).changesFloor = store.changesFloor := by
      refine changesFloor_congr ?_
      simp only [dbWrite, Db.write, List.foldl_cons, List.foldl_nil, Db.get]
      rw [Db.family_apply_ne _ (by simp [WriteOp.cf])]
    refine kept.trans (max_eq_left ?_).symm
    have below := Timestamp.le_iff.mp (not_lt.mp raises)
    rw [Timestamp.le_iff]
    simp only [Timestamp.clamp]
    omega

/-- Pruning the change log removes entries and never lowers the floor. -/
theorem log_pruneChanges (store : TripleStore) (before : Timestamp) :
    (∀ entry, entry ∈ ((store.pruneChanges before).1.db.family .chg).entries →
      entry ∈ (store.db.family .chg).entries) ∧
    store.changesFloor ≤ (store.pruneChanges before).1.changesFloor := by
  refine ⟨fun entry member => ?_, ?_⟩
  · rw [chg_pruneChanges, SortedMap.mem_eraseRange] at member
    exact member.1
  · rw [changesFloor_pruneChanges]
    exact le_max_left _ _

/-- The key from which the log is read to resume after a time. -/
def resumeKey (after : Timestamp) : Bytes :=
  (max (Timestamp.clamp (after.micros + 1)) Timestamp.zero).toBeBytes

/-- Resuming later starts no earlier. -/
theorem resumeKey_mono {floor after : Timestamp} (later : floor ≤ after) :
    ¬ resumeKey after < resumeKey floor := by
  rw [resumeKey, resumeKey, Timestamp.toBeBytes_lt_iff (le_max_right _ _) (le_max_right _ _), not_lt]
  refine max_le_max ?_ le_rfl
  have micros := Timestamp.le_iff.mp later
  rw [Timestamp.le_iff]
  simp only [Timestamp.clamp]
  omega

/-- The entries read to resume after a time are those of later commits. -/
theorem mem_seek_resumeKey {log : SortedMap Bytes Bytes} {after time : Timestamp} {entry : Bytes}
    (positive : Timestamp.zero < time) (last : time ≠ Timestamp.END_OF_TIME) :
    (time.toBeBytes, entry) ∈ log.seek (resumeKey after) ↔
      (time.toBeBytes, entry) ∈ log.entries ∧ after < time := by
  rw [SortedMap.mem_seek]
  refine and_congr_right fun _ => ?_
  rw [resumeKey, Timestamp.toBeBytes_lt_iff (le_of_lt positive) (le_max_right _ _), not_lt, max_le_iff]
  have high := time.high
  have low := after.low
  have short : time.micros ≠ 2 ^ 63 - 1 := fun same => last (Timestamp.ext same)
  have start : (0 : Int) < time.micros := positive
  rw [Timestamp.le_iff, Timestamp.le_iff, Timestamp.lt_iff]
  simp only [Timestamp.clamp, Timestamp.zero]
  omega

end TripleStore

end Polargraph
