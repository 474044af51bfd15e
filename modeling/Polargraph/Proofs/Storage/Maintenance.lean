import Mathlib.Data.Set.List
import Polargraph.Proofs.Storage.Blobs
import Polargraph.Proofs.Storage.LogEntry
import Polargraph.Proofs.Storage.Retention

/-! A scan misses a value only behind a reference, and commits within a sweep may leave such references. -/

namespace Polargraph

/-- The first character of the text of a key decode error. -/
def StorageError.initial : StorageError → Option Char
  | .keyDecode text => text.toList.head?
  | _ => none

/-- The text of a key decode error starts as its first part does. -/
private theorem initial_append (first rest : String) {letter : Char}
    (starts : first.toList.head? = some letter) :
    (StorageError.keyDecode (first ++ rest)).initial = some letter := by
  rw [StorageError.initial, String.toList_append, List.head?_append, starts]
  rfl

namespace TripleStore

variable {ext : External} {store : TripleStore}

/-- The error of a missing value is told from every other one by its first letter. -/
theorem initial_missingBlob (hash : NodeId) : (missingBlob hash).initial = some 'm' :=
  initial_append _ _ (by decide)

/-- A value that does not decode is not reported as missing. -/
private theorem initial_decodeValue {bytes : Bytes} {problem : StorageError}
    (failed : decodeValue ext bytes = .error problem) : problem.initial ≠ some 'm' := by
  -- Every branch has a text of its own.
  unfold decodeValue at failed
  split at failed
  · cases failed
    decide
  · split_ifs at failed
    · cases failed
      decide
    · cases failed
      decide
    · split at failed <;> cases failed
      simp [StorageError.initial]
    · cases failed
      decide
    · cases failed
      decide
    · split at failed <;> cases failed
      decide
    · cases failed
      rw [initial_append _ _ (show _ = some 'u' by decide)]
      decide

/-- A payload that does not decode is not reported as missing. -/
private theorem initial_decodeBlob {bytes : Bytes} {problem : StorageError}
    (failed : decodeBlob ext bytes = .error problem) : problem.initial ≠ some 'm' := by
  unfold decodeBlob at failed
  split at failed
  · cases failed
    decide
  · rcases Except.bind_eq_error.mp failed with here | ⟨decoded, _, later⟩
    · exact initial_decodeValue here
    · cases decoded with
      | property value temporal => cases later
      | relation | propertyRef =>
        cases later
        rw [initial_append _ _ (show _ = some 'b' by decide)]
        decide

/-- A triple is reported to miss its value only when it is a reference without one. -/
theorem of_reconstruct_missing {s o : NodeId} {p : PredId} {tt : Timestamp} {bytes : Bytes}
    {hash : NodeId} (failed : store.reconstruct ext s p o tt bytes = .error (missingBlob hash)) :
    IsRef bytes ∧ store.db.get .blob o.uuid.bytes = none := by
  have letter := initial_missingBlob hash
  rcases Except.bind_eq_error.mp failed with named | ⟨predicate, _, failed⟩
  · unfold predicateOrErr at named
    split at named
    · simp only [Except.error.injEq] at named
      rw [← named, initial_append _ _ (show _ = some 'u' by decide)] at letter
      cases letter
    · cases named
  · rcases Except.bind_eq_error.mp failed with decoded | ⟨value, decoded, failed⟩
    · exact absurd letter (initial_decodeValue decoded)
    · cases value with
      | relation | property => cases failed
      | propertyRef temporal =>
        refine ⟨head_of_decode_propertyRef decoded, ?_⟩
        rcases Except.bind_eq_error.mp failed with loaded | ⟨value, _, later⟩
        · unfold loadBlob at loaded
          split at loaded
          · assumption
          · exact absurd letter (initial_decodeBlob loaded)
        · cases later

/-- Where every reference resolves, no scan reports a missing value. -/
theorem scan_ne_missing {order : Order} {index : Index} (holds : store.db.OrderHolds order index)
    (resolves : index.Resolves store.db) {start : Bytes} (short : start.length ≤ QUAD_TUPLE_LEN)
    (point : ReadAt) (now : Timestamp) (graphs : GraphScope) (hash : NodeId) :
    store.snapshotScanKeyed ext order start point now graphs ≠ .error (missingBlob hash) := by
  intro failed
  obtain ⟨ids, slot, finds, stuck⟩ := snapshotScanKeyed_error holds short failed
  obtain ⟨isRef, absent⟩ := of_reconstruct_missing stuck
  obtain ⟨stored, _⟩ := Index.history_eq_some.mp finds.governs.seen.stored
  have present := resolves _ _ stored isRef
  rw [absent] at present
  cases present

end TripleStore

namespace Phase

/-- The running sweep is not going to delete an out-of-line value. -/
def Spares : Phase → Bytes → Prop
  | .marked live, hash => hash ∈ live
  | .swept batch, hash => .delete .blob hash ∉ batch
  | _, _ => True

/-- What is still to be written deletes versions of one order a chunk, or out-of-line values. -/
def Deletes : Phase → Prop
  | .deleting _ _ chunks _ =>
    ∀ chunk ∈ chunks, ∃ (order : Order) (keys : List Bytes), chunk = keys.map (.delete (.quads order))
  | .swept batch => ∃ keys : List Bytes, batch = keys.map (.delete .blob)
  | _ => True

end Phase

namespace TripleStore

/-- Every chunk of pruning deletes versions of the pruned order. -/
theorem pruneChunks_deletes (store : TripleStore) (order : Order) (txCutoff : Timestamp)
    (vtCutoff : Option Timestamp) {chunk : WriteBatch}
    (member : chunk ∈ store.pruneChunks order txCutoff vtCutoff) :
    ∃ keys : List Bytes, chunk = keys.map (.delete (.quads order)) := by
  -- The chunks put together are the deletes of the selected entries.
  have every : ∀ op ∈ chunk, op ∈ Set.range (WriteOp.delete (.quads order)) := by
    intro op within
    have flat : op ∈ (store.pruneChunks order txCutoff vtCutoff).flatten :=
      List.mem_flatten.mpr ⟨chunk, member, within⟩
    rw [pruneChunks, flatten_flushChunks, List.nil_append, List.mem_flatten] at flat
    obtain ⟨deletes, listed, within⟩ := flat
    obtain ⟨group, _, rfl⟩ := List.mem_map.mp listed
    obtain ⟨entry, _, rfl⟩ := List.mem_map.mp within
    exact ⟨entry.1, rfl⟩
  have range : chunk ∈ Set.range (List.map (WriteOp.delete (.quads order))) := by
    rw [Set.range_list_map]
    exact every
  obtain ⟨keys, same⟩ := range
  exact ⟨keys, same.symm⟩

/-- Pruning the change log leaves the other column families but the metadata alone. -/
theorem family_pruneChanges (store : TripleStore) (before : Timestamp) {cf : Cf}
    (log : cf ≠ .chg) (metadata : cf ≠ .metadata) :
    (store.pruneChanges before).1.db.family cf = store.db.family cf := by
  refine store.db.family_write_of_forall_ne fun op member => ?_
  rcases List.mem_cons.mp member with rfl | raised
  · exact log
  · split_ifs at raised
    · rw [List.mem_singleton.mp raised]
      exact metadata
    · simp at raised

/-- A step that is no commit only deletes, and deletes no value the sweep spares. -/
structure Shrinks (before after : TripleStore) (spares : Bytes → Prop) : Prop where
  /-- Every order keeps some of its versions. -/
  versions : ∀ order index, before.db.OrderHolds order index → ∃ left,
    after.db.OrderHolds order left ∧ ∀ key bytes, left key = some bytes → index key = some bytes
  /-- A spared out-of-line value stays. -/
  kept : ∀ hash, spares hash → (before.db.get .blob hash).isSome → (after.db.get .blob hash).isSome
  /-- No out-of-line value is new. -/
  payloads : ∀ hash payload, after.db.get .blob hash = some payload →
    before.db.get .blob hash = some payload
  /-- No log entry is new. -/
  log : ∀ entry, entry ∈ (after.db.family .chg).entries → entry ∈ (before.db.family .chg).entries
  /-- The floor of the log is not lowered. -/
  floor : before.changesFloor ≤ after.changesFloor
  /-- The predicate tables stay. -/
  names : after.fwd = before.fwd ∧ after.rev = before.rev

namespace Shrinks

variable {store : TripleStore} {spares : Bytes → Prop}

/-- Nothing is deleted where the database stays. -/
theorem refl {after : TripleStore} (db : after.db = store.db) (fwd : after.fwd = store.fwd)
    (rev : after.rev = store.rev) : Shrinks store after spares where
  versions order index holds := ⟨index, by rw [db]; exact holds, fun _ _ stored => stored⟩
  kept hash _ stored := by rw [db]; exact stored
  payloads hash payload stored := by rw [← db]; exact stored
  log entry member := by rw [← db]; exact member
  floor := le_of_eq (changesFloor_congr (by rw [db]))
  names := ⟨fwd, rev⟩

/-- Deleting versions of one order. -/
theorem deleteVersions (order : Order) (keys : List Bytes) :
    Shrinks store (store.dbWrite (keys.map (.delete (.quads order)))) spares := by
  have other : ∀ cf, cf ≠ Cf.quads order →
      (store.db.write (keys.map (.delete (.quads order)))).family cf = store.db.family cf :=
    fun cf apart => store.db.family_write_deletes_of_ne apart keys
  have blobs : ∀ hash, (store.db.write (keys.map (.delete (.quads order)))).get .blob hash =
      store.db.get .blob hash := fun hash => by rw [Db.get, Db.get, other .blob (by simp)]
  refine ⟨fun other index holds => holds.write_deletes order keys, fun hash _ stored => ?_,
    fun hash payload stored => ?_, fun entry member => ?_, ?_, rfl, rfl⟩
  · exact (congrArg Option.isSome (blobs hash)).trans stored
  · exact (blobs hash).symm.trans stored
  · simp only [dbWrite, other .chg (by simp)] at member
    exact member
  · refine le_of_eq (changesFloor_congr ?_)
    simp only [dbWrite, Db.get, other .metadata (by simp)]

/-- Deleting out-of-line values that are not spared. -/
theorem deleteBlobs {keys : List Bytes} (unspared : ∀ hash, spares hash → hash ∉ keys) :
    Shrinks store (store.dbWrite (keys.map (.delete .blob))) spares := by
  have other : ∀ cf, cf ≠ Cf.blob →
      (store.db.write (keys.map (.delete .blob))).family cf = store.db.family cf :=
    fun cf apart => store.db.family_write_deletes_of_ne apart keys
  refine ⟨fun order index holds => ⟨index, holds.congr (other _ (by simp)), fun _ _ stored => stored⟩,
    fun hash spared stored => ?_, fun hash payload stored => ?_, fun entry member => ?_, ?_, rfl, rfl⟩
  · simp only [dbWrite, Db.get_write_deletes, if_neg (unspared hash spared)]
    exact stored
  · simp only [dbWrite, Db.get_write_deletes] at stored
    split_ifs at stored
    exact stored
  · simp only [dbWrite, other .chg (by simp)] at member
    exact member
  · refine le_of_eq (changesFloor_congr ?_)
    simp only [dbWrite, Db.get, other .metadata (by simp)]

/-- Pruning the change log. -/
theorem pruneChanges (store : TripleStore) (before : Timestamp) :
    Shrinks store (store.pruneChanges before).1 spares := by
  obtain ⟨removed, floor⟩ := store.log_pruneChanges before
  have other : ∀ cf, cf ≠ Cf.chg → cf ≠ .metadata →
      (store.pruneChanges before).1.db.family cf = store.db.family cf :=
    fun cf log metadata => store.family_pruneChanges before log metadata
  have blobs : ∀ hash, (store.pruneChanges before).1.db.get .blob hash =
      store.db.get .blob hash := fun hash => by
    rw [Db.get, Db.get, other .blob (by simp) (by simp)]
  refine ⟨fun order index holds => ⟨index, holds.congr (other _ (by simp) (by simp)),
    fun _ _ stored => stored⟩, fun hash _ stored => ?_, fun hash payload stored => ?_, removed, floor,
    rfl, rfl⟩
  · rw [blobs]
    exact stored
  · rw [← blobs]
    exact stored

end Shrinks

end TripleStore

namespace Maintained

/--
Every reference of every order has its value, which the running sweep spares.

The orders may hold different versions while a retention run prunes them one after another.
-/
structure Sound (state : Maintained) : Prop where
  /-- Every order holds encodings of versions. -/
  holds : ∀ order, state.store.db.OrderHolds order (state.store.db.orderIndex order)
  /-- Its references have their values. -/
  resolves : ∀ order, (state.store.db.orderIndex order).Resolves state.store.db
  /-- The sweep spares them. -/
  spared : ∀ order hash, (state.store.db.orderIndex order).References hash →
    state.phase.Spares hash
  /-- The retention run only deletes what it should. -/
  deletes : state.phase.Deletes

/--
A step leaves no reference without its value.

A commit within a sweep references only values the sweep spares, and when the sweep marks, every
order references only what the leading one does.
-/
def RefsSafe (ext : External) (state : Maintained) : Upkeep → Prop
  | .commit tx wall => ∀ quad ∈ state.store.commitQuads ext tx wall, IsRef quad.value →
    state.phase.Spares quad.key.o.uuid.bytes
  | .mark => ∀ order hash, (state.store.db.orderIndex order).References hash →
    (state.store.db.orderIndex .spog).References hash
  | _ => True

/-- Every reference has its value, and no scan reports a missing one. -/
structure NoDangling (ext : External) (state : Maintained) : Prop where
  /-- Each reference stored in an order has its value present. -/
  resolves : ∀ order, (state.store.db.orderIndex order).Resolves state.store.db
  /-- No snapshot scan fails with a missing value. -/
  scans : ∀ (order : Order) (s : Option NodeId) (p : Option PredId) (o : Option NodeId)
    (g : Option GraphId) (point : ReadAt) (now : Timestamp) (graphs : GraphScope) (hash : NodeId),
    state.store.snapshotScanKeyed ext order (order.keyPrefix s p o g) point now graphs ≠
      .error (TripleStore.missingBlob hash)

variable {ext : External} {state after : Maintained}

/-- A sound store has no dangling reference. -/
theorem Sound.noDangling (sound : state.Sound) : state.NoDangling ext where
  resolves := sound.resolves
  scans order s p o g point now graphs hash :=
    TripleStore.scan_ne_missing (sound.holds order) (sound.resolves order)
      (Order.keyPrefix_short order s p o g) point now graphs hash

/-- A commit that references only spared values keeps a store sound. -/
theorem Sound.commit (sound : state.Sound) {tx : Transaction} {wall : Timestamp}
    (safe : state.RefsSafe ext (.commit tx wall)) :
    Sound { state with store := (state.store.commit ext tx wall).1 } := by
  obtain ⟨kept, stored⟩ :=
    state.store.commit_blobs ext (sound.holds .gspo) (sound.resolves .gspo) tx wall
  have holds := fun order => state.store.commit_holds ext (sound.holds order) tx wall
  have same := fun order => (holds order).orderIndex_eq
  refine ⟨fun order => ?_, fun order key bytes found isRef => ?_, fun order hash refers => ?_,
    sound.deletes⟩
  · simp only [same]
    exact holds order
  · simp only [same] at found
    rcases Index.putAll_eq_some found with old | new
    · exact kept _ (sound.resolves order key bytes old isRef)
    · exact stored _ new isRef
  · obtain ⟨key, bytes, found, isRef, rfl⟩ := refers
    simp only [same] at found
    rcases Index.putAll_eq_some found with old | new
    · exact sound.spared order _ ⟨key, bytes, old, isRef, rfl⟩
    · exact safe _ new isRef

/-- Every step but a commit only deletes. -/
theorem shrinks_next (deletes : state.phase.Deletes) {step : Upkeep}
    (other : ∀ tx wall, step ≠ .commit tx wall) (taken : state.next ext step = some after) :
    state.store.Shrinks after.store state.phase.Spares := by
  obtain ⟨store, phase⟩ := state
  cases step with
  | commit tx wall => exact absurd rfl (other tx wall)
  | setInlineValueMaxBytes n =>
    cases taken
    exact .refl rfl rfl rfl
  | pruneChanges before =>
    cases taken
    exact .pruneChanges store before
  | start policy now =>
    cases phase <;> cases taken
    exact .refl rfl rfl rfl
  | scan =>
    cases phase with
    | scanning cutoffs deleted orders => cases orders <;> cases taken <;> exact .refl rfl rfl rfl
    | idle | deleting | pruned | marked | swept => cases taken
  | delete =>
    cases phase with
    | deleting cutoffs deleted chunks rest =>
      cases chunks with
      | nil =>
        cases taken
        exact .refl rfl rfl rfl
      | cons chunk chunks =>
        cases taken
        obtain ⟨order, keys, rfl⟩ := deletes chunk List.mem_cons_self
        exact .deleteVersions order keys
    | idle | scanning | pruned | marked | swept => cases taken
  | mark =>
    cases phase with
    | pruned =>
      simp only [Maintained.next] at taken
      split at taken <;> cases taken <;> exact .refl rfl rfl rfl
    | idle | scanning | deleting | marked | swept => cases taken
  | sweep =>
    cases phase with
    | marked live =>
      cases taken
      exact .refl rfl rfl rfl
    | idle | scanning | deleting | pruned | swept => cases taken
  | deleteBlobs =>
    cases phase with
    | swept batch =>
      cases taken
      obtain ⟨keys, rfl⟩ := deletes
      exact .deleteBlobs fun hash spared member =>
        spared (List.mem_map.mpr ⟨hash, member, rfl⟩)
    | idle | scanning | deleting | pruned | marked => cases taken

/-- The retention run keeps deleting only what it should. -/
theorem deletes_next (deletes : state.phase.Deletes) {step : Upkeep}
    (taken : state.next ext step = some after) : after.phase.Deletes := by
  obtain ⟨store, phase⟩ := state
  cases step with
  | commit | setInlineValueMaxBytes | pruneChanges =>
    cases taken
    exact deletes
  | start policy now =>
    cases phase with
    | idle =>
      cases taken
      trivial
    | scanning | deleting | pruned | marked | swept => cases taken
  | scan =>
    cases phase with
    | scanning cutoffs deleted orders =>
      cases orders with
      | nil =>
        cases taken
        simp only
        split_ifs <;> trivial
      | cons order rest =>
        cases taken
        exact fun chunk member => ⟨order, store.pruneChunks_deletes order _ _ member⟩
    | idle | deleting | pruned | marked | swept => cases taken
  | delete =>
    cases phase with
    | deleting cutoffs deleted chunks rest =>
      cases chunks with
      | nil =>
        cases taken
        trivial
      | cons chunk chunks =>
        cases taken
        exact fun other member => deletes other (List.mem_cons_of_mem _ member)
    | idle | scanning | pruned | marked | swept => cases taken
  | mark =>
    cases phase with
    | pruned =>
      simp only [Maintained.next] at taken
      split at taken <;> cases taken <;> trivial
    | idle | scanning | deleting | marked | swept => cases taken
  | sweep =>
    cases phase with
    | marked live =>
      cases taken
      simp only
      split_ifs
      · trivial
      · exact ⟨_, store.sweepBatch_eq live⟩
    | idle | scanning | deleting | pruned | swept => cases taken
  | deleteBlobs =>
    cases phase with
    | swept batch =>
      cases taken
      trivial
    | idle | scanning | deleting | pruned | marked => cases taken

/-- What a sweep spares it goes on to spare, and it starts by sparing what the mark scan saw. -/
theorem spares_next {index : Index} (holds : state.store.db.OrderHolds .spog index) {step : Upkeep}
    (taken : state.next ext step = some after) {hash : Bytes} (spared : state.phase.Spares hash)
    (marked : step = .mark → index.References hash) : after.phase.Spares hash := by
  obtain ⟨store, phase⟩ := state
  cases step with
  | commit | setInlineValueMaxBytes | pruneChanges =>
    cases taken
    exact spared
  | start policy now =>
    cases phase with
    | idle =>
      cases taken
      trivial
    | scanning | deleting | pruned | marked | swept => cases taken
  | scan =>
    cases phase with
    | scanning cutoffs deleted orders =>
      cases orders <;> cases taken
      · simp only
        split_ifs <;> trivial
      · trivial
    | idle | deleting | pruned | marked | swept => cases taken
  | delete =>
    cases phase with
    | deleting cutoffs deleted chunks rest => cases chunks <;> cases taken <;> trivial
    | idle | scanning | pruned | marked | swept => cases taken
  | mark =>
    cases phase with
    | pruned =>
      obtain ⟨live, run, listed⟩ := TripleStore.markLive_spec holds
      simp only [Maintained.next, run] at taken
      cases taken
      exact (listed hash).mpr (marked rfl)
    | idle | scanning | deleting | marked | swept => cases taken
  | sweep =>
    cases phase with
    | marked live =>
      cases taken
      simp only
      split_ifs
      · trivial
      · intro deleted
        rw [TripleStore.sweepBatch_eq] at deleted
        obtain ⟨key, member, same⟩ := List.mem_map.mp deleted
        cases same
        exact TripleStore.not_mem_sweepKeys spared member
    | idle | scanning | deleting | pruned | swept => cases taken
  | deleteBlobs =>
    cases phase with
    | swept batch =>
      cases taken
      trivial
    | idle | scanning | deleting | pruned | marked => cases taken

/-- A safe step keeps a store sound. -/
theorem Sound.next (sound : state.Sound) {step : Upkeep} (safe : state.RefsSafe ext step)
    (taken : state.next ext step = some after) : after.Sound := by
  by_cases commits : ∃ tx wall, step = .commit tx wall
  · obtain ⟨tx, wall, rfl⟩ := commits
    cases taken
    exact sound.commit safe
  · -- What is left of the versions was there before, and their values are spared.
    have shrinks := shrinks_next sound.deletes
      (fun tx wall same => commits ⟨tx, wall, same⟩) taken
    have left : ∀ order, after.store.db.OrderHolds order (after.store.db.orderIndex order) ∧
        ∀ key bytes, after.store.db.orderIndex order key = some bytes →
          state.store.db.orderIndex order key = some bytes := by
      intro order
      obtain ⟨left, holds, within⟩ := shrinks.versions order _ (sound.holds order)
      rw [holds.orderIndex_eq]
      exact ⟨holds, within⟩
    refine ⟨fun order => (left order).1, fun order key bytes stored isRef => ?_,
      fun order hash refers => ?_, deletes_next sound.deletes taken⟩
    · have old := (left order).2 key bytes stored
      exact shrinks.kept _ (sound.spared order _ ⟨key, bytes, old, isRef, rfl⟩)
        (sound.resolves order key bytes old isRef)
    · obtain ⟨key, bytes, stored, isRef, rfl⟩ := refers
      have old : (state.store.db.orderIndex order).References key.o.uuid.bytes :=
        ⟨key, bytes, (left order).2 key bytes stored, isRef, rfl⟩
      refine spares_next (sound.holds .spog) taken (sound.spared order _ old) fun mark => ?_
      subst mark
      exact safe order _ old

/-- A new store, with any settings, on which no retention run is going on. -/
def fresh (inlineMax : Nat) (vocabulary : Vocabulary) (canonical : Bool) : Maintained :=
  opened (.configured inlineMax vocabulary canonical)

/-- A new store is sound. -/
theorem sound_fresh (inlineMax : Nat) (vocabulary : Vocabulary) (canonical : Bool) :
    (fresh inlineMax vocabulary canonical).Sound := by
  have holds := TripleStore.configured_orders inlineMax vocabulary canonical
  have same := fun order => (holds order).orderIndex_eq
  refine ⟨fun order => ?_, fun order key bytes stored => ?_, fun _ _ _ => trivial, trivial⟩
  · simp only [fresh, opened, same]
    exact holds order
  · simp only [fresh, opened, same] at stored
    cases stored

/-- Third-party code for runs in which only the empty vector is hashed. -/
def emptyVector : External :=
  { External.unreached with
    xxh3_128 := fun bytes => if bytes = [0x06] then 0x8160525cdc4248c7d72f745408743e95 else 0 }

/-- A transaction that writes the empty vector for a window, having read at a time. -/
def embeds (readTs start stop : Timestamp) : Transaction :=
  (Transaction.new readTs).insertIn
    (.property (NodeId.ofByte 1) "embedding" (.vector []) ⟨start, stop, Timestamp.zero⟩)
    GraphId.DEFAULT .auto

/-- The steps that prune one order of few versions. -/
def prunesOrder : List Upkeep := [.scan, .delete, .delete]

/-- A value is written and closed, and a retention run deletes both versions and marks. -/
def marks : List Upkeep :=
  [.commit (embeds Timestamp.zero Timestamp.zero Timestamp.END_OF_TIME) Timestamp.zero,
    .commit (embeds (Timestamp.wrap 1) Timestamp.zero (Timestamp.wrap 1)) Timestamp.zero,
    .start ⟨0, some 0⟩ (Timestamp.wrap 10)] ++
  Order.ALL.flatMap (fun _ => prunesOrder) ++ [.scan, .mark]

/-- The value is written again within the sweep. -/
def rewrites : List Upkeep :=
  [.commit (embeds (Timestamp.wrap 2) (Timestamp.wrap 5) Timestamp.END_OF_TIME) Timestamp.zero,
    .sweep, .deleteBlobs]

/-- What a snapshot of a store shows at a time. -/
def shows (time : Timestamp) (state : Maintained) : Except StorageError (List (QuadIds × Triple)) :=
  state.store.snapshotScanKeyed emptyVector .spog (Order.spog.keyPrefix none none none none)
    ⟨time, some time, none⟩ time .union

end Maintained

end Polargraph
