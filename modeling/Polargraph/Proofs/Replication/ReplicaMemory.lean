import Polargraph.Proofs.Storage.Hnsw
import Polargraph.Proofs.Storage.Oracle
import Polargraph.Replication.ReplicaMemory

/-! The memory of a replica is what reopening loads, unless a batch changes a vector space. -/

namespace Polargraph

/-- Two databases read alike: they differ at most in the storage format. -/
structure Db.ReadsLike (left right : Db) : Prop where
  /-- The other column families are the same. -/
  families : ∀ cf : Cf, cf ≠ .metadata → left.family cf = right.family cf
  /-- The other metadata are the same. -/
  metadata : ∀ key, key ≠ META_STORAGE_FORMAT → left.get .metadata key = right.get .metadata key
  /-- So are those under a prefix. -/
  scans : ∀ start, ¬ start <+: META_STORAGE_FORMAT →
    (left.family .metadata).scanPrefix start = (right.family .metadata).scanPrefix start

namespace Db

/-- Reading alike is symmetric. -/
theorem ReadsLike.symm {left right : Db} (alike : left.ReadsLike right) : right.ReadsLike left :=
  ⟨fun cf apart => (alike.families cf apart).symm, fun key apart => (alike.metadata key apart).symm,
    fun start apart => (alike.scans start apart).symm⟩

variable {db checked : Db}

/-- Checking the format leaves a database that reads alike. -/
theorem checkFormat_readsLike (done : db.checkFormat = .ok checked) : checked.ReadsLike db := by
  unfold checkFormat at done
  split at done
  · split_ifs at done
    cases done
    exact ⟨fun _ _ => rfl, fun _ _ => rfl, fun _ _ => rfl⟩
  · cases done
    have own : (db.write [.put .metadata META_STORAGE_FORMAT (u32Bytes STORAGE_FORMAT)]).family
        .metadata = (db.family .metadata).insert META_STORAGE_FORMAT (u32Bytes STORAGE_FORMAT) := by
      simp only [write, List.foldl_cons, List.foldl_nil, apply, setFamily, Function.update_self]
    refine ⟨fun cf apart => family_write_of_forall_ne _ (by simp [WriteOp.cf, apart]),
      fun key apart => ?_, fun start apart => ?_⟩
    · rw [get, own, SortedMap.find?_insert_ne _ _ apart]
      rfl
    · rw [own, SortedMap.scanPrefix_insert _ _ apart]

variable {left right : Db}

/-- Databases that read alike have the same tables of names. -/
theorem ReadsLike.loadNames (alike : left.ReadsLike right) (utf8Error : Bytes → String) {start : Bytes}
    (bad : String → String) {counter : Bytes} (apart : ¬ start <+: META_STORAGE_FORMAT)
    (other : counter ≠ META_STORAGE_FORMAT) :
    left.loadNames utf8Error start bad counter = right.loadNames utf8Error start bad counter := by
  unfold Db.loadNames loadCounter
  rw [alike.scans start apart, alike.metadata counter other]

/-- Databases that read alike have the same predicates. -/
theorem ReadsLike.loadPredicates (alike : left.ReadsLike right) (utf8Error : Bytes → String) :
    left.loadPredicates utf8Error = right.loadPredicates utf8Error :=
  alike.loadNames utf8Error _ (by decide +kernel) (by decide +kernel)

/-- Databases that read alike have the same graphs. -/
theorem ReadsLike.loadGraphs (alike : left.ReadsLike right) (utf8Error : Bytes → String) :
    left.loadGraphs utf8Error = right.loadGraphs utf8Error :=
  alike.loadNames utf8Error _ (by decide +kernel) (by decide +kernel)

/-- Databases that read alike have the same counter. -/
theorem ReadsLike.loadOracleTs (alike : left.ReadsLike right) :
    left.loadOracleTs = right.loadOracleTs := by
  unfold Db.loadOracleTs
  rw [alike.metadata _ (by decide +kernel)]

end Db

namespace TripleStore

variable {ext : External} {left right : TripleStore}

/-- Scans of stores with the same data and names return the same. -/
theorem snapshotScanKeyed_of_readsLike (alike : left.db.ReadsLike right.db) (names : left.rev = right.rev)
    (order : Order) (start : Bytes) (point : ReadAt) (now : Timestamp) (graphs : GraphScope) :
    left.snapshotScanKeyed ext order start point now graphs =
      right.snapshotScanKeyed ext order start point now graphs := by
  have live : left.scanLive order start point (point.vtAsOf.getD now) graphs =
      right.scanLive order start point (point.vtAsOf.getD now) graphs := by
    unfold scanLive scanLatest
    rw [alike.families (.quads order) (by simp)]
  have rebuilt : ∀ s p o tt bytes,
      left.reconstruct ext s p o tt bytes = right.reconstruct ext s p o tt bytes := by
    intro s p o tt bytes
    refine reconstruct_congr ext (congrFun names p) fun _ => ?_
    rw [Db.get, alike.families .blob (by simp)]
    rfl
  unfold snapshotScanKeyed
  simp only [live, rebuilt]

/-- Scoped scans of stores with the same data and names return the same. -/
theorem scanScopedAt_of_readsLike (alike : left.db.ReadsLike right.db) (names : left.rev = right.rev)
    (known : left.predicateId = right.predicateId) (s : Option NodeId) (predicate : Option String)
    (o : Option NodeId) (scope : GraphScope) (point : ReadAt) (now : Timestamp) :
    left.scanScopedAt ext s predicate o scope point now =
      right.scanScopedAt ext s predicate o scope point now := by
  unfold scanScopedAt
  simp only [snapshotScanKeyed_of_readsLike alike names, known]

/-- Stores with the same data and names have the same vocabulary. -/
theorem readVocabulary_of_readsLike (alike : left.db.ReadsLike right.db) (names : left.rev = right.rev)
    (graphs : left.graphFwd = right.graphFwd) (latest : left.committed = right.committed)
    (now : Timestamp) : left.readVocabulary ext now = right.readVocabulary ext now := by
  unfold readVocabulary graphId scanBySubjectInGraphAt
  simp only [graphs, latest, snapshotScanKeyed_of_readsLike alike names]

end TripleStore

namespace RunningReplica

variable {F : Type}

/-- Two replicas answer every read alike. -/
structure ReadsAlike (ext : External) (left right : RunningReplica F) : Prop where
  /-- Scans return the same triples. -/
  scans : ∀ s predicate o scope point now, left.store.scanScopedAt ext s predicate o scope point now =
    right.store.scanScopedAt ext s predicate o scope point now
  /-- The latest snapshots are of the same time. -/
  latest : left.store.readTs = right.store.readTs
  /-- Predicates have the same identifiers. -/
  predicates : ∀ name, left.store.predicateId name = right.store.predicateId name
  /-- Graphs have the same identifiers. -/
  graphs : ∀ iri, left.store.graphId iri = right.store.graphId iri
  /-- Graphs have the same IRIs. -/
  iris : ∀ g, left.store.graphIri g = right.store.graphIri g
  /-- Bare names are expanded alike. -/
  vocabulary : left.store.vocabulary = right.store.vocabulary
  /-- Prefixed names are expanded alike. -/
  prefixes : left.prefixes = right.prefixes
  /-- Vectors are searched in the same spaces. -/
  spaces : left.spaces = right.spaces

variable (ext : External) (utf8Error : Bytes → String) (floats : Floats VectorBits F Bytes)
  (files : VectorFiles) (settings : Settings)

/-- If a replica can be closed and reopened at a time, it answers as before. -/
def MatchesDisk (replica : RunningReplica F) (now : Timestamp) : Prop :=
  ∀ reopened, openReplica ext utf8Error floats files settings replica.disk now = .ok reopened →
    replica.ReadsAlike ext reopened

/-- A batch of the primary, and the clock when it is applied. -/
structure Received where
  /-- The sequence number. -/
  seq : Nat
  /-- The operations. -/
  ops : List BatchOp
  /-- The clock. -/
  now : Timestamp

/-- A replica applies batches one after another; one that cannot be loaded does not stop it. -/
def afterBatches (replica : RunningReplica F) (batches : List Received) : RunningReplica F :=
  batches.foldl (fun replica batch =>
    (replica.applyReplicatedBatch ext utf8Error batch.seq batch.ops batch.now).1) replica

/-- An operation that leaves the vector spaces alone. -/
def BatchOp.SparesSpaces : BatchOp → Prop
  | .data _ => True
  | .hnswPut .. => False
  | .hnswDelete _ => False

/-- A batch changes no vector space, and does not put the counter back. -/
def Spares (replica : RunningReplica F) (batch : Received) : Prop :=
  (∀ op ∈ batch.ops, BatchOp.SparesSpaces op) ∧
    replica.store.committed ≤ (received replica.disk batch.seq batch.ops).contents.db.loadOracleTs

/-- Every batch spares what the replica does not refresh. -/
def AllSpare (replica : RunningReplica F) : List Received → Prop
  | [] => True
  | batch :: rest => replica.Spares batch ∧
      AllSpare (replica.applyReplicatedBatch ext utf8Error batch.seq batch.ops batch.now).1 rest

variable {ext utf8Error floats files settings}

/-- What a replica keeps: its spaces are those of its records, and its settings are the given ones. -/
structure Keeps (floats : Floats VectorBits F Bytes) (files : VectorFiles) (settings : Settings)
    (replica : RunningReplica F) : Prop where
  /-- The spaces are loaded. -/
  spaces : loadHnswSpaces floats files replica.hnsw = .ok replica.spaces
  /-- Names are stored as configured. -/
  canonical : replica.store.canonicalNames = settings.canonicalNames

/-- The tables of a replica are the ones its database has. -/
structure Loaded (ext : External) (utf8Error : Bytes → String) (replica : RunningReplica F)
    (now : Timestamp) : Prop where
  /-- The predicates are loaded. -/
  predicates : ∃ names, replica.store.db.loadPredicates utf8Error = .ok names ∧
    replica.store.fwd = names.fwd ∧ replica.store.rev = names.rev
  /-- The graphs are loaded. -/
  graphs : ∃ names, replica.store.db.loadGraphs utf8Error = .ok names ∧
    (replica.store.graphFwd = fun iri => (names.fwd iri).map GraphId.mk) ∧
    replica.store.graphRev = fun g => names.rev g.raw
  /-- The counter is the persisted one. -/
  latest : replica.store.committed = replica.store.db.loadOracleTs
  /-- The vocabulary is the one the data has. -/
  vocabulary : ∃ vocabulary, replica.store.readVocabulary ext now = .ok vocabulary ∧
    replica.store.vocabulary = vocabulary.base ∧ replica.prefixes = vocabulary.prefixes

/-- Opening a replica loads its tables and its spaces. -/
theorem openReplica_spec {disk : Disk} {now : Timestamp} {replica : RunningReplica F}
    (opened : openReplica ext utf8Error floats files settings disk now = .ok replica) :
    replica.Keeps floats files settings ∧ replica.Loaded ext utf8Error now ∧
      replica.store.db.ReadsLike disk.contents.db ∧ replica.hnsw = disk.hnsw := by
  obtain ⟨checked, format, opened⟩ := Except.bind_eq_ok.mp opened
  obtain ⟨predicates, loaded, opened⟩ := Except.bind_eq_ok.mp opened
  obtain ⟨graphs, loaded', opened⟩ := Except.bind_eq_ok.mp opened
  obtain ⟨spaces, found, opened⟩ := Except.bind_eq_ok.mp opened
  obtain ⟨vocabulary, read, opened⟩ := Except.bind_eq_ok.mp opened
  rw [Except.mapError_eq_ok] at loaded loaded' found read
  cases opened
  have alike := Db.checkFormat_readsLike format
  exact ⟨⟨found, rfl⟩, ⟨⟨predicates, loaded, rfl, rfl⟩, ⟨graphs, loaded', rfl, rfl⟩, rfl,
    ⟨vocabulary, read, rfl, rfl⟩⟩, alike, rfl⟩

/-- A store looks predicates up by its names, its base and its settings. -/
theorem predicateId_of_eq {left right : TripleStore} (names : left.fwd = right.fwd)
    (base : left.vocabulary = right.vocabulary)
    (canonical : left.canonicalNames = right.canonicalNames) : left.predicateId = right.predicateId := by
  funext name
  unfold TripleStore.predicateId TripleStore.canonicalName
  rw [names, base, canonical]

/-- Replicas that are loaded from databases that read alike answer alike. -/
theorem Loaded.readsAlike {left right : RunningReplica F} {now : Timestamp}
    (loaded : left.Loaded ext utf8Error now) (loaded' : right.Loaded ext utf8Error now)
    (keeps : left.Keeps floats files settings) (keeps' : right.Keeps floats files settings)
    (alike : left.store.db.ReadsLike right.store.db) (records : left.hnsw = right.hnsw) :
    left.ReadsAlike ext right := by
  obtain ⟨predicates, found, fwd, rev⟩ := loaded.predicates
  obtain ⟨predicates', found', fwd', rev'⟩ := loaded'.predicates
  obtain ⟨graphs, listed, graphFwd, graphRev⟩ := loaded.graphs
  obtain ⟨graphs', listed', graphFwd', graphRev'⟩ := loaded'.graphs
  obtain ⟨vocabulary, read, base, prefixes⟩ := loaded.vocabulary
  obtain ⟨vocabulary', read', base', prefixes'⟩ := loaded'.vocabulary
  have samePredicates := Except.ok.inj (found.symm.trans
    ((alike.loadPredicates utf8Error).trans found'))
  have sameGraphs := Except.ok.inj (listed.symm.trans ((alike.loadGraphs utf8Error).trans listed'))
  subst samePredicates sameGraphs
  have names : left.store.rev = right.store.rev := rev.trans rev'.symm
  have latest : left.store.committed = right.store.committed := by
    rw [loaded.latest, loaded'.latest, alike.loadOracleTs]
  have sameGraphFwd : left.store.graphFwd = right.store.graphFwd := graphFwd.trans graphFwd'.symm
  have sameVocabulary := Except.ok.inj (read.symm.trans
    ((TripleStore.readVocabulary_of_readsLike alike names sameGraphFwd latest now).trans read'))
  subst sameVocabulary
  have bases := base.trans base'.symm
  have known := predicateId_of_eq (fwd.trans fwd'.symm) bases
    (keeps.canonical.trans keeps'.canonical.symm)
  have spaces := keeps.spaces
  rw [records, keeps'.spaces] at spaces
  exact ⟨TripleStore.scanScopedAt_of_readsLike alike names known, latest, congrFun known,
    congrFun sameGraphFwd, congrFun (graphRev.trans graphRev'.symm), bases,
    prefixes.trans prefixes'.symm, (Except.ok.inj spaces).symm⟩

/-- A replica that is loaded answers as it does after it is reopened. -/
theorem Loaded.matchesDisk {replica : RunningReplica F} {now : Timestamp}
    (loaded : replica.Loaded ext utf8Error now) (keeps : replica.Keeps floats files settings) :
    replica.MatchesDisk ext utf8Error floats files settings now := by
  intro reopened opened
  obtain ⟨keeps', loaded', alike, records⟩ := openReplica_spec opened
  exact loaded.readsAlike loaded' keeps keeps' alike.symm records.symm

/-- Operations that spare the vector spaces leave their records as they are. -/
theorem hnsw_write {ops : List BatchOp} (spares : ∀ op ∈ ops, BatchOp.SparesSpaces op) (disk : Disk) :
    (disk.write ops).hnsw = disk.hnsw := by
  induction ops generalizing disk with
  | nil => rfl
  | cons op rest ih =>
    have later := ih (fun other member => spares other (List.mem_cons_of_mem _ member)) (disk.apply op)
    have own : (disk.apply op).hnsw = disk.hnsw := by
      have spared := spares op List.mem_cons_self
      cases op with
      | data op => rfl
      | hnswPut | hnswDelete => exact spared.elim
    exact later.trans own

/-- Applying a batch leaves the spaces in memory and the settings as they are, and writes the batch. -/
theorem applyReplicatedBatch_kept (replica : RunningReplica F) (batch : Received) :
    let after := (replica.applyReplicatedBatch ext utf8Error batch.seq batch.ops batch.now).1
    after.spaces = replica.spaces ∧ after.store.canonicalNames = replica.store.canonicalNames ∧
      after.disk = received replica.disk batch.seq batch.ops := by
  dsimp only
  unfold applyReplicatedBatch
  dsimp only
  split
  · exact ⟨rfl, rfl, rfl⟩
  · split
    · exact ⟨rfl, rfl, rfl⟩
    · split <;>
      · unfold TripleStore.advanceTo
        split_ifs <;> exact ⟨rfl, rfl, rfl⟩

/-- After a batch the tables are loaded, or the replica cannot be reopened. -/
theorem applyReplicatedBatch_loaded (replica : RunningReplica F) (batch : Received)
    (reached : replica.store.committed ≤
      (received replica.disk batch.seq batch.ops).contents.db.loadOracleTs) :
    let after := (replica.applyReplicatedBatch ext utf8Error batch.seq batch.ops batch.now).1
    after.Loaded ext utf8Error batch.now ∨
      ∀ reopened, openReplica ext utf8Error floats files settings after.disk batch.now ≠
        .ok reopened := by
  dsimp only
  generalize written : replica.withDisk (received replica.disk batch.seq batch.ops) = next
  have committed : next.store.committed ≤ next.store.db.loadOracleTs := by
    rw [← written]
    exact reached
  unfold applyReplicatedBatch
  rw [written]
  dsimp only
  clear reached written
  cases predicatesLoaded : next.store.db.loadPredicates utf8Error with
  | error problem =>
    refine Or.inr fun reopened opened => ?_
    obtain ⟨_, loaded, alike, _⟩ := openReplica_spec opened
    obtain ⟨names, found, _⟩ := loaded.predicates
    rw [alike.loadPredicates] at found
    change next.store.db.loadPredicates utf8Error = _ at found
    rw [predicatesLoaded] at found
    cases found
  | ok predicates =>
    dsimp only
    cases graphsLoaded : (next.store.withPredicates predicates).db.loadGraphs utf8Error with
    | error problem =>
      refine Or.inr fun reopened opened => ?_
      obtain ⟨_, loaded, alike, _⟩ := openReplica_spec opened
      obtain ⟨names, found, _⟩ := loaded.graphs
      rw [alike.loadGraphs] at found
      change (next.store.withPredicates predicates).db.loadGraphs utf8Error = _ at found
      rw [graphsLoaded] at found
      cases found
    | ok graphs =>
      dsimp only
      -- The counter in memory was not ahead, so it becomes the persisted one.
      generalize taken : ((next.store.withPredicates predicates).withGraphs graphs).advanceTo
        next.store.db.loadOracleTs = store
      have fields : store.db = next.store.db ∧ store.fwd = predicates.fwd ∧
          store.rev = predicates.rev ∧ (store.graphFwd = fun iri => (graphs.fwd iri).map GraphId.mk) ∧
          (store.graphRev = fun g => graphs.rev g.raw) ∧
          store.committed = next.store.db.loadOracleTs := by
        rw [← taken]
        unfold TripleStore.advanceTo
        split_ifs with ahead
        · exact ⟨rfl, rfl, rfl, rfl, rfl, rfl⟩
        · exact ⟨rfl, rfl, rfl, rfl, rfl, le_antisymm committed (not_lt.mp ahead)⟩
      obtain ⟨db, fwd, rev, graphFwd, graphRev, latest⟩ := fields
      change next.store.db.loadGraphs utf8Error = _ at graphsLoaded
      cases read : store.readVocabulary ext batch.now with
      | error problem =>
        refine Or.inr fun reopened opened => ?_
        obtain ⟨_, loaded, alike, _⟩ := openReplica_spec opened
        change reopened.store.db.ReadsLike store.db at alike
        rw [← db] at predicatesLoaded graphsLoaded latest
        obtain ⟨names, found, _, rev'⟩ := loaded.predicates
        obtain ⟨iris, listed, graphFwd', _⟩ := loaded.graphs
        obtain ⟨vocabulary, other, _⟩ := loaded.vocabulary
        rw [alike.loadPredicates, predicatesLoaded] at found
        rw [alike.loadGraphs, graphsLoaded] at listed
        cases found
        cases listed
        rw [TripleStore.readVocabulary_of_readsLike alike (rev'.trans rev.symm)
          (graphFwd'.trans graphFwd.symm) (by rw [loaded.latest, alike.loadOracleTs, latest]),
          read] at other
        cases other
      | ok vocabulary =>
        refine Or.inl ⟨⟨predicates, ?_, fwd, rev⟩, ⟨graphs, ?_, graphFwd, graphRev⟩, ?_,
          ⟨vocabulary, read, rfl, rfl⟩⟩
        · dsimp only
          rw [db]
          exact predicatesLoaded
        · dsimp only
          rw [db]
          exact graphsLoaded
        · dsimp only
          rw [latest, db]

/-- A batch that spares the vector spaces keeps them as they are recorded. -/
theorem Keeps.apply {replica : RunningReplica F} (keeps : replica.Keeps floats files settings)
    {batch : Received} (spares : replica.Spares batch) :
    (replica.applyReplicatedBatch ext utf8Error batch.seq batch.ops batch.now).1.Keeps floats files
      settings := by
  obtain ⟨spaces, canonical, disk⟩ := @applyReplicatedBatch_kept F ext utf8Error replica batch
  have records : (replica.applyReplicatedBatch ext utf8Error batch.seq batch.ops batch.now).1.hnsw =
      replica.hnsw := (congrArg Disk.hnsw disk).trans (hnsw_write spares.1 replica.disk)
  refine ⟨?_, canonical.trans keeps.canonical⟩
  rw [records, spaces]
  exact keeps.spaces

/-- The clock when a replica was opened, or when the last batch was applied. -/
def lastClock (now : Timestamp) (batches : List Received) : Timestamp :=
  (batches.map Received.now).getLastD now

/-- After any batches a replica answers every read as it would after it is reopened. -/
def AlwaysMatchesDisk (ext : External) (utf8Error : Bytes → String)
    (floats : Floats VectorBits F Bytes) (files : VectorFiles) (settings : Settings) : Prop :=
  ∀ disk now start, openReplica ext utf8Error floats files settings disk now = .ok start →
    ∀ batches, (start.afterBatches ext utf8Error batches).MatchesDisk ext utf8Error floats files
      settings (lastClock now batches)

/-- Vectors that are compared by their lengths. -/
def lengths : Floats VectorBits Nat Bytes where
  empty := []
  norm v := v.length
  quantize _ := []
  codeDistance _ _ := 0
  cosine v _ query _ := (v.length - query.length) + (query.length - v.length)
  ranking := HnswIndex.numbers.ranking
  sortBy := HnswIndex.numbers.sortBy
  sortBy_perm := HnswIndex.numbers.sortBy_perm

/-- What a primary writes for the first vector of a space. -/
def firstVector : Received where
  seq := 1
  ops := [
    .hnswPut (vectorKeyForSpace "s" (NodeId.ofByte 1)) (vectorToBytes [7]),
    .hnswPut (nodeKeyForSpace "s" (NodeId.ofByte 1)) (serializeNode ⟨[7], 0, [[]], false⟩ none),
    .hnswPut (epKeyForSpace "s") (serializeEntryPoint (NodeId.ofByte 1) 0)]
  now := Timestamp.zero

/-- Open a replica without vector files, in the default configuration. -/
def openPlain (disk : Disk) : Except OpenError (RunningReplica Nat) :=
  openReplica External.unreached (fun _ => "") lengths (fun _ => none)
    ⟨DEFAULT_INLINE_VALUE_MAX_BYTES, true⟩ disk Timestamp.zero

/-- A replica that has no data. -/
def freshReplica : RunningReplica Nat :=
  (openPlain ⟨Contents.empty, SortedMap.empty⟩).toOption.get (by decide +kernel)

/-- The replica was opened. -/
theorem openPlain_fresh : openPlain ⟨Contents.empty, SortedMap.empty⟩ = .ok freshReplica := by
  have got : ∀ (result : Except OpenError (RunningReplica Nat)) (opens : result.toOption.isSome),
      result = .ok (result.toOption.get opens) := by
    intro result opens
    cases result with
    | error problem => cases opens
    | ok replica => rfl
  exact got _ _

end RunningReplica

end Polargraph
