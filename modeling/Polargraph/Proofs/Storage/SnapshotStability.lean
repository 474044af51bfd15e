import Mathlib.Data.List.Nodup
import Polargraph.Proofs.Storage.Scan
import Polargraph.Proofs.Storage.System

/-! What a handed out read timestamp fixes, whatever the concurrent transactions do later. -/

namespace Polargraph

/-- Two reads return the same quads whenever both succeed. -/
def SameQuads (left right : Except StorageError (List (QuadIds × Triple))) : Prop :=
  ∀ before after, left = .ok before → right = .ok after →
    (before.map Prod.fst).Perm (after.map Prod.fst)

/-- Two states of a store read alike at a transaction time. -/
structure ReadsAlike (ext : External) (ts : Timestamp) (left right : TripleStore) : Prop where
  /-- They hold the same versions up to that time. -/
  versions : ∀ key : QuadKey, key.tt ≤ ts → left.index key = right.index key
  /-- Every scan finds the same quads with the same governing versions. -/
  slots : ∀ (order : Order) (s : Option NodeId) (p : Option PredId) (o : Option NodeId)
    (g : Option GraphId) (vt : Timestamp) (readable : Option (List UInt32)) (graphs : GraphScope),
    ∃ before after,
      left.scanLive order (order.keyPrefix s p o g) ⟨ts, some vt, readable⟩ vt graphs = .ok before ∧
      right.scanLive order (order.keyPrefix s p o g) ⟨ts, some vt, readable⟩ vt graphs = .ok after ∧
      before.Perm after
  /-- Every scan at a fixed valid time returns the same quads, whenever it is made. -/
  scans : ∀ (order : Order) (s : Option NodeId) (p : Option PredId) (o : Option NodeId)
    (g : Option GraphId) (vt : Timestamp) (readable : Option (List UInt32)) (graphs : GraphScope)
    (now later : Timestamp),
    SameQuads
      (left.snapshotScanKeyed ext order (order.keyPrefix s p o g) ⟨ts, some vt, readable⟩ now graphs)
      (right.snapshotScanKeyed ext order (order.keyPrefix s p o g) ⟨ts, some vt, readable⟩ later
        graphs)

/-- Stores whose orders agree and which hold the same versions up to a time read alike at it. -/
theorem readsAlike_of_versions (ext : External) {ts : Timestamp} {left right : TripleStore}
    (holds : left.db.OrdersHold left.index) (holds' : right.db.OrdersHold right.index)
    (same : ∀ key : QuadKey, key.tt ≤ ts → left.index key = right.index key) :
    ReadsAlike ext ts left right where
  versions := same
  slots order s p o g vt readable graphs := by
    have short := order.keyPrefix_short s p o g
    obtain ⟨before, run, distinct, listed⟩ :=
      TripleStore.scanLive_eq (holds order) short ⟨ts, some vt, readable⟩ vt graphs
    obtain ⟨after, run', distinct', listed'⟩ :=
      TripleStore.scanLive_eq (holds' order) short ⟨ts, some vt, readable⟩ vt graphs
    refine ⟨before, after, run, run', ?_⟩
    refine (List.perm_ext_iff_of_nodup (List.Nodup.of_map _ distinct)
      (List.Nodup.of_map _ distinct')).mpr fun quad => ?_
    rw [listed quad.1 quad.2, listed' quad.1 quad.2]
    exact scanFinds_congr same
  scans order s p o g vt readable graphs now later before after first second := by
    -- Both scans return the quads they find, each once, and they find the same.
    have short := order.keyPrefix_short s p o g
    have distinct := ((TripleStore.snapshotScanKeyed_spec ext (holds order) short _ now graphs).2
      before first).1
    have distinct' := ((TripleStore.snapshotScanKeyed_spec ext (holds' order) short _ later graphs).2
      after second).1
    refine (List.perm_ext_iff_of_nodup distinct distinct').mpr fun ids => ?_
    rw [TripleStore.mem_ids_of_scan (holds order) short first,
      TripleStore.mem_ids_of_scan (holds' order) short second]
    exact exists_congr fun slot => scanFinds_congr same

namespace System

variable {ext : External} {system after : System} {ts : Timestamp}

/-- No commit in progress is going to write versions that a reader at the timestamp would see. -/
def Settled (ext : External) (system : System) (ts : Timestamp) : Prop :=
  ∀ commit, system.committing = some commit → system.pending ext ≠ [] → ts < commit.commitTs

/-- Any two later states of the run read alike at the timestamp. -/
def SnapshotStable (ext : External) (system : System) (ts : Timestamp) : Prop :=
  ∀ middle last, Runs (next ext) Counts system middle → Runs (next ext) Counts middle last →
    ReadsAlike ext ts middle.store last.store

/-- The versions up to a timestamp are fixed. -/
structure Fixed (ext : External) (ts : Timestamp) (versions : Index) (system : System) : Prop where
  /-- Versions are dated by the counter. -/
  dated : system.Dated
  /-- The counter has reached the timestamp. -/
  reached : ts ≤ system.store.committed
  /-- The commit in progress adds nothing up to the timestamp. -/
  settled : system.Settled ext ts
  /-- The store holds the given versions up to the timestamp. -/
  same : ∀ key : QuadKey, key.tt ≤ ts → system.store.index key = versions key

/-- What a commit is going to write does not depend on whether its check has been made. -/
theorem pending_pass {commit : InFlight} (held : system.committing = some commit)
    (free : system.store.firstConflict ext commit.tx commit.commitTs = none) :
    System.pending ext { system with committing := some { commit with checked := true } } =
      system.pending ext := by
  simp [pending, held, free]

/-- A checked commit is going to write what it stages. -/
theorem pending_checked {commit : InFlight} (held : system.committing = some commit)
    (checked : commit.checked = true) :
    system.pending ext = system.store.stagedQuads ext commit.tx commit.commitTs := by
  simp [pending, held, checked]

/-- Every step keeps the versions up to a settled timestamp. -/
theorem Fixed.next {versions : Index} (fixed : system.Fixed ext ts versions) {action : Action}
    (counts : system.Counts action) (taken : system.next ext action = some after) :
    after.Fixed ext ts versions := by
  -- Only a flush adds versions, and the commit's timestamp is past the fixed one.
  have dated := fixed.dated.next counts taken
  cases next_kind taken with
  | buffer quiet =>
    refine ⟨dated, ?_, ?_, ?_⟩
    · rw [quiet.store]
      exact fixed.reached
    · intro commit held writes
      rw [quiet.committing] at held
      refine fixed.settled commit held ?_
      rwa [pending, quiet.committing, quiet.store, ← pending] at writes
    · rw [quiet.store]
      exact fixed.same
  | @publish handle wall tx free held =>
    have later := lt_of_le_of_lt fixed.reached (lt_beginCommit counts wall)
    refine ⟨dated, le_of_lt later, ?_, fixed.same⟩
    rintro commit ⟨⟩ _
    exact later
  | abort held fresh conflicts =>
    refine ⟨dated, fixed.reached, ?_, fixed.same⟩
    rintro commit ⟨⟩
  | @pass commit held fresh free =>
    have settled := fixed.settled commit held
    refine ⟨dated, fixed.reached, ?_, fixed.same⟩
    rintro same ⟨⟩ writes
    rw [pending_pass held free] at writes
    exact settled writes
  | @flush commit held checked =>
    refine ⟨dated, ?_, by rintro commit ⟨⟩, fun key early => ?_⟩
    · change ts ≤ (system.store.flush ext commit.tx commit.commitTs).1.committed
      rw [TripleStore.committed_flush]
      exact fixed.reached
    · change (system.store.flush ext commit.tx commit.commitTs).1.index key = versions key
      rw [index_flush fixed.dated, ← fixed.same key early]
      refine Index.putAll_of_forall_ne _ fun quad member same => ?_
      have writes : system.pending ext ≠ [] := by
        rw [pending_checked held checked]
        exact List.ne_nil_of_mem member
      have late := fixed.settled commit held writes
      rw [← TripleStore.stagedQuads_tt member, same] at late
      exact absurd early (not_le.mpr late)

/-- A settled timestamp that the counter has reached is stable. -/
theorem stable_of_settled (dated : system.Dated) (reached : ts ≤ system.store.committed)
    (settled : system.Settled ext ts) : system.SnapshotStable ext ts := by
  intro middle last early late
  have initial : system.Fixed ext ts system.store.index := ⟨dated, reached, settled, fun _ _ => rfl⟩
  have preserved : ∀ (state : System) (action : Action) (after : System),
      state.Fixed ext ts system.store.index → state.Counts action →
      state.next ext action = some after → after.Fixed ext ts system.store.index :=
    fun _ _ _ fixed counts taken => fixed.next counts taken
  have between := early.invariant preserved initial
  have finally_ := late.invariant preserved between
  refine readsAlike_of_versions ext between.dated.orders finally_.dated.orders fun key before => ?_
  rw [between.same key before, finally_.same key before]

/-- A commit in progress that is going to write can be finished. -/
theorem flushes_pending (dated : system.Dated) {commit : InFlight}
    (held : system.committing = some commit) (writes : system.pending ext ≠ []) :
    ∃ last, Runs (next ext) Counts system last ∧
      last.store.index = system.store.index.putAll (system.pending ext) ∧
      ∀ quad ∈ system.pending ext, quad.key.tt = commit.commitTs := by
  -- The check passes if it has not been made yet, and the flush follows.
  have flushed : ∀ state : System, state.Dated → ∀ commit : InFlight,
      state.committing = some commit → commit.checked = true →
      ∃ last, state.next ext .flush = some last ∧
        last.store.index = state.store.index.putAll (state.pending ext) ∧
        ∀ quad ∈ state.pending ext, quad.key.tt = commit.commitTs := by
    intro state dated commit held checked
    refine ⟨state.finish commit (state.store.flush ext commit.tx commit.commitTs).1
      (state.store.flush ext commit.tx commit.commitTs).2
      (state.store.stagedQuads ext commit.tx commit.commitTs), ?_, ?_, ?_⟩
    · simp [next, held, checked]
    · rw [pending_checked held checked]
      exact index_flush dated _ _
    · rw [pending_checked held checked]
      exact fun quad => TripleStore.stagedQuads_tt
  by_cases checked : commit.checked = true
  · obtain ⟨last, taken, contents, stamps⟩ := flushed system dated commit held checked
    exact ⟨last, .step .flush (.done _) trivial taken, contents, stamps⟩
  · have fresh : commit.checked = false := by simpa using checked
    have free : system.store.firstConflict ext commit.tx commit.commitTs = none := by
      by_contra conflicts
      refine writes ?_
      simp [pending, held, fresh, Option.isSome_iff_ne_none.mpr conflicts]
    have passed : system.next ext .check =
        some { system with committing := some { commit with checked := true } } := by
      simp [next, held, fresh, free]
    have counts : system.Counts .check := trivial
    obtain ⟨last, taken, contents, stamps⟩ :=
      flushed _ (dated.next counts passed) { commit with checked := true } rfl rfl
    rw [pending_pass held free] at contents stamps
    exact ⟨last, .step .flush (.step .check (.done _) trivial passed) trivial taken, contents,
      stamps⟩

/-- A stable timestamp is settled. -/
theorem settled_of_stable (dated : system.Dated) (stable : system.SnapshotStable ext ts) :
    system.Settled ext ts := by
  -- Otherwise finishing the commit adds a version that was not there.
  intro commit held writes
  by_contra early
  obtain ⟨last, run, contents, stamps⟩ := flushes_pending dated held writes
  obtain ⟨quad, member⟩ := List.exists_mem_of_ne_nil _ writes
  have within : quad.key.tt ≤ ts := by
    rw [stamps quad member]
    exact not_lt.mp early
  have same := (stable system last (.done _) run).versions quad.key within
  have added := Index.putAll_isSome system.store.index member
  rw [← contents, ← same] at added
  obtain ⟨bytes, stored⟩ := Option.isSome_iff_exists.mp added
  have before := (dated.lock commit held).2 _ _ stored
  rw [stamps quad member] at before
  exact lt_irrefl _ before

/-- A step that hands out a timestamp changes neither the store nor the commit in progress. -/
theorem quiet_of_handed {action : Action} (hands : system.handed action = some ts)
    (taken : system.next ext action = some after) :
    after.store = system.store ∧ after.committing = system.committing ∧
      ts ≤ system.store.committed := by
  cases action with
  | begin | oracleTs =>
    cases taken
    cases hands
    exact ⟨rfl, rfl, le_refl _⟩
  | beginAt readTs =>
    simp only [handed] at hands
    simp only [next] at taken
    split at hands
    · rename_i tx begun
      rw [begun] at taken
      cases taken
      unfold TripleStore.beginAt at begun
      split at begun
      · cases begun
      · rename_i reached
        cases begun
        cases hands
        exact ⟨rfl, rfl, not_lt.mp reached⟩
    · cases hands
  | _ => cases hands

/-- A new store, with any settings, that no transaction uses yet. -/
def fresh (inlineMax : Nat) (vocabulary : Vocabulary) (canonical : Bool) : System :=
  start (.configured inlineMax vocabulary canonical)

/-- Versions are dated in every state of a run from a new store. -/
theorem dated_of_run {inlineMax : Nat} {vocabulary : Vocabulary} {canonical : Bool}
    (run : Runs (next ext) Counts (fresh inlineMax vocabulary canonical) system) : system.Dated :=
  run.invariant (fun _ _ _ dated counts taken => dated.next counts taken)
    (dated_start inlineMax vocabulary canonical)

/--
A handed out timestamp is a stable snapshot exactly when it is settled.

Settled means that no commit with this or an earlier timestamp still has versions to write.
-/
theorem snapshotStable_iff {inlineMax : Nat} {vocabulary : Vocabulary} {canonical : Bool}
    (run : Runs (next ext) Counts (fresh inlineMax vocabulary canonical) system) {action : Action}
    (hands : system.handed action = some ts) (taken : system.next ext action = some after) :
    after.SnapshotStable ext ts ↔ system.Settled ext ts := by
  obtain ⟨store, committing, reached⟩ := quiet_of_handed hands taken
  have counts : system.Counts action := by
    cases action with
    | publish => cases hands
    | _ => trivial
  have dated := (dated_of_run run).next counts taken
  have same : after.Settled ext ts ↔ system.Settled ext ts := by
    simp only [Settled, pending, store, committing]
  rw [← same]
  exact ⟨settled_of_stable dated, stable_of_settled dated (store ▸ reached)⟩

/-- The first timestamp a new store hands out is a stable snapshot. -/
theorem snapshotStable_iff_fresh :
    (fresh 256 Vocabulary.default true).SnapshotStable External.unreached Timestamp.zero ↔
      (fresh 256 Vocabulary.default true).Settled External.unreached Timestamp.zero := by
  have hands : (fresh 256 Vocabulary.default true).handed .oracleTs = some Timestamp.zero := rfl
  exact snapshotStable_iff (.done _) hands rfl

/-- One relation, valid from the epoch on. -/
def knows : Triple := .relation (NodeId.ofByte 1) "knows" (NodeId.ofByte 2)
  ⟨(NodeId.ofByte 3).uuid⟩ ⟨Timestamp.zero, Timestamp.END_OF_TIME, Timestamp.zero⟩

/-- A transaction asserts the relation and has stored the new counter, but not yet its batch. -/
def published : List Action :=
  [.begin, .insertIn 0 knows GraphId.DEFAULT .auto, .publish 0 Timestamp.zero]

/-- What a snapshot of a system shows at the first commit timestamp and the epoch. -/
def shown (system : System) : Except StorageError (List (QuadIds × Triple)) :=
  system.store.snapshotScanKeyed External.unreached .spog
    (Order.spog.keyPrefix none none none none) ⟨Timestamp.wrap 1, some Timestamp.zero, none⟩
    Timestamp.zero .union

/-- The relation as the first commit of a new store records it. -/
def recorded : QuadIds × Triple :=
  (⟨NodeId.ofByte 1, 1, NodeId.ofByte 2, GraphId.DEFAULT⟩,
    .relation (NodeId.ofByte 1) "urn:pg:vocab:knows" (NodeId.ofByte 2) ⟨(NodeId.ofByte 3).uuid⟩
      ⟨Timestamp.zero, Timestamp.END_OF_TIME, Timestamp.wrap 1⟩)

/-- A timestamp loaded between the counter's store and the flush shows nothing, then a quad. -/
theorem oracleTs_unstable : ∃ system last,
    Runs (next External.unreached) Counts (fresh 256 Vocabulary.default true) system ∧
    system.handed .oracleTs = some (Timestamp.wrap 1) ∧
    system.next External.unreached .oracleTs = some system ∧
    Runs (next External.unreached) Counts system last ∧
    system.shown = .ok [] ∧ last.shown = .ok [recorded] ∧
    ¬ system.SnapshotStable External.unreached (Timestamp.wrap 1) := by
  -- The transaction's check and flush follow the load.
  have between : ((fresh 256 Vocabulary.default true).after External.unreached published).map
      (fun system => (system.handed .oracleTs, system.shown)) =
      some (some (Timestamp.wrap 1), .ok []) := by decide +kernel
  have done : ((fresh 256 Vocabulary.default true).after External.unreached published).bind
      (fun system => (system.after External.unreached [.check, .flush]).map shown) =
      some (.ok [recorded]) := by decide +kernel
  obtain ⟨system, early, both⟩ := Option.map_eq_some_iff.mp between
  obtain ⟨hands, empty⟩ := Prod.mk.inj both
  obtain ⟨same, early', later⟩ := Option.bind_eq_some_iff.mp done
  obtain rfl := Option.some.inj (early.symm.trans early')
  obtain ⟨last, late, full⟩ := Option.map_eq_some_iff.mp later
  refine ⟨system, last, Runs.of_stepAll early, hands, rfl, Runs.of_stepAll late, empty, full, ?_⟩
  intro stable
  have alike := (stable system last (.done _) (Runs.of_stepAll late)).scans .spog none none none none
    Timestamp.zero none .union Timestamp.zero Timestamp.zero
  have same := alike [] [recorded] empty full
  simp at same

end System

end Polargraph
