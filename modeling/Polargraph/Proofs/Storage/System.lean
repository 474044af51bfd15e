import Polargraph.Proofs.Storage.Staging
import Polargraph.Storage.System

/-! What each step of concurrent transactions does, and the invariant all of them keep. -/

namespace Polargraph

namespace System

variable {ext : External} {system after : System}

/-- A step of a thread that holds no lock: only open transactions may change. -/
structure Local (system after : System) : Prop where
  /-- The store is unchanged. -/
  store : after.store = system.store
  /-- So is the commit holding the lock. -/
  committing : after.committing = system.committing
  /-- No commit returns. -/
  outcomes : after.outcomes = system.outcomes
  /-- Handles are not given out twice. -/
  handles : system.nextHandle ≤ after.nextHandle
  /-- A transaction that was open before keeps its read timestamp. -/
  readTs : ∀ handle < system.nextHandle, ∀ tx, after.transactions handle = some tx →
    ∃ before, system.transactions handle = some before ∧ tx.readTs = before.readTs
  /-- Only given out handles are open. -/
  given : ∀ handle, after.nextHandle ≤ handle → system.transactions handle = none →
    after.transactions handle = none

/-- What a step does: work on a buffer, or one of the steps of a commit. -/
inductive Kind (ext : External) (system : System) : Action → System → Prop
  /-- No lock is involved. -/
  | buffer {action : Action} {after : System} : system.Local after → Kind ext system action after
  /-- The lock is taken and the counter advanced. -/
  | publish {handle : Nat} {wall : Timestamp} {tx : Transaction} :
      system.committing = none → system.transactions handle = some tx →
      Kind ext system (.publish handle wall)
        { system.closed handle with
          store := (system.store.beginCommit wall).1
          committing := some ⟨handle, tx, (system.store.beginCommit wall).2, false⟩ }
  /-- The conflict check fails and the lock is released. -/
  | abort {commit : InFlight} {conflict : ConflictError} :
      system.committing = some commit → commit.checked = false →
      system.store.firstConflict ext commit.tx commit.commitTs = some conflict →
      Kind ext system .check
        (system.finish commit system.store (.error (.writeConflict conflict)) [])
  /-- The conflict check passes. -/
  | pass {commit : InFlight} :
      system.committing = some commit → commit.checked = false →
      system.store.firstConflict ext commit.tx commit.commitTs = none →
      Kind ext system .check { system with committing := some { commit with checked := true } }
  /-- The batch is written and the lock released. -/
  | flush {commit : InFlight} :
      system.committing = some commit → commit.checked = true →
      Kind ext system .flush
        (system.finish commit (system.store.flush ext commit.tx commit.commitTs).1
          (system.store.flush ext commit.tx commit.commitTs).2
          (system.store.stagedQuads ext commit.tx commit.commitTs))

/-- Handing out a transaction works on no buffer of another. -/
private theorem local_opened (system : System) (tx : Transaction) :
    system.Local (system.opened tx) where
  store := rfl
  committing := rfl
  outcomes := rfl
  handles := Nat.le_succ _
  readTs handle old tx' held := by
    simp only [opened, Function.update_of_ne (Nat.ne_of_lt old)] at held
    exact ⟨tx', held, rfl⟩
  given handle late none_before := by
    have apart : handle ≠ system.nextHandle := Nat.ne_of_gt late
    simp only [opened, Function.update_of_ne apart]
    exact none_before

/-- Buffering keeps the read timestamp. -/
private theorem local_edit (system : System) (handle : Nat) {change : Transaction → Transaction}
    (keeps : ∀ tx, (change tx).readTs = tx.readTs) : system.Local (system.edit handle change) where
  store := rfl
  committing := rfl
  outcomes := rfl
  handles := Nat.le_refl _
  readTs other old tx' held := by
    by_cases same : other = handle
    · subst same
      simp only [edit, Function.update_self] at held
      obtain ⟨tx, open_, rfl⟩ := Option.map_eq_some_iff.mp held
      exact ⟨tx, open_, keeps tx⟩
    · simp only [edit, Function.update_of_ne same] at held
      exact ⟨tx', held, rfl⟩
  given other _ none_before := by
    by_cases same : other = handle
    · subst same
      simp only [edit, Function.update_self, none_before, Option.map_none]
    · simp only [edit, Function.update_of_ne same]
      exact none_before

/-- Consuming a handle leaves the others open. -/
private theorem local_closed (system : System) (handle : Nat) :
    system.Local (system.closed handle) where
  store := rfl
  committing := rfl
  outcomes := rfl
  handles := Nat.le_refl _
  readTs other old tx' held := by
    by_cases same : other = handle
    · subst same
      simp only [closed, Function.update_self] at held
      cases held
    · simp only [closed, Function.update_of_ne same] at held
      exact ⟨tx', held, rfl⟩
  given other _ none_before := by
    by_cases same : other = handle
    · subst same
      simp only [closed, Function.update_self]
    · simp only [closed, Function.update_of_ne same]
      exact none_before

/-- A step that changes nothing. -/
private theorem local_self (system : System) : system.Local system where
  store := rfl
  committing := rfl
  outcomes := rfl
  handles := Nat.le_refl _
  readTs _ _ tx held := ⟨tx, held, rfl⟩
  given _ _ none_before := none_before

/-- Every enabled step is of one of the kinds. -/
theorem next_kind {action : Action} (taken : system.next ext action = some after) :
    Kind ext system action after := by
  cases action with
  | begin =>
    cases taken
    exact .buffer (local_opened _ _)
  | beginAt readTs =>
    simp only [next] at taken
    split at taken <;> cases taken
    · exact .buffer (local_opened _ _)
    · exact .buffer (local_self _)
  | oracleTs =>
    cases taken
    exact .buffer (local_self _)
  | insertIn | bindIri | setAuthor | recordGraphOp =>
    cases taken
    exact .buffer (local_edit _ _ fun _ => rfl)
  | rollback handle =>
    cases taken
    exact .buffer (local_closed _ _)
  | publish handle wall =>
    obtain ⟨tx, held, taken⟩ := Option.bind_eq_some_iff.mp taken
    simp only [System.publish] at taken
    split at taken
    · cases taken
      exact .buffer (local_closed _ _)
    · split at taken
      · cases taken
      · rename_i free
        cases taken
        exact .publish free held
  | check =>
    obtain ⟨commit, held, taken⟩ := Option.bind_eq_some_iff.mp taken
    split at taken
    · cases taken
    · rename_i fresh
      have unchecked : commit.checked = false := by simpa using fresh
      split at taken <;> cases taken
      · exact .abort held unchecked ‹_›
      · exact .pass held unchecked ‹_›
  | flush =>
    obtain ⟨commit, held, taken⟩ := Option.bind_eq_some_iff.mp taken
    split at taken
    · cases taken
      exact .flush held ‹_›
    · cases taken

/-- The orders agree, and no version is newer than the counter or than the commit in progress. -/
structure Dated (system : System) : Prop where
  /-- All orders hold the versions of the store. -/
  orders : system.store.db.OrdersHold system.store.index
  /-- Every version was recorded by the counter. -/
  recorded : ∀ key bytes, system.store.index key = some bytes →
    key.tt ≤ system.store.committed
  /-- The counter shows the commit timestamp of the commit in progress, later than any version. -/
  lock : ∀ commit, system.committing = some commit → system.store.committed = commit.commitTs ∧
    ∀ key bytes, system.store.index key = some bytes → key.tt < commit.commitTs

/-- The commit timestamp is later than the counter it was taken from. -/
theorem lt_beginCommit {store : TripleStore} (room : store.committed ≠ Timestamp.END_OF_TIME)
    (wall : Timestamp) : store.committed < (store.beginCommit wall).2 :=
  lt_of_lt_of_le (Timestamp.lt_wrap_succ room) (le_max_left _ _)

/-- The index after a flush holds the staged versions as well. -/
theorem index_flush (dated : system.Dated) (tx : Transaction) (commitTs : Timestamp) :
    (system.store.flush ext tx commitTs).1.index =
      system.store.index.putAll (system.store.stagedQuads ext tx commitTs) :=
  funext fun key => (TripleStore.flush_holds (dated.orders .spog) tx commitTs).get key

/-- Every step keeps versions dated, as long as the counter is not exhausted. -/
theorem Dated.next (dated : system.Dated) {action : Action} (counts : system.Counts action)
    (taken : system.next ext action = some after) : after.Dated := by
  cases next_kind taken with
  | buffer quiet =>
    refine ⟨?_, ?_, ?_⟩
    · rw [quiet.store]
      exact dated.orders
    · rw [quiet.store]
      exact dated.recorded
    · rw [quiet.store, quiet.committing]
      exact dated.lock
  | publish free held =>
    have later := lt_beginCommit counts
    refine ⟨dated.orders, fun key bytes stored => ?_, ?_⟩
    · exact le_of_lt (lt_of_le_of_lt (dated.recorded key bytes stored) (later _))
    · rintro commit ⟨⟩
      exact ⟨rfl, fun key bytes stored => lt_of_le_of_lt (dated.recorded key bytes stored) (later _)⟩
  | abort held fresh conflicts => exact ⟨dated.orders, dated.recorded, by rintro commit ⟨⟩⟩
  | @pass commit held fresh free =>
    have lock := dated.lock commit held
    refine ⟨dated.orders, dated.recorded, ?_⟩
    rintro same ⟨⟩
    exact lock
  | @flush commit held checked =>
    have holds : (system.store.flush ext commit.tx commit.commitTs).1.db.OrdersHold _ :=
      fun order => TripleStore.flush_holds (dated.orders order) commit.tx commit.commitTs
    refine ⟨holds.self, fun key bytes stored => ?_, by rintro commit ⟨⟩⟩
    change (system.store.flush ext commit.tx commit.commitTs).1.index key = some bytes at stored
    rw [index_flush dated] at stored
    change key.tt ≤ (system.store.flush ext commit.tx commit.commitTs).1.committed
    rw [TripleStore.committed_flush]
    rcases Index.putAll_eq_some stored with old | new
    · exact dated.recorded key bytes old
    · have stamp := TripleStore.stagedQuads_tt new
      exact le_of_eq (stamp.trans (dated.lock commit held).1.symm)

/-- A new store has no versions, so they are all dated. -/
theorem dated_start (inlineMax : Nat) (vocabulary : Vocabulary) (canonical : Bool) :
    (start (.configured inlineMax vocabulary canonical)).Dated := by
  have holds := TripleStore.configured_orders inlineMax vocabulary canonical
  refine ⟨holds.self, fun key bytes stored => ?_, by rintro commit ⟨⟩⟩
  change (TripleStore.configured inlineMax vocabulary canonical).db.index key = some bytes at stored
  rw [holds.index_eq] at stored
  cases stored

end System

end Polargraph
