import Polargraph.Lib.Machine
import Polargraph.Storage.Mvcc

/-! Concurrent transactions over one store, with the steps of a commit taken apart. -/

namespace Polargraph

/-- A commit that holds the commit lock. -/
structure InFlight where
  /-- The handle of the transaction. -/
  handle : Nat
  /-- The transaction. -/
  tx : Transaction
  /-- Its commit timestamp, which the counter already shows. -/
  commitTs : Timestamp
  /-- Whether the conflict check has passed. -/
  checked : Bool

/-- What a commit that took the lock returned. -/
structure Outcome where
  /-- The handle of the transaction. -/
  handle : Nat
  /-- The transaction. -/
  tx : Transaction
  /-- Its commit timestamp. -/
  commitTs : Timestamp
  /-- The result the caller received. -/
  result : Except StorageError Timestamp
  /-- The quad versions it wrote. -/
  written : List StagedQuad

/-- Whether a commit was flushed and wrote a log entry. -/
def Outcome.logged (outcome : Outcome) : Bool :=
  outcome.result.isOk && !(outcome.tx.graphOps.isEmpty && outcome.written.isEmpty)

/-- The bytes of the log entry of a commit. -/
def Outcome.entry (outcome : Outcome) : Bytes :=
  encodeChange outcome.tx.author outcome.tx.graphOps outcome.written

/-- A store shared by any number of transactions. -/
structure System where
  /-- The store. -/
  store : TripleStore
  /-- The transactions begun and neither committed nor dropped, by handle. -/
  transactions : Nat → Option Transaction
  /-- The handle of the next transaction. -/
  nextHandle : Nat
  /-- The commit holding the commit lock. -/
  committing : Option InFlight
  /-- The commits that released the lock, oldest first. -/
  outcomes : List Outcome

/-- An atomic step of one of the threads. -/
inductive Action where
  /-- Begin a transaction. -/
  | begin
  /-- Begin a transaction that reads as of an earlier commit time. -/
  | beginAt (readTs : Timestamp)
  /-- Load the counter for a snapshot. -/
  | oracleTs
  /-- Buffer a triple. -/
  | insertIn (handle : Nat) (triple : Triple) (graph : GraphId) (mode : WriteMode)
  /-- Record an IRI. -/
  | bindIri (handle : Nat) (iri : String)
  /-- Record the author. -/
  | setAuthor (handle : Nat) (author : String)
  /-- Record a graph-level operation. -/
  | recordGraphOp (handle : Nat) (op : GraphOp)
  /-- Drop a transaction. -/
  | rollback (handle : Nat)
  /-- Take the commit lock and store the new counter; `wall` is the clock. -/
  | publish (handle : Nat) (wall : Timestamp)
  /-- Run the conflict check of the commit holding the lock. -/
  | check
  /-- Write the batch of the commit holding the lock and release it. -/
  | flush

namespace System

/-- A store that no transaction uses yet. -/
def start (store : TripleStore) : System := ⟨store, fun _ => none, 0, none, []⟩

/-- Hand out a transaction under a new handle. -/
def opened (system : System) (tx : Transaction) : System :=
  { system with
    transactions := Function.update system.transactions system.nextHandle (some tx)
    nextHandle := system.nextHandle + 1 }

/-- Change the buffer of an open transaction. -/
def edit (system : System) (handle : Nat) (change : Transaction → Transaction) : System :=
  { system with
    transactions := Function.update system.transactions handle
      ((system.transactions handle).map change) }

/-- Consume the handle of a transaction. -/
def closed (system : System) (handle : Nat) : System :=
  { system with transactions := Function.update system.transactions handle none }

/-- Release the commit lock and return a result. -/
def finish (system : System) (commit : InFlight) (store : TripleStore)
    (result : Except StorageError Timestamp) (written : List StagedQuad) : System :=
  { system with
    store := store
    committing := none
    outcomes := system.outcomes ++ [⟨commit.handle, commit.tx, commit.commitTs, result, written⟩] }

section External

variable (ext : External)

/-- Take the commit lock for a transaction, unless it has nothing to commit. -/
def publish (system : System) (handle : Nat) (tx : Transaction) (wall : Timestamp) :
    Option System :=
  if tx.isEmpty then some (system.closed handle)
  else
    match system.committing with
    | some _ => none
    | none =>
      let (store, commitTs) := system.store.beginCommit wall
      some { system.closed handle with
        store := store
        committing := some ⟨handle, tx, commitTs, false⟩ }

/-- The state after a step, unless the step is not enabled. -/
def next (system : System) : Action → Option System
  | .begin => some (system.opened system.store.begin)
  | .beginAt readTs =>
    match system.store.beginAt readTs with
    | .ok tx => some (system.opened tx)
    | .error _ => some system
  | .oracleTs => some system
  | .insertIn handle triple graph mode =>
    some (system.edit handle (fun tx => tx.insertIn triple graph mode))
  | .bindIri handle iri => some (system.edit handle (fun tx => tx.bindIri iri))
  | .setAuthor handle author => some (system.edit handle (fun tx => tx.setAuthor author))
  | .recordGraphOp handle op => some (system.edit handle (fun tx => tx.recordGraphOp op))
  | .rollback handle => some (system.closed handle)
  | .publish handle wall => do
    let tx ← system.transactions handle
    system.publish handle tx wall
  | .check => do
    let commit ← system.committing
    if commit.checked then none
    else
      match system.store.firstConflict ext commit.tx commit.commitTs with
      | some conflict =>
        some (system.finish commit system.store (.error (.writeConflict conflict)) [])
      | none => some { system with committing := some { commit with checked := true } }
  | .flush => do
    let commit ← system.committing
    if commit.checked then
      let (store, result) := system.store.flush ext commit.tx commit.commitTs
      some (system.finish commit store result
        (system.store.stagedQuads ext commit.tx commit.commitTs))
    else none

/-- The read timestamp a step hands out. -/
def handed (system : System) : Action → Option Timestamp
  | .begin => some system.store.begin.readTs
  | .beginAt readTs =>
    match system.store.beginAt readTs with
    | .ok tx => some tx.readTs
    | .error _ => none
  | .oracleTs => some system.store.readTs
  | _ => none

/-- The quad versions the commit holding the lock is going to write. -/
def pending (system : System) : List StagedQuad :=
  match system.committing with
  | none => []
  | some commit =>
    if commit.checked = false ∧
        (system.store.firstConflict ext commit.tx commit.commitTs).isSome then []
    else system.store.stagedQuads ext commit.tx commit.commitTs

end External

/-- The counter is not exhausted when a commit advances it. -/
def Counts (system : System) : Action → Prop
  | .publish _ _ => system.store.committed ≠ Timestamp.END_OF_TIME
  | _ => True

/-- Whether the counter is exhausted can be tested. -/
instance (system : System) (action : Action) : Decidable (system.Counts action) :=
  match action with
  | .publish _ _ => inferInstanceAs (Decidable (_ ≠ _))
  | .begin | .beginAt _ | .oracleTs | .insertIn .. | .bindIri .. | .setAuthor ..
  | .recordGraphOp .. | .rollback _ | .check | .flush => isTrue trivial

/-- Take some steps one after another, unless one is not enabled or exhausts the counter. -/
def after (ext : External) (system : System) (actions : List Action) : Option System :=
  Runs.stepAll (next ext) Counts system actions

end System

end Polargraph
