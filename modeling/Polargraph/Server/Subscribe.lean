import Polargraph.Storage.System

/-! A subscription that reads the change log while transactions commit and the log is pruned. -/

namespace Polargraph

/-- Most entries that a polling round reads. -/
def SUBSCRIBE_BATCH : Nat := 256

/-- A stream of logged commits. -/
structure Subscription where
  /-- The commit time the subscriber resumes after, zero to start now. -/
  resumeAfterTs : Timestamp
  /-- The commit time the stream started after. -/
  start : Timestamp
  /-- How many commits had returned when the stream started. -/
  began : Nat
  /-- The commit time of the last record read. -/
  cursor : Timestamp
  /-- The records delivered. -/
  delivered : List ChangeRecord
  /-- How many commits had returned at the last round that read to the end of the log. -/
  caughtUp : Nat

/-- Transactions over one store, and a stream of its log. -/
structure Subscribed where
  /-- The store and its transactions. -/
  system : System
  /-- The stream, unless there is none or it ended. -/
  stream : Option Subscription

/-- A step of a transaction, of the log's maintenance or of the stream. -/
inductive SubscribeStep where
  /-- A step of one of the transactions. -/
  | act (action : Action)
  /-- The change log is pruned. -/
  | pruneChanges (before : Timestamp)
  /-- A client subscribes. -/
  | subscribe (resumeAfterTs : Timestamp)
  /-- The stream reads the next records and sends them. -/
  | poll
  /-- The client closes the stream. -/
  | close

namespace Subscription

/-- Whether a commit is one that the stream has to deliver. -/
def Due (stream : Subscription) (i : Nat) (outcome : Outcome) : Prop :=
  outcome.logged = true ∧ stream.resumeAfterTs < outcome.commitTs ∧
    (stream.resumeAfterTs = Timestamp.zero → stream.began ≤ i)

/-- Take in the records of a polling round. -/
def receive (stream : Subscription) (records : List ChangeRecord) (returned : Nat) :
    Subscription :=
  { stream with
    cursor := (records.getLast?.map ChangeRecord.commitTs).getD stream.cursor
    delivered := stream.delivered ++ records
    caughtUp := if records.length < SUBSCRIBE_BATCH then returned else stream.caughtUp }

end Subscription

namespace Subscribed

/-- A store that no transaction and no stream uses yet. -/
def opened (store : TripleStore) : Subscribed := ⟨.start store, none⟩

/-- Open a stream. -/
def subscribe (state : Subscribed) (resumeAfterTs : Timestamp) : Subscribed :=
  let returned := state.system.outcomes.length
  if resumeAfterTs = Timestamp.zero then
    let now := state.system.store.readTs
    { state with stream := some ⟨resumeAfterTs, now, returned, now, [], 0⟩ }
  else if resumeAfterTs < state.system.store.changesFloor then
    -- The client is told that the token is older than the retained log.
    state
  else
    { state with stream := some ⟨resumeAfterTs, resumeAfterTs, returned, resumeAfterTs, [], 0⟩ }

/-- The state after a step, unless the step is not enabled. -/
def next (ext : External) (state : Subscribed) : SubscribeStep → Option Subscribed
  | .act action => (state.system.next ext action).map (fun system => { state with system := system })
  | .pruneChanges before => some { state with
      system := { state.system with store := (state.system.store.pruneChanges before).1 } }
  | .subscribe resumeAfterTs =>
    match state.stream with
    | none => some (state.subscribe resumeAfterTs)
    | some _ => none
  | .poll => do
    let stream ← state.stream
    match state.system.store.changesAfter ext stream.cursor SUBSCRIBE_BATCH with
    | .error _ => some { state with stream := none }
    | .ok records => some { state with
        stream := some (stream.receive records state.system.outcomes.length) }
  | .close => some { state with stream := none }

/-- Take some steps one after another, unless one is not enabled. -/
def after (ext : External) (state : Subscribed) (steps : List SubscribeStep) : Option Subscribed :=
  Runs.stepAll (next ext) (fun _ _ => True) state steps

/-- A stream delivers the commits it has to, each once and in commit order. -/
structure MissesNothing (ext : External) (state : Subscribed) (stream : Subscription) : Prop where
  /-- Records are delivered in commit order. -/
  inOrder : stream.delivered.Pairwise (fun left right => left.commitTs < right.commitTs)
  /-- Every record is that of a logged commit after the resume point. -/
  records : ∀ record ∈ stream.delivered, ∃ outcome ∈ state.system.outcomes,
    outcome.logged = true ∧ stream.resumeAfterTs < outcome.commitTs ∧
      ∃ store : TripleStore, store.decodeChange ext outcome.commitTs outcome.entry = .ok record
  /-- No commit that the stream has passed is missing. -/
  passed : ∀ i outcome, state.system.outcomes[i]? = some outcome → stream.Due i outcome →
    outcome.commitTs ≤ stream.cursor → ∃ record ∈ stream.delivered,
      record.commitTs = outcome.commitTs
  /-- No commit that had returned when the stream last read to the end is missing. -/
  complete : ∀ i outcome, state.system.outcomes[i]? = some outcome → stream.Due i outcome →
    i < stream.caughtUp → ∃ record ∈ stream.delivered, record.commitTs = outcome.commitTs

/--
A step makes the stream skip nothing.

The counter stays below its largest value, no entry that the stream has yet to read is pruned, and
no commit is logged at the counter value that a stream without a resume point started after.
-/
def Skipless (ext : External) (state : Subscribed) : SubscribeStep → Prop
  | .act (.publish _ wall) => (state.system.store.beginCommit wall).2 ≠ Timestamp.END_OF_TIME
  | .act .flush => ∀ commit, state.system.committing = some commit →
    ∀ stream, state.stream = some stream → stream.resumeAfterTs = Timestamp.zero →
      state.system.store.logs ext commit.tx commit.commitTs = true →
      commit.commitTs ≠ stream.start
  | .pruneChanges before => ∀ stream, state.stream = some stream →
    ∀ entry ∈ (state.system.store.db.family .chg).entries,
      stream.cursor < Timestamp.fromBeBytes (entry.1.take 8) →
        before ≤ Timestamp.fromBeBytes (entry.1.take 8)
  | _ => True

/-- Whether a step makes the stream skip something can be tested. -/
instance (ext : External) (state : Subscribed) (step : SubscribeStep) :
    Decidable (state.Skipless ext step) :=
  match step with
  | .act (.publish _ _) => inferInstanceAs (Decidable (_ ≠ _))
  | .act .flush => inferInstanceAs (Decidable (∀ commit ∈ state.system.committing,
      ∀ stream ∈ state.stream, stream.resumeAfterTs = Timestamp.zero →
        state.system.store.logs ext commit.tx commit.commitTs = true →
        commit.commitTs ≠ stream.start))
  | .pruneChanges before => inferInstanceAs (Decidable (∀ stream ∈ state.stream,
      ∀ entry ∈ (state.system.store.db.family .chg).entries,
        stream.cursor < Timestamp.fromBeBytes (entry.1.take 8) →
          before ≤ Timestamp.fromBeBytes (entry.1.take 8)))
  | .act .begin | .act (.beginAt _) | .act .oracleTs | .act (.insertIn ..) | .act (.bindIri ..)
  | .act (.setAuthor ..) | .act (.recordGraphOp ..) | .act (.rollback _) | .act .check
  | .subscribe _ | .poll | .close => isTrue trivial

end Subscribed

end Polargraph
