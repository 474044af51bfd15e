import Polargraph.Lib.Machine

/-! Primary-side streaming of the write-ahead log, in polling rounds interleaved with commits. -/

namespace Polargraph

/-- A write batch, which has at least one operation. -/
structure WriteAhead (α : Type) where
  /-- The operations. -/
  ops : List α
  /-- There is one. -/
  nonempty : ops ≠ []

/-- A single entry of the log ready for shipping to a replica. -/
structure WalEntry (α : Type) where
  /-- The sequence number of the batch's first operation. -/
  sequenceNumber : Nat
  /-- The batch. -/
  writeBatch : WriteAhead α

/-- The batches that start after a sequence number, in order. -/
def getUpdatesSince {α : Type} (seq : Nat) (log : List (WalEntry α)) : List (WalEntry α) :=
  log.filter (fun entry => decide (seq < entry.sequenceNumber))

/-- A polling round. -/
structure Round where
  /-- The sequence number the iterator was opened with. -/
  since : Nat
  /-- How many batches the log had then. -/
  present : Nat
  /-- How many batches had been sent before the round. -/
  before : Nat
  /-- How many batches the iterator has yielded. -/
  yielded : Nat

/-- A primary's log and a streamer that tails it. -/
structure Streaming (α : Type) where
  /-- The log. -/
  log : List (WalEntry α)
  /-- The sequence number the next batch starts at. -/
  nextSeq : Nat
  /-- The sequence number streaming resumes from. -/
  currentSeq : Nat
  /-- The round going on, unless the streamer is between two rounds. -/
  round : Option Round
  /-- The entries sent. -/
  sent : List (WalEntry α)
  /-- How many batches the log had when the last completed round began. -/
  drained : Nat

/-- A step of the primary or of its streamer. -/
inductive StreamStep (α : Type) where
  /-- The primary commits a batch. -/
  | commit (batch : WriteAhead α)
  /-- A polling round opens an iterator. -/
  | poll
  /-- The next entry of the iterator is sent. -/
  | send
  /-- The iterator fails, which ends the round. -/
  | fail
  /-- The iterator has yielded at least what the log had when it was opened, and the round ends. -/
  | finish

namespace Streaming

variable {α : Type}

/-- A primary whose next batch starts at a sequence number, and a streamer that tails its log. -/
def run (nextSeq sinceSeq : Nat) : Streaming α := ⟨[], nextSeq, sinceSeq, none, [], 0⟩

/-- The state after a step, unless the step is not enabled. -/
def next (state : Streaming α) : StreamStep α → Option (Streaming α)
  | .commit batch => some { state with
      log := state.log ++ [⟨state.nextSeq, batch⟩]
      nextSeq := state.nextSeq + batch.ops.length }
  | .poll =>
    match state.round with
    | none => some { state with
        round := some ⟨state.currentSeq, state.log.length, state.sent.length, 0⟩ }
    | some _ => none
  | .send => do
    let round ← state.round
    let entry ← (getUpdatesSince round.since state.log)[round.yielded]?
    return { state with
      currentSeq := entry.sequenceNumber + 1
      round := some { round with yielded := round.yielded + 1 }
      sent := state.sent ++ [entry] }
  | .fail =>
    match state.round with
    | some _ => some { state with round := none }
    | none => none
  | .finish => do
    let round ← state.round
    -- Batches committed during the round may or may not be yielded.
    if (getUpdatesSince round.since (state.log.take round.present)).length ≤ round.yielded then
      return { state with round := none, drained := round.present }
    else none

/-- Take some steps one after another, unless one is not enabled. -/
def after (state : Streaming α) (steps : List (StreamStep α)) : Option (Streaming α) :=
  Runs.stepAll next (fun _ _ => True) state steps

/--
Every batch after the resume point is sent exactly once and in order.

The entries sent are the first of those batches, and include all that the log had when the last
completed round began.
-/
structure ExactlyOnce (sinceSeq : Nat) (state : Streaming α) : Prop where
  /-- What is sent is a first part of what is to be sent. -/
  first : state.sent <+: getUpdatesSince sinceSeq state.log
  /-- Nothing that a completed round should have sent is missing. -/
  complete : getUpdatesSince sinceSeq (state.log.take state.drained) <+: state.sent

/--
No batch starts at the sequence number that a round resumes from, once something has been sent.

That is where a batch of one operation, sent last, is followed by another batch.
-/
def NoneAtCursor (state : Streaming α) : StreamStep α → Prop
  | .poll => state.sent = [] ∨ ∀ entry ∈ state.log, entry.sequenceNumber ≠ state.currentSeq
  | .commit _ => ∀ round, state.round = some round → round.before = 0 ∨ state.nextSeq ≠ round.since
  | _ => True

end Streaming

end Polargraph
