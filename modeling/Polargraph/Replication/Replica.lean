import Polargraph.Replication.WalStream
import Polargraph.Storage.Store

/-! A replica that applies the primary's batches and may stop between its two writes. -/

namespace Polargraph

/-- Key of the last sequence number a replica has applied. -/
def META_LAST_REPL_SEQ : Bytes := utf8 "__replication__/last_seq"

/-- The signed number spelled by eight little-endian bytes, and zero for any other length. -/
def decodeI64 (bytes : Bytes) : Int :=
  if bytes.length = 8 then Int.bmod (leNat bytes) (2 ^ 64) else 0

/-- Eight little-endian bytes of a signed number. -/
def encodeI64 (number : Int) : Bytes := leBytes 8 (number % 2 ^ 64).toNat

/-- Addition that stops at the ends of the signed 64-bit range. -/
def saturatingAdd (left right : Int) : Int := max (-2 ^ 63) (min (left + right) (2 ^ 63 - 1))

/-- The merge operator of the counters: the existing value plus an operand. -/
def addI64 (existing : Option Bytes) (operand : Bytes) : Bytes :=
  encodeI64 (saturatingAdd ((existing.map decodeI64).getD 0) (decodeI64 operand))

/-- An operation of a replicated batch. -/
inductive ReplicatedOp where
  /-- A put or a delete. -/
  | write (op : WriteOp)
  /-- An increment of a counter. -/
  | merge (key operand : Bytes)

/-- The key-value contents of a primary or a replica. -/
structure Contents where
  /-- The column families without the counters. -/
  db : Db
  /-- The counters. -/
  sts : SortedMap Bytes Bytes

namespace Contents

/-- Nothing is stored. -/
def empty : Contents := ⟨Db.empty, SortedMap.empty⟩

/-- Carry out one operation. -/
def apply (contents : Contents) : ReplicatedOp → Contents
  | .write op => { contents with db := contents.db.apply op }
  | .merge key operand => { contents with
      sts := contents.sts.insert key (addI64 (contents.sts.find? key) operand) }

/-- Carry out a batch as one step. -/
def write (contents : Contents) (ops : List ReplicatedOp) : Contents := ops.foldl apply contents

/-- The sequence number a replica resumes from. -/
def lastAppliedSeq (contents : Contents) : Nat :=
  match contents.db.get .metadata META_LAST_REPL_SEQ with
  | some bytes => if bytes.length = 8 then beNat bytes else 0
  | none => 0

/-- Persist the sequence number a replica resumes from. -/
def putSeq (contents : Contents) (seq : Nat) : Contents :=
  contents.apply (.write (.put .metadata META_LAST_REPL_SEQ (beBytes 8 seq)))

/-- The same values are stored, apart from the replica's own key. -/
structure Agrees (left right : Contents) : Prop where
  /-- Every other key reads the same. -/
  keys : ∀ cf key, ¬ (cf = .metadata ∧ key = META_LAST_REPL_SEQ) →
    left.db.get cf key = right.db.get cf key
  /-- Every counter reads the same. -/
  counters : ∀ key, left.sts.find? key = right.sts.find? key

/-- The contents after some batches of a primary. -/
def replay (batches : List (WalEntry ReplicatedOp)) : Contents :=
  batches.foldl (fun contents entry => contents.write entry.writeBatch.ops) empty

end Contents

/-- A batch of a primary, which leaves the replica's own key alone. -/
structure PrimaryBatch extends WriteAhead ReplicatedOp where
  /-- No operation touches the key. -/
  foreign : ∀ op, .write op ∈ ops → ∀ held, op.cell .metadata META_LAST_REPL_SEQ held = held

/-- A stream of the primary's batches to a replica. -/
structure Connection where
  /-- The sequence number the replica asked to resume from. -/
  sinceSeq : Nat
  /-- How many batches it has received. -/
  received : Nat

/-- A primary's log and a replica. -/
structure Replication where
  /-- The log of the primary. -/
  log : List (WalEntry ReplicatedOp)
  /-- The sequence number its next batch starts at. -/
  nextSeq : Nat
  /-- The contents of the replica. -/
  replica : Contents
  /-- The stream, unless the replica is stopped. -/
  stream : Option Connection
  /-- The sequence number of a batch whose data is written and whose number is not. -/
  writing : Option Nat
  /-- The sequence number of the last batch whose data is written, and zero before there is one. -/
  written : Nat

/-- A step of the primary or of the replica. -/
inductive ReplicaStep where
  /-- The primary commits a batch. -/
  | commit (batch : PrimaryBatch)
  /-- The replica asks for the batches after the last one it has recorded. -/
  | connect
  /-- The replica writes the data of the next batch. -/
  | applyBatch
  /-- The replica records its sequence number. -/
  | recordSeq
  /-- The replica stops, or its connection ends. -/
  | stop

/-- Sequence numbers stay below this bound. -/
def MAX_SEQUENCE_NUMBER : Nat := 2 ^ 56

namespace Replication

/-- A primary and a replica that store nothing. -/
def start : Replication := ⟨[], 1, Contents.empty, none, none, 0⟩

/-- The state after a step, unless the step is not enabled. -/
def next (state : Replication) : ReplicaStep → Option Replication
  | .commit batch =>
    if state.nextSeq + batch.ops.length ≤ MAX_SEQUENCE_NUMBER then
      some { state with
        log := state.log ++ [⟨state.nextSeq, batch.toWriteAhead⟩]
        nextSeq := state.nextSeq + batch.ops.length }
    else none
  | .connect =>
    match state.stream with
    | none => some { state with stream := some ⟨state.replica.lastAppliedSeq, 0⟩ }
    | some _ => none
  | .applyBatch => do
    let stream ← state.stream
    let entry ← (getUpdatesSince stream.sinceSeq state.log)[stream.received]?
    match state.writing with
    | some _ => none
    | none => return { state with
        replica := state.replica.write entry.writeBatch.ops
        stream := some { stream with received := stream.received + 1 }
        writing := some entry.sequenceNumber
        written := entry.sequenceNumber }
  | .recordSeq => do
    let seq ← state.writing
    return { state with replica := state.replica.putSeq seq, writing := none }
  | .stop => some { state with stream := none, writing := none }

/-- Take some steps one after another, unless one is not enabled. -/
def after (state : Replication) (steps : List ReplicaStep) : Option Replication :=
  Runs.stepAll next (fun _ _ => True) state steps

/-- The batches the replica has written. -/
def applied (state : Replication) : List (WalEntry ReplicatedOp) :=
  state.log.filter (fun entry => decide (entry.sequenceNumber ≤ state.written))

/-- The replica stores what the primary did after the batches the replica has written. -/
structure IsPrefix (state : Replication) : Prop where
  /-- They are the first batches of the log. -/
  first : state.applied <+: state.log
  /-- The contents are those after them. -/
  contents : state.replica.Agrees (Contents.replay state.applied)
  /-- They include every batch the replica has recorded. -/
  recorded : state.replica.lastAppliedSeq ≤ state.written

/-- The replica does not stop between the two writes of a batch that increments a counter. -/
def Untorn (state : Replication) : ReplicaStep → Prop
  | .stop => ∀ seq, state.writing = some seq → ∀ entry ∈ state.log, entry.sequenceNumber = seq →
    ∀ key operand, .merge key operand ∉ entry.writeBatch.ops
  | _ => True

end Replication

end Polargraph
