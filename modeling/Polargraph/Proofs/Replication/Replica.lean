import Polargraph.Lib.Assign
import Polargraph.Proofs.Replication.WalStream
import Polargraph.Replication.Replica

/-! A replica that stops at no counter increment stores a first part of the primary's batches. -/

namespace Polargraph

namespace ReplicatedOp

/-- What an operation makes of the value under a key. -/
def cell (op : ReplicatedOp) (cf : Cf) (key : Bytes) (held : Option Bytes) : Option Bytes :=
  match op with
  | write op => op.cell cf key held
  | merge _ _ => held

/-- What an operation makes of a counter. -/
def count (op : ReplicatedOp) (key : Bytes) (held : Option Bytes) : Option Bytes :=
  match op with
  | write _ => held
  | merge name operand => if key = name then some (addI64 held operand) else held

end ReplicatedOp

namespace Contents

variable {left right contents : Contents}

/-- A key reads as the operations of a batch leave it one after another. -/
theorem get_write (contents : Contents) (ops : List ReplicatedOp) (cf : Cf) (key : Bytes) :
    (contents.write ops).db.get cf key =
      ops.foldl (fun held op => op.cell cf key held) (contents.db.get cf key) := by
  induction ops generalizing contents with
  | nil => rfl
  | cons op rest ih =>
    refine (ih (contents.apply op)).trans ?_
    rw [List.foldl_cons]
    cases op with
    | write op => rw [show (contents.apply (.write op)).db = contents.db.apply op from rfl,
        Db.get_apply]; rfl
    | merge name operand => rfl

/-- A counter reads as the operations of a batch leave it one after another. -/
theorem find?_write (contents : Contents) (ops : List ReplicatedOp) (key : Bytes) :
    (contents.write ops).sts.find? key =
      ops.foldl (fun held op => op.count key held) (contents.sts.find? key) := by
  induction ops generalizing contents with
  | nil => rfl
  | cons op rest ih =>
    refine (ih (contents.apply op)).trans ?_
    rw [List.foldl_cons]
    cases op with
    | write op => rfl
    | merge name operand =>
      by_cases same : key = name
      · subst same
        simp [apply, ReplicatedOp.count]
      · simp [apply, ReplicatedOp.count, same, SortedMap.find?_insert_ne]

/-- Contents that agree still do after the same batch. -/
theorem Agrees.write (agrees : left.Agrees right) (ops : List ReplicatedOp) :
    (left.write ops).Agrees (right.write ops) where
  keys cf key other := by rw [get_write, get_write, agrees.keys cf key other]
  counters key := by rw [find?_write, find?_write, agrees.counters key]

/-- Agreement carries over. -/
theorem Agrees.trans {last : Contents} (first : left.Agrees right) (second : right.Agrees last) :
    left.Agrees last where
  keys cf key other := (first.keys cf key other).trans (second.keys cf key other)
  counters key := (first.counters key).trans (second.counters key)

/-- A batch without increments may be written twice. -/
theorem write_twice {ops : List ReplicatedOp}
    (plain : ∀ key operand, ReplicatedOp.merge key operand ∉ ops) (contents : Contents) :
    ((contents.write ops).write ops).Agrees (contents.write ops) where
  keys cf key _ := by
    rw [get_write, get_write]
    refine Overwrites.idem (Overwrites.foldl fun op member => ?_) _
    cases op with
    | merge name operand => exact absurd member (plain name operand)
    | write op =>
      cases op with
      | put own name value =>
        by_cases hit : cf = own ∧ key = name
        · exact Or.inr ⟨some value, fun held => if_pos hit⟩
        · exact Or.inl fun held => if_neg hit
      | delete own name =>
        by_cases hit : cf = own ∧ key = name
        · exact Or.inr ⟨none, fun held => if_pos hit⟩
        · exact Or.inl fun held => if_neg hit
      | deleteRange own low high =>
        by_cases hit : cf = own ∧ low ≤ key ∧ key < high
        · exact Or.inr ⟨none, fun held => if_pos hit⟩
        · exact Or.inl fun held => if_neg hit
  counters key := by
    rw [find?_write, find?_write]
    refine Overwrites.idem (Overwrites.foldl fun op member => ?_) _
    cases op with
    | merge name operand => exact absurd member (plain name operand)
    | write op => exact Or.inl fun _ => rfl

/-- A recorded sequence number reads back. -/
theorem lastAppliedSeq_putSeq (contents : Contents) {seq : Nat} (small : seq < 2 ^ 64) :
    (contents.putSeq seq).lastAppliedSeq = seq := by
  have fits : seq < 256 ^ 8 := small
  have read : (contents.putSeq seq).db.get .metadata META_LAST_REPL_SEQ = some (beBytes 8 seq) := by
    rw [putSeq, show (contents.apply (.write (.put .metadata META_LAST_REPL_SEQ (beBytes 8 seq)))).db =
      contents.db.apply (.put .metadata META_LAST_REPL_SEQ (beBytes 8 seq)) from rfl,
      Db.get_apply_put, if_pos ⟨rfl, rfl⟩]
  simp only [lastAppliedSeq, read, beBytes_length, if_true, beNat_beBytes_of_lt fits]

/-- Recording a sequence number changes the replica's own key only. -/
theorem agrees_putSeq (contents : Contents) (seq : Nat) : (contents.putSeq seq).Agrees contents where
  keys cf key other := by
    rw [putSeq, show (contents.apply (.write (.put .metadata META_LAST_REPL_SEQ (beBytes 8 seq)))).db =
      contents.db.apply (.put .metadata META_LAST_REPL_SEQ (beBytes 8 seq)) from rfl,
      Db.get_apply_put, if_neg other]
  counters _ := rfl

/-- A primary's batch leaves the recorded sequence number alone. -/
theorem lastAppliedSeq_write (contents : Contents) {ops : List ReplicatedOp}
    (foreign : ∀ op, .write op ∈ ops → ∀ held, op.cell .metadata META_LAST_REPL_SEQ held = held) :
    (contents.write ops).lastAppliedSeq = contents.lastAppliedSeq := by
  have same : ∀ held, ops.foldl
      (fun held op => op.cell .metadata META_LAST_REPL_SEQ held) held = held := by
    induction ops with
    | nil => exact fun _ => rfl
    | cons op rest ih =>
      intro held
      have later := ih fun other member => foreign other (List.mem_cons_of_mem _ member)
      rw [List.foldl_cons, later]
      cases op with
      | write op => exact foreign op List.mem_cons_self held
      | merge name operand => rfl
  simp only [lastAppliedSeq, get_write, same]

end Contents

namespace Replication

variable {state after : Replication}

/-- The replica has recorded some first batches, and may have written one more. -/
structure Holds (state : Replication) (recorded : Nat) : Prop where
  /-- It has recorded no more batches than there are. -/
  within : recorded ≤ state.log.length
  /-- It resumes with the next one. -/
  resumes : getUpdatesSince state.replica.lastAppliedSeq state.log = state.log.drop recorded
  /-- It has recorded only what it has written. -/
  recordedFirst : state.replica.lastAppliedSeq ≤ state.written
  /-- It has written no batch that is still to come. -/
  reached : state.written < state.nextSeq
  /-- It stores the recorded batches, or one more. -/
  stores : (state.writing = none ∧ state.written = state.replica.lastAppliedSeq ∧
      state.replica.Agrees (Contents.replay (state.log.take recorded))) ∨
    ∃ entry, state.log[recorded]? = some entry ∧ state.written = entry.sequenceNumber ∧
      state.replica.Agrees (Contents.replay (state.log.take (recorded + 1))) ∧
      (state.writing = some entry.sequenceNumber ∨ state.writing = none ∧
        ∀ key operand, .merge key operand ∉ entry.writeBatch.ops)
  /-- The stream continues behind what was written. -/
  stream : ∀ stream, state.stream = some stream → stream.sinceSeq < state.nextSeq ∧ ∃ first,
    getUpdatesSince stream.sinceSeq state.log = state.log.drop first ∧ first ≤ state.log.length ∧
    first + stream.received = if state.writing.isSome then recorded + 1 else recorded
  /-- Nothing is written without a stream. -/
  idle : state.stream = none → state.writing = none

/-- The log is numbered in order, and the replica holds a first part of it. -/
structure Sound (state : Replication) : Prop where
  /-- The next batch starts after the others. -/
  below : ∀ entry ∈ state.log, entry.sequenceNumber < state.nextSeq
  /-- Batches are numbered in order. -/
  increasing : state.log.Pairwise (fun left right => left.sequenceNumber < right.sequenceNumber)
  /-- Sequence numbers stay within their range. -/
  bounded : state.nextSeq ≤ MAX_SEQUENCE_NUMBER
  /-- The batches leave the replica's key alone. -/
  foreign : ∀ entry ∈ state.log, ∀ op, .write op ∈ entry.writeBatch.ops →
    ∀ held, op.cell .metadata META_LAST_REPL_SEQ held = held
  /-- The replica holds a first part. -/
  holds : ∃ recorded, state.Holds recorded

/-- Of a log numbered in order, the batches after one of them are the rest. -/
private theorem getUpdatesSince_eq_drop {log : List (WalEntry ReplicatedOp)}
    (increasing : log.Pairwise (fun left right => left.sequenceNumber < right.sequenceNumber))
    {i : Nat} {entry : WalEntry ReplicatedOp} (found : log[i]? = some entry) :
    getUpdatesSince entry.sequenceNumber log = log.drop (i + 1) := by
  obtain ⟨within, rfl⟩ := List.getElem?_eq_some_iff.mp found
  have whole := List.take_append_drop (i + 1) log
  have parts := increasing
  rw [← whole] at parts
  obtain ⟨_, _, across⟩ := List.pairwise_append.mp parts
  have last : log[i] ∈ log.take (i + 1) := by
    rw [List.take_add_one, List.getElem?_eq_getElem within]
    exact List.mem_append_right _ (List.mem_singleton.mpr rfl)
  have early : getUpdatesSince log[i].sequenceNumber (log.take (i + 1)) = [] := by
    refine List.filter_eq_nil_iff.mpr fun entry member => ?_
    rw [List.take_add_one, List.getElem?_eq_getElem within] at member
    rw [decide_eq_true_eq, not_lt]
    rcases List.mem_append.mp member with before | here
    · have ordered := increasing.sublist (List.take_sublist (i + 1) log)
      rw [List.take_add_one, List.getElem?_eq_getElem within] at ordered
      exact le_of_lt ((List.pairwise_append.mp ordered).2.2 entry before _ (by simp))
    · have same : entry = log[i] := by simpa using here
      rw [same]
  have late : getUpdatesSince log[i].sequenceNumber (log.drop (i + 1)) = log.drop (i + 1) :=
    List.filter_eq_self.mpr fun entry member => by
      simpa using across _ last entry member
  have split := getUpdatesSince_append log[i].sequenceNumber (log.take (i + 1)) (log.drop (i + 1))
  rwa [whole, early, late, List.nil_append] at split

/-- Reading on behind a new batch reads it as well. -/
private theorem getUpdatesSince_snoc {log : List (WalEntry ReplicatedOp)} {seq first : Nat}
    {entry : WalEntry ReplicatedOp} (reads : getUpdatesSince seq log = log.drop first)
    (within : first ≤ log.length) (later : seq < entry.sequenceNumber) :
    getUpdatesSince seq (log ++ [entry]) = (log ++ [entry]).drop first := by
  rw [getUpdatesSince_append, reads, List.drop_append_of_le_length within]
  simp [getUpdatesSince, later]

/-- One more batch is replayed after the others. -/
private theorem replay_take_succ {log : List (WalEntry ReplicatedOp)} {i : Nat}
    {entry : WalEntry ReplicatedOp} (found : log[i]? = some entry) :
    Contents.replay (log.take (i + 1)) =
      (Contents.replay (log.take i)).write entry.writeBatch.ops := by
  rw [List.take_add_one, found]
  simp [Contents.replay, List.foldl_append]

/-- A commit of the primary leaves the replica a first part of the log. -/
private theorem Holds.commit {recorded : Nat} (holds : state.Holds recorded)
    (batch : WriteAhead ReplicatedOp) : Holds { state with
      log := state.log ++ [⟨state.nextSeq, batch⟩]
      nextSeq := state.nextSeq + batch.ops.length } recorded := by
  obtain ⟨within, resumes, recordedFirst, reached, stores, stream, idle⟩ := holds
  refine ⟨?_, getUpdatesSince_snoc resumes within (lt_of_le_of_lt recordedFirst reached),
    recordedFirst, lt_of_lt_of_le reached (Nat.le_add_right _ _), ?_, fun current opened => ?_, idle⟩
  · rw [List.length_append]
    exact Nat.le_add_right_of_le within
  · rcases stores with ⟨calm, same, agrees⟩ | ⟨entry, found, same, agrees, kind⟩
    · exact Or.inl ⟨calm, same, by rw [List.take_append_of_le_length within]; exact agrees⟩
    · have inside := (List.getElem?_eq_some_iff.mp found).1
      refine Or.inr ⟨entry, ?_, same, ?_, kind⟩
      · rw [List.getElem?_append_left inside]
        exact found
      · rw [List.take_append_of_le_length inside]
        exact agrees
  · obtain ⟨early, first, reads, bounded, position⟩ := stream current opened
    refine ⟨lt_of_lt_of_le early (Nat.le_add_right _ _), first,
      getUpdatesSince_snoc reads bounded early, ?_, position⟩
    rw [List.length_append]
    exact Nat.le_add_right_of_le bounded

/-- Writing the next batch leaves the replica one batch more than it has recorded. -/
private theorem Holds.applyBatch {recorded : Nat} (holds : state.Holds recorded)
    (below : ∀ entry ∈ state.log, entry.sequenceNumber < state.nextSeq)
    (foreign : ∀ entry ∈ state.log, ∀ op, .write op ∈ entry.writeBatch.ops →
      ∀ held, op.cell .metadata META_LAST_REPL_SEQ held = held)
    {stream : Connection} (opened : state.stream = some stream) {entry : WalEntry ReplicatedOp}
    (read : (getUpdatesSince stream.sinceSeq state.log)[stream.received]? = some entry)
    (calm : state.writing = none) : Holds { state with
      replica := state.replica.write entry.writeBatch.ops
      stream := some { stream with received := stream.received + 1 }
      writing := some entry.sequenceNumber
      written := entry.sequenceNumber } recorded := by
  obtain ⟨early, first, reads, bounded, position⟩ := holds.stream stream opened
  rw [calm, Option.isSome_none, if_neg Bool.false_ne_true] at position
  have found : state.log[recorded]? = some entry := by
    rw [reads, List.getElem?_drop, position] at read
    exact read
  have kept := Contents.lastAppliedSeq_write state.replica
    (foreign entry (List.mem_of_getElem? found))
  have stored : (state.replica.write entry.writeBatch.ops).Agrees
      (Contents.replay (state.log.take (recorded + 1))) := by
    rw [replay_take_succ found]
    rcases holds.stores with ⟨_, _, agrees⟩ | ⟨other, same, _, agrees, busy | ⟨_, plain⟩⟩
    · exact agrees.write _
    · rw [calm] at busy
      cases busy
    · -- The batch was written before the replica stopped, so this writes it again.
      obtain rfl : entry = other := Option.some.inj (found.symm.trans same)
      rw [replay_take_succ found] at agrees
      exact (agrees.write _).trans (Contents.write_twice plain _)
  have later : state.replica.lastAppliedSeq < entry.sequenceNumber := by
    have member : entry ∈ getUpdatesSince state.replica.lastAppliedSeq state.log := by
      rw [holds.resumes]
      exact List.mem_of_getElem? (i := 0) (by rw [List.getElem?_drop, Nat.add_zero, found])
    simpa using (List.mem_filter.mp member).2
  refine ⟨holds.within, ?_, ?_, below entry (List.mem_of_getElem? found),
    Or.inr ⟨entry, found, rfl, stored, Or.inl rfl⟩, fun current same => ?_,
    fun closed => by cases closed⟩
  · exact (congrArg (getUpdatesSince · state.log) kept).trans holds.resumes
  · exact le_of_eq_of_le kept (le_of_lt later)
  · cases same
    exact ⟨early, first, reads, bounded, by simp only [Option.isSome_some, if_true]; omega⟩

/-- Recording the number of a written batch makes it one of the recorded batches. -/
private theorem Holds.recordSeq {recorded : Nat} (holds : state.Holds recorded)
    (below : ∀ entry ∈ state.log, entry.sequenceNumber < state.nextSeq)
    (increasing : state.log.Pairwise (fun left right => left.sequenceNumber < right.sequenceNumber))
    (bounded : state.nextSeq ≤ MAX_SEQUENCE_NUMBER) {seq : Nat} (busy : state.writing = some seq) :
    Holds { state with replica := state.replica.putSeq seq, writing := none } (recorded + 1) := by
  rcases holds.stores with ⟨calm, _⟩ | ⟨entry, found, mark, agrees, same | ⟨calm, _⟩⟩
  · rw [busy] at calm
    cases calm
  · obtain rfl : seq = entry.sequenceNumber := Option.some.inj (busy.symm.trans same)
    have early := below entry (List.mem_of_getElem? found)
    have small : entry.sequenceNumber < 2 ^ 64 :=
      lt_of_lt_of_le (lt_of_lt_of_le early bounded) (by decide)
    have read := Contents.lastAppliedSeq_putSeq state.replica small
    refine ⟨(List.getElem?_eq_some_iff.mp found).1, ?_, le_of_eq (read.trans mark.symm),
      holds.reached, Or.inl ⟨rfl, mark.trans read.symm, (Contents.agrees_putSeq _ _).trans agrees⟩, fun current opened => ?_,
      fun _ => rfl⟩
    · exact (congrArg (getUpdatesSince · state.log) read).trans
        (getUpdatesSince_eq_drop increasing found)
    · obtain ⟨since, first, reads, within, position⟩ := holds.stream current opened
      rw [busy, Option.isSome_some, if_pos rfl] at position
      exact ⟨since, first, reads, within, position⟩
  · rw [busy] at calm
    cases calm

/-- A replica that stops keeps what it has recorded, and perhaps a batch without increments. -/
private theorem Holds.stop {recorded : Nat} (holds : state.Holds recorded)
    (safe : state.Untorn .stop) : Holds { state with stream := none, writing := none } recorded := by
  refine ⟨holds.within, holds.resumes, holds.recordedFirst, holds.reached, ?_,
    fun _ opened => (by cases opened), fun _ => rfl⟩
  rcases holds.stores with ⟨_, same, agrees⟩ | ⟨entry, found, same, agrees, busy | ⟨_, plain⟩⟩
  · exact Or.inl ⟨rfl, same, agrees⟩
  · exact Or.inr ⟨entry, found, same, agrees, Or.inr ⟨rfl,
      safe entry.sequenceNumber busy entry (List.mem_of_getElem? found) rfl⟩⟩
  · exact Or.inr ⟨entry, found, same, agrees, Or.inr ⟨rfl, plain⟩⟩

/-- A step that tears no increment keeps the replica a first part of the primary. -/
theorem Sound.next (sound : state.Sound) {step : ReplicaStep} (safe : state.Untorn step)
    (taken : state.next step = some after) : after.Sound := by
  obtain ⟨below, increasing, bounded, foreign, recorded, holds⟩ := sound
  cases step with
  | commit batch =>
    simp only [Replication.next] at taken
    split_ifs at taken with room
    cases taken
    have ops : 0 < batch.ops.length := List.length_pos_iff.mpr batch.nonempty
    refine ⟨fun entry member => ?_, ?_, room, fun entry member => ?_, recorded,
      holds.commit batch.toWriteAhead⟩
    · rcases List.mem_append.mp member with old | new
      · exact lt_of_lt_of_le (below entry old) (Nat.le_add_right _ _)
      · rw [List.mem_singleton.mp new]
        exact Nat.lt_add_of_pos_right ops
    · refine List.pairwise_append.mpr ⟨increasing, List.pairwise_singleton _ _,
        fun left member right new => ?_⟩
      rw [List.mem_singleton.mp new]
      exact below left member
    · rcases List.mem_append.mp member with old | new
      · exact foreign entry old
      · rw [List.mem_singleton.mp new]
        exact batch.foreign
  | connect =>
    obtain ⟨log, nextSeq, replica, stream, writing⟩ := state
    cases stream with
    | some stream => cases taken
    | none =>
      cases taken
      have calm : writing = none := holds.idle rfl
      subst calm
      exact ⟨below, increasing, bounded, foreign, recorded, holds.within, holds.resumes,
        holds.recordedFirst, holds.reached, holds.stores, fun stream opened => by
          cases opened
          exact ⟨lt_of_le_of_lt holds.recordedFirst holds.reached, recorded, holds.resumes, holds.within, rfl⟩,
        fun closed => by cases closed⟩
  | applyBatch =>
    simp only [Replication.next] at taken
    obtain ⟨stream, opened, taken⟩ := Option.bind_eq_some_iff.mp taken
    obtain ⟨entry, read, taken⟩ := Option.bind_eq_some_iff.mp taken
    cases busy : state.writing with
    | some seq => rw [busy] at taken; cases taken
    | none =>
      rw [busy] at taken
      cases taken
      exact ⟨below, increasing, bounded, foreign, recorded,
        holds.applyBatch below foreign opened read busy⟩
  | recordSeq =>
    simp only [Replication.next] at taken
    obtain ⟨seq, busy, taken⟩ := Option.bind_eq_some_iff.mp taken
    cases taken
    exact ⟨below, increasing, bounded, foreign, recorded + 1,
      holds.recordSeq below increasing bounded busy⟩
  | stop =>
    cases taken
    exact ⟨below, increasing, bounded, foreign, recorded, holds.stop safe⟩

/-- A log numbered in order is the batches up to a number and the batches after it. -/
private theorem filter_append_getUpdatesSince (seq : Nat) {log : List (WalEntry ReplicatedOp)}
    (increasing : log.Pairwise (fun left right => left.sequenceNumber < right.sequenceNumber)) :
    log.filter (fun entry => decide (entry.sequenceNumber ≤ seq)) ++ getUpdatesSince seq log =
      log := by
  induction log with
  | nil => rfl
  | cons entry rest ih =>
    obtain ⟨first, ordered⟩ := List.pairwise_cons.mp increasing
    by_cases early : entry.sequenceNumber ≤ seq
    · simpa [getUpdatesSince, early] using ih ordered
    · have later : ∀ other ∈ rest, seq < other.sequenceNumber :=
        fun other member => lt_trans (not_le.mp early) (first other member)
      have none : rest.filter (fun other => decide (other.sequenceNumber ≤ seq)) = [] :=
        List.filter_eq_nil_iff.mpr fun other member => by simpa using later other member
      have all : getUpdatesSince seq rest = rest :=
        List.filter_eq_self.mpr fun other member => by simpa using later other member
      have here : getUpdatesSince seq (entry :: rest) = entry :: getUpdatesSince seq rest :=
        List.filter_cons_of_pos (by simpa using early)
      rw [List.filter_cons_of_neg (by simpa using early), none, List.nil_append, here, all]

/-- A replica that holds some batches has written the first batches of the log. -/
private theorem Sound.isPrefix (sound : state.Sound) : state.IsPrefix := by
  obtain ⟨_, increasing, _, _, recorded, holds⟩ := sound
  have split := filter_append_getUpdatesSince state.written increasing
  have applied : ∀ n, getUpdatesSince state.written state.log = state.log.drop n →
      state.applied = state.log.take n := fun n rest => by
    rw [rest] at split
    exact List.append_cancel_right (split.trans (List.take_append_drop n state.log).symm)
  refine ⟨⟨_, split⟩, ?_, holds.recordedFirst⟩
  rcases holds.stores with ⟨_, same, agrees⟩ | ⟨entry, found, same, agrees, _⟩
  · rwa [applied recorded (by rw [same]; exact holds.resumes)]
  · rwa [applied (recorded + 1) (by rw [same]; exact getUpdatesSince_eq_drop increasing found)]

/-- A batch that writes one value. -/
def putOne : PrimaryBatch where
  ops := [.write (.put .metadata [] [])]
  nonempty := List.cons_ne_nil _ _
  foreign op member held := by
    cases ReplicatedOp.write.inj (List.mem_singleton.mp member)
    exact if_neg fun hit => absurd hit.2 (by decide +kernel)

/-- A batch that adds one to a counter. -/
def addOne : PrimaryBatch where
  ops := [.merge [] (encodeI64 1)]
  nonempty := List.cons_ne_nil _ _
  foreign op member := by cases List.mem_singleton.mp member

end Replication

end Polargraph
