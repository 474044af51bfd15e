import Mathlib.Data.List.Infix
import Polargraph.Replication.WalStream

/-! A streamer whose rounds never resume where a batch starts sends every batch exactly once. -/

namespace Polargraph

/-- Later batches are read after the earlier ones. -/
theorem getUpdatesSince_append {α : Type} (seq : Nat) (log more : List (WalEntry α)) :
    getUpdatesSince seq (log ++ more) = getUpdatesSince seq log ++ getUpdatesSince seq more :=
  List.filter_append ..

/-- A batch is read when it starts later. -/
theorem mem_getUpdatesSince {α : Type} {seq : Nat} {log : List (WalEntry α)} {entry : WalEntry α} :
    entry ∈ getUpdatesSince seq log ↔ entry ∈ log ∧ seq < entry.sequenceNumber := by
  rw [getUpdatesSince, List.mem_filter, decide_eq_true_eq]

/-- Reading from a later sequence number reads part of what an earlier one does. -/
theorem getUpdatesSince_of_le {α : Type} {first second : Nat} (later : first ≤ second)
    (log : List (WalEntry α)) :
    getUpdatesSince second (getUpdatesSince first log) = getUpdatesSince second log := by
  rw [getUpdatesSince, getUpdatesSince, getUpdatesSince, List.filter_filter]
  refine List.filter_congr fun entry _ => ?_
  rw [← Bool.decide_and]
  exact decide_eq_decide.mpr ⟨And.left, fun above => ⟨above, lt_of_le_of_lt later above⟩⟩

namespace Streaming

variable {α : Type} {sinceSeq : Nat} {state after : Streaming α}

/-- What a round has sent so far. -/
structure Reads (sinceSeq : Nat) (state : Streaming α) (round : Round)
    (before : List (WalEntry α)) : Prop where
  /-- This much had been sent before. -/
  length : before.length = round.before
  /-- The iterator reads what had not been sent. -/
  rest : getUpdatesSince sinceSeq state.log = before ++ getUpdatesSince round.since state.log
  /-- The first entries of the iterator were sent. -/
  sent : state.sent = before ++ (getUpdatesSince round.since state.log).take round.yielded
  /-- No more than there are. -/
  yielded : round.yielded ≤ (getUpdatesSince round.since state.log).length
  /-- The first round resumes from the start. -/
  start : round.before = 0 → round.since = sinceSeq
  /-- A later one resumes after a batch of the log. -/
  between : 0 < round.before → sinceSeq ≤ round.since ∧ round.since ≤ state.nextSeq
  /-- The log had no more batches than now. -/
  present : round.present ≤ state.log.length

/-- The log is numbered in order, and the streamer has sent a first part of it. -/
structure Sound (sinceSeq : Nat) (state : Streaming α) : Prop where
  /-- The next batch starts after the others. -/
  below : ∀ entry ∈ state.log, entry.sequenceNumber < state.nextSeq
  /-- Batches are numbered in order. -/
  increasing : state.log.Pairwise (fun left right => left.sequenceNumber < right.sequenceNumber)
  /-- Streaming resumes from the start, or after the batch sent last. -/
  cursor : (state.sent = [] ∧ state.currentSeq = sinceSeq) ∨ ∃ init last,
    state.sent = init ++ [last] ∧ state.currentSeq = last.sequenceNumber + 1
  /-- Every batch is sent exactly once. -/
  exact : state.ExactlyOnce sinceSeq
  /-- The log had no more batches than now. -/
  drained : state.drained ≤ state.log.length
  /-- A round continues what was sent before. -/
  round : ∀ round, state.round = some round → ∃ before, state.Reads sinceSeq round before

/-- A commit keeps the streamer sound when it does not start where the round resumed from. -/
private theorem Sound.commit (sound : state.Sound sinceSeq) {batch : WriteAhead α}
    (safe : state.NoneAtCursor (.commit batch)) :
    Sound sinceSeq { state with
      log := state.log ++ [⟨state.nextSeq, batch⟩]
      nextSeq := state.nextSeq + batch.ops.length } := by
  have ops : 0 < batch.ops.length := List.length_pos_iff.mpr batch.nonempty
  obtain ⟨below, increasing, cursor, ⟨first, complete⟩, drained, round⟩ := sound
  refine ⟨fun entry member => ?_, ?_, cursor, ⟨?_, ?_⟩, ?_, fun current started => ?_⟩
  · rcases List.mem_append.mp member with old | new
    · exact lt_of_lt_of_le (below entry old) (Nat.le_add_right _ _)
    · rw [List.mem_singleton.mp new]
      exact Nat.lt_add_of_pos_right ops
  · refine List.pairwise_append.mpr ⟨increasing, List.pairwise_singleton _ _, fun left member => ?_⟩
    intro right new
    rw [List.mem_singleton.mp new]
    exact below left member
  · rw [getUpdatesSince_append]
    exact first.trans (List.prefix_append _ _)
  · rw [List.take_append_of_le_length drained]
    exact complete
  · rw [List.length_append]
    exact Nat.le_add_right_of_le drained
  · obtain ⟨before, length, rest, sent, yielded, start, between, present⟩ := round current started
    -- The round reads the new batch exactly when it is to be sent.
    have alike : getUpdatesSince sinceSeq [WalEntry.mk state.nextSeq batch] =
        getUpdatesSince current.since [WalEntry.mk state.nextSeq batch] := by
      rcases Nat.eq_zero_or_pos current.before with fresh | later
      · rw [start fresh]
      · obtain ⟨above, reached⟩ := between later
        have apart := (safe current started).resolve_left (Nat.pos_iff_ne_zero.mp later)
        have second : current.since < state.nextSeq := lt_of_le_of_ne reached (Ne.symm apart)
        have one : sinceSeq < state.nextSeq := lt_of_le_of_lt above second
        simp [getUpdatesSince, one, second]
    refine ⟨before, length, ?_, ?_, ?_, start, fun later => ?_, ?_⟩
    · simp only [getUpdatesSince_append, rest, alike, List.append_assoc]
    · simp only [getUpdatesSince_append]
      rw [List.take_append_of_le_length yielded]
      exact sent
    · simp only [getUpdatesSince_append, List.length_append]
      exact Nat.le_add_right_of_le yielded
    · exact ⟨(between later).1, Nat.le_add_right_of_le (between later).2⟩
    · simp only [List.length_append]
      exact Nat.le_add_right_of_le present

/-- Where no batch starts at the cursor, a new round reads what was not sent. -/
private theorem Sound.poll (sound : state.Sound sinceSeq) (safe : state.NoneAtCursor .poll) :
    state.Reads sinceSeq ⟨state.currentSeq, state.log.length, state.sent.length, 0⟩ state.sent := by
  obtain ⟨below, increasing, cursor, ⟨⟨rest, whole⟩, _⟩, _, _⟩ := sound
  rcases cursor with ⟨empty, same⟩ | ⟨init, last, ends, same⟩
  · refine ⟨rfl, ?_, by simp, Nat.zero_le _, fun _ => same, fun later => ?_, le_rfl⟩
    · rw [empty, same]
      rfl
    · rw [empty] at later
      exact absurd later (lt_irrefl _)
  · have nonempty : state.sent ≠ [] := by rw [ends]; simp
    have apart := safe.resolve_left nonempty
    have ordered : (state.sent ++ rest).Pairwise
        (fun left right => left.sequenceNumber < right.sequenceNumber) := by
      rw [whole]
      exact increasing.filter _
    obtain ⟨inner, _, across⟩ := List.pairwise_append.mp ordered
    have lastSent : last ∈ state.sent := by rw [ends]; simp
    have listed : ∀ entry ∈ state.sent ++ rest, entry ∈ state.log ∧ sinceSeq < entry.sequenceNumber :=
      fun entry member => mem_getUpdatesSince.mp (whole ▸ member)
    have after_ := (listed last (List.mem_append_left _ lastSent)).2
    -- What was sent starts at or before the last batch, and the rest after it.
    have old : getUpdatesSince state.currentSeq state.sent = [] := by
      refine List.filter_eq_nil_iff.mpr fun entry member => ?_
      rw [decide_eq_true_eq, same]
      rw [ends] at inner member
      rcases List.mem_append.mp member with early | here
      · have earlier := (List.pairwise_append.mp inner).2.2 entry early last (by simp)
        omega
      · rw [List.mem_singleton.mp here]
        omega
    have new : getUpdatesSince state.currentSeq rest = rest := by
      refine List.filter_eq_self.mpr fun entry member => ?_
      rw [decide_eq_true_eq]
      have later := across last lastSent entry member
      have off := apart entry (listed entry (List.mem_append_right _ member)).1
      omega
    have resumes : sinceSeq ≤ state.currentSeq := by omega
    have unsent : getUpdatesSince state.currentSeq state.log = rest := by
      rw [← getUpdatesSince_of_le resumes, ← whole, getUpdatesSince_append, old, new,
        List.nil_append]
    refine ⟨rfl, ?_, by simp, Nat.zero_le _, fun none => ?_, fun _ => ⟨by simp only; omega, ?_⟩, le_rfl⟩
    · rw [unsent, whole]
    · exact absurd (List.eq_nil_of_length_eq_zero none) nonempty
    · have bound := below last (listed last (List.mem_append_left _ lastSent)).1
      simp only
      omega

/-- What a completed round leaves unsent was committed during it. -/
private theorem Reads.complete {round : Round} {before : List (WalEntry α)}
    (reads : state.Reads sinceSeq round before)
    (ends : (getUpdatesSince round.since (state.log.take round.present)).length ≤ round.yielded) :
    getUpdatesSince sinceSeq (state.log.take round.present) <+: state.sent := by
  have later : sinceSeq ≤ round.since := by
    rcases Nat.eq_zero_or_pos round.before with fresh | later
    · exact le_of_eq (reads.start fresh).symm
    · exact (reads.between later).1
  have part : getUpdatesSince sinceSeq (state.log.take round.present) <+:
      getUpdatesSince sinceSeq state.log := (List.take_prefix _ _).filter _
  have sent : state.sent <+: getUpdatesSince sinceSeq state.log := by
    rw [reads.sent, reads.rest]
    exact (List.prefix_append_right_inj before).mpr (List.take_prefix _ _)
  refine List.prefix_of_prefix_length_le part sent ?_
  -- Of what the log had, the iterator reads what was not sent before.
  have split : (getUpdatesSince sinceSeq (state.log.take round.present)).length = _ :=
    List.length_eq_length_filter_add (fun entry => decide (round.since < entry.sequenceNumber))
  have read : (getUpdatesSince sinceSeq (state.log.take round.present)).filter
      (fun entry => decide (round.since < entry.sequenceNumber)) =
      getUpdatesSince round.since (state.log.take round.present) := getUpdatesSince_of_le later _
  have old : ((getUpdatesSince sinceSeq (state.log.take round.present)).filter
      (fun entry => !decide (round.since < entry.sequenceNumber))).length ≤ before.length := by
    have within := ((part.filter (fun entry => !decide (round.since < entry.sequenceNumber))).length_le)
    rw [reads.rest, List.filter_append] at within
    have none : (getUpdatesSince round.since state.log).filter
        (fun entry => !decide (round.since < entry.sequenceNumber)) = [] := by
      refine List.filter_eq_nil_iff.mpr fun entry member => ?_
      simp [(mem_getUpdatesSince.mp member).2]
    rw [none, List.append_nil] at within
    exact within.trans (List.length_filter_le _ _)
  have total : state.sent.length = before.length + round.yielded := by
    rw [reads.sent, List.length_append, List.length_take, Nat.min_eq_left reads.yielded]
  rw [read] at split
  omega

/-- A step that does not resume where a batch starts keeps the streamer sound. -/
theorem Sound.next (sound : state.Sound sinceSeq) {step : StreamStep α}
    (safe : state.NoneAtCursor step) (taken : state.next step = some after) :
    after.Sound sinceSeq := by
  cases step with
  | commit batch =>
    cases taken
    exact sound.commit safe
  | poll =>
    have reads := sound.poll safe
    obtain ⟨log, nextSeq, currentSeq, round, sent, drained⟩ := state
    cases round with
    | some round => cases taken
    | none =>
      cases taken
      refine ⟨sound.below, sound.increasing, sound.cursor, ⟨sound.exact.first, sound.exact.complete⟩,
        sound.drained, fun round started => ⟨sent, ?_⟩⟩
      cases started
      exact ⟨reads.length, reads.rest, reads.sent, reads.yielded, reads.start, reads.between,
        reads.present⟩
  | send =>
    obtain ⟨round, started, taken⟩ := Option.bind_eq_some_iff.mp taken
    obtain ⟨entry, yields, taken⟩ := Option.bind_eq_some_iff.mp taken
    cases taken
    obtain ⟨before, length, rest, sent, yielded, start, between, present⟩ := sound.round round started
    have extended : state.sent ++ [entry] =
        before ++ (getUpdatesSince round.since state.log).take (round.yielded + 1) := by
      rw [List.take_add_one, yields, ← List.append_assoc, ← sent]
      rfl
    have more : round.yielded + 1 ≤ (getUpdatesSince round.since state.log).length :=
      (List.getElem?_eq_some_iff.mp yields).1
    refine ⟨sound.below, sound.increasing, Or.inr ⟨state.sent, entry, rfl, rfl⟩, ⟨?_, ?_⟩,
      sound.drained, fun next continued => ⟨before, ?_⟩⟩
    · simp only [extended, rest]
      exact (List.prefix_append_right_inj before).mpr (List.take_prefix _ _)
    · exact sound.exact.complete.trans (List.prefix_append _ _)
    · cases continued
      exact ⟨length, rest, extended, more, start, between, present⟩
  | fail =>
    obtain ⟨log, nextSeq, currentSeq, round, sent, drained⟩ := state
    cases round with
    | none => cases taken
    | some round =>
      cases taken
      exact ⟨sound.below, sound.increasing, sound.cursor, ⟨sound.exact.first, sound.exact.complete⟩,
        sound.drained, fun _ started => by cases started⟩
  | finish =>
    obtain ⟨round, started, taken⟩ := Option.bind_eq_some_iff.mp taken
    split_ifs at taken with ends
    cases taken
    obtain ⟨before, reads⟩ := sound.round round started
    exact ⟨sound.below, sound.increasing, sound.cursor, ⟨sound.exact.first, reads.complete ends⟩,
      reads.present, fun _ started => by cases started⟩

/--
A streamer whose rounds never resume where a batch starts sends every batch exactly once, in order.
-/
theorem exactlyOnce_of_run {nextSeq : Nat}
    (steps : Runs next NoneAtCursor (run nextSeq sinceSeq) state) : state.ExactlyOnce sinceSeq := by
  have initial : (run (α := α) nextSeq sinceSeq).Sound sinceSeq :=
    ⟨by simp [run], by simp [run], Or.inl ⟨rfl, rfl⟩, ⟨by simp [run, getUpdatesSince],
      by simp [run, getUpdatesSince]⟩, le_rfl, fun _ started => by cases started⟩
  have sound : state.Sound sinceSeq :=
    steps.invariant (fun _ _ _ sound safe taken => sound.next safe taken) initial
  exact sound.exact

/-- A batch of one operation. -/
def single : WriteAhead Unit := ⟨[()], by simp⟩

/-- The first batch of a log is sent exactly once. -/
theorem exactlyOnce_of_run_single : (Streaming.mk [⟨1, single⟩] 2 2 (some ⟨0, 1, 0, 1⟩)
    [⟨1, single⟩] 0).ExactlyOnce 0 := by
  have steps : Runs next NoneAtCursor (run 1 0) (Streaming.mk [⟨1, single⟩] 2 2
      (some ⟨0, 1, 0, 1⟩) [⟨1, single⟩] 0) :=
    .step .send (.step .poll (.step (.commit single) (.done _) (fun _ started => by cases started)
      rfl) (Or.inl rfl) rfl) trivial rfl
  exact exactlyOnce_of_run steps

/-- A batch that follows a batch of one operation sent last is never sent. -/
theorem misses_after_single : ∃ state : Streaming Unit,
    Runs next (fun _ _ => True) (run 1 0) state ∧ ¬ state.ExactlyOnce 0 := by
  have done : ((run 1 0).after [.commit single, .poll, .send, .finish, .commit single, .poll,
      .finish]).map (fun state => (state.sent.length,
        (getUpdatesSince 0 (state.log.take state.drained)).length)) = some (1, 2) := by decide
  obtain ⟨state, steps, both⟩ := Option.map_eq_some_iff.mp done
  obtain ⟨sent, due⟩ := Prod.mk.inj both
  refine ⟨state, Runs.of_stepAll steps, fun exact_ => ?_⟩
  have few := exact_.complete.length_le
  omega

end Streaming

end Polargraph
