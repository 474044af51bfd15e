import Polargraph.Proofs.Storage.CommitLog
import Polargraph.Proofs.Storage.SnapshotStability
import Polargraph.Server.Subscribe

/-! A stream of the change log skips nothing unless a commit is in flight or an entry is pruned. -/

namespace Polargraph

variable {ext : External}

namespace TripleStore

/-- A decoded entry has the commit time it was decoded for. -/
theorem commitTs_decodeChange {store : TripleStore} {commitTs : Timestamp} {entry : Bytes}
    {record : ChangeRecord} (done : store.decodeChange ext commitTs entry = .ok record) :
    record.commitTs = commitTs := by
  simp only [decodeChange] at done
  obtain ⟨⟨version, rest⟩, _, done⟩ := Except.bind_eq_ok.mp done
  simp only at done
  split_ifs at done
  obtain ⟨_, _, done⟩ := Except.bind_eq_ok.mp done
  obtain ⟨_, _, done⟩ := Except.bind_eq_ok.mp done
  obtain ⟨_, _, done⟩ := Except.bind_eq_ok.mp done
  obtain ⟨_, _, done⟩ := Except.bind_eq_ok.mp done
  obtain ⟨_, _, done⟩ := Except.bind_eq_ok.mp done
  obtain ⟨_, _, done⟩ := Except.bind_eq_ok.mp done
  obtain ⟨_, _, done⟩ := Except.bind_eq_ok.mp done
  cases done
  rfl

end TripleStore

namespace System

variable {system : System}

/-- What a reader of the log receives: the first commits after a time, in order. -/
structure Reads (ext : External) (system : System) (time : Timestamp) (limit : Nat)
    (records : List ChangeRecord) : Prop where
  /-- Records are in commit order. -/
  inOrder : records.Pairwise (fun left right => left.commitTs < right.commitTs)
  /-- Every record is that of a logged commit after the time. -/
  logged : ∀ record ∈ records, ∃ outcome ∈ system.outcomes, outcome.logged = true ∧
    time < outcome.commitTs ∧ system.store.decodeChange ext outcome.commitTs outcome.entry = .ok record
  /-- A later commit whose entry is stored is read unless the limit cuts it off. -/
  complete : ∀ outcome ∈ system.outcomes,
    (outcome.commitTs.toBeBytes, outcome.entry) ∈ (system.store.db.family .chg).entries →
    time < outcome.commitTs → (∃ record ∈ records, record.commitTs = outcome.commitTs) ∨
      (limit ≤ records.length ∧ ∀ record ∈ records, record.commitTs < outcome.commitTs)

/-- The entry of a commit is read to resume after a time when the commit is later. -/
theorem LogDated.mem_seek (sound : system.LogDated) {time : Timestamp} {outcome : Outcome}
    (returned : outcome ∈ system.outcomes) {entry : Bytes} :
    (outcome.commitTs.toBeBytes, entry) ∈
        (system.store.db.family .chg).seek (TripleStore.resumeKey time) ↔
      (outcome.commitTs.toBeBytes, entry) ∈ (system.store.db.family .chg).entries ∧
        time < outcome.commitTs := by
  obtain ⟨past, reached⟩ := sound.dated outcome returned
  refine TripleStore.mem_seek_resumeKey past fun last => sound.room ?_
  exact le_antisymm (Timestamp.le_END_OF_TIME _) (last ▸ reached)

/-- Reading a dated log gives the first commits after a time. -/
theorem LogDated.reads (sound : system.LogDated) {time : Timestamp} {limit : Nat}
    {records : List ChangeRecord} (done : system.store.changesAfter ext time limit = .ok records) :
    system.Reads ext time limit records := by
  -- The stored keys are the commit times, and they are read in the order of the keys.
  have done : (((system.store.db.family .chg).seek (TripleStore.resumeKey time)).take limit).mapM
      (fun entry => system.store.decodeChange ext (Timestamp.fromBeBytes (entry.1.take 8)) entry.2) =
      .ok records := done
  have found : ∀ entry ∈ (system.store.db.family .chg).seek (TripleStore.resumeKey time),
      ∃ outcome ∈ system.outcomes, outcome.logged = true ∧
        entry = (outcome.commitTs.toBeBytes, outcome.entry) ∧ time < outcome.commitTs := by
    intro entry member
    obtain ⟨outcome, returned, logged, rfl⟩ :=
      sound.entries entry (SortedMap.mem_seek.mp member).1
    exact ⟨outcome, returned, logged, rfl, (sound.mem_seek returned).mp member |>.2⟩
  have sorted := (system.store.db.family .chg).seek_sorted (TripleStore.resumeKey time)
  have times := Except.map_eq_of_mapM
    (fun _ _ decoded => TripleStore.commitTs_decodeChange decoded) done
  refine ⟨?_, fun record member => ?_, fun outcome returned stored later => ?_⟩
  · rw [← List.pairwise_map, times, List.pairwise_map]
    refine (sorted.sublist (List.take_sublist limit _)).imp_of_mem fun left right order => ?_
    obtain ⟨first, before, _, rfl, _⟩ := found _ (List.mem_of_mem_take left)
    obtain ⟨second, behind, _, rfl, _⟩ := found _ (List.mem_of_mem_take right)
    rw [Timestamp.fromBeBytes_take, Timestamp.fromBeBytes_take]
    exact (Timestamp.toBeBytes_lt_iff (le_of_lt (sound.dated first before).1)
      (le_of_lt (sound.dated second behind).1)).mp order
  · obtain ⟨entry, read, decoded⟩ := (Except.mem_of_mapM done).mp member
    obtain ⟨outcome, returned, logged, rfl, later⟩ := found _ (List.mem_of_mem_take read)
    rw [Timestamp.fromBeBytes_take] at decoded
    exact ⟨outcome, returned, logged, later, decoded⟩
  · have member := (sound.mem_seek returned).mpr ⟨stored, later⟩
    have whole := List.take_append_drop limit
      ((system.store.db.family .chg).seek (TripleStore.resumeKey time))
    have split := member
    rw [← whole] at split
    rcases List.mem_append.mp split with read | cut
    · obtain ⟨record, decoded⟩ := Except.mapM_isOk_iff.mp ⟨records, done⟩ _ read
      have own := TripleStore.commitTs_decodeChange decoded
      rw [Timestamp.fromBeBytes_take] at own
      exact Or.inl ⟨record, (Except.mem_of_mapM done).mpr ⟨_, read, decoded⟩, own⟩
    · -- The limit cut the entry off, so everything read is before it.
      have long : limit ≤ records.length := by
        have same := (Except.mapM_eq_ok.mp done).length_eq
        have inside := List.length_pos_of_mem cut
        rw [List.length_drop] at inside
        rw [← same, List.length_take]
        omega
      refine Or.inr ⟨long, fun record member => ?_⟩
      obtain ⟨entry, read, decoded⟩ := (Except.mem_of_mapM done).mp member
      obtain ⟨other, before, _, rfl, _⟩ := found _ (List.mem_of_mem_take read)
      rw [← whole] at sorted
      have order := (List.pairwise_append.mp sorted).2.2 _ read _ cut
      rw [TripleStore.commitTs_decodeChange decoded, Timestamp.fromBeBytes_take]
      exact (Timestamp.toBeBytes_lt_iff (le_of_lt (sound.dated other before).1)
        (le_of_lt (sound.dated outcome returned).1)).mp order

end System

namespace Subscription

variable {stream : Subscription} {records : List ChangeRecord}

/-- The records of a round are ordered up to the new cursor, which is one of them or the old one. -/
theorem cursor_receive (stream : Subscription) (returned : Nat)
    (inOrder : records.Pairwise (fun left right => left.commitTs < right.commitTs)) :
    (∀ record ∈ records, record.commitTs ≤ (stream.receive records returned).cursor) ∧
      ((stream.receive records returned).cursor = stream.cursor ∧ records = [] ∨
        ∃ record ∈ records, record.commitTs = (stream.receive records returned).cursor) := by
  rcases List.eq_nil_or_concat' records with rfl | ⟨before, last, rfl⟩
  · exact ⟨fun record member => absurd member List.not_mem_nil, Or.inl ⟨rfl, rfl⟩⟩
  · have cursor : (stream.receive (before ++ [last]) returned).cursor = last.commitTs := by
      simp [receive]
    rw [cursor]
    refine ⟨fun record member => ?_, Or.inr ⟨last, by simp, rfl⟩⟩
    rcases List.mem_append.mp member with earlier | here
    · exact le_of_lt ((List.pairwise_append.mp inOrder).2.2 record earlier last (by simp))
    · rw [List.mem_singleton.mp here]

end Subscription

namespace Subscribed

variable {state after : Subscribed} {stream : Subscription}

/-- What is still to come for a stream that has skipped nothing is in the log. -/
structure Follows (ext : External) (state : Subscribed) (stream : Subscription) : Prop where
  /-- Nothing was skipped. -/
  missesNothing : state.MissesNothing ext stream
  /-- The cursor is not before the resume point. -/
  resumed : stream.resumeAfterTs ≤ stream.cursor
  /-- The stream started at the counter of its time, or at the resume point. -/
  started : (stream.resumeAfterTs = Timestamp.zero ∧ stream.start ≤ state.system.store.committed) ∨
    (stream.resumeAfterTs ≠ Timestamp.zero ∧ stream.start = stream.resumeAfterTs)
  /-- The cursor is where the stream started or a commit that returned. -/
  position : stream.cursor = stream.start ∨
    ∃ outcome ∈ state.system.outcomes, outcome.commitTs = stream.cursor
  /-- What was delivered is not after the cursor. -/
  read : ∀ record ∈ stream.delivered, record.commitTs ≤ stream.cursor
  /-- The stream has not caught up with commits that are still to return. -/
  present : stream.caughtUp ≤ state.system.outcomes.length
  /-- The entries of commits after the cursor are stored. -/
  ahead : ∀ i outcome, state.system.outcomes[i]? = some outcome → stream.Due i outcome →
    stream.cursor < outcome.commitTs →
      (outcome.commitTs.toBeBytes, outcome.entry) ∈ (state.system.store.db.family .chg).entries

/-- A step that returns no commit and keeps the entries after the cursor skips nothing. -/
theorem Follows.congr (follows : state.Follows ext stream)
    (outcomes : after.system.outcomes = state.system.outcomes)
    (counter : state.system.store.committed ≤ after.system.store.committed)
    (log : ∀ outcome ∈ state.system.outcomes, stream.cursor < outcome.commitTs →
      (outcome.commitTs.toBeBytes, outcome.entry) ∈ (state.system.store.db.family .chg).entries →
      (outcome.commitTs.toBeBytes, outcome.entry) ∈ (after.system.store.db.family .chg).entries) :
    after.Follows ext stream := by
  obtain ⟨⟨inOrder, records, passed, complete⟩, resumed, started, position, read, present, ahead⟩ :=
    follows
  refine ⟨⟨inOrder, ?_, ?_, ?_⟩, resumed, ?_, ?_, read, ?_, fun i outcome found due later => ?_⟩
  · rwa [outcomes]
  · rwa [outcomes]
  · rwa [outcomes]
  · exact started.imp (And.imp_right fun reached => le_trans reached counter) id
  · rwa [outcomes]
  · rwa [outcomes]
  · rw [outcomes] at found
    exact log outcome (List.mem_of_getElem? found) later (ahead i outcome found due later)

/-- A commit that returns is still to come for a stream that did not start at it. -/
theorem Follows.finish (follows : state.Follows ext stream) {outcome : Outcome}
    (outcomes : after.system.outcomes = state.system.outcomes ++ [outcome])
    (shown : state.system.store.committed = outcome.commitTs)
    (counter : after.system.store.committed = state.system.store.committed)
    (latest : ∀ other ∈ state.system.outcomes, other.commitTs < outcome.commitTs)
    (apart : outcome.logged = true → stream.resumeAfterTs = Timestamp.zero →
      outcome.commitTs ≠ stream.start)
    (own : outcome.logged = true →
      (outcome.commitTs.toBeBytes, outcome.entry) ∈ (after.system.store.db.family .chg).entries)
    (log : ∀ other ∈ state.system.outcomes,
      (other.commitTs.toBeBytes, other.entry) ∈ (state.system.store.db.family .chg).entries →
      (other.commitTs.toBeBytes, other.entry) ∈ (after.system.store.db.family .chg).entries) :
    after.Follows ext stream := by
  obtain ⟨⟨inOrder, records, passed, complete⟩, resumed, started, position, read, present, ahead⟩ :=
    follows
  -- The cursor is before the commit when the stream has to deliver it.
  have later : ∀ i, stream.Due i outcome → stream.cursor < outcome.commitTs := by
    rintro i ⟨logged, above, _⟩
    rcases position with same | ⟨other, returned, same⟩
    · rw [same]
      rcases started with ⟨fresh, reached⟩ | ⟨_, token⟩
      · exact lt_of_le_of_ne (shown ▸ reached) (apart logged fresh).symm
      · rwa [token]
    · rw [← same]
      exact latest other returned
  have split : ∀ i other, after.system.outcomes[i]? = some other →
      state.system.outcomes[i]? = some other ∨ i = state.system.outcomes.length ∧ other = outcome := by
    intro i other found
    rw [outcomes] at found
    rcases Nat.lt_trichotomy i state.system.outcomes.length with old | same | beyond
    · exact Or.inl (by rwa [List.getElem?_append_left old] at found)
    · subst same
      exact Or.inr ⟨rfl, by simpa using found.symm⟩
    · rw [List.getElem?_eq_none (by simp; omega)] at found
      cases found
  refine ⟨⟨inOrder, fun record member => ?_, fun i other found due reached => ?_,
    fun i other found due caught => ?_⟩, resumed, ?_, ?_, read, ?_, fun i other found due above => ?_⟩
  · obtain ⟨other, returned, rest⟩ := records record member
    exact ⟨other, outcomes ▸ List.mem_append_left _ returned, rest⟩
  · rcases split i other found with old | ⟨_, rfl⟩
    · exact passed i other old due reached
    · exact absurd (later i due) (not_lt.mpr reached)
  · rcases split i other found with old | ⟨rfl, _⟩
    · exact complete i other old due caught
    · exact absurd caught (not_lt.mpr present)
  · rwa [counter]
  · refine position.imp id ?_
    rintro ⟨other, returned, same⟩
    exact ⟨other, outcomes ▸ List.mem_append_left _ returned, same⟩
  · rw [outcomes, List.length_append]
    exact Nat.le_add_right_of_le present
  · rcases split i other found with old | ⟨_, rfl⟩
    · exact log other (List.mem_of_getElem? old) (ahead i other old due above)
    · exact own due.1

/-- A polling round skips nothing. -/
theorem Follows.receive (follows : state.Follows ext stream) {records : List ChangeRecord}
    (reads : state.system.Reads ext stream.cursor SUBSCRIBE_BATCH records) :
    Follows ext { state with
      stream := some (stream.receive records state.system.outcomes.length) }
      (stream.receive records state.system.outcomes.length) := by
  obtain ⟨⟨inOrder, logged, passed, complete⟩, resumed, started, position, read, present, ahead⟩ :=
    follows
  obtain ⟨upTo, last⟩ := Subscription.cursor_receive stream
    state.system.outcomes.length reads.inOrder
  have above : ∀ record ∈ records, stream.cursor < record.commitTs := by
    intro record member
    obtain ⟨outcome, _, _, later, decoded⟩ := reads.logged record member
    rwa [TripleStore.commitTs_decodeChange decoded]
  have moves : stream.cursor ≤ (stream.receive records state.system.outcomes.length).cursor := by
    rcases last with ⟨same, _⟩ | ⟨record, member, same⟩
    · exact ge_of_eq same
    · exact le_of_lt (same ▸ above record member)
  -- A commit after the old cursor is read now, or is behind everything read in a full round.
  have comes : ∀ i outcome, state.system.outcomes[i]? = some outcome → stream.Due i outcome →
      (∃ record ∈ stream.delivered ++ records, record.commitTs = outcome.commitTs) ∨
        stream.cursor < outcome.commitTs ∧ SUBSCRIBE_BATCH ≤ records.length ∧
          ∀ record ∈ records, record.commitTs < outcome.commitTs := by
    intro i outcome found due
    rcases le_or_gt outcome.commitTs stream.cursor with reached | later
    · obtain ⟨record, member, same⟩ := passed i outcome found due reached
      exact Or.inl ⟨record, List.mem_append_left _ member, same⟩
    · rcases reads.complete outcome (List.mem_of_getElem? found) (ahead i outcome found due later)
        later with ⟨record, member, same⟩ | cut
      · exact Or.inl ⟨record, List.mem_append_right _ member, same⟩
      · exact Or.inr ⟨later, cut⟩
  refine ⟨⟨?_, fun record member => ?_, fun i outcome found due reached => ?_,
    fun i outcome found due caught => ?_⟩, le_trans resumed moves, started, ?_,
    fun record member => ?_, ?_, fun i outcome found due later => ?_⟩
  · exact List.pairwise_append.mpr ⟨inOrder, reads.inOrder, fun left old right new =>
      lt_of_le_of_lt (read left old) (above right new)⟩
  · rcases List.mem_append.mp member with old | new
    · exact logged record old
    · obtain ⟨outcome, returned, logs, later, decoded⟩ := reads.logged record new
      exact ⟨outcome, returned, logs, lt_of_le_of_lt resumed later, _, decoded⟩
  · rcases comes i outcome found due with here | ⟨later, _, behind⟩
    · exact here
    · rcases last with ⟨same, _⟩ | ⟨record, member, same⟩
      · exact absurd later (not_lt.mpr (same ▸ reached))
      · exact absurd (behind record member) (not_lt.mpr (same ▸ reached))
  · simp only [Subscription.receive] at caught
    split_ifs at caught with short
    · rcases comes i outcome found due with here | ⟨_, full, _⟩
      · exact here
      · exact absurd short (not_lt.mpr full)
    · obtain ⟨record, member, same⟩ := complete i outcome found due caught
      exact ⟨record, List.mem_append_left _ member, same⟩
  · rcases last with ⟨same, _⟩ | ⟨record, member, same⟩
    · rw [same]
      exact position
    · obtain ⟨outcome, returned, _, _, decoded⟩ := reads.logged record member
      exact Or.inr ⟨outcome, returned, (TripleStore.commitTs_decodeChange decoded).symm.trans same⟩
  · rcases List.mem_append.mp member with old | new
    · exact le_trans (read record old) moves
    · exact upTo record new
  · simp only [Subscription.receive]
    split_ifs
    · exact le_rfl
    · exact present
  · exact ahead i outcome found due (lt_of_le_of_lt moves later)

/-- The log is dated, and an open stream follows it. -/
structure Sound (ext : External) (state : Subscribed) : Prop where
  /-- The log is dated. -/
  log : state.system.LogDated
  /-- An open stream has skipped nothing. -/
  follows : ∀ stream, state.stream = some stream → state.Follows ext stream

/-- A step of a transaction lets no stream skip a commit that is not logged where it started. -/
private theorem Follows.act {system : System} (follows : state.Follows ext stream)
    (sound : state.system.LogDated) {action : Action} (opened : state.stream = some stream)
    (safe : state.Skipless ext (.act action))
    (taken : state.system.next ext action = some system) :
    Follows ext { state with system := system } stream := by
  cases System.next_kind taken with
  | buffer quiet =>
    refine follows.congr quiet.outcomes (le_of_eq ?_) fun _ _ _ stored => ?_
    · simp only [quiet.store]
    · simpa only [quiet.store] using stored
  | publish free held =>
    exact follows.congr rfl (le_of_lt (System.lt_beginCommit sound.room _))
      fun _ _ _ stored => stored
  | @abort commit conflict held fresh conflicts =>
    obtain ⟨shown, _, latest⟩ := sound.lock commit held
    exact follows.finish rfl shown rfl latest (fun logged => by cases logged)
      (fun logged => by cases logged) fun _ _ stored => stored
  | pass held fresh free =>
    exact follows.congr rfl le_rfl fun _ _ _ stored => stored
  | @flush commit held checked =>
    obtain ⟨shown, _, latest⟩ := sound.lock commit held
    refine follows.finish rfl shown (TripleStore.committed_flush _ _ _) latest
      (fun logged fresh => safe commit held stream opened fresh logged) (fun logged => ?_)
      fun other returned stored => System.mem_chg_flush (latest other returned) stored
    have logs : state.system.store.logs ext commit.tx commit.commitTs = true := logged
    simp only [System.finish, TripleStore.chg_flush, logs, if_true]
    exact SortedMap.mem_insert.mpr (Or.inl rfl)

/-- Pruning entries that the stream has read lets it skip nothing. -/
private theorem Follows.pruneChanges (follows : state.Follows ext stream)
    (sound : state.system.LogDated) {before : Timestamp} (opened : state.stream = some stream)
    (safe : state.Skipless ext (.pruneChanges before)) :
    Follows ext { state with
      system := { state.system with store := (state.system.store.pruneChanges before).1 } }
      stream := by
  refine follows.congr rfl le_rfl fun outcome returned later stored => ?_
  have bound := safe stream opened _ stored
  rw [Timestamp.fromBeBytes_take] at bound
  have past := (sound.dated outcome returned).1
  rw [TripleStore.chg_pruneChanges, SortedMap.mem_eraseRange]
  refine ⟨stored, fun inside => ?_⟩
  rcases lt_max_iff.mp ((Timestamp.toBeBytes_lt_iff (le_of_lt past) (le_max_right _ _)).mp
    inside.2) with early | negative
  · exact absurd early (not_lt.mpr (bound later))
  · exact lt_asymm past negative

/-- A stream that starts has skipped nothing. -/
private theorem Sound.subscribe (sound : state.Sound ext) (idle : state.stream = none)
    (resumeAfterTs : Timestamp) : (state.subscribe resumeAfterTs).Sound ext := by
  obtain ⟨log, _⟩ := sound
  simp only [Subscribed.subscribe]
  split_ifs with fresh old
  · subst fresh
    refine ⟨log, ?_⟩
    rintro stream ⟨⟩
    -- No commit has returned since, so the stream has nothing to deliver yet.
    have none_due : ∀ i outcome, state.system.outcomes[i]? = some outcome →
        ¬ (state.system.outcomes.length ≤ i) := fun i outcome found =>
      not_le.mpr (List.getElem?_eq_some_iff.mp found).1
    exact ⟨⟨List.Pairwise.nil, fun _ member => absurd member List.not_mem_nil,
      fun i outcome found due _ => absurd (due.2.2 rfl) (none_due i outcome found),
      fun i outcome _ _ caught => absurd caught (Nat.not_lt_zero i)⟩, log.positive,
      Or.inl ⟨rfl, le_rfl⟩, Or.inl rfl, fun _ member => absurd member List.not_mem_nil,
      Nat.zero_le _, fun i outcome found due _ => absurd (due.2.2 rfl) (none_due i outcome found)⟩
  · refine ⟨log, fun stream opened => ?_⟩
    rw [idle] at opened
    cases opened
  · refine ⟨log, ?_⟩
    rintro stream ⟨⟩
    exact ⟨⟨List.Pairwise.nil, fun _ member => absurd member List.not_mem_nil,
      fun i outcome _ due reached => absurd due.2.1 (not_lt.mpr reached),
      fun i outcome _ _ caught => absurd caught (Nat.not_lt_zero i)⟩, le_rfl,
      Or.inr ⟨fresh, rfl⟩, Or.inl rfl, fun _ member => absurd member List.not_mem_nil,
      Nat.zero_le _, fun i outcome found due later => log.kept outcome (List.mem_of_getElem? found)
        due.1 (lt_of_le_of_lt (not_lt.mp old) later)⟩

/-- A step that makes no stream skip anything keeps the stream following the log. -/
theorem Sound.next (sound : state.Sound ext) {step : SubscribeStep}
    (safe : state.Skipless ext step) (taken : state.next ext step = some after) :
    after.Sound ext := by
  cases step with
  | act action =>
    obtain ⟨system, moved, same⟩ := Option.map_eq_some_iff.mp taken
    subst same
    have advances : state.system.Advances action := by
      cases action with
      | publish handle wall => exact safe
      | _ => trivial
    exact ⟨sound.log.next advances moved, fun stream opened =>
      (sound.follows stream opened).act sound.log opened safe moved⟩
  | pruneChanges before =>
    cases taken
    exact ⟨sound.log.pruneChanges before, fun stream opened =>
      (sound.follows stream opened).pruneChanges sound.log opened safe⟩
  | subscribe resumeAfterTs =>
    cases idle : state.stream with
    | some stream => simp only [Subscribed.next, idle] at taken; cases taken
    | none =>
      simp only [Subscribed.next, idle] at taken
      cases taken
      exact sound.subscribe idle resumeAfterTs
  | poll =>
    obtain ⟨stream, opened, taken⟩ := Option.bind_eq_some_iff.mp taken
    split at taken
    · cases taken
      exact ⟨sound.log, fun _ opened => by cases opened⟩
    · rename_i records done
      cases taken
      refine ⟨sound.log, ?_⟩
      rintro _ ⟨⟩
      exact (sound.follows stream opened).receive (sound.log.reads done)
  | close =>
    cases taken
    exact ⟨sound.log, fun _ opened => by cases opened⟩

/--
A stream delivers every commit it has to, once and in order, unless a commit was in flight where it
started or an entry was pruned that it had yet to read.
-/
theorem missesNothing_of_run {inlineMax : Nat} {vocabulary : Vocabulary} {canonical : Bool}
    (run : Runs (next ext) (Skipless ext) (opened (.configured inlineMax vocabulary canonical)) state)
    (open_ : state.stream = some stream) : state.MissesNothing ext stream := by
  have initial : (opened (.configured inlineMax vocabulary canonical)).Sound ext :=
    ⟨System.logDated_fresh inlineMax vocabulary canonical,
      fun _ opened => by cases opened⟩
  have sound : state.Sound ext :=
    run.invariant (fun _ _ _ sound safe taken => sound.next safe taken) initial
  exact (sound.follows stream open_).missesNothing

/-- One commit from its start to its flush. -/
def commits : List SubscribeStep :=
  System.published.map .act ++ [.act .check, .act .flush]

/-- A stream that starts on a new store delivers its first commit. -/
theorem missesNothing_of_run_commit : ∃ (state : Subscribed) (stream : Subscription),
    stream.delivered.length = 1 ∧ state.MissesNothing External.unreached stream := by
  have done : (Runs.stepAll (next External.unreached) (Skipless External.unreached)
      (opened (.configured 256 Vocabulary.default true))
      (.subscribe Timestamp.zero :: commits ++ [.poll])).map
        (fun state => state.stream.map (fun stream => stream.delivered.length)) =
      some (some 1) := by decide +kernel
  obtain ⟨state, taken, both⟩ := Option.map_eq_some_iff.mp done
  obtain ⟨stream, opened, one⟩ := Option.map_eq_some_iff.mp both
  exact ⟨state, stream, one, missesNothing_of_run (Runs.of_stepAll taken) opened⟩

/-- A stream starts while a commit is in flight. -/
def startsInFlight : List SubscribeStep :=
  System.published.map .act ++ [.subscribe Timestamp.zero, .act .check, .act .flush, .poll]

/-- An entry is pruned before the stream reads it. -/
def prunesUnread : List SubscribeStep :=
  .subscribe Timestamp.zero :: commits ++ [.pruneChanges (Timestamp.wrap 2), .poll]

/-- Either of the two runs skips the outcome that it logs. -/
theorem exists_skipped {steps : List SubscribeStep} (chosen : steps ∈ [startsInFlight, prunesUnread]) :
    ∃ state stream,
      Runs (next External.unreached) (fun _ _ => True)
        (opened (.configured 256 Vocabulary.default true)) state ∧
      ((opened (.configured 256 Vocabulary.default true)).after External.unreached steps) =
        some state ∧
      state.stream = some stream ∧ ¬ state.MissesNothing External.unreached stream := by
  have done : ((opened (.configured 256 Vocabulary.default true)).after External.unreached steps).map
      (fun state => (state.stream.map (fun stream => (stream.delivered.length, stream.caughtUp,
        stream.began, stream.resumeAfterTs)), state.system.outcomes.map
          (fun outcome => (outcome.logged, outcome.commitTs)))) =
      some (some (0, 1, 0, Timestamp.zero), [(true, Timestamp.wrap 1)]) := by
    simp only [List.mem_cons, List.not_mem_nil, or_false] at chosen
    rcases chosen with rfl | rfl <;> decide +kernel
  obtain ⟨state, taken, both⟩ := Option.map_eq_some_iff.mp done
  obtain ⟨open_, returned⟩ := Prod.mk.inj both
  obtain ⟨stream, opened, facts⟩ := Option.map_eq_some_iff.mp open_
  refine ⟨state, stream, Runs.of_stepAll taken, taken, opened, fun exact_ => ?_⟩
  simp only [Prod.mk.injEq] at facts
  obtain ⟨none_read, caught, began, resume⟩ := facts
  obtain ⟨outcome, only, fields⟩ := List.map_eq_singleton_iff.mp returned
  obtain ⟨logged, time⟩ := Prod.mk.inj fields
  have due : stream.Due 0 outcome :=
    ⟨logged, by rw [resume, time]; decide, fun _ => le_of_eq began⟩
  obtain ⟨record, member, _⟩ := exact_.complete 0 outcome (by rw [only]; rfl) due
    (by rw [caught]; exact Nat.zero_lt_one)
  rw [List.length_eq_zero_iff.mp none_read] at member
  cases member

/-- A commit in flight when the stream starts and an entry pruned before it is read are skipped. -/
theorem skips :
    (∃ state stream, Runs (next External.unreached) (fun _ _ => True)
        (opened (.configured 256 Vocabulary.default true)) state ∧
      (opened (.configured 256 Vocabulary.default true)).after External.unreached startsInFlight =
        some state ∧
      state.stream = some stream ∧ ¬ state.MissesNothing External.unreached stream) ∧
    ∃ state stream, Runs (next External.unreached) (fun _ _ => True)
        (opened (.configured 256 Vocabulary.default true)) state ∧
      (opened (.configured 256 Vocabulary.default true)).after External.unreached prunesUnread =
        some state ∧
      state.stream = some stream ∧ ¬ state.MissesNothing External.unreached stream :=
  ⟨exists_skipped (.head _), exists_skipped (.tail _ (.head _))⟩

end Subscribed

end Polargraph
