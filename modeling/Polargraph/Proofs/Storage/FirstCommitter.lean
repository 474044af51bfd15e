import Polargraph.Proofs.Storage.SnapshotStability

/-! First committer wins: what the conflict check guarantees across all schedules. -/

namespace Polargraph

namespace TripleStore

variable (ext : External)

/-- A write covers a quad: it writes the quad, or replaces the property it is a value of. -/
def Covers (store : TripleStore) (w : PendingWrite) (ids : QuadIds) : Prop :=
  store.predicateId w.triple.predicate = some ids.p ∧ ids.s = w.triple.subject ∧
    ids.g = w.graph ∧
    match w.triple with
    | .relation _ _ object _ _ => ids.o = object
    | .property _ _ value _ =>
      w.mode.resolve w.triple = .replace ∨ ids.o = valueObject ext value
    | .edgeProperty .. => False
    | .edgeRelation .. => False

/-- One of some versions is of a quad that a write of a transaction covers. -/
def Overlaps (store : TripleStore) (written : List StagedQuad) (tx : Transaction) : Prop :=
  ∃ quad ∈ written, ∃ w ∈ tx.writes, store.Covers ext w quad.key.toQuadIds

variable {ext}

/-- The conflict check of a write looks at every version of the quads it covers. -/
theorem conflictPrefix_of_covers {store : TripleStore} {w : PendingWrite} {key : QuadKey}
    (covers : store.Covers ext w key.toQuadIds) :
    ∃ start, store.conflictPrefix ext w = some start ∧ start <+: Order.gspo.encode key := by
  obtain ⟨known, subject, graph, covers⟩ := covers
  obtain ⟨triple, g, mode⟩ := w
  simp only at graph
  cases triple with
  | relation s predicate object edgeId window =>
    have named : key.toQuadIds = ⟨s, key.p, object, g⟩ :=
      QuadIds.mk.injEq .. |>.mpr ⟨subject, rfl, covers, graph⟩
    simp only [conflictPrefix, known]
    exact ⟨_, rfl, Order.gspo_quad_isPrefix_iff.mpr named⟩
  | property s predicate value window =>
    simp only [conflictPrefix, known]
    split
    · refine ⟨_, rfl, Order.gspo_values_isPrefix_iff.mpr ⟨subject, rfl, graph⟩⟩
    · rename_i adds
      rcases covers with replaces | object
      · exact absurd replaces adds
      · have named : key.toQuadIds = ⟨s, key.p, valueObject ext value, g⟩ :=
          QuadIds.mk.injEq .. |>.mpr ⟨subject, rfl, object, graph⟩
        exact ⟨_, rfl, Order.gspo_quad_isPrefix_iff.mpr named⟩
  | edgeProperty | edgeRelation => exact absurd covers id

/-- The check finds every version of a covered quad recorded after the read time. -/
theorem firstConflict_of_overlap {store : TripleStore} {index : Index}
    (holds : store.db.OrderHolds .gspo index) {tx : Transaction} {commitTs : Timestamp}
    {quad : StagedQuad} (stored : (index quad.key).isSome) (after : tx.readTs < quad.key.tt)
    (before : quad.key.tt ≤ commitTs) {w : PendingWrite} (buffered : w ∈ tx.writes)
    (covers : store.Covers ext w quad.key.toQuadIds) :
    (store.firstConflict ext tx commitTs).isSome := by
  obtain ⟨start, looks, under⟩ := conflictPrefix_of_covers covers
  obtain ⟨bytes, stored⟩ := Option.isSome_iff_exists.mp stored
  have found : ((store.db.family (.quads .gspo)).scanPrefix start).any
      (fun entry => decide (tx.readTs < keyTt entry.1 ∧ keyTt entry.1 ≤ commitTs)) = true := by
    refine List.any_eq_true.mpr ⟨(Order.gspo.encode quad.key, bytes), ?_, ?_⟩
    · exact SortedMap.mem_scanPrefix.mpr ⟨(holds _ _).mpr ⟨quad.key, rfl, stored⟩, under⟩
    · rw [Order.keyTt_encode]
      exact decide_eq_true ⟨after, before⟩
  rw [firstConflict, List.findSome?_isSome_iff]
  refine ⟨w, buffered, ?_⟩
  simp only [checkConflict, looks, found, if_true, Option.isSome_some]

end TripleStore

namespace System

variable {ext : External} {before system after : System}

/-- What the commits that returned left behind. -/
structure Logged (system : System) : Prop where
  /-- Versions are dated by the counter. -/
  dated : system.Dated
  /-- Only handles given out are open. -/
  given : ∀ handle, system.nextHandle ≤ handle → system.transactions handle = none
  /-- So is the handle of the commit in progress. -/
  holder : ∀ commit, system.committing = some commit → commit.handle < system.nextHandle
  /-- Commits returned in the order of their timestamps, the one in progress being the latest. -/
  returned : ∀ outcome ∈ system.outcomes, outcome.commitTs ≤ system.store.committed ∧
    ∀ commit, system.committing = some commit → outcome.commitTs < commit.commitTs
  /-- What they wrote is stored under their timestamps. -/
  stored : ∀ outcome ∈ system.outcomes, ∀ quad ∈ outcome.written,
    quad.key.tt = outcome.commitTs ∧ (system.store.index quad.key).isSome

/-- A handle stays given out. -/
private theorem nextHandle_le {action : Action} (kind : Kind ext system action after) :
    system.nextHandle ≤ after.nextHandle := by
  cases kind with
  | buffer quiet => exact quiet.handles
  | _ => exact Nat.le_refl _

/-- A stored version stays stored. -/
private theorem stored_next {action : Action} (dated : system.Dated)
    (kind : Kind ext system action after) {key : QuadKey} (stored : (system.store.index key).isSome) :
    (after.store.index key).isSome := by
  cases kind with
  | buffer quiet => rwa [quiet.store]
  | @flush commit held checked =>
    change ((system.store.flush ext commit.tx commit.commitTs).1.index key).isSome
    rw [index_flush dated]
    by_cases staged : ∃ quad ∈ system.store.stagedQuads ext commit.tx commit.commitTs, quad.key = key
    · obtain ⟨quad, member, rfl⟩ := staged
      exact Index.putAll_isSome _ member
    · rw [Index.putAll_of_forall_ne _ fun quad member same => staged ⟨quad, member, same⟩]
      exact stored
  | _ => exact stored

/-- Every step keeps the log of returned commits right. -/
theorem Logged.next (logged : system.Logged) {action : Action} (counts : system.Counts action)
    (taken : system.next ext action = some after) : after.Logged := by
  have kind := next_kind taken
  have dated := logged.dated.next counts taken
  have kept := fun outcome member quad inside => (logged.stored outcome member quad inside).imp_right
    (stored_next logged.dated kind)
  cases kind with
  | buffer quiet =>
    refine ⟨dated, fun handle late => ?_, fun commit held => ?_, ?_, ?_⟩
    · exact quiet.given handle late (logged.given handle (quiet.handles.trans late))
    · rw [quiet.committing] at held
      exact lt_of_lt_of_le (logged.holder commit held) quiet.handles
    · rw [quiet.outcomes, quiet.store, quiet.committing]
      exact logged.returned
    · rw [quiet.outcomes]
      exact kept
  | @publish handle wall tx free held =>
    have later := lt_beginCommit counts wall
    refine ⟨dated, fun other late => ?_, ?_, fun outcome member => ?_, kept⟩
    · by_cases same : other = handle
      · subst same
        exact Function.update_self _ _ _
      · exact (Function.update_of_ne same _ _).trans (logged.given other late)
    · rintro commit ⟨⟩
      by_contra late
      rw [logged.given handle (not_lt.mp late)] at held
      cases held
    · have old := lt_of_le_of_lt (logged.returned outcome member).1 later
      refine ⟨le_of_lt old, ?_⟩
      rintro commit ⟨⟩
      exact old
  | @abort commit conflict held fresh conflicts =>
    refine ⟨dated, logged.given, by rintro commit ⟨⟩, ?_, ?_⟩
    · intro outcome member
      refine ⟨?_, by rintro commit ⟨⟩⟩
      rcases List.mem_append.mp member with old | new
      · exact (logged.returned outcome old).1
      · rw [List.mem_singleton.mp new]
        exact le_of_eq (logged.dated.lock commit held).1.symm
    · intro outcome member quad inside
      rcases List.mem_append.mp member with old | new
      · exact kept outcome old quad inside
      · rw [List.mem_singleton.mp new] at inside
        simp at inside
  | @pass commit held fresh free =>
    have holder := logged.holder commit held
    refine ⟨dated, logged.given, ?_, fun outcome member => ⟨(logged.returned outcome member).1, ?_⟩,
      kept⟩
    · rintro same ⟨⟩
      exact holder
    · rintro same ⟨⟩
      exact (logged.returned outcome member).2 commit held
  | @flush commit held checked =>
    refine ⟨dated, logged.given, by rintro commit ⟨⟩, ?_, ?_⟩
    · intro outcome member
      refine ⟨?_, by rintro commit ⟨⟩⟩
      change outcome.commitTs ≤ (system.store.flush ext commit.tx commit.commitTs).1.committed
      rw [TripleStore.committed_flush]
      rcases List.mem_append.mp member with old | new
      · exact (logged.returned outcome old).1
      · rw [List.mem_singleton.mp new]
        exact le_of_eq (logged.dated.lock commit held).1.symm
    · intro outcome member quad inside
      rcases List.mem_append.mp member with old | new
      · exact kept outcome old quad inside
      · rw [List.mem_singleton.mp new] at inside ⊢
        refine ⟨TripleStore.stagedQuads_tt inside, ?_⟩
        change ((system.store.flush ext commit.tx commit.commitTs).1.index quad.key).isSome
        rw [index_flush logged.dated]
        exact Index.putAll_isSome _ inside

/-- A new store has returned no commit. -/
theorem logged_of_run {inlineMax : Nat} {vocabulary : Vocabulary} {canonical : Bool}
    (run : Runs (next ext) Counts (fresh inlineMax vocabulary canonical) system) : system.Logged :=
  run.invariant (fun _ _ _ logged counts taken => logged.next counts taken)
    ⟨dated_start inlineMax vocabulary canonical, fun _ _ => rfl, by rintro _ ⟨⟩,
      fun _ member => absurd member List.not_mem_nil,
      fun _ member => absurd member List.not_mem_nil⟩

/-- How a state relates to an earlier state of the run. -/
structure Since (ext : External) (before system : System) : Prop where
  /-- The counter has not gone back. -/
  reached : before.store.committed ≤ system.store.committed
  /-- The commit in progress took the lock since then, or held it already. -/
  held : ∀ commit, system.committing = some commit →
    before.store.committed < commit.commitTs ∨
    ∃ early, before.committing = some early ∧ commit.commitTs = early.commitTs ∧
      commit.handle = early.handle ∧ system.pending ext = before.pending ext
  /-- A commit that returned since then took the lock since then, or wrote what was pending. -/
  returned : ∀ outcome ∈ system.outcomes, outcome ∈ before.outcomes ∨
    before.store.committed < outcome.commitTs ∨
    ∃ early, before.committing = some early ∧ outcome.commitTs = early.commitTs ∧
      (outcome.written = before.pending ext ∨ outcome.written = [])
  /-- What was pending then is still pending or was written. -/
  finished : ∀ early, before.committing = some early → before.pending ext ≠ [] →
    (∃ commit, system.committing = some commit ∧ commit.commitTs = early.commitTs ∧
      commit.handle = early.handle ∧ system.pending ext = before.pending ext) ∨
    ∃ outcome ∈ system.outcomes, outcome.commitTs = early.commitTs ∧
      outcome.written = before.pending ext

/-- A state relates to itself. -/
theorem Since.refl (system : System) : Since ext system system where
  reached := le_refl _
  held commit held := Or.inr ⟨commit, held, rfl, rfl, rfl⟩
  returned _ member := Or.inl member
  finished early held _ := Or.inl ⟨early, held, rfl, rfl, rfl⟩

/-- A commit that is about to abort has nothing to write. -/
private theorem pending_abort {commit : InFlight} {conflict : ConflictError}
    (held : system.committing = some commit) (fresh : commit.checked = false)
    (conflicts : system.store.firstConflict ext commit.tx commit.commitTs = some conflict) :
    system.pending ext = [] := by
  simp [pending, held, fresh, conflicts]

/-- Every step keeps the relation to an earlier state. -/
theorem Since.next (since : Since ext before system) {action : Action}
    (counts : system.Counts action) (taken : system.next ext action = some after) :
    Since ext before after := by
  cases next_kind taken with
  | buffer quiet =>
    have pending : after.pending ext = system.pending ext := by
      simp only [System.pending, quiet.committing, quiet.store]
    refine ⟨?_, ?_, ?_, ?_⟩
    · rw [quiet.store]
      exact since.reached
    · rw [quiet.committing, pending]
      exact since.held
    · rw [quiet.outcomes]
      exact since.returned
    · rw [quiet.committing, quiet.outcomes, pending]
      exact since.finished
  | @publish handle wall tx free held =>
    have later := lt_of_le_of_lt since.reached (lt_beginCommit counts wall)
    refine ⟨le_of_lt later, ?_, since.returned, fun early locked writes => ?_⟩
    · rintro commit ⟨⟩
      exact Or.inl later
    · rcases since.finished early locked writes with ⟨commit, same, _⟩ | done
      · rw [free] at same
        cases same
      · exact Or.inr done
  | @abort commit conflict held fresh conflicts =>
    have nothing := pending_abort held fresh conflicts
    refine ⟨since.reached, by rintro commit ⟨⟩, fun outcome member => ?_,
      fun early locked writes => ?_⟩
    · rcases List.mem_append.mp member with old | new
      · exact since.returned outcome old
      · rw [List.mem_singleton.mp new]
        rcases since.held commit held with late | ⟨early, locked, stamp, _, _⟩
        · exact Or.inr (Or.inl late)
        · exact Or.inr (Or.inr ⟨early, locked, stamp, Or.inr rfl⟩)
    · rcases since.finished early locked writes with ⟨_, _, _, _, same⟩ | ⟨outcome, member, done⟩
      · rw [nothing] at same
        exact absurd same.symm writes
      · exact Or.inr ⟨outcome, List.mem_append_left _ member, done⟩
  | @pass commit held fresh free =>
    have same := pending_pass held free
    have holds := since.held commit held
    refine ⟨since.reached, ?_, since.returned, fun early locked writes => ?_⟩
    · rintro other ⟨⟩
      rw [same]
      exact holds
    · rcases since.finished early locked writes with ⟨other, own, stamp⟩ | done
      · cases held.symm.trans own
        rw [same]
        exact Or.inl ⟨_, rfl, stamp⟩
      · exact Or.inr done
  | @flush commit held checked =>
    have writing : system.pending ext = system.store.stagedQuads ext commit.tx commit.commitTs :=
      pending_checked held checked
    refine ⟨?_, by rintro commit ⟨⟩, fun outcome member => ?_, fun early locked writes => ?_⟩
    · change before.store.committed ≤ (system.store.flush ext commit.tx commit.commitTs).1.committed
      rw [TripleStore.committed_flush]
      exact since.reached
    · rcases List.mem_append.mp member with old | new
      · exact since.returned outcome old
      · rw [List.mem_singleton.mp new]
        rcases since.held commit held with late | ⟨early, locked, stamp, _, same⟩
        · exact Or.inr (Or.inl late)
        · exact Or.inr (Or.inr ⟨early, locked, stamp, Or.inl (writing.symm.trans same)⟩)
    · rcases since.finished early locked writes with
        ⟨other, own, stamp, _, same⟩ | ⟨outcome, member, done⟩
      · cases held.symm.trans own
        exact Or.inr ⟨_, List.mem_append_right _ (List.mem_singleton_self _), stamp,
          writing.symm.trans same⟩
      · exact Or.inr ⟨outcome, List.mem_append_left _ member, done⟩

/-- The relation to an earlier state holds along a run. -/
theorem Since.run (run : Runs (System.next ext) Counts before system) : Since ext before system :=
  run.invariant (fun _ _ _ since counts taken => since.next counts taken) (Since.refl before)

/-- The transaction of a handle reads at a timestamp. -/
structure ReadsAt (handle : Nat) (ts : Timestamp) (system : System) : Prop where
  /-- The handle was given out. -/
  given : handle < system.nextHandle
  /-- While it is open it reads at the timestamp. -/
  open_ : ∀ tx, system.transactions handle = some tx → tx.readTs = ts
  /-- While it commits it reads at the timestamp. -/
  held : ∀ commit, system.committing = some commit → commit.handle = handle →
    commit.tx.readTs = ts

/-- Every step keeps the read timestamp of a transaction. -/
theorem ReadsAt.next {handle : Nat} {ts : Timestamp} (reads : ReadsAt handle ts system)
    {action : Action} (taken : system.next ext action = some after) :
    ReadsAt handle ts after := by
  have kind := next_kind taken
  have given := lt_of_lt_of_le reads.given (nextHandle_le kind)
  cases kind with
  | buffer quiet =>
    refine ⟨given, fun tx held => ?_, ?_⟩
    · obtain ⟨old, held, same⟩ := quiet.readTs handle reads.given tx held
      exact same.trans (reads.open_ old held)
    · rw [quiet.committing]
      exact reads.held
  | @publish other wall tx free held =>
    refine ⟨given, fun tx' kept => ?_, ?_⟩
    · by_cases same : handle = other
      · subst same
        have gone : (system.closed handle).transactions handle = none := Function.update_self _ _ _
        cases gone.symm.trans kept
      · have kept : (system.closed other).transactions handle = some tx' := kept
        simp only [closed, Function.update_of_ne same] at kept
        exact reads.open_ tx' kept
    · rintro commit ⟨⟩ rfl
      exact reads.open_ tx held
  | abort held fresh conflicts => exact ⟨given, reads.open_, by rintro commit ⟨⟩⟩
  | @pass commit held fresh free =>
    have own := reads.held commit held
    refine ⟨given, reads.open_, ?_⟩
    rintro same ⟨⟩ named
    exact own named
  | flush held checked => exact ⟨given, reads.open_, by rintro commit ⟨⟩⟩

/-- A transaction that begins reads at the timestamp handed out. -/
private theorem opened_of_begin {action : Action} {ts : Timestamp}
    (starts : action = .begin ∨ ∃ readTs, action = .beginAt readTs)
    (hands : before.handed action = some ts) (taken : before.next ext action = some after) :
    ∃ tx, after = before.opened tx ∧ tx.readTs = ts := by
  rcases starts with rfl | ⟨readTs, rfl⟩
  · cases taken
    exact ⟨_, rfl, Option.some.inj hands⟩
  · simp only [handed] at hands
    simp only [next] at taken
    split at hands
    · rename_i tx begun
      rw [begun] at taken
      cases taken
      exact ⟨tx, rfl, Option.some.inj hands⟩
    · cases hands

/--
No update is lost: a commit about to be checked has seen every earlier overlapping commit.

Such a commit was flushed when the transaction began, and the transaction reads past it.
Otherwise the check returns a write conflict and nothing is written.
-/
def NoLostUpdate (ext : External) (before middle : System) (commit : InFlight) : Prop :=
  ∀ last outcome, Runs (System.next ext) Counts middle last → outcome ∈ last.outcomes →
    outcome.commitTs < commit.commitTs →
    middle.store.Overlaps ext outcome.written commit.tx →
    (outcome ∈ before.outcomes ∧ ∀ quad ∈ outcome.written,
      quad.key.tt ≤ commit.tx.readTs ∧ (before.store.index quad.key).isSome) ∨
    ∃ conflict, middle.next ext .check =
      some (middle.finish commit middle.store (.error (.writeConflict conflict)) [])

/-- No commit was being written under the read timestamp that overlaps the transaction. -/
def Unraced (ext : External) (before middle : System) (commit : InFlight) : Prop :=
  ∀ early, before.committing = some early → early.commitTs = commit.tx.readTs →
    ¬ middle.store.Overlaps ext (before.pending ext) commit.tx

/-- What is known of a transaction that began and has reached its conflict check. -/
private structure Reached (ext : External) (before middle : System) (commit : InFlight) : Prop where
  logged : before.Logged
  logged' : middle.Logged
  since : Since ext before middle
  held : middle.committing = some commit
  fresh : commit.checked = false
  reads : commit.tx.readTs ≤ before.store.committed
  late : before.store.committed < commit.commitTs
  apart : ∀ early, before.committing = some early → commit.handle ≠ early.handle

/-- A run from the transaction's begin to its check. -/
private theorem reached_of_run {inlineMax : Nat} {vocabulary : Vocabulary} {canonical : Bool}
    (run : Runs (System.next ext) Counts (fresh inlineMax vocabulary canonical) before)
    {action : Action} {ts : Timestamp}
    (starts : action = .begin ∨ ∃ readTs, action = .beginAt readTs)
    (hands : before.handed action = some ts) (taken : before.next ext action = some after)
    {middle : System} (later : Runs (System.next ext) Counts after middle) {commit : InFlight}
    (held : middle.committing = some commit) (own : commit.handle = before.nextHandle)
    (unchecked : commit.checked = false) : Reached ext before middle commit := by
  have counts : before.Counts action := by rcases starts with rfl | ⟨readTs, rfl⟩ <;> trivial
  have step := Runs.step action (.done before) counts taken
  have logged := logged_of_run run
  have reached := (quiet_of_handed hands taken).2.2
  obtain ⟨tx, rfl, same⟩ := opened_of_begin starts hands taken
  have begun : ReadsAt before.nextHandle ts (before.opened tx) := by
    refine ⟨Nat.lt_succ_self _, fun tx' kept => ?_, fun other locked named => ?_⟩
    · simp only [opened, Function.update_self] at kept
      cases kept
      exact same
    · exact absurd (logged.holder other locked) (not_lt.mpr (le_of_eq named.symm))
  have reads : ReadsAt before.nextHandle ts middle :=
    later.invariant (fun _ _ _ reads _ taken => reads.next taken) begun
  have since := Since.run (step.trans later)
  have apart : ∀ early, before.committing = some early → commit.handle ≠ early.handle :=
    fun early locked => own ▸ Nat.ne_of_gt (logged.holder early locked)
  refine ⟨logged, logged_of_run ((run.trans step).trans later), since, held, unchecked, ?_, ?_,
    apart⟩
  · rw [reads.held commit held own]
    exact reached
  · rcases since.held commit held with late | ⟨early, locked, _, named, _⟩
    · exact late
    · exact absurd named (apart early locked)

/-- A check that passes has no overlapping version after the read time to find. -/
private theorem Reached.seen {middle : System} {commit : InFlight}
    (facts : Reached ext before middle commit)
    (passes : middle.store.firstConflict ext commit.tx commit.commitTs = none) {outcome : Outcome}
    (member : outcome ∈ middle.outcomes) (earlier : outcome.commitTs < commit.commitTs)
    (overlaps : middle.store.Overlaps ext outcome.written commit.tx) :
    outcome.commitTs ≤ commit.tx.readTs := by
  by_contra after
  obtain ⟨quad, inside, w, buffered, covers⟩ := overlaps
  obtain ⟨stamp, stored⟩ := facts.logged'.stored outcome member quad inside
  have conflicts := TripleStore.firstConflict_of_overlap (facts.logged'.dated.orders .gspo) stored
    (stamp ▸ not_le.mp after) (stamp ▸ le_of_lt earlier) buffered covers
  rw [passes] at conflicts
  cases conflicts

/--
First committer wins, exactly when no overlapping commit raced with the transaction's begin.

Where the check fails for another version the transaction is rejected all the same.
-/
theorem noLostUpdate_iff {inlineMax : Nat} {vocabulary : Vocabulary} {canonical : Bool}
    (run : Runs (System.next ext) Counts (fresh inlineMax vocabulary canonical) before)
    {action : Action} {ts : Timestamp}
    (starts : action = .begin ∨ ∃ readTs, action = .beginAt readTs)
    (hands : before.handed action = some ts) (taken : before.next ext action = some after)
    {middle : System} (later : Runs (System.next ext) Counts after middle) {commit : InFlight}
    (held : middle.committing = some commit) (own : commit.handle = before.nextHandle)
    (unchecked : commit.checked = false) :
    NoLostUpdate ext before middle commit ↔
      (middle.store.firstConflict ext commit.tx commit.commitTs = none →
        Unraced ext before middle commit) := by
  have facts := reached_of_run run starts hands taken later held own unchecked
  constructor
  · -- A pending overlapping commit has returned by now, and its versions pass unnoticed.
    intro safe passes early locked stamp overlaps
    have writes : before.pending ext ≠ [] := by
      obtain ⟨quad, inside, _⟩ := overlaps
      exact List.ne_nil_of_mem inside
    rcases facts.since.finished early locked writes with
      ⟨other, same, _, named, _⟩ | ⟨outcome, member, same, wrote⟩
    · cases held.symm.trans same
      exact facts.apart early locked named
    · have earlier : outcome.commitTs < commit.commitTs := by
        rw [same, ← (facts.logged.dated.lock early locked).1]
        exact facts.late
      rcases safe middle outcome (.done _) member earlier (wrote ▸ overlaps) with
        ⟨old, _⟩ | ⟨conflict, rejected⟩
      · have before_ := (facts.logged.returned outcome old).2 early locked
        exact absurd same (ne_of_lt before_)
      · have passed : middle.next ext .check =
            some { middle with committing := some { commit with checked := true } } := by
          simp [System.next, held, unchecked, passes]
        have same := congrArg System.committing (Option.some.inj (passed.symm.trans rejected))
        cases same
  · intro unraced last outcome more member earlier overlaps
    cases conflicts : middle.store.firstConflict ext commit.tx commit.commitTs with
    | some conflict =>
      refine Or.inr ⟨conflict, ?_⟩
      simp [System.next, held, unchecked, conflicts]
    | none =>
      -- Whatever returns after the check has a later timestamp.
      have returned : outcome ∈ middle.outcomes := by
        have top := (facts.logged'.dated.lock commit held).1
        rcases (Since.run more).returned outcome member with old | after | ⟨other, same, stamp, _⟩
        · exact old
        · exact absurd earlier (not_lt.mpr (top ▸ le_of_lt after))
        · cases held.symm.trans same
          exact absurd stamp (ne_of_lt earlier)
      have seen := facts.seen conflicts returned earlier overlaps
      have flushed : outcome ∈ before.outcomes := by
        rcases facts.since.returned outcome returned with old | after | ⟨early, locked, stamp, wrote⟩
        · exact old
        · exact absurd (seen.trans facts.reads) (not_le.mpr after)
        · have same : early.commitTs = commit.tx.readTs := by
            refine le_antisymm (stamp ▸ seen) ?_
            rw [← (facts.logged.dated.lock early locked).1]
            exact facts.reads
          rcases wrote with wrote | wrote
          · exact absurd (wrote ▸ overlaps) (unraced conflicts early locked same)
          · obtain ⟨quad, inside, _⟩ := overlaps
            rw [wrote] at inside
            simp at inside
      refine Or.inl ⟨flushed, fun quad inside => ?_⟩
      obtain ⟨stamp, stored⟩ := facts.logged.stored outcome flushed quad inside
      exact ⟨stamp ▸ seen, stored⟩

/-- The conflict check of a transaction that runs alone is exact. -/
theorem noLostUpdate_iff_alone : ∃ after middle commit,
    (fresh 256 Vocabulary.default true).next External.unreached .begin = some after ∧
    Runs (System.next External.unreached) Counts after middle ∧
    middle.committing = some commit ∧
    (NoLostUpdate External.unreached (fresh 256 Vocabulary.default true) middle commit ↔
      (middle.store.firstConflict External.unreached commit.tx commit.commitTs = none →
        Unraced External.unreached (fresh 256 Vocabulary.default true) middle commit)) := by
  have begun : (fresh 256 Vocabulary.default true).handed .begin = some Timestamp.zero := rfl
  have reached : ((fresh 256 Vocabulary.default true).next External.unreached .begin).bind
      (fun after => (after.after External.unreached [.insertIn 0 knows GraphId.DEFAULT .auto,
        .publish 0 Timestamp.zero]).map (fun middle =>
          middle.committing.map (fun commit => (commit.handle, commit.checked)))) =
      some (some (0, false)) := by decide +kernel
  obtain ⟨after, taken, more⟩ := Option.bind_eq_some_iff.mp reached
  obtain ⟨middle, run, locked⟩ := Option.map_eq_some_iff.mp more
  obtain ⟨commit, held, shape⟩ := Option.map_eq_some_iff.mp locked
  obtain ⟨own, unchecked⟩ := Prod.mk.inj shape
  exact ⟨after, middle, commit, taken, Runs.of_stepAll run, held,
    noLostUpdate_iff (.done _) (Or.inl rfl) begun taken (Runs.of_stepAll run) held own unchecked⟩

/-- A second transaction begins between the first one's publication and its flush. -/
def racing : Option (System × System × System) := do
  let before ← (fresh 256 Vocabulary.default true).after External.unreached published
  let after ← before.next External.unreached .begin
  let middle ← after.after External.unreached
    [.check, .flush, .insertIn 1 knows GraphId.DEFAULT .auto, .publish 1 Timestamp.zero]
  return (before, after, middle)

/-- The race is a run. -/
private theorem runs_of_racing {middle : System}
    (ran : racing = some (before, after, middle)) :
    Runs (System.next External.unreached) Counts (fresh 256 Vocabulary.default true) before ∧
      before.next External.unreached .begin = some after ∧
      Runs (System.next External.unreached) Counts after middle := by
  unfold racing at ran
  obtain ⟨first, published, ran⟩ := Option.bind_eq_some_iff.mp ran
  obtain ⟨second, begun, ran⟩ := Option.bind_eq_some_iff.mp ran
  obtain ⟨third, checked, same⟩ := Option.bind_eq_some_iff.mp ran
  cases same
  exact ⟨Runs.of_stepAll published, begun, Runs.of_stepAll checked⟩

/-- The relation as the first commit of a new store stages it. -/
def staged : StagedQuad :=
  ⟨⟨recorded.1, Timestamp.wrap 1⟩, encodeRelation ⟨(NodeId.ofByte 3).uuid⟩ knows.temporal⟩

/-- Two commits write the same quad, and the second began before the first was flushed. -/
theorem begin_loses_update : ∃ before after middle commit,
    Runs (System.next External.unreached) Counts (fresh 256 Vocabulary.default true) before ∧
    before.next External.unreached .begin = some after ∧
    Runs (System.next External.unreached) Counts after middle ∧
    middle.committing = some commit ∧ commit.handle = before.nextHandle ∧
    ¬ NoLostUpdate External.unreached before middle commit := by
  have early : racing.map (fun run => (run.1.nextHandle, run.1.outcomes.length)) = some (1, 0) := by
    decide +kernel
  have late : racing.map (fun run => run.2.2.committing.map (fun commit =>
      ((commit.handle, commit.commitTs, commit.checked), commit.tx.writes))) =
      some (some ((1, Timestamp.wrap 2, false), [⟨knows, GraphId.DEFAULT, .auto⟩])) := by
    decide +kernel
  have log : racing.map (fun run => (run.2.2.store.predicateId "knows",
      run.2.2.outcomes.map (fun outcome => (outcome.commitTs, outcome.written)))) =
      some (some 1, [(Timestamp.wrap 1, [staged])]) := by decide +kernel
  have check : racing.bind (fun run => run.2.2.committing.map (fun commit =>
      (run.2.2.store.firstConflict External.unreached commit.tx commit.commitTs).isNone)) =
      some true := by decide +kernel
  obtain ⟨⟨before, after, middle⟩, ran, counted⟩ := Option.map_eq_some_iff.mp early
  rw [ran] at late log check
  simp only [Prod.mk.injEq, Option.map_some, Option.some.injEq, Option.bind_some] at counted late log check
  obtain ⟨commit, held, shape⟩ := Option.map_eq_some_iff.mp late
  simp only [Prod.mk.injEq] at shape
  obtain ⟨⟨own, stamp, unchecked⟩, writes⟩ := shape
  obtain ⟨known, returned⟩ := log
  rw [held, Option.map_some, Option.some.injEq, Option.isNone_iff_eq_none] at check
  obtain ⟨run, taken, later⟩ := runs_of_racing ran
  refine ⟨before, after, middle, commit, run, taken, later, held, own.trans counted.1.symm,
    fun safe => ?_⟩
  obtain ⟨outcome, member, wrote⟩ : ∃ outcome ∈ middle.outcomes,
      (outcome.commitTs, outcome.written) = (Timestamp.wrap 1, [staged]) :=
    List.mem_map.mp (returned ▸ List.mem_singleton_self _)
  obtain ⟨earlier, wrote⟩ := Prod.mk.inj wrote
  have overlaps : middle.store.Overlaps External.unreached outcome.written commit.tx :=
    ⟨staged, wrote ▸ List.mem_singleton_self _, ⟨knows, GraphId.DEFAULT, .auto⟩,
      writes ▸ List.mem_singleton_self _, known, rfl, rfl, rfl⟩
  rcases safe middle outcome (.done _) member (by rw [earlier, stamp]; decide) overlaps with
    ⟨old, _⟩ | ⟨conflict, rejected⟩
  · rw [List.length_eq_zero_iff.mp counted.2] at old
    simp at old
  · simp [System.next, held, unchecked, check, finish] at rejected

end System

end Polargraph
