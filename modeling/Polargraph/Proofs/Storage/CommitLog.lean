import Polargraph.Proofs.Storage.LogEntry
import Polargraph.Proofs.Storage.System

/-! The change log of concurrent transactions holds the commits after its floor. -/

namespace Polargraph

namespace System

/--
The log holds entries of logged commits only, and those of all of them after its floor.

Commits return in the order of their timestamps, and the counter shows the latest of them.
-/
structure LogDated (system : System) : Prop where
  /-- The counter is past the epoch. -/
  positive : Timestamp.zero ≤ system.store.committed
  /-- The counter can advance. -/
  room : system.store.committed ≠ Timestamp.END_OF_TIME
  /-- Commits are dated by the counter. -/
  dated : ∀ outcome ∈ system.outcomes,
    Timestamp.zero < outcome.commitTs ∧ outcome.commitTs ≤ system.store.committed
  /-- Commits return in the order of their timestamps. -/
  inOrder : system.outcomes.Pairwise (fun left right => left.commitTs < right.commitTs)
  /-- The commit in progress is later than those that returned. -/
  lock : ∀ commit, system.committing = some commit → system.store.committed = commit.commitTs ∧
    Timestamp.zero < commit.commitTs ∧ ∀ outcome ∈ system.outcomes, outcome.commitTs < commit.commitTs
  /-- Every entry is that of a logged commit. -/
  entries : ∀ entry ∈ (system.store.db.family .chg).entries, ∃ outcome ∈ system.outcomes,
    outcome.logged = true ∧ entry = (outcome.commitTs.toBeBytes, outcome.entry)
  /-- Every logged commit after the floor has its entry. -/
  kept : ∀ outcome ∈ system.outcomes, outcome.logged = true →
    system.store.changesFloor < outcome.commitTs →
      (outcome.commitTs.toBeBytes, outcome.entry) ∈ (system.store.db.family .chg).entries

variable {ext : External} {system after : System}

/-- The counter stays below its largest value. -/
def Advances (system : System) : Action → Prop
  | .publish _ wall => (system.store.beginCommit wall).2 ≠ Timestamp.END_OF_TIME
  | _ => True

/-- Entries of earlier commits stay when a later one is logged. -/
theorem mem_chg_flush {store : TripleStore} {tx : Transaction} {commitTs time : Timestamp}
    {entry : Bytes} (earlier : time < commitTs)
    (stored : (time.toBeBytes, entry) ∈ (store.db.family .chg).entries) :
    (time.toBeBytes, entry) ∈ ((store.flush ext tx commitTs).1.db.family .chg).entries := by
  rw [TripleStore.chg_flush]
  split_ifs
  · refine SortedMap.mem_insert.mpr (Or.inr ⟨stored, fun same => ?_⟩)
    exact absurd (Timestamp.toBeBytes_inj same) (ne_of_lt earlier)
  · exact stored

/-- Every step of a transaction keeps the log dated. -/
theorem LogDated.next (sound : system.LogDated) {action : Action} (advances : system.Advances action)
    (taken : system.next ext action = some after) : after.LogDated := by
  obtain ⟨positive, room, dated, inOrder, lock, entries, kept⟩ := sound
  cases next_kind taken with
  | buffer quiet =>
    obtain ⟨store, committing, outcomes⟩ := quiet
    constructor <;> simp only [store, committing, outcomes] <;> assumption
  | publish free held =>
    have later := lt_beginCommit room
    refine ⟨le_of_lt (lt_of_le_of_lt positive (later _)), advances, fun outcome member => ?_, inOrder,
      ?_, entries, kept⟩
    · obtain ⟨past, reached⟩ := dated outcome member
      exact ⟨past, le_of_lt (lt_of_le_of_lt reached (later _))⟩
    · rintro commit ⟨⟩
      exact ⟨rfl, lt_of_le_of_lt positive (later _),
        fun outcome member => lt_of_le_of_lt (dated outcome member).2 (later _)⟩
  | @abort commit conflict held fresh conflicts =>
    obtain ⟨shown, past, latest⟩ := lock commit held
    refine ⟨positive, room, fun outcome member => ?_, ?_, (by rintro other ⟨⟩),
      fun entry member => ?_, fun outcome member logged above => ?_⟩
    · rcases List.mem_append.mp member with old | new
      · exact dated outcome old
      · rw [List.mem_singleton.mp new]
        exact ⟨past, ge_of_eq shown⟩
    · refine List.pairwise_append.mpr ⟨inOrder, List.pairwise_singleton _ _,
        fun outcome member other new => ?_⟩
      rw [List.mem_singleton.mp new]
      exact latest outcome member
    · obtain ⟨outcome, old, logged⟩ := entries entry member
      exact ⟨outcome, List.mem_append_left _ old, logged⟩
    · rcases List.mem_append.mp member with old | new
      · exact kept outcome old logged above
      · rw [List.mem_singleton.mp new] at logged
        cases logged
  | @pass commit held fresh free =>
    refine ⟨positive, room, dated, inOrder, ?_, entries, kept⟩
    rintro same ⟨⟩
    exact lock commit held
  | @flush commit held checked =>
    obtain ⟨shown, past, latest⟩ := lock commit held
    have counter : (system.store.flush ext commit.tx commit.commitTs).1.committed =
        system.store.committed := TripleStore.committed_flush _ _ _
    have floor : (system.store.flush ext commit.tx commit.commitTs).1.changesFloor =
        system.store.changesFloor := TripleStore.changesFloor_flush _ _ _
    refine ⟨?_, ?_, fun outcome member => ?_, ?_, (by rintro other ⟨⟩),
      fun entry member => ?_, fun outcome member logged above => ?_⟩
    · exact le_of_le_of_eq positive counter.symm
    · exact fun same => room (counter.symm.trans same)
    · refine And.imp_right (fun reached => le_of_le_of_eq reached counter.symm) ?_
      rcases List.mem_append.mp member with old | new
      · exact dated outcome old
      · rw [List.mem_singleton.mp new]
        exact ⟨past, ge_of_eq shown⟩
    · refine List.pairwise_append.mpr ⟨inOrder, List.pairwise_singleton _ _,
        fun outcome member other new => ?_⟩
      rw [List.mem_singleton.mp new]
      exact latest outcome member
    · simp only [finish] at member ⊢
      rw [TripleStore.chg_flush] at member
      split_ifs at member with logs
      · rcases SortedMap.mem_insert.mp member with here | ⟨old, _⟩
        · exact ⟨_, List.mem_append_right _ (List.mem_singleton.mpr rfl), logs, here⟩
        · obtain ⟨outcome, before, logged⟩ := entries entry old
          exact ⟨outcome, List.mem_append_left _ before, logged⟩
      · obtain ⟨outcome, before, logged⟩ := entries entry member
        exact ⟨outcome, List.mem_append_left _ before, logged⟩
    · rcases List.mem_append.mp member with old | new
      · exact mem_chg_flush (latest outcome old)
          (kept outcome old logged (lt_of_eq_of_lt floor.symm above))
      · rw [List.mem_singleton.mp new] at logged ⊢
        have logs : system.store.logs ext commit.tx commit.commitTs = true := logged
        simp only [finish, TripleStore.chg_flush, logs, if_true]
        exact SortedMap.mem_insert.mpr (Or.inl rfl)

/-- Pruning keeps the log dated. -/
theorem LogDated.pruneChanges (sound : system.LogDated) (before : Timestamp) :
    LogDated { system with store := (system.store.pruneChanges before).1 } := by
  obtain ⟨positive, room, dated, inOrder, lock, entries, kept⟩ := sound
  refine ⟨positive, room, dated, inOrder, lock, fun entry member => ?_,
    fun outcome member logged above => ?_⟩
  · exact entries entry ((TripleStore.log_pruneChanges system.store before).1 entry member)
  · simp only [TripleStore.changesFloor_pruneChanges, max_lt_iff] at above
    have past := (dated outcome member).1
    rw [TripleStore.chg_pruneChanges, SortedMap.mem_eraseRange]
    refine ⟨kept outcome member logged above.1, fun inside => ?_⟩
    rcases lt_max_iff.mp ((Timestamp.toBeBytes_lt_iff (le_of_lt past) (le_max_right _ _)).mp
      inside.2) with early | negative
    · have floor := Timestamp.lt_iff.mp above.2
      have time := Timestamp.lt_iff.mp early
      have high := before.high
      have low := outcome.commitTs.low
      simp only [Timestamp.clamp] at floor
      omega
    · exact lt_asymm past negative

/-- The log of a new store is dated. -/
theorem logDated_fresh (inlineMax : Nat) (vocabulary : Vocabulary) (canonical : Bool) :
    (start (.configured inlineMax vocabulary canonical)).LogDated where
  positive := le_rfl
  room := show Timestamp.zero ≠ Timestamp.END_OF_TIME by decide
  dated outcome member := absurd member List.not_mem_nil
  inOrder := List.Pairwise.nil
  lock commit held := by cases held
  entries entry member := by
    rw [start, TripleStore.family_configured (by simp)] at member
    cases member
  kept outcome member := absurd member List.not_mem_nil

end System

end Polargraph
