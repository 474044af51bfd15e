import Polargraph.Lib.Assign
import Polargraph.Proofs.Storage.Rewriting

/-! The change log describes the quad index: replaying its entries gives every stored version. -/

namespace Polargraph

/-- A commit with a log entry. -/
structure LoggedCommit where
  /-- The time of the commit. -/
  time : Timestamp
  /-- Who committed. -/
  author : String
  /-- Its graph operations. -/
  ops : List GraphOp
  /-- The quad versions it wrote. -/
  quads : List StagedQuad

namespace LoggedCommit

/-- Its log entry. -/
def entry (commit : LoggedCommit) : Bytes × Bytes :=
  (commit.time.toBeBytes, encodeChange commit.author commit.ops commit.quads)

/-- The quads of its log entry, with their index values. -/
def logged (commit : LoggedCommit) : List (QuadIds × Bytes) :=
  commit.quads.map fun quad => (quad.key.toQuadIds, quad.value)

/-- The numbers of its operations and quads, and the lengths of its values, fit their fields. -/
structure Fits (commit : LoggedCommit) : Prop where
  /-- Operations are counted in two bytes. -/
  ops : commit.ops.length < 2 ^ 16
  /-- Quads are counted in four bytes. -/
  quads : commit.quads.length < 2 ^ 32
  /-- The length of a value has four bytes. -/
  values : ∀ quad ∈ commit.quads, quad.value.length < 2 ^ 32

/-- The versions an index holds at the time of the commit, when its entry describes them. -/
def Describes (commit : LoggedCommit) (index : Index) : Prop :=
  ∀ ids, index ⟨ids, commit.time⟩ = assigned (fun _ => none) commit.logged ids

/-- The versions of a log, replayed one entry after another. -/
def replay (log : List LoggedCommit) : Index :=
  log.foldl (fun index commit =>
    assigned index (commit.logged.map fun quad => (⟨quad.1, commit.time⟩, quad.2))) fun _ => none

/-- The quads of an entry that fits its fields are read from it. -/
theorem Fits.reads {commit : LoggedCommit} (fits : commit.Fits) :
    loggedQuads commit.entry.2 = some commit.logged :=
  loggedQuads_encodeChange fits.ops fits.quads fits.values

end LoggedCommit

/-- Storing versions assigns them. -/
theorem Index.putAll_eq_assigned (index : Index) (quads : List StagedQuad) :
    index.putAll quads = assigned index (quads.map fun quad => (quad.key, quad.value)) := by
  rw [assigned, List.foldl_map]
  rfl

/-- Storing versions of one time assigns the values of their quads at that time. -/
theorem Index.putAll_at (index : Index) {quads : List StagedQuad} {tt : Timestamp}
    (dated : ∀ quad ∈ quads, quad.key.tt = tt) (ids : QuadIds) :
    index.putAll quads ⟨ids, tt⟩ = assigned (fun ids => index ⟨ids, tt⟩)
      (quads.map fun quad => (quad.key.toQuadIds, quad.value)) ids := by
  have keys : quads.map (fun quad => (quad.key, quad.value)) =
      (quads.map fun quad => (quad.key.toQuadIds, quad.value)).map
        fun quad => ((⟨quad.1, tt⟩ : QuadKey), quad.2) := by
    rw [List.map_map]
    apply List.map_congr_left
    intro quad member
    rw [Function.comp_apply, ← dated quad member]
  have injective : Function.Injective fun ids : QuadIds => (⟨ids, tt⟩ : QuadKey) := by
    intro left right same
    exact congrArg QuadKey.toQuadIds same
  rw [Index.putAll_eq_assigned, keys]
  exact assigned_map index injective _ ids

namespace LoggedCommit

/-- The versions of one time are assigned by its entry, and no other time's are. -/
theorem assigned_at (index : Index) (commit : LoggedCommit) (key : QuadKey) :
    assigned index (commit.logged.map fun quad => (⟨quad.1, commit.time⟩, quad.2)) key =
      if key.tt = commit.time then
        assigned (fun ids => index ⟨ids, commit.time⟩) commit.logged key.toQuadIds
      else index key := by
  split_ifs with same
  · have injective : Function.Injective fun ids : QuadIds => (⟨ids, commit.time⟩ : QuadKey) := by
      intro left right equal
      exact congrArg QuadKey.toQuadIds equal
    have own : key = ⟨key.toQuadIds, commit.time⟩ := by rw [← same]
    rw [own]
    exact assigned_map index injective commit.logged key.toQuadIds
  · refine assigned_of_forall_ne index fun pair member equal => same ?_
    obtain ⟨quad, _, rfl⟩ := List.mem_map.mp member
    rw [← equal]

/-- A log without an entry of a time replays no version of the time. -/
theorem replay_of_forall_ne {log : List LoggedCommit} {key : QuadKey}
    (apart : ∀ commit ∈ log, key.tt ≠ commit.time) : replay log key = none := by
  -- The induction is on the last entry.
  induction log using List.reverseRecOn with
  | nil => rfl
  | append_singleton log last ih =>
    rw [replay, List.foldl_append, ← replay, List.foldl_cons, List.foldl_nil, assigned_at,
      if_neg (apart last (by simp))]
    exact ih fun commit member => apart commit (List.mem_append_left _ member)

/-- Every entry describes the replayed versions of its time, when all have different times. -/
theorem describes_replay {log : List LoggedCommit}
    (times : log.Pairwise fun left right => left.time ≠ right.time) {commit : LoggedCommit}
    (member : commit ∈ log) : commit.Describes (replay log) := by
  induction log using List.reverseRecOn with
  | nil => cases member
  | append_singleton log last ih =>
    obtain ⟨before, _, apart⟩ := List.pairwise_append.mp times
    intro ids
    rw [replay, List.foldl_append, ← replay, List.foldl_cons, List.foldl_nil, assigned_at]
    rcases List.mem_append.mp member with earlier | own
    · rw [if_neg (apart commit earlier last (List.mem_singleton_self _))]
      exact ih before earlier ids
    · obtain rfl := List.mem_singleton.mp own
      -- Nothing was replayed at this time before.
      have fresh : (fun ids => replay log ⟨ids, commit.time⟩) = fun _ => none := by
        funext ids
        exact replay_of_forall_ne fun other within equal =>
          apart other within commit (List.mem_singleton_self _) equal.symm
      rw [if_pos rfl, fresh]

end LoggedCommit

namespace TripleStore

variable {ext : External} {store after : TripleStore}

/-- A flush that fails stages nothing. -/
theorem stagedQuads_of_error {tx : Transaction} {commitTs : Timestamp} {problem : StorageError}
    (failed : (store.flush ext tx commitTs).2 = .error problem) :
    store.stagedQuads ext tx commitTs = [] := by
  revert failed
  exact flush_rule ext store tx commitTs (fun _ _ => rfl) fun _ _ _ _ _ failed => by cases failed

/-- What a commit does to the log: it adds the entry of its versions, or it writes no versions. -/
theorem chg_commit (store : TripleStore) (tx : Transaction) (wall : Timestamp) :
    (store.commit ext tx wall).1.db.family .chg = store.db.family .chg ∧
      store.commitQuads ext tx wall = [] ∧
        ((store.commit ext tx wall).2.isOk → tx.isEmpty = true ∨ tx.graphOps = []) ∨
    (store.commit ext tx wall).1.db.family .chg =
      (store.db.family .chg).insert (store.commit ext tx wall).1.committed.toBeBytes
        (encodeChange tx.author tx.graphOps (store.commitQuads ext tx wall)) ∧
      (store.commit ext tx wall).1.committed = store.nextCommitTs wall ∧
        (tx.graphOps.isEmpty && (store.commitQuads ext tx wall).isEmpty) = false := by
  refine commit_rule ext store tx wall (fun empty => Or.inl ⟨rfl, rfl, fun _ => Or.inl empty⟩)
    (fun _ => Or.inl ⟨rfl, rfl, fun done => by cases done⟩) fun _ => ?_
  have log := @chg_flush ext (store.beginCommit wall).1 tx (store.beginCommit wall).2
  have counter : ((store.beginCommit wall).1.flush ext tx (store.beginCommit wall).2).1.committed =
      (store.beginCommit wall).2 := committed_flush _ _ _
  cases logs : (store.beginCommit wall).1.logs ext tx (store.beginCommit wall).2 with
  | true =>
    rw [logs] at log
    unfold TripleStore.logs at logs
    refine Or.inr ⟨?_, counter, ?_⟩
    · rw [log, counter]
      rfl
    · rw [Bool.and_eq_true, Bool.not_eq_true'] at logs
      exact logs.2
  | false =>
    rw [logs] at log
    unfold TripleStore.logs at logs
    cases done : ((store.beginCommit wall).1.flush ext tx (store.beginCommit wall).2).2 with
    | error problem =>
      refine Or.inl ⟨log, stagedQuads_of_error done, fun succeeded => ?_⟩
      cases succeeded
    | ok time =>
      rw [done] at logs
      simp only [Except.isOk, Except.toBool, Bool.true_and, Bool.not_eq_false',
        Bool.and_eq_true, List.isEmpty_iff] at logs
      exact Or.inl ⟨log, logs.2, fun _ => Or.inr logs.1⟩

/-- The log describes the versions of every order. -/
structure LogDescribes (store : TripleStore) : Prop where
  /-- All orders hold the same versions. -/
  holds : store.db.OrdersHold store.index
  /-- Every version was recorded by the counter. -/
  recorded : ∀ key bytes, store.index key = some bytes → key.tt ≤ store.committed
  /-- Every entry describes the versions of its time. -/
  entries : ∀ entry ∈ (store.db.family .chg).entries, ∃ commit : LoggedCommit,
    entry = commit.entry ∧ commit.time ≤ store.committed ∧ commit.Describes store.index
  /-- Every version has an entry. -/
  covered : ∀ key bytes, store.index key = some bytes →
    ∃ entry ∈ (store.db.family .chg).entries, entry.1 = key.tt.toBeBytes

/-- A new store has neither versions nor entries. -/
theorem logDescribes_configured (inlineMax : Nat) (vocabulary : Vocabulary) (canonical : Bool) :
    (configured inlineMax vocabulary canonical).LogDescribes := by
  have orders := configured_orders inlineMax vocabulary canonical
  have index := index_configured inlineMax vocabulary canonical
  refine ⟨index ▸ orders, fun key bytes found => ?_, fun entry member => ?_,
    fun key bytes found => ?_⟩
  · rw [index] at found
    cases found
  · rw [family_configured (by simp)] at member
    cases member
  · rw [index] at found
    cases found

/-- A commit keeps the log describing the versions. -/
theorem LogDescribes.commit (describes : store.LogDescribes)
    (room : store.committed ≠ Timestamp.END_OF_TIME) (tx : Transaction) (wall : Timestamp) :
    (store.commit ext tx wall).1.LogDescribes := by
  obtain ⟨holds, recorded, entries, covered⟩ := describes
  have index := @index_commit ext store holds tx wall
  have orders : (store.commit ext tx wall).1.db.OrdersHold (store.commit ext tx wall).1.index := by
    rw [index]
    exact fun order => commit_holds ext store (holds order) tx wall
  obtain ⟨later, stamped⟩ := @committed_commit ext store room tx wall
  rcases @chg_commit ext store tx wall with ⟨log, nothing, _⟩ | ⟨log, time, _⟩
  · have same : (store.commit ext tx wall).1.index = store.index := by
      rw [index, nothing]
      rfl
    refine ⟨orders, ?_, ?_, ?_⟩
    · intro key bytes found
      rw [same] at found
      exact le_trans (recorded key bytes found) later
    · rw [log, same]
      intro entry member
      obtain ⟨commit, own, reached, described⟩ := entries entry member
      exact ⟨commit, own, le_trans reached later, described⟩
    · rw [log, same]
      exact covered
  · -- The commit is later than everything that is stored.
    have past : store.committed < (store.commit ext tx wall).1.committed := by
      rw [time]
      exact lt_of_lt_of_le (Timestamp.lt_wrap_succ room) (le_max_left _ _)
    have others : ∀ key : QuadKey, key.tt ≠ (store.commit ext tx wall).1.committed →
        (store.commit ext tx wall).1.index key = store.index key := by
      intro key apart
      rw [index]
      refine Index.putAll_of_forall_ne _ fun quad member equal => apart ?_
      rw [← stamped quad member, equal]
    generalize (store.commit ext tx wall).1 = after at *
    refine ⟨orders, ?_, ?_, ?_⟩
    · intro key bytes found
      rw [index] at found
      rcases Index.putAll_eq_some found with old | new
      · exact le_trans (recorded key bytes old) later
      · exact le_of_eq (stamped _ new)
    · rw [log]
      intro entry member
      rcases SortedMap.mem_insert.mp member with own | ⟨old, _⟩
      · refine ⟨⟨after.committed, tx.author, tx.graphOps, store.commitQuads ext tx wall⟩, own,
          le_rfl, fun ids => ?_⟩
        have fresh : (fun ids => store.index ⟨ids, after.committed⟩) = fun _ => none := by
          funext ids
          by_contra found
          obtain ⟨bytes, found⟩ := Option.ne_none_iff_exists'.mp found
          exact absurd (recorded _ _ found) (not_le_of_gt past)
        rw [index, Index.putAll_at store.index stamped ids, fresh]
        rfl
      · obtain ⟨commit, own, reached, described⟩ := entries entry old
        refine ⟨commit, own, le_trans reached later, fun ids => ?_⟩
        rw [others ⟨ids, commit.time⟩ (ne_of_lt (lt_of_le_of_lt reached past))]
        exact described ids
    · rw [log]
      intro key bytes found
      by_cases own : key.tt = after.committed
      · exact ⟨_, SortedMap.mem_insert.mpr (Or.inl rfl), by rw [own]⟩
      · rw [others key own] at found
        obtain ⟨entry, member, named⟩ := covered key bytes found
        refine ⟨entry, SortedMap.mem_insert.mpr (Or.inr ⟨member, fun same => own ?_⟩), named⟩
        exact Timestamp.toBeBytes_inj (named.symm.trans same)

/-- Interning a graph keeps the log describing the versions. -/
theorem LogDescribes.internGraph (describes : store.LogDescribes) {iri : String} {g : GraphId}
    (done : store.internGraph ext iri = .ok (after, g)) : after.LogDescribes := by
  obtain ⟨holds, recorded, entries, covered⟩ := describes
  have orders := internGraph_orders holds done
  have index : after.index = store.index := Db.OrdersHold.index_eq orders
  have log := @family_internGraph ext store after iri g done .chg (by simp) (by simp)
  have counter : after.committed = store.committed := by
    unfold TripleStore.internGraph at done
    split_ifs at done
    split at done
    · cases done
      rfl
    · obtain ⟨_, _, done⟩ := Except.bind_eq_ok.mp done
      cases done
      rfl
  refine ⟨index ▸ orders, ?_, ?_, ?_⟩
  · rw [index, counter]
    exact recorded
  · rw [log, index, counter]
    exact entries
  · rw [log, index]
    exact covered

/-- Stores that only commits have written to, while their counter could advance. -/
inductive WrittenByCommits (ext : External) : TripleStore → Prop
  /-- A new store, whatever its inline threshold and vocabulary. -/
  | create (inlineMax : Nat) (vocabulary : Vocabulary) (canonical : Bool) :
      WrittenByCommits ext (configured inlineMax vocabulary canonical)
  /-- A transaction commits, or fails to. -/
  | commit {store : TripleStore} (tx : Transaction) (wall : Timestamp) : WrittenByCommits ext store →
      store.committed ≠ Timestamp.END_OF_TIME → WrittenByCommits ext (store.commit ext tx wall).1
  /-- A graph IRI is interned. -/
  | internGraph {store after : TripleStore} {iri : String} {g : GraphId} :
      WrittenByCommits ext store → store.internGraph ext iri = .ok (after, g) →
        WrittenByCommits ext after

/-- The log of a store that only commits have written to describes its versions. -/
theorem WrittenByCommits.logDescribes (written : WrittenByCommits ext store) :
    store.LogDescribes := by
  induction written with
  | create inlineMax vocabulary canonical => exact logDescribes_configured ..
  | commit tx wall _ room ih => exact ih.commit room tx wall
  | internGraph _ done ih => exact ih.internGraph done

/-- A log whose entries describe all versions replays to them. -/
theorem LogDescribes.exists_replay (describes : store.LogDescribes) :
    ∃ log : List LoggedCommit, (store.db.family .chg).entries = log.map LoggedCommit.entry ∧
      (∀ order, store.db.orderIndex order = LoggedCommit.replay log) ∧
        ∀ commit ∈ log, commit.Fits → loggedQuads commit.entry.2 = some commit.logged := by
  obtain ⟨holds, _, entries, covered⟩ := describes
  -- Each entry is that of some commit.
  have listed : ∀ pairs : List (Bytes × Bytes), (∀ entry ∈ pairs, ∃ commit : LoggedCommit,
      entry = commit.entry ∧ commit.Describes store.index) →
        ∃ log : List LoggedCommit, pairs = log.map LoggedCommit.entry ∧
          ∀ commit ∈ log, commit.Describes store.index := by
    intro pairs
    induction pairs with
    | nil => exact fun _ => ⟨[], rfl, by simp⟩
    | cons entry rest ih =>
      intro all
      obtain ⟨⟨commit, own, described⟩, others⟩ := List.forall_mem_cons.mp all
      obtain ⟨log, same, within⟩ := ih others
      exact ⟨commit :: log, by rw [own, same]; rfl, List.forall_mem_cons.mpr ⟨described, within⟩⟩
  obtain ⟨log, same, described⟩ := listed _ fun entry member =>
    (entries entry member).imp fun _ facts => ⟨facts.1, facts.2.2⟩
  have times : log.Pairwise fun left right => left.time ≠ right.time := by
    have sorted := (store.db.family .chg).sorted
    rw [same, List.pairwise_map] at sorted
    refine sorted.imp fun {left right} earlier equal => ?_
    rw [LoggedCommit.entry, LoggedCommit.entry, equal] at earlier
    exact lt_irrefl _ earlier
  refine ⟨log, same, fun order => ?_, fun commit _ fits => fits.reads⟩
  rw [(holds order).orderIndex_eq]
  funext key
  by_cases dated : ∃ commit ∈ log, key.tt = commit.time
  · obtain ⟨commit, member, time⟩ := dated
    have own : key = ⟨key.toQuadIds, commit.time⟩ := by rw [← time]
    rw [own, described commit member, LoggedCommit.describes_replay times member]
  · have apart : ∀ commit ∈ log, key.tt ≠ commit.time := fun commit member time =>
      dated ⟨commit, member, time⟩
    rw [LoggedCommit.replay_of_forall_ne apart]
    by_contra found
    obtain ⟨bytes, found⟩ := Option.ne_none_iff_exists'.mp found
    obtain ⟨entry, member, named⟩ := covered key bytes found
    rw [same] at member
    obtain ⟨commit, within, rfl⟩ := List.mem_map.mp member
    exact apart commit within (Timestamp.toBeBytes_inj named).symm

/--
The log entry of a committed transaction describes what every order got at its time.

A transaction without quads and graph operations has no entry.
-/
structure Describes (before after : TripleStore) (tx : Transaction) (time : Timestamp)
    (commit : LoggedCommit) : Prop where
  /-- The entry is that of the transaction. -/
  own : commit.time = time ∧ commit.author = tx.author ∧ commit.ops = tx.graphOps
  /-- It is stored unless it is empty. -/
  stored : after.db.get .chg time.toBeBytes =
    if commit.ops.isEmpty && commit.quads.isEmpty then none else some commit.entry.2
  /-- Its quads, put in order into an empty map, are the versions of every order at the time. -/
  described : ∀ order, commit.Describes (after.db.orderIndex order)
  /-- The versions of other times are those from before. -/
  others : ∀ order key, key.tt ≠ time → after.db.orderIndex order key = before.db.orderIndex order key
  /-- The quads are read from the entry when they fit its fields. -/
  reads : commit.Fits → loggedQuads commit.entry.2 = some commit.logged

/-- A transaction that commits something gets the next commit time. -/
theorem commit_time {tx : Transaction} {wall time : Timestamp} (full : tx.isEmpty = false)
    (done : store.commit ext tx wall = (after, .ok time)) :
    time = store.nextCommitTs wall ∧ after.committed = time := by
  rcases commit_ok done with ⟨empty, _⟩ | ⟨_, rfl, middle, staging, batch, staged, _, rfl, _⟩
  · rw [full] at empty
    cases empty
  · have counter := @committed_stageWrites ext (store.nextCommitTs wall) (store.beginCommit wall).1
      Staging.none tx.writes
    rw [staged] at counter
    exact ⟨rfl, counter⟩

/--
The change log describes the quad index exactly.

Its entries replay to the versions of every order, and each commit's entry to those of its time.
-/
def LogExact (ext : External) (store : TripleStore) : Prop :=
  (∃ log : List LoggedCommit, (store.db.family .chg).entries = log.map LoggedCommit.entry ∧
    (∀ order, store.db.orderIndex order = LoggedCommit.replay log) ∧
      ∀ commit ∈ log, commit.Fits → loggedQuads commit.entry.2 = some commit.logged) ∧
  ∀ (tx : Transaction) (wall time : Timestamp) (after : TripleStore),
    tx.isEmpty = false → store.committed ≠ Timestamp.END_OF_TIME →
      store.commit ext tx wall = (after, .ok time) → ∃ commit, Describes store after tx time commit

end TripleStore

end Polargraph
