import Polargraph.Proofs.Storage.ChangeLog
import Polargraph.Proofs.Storage.Decoding
import Polargraph.Proofs.Storage.Maintenance

/-! What a commit logs decodes, and stays readable as long as the sweep spares the values it refers to. -/

namespace Polargraph

/-- Every interned name has an identifier that names something. -/
def TripleStore.Interned (store : TripleStore) : Prop :=
  ∀ name id, store.fwd name = some id → (store.rev id).isSome

/-- What was staged so far can be read back from the log. -/
structure Staging.Readable (ext : External) (staging : Staging) (store : TripleStore) : Prop where
  /-- The staged versions decode, and their predicates are interned. -/
  quads : ∀ quad ∈ staging.quads, Decodes ext quad.value ∧ (store.rev quad.key.p).isSome
  /-- So do the values a later write may close. -/
  values : ∀ name, ∀ value ∈ staging.slot name, Decodes ext value.2
  /-- The out-of-line values put by the batch decode. -/
  blobs : ∀ hash payload, .put .blob hash payload ∈ staging.batch →
    ∃ read, decodeBlob ext payload = .ok read

/-- Readable staging stays readable where more identifiers are named. -/
theorem Staging.Readable.mono {ext : External} {staging : Staging}
    {store after : TripleStore}
    (readable : staging.Readable ext store)
    (names : ∀ id, (store.rev id).isSome → (after.rev id).isSome) : staging.Readable ext after :=
  ⟨fun quad member => ⟨(readable.quads quad member).1, names _ (readable.quads quad member).2⟩,
    readable.values, readable.blobs⟩

/-- The property value of a write, if any, reads back. -/
def PendingWrite.ReadsBack (ext : External) (w : PendingWrite) : Prop :=
  ∀ subject predicate value temporal, w.triple = .property subject predicate value temporal →
    value.ReadsBack ext

namespace TripleStore

variable {ext : External} {store : TripleStore}

/-- Interning keeps every identifier named. -/
theorem rev_internPredicate (pred : String) {id : PredId} (named : (store.rev id).isSome) :
    ((store.internPredicate pred).1.rev id).isSome := by
  simp only [internPredicate]
  split
  · exact named
  · simp only [Function.update_apply]
    split_ifs
    · rfl
    · exact named

/-- Interning keeps every name interned, and interns its own. -/
theorem Interned.internPredicate (interned : store.Interned) (pred : String) :
    (store.internPredicate pred).1.Interned ∧
      ((store.internPredicate pred).1.rev (store.internPredicate pred).2).isSome := by
  cases known : store.fwd (store.canonicalName pred) with
  | some id =>
    simp only [TripleStore.internPredicate, known]
    exact ⟨interned, interned _ _ known⟩
  | none =>
    simp only [TripleStore.internPredicate, known]
    refine ⟨fun name id found => ?_, by simp⟩
    simp only [Function.update_apply] at found ⊢
    split_ifs with same
    · rfl
    · split_ifs at found
      · exact absurd (Option.some.inj found).symm same
      · exact interned _ _ found

/-- An encoded entry reads back, and so does the payload it puts. -/
private theorem encodePropertyEntry_reads {batch blobs : WriteBatch} {value : Value}
    {temporal : BiTemporalRange} {bytes : Bytes} (readsBack : value.ReadsBack ext)
    (encoded : store.encodePropertyEntry ext batch value temporal = .ok (batch ++ blobs, bytes)) :
    Decodes ext bytes ∧ ∀ hash payload, .put .blob hash payload ∈ blobs →
      ∃ read, decodeBlob ext payload = .ok read := by
  rcases encodePropertyEntry_cases encoded with ⟨inline, same⟩ | ⟨payload, blob, rfl, same⟩
  · obtain rfl : blobs = [] := by simpa using same
    exact ⟨decodes_encodeProperty readsBack inline, by simp⟩
  · obtain rfl := List.append_cancel_left same
    refine ⟨decodes_encodePropertyRef temporal, fun hash other member => ?_⟩
    cases List.mem_singleton.mp member
    exact decodeBlob_encodeBlob readsBack blob

/-- Staging one write keeps what is staged readable. -/
theorem stageWrite_readable {index : Index} (holds : store.db.OrderHolds .gspo index)
    (decodes : ∀ key bytes, index key = some bytes → Decodes ext bytes) {tt : Timestamp}
    {p : PredId} (named : (store.rev p).isSome) {staging next : Staging} {w : PendingWrite}
    (readsBack : w.ReadsBack ext) (readable : staging.Readable ext store)
    (done : store.stageWrite ext tt p staging w = .ok next) : next.Readable ext store := by
  obtain ⟨triple, g, mode⟩ := w
  cases triple with
  | relation subject predicate object edgeId window =>
    cases done
    refine ⟨fun quad member => ?_, readable.values, fun hash payload member => ?_⟩
    · rcases List.mem_append.mp member with old | new
      · exact readable.quads quad old
      · rw [List.mem_singleton.mp new]
        exact ⟨decodes_encodeRelation _ _, named⟩
    · rcases List.mem_append.mp member with old | new
      · exact readable.blobs hash payload old
      · obtain ⟨order, same⟩ := batchQuads_cf new
        cases same
  | property subject predicate value window =>
    obtain ⟨blobs, bytes, closing, encoded, _, closed, quads, batch, values⟩ :=
      stageWrite_property done
    obtain ⟨own, payloads⟩ := encodePropertyEntry_reads (readsBack _ _ _ _ rfl) encoded
    refine ⟨fun quad member => ?_, fun name held member => ?_, fun hash payload member => ?_⟩
    · rw [quads] at member
      rcases List.mem_append.mp member with before | new
      · exact readable.quads quad before
      · rcases List.mem_append.mp new with closes | here
        · obtain ⟨bytes', closing', key, from_⟩ := mem_stageClosings holds closed closes
          rw [key, decodes_withVtEnd closing']
          refine ⟨?_, named⟩
          rcases from_ with staged | ⟨time, stored⟩
          · exact readable.values (subject, p, g) _ staged
          · exact decodes _ _ stored
        · rw [List.mem_singleton.mp here]
          exact ⟨own, named⟩
    · by_cases slot : name = (subject, p, g)
      · subst slot
        rw [Staging.slot, values, Latest.lookup_entryUpdate_self, Option.getD_some] at member
        rcases List.mem_append.mp member with before | here
        · split_ifs at before
          · simp at before
          · exact readable.values (subject, p, g) held before
        · rw [List.mem_singleton.mp here]
          exact own
      · rw [Staging.slot, values, Latest.lookup_entryUpdate_ne slot] at member
        exact readable.values name held member
    · rw [batch] at member
      simp only [List.mem_append] at member
      rcases member with ((before | blob) | staged) | text
      · exact readable.blobs hash payload before
      · exact payloads hash payload blob
      · obtain ⟨order, same⟩ := batchQuads_cf staged
        cases same
      · cases batchTextTrigrams_cf text
  | edgeProperty edge predicate value window =>
    obtain ⟨bytes, _, done⟩ := Except.bind_eq_ok.mp done
    cases done
    refine ⟨readable.quads, readable.values, fun hash payload member => ?_⟩
    rcases List.mem_append.mp member with old | new
    · exact readable.blobs hash payload old
    · simp [batchEpa] at new
  | edgeRelation edge predicate object window =>
    cases done
    refine ⟨readable.quads, readable.values, fun hash payload member => ?_⟩
    rcases List.mem_append.mp member with old | new
    · exact readable.blobs hash payload old
    · simp [batchEpo] at new

/-- Staging keeps identifiers named and names interned. -/
theorem stageWrites_interned (ext : External) (tt : Timestamp) (interned : store.Interned)
    (staging : Staging) (writes : List PendingWrite) :
    (stageWrites ext tt store staging writes).1.Interned ∧
      (∀ id, (store.rev id).isSome →
        ((stageWrites ext tt store staging writes).1.rev id).isSome) := by
  refine stageWrites_keeps ext tt store staging writes ⟨interned, fun _ named => named⟩
    fun before pred held => ⟨(held.1.internPredicate pred).1, fun id named => ?_⟩
  exact rev_internPredicate _ (held.2 id named)

/-- Staging any number of writes keeps what is staged readable. -/
theorem stageWrites_readable {index : Index} {tt : Timestamp} {staging next : Staging}
    {writes : List PendingWrite} {store after : TripleStore} (interned : store.Interned)
    (holds : store.db.OrderHolds .gspo index)
    (decodes : ∀ key bytes, index key = some bytes → Decodes ext bytes)
    (readsBack : ∀ w ∈ writes, w.ReadsBack ext) (readable : staging.Readable ext store)
    (done : stageWrites ext tt store staging writes = (after, .ok next)) :
    next.Readable ext after := by
  refine (stageWrites_ordered (motive := fun store staging => store.Interned ∧
    staging.Readable ext store) holds ⟨interned, readable⟩ done
    fun w member before staging next kept both staged => ?_).2
  obtain ⟨own, named⟩ := both.1.internPredicate w.triple.predicate
  exact ⟨own, stageWrite_readable kept decodes named (readsBack w member)
    (both.2.mono fun id named => rev_internPredicate w.triple.predicate named) staged⟩

/-- Nothing staged is readable. -/
theorem none_readable (store : TripleStore) : Staging.none.Readable ext store where
  quads _ member := absurd member List.not_mem_nil
  values _ _ member := absurd member List.not_mem_nil
  blobs _ _ member := absurd member List.not_mem_nil

/-- What a commit does to the log and to what reading the log needs. -/
structure Logs (ext : External) (store after : TripleStore) (tx : Transaction)
    (quads : List StagedQuad) : Prop where
  /-- The only new entry is that of the commit. -/
  entries : ∀ key entry, (key, entry) ∈ (after.db.family .chg).entries →
    (key, entry) ∈ (store.db.family .chg).entries ∨ entry = encodeChange tx.author tx.graphOps quads
  /-- The floor of the log stays. -/
  floor : after.changesFloor = store.changesFloor
  /-- The new versions decode, and their predicates are interned. -/
  quads : ∀ quad ∈ quads, Decodes ext quad.value ∧ (after.rev quad.key.p).isSome
  /-- The new out-of-line values decode. -/
  blobs : ∀ hash payload, after.db.get .blob hash = some payload →
    store.db.get .blob hash = some payload ∨ ∃ read, decodeBlob ext payload = .ok read
  /-- Names stay interned. -/
  interned : after.Interned
  /-- Identifiers stay named. -/
  names : ∀ id, (store.rev id).isSome → (after.rev id).isSome

/-- A store that stays as it is logs nothing. -/
private theorem logs_nothing (ext : External) (interned : store.Interned) (tx : Transaction) :
    Logs ext store store tx [] where
  entries _ _ member := Or.inl member
  floor := rfl
  quads _ member := absurd member List.not_mem_nil
  blobs _ _ stored := Or.inl stored
  interned := interned
  names _ named := named

/-- The out-of-line values a flush stores decode. -/
private theorem blobs_flush {staging : Staging} {after : TripleStore} {tx : Transaction}
    {commitTs : Timestamp} {batch : WriteBatch} (puts : ∀ op ∈ batch, op.IsPut)
    (readable : staging.Readable ext after)
    (built : after.commitBatch ext tx commitTs staging = .ok batch) {hash payload : Bytes}
    (stored : (after.db.write batch).get .blob hash = some payload) :
    after.db.get .blob hash = some payload ∨ ∃ read, decodeBlob ext payload = .ok read := by
  rcases after.db.get_write_puts puts .blob hash with ⟨_, kept⟩ | ⟨value, put, read⟩
  · exact Or.inl (kept.symm.trans stored)
  · obtain rfl := Option.some.inj (read.symm.trans stored)
    obtain ⟨iris, others, rfl⟩ := commitBatch_parts built
    simp only [List.mem_append, List.mem_singleton] at put
    rcases put with ((staged | change) | iri) | counter
    · exact Or.inr (readable.blobs hash _ staged)
    · cases batchChange_cf change
    · cases others _ iri
    · cases counter

/-- What a flush logs can be read back. -/
theorem flush_logs {index : Index} (interned : store.Interned)
    (holds : store.db.OrderHolds .gspo index) (resolves : index.Resolves store.db)
    (decodes : ∀ key bytes, index key = some bytes → Decodes ext bytes) {tx : Transaction}
    (readsBack : ∀ w ∈ tx.writes, w.ReadsBack ext) (commitTs : Timestamp) :
    Logs ext store (store.flush ext tx commitTs).1 tx (store.stagedQuads ext tx commitTs) := by
  obtain ⟨own, names⟩ := stageWrites_interned ext commitTs interned Staging.none tx.writes
  have floor : (store.flush ext tx commitTs).1.changesFloor = store.changesFloor :=
    changesFloor_flush store tx commitTs
  have entries : ∀ key entry,
      (key, entry) ∈ ((store.flush ext tx commitTs).1.db.family .chg).entries →
      (key, entry) ∈ (store.db.family .chg).entries ∨
        entry = encodeChange tx.author tx.graphOps (store.stagedQuads ext tx commitTs) := by
    intro key entry member
    rw [chg_flush] at member
    split_ifs at member
    · rcases SortedMap.mem_insert.mp member with here | ⟨old, _⟩
      · exact Or.inr (Prod.mk.inj here).2
      · exact Or.inl old
    · exact Or.inl member
  have blob : (stageWrites ext commitTs store Staging.none tx.writes).1.db.family .blob =
      store.db.family .blob := family_stageWrites commitTs store _ _ (by simp)
  revert floor entries
  refine flush_rule ext store tx commitTs (fun _ floor entries => ?_)
    fun after staging batch staged built floor entries => ?_
  · exact ⟨entries, floor, fun _ member => absurd member List.not_mem_nil,
      fun hash payload stored => Or.inl (by rwa [Db.get, blob] at stored), own, names⟩
  · simp only [staged] at own names blob
    have readable := stageWrites_readable interned holds decodes readsBack (none_readable store) staged
    have backed := stageWrites_backed holds resolves (none_backed store.db) staged
    refine ⟨entries, floor, readable.quads, fun hash payload stored => ?_, own, names⟩
    have read := blobs_flush (commitBatch_puts backed.puts built).1 readable built stored
    rwa [Db.get, blob] at read

/-- What a commit logs can be read back. -/
theorem commit_logs {index : Index} (interned : store.Interned)
    (holds : store.db.OrderHolds .gspo index) (resolves : index.Resolves store.db)
    (decodes : ∀ key bytes, index key = some bytes → Decodes ext bytes) {tx : Transaction}
    (readsBack : ∀ w ∈ tx.writes, w.ReadsBack ext) (wall : Timestamp) :
    Logs ext store (store.commit ext tx wall).1 tx (store.commitQuads ext tx wall) := by
  have published : (store.beginCommit wall).1.Interned := interned
  refine commit_rule ext store tx wall (fun _ => logs_nothing ext interned tx) (fun _ => ?_)
    fun _ => ?_
  · obtain ⟨entries, floor, quads, blobs, interned, names⟩ := logs_nothing ext published tx
    exact ⟨entries, floor, quads, blobs, interned, names⟩
  · have flushed := flush_logs published holds resolves decodes readsBack (store.beginCommit wall).2
    exact ⟨flushed.entries, flushed.floor, flushed.quads, flushed.blobs, flushed.interned,
      flushed.names⟩

/-- The log entries a subscriber can still resume before. -/
def readableLog (store : TripleStore) : List (Bytes × Bytes) :=
  (store.db.family .chg).seek (resumeKey store.changesFloor)

variable {ext : External} {store after : TripleStore}

/-- An entry read after a resume point that is not below the floor is readable. -/
theorem readableLog_of_seek {time : Timestamp} (above : store.changesFloor ≤ time)
    {entry : Bytes × Bytes} (member : entry ∈ (store.db.family .chg).seek (resumeKey time)) :
    entry ∈ store.readableLog := by
  obtain ⟨stored, reached⟩ := SortedMap.mem_seek.mp member
  refine SortedMap.mem_seek.mpr ⟨stored, fun below => ?_⟩
  rcases lt_or_ge (resumeKey time) (resumeKey store.changesFloor) with earlier | later
  · exact resumeKey_mono above earlier
  · exact reached (lt_of_lt_of_le below later)

/-- Where nothing is logged and the floor is not lowered, nothing becomes readable. -/
theorem readableLog_of_shrinks
    (log : ∀ entry, entry ∈ (after.db.family .chg).entries → entry ∈ (store.db.family .chg).entries)
    (floor : store.changesFloor ≤ after.changesFloor) {entry : Bytes × Bytes}
    (member : entry ∈ after.readableLog) : entry ∈ store.readableLog := by
  obtain ⟨stored, reached⟩ := SortedMap.mem_seek.mp member
  exact readableLog_of_seek floor (SortedMap.mem_seek.mpr ⟨log _ stored, reached⟩)

end TripleStore

namespace Maintained

/-- A logged version can be rebuilt, and the running sweep leaves it so. -/
structure Kept (ext : External) (state : Maintained) (quad : StagedQuad) : Prop where
  /-- Its value is short enough for its length field. -/
  small : quad.value.length < 2 ^ 32
  /-- Its value decodes. -/
  decodes : Decodes ext quad.value
  /-- Its predicate has a name. -/
  named : (state.store.rev quad.key.p).isSome
  /-- A reference has its out-of-line value. -/
  stored : IsRef quad.value → (state.store.db.get .blob quad.key.o.uuid.bytes).isSome
  /-- The running sweep spares that value. -/
  spared : IsRef quad.value → state.phase.Spares quad.key.o.uuid.bytes

/-- A log entry is the encoding of a commit that can be read back. -/
def Recorded (ext : External) (state : Maintained) (entry : Bytes) : Prop :=
  ∃ author ops quads, entry = encodeChange author ops quads ∧
    (fromUtf8 (authorBytes author)).isSome ∧ ops.length < 2 ^ 16 ∧
    ∀ quad ∈ quads, state.Kept ext quad

/-- Everything that reading the log back needs. -/
structure LogSound (ext : External) (state : Maintained) : Prop where
  /-- No reference is left without its value. -/
  sound : state.Sound
  /-- Names are interned. -/
  interned : state.store.Interned
  /-- The stored versions decode. -/
  decodes : ∀ key bytes, state.store.db.orderIndex .gspo key = some bytes → Decodes ext bytes
  /-- The out-of-line values decode. -/
  blobs : ∀ hash payload, state.store.db.get .blob hash = some payload →
    ∃ read, decodeBlob ext payload = .ok read
  /-- The readable entries can be read back. -/
  log : ∀ entry ∈ state.store.readableLog, state.Recorded ext entry.2

/--
What a commit logs can be read back.

Its author is not cut within a character, its operations and the lengths of its values fit their
counts, and its property values read back from what is written of them.
-/
structure Loggable (ext : External) (store : TripleStore) (tx : Transaction) (wall : Timestamp) :
    Prop where
  /-- The author bytes kept are the encoding of a string. -/
  author : (fromUtf8 (authorBytes tx.author)).isSome
  /-- The operations are counted in two bytes. -/
  ops : tx.graphOps.length < 2 ^ 16
  /-- The property values read back. -/
  values : ∀ w ∈ tx.writes, w.ReadsBack ext
  /-- The length of every value is held in four bytes. -/
  small : ∀ quad ∈ store.commitQuads ext tx wall, quad.value.length < 2 ^ 32

/--
A step leaves the log readable.

Commits are loggable, no reference is left without its value, and when the sweep marks, every value
a readable log entry refers to is referenced by the leading order.
-/
def LogSafe (ext : External) (state : Maintained) (step : Upkeep) : Prop :=
  state.RefsSafe ext step ∧
    match step with
    | .commit tx wall => Loggable ext state.store tx wall
    | .mark => ∀ key author ops quads, (key, encodeChange author ops quads) ∈ state.store.readableLog →
      ∀ quad ∈ quads, IsRef quad.value →
        (state.store.db.orderIndex .spog).References quad.key.o.uuid.bytes
    | _ => True

variable {ext : External} {state after : Maintained}

/-- A loggable commit keeps the log readable. -/
theorem LogSound.commit (logged : state.LogSound ext) {tx : Transaction} {wall : Timestamp}
    (safe : state.LogSafe ext (.commit tx wall)) :
    LogSound ext { state with store := (state.store.commit ext tx wall).1 } := by
  obtain ⟨refs, author, ops, values, small⟩ := safe
  obtain ⟨sound, interned, decodes, blobs, log⟩ := logged
  have logs := TripleStore.commit_logs interned (sound.holds .gspo) (sound.resolves .gspo) decodes
    values wall
  obtain ⟨kept, stored⟩ :=
    state.store.commit_blobs ext (sound.holds .gspo) (sound.resolves .gspo) tx wall
  have index := (state.store.commit_holds ext (sound.holds .gspo) tx wall).orderIndex_eq
  refine ⟨sound.commit refs, logs.interned, fun key bytes found => ?_,
    fun hash payload found => ?_, fun entry member => ?_⟩
  · simp only [index] at found
    rcases Index.putAll_eq_some found with old | new
    · exact decodes key bytes old
    · exact (logs.quads _ new).1
  · rcases logs.blobs hash payload found with old | new
    · exact blobs hash payload old
    · exact new
  · obtain ⟨present, reached⟩ := SortedMap.mem_seek.mp member
    rw [logs.floor] at reached
    rcases logs.entries entry.1 entry.2 present with old | new
    · obtain ⟨author', ops', quads, same, named, few, all⟩ :=
        log entry (SortedMap.mem_seek.mpr ⟨old, reached⟩)
      exact ⟨author', ops', quads, same, named, few, fun quad member =>
        ⟨(all quad member).small, (all quad member).decodes, logs.names _ (all quad member).named,
          fun isRef => kept _ ((all quad member).stored isRef), (all quad member).spared⟩⟩
    · exact ⟨_, _, _, new, author, ops, fun quad member =>
        ⟨small quad member, (logs.quads quad member).1, (logs.quads quad member).2,
          stored quad member, refs quad member⟩⟩

/-- A safe step keeps the log readable. -/
theorem LogSound.next (logged : state.LogSound ext) {step : Upkeep} (safe : state.LogSafe ext step)
    (taken : state.next ext step = some after) : after.LogSound ext := by
  by_cases commits : ∃ tx wall, step = .commit tx wall
  · obtain ⟨tx, wall, rfl⟩ := commits
    cases taken
    exact logged.commit safe
  · -- What is left of the entries was there before, and the values they need are spared.
    obtain ⟨sound, interned, decodes, blobs, log⟩ := logged
    have shrinks := shrinks_next sound.deletes (fun tx wall same => commits ⟨tx, wall, same⟩) taken
    have sound' := sound.next safe.1 taken
    refine ⟨sound', fun name id found => ?_, fun key bytes found => ?_,
      fun hash payload found => blobs hash payload (shrinks.payloads hash payload found),
      fun entry member => ?_⟩
    · rw [shrinks.names.1] at found
      rw [shrinks.names.2]
      exact interned name id found
    · obtain ⟨left, holds, within⟩ := shrinks.versions .gspo _ (sound.holds .gspo)
      rw [holds.orderIndex_eq] at found
      exact decodes key bytes (within key bytes found)
    · have old := TripleStore.readableLog_of_shrinks shrinks.log shrinks.floor member
      obtain ⟨author, ops, quads, same, named, few, all⟩ := log entry old
      refine ⟨author, ops, quads, same, named, few, fun quad listed => ?_⟩
      obtain ⟨small, decoded, name, stored, spared⟩ := all quad listed
      refine ⟨small, decoded, by rw [shrinks.names.2]; exact name,
        fun isRef => shrinks.kept _ (spared isRef) (stored isRef), fun isRef => ?_⟩
      refine spares_next (sound.holds .spog) taken (spared isRef) fun mark => ?_
      subst mark
      exact safe.2 entry.1 author ops quads (by rw [← same]; exact old) quad listed isRef

/-- A new store has nothing to read back. -/
theorem logSound_fresh (inlineMax : Nat) (vocabulary : Vocabulary) (canonical : Bool) :
    (fresh inlineMax vocabulary canonical).LogSound ext where
  sound := sound_fresh inlineMax vocabulary canonical
  interned name id found := by cases found
  decodes key bytes found := by
    simp only [fresh, opened, (TripleStore.configured_orders inlineMax vocabulary canonical
      .gspo).orderIndex_eq] at found
    cases found
  blobs hash payload found := by
    rw [fresh, opened, Db.get, TripleStore.family_configured (by simp)] at found
    cases found
  log entry member := by
    have stored := (SortedMap.mem_seek.mp member).1
    rw [fresh, opened, TripleStore.family_configured (by simp)] at stored
    cases stored

/-- A version that decodes and whose predicate has a name is rebuilt, unless its value is missing. -/
theorem exists_reconstruct {store : TripleStore} {ids : QuadIds} {bytes : Bytes}
    (named : (store.rev ids.p).isSome) (decodes : Decodes ext bytes)
    (stored : IsRef bytes → (store.db.get .blob ids.o.uuid.bytes).isSome)
    (blobs : ∀ hash payload, store.db.get .blob hash = some payload →
      ∃ read, decodeBlob ext payload = .ok read) (tt : Timestamp) :
    ∃ triple, store.reconstruct ext ids.s ids.p ids.o tt bytes = .ok triple := by
  obtain ⟨name, named⟩ := Option.isSome_iff_exists.mp named
  obtain ⟨decoded, done⟩ := decodes
  have predicate : store.predicateOrErr ids.p = .ok name := by
    simp only [TripleStore.predicateOrErr, TripleStore.predicateString, named]
  simp only [TripleStore.reconstruct, predicate, done, bind, Except.bind]
  cases decoded with
  | relation | property => exact ⟨_, rfl⟩
  | propertyRef temporal =>
    obtain ⟨payload, stored⟩ := Option.isSome_iff_exists.mp (stored (head_of_decode_propertyRef done))
    obtain ⟨read, blob⟩ := blobs _ payload stored
    simp only [TripleStore.loadBlob, stored, blob]
    exact ⟨_, rfl⟩

/-- A logged version that is kept is rebuilt. -/
theorem Kept.reconstruct {quad : StagedQuad} (kept : state.Kept ext quad)
    (blobs : ∀ hash payload, state.store.db.get .blob hash = some payload →
      ∃ read, decodeBlob ext payload = .ok read) (commitTs : Timestamp) :
    ∃ triple, state.store.rebuildLogged ext commitTs quad = .ok triple := by
  obtain ⟨triple, rebuilt⟩ := @exists_reconstruct ext state.store quad.key.toQuadIds _ kept.named
    kept.decodes kept.stored blobs commitTs
  exact ⟨_, Except.bind_eq_ok.mpr ⟨triple, rebuilt, rfl⟩⟩

/-- A recorded entry decodes. -/
theorem Recorded.decodeChange {entry : Bytes} (recorded : state.Recorded ext entry)
    (blobs : ∀ hash payload, state.store.db.get .blob hash = some payload →
      ∃ read, decodeBlob ext payload = .ok read) (commitTs : Timestamp) :
    ∃ record, state.store.decodeChange ext commitTs entry = .ok record := by
  obtain ⟨author, ops, quads, rfl, named, few, kept⟩ := recorded
  obtain ⟨name, named⟩ := Option.isSome_iff_exists.mp named
  obtain ⟨triples, rebuilt⟩ := Except.mapM_isOk_iff.mpr fun quad member =>
    (kept quad (List.mem_of_mem_take member)).reconstruct blobs commitTs
  exact ⟨_, TripleStore.decodeChange_encodeChange named few
    (fun quad member => (kept quad member).small) rebuilt⟩

end Maintained

end Polargraph
