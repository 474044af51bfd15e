import Polargraph.Lib.Except
import Polargraph.Proofs.Storage.Index

/-! A commit stores exactly the versions it stages, so the eight orders hold one set of versions. -/

namespace Polargraph

/-- Writing a batch to an order that holds a set of versions stores the staged ones. -/
def Stages (batch : WriteBatch) (quads : List StagedQuad) : Prop :=
  ∀ (db : Db) (order : Order) (index : Index), db.OrderHolds order index →
    (db.write batch).OrderHolds order (index.putAll quads)

namespace Stages

/-- The empty batch stages nothing. -/
theorem nil : Stages [] [] := fun _ _ _ holds => holds

/-- Two batches stage what they stage one after the other. -/
theorem append {first second : WriteBatch} {left right : List StagedQuad}
    (before : Stages first left) (after : Stages second right) :
    Stages (first ++ second) (left ++ right) := by
  intro db order index holds
  rw [Db.write_append, Index.putAll_append]
  exact after _ _ _ (before db order index holds)

/-- Operations on other column families stage nothing. -/
theorem of_other {batch : WriteBatch} (apart : ∀ op ∈ batch, ∀ order, Cf.quads order ≠ op.cf) :
    Stages batch [] := fun _ _ _ holds => holds.write_other apart

/-- Versions written to every order are staged. -/
theorem quads (quads : List StagedQuad) : Stages (quads.flatMap batchQuad) quads := by
  induction quads with
  | nil => exact nil
  | cons quad rest ih =>
    have one : Stages (batchQuad quad) [quad] := fun _ _ _ holds => holds.batchQuad quad
    exact append one ih

/-- Further operations on other column families stage nothing more. -/
theorem append_other {first second : WriteBatch} {quads : List StagedQuad}
    (before : Stages first quads) (apart : ∀ op ∈ second, ∀ order, Cf.quads order ≠ op.cf) :
    Stages (first ++ second) quads := by
  have both := append before (of_other apart)
  rwa [List.append_nil] at both

end Stages

/-- What was staged so far stores exactly the recorded versions, all at one transaction time. -/
structure Staging.Sound (staging : Staging) (tt : Timestamp) : Prop where
  /-- The batch stores the recorded versions. -/
  stages : Stages staging.batch staging.quads
  /-- Every recorded version has the transaction time. -/
  stamped : ∀ quad ∈ staging.quads, quad.key.tt = tt

namespace Staging

/-- Nothing staged is sound. -/
theorem Sound.none (tt : Timestamp) : Staging.none.Sound tt :=
  ⟨Stages.nil, fun quad member => by simp [Staging.none] at member⟩

/-- Staging further versions of the same transaction time is sound. -/
theorem Sound.addQuads {staging : Staging} {tt : Timestamp} (sound : staging.Sound tt)
    {quads : List StagedQuad} (stamped : ∀ quad ∈ quads, quad.key.tt = tt) :
    (staging.addQuads quads).Sound tt where
  stages := sound.stages.append (Stages.quads quads)
  stamped quad member := by
    rcases List.mem_append.mp member with old | new
    · exact sound.stamped quad old
    · exact stamped quad new

/-- Further operations on other column families are sound. -/
theorem Sound.addOther {staging : Staging} {tt : Timestamp} (sound : staging.Sound tt)
    {batch : WriteBatch} (apart : ∀ op ∈ batch, ∀ order, Cf.quads order ≠ op.cf)
    (values : List (PropertySlot × List (NodeId × Bytes))) :
    Staging.Sound ⟨staging.batch ++ batch, values, staging.quads⟩ tt :=
  ⟨sound.stages.append_other apart, sound.stamped⟩

end Staging

variable {ext : External} {store : TripleStore}

namespace TripleStore

/-- An encoded entry is inline, or is a reference to a payload added to the batch. -/
theorem encodePropertyEntry_cases {batch after : WriteBatch} {value : Value}
    {temporal : BiTemporalRange} {bytes : Bytes}
    (encoded : store.encodePropertyEntry ext batch value temporal = .ok (after, bytes)) :
    (encodeProperty ext value temporal = .ok bytes ∧ after = batch) ∨
      ∃ payload, encodeBlob ext value = .ok payload ∧ bytes = encodePropertyRef temporal ∧
        after = batch ++ [.put .blob (contentHash ext value).bytes payload] := by
  obtain ⟨inline, isInline, rest⟩ := Except.bind_eq_ok.mp encoded
  split at rest
  · cases rest
    exact Or.inl ⟨isInline, rfl⟩
  · obtain ⟨payload, isBlob, rest⟩ := Except.bind_eq_ok.mp rest
    cases rest
    exact Or.inr ⟨payload, isBlob, rfl, rfl⟩

/-- Encoding a value depends on the inline threshold alone. -/
theorem encodePropertyEntry_congr {left right : TripleStore}
    (same : left.inlineValueMaxBytes = right.inlineValueMaxBytes) (batch : WriteBatch)
    (value : Value) (temporal : BiTemporalRange) :
    left.encodePropertyEntry ext batch value temporal =
      right.encodePropertyEntry ext batch value temporal := by
  unfold encodePropertyEntry
  rw [same]

/-- An encoded entry adds at most an out-of-line value to the batch. -/
theorem encodePropertyEntry_batch {batch after : WriteBatch} {value : Value}
    {temporal : BiTemporalRange} {bytes : Bytes}
    (encoded : store.encodePropertyEntry ext batch value temporal = .ok (after, bytes)) :
    ∃ blobs, after = batch ++ blobs ∧ ∀ op ∈ blobs, op.cf = .blob := by
  rcases encodePropertyEntry_cases encoded with ⟨_, rfl⟩ | ⟨payload, _, _, rfl⟩
  · exact ⟨[], by simp, by simp⟩
  · exact ⟨_, rfl, by simp [WriteOp.cf]⟩

/-- An encoded entry carries the window of its envelope. -/
theorem validTime_encodePropertyEntry {batch after : WriteBatch} {value : Value}
    {temporal : BiTemporalRange} {bytes : Bytes}
    (encoded : store.encodePropertyEntry ext batch value temporal = .ok (after, bytes)) :
    validTime bytes = some (temporal.vtStart, temporal.vtEnd) := by
  rcases encodePropertyEntry_cases encoded with ⟨inline, _⟩ | ⟨payload, _, rfl, _⟩
  · exact validTime_encodeProperty inline
  · exact validTime_encodePropertyRef temporal

/-- Every closing version closes one of the other values at the commit's transaction time. -/
theorem mem_closeValues {s : NodeId} {p : PredId} {g : GraphId} {tt closingAt : Timestamp}
    {kept : NodeId} {toClose : List (NodeId × Bytes)} {closing : List StagedQuad}
    (done : closeValues s p g tt closingAt kept toClose = .ok closing) {quad : StagedQuad} :
    quad ∈ closing ↔ ∃ value ∈ toClose, value.1 ≠ kept ∧
      quad.key = ⟨⟨s, p, value.1, g⟩, tt⟩ ∧ withVtEnd value.2 closingAt = .ok quad.value := by
  induction toClose generalizing closing with
  | nil => cases done; simp
  | cons head rest ih =>
    obtain ⟨other, bytes⟩ := head
    simp only [closeValues] at done
    split_ifs at done with same
    · simp [ih done, same]
    · obtain ⟨closed, isClosed, done⟩ := Except.bind_eq_ok.mp done
      obtain ⟨quads, more, done⟩ := Except.bind_eq_ok.mp done
      cases done
      simp only [List.mem_cons, ih more, exists_eq_or_imp, isClosed, Except.ok.injEq]
      refine or_congr_left ⟨?_, ?_⟩
      · rintro rfl
        exact ⟨same, rfl, rfl⟩
      · rintro ⟨_, key, value⟩
        cases quad
        simp only at key value
        rw [key, value]

/-- What staging a property adds. -/
theorem stageWrite_property {tt : Timestamp} {p : PredId} {staging next : Staging}
    {subject : NodeId} {predicate : String} {value : Value} {window : BiTemporalRange}
    {g : GraphId} {mode : WriteMode}
    (done : store.stageWrite ext tt p staging
      ⟨.property subject predicate value window, g, mode⟩ = .ok next) :
    ∃ blobs bytes closing,
      store.encodePropertyEntry ext staging.batch value { window with tt := tt } =
        .ok (staging.batch ++ blobs, bytes) ∧
      (∀ op ∈ blobs, op.cf = .blob) ∧
      store.stageClosings (mode.resolve (.property subject predicate value window)) subject p g tt
        window.vtStart (valueObject ext value)
        ((Latest.lookup (subject, p, g) staging.values).getD []) = .ok closing ∧
      next.quads = staging.quads ++
        (closing ++ [StagedQuad.mk ⟨⟨subject, p, valueObject ext value, g⟩, tt⟩ bytes]) ∧
      next.batch = staging.batch ++ blobs ++ (closing ++
        [StagedQuad.mk ⟨⟨subject, p, valueObject ext value, g⟩, tt⟩ bytes]).flatMap batchQuad ++
        (value.asText.map (batchTextTrigrams subject p g)).getD [] ∧
      next.values = Latest.entryUpdate (subject, p, g) []
        (fun _ => (if mode.resolve (.property subject predicate value window) = .replace then []
          else (Latest.lookup (subject, p, g) staging.values).getD []) ++
            [(valueObject ext value, bytes)]) staging.values := by
  obtain ⟨⟨batch, bytes⟩, encoded, done⟩ := Except.bind_eq_ok.mp done
  obtain ⟨blobs, rfl, apart⟩ := encodePropertyEntry_batch encoded
  obtain ⟨closing, closed, done⟩ := Except.bind_eq_ok.mp done
  cases done
  exact ⟨blobs, bytes, closing, encoded, apart, closed, rfl, rfl, rfl⟩

/-- Trigram entries stay in their column family. -/
theorem batchTextTrigrams_cf {subject : NodeId} {p : PredId} {g : GraphId} {text : Option String}
    {op : WriteOp} (member : op ∈ (text.map (batchTextTrigrams subject p g)).getD []) :
    op.cf = .tri := by
  cases text with
  | none => simp at member
  | some text =>
    simp only [Option.map_some, Option.getD_some, batchTextTrigrams] at member
    split_ifs at member
    · simp at member
    · obtain ⟨trigram, _, rfl⟩ := List.mem_map.mp member
      rfl

/-- Staging one write keeps what is staged sound. -/
theorem stageWrite_sound {tt : Timestamp} {p : PredId} {staging next : Staging} {w : PendingWrite}
    (sound : staging.Sound tt) (done : store.stageWrite ext tt p staging w = .ok next) :
    next.Sound tt := by
  -- Each flavour of triple adds quads of the transaction time, or only annotations.
  obtain ⟨triple, g, mode⟩ := w
  cases triple with
  | relation subject predicate object edgeId window =>
    cases done
    exact sound.addQuads (by simp)
  | property subject predicate value window =>
    obtain ⟨blobs, bytes, closing, _, apart, closed, quads, batch, _⟩ := stageWrite_property done
    have stamped : ∀ quad ∈ closing ++
        [StagedQuad.mk ⟨⟨subject, p, valueObject ext value, g⟩, tt⟩ bytes], quad.key.tt = tt := by
      intro quad member
      rcases List.mem_append.mp member with closes | own
      · unfold stageClosings at closed
        split_ifs at closed
        · obtain ⟨stored, _, closed⟩ := Except.bind_eq_ok.mp closed
          obtain ⟨_, _, _, key, _⟩ := (mem_closeValues closed).mp closes
          rw [key]
        · cases closed
          simp at closes
      · rw [List.mem_singleton.mp own]
    constructor
    · rw [batch, quads]
      refine Stages.append_other (Stages.append (Stages.append_other sound.stages ?_)
        (Stages.quads _)) ?_
      · intro op member order same
        rw [apart op member] at same
        cases same
      · intro op member order same
        rw [batchTextTrigrams_cf member] at same
        cases same
    · intro quad member
      rw [quads] at member
      rcases List.mem_append.mp member with old | new
      · exact sound.stamped quad old
      · exact stamped quad new
  | edgeProperty edge predicate value window =>
    obtain ⟨bytes, _, done⟩ := Except.bind_eq_ok.mp done
    cases done
    exact sound.addOther (by simp [batchEpa, WriteOp.cf]) _
  | edgeRelation edge predicate object window =>
    cases done
    exact sound.addOther (by simp [batchEpo, WriteOp.cf]) _

/-- Interning a predicate leaves everything but the predicate tables alone. -/
theorem family_internPredicate (store : TripleStore) (pred : String) {cf : Cf}
    (apart : cf ≠ .metadata) :
    (store.internPredicate pred).1.db.family cf = store.db.family cf := by
  cases known : store.fwd (store.canonicalName pred) with
  | some id => simp only [internPredicate, known]
  | none =>
    simp only [internPredicate, known]
    exact Db.family_write_of_forall_ne _ (by simp [WriteOp.cf, apart])

/-- What interning predicates keeps, staging writes keeps. -/
@[elab_as_elim]
theorem stageWrites_keeps {motive : TripleStore → Prop} (ext : External) (tt : Timestamp)
    (store : TripleStore) (staging : Staging) (writes : List PendingWrite) (held : motive store)
    (interns : ∀ store pred, motive store → motive (store.internPredicate pred).1) :
    motive (stageWrites ext tt store staging writes).1 := by
  induction writes generalizing store staging with
  | nil => exact held
  | cons w rest ih =>
    have own := interns store w.triple.predicate held
    simp only [stageWrites]
    split
    · exact own
    · exact ih _ _ own

/-- Staging writes stages the first one, and then the others. -/
theorem stageWrites_cons {tt : Timestamp} {staging next : Staging} {w : PendingWrite}
    {rest : List PendingWrite} {after : TripleStore}
    (done : stageWrites ext tt store staging (w :: rest) = (after, .ok next)) :
    ∃ middle, (store.internPredicate w.triple.predicate).1.stageWrite ext tt
        (store.internPredicate w.triple.predicate).2 staging w = .ok middle ∧
      stageWrites ext tt (store.internPredicate w.triple.predicate).1 middle rest =
        (after, .ok next) := by
  simp only [stageWrites] at done
  split at done
  · cases done
  · exact ⟨_, ‹_›, done⟩

/-- What staging one write keeps, staging all of them keeps. -/
@[elab_as_elim]
theorem stageWrites_stages {motive : TripleStore → Staging → Prop} {tt : Timestamp}
    {writes : List PendingWrite} {staging next : Staging} {after : TripleStore}
    (held : motive store staging)
    (done : stageWrites ext tt store staging writes = (after, .ok next))
    (step : ∀ w ∈ writes, ∀ store staging next, motive store staging →
      (store.internPredicate w.triple.predicate).1.stageWrite ext tt
        (store.internPredicate w.triple.predicate).2 staging w = .ok next →
      motive (store.internPredicate w.triple.predicate).1 next) : motive after next := by
  induction writes generalizing store staging with
  | nil => cases done; exact held
  | cons w rest ih =>
    obtain ⟨middle, staged, done⟩ := stageWrites_cons done
    exact ih (step w List.mem_cons_self _ _ _ held staged) done
      fun other later => step other (List.mem_cons_of_mem _ later)

/-- The same with an order of the quads at hand, which interning leaves alone. -/
@[elab_as_elim]
theorem stageWrites_ordered {motive : TripleStore → Staging → Prop} {index : Index} {tt : Timestamp}
    {writes : List PendingWrite} {staging next : Staging} {after : TripleStore}
    (ordered : store.db.OrderHolds .gspo index) (held : motive store staging)
    (done : stageWrites ext tt store staging writes = (after, .ok next))
    (step : ∀ w ∈ writes, ∀ store staging next,
      (store.internPredicate w.triple.predicate).1.db.OrderHolds .gspo index →
      motive store staging → (store.internPredicate w.triple.predicate).1.stageWrite ext tt
        (store.internPredicate w.triple.predicate).2 staging w = .ok next →
      motive (store.internPredicate w.triple.predicate).1 next) : motive after next := by
  refine (stageWrites_stages (motive := fun store staging => store.db.OrderHolds .gspo index ∧
    motive store staging) ⟨ordered, held⟩ done fun w member store staging next both staged => ?_).2
  have kept := both.1.congr (family_internPredicate store w.triple.predicate (by simp))
  exact ⟨kept, step w member store staging next kept both.2 staged⟩

/-- A flush keeps what its writes intern, and writes a batch when one is built. -/
@[elab_as_elim]
theorem flush_rule {motive : TripleStore × Except StorageError Timestamp → List StagedQuad → Prop}
    (ext : External) (store : TripleStore) (tx : Transaction) (commitTs : Timestamp)
    (failed : ∀ problem,
      motive ((stageWrites ext commitTs store Staging.none tx.writes).1, .error problem) [])
    (written : ∀ after staging batch,
      stageWrites ext commitTs store Staging.none tx.writes = (after, .ok staging) →
      after.commitBatch ext tx commitTs staging = .ok batch →
      motive (after.dbWrite batch, .ok commitTs) staging.quads) :
    motive (store.flush ext tx commitTs) (store.stagedQuads ext tx commitTs) := by
  unfold flush stagedQuads
  split
  · rename_i problem result
    rw [result] at failed
    exact failed problem
  · rename_i after staging result
    rw [result] at failed
    cases built : after.commitBatch ext tx commitTs staging with
    | error problem => exact failed problem
    | ok batch => exact written after staging batch result built

/-- A commit leaves the store when it is empty, and hands out a time otherwise. -/
@[elab_as_elim]
theorem commit_rule {motive : TripleStore × Except StorageError Timestamp → List StagedQuad → Prop}
    (ext : External) (store : TripleStore) (tx : Transaction) (wall : Timestamp)
    (empty : tx.isEmpty = true → motive (store, .ok tx.readTs) [])
    (refused : ∀ problem, motive ((store.beginCommit wall).1, .error problem) [])
    (flushed : tx.isEmpty = false →
      motive ((store.beginCommit wall).1.flush ext tx (store.beginCommit wall).2)
        ((store.beginCommit wall).1.stagedQuads ext tx (store.beginCommit wall).2)) :
    motive (store.commit ext tx wall) (store.commitQuads ext tx wall) := by
  unfold commit commitQuads
  split_ifs with blank
  · exact empty blank
  · simp only [finishCommit]
    split
    · exact refused _
    · exact flushed (Bool.not_eq_true _ ▸ blank)

/-- What says nothing of the database holds after a commit if interning makes it hold. -/
@[elab_as_elim]
theorem commit_keeps {motive : TripleStore → Prop} (ext : External) (store : TripleStore)
    (tx : Transaction) (wall : Timestamp) (empty : motive store)
    (begun : motive (store.beginCommit wall).1)
    (staged : motive (stageWrites ext (store.beginCommit wall).2 (store.beginCommit wall).1
      Staging.none tx.writes).1)
    (free : ∀ store batch, motive store → motive (store.dbWrite batch)) :
    motive (store.commit ext tx wall).1 := by
  refine @commit_rule (fun result _ => motive result.1) ext store tx wall (fun _ => empty)
    (fun _ => begun) fun _ => ?_
  refine @flush_rule (fun result _ => motive result.1) ext _ tx _ (fun _ => staged)
    fun after staging batch here _ => ?_
  rw [here] at staged
  exact free after batch staged

/-- A commit that succeeds is empty, or wrote what it staged at the time it was handed. -/
theorem commit_ok {after : TripleStore} {tx : Transaction} {wall time : Timestamp}
    (done : store.commit ext tx wall = (after, .ok time)) :
    tx.isEmpty = true ∧ tx.writes = [] ∧ after = store ∧ store.commitQuads ext tx wall = [] ∨
      tx.isEmpty = false ∧ time = store.nextCommitTs wall ∧ ∃ middle staging batch,
        stageWrites ext time (store.beginCommit wall).1 Staging.none tx.writes =
          (middle, .ok staging) ∧ middle.commitBatch ext tx time staging = .ok batch ∧
        after = middle.dbWrite batch ∧ store.commitQuads ext tx wall = staging.quads := by
  revert done
  refine commit_rule ext store tx wall (fun blank same => ?_) (fun _ same => ?_) fun full => ?_
  · cases same
    have parts := blank
    simp only [Transaction.isEmpty, Bool.and_eq_true, List.isEmpty_iff] at parts
    exact Or.inl ⟨blank, parts.1.1, rfl, rfl⟩
  · cases same
  · refine flush_rule ext _ tx _ (fun _ same => ?_) fun middle staging batch staged built same => ?_
    · cases same
    · cases same
      exact Or.inr ⟨full, rfl, middle, staging, batch, staged, built, rfl, rfl⟩

/-- Staging leaves the column families other than the metadata alone. -/
theorem family_stageWrites (tt : Timestamp) (store : TripleStore) (staging : Staging)
    (writes : List PendingWrite) {cf : Cf} (apart : cf ≠ .metadata) :
    (stageWrites ext tt store staging writes).1.db.family cf = store.db.family cf :=
  stageWrites_keeps ext tt store staging writes rfl fun store pred held =>
    (family_internPredicate store pred apart).trans held

/-- Staging any number of writes keeps what is staged sound. -/
theorem stageWrites_sound {tt : Timestamp} {staging next : Staging} {writes : List PendingWrite}
    {store after : TripleStore} (sound : staging.Sound tt)
    (done : stageWrites ext tt store staging writes = (after, .ok next)) : next.Sound tt :=
  stageWrites_stages sound done fun _ _ _ _ _ sound staged => stageWrite_sound sound staged

/-- One IRI adds at most one dictionary entry. -/
theorem batchIri_cf {batch after : WriteBatch} {iri : String}
    {pending between : List (NodeId × String)}
    (done : store.batchIri ext batch iri pending = .ok (after, between)) :
    ∃ entry, after = batch ++ entry ∧ ∀ op ∈ entry, op.cf = .iri := by
  simp only [batchIri] at done
  split_ifs at done
  · cases done
    exact ⟨[], by simp, by simp⟩
  · obtain ⟨existing, _, done⟩ := Except.bind_eq_ok.mp done
    cases existing with
    | none =>
      cases done
      exact ⟨_, rfl, by simp [WriteOp.cf]⟩
    | some stored =>
      simp only at done
      split_ifs at done
      cases done
      exact ⟨[], by simp, by simp⟩

/-- Dictionary entries stay in their column family. -/
theorem batchIris_cf {batch after : WriteBatch} {iris : List String}
    (done : store.batchIris ext batch iris = .ok after) :
    ∃ entries, after = batch ++ entries ∧ ∀ op ∈ entries, op.cf = .iri := by
  -- The entries of the IRIs follow one another.
  suffices folded : ∀ (iris : List String) (batch after : WriteBatch)
      (pending between : List (NodeId × String)),
      iris.foldlM (fun (state : WriteBatch × List (NodeId × String)) iri =>
        store.batchIri ext state.1 iri state.2) (batch, pending) = .ok (after, between) →
      ∃ entries, after = batch ++ entries ∧ ∀ op ∈ entries, op.cf = .iri by
    obtain ⟨⟨last, pending⟩, run, same⟩ := Except.bind_eq_ok.mp done
    cases same
    exact folded _ _ _ _ _ run
  intro iris
  induction iris with
  | nil =>
    intro batch after pending between run
    cases run
    exact ⟨[], by simp, by simp⟩
  | cons iri rest ih =>
    intro batch after pending between run
    rw [List.foldlM_cons] at run
    obtain ⟨⟨middle, later⟩, one, more⟩ := Except.bind_eq_ok.mp run
    obtain ⟨entry, rfl, own⟩ := batchIri_cf one
    obtain ⟨entries, rfl, apart⟩ := ih _ _ _ _ more
    refine ⟨entry ++ entries, by simp, fun op member => ?_⟩
    rcases List.mem_append.mp member with here | there
    · exact own op here
    · exact apart op there

/-- The log entry of a commit stays in its column family. -/
theorem batchChange_cf {tt : Timestamp} {author : String} {ops : List GraphOp}
    {quads : List StagedQuad} {op : WriteOp} (member : op ∈ batchChange tt author ops quads) :
    op.cf = .chg := by
  unfold batchChange at member
  split_ifs at member
  · simp at member
  · rw [List.mem_singleton.mp member]
    rfl

/-- The batch of a commit stores exactly the staged versions. -/
theorem commitBatch_stages {tx : Transaction} {commitTs : Timestamp} {staging : Staging}
    {batch : WriteBatch} (sound : staging.Sound commitTs)
    (done : store.commitBatch ext tx commitTs staging = .ok batch) :
    Stages batch staging.quads := by
  -- The change log, the dictionary and the counter are other column families.
  obtain ⟨logged, entries, done⟩ := Except.bind_eq_ok.mp done
  cases done
  obtain ⟨iris, rfl, apart⟩ := batchIris_cf entries
  refine ((sound.stages.append_other ?_).append_other ?_).append_other ?_
  · intro op member order same
    rw [batchChange_cf member] at same
    cases same
  · intro op member order same
    rw [apart op member] at same
    cases same
  · simp [WriteOp.cf]

/-- Staging leaves the counter alone. -/
theorem committed_stageWrites (tt : Timestamp) (store : TripleStore) (staging : Staging)
    (writes : List PendingWrite) :
    (stageWrites ext tt store staging writes).1.committed = store.committed := by
  refine stageWrites_keeps ext tt store staging writes rfl fun before pred held => ?_
  simp only [internPredicate]
  split <;> exact held

/-- A flush leaves the counter alone. -/
theorem committed_flush (store : TripleStore) (tx : Transaction) (commitTs : Timestamp) :
    (store.flush ext tx commitTs).1.committed = store.committed := by
  have staged := @committed_stageWrites ext commitTs store Staging.none tx.writes
  refine flush_rule ext store tx commitTs (fun _ => staged) fun after staging batch here _ => ?_
  rw [here] at staged
  exact staged

/-- A flush stores the staged versions and nothing else. -/
theorem flush_holds {order : Order} {index : Index} (holds : store.db.OrderHolds order index)
    (tx : Transaction) (commitTs : Timestamp) :
    (store.flush ext tx commitTs).1.db.OrderHolds order
      (index.putAll (store.stagedQuads ext tx commitTs)) := by
  -- Interning does not touch the quad orders, and only a built batch is written.
  have interned : (stageWrites ext commitTs store Staging.none tx.writes).1.db.OrderHolds order
      index := holds.congr (family_stageWrites commitTs store _ _ (by simp))
  refine flush_rule ext store tx commitTs (fun _ => interned) fun after staging batch staged built => ?_
  rw [staged] at interned
  exact commitBatch_stages (stageWrites_sound (Staging.Sound.none commitTs) staged) built _ _ _ interned

/-- A commit stores the versions it writes and nothing else. -/
theorem commit_holds (ext : External) (store : TripleStore) {order : Order} {index : Index}
    (holds : store.db.OrderHolds order index) (tx : Transaction) (wall : Timestamp) :
    (store.commit ext tx wall).1.db.OrderHolds order
      (index.putAll (store.commitQuads ext tx wall)) := by
  have published : (store.beginCommit wall).1.db.OrderHolds order index := holds
  exact commit_rule ext store tx wall (fun _ => holds) (fun _ => published)
    fun _ => flush_holds published tx _

/-- Every staged version has the commit's timestamp. -/
theorem stagedQuads_tt {tx : Transaction} {commitTs : Timestamp}
    {quad : StagedQuad} (member : quad ∈ store.stagedQuads ext tx commitTs) :
    quad.key.tt = commitTs := by
  revert member
  refine flush_rule ext store tx commitTs (fun _ => by simp) fun after staging batch staged _ => ?_
  exact (stageWrites_sound (Staging.Sound.none commitTs) staged).stamped quad

/-- Looking up a name is looking up its stored form. -/
theorem predicateId_eq (store : TripleStore) (pred : String) :
    store.predicateId pred = store.fwd (store.canonicalName pred) := by
  unfold predicateId
  split_ifs with bare
  · rfl
  · unfold canonicalName Vocabulary.canonicalPredicate
    split_ifs <;> rfl

/-- Interning a known predicate changes nothing. -/
theorem internPredicate_known {pred : String} (known : (store.predicateId pred).isSome) :
    (store.internPredicate pred).1 = store := by
  obtain ⟨id, here⟩ := Option.isSome_iff_exists.mp known
  rw [predicateId_eq] at here
  simp only [internPredicate, here]

/-- Staging writes of known predicates leaves the store as it is. -/
theorem stageWrites_known {tt : Timestamp} {staging : Staging} {writes : List PendingWrite}
    (known : ∀ w ∈ writes, (store.predicateId w.triple.predicate).isSome) :
    (stageWrites ext tt store staging writes).1 = store := by
  induction writes generalizing staging with
  | nil => rfl
  | cons w rest ih =>
    have same := internPredicate_known (known w List.mem_cons_self)
    simp only [stageWrites, same]
    split
    · rfl
    · exact ih fun other member => known other (List.mem_cons_of_mem _ member)

/-- A commit whose predicates are all known keeps the interning tables. -/
theorem commit_known {tx : Transaction} {wall : Timestamp}
    (known : ∀ w ∈ tx.writes, (store.predicateId w.triple.predicate).isSome) :
    ∃ db committed, (store.commit ext tx wall).1 =
      { store with db := db, committed := committed } := by
  have published : ∀ w ∈ tx.writes,
      ((store.beginCommit wall).1.predicateId w.triple.predicate).isSome := known
  have staged := @stageWrites_known ext _ (store.beginCommit wall).2 Staging.none _ published
  refine commit_keeps ext store tx wall ⟨_, _, rfl⟩ ⟨_, _, rfl⟩ ?_ ?_
  · rw [staged]
    exact ⟨_, _, rfl⟩
  · rintro _ batch ⟨_, _, rfl⟩
    exact ⟨_, _, rfl⟩

/-- A new store holds metadata only. -/
theorem family_configured {cf : Cf} (apart : cf ≠ .metadata) (inlineMax : Nat)
    (vocabulary : Vocabulary) (canonical : Bool) :
    (configured inlineMax vocabulary canonical).db.family cf = SortedMap.empty :=
  Db.family_write_of_forall_ne Db.empty (by simp [WriteOp.cf, apart])

/-- A new store holds no versions. -/
theorem configured_orders (inlineMax : Nat) (vocabulary : Vocabulary) (canonical : Bool) :
    (configured inlineMax vocabulary canonical).db.OrdersHold (fun _ => none) := fun _ =>
  Db.OrderHolds.of_empty (congrArg SortedMap.entries (family_configured (by simp) ..))

/-- Nothing was recorded in a new store. -/
theorem index_configured (inlineMax : Nat) (vocabulary : Vocabulary) (canonical : Bool) :
    (configured inlineMax vocabulary canonical).index = fun _ => none :=
  Db.OrdersHold.index_eq (configured_orders inlineMax vocabulary canonical)

/-- A new store knows no predicate. -/
theorem predicateId_configured (inlineMax : Nat) (vocabulary : Vocabulary) (canonical : Bool)
    (name : String) : (configured inlineMax vocabulary canonical).predicateId name = none := by
  rw [predicateId_eq]
  rfl

/-- Explicitly timed insertion keeps the orders together. -/
theorem insertAtTs_orders {store : TripleStore} {index : Index} (holds : store.db.OrdersHold index)
    (triple : Triple) (tt : Timestamp) :
    ∃ after, (store.insertAtTs ext triple tt).1.db.OrdersHold after := by
  -- Interning does not touch the quad orders, and the batch stores staged versions.
  have interned : ∀ writes,
      (stageWrites ext tt store Staging.none writes).1.db.OrdersHold index := fun writes order =>
    (holds order).congr (family_stageWrites tt store _ writes (by simp))
  have kept := interned [⟨triple, GraphId.DEFAULT, .auto⟩]
  simp only [insertAtTs]
  split
  · rename_i after problem staged
    rw [staged] at kept
    exact ⟨index, kept⟩
  · rename_i after staging staged
    rw [staged] at kept
    have sound := stageWrites_sound (Staging.Sound.none tt) staged
    have stages : Stages (staging.batch ++ batchChange tt "" [] staging.quads) staging.quads := by
      refine sound.stages.append_other fun op member order same => ?_
      rw [batchChange_cf member] at same
      cases same
    have written := fun order => stages _ order _ (kept order)
    refine ⟨index.putAll staging.quads, ?_⟩
    unfold advanceTo
    split_ifs <;> exact written

/-- Interning a graph keeps the orders together. -/
theorem internGraph_orders {store after : TripleStore} {index : Index} {iri : String} {g : GraphId}
    (holds : store.db.OrdersHold index) (done : store.internGraph ext iri = .ok (after, g)) :
    after.db.OrdersHold index := by
  unfold internGraph at done
  split_ifs at done
  split at done
  · cases done
    exact holds
  · obtain ⟨⟨batch, pending⟩, built, done⟩ := Except.bind_eq_ok.mp done
    cases done
    obtain ⟨entry, rfl, apart⟩ := batchIri_cf built
    refine fun order => (holds order).write_other fun op member order same => ?_
    rcases List.mem_append.mp member with tables | dictionary
    · simp only [List.mem_cons, List.not_mem_nil, or_false] at tables
      rcases tables with rfl | rfl | rfl <;> cases same
    · rw [apart op dictionary] at same
      cases same

/-- In every reachable store the eight orders hold the same versions. -/
theorem Reachable.ordersHold {store : TripleStore} (reachable : Reachable ext store) :
    store.db.OrdersHold store.index := by
  -- Each step keeps some common set of versions, which is the one read from the leading order.
  suffices some_index : ∃ index, store.db.OrdersHold index by
    obtain ⟨index, holds⟩ := some_index
    exact holds.self
  induction reachable with
  | create inlineMax vocabulary canonical =>
    exact ⟨_, configured_orders inlineMax vocabulary canonical⟩
  | commit tx wall _ ih =>
    obtain ⟨index, holds⟩ := ih
    exact ⟨_, fun order => commit_holds ext _ (holds order) tx wall⟩
  | insertAtTs triple tt _ ih =>
    obtain ⟨index, holds⟩ := ih
    exact insertAtTs_orders holds triple tt
  | internGraph _ done ih =>
    obtain ⟨index, holds⟩ := ih
    exact ⟨index, internGraph_orders holds done⟩

/-- A new store into which one relation was inserted, valid from a start and recorded at a time. -/
def single (vtStart tt : Timestamp) : TripleStore :=
  (create.insertAtTs External.unreached (.relation (NodeId.ofByte 1) "knows" (NodeId.ofByte 2)
    ⟨(NodeId.ofByte 3).uuid⟩ ⟨vtStart, Timestamp.END_OF_TIME, Timestamp.zero⟩) tt).1

/-- A store with one relation is reachable. -/
theorem single_reachable (vtStart tt : Timestamp) : Reachable External.unreached (single vtStart tt) :=
  .insertAtTs _ _ (.create DEFAULT_INLINE_VALUE_MAX_BYTES Vocabulary.default true)

end TripleStore

end Polargraph
