import Polargraph.Proofs.Storage.SstImport
import Polargraph.Storage.Open

/-! The counter that is loaded when a store is opened, and the times of what is stored. -/

namespace Polargraph

/-- The column families whose keys end in a transaction time. -/
def Cf.Versioned : Cf → Prop
  | .quads _ | .epa | .pea | .epo => True
  | .metadata | .tri | .iri | .blob | .chg => False

/-- The time of a key that ends in it. -/
theorem keyTt_append (front : Bytes) (tt : Timestamp) : keyTt (front ++ tt.toBeBytes) = tt := by
  have cut : (front ++ tt.toBeBytes).length - 8 = front.length := by simp
  rw [keyTt, cut, List.drop_left, Timestamp.fromBeBytes_toBeBytes]

/-- A batch puts versions of one time only. -/
def StampedAt (batch : WriteBatch) (tt : Timestamp) : Prop :=
  ∀ cf key value, cf.Versioned → .put cf key value ∈ batch → keyTt key = tt

/-- A batch on families without versions is stamped at any time. -/
theorem stampedAt_of_other {batch : WriteBatch} {tt : Timestamp}
    (apart : ∀ op ∈ batch, ¬ op.cf.Versioned) : StampedAt batch tt :=
  fun _ _ _ versioned put => absurd versioned (apart _ put)

/-- Two batches that are stamped are stamped together. -/
theorem StampedAt.append {first second : WriteBatch} {tt : Timestamp} (before : StampedAt first tt)
    (after : StampedAt second tt) : StampedAt (first ++ second) tt := by
  intro cf key value versioned put
  rcases List.mem_append.mp put with old | new
  · exact before cf key value versioned old
  · exact after cf key value versioned new

/-- Versions of one time are stamped at it. -/
theorem stampedAt_quads {quads : List StagedQuad} {tt : Timestamp}
    (dated : ∀ quad ∈ quads, quad.key.tt = tt) : StampedAt (quads.flatMap batchQuad) tt := by
  intro cf key value versioned put
  obtain ⟨quad, member, put⟩ := List.mem_flatMap.mp put
  obtain ⟨order, _, same⟩ := List.mem_map.mp put
  cases same
  rw [Order.keyTt_encode, dated quad member]

/-- The entries of an edge property are stamped at its time. -/
theorem stampedAt_batchEpa (edge : EdgeId) (p : PredId) (g : GraphId) (tt : Timestamp)
    (value : Bytes) : StampedAt (batchEpa edge p g tt value) tt := by
  intro cf key held versioned put
  simp only [batchEpa, List.mem_cons, WriteOp.put.injEq, List.not_mem_nil, or_false] at put
  rcases put with ⟨_, rfl, _⟩ | ⟨_, rfl, _⟩
  · exact keyTt_append _ tt
  · exact keyTt_append _ tt

/-- The entry of an edge relation is stamped at its time. -/
theorem stampedAt_batchEpo (edge : EdgeId) (p : PredId) (object : NodeId) (g : GraphId)
    (temporal : BiTemporalRange) : StampedAt (batchEpo edge p object g temporal) temporal.tt := by
  intro cf key held versioned put
  simp only [batchEpo, List.mem_singleton, WriteOp.put.injEq] at put
  obtain ⟨_, rfl, _⟩ := put
  exact keyTt_append _ _

namespace TripleStore

variable {ext : External} {store middle after : TripleStore}

/-- What a write stages is stamped at the time of the transaction. -/
theorem stampedAt_stageWrite {tt : Timestamp} {p : PredId} {staging next : Staging}
    {w : PendingWrite} (sound : staging.Sound tt) (stamped : StampedAt staging.batch tt)
    (done : store.stageWrite ext tt p staging w = .ok next) : StampedAt next.batch tt := by
  have dated := (stageWrite_sound sound done).stamped
  obtain ⟨triple, g, mode⟩ := w
  cases triple with
  | relation subject predicate object edgeId window =>
    cases done
    exact stamped.append (stampedAt_quads (by simp))
  | property subject predicate value window =>
    obtain ⟨blobs, bytes, closing, _, apart, _, quads, batch, _⟩ := stageWrite_property done
    rw [batch]
    refine ((stamped.append ?_).append ?_).append ?_
    · exact stampedAt_of_other fun op member => by rw [apart op member]; exact id
    · refine stampedAt_quads fun quad member => dated quad ?_
      rw [quads]
      exact List.mem_append_right _ member
    · exact stampedAt_of_other fun op member => by rw [batchTextTrigrams_cf member]; exact id
  | edgeProperty edge predicate value window =>
    obtain ⟨bytes, _, done⟩ := Except.bind_eq_ok.mp done
    cases done
    exact stamped.append (stampedAt_batchEpa edge p g tt bytes)
  | edgeRelation edge predicate object window =>
    cases done
    exact stamped.append (stampedAt_batchEpo edge p object g { window with tt := tt })

/-- What writes stage is stamped at the time of the transaction. -/
theorem stampedAt_stageWrites {tt : Timestamp} {staging next : Staging} {writes : List PendingWrite}
    (sound : staging.Sound tt) (stamped : StampedAt staging.batch tt)
    (done : stageWrites ext tt store staging writes = (after, .ok next)) :
    StampedAt next.batch tt := by
  refine (stageWrites_stages (motive := fun _ staging => staging.Sound tt ∧
    StampedAt staging.batch tt) ⟨sound, stamped⟩ done fun _ _ _ _ _ both staged => ?_).2
  exact ⟨stageWrite_sound both.1 staged, stampedAt_stageWrite both.1 both.2 staged⟩

/-- The time the store would start at if it were opened. -/
def persisted (store : TripleStore) : Timestamp := store.db.loadOracleTs

/-- Everything stored is dated no later than the persisted counter, and that no later than the own. -/
structure Timed (store : TripleStore) : Prop where
  /-- No key is later than the persisted counter. -/
  stored : ∀ cf, cf.Versioned → ∀ entry ∈ (store.db.family cf).entries,
    keyTt entry.1 ≤ store.persisted
  /-- The counter is not behind the persisted one. -/
  reached : store.persisted ≤ store.committed

/-- The persisted counter is read from its key of the metadata. -/
theorem persisted_congr (same : after.db.get .metadata META_ORACLE_CTR =
    store.db.get .metadata META_ORACLE_CTR) : after.persisted = store.persisted := by
  simp only [persisted, Db.loadOracleTs, same]

/-- A batch that ends by putting a counter persists it. -/
theorem persisted_dbWrite (store : TripleStore) (batch : WriteBatch) (tt : Timestamp) :
    (store.dbWrite (batch ++ [.put .metadata META_ORACLE_CTR tt.toBeBytes])).persisted = tt := by
  have put : (store.dbWrite (batch ++ [.put .metadata META_ORACLE_CTR tt.toBeBytes])).db.get
      .metadata META_ORACLE_CTR = some tt.toBeBytes := by
    simp only [dbWrite, Db.write_append]
    simp [Db.write, Db.get_apply_put]
  simp only [persisted, Db.loadOracleTs, put, Timestamp.toBeBytes_length, if_true,
    Timestamp.fromBeBytes_toBeBytes]

/-- Interning a predicate keeps the persisted counter. -/
theorem persisted_internPredicate (store : TripleStore) (pred : String) :
    (store.internPredicate pred).1.persisted = store.persisted :=
  persisted_congr (store.get_internPredicate pred (by decide +kernel) (by decide +kernel))

/-- Staging keeps the persisted counter. -/
theorem persisted_stageWrites (tt : Timestamp) (store : TripleStore) (staging : Staging)
    (writes : List PendingWrite) :
    (stageWrites ext tt store staging writes).1.persisted = store.persisted :=
  persisted_congr (get_stageWrites tt store staging writes (by decide +kernel) (by decide +kernel))

/-- A store with the same versions and the same persisted counter is dated alike. -/
theorem Timed.congr (timed : store.Timed)
    (families : ∀ cf : Cf, cf.Versioned → after.db.family cf = store.db.family cf)
    (persisted : after.persisted = store.persisted) (committed : store.committed ≤ after.committed) :
    after.Timed := by
  refine ⟨fun cf versioned => ?_, ?_⟩
  · rw [families cf versioned, persisted]
    exact timed.stored cf versioned
  · rw [persisted]
    exact le_trans timed.reached committed

/-- No versioned family is the metadata. -/
theorem ne_metadata_of_versioned {cf : Cf} (versioned : cf.Versioned) : cf ≠ .metadata := by
  rintro rfl
  exact versioned

/-- A new store is dated. -/
theorem timed_configured (inlineMax : Nat) (vocabulary : Vocabulary) (canonical : Bool) :
    (configured inlineMax vocabulary canonical).Timed := by
  refine ⟨fun cf versioned entry member => ?_, le_of_eq ?_⟩
  · rw [family_configured (ne_metadata_of_versioned versioned)] at member
    cases member
  · have same : (configured inlineMax vocabulary canonical).persisted =
        (configured 0 Vocabulary.default true).persisted := rfl
    rw [same, show (configured inlineMax vocabulary canonical).committed = Timestamp.zero from rfl]
    decide +kernel

/-- Everything stored in a dated store is no later than its counter. -/
theorem Timed.earlier (timed : store.Timed) {cf : Cf} (versioned : cf.Versioned) :
    ∀ entry ∈ (store.db.family cf).entries, keyTt entry.1 ≤ store.committed :=
  fun entry member => le_trans (timed.stored cf versioned entry member) timed.reached

/-- Versions stamped at the counter can be added to earlier ones when the counter is persisted. -/
theorem timed_write {batch : WriteBatch} {tt : Timestamp} (stamped : StampedAt batch tt)
    (counter : store.committed = tt)
    (earlier : ∀ cf : Cf, cf.Versioned → ∀ entry ∈ (store.db.family cf).entries, keyTt entry.1 ≤ tt) :
    (store.dbWrite (batch ++ [.put .metadata META_ORACLE_CTR tt.toBeBytes])).Timed := by
  have persisted := store.persisted_dbWrite batch tt
  refine ⟨fun cf versioned => ?_, ?_⟩
  · rw [persisted]
    apply Db.entries_write cf (fun entry => keyTt entry.1 ≤ tt) (earlier cf versioned)
    intro key value put
    rcases List.mem_append.mp put with own | last
    · exact le_of_eq (stamped cf key value versioned own)
    · cases List.mem_singleton.mp last
      cases versioned
  · rw [persisted]
    exact le_of_eq counter.symm

/-- Versions up to the persisted counter can be added. -/
theorem Timed.insert (timed : store.Timed) {batch : WriteBatch} {tt : Timestamp}
    (stamped : StampedAt batch tt) (others : ∀ op ∈ batch, op.cf ≠ .metadata)
    (early : tt ≤ store.persisted) : (store.dbWrite batch).Timed := by
  have persisted : (store.dbWrite batch).persisted = store.persisted := by
    apply persisted_congr
    have family : (store.dbWrite batch).db.family .metadata = store.db.family .metadata :=
      Db.family_write_of_forall_ne _ fun op member => (others op member).symm
    rw [Db.get, Db.get, family]
  refine ⟨fun cf versioned => ?_, ?_⟩
  · rw [persisted]
    refine Db.entries_write cf (fun entry => keyTt entry.1 ≤ store.persisted) ?_ ?_
    · exact timed.stored cf versioned
    · intro key value put
      rw [stamped cf key value versioned put]
      exact early
  · rw [persisted]
    exact timed.reached

/-- Taking the next commit time keeps a store dated, until the counter runs out. -/
theorem Timed.beginCommit (timed : store.Timed) (room : store.committed ≠ Timestamp.END_OF_TIME)
    (wall : Timestamp) : (store.beginCommit wall).1.Timed :=
  timed.congr (fun _ _ => rfl) rfl
    (le_of_lt (lt_of_lt_of_le (Timestamp.lt_wrap_succ room) (le_max_left _ _)))

/-- Staging keeps a store dated. -/
theorem Timed.stageWrites (timed : store.Timed) (ext : External) (tt : Timestamp)
    (staging : Staging) (writes : List PendingWrite) :
    (TripleStore.stageWrites ext tt store staging writes).1.Timed := by
  refine timed.congr (fun cf versioned => ?_) (persisted_stageWrites tt store staging writes) ?_
  · exact family_stageWrites tt store staging writes (ne_metadata_of_versioned versioned)
  · rw [committed_stageWrites]

/-- A log entry has no version. -/
theorem stampedAt_batchChange (tt at_ : Timestamp) (author : String) (ops : List GraphOp)
    (quads : List StagedQuad) : StampedAt (batchChange tt author ops quads) at_ :=
  stampedAt_of_other fun op member => by
    rw [batchChange_cf member]
    exact id

/-- A commit keeps a store dated, until the counter runs out. -/
theorem Timed.commit (timed : store.Timed) (room : store.committed ≠ Timestamp.END_OF_TIME)
    (tx : Transaction) (wall : Timestamp) : (store.commit ext tx wall).1.Timed := by
  have begun := timed.beginCommit room wall
  have after := begun.stageWrites ext (store.beginCommit wall).2 Staging.none tx.writes
  have counter : (TripleStore.stageWrites ext (store.beginCommit wall).2 (store.beginCommit wall).1
      Staging.none tx.writes).1.committed = (store.beginCommit wall).2 :=
    committed_stageWrites _ _ _ _
  refine commit_rule ext store tx wall (fun _ => timed) (fun _ => begun) fun _ => ?_
  refine flush_rule ext _ tx _ (fun _ => after) fun middle staging batch staged built => ?_
  rw [staged] at after counter
  have stamped := stampedAt_stageWrites (Staging.Sound.none _)
    (fun _ _ _ _ none => absurd none List.not_mem_nil) staged
  obtain ⟨iris, dictionary, rfl⟩ := commitBatch_parts built
  have entries : StampedAt iris (store.beginCommit wall).2 :=
    stampedAt_of_other fun op member => by rw [dictionary op member]; exact id
  have logged := stamped.append (stampedAt_batchChange (store.beginCommit wall).2
    (store.beginCommit wall).2 tx.author tx.graphOps staging.quads)
  apply timed_write (logged.append entries) counter
  intro cf versioned
  rw [← counter]
  exact after.earlier versioned

/-- An insertion at a time the persisted counter has reached keeps a store dated. -/
theorem Timed.insertAtTs (timed : store.Timed) (triple : Triple) {tt : Timestamp}
    (early : tt ≤ store.persisted) : (store.insertAtTs ext triple tt).1.Timed := by
  have after := timed.stageWrites ext tt Staging.none [⟨triple, GraphId.DEFAULT, .auto⟩]
  have kept := @persisted_stageWrites ext tt store Staging.none [⟨triple, GraphId.DEFAULT, .auto⟩]
  unfold TripleStore.insertAtTs
  dsimp only
  split
  · rename_i staged
    rwa [staged] at after
  · rename_i middle staging staged
    rw [staged] at after kept
    have stamped := stampedAt_stageWrites (Staging.Sound.none _)
      (fun _ _ _ _ none => absurd none List.not_mem_nil) staged
    have others : ∀ op ∈ staging.batch ++ batchChange tt "" [] staging.quads, op.cf ≠ .metadata := by
      intro op member
      rcases List.mem_append.mp member with own | log
      · exact ((stageWrites_staged (fun _ none => absurd none List.not_mem_nil) staged op own).apart).2
      · rw [batchChange_cf log]
        simp
    have inserted := after.insert (stamped.append (stampedAt_batchChange _ _ _ _ _)) others
      (by rw [kept]; exact early)
    refine inserted.congr (fun cf _ => ?_) ?_ ?_
    · unfold advanceTo
      split_ifs <;> rfl
    · unfold advanceTo
      split_ifs <;> rfl
    · unfold advanceTo
      split_ifs with ahead
      · exact le_of_lt ahead
      · exact le_rfl

/-- What a triple adds to an import is stamped at the time of the import. -/
theorem importTriple_stamped {window : BiTemporalRange} {p : PredId} {batch next : WriteBatch}
    {quads more : List StagedQuad} {triple : Triple} {g : GraphId}
    (stamped : StampedAt batch window.tt) (dated : ∀ quad ∈ quads, quad.key.tt = window.tt)
    (done : store.importTriple ext window p (batch, quads) triple g = .ok (next, more)) :
    StampedAt next window.tt ∧ ∀ quad ∈ more, quad.key.tt = window.tt := by
  have both : ∀ own : StagedQuad, own.key.tt = window.tt →
      ∀ quad ∈ quads ++ [own], quad.key.tt = window.tt := by
    intro own time quad member
    rcases List.mem_append.mp member with old | new
    · exact dated quad old
    · rw [List.mem_singleton.mp new]
      exact time
  cases triple with
  | relation subject predicate object edgeId temporal =>
    cases done
    exact ⟨stamped, both _ rfl⟩
  | property subject predicate value temporal =>
    obtain ⟨⟨encoded, bytes⟩, entry, done⟩ := Except.bind_eq_ok.mp done
    cases done
    obtain ⟨blobs, rfl, apart⟩ := encodePropertyEntry_batch entry
    refine ⟨(stamped.append ?_).append ?_, both _ rfl⟩
    · exact stampedAt_of_other fun op member => by rw [batchTextTrigrams_cf member]; exact id
    · exact stampedAt_of_other fun op member => by rw [apart op member]; exact id
  | edgeProperty edge predicate value temporal =>
    obtain ⟨bytes, _, done⟩ := Except.bind_eq_ok.mp done
    cases done
    exact ⟨stamped.append (stampedAt_batchEpa _ _ _ _ _), dated⟩
  | edgeRelation edge predicate object temporal =>
    cases done
    exact ⟨stamped.append (stampedAt_batchEpo edge p object g { temporal with tt := window.tt }),
      dated⟩

/-- What triples add to an import is stamped at its time, and is no version when they are annotations. -/
theorem importTriples_stamped {window : BiTemporalRange} {ids : List (String × PredId)}
    {batch next : WriteBatch} {quads more : List StagedQuad} {triples : List (Triple × GraphId)}
    (stamped : StampedAt batch window.tt) (dated : ∀ quad ∈ quads, quad.key.tt = window.tt)
    (done : store.importTriples ext window ids (batch, quads) triples = .ok (next, more)) :
    (StampedAt next window.tt ∧ ∀ quad ∈ more, quad.key.tt = window.tt) ∧
      ((∀ entry ∈ triples, ofQuad ⟨entry.1, entry.2, .add⟩ = false) → more = quads) := by
  induction triples generalizing batch quads with
  | nil =>
    cases done
    exact ⟨⟨stamped, dated⟩, fun _ => rfl⟩
  | cons entry rest ih =>
    obtain ⟨triple, g⟩ := entry
    simp only [importTriples] at done
    obtain ⟨⟨middle, between⟩, one, done⟩ := Except.bind_eq_ok.mp done
    obtain ⟨first, second⟩ := importTriple_stamped stamped dated one
    obtain ⟨all, nothing⟩ := ih first second done
    refine ⟨all, fun annotations => ?_⟩
    have own := annotations _ List.mem_cons_self
    rw [nothing fun other later => annotations other (List.mem_cons_of_mem _ later)]
    cases triple with
    | relation | property => cases own
    | edgeProperty edge predicate value temporal =>
      obtain ⟨bytes, _, one⟩ := Except.bind_eq_ok.mp one
      cases one
      rfl
    | edgeRelation edge predicate object temporal =>
      cases one
      rfl

/-- Ingesting versions of the next time leaves every other key as it was. -/
theorem entries_ingestAll {sort : Order → List (Bytes × Bytes) → List (Bytes × Bytes)}
    (sorts : ∀ order, SortsByKey (sort order)) {quads : List StagedQuad} {tt : Timestamp}
    (dated : ∀ quad ∈ quads, quad.key.tt = tt) (orders : List Order) (cf : Cf) :
    ∀ entry ∈ ((store.ingestAll sort quads orders).db.family cf).entries,
      entry ∈ (store.db.family cf).entries ∨ keyTt entry.1 = tt := by
  induction orders generalizing store with
  | nil => exact fun entry member => Or.inl member
  | cons order rest ih =>
    intro entry member
    rcases ih entry member with before | new
    · dsimp only [ingestSorted] at before
      split_ifs at before with empty
      · exact Or.inl before
      · refine Db.entries_write cf (fun entry => entry ∈ (store.db.family cf).entries ∨
          keyTt entry.1 = tt) (fun _ old => Or.inl old) (fun key value put => Or.inr ?_) entry before
        obtain ⟨pair, listed, same⟩ := List.mem_map.mp put
        cases same
        have sorted := (mem_of_firstOf ((mem_dedupByKey ((sorts order).ordered _) pair).mp listed)).1
        obtain ⟨quad, within, rfl⟩ := List.mem_map.mp (((sorts order).perm _).mem_iff.mp sorted)
        rw [Order.keyTt_encode, dated quad within]
    · exact Or.inr new

/-- Ingesting no version changes nothing. -/
theorem ingestAll_nil (sort : Order → List (Bytes × Bytes) → List (Bytes × Bytes))
    (orders : List Order) : store.ingestAll sort [] orders = store := by
  induction orders with
  | nil => rfl
  | cons order rest ih => exact ih

/-- Interning predicates keeps a store dated. -/
theorem Timed.internAll (timed : store.Timed) (writes : List PendingWrite) :
    (store.internAll writes).Timed := by
  have persisted : (store.internAll writes).persisted = store.persisted := by
    clear timed
    induction writes generalizing store with
    | nil => rfl
    | cons w rest ih => exact ih.trans (store.persisted_internPredicate w.triple.predicate)
  apply timed.congr _ persisted
  · exact le_of_eq (committed_internAll writes store).symm
  · intro cf versioned
    exact family_internAll writes store (ne_metadata_of_versioned versioned)

/-- An import keeps a store dated if its dictionary is accepted, or it has no version to ingest. -/
theorem Timed.finishImport (timed : store.Timed) (room : store.committed ≠ Timestamp.END_OF_TIME)
    {sort : Order → List (Bytes × Bytes) → List (Bytes × Bytes)}
    (sorts : ∀ order, SortsByKey (sort order)) (importer : SstImporter) (wall now : Timestamp)
    (completes : (∃ entries, store.batchIris ext [] importer.iris = .ok entries) ∨
      ∀ entry ∈ importer.triples, ofQuad ⟨entry.1, entry.2, .add⟩ = false) :
    (store.finishImport ext sort importer wall now).1.Timed := by
  obtain ⟨named, time⟩ := store.importing_eq importer wall now
  have begun : (store.importing importer wall).Timed := by
    rw [named]
    exact (timed.beginCommit room wall).internAll _
  have counter : (store.importing importer wall).committed =
      ((store.predIds [] importer.triples).1.beginCommit wall).2 := rfl
  have dictionary : (store.importing importer wall).db.family .iri = store.db.family .iri := by
    rw [named]
    exact family_internAll _ (store.beginCommit wall).1 (by simp)
  unfold TripleStore.finishImport
  split_ifs
  · exact timed
  · dsimp only
    split
    · exact begun
    · rename_i batch quads built
      obtain ⟨⟨stamped, dated⟩, nothing⟩ := importTriples_stamped
        (fun _ _ _ _ none => absurd none List.not_mem_nil)
        (fun _ none => absurd none List.not_mem_nil) built
      have ingested : ((store.importing importer wall).ingestAll sort quads Order.ALL).db.family .iri =
          store.db.family .iri := by
        rw [← dictionary]
        exact family_ingestAll quads Order.ALL _ (by simp)
      have iris := @batchIris_append ext _ _ ingested batch importer.iris
      unfold ingestAll importing at iris
      rw [iris]
      cases accepted : store.batchIris ext [] importer.iris with
      | error problem =>
        -- Nothing was ingested, so the files leave no version behind.
        have annotations := completes.resolve_left fun ⟨_, fine⟩ => by rw [accepted] at fine; cases fine
        have empty : quads = [] := nothing annotations
        subst empty
        have same := @ingestAll_nil (store.importing importer wall) sort Order.ALL
        unfold ingestAll importing at same
        rw [same]
        exact begun
      | ok entries =>
        -- The batch is written after the files, and persists their time.
        obtain ⟨added, same, own⟩ := batchIris_cf accepted
        rw [List.nil_append] at same
        subst same
        have dictionary : StampedAt entries (store.importing importer wall).committed :=
          stampedAt_of_other fun op member => by rw [own op member]; exact id
        apply timed_write (stamped.append dictionary)
        · obtain ⟨db, same⟩ := @ingestAll_eq sort quads Order.ALL (store.importing importer wall)
          exact congrArg committed same
        · intro cf versioned entry member
          rcases @entries_ingestAll (store.importing importer wall) sort sorts quads _ dated Order.ALL
            cf entry member with before | new
          · exact begun.earlier versioned entry before
          · exact le_of_eq new

/-- A put to another key leaves the persisted counter. -/
theorem persisted_put (db : Db) {key : Bytes} (value : Bytes) (apart : META_ORACLE_CTR ≠ key) :
    (db.write [.put .metadata key value]).loadOracleTs = db.loadOracleTs := by
  have same : (db.write [.put .metadata key value]).get .metadata META_ORACLE_CTR =
      db.get .metadata META_ORACLE_CTR := by
    simp [Db.write, Db.get_apply_put, apart]
  simp only [Db.loadOracleTs, same]

/-- A put to the metadata leaves the other families. -/
theorem family_put (db : Db) (key value : Bytes) {cf : Cf} (apart : cf ≠ .metadata) :
    (db.write [.put .metadata key value]).family cf = db.family cf :=
  Db.family_write_of_forall_ne _ (by simp [WriteOp.cf, apart])

/-- Opening a store loads the counter that was persisted, and keeps the versions. -/
theorem open_spec {db : Db} {utf8Error : Bytes → String} {vocabulary : Vocabulary}
    (opened : TripleStore.open db utf8Error vocabulary = .ok after) :
    after.committed = db.loadOracleTs ∧ after.persisted = db.loadOracleTs ∧
      ∀ cf : Cf, cf.Versioned → after.db.family cf = db.family cf := by
  obtain ⟨checked, format, opened⟩ := Except.bind_eq_ok.mp opened
  obtain ⟨predicates, _, opened⟩ := Except.bind_eq_ok.mp opened
  obtain ⟨graphs, _, opened⟩ := Except.bind_eq_ok.mp opened
  cases opened
  have first : checked.loadOracleTs = db.loadOracleTs ∧
      ∀ cf : Cf, cf.Versioned → checked.family cf = db.family cf := by
    unfold Db.checkFormat at format
    split at format
    · split_ifs at format
      cases format
      exact ⟨rfl, fun _ _ => rfl⟩
    · cases format
      exact ⟨persisted_put db _ (by decide +kernel),
        fun cf versioned => family_put db _ _ (ne_metadata_of_versioned versioned)⟩
  have second : (checked.initChangesFloor checked.loadOracleTs).loadOracleTs = checked.loadOracleTs ∧
      ∀ cf : Cf, cf.Versioned →
        (checked.initChangesFloor checked.loadOracleTs).family cf = checked.family cf := by
    unfold Db.initChangesFloor
    split
    · exact ⟨rfl, fun _ _ => rfl⟩
    · exact ⟨persisted_put checked _ (by decide +kernel),
        fun cf versioned => family_put checked _ _ (ne_metadata_of_versioned versioned)⟩
  exact ⟨first.1, second.1.trans first.1,
    fun cf versioned => (second.2 cf versioned).trans (first.2 cf versioned)⟩

/-- A dated store is dated when it is opened again. -/
theorem Timed.open (timed : store.Timed) {utf8Error : Bytes → String} {vocabulary : Vocabulary}
    (opened : TripleStore.open store.db utf8Error vocabulary = .ok after) : after.Timed := by
  obtain ⟨committed, persisted, families⟩ := open_spec opened
  refine ⟨fun cf versioned => ?_, ?_⟩
  · rw [persisted, families cf versioned]
    exact timed.stored cf versioned
  · rw [persisted, committed]

/-- What can happen to a store: writes, imports and restarts. -/
inductive Passage where
  /-- A transaction commits at a clock. -/
  | commit (tx : Transaction) (wall : Timestamp)
  /-- A triple is inserted at an explicit time. -/
  | insertAtTs (triple : Triple) (tt : Timestamp)
  /-- What an importer collected is imported. -/
  | finishImport (sort : Order → { sort : List (Bytes × Bytes) → List (Bytes × Bytes) //
      SortsByKey sort }) (importer : SstImporter) (wall now : Timestamp)
  /-- The store is closed and opened. -/
  | reopen (utf8Error : Bytes → String) (vocabulary : Vocabulary)

/-- The store after something happened to it, unless it cannot be opened. -/
def pass (ext : External) (store : TripleStore) : Passage → Option TripleStore
  | .commit tx wall => some (store.commit ext tx wall).1
  | .insertAtTs triple tt => some (store.insertAtTs ext triple tt).1
  | .finishImport sort importer wall now =>
    some (store.finishImport ext (fun order => (sort order).1) importer wall now).1
  | .reopen utf8Error vocabulary => (TripleStore.open store.db utf8Error vocabulary).toOption

/--
What persists the counter along with the versions it writes.

The counter has room, an explicit time was reached by the persisted counter, and an import with
triples that are not annotations has IRIs the dictionary accepts.
-/
def PersistsTime (ext : External) (store : TripleStore) : Passage → Prop
  | .commit _ _ => store.committed ≠ Timestamp.END_OF_TIME
  | .insertAtTs _ tt => tt ≤ store.db.loadOracleTs
  | .finishImport _ importer _ _ => store.committed ≠ Timestamp.END_OF_TIME ∧
    ((∃ entries, store.batchIris ext [] importer.iris = .ok entries) ∨
      ∀ entry ∈ importer.triples, ofQuad ⟨entry.1, entry.2, .add⟩ = false)
  | .reopen _ _ => True

/-- The counter of a store is past every version it stores. -/
structure PastVersions (store : TripleStore) : Prop where
  /-- The counter has reached the time of every version. -/
  reached : ∀ cf : Cf, cf.Versioned → ∀ entry ∈ (store.db.family cf).entries,
    keyTt entry.1 ≤ store.committed
  /-- The next commit is later than every version, until the counter runs out. -/
  later : store.committed ≠ Timestamp.END_OF_TIME → ∀ wall, ∀ cf : Cf, cf.Versioned →
    ∀ entry ∈ (store.db.family cf).entries, keyTt entry.1 < (store.beginCommit wall).2
  /-- A transaction that begins reads at a time no version is past. -/
  seen : ∀ cf : Cf, cf.Versioned → ∀ entry ∈ (store.db.family cf).entries,
    keyTt entry.1 ≤ store.begin.readTs

/-- The counter is past every version whenever the store is opened again. -/
def NeverGoesBack (store : TripleStore) : Prop :=
  ∀ utf8Error vocabulary after, TripleStore.open store.db utf8Error vocabulary = .ok after →
    after.PastVersions

/-- The counter of a dated store is past its versions. -/
theorem Timed.pastVersions (timed : store.Timed) : store.PastVersions where
  reached _ versioned := timed.earlier versioned
  later room _ _ versioned entry member :=
    lt_of_le_of_lt (timed.earlier versioned entry member)
      (lt_of_lt_of_le (Timestamp.lt_wrap_succ room) (le_max_left _ _))
  seen _ versioned := timed.earlier versioned

/-- What persists the counter keeps a store dated. -/
theorem Timed.pass (timed : store.Timed) {passage : Passage} (persists : PersistsTime ext store passage)
    (taken : pass ext store passage = some after) : after.Timed := by
  cases passage with
  | commit tx wall =>
    cases taken
    exact timed.commit persists tx wall
  | insertAtTs triple tt =>
    cases taken
    exact timed.insertAtTs triple persists
  | finishImport sort importer wall now =>
    cases taken
    exact timed.finishImport persists.1 (fun order => (sort order).2) importer wall now persists.2
  | reopen utf8Error vocabulary =>
    cases opened : TripleStore.open store.db utf8Error vocabulary with
    | error problem =>
      simp only [TripleStore.pass, opened] at taken
      cases taken
    | ok next =>
      simp only [TripleStore.pass, opened] at taken
      cases taken
      exact timed.open opened

/-- Times never go back in runs that persist the counter along with the versions. -/
theorem never_goes_back {inlineMax : Nat} {vocabulary : Vocabulary} {canonical : Bool}
    (run : Runs (pass ext) (PersistsTime ext) (configured inlineMax vocabulary canonical) store) :
    NeverGoesBack store := by
  have timed : store.Timed := run.invariant
    (fun _ _ _ timed persists taken => timed.pass persists taken)
    (timed_configured inlineMax vocabulary canonical)
  intro utf8Error names after opened
  exact (timed.open opened).pastVersions

/-- A store opened with nothing in it. -/
def freshStore : TripleStore := configured DEFAULT_INLINE_VALUE_MAX_BYTES Vocabulary.default true

/-- The store after two nodes were related by a commit at a clock of five. -/
def relatedAtFive : TripleStore :=
  (freshStore.commit External.unreached ((Transaction.new Timestamp.zero).insertIn (knowsBy 3).1
    GraphId.DEFAULT .auto) (Timestamp.wrap 5)).1

/-- Relating them again at an earlier time does not take the counter back. -/
theorem never_goes_back_related : NeverGoesBack
    (relatedAtFive.insertAtTs External.unreached (knowsBy 3).1 (Timestamp.wrap 4)).1 := by
  have room : freshStore.committed ≠ Timestamp.END_OF_TIME := by decide +kernel
  have persisted : relatedAtFive.db.loadOracleTs = Timestamp.wrap 5 := by decide +kernel
  have early : Timestamp.wrap 4 ≤ relatedAtFive.db.loadOracleTs := by
    rw [persisted]
    decide
  exact never_goes_back (.step (.insertAtTs (knowsBy 3).1 (Timestamp.wrap 4))
    (.step (.commit _ (Timestamp.wrap 5)) (.done freshStore) room rfl) early rfl)

/-- A triple inserted at an explicit time is past the counter that is loaded afterwards. -/
theorem insertAtTs_goes_back : ¬ ∀ store : TripleStore,
    Runs (pass External.unreached) (fun _ _ => True) freshStore store → NeverGoesBack store := by
  intro always
  have run : Runs (pass External.unreached) (fun _ _ => True) freshStore
      (freshStore.insertAtTs External.unreached (knowsBy 3).1 (Timestamp.wrap 5)).1 :=
    .step (.insertAtTs (knowsBy 3).1 (Timestamp.wrap 5)) (.done freshStore) trivial rfl
  have kept := always _ run (fun _ => "") Vocabulary.default
  have opened : ((TripleStore.open (freshStore.insertAtTs External.unreached (knowsBy 3).1
      (Timestamp.wrap 5)).1.db (fun _ => "") Vocabulary.default).toOption.map fun after =>
        decide (∃ entry ∈ (after.db.family (.quads .spog)).entries,
          after.committed < keyTt entry.1)) = some true := by decide +kernel
  cases found : TripleStore.open (freshStore.insertAtTs External.unreached (knowsBy 3).1
      (Timestamp.wrap 5)).1.db (fun _ => "") Vocabulary.default with
  | error problem =>
    rw [found] at opened
    cases opened
  | ok after =>
    rw [found] at opened
    have past := of_decide_eq_true (Option.some.inj opened)
    obtain ⟨entry, member, behind⟩ := past
    exact absurd ((kept after found).reached (.quads .spog) trivial entry member) (not_le.mpr behind)

end TripleStore

end Polargraph
