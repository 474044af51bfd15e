import Polargraph.Proofs.Storage.Keyed

/-! What the commits of graph operations leave as it was. -/

namespace Polargraph

namespace TripleStore

variable {ext : External} {store middle after : TripleStore}

/-- What is stored reads back, and was recorded by the counter. -/
structure Sound (ext : External) (store : TripleStore) : Prop where
  /-- What is stored reads back as triples of its own quads. -/
  keyed : store.Keyed ext
  /-- Every version was recorded by the counter. -/
  recorded : ∀ key bytes, store.index key = some bytes → key.tt ≤ store.committed

/-- A new store is sound. -/
theorem sound_configured (ext : External) (inlineMax : Nat) (vocabulary : Vocabulary)
    (canonical : Bool) : (configured inlineMax vocabulary canonical).Sound ext := by
  refine ⟨keyed_configured ext inlineMax vocabulary canonical, fun key bytes found => ?_⟩
  rw [index_configured] at found
  cases found

/-- The versions after a commit are those from before and those it wrote. -/
theorem index_commit (holds : store.db.OrdersHold store.index) (tx : Transaction)
    (wall : Timestamp) : (store.commit ext tx wall).1.index =
      store.index.putAll (store.commitQuads ext tx wall) :=
  Db.OrdersHold.index_eq fun order => commit_holds ext store (holds order) tx wall

/-- A commit does not take the counter back, and has it at the time of what it wrote. -/
theorem committed_commit (room : store.committed ≠ Timestamp.END_OF_TIME) (tx : Transaction)
    (wall : Timestamp) : store.committed ≤ (store.commit ext tx wall).1.committed ∧
      ∀ quad ∈ store.commitQuads ext tx wall,
        quad.key.tt = (store.commit ext tx wall).1.committed := by
  have later : store.committed ≤ store.nextCommitTs wall :=
    le_of_lt (lt_of_lt_of_le (Timestamp.lt_wrap_succ room) (le_max_left _ _))
  refine commit_rule ext store tx wall (fun _ => ⟨le_refl _, by simp⟩) (fun _ => ⟨later, by simp⟩)
    fun _ => ?_
  rw [committed_flush]
  exact ⟨later, fun quad member => stagedQuads_tt member⟩

/-- A commit of stable values keeps a store sound. -/
theorem Sound.commit (sound : store.Sound ext) (room : store.committed ≠ Timestamp.END_OF_TIME)
    (tx : Transaction) (stable : ∀ w ∈ tx.writes, w.Stable ext) (wall : Timestamp) :
    (store.commit ext tx wall).1.Sound ext := by
  obtain ⟨advanced, stamped⟩ := @committed_commit ext _ room tx wall
  refine ⟨sound.keyed.commit stable wall, fun key bytes found => ?_⟩
  rw [index_commit sound.keyed.holds] at found
  rcases Index.putAll_eq_some found with old | new
  · exact le_trans (sound.recorded key bytes old) advanced
  · exact le_of_eq (stamped _ new)

/-- A sound store whose counter has not run out is counted. -/
theorem Sound.counted (sound : store.Sound ext) (room : store.committed ≠ Timestamp.END_OF_TIME) :
    store.Counted := ⟨sound.recorded, room⟩

/-- Two stores know the same graphs. -/
structure SameGraphs (store after : TripleStore) : Prop where
  /-- The same IRIs are interned. -/
  graphFwd : after.graphFwd = store.graphFwd
  /-- The same identifiers have IRIs. -/
  graphRev : after.graphRev = store.graphRev
  /-- The next identifier is the same. -/
  nextGraphId : after.nextGraphId = store.nextGraphId

/-- A store knows its own graphs. -/
theorem SameGraphs.refl (store : TripleStore) : store.SameGraphs store := ⟨rfl, rfl, rfl⟩

/-- Knowing the same graphs is transitive. -/
theorem SameGraphs.trans (first : store.SameGraphs middle) (second : middle.SameGraphs after) :
    store.SameGraphs after where
  graphFwd := second.graphFwd.trans first.graphFwd
  graphRev := second.graphRev.trans first.graphRev
  nextGraphId := second.nextGraphId.trans first.nextGraphId

/-- Interning a predicate keeps the graphs. -/
theorem sameGraphs_internPredicate (store : TripleStore) (pred : String) :
    store.SameGraphs (store.internPredicate pred).1 := by
  simp only [internPredicate]
  split
  · exact .refl store
  · exact ⟨rfl, rfl, rfl⟩

/-- Staging keeps the graphs. -/
theorem sameGraphs_stageWrites (ext : External) (tt : Timestamp) (store : TripleStore)
    (staging : Staging) (writes : List PendingWrite) :
    store.SameGraphs (stageWrites ext tt store staging writes).1 :=
  stageWrites_keeps ext tt store staging writes (.refl store) fun before pred same =>
    same.trans (before.sameGraphs_internPredicate pred)

/-- A commit keeps the graphs. -/
theorem sameGraphs_commit (ext : External) (store : TripleStore) (tx : Transaction)
    (wall : Timestamp) : store.SameGraphs (store.commit ext tx wall).1 := by
  have published : store.SameGraphs (store.beginCommit wall).1 := ⟨rfl, rfl, rfl⟩
  exact commit_keeps ext store tx wall (.refl store) published
    (published.trans (sameGraphs_stageWrites ext _ _ Staging.none tx.writes))
    fun _ _ same => same.trans ⟨rfl, rfl, rfl⟩

/-- Two stores have the same settings. -/
structure SameSettings (store after : TripleStore) : Prop where
  /-- The same inline threshold. -/
  limit : after.inlineValueMaxBytes = store.inlineValueMaxBytes
  /-- The same vocabulary. -/
  vocabulary : after.vocabulary = store.vocabulary
  /-- Bare names are stored in the same form. -/
  canonicalNames : after.canonicalNames = store.canonicalNames

/-- A store has its own settings. -/
theorem SameSettings.refl (store : TripleStore) : store.SameSettings store := ⟨rfl, rfl, rfl⟩

/-- Having the same settings is transitive. -/
theorem SameSettings.trans (first : store.SameSettings middle) (second : middle.SameSettings after) :
    store.SameSettings after where
  limit := second.limit.trans first.limit
  vocabulary := second.vocabulary.trans first.vocabulary
  canonicalNames := second.canonicalNames.trans first.canonicalNames

/-- Names are stored in the same form under the same settings. -/
theorem SameSettings.canonicalName (same : store.SameSettings after) (name : String) :
    after.canonicalName name = store.canonicalName name := by
  unfold TripleStore.canonicalName
  rw [same.vocabulary, same.canonicalNames]

/-- Interning a predicate keeps the settings. -/
theorem sameSettings_internPredicate (store : TripleStore) (pred : String) :
    store.SameSettings (store.internPredicate pred).1 := by
  simp only [internPredicate]
  split
  · exact .refl store
  · exact ⟨rfl, rfl, rfl⟩

/-- Staging keeps the settings. -/
theorem sameSettings_stageWrites (ext : External) (tt : Timestamp) (store : TripleStore)
    (staging : Staging) (writes : List PendingWrite) :
    store.SameSettings (stageWrites ext tt store staging writes).1 :=
  stageWrites_keeps ext tt store staging writes (.refl store) fun before pred same =>
    same.trans (before.sameSettings_internPredicate pred)

/-- A commit keeps the settings. -/
theorem sameSettings_commit (ext : External) (store : TripleStore) (tx : Transaction)
    (wall : Timestamp) : store.SameSettings (store.commit ext tx wall).1 := by
  have published : store.SameSettings (store.beginCommit wall).1 := ⟨rfl, rfl, rfl⟩
  exact commit_keeps ext store tx wall (.refl store) published
    (published.trans (sameSettings_stageWrites ext _ _ Staging.none tx.writes))
    fun _ _ same => same.trans ⟨rfl, rfl, rfl⟩

/-- A commit keeps known names. -/
theorem predicateId_commit {tx : Transaction} {wall : Timestamp} {name : String} {id : PredId}
    (known : store.predicateId name = some id) :
    (store.commit ext tx wall).1.predicateId name = some id :=
  commit_keeps ext store tx wall known known
    (@predicateId_stageWrites (store.beginCommit wall).1 ext _ Staging.none tx.writes _ _ known)
    fun _ _ held => held

/-- Every version a write stages is of its slot. -/
theorem slot_stageWrite {index : Index} (holds : store.db.OrderHolds .gspo index) {tt : Timestamp}
    {p : PredId} {staging next : Staging} {w : PendingWrite}
    (done : store.stageWrite ext tt p staging w = .ok next) :
    ∀ quad ∈ next.quads, quad ∈ staging.quads ∨
      quad.key.s = w.triple.subject ∧ quad.key.p = p ∧ quad.key.g = w.graph := by
  obtain ⟨triple, g, mode⟩ := w
  intro quad member
  cases triple with
  | relation subject predicate object edgeId window =>
    cases done
    rcases List.mem_append.mp member with old | new
    · exact Or.inl old
    · rw [List.mem_singleton.mp new]
      exact Or.inr ⟨rfl, rfl, rfl⟩
  | property subject predicate value window =>
    obtain ⟨blobs, bytes, closing, _, _, closed, quads, _⟩ := stageWrite_property done
    rw [quads] at member
    rcases List.mem_append.mp member with old | new
    · exact Or.inl old
    · refine Or.inr ?_
      rcases List.mem_append.mp new with closes | here
      · obtain ⟨_, _, key, _⟩ := mem_stageClosings holds closed closes
        rw [key]
        exact ⟨rfl, rfl, rfl⟩
      · rw [List.mem_singleton.mp here]
        exact ⟨rfl, rfl, rfl⟩
  | edgeProperty edge predicate value window =>
    obtain ⟨bytes, _, done⟩ := Except.bind_eq_ok.mp done
    cases done
    exact Or.inl member
  | edgeRelation edge predicate object window =>
    cases done
    exact Or.inl member

/-- Every version a commit writes is of the slot of one of its writes. -/
theorem slot_commitQuads (holds : store.db.OrdersHold store.index) (tx : Transaction)
    (wall : Timestamp) : ∀ quad ∈ store.commitQuads ext tx wall,
      ∃ w ∈ tx.writes, quad.key.s = w.triple.subject ∧
        (store.commit ext tx wall).1.predicateId w.triple.predicate = some quad.key.p ∧
          quad.key.g = w.graph := by
  refine commit_rule ext store tx wall (fun _ => by simp) (fun _ => by simp) fun _ => ?_
  refine flush_rule ext _ tx _ (fun _ => by simp) fun after staging batch staged _ => ?_
  have published : (store.beginCommit wall).1.db.OrderHolds .gspo store.index := holds .gspo
  show ∀ quad ∈ staging.quads, ∃ w ∈ tx.writes, quad.key.s = w.triple.subject ∧
    after.predicateId w.triple.predicate = some quad.key.p ∧ quad.key.g = w.graph
  refine stageWrites_ordered (motive := fun after staging => ∀ quad ∈ staging.quads,
    ∃ w ∈ tx.writes, quad.key.s = w.triple.subject ∧ after.predicateId w.triple.predicate =
      some quad.key.p ∧ quad.key.g = w.graph) published ?_ staged ?_
  · exact fun _ member => absurd member List.not_mem_nil
  intro w member before staging next kept held done quad inside
  have interned := before.predicateId_internPredicate w.triple.predicate
  rcases slot_stageWrite kept done quad inside with old | ⟨subject, p, graph⟩
  · -- What was staged before keeps the name of its predicate.
    obtain ⟨other, listed, subject, named, graph⟩ := held quad old
    exact ⟨other, listed, subject, interned.2 _ _ named, graph⟩
  · exact ⟨w, member, subject, p ▸ interned.1, graph⟩

/-- A commit of writes to one graph writes versions of that graph. -/
theorem graph_commitQuads (holds : store.db.OrdersHold store.index) {tx : Transaction}
    {g : GraphId} (within : ∀ w ∈ tx.writes, w.graph = g) (wall : Timestamp) :
    ∀ quad ∈ store.commitQuads ext tx wall, quad.key.g = g := by
  intro quad member
  obtain ⟨w, listed, _, _, own⟩ := slot_commitQuads holds tx wall quad member
  exact own.trans (within w listed)

/-- The counter and the clock leave room for some more commits. -/
def HasRoom (store : TripleStore) (now : Timestamp) (commits : Nat) : Prop :=
  store.committed.micros + commits < 2 ^ 63 - 1 ∧ now.micros + commits < 2 ^ 63 - 1

/-- A store with room for a commit has a next timestamp. -/
theorem HasRoom.room {now : Timestamp} {commits : Nat} (room : store.HasRoom now commits) :
    store.committed ≠ Timestamp.END_OF_TIME := by
  intro last
  have bound := room.1
  rw [last] at bound
  simp only [Timestamp.END_OF_TIME] at bound
  omega

/-- Room for some commits is room for fewer. -/
theorem HasRoom.mono {now : Timestamp} {commits fewer : Nat} (room : store.HasRoom now commits)
    (less : fewer ≤ commits) : store.HasRoom now fewer := by
  obtain ⟨counter, clock⟩ := room
  exact ⟨by omega, by omega⟩

/-- A commit takes up the room of one. -/
theorem HasRoom.commit {now : Timestamp} {commits : Nat} (room : store.HasRoom now (commits + 1))
    (tx : Transaction) : (store.commit ext tx now).1.HasRoom now commits := by
  obtain ⟨counter, clock⟩ := room
  have low := store.committed.low
  have next : (store.nextCommitTs now).micros + commits < 2 ^ 63 - 1 := by
    have succ : (Timestamp.wrap (store.committed.micros + 1)).micros = store.committed.micros + 1 :=
      congrArg Timestamp.micros
        (Timestamp.wrap_micros ⟨store.committed.micros + 1, by omega, by push_cast at counter; omega⟩)
    unfold nextCommitTs
    rcases max_choice (Timestamp.wrap (store.committed.micros + 1)) now with same | same
    · rw [same, succ]
      push_cast at counter
      omega
    · rw [same]
      push_cast at clock
      omega
  unfold HasRoom
  push_cast at counter clock
  refine commit_rule ext store tx now
    (fun _ => ⟨show store.committed.micros + _ < _ by omega, by omega⟩)
    (fun _ => ⟨next, by omega⟩) fun _ => ?_
  rw [committed_flush]
  exact ⟨next, by omega⟩

/-- Only the quads of one graph may have new versions. -/
structure Beside (ext : External) (store : TripleStore) (g : GraphId) (after : TripleStore) :
    Prop where
  /-- The store stays sound. -/
  sound : after.Sound ext
  /-- The counter does not go back. -/
  advanced : store.committed ≤ after.committed
  /-- Known names stay known. -/
  names : ∀ name id, store.predicateId name = some id → after.predicateId name = some id
  /-- The quads of other graphs keep their histories. -/
  kept : ∀ ids, ids.g ≠ g → after.index.history ids = store.index.history ids

/-- A commit of stable values to one graph leaves the others as they were. -/
theorem beside_commit (sound : store.Sound ext) (room : store.committed ≠ Timestamp.END_OF_TIME)
    {tx : Transaction} {g : GraphId} (stable : ∀ w ∈ tx.writes, w.Stable ext)
    (within : ∀ w ∈ tx.writes, w.graph = g) (wall : Timestamp) :
    store.Beside ext g (store.commit ext tx wall).1 where
  sound := sound.commit room tx stable wall
  advanced := (committed_commit room tx wall).1
  names _ _ known := predicateId_commit known
  kept ids other := by
    rw [index_commit sound.keyed.holds]
    refine funext fun tt => ?_
    simp only [Index.history]
    rw [Index.putAll_of_forall_ne _ fun quad member same => other ?_]
    rw [← graph_commitQuads sound.keyed.holds within wall quad member, same]

/-- Interning a graph writes no versions and keeps what is known. -/
theorem internGraph_kept {iri : String} {g : GraphId} (sound : store.Sound ext)
    (done : store.internGraph ext iri = .ok (middle, g)) : middle.Sound ext ∧
      middle.committed = store.committed ∧ middle.index = store.index ∧
      (∀ name, middle.predicateId name = store.predicateId name) ∧
      middle.graphFwd iri = some g := by
  have orders := internGraph_orders sound.keyed.holds done
  have index : middle.index = store.index := Db.OrdersHold.index_eq orders
  unfold internGraph at done
  split_ifs at done
  split at done
  · rename_i id known
    cases done
    exact ⟨sound, rfl, rfl, fun _ => rfl, known⟩
  · obtain ⟨⟨batch, pending⟩, built, done⟩ := Except.bind_eq_ok.mp done
    obtain ⟨entry, rfl, apart⟩ := batchIri_cf built
    cases done
    refine ⟨⟨⟨by rw [index]; exact orders, sound.keyed.named, ?_, ?_⟩, ?_⟩, rfl, index,
      fun _ => rfl, Function.update_self _ _ _⟩
    · rw [index]
      exact sound.keyed.values
    · refine Db.entries_write .blob (fun entry => BlobFits ext entry.1 entry.2) sound.keyed.blobs
        fun hash payload put => ?_
      rcases List.mem_append.mp put with tables | dictionary
      · simp at tables
      · cases apart _ dictionary
    · rw [index]
      exact sound.recorded

/-- Interning a graph keeps the settings. -/
theorem sameSettings_internGraph {iri : String} {g : GraphId}
    (done : store.internGraph ext iri = .ok (middle, g)) : store.SameSettings middle := by
  unfold internGraph at done
  split_ifs at done
  split at done
  · cases done
    exact .refl store
  · obtain ⟨_, _, done⟩ := Except.bind_eq_ok.mp done
    cases done
    exact ⟨rfl, rfl, rfl⟩

/-- The identifier the system graph has, or gets on first use. -/
def systemGraphId (store : TripleStore) : GraphId :=
  (store.graphFwd SYSTEM_GRAPH_IRI).getD ⟨store.nextGraphId⟩

/-- Interning the system graph gives it its identifier. -/
theorem eq_systemGraphId {meta_ : GraphId} (done : store.systemGraph ext = .ok (middle, meta_)) :
    meta_ = store.systemGraphId := by
  unfold systemGraph internGraph at done
  unfold systemGraphId
  split_ifs at done
  split at done
  · rename_i known
    cases done
    rw [known]
    rfl
  · rename_i unknown
    obtain ⟨_, _, done⟩ := Except.bind_eq_ok.mp done
    cases done
    rw [unknown]
    rfl

/-- Setting the metadata of a graph only touches the system graph. -/
theorem setGraphMetadata_beside {g : GraphId} {metadata : List (String × Value)} {now : Timestamp}
    {commits : Nat} (sound : store.Sound ext) (room : store.HasRoom now (commits + 1))
    (stable : ∀ entry ∈ metadata, entry.2.Stable ext)
    (done : store.setGraphMetadata ext g metadata now = (after, .ok ())) :
    store.Beside ext store.systemGraphId after ∧
      after.graphFwd SYSTEM_GRAPH_IRI = some store.systemGraphId ∧ after.HasRoom now commits := by
  unfold setGraphMetadata at done
  split at done
  · cases done
  · rename_i node _
    split at done
    · cases done
    · rename_i middle meta_ interned
      obtain ⟨own, counter, index, names, known⟩ := internGraph_kept sound interned
      -- Every write is a metadata property in the system graph.
      have writes : ∀ tx : Transaction, (∀ w ∈ tx.writes, w.Stable ext ∧ w.graph = meta_) →
          ∀ w ∈ (metadata.foldl (fun (tx : Transaction) (entry : String × Value) =>
            tx.insertIn (.property node entry.1 entry.2 (.assertNow now)) meta_ .replace) tx).writes,
            w.Stable ext ∧ w.graph = meta_ := by
        clear done
        induction metadata with
        | nil => exact fun tx earlier => earlier
        | cons entry rest ih =>
          intro tx earlier
          refine ih (fun other member => stable other (List.mem_cons_of_mem _ member)) _
            fun w member => ?_
          rcases List.mem_append.mp member with old | new
          · exact earlier w old
          · rw [List.mem_singleton.mp new]
            refine ⟨fun subject predicate value temporal same => ?_, rfl⟩
            cases same
            exact stable entry List.mem_cons_self
      have each := writes middle.begin (by simp [begin, Transaction.new])
      generalize metadata.foldl (fun (tx : Transaction) (entry : String × Value) =>
        tx.insertIn (.property node entry.1 entry.2 (.assertNow now)) meta_ .replace)
          middle.begin = tx at done each
      simp only at done
      have space : middle.HasRoom now (commits + 1) := by
        rw [HasRoom, counter]
        exact room
      have beside := beside_commit own space.room (fun w member => (each w member).1)
        (fun w member => (each w member).2) now
      have graphs := sameGraphs_commit ext middle tx now
      have left := @HasRoom.commit ext _ _ _ space tx
      split at done
      · cases done
      · rename_i committed
        cases done
        rw [committed] at beside graphs left
        rw [← eq_systemGraphId interned]
        exact ⟨⟨beside.sound, counter ▸ beside.advanced,
          fun name id found => beside.names name id ((names name).trans found),
          fun ids other => (beside.kept ids other).trans (by rw [index])⟩,
          (congrFun graphs.graphFwd _).trans known, left⟩

/-- Closing a triple keeps what it is of. -/
theorem quadOf_closeAt (store : TripleStore) (now : Timestamp) (triple : Triple) (g : GraphId)
    (mode : WriteMode) : store.quadOf ext ⟨closeAt now triple, g, mode⟩ =
      store.quadOf ext ⟨triple, g, mode⟩ := by
  cases triple <;> rfl

/-- Closing a triple keeps its value. -/
theorem stable_closeAt {now : Timestamp} {triple : Triple} {g : GraphId} {mode : WriteMode}
    (stable : PendingWrite.Stable ext ⟨triple, g, mode⟩) :
    PendingWrite.Stable ext ⟨closeAt now triple, g, mode⟩ := by
  cases triple with
  | property subject predicate value temporal =>
    intro _ _ _ _ same
    cases same
    exact stable _ _ _ _ rfl
  | relation | edgeProperty | edgeRelation =>
    intro _ _ _ _ same
    cases same

/-- The triple of a scan result is one of its quad, and has a stable value. -/
theorem ReadFrom.keyed (keyed : store.Keyed ext) {ts vt : Timestamp} {ids : QuadIds}
    {triple : Triple} (read : store.ReadFrom ext ts vt ids triple) (g : GraphId) (mode : WriteMode) :
    store.quadOf ext ⟨triple, g, mode⟩ = some { ids with g := g } ∧
      PendingWrite.Stable ext ⟨triple, g, mode⟩ := by
  obtain ⟨tt, version, governs, _, _, rebuilt⟩ := read
  exact @Keyed.keepsKeys ext store keyed ⟨ids, tt⟩ _ (Index.history_eq_some.mp governs.seen.stored).1
    _ rebuilt g mode

/-- A store is what it is beside any graph. -/
theorem Beside.refl (sound : store.Sound ext) (g : GraphId) : store.Beside ext g store :=
  ⟨sound, le_refl _, fun _ _ known => known, fun _ _ => rfl⟩

/-- Clearing the metadata of a graph only touches the system graph. -/
theorem clearGraphMetadata_beside {g meta_ : GraphId} {predicate : String} {now : Timestamp}
    (sound : store.Sound ext) (room : store.HasRoom now 1)
    (known : store.graphFwd SYSTEM_GRAPH_IRI = some meta_)
    (done : store.clearGraphMetadata ext g predicate now = (after, .ok ())) :
    store.Beside ext meta_ after := by
  unfold clearGraphMetadata at done
  split at done
  · rename_i node own _ system
    obtain rfl : meta_ = own := Option.some.inj (known.symm.trans system)
    split at done
    · cases done
    · rename_i triples scanned
      obtain ⟨quads, found, scanned⟩ := Except.bind_eq_ok.mp scanned
      cases scanned
      have result := scanResult_of_keyed (sound.keyed.holds .gspo)
        (Order.keyPrefix_short .gspo (some node) none none (some meta_)) found
      -- Every write closes a triple of the system graph.
      have writes : ∀ (triples : List Triple), (∀ triple ∈ triples,
          PendingWrite.Stable ext ⟨triple, meta_, .add⟩) → ∀ tx : Transaction,
          (∀ w ∈ tx.writes, w.Stable ext ∧ w.graph = meta_) →
          ∀ w ∈ (triples.foldl (fun (tx : Transaction) triple =>
            tx.insertIn (closeAt now triple) meta_ .add) tx).writes,
            w.Stable ext ∧ w.graph = meta_ := by
        intro triples
        induction triples with
        | nil => exact fun _ tx earlier => earlier
        | cons first rest ih =>
          intro stable tx earlier
          refine ih (fun other member => stable other (List.mem_cons_of_mem _ member)) _
            fun w member => ?_
          rcases List.mem_append.mp member with old | new
          · exact earlier w old
          · rw [List.mem_singleton.mp new]
            exact ⟨stable_closeAt (stable first List.mem_cons_self), rfl⟩
      have each := writes ((quads.map Prod.snd).filter fun triple =>
        decide (triple.predicate = predicate)) (fun triple member => by
          obtain ⟨quad, inside, rfl⟩ := List.mem_map.mp (List.mem_filter.mp member).1
          exact ((result.read quad inside).keyed sound.keyed _ _).2) store.begin
        (by simp [begin, Transaction.new])
      simp only at done
      split at done
      · cases done
      · rename_i committed
        cases done
        have beside := beside_commit sound room.room (fun w member => (each w member).1)
          (fun w member => (each w member).2) now
        rwa [committed] at beside
  · cases done
    exact .refl sound meta_

end TripleStore

end Polargraph
