import Polargraph.Proofs.Storage.GraphSteps
import Polargraph.Proofs.Storage.Logged
import Polargraph.Storage.Reads

/-! What is stored can be read, also across graphs, and writing again what was read stores the same value. -/

namespace Polargraph

variable {ext : External}

/-- A value has an encoding. -/
def Value.Serializes (ext : External) (value : Value) : Prop :=
  ∀ window, ∃ bytes, encodeProperty ext value window = .ok bytes

/-- Whether a value can be encoded, and in how many bytes, does not depend on the window. -/
theorem encodeProperty_window {value : Value} {window : BiTemporalRange} {bytes : Bytes}
    (encoded : encodeProperty ext value window = .ok bytes) (other : BiTemporalRange) :
    ∃ again, encodeProperty ext value other = .ok again ∧ again.length = bytes.length := by
  unfold encodeProperty at encoded ⊢
  split at encoded
  · cases encoded
    exact ⟨_, rfl, by simp⟩
  · split at encoded
    · cases encoded
    · rename_i json written
      cases encoded
      refine ⟨DISC_PROPERTY :: (other.vtStart.toBeBytes ++ other.vtEnd.toBeBytes ++ json), ?_, ?_⟩
      · rfl
      · simp

/-- What has a blob payload has an encoding. -/
theorem Value.serializes_of_encodeBlob {value : Value} {payload : Bytes}
    (encoded : encodeBlob ext value = .ok payload) : value.Serializes ext := by
  obtain ⟨full, inline, _⟩ := Except.bind_eq_ok.mp encoded
  intro window
  obtain ⟨again, written, _⟩ := encodeProperty_window inline window
  exact ⟨again, written⟩

/-- A stable value reads back. -/
theorem readsBack_of_stable {w : PendingWrite} (stable : w.Stable ext) :
    w.ReadsBack ext := by
  intro subject predicate value temporal same
  have own := stable subject predicate value temporal same
  cases value with
  | vector floats => exact Or.inl ⟨floats, rfl⟩
  | null | bool | int | float | text | blob | langText | typed =>
    exact Or.inr fun json written => ⟨_, own json written⟩

/-- A triple over another window. -/
def Triple.during (window : BiTemporalRange) : Triple → Triple
  | .relation subject predicate object edgeId _ => .relation subject predicate object edgeId window
  | .property subject predicate value _ => .property subject predicate value window
  | .edgeProperty edge predicate value _ => .edgeProperty edge predicate value window
  | .edgeRelation edge predicate object _ => .edgeRelation edge predicate object window

namespace TripleStore

variable {store middle after : TripleStore}

/-- A value has an encoding that is kept inline. -/
def Inlines (ext : External) (store : TripleStore) (value : Value) : Prop :=
  ∀ window, ∃ bytes, encodeProperty ext value window = .ok bytes ∧
    bytes.length - 17 ≤ store.inlineValueMaxBytes

/-- An inline value that was read is kept inline when it is written again. -/
def ReadsInline (ext : External) (store : TripleStore) (bytes : Bytes) : Prop :=
  ∀ value window, decodeValue ext bytes = .ok (.property value window) → store.Inlines ext value

/-- What was read can be written again. -/
structure Rewritable (ext : External) (store : TripleStore) : Prop where
  /-- Inline values stay inline. -/
  inline : ∀ key bytes, store.index key = some bytes → store.ReadsInline ext bytes
  /-- Out-of-line values have encodings. -/
  blobs : ∀ hash payload value, store.db.get .blob hash = some payload →
    decodeBlob ext payload = .ok value → value.Serializes ext

/-- Staying inline holds of relations and survives closing. -/
theorem carried_readsInline (ext : External) (store : TripleStore) :
    Carried (fun _ bytes => store.ReadsInline ext bytes) where
  relation object edgeId temporal := by
    intro value window decoded
    obtain ⟨_, ⟨head, _⟩ | ⟨head, _⟩⟩ := decodeValue_eq_property.mp decoded <;> cases head
  closed object bytes closed closing inline done := by
    intro value window decoded
    obtain ⟨before, same⟩ := property_of_withVtEnd done decoded
    exact inline value before same

/-- What a stable write stages of its own can be written again. -/
theorem encodes_rewritable {w : PendingWrite} (stable : w.Stable ext) :
    store.Encodes ext (fun _ bytes => store.ReadsInline ext bytes)
      (fun _ payload => ∀ value, decodeBlob ext payload = .ok value → value.Serializes ext) w := by
  intro subject predicate value window same batch blobs bytes temporal encoded
  have own := stable subject predicate value window same
  obtain ⟨full, inline, rest⟩ := Except.bind_eq_ok.mp encoded
  split_ifs at rest with small
  · -- The value is kept inline, so no payload is put.
    obtain ⟨same, rfl⟩ := Prod.mk.inj (Except.ok.inj rest)
    obtain rfl : blobs = [] := by simpa using same
    refine ⟨fun read before decoded other => ?_, by simp⟩
    rw [stable_of_encodeProperty own inline decoded]
    obtain ⟨again, written, length⟩ := encodeProperty_window inline other
    exact ⟨again, written, by rw [length]; exact small⟩
  · obtain ⟨payload, blob, rest⟩ := Except.bind_eq_ok.mp rest
    obtain ⟨same, rfl⟩ := Prod.mk.inj (Except.ok.inj rest)
    obtain rfl := List.append_cancel_left same
    refine ⟨fun read before decoded => ?_, fun hash written member read decoded => ?_⟩
    · obtain ⟨_, ⟨head, _⟩ | ⟨head, _⟩⟩ := decodeValue_eq_property.mp decoded <;> cases head
    · cases List.mem_singleton.mp member
      rw [stable_of_encodeBlob own blob decoded]
      exact Value.serializes_of_encodeBlob blob

/-- What is stored can be rebuilt. -/
structure Rebuildable (ext : External) (store : TripleStore) : Prop where
  /-- Names are interned. -/
  interned : store.Interned
  /-- References have their out-of-line values. -/
  resolves : store.index.Resolves store.db
  /-- Versions decode. -/
  decodes : ∀ key bytes, store.index key = some bytes → Decodes ext bytes
  /-- Out-of-line values decode. -/
  blobs : ∀ hash payload, store.db.get .blob hash = some payload →
    ∃ read, decodeBlob ext payload = .ok read

/-- A new store has nothing to rebuild. -/
theorem rebuildable_configured (ext : External) (inlineMax : Nat) (vocabulary : Vocabulary)
    (canonical : Bool) : (configured inlineMax vocabulary canonical).Rebuildable ext := by
  have blank := index_configured inlineMax vocabulary canonical
  refine ⟨fun _ _ => nofun, fun key bytes found => ?_, fun key bytes found => ?_,
    fun hash payload found => ?_⟩
  · rw [blank] at found
    cases found
  · rw [blank] at found
    cases found
  · rw [Db.get, family_configured (by simp)] at found
    cases found

/-- What a commit logs, and the references it writes. -/
theorem Rebuildable.logs (stored : store.Rebuildable ext) (holds : store.db.OrdersHold store.index)
    {tx : Transaction} (readsBack : ∀ w ∈ tx.writes, w.ReadsBack ext) (wall : Timestamp) :
    Logs ext store (store.commit ext tx wall).1 tx (store.commitQuads ext tx wall) :=
  commit_logs stored.interned (holds .gspo) stored.resolves stored.decodes readsBack wall

/-- After a commit of values that read back what is stored can be rebuilt. -/
theorem Rebuildable.commit (stored : store.Rebuildable ext)
    (holds : store.db.OrdersHold store.index) {tx : Transaction}
    (readsBack : ∀ w ∈ tx.writes, w.ReadsBack ext) (wall : Timestamp) :
    (store.commit ext tx wall).1.Rebuildable ext := by
  have logs := stored.logs holds readsBack wall
  obtain ⟨kept, backed⟩ := store.commit_blobs ext (holds .gspo) stored.resolves tx wall
  have index := @index_commit ext _ holds tx wall
  refine ⟨logs.interned, fun key bytes found isRef => ?_, fun key bytes found => ?_,
    fun hash payload found => ?_⟩
  · rw [index] at found
    rcases Index.putAll_eq_some found with old | new
    · exact kept _ (stored.resolves key bytes old isRef)
    · exact backed _ new isRef
  · rw [index] at found
    rcases Index.putAll_eq_some found with old | new
    · exact stored.decodes key bytes old
    · exact (logs.quads _ new).1
  · rcases logs.blobs hash payload found with old | new
    · exact stored.blobs hash payload old
    · exact new

/-- Interning a graph only touches the metadata and the dictionary. -/
theorem family_internGraph {iri : String} {g : GraphId}
    (done : store.internGraph ext iri = .ok (middle, g)) {cf : Cf} (tables : cf ≠ .metadata)
    (dictionary : cf ≠ .iri) : middle.db.family cf = store.db.family cf := by
  unfold internGraph at done
  split_ifs at done
  split at done
  · cases done
    rfl
  · obtain ⟨⟨batch, pending⟩, built, done⟩ := Except.bind_eq_ok.mp done
    cases done
    obtain ⟨entry, rfl, apart⟩ := batchIri_cf built
    refine Db.family_write_of_forall_ne _ fun op member => ?_
    rcases List.mem_append.mp member with table | other
    · simp only [List.mem_cons, List.not_mem_nil, or_false] at table
      rcases table with rfl | rfl | rfl <;> exact tables
    · rw [apart op other]
      exact dictionary

/-- Interning a graph names no predicate. -/
theorem names_internGraph {iri : String} {g : GraphId}
    (done : store.internGraph ext iri = .ok (middle, g)) :
    middle.fwd = store.fwd ∧ middle.rev = store.rev ∧ middle.nextPredId = store.nextPredId := by
  unfold internGraph at done
  split_ifs at done
  split at done
  · cases done
    exact ⟨rfl, rfl, rfl⟩
  · obtain ⟨_, _, done⟩ := Except.bind_eq_ok.mp done
    cases done
    exact ⟨rfl, rfl, rfl⟩

/-- Interning a graph keeps what is stored. -/
theorem Rebuildable.internGraph {iri : String} {g : GraphId} (stored : store.Rebuildable ext)
    (index : middle.index = store.index) (done : store.internGraph ext iri = .ok (middle, g)) :
    middle.Rebuildable ext := by
  have blobs : middle.db.get .blob = store.db.get .blob := by
    have family : middle.db.family .blob = store.db.family .blob :=
      family_internGraph done nofun nofun
    funext hash
    rw [Db.get, Db.get, family]
  obtain ⟨fwd, rev, _⟩ := names_internGraph done
  obtain ⟨interned, resolves, decodes, decoded⟩ := stored
  constructor
  · rw [Interned, fwd, rev]
    exact interned
  · rw [Index.Resolves, index, blobs]
    exact resolves
  · rw [index]
    exact decodes
  · rw [blobs]
    exact decoded

/-- After a commit of stable values what was read can still be written again. -/
theorem Rewritable.commit (rewritable : store.Rewritable ext)
    (holds : store.db.OrdersHold store.index) {tx : Transaction}
    (stable : ∀ w ∈ tx.writes, w.Stable ext) (wall : Timestamp) :
    (store.commit ext tx wall).1.Rewritable ext := by
  obtain ⟨quads, blobs⟩ := commit_all (holds .gspo) (carried_readsInline ext store)
    rewritable.inline (fun w member => encodes_rewritable (stable w member)) wall
  have limit := (sameSettings_commit ext store tx wall).limit
  have inline : ∀ bytes, store.ReadsInline ext bytes →
      (store.commit ext tx wall).1.ReadsInline ext bytes := by
    intro bytes reads value window decoded other
    rw [limit]
    exact reads value window decoded other
  refine ⟨fun key bytes found => ?_, fun hash payload value found => ?_⟩
  · rw [@index_commit ext _ holds] at found
    rcases Index.putAll_eq_some found with old | new
    · exact inline bytes (rewritable.inline key bytes old)
    · exact inline bytes (quads _ new)
  · rcases blobs _ (SortedMap.find?_eq_some.mp found) with old | new
    · exact rewritable.blobs hash payload value (SortedMap.find?_eq_some.mpr old)
    · exact new value

/-- A store in which everything is sound, can be read, and can be written again as it was read. -/
structure Intact (ext : External) (store : TripleStore) : Prop where
  /-- What is stored reads back as triples of its own quads. -/
  sound : store.Sound ext
  /-- What is stored can be rebuilt. -/
  stored : store.Rebuildable ext
  /-- What was read can be written again. -/
  rewritable : store.Rewritable ext
  /-- The predicate of every version has a name. -/
  named : ∀ key bytes, store.index key = some bytes → (store.rev key.p).isSome

/-- A new store is intact. -/
theorem intact_configured (ext : External) (inlineMax : Nat) (vocabulary : Vocabulary)
    (canonical : Bool) : (configured inlineMax vocabulary canonical).Intact ext := by
  have blank := index_configured inlineMax vocabulary canonical
  have blobs : ∀ hash, (configured inlineMax vocabulary canonical).db.get .blob hash = none := by
    intro hash
    rw [Db.get, family_configured (by simp)]
    rfl
  refine ⟨sound_configured ext inlineMax vocabulary canonical,
    rebuildable_configured ext inlineMax vocabulary canonical,
    ⟨fun key bytes found => ?_, fun hash payload value found => ?_⟩, fun key bytes found => ?_⟩
  · rw [blank] at found
    cases found
  · rw [blobs] at found
    cases found
  · rw [blank] at found
    cases found

/-- A commit of stable values keeps a store intact. -/
theorem Intact.commit (intact : store.Intact ext) (room : store.committed ≠ Timestamp.END_OF_TIME)
    {tx : Transaction} (stable : ∀ w ∈ tx.writes, w.Stable ext) (wall : Timestamp) :
    (store.commit ext tx wall).1.Intact ext := by
  have holds := intact.sound.keyed.holds
  have readsBack : ∀ w ∈ tx.writes, w.ReadsBack ext :=
    fun w member => readsBack_of_stable (stable w member)
  have logs := intact.stored.logs holds readsBack wall
  refine ⟨intact.sound.commit room tx stable wall, intact.stored.commit holds readsBack wall,
    intact.rewritable.commit holds stable wall, fun key bytes found => ?_⟩
  rw [@index_commit ext _ holds] at found
  rcases Index.putAll_eq_some found with old | new
  · exact logs.names _ (intact.named key bytes old)
  · exact (logs.quads _ new).2

/-- In an intact store every version is rebuilt. -/
theorem Intact.rebuilds (intact : store.Intact ext) {key : QuadKey} {bytes : Bytes}
    (found : store.index key = some bytes) (tt : Timestamp) :
    ∃ triple, store.reconstruct ext key.s key.p key.o tt bytes = .ok triple :=
  @Maintained.exists_reconstruct ext store key.toQuadIds bytes (intact.named key bytes found)
    (intact.stored.decodes key bytes found) (intact.stored.resolves key bytes found)
    intact.stored.blobs tt

/-- In an intact store every scan succeeds. -/
theorem Intact.scans (intact : store.Intact ext) (s : Option NodeId) (predicate : Option String)
    (o : Option NodeId) (scope : GraphScope) (point : ReadAt) (now : Timestamp) :
    ∃ found, store.scanScopedAt ext s predicate o scope point now = .ok found := by
  have run : ∀ p : Option PredId, predicate.map store.predicateId = p.map some →
      ∃ found, store.scanScopedAt ext s predicate o scope point now = .ok found := by
    intro p resolved
    rw [scanScopedAt_eq resolved]
    obtain ⟨quads, scanned⟩ := (snapshotScanKeyed_spec ext
      (intact.sound.keyed.holds (chooseOrder s p o scope).1) (chooseOrder_short s p o scope) point
      now scope).1.mpr fun ids slot finds =>
        intact.rebuilds (Index.history_eq_some.mp finds.governs.seen.stored).1 slot.tt
    exact ⟨_, Except.bind_eq_ok.mpr ⟨quads, scanned, rfl⟩⟩
  cases predicate with
  | none => exact run none rfl
  | some name =>
    cases known : store.predicateId name with
    | some id => exact run (some id) (by simp [known])
    | none => exact ⟨[], by simp only [scanScopedAt, known]; rfl⟩

/-- A transaction that reads everything conflicts with nothing. -/
theorem firstConflict_of_read {index : Index} (holds : store.db.OrderHolds .gspo index)
    {tx : Transaction} (read : ∀ key bytes, index key = some bytes → key.tt ≤ tx.readTs)
    (commitTs : Timestamp) : store.firstConflict ext tx commitTs = none := by
  refine List.findSome?_eq_none_iff.mpr fun w _ => ?_
  unfold checkConflict
  split
  · rfl
  · rename_i start _
    rw [if_neg]
    intro found
    obtain ⟨entry, member, later⟩ := List.any_eq_true.mp found
    obtain ⟨key, same, stored⟩ := (holds entry.1 entry.2).mp (SortedMap.mem_scanPrefix.mp member).1
    have late := (of_decide_eq_true later).1
    rw [same, Order.keyTt_encode] at late
    exact absurd late (not_lt.mpr (read key _ stored))

/-- A write says again what a version says, over another window and closing no other values. -/
def Restates (ext : External) (store : TripleStore) (w : PendingWrite) : Prop :=
  ∃ key bytes triple window, store.index key = some bytes ∧
    store.reconstruct ext key.s key.p key.o key.tt bytes = .ok triple ∧
    w.triple = triple.during window ∧ w.mode = .add

/-- A value that was read is stable, and is inline or stored under its own hash. -/
structure Held (ext : External) (store : TripleStore) (value : Value) : Prop where
  /-- It reads back. -/
  stable : value.Stable ext
  /-- It has an encoding. -/
  serializes : value.Serializes ext
  /-- It is kept inline, or is stored out of line. -/
  stored : store.Inlines ext value ∨ store.loadBlob ext (valueObject ext value) = .ok value

/-- A write that restates a version is of a known predicate, and of a value that is held. -/
theorem Intact.restates (intact : store.Intact ext) {w : PendingWrite}
    (restates : store.Restates ext w) : (store.predicateId w.triple.predicate).isSome ∧
      w.mode = .add ∧
      ((∃ subject predicate object edgeId window,
          w.triple = .relation subject predicate object edgeId window) ∨
        ∃ subject predicate value window, w.triple = .property subject predicate value window ∧
          store.Held ext value) := by
  obtain ⟨key, bytes, triple, window, found, rebuilt, said, mode⟩ := restates
  obtain ⟨own, stable⟩ := intact.sound.keyed.keepsKeys found rebuilt key.g .add
  obtain ⟨predicate, name, rebuilt⟩ := Except.bind_eq_ok.mp rebuilt
  obtain ⟨decoded, read, rebuilt⟩ := Except.bind_eq_ok.mp rebuilt
  rw [said]
  cases decoded with
  | relation edgeId temporal =>
    cases rebuilt
    obtain ⟨id, known, _⟩ := Option.map_eq_some_iff.mp own
    exact ⟨Option.isSome_iff_exists.mpr ⟨id, known⟩, mode, Or.inl ⟨_, _, _, _, _, rfl⟩⟩
  | property value temporal =>
    cases rebuilt
    obtain ⟨id, known, _⟩ := Option.map_eq_some_iff.mp own
    have inline := intact.rewritable.inline key bytes found value temporal read
    refine ⟨Option.isSome_iff_exists.mpr ⟨id, known⟩, mode, Or.inr ⟨_, _, _, _, rfl,
      stable _ _ _ _ rfl, fun other => ?_, Or.inl inline⟩⟩
    obtain ⟨again, written, _⟩ := inline other
    exact ⟨again, written⟩
  | propertyRef temporal =>
    obtain ⟨value, loaded, rebuilt⟩ := Except.bind_eq_ok.mp rebuilt
    cases rebuilt
    obtain ⟨id, known, slot⟩ := Option.map_eq_some_iff.mp own
    have object : valueObject ext value = key.o := congrArg QuadIds.o slot
    refine ⟨Option.isSome_iff_exists.mpr ⟨id, known⟩, mode, Or.inr ⟨_, _, _, _, rfl,
      stable _ _ _ _ rfl, ?_, Or.inr ?_⟩⟩
    · unfold loadBlob at loaded
      split at loaded
      · cases loaded
      · rename_i payload stored
        exact intact.rewritable.blobs _ payload value stored loaded
    · rw [object]
      exact loaded

/-- A write that restates a version is of a stable value. -/
theorem Intact.stable_restating (intact : store.Intact ext) {w : PendingWrite}
    (restates : store.Restates ext w) : w.Stable ext := by
  obtain ⟨_, _, ⟨_, _, _, _, _, said⟩ | ⟨_, _, _, _, said, held⟩⟩ := intact.restates restates
  · intro subject predicate value temporal same
    rw [said] at same
    cases same
  · intro subject predicate value temporal same
    rw [said] at same
    cases same
    exact held.stable

/-- Writes that restate versions are staged, and leave the store as it is. -/
theorem Intact.stages (intact : store.Intact ext) (tt : Timestamp) {writes : List PendingWrite}
    (restates : ∀ w ∈ writes, store.Restates ext w) (staging : Staging) :
    ∃ next, stageWrites ext tt store staging writes = (store, .ok next) := by
  induction writes generalizing staging with
  | nil => exact ⟨staging, rfl⟩
  | cons w rest ih =>
    obtain ⟨known, mode, said⟩ := intact.restates (restates w List.mem_cons_self)
    have same := internPredicate_known known
    have one : ∃ next, store.stageWrite ext tt (store.internPredicate w.triple.predicate).2
        staging w = .ok next := by
      obtain ⟨triple, g, own⟩ := w
      simp only at mode said
      rcases said with ⟨_, _, _, _, _, rfl⟩ | ⟨subject, predicate, value, window, rfl, held⟩
      · exact ⟨_, rfl⟩
      · have entry : ∃ entry, store.encodePropertyEntry ext staging.batch value
            { window with tt := tt } = .ok entry := by
          obtain ⟨bytes, written⟩ := held.serializes { window with tt := tt }
          obtain ⟨full, blank⟩ := held.serializes ⟨Timestamp.zero, Timestamp.zero, Timestamp.zero⟩
          by_cases small : bytes.length - 17 ≤ store.inlineValueMaxBytes
          · exact ⟨_, Except.bind_eq_ok.mpr ⟨bytes, written, if_pos small⟩⟩
          · exact ⟨_, Except.bind_eq_ok.mpr ⟨bytes, written, (if_neg small).trans
              (Except.bind_eq_ok.mpr ⟨_, Except.bind_eq_ok.mpr ⟨full, blank, rfl⟩, rfl⟩)⟩⟩
        obtain ⟨entry, encoded⟩ := entry
        rw [mode]
        exact ⟨_, Except.bind_eq_ok.mpr ⟨entry, encoded, rfl⟩⟩
    obtain ⟨middle, staged⟩ := one
    obtain ⟨next, done⟩ := ih (fun other member => restates other (List.mem_cons_of_mem _ member))
      middle
    refine ⟨next, ?_⟩
    simp only [stageWrites, same, staged]
    exact done

/-- Advancing the counter keeps a store intact. -/
theorem Intact.beginCommit (intact : store.Intact ext) (room : store.committed ≠ Timestamp.END_OF_TIME)
    (wall : Timestamp) : (store.beginCommit wall).1.Intact ext := by
  obtain ⟨⟨⟨holds, names, values, blobs⟩, recorded⟩, ⟨interned, resolves, decodes, reads⟩,
    ⟨inline, serializes⟩, named⟩ := intact
  have later : store.committed ≤ store.nextCommitTs wall :=
    le_of_lt (lt_of_lt_of_le (Timestamp.lt_wrap_succ room) (le_max_left _ _))
  exact ⟨⟨⟨holds, names, values, blobs⟩, fun key bytes found => le_trans (recorded key bytes found)
    later⟩, ⟨interned, resolves, decodes, reads⟩, ⟨inline, serializes⟩, named⟩

/-- A commit that restates versions it has read succeeds, and interns nothing. -/
theorem Intact.commit_restating (intact : store.Intact ext)
    (room : store.committed ≠ Timestamp.END_OF_TIME) {tx : Transaction}
    (restates : ∀ w ∈ tx.writes, store.Restates ext w) (read : store.committed ≤ tx.readTs)
    (iris : tx.iris = []) (wall : Timestamp) :
    (∃ time, (store.commit ext tx wall).2 = .ok time) ∧
      (∀ name, (store.commit ext tx wall).1.predicateId name = store.predicateId name) ∧
      (store.commit ext tx wall).1.rev = store.rev := by
  have published := intact.beginCommit room wall
  have restated : ∀ w ∈ tx.writes, (store.beginCommit wall).1.Restates ext w := restates
  have free := @firstConflict_of_read ext _ _ (published.sound.keyed.holds .gspo) tx
    (fun key bytes found => le_trans (intact.sound.recorded key bytes found) read)
    (store.beginCommit wall).2
  obtain ⟨next, staged⟩ := published.stages (store.beginCommit wall).2 restated Staging.none
  have built : (store.beginCommit wall).1.commitBatch ext tx (store.beginCommit wall).2 next =
      .ok (next.batch ++ batchChange (store.beginCommit wall).2 tx.author tx.graphOps next.quads ++
        [.put .metadata META_ORACLE_CTR (store.beginCommit wall).2.toBeBytes]) := by
    simp only [commitBatch, iris, batchIris]
    rfl
  unfold TripleStore.commit
  split_ifs
  · exact ⟨⟨_, rfl⟩, fun _ => rfl, rfl⟩
  · simp only [finishCommit, free, flush, staged, built]
    exact ⟨⟨_, rfl⟩, fun _ => rfl, rfl⟩

/-- After a commit that restates versions every out-of-line value is the one it was. -/
theorem Intact.loadBlob_restating (intact : store.Intact ext) {tx : Transaction}
    (restates : ∀ w ∈ tx.writes, store.Restates ext w) (wall : Timestamp) (node : NodeId) :
    (store.commit ext tx wall).1.loadBlob ext node = store.loadBlob ext node := by
  have holds := intact.sound.keyed.holds
  -- A payload that is put decodes to the value it was read from.
  have encodes : ∀ w ∈ tx.writes, store.Encodes ext (fun _ _ => True)
      (fun hash written => ∀ node : NodeId, node.uuid.bytes = hash →
        store.loadBlob ext node = decodeBlob ext written) w := by
    intro w member subject predicate value window same batch blobs bytes temporal encoded
    refine ⟨trivial, fun hash written put node own => ?_⟩
    obtain ⟨_, _, ⟨_, _, _, _, _, other⟩ | ⟨_, _, value', _, own', held⟩⟩ :=
      intact.restates (restates w member)
    · rw [same] at other
      cases other
    · rw [same] at own'
      obtain ⟨_, _, rfl, _⟩ := Triple.property.inj own'
      obtain ⟨full, inline, rest⟩ := Except.bind_eq_ok.mp encoded
      split_ifs at rest with small
      · obtain ⟨nothing, _⟩ := Prod.mk.inj (Except.ok.inj rest)
        obtain rfl : blobs = [] := by simpa using nothing
        cases put
      · obtain ⟨payload, blob, rest⟩ := Except.bind_eq_ok.mp rest
        obtain ⟨added, _⟩ := Prod.mk.inj (Except.ok.inj rest)
        obtain rfl := List.append_cancel_left added
        cases List.mem_singleton.mp put
        obtain rfl : node = valueObject ext value := NodeId.ext (Uuid.ext own)
        rcases held.stored with kept | loaded
        · obtain ⟨again, written, fits⟩ := kept temporal
          obtain rfl := Except.ok.inj (written.symm.trans inline)
          exact absurd fits small
        · have stable : PendingWrite.Stable ext ⟨.property subject predicate value window,
              GraphId.DEFAULT, .add⟩ := fun _ _ _ _ same => by cases same; exact held.stable
          obtain ⟨read, decoded⟩ := decodeBlob_encodeBlob (readsBack_of_stable stable _ _ _ _ rfl) blob
          rw [loaded, decoded, stable_of_encodeBlob held.stable blob decoded]
  have anything : Carried (fun _ _ => True) :=
    ⟨fun _ _ _ => trivial, fun _ _ _ _ _ _ => trivial⟩
  obtain ⟨_, blobs⟩ := commit_all (holds .gspo) anything (fun _ _ _ => trivial) encodes wall
  have kept := (store.commit_blobs ext (holds .gspo) intact.stored.resolves tx wall).1 node.uuid.bytes
  unfold loadBlob
  cases after : (store.commit ext tx wall).1.db.get .blob node.uuid.bytes with
  | none =>
    cases before : store.db.get .blob node.uuid.bytes with
    | none => rfl
    | some payload =>
      rw [before, after] at kept
      cases kept rfl
  | some written =>
    rcases blobs _ (SortedMap.find?_eq_some.mp after) with old | new
    · rw [show store.db.get .blob node.uuid.bytes = some written from
        SortedMap.find?_eq_some.mpr old]
    · exact (new node rfl).symm

/-- After a commit that restates versions everything is rebuilt as it was. -/
theorem Intact.reconstruct_restating (intact : store.Intact ext)
    (room : store.committed ≠ Timestamp.END_OF_TIME) {tx : Transaction}
    (restates : ∀ w ∈ tx.writes, store.Restates ext w) (read : store.committed ≤ tx.readTs)
    (iris : tx.iris = []) (wall : Timestamp) :
    (store.commit ext tx wall).1.reconstruct ext = store.reconstruct ext := by
  obtain ⟨_, _, rev⟩ := intact.commit_restating room restates read iris wall
  funext s p o tt bytes
  simp only [reconstruct, predicateOrErr, predicateString, rev,
    intact.loadBlob_restating restates wall o]

end TripleStore

namespace TripleStore

variable {store : TripleStore}

/-- When no two quads have the same subject, predicate and object, each keeps its triple. -/
theorem lowestGraphs_of_distinct {quads : List (QuadIds × Triple)}
    (distinct : (quads.map fun quad => (quad.1.s, quad.1.p, quad.1.o)).Nodup) :
    lowestGraphs quads = quads.map Prod.snd := by
  -- The loop appends one entry for each quad, since none has been held before.
  have loop : ∀ (rest : List (QuadIds × Triple)) (held : List ((NodeId × PredId × NodeId) × GraphId × Triple)),
      (held.map Prod.fst ++ rest.map fun quad => (quad.1.s, quad.1.p, quad.1.o)).Nodup →
      rest.foldl (fun held (quad : QuadIds × Triple) =>
        Latest.entryUpdate (quad.1.s, quad.1.p, quad.1.o) (quad.1.g, quad.2)
          (fun prev => if prev.1.raw ≤ quad.1.g.raw then prev else (quad.1.g, quad.2)) held) held =
        held ++ rest.map fun quad => ((quad.1.s, quad.1.p, quad.1.o), (quad.1.g, quad.2)) := by
    intro rest
    induction rest with
    | nil => simp
    | cons quad rest ih =>
      intro held apart
      have new : (quad.1.s, quad.1.p, quad.1.o) ∉ held.map Prod.fst := by
        intro member
        exact (List.nodup_append.mp apart).2.2 _ member _ (by simp) rfl
      rw [List.foldl_cons, Latest.entryUpdate_of_new new, ih]
      · simp
      · simpa using apart
  have whole := loop quads [] (by simpa using distinct)
  simp only [lowestGraphs]
  rw [show (quads.foldl _ [] : List ((NodeId × PredId × NodeId) × GraphId × Triple)) = _ from whole]
  simp

/-- What a read across all graphs returns when what it shows is in one graph. -/
theorem Intact.scanUnion_within (intact : store.Intact ext) {order : Order} {start : Bytes}
    (short : start.length ≤ QUAD_TUPLE_LEN) {point : ReadAt} {now : Timestamp} {g : GraphId}
    (within : ∀ ids, ScanAdmits order start point .union ids →
      store.Shows point.ts (point.vtAsOf.getD now) ids → ids.g = g) :
    ∃ quads : List (QuadIds × Triple),
      store.scanUnion ext order start point now = .ok (quads.map Prod.snd) ∧
      store.ScanResult ext point.ts (point.vtAsOf.getD now) (ScanAdmits order start point .union)
        quads := by
  have holds := intact.sound.keyed.holds
  obtain ⟨quads, scanned⟩ := (snapshotScanKeyed_spec ext (holds order) short point now
    .union).1.mpr fun ids slot finds =>
      intact.rebuilds (Index.history_eq_some.mp finds.governs.seen.stored).1 slot.tt
  have result := scanResult_of_keyed (holds order) short scanned
  refine ⟨quads, Except.bind_eq_ok.mpr ⟨quads, scanned, ?_⟩, result⟩
  split_ifs
  · rfl
  · -- All quads are in one graph, so those with the same triple are the same.
    have distinct : (quads.map fun quad => (quad.1.s, quad.1.p, quad.1.o)).Nodup := by
      have ids := result.distinct
      have same : (quads.map fun quad => (quad.1.s, quad.1.p, quad.1.o)) =
          (quads.map Prod.fst).map fun ids => (ids.s, ids.p, ids.o) := by simp
      rw [same]
      refine List.Nodup.map_on (fun left member right member' equal => ?_) ids
      obtain ⟨admits, shows⟩ := (result.mem_iff left).mp member
      obtain ⟨admits', shows'⟩ := (result.mem_iff right).mp member'
      obtain ⟨s, rest⟩ := Prod.mk.inj equal
      obtain ⟨p, o⟩ := Prod.mk.inj rest
      have g := (within left admits shows).trans (within right admits' shows').symm
      cases left
      cases right
      simp only at s p o g
      rw [s, p, o, g]
    rw [lowestGraphs_of_distinct distinct]
    rfl

end TripleStore

end Polargraph
