import Polargraph.Proofs.Server.QuadNames

/-! What one commit records in the history of each quad, and what it keeps of the others. -/

namespace Polargraph

namespace TripleStore

variable {ext : External} {store after : TripleStore}

/-- A commit that fails writes nothing. -/
theorem commitQuads_of_error {tx : Transaction} {wall : Timestamp} {problem : StorageError}
    (done : store.commit ext tx wall = (after, .error problem)) :
    store.commitQuads ext tx wall = [] := by
  revert done
  refine commit_rule ext store tx wall (fun _ _ => rfl) (fun _ _ => rfl) fun _ => ?_
  exact flush_rule ext _ tx _ (fun _ _ => rfl) fun _ _ _ _ _ done => by cases done

/-- What a commit makes of the history of a quad: nothing, or one more version, its last of the quad. -/
theorem Intact.history_commit (intact : store.Intact ext)
    (room : store.committed ≠ Timestamp.END_OF_TIME) {tx : Transaction}
    (stable : ∀ w ∈ tx.writes, w.Stable ext) {wall : Timestamp}
    (done : (store.commit ext tx wall).1 = after) (ids : QuadIds) :
    ((∀ quad ∈ store.commitQuads ext tx wall, quad.key.toQuadIds ≠ ids) ∧
      after.index.history ids = store.index.history ids) ∨
    ∃ quad ∈ store.commitQuads ext tx wall, quad.key.toQuadIds = ids ∧
      store.committed < after.committed ∧ ∃ start stop, validTime quad.value = some (start, stop) ∧
        after.index.history ids =
          (store.index.history ids).put after.committed ⟨start, stop, quad.value⟩ := by
  have holds := intact.sound.keyed.holds
  have readsBack : ∀ w ∈ tx.writes, w.ReadsBack ext :=
    fun w member => readsBack_of_stable (stable w member)
  have logs := intact.stored.logs holds readsBack wall
  have index := @index_commit ext _ holds tx wall
  obtain ⟨_, stamped⟩ := @committed_commit ext _ room tx wall
  have dated := @committed_commit_cases ext store tx wall
  rw [done] at index stamped dated
  -- Only the time of the commit can have a new version.
  have others : ∀ tt ≠ after.committed,
      after.index.history ids tt = store.index.history ids tt := by
    intro tt apart
    have same : after.index ⟨ids, tt⟩ = store.index ⟨ids, tt⟩ := by
      rw [index]
      refine Index.putAll_of_forall_ne _ fun quad member equal => apart ?_
      rw [← stamped quad member, equal]
    simp only [Index.history, same]
  cases last : ((store.commitQuads ext tx wall).filter
      (fun quad => decide (quad.key = ⟨ids, after.committed⟩))).getLast? with
  | none =>
    have nothing : ∀ quad ∈ store.commitQuads ext tx wall, quad.key.toQuadIds ≠ ids := by
      intro quad member own
      rw [List.getLast?_eq_none_iff, List.filter_eq_nil_iff] at last
      refine last quad member (decide_eq_true ?_)
      rw [← own, ← stamped quad member]
    refine Or.inl ⟨nothing, funext fun tt => ?_⟩
    have same : after.index ⟨ids, tt⟩ = store.index ⟨ids, tt⟩ := by
      rw [index]
      exact Index.putAll_of_forall_ne _ fun quad member equal => nothing quad member (by rw [equal])
    simp only [Index.history, same]
  | some quad =>
    obtain ⟨member, own⟩ := List.mem_filter.mp (List.mem_of_getLast? last)
    have key := of_decide_eq_true own
    obtain ⟨decoded, read⟩ := (logs.quads quad member).1
    obtain ⟨⟨start, stop⟩, window⟩ := validTime_of_decodeValue read
    have later : store.committed < after.committed := by
      rcases dated with next | ⟨_, nothing⟩
      · rw [next]
        exact lt_of_lt_of_le (Timestamp.lt_wrap_succ room) (le_max_left _ _)
      · rw [nothing] at member
        cases member
    refine Or.inr ⟨quad, member, by rw [key], later, start, stop, window, funext fun tt => ?_⟩
    by_cases here : tt = after.committed
    · subst here
      rw [History.put_self]
      exact Index.history_eq_some.mpr ⟨by rw [index, Index.putAll_apply, last], window⟩
    · rw [others tt here, History.put_of_ne here]

/-- A committed transaction with one write stages that write, once its predicate is known. -/
theorem commit_single {w : PendingWrite} {tx : Transaction} {wall time : Timestamp}
    (only : tx.writes = [w]) (done : store.commit ext tx wall = (after, .ok time)) :
    ∃ (middle : TripleStore) (p : PredId) (staging : Staging),
      middle.inlineValueMaxBytes = store.inlineValueMaxBytes ∧
      middle.db.family (.quads .gspo) = store.db.family (.quads .gspo) ∧
      after.predicateId w.triple.predicate = some p ∧
      middle.stageWrite ext after.committed p Staging.none w = .ok staging ∧
      store.commitQuads ext tx wall = staging.quads := by
  rcases commit_ok done with
    ⟨_, blank, _⟩ | ⟨_, rfl, middle, staging, batch, staged, _, rfl, quads⟩
  · rw [only] at blank
    cases blank
  · have counter := @committed_stageWrites ext (store.nextCommitTs wall)
      (store.beginCommit wall).1 Staging.none tx.writes
    rw [staged] at counter
    rw [only] at staged
    obtain ⟨_, own, last⟩ := stageWrites_cons staged
    cases last
    refine ⟨_, _, staging, ?_,
      family_internPredicate (store.beginCommit wall).1 w.triple.predicate (by simp),
      ((store.beginCommit wall).1.predicateId_internPredicate w.triple.predicate).1, ?_, quads⟩
    · simp only [internPredicate]
      split <;> rfl
    · refine Eq.trans ?_ own
      exact congrArg (fun tt => stageWrite ext _ tt _ _ w) counter

/-- No other value than that of a write is stored out of line under its hash. -/
def Apart (ext : External) (store : TripleStore) (w : PendingWrite) : Prop :=
  ∀ subject predicate value window, w.triple = .property subject predicate value window →
    ∀ held, store.loadBlob ext (valueObject ext value) = .ok held → held = value

/-- A write puts its value out of line. -/
def PutsOut (ext : External) (store : TripleStore) (w : PendingWrite) (value : Value) : Prop :=
  ∃ subject predicate window, w.triple = .property subject predicate value window ∧
    ∃ inline, encodeProperty ext value window = .ok inline ∧
      store.inlineValueMaxBytes < inline.length - 17

/-- What a commit puts out of line is the value of one of the writes that are put out of line. -/
theorem puts_commit (holds : store.db.OrdersHold store.index) {tx : Transaction}
    (stable : ∀ w ∈ tx.writes, w.Stable ext) (wall : Timestamp) :
    ∀ entry ∈ ((store.commit ext tx wall).1.db.family .blob).entries,
      entry ∈ (store.db.family .blob).entries ∨
        ∃ w ∈ tx.writes, ∃ value, store.PutsOut ext w value ∧
          (valueObject ext value).uuid.bytes = entry.1 ∧ decodeBlob ext entry.2 = .ok value := by
  have anything : Carried (fun _ _ => True) :=
    ⟨fun _ _ _ => trivial, fun _ _ _ _ _ _ => trivial⟩
  have encodes : ∀ w ∈ tx.writes, store.Encodes ext (fun _ _ => True)
      (fun hash written => ∃ w ∈ tx.writes, ∃ value, store.PutsOut ext w value ∧
        (valueObject ext value).uuid.bytes = hash ∧ decodeBlob ext written = .ok value) w := by
    intro w member subject predicate value window same batch blobs bytes temporal encoded
    refine ⟨trivial, fun hash written put => ?_⟩
    have own := stable w member subject predicate value window same
    obtain ⟨inline, full, encoded⟩ := Except.bind_eq_ok.mp encoded
    split_ifs at encoded with small
    · -- An inline value puts nothing.
      obtain rfl : blobs = [] := by simpa using congrArg Prod.fst (Except.ok.inj encoded)
      cases put
    · obtain ⟨payload, blob, encoded⟩ := Except.bind_eq_ok.mp encoded
      obtain ⟨put', _⟩ := Prod.mk.inj (Except.ok.inj encoded)
      obtain rfl := List.append_cancel_left put'
      cases List.mem_singleton.mp put
      obtain ⟨again, written, length⟩ := encodeProperty_window full window
      obtain ⟨read, decoded⟩ := decodeBlob_encodeBlob
        (readsBack_of_stable (stable w member) subject predicate value window same) blob
      obtain rfl := stable_of_encodeBlob own blob decoded
      exact ⟨w, member, read, ⟨subject, predicate, window, same, again, written, by omega⟩, rfl,
        decoded⟩
  exact (commit_all (holds .gspo) anything (fun _ _ _ => trivial) encodes wall).2

/-- What loads still loads after a commit that puts nothing else under its hash. -/
theorem loadBlob_commit (holds : store.db.OrdersHold store.index)
    (resolves : store.index.Resolves store.db) {tx : Transaction}
    (stable : ∀ w ∈ tx.writes, w.Stable ext)
    (alike : ∀ w ∈ tx.writes, ∀ value, store.PutsOut ext w value →
      ∀ held, store.loadBlob ext (valueObject ext value) = .ok held → held = value)
    (wall : Timestamp) {node : NodeId} {held : Value} (loaded : store.loadBlob ext node = .ok held) :
    (store.commit ext tx wall).1.loadBlob ext node = .ok held := by
  obtain ⟨payload, found, decoded⟩ := loadBlob_eq_ok.mp loaded
  have kept := (store.commit_blobs ext (holds .gspo) resolves tx wall).1 node.uuid.bytes
  obtain ⟨written, now⟩ := Option.isSome_iff_exists.mp (kept (by rw [found]; rfl))
  refine loadBlob_eq_ok.mpr ⟨written, now, ?_⟩
  -- What was stored under the hash still is, or another encoding of the same value.
  rcases puts_commit holds stable wall _ (SortedMap.find?_eq_some.mp now) with
    old | ⟨w, member, value, puts, hash, new⟩
  · rw [show store.db.get .blob node.uuid.bytes = some written from
      SortedMap.find?_eq_some.mpr old] at found
    obtain rfl := Option.some.inj found
    exact decoded
  · obtain rfl : valueObject ext value = node := NodeId.ext (Uuid.ext hash)
    rw [alike w member value puts held loaded]
    exact new

/-- What is out of line after a commit loads as the value that alone it puts there. -/
theorem loadBlob_put (holds : store.db.OrdersHold store.index) (stored : store.Rebuildable ext)
    {tx : Transaction} (stable : ∀ w ∈ tx.writes, w.Stable ext) {wall : Timestamp} {value : Value}
    (alike : ∀ held, store.loadBlob ext (valueObject ext value) = .ok held → held = value)
    (together : ∀ w ∈ tx.writes, ∀ other, store.PutsOut ext w other →
      valueObject ext value = valueObject ext other → value = other)
    (put : ((store.commit ext tx wall).1.db.get .blob
      (valueObject ext value).uuid.bytes).isSome) :
    (store.commit ext tx wall).1.loadBlob ext (valueObject ext value) = .ok value := by
  obtain ⟨written, now⟩ := Option.isSome_iff_exists.mp put
  refine loadBlob_eq_ok.mpr ⟨written, now, ?_⟩
  rcases puts_commit holds stable wall _ (SortedMap.find?_eq_some.mp now) with
    old | ⟨other, within, read, own, hash, new⟩
  · have before : store.db.get .blob (valueObject ext value).uuid.bytes = some written :=
      SortedMap.find?_eq_some.mpr old
    obtain ⟨held, decoded⟩ := stored.blobs _ _ before
    rw [← alike held (loadBlob_eq_ok.mpr ⟨written, before, decoded⟩)]
    exact decoded
  · rw [together other within read own (NodeId.ext (Uuid.ext hash.symm))]
    exact new

/-- Values that are apart from what is stored put nothing else under its hashes. -/
theorem Apart.alike {w : PendingWrite} (apart : store.Apart ext w) {value held : Value}
    (puts : store.PutsOut ext w value)
    (loaded : store.loadBlob ext (valueObject ext value) = .ok held) : held = value := by
  obtain ⟨subject, predicate, window, said, _⟩ := puts
  exact apart subject predicate value window said held loaded

/-- A commit of values that are apart from what is stored keeps what loads. -/
theorem Intact.loadBlob_commit (intact : store.Intact ext) {tx : Transaction}
    (stable : ∀ w ∈ tx.writes, w.Stable ext) (apart : ∀ w ∈ tx.writes, store.Apart ext w)
    (wall : Timestamp) {node : NodeId} {held : Value} (loaded : store.loadBlob ext node = .ok held) :
    (store.commit ext tx wall).1.loadBlob ext node = .ok held :=
  TripleStore.loadBlob_commit intact.sound.keyed.holds intact.stored.resolves stable
    (fun w member _ puts _ => (apart w member).alike puts) wall loaded

/-- What a committed transaction with one write of a value put out of line loads as that value. -/
theorem Intact.loadBlob_written (intact : store.Intact ext) {w : PendingWrite} {tx : Transaction}
    (only : tx.writes = [w]) (stable : w.Stable ext) (apart : store.Apart ext w) {wall : Timestamp}
    {subject : NodeId} {predicate : String} {value : Value} {window : BiTemporalRange}
    (same : w.triple = .property subject predicate value window)
    (put : ((store.commit ext tx wall).1.db.get .blob
      (valueObject ext value).uuid.bytes).isSome) :
    (store.commit ext tx wall).1.loadBlob ext (valueObject ext value) = .ok value := by
  refine loadBlob_put intact.sound.keyed.holds intact.stored ?_ (apart _ _ _ _ same) ?_ put
  · rw [only]
    exact fun other member => List.mem_singleton.mp member ▸ stable
  · rw [only]
    rintro other member read ⟨_, _, _, own, _⟩ _
    rw [List.mem_singleton.mp member, same] at own
    exact (Triple.property.inj own).2.2.1

/-- Every known name is spelled by its identifier. -/
def Spelled (store : TripleStore) : Prop :=
  ∀ name p, store.fwd name = some p → store.rev p = some name

/-- Names that are spelled by the same identifier are stored in the same form. -/
theorem Spelled.canonicalName_inj (spelled : store.Spelled) {left right : String} {p : PredId}
    (first : store.predicateId left = some p) (second : store.predicateId right = some p) :
    store.canonicalName left = store.canonicalName right := by
  rw [predicateId_eq] at first second
  exact Option.some.inj ((spelled _ _ first).symm.trans (spelled _ _ second))

/-- Interning a predicate keeps every name spelled while there are identifiers left. -/
theorem Spelled.internPredicate (spelled : store.Spelled) (numbered : store.Numbered)
    (pred : String) : (store.internPredicate pred).1.Spelled := by
  intro name p found
  cases known : store.fwd (store.canonicalName pred) with
  | some id =>
    simp only [TripleStore.internPredicate, known] at found ⊢
    exact spelled name p found
  | none =>
    simp only [TripleStore.internPredicate, known, Function.update_apply] at found ⊢
    split_ifs at found with own
    · obtain rfl := Option.some.inj found
      rw [if_pos rfl, own]
    · have before := spelled name p found
      -- The new identifier is past the one of every name from before.
      rw [if_neg fun same => ?_]
      · exact before
      · have early := numbered p name before
        rw [same] at early
        exact absurd early (Nat.lt_irrefl _)

/-- Staging keeps every name spelled while there are identifiers left. -/
theorem Spelled.stageWrites (spelled : store.Spelled) (numbered : store.Numbered) (ext : External)
    (tt : Timestamp) (staging : Staging) {writes : List PendingWrite}
    (room : store.nextPredId.toNat + writes.length < 2 ^ 32) :
    (TripleStore.stageWrites ext tt store staging writes).1.Spelled := by
  induction writes generalizing store staging with
  | nil => exact spelled
  | cons w rest ih =>
    simp only [List.length_cons] at room
    have own := spelled.internPredicate numbered w.triple.predicate
    have first := keepsNames_internPredicate numbered (by omega) w.triple.predicate
    have few := first.few
    simp only [TripleStore.stageWrites]
    split
    · exact own
    · exact ih own first.numbered _ (by omega)

/-- A commit keeps every name spelled while there are identifiers left. -/
theorem Spelled.commit (spelled : store.Spelled) (numbered : store.Numbered) {tx : Transaction}
    (room : store.nextPredId.toNat + tx.writes.length < 2 ^ 32) (wall : Timestamp) :
    (store.commit ext tx wall).1.Spelled := by
  have published : (store.beginCommit wall).1.Spelled := spelled
  exact commit_keeps ext store tx wall spelled published
    (published.stageWrites (show (store.beginCommit wall).1.Numbered from numbered) ext _ _ room)
    fun _ _ kept => kept

/-- What a version reads back as is kept by a commit of values that are apart from what is stored. -/
theorem Intact.reconstruct_commit (intact : store.Intact ext) {tx : Transaction}
    (stable : ∀ w ∈ tx.writes, w.Stable ext) (apart : ∀ w ∈ tx.writes, store.Apart ext w)
    {wall : Timestamp} {fresh : Nat}
    (keeps : store.KeepsNames (store.commit ext tx wall).1 fresh) {s o : NodeId} {p : PredId}
    {tt : Timestamp} {bytes : Bytes} {triple : Triple}
    (rebuilt : store.reconstruct ext s p o tt bytes = .ok triple) :
    (store.commit ext tx wall).1.reconstruct ext s p o tt bytes = .ok triple :=
  reconstruct_mono (keeps.rev p) (fun _ => intact.loadBlob_commit stable apart wall) rebuilt

/-- The version of a relation reads back as that relation. -/
theorem reconstruct_relation {s o : NodeId} {p : PredId} {name : String}
    (named : store.rev p = some name) (edge : EdgeId) (window : BiTemporalRange) (tt : Timestamp) :
    ∃ during, store.reconstruct ext s p o tt (encodeRelation edge window) =
      .ok (.relation s name o edge during) := by
  have head : (encodeRelation edge window).head? = some DISC_RELATION := rfl
  have long : ¬ (encodeRelation edge window).length < 33 := by
    simp [encodeRelation, edge.uuid.width]
  -- The edge stands right behind the discriminant.
  have edge_at : slice (encodeRelation edge window) 1 17 = edge.uuid.bytes := by
    simp only [slice, encodeRelation, List.drop_one, List.tail_cons, List.append_assoc]
    exact List.take_left' edge.uuid.width
  have read : decodeValue ext (encodeRelation edge window) =
      .ok (.relation edge (decodedWindow (encodeRelation edge window) 17 25)) := by
    simp only [decodeValue, head, if_true, if_neg long, edge_at, Uuid.fromSlice_bytes]
  refine ⟨_, Except.bind_eq_ok.mpr ⟨name, ?_, Except.bind_eq_ok.mpr ⟨_, read, rfl⟩⟩⟩
  simp only [predicateOrErr, predicateString, named]

/-- The version of a property reads back as that property. -/
theorem reconstruct_property {middle : TripleStore} {s : NodeId} {p : PredId} {name : String}
    {value : Value} {temporal : BiTemporalRange} {batch put : WriteBatch} {bytes : Bytes}
    (named : store.rev p = some name) (stable : value.Stable ext)
    (encoded : middle.encodePropertyEntry ext batch value temporal = .ok (put, bytes))
    (decodes : Decodes ext bytes)
    (loads : IsRef bytes → store.loadBlob ext (valueObject ext value) = .ok value)
    (tt : Timestamp) :
    ∃ during, store.reconstruct ext s p (valueObject ext value) tt bytes =
      .ok (.property s name value during) := by
  have spelled : store.predicateOrErr p = .ok name := by
    simp only [predicateOrErr, predicateString, named]
  obtain ⟨decoded, read⟩ := decodes
  rcases encodePropertyEntry_cases encoded with ⟨inline, _⟩ | ⟨_, _, ref, _⟩
  · -- An inline encoding decodes to the value itself.
    have head : ∃ disc, bytes.head? = some disc ∧ (disc = DISC_PROPERTY ∨ disc = DISC_VECTOR) := by
      obtain ⟨disc, payload, kind, rfl⟩ := encodeProperty_shape inline
      exact ⟨disc, rfl, kind⟩
    obtain ⟨disc, first, kind⟩ := head
    obtain ⟨other, window, rfl⟩ := property_of_decodeValue first kind read
    obtain rfl := stable_of_encodeProperty stable inline read
    exact ⟨_, Except.bind_eq_ok.mpr ⟨name, spelled, Except.bind_eq_ok.mpr ⟨_, read, rfl⟩⟩⟩
  · have isRef : IsRef bytes := by
      rw [ref]
      rfl
    have held : ∃ window, decoded = .propertyRef window := by
      rw [ref] at read
      have head : (encodePropertyRef temporal).head? = some DISC_PROPERTY_REF := rfl
      simp only [decodeValue, head, validTime_encodePropertyRef] at read
      exact ⟨_, (Except.ok.inj read).symm⟩
    obtain ⟨window, rfl⟩ := held
    exact ⟨_, Except.bind_eq_ok.mpr ⟨name, spelled, Except.bind_eq_ok.mpr ⟨_, read,
      Except.bind_eq_ok.mpr ⟨value, loads isRef, rfl⟩⟩⟩⟩

/-- A commit of writes of known predicates names nothing. -/
theorem names_commit_known {tx : Transaction} {wall : Timestamp}
    (known : ∀ w ∈ tx.writes, (store.predicateId w.triple.predicate).isSome) :
    (store.commit ext tx wall).1.fwd = store.fwd ∧ (store.commit ext tx wall).1.rev = store.rev ∧
      (store.commit ext tx wall).1.nextPredId = store.nextPredId := by
  obtain ⟨db, committed, same⟩ := @commit_known ext _ tx wall known
  rw [same]
  exact ⟨rfl, rfl, rfl⟩

/-- No closing version is of the value that is kept. -/
theorem stageClosings_ne {mode : WriteMode} {s : NodeId} {p : PredId} {g : GraphId}
    {tt closingAt : Timestamp} {kept : NodeId} {slot : List (NodeId × Bytes)}
    {closing : List StagedQuad}
    (done : store.stageClosings mode s p g tt closingAt kept slot = .ok closing) {quad : StagedQuad}
    (member : quad ∈ closing) : quad.key.o ≠ kept := by
  unfold stageClosings at done
  split_ifs at done
  · obtain ⟨stored, _, done⟩ := Except.bind_eq_ok.mp done
    obtain ⟨_, _, apart, key, _⟩ := (mem_closeValues done).mp member
    rw [key]
    exact apart
  · cases done
    cases member

/-- Every version written is what one of the writes records. -/
theorem exists_records {writes : List PendingWrite} {quads : List StagedQuad}
    (records : List.Forall₂ (store.Records ext) writes quads) {quad : StagedQuad}
    (member : quad ∈ quads) : ∃ w ∈ writes, store.Records ext w quad := by
  induction records with
  | nil => cases member
  | cons head _ ih =>
    rcases List.mem_cons.mp member with rfl | later
    · exact ⟨_, List.mem_cons_self, head⟩
    · obtain ⟨w, inside, own⟩ := ih later
      exact ⟨w, List.mem_cons_of_mem _ inside, own⟩

end TripleStore

end Polargraph
