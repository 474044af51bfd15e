import Polargraph.Proofs.Storage.OpenValues

/-! Every reference a commit stages has its out-of-line value stored or in the same batch. -/

namespace Polargraph

/-- An index value refers to an out-of-line value. -/
def IsRef (bytes : Bytes) : Prop := bytes.head? = some DISC_PROPERTY_REF

/-- Every reference of an index has its out-of-line value stored. -/
def Index.Resolves (index : Index) (db : Db) : Prop :=
  ∀ key bytes, index key = some bytes → IsRef bytes → (db.get .blob key.o.uuid.bytes).isSome

/-- An out-of-line value is stored, or is put by a batch. -/
def Backs (db : Db) (batch : WriteBatch) (object : NodeId) : Prop :=
  (∃ payload, .put .blob object.uuid.bytes payload ∈ batch) ∨
    (db.get .blob object.uuid.bytes).isSome

/-- A larger batch backs what a smaller one does. -/
theorem Backs.append {db : Db} {batch : WriteBatch} {object : NodeId}
    (backs : Backs db batch object) (more : WriteBatch) : Backs db (batch ++ more) object :=
  backs.imp_left fun ⟨payload, member⟩ => ⟨payload, List.mem_append_left _ member⟩

/-- The values staged so far of a property. -/
def Staging.slot (staging : Staging) (name : PropertySlot) : List (NodeId × Bytes) :=
  (Latest.lookup name staging.values).getD []

/-- Every reference staged so far is backed by the database or the batch. -/
structure Staging.Backed (staging : Staging) (db : Db) : Prop where
  /-- The batch only stores values. -/
  puts : ∀ op ∈ staging.batch, op.IsPut
  /-- The staged versions are backed. -/
  quads : ∀ quad ∈ staging.quads, IsRef quad.value → Backs db staging.batch quad.key.o
  /-- So are the values a later write may close. -/
  values : ∀ name, ∀ value ∈ staging.slot name, IsRef value.2 → Backs db staging.batch value.1

/-- Closing a value keeps whether it is a reference. -/
theorem isRef_withVtEnd {bytes closed : Bytes} {closing : Timestamp}
    (done : withVtEnd bytes closing = .ok closed) : IsRef closed ↔ IsRef bytes := by
  obtain ⟨window, read⟩ := validTime_of_withVtEnd done
  obtain ⟨same, done', _, head⟩ := withVtEnd_of_validTime read closing
  rw [done] at done'
  cases done'
  rw [IsRef, IsRef, head]

/-- An inline property is no reference. -/
theorem not_isRef_encodeProperty {ext : External} {value : Value} {temporal : BiTemporalRange}
    {bytes : Bytes} (encoded : encodeProperty ext value temporal = .ok bytes) : ¬ IsRef bytes := by
  obtain ⟨disc, payload, inline, rfl⟩ := encodeProperty_shape encoded
  rcases inline with rfl | rfl <;> simp [IsRef, DISC_PROPERTY, DISC_VECTOR, DISC_PROPERTY_REF]

/-- A value to close is one of the stored or of the staged ones. -/
theorem mem_supersede {stored staged : List (NodeId × Bytes)} {value : NodeId × Bytes}
    (member : value ∈ supersede stored staged) : value ∈ stored ∨ value ∈ staged := by
  induction staged generalizing stored with
  | nil => exact Or.inl member
  | cons first rest ih =>
    rcases ih member with held | later
    · simp only at held
      split at held
      · rcases List.mem_append.mp held with old | new
        · exact Or.inl (List.mem_filter.mp old).1
        · rw [List.mem_singleton.mp new]
          exact Or.inr List.mem_cons_self
      · exact Or.inl (List.mem_filter.mp held).1
    · exact Or.inr (List.mem_cons_of_mem _ later)

variable {ext : External} {store : TripleStore}

namespace TripleStore

/-- Every closing version closes a value of the property that is stored or staged. -/
theorem mem_stageClosings {index : Index} (holds : store.db.OrderHolds .gspo index)
    {mode : WriteMode} {s : NodeId} {p : PredId} {g : GraphId} {tt closingAt : Timestamp}
    {kept : NodeId} {slot : List (NodeId × Bytes)} {closing : List StagedQuad}
    (done : store.stageClosings mode s p g tt closingAt kept slot = .ok closing) {quad : StagedQuad}
    (member : quad ∈ closing) : ∃ bytes, withVtEnd bytes closingAt = .ok quad.value ∧
      quad.key = ⟨⟨s, p, quad.key.o, g⟩, tt⟩ ∧ ((quad.key.o, bytes) ∈ slot ∨
        ∃ time, index ⟨⟨s, p, quad.key.o, g⟩, time⟩ = some bytes) := by
  unfold stageClosings at done
  split_ifs at done
  · obtain ⟨stored, opened, done⟩ := Except.bind_eq_ok.mp done
    obtain ⟨⟨object, bytes⟩, toClose, _, key, closed⟩ := (mem_closeValues done).mp member
    obtain ⟨values, read, _, listed⟩ := openValues_spec holds s p g closingAt
    cases opened.symm.trans read
    rw [key]
    refine ⟨bytes, closed, rfl, ?_⟩
    rcases mem_supersede toClose with old | new
    · obtain ⟨⟨time, found, _⟩, _⟩ := (listed object bytes).mp old
      exact Or.inr ⟨time, found⟩
    · exact Or.inl new
  · cases done
    simp at member

/-- An encoded entry puts at most an out-of-line value, which backs it when it is a reference. -/
theorem encodePropertyEntry_backs {batch after : WriteBatch} {value : Value}
    {temporal : BiTemporalRange} {bytes : Bytes}
    (encoded : store.encodePropertyEntry ext batch value temporal = .ok (after, bytes)) (db : Db) :
    ∃ blobs, after = batch ++ blobs ∧ (∀ op ∈ blobs, op.IsPut) ∧
      (IsRef bytes → Backs db after (valueObject ext value)) := by
  rcases encodePropertyEntry_cases encoded with ⟨inline, rfl⟩ | ⟨payload, _, _, rfl⟩
  · exact ⟨[], by simp, by simp, fun isRef => absurd isRef (not_isRef_encodeProperty inline)⟩
  · exact ⟨_, rfl, by simp [WriteOp.IsPut], fun _ => Or.inl ⟨payload, by simp [valueObject]⟩⟩

/-- Versions are put into every order. -/
private theorem isPut_batchQuads {quads : List StagedQuad} {op : WriteOp}
    (member : op ∈ quads.flatMap batchQuad) : op.IsPut := by
  obtain ⟨quad, _, member⟩ := List.mem_flatMap.mp member
  obtain ⟨order, _, rfl⟩ := List.mem_map.mp member
  exact ⟨_, _, _, rfl⟩

/-- Trigram entries are put. -/
private theorem isPut_batchTextTrigrams {subject : NodeId} {p : PredId} {g : GraphId}
    {text : Option String} {op : WriteOp}
    (member : op ∈ (text.map (batchTextTrigrams subject p g)).getD []) : op.IsPut := by
  cases text with
  | none => simp at member
  | some text =>
    simp only [Option.map_some, Option.getD_some, batchTextTrigrams] at member
    split_ifs at member
    · simp at member
    · obtain ⟨trigram, _, rfl⟩ := List.mem_map.mp member
      exact ⟨_, _, _, rfl⟩

/-- Staging one write keeps every reference backed. -/
theorem stageWrite_backed {db : Db} {index : Index} (holds : store.db.OrderHolds .gspo index)
    (resolves : index.Resolves db) {tt : Timestamp} {p : PredId} {staging next : Staging}
    {w : PendingWrite} (backed : staging.Backed db)
    (done : store.stageWrite ext tt p staging w = .ok next) : next.Backed db := by
  obtain ⟨triple, g, mode⟩ := w
  cases triple with
  | relation subject predicate object edgeId window =>
    cases done
    refine ⟨fun op member => ?_, fun quad member isRef => ?_, fun name value member isRef => ?_⟩
    · rcases List.mem_append.mp member with old | new
      · exact backed.puts op old
      · exact isPut_batchQuads new
    · rcases List.mem_append.mp member with old | new
      · exact (backed.quads quad old isRef).append _
      · rw [List.mem_singleton.mp new] at isRef
        simp [IsRef, encodeRelation, DISC_RELATION, DISC_PROPERTY_REF] at isRef
    · exact (backed.values name value member isRef).append _
  | property subject predicate value window =>
    obtain ⟨blobs, bytes, closing, encoded, apart, closed, quads, batch, values⟩ :=
      stageWrite_property done
    obtain ⟨blobs', same, puts, own⟩ := encodePropertyEntry_backs encoded db
    obtain rfl := List.append_cancel_left same
    have grown : ∃ more, next.batch = (staging.batch ++ blobs) ++ more := by
      rw [batch]
      exact ⟨_, List.append_assoc (staging.batch ++ blobs) _ _⟩
    obtain ⟨more, grown⟩ := grown
    have old : ∀ object, Backs db staging.batch object → Backs db next.batch object :=
      fun object backs => by
        rw [grown]
        exact (backs.append _).append _
    have written : IsRef bytes → Backs db next.batch (valueObject ext value) := fun isRef => by
      rw [grown]
      exact (own isRef).append _
    refine ⟨fun op member => ?_, fun quad member isRef => ?_, fun name held member isRef => ?_⟩
    · rw [batch] at member
      simp only [List.mem_append] at member
      rcases member with ((before | blob) | staged) | text
      · exact backed.puts op before
      · exact puts op blob
      · exact isPut_batchQuads staged
      · exact isPut_batchTextTrigrams text
    · rw [quads] at member
      rcases List.mem_append.mp member with before | new
      · exact old _ (backed.quads quad before isRef)
      · rcases List.mem_append.mp new with closes | here
        · obtain ⟨bytes', closing', _, from_⟩ := mem_stageClosings holds closed closes
          have ref := (isRef_withVtEnd closing').mp isRef
          rcases from_ with staged | ⟨time, stored⟩
          · exact old _ (backed.values (subject, p, g) _ staged ref)
          · exact Or.inr (resolves ⟨⟨subject, p, quad.key.o, g⟩, time⟩ bytes' stored ref)
        · rw [List.mem_singleton.mp here] at isRef ⊢
          exact written isRef
    · by_cases slot : name = (subject, p, g)
      · subst slot
        rw [Staging.slot, values, Latest.lookup_entryUpdate_self, Option.getD_some] at member
        rcases List.mem_append.mp member with before | here
        · split_ifs at before
          · simp at before
          · exact old _ (backed.values (subject, p, g) held before isRef)
        · rw [List.mem_singleton.mp here] at isRef ⊢
          exact written isRef
      · rw [Staging.slot, values, Latest.lookup_entryUpdate_ne slot] at member
        exact old _ (backed.values name held member isRef)
  | edgeProperty edge predicate value window =>
    obtain ⟨bytes, _, done⟩ := Except.bind_eq_ok.mp done
    cases done
    refine ⟨fun op member => ?_, fun quad member isRef => (backed.quads quad member isRef).append _,
      fun name held member isRef => (backed.values name held member isRef).append _⟩
    rcases List.mem_append.mp member with old | new
    · exact backed.puts op old
    · simp only [batchEpa, List.mem_cons, List.not_mem_nil, or_false] at new
      rcases new with rfl | rfl <;> exact ⟨_, _, _, rfl⟩
  | edgeRelation edge predicate object window =>
    cases done
    refine ⟨fun op member => ?_, fun quad member isRef => (backed.quads quad member isRef).append _,
      fun name held member isRef => (backed.values name held member isRef).append _⟩
    rcases List.mem_append.mp member with old | new
    · exact backed.puts op old
    · rw [List.mem_singleton.mp new]
      exact ⟨_, _, _, rfl⟩

/-- Staging any number of writes keeps every reference backed. -/
theorem stageWrites_backed {db : Db} {index : Index} {tt : Timestamp} {staging next : Staging}
    {writes : List PendingWrite} {store after : TripleStore}
    (holds : store.db.OrderHolds .gspo index) (resolves : index.Resolves db)
    (backed : staging.Backed db)
    (done : stageWrites ext tt store staging writes = (after, .ok next)) : next.Backed db :=
  stageWrites_ordered holds backed done fun _ _ _ _ _ kept backed staged =>
    stageWrite_backed kept resolves backed staged

/-- Dictionary entries are put. -/
private theorem isPut_batchIris {batch after : WriteBatch} {iris : List String}
    (puts : ∀ op ∈ batch, op.IsPut) (done : store.batchIris ext batch iris = .ok after) :
    ∀ op ∈ after, op.IsPut := by
  -- Each IRI adds at most one put.
  have one : ∀ (batch after : WriteBatch) (iri : String) (pending between : List (NodeId × String)),
      (∀ op ∈ batch, op.IsPut) → store.batchIri ext batch iri pending = .ok (after, between) →
      ∀ op ∈ after, op.IsPut := by
    intro batch after iri pending between puts done
    simp only [batchIri] at done
    split_ifs at done
    · cases done
      exact puts
    · obtain ⟨existing, _, done⟩ := Except.bind_eq_ok.mp done
      cases existing with
      | none =>
        cases done
        intro op member
        rcases List.mem_append.mp member with old | new
        · exact puts op old
        · rw [List.mem_singleton.mp new]
          exact ⟨_, _, _, rfl⟩
      | some stored =>
        simp only at done
        split_ifs at done
        cases done
        exact puts
  suffices folded : ∀ (iris : List String) (batch after : WriteBatch)
      (pending between : List (NodeId × String)), (∀ op ∈ batch, op.IsPut) →
      iris.foldlM (fun (state : WriteBatch × List (NodeId × String)) iri =>
        store.batchIri ext state.1 iri state.2) (batch, pending) = .ok (after, between) →
      ∀ op ∈ after, op.IsPut by
    obtain ⟨⟨last, pending⟩, run, same⟩ := Except.bind_eq_ok.mp done
    cases same
    exact folded _ _ _ _ _ puts run
  intro iris
  induction iris with
  | nil =>
    intro batch after pending between puts run
    cases run
    exact puts
  | cons iri rest ih =>
    intro batch after pending between puts run
    rw [List.foldlM_cons] at run
    obtain ⟨⟨middle, later⟩, first, more⟩ := Except.bind_eq_ok.mp run
    exact ih _ _ _ _ (one _ _ _ _ _ puts first) more

/-- The whole batch of a commit only stores values, and stores what is staged. -/
theorem commitBatch_puts {tx : Transaction} {commitTs : Timestamp} {staging : Staging}
    {batch : WriteBatch} (puts : ∀ op ∈ staging.batch, op.IsPut)
    (done : store.commitBatch ext tx commitTs staging = .ok batch) :
    (∀ op ∈ batch, op.IsPut) ∧ ∀ op ∈ staging.batch, op ∈ batch := by
  obtain ⟨logged, entries, done⟩ := Except.bind_eq_ok.mp done
  cases done
  have change : ∀ op ∈ staging.batch ++ batchChange commitTs tx.author tx.graphOps staging.quads,
      op.IsPut := by
    intro op member
    rcases List.mem_append.mp member with old | new
    · exact puts op old
    · unfold batchChange at new
      split_ifs at new
      · simp at new
      · rw [List.mem_singleton.mp new]
        exact ⟨_, _, _, rfl⟩
  have all := isPut_batchIris change entries
  obtain ⟨iris, rfl, _⟩ := batchIris_cf entries
  constructor
  · intro op member
    rcases List.mem_append.mp member with old | new
    · exact all op old
    · rw [List.mem_singleton.mp new]
      exact ⟨_, _, _, rfl⟩
  · intro op member
    simp only [List.mem_append]
    exact Or.inl (Or.inl (Or.inl member))

/-- Nothing staged is backed by any database. -/
theorem none_backed (db : Db) : Staging.none.Backed db where
  puts _ member := absurd member List.not_mem_nil
  quads _ member := absurd member List.not_mem_nil
  values _ _ member := absurd member List.not_mem_nil

/-- A flush keeps every out-of-line value and stores those its references need. -/
theorem flush_blobs {index : Index} (holds : store.db.OrderHolds .gspo index)
    (resolves : index.Resolves store.db) (tx : Transaction) (commitTs : Timestamp) :
    (∀ hash, (store.db.get .blob hash).isSome →
      ((store.flush ext tx commitTs).1.db.get .blob hash).isSome) ∧
    ∀ quad ∈ store.stagedQuads ext tx commitTs, IsRef quad.value →
      ((store.flush ext tx commitTs).1.db.get .blob quad.key.o.uuid.bytes).isSome := by
  have blobs : (stageWrites ext commitTs store Staging.none tx.writes).1.db.family .blob =
      store.db.family .blob := family_stageWrites commitTs store _ _ (by simp)
  have same : ∀ hash, (stageWrites ext commitTs store Staging.none tx.writes).1.db.get .blob hash =
      store.db.get .blob hash := fun hash => by rw [Db.get, Db.get, blobs]
  refine flush_rule ext store tx commitTs (fun _ => ⟨fun hash stored => by rwa [same], by simp⟩)
    fun after staging batch staged built => ?_
  rw [staged] at same
  have backed := stageWrites_backed holds resolves (none_backed store.db) staged
  obtain ⟨puts, kept⟩ := commitBatch_puts backed.puts built
  constructor
  · intro hash stored
    exact (Db.isSome_get_write_puts _ puts _ _).mpr (Or.inr (by rwa [same]))
  · intro quad member isRef
    refine (Db.isSome_get_write_puts _ puts _ _).mpr ?_
    rcases backed.quads quad member isRef with ⟨payload, put⟩ | stored
    · exact Or.inl ⟨payload, kept _ put⟩
    · exact Or.inr (by rwa [same])

/-- A commit keeps every out-of-line value and stores those its references need. -/
theorem commit_blobs (ext : External) (store : TripleStore) {index : Index} (holds : store.db.OrderHolds .gspo index)
    (resolves : index.Resolves store.db) (tx : Transaction) (wall : Timestamp) :
    (∀ hash, (store.db.get .blob hash).isSome →
      ((store.commit ext tx wall).1.db.get .blob hash).isSome) ∧
    ∀ quad ∈ store.commitQuads ext tx wall, IsRef quad.value →
      ((store.commit ext tx wall).1.db.get .blob quad.key.o.uuid.bytes).isSome := by
  have published : (store.beginCommit wall).1.db.OrderHolds .gspo index := holds
  exact commit_rule ext store tx wall (fun _ => ⟨fun _ stored => stored, by simp⟩)
    (fun _ => ⟨fun _ stored => stored, by simp⟩) fun _ => flush_blobs published resolves tx _

end TripleStore

end Polargraph
