import Polargraph.Proofs.Storage.Rewriting

/-! Where every staged version comes from: a write of the transaction, or what it closes. -/

namespace Polargraph

variable {ext : External}

/-- A decoded value over another window. -/
def DecodedValue.during (window : BiTemporalRange) : DecodedValue → DecodedValue
  | .relation edgeId _ => .relation edgeId window
  | .property value _ => .property value window
  | .propertyRef _ => .propertyRef window

/-- The window of a triple over another window is the other one. -/
@[simp] theorem Triple.during_during (triple : Triple) (first second : BiTemporalRange) :
    (triple.during first).during second = triple.during second := by
  cases triple <;> rfl

/-- Closing a value only changes the window it decodes to. -/
theorem decodeValue_withVtEnd {bytes closed : Bytes} {closing : Timestamp} {decoded : DecodedValue}
    (done : withVtEnd bytes closing = .ok closed) (read : decodeValue ext bytes = .ok decoded) :
    ∃ window, decodeValue ext closed = .ok (decoded.during window) := by
  obtain ⟨head, length, payload⟩ := payload_withVtEnd done
  cases decoded with
  | relation edgeId temporal =>
    -- The edge stands before the window.
    unfold decodeValue at read
    split at read
    · cases read
    · rename_i disc first
      split_ifs at read with relation short property short' vector short' truncated ref
      · cases read
        have edge : slice closed 1 17 = slice bytes 1 17 := by
          unfold withVtEnd at done
          rw [first, Option.bind_some, vtOffsets, if_pos relation] at done
          simp only [if_neg short] at done
          obtain rfl := Except.ok.inj done
          have front : (bytes.take 25).length = 25 := by simp; omega
          unfold slice
          rw [List.append_assoc, List.drop_append_of_le_length (by omega),
            List.take_append_of_le_length (by simp; omega), List.drop_take, List.take_take]
          rfl
        refine ⟨decodedWindow closed 17 25, ?_⟩
        simp only [decodeValue, head, first, if_pos relation, length, if_neg short, edge]
        rfl
      · split at read <;> cases read
      · cases read
      · split at read <;> cases read
  | property value temporal =>
    obtain ⟨_, held⟩ := decodeValue_eq_property.mp read
    have property : closed.head? ≠ some DISC_RELATION := by
      rw [head]
      rcases held with ⟨own, _⟩ | ⟨own, _⟩ <;> rw [own] <;> decide
    have same := payload property
    have count : slice closed 17 21 = slice bytes 17 21 := by simp only [slice, same]
    refine ⟨_, decodeValue_eq_property.mpr ⟨rfl, ?_⟩⟩
    rw [head, length, same, count, readFloats_congr same]
    exact held
  | propertyRef temporal =>
    have ref : closed.head? = some DISC_PROPERTY_REF := head.trans (head_of_decode_propertyRef read)
    obtain ⟨other, again⟩ := (decodes_withVtEnd done).mpr ⟨_, read⟩
    have held : ∃ window, other = .propertyRef window := by
      have one : ¬ DISC_PROPERTY_REF = DISC_RELATION := by decide
      have two : ¬ DISC_PROPERTY_REF = DISC_PROPERTY := by decide
      have three : ¬ DISC_PROPERTY_REF = DISC_VECTOR := by decide
      simp only [decodeValue, ref, if_neg one, if_neg two, if_neg three, if_true] at again
      split at again <;> cases again
      exact ⟨_, rfl⟩
    obtain ⟨window, rfl⟩ := held
    exact ⟨window, again⟩

namespace TripleStore

variable {store middle after : TripleStore}

/-- Versions that decode to the same but for the window read back as the same but for it. -/
theorem reconstruct_during {s o : NodeId} {p : PredId} {bytes other : Bytes} {tt : Timestamp}
    {triple : Triple} (alike : ∀ decoded, decodeValue ext bytes = .ok decoded →
      ∃ window, decodeValue ext other = .ok (decoded.during window))
    (rebuilt : store.reconstruct ext s p o tt bytes = .ok triple) (later : Timestamp) :
    ∃ window, store.reconstruct ext s p o later other = .ok (triple.during window) := by
  obtain ⟨predicate, name, rebuilt⟩ := Except.bind_eq_ok.mp rebuilt
  obtain ⟨decoded, read, rebuilt⟩ := Except.bind_eq_ok.mp rebuilt
  obtain ⟨window, again⟩ := alike decoded read
  refine ⟨{ window with tt := later }, Except.bind_eq_ok.mpr ⟨predicate, name,
    Except.bind_eq_ok.mpr ⟨decoded.during window, again, ?_⟩⟩⟩
  cases decoded with
  | relation edgeId temporal =>
    cases rebuilt
    rfl
  | property value temporal =>
    cases rebuilt
    rfl
  | propertyRef temporal =>
    obtain ⟨value, loaded, rebuilt⟩ := Except.bind_eq_ok.mp rebuilt
    cases rebuilt
    exact Except.bind_eq_ok.mpr ⟨value, loaded, rfl⟩

/-- The version of a closed value reads back as the value it closes. -/
theorem reconstruct_closed {s o : NodeId} {p : PredId} {bytes closed : Bytes}
    {closing tt : Timestamp} {triple : Triple} (done : withVtEnd bytes closing = .ok closed)
    (rebuilt : store.reconstruct ext s p o tt bytes = .ok triple) (later : Timestamp) :
    ∃ window, store.reconstruct ext s p o later closed = .ok (triple.during window) :=
  reconstruct_during (fun _ read => decodeValue_withVtEnd done read) rebuilt later

/-- A version reads back as the same at any time. -/
theorem reconstruct_later {s o : NodeId} {p : PredId} {bytes : Bytes} {tt : Timestamp}
    {triple : Triple} (rebuilt : store.reconstruct ext s p o tt bytes = .ok triple)
    (later : Timestamp) :
    ∃ window, store.reconstruct ext s p o later bytes = .ok (triple.during window) := by
  apply reconstruct_during _ rebuilt later
  intro decoded read
  cases decoded with
  | relation edgeId temporal => exact ⟨temporal, read⟩
  | property value temporal => exact ⟨temporal, read⟩
  | propertyRef temporal => exact ⟨temporal, read⟩

/-- How a version of a quad came about, when some writes are staged over an index. -/
inductive Comes (ext : External) (store : TripleStore) (writes : List PendingWrite)
    (index : Index) : QuadIds → Bytes → Prop
  /-- A relation was written. -/
  | relation {w : PendingWrite} {subject object : NodeId} {predicate : String} {edge : EdgeId}
      {window : BiTemporalRange} {p : PredId} (temporal : BiTemporalRange) : w ∈ writes →
      w.triple = .relation subject predicate object edge window →
      store.predicateId predicate = some p →
      Comes ext store writes index ⟨subject, p, object, w.graph⟩ (encodeRelation edge temporal)
  /-- A value was written. -/
  | property {w : PendingWrite} {subject : NodeId} {predicate : String} {value : Value}
      {window temporal : BiTemporalRange} {p : PredId} {batch put : WriteBatch} {bytes : Bytes} :
      w ∈ writes → w.triple = .property subject predicate value window →
      store.predicateId predicate = some p →
      store.encodePropertyEntry ext batch value temporal = .ok (put, bytes) →
      Comes ext store writes index ⟨subject, p, valueObject ext value, w.graph⟩ bytes
  /-- It was stored before. -/
  | stored {ids : QuadIds} {tt : Timestamp} {bytes : Bytes} : index ⟨ids, tt⟩ = some bytes →
      Comes ext store writes index ids bytes
  /-- It closes one that came about before. -/
  | closed {ids : QuadIds} {bytes closed : Bytes} {closing : Timestamp} :
      Comes ext store writes index ids bytes → withVtEnd bytes closing = .ok closed →
      Comes ext store writes index ids closed

/-- How a version came about depends on the names and the inline threshold alone. -/
theorem Comes.congr {writes : List PendingWrite} {index : Index} {ids : QuadIds} {bytes : Bytes}
    (names : ∀ name, after.predicateId name = store.predicateId name)
    (limit : after.inlineValueMaxBytes = store.inlineValueMaxBytes)
    (comes : Comes ext store writes index ids bytes) : Comes ext after writes index ids bytes := by
  induction comes with
  | relation temporal member same known =>
    exact .relation temporal member same ((names _).trans known)
  | property member same known encoded =>
    rw [← encodePropertyEntry_congr limit] at encoded
    exact .property member same ((names _).trans known) encoded
  | stored found => exact .stored found
  | closed _ closing ih => exact .closed ih closing

/-- Everything staged so far came about from some writes and an index. -/
structure Traced (ext : External) (store : TripleStore) (writes : List PendingWrite)
    (index : Index) (staging : Staging) : Prop where
  /-- The staged versions did. -/
  quads : ∀ quad ∈ staging.quads, Comes ext store writes index quad.key.toQuadIds quad.value
  /-- So did the values a later write may close. -/
  values : ∀ s p g, ∀ value ∈ staging.slot (s, p, g),
    Comes ext store writes index ⟨s, p, value.1, g⟩ value.2

/-- Staging one of the writes keeps everything traced. -/
theorem Traced.stageWrite {index : Index} {writes : List PendingWrite} {staging next : Staging}
    {tt : Timestamp} {p : PredId} {w : PendingWrite}
    (holds : middle.db.OrderHolds .gspo index) (member : w ∈ writes)
    (known : after.predicateId w.triple.predicate = some p)
    (limit : after.inlineValueMaxBytes = middle.inlineValueMaxBytes)
    (traced : after.Traced ext writes index staging)
    (done : middle.stageWrite ext tt p staging w = .ok next) :
    after.Traced ext writes index next := by
  obtain ⟨triple, g, mode⟩ := w
  cases triple with
  | relation subject predicate object edgeId window =>
    cases done
    refine ⟨fun quad staged => ?_, traced.values⟩
    rcases List.mem_append.mp staged with old | new
    · exact traced.quads quad old
    · rw [List.mem_singleton.mp new]
      exact .relation _ member rfl known
  | property subject predicate value window =>
    obtain ⟨blobs, bytes, closing, encoded, _, closed, quads, _, values⟩ := stageWrite_property done
    have own : Comes ext after writes index ⟨subject, p, valueObject ext value, g⟩ bytes := by
      rw [← encodePropertyEntry_congr limit] at encoded
      exact .property member rfl known encoded
    refine ⟨fun quad staged => ?_, fun s q graph held within => ?_⟩
    · rw [quads] at staged
      rcases List.mem_append.mp staged with before | new
      · exact traced.quads quad before
      · rcases List.mem_append.mp new with closes | here
        · -- What a write closes was staged earlier or is stored.
          obtain ⟨bytes', closing', key, staged | ⟨time, found⟩⟩ :=
            mem_stageClosings holds closed closes
          · have earlier := traced.values subject p g _ staged
            rw [key]
            exact .closed earlier closing'
          · rw [key]
            exact .closed (.stored found) closing'
        · rw [List.mem_singleton.mp here]
          exact own
    · by_cases slot : (s, q, graph) = (subject, p, g)
      · obtain ⟨rfl, rfl, rfl⟩ : s = subject ∧ q = p ∧ graph = g := by simpa using slot
        rw [Staging.slot, values, Latest.lookup_entryUpdate_self, Option.getD_some] at within
        rcases List.mem_append.mp within with before | here
        · split_ifs at before
          · simp at before
          · exact traced.values s q graph held before
        · rw [List.mem_singleton.mp here]
          exact own
      · rw [Staging.slot, values, Latest.lookup_entryUpdate_ne slot] at within
        exact traced.values s q graph held within
  | edgeProperty edge predicate value window =>
    obtain ⟨bytes, _, done⟩ := Except.bind_eq_ok.mp done
    cases done
    exact ⟨traced.quads, traced.values⟩
  | edgeRelation edge predicate object window =>
    cases done
    exact ⟨traced.quads, traced.values⟩

/-- Staging the writes keeps everything traced. -/
theorem Traced.stageWrites {index : Index} {writes rest : List PendingWrite}
    {staging next : Staging} {tt : Timestamp} (holds : store.db.OrderHolds .gspo index)
    (within : ∀ w ∈ rest, w ∈ writes) (traced : after.Traced ext writes index staging)
    (done : TripleStore.stageWrites ext tt store staging rest = (after, .ok next)) :
    after.Traced ext writes index next := by
  induction rest generalizing store staging with
  | nil =>
    cases done
    exact traced
  | cons w rest ih =>
    have kept : (store.internPredicate w.triple.predicate).1.db.OrderHolds .gspo index :=
      holds.congr (family_internPredicate store _ (by simp))
    have own := (store.predicateId_internPredicate w.triple.predicate).1
    obtain ⟨one, staged, done⟩ := stageWrites_cons done
    have known : after.predicateId w.triple.predicate =
        some (store.internPredicate w.triple.predicate).2 := by
      have later := predicateId_stageWrites ext tt one rest own
      rwa [done] at later
    have settings := sameSettings_stageWrites ext tt
      (store.internPredicate w.triple.predicate).1 one rest
    rw [done] at settings
    exact ih kept (fun other later => within other (List.mem_cons_of_mem _ later))
      (traced.stageWrite kept (within w List.mem_cons_self) known settings.limit staged) done

/-- Every version a commit writes came about from its writes and what was stored. -/
theorem comes_commitQuads (holds : store.db.OrdersHold store.index) (tx : Transaction)
    (wall : Timestamp) : ∀ quad ∈ store.commitQuads ext tx wall,
      Comes ext (store.commit ext tx wall).1 tx.writes store.index quad.key.toQuadIds
        quad.value := by
  have published : (store.beginCommit wall).1.db.OrderHolds .gspo store.index := holds .gspo
  refine commit_rule ext store tx wall (fun _ => by simp) (fun _ => by simp) fun _ => ?_
  refine flush_rule ext _ tx _ (fun _ => by simp) fun middle staging batch staged _ quad member => ?_
  have traced : middle.Traced ext tx.writes store.index staging :=
    Traced.stageWrites published (fun _ member => member)
      ⟨fun _ none => absurd none List.not_mem_nil, fun _ _ _ _ none =>
        absurd none List.not_mem_nil⟩ staged
  have same : ∀ name, (middle.dbWrite batch).predicateId name = middle.predicateId name :=
    fun _ => rfl
  exact (traced.quads quad member).congr same rfl

end TripleStore

end Polargraph
