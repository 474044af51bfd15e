import Polargraph.Proofs.Storage.Decoding
import Polargraph.Proofs.Storage.Shown
import Polargraph.Proofs.Storage.Staged

/-! What is stored of a quad reads back as a triple of that quad. -/

namespace Polargraph

variable {ext : External}

/-- A value that is stored reads back as itself. -/
def Value.Stable (ext : External) : Value → Prop
  | .vector floats => floats.length < 2 ^ 32
  | value => ∀ json, ext.jsonToVec value = .ok json → ext.jsonFromSlice json = .ok value

/-- When an index value decodes to an inline property. -/
theorem decodeValue_eq_property {bytes : Bytes} {value : Value} {temporal : BiTemporalRange} :
    decodeValue ext bytes = .ok (.property value temporal) ↔
      temporal = decodedWindow bytes 1 9 ∧
        ((bytes.head? = some DISC_PROPERTY ∧ 17 ≤ bytes.length ∧
            ext.jsonFromSlice (bytes.drop 17) = .ok value) ∨
          (bytes.head? = some DISC_VECTOR ∧ 21 ≤ bytes.length ∧
            21 + leNat (slice bytes 17 21) * 4 ≤ bytes.length ∧
            value = .vector (readFloats bytes (leNat (slice bytes 17 21))))) := by
  have first : ¬ DISC_PROPERTY = DISC_RELATION := by decide
  have second : ¬ DISC_VECTOR = DISC_RELATION := by decide
  have third : ¬ DISC_VECTOR = DISC_PROPERTY := by decide
  constructor
  · intro done
    unfold decodeValue at done
    split at done
    · cases done
    · rename_i disc head
      split_ifs at done with relation short property short vector short truncated ref
      · cases done
      · subst property
        split at done
        · cases done
        · cases done
          exact ⟨rfl, Or.inl ⟨head, by omega, by assumption⟩⟩
      · subst vector
        cases done
        exact ⟨rfl, Or.inr ⟨head, by omega, by omega, rfl⟩⟩
      · split at done <;> cases done
  · rintro ⟨rfl, ⟨head, long, parsed⟩ | ⟨head, short, long, rfl⟩⟩
    · simp only [decodeValue, head, if_neg first, if_true, if_neg (show ¬ bytes.length < 17 by omega),
        parsed]
    · simp only [decodeValue, head, if_neg second, if_neg third, if_true,
        if_neg (show ¬ bytes.length < 21 by omega),
        if_neg (show ¬ bytes.length < 21 + leNat (slice bytes 17 21) * 4 by omega)]

/-- The floats of an encoding are read from its payload. -/
theorem readFloats_congr {left right : Bytes} (payload : left.drop 17 = right.drop 17)
    (len : Nat) : readFloats left len = readFloats right len := by
  refine List.map_congr_left fun i _ => ?_
  have same : ∀ bytes : Bytes, slice bytes (21 + i * 4) (21 + i * 4 + 4) =
      slice (bytes.drop 17) (4 + i * 4) (4 + i * 4 + 4) := by
    intro bytes
    simp only [slice, List.drop_drop, Nat.add_sub_cancel_left]
    rw [show 17 + (4 + i * 4) = 21 + i * 4 by omega]
  rw [same, same, payload]

/-- Closing a property keeps its value. -/
theorem property_of_withVtEnd {bytes closed : Bytes} {closing : Timestamp} {value : Value}
    {temporal : BiTemporalRange} (done : withVtEnd bytes closing = .ok closed)
    (decoded : decodeValue ext closed = .ok (.property value temporal)) :
    ∃ before, decodeValue ext bytes = .ok (.property value before) := by
  obtain ⟨head, length, payload⟩ := payload_withVtEnd done
  obtain ⟨_, held⟩ := decodeValue_eq_property.mp decoded
  refine ⟨decodedWindow bytes 1 9, decodeValue_eq_property.mpr ⟨rfl, ?_⟩⟩
  have property : closed.head? ≠ some DISC_RELATION := by
    rcases held with ⟨own, _⟩ | ⟨own, _⟩ <;> rw [own] <;> decide
  have same := payload property
  have count : slice closed 17 21 = slice bytes 17 21 := by simp only [slice, same]
  rw [head, length, same, count, readFloats_congr same] at held
  exact held

/-- The floats of an encoded vector are read back. -/
private theorem readFloats_eq {bytes : Bytes} {floats : List UInt32}
    (payload : bytes.drop 21 = floats.flatMap (fun bits => leBytes 4 bits.toNat)) :
    readFloats bytes floats.length = floats := by
  -- Each float takes four bytes.
  have each : ∀ (floats : List UInt32) (rest : Bytes) (i : Nat) (inside : i < floats.length),
      ((floats.flatMap (fun bits => leBytes 4 bits.toNat)).drop (i * 4)).take 4 =
        leBytes 4 (floats[i]).toNat := by
    intro floats rest
    induction floats with
    | nil => exact fun i inside => absurd inside (Nat.not_lt_zero i)
    | cons first others ih =>
      intro i inside
      cases i with
      | zero =>
        rw [List.flatMap_cons, Nat.zero_mul, List.drop_zero, List.take_left' (leBytes_length 4 _)]
        rfl
      | succ i =>
        rw [List.flatMap_cons, Nat.succ_mul, Nat.add_comm, ← List.drop_drop,
          List.drop_left' (leBytes_length 4 _)]
        exact ih i (Nat.lt_of_succ_lt_succ inside)
  refine List.ext_getElem (by simp [readFloats]) fun i inside inside' => ?_
  simp only [readFloats, List.getElem_map, List.getElem_range]
  have cut : slice bytes (21 + i * 4) (21 + i * 4 + 4) = ((bytes.drop 21).drop (i * 4)).take 4 := by
    rw [slice, List.drop_drop, Nat.add_sub_cancel_left]
  rw [cut, payload, each floats [] i inside', leNat_leBytes]
  have small := (floats[i]).toNat_lt
  rw [Nat.mod_eq_of_lt (by norm_num; omega), UInt32.ofNat_toNat]

/-- A stable value is what its inline encoding decodes to. -/
theorem stable_of_encodeProperty {value read : Value} {temporal window : BiTemporalRange}
    {bytes : Bytes} (stable : value.Stable ext)
    (encoded : encodeProperty ext value temporal = .ok bytes)
    (decoded : decodeValue ext bytes = .ok (.property read window)) : read = value := by
  obtain ⟨_, held⟩ := decodeValue_eq_property.mp decoded
  rcases encodeProperty_cases encoded with ⟨floats, rfl, rfl⟩ | ⟨other, json, written, rfl⟩
  · rcases held with ⟨head, _⟩ | ⟨_, _, _, same⟩
    · cases head
    · have short : floats.length < 2 ^ 32 := stable
      have payload := drop_window DISC_VECTOR temporal.vtStart temporal.vtEnd
        (leBytes 4 floats.length ++ floats.flatMap (fun bits => leBytes 4 bits.toNat))
      generalize DISC_VECTOR :: (temporal.vtStart.toBeBytes ++ (temporal.vtEnd.toBeBytes ++
        (leBytes 4 floats.length ++ floats.flatMap (fun bits => leBytes 4 bits.toNat)))) =
          bytes at same payload
      have count : leNat (slice bytes 17 21) = floats.length := by
        rw [slice, payload, List.take_left' (leBytes_length 4 _), leNat_leBytes,
          Nat.mod_eq_of_lt (by norm_num; omega)]
      have floats_at : bytes.drop 21 = floats.flatMap (fun bits => leBytes 4 bits.toNat) := by
        rw [show 21 = 17 + 4 from rfl, ← List.drop_drop, payload,
          List.drop_left' (leBytes_length 4 _)]
      rw [same, count, readFloats_eq floats_at]
  · rcases held with ⟨_, _, parsed⟩ | ⟨head, _⟩
    · rw [drop_window] at parsed
      have reads : ext.jsonFromSlice json = .ok value := by
        cases value with
        | vector floats => exact absurd rfl (other floats)
        | null | bool | int | float | text | blob | langText | typed => exact stable json written
      exact Except.ok.inj (parsed.symm.trans reads)
    · cases head

/-- A stable value is what its out-of-line encoding decodes to. -/
theorem stable_of_encodeBlob {value read : Value} {payload : Bytes} (stable : value.Stable ext)
    (encoded : encodeBlob ext value = .ok payload) (decoded : decodeBlob ext payload = .ok read) :
    read = value := by
  obtain ⟨disc, rest, _, rfl, inline⟩ := padded_of_encodeBlob encoded
  obtain ⟨held, done, decoded⟩ := Except.bind_eq_ok.mp decoded
  cases held with
  | property value' window =>
    cases decoded
    exact stable_of_encodeProperty stable inline done
  | relation | propertyRef => cases decoded

/-- A stored value of an object slot is one whose content hash the slot is, and is stable. -/
def Fits (ext : External) (object : NodeId) (bytes : Bytes) : Prop :=
  ∀ value temporal, decodeValue ext bytes = .ok (.property value temporal) →
    valueObject ext value = object ∧ value.Stable ext

/-- An out-of-line value is one whose content hash its key is, and is stable. -/
def BlobFits (ext : External) (hash payload : Bytes) : Prop :=
  ∀ value, decodeBlob ext payload = .ok value →
    (contentHash ext value).bytes = hash ∧ value.Stable ext

/-- Closing a value keeps that it fits. -/
theorem Fits.withVtEnd {object : NodeId} {bytes closed : Bytes} {closing : Timestamp}
    (fits : Fits ext object bytes) (done : withVtEnd bytes closing = .ok closed) :
    Fits ext object closed := fun value _ decoded =>
  let ⟨before, same⟩ := property_of_withVtEnd done decoded
  fits value before same

/-- A relation has no value that could not fit. -/
theorem fits_encodeRelation (object : NodeId) (edgeId : EdgeId) (temporal : BiTemporalRange) :
    Fits ext object (encodeRelation edgeId temporal) := by
  intro value window decoded
  obtain ⟨_, ⟨head, _⟩ | ⟨head, _⟩⟩ := decodeValue_eq_property.mp decoded <;>
    cases head

/-- The property value of a write, if any, is stable. -/
def PendingWrite.Stable (ext : External) (w : PendingWrite) : Prop :=
  ∀ subject predicate value temporal, w.triple = .property subject predicate value temporal →
    value.Stable ext

/-- The stored form of a name is its own stored form. -/
theorem Vocabulary.canonicalPredicate_idem (vocabulary : Vocabulary) (name : String) :
    vocabulary.canonicalPredicate (vocabulary.canonicalPredicate name) =
      vocabulary.canonicalPredicate name := by
  unfold canonicalPredicate
  split_ifs with bare again
  · -- The base is absolute, so what stands under it is not bare.
    simp [isBare, vocabulary.absolute] at again
  · rfl
  · rfl

namespace TripleStore

variable {store : TripleStore}

/-- The stored form of a name is its own stored form. -/
theorem canonicalName_idem (store : TripleStore) (name : String) :
    store.canonicalName (store.canonicalName name) = store.canonicalName name := by
  unfold canonicalName
  split_ifs
  · exact store.vocabulary.canonicalPredicate_idem name
  · rfl

/-- Every named identifier is the one of its name. -/
def Named (store : TripleStore) : Prop :=
  ∀ p name, store.rev p = some name → store.predicateId name = some p

/-- Interning keeps every named identifier the one of its name. -/
theorem Named.internPredicate (named : store.Named) (pred : String) :
    (store.internPredicate pred).1.Named := by
  intro p name found
  cases known : store.fwd (store.canonicalName pred) with
  | some id =>
    simp only [TripleStore.internPredicate, known] at found ⊢
    exact named p name found
  | none =>
    have fwd : (store.internPredicate pred).1.predicateId name =
        Function.update store.fwd (store.canonicalName pred) (some store.nextPredId)
          (store.canonicalName name) := by
      rw [predicateId_eq]
      simp only [TripleStore.internPredicate, known]
      rfl
    rw [fwd]
    simp only [TripleStore.internPredicate, known, Function.update_apply] at found ⊢
    split_ifs at found with own
    · obtain rfl := Option.some.inj found
      rw [canonicalName_idem, if_pos rfl, own]
    · have before := named p name found
      rw [predicateId_eq] at before
      rw [if_neg fun same => ?_, before]
      rw [same, known] at before
      cases before

/-- Staging keeps every named identifier the one of its name. -/
theorem Named.stageWrites (named : store.Named) (ext : External) (tt : Timestamp)
    (staging : Staging) (writes : List PendingWrite) :
    (TripleStore.stageWrites ext tt store staging writes).1.Named :=
  stageWrites_keeps ext tt store staging writes named fun _ pred held => held.internPredicate pred

/-- An encoded entry fits its own slot, and so does the payload it puts. -/
theorem encodes_fits {w : PendingWrite} (stable : w.Stable ext) :
    store.Encodes ext (Fits ext) (BlobFits ext) w := by
  intro subject predicate value window same batch blobs bytes temporal encoded
  have own := stable subject predicate value window same
  rcases encodePropertyEntry_cases encoded with ⟨inline, same⟩ | ⟨payload, blob, rfl, same⟩
  · obtain rfl : blobs = [] := by simpa using same
    refine ⟨fun read window decoded => ?_, by simp⟩
    rw [stable_of_encodeProperty own inline decoded]
    exact ⟨rfl, own⟩
  · obtain rfl := List.append_cancel_left same
    refine ⟨fun read window decoded => ?_, fun hash other member read decoded => ?_⟩
    · obtain ⟨_, ⟨head, _⟩ | ⟨head, _⟩⟩ := decodeValue_eq_property.mp decoded <;> cases head
    · cases List.mem_singleton.mp member
      rw [stable_of_encodeBlob own blob decoded]
      exact ⟨rfl, own⟩

/-- Fitting holds of relations and survives closing. -/
theorem carried_fits (ext : External) : Carried (Fits ext) where
  relation object edgeId temporal := fits_encodeRelation object edgeId temporal
  closed _ _ _ _ fits done := fits.withVtEnd done

/-- What a store holds reads back as triples of the quads it is stored for. -/
structure Keyed (ext : External) (store : TripleStore) : Prop where
  /-- The orders hold the same versions. -/
  holds : store.db.OrdersHold store.index
  /-- Every named identifier is the one of its name. -/
  named : store.Named
  /-- Every version fits its object slot. -/
  values : ∀ key bytes, store.index key = some bytes → Fits ext key.o bytes
  /-- Every out-of-line value fits its key. -/
  blobs : ∀ entry ∈ (store.db.family .blob).entries, BlobFits ext entry.1 entry.2

/-- A new store is keyed. -/
theorem keyed_configured (ext : External) (inlineMax : Nat) (vocabulary : Vocabulary)
    (canonical : Bool) : (configured inlineMax vocabulary canonical).Keyed ext := by
  have orders := configured_orders inlineMax vocabulary canonical
  have blank := index_configured inlineMax vocabulary canonical
  refine ⟨by rw [blank]; exact orders, ?_, fun key bytes found => ?_, fun entry member => ?_⟩
  · intro p name found
    cases found
  · rw [blank] at found
    cases found
  · rw [family_configured (by simp)] at member
    cases member

/-- A flush of stable values keeps a store keyed. -/
theorem Keyed.flush (keyed : store.Keyed ext) {tx : Transaction}
    (stable : ∀ w ∈ tx.writes, w.Stable ext) (commitTs : Timestamp) :
    (store.flush ext tx commitTs).1.Keyed ext := by
  have stored := fun order => @flush_holds ext _ _ _ (keyed.holds order) tx commitTs
  have index := Db.OrdersHold.index_eq stored
  have named := keyed.named.stageWrites ext commitTs Staging.none tx.writes
  obtain ⟨quads, blobs⟩ := flush_all (keyed.holds .gspo) (carried_fits ext) keyed.values
    (fun w member => encodes_fits (stable w member)) commitTs
  refine ⟨fun order => ?_, ?_, fun key bytes found => ?_, fun entry member => ?_⟩
  · rw [TripleStore.index, index]
    exact stored order
  · refine flush_rule ext store tx commitTs (fun _ => named) fun after staging batch staged _ => ?_
    rw [staged] at named
    exact named
  · rw [TripleStore.index, index] at found
    rcases Index.putAll_eq_some found with old | new
    · exact keyed.values key bytes old
    · exact quads _ new
  · rcases blobs entry member with old | new
    · exact keyed.blobs entry old
    · exact new

/-- A commit of stable values keeps a store keyed. -/
theorem Keyed.commit (keyed : store.Keyed ext) {tx : Transaction}
    (stable : ∀ w ∈ tx.writes, w.Stable ext) (wall : Timestamp) :
    (store.commit ext tx wall).1.Keyed ext := by
  have published : (store.beginCommit wall).1.Keyed ext :=
    ⟨keyed.holds, keyed.named, keyed.values, keyed.blobs⟩
  exact commit_rule ext store tx wall (fun _ => keyed) (fun _ => published)
    fun _ => published.flush stable _

/-- The name of a predicate that is read is the one it is stored under. -/
theorem predicateOrErr_eq_ok {p : PredId} {name : String} :
    store.predicateOrErr p = .ok name ↔ store.rev p = some name := by
  unfold predicateOrErr predicateString
  cases store.rev p <;> simp

/-- A value loads when what is stored under its hash decodes to it. -/
theorem loadBlob_eq_ok {node : NodeId} {value : Value} : store.loadBlob ext node = .ok value ↔
    ∃ payload, store.db.get .blob node.uuid.bytes = some payload ∧
      decodeBlob ext payload = .ok value := by
  unfold loadBlob
  cases store.db.get .blob node.uuid.bytes <;> simp

/-- A version reads back as a relation or as a stable property of its slots. -/
theorem reconstruct_cases {s o : NodeId} {p : PredId} {tt : Timestamp} {bytes : Bytes}
    {triple : Triple} (fits : Fits ext o bytes)
    (blobs : ∀ entry ∈ (store.db.family .blob).entries, BlobFits ext entry.1 entry.2)
    (rebuilt : store.reconstruct ext s p o tt bytes = .ok triple) :
    ∃ name, store.rev p = some name ∧
      ((∃ edge window, triple = .relation s name o edge window) ∨
        ∃ value window, triple = .property s name value window ∧ valueObject ext value = o ∧
          value.Stable ext) := by
  obtain ⟨name, named, rebuilt⟩ := Except.bind_eq_ok.mp rebuilt
  refine ⟨name, predicateOrErr_eq_ok.mp named, ?_⟩
  obtain ⟨decoded, read, rebuilt⟩ := Except.bind_eq_ok.mp rebuilt
  cases decoded with
  | relation edgeId temporal =>
    cases rebuilt
    exact Or.inl ⟨_, _, rfl⟩
  | property value temporal =>
    cases rebuilt
    exact Or.inr ⟨_, _, rfl, fits value temporal read⟩
  | propertyRef temporal =>
    obtain ⟨value, loaded, rebuilt⟩ := Except.bind_eq_ok.mp rebuilt
    cases rebuilt
    obtain ⟨payload, found, decoded⟩ := loadBlob_eq_ok.mp loaded
    obtain ⟨hash, stable⟩ := blobs _ (SortedMap.find?_eq_some.mp found) value decoded
    exact Or.inr ⟨_, _, rfl, NodeId.ext (Uuid.ext hash), stable⟩

/-- What a version reads back as is kept where names and out-of-line values are. -/
theorem reconstruct_mono {after : TripleStore} {s o : NodeId} {p : PredId} {tt : Timestamp}
    {bytes : Bytes} {triple : Triple} (names : ∀ name, store.rev p = some name → after.rev p = some name)
    (loads : ∀ value, store.loadBlob ext o = .ok value → after.loadBlob ext o = .ok value)
    (rebuilt : store.reconstruct ext s p o tt bytes = .ok triple) :
    after.reconstruct ext s p o tt bytes = .ok triple := by
  obtain ⟨name, named, rebuilt⟩ := Except.bind_eq_ok.mp rebuilt
  obtain ⟨decoded, read, rebuilt⟩ := Except.bind_eq_ok.mp rebuilt
  refine Except.bind_eq_ok.mpr ⟨name, ?_, Except.bind_eq_ok.mpr ⟨decoded, read, ?_⟩⟩
  · exact predicateOrErr_eq_ok.mpr (names name (predicateOrErr_eq_ok.mp named))
  · cases decoded with
    | relation | property => exact rebuilt
    | propertyRef temporal =>
      obtain ⟨value, loaded, rebuilt⟩ := Except.bind_eq_ok.mp rebuilt
      exact Except.bind_eq_ok.mpr ⟨value, loads value loaded, rebuilt⟩

/-- In a keyed store a version reads back as a triple of its own quad, with a stable value. -/
theorem Keyed.keepsKeys (keyed : store.Keyed ext) {key : QuadKey} {bytes : Bytes}
    (stored : store.index key = some bytes) {triple : Triple}
    (rebuilt : store.reconstruct ext key.s key.p key.o key.tt bytes = .ok triple) (g : GraphId)
    (mode : WriteMode) : store.quadOf ext ⟨triple, g, mode⟩ = some { key.toQuadIds with g := g } ∧
      PendingWrite.Stable ext ⟨triple, g, mode⟩ := by
  obtain ⟨name, found, ⟨edge, window, rfl⟩ | ⟨value, window, rfl, own, stable⟩⟩ :=
    reconstruct_cases (keyed.values key bytes stored) keyed.blobs rebuilt
  · exact ⟨by simp [quadOf, keyed.named _ _ found], fun _ _ _ _ same => by cases same⟩
  · refine ⟨by simp [quadOf, keyed.named _ _ found, own], fun _ _ _ _ same => ?_⟩
    cases same
    exact stable

end TripleStore

end Polargraph
