import Polargraph.Lib.Except
import Polargraph.Proofs.Storage.Codec

/-! What is written of a value that reads back decodes, inline, closed and out of line. -/

namespace Polargraph

/-- A value that is written as JSON reads back from it as some value. -/
def Value.ReadsBack (ext : External) (value : Value) : Prop :=
  (∃ floats, value = .vector floats) ∨
    ∀ json, ext.jsonToVec value = .ok json → ∃ read, ext.jsonFromSlice json = .ok read

/-- An index value decodes. -/
def Decodes (ext : External) (bytes : Bytes) : Prop :=
  ∃ decoded, decodeValue ext bytes = .ok decoded

variable {ext : External}

/-- What decodes has a window. -/
theorem validTime_of_decodeValue {bytes : Bytes} {decoded : DecodedValue}
    (done : decodeValue ext bytes = .ok decoded) : ∃ window, validTime bytes = some window := by
  unfold decodeValue at done
  unfold validTime
  cases head : bytes.head? with
  | none =>
    rw [head] at done
    cases done
  | some disc =>
    rw [head] at done
    simp only at done
    split_ifs at done with relation short property short' vector short' truncated ref
    · simp [relation, vtOffsets, short]
    · simp [property, vtOffsets, short', DISC_PROPERTY, DISC_RELATION]
    · have long : ¬ bytes.length < 17 := by omega
      simp [vector, vtOffsets, long, DISC_VECTOR, DISC_PROPERTY, DISC_RELATION]
    · split at done
      · cases done
      · rename_i vtStart vtEnd found
        unfold validTime at found
        rw [head] at found
        exact ⟨_, found⟩

/-- Whether an index value decodes depends on its discriminant, its length and its payload. -/
theorem decodes_congr {left right : Bytes} (head : left.head? = right.head?)
    (length : left.length = right.length)
    (payload : left.head? ≠ some DISC_RELATION → left.drop 17 = right.drop 17) :
    Decodes ext left ↔ Decodes ext right := by
  -- Only the windows of the decoded values may differ, and the edge of a relation.
  have offsets : (validTime left).isSome = (validTime right).isSome := by
    simp only [validTime, head, length, Option.bind_eq_bind]
    cases right.head? with
    | none => simp only [Option.bind_none]
    | some disc =>
      simp only [Option.bind_some]
      cases vtOffsets disc with
      | none => simp only [Option.bind_none]
      | some window =>
        simp only [Option.bind_some]
        split_ifs <;> simp
  simp only [Decodes, decodeValue, head, length]
  cases named : right.head? with
  | none => simp only
  | some disc =>
    simp only
    by_cases relation : disc = DISC_RELATION
    · simp only [if_pos relation]
      split_ifs <;> simp
    · have payload : left.drop 17 = right.drop 17 := payload fun same => by
        rw [head, named] at same
        exact relation (Option.some.inj same)
      have count : slice left 17 21 = slice right 17 21 := by simp only [slice, payload]
      simp only [payload, count]
      by_cases property : disc = DISC_PROPERTY
      · simp only [if_neg relation, if_pos property]
        split_ifs
        · simp
        · cases ext.jsonFromSlice (right.drop 17) <;> simp
      · by_cases vector : disc = DISC_VECTOR
        · simp only [if_neg relation, if_neg property, if_pos vector]
          split_ifs <;> simp
        · by_cases ref : disc = DISC_PROPERTY_REF
          · simp only [if_neg relation, if_neg property, if_neg vector, if_pos ref]
            cases first : validTime left <;> cases second : validTime right <;>
              simp [first, second] at offsets ⊢
          · simp only [if_neg relation, if_neg property, if_neg vector, if_neg ref]

/-- The encoding of a relation decodes. -/
theorem decodes_encodeRelation (edgeId : EdgeId) (temporal : BiTemporalRange) :
    Decodes ext (encodeRelation edgeId temporal) := by
  have head : (encodeRelation edgeId temporal).head? = some DISC_RELATION := rfl
  have long : ¬ (encodeRelation edgeId temporal).length < 33 := by
    simp [encodeRelation, edgeId.uuid.width]
  exact ⟨.relation ⟨Uuid.fromSlice (slice (encodeRelation edgeId temporal) 1 17)⟩
    (decodedWindow (encodeRelation edgeId temporal) 17 25),
    by simp only [decodeValue, head, if_true, if_neg long]⟩

/-- The encoding of a reference decodes. -/
theorem decodes_encodePropertyRef (temporal : BiTemporalRange) :
    Decodes ext (encodePropertyRef temporal) := by
  have head : (encodePropertyRef temporal).head? = some DISC_PROPERTY_REF := rfl
  refine ⟨.propertyRef ⟨temporal.vtStart, temporal.vtEnd, Timestamp.zero⟩, ?_⟩
  simp only [decodeValue, head, validTime_encodePropertyRef]
  rfl

/-- The payload of an encoded vector is long enough for the floats it counts. -/
private theorem decodes_vector {bytes : Bytes} (floats : List UInt32)
    (head : bytes.head? = some DISC_VECTOR) (long : 17 ≤ bytes.length)
    (payload : bytes.drop 17 =
      leBytes 4 floats.length ++ floats.flatMap (fun bits => leBytes 4 bits.toNat)) :
    Decodes ext bytes := by
  have body : ∀ floats : List UInt32,
      (floats.flatMap (fun bits => leBytes 4 bits.toNat)).length = floats.length * 4 := by
    intro floats
    induction floats with
    | nil => rfl
    | cons bits rest ih =>
      rw [List.flatMap_cons, List.length_append, leBytes_length, List.length_cons, ih]
      omega
  have count : slice bytes 17 21 = leBytes 4 floats.length := by
    simp only [slice, payload]
    exact List.take_left' (leBytes_length 4 _)
  have total := congrArg List.length payload
  simp only [List.length_drop, List.length_append, leBytes_length, body] at total
  have bound : leNat (leBytes 4 floats.length) ≤ floats.length := by
    rw [leNat_leBytes]
    exact Nat.mod_le _ _
  have enough : ¬ bytes.length < 21 + leNat (slice bytes 17 21) * 4 := by
    rw [count]
    omega
  have short : ¬ bytes.length < 21 := by omega
  refine ⟨.property (.vector (readFloats bytes (leNat (slice bytes 17 21))))
    (decodedWindow bytes 1 9), ?_⟩
  have relation : ¬ DISC_VECTOR = DISC_RELATION := by decide
  have property : ¬ DISC_VECTOR = DISC_PROPERTY := by decide
  simp only [decodeValue, head, if_neg relation, if_neg property, if_true, if_neg short,
    if_neg enough]

/-- An inline property is a vector, or the JSON of its value. -/
theorem encodeProperty_cases {value : Value} {temporal : BiTemporalRange} {bytes : Bytes}
    (encoded : encodeProperty ext value temporal = .ok bytes) :
    (∃ floats, value = .vector floats ∧ bytes = DISC_VECTOR :: (temporal.vtStart.toBeBytes ++
      (temporal.vtEnd.toBeBytes ++
        (leBytes 4 floats.length ++ floats.flatMap (fun bits => leBytes 4 bits.toNat))))) ∨
    ((∀ floats, value ≠ .vector floats) ∧ ∃ json, ext.jsonToVec value = .ok json ∧
      bytes = DISC_PROPERTY :: (temporal.vtStart.toBeBytes ++
        (temporal.vtEnd.toBeBytes ++ json))) := by
  unfold encodeProperty at encoded
  split at encoded
  · rename_i floats
    cases encoded
    exact Or.inl ⟨floats, rfl, by simp only [List.append_assoc]⟩
  · rename_i other
    split at encoded
    · cases encoded
    · rename_i json written
      cases encoded
      exact Or.inr ⟨other, json, written, by simp only [List.append_assoc]⟩

/-- Behind the discriminant and the window comes the payload. -/
theorem drop_window (disc : UInt8) (vtStart vtEnd : Timestamp) (payload : Bytes) :
    (disc :: (vtStart.toBeBytes ++ (vtEnd.toBeBytes ++ payload))).drop 17 = payload := by
  have width : (disc :: (vtStart.toBeBytes ++ vtEnd.toBeBytes)).length = 17 := by simp
  rw [← List.append_assoc, ← List.cons_append, ← width, List.drop_left]

/-- An inline property decodes when its value reads back. -/
theorem decodes_encodeProperty {value : Value} {temporal : BiTemporalRange} {bytes : Bytes}
    (readsBack : value.ReadsBack ext) (encoded : encodeProperty ext value temporal = .ok bytes) :
    Decodes ext bytes := by
  rcases encodeProperty_cases encoded with ⟨floats, _, rfl⟩ | ⟨other, json, written, rfl⟩
  · exact decodes_vector floats rfl (by simp; omega) (drop_window ..)
  · obtain ⟨read, parsed⟩ := (readsBack.resolve_left fun ⟨floats, same⟩ => other floats same) json written
    have long : ¬ (DISC_PROPERTY :: (temporal.vtStart.toBeBytes ++
        (temporal.vtEnd.toBeBytes ++ json))).length < 17 := by simp; omega
    have relation : ¬ DISC_PROPERTY = DISC_RELATION := by decide
    refine ⟨.property read (decodedWindow (DISC_PROPERTY :: (temporal.vtStart.toBeBytes ++
      (temporal.vtEnd.toBeBytes ++ json))) 1 9), ?_⟩
    simp only [decodeValue, List.head?_cons, if_neg relation, if_true, if_neg long, drop_window,
      parsed]

/-- Closing a value keeps its discriminant, its length and the payload of a property. -/
theorem payload_withVtEnd {bytes closed : Bytes} {closing : Timestamp}
    (done : withVtEnd bytes closing = .ok closed) :
    closed.head? = bytes.head? ∧ closed.length = bytes.length ∧
      (closed.head? ≠ some DISC_RELATION → closed.drop 17 = bytes.drop 17) := by
  -- The window of a property stands before its payload.
  obtain ⟨⟨vtStart, vtEnd⟩, read⟩ := validTime_of_withVtEnd done
  obtain ⟨same, done', _, head⟩ := withVtEnd_of_validTime read closing
  obtain rfl := Except.ok.inj (done.symm.trans done')
  obtain ⟨disc, s, e, min, first, offsets, long, _, least, _⟩ := validTime_eq_some read
  simp only [withVtEnd, first, Option.bind_some, offsets] at done
  rw [if_neg (by omega)] at done
  cases done
  have front : (bytes.take e).length = e := by simp; omega
  refine ⟨head, ?_, fun other => ?_⟩
  · simp only [List.length_append, front, Timestamp.toBeBytes_length, List.length_drop]
    omega
  · have property : e = 9 := by
      rw [head, first] at other
      unfold vtOffsets at offsets
      rw [if_neg fun relation => other (by rw [relation])] at offsets
      split_ifs at offsets
      simp only [Option.some.injEq, Prod.mk.injEq] at offsets
      omega
    have width : (bytes.take e ++ closing.toBeBytes).length = 17 := by simp; omega
    rw [List.drop_left' width, property]

/-- Closing a value keeps whether it decodes. -/
theorem decodes_withVtEnd {bytes closed : Bytes} {closing : Timestamp}
    (done : withVtEnd bytes closing = .ok closed) : Decodes ext closed ↔ Decodes ext bytes := by
  obtain ⟨head, length, payload⟩ := payload_withVtEnd done
  exact decodes_congr head length payload

/-- A value with the discriminant of an inline property decodes to one. -/
theorem property_of_decodeValue {bytes : Bytes} {disc : UInt8} {decoded : DecodedValue}
    (head : bytes.head? = some disc) (property : disc = DISC_PROPERTY ∨ disc = DISC_VECTOR)
    (done : decodeValue ext bytes = .ok decoded) :
    ∃ value temporal, decoded = .property value temporal := by
  have first : ¬ DISC_PROPERTY = DISC_RELATION := by decide
  have second : ¬ DISC_VECTOR = DISC_RELATION := by decide
  have third : ¬ DISC_VECTOR = DISC_PROPERTY := by decide
  rcases property with rfl | rfl
  · simp only [decodeValue, head, if_neg first, if_true] at done
    split_ifs at done
    split at done <;> cases done
    exact ⟨_, _, rfl⟩
  · simp only [decodeValue, head, if_neg second, if_neg third, if_true] at done
    split_ifs at done
    cases done
    exact ⟨_, _, rfl⟩

/-- The payload of an out-of-line value padded with zeros is the encoding for a window of zeros. -/
theorem padded_of_encodeBlob {value : Value} {payload : Bytes}
    (encoded : encodeBlob ext value = .ok payload) : ∃ disc rest,
      (disc = DISC_PROPERTY ∨ disc = DISC_VECTOR) ∧ payload = disc :: rest ∧
      encodeProperty ext value ⟨Timestamp.zero, Timestamp.zero, Timestamp.zero⟩ =
        .ok (disc :: (List.replicate 16 0 ++ rest)) := by
  obtain ⟨full, inline, same⟩ := Except.bind_eq_ok.mp encoded
  cases same
  obtain ⟨disc, rest, property, rfl⟩ := encodeProperty_shape inline
  refine ⟨disc, rest, property, by rw [drop_window]; rfl, inline.trans ?_⟩
  rw [← List.append_assoc]
  exact congrArg (fun zeros => Except.ok (disc :: (zeros ++ rest))) (by decide)

/-- The payload of an out-of-line value decodes when the value reads back. -/
theorem decodeBlob_encodeBlob {value : Value} {payload : Bytes} (readsBack : value.ReadsBack ext)
    (encoded : encodeBlob ext value = .ok payload) :
    ∃ read, decodeBlob ext payload = .ok read := by
  obtain ⟨disc, rest, property, rfl, inline⟩ := padded_of_encodeBlob encoded
  obtain ⟨decoded, done⟩ := decodes_encodeProperty readsBack inline
  obtain ⟨read, temporal, rfl⟩ := property_of_decodeValue rfl property done
  exact ⟨read, Except.bind_eq_ok.mpr ⟨_, done, rfl⟩⟩

end Polargraph
