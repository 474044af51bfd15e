import Polargraph.Storage.Codec

/-! Encoded values carry the valid time they were written with. -/

namespace Polargraph

/-- The middle of three appended parts is cut out by the positions where it starts and stops. -/
private theorem slice_middle (before middle after : Bytes) {start stop : Nat}
    (begins : before.length = start) (ends : start + middle.length = stop) :
    slice (before ++ (middle ++ after)) start stop = middle := by
  subst begins ends
  simp [slice]

/-- The window behind a one-byte discriminant reads back. -/
theorem validTime_cons {disc : UInt8}
    (property : disc = DISC_PROPERTY ∨ disc = DISC_VECTOR ∨ disc = DISC_PROPERTY_REF)
    (vtStart vtEnd : Timestamp) (rest : Bytes) :
    validTime (disc :: (vtStart.toBeBytes ++ (vtEnd.toBeBytes ++ rest))) =
      some (vtStart, vtEnd) := by
  -- Both timestamps stand at fixed offsets behind the discriminant.
  have offsets : vtOffsets disc = some (1, 9, 17) := by
    rcases property with rfl | rfl | rfl <;> rfl
  have start : slice (disc :: (vtStart.toBeBytes ++ (vtEnd.toBeBytes ++ rest))) 1 9 =
      vtStart.toBeBytes :=
    slice_middle [disc] vtStart.toBeBytes (vtEnd.toBeBytes ++ rest) rfl (by simp)
  have stop : slice (disc :: (vtStart.toBeBytes ++ (vtEnd.toBeBytes ++ rest))) 9 (9 + 8) =
      vtEnd.toBeBytes := by
    have cut := slice_middle (disc :: vtStart.toBeBytes) vtEnd.toBeBytes rest rfl rfl
    simpa using cut
  simp only [validTime, List.head?_cons, offsets, Option.bind_eq_bind, Option.bind_some]
  rw [if_neg (by simp; omega), start, stop]
  simp

/-- The window of a relation reads back. -/
@[simp] theorem validTime_encodeRelation (edgeId : EdgeId) (temporal : BiTemporalRange) :
    validTime (encodeRelation edgeId temporal) = some (temporal.vtStart, temporal.vtEnd) := by
  -- The edge identifier stands between the discriminant and the window.
  have width := edgeId.uuid.width
  have shape : encodeRelation edgeId temporal = (DISC_RELATION :: edgeId.uuid.bytes) ++
      (temporal.vtStart.toBeBytes ++ (temporal.vtEnd.toBeBytes ++ [])) := by
    simp [encodeRelation]
  have start : slice (encodeRelation edgeId temporal) 17 25 = temporal.vtStart.toBeBytes := by
    rw [shape]
    exact slice_middle _ _ _ (by simp [width]) (by simp)
  have stop : slice (encodeRelation edgeId temporal) 25 (25 + 8) = temporal.vtEnd.toBeBytes := by
    rw [shape, ← List.append_assoc]
    exact slice_middle _ _ _ (by simp [width]) (by simp)
  have long : ¬ (encodeRelation edgeId temporal).length < 33 := by simp [encodeRelation, width]
  have head : (encodeRelation edgeId temporal).head? = some DISC_RELATION := rfl
  simp only [validTime, head, Option.bind_eq_bind, Option.bind_some, vtOffsets, if_true]
  rw [if_neg long, start, stop]
  simp

/-- The window of a property reference reads back. -/
@[simp] theorem validTime_encodePropertyRef (temporal : BiTemporalRange) :
    validTime (encodePropertyRef temporal) = some (temporal.vtStart, temporal.vtEnd) := by
  have known : DISC_PROPERTY_REF = DISC_PROPERTY ∨ DISC_PROPERTY_REF = DISC_VECTOR ∨
      DISC_PROPERTY_REF = DISC_PROPERTY_REF := Or.inr (Or.inr rfl)
  have read := validTime_cons known temporal.vtStart temporal.vtEnd []
  rwa [List.append_nil] at read

variable {ext : External}

/-- An inline property starts with its discriminant and its window. -/
theorem encodeProperty_shape {value : Value} {temporal : BiTemporalRange} {bytes : Bytes}
    (encoded : encodeProperty ext value temporal = .ok bytes) :
    ∃ disc payload, (disc = DISC_PROPERTY ∨ disc = DISC_VECTOR) ∧
      bytes = disc :: (temporal.vtStart.toBeBytes ++ (temporal.vtEnd.toBeBytes ++ payload)) := by
  -- Vectors are binary and every other value is JSON.
  unfold encodeProperty at encoded
  split at encoded
  · cases encoded
    exact ⟨DISC_VECTOR, _, Or.inr rfl, by simp only [List.append_assoc]; rfl⟩
  · split at encoded
    · cases encoded
    · cases encoded
      exact ⟨DISC_PROPERTY, _, Or.inl rfl, by simp only [List.append_assoc]; rfl⟩

/-- The window of an inline property reads back. -/
theorem validTime_encodeProperty {value : Value} {temporal : BiTemporalRange} {bytes : Bytes}
    (encoded : encodeProperty ext value temporal = .ok bytes) :
    validTime bytes = some (temporal.vtStart, temporal.vtEnd) := by
  obtain ⟨disc, payload, property, rfl⟩ := encodeProperty_shape encoded
  exact validTime_cons (by tauto) _ _ _

/-- Only a byte string with a known discriminant and room for its window has a valid time. -/
theorem validTime_eq_some {bytes : Bytes} {vtStart vtEnd : Timestamp}
    (read : validTime bytes = some (vtStart, vtEnd)) :
    ∃ disc s e min, bytes.head? = some disc ∧ vtOffsets disc = some (s, e, min) ∧
      min ≤ bytes.length ∧ e = s + 8 ∧ min = e + 8 ∧ 0 < s ∧
      vtStart = Timestamp.fromBeBytes (slice bytes s e) ∧
      vtEnd = Timestamp.fromBeBytes (slice bytes e (e + 8)) := by
  -- Both layouts put the end right behind the start.
  simp only [validTime, Option.bind_eq_bind] at read
  obtain ⟨disc, head, rest⟩ := Option.bind_eq_some_iff.mp read
  obtain ⟨⟨s, e, min⟩, offsets, window⟩ := Option.bind_eq_some_iff.mp rest
  simp only at window
  split at window
  · cases window
  · rename_i long
    simp only [Option.some.injEq, Prod.mk.injEq] at window
    refine ⟨disc, s, e, min, head, offsets, not_lt.mp long, ?_, ?_, ?_, window.1.symm,
      window.2.symm⟩
    all_goals
      unfold vtOffsets at offsets
      split_ifs at offsets <;> simp only [Option.some.injEq, Prod.mk.injEq] at offsets <;> omega

/-- Closing keeps the discriminant and the start, and puts the new end in place of the old. -/
theorem withVtEnd_of_validTime {bytes : Bytes} {vtStart vtEnd : Timestamp}
    (read : validTime bytes = some (vtStart, vtEnd)) (closing : Timestamp) :
    ∃ closed, withVtEnd bytes closing = .ok closed ∧
      validTime closed = some (vtStart, closing) ∧ closed.head? = bytes.head? := by
  -- The eight bytes of the end are replaced and everything before them is kept.
  obtain ⟨disc, s, e, min, head, offsets, long, adjacent, least, positive, rfl, rfl⟩ :=
    validTime_eq_some read
  have front : (bytes.take e).length = e := by simp; omega
  have back : (bytes.drop (e + 8)).length = bytes.length - (e + 8) := by simp
  have kept : (bytes.take e ++ closing.toBeBytes ++ bytes.drop (e + 8)).head? = some disc := by
    cases bytes with
    | nil => simp at head
    | cons first rest =>
      have first : first = disc := by simpa using head
      subst first
      cases e with
      | zero => omega
      | succ e => simp
  refine ⟨bytes.take e ++ closing.toBeBytes ++ bytes.drop (e + 8), ?_, ?_, ?_⟩
  · simp only [withVtEnd, head, Option.bind_some, offsets]
    rw [if_neg (by omega)]
  · have start : slice (bytes.take e ++ closing.toBeBytes ++ bytes.drop (e + 8)) s e =
        slice bytes s e := by
      have short : (bytes.take e).drop s = (bytes.drop s).take (e - s) := List.drop_take ..
      simp only [slice]
      rw [List.append_assoc, List.drop_append_of_le_length (by omega), short,
        List.take_append_of_le_length (by simp; omega), List.take_take, Nat.min_self]
    have stop : slice (bytes.take e ++ closing.toBeBytes ++ bytes.drop (e + 8)) e (e + 8) =
        closing.toBeBytes := by
      rw [List.append_assoc]
      exact slice_middle _ _ _ front (by simp)
    simp only [validTime, kept, Option.bind_eq_bind, Option.bind_some, offsets]
    rw [if_neg (by simp only [List.length_append, front, back, Timestamp.toBeBytes_length]; omega),
      start, stop, Timestamp.fromBeBytes_toBeBytes]
  · rw [kept, head]

/-- Closing succeeds only on a value whose valid time can be read. -/
theorem validTime_of_withVtEnd {bytes closed : Bytes} {closing : Timestamp}
    (done : withVtEnd bytes closing = .ok closed) : ∃ window, validTime bytes = some window := by
  -- The closing test checks the same discriminant and the same length.
  unfold withVtEnd at done
  split at done
  · cases done
  · rename_i offsets
    split at done
    · cases done
    · rename_i short
      obtain ⟨disc, head, offsets⟩ := Option.bind_eq_some_iff.mp offsets
      simp only [validTime, head, Option.bind_eq_bind, Option.bind_some, offsets, if_neg short]
      exact ⟨_, rfl⟩

/-- Only a value with the reference discriminant decodes to a property reference. -/
theorem head_of_decode_propertyRef {bytes : Bytes} {temporal : BiTemporalRange}
    (decoded : decodeValue ext bytes = .ok (.propertyRef temporal)) :
    bytes.head? = some DISC_PROPERTY_REF := by
  -- Every other discriminant decodes to a relation, an inline property or an error.
  unfold decodeValue at decoded
  split at decoded
  · cases decoded
  · rename_i disc head
    split_ifs at decoded with relation short property shortProperty vector shortVector truncated ref
    · cases decoded
    · split at decoded <;> cases decoded
    · cases decoded
    · rw [head, ref]

end Polargraph
