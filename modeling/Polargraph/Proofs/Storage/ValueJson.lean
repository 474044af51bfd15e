import Polargraph.Proofs.Storage.Rewriting
import Polargraph.Storage.ValueJson

/-! Which values read back unchanged from what is stored of them. -/

namespace Polargraph

variable {ext : External} {serde : SerdeJson}

namespace Value

/-- The reader finds in the text of a value's document the document as it was written. -/
def TextReads (serde : SerdeJson) (value : Value) : Prop :=
  ∀ document, value.toJson = some document →
    serde.fromSlice (serde.toVec document) = .ok document.written

/-- A value that can be read back: no infinite double or not-a-number, and a vector that can be counted. -/
def Readable : Value → Prop
  | float bits => isFinite bits = true
  | vector floats => floats.length < 2 ^ 32
  | _ => True

/-- Bytes written as numbers are read as the same bytes. -/
private theorem asByte_written (bytes : Bytes) :
    (Json.writtenItems (bytes.map fun byte => Json.int (UInt64.ofNat byte.toNat))).mapM Json.asByte =
      some bytes := by
  induction bytes with
  | nil => rfl
  | cons byte rest ih =>
    have small : byte.toNat < 256 := byte.toNat_lt
    have word : (UInt64.ofNat byte.toNat).toNat = byte.toNat :=
      UInt64.toNat_ofNat_of_lt' (lt_trans small (by decide))
    have read : Json.asByte (.int (UInt64.ofNat byte.toNat)) = some byte := by
      simp only [Json.asByte, word, if_pos small, UInt8.ofNat_toNat]
    simp only [List.map_cons, Json.writtenItems, Json.written, List.mapM_cons, read, ih]
    rfl

/-- The document of a value that is no vector, once written, is that of the value if it is readable. -/
theorem fromJson_written {value : Value} {document : Json} (made : value.toJson = some document) :
    fromJson serde document.written = some value ↔ value.Readable := by
  cases value with
  | vector floats => cases made
  | float bits =>
    cases made
    by_cases finite : isFinite bits = true
    · have same : (tagged "Float" (.float bits)).written = tagged "Float" (.float bits) := by
        simp only [tagged, Json.written, Json.writtenFields, if_pos finite]
      rw [same]
      exact iff_of_true rfl finite
    · -- A double that is not finite has become null, which is no double.
      have same : (tagged "Float" (.float bits)).written = tagged "Float" .null := by
        simp only [tagged, Json.written, Json.writtenFields, if_neg finite]
      have refused : fromJson serde (tagged "Float" .null) = none := rfl
      rw [same, refused]
      exact iff_of_false nofun finite
  | blob bytes =>
    cases made
    have items := asByte_written bytes
    have read : fromJson serde (tagged "Blob" (.array (bytes.map fun byte =>
        .int (UInt64.ofNat byte.toNat)))).written =
        ((Json.writtenItems (bytes.map fun byte => Json.int (UInt64.ofNat byte.toNat))).mapM
          Json.asByte).map blob := rfl
    rw [read, items]
    exact iff_of_true rfl trivial
  | null | bool | int | text | langText | typed =>
    cases made
    exact iff_of_true rfl trivial

/-- What the store reads of the text it writes for a value that is no vector. -/
theorem jsonFromSlice_toVec {value : Value} {document : Json} (made : value.toJson = some document)
    (reads : value.TextReads serde) :
    (ext.withJson serde).jsonFromSlice (serde.toVec document) =
      match fromJson serde document.written with
      | some value => .ok value
      | none => .error (serde.refusal document.written) := by
  simp only [External.withJson, reads document made, bind, Except.bind]
  cases fromJson serde document.written <;> rfl

/-- A readable value is stable. -/
theorem stable_of_readable {value : Value} (reads : value.TextReads serde)
    (readable : value.Readable) : value.Stable (ext.withJson serde) := by
  cases made : value.toJson with
  | none =>
    cases value with
    | vector floats => exact readable
    | null | bool | int | float | text | blob | langText | typed => cases made
  | some document =>
    have parsed := @jsonFromSlice_toVec ext serde value document made reads
    rw [(fromJson_written made).mpr readable] at parsed
    have own : ∀ json, (ext.withJson serde).jsonToVec value = .ok json →
        (ext.withJson serde).jsonFromSlice json = .ok value := by
      intro json wrote
      simp only [External.withJson, made, Except.ok.injEq] at wrote
      rw [← wrote]
      exact parsed
    cases value with
    | vector floats => cases made
    | null | bool | int | float | text | blob | langText | typed => exact own

/-- A value is what is decoded of it, with the window it was written over, inline and out of line. -/
def RoundTrips (ext : External) (value : Value) (window : BiTemporalRange) : Prop :=
  (∃ bytes, encodeProperty ext value window = .ok bytes ∧ decodeValue ext bytes =
    .ok (.property value ⟨window.vtStart, window.vtEnd, Timestamp.zero⟩)) ∧
  ∃ payload, encodeBlob ext value = .ok payload ∧ decodeBlob ext payload = .ok value

/-- Every value has an encoding. -/
theorem encodeProperty_withJson (value : Value) (window : BiTemporalRange) :
    ∃ bytes, encodeProperty (ext.withJson serde) value window = .ok bytes := by
  cases value with
  | vector floats => exact ⟨_, rfl⟩
  | null | bool | int | float | text | blob | langText | typed => exact ⟨_, rfl⟩

/-- Only bytes with the discriminant of a relation decode to one. -/
private theorem head_of_decode_relation {bytes : Bytes} {edgeId : EdgeId} {temporal : BiTemporalRange}
    (decoded : decodeValue ext bytes = .ok (.relation edgeId temporal)) :
    bytes.head? = some DISC_RELATION := by
  unfold decodeValue at decoded
  split at decoded
  · cases decoded
  · rename_i disc head
    split_ifs at decoded with relation short property short vector short truncated ref
    · rw [head, relation]
    · split at decoded <;> cases decoded
    · cases decoded
    · split at decoded <;> cases decoded

/-- What was encoded inline decodes to a property. -/
theorem exists_property {value : Value} {window : BiTemporalRange} {bytes : Bytes}
    (encoded : encodeProperty ext value window = .ok bytes) (decodes : Decodes ext bytes) :
    ∃ read, decodeValue ext bytes =
      .ok (.property read ⟨window.vtStart, window.vtEnd, Timestamp.zero⟩) := by
  obtain ⟨decoded, done⟩ := decodes
  have covers := decodeValue_window (validTime_encodeProperty encoded) done
  obtain ⟨disc, payload, property, rfl⟩ := encodeProperty_shape encoded
  cases decoded with
  | property read temporal => exact ⟨read, by rw [done, ← covers]⟩
  | relation edgeId temporal =>
    have head := head_of_decode_relation done
    rcases property with rfl | rfl <;> cases head
  | propertyRef temporal =>
    have head := head_of_decode_propertyRef done
    rcases property with rfl | rfl <;> cases head

/-- A stable value that has an encoding round-trips. -/
theorem roundTrips_of_stable {value : Value} (stable : value.Stable ext) (window : BiTemporalRange)
    (encodes : ∀ window, ∃ bytes, encodeProperty ext value window = .ok bytes) :
    value.RoundTrips ext window := by
  have readsBack : value.ReadsBack ext := by
    cases value with
    | vector floats => exact Or.inl ⟨floats, rfl⟩
    | null | bool | int | float | text | blob | langText | typed =>
      exact Or.inr fun json written => ⟨_, stable json written⟩
  obtain ⟨bytes, encoded⟩ := encodes window
  obtain ⟨read, decoded⟩ := exists_property encoded (decodes_encodeProperty readsBack encoded)
  obtain rfl := stable_of_encodeProperty stable encoded decoded
  -- Out of line the same bytes are kept, without the window.
  obtain ⟨full, inline⟩ := encodes ⟨Timestamp.zero, Timestamp.zero, Timestamp.zero⟩
  have kept : encodeBlob ext read = .ok (full.take 1 ++ full.drop 17) :=
    Except.bind_eq_ok.mpr ⟨full, inline, rfl⟩
  obtain ⟨again, blob⟩ := decodeBlob_encodeBlob readsBack kept
  obtain rfl := stable_of_encodeBlob stable kept blob
  exact ⟨⟨bytes, encoded, decoded⟩, _, kept, blob⟩

/-- A vector's count takes four bytes. -/
private theorem count_lt (bytes : Bytes) : leNat (slice bytes 17 21) < 2 ^ 32 := by
  have width : (slice bytes 17 21).reverse.length ≤ 4 := by simp [slice]
  calc leNat (slice bytes 17 21) < 256 ^ (slice bytes 17 21).reverse.length := beNat_lt _
    _ ≤ 256 ^ 4 := Nat.pow_le_pow_right (by decide) width
    _ = 2 ^ 32 := by norm_num

/-- A value that is decoded of its inline encoding is readable. -/
theorem readable_of_decodeValue {value : Value} {window read : BiTemporalRange} {bytes : Bytes}
    (reads : value.TextReads serde)
    (encoded : encodeProperty (ext.withJson serde) value window = .ok bytes)
    (decoded : decodeValue (ext.withJson serde) bytes = .ok (.property value read)) :
    value.Readable := by
  obtain ⟨_, held⟩ := decodeValue_eq_property.mp decoded
  rcases encodeProperty_cases encoded with ⟨floats, rfl, rfl⟩ | ⟨other, json, wrote, rfl⟩
  · rcases held with ⟨head, _⟩ | ⟨_, _, _, same⟩
    · cases head
    · -- The floats are counted in four bytes, so as many are read as these spell.
      have length := congrArg List.length (Value.vector.inj same)
      simp only [readFloats, List.length_map, List.length_range] at length
      have bound : floats.length < 2 ^ 32 := by
        rw [length]
        exact count_lt _
      exact bound
  · rcases held with ⟨_, _, parsed⟩ | ⟨head, _⟩
    · rw [drop_window] at parsed
      cases made : value.toJson with
      | none =>
        cases value with
        | vector floats => exact absurd rfl (other floats)
        | null | bool | int | float | text | blob | langText | typed => cases made
      | some document =>
        simp only [External.withJson, made, Except.ok.injEq] at wrote
        subst wrote
        rw [jsonFromSlice_toVec made reads] at parsed
        split at parsed
        · rename_i value' same
          cases parsed
          exact (fromJson_written made).mp same
        · cases parsed
    · cases head

/-- A value round-trips exactly if it is readable. -/
theorem roundTrips_iff {value : Value} (reads : value.TextReads serde) (window : BiTemporalRange) :
    value.RoundTrips (ext.withJson serde) window ↔ value.Readable := by
  constructor
  · rintro ⟨⟨bytes, encoded, decoded⟩, _⟩
    exact readable_of_decodeValue reads encoded decoded
  · intro readable
    exact roundTrips_of_stable (stable_of_readable reads readable) window (encodeProperty_withJson value)

end Value

namespace TripleStore

/-- The property value of a write is readable, and the JSON text of its document is read as written. -/
def WritesReadable (serde : SerdeJson) (w : PendingWrite) : Prop :=
  ∀ subject predicate value temporal, w.triple = .property subject predicate value temporal →
    value.TextReads serde ∧ value.Readable

/-- A store commits a transaction at a clock. -/
def committing (ext : External) (store : TripleStore) (step : Transaction × Timestamp) :
    Option TripleStore :=
  some (store.commit ext step.1 step.2).1

/-- The counter has not run out, and what is written is readable. -/
def CommitsReadable (serde : SerdeJson) (store : TripleStore) (step : Transaction × Timestamp) : Prop :=
  store.committed ≠ Timestamp.END_OF_TIME ∧ ∀ w ∈ step.1.writes, WritesReadable serde w

/-- Commits of readable values keep a store intact. -/
theorem intact_of_run {inlineMax : Nat} {vocabulary : Vocabulary} {canonical : Bool}
    {store : TripleStore} (run : Runs (committing (ext.withJson serde)) (CommitsReadable serde)
      (configured inlineMax vocabulary canonical) store) : store.Intact (ext.withJson serde) := by
  refine run.invariant (fun before step after intact admitted taken => ?_)
    (intact_configured _ inlineMax vocabulary canonical)
  obtain ⟨room, readable⟩ := admitted
  cases taken
  refine intact.commit room (fun w member subject predicate value temporal same => ?_) step.2
  obtain ⟨reads, own⟩ := readable w member subject predicate value temporal same
  exact Value.stable_of_readable reads own

/--
A value reads back over every window exactly if it is readable.

After any commits of readable values to a new store, no scan fails.
-/
theorem values_read_back (ext : External) (serde : SerdeJson) :
    (∀ value : Value, value.TextReads serde → ∀ window,
      (value.RoundTrips (ext.withJson serde) window ↔ value.Readable)) ∧
    ∀ inlineMax vocabulary canonical store,
      Runs (committing (ext.withJson serde)) (CommitsReadable serde)
        (configured inlineMax vocabulary canonical) store →
      ∀ s predicate o scope point now, ∃ found,
        store.scanScopedAt (ext.withJson serde) s predicate o scope point now = .ok found :=
  ⟨fun _ reads window => Value.roundTrips_iff reads window,
    fun _ _ _ _ run s predicate o scope point now =>
      (intact_of_run run).scans s predicate o scope point now⟩

/-- A writer and reader on one document: its JSON text, and the document found in it. -/
def oneDocument (text : String) (document : Json) : SerdeJson where
  toVec _ := utf8 text
  fromSlice _ := .ok document
  refusal _ := "invalid type: null, expected f64"
  floatOfInt word := word

/-- The JSON text of the number seven, as a value. -/
def sevenJson : SerdeJson :=
  oneDocument "\x7b\"type\":\"Int\",\"v\":7\x7d" (Value.tagged "Int" (.int 7))

/-- The number seven reads back over a window, and a store that holds it can be scanned. -/
theorem values_read_back_seven :
    (Value.int 7).RoundTrips (External.unreached.withJson sevenJson)
      ⟨Timestamp.zero, Timestamp.END_OF_TIME, Timestamp.zero⟩ ∧
    ∃ found, ((configured 256 Vocabulary.default true).commit (External.unreached.withJson sevenJson)
      (begin (configured 256 Vocabulary.default true) |>.insertIn (.property (NodeId.ofByte 1) "age"
        (.int 7) ⟨Timestamp.zero, Timestamp.END_OF_TIME, Timestamp.zero⟩) GraphId.DEFAULT .auto)
      Timestamp.zero).1.scanScopedAt (External.unreached.withJson sevenJson) none none none .union
      ⟨Timestamp.END_OF_TIME, none, none⟩ Timestamp.zero = .ok found := by
  have reads : (Value.int 7).TextReads sevenJson := by
    intro document made
    cases made
    rfl
  obtain ⟨roundTrips, scans⟩ := values_read_back External.unreached sevenJson
  refine ⟨(roundTrips _ reads _).mpr trivial, scans _ _ _ _ (.step (_, _) (.done _) ⟨by decide, ?_⟩ rfl)
    none none none .union ⟨Timestamp.END_OF_TIME, none, none⟩ Timestamp.zero⟩
  intro w member subject predicate value temporal same
  rw [List.mem_singleton.mp member] at same
  cases same
  exact ⟨reads, trivial⟩

/-- Positive infinity, as a double. -/
def infinity : Value := .float 0x7ff0000000000000

/-- The JSON text of positive infinity, which is written as null. -/
def infinityJson : SerdeJson :=
  oneDocument "\x7b\"type\":\"Float\",\"v\":null\x7d" (Value.tagged "Float" .null)

/-- A store in which a property has an infinite value. -/
def infiniteStore : TripleStore :=
  ((configured 256 Vocabulary.default true).commit (External.unreached.withJson infinityJson)
    (begin (configured 256 Vocabulary.default true) |>.insertIn (.property (NodeId.ofByte 1) "height"
      infinity ⟨Timestamp.zero, Timestamp.END_OF_TIME, Timestamp.zero⟩) GraphId.DEFAULT .auto)
    Timestamp.zero).1

/-- An infinite value is committed, does not read back, and makes a scan fail. -/
theorem infinity_unreadable : infinity.TextReads infinityJson ∧
    ¬ infinity.RoundTrips (External.unreached.withJson infinityJson)
      ⟨Timestamp.zero, Timestamp.END_OF_TIME, Timestamp.zero⟩ ∧
    infiniteStore.scanScopedAt (External.unreached.withJson infinityJson) none none none .union
      ⟨Timestamp.END_OF_TIME, none, none⟩ Timestamp.zero =
        .error (.serde "invalid type: null, expected f64") := by
  have reads : infinity.TextReads infinityJson := by
    intro document made
    cases made
    rfl
  refine ⟨reads, fun roundTrips => ?_, by decide +kernel⟩
  have finite : Value.isFinite 0x7ff0000000000000 = true := (Value.roundTrips_iff reads _).mp roundTrips
  exact absurd finite (by decide)

end TripleStore

end Polargraph
