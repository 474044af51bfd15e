import Mathlib.Data.List.TakeWhile
import Polargraph.Storage.Keys

/-! Quad keys decode to what they encode, and prefixes select exactly the bound components. -/

namespace Polargraph

/-- Node identifiers with the same bytes are equal. -/
theorem NodeId.bytes_inj {left right : NodeId} (same : left.uuid.bytes = right.uuid.bytes) :
    left = right := NodeId.ext (Uuid.ext same)

/-- 32-bit identifiers with the same bytes are equal. -/
theorem u32Bytes_inj {left right : UInt32} (same : u32Bytes left = u32Bytes right) :
    left = right := by
  rw [← u32From_u32Bytes left, same, u32From_u32Bytes]

/-- A component takes the bytes of its width. -/
@[simp] theorem Slot.bytes_length (ids : QuadIds) (slot : Slot) :
    (slot.bytes ids).length = slot.width := by
  cases slot <;> simp [Slot.bytes, Slot.width, Uuid.width]

/-- Reading the bytes of one quad's component stores that component. -/
private theorem Slot.read_bytes (ids target : QuadIds) (slot : Slot) :
    slot.read (slot.bytes ids) target = match slot with
      | .s => { target with s := ids.s }
      | .p => { target with p := ids.p }
      | .o => { target with o := ids.o }
      | .g => { target with g := ids.g } := by
  cases slot <;> simp [Slot.read, Slot.bytes]

namespace Order

/-- A quad prefix takes forty bytes in every order. -/
@[simp] theorem tuple_length (order : Order) (ids : QuadIds) :
    (order.tuple ids).length = QUAD_TUPLE_LEN := by
  cases order <;> simp [tuple, slots, QUAD_TUPLE_LEN, QUAD_KEY_LEN, Slot.width]

/-- A quad key takes forty-eight bytes in every order. -/
@[simp] theorem encode_length (order : Order) (key : QuadKey) :
    (order.encode key).length = QUAD_KEY_LEN := by
  simp [encode, QUAD_TUPLE_LEN, QUAD_KEY_LEN]

/-- Reading the first component of a key consumes exactly its bytes. -/
private theorem readSlots_cons (slot : Slot) (rest : List Slot) (ids target : QuadIds) :
    readSlots (slot :: rest) ((slot :: rest).flatMap (Slot.bytes ids)) target =
      readSlots rest (rest.flatMap (Slot.bytes ids)) (slot.read (slot.bytes ids) target) := by
  have width := Slot.bytes_length ids slot
  simp only [readSlots, List.flatMap_cons]
  rw [← width, List.drop_left, List.take_left]

/-- The components of a quad prefix read back as the quad, whatever was there before. -/
theorem readSlots_tuple (order : Order) (ids target : QuadIds) :
    readSlots order.slots (order.tuple ids) target = ids := by
  -- Every order stores all four components, so nothing of the old quad remains.
  cases order <;>
    simp only [tuple, slots, readSlots_cons, Slot.read_bytes] <;>
    rfl

/-- A key decodes to what it encodes. -/
@[simp] theorem decode_encode (order : Order) (key : QuadKey) :
    order.decode (order.encode key) = .ok key := by
  have width : (order.tuple key.toQuadIds).length = QUAD_TUPLE_LEN := tuple_length order _
  have checked : checkLen (order.encode key) QUAD_KEY_LEN order.cf = .ok () := by
    simp [checkLen]
  have front : (order.encode key).take QUAD_TUPLE_LEN = order.tuple key.toQuadIds := by
    rw [encode, ← width, List.take_left]
  have back : (order.encode key).drop QUAD_TUPLE_LEN = key.tt.toBeBytes := by
    rw [encode, ← width, List.drop_left]
  simp only [decode, checked, front, back, readSlots_tuple, Timestamp.fromBeBytes_toBeBytes]
  rfl

/-- Two keys with the same bytes in one order are equal. -/
theorem encode_inj {order : Order} {left right : QuadKey}
    (same : order.encode left = order.encode right) : left = right := by
  have decoded := decode_encode order left
  rw [same, decode_encode] at decoded
  exact (Except.ok.inj decoded).symm

/-- Two quads with the same prefix in one order are equal. -/
theorem tuple_inj {order : Order} {left right : QuadIds}
    (same : order.tuple left = order.tuple right) : left = right := by
  have keys : order.encode ⟨left, Timestamp.zero⟩ = order.encode ⟨right, Timestamp.zero⟩ := by
    simp only [encode, same]
  exact congrArg QuadKey.toQuadIds (encode_inj keys)

/-- The transaction time is read from the end of a key. -/
@[simp] theorem keyTt_encode (order : Order) (key : QuadKey) :
    keyTt (order.encode key) = key.tt := by
  have width : (order.tuple key.toQuadIds).length = (order.encode key).length - 8 := by
    simp [QUAD_KEY_LEN, QUAD_TUPLE_LEN]
  rw [keyTt, ← width, encode, List.drop_left, Timestamp.fromBeBytes_toBeBytes]

/-- The graph is read from its place in every order. -/
@[simp] theorem graphOf_encode (order : Order) (key : QuadKey) :
    order.graphOf (order.encode key) = key.g := by
  -- The graph leads in two orders and follows thirty-six bytes in the others.
  have subject := key.s.uuid.width
  have object := key.o.uuid.width
  have leading (after : Bytes) : ((u32Bytes key.g.raw ++ after).drop 0).take 4 =
      u32Bytes key.g.raw := by simp
  have following (before after : Bytes) (width : before.length = GRAPH_OFFSET_NON_LEADING) :
      ((before ++ (u32Bytes key.g.raw ++ after)).drop GRAPH_OFFSET_NON_LEADING).take 4 =
        u32Bytes key.g.raw := by simp [← width]
  cases order <;>
    simp only [graphOf, encode, tuple, slots, List.flatMap_cons, List.flatMap_nil, Slot.bytes,
      List.append_nil]
  case gspo | gpos =>
    rw [List.append_assoc, leading, u32From_u32Bytes]
  all_goals
    rw [← List.append_assoc, ← List.append_assoc, List.append_assoc _ (u32Bytes key.g.raw),
      following _ _ (by simp [subject, object, GRAPH_OFFSET_NON_LEADING]), u32From_u32Bytes]

end Order

/-- One equal-width part is a prefix exactly when it is that part. -/
private theorem append_isPrefix_append {left right front back : Bytes}
    (same : left.length = right.length) :
    left ++ front <+: right ++ back ↔ left = right ∧ front <+: back := by
  constructor
  · rintro ⟨suffix, whole⟩
    rw [List.append_assoc] at whole
    obtain ⟨parts, rest⟩ := List.append_inj whole same
    exact ⟨parts, suffix, rest⟩
  · rintro ⟨rfl, suffix, rfl⟩
    exact ⟨suffix, by simp⟩

/-- The bytes of a bound component have its width. -/
theorem Bound.bytes_length {bound : Bound} {slot : Slot} {bytes : Bytes}
    (given : bound.bytes slot = some bytes) : bytes.length = slot.width := by
  cases slot <;>
    · obtain ⟨value, _, rfl⟩ := Option.map_eq_some_iff.mp given
      simp [Slot.width, Uuid.width]

/-- The quad has the components a scan binds. -/
structure Bound.Matches (bound : Bound) (ids : QuadIds) : Prop where
  /-- The subject agrees. -/
  s : ∀ s, bound.s = some s → ids.s = s
  /-- The predicate agrees. -/
  p : ∀ p, bound.p = some p → ids.p = p
  /-- The object slot agrees. -/
  o : ∀ o, bound.o = some o → ids.o = o
  /-- The graph agrees. -/
  g : ∀ g, bound.g = some g → ids.g = g

/-- A bound component of a matching quad has the quad's bytes. -/
theorem Bound.Matches.bytes {bound : Bound} {ids : QuadIds} (agrees : bound.Matches ids)
    {slot : Slot} {bytes : Bytes} (given : bound.bytes slot = some bytes) :
    slot.bytes ids = bytes := by
  cases slot with
  | s =>
    obtain ⟨value, found, rfl⟩ := Option.map_eq_some_iff.mp given
    simp [Slot.bytes, agrees.s value found]
  | p =>
    obtain ⟨value, found, rfl⟩ := Option.map_eq_some_iff.mp given
    simp [Slot.bytes, agrees.p value found]
  | o =>
    obtain ⟨value, found, rfl⟩ := Option.map_eq_some_iff.mp given
    simp [Slot.bytes, agrees.o value found]
  | g =>
    obtain ⟨value, found, rfl⟩ := Option.map_eq_some_iff.mp given
    simp [Slot.bytes, agrees.g value found]

namespace Order

/-- A scan prefix is a prefix of a key when every component it covers has the key's bytes. -/
private theorem boundPrefix_isPrefix_iff (bound : Bound) (ids : QuadIds) (rest : Bytes) :
    ∀ slots : List Slot, boundPrefix bound slots <+: slots.flatMap (Slot.bytes ids) ++ rest ↔
      ∀ slot ∈ slots.takeWhile (fun slot => (bound.bytes slot).isSome),
        bound.bytes slot = some (slot.bytes ids) := by
  -- The prefix stops at the first unbound component, and bound ones are compared in turn.
  intro slots
  induction slots with
  | nil => simp [boundPrefix]
  | cons slot slots ih =>
    cases given : bound.bytes slot with
    | none => simp [boundPrefix, given]
    | some bytes =>
      have width : bytes.length = (slot.bytes ids).length := by
        rw [Bound.bytes_length given, Slot.bytes_length]
      rw [boundPrefix, given, List.flatMap_cons, List.append_assoc,
        append_isPrefix_append width, ih, List.takeWhile_cons]
      simp [given]

/-- The key of a matching quad starts with the scan prefix. -/
theorem keyPrefix_isPrefix {s : Option NodeId} {p : Option PredId} {o : Option NodeId}
    {g : Option GraphId} {key : QuadKey} (agrees : Bound.Matches ⟨s, p, o, g⟩ key.toQuadIds)
    (order : Order) : order.keyPrefix s p o g <+: order.encode key := by
  rw [keyPrefix, encode, tuple, boundPrefix_isPrefix_iff]
  intro slot covered
  have given := List.mem_takeWhile_imp covered
  obtain ⟨bytes, found⟩ := Option.isSome_iff_exists.mp given
  rw [found, agrees.bytes found]

/-- A quad under the prefix of components that lead an order has these components. -/
theorem matches_of_keyPrefix {order : Order} {s : Option NodeId} {p : Option PredId}
    {o : Option NodeId} {g : Option GraphId} {ids : QuadIds}
    (leads : ∀ slot, ((⟨s, p, o, g⟩ : Bound).bytes slot).isSome →
      slot ∈ order.slots.takeWhile (fun slot => ((⟨s, p, o, g⟩ : Bound).bytes slot).isSome))
    (under : order.keyPrefix s p o g <+: order.tuple ids) : Bound.Matches ⟨s, p, o, g⟩ ids := by
  have agree := (boundPrefix_isPrefix_iff ⟨s, p, o, g⟩ ids [] order.slots).mp
    (by rw [List.append_nil]; exact under)
  constructor
  · rintro own rfl
    have same := agree .s (leads .s rfl)
    exact (NodeId.bytes_inj (Option.some.inj same)).symm
  · rintro own rfl
    have same := agree .p (leads .p rfl)
    exact (u32Bytes_inj (Option.some.inj same)).symm
  · rintro own rfl
    have same := agree .o (leads .o rfl)
    exact (NodeId.bytes_inj (Option.some.inj same)).symm
  · rintro own rfl
    have same := agree .g (leads .g rfl)
    exact (GraphId.ext (u32Bytes_inj (Option.some.inj same))).symm

/-- Keys under a graph, subject and predicate prefix are the versions of their values. -/
theorem gspo_values_isPrefix_iff {s : NodeId} {p : PredId} {g : GraphId} {key : QuadKey} :
    gspo.keyPrefix (some s) (some p) none (some g) <+: gspo.encode key ↔
      key.s = s ∧ key.p = p ∧ key.g = g := by
  rw [keyPrefix, encode, tuple, boundPrefix_isPrefix_iff]
  simp only [slots, List.takeWhile, Bound.bytes, Option.map_some, Option.map_none,
    Option.isSome_some, Option.isSome_none, List.forall_mem_cons, Slot.bytes, Option.some.injEq]
  constructor
  · rintro ⟨graph, subject, pred, _⟩
    exact ⟨(NodeId.bytes_inj subject).symm, (u32Bytes_inj pred).symm,
      (GraphId.ext (u32Bytes_inj graph)).symm⟩
  · rintro ⟨rfl, rfl, rfl⟩
    simp

/-- Keys under a full quad prefix are the versions of that quad. -/
theorem gspo_quad_isPrefix_iff {s : NodeId} {p : PredId} {o : NodeId} {g : GraphId}
    {key : QuadKey} :
    gspo.keyPrefix (some s) (some p) (some o) (some g) <+: gspo.encode key ↔
      key.toQuadIds = ⟨s, p, o, g⟩ := by
  rw [keyPrefix, encode, tuple, boundPrefix_isPrefix_iff]
  simp only [slots, List.takeWhile, Bound.bytes, Option.map_some, Option.isSome_some,
    List.forall_mem_cons, Slot.bytes, Option.some.injEq]
  constructor
  · rintro ⟨graph, subject, pred, object, _⟩
    rw [QuadIds.mk.injEq]
    exact ⟨(NodeId.bytes_inj subject).symm, (u32Bytes_inj pred).symm,
      (NodeId.bytes_inj object).symm, (GraphId.ext (u32Bytes_inj graph)).symm⟩
  · intro same
    rw [same]
    simp

/-- A scan prefix is no longer than a quad. -/
theorem keyPrefix_short (order : Order) (s : Option NodeId) (p : Option PredId)
    (o : Option NodeId) (g : Option GraphId) :
    (order.keyPrefix s p o g).length ≤ QUAD_TUPLE_LEN := by
  -- Bound components are at most all four, of forty bytes together.
  have bounded : ∀ (bound : Bound) (slots : List Slot),
      (boundPrefix bound slots).length ≤ (slots.map Slot.width).sum := by
    intro bound slots
    induction slots with
    | nil => simp [boundPrefix]
    | cons slot rest ih =>
      cases given : bound.bytes slot with
      | none => simp [boundPrefix, given]
      | some bytes =>
        have width := Bound.bytes_length given
        simp only [boundPrefix, given, List.length_append, List.map_cons, List.sum_cons]
        omega
  refine le_trans (bounded _ _) ?_
  cases order <;> decide

end Order

end Polargraph
