import Polargraph.Proofs.Storage.Keys
import Polargraph.Proofs.Storage.Codec
import Polargraph.Storage.Index

/-! Every write keeps the eight orders holding one set of versions. -/

namespace Polargraph

namespace Db

variable {db : Db} {index : Index}

/-- An order that holds a set of versions finds each of them under its key. -/
theorem OrderHolds.get {order : Order} (holds : db.OrderHolds order index) (key : QuadKey) :
    db.get (.quads order) (order.encode key) = index key := by
  -- Both lookups succeed with the same values.
  ext value
  rw [Db.get, SortedMap.find?_eq_some, holds]
  constructor
  · rintro ⟨quad, same, stored⟩
    rwa [Order.encode_inj same]
  · exact fun stored => ⟨key, rfl, stored⟩

/-- The versions read from an order are the versions it holds. -/
theorem OrderHolds.orderIndex_eq {order : Order} (holds : db.OrderHolds order index) :
    db.orderIndex order = index := funext fun key => holds.get key

/-- The versions read from the leading order are the versions all orders hold. -/
theorem OrdersHold.index_eq (holds : db.OrdersHold index) : db.index = index :=
  funext fun key => (holds .spog).get key

/-- Orders that hold some set of versions hold the one read from the leading order. -/
theorem OrdersHold.self (holds : db.OrdersHold index) : db.OrdersHold db.index := by
  rw [holds.index_eq]
  exact holds

/-- A prefix no longer than a quad is a prefix of a key when it is a prefix of the quad. -/
theorem isPrefix_encode_iff {order : Order} {start : Bytes} {key : QuadKey}
    (short : start.length ≤ QUAD_TUPLE_LEN) :
    start <+: order.encode key ↔ start <+: order.tuple key.toQuadIds := by
  constructor
  · intro under
    refine List.prefix_of_prefix_length_le under (List.prefix_append _ _) ?_
    rwa [Order.tuple_length]
  · exact fun under => under.trans (List.prefix_append _ _)

/-- The entries of an order that holds versions are encodings of versions. -/
private theorem exists_encoded {order : Order} {entries : List (Bytes × Bytes)}
    (encoded : ∀ entry ∈ entries, ∃ key, entry.1 = order.encode key) :
    ∃ decoded : List (QuadKey × Bytes),
      decoded.map (fun entry => (order.encode entry.1, entry.2)) = entries := by
  induction entries with
  | nil => exact ⟨[], rfl⟩
  | cons entry rest ih =>
    obtain ⟨decoded, same⟩ := ih fun other member => encoded other (List.mem_cons_of_mem _ member)
    obtain ⟨key, own⟩ := encoded entry List.mem_cons_self
    exact ⟨(key, entry.2) :: decoded, by rw [List.map_cons, same, ← own]⟩

/-- The entries under a prefix are the encodings of the versions of the quads under it. -/
theorem OrderHolds.exists_decoded {order : Order} (holds : db.OrderHolds order index)
    {start : Bytes} (short : start.length ≤ QUAD_TUPLE_LEN) :
    ∃ decoded : List (QuadKey × Bytes),
      decoded.map (fun entry => (order.encode entry.1, entry.2)) =
        (db.family (.quads order)).scanPrefix start ∧
      ∀ entry, entry ∈ decoded ↔
        index entry.1 = some entry.2 ∧ start <+: order.tuple entry.1.toQuadIds := by
  have encoded : ∀ entry ∈ (db.family (.quads order)).scanPrefix start,
      ∃ key, entry.1 = order.encode key := by
    intro entry member
    obtain ⟨key, same, _⟩ := (holds entry.1 entry.2).mp (SortedMap.mem_scanPrefix.mp member).1
    exact ⟨key, same⟩
  obtain ⟨decoded, entries⟩ := exists_encoded encoded
  refine ⟨decoded, entries, fun entry => ?_⟩
  have scanned : (order.encode entry.1, entry.2) ∈
      (db.family (.quads order)).scanPrefix start ↔ entry ∈ decoded := by
    rw [← entries, List.mem_map]
    constructor
    · rintro ⟨other, member, same⟩
      obtain ⟨key, value⟩ := Prod.mk.inj same
      rwa [show entry = other from Prod.ext (Order.encode_inj key).symm value.symm]
    · exact fun member => ⟨entry, member, rfl⟩
  rw [← scanned, SortedMap.mem_scanPrefix, holds, isPrefix_encode_iff short]
  refine and_congr_left fun _ => ⟨?_, fun found => ⟨entry.1, rfl, found⟩⟩
  rintro ⟨key, same, found⟩
  rwa [Order.encode_inj same]

/-- A quad index is finite. -/
theorem OrderHolds.finite {order : Order} (holds : db.OrderHolds order index) (ids : QuadIds) :
    (index.history ids).Finite := by
  -- Every version of the quad is stored under a key whose time is listed.
  refine ⟨(db.family (.quads order)).entries.map (fun entry => keyTt entry.1),
    fun tt version stored => ?_⟩
  obtain ⟨bytes, found, _⟩ := Option.bind_eq_some_iff.mp stored
  refine List.mem_map.mpr ⟨(order.encode ⟨ids, tt⟩, bytes), (holds _ _).mpr ⟨_, rfl, found⟩, ?_⟩
  simp

/-- An empty order holds no versions. -/
theorem OrderHolds.of_empty {order : Order} (empty : (db.family (.quads order)).entries = []) :
    db.OrderHolds order (fun _ => none) := by
  intro key value
  simp [empty]

/-- Storing a version under its key in one order stores it in what that order holds. -/
private theorem OrderHolds.insert {order : Order} (holds : db.OrderHolds order index)
    (quad : StagedQuad) :
    (db.apply (.put (.quads order) (order.encode quad.key) quad.value)).OrderHolds order
      (index.put quad) := by
  -- Only the entry of the version's own key changes.
  intro key value
  have family : (db.apply (.put (.quads order) (order.encode quad.key) quad.value)).family
      (.quads order) = (db.family (.quads order)).insert (order.encode quad.key) quad.value :=
    Function.update_self _ _ _
  rw [family, SortedMap.mem_insert, holds]
  constructor
  · rintro (same | ⟨⟨other, rfl, stored⟩, apart⟩)
    · obtain ⟨rfl, rfl⟩ := Prod.mk.inj same
      exact ⟨quad.key, rfl, Function.update_self _ _ _⟩
    · refine ⟨other, rfl, ?_⟩
      have different : other ≠ quad.key := fun same => apart (by rw [same])
      rw [Index.put, Function.update_of_ne different]
      exact stored
  · rintro ⟨other, rfl, stored⟩
    by_cases same : other = quad.key
    · subst same
      rw [Index.put, Function.update_self] at stored
      exact Or.inl (by rw [Option.some.inj stored])
    · rw [Index.put, Function.update_of_ne same] at stored
      exact Or.inr ⟨⟨other, rfl, stored⟩, fun equal => same (Order.encode_inj equal)⟩

/-- An order keeps holding its versions when its column family is not touched. -/
theorem OrderHolds.congr {other : Db} {order : Order} (holds : db.OrderHolds order index)
    (same : other.family (.quads order) = db.family (.quads order)) :
    other.OrderHolds order index := by
  intro key value
  rw [same]
  exact holds key value

/-- Storing a version in some orders, each once, stores it in what those orders hold. -/
private theorem write_quad_order (quad : StagedQuad) (order : Order) :
    ∀ (orders : List Order) (db : Db), orders.Nodup → db.OrderHolds order index →
      (db.write (orders.map (fun order => .put (.quads order) (order.encode quad.key)
        quad.value))).OrderHolds order
        (if order ∈ orders then index.put quad else index) := by
  -- The order's own entry is written once, and the other entries do not touch it.
  intro orders
  induction orders with
  | nil => intro db _ holds; simpa [Db.write] using holds
  | cons first rest ih =>
    intro db distinct holds
    obtain ⟨absent, tail⟩ := List.nodup_cons.mp distinct
    by_cases here : first = order
    · subst here
      have written := holds.insert quad
      have untouched : ∀ middle : Db, (middle.write (rest.map (fun order =>
          .put (.quads order) (order.encode quad.key) quad.value))).family (.quads first) =
          middle.family (.quads first) := by
        refine fun middle => middle.family_write_of_forall_ne fun op member same => ?_
        obtain ⟨other, within, rfl⟩ := List.mem_map.mp member
        cases same
        exact absent within
      rw [if_pos List.mem_cons_self]
      exact written.congr (untouched _)
    · have apart : Cf.quads order ≠ (WriteOp.put (.quads first) (first.encode quad.key)
          quad.value).cf := fun same => here (Cf.quads.inj same).symm
      have kept := holds.congr (family_apply_ne db apart)
      have later := ih (db.apply _) tail kept
      simp only [List.mem_cons, Ne.symm here, false_or]
      exact later

/-- Writing a version to every order stores it in what each of them holds. -/
theorem OrderHolds.batchQuad {order : Order} (holds : db.OrderHolds order index)
    (quad : StagedQuad) : (db.write (batchQuad quad)).OrderHolds order (index.put quad) := by
  have written := write_quad_order quad order Order.ALL db (by decide) holds
  have every : order ∈ Order.ALL := by cases order <;> decide
  rwa [if_pos every] at written

/-- Deleting keys of an order leaves it the versions under the other keys. -/
theorem OrderHolds.deleteKeys {order : Order} (holds : db.OrderHolds order index)
    (keys : List Bytes) : (db.write (keys.map (.delete (.quads order)))).OrderHolds order
      (fun key => if order.encode key ∈ keys then none else index key) := by
  intro key value
  rw [mem_family_write_deletes, holds]
  constructor
  · rintro ⟨⟨quad, rfl, stored⟩, kept⟩
    exact ⟨quad, rfl, (if_neg kept).trans stored⟩
  · rintro ⟨quad, rfl, stored⟩
    simp only at stored
    split_ifs at stored with deleted
    exact ⟨⟨quad, rfl, stored⟩, deleted⟩

/-- Deleting keys of one order leaves every other order alone. -/
theorem OrderHolds.deleteOther {order pruned : Order} (holds : db.OrderHolds order index)
    (apart : order ≠ pruned) (keys : List Bytes) :
    (db.write (keys.map (.delete (.quads pruned)))).OrderHolds order index :=
  holds.congr (db.family_write_deletes_of_ne (fun equal => apart (Cf.quads.inj equal)) keys)

/-- Deleting keys of one order leaves every order with some of the versions it held. -/
theorem OrderHolds.write_deletes {order : Order} (holds : db.OrderHolds order index)
    (pruned : Order) (keys : List Bytes) :
    ∃ left, (db.write (keys.map (.delete (.quads pruned)))).OrderHolds order left ∧
      ∀ key bytes, left key = some bytes → index key = some bytes := by
  by_cases same : order = pruned
  · subst same
    refine ⟨_, holds.deleteKeys keys, fun key bytes stored => ?_⟩
    split_ifs at stored
    exact stored
  · exact ⟨index, holds.deleteOther same keys, fun _ _ stored => stored⟩

/-- Operations on other column families keep what an order holds. -/
theorem OrderHolds.write_other {order : Order} (holds : db.OrderHolds order index)
    {batch : WriteBatch} (apart : ∀ op ∈ batch, ∀ order, Cf.quads order ≠ op.cf) :
    (db.write batch).OrderHolds order index :=
  holds.congr (db.family_write_of_forall_ne fun op member => apart op member order)

end Db

namespace Index

/-- A history holds the stored versions whose window can be read. -/
theorem history_eq_some {index : Index} {ids : QuadIds} {tt : Timestamp}
    {version : Version Timestamp Bytes} : index.history ids tt = some version ↔
      index ⟨ids, tt⟩ = some version.content ∧
        validTime version.content = some (version.start, version.stop) := by
  simp only [history, Option.bind_eq_some_iff, Option.map_eq_some_iff]
  constructor
  · rintro ⟨bytes, stored, window, read, rfl⟩
    exact ⟨stored, read⟩
  · rintro ⟨stored, read⟩
    exact ⟨version.content, stored, _, read, rfl⟩

/-- Storing further versions continues the storing. -/
theorem putAll_append (index : Index) (first second : List StagedQuad) :
    index.putAll (first ++ second) = (index.putAll first).putAll second := List.foldl_append

/-- The last staged version of a key is stored, and other keys keep theirs. -/
theorem putAll_apply (index : Index) (quads : List StagedQuad) (key : QuadKey) :
    index.putAll quads key =
      match (quads.filter (fun quad => decide (quad.key = key))).getLast? with
      | some quad => some quad.value
      | none => index key := by
  induction quads generalizing index with
  | nil => rfl
  | cons first rest ih =>
    have step : index.putAll (first :: rest) key = (index.put first).putAll rest key := rfl
    rw [step, ih]
    by_cases same : first.key = key
    · subst same
      rw [List.filter_cons_of_pos (by simp), List.getLast?_cons]
      cases (rest.filter (fun quad => decide (quad.key = first.key))).getLast? with
      | none => exact Function.update_self _ _ _
      | some quad => rfl
    · rw [List.filter_cons_of_neg (by simpa using same)]
      have kept : index.put first key = index key := Function.update_of_ne (Ne.symm same) _ _
      rw [kept]

/-- A key no staged version has keeps its version. -/
theorem putAll_of_forall_ne (index : Index) {quads : List StagedQuad} {key : QuadKey}
    (apart : ∀ quad ∈ quads, quad.key ≠ key) : index.putAll quads key = index key := by
  have none : quads.filter (fun quad => decide (quad.key = key)) = [] :=
    List.filter_eq_nil_iff.mpr fun quad member => by simpa using apart quad member
  rw [putAll_apply, none]
  rfl

/-- What is stored after staging was stored before or is staged. -/
theorem putAll_eq_some {index : Index} {quads : List StagedQuad} {key : QuadKey} {value : Bytes}
    (stored : index.putAll quads key = some value) :
    index key = some value ∨ ⟨key, value⟩ ∈ quads := by
  rw [putAll_apply] at stored
  split at stored
  · rename_i quad last
    have within := List.mem_filter.mp (List.mem_of_getLast? last)
    obtain ⟨member, named⟩ := within
    refine Or.inr ?_
    rw [← of_decide_eq_true named, ← Option.some.inj stored]
    exact member
  · exact Or.inl stored

/-- A staged key is stored after staging. -/
theorem putAll_isSome (index : Index) {quads : List StagedQuad} {quad : StagedQuad}
    (member : quad ∈ quads) : (index.putAll quads quad.key).isSome := by
  rw [putAll_apply]
  have within : quad ∈ quads.filter (fun other => decide (other.key = quad.key)) :=
    List.mem_filter.mpr ⟨member, by simp⟩
  split
  · rfl
  · rename_i missing
    rw [List.getLast?_eq_none_iff] at missing
    simp [missing] at within

end Index

end Polargraph
