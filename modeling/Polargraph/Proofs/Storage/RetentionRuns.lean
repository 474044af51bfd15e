import Polargraph.Proofs.Storage.Maintenance

/-! Commits that land within a retention run, and what keeps the eight orders together then. -/

namespace Polargraph

namespace Index

variable {index : Index} {txCutoff : Timestamp} {vtCutoff : Option Timestamp}
  {quads : List StagedQuad}

/-- Storing some versions expires none of them and changes the fate of no other version. -/
def Undisturbed (index : Index) (txCutoff : Timestamp) (vtCutoff : Option Timestamp)
    (quads : List StagedQuad) : Prop :=
  ∀ key bytes, index.putAll quads key = some bytes →
    ((index.putAll quads).Expired txCutoff vtCutoff key ↔
      (∀ quad ∈ quads, quad.key ≠ key) ∧ index.Expired txCutoff vtCutoff key)

/-- A written version stands whatever was stored before it. -/
theorem putAll_of_mem {quad : StagedQuad} (member : quad ∈ quads) (first second : Index) :
    first.putAll quads quad.key = second.putAll quads quad.key := by
  rw [putAll_apply, putAll_apply]
  have within : quad ∈ quads.filter (fun other => decide (other.key = quad.key)) :=
    List.mem_filter.mpr ⟨member, by simp⟩
  cases last : (quads.filter (fun other => decide (other.key = quad.key))).getLast? with
  | some _ => rfl
  | none => simp [List.getLast?_eq_none_iff.mp last] at within

/-- Versions that disturb nothing may be stored before or after pruning. -/
theorem retain_putAll (undisturbed : index.Undisturbed txCutoff vtCutoff quads) :
    (index.putAll quads).retain txCutoff vtCutoff =
      (index.retain txCutoff vtCutoff).putAll quads := by
  funext key
  by_cases written : ∃ quad ∈ quads, quad.key = key
  · -- A version that is written is not expired.
    obtain ⟨quad, member, rfl⟩ := written
    obtain ⟨bytes, stored⟩ := Option.isSome_iff_exists.mp (index.putAll_isSome member)
    have kept : ¬ (index.putAll quads).Expired txCutoff vtCutoff quad.key := fun expired =>
      ((undisturbed _ _ stored).mp expired).1 quad member rfl
    rw [retain, if_neg kept]
    exact putAll_of_mem member _ _
  · -- Any other version keeps its value and its fate.
    have apart : ∀ quad ∈ quads, quad.key ≠ key := fun quad member same =>
      written ⟨quad, member, same⟩
    rw [putAll_of_forall_ne _ apart]
    cases stored : index key with
    | none => simp [retain, putAll_of_forall_ne _ apart, stored]
    | some bytes =>
      have fate := undisturbed key bytes (by rw [putAll_of_forall_ne _ apart, stored])
      rw [and_iff_right apart] at fate
      by_cases expired : index.Expired txCutoff vtCutoff key
      · rw [retain, retain, if_pos expired, if_pos (fate.mpr expired)]
      · have kept := fun gone => expired (fate.mp gone)
        rw [retain, retain, if_neg expired, if_neg kept, putAll_of_forall_ne _ apart]

end Index

namespace Db

variable {db : Db} {index : Index}

/-- The versions the entries of an order decode to, each with its value. -/
def decoded (db : Db) (order : Order) : List (Except StorageError QuadKey × Bytes) :=
  (db.family (.quads order)).entries.map (fun entry => (order.decode entry.1, entry.2))

/-- The eight orders decode to the same versions with the same values. -/
def OrdersAgree (db : Db) : Prop :=
  ∀ first second version, version ∈ db.decoded first ↔ version ∈ db.decoded second

/-- An order that holds a set of versions decodes to it. -/
theorem OrderHolds.mem_decoded {order : Order} (holds : db.OrderHolds order index)
    (version : Except StorageError QuadKey × Bytes) :
    version ∈ db.decoded order ↔ ∃ key, version.1 = .ok key ∧ index key = some version.2 := by
  simp only [decoded, List.mem_map]
  constructor
  · rintro ⟨entry, member, rfl⟩
    obtain ⟨key, named, stored⟩ := (holds entry.1 entry.2).mp member
    exact ⟨key, by rw [named, Order.decode_encode], stored⟩
  · intro ⟨key, named, stored⟩
    refine ⟨(order.encode key, version.2), (holds _ _).mpr ⟨key, rfl, stored⟩, ?_⟩
    rw [Order.decode_encode, ← named]

/-- Orders that hold one set of versions agree. -/
theorem OrdersHold.agree (holds : db.OrdersHold index) : db.OrdersAgree := by
  intro first second version
  rw [(holds first).mem_decoded, (holds second).mem_decoded]

end Db

namespace Maintained

variable {ext : External} {state after : Maintained}

/-- The deletes of a retention run that are still to be written. -/
def pendingDeletes (state : Maintained) : WriteBatch :=
  match state.phase with
  | .deleting _ _ chunks _ => chunks.flatten
  | _ => []

/--
A commit within a pruning pass leaves the decisions of the pass alone.

Where an order is still to be scanned, the written versions disturb nothing in it, unless no order
was scanned so far, and no delete that is still to be written is of a version it writes.
-/
def Apart (ext : External) (state : Maintained) : Upkeep → Prop
  | .commit tx wall =>
    let quads := state.store.commitQuads ext tx wall
    (∀ quad ∈ quads, ∀ order, .delete (.quads order) (order.encode quad.key) ∉ state.pendingDeletes) ∧
    match state.phase with
    | .scanning cutoffs _ (order :: rest) => order :: rest = Order.ALL ∨
      (state.store.db.orderIndex order).Undisturbed cutoffs.tx cutoffs.vt quads
    | .deleting cutoffs _ _ (order :: _) =>
      (state.store.db.orderIndex order).Undisturbed cutoffs.tx cutoffs.vt quads
    | _ => True
  | _ => True

/-- The orders that are to be scanned hold some versions, the pruned ones what retention keeps. -/
structure Partway (db : Db) (cutoffs : Cutoffs) (orders : List Order) (index retained : Index) :
    Prop where
  /-- The orders still to be scanned. -/
  later : ∀ order ∈ orders, db.OrderHolds order index
  /-- What retention keeps of them. -/
  kept : orders ≠ [] → retained = index.retain cutoffs.tx cutoffs.vt
  /-- Each is scanned once. -/
  nodup : orders.Nodup

/-- The orders agree, up to what the retention run has yet to delete. -/
def Agrees (state : Maintained) : Prop :=
  match state.phase with
  | .scanning cutoffs _ orders => ∃ index retained,
    Partway state.store.db cutoffs orders index retained ∧
      ∀ order ∉ orders, state.store.db.OrderHolds order retained
  | .deleting cutoffs _ chunks orders => ∃ index retained order, ∃ keys : List Bytes, ∃ held,
    Partway state.store.db cutoffs orders index retained ∧ order ∉ orders ∧
      (∀ other ∉ order :: orders, state.store.db.OrderHolds other retained) ∧
      chunks.flatten = keys.map (.delete (.quads order)) ∧
      state.store.db.OrderHolds order held ∧
      ∀ key, retained key = if order.encode key ∈ keys then none else held key
  | _ => ∃ index, state.store.db.OrdersHold index

/-- A step that leaves the quad orders and the phase alone keeps the orders in agreement. -/
theorem Agrees.congr (agrees : state.Agrees) (phase : after.phase = state.phase)
    (same : ∀ order, after.store.db.family (.quads order) = state.store.db.family (.quads order)) :
    after.Agrees := by
  obtain ⟨store, stage⟩ := state
  obtain ⟨later, stage'⟩ := after
  obtain rfl : stage' = stage := phase
  cases stage' with
  | scanning cutoffs deleted orders =>
    obtain ⟨index, retained, partway, pruned⟩ := agrees
    exact ⟨index, retained,
      ⟨fun order member => (partway.later order member).congr (same order), partway.kept,
        partway.nodup⟩, fun order absent => (pruned order absent).congr (same order)⟩
  | deleting cutoffs deleted chunks orders =>
    obtain ⟨index, retained, order, keys, held, partway, absent, pruned, deletes, holds, left⟩ := agrees
    exact ⟨index, retained, order, keys, held,
      ⟨fun order member => (partway.later order member).congr (same order), partway.kept,
        partway.nodup⟩, absent, fun other outside => (pruned other outside).congr (same other),
      deletes, holds.congr (same order), left⟩
  | idle | pruned | marked | swept =>
    obtain ⟨index, holds⟩ := agrees
    exact ⟨index, fun order => (holds order).congr (same order)⟩

/-- A commit that stands apart from the pruning pass keeps the orders in agreement. -/
theorem Agrees.commit (agrees : state.Agrees) {tx : Transaction} {wall : Timestamp}
    (apart : state.Apart ext (.commit tx wall)) :
    Agrees { state with store := (state.store.commit ext tx wall).1 } := by
  obtain ⟨store, phase⟩ := state
  have stored : ∀ {order index}, store.db.OrderHolds order index →
      (store.commit ext tx wall).1.db.OrderHolds order
        (index.putAll (store.commitQuads ext tx wall)) :=
    fun holds => store.commit_holds ext holds tx wall
  obtain ⟨undeleted, undisturbed⟩ := apart
  cases phase with
  | scanning cutoffs deleted orders =>
    obtain ⟨index, retained, partway, pruned⟩ := agrees
    cases orders with
    | nil =>
      exact ⟨index, _, ⟨by simp, by simp, .nil⟩, fun order absent => stored (pruned order absent)⟩
    | cons order rest =>
      have own := (partway.later order List.mem_cons_self).orderIndex_eq
      rcases undisturbed with none | undisturbed
      · -- No order was scanned so far, so what is pruned later is all there is.
        refine ⟨_, _, ⟨fun other member => stored (partway.later other member), fun _ => rfl,
          partway.nodup⟩, fun other absent => ?_⟩
        rw [none] at absent
        exact absurd (by cases other <;> decide) absent
      · simp only [own] at undisturbed
        refine ⟨_, _, ⟨fun other member => stored (partway.later other member), fun some => ?_,
          partway.nodup⟩, fun other absent => stored (pruned other absent)⟩
        rw [partway.kept some, Index.retain_putAll undisturbed]
  | deleting cutoffs deleted chunks orders =>
    obtain ⟨index, retained, order, keys, held, partway, absent, pruned, deletes, holds, left⟩ := agrees
    refine ⟨_, _, order, keys, _, ⟨fun other member => stored (partway.later other member),
      fun some => ?_, partway.nodup⟩, absent, fun other outside => stored (pruned other outside),
      deletes, stored holds, fun key => ?_⟩
    · cases orders with
      | nil => exact absurd rfl some
      | cons next rest =>
        have own := (partway.later next List.mem_cons_self).orderIndex_eq
        simp only [own] at undisturbed
        rw [partway.kept some, Index.retain_putAll undisturbed]
    · -- What the commit writes is not among the keys still to be deleted.
      by_cases written : ∃ quad ∈ store.commitQuads ext tx wall, quad.key = key
      · obtain ⟨quad, member, rfl⟩ := written
        have kept : order.encode quad.key ∉ keys := by
          intro listed
          apply undeleted quad member order
          simp only [pendingDeletes, deletes]
          exact List.mem_map_of_mem listed
        rw [if_neg kept]
        exact Index.putAll_of_mem member _ _
      · have outside : ∀ quad ∈ store.commitQuads ext tx wall, quad.key ≠ key :=
          fun quad member same => written ⟨quad, member, same⟩
        rw [Index.putAll_of_forall_ne _ outside, Index.putAll_of_forall_ne _ outside]
        exact left key
  | idle | pruned | marked | swept =>
    obtain ⟨index, holds⟩ := agrees
    exact ⟨_, fun order => stored (holds order)⟩

/-- Scanning the next order, or being done with all of them, keeps the orders in agreement. -/
theorem Agrees.scan (agrees : state.Agrees) (taken : state.next ext .scan = some after) :
    after.Agrees := by
  obtain ⟨store, phase⟩ := state
  cases phase with
  | scanning cutoffs deleted orders =>
    obtain ⟨index, retained, partway, pruned⟩ := agrees
    cases orders with
    | nil =>
      -- Every order is pruned.
      cases taken
      have holds : store.db.OrdersHold retained := fun order => pruned order List.not_mem_nil
      simp only
      split_ifs <;> exact ⟨retained, holds⟩
    | cons order rest =>
      cases taken
      obtain ⟨absent, distinct⟩ := List.nodup_cons.mp partway.nodup
      have own := partway.later order List.mem_cons_self
      refine ⟨index, retained, order, _, index,
        ⟨fun other member => partway.later other (List.mem_cons_of_mem _ member),
          fun _ => partway.kept (by simp), distinct⟩, absent, pruned,
        store.flatten_pruneChunks order _ _, own, fun key => ?_⟩
      rw [partway.kept (by simp)]
      exact TripleStore.retain_eq_pruneKeys own key
  | idle | deleting | pruned | marked | swept => cases taken

/-- Writing the next chunk of deletes, or being done with them, keeps the orders in agreement. -/
theorem Agrees.delete (agrees : state.Agrees) (taken : state.next ext .delete = some after) :
    after.Agrees := by
  obtain ⟨store, phase⟩ := state
  cases phase with
  | deleting cutoffs deleted chunks orders =>
    obtain ⟨index, retained, order, keys, held, partway, absent, pruned, deletes, holds, left⟩ := agrees
    cases chunks with
    | nil =>
      -- Nothing is left to delete, so the order holds what retention keeps.
      cases taken
      obtain rfl : keys = [] := List.map_eq_nil_iff.mp deletes.symm
      have same : retained = held := funext fun key => by simpa using left key
      refine ⟨index, retained, partway, fun other outside => ?_⟩
      by_cases here : other = order
      · subst here
        rw [same]
        exact holds
      · exact pruned other (by simp [here, outside])
    | cons chunk chunks =>
      cases taken
      rw [List.flatten_cons] at deletes
      obtain ⟨now, later, rfl, rfl, remaining⟩ := List.append_eq_map_iff.mp deletes
      refine ⟨index, retained, order, later, _,
        ⟨fun other member => ?_, partway.kept, partway.nodup⟩, absent, fun other outside => ?_,
        remaining.symm, holds.deleteKeys now, fun key => ?_⟩
      · have apart : other ≠ order := fun same => absent (same ▸ member)
        exact (partway.later other member).deleteOther apart now
      · have apart : other ≠ order := fun same => outside (by simp [same])
        exact (pruned other outside).deleteOther apart now
      · rw [left key]
        by_cases first : order.encode key ∈ now <;> by_cases second : order.encode key ∈ later <;>
          simp [first, second]
  | idle | scanning | pruned | marked | swept => cases taken

/-- A step that stands apart from the pruning pass keeps the orders in agreement. -/
theorem Agrees.next (agrees : state.Agrees) (deletes : state.phase.Deletes) {step : Upkeep}
    (apart : state.Apart ext step) (taken : state.next ext step = some after) : after.Agrees := by
  cases step with
  | commit tx wall =>
    cases taken
    exact agrees.commit apart
  | setInlineValueMaxBytes n =>
    cases taken
    exact agrees.congr rfl fun _ => rfl
  | pruneChanges before =>
    cases taken
    exact agrees.congr rfl fun order =>
      state.store.family_pruneChanges before (by simp) (by simp)
  | scan => exact agrees.scan taken
  | delete => exact agrees.delete taken
  | start policy now =>
    obtain ⟨store, phase⟩ := state
    cases phase with
    | idle =>
      cases taken
      obtain ⟨index, holds⟩ := agrees
      refine ⟨index, _, ⟨fun order _ => holds order, fun _ => rfl, by decide⟩, fun order absent => ?_⟩
      exact absurd (by cases order <;> decide) absent
    | scanning | deleting | pruned | marked | swept => cases taken
  | mark =>
    obtain ⟨store, phase⟩ := state
    cases phase with
    | pruned =>
      simp only [Maintained.next] at taken
      split at taken <;> cases taken <;> exact agrees
    | idle | scanning | deleting | marked | swept => cases taken
  | sweep =>
    obtain ⟨store, phase⟩ := state
    cases phase with
    | marked live =>
      cases taken
      simp only
      split_ifs <;> exact agrees
    | idle | scanning | deleting | pruned | swept => cases taken
  | deleteBlobs =>
    obtain ⟨store, phase⟩ := state
    cases phase with
    | swept batch =>
      cases taken
      obtain ⟨keys, rfl⟩ := deletes
      obtain ⟨index, holds⟩ := agrees
      exact ⟨index, fun order => (holds order).congr
        (store.db.family_write_deletes_of_ne (by simp) keys)⟩
    | idle | scanning | deleting | pruned | marked => cases taken

/-- A transaction that relates two nodes for a window, having read at a time. -/
def relates (readTs start stop : Timestamp) : Transaction :=
  (Transaction.new readTs).insertIn
    (.relation (NodeId.ofByte 1) "knows" (NodeId.ofByte 2) ⟨(NodeId.ofByte 3).uuid⟩
      ⟨start, stop, Timestamp.zero⟩) GraphId.DEFAULT .auto

/-- A relation that has ended is stored, and a retention run without grace prunes one order. -/
def prunesFirst : List Upkeep :=
  [.commit (relates Timestamp.zero Timestamp.zero (Timestamp.wrap 5)) (Timestamp.wrap 1),
    .start ⟨0, some 0⟩ (Timestamp.wrap 10)] ++ prunesOrder

/-- The relation is stored again, and the retention run deletes nothing from the other orders. -/
def relatesAgain : List Upkeep :=
  .commit (relates (Timestamp.wrap 1) (Timestamp.wrap 10) Timestamp.END_OF_TIME)
      (Timestamp.wrap 11) ::
    Order.ALL.tail.flatMap (fun _ => [.scan, .delete]) ++ [.scan, .mark, .sweep]

/-- Whether no retention run is going on. -/
def atRest (state : Maintained) : Bool :=
  match state.phase with
  | .idle => true
  | _ => false

/-- The version of the relation that has ended. -/
def ended : Except StorageError QuadKey × Bytes :=
  (.ok ⟨⟨NodeId.ofByte 1, 1, NodeId.ofByte 2, GraphId.DEFAULT⟩, Timestamp.wrap 1⟩,
    encodeRelation ⟨(NodeId.ofByte 3).uuid⟩ ⟨Timestamp.zero, Timestamp.wrap 5, Timestamp.wrap 1⟩)

end Maintained

end Polargraph
