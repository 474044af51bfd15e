import Mathlib.Data.List.Nodup
import Polargraph.Proofs.Storage.Staging
import Polargraph.Proofs.Storage.Scan
import Polargraph.Storage.Compaction

/-! Retention changes no answer inside its window: what pruning and the sweep delete, and what reads find after. -/

namespace Polargraph

namespace Index

variable (index : Index) (txCutoff : Timestamp) (vtCutoff : Option Timestamp)

/-- A version of the quad with the same start was recorded later, but before the cutoff. -/
def Shadowed (key : QuadKey) : Prop :=
  ∃ version later version', index.history key.toQuadIds key.tt = some version ∧
    index.history key.toQuadIds later = some version' ∧ version'.start = version.start ∧
    key.tt < later ∧ later < txCutoff

/-- Every stored version of the quad that is not shadowed ended before the lookback cutoff. -/
def ClosedOut (ids : QuadIds) : Prop :=
  ∃ cut, vtCutoff = some cut ∧ ∀ tt bytes, index ⟨ids, tt⟩ = some bytes →
    ¬ index.Shadowed txCutoff ⟨ids, tt⟩ →
    ∃ version, index.history ids tt = some version ∧ version.stop < cut

/-- Retention deletes a version: it is shadowed, or its whole quad is closed out. -/
def Expired (key : QuadKey) : Prop :=
  (∃ version, index.history key.toQuadIds key.tt = some version) ∧
    (index.Shadowed txCutoff key ∨ index.ClosedOut txCutoff vtCutoff key.toQuadIds)

open Classical in
/-- The versions retention keeps. -/
noncomputable def retain : Index := fun key =>
  if index.Expired txCutoff vtCutoff key then none else index key

variable {index txCutoff vtCutoff}

/-- Retention keeps a version exactly when it is stored and not expired. -/
theorem retain_eq_some {key : QuadKey} {bytes : Bytes} :
    index.retain txCutoff vtCutoff key = some bytes ↔
      index key = some bytes ∧ ¬ index.Expired txCutoff vtCutoff key := by
  unfold retain
  split_ifs with expired <;> simp [expired]

/-- A history after retention holds the versions that are not expired. -/
theorem history_retain_eq_some {ids : QuadIds} {tt : Timestamp}
    {version : Version Timestamp Bytes} :
    (index.retain txCutoff vtCutoff).history ids tt = some version ↔
      index.history ids tt = some version ∧ ¬ index.Expired txCutoff vtCutoff ⟨ids, tt⟩ := by
  rw [history_eq_some, retain_eq_some, history_eq_some]
  tauto

/-- The latest record among those that shadow a version is kept by the transaction-time rule. -/
private theorem exists_kept_shadow {ids : QuadIds} {tt : Timestamp}
    {version : Version Timestamp Bytes} (finite : (index.history ids).Finite)
    (stored : index.history ids tt = some version) (shadowed : index.Shadowed txCutoff ⟨ids, tt⟩) :
    ∃ later version', index.history ids later = some version' ∧
      ¬ index.Shadowed txCutoff ⟨ids, later⟩ ∧ version'.start = version.start ∧
      tt < later ∧ later < txCutoff := by
  -- Nothing between it and the cutoff has the same start.
  obtain ⟨own, later, version', found, kept, same, after, before⟩ := shadowed
  rw [stored] at found
  cases found
  obtain ⟨top, best, topKept, ⟨topSame, topAfter, topBefore⟩, above⟩ :=
    finite.exists_max (fun later _ => later)
      (fun later version' => version'.start = version.start ∧ tt < later ∧ later < txCutoff)
      kept ⟨same, after, before⟩
  refine ⟨top, best, topKept, ?_, topSame, topAfter, topBefore⟩
  rintro ⟨own', next, further, found, nextKept, nextSame, nextAfter, nextBefore⟩
  rw [topKept] at found
  cases found
  have bound := above next further nextKept
    ⟨nextSame.trans topSame, lt_trans topAfter nextAfter, nextBefore⟩
  exact absurd nextAfter (not_lt.mpr bound)

/-- Where the quad is not closed out, retention only drops shadowed versions. -/
theorem retain_shadowed {ids : QuadIds} (finite : (index.history ids).Finite)
    (present : ¬ index.ClosedOut txCutoff vtCutoff ids) :
    History.Shadowed (index.history ids) ((index.retain txCutoff vtCutoff).history ids)
      txCutoff where
  subset tt version kept := (history_retain_eq_some.mp kept).1
  shadow tt version stored dropped := by
    have expired : index.Expired txCutoff vtCutoff ⟨ids, tt⟩ := by
      by_contra kept
      exact dropped (history_retain_eq_some.mpr ⟨stored, kept⟩)
    obtain ⟨_, shadowed | closed⟩ := expired
    · obtain ⟨later, version', found, kept, same, after, before⟩ :=
        exists_kept_shadow finite stored shadowed
      refine ⟨later, version', history_retain_eq_some.mpr ⟨found, ?_⟩, same, after, before⟩
      rintro ⟨_, again | closed⟩
      · exact kept again
      · exact present closed
    · exact absurd closed present

/-- A quad that is closed out is not live at any valid time the lookback covers. -/
theorem ClosedOut.not_live {ids : QuadIds} (finite : (index.history ids).Finite)
    (closed : index.ClosedOut txCutoff vtCutoff ids) {ts vt tt : Timestamp}
    {version : Version Timestamp Bytes} (within : txCutoff ≤ ts)
    (lookback : ∀ cut, vtCutoff = some cut → cut ≤ vt)
    (governs : (index.history ids).Governs ts vt tt version) : ¬ vt < version.stop := by
  -- A governing version is not shadowed, so it ended before the lookback cutoff.
  obtain ⟨cut, given, ended⟩ := closed
  have leading : ¬ index.Shadowed txCutoff ⟨ids, tt⟩ := by
    intro shadowed
    obtain ⟨later, version', found, _, same, after, before⟩ :=
      exists_kept_shadow finite governs.seen.stored shadowed
    have sees : (index.history ids).Sees ts vt later version' :=
      ⟨found, le_trans (le_of_lt before) within, same ▸ governs.seen.begun⟩
    rcases governs.latest later version' sees with earlier | ⟨_, order⟩
    · exact ne_of_lt earlier same
    · exact absurd after (not_lt.mpr order)
  obtain ⟨version', found, early⟩ :=
    ended tt version.content (history_eq_some.mp governs.seen.stored).1 leading
  rw [governs.seen.stored] at found
  cases found
  exact not_lt.mpr (le_trans (le_of_lt early) (lookback cut given))

/-- The same versions govern, and cover the valid time, after retention as before it. -/
theorem governs_retain_iff {ids : QuadIds} (finite : (index.history ids).Finite)
    {ts vt tt : Timestamp} {version : Version Timestamp Bytes} (within : txCutoff ≤ ts)
    (lookback : ∀ cut, vtCutoff = some cut → cut ≤ vt) :
    ((index.retain txCutoff vtCutoff).history ids).Governs ts vt tt version ∧ vt < version.stop ↔
      (index.history ids).Governs ts vt tt version ∧ vt < version.stop := by
  -- A quad that is closed out was hidden before and has no version left.
  by_cases closed : index.ClosedOut txCutoff vtCutoff ids
  · constructor
    · rintro ⟨governs, _⟩
      obtain ⟨stored, kept⟩ := history_retain_eq_some.mp governs.seen.stored
      exact absurd ⟨⟨version, stored⟩, Or.inr closed⟩ kept
    · rintro ⟨governs, covers⟩
      exact absurd covers (closed.not_live finite within lookback governs)
  · exact and_congr_left fun _ => (retain_shadowed finite closed).governs_iff within

/-- A scan finds the same after retention as before it. -/
theorem scanFinds_retain_iff {order : Order} {start : Bytes} {point : ReadAt} {vt : Timestamp}
    {graphs : GraphScope} {ids : QuadIds} {slot : VersionSlot}
    (finite : (index.history ids).Finite) (within : txCutoff ≤ point.ts)
    (lookback : ∀ cut, vtCutoff = some cut → cut ≤ vt) :
    ScanFinds (index.retain txCutoff vtCutoff) order start point vt graphs ids slot ↔
      ScanFinds index order start point vt graphs ids slot := by
  have same : ((index.retain txCutoff vtCutoff).history ids).Governs point.ts vt slot.tt slot.version ∧
      vt < slot.version.stop ↔
      (index.history ids).Governs point.ts vt slot.tt slot.version ∧ vt < slot.version.stop :=
    governs_retain_iff finite within lookback
  constructor
  · rintro ⟨admits, governs, covers, higher⟩
    obtain ⟨governs, covers⟩ := same.mp ⟨governs, covers⟩
    exact ⟨admits, governs, covers, higher⟩
  · rintro ⟨admits, governs, covers, higher⟩
    obtain ⟨governs, covers⟩ := same.mpr ⟨governs, covers⟩
    exact ⟨admits, governs, covers, higher⟩

end Index

variable {index : Index} {txCutoff : Timestamp} {vtCutoff : Option Timestamp}

/-- The window of an index entry is parsed together with the transaction time of its key. -/
private theorem parseVersion_encode (order : Order) (key : QuadKey) (bytes : Bytes) :
    parseVersion (order.encode key, bytes) =
      (validTime bytes).map (fun window => (key.tt, window.1, window.2)) := by
  have long : ¬ (order.encode key).length < 8 := by simp [QUAD_KEY_LEN]
  rw [parseVersion, if_neg long, Order.keyTt_encode]

/-- The entries of one quad in an order. -/
private structure GroupOf (index : Index) (order : Order) (ids : QuadIds)
    (group : List (Bytes × Bytes)) : Prop where
  /-- They are the stored versions of the quad. -/
  listed : ∀ entry, entry ∈ group ↔
    ∃ tt, entry.1 = order.encode ⟨ids, tt⟩ ∧ index ⟨ids, tt⟩ = some entry.2

namespace GroupOf

variable {order : Order} {ids : QuadIds} {group : List (Bytes × Bytes)}

/-- The test for shadowed versions finds exactly those. -/
theorem isShadowed_iff (versions : GroupOf index order ids group) {tt : Timestamp} {bytes : Bytes}
    (stored : index ⟨ids, tt⟩ = some bytes) :
    isShadowed group txCutoff (order.encode ⟨ids, tt⟩, bytes) = true ↔
      index.Shadowed txCutoff ⟨ids, tt⟩ := by
  simp only [isShadowed, parseVersion_encode]
  cases read : validTime bytes with
  | none =>
    simp only [Option.map_none, Bool.false_eq_true, false_iff]
    rintro ⟨version, _, _, found, _⟩
    obtain ⟨own, window⟩ := Index.history_eq_some.mp found
    rw [Option.some.inj (stored.symm.trans own), window] at read
    cases read
  | some window =>
    simp only [Option.map_some, List.any_eq_true]
    constructor
    · rintro ⟨⟨key, value⟩, member, shadows⟩
      obtain ⟨later, rfl, found⟩ := (versions.listed _).mp member
      rw [parseVersion_encode] at shadows
      cases other : validTime value with
      | none => simp [other] at shadows
      | some window' =>
        rw [other] at shadows
        obtain ⟨same, after, before⟩ := of_decide_eq_true shadows
        exact ⟨⟨window.1, window.2, bytes⟩, later, ⟨window'.1, window'.2, value⟩,
          Index.history_eq_some.mpr ⟨stored, read⟩, Index.history_eq_some.mpr ⟨found, other⟩,
          same, after, before⟩
    · rintro ⟨version, later, version', found, kept, same, after, before⟩
      obtain ⟨own, read'⟩ := Index.history_eq_some.mp found
      obtain ⟨listed, window'⟩ := Index.history_eq_some.mp kept
      rw [← Option.some.inj (stored.symm.trans own), read] at read'
      refine ⟨(order.encode ⟨ids, later⟩, version'.content),
        (versions.listed _).mpr ⟨later, rfl, listed⟩, ?_⟩
      rw [parseVersion_encode, window']
      refine decide_eq_true ⟨same.trans ?_, after, before⟩
      rw [Option.some.inj read']

/-- The test for ended versions finds exactly those. -/
private theorem endedBefore_iff {tt cut : Timestamp} {bytes : Bytes}
    (stored : index ⟨ids, tt⟩ = some bytes) :
    endedBefore cut (order.encode ⟨ids, tt⟩, bytes) = true ↔
      ∃ version, index.history ids tt = some version ∧ version.stop < cut := by
  simp only [endedBefore, parseVersion_encode]
  cases read : validTime bytes with
  | none =>
    simp only [Option.map_none, Bool.false_eq_true, false_iff]
    rintro ⟨version, found, _⟩
    obtain ⟨own, window⟩ := Index.history_eq_some.mp found
    rw [Option.some.inj (stored.symm.trans own), window] at read
    cases read
  | some window =>
    simp only [Option.map_some, decide_eq_true_eq]
    constructor
    · exact fun early =>
        ⟨⟨window.1, window.2, bytes⟩, Index.history_eq_some.mpr ⟨stored, read⟩, early⟩
    · rintro ⟨version, found, early⟩
      obtain ⟨own, window'⟩ := Index.history_eq_some.mp found
      rw [← Option.some.inj (stored.symm.trans own), read] at window'
      rwa [Option.some.inj window']

/-- The test for closed-out quads finds exactly those. -/
theorem closedOut_iff (versions : GroupOf index order ids group) :
    vtCutoff.any (fun cut => (group.filter (fun entry => !isShadowed group txCutoff entry)).all
        (endedBefore cut)) = true ↔ index.ClosedOut txCutoff vtCutoff ids := by
  simp only [Option.any_eq_true_iff_get, List.all_eq_true, List.mem_filter, Bool.not_eq_true']
  constructor
  · rintro ⟨given, ended⟩
    refine ⟨vtCutoff.get given, (Option.some_get given).symm, fun tt bytes stored leading => ?_⟩
    refine (endedBefore_iff stored).mp (ended (order.encode ⟨ids, tt⟩, bytes)
      ⟨(versions.listed _).mpr ⟨tt, rfl, stored⟩, ?_⟩)
    rw [← Bool.not_eq_true, versions.isShadowed_iff stored]
    exact leading
  · rintro ⟨cut, rfl, ended⟩
    refine ⟨rfl, ?_⟩
    rintro ⟨key, bytes⟩ ⟨member, leading⟩
    obtain ⟨tt, rfl, stored⟩ := (versions.listed _).mp member
    rw [← Bool.not_eq_true, versions.isShadowed_iff stored] at leading
    exact (endedBefore_iff stored).mpr (ended tt bytes stored leading)

/-- The selected versions of a quad are exactly its expired ones. -/
theorem mem_selectExpired (versions : GroupOf index order ids group) {tt : Timestamp}
    {bytes : Bytes} (stored : index ⟨ids, tt⟩ = some bytes) :
    (order.encode ⟨ids, tt⟩, bytes) ∈ selectExpired group txCutoff vtCutoff ↔
      index.Expired txCutoff vtCutoff ⟨ids, tt⟩ := by
  have member : (order.encode ⟨ids, tt⟩, bytes) ∈ group :=
    (versions.listed _).mpr ⟨tt, rfl, stored⟩
  have parsed : (parseVersion (order.encode ⟨ids, tt⟩, bytes)).isSome ↔
      ∃ version, index.history ids tt = some version := by
    rw [parseVersion_encode, Option.isSome_map, Option.isSome_iff_exists]
    constructor
    · rintro ⟨window, read⟩
      exact ⟨⟨window.1, window.2, bytes⟩, Index.history_eq_some.mpr ⟨stored, read⟩⟩
    · rintro ⟨version, found⟩
      obtain ⟨own, window⟩ := Index.history_eq_some.mp found
      rw [Option.some.inj (stored.symm.trans own)]
      exact ⟨_, window⟩
  have shadowed : isShadowed group txCutoff (order.encode ⟨ids, tt⟩, bytes) = true ↔
      index.Shadowed txCutoff ⟨ids, tt⟩ := versions.isShadowed_iff stored
  -- A shadowed version has a window, so both branches delete parsed versions only.
  simp only [selectExpired]
  split
  · rename_i closed
    rw [List.mem_filter, parsed]
    exact ⟨fun both => ⟨both.2, Or.inr (versions.closedOut_iff.mp closed)⟩,
      fun expired => ⟨member, expired.1⟩⟩
  · rename_i open_
    rw [List.mem_filter, shadowed]
    constructor
    · rintro ⟨_, shadow⟩
      obtain ⟨version, _, _, found, _⟩ := shadow
      exact ⟨⟨version, found⟩, Or.inl ⟨version, _, _, found, ‹_›⟩⟩
    · rintro ⟨_, shadow | closed⟩
      · exact ⟨member, shadow⟩
      · exact absurd (versions.closedOut_iff.mpr closed) open_

end GroupOf

/-- The chunks a run of deletes is written in put together are the deletes. -/
theorem flatten_flushChunks (batch : WriteBatch) (groups : List WriteBatch) :
    (flushChunks batch groups).flatten = batch ++ groups.flatten := by
  induction groups generalizing batch with
  | nil =>
    cases batch with
    | nil => rfl
    | cons => simp [flushChunks]
  | cons group rest ih =>
    simp only [flushChunks]
    split_ifs <;> simp [ih]

namespace TripleStore

variable {store : TripleStore} {order : Order}

/-- Writing chunks one after another is writing them together. -/
theorem foldl_dbWrite (store : TripleStore) (chunks : List WriteBatch) :
    chunks.foldl dbWrite store = store.dbWrite chunks.flatten := by
  induction chunks generalizing store with
  | nil => rfl
  | cons chunk rest ih =>
    rw [List.foldl_cons, ih]
    simp only [dbWrite, List.flatten_cons, Db.write_append]

/-- The keys pruning deletes from an order. -/
def pruneKeys (store : TripleStore) (order : Order) (txCutoff : Timestamp)
    (vtCutoff : Option Timestamp) : List Bytes :=
  ((store.quadGroups order).flatMap (fun group => selectExpired group txCutoff vtCutoff)).map
    Prod.fst

/-- The chunks of pruning put together are the deletes of the selected keys. -/
theorem flatten_pruneChunks (store : TripleStore) (order : Order) (txCutoff : Timestamp)
    (vtCutoff : Option Timestamp) : (store.pruneChunks order txCutoff vtCutoff).flatten =
      (store.pruneKeys order txCutoff vtCutoff).map (.delete (.quads order)) := by
  simp only [pruneChunks, flatten_flushChunks, pruneKeys, List.nil_append, List.flatMap_def,
    List.map_map, List.map_flatten, Function.comp_def]

/-- Pruning an order writes the deletes of the selected keys. -/
theorem pruneOrder_eq (store : TripleStore) (order : Order) (txCutoff : Timestamp)
    (vtCutoff : Option Timestamp) : (store.pruneOrder order txCutoff vtCutoff).1 =
      store.dbWrite ((store.pruneKeys order txCutoff vtCutoff).map (.delete (.quads order))) := by
  simp only [pruneOrder, foldl_dbWrite, flatten_pruneChunks]

/-- A group of an order that holds versions consists of the versions of one quad. -/
private theorem groupOf_of_mem (holds : store.db.OrderHolds order index)
    {group : List (Bytes × Bytes)} (within : group ∈ store.quadGroups order) {ids : QuadIds}
    {tt : Timestamp} {bytes : Bytes} (member : (order.encode ⟨ids, tt⟩, bytes) ∈ group) :
    GroupOf index order ids group := by
  -- The group is the part of the order with the same quad prefix.
  have long : ∀ entry ∈ [] ++ (store.db.family (.quads order)).entries,
      QUAD_TUPLE_LEN ≤ entry.1.length := by
    intro entry present
    obtain ⟨key, same, _⟩ := (holds entry.1 entry.2).mp present
    rw [same, Order.encode_length]
    decide
  have filtered := SortedMap.prefixGroups_eq_filter QUAD_TUPLE_LEN
    (store.db.family (.quads order)).entries [] (store.db.family (.quads order)).sorted long
    (by simp) group within _ member
  have take : ∀ key : QuadKey,
      (order.encode key).take QUAD_TUPLE_LEN = order.tuple key.toQuadIds := fun key =>
    List.take_left' (Order.tuple_length _ _)
  refine ⟨fun entry => ?_⟩
  rw [filtered, List.nil_append, List.mem_filter, decide_eq_true_eq, holds]
  constructor
  · rintro ⟨⟨⟨other, tt'⟩, same, stored⟩, shared⟩
    rw [same, take, take] at shared
    obtain rfl := Order.tuple_inj shared
    exact ⟨tt', same, stored⟩
  · rintro ⟨tt', same, stored⟩
    exact ⟨⟨_, same, stored⟩, by rw [same, take, take]⟩

/-- Pruning deletes the keys of exactly the expired versions. -/
theorem mem_pruneKeys (holds : store.db.OrderHolds order index) {key : QuadKey} {bytes : Bytes}
    (stored : index key = some bytes) :
    order.encode key ∈ store.pruneKeys order txCutoff vtCutoff ↔
      index.Expired txCutoff vtCutoff key := by
  obtain ⟨ids, tt⟩ := key
  have entries := SortedMap.flatten_prefixGroups QUAD_TUPLE_LEN []
    (store.db.family (.quads order)).entries
  have listed : ∀ group ∈ store.quadGroups order, ∀ entry ∈ group,
      entry ∈ (store.db.family (.quads order)).entries := by
    intro group within entry member
    rw [← List.nil_append (store.db.family (.quads order)).entries, ← entries]
    exact List.mem_flatten.mpr ⟨group, within, member⟩
  have selected : ∀ group entry, entry ∈ selectExpired group txCutoff vtCutoff → entry ∈ group := by
    intro group entry member
    simp only [selectExpired] at member
    split at member <;> exact (List.mem_filter.mp member).1
  simp only [pruneKeys, List.mem_map, List.mem_flatMap]
  constructor
  · rintro ⟨⟨key, value⟩, ⟨group, within, chosen⟩, rfl⟩
    have member := selected group _ chosen
    obtain ⟨other, same, found⟩ := (holds _ _).mp (listed group within _ member)
    obtain rfl := Order.encode_inj same
    exact ((groupOf_of_mem holds within member).mem_selectExpired found).mp chosen
  · intro expired
    have present : (order.encode ⟨ids, tt⟩, bytes) ∈
        (SortedMap.prefixGroups QUAD_TUPLE_LEN []
          (store.db.family (.quads order)).entries).flatten := by
      rw [entries]
      exact (holds _ _).mpr ⟨_, rfl, stored⟩
    obtain ⟨group, within, member⟩ := List.mem_flatten.mp present
    exact ⟨_, ⟨group, within,
      ((groupOf_of_mem holds within member).mem_selectExpired stored).mpr expired⟩, rfl⟩

/-- What retention keeps is what is left when the selected keys are deleted. -/
theorem retain_eq_pruneKeys (holds : store.db.OrderHolds order index) (key : QuadKey) :
    index.retain txCutoff vtCutoff key =
      if order.encode key ∈ store.pruneKeys order txCutoff vtCutoff then none else index key := by
  cases stored : index key with
  | none => simp [Index.retain, stored]
  | some bytes =>
    by_cases expired : index.Expired txCutoff vtCutoff key
    · rw [Index.retain, if_pos expired, if_pos ((mem_pruneKeys holds stored).mpr expired)]
    · have unselected := fun member => expired ((mem_pruneKeys holds stored).mp member)
      rw [Index.retain, if_neg expired, if_neg unselected, stored]

/-- Pruning an order makes it hold what retention keeps. -/
theorem pruneOrder_holds (holds : store.db.OrderHolds order index) :
    (store.pruneOrder order txCutoff vtCutoff).1.db.OrderHolds order
      (index.retain txCutoff vtCutoff) := by
  rw [pruneOrder_eq, show index.retain txCutoff vtCutoff = _ from
    funext (retain_eq_pruneKeys holds)]
  exact holds.deleteKeys _

section Others

variable (txCutoff : Timestamp) (vtCutoff : Option Timestamp)

/-- Pruning an order leaves every other column family alone. -/
theorem family_pruneOrder (store : TripleStore) {order : Order} {cf : Cf}
    (apart : cf ≠ .quads order) :
    (store.pruneOrder order txCutoff vtCutoff).1.db.family cf = store.db.family cf := by
  rw [pruneOrder_eq]
  exact Db.family_write_deletes_of_ne _ apart _

/-- Pruning orders leaves the column families other than theirs alone. -/
theorem family_pruneOrders (orders : List Order) (store : TripleStore) {cf : Cf}
    (apart : ∀ order ∈ orders, cf ≠ .quads order) :
    (pruneOrders txCutoff vtCutoff orders store).1.db.family cf = store.db.family cf := by
  induction orders generalizing store with
  | nil => rfl
  | cons first rest ih =>
    have here := store.family_pruneOrder txCutoff vtCutoff (apart first List.mem_cons_self)
    exact (ih _ fun order member => apart order (List.mem_cons_of_mem _ member)).trans here

/-- Pruning changes nothing but the database. -/
theorem pruneOrders_eq (orders : List Order) (store : TripleStore) :
    ∃ db, (pruneOrders txCutoff vtCutoff orders store).1 = { store with db := db } := by
  induction orders generalizing store with
  | nil => exact ⟨store.db, rfl⟩
  | cons first rest ih =>
    obtain ⟨db, same⟩ := ih (store.pruneOrder first txCutoff vtCutoff).1
    refine ⟨db, same.trans ?_⟩
    rw [pruneOrder_eq]
    rfl

/-- Pruning each of some orders once makes them hold what retention keeps. -/
theorem pruneOrders_holds (orders : List Order) (distinct : orders.Nodup) {store : TripleStore}
    {order : Order} (holds : store.db.OrderHolds order index) :
    (pruneOrders txCutoff vtCutoff orders store).1.db.OrderHolds order
      (if order ∈ orders then index.retain txCutoff vtCutoff else index) := by
  -- The order's own pass prunes it, and the other passes do not touch it.
  induction orders generalizing store with
  | nil =>
    rw [if_neg List.not_mem_nil]
    exact holds
  | cons first rest ih =>
    obtain ⟨absent, tail⟩ := List.nodup_cons.mp distinct
    by_cases here : first = order
    · subst here
      rw [if_pos List.mem_cons_self]
      have untouched : ∀ middle : TripleStore, (pruneOrders txCutoff vtCutoff rest middle).1.db.family
          (.quads first) = middle.db.family (.quads first) := fun middle =>
        family_pruneOrders txCutoff vtCutoff rest middle
          fun other member same => absent (Cf.quads.inj same ▸ member)
      exact (pruneOrder_holds holds).congr (untouched _)
    · have kept := holds.congr (store.family_pruneOrder txCutoff vtCutoff
        fun same => here (Cf.quads.inj same).symm)
      simp only [List.mem_cons, Ne.symm here, false_or]
      exact ih tail kept

/-- Pruning all orders makes them hold what retention keeps. -/
theorem pruneOrders_ordersHold {store : TripleStore} (holds : store.db.OrdersHold index) :
    (pruneOrders txCutoff vtCutoff Order.ALL store).1.db.OrdersHold
      (index.retain txCutoff vtCutoff) := by
  intro order
  have pruned := pruneOrders_holds txCutoff vtCutoff Order.ALL (by decide) (holds order)
  have every : order ∈ Order.ALL := by cases order <;> decide
  rwa [if_pos every] at pruned

end Others

end TripleStore

namespace Index

/-- A version of the index references the out-of-line value with the given hash. -/
def References (index : Index) (hash : Bytes) : Prop :=
  ∃ key bytes, index key = some bytes ∧ bytes.head? = some DISC_PROPERTY_REF ∧
    key.o.uuid.bytes = hash

end Index

namespace TripleStore

variable {store : TripleStore} {index : Index}

/-- An entry that is no reference marks nothing. -/
private theorem markEntry_of_plain (live : List Bytes) (key : QuadKey) {bytes : Bytes}
    (plain : bytes.head? ≠ some DISC_PROPERTY_REF) :
    markEntry live (Order.spog.encode key, bytes) = .ok live := by
  rw [markEntry, if_pos plain]
  rfl

/-- A reference marks the object slot of its key. -/
private theorem markEntry_of_ref (live : List Bytes) (key : QuadKey) {bytes : Bytes}
    (isRef : bytes.head? = some DISC_PROPERTY_REF) :
    markEntry live (Order.spog.encode key, bytes) = .ok (live ++ [key.o.uuid.bytes]) := by
  rw [markEntry, if_neg (not_not.mpr isRef), Order.decode_encode]
  rfl

/-- Marking entries adds exactly the hashes they reference. -/
private theorem foldlM_markEntry (entries : List (Bytes × Bytes)) (live : List Bytes)
    (encoded : ∀ entry ∈ entries, ∃ key, entry.1 = Order.spog.encode key) :
    ∃ marked, entries.foldlM markEntry live = .ok marked ∧
      ∀ hash, hash ∈ marked ↔ hash ∈ live ∨ ∃ key bytes,
        (Order.spog.encode key, bytes) ∈ entries ∧ bytes.head? = some DISC_PROPERTY_REF ∧
          key.o.uuid.bytes = hash := by
  induction entries generalizing live with
  | nil => exact ⟨live, rfl, by simp⟩
  | cons entry rest ih =>
    obtain ⟨key, value⟩ := entry
    obtain ⟨quad, named⟩ := encoded _ List.mem_cons_self
    simp only at named
    subst named
    have others := fun other member => encoded other (List.mem_cons_of_mem _ member)
    by_cases isRef : value.head? = some DISC_PROPERTY_REF
    · obtain ⟨marked, run, listed⟩ := ih (live ++ [quad.o.uuid.bytes]) others
      refine ⟨marked, by rw [List.foldlM_cons, markEntry_of_ref _ _ isRef]; exact run, ?_⟩
      intro hash
      rw [listed, List.mem_append, or_assoc]
      refine or_congr_right ⟨?_, ?_⟩
      · rintro (own | ⟨key, bytes, member, found⟩)
        · exact ⟨quad, value, List.mem_cons_self, isRef, (List.mem_singleton.mp own).symm⟩
        · exact ⟨key, bytes, List.mem_cons_of_mem _ member, found⟩
      · rintro ⟨key, bytes, member, found⟩
        rcases List.mem_cons.mp member with same | member
        · have equal := Order.encode_inj (congrArg Prod.fst same)
          exact Or.inl (List.mem_singleton.mpr (by rw [← equal, found.2]))
        · exact Or.inr ⟨key, bytes, member, found⟩
    · obtain ⟨marked, run, listed⟩ := ih live others
      refine ⟨marked, by rw [List.foldlM_cons, markEntry_of_plain _ _ isRef]; exact run, ?_⟩
      intro hash
      rw [listed]
      refine or_congr_right ⟨?_, ?_⟩
      · rintro ⟨key, bytes, member, found⟩
        exact ⟨key, bytes, List.mem_cons_of_mem _ member, found⟩
      · rintro ⟨key, bytes, member, found⟩
        rcases List.mem_cons.mp member with same | member
        · have equal : bytes = value := congrArg Prod.snd same
          exact absurd (equal ▸ found.1) isRef
        · exact ⟨key, bytes, member, found⟩

/-- The mark scan succeeds and collects exactly the referenced hashes. -/
theorem markLive_spec (holds : store.db.OrderHolds .spog index) :
    ∃ live, store.markLive = .ok live ∧ ∀ hash, hash ∈ live ↔ index.References hash := by
  obtain ⟨marked, run, listed⟩ := foldlM_markEntry (store.db.family (.quads .spog)).entries []
    fun entry member => ((holds entry.1 entry.2).mp member).imp fun _ both => both.1
  refine ⟨marked, run, fun hash => ?_⟩
  rw [listed]
  simp only [List.not_mem_nil, false_or, Index.References]
  refine exists_congr fun key => exists_congr fun bytes => and_congr_left fun _ => ?_
  rw [holds]
  exact ⟨fun ⟨other, same, stored⟩ => Order.encode_inj same ▸ stored,
    fun stored => ⟨key, rfl, stored⟩⟩

/-- The keys the sweep deletes. -/
def sweepKeys (store : TripleStore) (live : List Bytes) : List Bytes :=
  ((store.db.family .blob).entries.filter (fun entry =>
    decide (entry.1.length = 16 ∧ entry.1 ∉ live))).map Prod.fst

/-- The sweep writes the deletes of its keys. -/
theorem sweepBatch_eq (store : TripleStore) (live : List Bytes) :
    store.sweepBatch live = (store.sweepKeys live).map (.delete .blob) := by
  simp only [sweepBatch, sweepKeys, List.map_map, Function.comp_def]

/-- A marked value is never deleted. -/
theorem not_mem_sweepKeys {live : List Bytes} {hash : Bytes} (marked : hash ∈ live) :
    hash ∉ store.sweepKeys live := by
  intro deleted
  obtain ⟨entry, listed, rfl⟩ := List.mem_map.mp deleted
  exact (of_decide_eq_true (List.mem_filter.mp listed).2).2 marked

/-- Sweeping leaves the column families other than the out-of-line values alone. -/
theorem family_sweepBatch (db : Db) (store : TripleStore) (live : List Bytes) {cf : Cf}
    (apart : cf ≠ .blob) : (db.write (store.sweepBatch live)).family cf = db.family cf := by
  rw [sweepBatch_eq]
  exact db.family_write_deletes_of_ne apart _

/-- Sweeping keeps every marked value. -/
theorem get_sweepBatch_of_marked (db : Db) (store : TripleStore) {live : List Bytes} {hash : Bytes}
    (marked : hash ∈ live) :
    (db.write (store.sweepBatch live)).get .blob hash = db.get .blob hash := by
  rw [sweepBatch_eq, Db.get_write_deletes, if_neg (not_mem_sweepKeys marked)]

/-- A triple is rebuilt alike where its predicate and its out-of-line value are. -/
theorem reconstruct_congr (ext : External) {left right : TripleStore} {s o : NodeId} {p : PredId}
    {tt : Timestamp} {bytes : Bytes} (names : left.rev p = right.rev p)
    (blobs : bytes.head? = some DISC_PROPERTY_REF →
      left.db.get .blob o.uuid.bytes = right.db.get .blob o.uuid.bytes) :
    left.reconstruct ext s p o tt bytes = right.reconstruct ext s p o tt bytes := by
  -- Only a property reference looks into the out-of-line values.
  have named : left.predicateOrErr p = right.predicateOrErr p := by
    simp only [predicateOrErr, predicateString, names]
  simp only [reconstruct, named]
  cases decoded : decodeValue ext bytes with
  | error problem => rfl
  | ok value =>
    cases value with
    | relation | property => rfl
    | propertyRef temporal =>
      have loaded : left.loadBlob ext o = right.loadBlob ext o := by
        simp only [loadBlob, blobs (head_of_decode_propertyRef decoded)]
      simp only [bind, Except.bind, loaded]

end TripleStore

/-- Two reads fail together, or return the same quads in some order. -/
def SameAnswer {α : Type} (left right : Except StorageError (List α)) : Prop :=
  match left, right with
  | .ok before, .ok after => before.Perm after
  | .error _, .error _ => True
  | _, _ => False

/-- Reads that find the same quads and fail together give the same answer. -/
theorem SameAnswer.of_mem {α : Type} {left right : Except StorageError (List α)}
    (together : (∃ before, left = .ok before) ↔ ∃ after, right = .ok after)
    (same : ∀ before after, left = .ok before → right = .ok after →
      before.Nodup ∧ after.Nodup ∧ ∀ quad, quad ∈ before ↔ quad ∈ after) :
    SameAnswer left right := by
  -- Without duplicates the same members are the same list up to order.
  cases left with
  | error problem =>
    cases right with
    | error other => trivial
    | ok after => simp at together
  | ok before =>
    cases right with
    | error other => simp at together
    | ok after =>
      obtain ⟨distinct, distinct', members⟩ := same before after rfl rfl
      exact (List.perm_ext_iff_of_nodup distinct distinct').mpr members

namespace TripleStore

variable {store : TripleStore} {index : Index}

/-- What a retention run leaves: the retained versions, and every value they reference. -/
structure Retained (store after : TripleStore) (kept : Index) : Prop where
  /-- All orders hold the retained versions. -/
  orders : after.db.OrdersHold kept
  /-- The predicate names are unchanged. -/
  names : after.rev = store.rev
  /-- Referenced out-of-line values are unchanged. -/
  blobs : ∀ hash, kept.References hash → after.db.get .blob hash = store.db.get .blob hash

/-- A retention run keeps the retained versions and the values they reference. -/
theorem runRetention_retained (holds : store.db.OrdersHold index) (policy : RetentionPolicy)
    (now : Timestamp) :
    Retained store (store.runRetention policy now).1
      (index.retain (policy.txCutoff now) (policy.vtCutoff now)) := by
  -- Pruning touches the orders only, and the sweep touches unmarked values only.
  obtain ⟨db, pruned⟩ :=
    pruneOrders_eq (policy.txCutoff now) (policy.vtCutoff now) Order.ALL store
  have orders := pruneOrders_ordersHold (policy.txCutoff now) (policy.vtCutoff now) holds
  have apart : ∀ order ∈ Order.ALL, Cf.blob ≠ .quads order := fun order _ => by simp
  have blobs := family_pruneOrders (policy.txCutoff now) (policy.vtCutoff now) Order.ALL store apart
  simp only [runRetention]
  cases run : pruneOrders (policy.txCutoff now) (policy.vtCutoff now) Order.ALL store with
  | mk middle counts =>
    rw [run] at pruned orders blobs
    simp only at pruned orders blobs
    have names : middle.rev = store.rev := by rw [pruned]
    have values : ∀ hash, middle.db.get .blob hash = store.db.get .blob hash := fun hash => by
      rw [Db.get, Db.get, blobs]
    split_ifs
    · exact ⟨orders, names, fun hash _ => values hash⟩
    · obtain ⟨live, marked, listed⟩ := markLive_spec (orders .spog)
      simp only [sweepUnreferencedBlobs, marked]
      refine ⟨?_, names, fun hash referenced => ?_⟩
      · exact fun order => (orders order).congr (family_sweepBatch _ _ _ (by simp))
      · exact (get_sweepBatch_of_marked _ _ ((listed hash).mpr referenced)).trans (values hash)

/-- Scans that find the same versions and rebuild them alike give the same answer. -/
theorem snapshotScanKeyed_sameAnswer (ext : External) {after : TripleStore} {kept : Index}
    {order : Order} {start : Bytes} (holds : store.db.OrderHolds order index)
    (holds' : after.db.OrderHolds order kept) (short : start.length ≤ QUAD_TUPLE_LEN)
    (point : ReadAt) (clock : Timestamp) (graphs : GraphScope)
    (same : ∀ ids slot,
      ScanFinds kept order start point (point.vtAsOf.getD clock) graphs ids slot ↔
        ScanFinds index order start point (point.vtAsOf.getD clock) graphs ids slot)
    (alike : ∀ ids slot,
      ScanFinds kept order start point (point.vtAsOf.getD clock) graphs ids slot →
        after.reconstruct ext ids.s ids.p ids.o slot.tt slot.bytes =
          store.reconstruct ext ids.s ids.p ids.o slot.tt slot.bytes) :
    SameAnswer (store.snapshotScanKeyed ext order start point clock graphs)
      (after.snapshotScanKeyed ext order start point clock graphs) := by
  obtain ⟨succeeds, returns⟩ := snapshotScanKeyed_spec ext holds short point clock graphs
  obtain ⟨succeeds', returns'⟩ := snapshotScanKeyed_spec ext holds' short point clock graphs
  refine SameAnswer.of_mem ?_ fun before quads first second => ?_
  · rw [succeeds, succeeds']
    refine forall_congr' fun ids => forall_congr' fun slot => ?_
    constructor
    · intro rebuilt finds
      rw [alike ids slot finds]
      exact rebuilt ((same ids slot).mp finds)
    · intro rebuilt finds
      have finds' := (same ids slot).mpr finds
      rw [← alike ids slot finds']
      exact rebuilt finds'
  · obtain ⟨distinct, listed⟩ := returns before first
    obtain ⟨distinct', listed'⟩ := returns' quads second
    refine ⟨List.Nodup.of_map _ distinct, List.Nodup.of_map _ distinct', fun quad => ?_⟩
    rw [listed quad.1 quad.2, listed' quad.1 quad.2]
    refine exists_congr fun slot => ?_
    rw [← same]
    exact and_congr_right fun finds => by rw [alike _ _ finds]

end TripleStore

end Polargraph
