import Polargraph.Proofs.Storage.Closings
import Polargraph.Proofs.Storage.RetentionRuns
import Polargraph.Proofs.Storage.Rewriting
import Polargraph.Storage.SstImport

/-! A bulk import agrees with a commit of the same triples, unless two of them share a key. -/

namespace Polargraph

namespace Index

/-- The versions of an order into which sorted entries were ingested. -/
def ingested (index : Index) (order : Order) (sorted : List (Bytes × Bytes)) : Index := fun key =>
  ((firstOf sorted (order.encode key)).map Prod.snd).or (index key)

/-- Sorted entries are found under their keys. -/
theorem ingested_eq_some {index : Index} {order : Order} {sorted : List (Bytes × Bytes)}
    {key : QuadKey} {value : Bytes}
    (found : firstOf sorted (order.encode key) = some (order.encode key, value)) :
    index.ingested order sorted key = some value := by
  rw [ingested, found]
  rfl

/-- Entries with one value for each key are ingested as staged versions are stored. -/
theorem ingested_eq_putAll (index : Index) {quads : List StagedQuad} {order : Order}
    {sort : List (Bytes × Bytes) → List (Bytes × Bytes)} (sorts : SortsByKey sort)
    (single : ∀ first ∈ quads, ∀ second ∈ quads, first.key = second.key →
      first.value = second.value) :
    index.ingested order (sort (quads.map (fun quad => (order.encode quad.key, quad.value)))) =
      index.putAll quads := by
  funext key
  by_cases written : ∃ quad ∈ quads, quad.key = key
  · obtain ⟨quad, member, rfl⟩ := written
    have listed : (order.encode quad.key, quad.value) ∈
        sort (quads.map (fun quad => (order.encode quad.key, quad.value))) :=
      (sorts.perm _).mem_iff.mpr (List.mem_map.mpr ⟨quad, member, rfl⟩)
    obtain ⟨first, found⟩ := exists_firstOf listed
    obtain ⟨within, _⟩ := mem_of_firstOf found
    rw [(sorts.perm _).mem_iff] at within
    obtain ⟨other, member', rfl⟩ := List.mem_map.mp within
    have named := Order.encode_inj (mem_of_firstOf found).2
    simp only at named found
    rw [named] at found
    rw [ingested_eq_some found]
    -- Whichever staged version is the last of its key, it has the same value.
    obtain ⟨value, stored⟩ := Option.isSome_iff_exists.mp (index.putAll_isSome member)
    have fresh : index.putAll quads quad.key = Index.putAll (fun _ => none) quads quad.key :=
      putAll_of_mem member _ _
    have last := fresh ▸ stored
    rcases putAll_eq_some last with absent | staged
    · cases absent
    · rw [stored, single other member' ⟨quad.key, value⟩ staged named]
  · have apart : ∀ quad ∈ quads, quad.key ≠ key := fun quad member same =>
      written ⟨quad, member, same⟩
    rw [putAll_of_forall_ne index apart, ingested, firstOf_eq_none.mpr]
    · rfl
    · intro entry within same
      rw [(sorts.perm _).mem_iff] at within
      obtain ⟨quad, member, rfl⟩ := List.mem_map.mp within
      exact apart quad member (Order.encode_inj same)

end Index

namespace Db

variable {db : Db} {index : Index}

/-- The operations of a batch on one column family. -/
def onFamily (batch : WriteBatch) (cf : Cf) : WriteBatch :=
  batch.filter (fun op => decide (op.cf = cf))

/-- The operations of two batches on a column family follow one another. -/
theorem onFamily_append (first second : WriteBatch) (cf : Cf) :
    onFamily (first ++ second) cf = onFamily first cf ++ onFamily second cf := List.filter_append ..

/-- A batch that does not touch a column family has no operations on it. -/
theorem onFamily_eq_nil {batch : WriteBatch} {cf : Cf} (apart : ∀ op ∈ batch, op.cf ≠ cf) :
    onFamily batch cf = [] := List.filter_eq_nil_iff.mpr fun op member => by simpa using apart op member

/-- Versions of quads are operations on the orders alone. -/
theorem onFamily_quads {quads : List StagedQuad} {cf : Cf} (apart : ∀ order, cf ≠ .quads order) :
    onFamily (quads.flatMap batchQuad) cf = [] := by
  refine onFamily_eq_nil fun op member same => ?_
  obtain ⟨quad, _, within⟩ := List.mem_flatMap.mp member
  obtain ⟨order, _, rfl⟩ := List.mem_map.mp within
  exact apart order same.symm

/-- What a batch leaves in a column family depends on what was there alone. -/
theorem family_write_congr {left right : Db} {cf : Cf} (same : left.family cf = right.family cf)
    (batch : WriteBatch) : (left.write batch).family cf = (right.write batch).family cf := by
  induction batch generalizing left right with
  | nil => exact same
  | cons op rest ih =>
    refine @ih (left.apply op) (right.apply op) ?_
    by_cases own : op.cf = cf
    · cases op <;> obtain rfl := own <;>
        simp only [apply, setFamily, Function.update_self, WriteOp.cf] at same ⊢ <;> rw [same]
    · rw [left.family_apply_ne (Ne.symm own), right.family_apply_ne (Ne.symm own), same]

/-- A column family is what the operations on it make of it. -/
theorem family_write_onFamily (db : Db) (batch : WriteBatch) (cf : Cf) :
    (db.write batch).family cf = (db.write (onFamily batch cf)).family cf := by
  induction batch generalizing db with
  | nil => rfl
  | cons op rest ih =>
    have first : (db.write (op :: rest)).family cf = ((db.apply op).write rest).family cf := rfl
    rw [first, ih]
    by_cases own : op.cf = cf
    · rw [onFamily, onFamily, List.filter_cons_of_pos (by simpa using own)]
      rfl
    · rw [onFamily, onFamily, List.filter_cons_of_neg (by simpa using own)]
      -- The operation is on another family, so what it leaves there does not matter.
      exact family_write_congr (db.family_apply_ne (Ne.symm own)) _

/-- Two orders that hold the same versions are looked up alike. -/
theorem OrderHolds.get_congr {other : Db} {order : Order} (holds : db.OrderHolds order index)
    (holds' : other.OrderHolds order index) (key : Bytes) :
    other.get (.quads order) key = db.get (.quads order) key := by
  ext value
  simp only [OrderHolds] at holds holds'
  simp only [Db.get, SortedMap.find?_eq_some, holds, holds']

/-- An order holds a set of versions when its lookups find exactly them. -/
theorem orderHolds_iff_get {order : Order} : db.OrderHolds order index ↔ ∀ key value,
    db.get (.quads order) key = some value ↔
      ∃ quad, key = order.encode quad ∧ index quad = some value := by
  simp only [OrderHolds, Db.get, SortedMap.find?_eq_some]

/-- Putting the first entry of every key of an order stores the versions they encode. -/
theorem OrderHolds.ingest {order : Order} (holds : db.OrderHolds order index)
    {sorted : List (Bytes × Bytes)}
    (ordered : sorted.Pairwise (fun first second => first.1 ≤ second.1))
    (encoded : ∀ entry ∈ sorted, ∃ key, entry.1 = order.encode key) :
    (db.write ((dedupByKey sorted).map (fun entry => .put (.quads order) entry.1 entry.2))).OrderHolds
      order (index.ingested order sorted) := by
  have puts : ∀ key value, WriteOp.put (.quads order) key value ∈
      (dedupByKey sorted).map (fun entry => .put (.quads order) entry.1 entry.2) ↔
        firstOf sorted key = some (key, value) := by
    intro key value
    rw [← mem_dedupByKey ordered (key, value), List.mem_map]
    constructor
    · rintro ⟨entry, member, same⟩
      cases same
      exact member
    · exact fun member => ⟨(key, value), member, rfl⟩
  rw [orderHolds_iff_get] at holds ⊢
  intro key value
  -- A key is read from the entry that was put, and as before when none was.
  have onlyPuts : ∀ op ∈ (dedupByKey sorted).map
      (fun entry => WriteOp.put (.quads order) entry.1 entry.2), op.IsPut := by
    intro op member
    obtain ⟨entry, _, rfl⟩ := List.mem_map.mp member
    exact ⟨_, _, _, rfl⟩
  rcases db.get_write_puts onlyPuts (.quads order) key with ⟨absent, same⟩ | ⟨put, member, found⟩
  · have none : firstOf sorted key = none := by
      cases first : firstOf sorted key with
      | none => rfl
      | some entry =>
        obtain ⟨_, rfl⟩ := mem_of_firstOf first
        exact absurd ((puts _ entry.2).mpr first) (absent entry.2)
    rw [same, holds]
    refine exists_congr fun quad => and_congr_right fun named => ?_
    rw [Index.ingested, ← named, none]
    rfl
  · have first := (puts key put).mp member
    obtain ⟨quad, named⟩ := encoded _ (mem_of_firstOf first).1
    rw [found]
    constructor
    · rintro same
      refine ⟨quad, named, ?_⟩
      rw [Index.ingested, ← named, first]
      exact same
    · rintro ⟨other, named', stored⟩
      rw [Index.ingested, ← named', first] at stored
      exact stored

end Db

/-- The triple as an import records it: valid from now on, unless it is an annotation. -/
def Triple.importedAt (now : Timestamp) (triple : Triple) : Triple :=
  match triple with
  | .relation subject predicate object edgeId temporal =>
    .relation subject predicate object edgeId
      { temporal with vtStart := now, vtEnd := Timestamp.END_OF_TIME }
  | .property subject predicate value temporal =>
    .property subject predicate value
      { temporal with vtStart := now, vtEnd := Timestamp.END_OF_TIME }
  | annotation => annotation

namespace TripleStore

variable {ext : External} {store : TripleStore}
  {sort : Order → List (Bytes × Bytes) → List (Bytes × Bytes)}

/-- A store after every order ingested its entries of some versions. -/
def ingestAll (store : TripleStore) (sort : Order → List (Bytes × Bytes) → List (Bytes × Bytes))
    (quads : List StagedQuad) (orders : List Order) : TripleStore :=
  orders.foldl
    (fun store order => store.ingestSorted (sort order) order (orderEntries quads order)) store

/-- Ingesting the entries of an order is a batch of puts to it. -/
theorem ingestSorted_eq (store : TripleStore) (sorts : SortsByKey (sort order))
    (entries : List (Bytes × Bytes)) : store.ingestSorted (sort order) order entries =
      store.dbWrite ((dedupByKey (sort order entries)).map
        (fun entry => .put (.quads order) entry.1 entry.2)) := by
  unfold ingestSorted
  split_ifs with empty
  · rw [List.isEmpty_iff] at empty
    subst empty
    rw [List.Perm.eq_nil (sorts.perm [])]
    rfl
  · rfl

/-- Ingesting into an order leaves the other column families alone. -/
theorem family_ingestSorted (store : TripleStore)
    (sort : List (Bytes × Bytes) → List (Bytes × Bytes)) {order : Order}
    (entries : List (Bytes × Bytes)) {cf : Cf} (apart : cf ≠ .quads order) :
    (store.ingestSorted sort order entries).db.family cf = store.db.family cf := by
  unfold ingestSorted
  split_ifs
  · rfl
  · refine store.db.family_write_of_forall_ne fun op member => ?_
    obtain ⟨entry, _, rfl⟩ := List.mem_map.mp member
    exact apart

/-- Ingesting leaves the column families other than those of the orders alone. -/
theorem family_ingestAll (quads : List StagedQuad) (orders : List Order) (store : TripleStore)
    {cf : Cf} (apart : ∀ order ∈ orders, cf ≠ .quads order) :
    (store.ingestAll sort quads orders).db.family cf = store.db.family cf := by
  induction orders generalizing store with
  | nil => rfl
  | cons order rest ih =>
    have here := store.family_ingestSorted (sort order) (orderEntries quads order)
      (apart order List.mem_cons_self)
    exact (ih _ fun other member => apart other (List.mem_cons_of_mem _ member)).trans here

/-- Ingesting changes nothing but the database. -/
theorem ingestAll_eq (quads : List StagedQuad) (orders : List Order) (store : TripleStore) :
    ∃ db, store.ingestAll sort quads orders = { store with db := db } := by
  induction orders generalizing store with
  | nil => exact ⟨store.db, rfl⟩
  | cons order rest ih =>
    obtain ⟨db, same⟩ := ih (store.ingestSorted (sort order) order (orderEntries quads order))
    refine ⟨db, same.trans ?_⟩
    unfold ingestSorted
    split_ifs <;> rfl

/-- Each order holds what was ingested into it. -/
theorem ingestAll_holds (sorts : ∀ order, SortsByKey (sort order)) (quads : List StagedQuad)
    {orders : List Order} (distinct : orders.Nodup) {index : Index} {store : TripleStore}
    {order : Order} (holds : store.db.OrderHolds order index) (member : order ∈ orders) :
    (store.ingestAll sort quads orders).db.OrderHolds order
      (index.ingested order (sort order (orderEntries quads order))) := by
  -- The order's own file is ingested once, and the others do not touch it.
  induction orders generalizing store with
  | nil => exact absurd member List.not_mem_nil
  | cons first rest ih =>
    obtain ⟨absent, tail⟩ := List.nodup_cons.mp distinct
    by_cases here : first = order
    · subst here
      have encoded : ∀ entry ∈ sort first (orderEntries quads first),
          ∃ key, entry.1 = first.encode key := by
        intro entry within
        rw [((sorts first).perm _).mem_iff] at within
        obtain ⟨quad, _, rfl⟩ := List.mem_map.mp within
        exact ⟨quad.key, rfl⟩
      have written := holds.ingest ((sorts first).ordered (orderEntries quads first)) encoded
      have untouched : ∀ middle : TripleStore,
          (middle.ingestAll sort quads rest).db.family (.quads first) =
            middle.db.family (.quads first) := fun middle =>
        family_ingestAll quads rest middle
          fun other within same => absent (Cf.quads.inj same ▸ within)
      have ingested := store.ingestSorted_eq (sorts first) (orderEntries quads first)
      have middle : (store.ingestSorted (sort first) first
          (orderEntries quads first)).db.OrderHolds first
          (index.ingested first (sort first (orderEntries quads first))) := by
        rw [ingested]
        exact written
      exact middle.congr (untouched _)
    · have kept := holds.congr (store.family_ingestSorted (sort first) (orderEntries quads first)
        fun same => here (Cf.quads.inj same).symm)
      exact ih tail kept ((List.mem_cons.mp member).resolve_left (Ne.symm here))

/-- The writes that add what an import collected. -/
def importWrites (now : Timestamp) (triples : List (Triple × GraphId)) : List PendingWrite :=
  triples.map (fun entry => ⟨entry.1.importedAt now, entry.2, .add⟩)

/-- An imported triple keeps its predicate. -/
theorem predicate_importedAt (now : Timestamp) (triple : Triple) :
    (triple.importedAt now).predicate = triple.predicate := by
  cases triple <;> rfl

/-- The identifiers handed out for names are those of the names. -/
def NamedBy (store : TripleStore) (ids : List (String × PredId)) : Prop :=
  ∀ name id, ids.lookup name = some id → store.predicateId name = some id

/-- Interning each name once interns what interning them one after another does. -/
theorem predIds_spec (now : Timestamp) (triples : List (Triple × GraphId)) (store : TripleStore)
    (ids : List (String × PredId)) (named : store.NamedBy ids) :
    (store.predIds ids triples).1 = store.internAll (importWrites now triples) ∧
      (store.predIds ids triples).1.NamedBy (store.predIds ids triples).2 ∧
      (∀ name, (ids.lookup name).isSome → ((store.predIds ids triples).2.lookup name).isSome) ∧
      ∀ entry ∈ triples, ((store.predIds ids triples).2.lookup entry.1.predicate).isSome := by
  induction triples generalizing store ids with
  | nil => exact ⟨rfl, named, fun _ known => known, by simp⟩
  | cons entry rest ih =>
    obtain ⟨triple, g⟩ := entry
    have next : store.internAll (importWrites now ((triple, g) :: rest)) =
        (store.internPredicate triple.predicate).1.internAll (importWrites now rest) := by
      simp only [internAll, importWrites, List.map_cons, List.foldl_cons, predicate_importedAt]
    cases listed : ids.lookup triple.predicate with
    | some id =>
      -- The name was interned before, and interning it again changes nothing.
      have known := named _ _ listed
      have same := internPredicate_known (Option.isSome_iff_exists.mpr ⟨id, known⟩)
      obtain ⟨store', named', kept, all⟩ := ih store ids named
      simp only [predIds, listed, next, same]
      refine ⟨store', named', kept, fun other member => ?_⟩
      rcases List.mem_cons.mp member with rfl | later
      · exact kept _ (by rw [listed]; rfl)
      · exact all other later
    | none =>
      obtain ⟨own, mono⟩ := store.predicateId_internPredicate triple.predicate
      have extended : (store.internPredicate triple.predicate).1.NamedBy
          ((triple.predicate, (store.internPredicate triple.predicate).2) :: ids) := by
        intro name id found
        rw [List.lookup_cons] at found
        split at found
        · rename_i same
          cases found
          rw [beq_iff_eq.mp same]
          exact own
        · exact mono _ _ (named name id found)
      obtain ⟨store', named', kept, all⟩ := ih _ _ extended
      simp only [predIds, listed, next]
      refine ⟨store', named', fun name known => kept name ?_, fun other member => ?_⟩
      · rw [List.lookup_cons]
        split
        · rfl
        · exact known
      · rcases List.mem_cons.mp member with rfl | later
        · exact kept _ (by simp)
        · exact all other later

/-- Encoding a value adds the same to any batch. -/
theorem encodePropertyEntry_append (store : TripleStore) (batch : WriteBatch) (value : Value)
    (temporal : BiTemporalRange) : store.encodePropertyEntry ext batch value temporal =
      (store.encodePropertyEntry ext [] value temporal).map
        (fun entry => (batch ++ entry.1, entry.2)) := by
  unfold encodePropertyEntry
  cases encodeProperty ext value temporal with
  | error problem => rfl
  | ok inline =>
    simp only [bind, Except.bind]
    split_ifs
    · simp [Except.map, pure, Except.pure]
    · cases encodeBlob ext value with
      | error | ok => rfl

/-- What was collected for an import is what a transaction that adds has staged. -/
structure Collects (staging : Staging) (batch : WriteBatch) (quads : List StagedQuad) : Prop where
  /-- The same versions. -/
  quads : staging.quads = quads
  /-- The same operations on every other column family. -/
  others : ∀ cf, (∀ order, cf ≠ Cf.quads order) →
    Db.onFamily staging.batch cf = Db.onFamily batch cf

/-- A triple collected for an import is staged by a write that adds it. -/
theorem importTriple_stages {named : TripleStore} {now tt : Timestamp} {p : PredId}
    {batch batch' : WriteBatch} {quads quads' : List StagedQuad} {staging : Staging}
    {triple : Triple} {g : GraphId}
    (inline : named.inlineValueMaxBytes = store.inlineValueMaxBytes)
    (collects : Collects staging batch quads)
    (done : named.importTriple ext ⟨now, Timestamp.END_OF_TIME, tt⟩ p (batch, quads) triple g =
      .ok (batch', quads')) :
    ∃ next, store.stageWrite ext tt p staging ⟨triple.importedAt now, g, .add⟩ = .ok next ∧
      Collects next batch' quads' := by
  cases triple with
  | relation subject predicate object edgeId temporal =>
    cases done
    refine ⟨_, rfl, ⟨by rw [← collects.quads]; rfl, fun cf apart => ?_⟩⟩
    simp only [Staging.addQuads, Db.onFamily_append, Db.onFamily_quads apart, List.append_nil]
    exact collects.others cf apart
  | property subject predicate value temporal =>
    simp only [importTriple] at done
    obtain ⟨⟨encoded, bytes⟩, entry, done⟩ := Except.bind_eq_ok.mp done
    rw [encodePropertyEntry_append, encodePropertyEntry_congr inline] at entry
    obtain ⟨⟨blobs, bytes'⟩, own, same⟩ := Except.map_eq_ok.mp entry
    cases same
    cases done
    obtain ⟨_, rfl, blobFamily⟩ := encodePropertyEntry_batch own
    have staged := @encodePropertyEntry_append ext store staging.batch value
      ⟨now, Timestamp.END_OF_TIME, tt⟩
    rw [own] at staged
    simp only [Except.map] at staged
    have trigramFamily : ∀ op ∈ (value.asText.map (batchTextTrigrams subject p g)).getD [],
        op.cf = .tri := fun op member => batchTextTrigrams_cf member
    have mode : WriteMode.add.resolve (.property subject predicate value
        ⟨now, Timestamp.END_OF_TIME, temporal.tt⟩) = .add := rfl
    simp only [stageWrite, Triple.importedAt, Triple.temporal, staged, stageClosings, mode,
      reduceCtorEq, if_false, bind, Except.bind, pure, Except.pure, List.nil_append]
    refine ⟨_, rfl, ⟨?_, fun cf apart => ?_⟩⟩
    · simp only [Staging.addQuads, collects.quads]
    · simp only [Staging.addQuads, Db.onFamily_append, Db.onFamily_quads apart, List.append_nil,
        collects.others cf apart]
      -- Trigrams and out-of-line values are on different column families.
      by_cases tri : cf = .tri
      · have none : Db.onFamily blobs cf = [] := Db.onFamily_eq_nil fun op member same => by
          rw [blobFamily op member, tri] at same
          cases same
        simp [none]
      · have none : Db.onFamily ((value.asText.map (batchTextTrigrams subject p g)).getD []) cf = [] :=
          Db.onFamily_eq_nil fun op member same => tri (same.symm.trans (trigramFamily op member))
        simp [none]
  | edgeProperty edge predicate value temporal =>
    simp only [importTriple] at done
    obtain ⟨bytes, encoded, done⟩ := Except.bind_eq_ok.mp done
    cases done
    simp only [stageWrite, Triple.importedAt, Triple.temporal, encoded, bind, Except.bind, pure,
      Except.pure]
    refine ⟨_, rfl, ⟨collects.quads, fun cf apart => ?_⟩⟩
    simp only [Db.onFamily_append, collects.others cf apart]
  | edgeRelation edge predicate object temporal =>
    cases done
    refine ⟨_, rfl, ⟨collects.quads, fun cf apart => ?_⟩⟩
    simp only [Triple.importedAt, Triple.temporal, Db.onFamily_append, collects.others cf apart]

/-- The triples collected for an import are staged by a transaction that adds them. -/
theorem importTriples_stages {named : TripleStore} {now tt : Timestamp}
    {ids : List (String × PredId)} (triples : List (Triple × GraphId)) {store : TripleStore}
    {batch batch' : WriteBatch} {quads quads' : List StagedQuad} {staging : Staging}
    (inline : named.inlineValueMaxBytes = store.inlineValueMaxBytes)
    (named_by : (store.internAll (importWrites now triples)).NamedBy ids)
    (known : ∀ entry ∈ triples, (ids.lookup entry.1.predicate).isSome)
    (collects : Collects staging batch quads)
    (done : named.importTriples ext ⟨now, Timestamp.END_OF_TIME, tt⟩ ids (batch, quads) triples =
      .ok (batch', quads')) :
    ∃ next, stageWrites ext tt store staging (importWrites now triples) =
        (store.internAll (importWrites now triples), .ok next) ∧ Collects next batch' quads' := by
  induction triples generalizing store staging batch quads with
  | nil =>
    cases done
    exact ⟨staging, rfl, collects⟩
  | cons entry rest ih =>
    obtain ⟨triple, g⟩ := entry
    simp only [importTriples] at done
    obtain ⟨⟨batch₁, quads₁⟩, one, more⟩ := Except.bind_eq_ok.mp done
    obtain ⟨id, listed⟩ := Option.isSome_iff_exists.mp (known (triple, g) List.mem_cons_self)
    have next : store.internAll (importWrites now ((triple, g) :: rest)) =
        (store.internPredicate triple.predicate).1.internAll (importWrites now rest) := by
      simp only [internAll, importWrites, List.map_cons, List.foldl_cons, predicate_importedAt]
    rw [next] at named_by ⊢
    -- The identifier handed out is the one the name keeps.
    have own := (store.predicateId_internPredicate triple.predicate).1
    have same : id = (store.internPredicate triple.predicate).2 := Option.some.inj
      ((named_by _ _ listed).symm.trans (predicateId_internAll (importWrites now rest) _ own))
    rw [listed, Option.getD_some, same] at one
    have kept : (store.internPredicate triple.predicate).1.inlineValueMaxBytes =
        store.inlineValueMaxBytes := by
      simp only [internPredicate]
      split <;> rfl
    obtain ⟨staged, here, collected⟩ := @importTriple_stages ext
      (store.internPredicate triple.predicate).1 named _ _ _ _ _ _ _ _ _ _ (inline.trans kept.symm) collects one
    obtain ⟨last, there, all⟩ := ih (inline.trans kept.symm) named_by
      (fun other member => known other (List.mem_cons_of_mem _ member)) collected more
    refine ⟨last, ?_, all⟩
    simp only [importWrites, List.map_cons, stageWrites, predicate_importedAt, here]
    exact there

/-- The dictionary entry of an IRI depends on the dictionary alone, and follows any batch. -/
theorem batchIri_append {left right : TripleStore}
    (same : left.db.family .iri = right.db.family .iri) (first batch : WriteBatch) (iri : String)
    (pending : List (NodeId × String)) : left.batchIri ext (first ++ batch) iri pending =
      (right.batchIri ext batch iri pending).map (fun done => (first ++ done.1, done.2)) := by
  have existing : ∀ node, left.existingIri node pending = right.existingIri node pending := by
    intro node
    simp only [existingIri, iriOf, Db.get, same]
  unfold batchIri
  simp only [existing]
  split_ifs
  · rfl
  · cases right.existingIri (iriToNodeId ext iri) pending with
    | error problem => rfl
    | ok found =>
      cases found with
      | none => simp [bind, Except.bind, Except.map, pure, Except.pure]
      | some stored =>
        simp only [bind, Except.bind]
        split_ifs <;> rfl

/-- The dictionary entries of some IRIs depend on the dictionary alone, and follow any batch. -/
theorem batchIris_append {left right : TripleStore}
    (same : left.db.family .iri = right.db.family .iri) (first : WriteBatch) (iris : List String) :
    left.batchIris ext first iris = (right.batchIris ext [] iris).map (first ++ ·) := by
  have folded : ∀ (iris : List String) (batch : WriteBatch) (pending : List (NodeId × String)),
      iris.foldlM (fun (state : WriteBatch × List (NodeId × String)) iri =>
        left.batchIri ext state.1 iri state.2) (first ++ batch, pending) =
      (iris.foldlM (fun (state : WriteBatch × List (NodeId × String)) iri =>
        right.batchIri ext state.1 iri state.2) (batch, pending)).map
          (fun done => (first ++ done.1, done.2)) := by
    intro iris
    induction iris with
    | nil => exact fun _ _ => rfl
    | cons iri rest ih =>
      intro batch pending
      rw [List.foldlM_cons, List.foldlM_cons, batchIri_append same]
      cases right.batchIri ext batch iri pending with
      | error problem => rfl
      | ok done => exact ih done.1 done.2
  have run := folded iris [] []
  rw [List.append_nil] at run
  unfold batchIris
  simp only [run]
  cases iris.foldlM (fun (state : WriteBatch × List (NodeId × String)) iri =>
      right.batchIri ext state.1 iri state.2) ([], []) with
  | error | ok => rfl

/-- Interning is not concerned with the counter. -/
theorem internAll_committed (writes : List PendingWrite) (store : TripleStore) (ts : Timestamp) :
    ({ store with committed := ts } : TripleStore).internAll writes =
      { store.internAll writes with committed := ts } := by
  induction writes generalizing store with
  | nil => rfl
  | cons w rest ih =>
    have one : (({ store with committed := ts } : TripleStore).internPredicate
        w.triple.predicate).1 =
        { (store.internPredicate w.triple.predicate).1 with committed := ts } := by
      have name : ({ store with committed := ts } : TripleStore).canonicalName w.triple.predicate =
          store.canonicalName w.triple.predicate := rfl
      simp only [internPredicate, name]
      cases store.fwd (store.canonicalName w.triple.predicate) <;> rfl
    simp only [internAll, List.foldl_cons] at ih ⊢
    rw [one]
    exact ih _

/-- Interning keeps the counter. -/
theorem committed_internAll (writes : List PendingWrite) (store : TripleStore) :
    (store.internAll writes).committed = store.committed := by
  have kept := congrArg committed (store.internAll_committed writes store.committed)
  exact kept

/-- The transaction that adds what an import collected. -/
def importTransaction (store : TripleStore) (importer : SstImporter) (now : Timestamp) :
    Transaction :=
  { store.begin with
    writes := importWrites now importer.triples
    iris := importer.iris }

/-- The store in which the triples of an import are encoded: names interned, time handed out. -/
def importing (store : TripleStore) (importer : SstImporter) (wall : Timestamp) : TripleStore :=
  ((store.predIds [] importer.triples).1.beginCommit wall).1

/-- The window an import gives to its triples. -/
def importWindow (store : TripleStore) (wall now : Timestamp) : BiTemporalRange :=
  ⟨now, Timestamp.END_OF_TIME, store.nextCommitTs wall⟩

/-- What an import collects for its files and its batch. -/
structure Built (ext : External) (store : TripleStore) (importer : SstImporter)
    (wall now : Timestamp) (batch : WriteBatch) (quads : List StagedQuad)
    (entries : WriteBatch) : Prop where
  /-- Something was collected. -/
  filled : (importer.triples.isEmpty && importer.iris.isEmpty) = false
  /-- The triples are encoded. -/
  triples : (store.importing importer wall).importTriples ext (store.importWindow wall now)
    (store.predIds [] importer.triples).2 ([], []) importer.triples = .ok (batch, quads)
  /-- The IRIs have dictionary entries. -/
  iris : (store.importing importer wall).batchIris ext [] importer.iris = .ok entries

/-- The store in which an import encodes knows the names of its triples. -/
theorem importing_eq (store : TripleStore) (importer : SstImporter) (wall now : Timestamp) :
    store.importing importer wall =
      (store.beginCommit wall).1.internAll (importWrites now importer.triples) ∧
    (store.importing importer wall).committed = store.nextCommitTs wall := by
  have interned := (predIds_spec now importer.triples store [] (fun _ _ found => by cases found)).1
  have time : (store.internAll (importWrites now importer.triples)).nextCommitTs wall =
      store.nextCommitTs wall := by
    simp only [nextCommitTs, committed_internAll]
  unfold importing
  rw [interned]
  simp only [beginCommit, time, internAll_committed, and_self]

/-- An import that built its files ingests them and writes its batch. -/
theorem Built.finish {importer : SstImporter} {wall now : Timestamp} {batch entries : WriteBatch}
    {quads : List StagedQuad} (built : Built ext store importer wall now batch quads entries)
    (sort : Order → List (Bytes × Bytes) → List (Bytes × Bytes)) :
    store.finishImport ext sort importer wall now =
      (((store.importing importer wall).ingestAll sort quads Order.ALL).dbWrite (batch ++ entries ++
        [.put .metadata META_ORACLE_CTR (store.nextCommitTs wall).toBeBytes]),
        .ok importer.triples.length) := by
  have time := (store.importing_eq importer wall now).2
  have ingested : ((store.importing importer wall).ingestAll sort quads Order.ALL).db.family .iri =
      (store.importing importer wall).db.family .iri :=
    family_ingestAll quads Order.ALL _ (by simp)
  have iris := @batchIris_append ext _ _ ingested batch importer.iris
  rw [built.iris] at iris
  have window : (⟨now, Timestamp.END_OF_TIME,
      ((store.predIds [] importer.triples).1.beginCommit wall).2⟩ : BiTemporalRange) =
      store.importWindow wall now := by
    rw [importWindow, ← time]
    rfl
  have triples := built.triples
  unfold importing at triples iris
  unfold finishImport
  rw [if_neg (by simp [built.filled])]
  simp only [window, triples]
  unfold ingestAll at iris
  simp only [iris, Except.map]
  unfold importing at time
  rw [← time]
  rfl

/-- An import that succeeds collected nothing, or built its files. -/
theorem exists_built {importer : SstImporter} {wall now : Timestamp} {n : Nat}
    {sort : Order → List (Bytes × Bytes) → List (Bytes × Bytes)}
    (succeeds : (store.finishImport ext sort importer wall now).2 = .ok n) :
    (importer.triples = [] ∧ importer.iris = []) ∨
      ∃ batch quads entries, Built ext store importer wall now batch quads entries := by
  cases filled : importer.triples.isEmpty && importer.iris.isEmpty with
  | true =>
    simp only [Bool.and_eq_true, List.isEmpty_iff] at filled
    exact Or.inl filled
  | false =>
    right
    have time := (store.importing_eq importer wall now).2
    have window : (⟨now, Timestamp.END_OF_TIME,
        ((store.predIds [] importer.triples).1.beginCommit wall).2⟩ : BiTemporalRange) =
        store.importWindow wall now := by
      rw [importWindow, ← time]
      rfl
    unfold finishImport at succeeds
    rw [if_neg (by simp [filled])] at succeeds
    simp only [window] at succeeds
    split at succeeds
    · cases succeeds
    · rename_i batch quads triples
      split at succeeds
      · cases succeeds
      · rename_i whole iris
        have ingested : ((store.importing importer wall).ingestAll sort quads Order.ALL).db.family
            .iri = (store.importing importer wall).db.family .iri :=
          family_ingestAll quads Order.ALL _ (by simp)
        have split_iris := @batchIris_append ext _ _ ingested batch importer.iris
        unfold ingestAll importing at split_iris
        rw [split_iris] at iris
        obtain ⟨entries, dictionary, _⟩ := Except.map_eq_ok.mp iris
        exact ⟨batch, quads, entries, filled, triples, dictionary⟩

/-- Interning keeps the inline threshold. -/
theorem inlineValueMaxBytes_internAll (writes : List PendingWrite) (store : TripleStore) :
    (store.internAll writes).inlineValueMaxBytes = store.inlineValueMaxBytes := by
  induction writes generalizing store with
  | nil => rfl
  | cons w rest ih =>
    refine (ih _).trans ?_
    simp only [internPredicate]
    split <;> rfl

/-- A transaction that adds what an import collected commits, unless something is newer than its read. -/
theorem Built.commit {importer : SstImporter} {wall now : Timestamp} {batch entries : WriteBatch}
    {quads : List StagedQuad} (built : Built ext store importer wall now batch quads entries)
    (holds : store.db.OrderHolds .gspo store.index)
    (recorded : ∀ key bytes, store.index key = some bytes → key.tt ≤ store.committed) :
    ∃ staging, Collects staging batch quads ∧
      store.commitQuads ext (store.importTransaction importer now) wall = quads ∧
      store.commit ext (store.importTransaction importer now) wall =
        ((store.importing importer wall).dbWrite (staging.batch ++
          batchChange (store.nextCommitTs wall) "" [] quads ++ entries ++
          [.put .metadata META_ORACLE_CTR (store.nextCommitTs wall).toBeBytes]),
        .ok (store.nextCommitTs wall)) := by
  obtain ⟨same, _⟩ := store.importing_eq importer wall now
  obtain ⟨_, named, _, known⟩ :=
    predIds_spec now importer.triples store [] (fun _ _ found => by cases found)
  have inline : (store.importing importer wall).inlineValueMaxBytes =
      (store.beginCommit wall).1.inlineValueMaxBytes := by
    rw [same]
    exact inlineValueMaxBytes_internAll _ _
  have namedBy : ((store.beginCommit wall).1.internAll
      (importWrites now importer.triples)).NamedBy (store.predIds [] importer.triples).2 := by
    rw [← same]
    exact named
  obtain ⟨staging, staged, collects⟩ := importTriples_stages importer.triples inline namedBy known
    (⟨rfl, fun _ _ => rfl⟩ : Collects Staging.none [] []) built.triples
  refine ⟨staging, collects, ?_⟩
  have nonempty : (store.importTransaction importer now).isEmpty = false := by
    have filled := built.filled
    simp only [Transaction.isEmpty, importTransaction, begin, Transaction.new, importWrites,
      List.isEmpty_map, List.isEmpty_nil, Bool.and_true]
    simpa using filled
  have free := @firstConflict_of_read ext (store.beginCommit wall).1 _ holds
    (store.importTransaction importer now) recorded (store.nextCommitTs wall)
  have iris := @batchIris_append ext (store.importing importer wall) _ rfl
    (staging.batch ++ batchChange (store.nextCommitTs wall) "" [] quads) importer.iris
  rw [built.iris] at iris
  rw [← same] at staged
  have built_batch : (store.importing importer wall).commitBatch ext
      (store.importTransaction importer now) (store.nextCommitTs wall) staging =
      .ok (staging.batch ++ batchChange (store.nextCommitTs wall) "" [] quads ++ entries ++
        [.put .metadata META_ORACLE_CTR (store.nextCommitTs wall).toBeBytes]) := by
    simp only [commitBatch, collects.quads]
    rw [show (store.importTransaction importer now).iris = importer.iris from rfl,
      show (store.importTransaction importer now).author = "" from rfl,
      show (store.importTransaction importer now).graphOps = [] from rfl, iris]
    rfl
  have writes : (store.importTransaction importer now).writes = importWrites now importer.triples :=
    rfl
  have time : (store.beginCommit wall).2 = store.nextCommitTs wall := rfl
  constructor
  · unfold commitQuads
    rw [if_neg (by simp [nonempty])]
    simp only [time, free, stagedQuads, writes, staged, built_batch, collects.quads]
  · unfold TripleStore.commit
    rw [if_neg (by simp [nonempty])]
    simp only [finishCommit, time, free, flush, writes, staged, built_batch]

variable (ext) in
/-- The index value a triple of a quad is stored with. -/
def indexValue (store : TripleStore) (window : BiTemporalRange) :
    Triple → Except StorageError Bytes
  | .relation _ _ _ edgeId _ => .ok (encodeRelation edgeId window)
  | .property _ _ value _ => (store.encodePropertyEntry ext [] value window).map Prod.snd
  | .edgeProperty .. | .edgeRelation .. => .ok []

/-- A collected version is of the quad of a triple, with its index value. -/
structure CollectedFrom (ext : External) (named : TripleStore) (window : BiTemporalRange)
    (entry : Triple × GraphId) (quad : StagedQuad) : Prop where
  /-- It is a version of the quad of the triple. -/
  ids : named.quadOf ext ⟨entry.1, entry.2, .add⟩ = some quad.key.toQuadIds
  /-- It is recorded at the commit timestamp. -/
  time : quad.key.tt = window.tt
  /-- It has the index value of the triple. -/
  value : named.indexValue ext window entry.1 = .ok quad.value

/-- The version collected from a triple, unless it is an annotation. -/
theorem importTriple_collects {named : TripleStore} {window : BiTemporalRange} {id : PredId}
    {batch batch' : WriteBatch} {quads quads' : List StagedQuad} {triple : Triple} {g : GraphId}
    (own : named.predicateId triple.predicate = some id)
    (done : named.importTriple ext window id (batch, quads) triple g = .ok (batch', quads')) :
    (quads' = quads ∧ named.quadOf ext ⟨triple, g, .add⟩ = none) ∨
      ∃ quad, quads' = quads ++ [quad] ∧ CollectedFrom ext named window (triple, g) quad := by
  cases triple with
  | relation subject predicate object edgeId temporal =>
    cases done
    simp only [Triple.predicate] at own
    exact Or.inr ⟨_, rfl, by simp only [quadOf, own, Option.map_some], rfl, rfl⟩
  | property subject predicate value temporal =>
    simp only [importTriple] at done
    obtain ⟨⟨encoded, bytes⟩, entry, done⟩ := Except.bind_eq_ok.mp done
    cases done
    rw [encodePropertyEntry_append] at entry
    obtain ⟨⟨blobs, bytes'⟩, alone, same⟩ := Except.map_eq_ok.mp entry
    cases same
    simp only [Triple.predicate] at own
    exact Or.inr ⟨_, rfl, by simp only [quadOf, own, Option.map_some], rfl,
      by simp only [indexValue, alone, Except.map]⟩
  | edgeProperty edge predicate value temporal =>
    simp only [importTriple] at done
    obtain ⟨bytes, _, done⟩ := Except.bind_eq_ok.mp done
    cases done
    exact Or.inl ⟨rfl, rfl⟩
  | edgeRelation edge predicate object temporal =>
    cases done
    exact Or.inl ⟨rfl, rfl⟩

/-- The collected versions are those of the triples that are no annotations. -/
theorem importTriples_collects {named : TripleStore} {window : BiTemporalRange}
    {ids : List (String × PredId)} (triples : List (Triple × GraphId))
    {batch batch' : WriteBatch} {quads quads' : List StagedQuad} (namedBy : named.NamedBy ids)
    (known : ∀ entry ∈ triples, (ids.lookup entry.1.predicate).isSome)
    (done : named.importTriples ext window ids (batch, quads) triples = .ok (batch', quads')) :
    (∀ quad ∈ quads', quad ∈ quads ∨ ∃ entry ∈ triples, CollectedFrom ext named window entry quad) ∧
      (∀ quad ∈ quads, quad ∈ quads') ∧
      ∀ entry ∈ triples, (named.quadOf ext ⟨entry.1, entry.2, .add⟩).isSome →
        ∃ quad ∈ quads', CollectedFrom ext named window entry quad := by
  induction triples generalizing batch quads with
  | nil =>
    cases done
    exact ⟨fun _ member => Or.inl member, fun _ member => member, by simp⟩
  | cons entry rest ih =>
    obtain ⟨triple, g⟩ := entry
    simp only [importTriples] at done
    obtain ⟨⟨batch₁, quads₁⟩, one, more⟩ := Except.bind_eq_ok.mp done
    obtain ⟨id, listed⟩ := Option.isSome_iff_exists.mp (known (triple, g) List.mem_cons_self)
    rw [listed, Option.getD_some] at one
    obtain ⟨sources, kept, all⟩ :=
      ih (fun other member => known other (List.mem_cons_of_mem _ member)) more
    rcases importTriple_collects (namedBy _ _ listed) one with
      ⟨rfl, annotation⟩ | ⟨quad, rfl, collected⟩
    · refine ⟨fun other member => ?_, kept, fun other member quad => ?_⟩
      · exact (sources other member).imp_right fun ⟨source, within, from_source⟩ =>
          ⟨source, List.mem_cons_of_mem _ within, from_source⟩
      · rcases List.mem_cons.mp member with rfl | later
        · rw [ annotation] at quad
          cases quad
        · exact all other later quad
    · have own := kept quad (List.mem_append_right _ List.mem_cons_self)
      refine ⟨fun other member => ?_, fun other member => kept other (List.mem_append_left _ member),
        fun other member some => ?_⟩
      · rcases sources other member with old | ⟨source, within, from_source⟩
        · rcases List.mem_append.mp old with before | here
          · exact Or.inl before
          · rw [List.mem_singleton.mp here]
            exact Or.inr ⟨_, List.mem_cons_self, collected⟩
        · exact Or.inr ⟨source, List.mem_cons_of_mem _ within, from_source⟩
      · rcases List.mem_cons.mp member with rfl | later
        · exact ⟨quad, own, collected⟩
        · exact all other later some

/-- Two stores differ at most in the change log. -/
structure SameButLog (left right : TripleStore) : Prop where
  /-- Everything but the database is the same. -/
  tables : right = { left with db := right.db }
  /-- The other column families hold the same. -/
  families : ∀ cf, cf ≠ .chg → ∀ key, right.db.get cf key = left.db.get cf key

/--
An import leaves the orders in agreement, and leaves what committing its triples would leave.

The quads visible now are those that were, and the imported ones.
-/
structure ImportsAsCommit (ext : External) (store : TripleStore) (importer : SstImporter)
    (wall now : Timestamp) (after : TripleStore) : Prop where
  /-- All eight orders hold the same versions with the same values. -/
  orders : after.db.OrdersHold after.index
  /-- What is imported becomes visible, and nothing else changes. -/
  visible : ∀ ids, after.Shows after.committed now ids ↔ store.Shows store.committed now ids ∨
    ∃ entry ∈ importer.triples, after.quadOf ext ⟨entry.1, entry.2, .add⟩ = some ids
  /-- A transaction that adds the triples commits, with the same effect but for the change log. -/
  committed : ∃ committed time, store.commit ext (store.importTransaction importer now) wall =
    (committed, .ok time) ∧ committed.SameButLog after

variable (ext) in
/-- No two triples of an import are of one quad with different index values. -/
def Consistent (store : TripleStore) (importer : SstImporter) (wall now : Timestamp) : Prop :=
  let named := store.importing importer wall
  ∀ first ∈ importer.triples, ∀ second ∈ importer.triples, ∀ ids,
    named.quadOf ext ⟨first.1, first.2, .add⟩ = some ids →
    named.quadOf ext ⟨second.1, second.2, .add⟩ = some ids →
    named.indexValue ext (store.importWindow wall now) first.1 =
      named.indexValue ext (store.importWindow wall now) second.1

section Built

variable {importer : SstImporter} {wall now : Timestamp} {batch entries : WriteBatch}
  {quads : List StagedQuad}

/-- The collected versions are those of the triples that are no annotations. -/
theorem Built.collects (built : Built ext store importer wall now batch quads entries) :
    (∀ quad ∈ quads, ∃ entry ∈ importer.triples,
      CollectedFrom ext (store.importing importer wall) (store.importWindow wall now) entry quad) ∧
    ∀ entry ∈ importer.triples,
      ((store.importing importer wall).quadOf ext ⟨entry.1, entry.2, .add⟩).isSome →
      ∃ quad ∈ quads,
        CollectedFrom ext (store.importing importer wall) (store.importWindow wall now) entry quad := by
  obtain ⟨_, named, _, known⟩ :=
    predIds_spec now importer.triples store [] (fun _ _ found => by cases found)
  have namedBy : (store.importing importer wall).NamedBy (store.predIds [] importer.triples).2 :=
    named
  obtain ⟨sources, _, all⟩ := importTriples_collects importer.triples namedBy known built.triples
  exact ⟨fun quad member => (sources quad member).resolve_left List.not_mem_nil, all⟩

/-- Versions that share a key have one value, exactly when the triples are consistent. -/
theorem Built.consistent_iff (built : Built ext store importer wall now batch quads entries) :
    store.Consistent ext importer wall now ↔
      ∀ first ∈ quads, ∀ second ∈ quads, first.key = second.key → first.value = second.value := by
  obtain ⟨sources, all⟩ := built.collects
  constructor
  · intro consistent first member second member' same
    obtain ⟨entry, within, own⟩ := sources first member
    obtain ⟨entry', within', own'⟩ := sources second member'
    have ids := own'.ids
    rw [← same] at ids
    have equal := consistent entry within entry' within' _ own.ids ids
    rw [own.value, own'.value] at equal
    exact Except.ok.inj equal
  · intro consistent entry within entry' within' ids named named'
    obtain ⟨quad, member, own⟩ := all entry within (by rw [named]; rfl)
    obtain ⟨quad', member', own'⟩ := all entry' within' (by rw [named']; rfl)
    have key : quad.key = quad'.key := by
      have first := Option.some.inj (own.ids.symm.trans named)
      have second := Option.some.inj (own'.ids.symm.trans named')
      have time := own.time.trans own'.time.symm
      obtain ⟨⟨ids₁, tt₁⟩, value₁⟩ := quad
      obtain ⟨⟨ids₂, tt₂⟩, value₂⟩ := quad'
      simp only at first second time
      rw [first, second, time]
    rw [own.value, own'.value, consistent quad member quad' member' key]

/-- What a triple adds outside the files is on no order. -/
theorem importTriple_cf {named : TripleStore} {window : BiTemporalRange} {p : PredId}
    {batch batch' : WriteBatch} {quads quads' : List StagedQuad} {triple : Triple} {g : GraphId}
    (done : named.importTriple ext window p (batch, quads) triple g = .ok (batch', quads')) :
    ∃ added, batch' = batch ++ added ∧ ∀ op ∈ added, ∀ order, Cf.quads order ≠ op.cf := by
  cases triple with
  | relation subject predicate object edgeId temporal =>
    cases done
    exact ⟨[], by simp, by simp⟩
  | property subject predicate value temporal =>
    simp only [importTriple] at done
    obtain ⟨⟨encoded, bytes⟩, entry, done⟩ := Except.bind_eq_ok.mp done
    cases done
    obtain ⟨blobs, rfl, blobFamily⟩ := encodePropertyEntry_batch entry
    refine ⟨_, List.append_assoc .., fun op member order same => ?_⟩
    rcases List.mem_append.mp member with trigram | blob
    · rw [batchTextTrigrams_cf trigram] at same
      cases same
    · rw [blobFamily op blob] at same
      cases same
  | edgeProperty edge predicate value temporal =>
    simp only [importTriple] at done
    obtain ⟨bytes, _, done⟩ := Except.bind_eq_ok.mp done
    cases done
    exact ⟨_, rfl, by simp [batchEpa, WriteOp.cf]⟩
  | edgeRelation edge predicate object temporal =>
    cases done
    exact ⟨_, rfl, by simp [batchEpo, WriteOp.cf]⟩

/-- What the triples of an import add outside the files is on no order. -/
theorem importTriples_cf {named : TripleStore} {window : BiTemporalRange}
    {ids : List (String × PredId)} (triples : List (Triple × GraphId))
    {batch batch' : WriteBatch} {quads quads' : List StagedQuad}
    (done : named.importTriples ext window ids (batch, quads) triples = .ok (batch', quads')) :
    ∃ added, batch' = batch ++ added ∧ ∀ op ∈ added, ∀ order, Cf.quads order ≠ op.cf := by
  induction triples generalizing batch quads with
  | nil =>
    cases done
    exact ⟨[], by simp, by simp⟩
  | cons entry rest ih =>
    obtain ⟨triple, g⟩ := entry
    simp only [importTriples] at done
    obtain ⟨⟨batch₁, quads₁⟩, one, more⟩ := Except.bind_eq_ok.mp done
    obtain ⟨here, rfl, apart⟩ := importTriple_cf one
    obtain ⟨there, rfl, apart'⟩ := ih more
    refine ⟨_, List.append_assoc .., fun op member => ?_⟩
    rcases List.mem_append.mp member with early | later
    · exact apart op early
    · exact apart' op later

/-- Interning any predicates leaves the families of the orders alone. -/
theorem family_internAll (writes : List PendingWrite) (store : TripleStore) {cf : Cf}
    (apart : cf ≠ .metadata) : (store.internAll writes).db.family cf = store.db.family cf := by
  induction writes generalizing store with
  | nil => rfl
  | cons w rest ih => exact (ih _).trans (family_internPredicate store w.triple.predicate apart)

/-- The orders hold in the store in which an import encodes what they held. -/
theorem importing_holds {importer : SstImporter} {wall : Timestamp} {index : Index} {order : Order}
    (holds : store.db.OrderHolds order index) :
    (store.importing importer wall).db.OrderHolds order index := by
  obtain ⟨same, _⟩ := store.importing_eq importer wall Timestamp.zero
  rw [same]
  exact holds.congr (family_internAll _ (store.beginCommit wall).1 (by simp))

/-- The family of an order after an import is what it ingested. -/
theorem Built.holds (built : Built ext store importer wall now batch quads entries)
    {index : Index} {order : Order} (holds : store.db.OrderHolds order index)
    {sort : Order → List (Bytes × Bytes) → List (Bytes × Bytes)}
    (sorts : ∀ order, SortsByKey (sort order)) :
    (store.finishImport ext sort importer wall now).1.db.OrderHolds order
      (index.ingested order (sort order (orderEntries quads order))) := by
  have member : order ∈ Order.ALL := by cases order <;> decide
  have ingested := ingestAll_holds sorts quads (by decide)
    (@importing_holds store importer wall _ _ holds) member
  rw [built.finish sort]
  -- What is written after the files is on other families.
  obtain ⟨added, same, apart⟩ := importTriples_cf importer.triples built.triples
  rw [List.nil_append] at same
  subst same
  obtain ⟨dictionary, same, own⟩ := batchIris_cf built.iris
  rw [List.nil_append] at same
  subst same
  refine ingested.write_other fun op within => ?_
  rcases List.mem_append.mp within with rest | counter
  · rcases List.mem_append.mp rest with annotation | iri
    · exact apart op annotation
    · rw [own op iri]
      simp
  · rw [List.mem_singleton.mp counter]
    simp [WriteOp.cf]

/-- After an import of consistent triples the orders hold what committing them stores. -/
theorem Built.ordersHold (built : Built ext store importer wall now batch quads entries)
    (consistent : store.Consistent ext importer wall now) (holds : store.db.OrdersHold store.index)
    {sort : Order → List (Bytes × Bytes) → List (Bytes × Bytes)}
    (sorts : ∀ order, SortsByKey (sort order)) :
    (store.finishImport ext sort importer wall now).1.db.OrdersHold (store.index.putAll quads) := by
  intro order
  have ingested := built.holds (holds order) sorts
  rwa [orderEntries, Index.ingested_eq_putAll store.index (sorts order)
    (built.consistent_iff.mp consistent)] at ingested

/-- An import of consistent triples leaves what committing them leaves, but for the change log. -/
theorem Built.sameButLog (built : Built ext store importer wall now batch quads entries)
    (consistent : store.Consistent ext importer wall now) (holds : store.db.OrdersHold store.index)
    (counted : store.Counted) {sort : Order → List (Bytes × Bytes) → List (Bytes × Bytes)}
    (sorts : ∀ order, SortsByKey (sort order)) :
    ∃ committed, store.commit ext (store.importTransaction importer now) wall =
        (committed, .ok (store.nextCommitTs wall)) ∧
      committed.SameButLog (store.finishImport ext sort importer wall now).1 := by
  obtain ⟨staging, collects, written, done⟩ := built.commit (holds .gspo) counted.recorded
  refine ⟨_, done, ?_, fun cf apart key => ?_⟩
  · obtain ⟨db, same⟩ := @ingestAll_eq sort quads Order.ALL (store.importing importer wall)
    rw [built.finish sort, same]
    rfl
  · by_cases ordered : ∃ order, cf = .quads order
    · obtain ⟨order, rfl⟩ := ordered
      have stored := commit_holds ext store (holds order) (store.importTransaction importer now) wall
      rw [written, done] at stored
      exact stored.get_congr (built.ordersHold consistent holds sorts order) key
    · -- Any other family gets the same operations, on what interning left there.
      have other : ∀ order, cf ≠ .quads order := fun order same => ordered ⟨order, same⟩
      have base := @family_ingestAll sort quads Order.ALL (store.importing importer wall) cf
        fun order _ => other order
      have unlogged : Db.onFamily (batchChange (store.nextCommitTs wall) "" [] quads) cf = [] :=
        Db.onFamily_eq_nil fun op member same => apart (same.symm.trans (batchChange_cf member))
      rw [built.finish sort]
      simp only [Db.get, dbWrite]
      rw [Db.family_write_onFamily, Db.family_write_onFamily _ (staging.batch ++ _ ++ _ ++ _)]
      simp only [Db.onFamily_append, unlogged, List.append_nil, collects.others cf other]
      rw [Db.family_write_congr base]

end Built

/-- A triple is imported as a version of its own quad. -/
theorem quadOf_importedAt (named : TripleStore) (now : Timestamp) (triple : Triple) (g : GraphId) :
    named.quadOf ext ⟨triple.importedAt now, g, .add⟩ = named.quadOf ext ⟨triple, g, .add⟩ := by
  cases triple <;> rfl

/-- A triple that is no annotation is imported as valid from the import on. -/
theorem window_importedAt {named : TripleStore} {now : Timestamp} {triple : Triple} {g : GraphId}
    {ids : QuadIds} (ofQuad : named.quadOf ext ⟨triple, g, .add⟩ = some ids) :
    (triple.importedAt now).temporal.vtStart = now ∧
      (triple.importedAt now).temporal.vtEnd = Timestamp.END_OF_TIME := by
  cases triple with
  | relation | property => exact ⟨rfl, rfl⟩
  | edgeProperty | edgeRelation => cases ofQuad

/-- The writes of an import to a quad, none when no triple is of it. -/
theorem lastWrite_importWrites (named : TripleStore) (now : Timestamp)
    (triples : List (Triple × GraphId)) (ids : QuadIds) :
    match named.lastWrite ext (importWrites now triples) ids with
    | none => ¬ ∃ entry ∈ triples, named.quadOf ext ⟨entry.1, entry.2, .add⟩ = some ids
    | some w => (∃ entry ∈ triples, named.quadOf ext ⟨entry.1, entry.2, .add⟩ = some ids) ∧
        w.triple.temporal.vtStart = now ∧ w.triple.temporal.vtEnd = Timestamp.END_OF_TIME := by
  unfold lastWrite
  split
  · rename_i none_written
    rintro ⟨entry, member, named_by⟩
    rw [List.getLast?_eq_none_iff, List.filter_eq_nil_iff] at none_written
    refine none_written _ (List.mem_map.mpr ⟨entry, member, rfl⟩) ?_
    rw [quadOf_importedAt]
    exact decide_eq_true named_by
  · rename_i w last
    obtain ⟨member, named_by⟩ := List.mem_filter.mp (List.mem_of_getLast? last)
    obtain ⟨entry, within, rfl⟩ := List.mem_map.mp member
    have quad := of_decide_eq_true named_by
    rw [quadOf_importedAt] at quad
    exact ⟨⟨entry, within, quad⟩, window_importedAt quad⟩

/-- What is imported into a store whose clock is not at the end of time becomes visible. -/
theorem Added.shows_imported {after : TripleStore} {now : Timestamp}
    {triples : List (Triple × GraphId)} (added : store.Added ext after (importWrites now triples))
    (counted : store.Counted) (clock : now ≠ Timestamp.END_OF_TIME) (ids : QuadIds) :
    after.Shows after.committed now ids ↔ store.Shows store.committed now ids ∨
      ∃ entry ∈ triples, after.quadOf ext ⟨entry.1, entry.2, .add⟩ = some ids := by
  have last := @lastWrite_importWrites ext after now triples ids
  rw [added.shows_iff counted]
  split
  · rename_i none_written
    rw [none_written] at last
    exact ⟨Or.inl, fun either => either.resolve_right last⟩
  · rename_i w written
    rw [written] at last
    obtain ⟨imported, start, stop⟩ := last
    rw [start, stop]
    -- No version that has begun by now starts later than the import.
    have governs : store.WouldGovern now ids now := ⟨le_refl _, fun _ _ _ begun => begun⟩
    have open_now : now < Timestamp.END_OF_TIME :=
      lt_of_le_of_ne (Timestamp.le_END_OF_TIME now) clock
    exact ⟨fun _ => Or.inr imported, fun _ => Or.inl ⟨governs, open_now⟩⟩

/-- Stores that differ in the change log alone have the same index. -/
theorem SameButLog.index_eq {left right : TripleStore} (same : left.SameButLog right) :
    right.index = left.index := funext fun _ => same.families _ (by simp) _

/-- An import of consistent triples does what committing them does. -/
theorem Built.importsAsCommit {importer : SstImporter} {wall now : Timestamp}
    {batch entries : WriteBatch} {quads : List StagedQuad}
    (built : Built ext store importer wall now batch quads entries)
    (consistent : store.Consistent ext importer wall now) (holds : store.db.OrdersHold store.index)
    (counted : store.Counted) (clock : now ≠ Timestamp.END_OF_TIME)
    {sort : Order → List (Bytes × Bytes) → List (Bytes × Bytes)}
    (sorts : ∀ order, SortsByKey (sort order)) :
    store.ImportsAsCommit ext importer wall now (store.finishImport ext sort importer wall now).1 := by
  obtain ⟨committed, done, same⟩ := built.sameButLog consistent holds counted sorts
  have adds : ∀ w ∈ (store.importTransaction importer now).writes, w.Adds := by
    intro w member
    obtain ⟨entry, _, rfl⟩ := List.mem_map.mp member
    simp [PendingWrite.Adds, WriteMode.resolve]
  have added := added_commit holds counted adds done
  refine ⟨(built.ordersHold consistent holds sorts).self, fun ids => ?_, committed, _, done, same⟩
  -- The store of the commit has the same versions, counter and names.
  have shown := added.shows_imported counted clock ids
  have tables := same.tables
  have counter : (store.finishImport ext sort importer wall now).1.committed =
      committed.committed := by rw [tables]
  have quad : ∀ w, (store.finishImport ext sort importer wall now).1.quadOf ext w =
      committed.quadOf ext w := by
    intro w
    rw [tables]
    rfl
  simp only [Shows, same.index_eq, counter, quad]
  exact shown

/--
An import agrees with a commit however its files are sorted, exactly when it is consistent.

Each order keeps whichever entry of a key its own sort leaves first.
-/
theorem importsAsCommit_iff {importer : SstImporter} {wall now : Timestamp}
    {sort₀ : Order → List (Bytes × Bytes) → List (Bytes × Bytes)} {n : Nat}
    (holds : store.db.OrdersHold store.index) (counted : store.Counted)
    (clock : now ≠ Timestamp.END_OF_TIME)
    (succeeds : (store.finishImport ext sort₀ importer wall now).2 = .ok n) :
    (∀ sort : Order → List (Bytes × Bytes) → List (Bytes × Bytes),
      (∀ order, SortsByKey (sort order)) → store.ImportsAsCommit ext importer wall now
        (store.finishImport ext sort importer wall now).1) ↔
      store.Consistent ext importer wall now := by
  rcases exists_built succeeds with ⟨no_triples, no_iris⟩ | ⟨batch, quads, entries, built⟩
  · -- Nothing was collected, and nothing happens.
    have unchanged : ∀ sort, store.finishImport ext sort importer wall now = (store, .ok 0) := by
      intro sort
      simp [finishImport, no_triples, no_iris]
    constructor
    · intro _ first member
      rw [no_triples] at member
      cases member
    · intro _ sort _
      have empty : (store.importTransaction importer now).isEmpty = true := by
        simp [Transaction.isEmpty, importTransaction, begin, Transaction.new, importWrites,
          no_triples, no_iris]
      rw [unchanged]
      refine ⟨holds, by simp [no_triples], store, store.committed, ?_, rfl, fun _ _ _ => rfl⟩
      unfold TripleStore.commit
      rw [if_pos empty]
      rfl
  · constructor
    · intro agrees
      rw [built.consistent_iff]
      intro first member second member' same
      -- Sort the leading order for one value, and another order for the other.
      let favored : Order → Bytes := fun order => if order = .spog then first.value else second.value
      have sorts : ∀ order, SortsByKey (sortFavoring (κ := Bytes) (favored order)) :=
        fun order => sortFavoring_sorts (favored order)
      have kept := agrees (fun order => sortFavoring (favored order)) sorts
      have stored : ∀ order (quad : StagedQuad), quad ∈ quads → favored order = quad.value →
          quad.key = first.key → (store.finishImport ext (fun order => sortFavoring (favored order))
            importer wall now).1.index first.key = some quad.value := by
        intro order quad within wanted named
        have ingested := built.holds (holds order) sorts
        have equal := ingested.get first.key
        rw [kept.orders order |>.get] at equal
        rw [equal, ← named]
        refine Index.ingested_eq_some ?_
        rw [wanted]
        exact firstOf_sortFavoring (List.mem_map.mpr ⟨quad, within, rfl⟩)
      have one := stored .spog first member (if_pos rfl) rfl
      have other := stored .sopg second member' (if_neg (by simp)) same.symm
      exact Option.some.inj (one.symm.trans other)
    · intro consistent sort sorts
      exact built.importsAsCommit consistent holds counted clock sorts

/-- A relation between two nodes, by an edge. -/
def knowsBy (edge : UInt8) : Triple × GraphId :=
  (.relation (NodeId.ofByte 1) "knows" (NodeId.ofByte 2) ⟨(NodeId.ofByte edge).uuid⟩
    ⟨Timestamp.zero, Timestamp.END_OF_TIME, Timestamp.zero⟩, GraphId.DEFAULT)

/-- The value an edge is imported with into a new store. -/
def edgeValue (edge : UInt8) : Bytes :=
  encodeRelation ⟨(NodeId.ofByte edge).uuid⟩
    ⟨Timestamp.zero, Timestamp.END_OF_TIME, Timestamp.wrap 1⟩

/-- The counter of a new store is not behind. -/
theorem counted_configured (inlineMax : Nat) (vocabulary : Vocabulary) (canonical : Bool) :
    (configured inlineMax vocabulary canonical).Counted where
  recorded key bytes stored := by
    rw [index_configured] at stored
    cases stored
  room := by
    simp only [configured]
    decide

/-- Importing one relation into a new store agrees with committing it. -/
theorem importsAsCommit_iff_one :
    (∀ sort : Order → List (Bytes × Bytes) → List (Bytes × Bytes),
      (∀ order, SortsByKey (sort order)) →
        (configured 0 Vocabulary.default true).ImportsAsCommit External.unreached ⟨[knowsBy 3], []⟩
          Timestamp.zero Timestamp.zero ((configured 0 Vocabulary.default true).finishImport
            External.unreached sort ⟨[knowsBy 3], []⟩ Timestamp.zero Timestamp.zero).1) ↔
      (configured 0 Vocabulary.default true).Consistent External.unreached ⟨[knowsBy 3], []⟩
        Timestamp.zero Timestamp.zero :=
  @importsAsCommit_iff External.unreached _ _ Timestamp.zero Timestamp.zero
    (fun _ entries => entries) 1 (configured_orders 0 Vocabulary.default true).self
    (counted_configured 0 Vocabulary.default true) (by decide) (by decide +kernel)

/-- Two relations that differ in their edge leave the orders with different edges. -/
theorem import_of_two_edges_disagrees : ∃ sort : Order → List (Bytes × Bytes) → List (Bytes × Bytes),
    (∀ order, SortsByKey (sort order)) ∧
    ((configured 0 Vocabulary.default true).finishImport External.unreached sort
      ⟨[knowsBy 3, knowsBy 4], []⟩ Timestamp.zero Timestamp.zero).2 = .ok 2 ∧
    ¬ (configured 0 Vocabulary.default true).ImportsAsCommit External.unreached
      ⟨[knowsBy 3, knowsBy 4], []⟩ Timestamp.zero Timestamp.zero
      ((configured 0 Vocabulary.default true).finishImport External.unreached sort
        ⟨[knowsBy 3, knowsBy 4], []⟩ Timestamp.zero Timestamp.zero).1 := by
  let sort : Order → List (Bytes × Bytes) → List (Bytes × Bytes) := fun order =>
    sortFavoring (if order = .spog then edgeValue 3 else edgeValue 4)
  let key : QuadKey := ⟨⟨NodeId.ofByte 1, 1, NodeId.ofByte 2, GraphId.DEFAULT⟩, Timestamp.wrap 1⟩
  refine ⟨sort, fun order => sortFavoring_sorts _, by decide +kernel, fun agrees => ?_⟩
  have leading := (agrees.orders .spog).get key
  have other := (agrees.orders .sopg).get key
  have apart : ((configured 0 Vocabulary.default true).finishImport External.unreached sort
        ⟨[knowsBy 3, knowsBy 4], []⟩ Timestamp.zero Timestamp.zero).1.db.get (.quads .spog)
          (Order.spog.encode key) ≠
      ((configured 0 Vocabulary.default true).finishImport External.unreached sort
        ⟨[knowsBy 3, knowsBy 4], []⟩ Timestamp.zero Timestamp.zero).1.db.get (.quads .sopg)
          (Order.sopg.encode key) := by
    decide +kernel
  exact apart (leading.trans other.symm)

end TripleStore

end Polargraph
