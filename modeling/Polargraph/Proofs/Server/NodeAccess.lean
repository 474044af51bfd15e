import Polargraph.Proofs.Storage.Recorded
import Polargraph.Server.NodeAccess

/-! When the access cache gives every user exactly what its groups are granted. -/

namespace Polargraph

variable {ext : External}

namespace AccessFact

/-- The write of the triple of a fact. -/
def write (fact : AccessFact) (edge : EdgeId) (window : BiTemporalRange) : PendingWrite :=
  ⟨fact.triple edge window, GraphId.DEFAULT, .auto⟩

/-- The object slot of a fact. -/
def object (ext : External) : AccessFact → NodeId
  | member _ group => group
  | node _ target => target
  | type _ name => valueObject ext (.text name)

/-- The quad of a fact, when its predicate is known. -/
def ids (ext : External) (store : TripleStore) (fact : AccessFact) : Option QuadIds :=
  (store.predicateId fact.predicate).map fun p =>
    ⟨fact.subject, p, fact.object ext, GraphId.DEFAULT⟩

/-- The write of a fact is of its quad. -/
theorem quadOf_write (store : TripleStore) (fact : AccessFact) (edge : EdgeId)
    (window : BiTemporalRange) : store.quadOf ext (fact.write edge window) = fact.ids ext store := by
  cases fact <;> rfl

/-- The predicate of a fact is one of node-level access. -/
theorem predicate_mem (fact : AccessFact) : fact.predicate ∈ NODE_ACCESS_PREDS := by
  cases fact with
  | member | node | type => simp [NODE_ACCESS_PREDS, AccessFact.predicate]

/-- The predicates of node-level access are told apart. -/
theorem predicates_apart : BUILTIN_MEMBER_OF_PRED ≠ BUILTIN_HAS_ACCESS_PRED ∧
    BUILTIN_HAS_ACCESS_TYPE_PRED ≠ BUILTIN_MEMBER_OF_PRED ∧
      BUILTIN_HAS_ACCESS_TYPE_PRED ≠ BUILTIN_HAS_ACCESS_PRED := by
  decide

/-- A fact is the one of its own triple. -/
theorem same_triple {fact other : AccessFact} {edge : EdgeId} {window : BiTemporalRange}
    (subject : other.subject = fact.subject) (predicate : other.predicate = fact.predicate)
    (same : fact.same (other.triple edge window) = true) : other = fact := by
  have apart : BUILTIN_HAS_ACCESS_PRED ≠ BUILTIN_MEMBER_OF_PRED := by decide
  cases fact <;> cases other <;>
    simp_all [AccessFact.subject, AccessFact.predicate, AccessFact.same, AccessFact.triple]

/-- A triple of a fact is of that fact. -/
theorem same_self (fact : AccessFact) (edge : EdgeId) (window : BiTemporalRange) :
    fact.same (fact.triple edge window) = true := by
  cases fact <;> exact decide_eq_true rfl

/-- The triple of a fact over a window has that window. -/
theorem temporal_triple (fact : AccessFact) (edge : EdgeId) (window : BiTemporalRange) :
    (fact.triple edge window).temporal = window := by
  cases fact <;> rfl

/-- The triple of a fact has its subject and its predicate. -/
theorem parts_triple (fact : AccessFact) (edge : EdgeId) (window : BiTemporalRange) :
    (fact.triple edge window).subject = fact.subject ∧
      (fact.triple edge window).predicate = fact.predicate := by
  cases fact <;> exact ⟨rfl, rfl⟩

end AccessFact

namespace TripleStore

variable {store : TripleStore}

/-- The predicates of node-level access are no bare names. -/
theorem not_isBare_builtin {name : String} (builtin : name ∈ NODE_ACCESS_PREDS) :
    Vocabulary.isBare name = false := by
  have each : ∀ name ∈ NODE_ACCESS_PREDS, Vocabulary.isBare name = false := by decide
  exact each name builtin

/-- The predicates of node-level access are stored under their own names. -/
theorem canonicalName_builtin {name : String} (builtin : name ∈ NODE_ACCESS_PREDS) :
    store.canonicalName name = name := by
  simp [canonicalName, Vocabulary.canonicalPredicate, not_isBare_builtin builtin]

/-- A predicate of node-level access that is known has its name back. -/
theorem Spelled.rev_builtin (spelled : store.Spelled) {name : String} {p : PredId}
    (builtin : name ∈ NODE_ACCESS_PREDS) (known : store.predicateId name = some p) :
    store.rev p = some name := by
  rw [predicateId_eq, canonicalName_builtin builtin] at known
  exact spelled name p known

/-- Only the name itself is stored as the name of a predicate of node-level access. -/
theorem eq_of_canonicalName {name other : String} (builtin : name ∈ NODE_ACCESS_PREDS)
    (same : store.canonicalName other = store.canonicalName name) : other = name := by
  rw [canonicalName_builtin builtin] at same
  unfold canonicalName Vocabulary.canonicalPredicate at same
  have plain : ∀ name ∈ NODE_ACCESS_PREDS, ':' ∉ name.toList := by decide
  split_ifs at same
  · -- A name under the base has a scheme separator, which the predicates do not have.
    refine absurd ?_ (plain name builtin)
    rw [← same, String.toList_append]
    exact List.mem_append_left _ store.vocabulary.absolute
  · exact same
  · exact same

/-- Only the name itself has the identifier of a predicate of node-level access. -/
theorem Spelled.eq_of_predicateId (spelled : store.Spelled) {name other : String} {p : PredId}
    (builtin : name ∈ NODE_ACCESS_PREDS) (known : store.predicateId name = some p)
    (known' : store.predicateId other = some p) : other = name :=
  eq_of_canonicalName builtin (spelled.canonicalName_inj known' known)

/-- A version is the last one recorded of its quad. -/
def IsLast (store : TripleStore) (ids : QuadIds) (tt : Timestamp)
    (version : Version Timestamp Bytes) : Prop :=
  store.index.history ids tt = some version ∧
    ∀ other version', store.index.history ids other = some version' → other ≤ tt

/-- A quad has one last version. -/
theorem IsLast.unique {ids : QuadIds} {tt tt' : Timestamp} {version version' : Version Timestamp Bytes}
    (first : store.IsLast ids tt version) (second : store.IsLast ids tt' version') :
    tt = tt' ∧ version = version' := by
  obtain rfl := le_antisymm (second.2 tt version first.1) (first.2 tt' version' second.1)
  exact ⟨rfl, Option.some.inj (first.1.symm.trans second.1)⟩

/-- The last version governs when all start at the epoch. -/
theorem governs_iff_isLast (recorded : ∀ key bytes, store.index key = some bytes →
    key.tt ≤ store.committed) {ids : QuadIds} {now : Timestamp} (started : Timestamp.zero ≤ now)
    (epoch : ∀ tt version, store.index.history ids tt = some version →
      version.start = Timestamp.zero) {tt : Timestamp} {version : Version Timestamp Bytes} :
    (store.index.history ids).Governs store.committed now tt version ↔
      store.IsLast ids tt version := by
  have sees : ∀ {tt version}, store.index.history ids tt = some version →
      (store.index.history ids).Sees store.committed now tt version := fun {tt version} stored =>
    ⟨stored, recorded ⟨ids, tt⟩ _ (Index.history_eq_some.mp stored).1,
      (epoch tt version stored).symm ▸ started⟩
  constructor
  · intro governs
    refine ⟨governs.seen.stored, fun other version' stored => ?_⟩
    rcases governs.latest other version' (sees stored) with before | ⟨_, early⟩
    · rw [epoch _ _ stored, epoch _ _ governs.seen.stored] at before
      exact absurd before (lt_irrefl _)
    · exact early
  · rintro ⟨stored, latest⟩
    refine ⟨sees stored, fun other version' seen => Or.inr ⟨?_, latest other version' seen.stored⟩⟩
    rw [epoch _ _ stored, epoch _ _ seen.stored]

/-- A predicate whose identifier had versions before was known before. -/
theorem Intact.known_before (intact : store.Intact ext) {after : TripleStore}
    (names : ∀ name id, store.predicateId name = some id → after.predicateId name = some id)
    (spelled : after.Spelled) {name : String} (builtin : name ∈ NODE_ACCESS_PREDS) {key : QuadKey}
    {bytes : Bytes} (found : store.index key = some bytes)
    (known : after.predicateId name = some key.p) : store.predicateId name = some key.p := by
  obtain ⟨spelling, here⟩ := Option.isSome_iff_exists.mp (intact.named key bytes found)
  have own := intact.sound.keyed.named _ _ here
  rwa [spelled.eq_of_predicateId builtin known (names _ _ own)] at own

end TripleStore

namespace AccessHistory

variable {state : AccessHistory}

/-- A version reads back as the triple of a fact. -/
def Says (ext : External) (store : TripleStore) (fact : AccessFact) (ids : QuadIds) (tt : Timestamp)
    (bytes : Bytes) : Prop :=
  ∃ edge window, store.reconstruct ext ids.s ids.p ids.o tt bytes = .ok (fact.triple edge window)

/-- What holds of the history when no group is granted two types at a time. -/
structure Kept (ext : External) (state : AccessHistory) : Prop where
  /-- The store is intact. -/
  intact : state.store.Intact ext
  /-- Predicates have identifiers of their own. -/
  numbered : state.store.Numbered
  /-- Every known name is spelled by its identifier. -/
  spelled : state.store.Spelled
  /-- The clock has passed the epoch. -/
  clock : Timestamp.zero ≤ state.now
  /-- A group is granted one type at a time. -/
  single : ∀ group left right, .type group left ∈ state.facts → .type group right ∈ state.facts →
    left = right
  /-- Versions of the predicates are in the default graph and start at the epoch. -/
  epoch : ∀ name ∈ NODE_ACCESS_PREDS, ∀ key bytes, state.store.index key = some bytes →
    state.store.predicateId name = some key.p →
      key.g = GraphId.DEFAULT ∧ ∃ stop, validTime bytes = some (Timestamp.zero, stop)
  /-- The last version of every fact that holds has no end and says so. -/
  present : ∀ fact ∈ state.facts, ∃ ids tt version, fact.ids ext state.store = some ids ∧
    state.store.IsLast ids tt version ∧ version.stop = Timestamp.END_OF_TIME ∧
      Says ext state.store fact ids tt version.content
  /-- The last version of any other quad of the predicates has ended. -/
  rest : ∀ name ∈ NODE_ACCESS_PREDS, ∀ ids, state.store.predicateId name = some ids.p →
    ∀ tt version, state.store.IsLast ids tt version →
      version.stop ≤ state.now ∨ ∃ fact ∈ state.facts, fact.ids ext state.store = some ids

/-- What the reads of node-level access find: the triples of the facts that hold. -/
structure Finds (state : AccessHistory) (name : String) (triples : List Triple)
    (wanted : AccessFact → Prop) : Prop where
  /-- What has no end is of a fact that holds. -/
  only : ∀ triple ∈ triples, triple.temporal.vtEnd = Timestamp.END_OF_TIME →
    triple.temporal.vtStart = Timestamp.zero ∧ ∃ fact ∈ state.facts, fact.predicate = name ∧
      wanted fact ∧ ∃ edge window, triple = fact.triple edge window
  /-- The triple of every wanted fact that holds is found, without an end. -/
  all : ∀ fact ∈ state.facts, fact.predicate = name → wanted fact → ∃ edge window,
    window.vtEnd = Timestamp.END_OF_TIME ∧ fact.triple edge window ∈ triples

/-- A read of a predicate of node-level access finds the facts that hold. -/
theorem Kept.finds (kept : state.Kept ext) {name : String} (builtin : name ∈ NODE_ACCESS_PREDS)
    {now : Timestamp} (clock : state.now ≤ now) (running : now ≠ Timestamp.END_OF_TIME)
    {order : Order} {start : PredId → Bytes} {wanted : AccessFact → Prop}
    (short : ∀ p, (start p).length ≤ QUAD_TUPLE_LEN)
    (admits : ∀ p ids, ScanAdmits order (start p) ⟨state.store.committed, none, none⟩ .union ids →
      ids.p = p ∧ ∀ fact : AccessFact, fact.ids ext state.store = some ids → wanted fact)
    (covers : ∀ fact ids, wanted fact → fact.ids ext state.store = some ids →
      ScanAdmits order (start ids.p) ⟨state.store.committed, none, none⟩ .union ids) :
    ∃ triples, state.store.scanPredicate ext name order start ⟨state.store.committed, none, none⟩
      now = .ok triples ∧ state.Finds name triples wanted := by
  unfold TripleStore.scanPredicate
  cases known : state.store.predicateId name with
  | none =>
    refine ⟨[], rfl, fun _ member => absurd member List.not_mem_nil, fun fact member same _ => ?_⟩
    obtain ⟨ids, _, _, own, _⟩ := kept.present fact member
    rw [AccessFact.ids, same, known] at own
    cases own
  | some p =>
    have point : (⟨state.store.committed, none, none⟩ : ReadAt).vtAsOf.getD now = now := rfl
    have started := le_trans kept.clock clock
    -- Versions of the predicate start at the epoch, so the last one governs.
    have governs : ∀ {ids tt version}, ids.p = p →
        ((state.store.index.history ids).Governs state.store.committed now tt version ↔
          state.store.IsLast ids tt version) := by
      intro ids tt version own
      refine TripleStore.governs_iff_isLast kept.intact.sound.recorded started
        fun other version' stored => ?_
      obtain ⟨found, window⟩ := Index.history_eq_some.mp stored
      obtain ⟨_, stop, read⟩ := kept.epoch name builtin ⟨ids, other⟩ _ found (by rw [known, own])
      exact (Prod.mk.inj (Option.some.inj (window.symm.trans read))).1
    have within : ∀ ids, ScanAdmits order (start p) ⟨state.store.committed, none, none⟩ .union ids →
        state.store.Shows state.store.committed now ids → ids.g = GraphId.DEFAULT := by
      intro ids under shows
      obtain ⟨own, _⟩ := admits p ids under
      obtain ⟨tt, version, governing, _⟩ := shows
      exact (kept.epoch name builtin ⟨ids, tt⟩ _ (Index.history_eq_some.mp governing.seen.stored).1
        (by rw [known, own])).1
    obtain ⟨quads, scanned, result⟩ := kept.intact.scanUnion_within (short p) within
    rw [point] at result
    refine ⟨_, scanned, fun triple member endless => ?_, fun fact member same want => ?_⟩
    · obtain ⟨quad, inside, rfl⟩ := List.mem_map.mp member
      obtain ⟨under, _⟩ := (result.mem_iff quad.1).mp (List.mem_map.mpr ⟨quad, inside, rfl⟩)
      obtain ⟨own, wants⟩ := admits p quad.1 under
      obtain ⟨tt, version, governing, covering, window, rebuilt⟩ := result.read quad inside
      have last := (governs own).mp governing
      rw [window] at endless ⊢
      have begun : version.start = Timestamp.zero := by
        obtain ⟨found, window⟩ := Index.history_eq_some.mp last.1
        obtain ⟨_, stop, read⟩ := kept.epoch name builtin ⟨quad.1, tt⟩ _ found (by rw [known, own])
        exact (Prod.mk.inj (Option.some.inj (window.symm.trans read))).1
      refine ⟨begun, ?_⟩
      rcases kept.rest name builtin quad.1 (by rw [known, own]) tt version last with
        ended | ⟨fact, holds, here⟩
      · exact absurd (lt_of_lt_of_le covering (le_trans ended clock)) (lt_irrefl _)
      · obtain ⟨ids, tt', version', here', last', _, edge, during, told⟩ := kept.present fact holds
        obtain rfl := Option.some.inj (here'.symm.trans here)
        obtain ⟨rfl, rfl⟩ := last'.unique last
        refine ⟨fact, holds, ?_, wants fact here, edge, during,
          Except.ok.inj (rebuilt.symm.trans told)⟩
        obtain ⟨q, found, same⟩ := Option.map_eq_some_iff.mp here
        refine kept.spelled.eq_of_predicateId builtin known ?_
        rw [found, ← own, ← same]
    · obtain ⟨ids, tt, version, here, last, endless, edge, during, told⟩ := kept.present fact member
      have own : ids.p = p := by
        obtain ⟨q, found, rfl⟩ := Option.map_eq_some_iff.mp here
        rw [same, known] at found
        exact (Option.some.inj found).symm
      have governing := (governs own).mpr last
      have shows : state.store.Shows state.store.committed now ids := by
        refine ⟨tt, version, governing, ?_, fun least => ?_⟩
        · rw [endless]
          exact lt_of_le_of_ne (Timestamp.le_END_OF_TIME now) running
        · obtain ⟨found, window⟩ := Index.history_eq_some.mp last.1
          obtain ⟨_, stop, read⟩ := kept.epoch name builtin ⟨ids, tt⟩ _ found (by rw [known, own])
          have begun := (Prod.mk.inj (Option.some.inj (window.symm.trans read))).1
          exact absurd (begun.symm.trans least.1) (by decide)
      obtain ⟨quad, inside, rfl⟩ := List.mem_map.mp
        ((result.mem_iff ids).mpr ⟨own ▸ covers fact ids want here, shows⟩)
      obtain ⟨tt', version', governing', _, window, rebuilt⟩ := result.read quad inside
      obtain ⟨rfl, rfl⟩ := governing'.unique governing
      have read := Except.ok.inj (rebuilt.symm.trans told)
      rw [read, AccessFact.temporal_triple] at window
      refine ⟨edge, during, by rw [window]; exact endless, ?_⟩
      rw [← read]
      exact List.mem_map.mpr ⟨quad, inside, rfl⟩

/-- A read by predicate finds all facts of the predicate. -/
theorem Kept.scanByPredicate (kept : state.Kept ext) {name : String}
    (builtin : name ∈ NODE_ACCESS_PREDS) {now : Timestamp} (clock : state.now ≤ now)
    (running : now ≠ Timestamp.END_OF_TIME) :
    ∃ triples, state.store.scanByPredicateAt ext name ⟨state.store.committed, none, none⟩ now =
      .ok triples ∧ state.Finds name triples (fun _ => True) := by
  refine kept.finds builtin clock running (fun p => Order.keyPrefix_short ..)
    (fun p ids under => ⟨?_, fun _ _ => trivial⟩) (fun fact ids _ here => ⟨?_, rfl, rfl⟩)
  · refine (Order.matches_of_keyPrefix (fun slot given => ?_) under.under).p p rfl
    cases slot <;> simp_all [Bound.bytes, Order.slots, List.takeWhile]
  · exact TripleStore.keyPrefix_covers ⟨by simp, by simp, by simp, by simp⟩ _

/-- A read by subject and predicate finds the facts of both. -/
theorem Kept.scanBySubjectPredicate (kept : state.Kept ext) {subject : NodeId} {name : String}
    (builtin : name ∈ NODE_ACCESS_PREDS) {now : Timestamp} (clock : state.now ≤ now)
    (running : now ≠ Timestamp.END_OF_TIME) :
    ∃ triples, state.store.scanBySubjectPredicateAt ext subject name
      ⟨state.store.committed, none, none⟩ now = .ok triples ∧
        state.Finds name triples (fun fact => fact.subject = subject) := by
  have subject_of : ∀ {fact : AccessFact} {ids}, fact.ids ext state.store = some ids →
      ids.s = fact.subject := by
    intro fact ids here
    obtain ⟨p, _, rfl⟩ := Option.map_eq_some_iff.mp here
    rfl
  refine kept.finds builtin clock running (fun p => Order.keyPrefix_short ..)
    (fun p ids under => ?_) (fun fact ids wanted here => ⟨?_, rfl, rfl⟩)
  · have agrees := Order.matches_of_keyPrefix (fun slot given => by
      cases slot <;> simp_all [Bound.bytes, Order.slots, List.takeWhile]) under.under
    exact ⟨agrees.p p rfl, fun fact here => (subject_of here).symm.trans (agrees.s subject rfl)⟩
  · refine TripleStore.keyPrefix_covers ⟨?_, by simp, by simp, by simp⟩ _
    rintro _ ⟨⟩
    exact (subject_of here).trans wanted

/-- The endless relations that are found are the facts of a predicate. -/
theorem Finds.mem_endlessRelations {name : String} {triples : List Triple}
    (found : state.Finds name triples (fun _ => True)) {fact : NodeId → NodeId → AccessFact}
    (triple : ∀ s o edge window, (fact s o).triple edge window = .relation s name o edge window)
    (predicate : ∀ s o, (fact s o).predicate = name)
    (own : ∀ other : AccessFact, other.predicate = name → ∃ s o, other = fact s o) {s o : NodeId} :
    (o, s) ∈ TripleStore.endlessRelations triples ↔ fact s o ∈ state.facts := by
  constructor
  · intro member
    obtain ⟨read, inside, made⟩ := List.mem_filterMap.mp member
    cases read with
    | relation subject predicate object edge window =>
      simp only at made
      split_ifs at made with endless
      cases made
      obtain ⟨_, other, holds, same, _, edge', window', equal⟩ := found.only _ inside endless
      obtain ⟨s', o', rfl⟩ := own other same
      rw [triple] at equal
      obtain ⟨rfl, _, rfl, _⟩ := Triple.relation.inj equal
      exact holds
    | property | edgeProperty | edgeRelation => cases made
  · intro holds
    obtain ⟨edge, window, endless, inside⟩ := found.all _ holds (predicate s o) trivial
    refine List.mem_filterMap.mpr ⟨_, inside, ?_⟩
    rw [triple]
    simp only [endless, if_true]

/-- The endless texts that are found are the types that are granted. -/
theorem Finds.mem_endlessTexts {triples : List Triple}
    (found : state.Finds BUILTIN_HAS_ACCESS_TYPE_PRED triples (fun _ => True)) {group : NodeId}
    {name : String} : (group, name) ∈ TripleStore.endlessTexts triples ↔
      .type group name ∈ state.facts := by
  constructor
  · intro member
    obtain ⟨read, inside, made⟩ := List.mem_filterMap.mp member
    split at made
    · split_ifs at made with endless
      cases made
      obtain ⟨_, other, holds, same, _, edge', window', equal⟩ := found.only _ inside endless
      cases other with
      | type group' name' =>
        obtain ⟨rfl, _, value, _⟩ := Triple.property.inj equal
        obtain rfl := Value.text.inj value
        exact holds
      | member | node => cases equal
    · cases made
  · intro holds
    obtain ⟨edge, window, endless, inside⟩ := found.all _ holds rfl trivial
    refine List.mem_filterMap.mpr ⟨_, inside, ?_⟩
    simp only [AccessFact.triple, endless, if_true]

/-- The instances of some types are those of each. -/
theorem mem_instancesOf {store : TripleStore} {prefixes : String → Option String} {index : TypeIndex}
    {names : List String} {node : NodeId} :
    node ∈ index.instancesOf (store.classNodes ext prefixes names) ↔
      ∃ name ∈ names, node ∈ index.instancesOf (store.classNodes ext prefixes [name]) := by
  simp only [TypeIndex.instancesOf, TripleStore.classNodes, List.mem_flatten, List.mem_filterMap,
    List.mem_map]
  constructor
  · rintro ⟨items, ⟨_, ⟨name, member, rfl⟩, found⟩, inside⟩
    exact ⟨name, member, items, ⟨_, ⟨name, List.mem_singleton_self _, rfl⟩, found⟩, inside⟩
  · rintro ⟨name, member, items, ⟨_, ⟨other, only, rfl⟩, found⟩, inside⟩
    rw [List.mem_singleton.mp only] at found
    exact ⟨items, ⟨_, ⟨name, member, rfl⟩, found⟩, inside⟩

/-- What the cache gives every user, by the memberships and grants that have no end. -/
theorem buildAccessCache_spec {store : TripleStore} {prefixes : String → Option String}
    {index : TypeIndex} {now : Timestamp} {members grants types : List Triple}
    (read : store.scanByPredicateAt ext BUILTIN_MEMBER_OF_PRED ⟨store.committed, none, none⟩ now =
      .ok members)
    (read' : store.scanByPredicateAt ext BUILTIN_HAS_ACCESS_PRED ⟨store.committed, none, none⟩ now =
      .ok grants)
    (read'' : store.scanByPredicateAt ext BUILTIN_HAS_ACCESS_TYPE_PRED ⟨store.committed, none, none⟩
      now = .ok types) :
    ∃ cache, store.buildAccessCache ext prefixes index now = .ok cache ∧ ∀ user : NodeId,
      ((Latest.lookup user.uuid.display cache).isSome ↔
        ∃ group, (group, user) ∈ TripleStore.endlessRelations members) ∧
      ∀ node, node ∈ (Latest.lookup user.uuid.display cache).getD [] ↔
        ∃ group, (group, user) ∈ TripleStore.endlessRelations members ∧
          ((node, group) ∈ TripleStore.endlessRelations grants ∨
            ∃ name, (group, name) ∈ TripleStore.endlessTexts types ∧
              node ∈ index.instancesOf (store.classNodes ext prefixes [name])) := by
  refine ⟨_, Except.bind_eq_ok.mpr ⟨members, read, Except.bind_eq_ok.mpr ⟨grants, read',
    Except.bind_eq_ok.mpr ⟨types, read'', rfl⟩⟩⟩, fun user => ?_⟩
  have users : ∀ group, (∃ users, (group, users) ∈ Latest.gather
      ((TripleStore.endlessRelations members).map fun pair => (pair.1, [pair.2])) ∧ user ∈ users) ↔
        (group, user) ∈ TripleStore.endlessRelations members := by
    intro group
    rw [Latest.exists_mem_gather]
    simp
  constructor
  · rw [Latest.isSome_lookup_gather]
    simp only [List.mem_flatMap, List.mem_map, Prod.exists, Prod.mk.injEq]
    constructor
    · rintro ⟨items, group, members, gathered, other, inside, same, _⟩
      obtain rfl : other = user := NodeId.ext (Uuid.display_inj same)
      exact ⟨group, (users group).mp ⟨members, gathered, inside⟩⟩
    · rintro ⟨group, member⟩
      obtain ⟨members, gathered, inside⟩ := (users group).mpr member
      exact ⟨_, group, members, gathered, user, inside, rfl, rfl⟩
  intro node
  have direct : ∀ group, node ∈ (Latest.lookup group (Latest.gather
      ((TripleStore.endlessRelations grants).map fun pair => (pair.2, [pair.1])))).getD [] ↔
        (node, group) ∈ TripleStore.endlessRelations grants := by
    intro group
    rw [Latest.mem_gather]
    simp
  have typed : ∀ group, node ∈ ((Latest.lookup group (Latest.gather
      ((TripleStore.endlessTexts types).map fun pair => (pair.1, [pair.2])))).map fun names =>
        index.instancesOf (store.classNodes ext prefixes names)).getD [] ↔
      ∃ name, (group, name) ∈ TripleStore.endlessTexts types ∧
        node ∈ index.instancesOf (store.classNodes ext prefixes [name]) := by
    intro group
    have granted : ∀ name, name ∈ (Latest.lookup group (Latest.gather
        ((TripleStore.endlessTexts types).map fun pair => (pair.1, [pair.2])))).getD [] ↔
          (group, name) ∈ TripleStore.endlessTexts types := by
      intro name
      rw [Latest.mem_gather]
      simp
    simp only [← granted]
    cases Latest.lookup group (Latest.gather
      ((TripleStore.endlessTexts types).map fun pair => (pair.1, [pair.2]))) with
    | none => simp
    | some names => exact mem_instancesOf
  rw [Latest.mem_gather]
  simp only [List.mem_flatMap, List.mem_map, Prod.exists, Prod.mk.injEq]
  constructor
  · rintro ⟨items, ⟨group, members, gathered, other, inside, same, rfl⟩, reached⟩
    obtain rfl : other = user := NodeId.ext (Uuid.display_inj same)
    refine ⟨group, (users group).mp ⟨members, gathered, inside⟩, ?_⟩
    rcases List.mem_append.mp reached with own | instance_
    · exact Or.inl ((direct group).mp own)
    · exact Or.inr ((typed group).mp instance_)
  · rintro ⟨group, member, granted⟩
    obtain ⟨members, gathered, inside⟩ := (users group).mpr member
    refine ⟨_, ⟨group, members, gathered, user, inside, rfl, rfl⟩, List.mem_append.mpr ?_⟩
    exact granted.imp (direct group).mpr (typed group).mpr

/-- A cache that is built from what holds gives every user what its groups are granted. -/
theorem Kept.addsUp (kept : state.Kept ext) : state.AddsUp ext := by
  intro prefixes index now clock running
  obtain ⟨members, read, members_⟩ := @Kept.scanByPredicate ext state kept BUILTIN_MEMBER_OF_PRED
    (by decide) now clock running
  obtain ⟨grants, read', grants_⟩ := @Kept.scanByPredicate ext state kept BUILTIN_HAS_ACCESS_PRED
    (by decide) now clock running
  obtain ⟨types, read'', types_⟩ := @Kept.scanByPredicate ext state kept BUILTIN_HAS_ACCESS_TYPE_PRED
    (by decide) now clock running
  have apart := AccessFact.predicates_apart
  have member_iff : ∀ {user group}, (group, user) ∈ TripleStore.endlessRelations members ↔
      .member user group ∈ state.facts := fun {user group} =>
    @Finds.mem_endlessRelations _ _ _ members_ .member (fun _ _ _ _ => rfl) (fun _ _ => rfl)
      (fun other same => by
        cases other with
        | member user group => exact ⟨user, group, rfl⟩
        | node => exact absurd same.symm apart.1
        | type => exact absurd same apart.2.1) user group
  have node_iff : ∀ {group target}, (target, group) ∈ TripleStore.endlessRelations grants ↔
      .node group target ∈ state.facts := fun {group target} =>
    @Finds.mem_endlessRelations _ _ _ grants_ .node (fun _ _ _ _ => rfl) (fun _ _ => rfl)
      (fun other same => by
        cases other with
        | member => exact absurd same apart.1
        | node group target => exact ⟨group, target, rfl⟩
        | type => exact absurd same apart.2.2) group target
  obtain ⟨cache, built, gives⟩ := @buildAccessCache_spec ext state.store prefixes index now _ _ _ read
    read' read''
  refine ⟨cache, built, fun user node => ?_⟩
  rw [(gives user).2 node]
  simp only [member_iff, node_iff, types_.mem_endlessTexts]
  rfl

/-- What a commit writes of a predicate tells which facts hold after. -/
structure Tells (ext : External) (store : TripleStore) (facts : List AccessFact) (now : Timestamp)
    (quad : StagedQuad) : Prop where
  /-- It is in the default graph. -/
  graph : quad.key.g = GraphId.DEFAULT
  /-- It starts at the epoch, and has no end exactly if a fact of its quad holds. -/
  window : ∃ stop, validTime quad.value = some (Timestamp.zero, stop) ∧
    (stop = Timestamp.END_OF_TIME ∧
        (∃ fact ∈ facts, fact.ids ext store = some quad.key.toQuadIds) ∨
      stop ≤ now ∧ ∀ fact ∈ facts, fact.ids ext store ≠ some quad.key.toQuadIds)
  /-- It says the facts of its quad that hold. -/
  told : ∀ fact ∈ facts, fact.ids ext store = some quad.key.toQuadIds →
    Says ext store fact quad.key.toQuadIds quad.key.tt quad.value

variable {store after : TripleStore}

/-- A fact keeps its quad where more names are known. -/
theorem ids_mono (names : ∀ name id, store.predicateId name = some id →
    after.predicateId name = some id) {fact : AccessFact} {ids : QuadIds}
    (own : fact.ids ext store = some ids) : fact.ids ext after = some ids := by
  obtain ⟨p, known, rfl⟩ := Option.map_eq_some_iff.mp own
  exact Option.map_eq_some_iff.mpr ⟨p, names _ _ known, rfl⟩

/-- Facts that hold together are told apart by their quads. -/
theorem eq_of_ids (spelled : store.Spelled) {facts : List AccessFact}
    (single : ∀ group left right, .type group left ∈ facts → .type group right ∈ facts →
      left = right) {left right : AccessFact} (first : left ∈ facts) (second : right ∈ facts)
    {ids : QuadIds} (own : left.ids ext store = some ids) (own' : right.ids ext store = some ids) :
    left = right := by
  obtain ⟨p, known, rfl⟩ := Option.map_eq_some_iff.mp own
  obtain ⟨q, known', same⟩ := Option.map_eq_some_iff.mp own'
  obtain ⟨subject, rfl, object, _⟩ := QuadIds.mk.inj same
  have predicate := spelled.eq_of_predicateId right.predicate_mem known' known
  have apart := AccessFact.predicates_apart
  cases left with
  | member user group =>
    cases right with
    | member user' group' =>
      obtain rfl : user' = user := subject
      obtain rfl : group' = group := object
      rfl
    | node => exact absurd predicate apart.1
    | type => exact absurd predicate.symm apart.2.1
  | node group target =>
    cases right with
    | member => exact absurd predicate.symm apart.1
    | node group' target' =>
      obtain rfl : group' = group := subject
      obtain rfl : target' = target := object
      rfl
    | type => exact absurd predicate.symm apart.2.2
  | type group name =>
    cases right with
    | member => exact absurd predicate apart.2.1
    | node => exact absurd predicate apart.2.2
    | type group' name' =>
      obtain rfl : group' = group := subject
      rw [single _ name name' first second]

/-- A commit that tells which facts hold after keeps what holds of the history. -/
theorem Kept.commit (kept : state.Kept ext) {tx : Transaction} {now : Timestamp}
    (clock : state.now ≤ now) (room : state.store.committed ≠ Timestamp.END_OF_TIME)
    (stable : ∀ w ∈ tx.writes, w.Stable ext) (apart : ∀ w ∈ tx.writes, state.store.Apart ext w)
    (done : (state.store.commit ext tx now).1 = after) {fresh : Nat}
    (keeps : state.store.KeepsNames after fresh) (spelled : after.Spelled) {facts : List AccessFact}
    (single : ∀ group left right, .type group left ∈ facts → .type group right ∈ facts →
      left = right)
    (tells : ∀ quad ∈ state.store.commitQuads ext tx now, ∀ name ∈ NODE_ACCESS_PREDS,
      after.predicateId name = some quad.key.p → Tells ext after facts now quad)
    (new : ∀ fact ∈ facts, fact ∈ state.facts ∨ ∃ quad ∈ state.store.commitQuads ext tx now,
      fact.ids ext after = some quad.key.toQuadIds)
    (gone : ∀ fact ∈ state.facts, fact ∉ facts → ∃ quad ∈ state.store.commitQuads ext tx now,
      fact.ids ext after = some quad.key.toQuadIds) :
    Kept ext ⟨after, now, facts⟩ := by
  have intact := kept.intact.commit room stable now
  have history := fun ids => kept.intact.history_commit room stable done ids
  have index := @TripleStore.index_commit ext _ kept.intact.sound.keyed.holds tx now
  have stamped := (@TripleStore.committed_commit ext _ room tx now).2
  have recorded := kept.intact.sound.recorded
  rw [done] at intact index stamped
  have names : ∀ name id, state.store.predicateId name = some id →
      after.predicateId name = some id := by
    intro name id known
    rw [← done]
    exact TripleStore.predicateId_commit known
  have before : ∀ name ∈ NODE_ACCESS_PREDS, ∀ key bytes, state.store.index key = some bytes →
      after.predicateId name = some key.p → state.store.predicateId name = some key.p :=
    fun name builtin key bytes => kept.intact.known_before names spelled builtin
  -- The version a commit adds is the last one, since it is dated after all others.
  have last : ∀ {ids} {start stop : Timestamp} {bytes : Bytes}, state.store.committed < after.committed →
      after.index.history ids =
        (state.store.index.history ids).put after.committed ⟨start, stop, bytes⟩ →
      after.IsLast ids after.committed ⟨start, stop, bytes⟩ := by
    intro ids start stop bytes later record
    refine ⟨by rw [record, History.put_self], fun other version' stored => ?_⟩
    by_cases same : other = after.committed
    · exact le_of_eq same
    · rw [record, History.put_of_ne same] at stored
      exact le_trans (recorded ⟨ids, other⟩ _ (Index.history_eq_some.mp stored).1) (le_of_lt later)
  have dated : ∀ quad ∈ state.store.commitQuads ext tx now,
      quad.key = ⟨quad.key.toQuadIds, after.committed⟩ := by
    intro quad member
    rw [← stamped quad member]
  refine ⟨intact, keeps.numbered, spelled, le_trans kept.clock clock, single,
    fun name builtin key bytes found known => ?_, fun fact holds => ?_,
    fun name builtin ids known tt version final => ?_⟩
  · have stored : after.index key = some bytes := found
    rw [index] at stored
    rcases Index.putAll_eq_some stored with old | added
    · exact kept.epoch name builtin key bytes old (before name builtin key bytes old known)
    · obtain ⟨graph, ⟨stop, window, _⟩, _⟩ := tells _ added name builtin known
      exact ⟨graph, stop, window⟩
  · -- The version of a fact that holds is one the commit adds, or the one from before.
    have told : ∀ ids, fact.ids ext after = some ids →
        (∃ quad ∈ state.store.commitQuads ext tx now, quad.key.toQuadIds = ids) →
        ∃ tt version, after.IsLast ids tt version ∧ version.stop = Timestamp.END_OF_TIME ∧
          Says ext after fact ids tt version.content := by
      rintro ids own ⟨quad', member', same'⟩
      rcases history ids with ⟨nothing, _⟩ | ⟨quad, member, same, later, start, stop, window, record⟩
      · exact absurd same' (nothing quad' member')
      · have own' := own
        obtain ⟨p, known, made⟩ := Option.map_eq_some_iff.mp own'
        have predicate : after.predicateId fact.predicate = some quad.key.p := by
          rw [known, same, ← made]
        obtain ⟨_, ⟨stop', window', ends⟩, tell⟩ :=
          tells quad member fact.predicate fact.predicate_mem predicate
        obtain ⟨rfl, rfl⟩ := Prod.mk.inj (Option.some.inj (window.symm.trans window'))
        have said := tell fact holds (by rw [own, same])
        rw [same, dated quad member] at said
        refine ⟨_, _, last later record, ?_, said⟩
        rcases ends with ⟨endless, _⟩ | ⟨_, other⟩
        · exact endless
        · exact absurd (by rw [own, same]) (other fact holds)
    rcases new fact holds with old | ⟨quad, member, own⟩
    · obtain ⟨ids, tt, version, here, final, endless, edge, window, said⟩ := kept.present fact old
      have own := ids_mono names here
      by_cases written : ∃ quad ∈ state.store.commitQuads ext tx now, quad.key.toQuadIds = ids
      · obtain ⟨tt', version', final', endless', said'⟩ := told ids own written
        exact ⟨ids, tt', version', own, final', endless', said'⟩
      · rcases history ids with ⟨_, same⟩ | ⟨quad, member, same, _⟩
        · refine ⟨ids, tt, version, own, ?_, endless, edge, window, ?_⟩
          · rw [TripleStore.IsLast, same]
            exact final
          · rw [← done] at keeps ⊢
            exact kept.intact.reconstruct_commit stable apart keeps said
        · exact absurd ⟨quad, member, same⟩ written
    · obtain ⟨tt, version, final, endless, said⟩ := told _ own ⟨quad, member, rfl⟩
      exact ⟨_, tt, version, own, final, endless, said⟩
  · have final_ : after.IsLast ids tt version := final
    rcases history ids with ⟨nothing, same⟩ | ⟨quad, member, same, later, start, stop, window, record⟩
    · rw [TripleStore.IsLast, same] at final_
      have found := (Index.history_eq_some.mp final_.1).1
      rcases kept.rest name builtin ids (before name builtin ⟨ids, tt⟩ _ found known) tt version
        final_ with ended | ⟨fact, old, own⟩
      · exact Or.inl (le_trans ended clock)
      · by_cases holds : fact ∈ facts
        · exact Or.inr ⟨fact, holds, ids_mono names own⟩
        · obtain ⟨quad, member, own'⟩ := gone fact old holds
          exact absurd (Option.some.inj (own'.symm.trans (ids_mono names own))) (nothing quad member)
    · obtain ⟨rfl, rfl⟩ := final_.unique (last later record)
      obtain ⟨_, ⟨stop', window', ends⟩, _⟩ := tells quad member name builtin (by rw [same]; exact known)
      obtain ⟨_, rfl⟩ := Prod.mk.inj (Option.some.inj (window.symm.trans window'))
      rcases ends with ⟨_, fact, holds, own⟩ | ⟨ended, _⟩
      · exact Or.inr ⟨fact, holds, by rw [own, same]⟩
      · exact Or.inl ended

/-- When a transaction with some writes is committed without running out of what is numbered. -/
structure Writable (ext : External) (store : TripleStore) (writes : List PendingWrite) : Prop where
  /-- The counter has not reached the end of time. -/
  room : store.committed ≠ Timestamp.END_OF_TIME
  /-- There are identifiers left for their predicates. -/
  named : store.nextPredId.toNat + writes.length < 2 ^ 32
  /-- Their values read back as themselves. -/
  stable : ∀ w ∈ writes, w.Stable ext
  /-- No other value is stored out of line under the hash of one of theirs. -/
  apart : ∀ w ∈ writes, store.Apart ext w

/-- A transaction that fails keeps what holds of the history. -/
theorem Kept.commit_error (kept : state.Kept ext) {tx : Transaction} {now : Timestamp}
    (clock : state.now ≤ now) (writable : Writable ext state.store tx.writes)
    {problem : StorageError} (done : state.store.commit ext tx now = (after, .error problem)) :
    Kept ext ⟨after, now, state.facts⟩ := by
  have nothing := TripleStore.commitQuads_of_error done
  have keeps := @TripleStore.keepsNames_commit ext _ kept.numbered tx writable.named now
  have spelled := @TripleStore.Spelled.commit ext _ kept.spelled kept.numbered tx writable.named now
  rw [done] at keeps spelled
  refine kept.commit clock writable.room writable.stable writable.apart (by rw [done]) keeps spelled
    kept.single ?_ (fun fact holds => Or.inl holds) (fun fact holds other => absurd holds other)
  rw [nothing]
  exact fun quad member => absurd member List.not_mem_nil

/-- What asserting a fact writes: its version, and the ends of other types of the same group. -/
theorem Kept.written (kept : state.Kept ext) {fact : AccessFact} {edge : EdgeId}
    {now time : Timestamp} {tx : Transaction}
    (only : tx.writes = [fact.write edge ⟨Timestamp.zero, Timestamp.END_OF_TIME, now⟩])
    (writable : Writable ext state.store tx.writes)
    (done : state.store.commit ext tx now = (after, .ok time)) :
    ∃ own ∈ state.store.commitQuads ext tx now, fact.ids ext after = some own.key.toQuadIds ∧
      validTime own.value = some (Timestamp.zero, Timestamp.END_OF_TIME) ∧
      Says ext after fact own.key.toQuadIds own.key.tt own.value ∧
      ∀ other ∈ state.store.commitQuads ext tx now, other = own ∨
        validTime other.value = some (Timestamp.zero, Timestamp.zero) ∧
          other.key.g = GraphId.DEFAULT ∧ other.key.s = own.key.s ∧ other.key.o ≠ own.key.o ∧
            other.key.p = own.key.p ∧ ∃ group name, fact = .type group name := by
  obtain ⟨middle, p, staging, limit, family, known, staged, quads⟩ :=
    TripleStore.commit_single only done
  have first : (state.store.commit ext tx now).1 = after := by rw [done]
  have spelled := @TripleStore.Spelled.commit ext _ kept.spelled kept.numbered tx writable.named now
  have intact := kept.intact.commit writable.room writable.stable now
  have history := fun ids => kept.intact.history_commit writable.room writable.stable first ids
  have loads := fun w only stable apart => @TripleStore.Intact.loadBlob_written ext _ kept.intact w
    tx only stable apart now
  have logs := kept.intact.stored.logs kept.intact.sound.keyed.holds
    (fun w member => readsBack_of_stable (writable.stable w member)) now
  have names : ∀ name id, state.store.predicateId name = some id →
      after.predicateId name = some id := by
    intro name id known
    rw [← first]
    exact TripleStore.predicateId_commit known
  rw [first] at spelled intact
  have predicate : after.predicateId fact.predicate = some p := by
    rw [← (fact.parts_triple edge _).2]
    exact known
  have own : fact.ids ext after = some ⟨fact.subject, p, fact.object ext, GraphId.DEFAULT⟩ := by
    rw [AccessFact.ids, predicate]
    rfl
  have named : after.rev p = some fact.predicate := spelled.rev_builtin fact.predicate_mem predicate
  cases fact with
  | member user group =>
    cases staged
    rw [quads]
    refine ⟨_, List.mem_singleton_self _, own, validTime_encodeRelation .., ?_,
      fun other member => Or.inl (List.mem_singleton.mp member)⟩
    obtain ⟨during, rebuilt⟩ := TripleStore.reconstruct_relation named edge _ _
    exact ⟨_, during, rebuilt⟩
  | node group target =>
    cases staged
    rw [quads]
    refine ⟨_, List.mem_singleton_self _, own, validTime_encodeRelation .., ?_,
      fun other member => Or.inl (List.mem_singleton.mp member)⟩
    obtain ⟨during, rebuilt⟩ := TripleStore.reconstruct_relation named edge _ _
    exact ⟨_, during, rebuilt⟩
  | type group name =>
    obtain ⟨blobs, bytes, closing, encoded, _, closed, quads', _⟩ :=
      TripleStore.stageWrite_property staged
    have window := TripleStore.validTime_encodePropertyEntry encoded
    have closes : ∀ other ∈ closing, other.key.o ≠ valueObject ext (.text name) :=
      fun other => TripleStore.stageClosings_ne closed
    rw [quads'] at quads
    have inside : ⟨⟨⟨group, p, valueObject ext (.text name), GraphId.DEFAULT⟩, after.committed⟩,
        bytes⟩ ∈ state.store.commitQuads ext tx now := by
      rw [quads]
      simp
    have apart : ∀ other ∈ state.store.commitQuads ext tx now, other ∈ closing ∨
        other = ⟨⟨⟨group, p, valueObject ext (.text name), GraphId.DEFAULT⟩, after.committed⟩,
          bytes⟩ := by
      intro other member
      rw [quads] at member
      simpa [Staging.none, AccessFact.write] using member
    refine ⟨_, inside, own, window, ?_, fun other member => ?_⟩
    · -- The version is stored, so a value out of line is.
      have stored : after.index ⟨⟨group, p, valueObject ext (.text name), GraphId.DEFAULT⟩,
          after.committed⟩ = some bytes := by
        rcases history ⟨group, p, valueObject ext (.text name), GraphId.DEFAULT⟩ with
          ⟨nothing, _⟩ | ⟨quad, member, same, _, start, stop, _, record⟩
        · exact absurd rfl (nothing _ inside)
        · rcases apart quad member with closes' | rfl
          · exact absurd (by rw [same]) (closes quad closes')
          · have put := congrFun record after.committed
            rw [History.put_self] at put
            exact (Index.history_eq_some.mp put).1
      have single : (AccessFact.type group name).write edge
          ⟨Timestamp.zero, Timestamp.END_OF_TIME, now⟩ ∈ tx.writes := by
        rw [only]
        exact List.mem_singleton_self _
      have loaded : IsRef bytes →
          after.loadBlob ext (valueObject ext (.text name)) = .ok (.text name) := by
        intro ref
        have put := intact.stored.resolves _ _ stored ref
        rw [← first] at put ⊢
        exact loads _ only (writable.stable _ single) (writable.apart _ single) rfl put
      obtain ⟨during, rebuilt⟩ := TripleStore.reconstruct_property named
        (writable.stable _ single _ _ _ _ rfl) encoded (logs.quads _ inside).1 loaded after.committed
      exact ⟨edge, during, rebuilt⟩
    · rcases apart other member with closes' | rfl
      · -- What is closed is a type from before, and it started at the epoch.
        obtain ⟨before, ended, key, old | ⟨time, found⟩⟩ := TripleStore.mem_stageClosings
          ((kept.intact.sound.keyed.holds .gspo).congr family) closed closes'
        · exact absurd old List.not_mem_nil
        · have earlier := kept.intact.known_before names spelled
            (AccessFact.type group name).predicate_mem found predicate
          obtain ⟨_, stop, read⟩ :=
            kept.epoch _ (AccessFact.type group name).predicate_mem _ _ found earlier
          obtain ⟨_, ended', read', _⟩ := withVtEnd_of_validTime read Timestamp.zero
          obtain rfl := Except.ok.inj (ended'.symm.trans ended)
          rw [key]
          exact Or.inr ⟨read', rfl, rfl, closes other closes', rfl, group, name, rfl⟩
      · exact Or.inl rfl

/-- Asserting a fact keeps what holds of the history when no other type is granted to its group. -/
theorem Kept.assert (kept : state.Kept ext) {fact : AccessFact} {edge : EdgeId} {now : Timestamp}
    (clock : state.now ≤ now) (writable : Writable ext state.store
      [fact.write edge ⟨Timestamp.zero, Timestamp.END_OF_TIME, now⟩])
    (only : ∀ group name, fact = .type group name →
      ∀ other, .type group other ∈ state.facts → other = name) :
    (state.afterAsserting (.ok fact) now
      (state.store.assertFact ext fact edge now)).Kept ext := by
  let tx : Transaction :=
    state.store.begin.insertIn (fact.triple edge ⟨Timestamp.zero, Timestamp.END_OF_TIME, now⟩)
      GraphId.DEFAULT .auto
  have writes : tx.writes = [fact.write edge ⟨Timestamp.zero, Timestamp.END_OF_TIME, now⟩] := rfl
  have writable_ : Writable ext state.store tx.writes := writable
  have keeps := @TripleStore.keepsNames_commit ext _ kept.numbered tx writable_.named now
  have spelled := @TripleStore.Spelled.commit ext _ kept.spelled kept.numbered tx writable_.named now
  unfold TripleStore.assertFact
  cases done : state.store.commit ext tx now with
  | mk after result =>
    rw [done] at keeps spelled
    cases result with
    | error problem =>
      have failed := kept.commit_error clock writable_ done
      simp only [tx] at done
      simp only [done]
      exact failed
    | ok time =>
      obtain ⟨own, member, ids, window, says_, others⟩ := kept.written writes writable_ done
      have single : ∀ group left right, .type group left ∈ fact :: state.facts →
          .type group right ∈ fact :: state.facts → left = right := by
        intro group left right first second
        rcases List.mem_cons.mp first with rfl | first <;>
          rcases List.mem_cons.mp second with same | second
        · cases same
          rfl
        · exact (only group left rfl right second).symm
        · exact only group right same.symm left first
        · exact kept.single group left right first second
      have result := kept.commit clock writable_.room writable_.stable writable_.apart
        (by rw [done]) keeps spelled single (fun quad written name builtin known => ?_)
        (fun other holds => ?_) (fun other holds gone => absurd (List.mem_cons_of_mem _ holds) gone)
      · simp only [tx] at done
        simp only [done]
        exact result
      · rcases others quad written with rfl | ⟨ended, graph, subject, object, pred, group, type, rfl⟩
        · refine ⟨?_, ⟨_, window, Or.inl ⟨rfl, fact, List.mem_cons_self, ids⟩⟩, ?_⟩
          · obtain ⟨p, _, equal⟩ := Option.map_eq_some_iff.mp ids
            rw [← equal]
          · intro other holds same
            rw [eq_of_ids spelled single holds List.mem_cons_self same ids]
            exact says_
        · -- An ended type is not the one that is granted, and the group has no other.
          have none_ : ∀ other ∈ AccessFact.type group type :: state.facts,
              other.ids ext after ≠ some quad.key.toQuadIds := by
            intro other holds same
            obtain ⟨p, known', equal⟩ := Option.map_eq_some_iff.mp same
            obtain ⟨q, known'', equal'⟩ := Option.map_eq_some_iff.mp ids
            obtain rfl : p = quad.key.p := congrArg QuadIds.p equal
            obtain rfl : q = own.key.p := congrArg QuadIds.p equal'
            have predicate := spelled.eq_of_predicateId other.predicate_mem known'
              (pred.symm ▸ known'')
            cases other with
            | member => exact absurd predicate AccessFact.predicates_apart.2.1
            | node => exact absurd predicate AccessFact.predicates_apart.2.2
            | type group' type' =>
              obtain rfl : group' = group := by
                have left : group' = quad.key.s := congrArg QuadIds.s equal
                have right : group = own.key.s := congrArg QuadIds.s equal'
                rw [left, right, subject]
              rw [single _ _ _ holds List.mem_cons_self] at equal
              refine object ?_
              have left : valueObject ext (.text type) = quad.key.o := congrArg QuadIds.o equal
              have right : valueObject ext (.text type) = own.key.o := congrArg QuadIds.o equal'
              rw [← left, ← right]
          exact ⟨graph, ⟨_, ended, Or.inr ⟨le_trans kept.clock clock, none_⟩⟩,
            fun other holds same => absurd same (none_ other holds)⟩
      · rcases List.mem_cons.mp holds with rfl | before
        · exact Or.inr ⟨own, member, ids⟩
        · exact Or.inl before

/-- Another transaction keeps what holds of the history. -/
theorem Kept.other (kept : state.Kept ext) {tx : Transaction} {now : Timestamp}
    (clock : state.now ≤ now) (writable : Writable ext state.store tx.writes)
    (none_ : ∀ w ∈ tx.writes, w.triple.predicate ∉ NODE_ACCESS_PREDS) :
    Kept ext ⟨(state.store.commit ext tx now).1, now, state.facts⟩ := by
  have spelled := @TripleStore.Spelled.commit ext _ kept.spelled kept.numbered tx writable.named now
  refine kept.commit clock writable.room writable.stable writable.apart rfl
    (TripleStore.keepsNames_commit kept.numbered writable.named now) spelled kept.single
    (fun quad member name builtin known => ?_) (fun fact holds => Or.inl holds)
    (fun fact holds gone => absurd holds gone)
  obtain ⟨w, written, _, known', _⟩ :=
    TripleStore.slot_commitQuads kept.intact.sound.keyed.holds tx now quad member
  have same := spelled.eq_of_predicateId builtin known known'
  exact absurd (same ▸ builtin) (none_ w written)

/-- What is said of the value of a write of a fact is said of all its writes. -/
theorem Writable.write {store : TripleStore} {fact : AccessFact} {edge other : EdgeId}
    {window during : BiTemporalRange} (writable : Writable ext store [fact.write edge window]) :
    (fact.write other during).Stable ext ∧ store.Apart ext (fact.write other during) := by
  have stable := writable.stable _ (List.mem_singleton_self _)
  have apart := writable.apart _ (List.mem_singleton_self _)
  cases fact with
  | member | node =>
    exact ⟨fun _ _ _ _ same => Triple.noConfusion same, fun _ _ _ _ same => Triple.noConfusion same⟩
  | type group name =>
    refine ⟨fun _ _ _ _ same => ?_, fun _ _ _ _ same => ?_⟩
    · cases same
      exact stable _ _ _ _ rfl
    · cases same
      exact apart _ _ _ _ rfl

/-- The closings of a fact are writes of it that end now. -/
theorem mem_factClosings {fact : AccessFact} {edges : Nat → EdgeId} {now : Timestamp}
    {existing : List Triple} {triple : Triple}
    (member : triple ∈ TripleStore.factClosings fact edges now existing) :
    ∃ n, ∃ found ∈ existing, fact.same found = true ∧
      found.temporal.vtEnd = Timestamp.END_OF_TIME ∧
        triple = fact.triple (edges n) ⟨found.temporal.vtStart, now, now⟩ := by
  unfold TripleStore.factClosings at member
  obtain ⟨n, inside, rfl⟩ := List.mem_mapIdx.mp member
  obtain ⟨found, kind⟩ := List.mem_filter.mp (List.getElem_mem inside)
  rw [Bool.and_eq_true, decide_eq_true_iff] at kind
  exact ⟨n, _, found, kind.1, kind.2, rfl⟩

/-- The transaction of a retraction writes the closings. -/
theorem writes_retraction (tx : Transaction) (triples : List Triple) :
    (triples.foldl (fun (tx : Transaction) triple => tx.insertIn triple GraphId.DEFAULT .auto)
      tx).writes = tx.writes ++ triples.map fun triple => ⟨triple, GraphId.DEFAULT, .auto⟩ := by
  induction triples generalizing tx with
  | nil => simp
  | cons triple rest ih =>
    rw [List.foldl_cons, ih]
    simp [Transaction.insertIn]

/-- Retracting a fact keeps what holds of the history. -/
theorem Kept.retract (kept : state.Kept ext) {fact : AccessFact} {edges : Nat → EdgeId}
    {now : Timestamp} (clock : state.now ≤ now) (running : now ≠ Timestamp.END_OF_TIME)
    (writable : Writable ext state.store [fact.write (edges 0) ⟨Timestamp.zero, now, now⟩]) :
    (state.afterRetracting (.ok fact) now
      (state.store.retractFact ext fact edges now)).Kept ext := by
  obtain ⟨existing, read, finds⟩ :=
    @Kept.scanBySubjectPredicate ext state kept fact.subject _ fact.predicate_mem now clock running
  let closings := TripleStore.factClosings fact edges now existing
  let tx : Transaction := closings.foldl
    (fun (tx : Transaction) triple => tx.insertIn triple GraphId.DEFAULT .auto) state.store.begin
  have writes : tx.writes = closings.map fun triple => ⟨triple, GraphId.DEFAULT, .auto⟩ :=
    writes_retraction _ _
  -- What is closed is the triple of the fact, which holds then.
  have each : ∀ w ∈ tx.writes, fact ∈ state.facts ∧
      ∃ edge, w = fact.write edge ⟨Timestamp.zero, now, now⟩ := by
    intro w member
    rw [writes] at member
    obtain ⟨triple, inside, rfl⟩ := List.mem_map.mp member
    obtain ⟨n, found, listed, same, endless, rfl⟩ := mem_factClosings inside
    obtain ⟨started, other, holds, predicate, subject, edge, window, rfl⟩ :=
      finds.only found listed endless
    obtain rfl := AccessFact.same_triple subject predicate same
    exact ⟨holds, edges n, by rw [started]; rfl⟩
  have stable : ∀ w ∈ tx.writes, w.Stable ext := by
    intro w member
    obtain ⟨_, edge, rfl⟩ := each w member
    exact writable.write.1
  have apart : ∀ w ∈ tx.writes, state.store.Apart ext w := by
    intro w member
    obtain ⟨_, edge, rfl⟩ := each w member
    exact writable.write.2
  have adds : ∀ w ∈ tx.writes, w.Adds := by
    intro w member
    obtain ⟨_, edge, rfl⟩ := each w member
    cases fact with
    | member | node => exact WriteMode.noConfusion
    | type group name =>
      simp [PendingWrite.Adds, AccessFact.write, AccessFact.triple, WriteMode.resolve, running]
  have known : ∀ w ∈ tx.writes, (state.store.predicateId w.triple.predicate).isSome := by
    intro w member
    obtain ⟨holds, edge, rfl⟩ := each w member
    obtain ⟨ids, _, _, own, _⟩ := kept.present fact holds
    obtain ⟨p, found, _⟩ := Option.map_eq_some_iff.mp own
    rw [AccessFact.write, (fact.parts_triple edge _).2, found]
    rfl
  have names := @TripleStore.names_commit_known ext _ tx now known
  have spelled : (state.store.commit ext tx now).1.Spelled := by
    intro name p found
    rw [names.1] at found
    rw [names.2.1]
    exact kept.spelled name p found
  have keeps : state.store.KeepsNames (state.store.commit ext tx now).1 0 := by
    refine ⟨fun p name found => ?_, fun p name found => ?_, ?_⟩
    · rw [names.2.1] at found
      rw [names.2.2]
      exact kept.numbered p name found
    · rw [names.2.1]
      exact found
    · rw [names.2.2]
      exact le_refl _
  unfold TripleStore.retractFact
  cases done : state.store.commit ext tx now with
  | mk after result =>
    rw [done] at spelled keeps
    cases result with
    | error problem =>
      have nothing := TripleStore.commitQuads_of_error done
      have failed := kept.commit clock writable.room stable apart (by rw [done]) keeps spelled
        kept.single (by rw [nothing]; exact fun quad member => absurd member List.not_mem_nil)
        (fun fact holds => Or.inl holds) (fun fact holds other => absurd holds other)
      simp only [tx, closings] at done
      simp only [read, done]
      exact failed
    | ok time =>
      have records := (TripleStore.recorded_commit adds done).1
      have whole : tx.writes.filter TripleStore.ofQuad = tx.writes := by
        refine List.filter_eq_self.mpr fun w member => ?_
        obtain ⟨_, edge, rfl⟩ := each w member
        cases fact <;> rfl
      rw [whole] at records
      have ended : ∀ quad ∈ state.store.commitQuads ext tx now, fact ∈ state.facts ∧
          fact.ids ext after = some quad.key.toQuadIds ∧
            validTime quad.value = some (Timestamp.zero, now) := by
        intro quad member
        obtain ⟨w, written, record⟩ := TripleStore.exists_records records member
        obtain ⟨holds, edge, rfl⟩ := each w written
        refine ⟨holds, by rw [← AccessFact.quadOf_write]; exact record.ids, ?_⟩
        rw [record.window, AccessFact.write, AccessFact.temporal_triple]
      have result : Kept ext
          ⟨after, now, state.facts.filter fun other => decide (other ≠ fact)⟩ := by
        refine kept.commit clock writable.room stable apart (by rw [done]) keeps spelled
          (fun group left right first second => kept.single group left right
            (List.mem_filter.mp first).1 (List.mem_filter.mp second).1)
          (fun quad written name builtin known => ?_)
          (fun other holds => Or.inl (List.mem_filter.mp holds).1) (fun other holds gone => ?_)
        · obtain ⟨holds, own, window⟩ := ended quad written
          have none_ : ∀ other ∈ state.facts.filter (fun other => decide (other ≠ fact)),
              other.ids ext after ≠ some quad.key.toQuadIds := by
            intro other left same
            obtain ⟨before, kind⟩ := List.mem_filter.mp left
            exact of_decide_eq_true kind (eq_of_ids spelled kept.single before holds same own)
          refine ⟨?_, ⟨now, window, Or.inr ⟨le_refl _, none_⟩⟩,
            fun other left same => absurd same (none_ other left)⟩
          obtain ⟨p, _, equal⟩ := Option.map_eq_some_iff.mp own
          rw [← equal]
        · -- The fact that is gone was found, and closed.
          obtain rfl : other = fact := by
            by_contra apart
            exact gone (List.mem_filter.mpr ⟨holds, decide_eq_true apart⟩)
          obtain ⟨edge, window, endless, listed⟩ := finds.all other holds rfl rfl
          have closing : closings ≠ [] := by
            intro nothing
            have blank := List.mapIdx_eq_nil_iff.mp nothing
            refine List.filter_eq_nil_iff.mp blank _ listed ?_
            rw [AccessFact.temporal_triple]
            simp [endless, AccessFact.same_self]
          have some_ : state.store.commitQuads ext tx now ≠ [] := by
            intro nothing
            rw [nothing] at records
            have blank := List.forall₂_nil_right_iff.mp records
            rw [writes] at blank
            exact closing (List.map_eq_nil_iff.mp blank)
          obtain ⟨quad, member⟩ := List.exists_mem_of_ne_nil _ some_
          exact ⟨quad, member, (ended quad member).2.1⟩
      simp only [tx, closings] at done
      simp only [read, done]
      exact result

/-- Time that passes keeps what holds of the history. -/
theorem Kept.later (kept : state.Kept ext) {now : Timestamp} (clock : state.now ≤ now) :
    Kept ext { state with now := now } where
  intact := kept.intact
  numbered := kept.numbered
  spelled := kept.spelled
  clock := le_trans kept.clock clock
  single := kept.single
  epoch := kept.epoch
  present := kept.present
  rest name builtin ids known tt version last :=
    (kept.rest name builtin ids known tt version last).imp_left fun ended => le_trans ended clock

/-- What holds of the history of a new store. -/
theorem kept_fresh (ext : External) (inlineMax : Nat) (vocabulary : Vocabulary) (canonical : Bool) :
    (fresh inlineMax vocabulary canonical).Kept ext := by
  refine ⟨TripleStore.intact_configured ext inlineMax vocabulary canonical, fun _ _ => nofun,
    fun _ _ => nofun, le_refl _, fun _ _ _ held => absurd held List.not_mem_nil,
    fun name _ key bytes _ known => ?_, fun _ held => absurd held List.not_mem_nil,
    fun name _ ids known => ?_⟩
  · cases (TripleStore.predicateId_configured ..).symm.trans known
  · cases (TripleStore.predicateId_configured ..).symm.trans known

/--
When a step grants no second type to a group that is granted one, writes without running out of what is
numbered, and revokes before the end of time.
-/
def Singly (ext : External) (state : AccessHistory) : AccessStep → Prop
  | .grant _ request edge now => ∀ fact, request.fact = .ok fact →
      Writable ext state.store [fact.write edge ⟨Timestamp.zero, Timestamp.END_OF_TIME, now⟩] ∧
        ∀ group name, fact = .type group name →
          ∀ other, .type group other ∈ state.facts → other = name
  | .revoke _ request edges now => ∀ fact, request.fact = .ok fact →
      now ≠ Timestamp.END_OF_TIME ∧
        Writable ext state.store [fact.write (edges 0) ⟨Timestamp.zero, now, now⟩]
  | .addUser _ request edge now => ∀ fact, request.fact = .ok fact →
      Writable ext state.store [fact.write edge ⟨Timestamp.zero, Timestamp.END_OF_TIME, now⟩]
  | .other tx _ => Writable ext state.store tx.writes

/-- Such a step keeps what holds of the history. -/
theorem Kept.next (kept : state.Kept ext) {step : AccessStep} {after : AccessHistory}
    (singly : Singly ext state step) (taken : AccessHistory.next ext state step = some after) :
    after.Kept ext := by
  unfold AccessHistory.next at taken
  split_ifs at taken with back
  have clock : state.now ≤ time step := not_lt.mp back
  cases step with
  | grant access request edge now =>
    cases taken
    cases parsed : request.fact with
    | error refused =>
      unfold TripleStore.grantAccess
      rw [parsed]
      cases access <;> exact kept.later clock
    | ok fact =>
      cases access with
      | none =>
        have result := kept.assert clock (singly fact parsed).1 (singly fact parsed).2
        unfold TripleStore.grantAccess
        rw [parsed]
        exact result
      | some user => exact kept.later clock
  | revoke access request edges now =>
    cases taken
    cases parsed : request.fact with
    | error refused =>
      unfold TripleStore.revokeAccess
      rw [parsed]
      cases access <;> exact kept.later clock
    | ok fact =>
      cases access with
      | none =>
        have result := kept.retract clock (singly fact parsed).1 (singly fact parsed).2
        unfold TripleStore.revokeAccess
        rw [parsed]
        exact result
      | some user => exact kept.later clock
  | addUser access request edge now =>
    cases taken
    cases parsed : request.fact with
    | error refused =>
      unfold TripleStore.addUserToGroup
      rw [parsed]
      cases access <;> exact kept.later clock
    | ok fact =>
      have member : ∀ group name, fact ≠ .type group name := by
        intro group name same
        obtain ⟨user, _, rest⟩ := Except.bind_eq_ok.mp parsed
        obtain ⟨group', _, made⟩ := Except.bind_eq_ok.mp rest
        cases made
        cases same
      cases access with
      | none =>
        have result := kept.assert clock (singly fact parsed)
          fun group name same => absurd same (member group name)
        unfold TripleStore.addUserToGroup
        rw [parsed]
        exact result
      | some user => exact kept.later clock
  | other tx now =>
    simp only at taken
    split_ifs at taken with writes
    cases taken
    refine kept.other clock singly fun w member builtin => writes ?_
    exact List.any_eq_true.mpr ⟨w, member, List.contains_iff_mem.mpr builtin⟩

/-- In every run that grants a group one type at a time, the cache gives exactly what is granted. -/
theorem addsUp_of_run {inlineMax : Nat} {vocabulary : Vocabulary} {canonical : Bool}
    (run : Runs (AccessHistory.next ext) (Singly ext) (fresh inlineMax vocabulary canonical) state) :
    state.AddsUp ext :=
  -- The invariant also says which versions the store has of the predicates of node-level access.
  (run.invariant (fun _ _ _ kept singly taken => kept.next singly taken)
    (kept_fresh ext inlineMax vocabulary canonical)).addsUp

/-- Third-party code that writes a text as JSON and reads it back. -/
def textJson : External where
  xxh3_128 bytes := bytes.length
  parseUuid _ := none
  jsonToVec
    | .text content =>
      .ok (utf8 "\x7b\"type\":\"Text\",\"v\":\"" ++ utf8 content ++ utf8 "\"\x7d")
    | _ => .error "not a text"
  jsonFromSlice bytes :=
    if bytes = utf8 "\x7b\"type\":\"Text\",\"v\":\"Company\"\x7d" then .ok (.text "Company")
    else if bytes = utf8 "\x7b\"type\":\"Text\",\"v\":\"Person\"\x7d" then
      .ok (.text "Person")
    else .error "not a name"

/-- The user of a concrete run. -/
def someUser : NodeId := NodeId.ofByte 1

/-- The group of a concrete run. -/
def someGroup : NodeId := NodeId.ofByte 2

/-- The instances of two types. -/
def someInstances : TypeIndex :=
  ⟨[(iriToNodeId textJson (Vocabulary.default.expand (fun _ => none) "Company"), [NodeId.ofByte 3]),
    (iriToNodeId textJson (Vocabulary.default.expand (fun _ => none) "Person"), [NodeId.ofByte 4])]⟩

/-- A step that adds the user to the group. -/
def joins : AccessStep :=
  .addUser none ⟨someUser.uuid.bytes, someGroup.uuid.bytes⟩ ⟨(NodeId.ofByte 9).uuid⟩ (Timestamp.wrap 5)

/-- A step that grants a type to the group. -/
def grants (name : String) : AccessStep :=
  .grant none ⟨someGroup.uuid.bytes, some (.typeName name)⟩ ⟨(NodeId.ofByte 9).uuid⟩ (Timestamp.wrap 6)

/-- A new store. -/
def opened : AccessHistory :=
  fresh DEFAULT_INLINE_VALUE_MAX_BYTES Vocabulary.default true

/-- The state after the user is added to the group. -/
def joined : AccessHistory :=
  opened.afterAsserting (.ok (.member someUser someGroup)) (Timestamp.wrap 5)
    (opened.store.addUserToGroup textJson none ⟨someUser.uuid.bytes, someGroup.uuid.bytes⟩
      ⟨(NodeId.ofByte 9).uuid⟩ (Timestamp.wrap 5))

/-- It is one step away. -/
theorem next_opened : AccessHistory.next textJson opened joins = some joined := rfl

/-- The nodes the user of a concrete run may access by the cache. -/
def reached (state : AccessHistory) : Option (List NodeId) :=
  (state.store.buildAccessCache textJson (fun _ => none) someInstances (Timestamp.wrap 10)).toOption.map
    fun cache => (Latest.lookup someUser.uuid.display cache).getD []

/-- A user has access to the instances of the one type its group is granted. -/
theorem addsUp_of_run_grant : ∃ state : AccessHistory, state.AddsUp textJson ∧
    state.reached = some [NodeId.ofByte 3] := by
  have first : Singly textJson opened joins := by
    intro fact parsed
    cases parsed
    exact ⟨by decide +kernel, by decide +kernel,
      fun w member => by rw [List.mem_singleton.mp member]; exact fun _ _ _ _ => nofun,
      fun w member => by rw [List.mem_singleton.mp member]; exact fun _ _ _ _ => nofun⟩
  have second : Singly textJson joined (grants "Company") := by
    intro fact parsed
    cases parsed
    refine ⟨⟨by decide +kernel, by decide +kernel, fun w member => ?_, fun w member => ?_⟩, ?_⟩
    · rw [List.mem_singleton.mp member]
      rintro _ _ _ _ ⟨⟩ json written
      cases written
      decide +kernel
    · -- Nothing is stored out of line yet.
      rw [List.mem_singleton.mp member]
      rintro _ _ _ _ ⟨⟩ held loaded
      have nothing : (joined.store.loadBlob textJson
          (valueObject textJson (.text "Company"))).toOption = none := by decide +kernel
      rw [loaded] at nothing
      cases nothing
    · rintro group name ⟨⟩ other holds
      have only : joined.facts = [.member someUser someGroup] := by decide +kernel
      rw [only] at holds
      cases List.mem_singleton.mp holds
  have done : (AccessHistory.next textJson joined (grants "Company")).map reached =
      some (some [NodeId.ofByte 3]) := by decide +kernel
  obtain ⟨state, taken, seen⟩ := Option.map_eq_some_iff.mp done
  exact ⟨state, addsUp_of_run (.step _ (.step _ (.done _) first next_opened) second taken), seen⟩

/-- A type that is granted after another one withdraws the other one. -/
theorem grants_not_addsUp : ∃ state,
    Runs (AccessHistory.next textJson) (fun _ _ => True) opened state ∧
    state.facts = [.type someGroup "Person", .type someGroup "Company", .member someUser someGroup] ∧
    state.reached = some [NodeId.ofByte 4] ∧ ¬ state.AddsUp textJson := by
  have done : (Runs.stepAll (AccessHistory.next textJson) (fun _ _ => True) opened
      [joins, grants "Company", grants "Person"]).map (fun state => (state.facts, state.reached,
        state.now, someInstances.instancesOf
          (state.store.classNodes textJson (fun _ => none) ["Company"]))) =
      some ([.type someGroup "Person", .type someGroup "Company", .member someUser someGroup],
        some [NodeId.ofByte 4], Timestamp.wrap 6, [NodeId.ofByte 3]) := by
    decide +kernel
  obtain ⟨state, taken, seen⟩ := Option.map_eq_some_iff.mp done
  simp only [Prod.mk.injEq] at seen
  obtain ⟨facts, reach, clock, instances⟩ := seen
  refine ⟨state, Runs.of_stepAll taken, facts, reach, fun addsUp => ?_⟩
  obtain ⟨cache, built, gives⟩ := addsUp (fun _ => none) someInstances (Timestamp.wrap 10)
    (by rw [clock]; decide) (by decide)
  -- The group is still granted the first type, whose instance the cache no longer has.
  have may : state.MayAccess textJson (fun _ => none) someInstances someUser (NodeId.ofByte 3) := by
    refine ⟨someGroup, by simp [facts], Or.inr ⟨"Company", by simp [facts], ?_⟩⟩
    rw [instances]
    exact List.mem_singleton_self _
  have inside := (gives someUser (NodeId.ofByte 3)).mpr may
  rw [reached, built] at reach
  have other : (Latest.lookup someUser.uuid.display cache).getD [] = [NodeId.ofByte 4] :=
    Option.some.inj reach
  rw [other] at inside
  revert inside
  decide +kernel

end AccessHistory

end Polargraph
