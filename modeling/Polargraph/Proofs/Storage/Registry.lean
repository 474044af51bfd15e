import Polargraph.Proofs.Storage.Replacing
import Polargraph.Proofs.Storage.TypeHierarchy

/-! When the type registry keeps the type hierarchy acyclic and its cache true to the store. -/

namespace Polargraph

variable {ext : External} {serde : SchemaSerde} {store after : TripleStore}

/-- The predicates of schemas are no bare names. -/
theorem not_isBare_schemaPredicate (typeName : String) :
    Vocabulary.isBare (schemaPredicate typeName) = false := by
  have hidden : Vocabulary.isInternal (schemaPredicate typeName) = true := by
    simp only [Vocabulary.isInternal, schemaPredicate, String.toList_append, Bool.or_eq_true]
    exact Or.inl (by simp [SCHEMA_PREDICATE_PREFIX, List.isPrefixOf])
  simp [Vocabulary.isBare, hidden]

/-- The predicates of schemas are stored under their own names. -/
theorem canonicalName_schemaPredicate (store : TripleStore) (typeName : String) :
    store.canonicalName (schemaPredicate typeName) = schemaPredicate typeName := by
  simp [TripleStore.canonicalName, Vocabulary.canonicalPredicate, not_isBare_schemaPredicate]

/-- The type of the predicate of a schema is the type of the schema. -/
theorem typeNameFromPredicate_schemaPredicate (typeName : String) :
    typeNameFromPredicate (schemaPredicate typeName) = some typeName := by
  unfold typeNameFromPredicate schemaPredicate
  rw [String.toList_append, if_pos (List.isPrefixOf_iff_prefix.mpr (List.prefix_append _ _)),
    List.drop_left, String.ofList_toList]

/-- Predicates of the schemas of different types are different. -/
theorem schemaPredicate_inj {left right : String}
    (same : schemaPredicate left = schemaPredicate right) : left = right := by
  have both := congrArg typeNameFromPredicate same
  rw [typeNameFromPredicate_schemaPredicate, typeNameFromPredicate_schemaPredicate] at both
  exact Option.some.inj both

/-- The identifier of the predicate of a schema has its name back. -/
theorem rev_schemaPredicate (spelled : store.Spelled) {typeName : String} {p : PredId}
    (known : store.predicateId (schemaPredicate typeName) = some p) :
    store.rev p = some (schemaPredicate typeName) := by
  rw [TripleStore.predicateId_eq, canonicalName_schemaPredicate] at known
  exact spelled _ p known

/-- Types whose schemas have the predicate of one identifier are the same. -/
theorem typeName_inj (spelled : store.Spelled) {left right : String} {p : PredId}
    (first : store.predicateId (schemaPredicate left) = some p)
    (second : store.predicateId (schemaPredicate right) = some p) : left = right := by
  have same := spelled.canonicalName_inj first second
  rw [canonicalName_schemaPredicate, canonicalName_schemaPredicate] at same
  exact schemaPredicate_inj same

/-- Where the current value of the schema of a type is stored. -/
def schemaObject (ext : External) (serde : SchemaSerde) (definition : NodeTypeDef) : NodeId :=
  valueObject ext (.text (serde.toString definition.wire))

/-- The text of the schema of a type reads back as the schema. -/
def SchemaSerde.Rereads (serde : SchemaSerde) (definition : NodeTypeDef) : Prop :=
  serde.fromStr (serde.toString definition.wire) = some definition.wire

/-- The triple of a schema is read as its type. -/
theorem readSchema_schema {definition : NodeTypeDef} (rereads : serde.Rereads definition) (subject : NodeId) (during : BiTemporalRange) :
    TypeCache.readSchema serde (.property subject (schemaPredicate definition.typeName)
      (.text (serde.toString definition.wire)) during) = some definition := by
  rw [SchemaSerde.Rereads] at rereads
  simp only [TypeCache.readSchema, typeNameFromPredicate_schemaPredicate, rereads]
  rfl

namespace TypeRegistry

variable {state : TypeRegistry}

/-- The type of a name as it was stored last: by a registration in progress, or one before. -/
def latest (state : TypeRegistry) : String → Option NodeTypeDef :=
  assigned (fun name => Latest.lookup name state.cache)
    (state.stored.map fun definition => (definition.typeName, definition))

/-- What holds of a registry whose registrations are published in order. -/
structure Kept (ext : External) (serde : SchemaSerde) (state : TypeRegistry) : Prop where
  /-- The store is intact. -/
  intact : state.store.Intact ext
  /-- Predicates have identifiers of their own. -/
  numbered : state.store.Numbered
  /-- Every known name is spelled by its identifier. -/
  spelled : state.store.Spelled
  /-- The clock and the counter have passed the epoch. -/
  clock : Timestamp.zero ≤ state.now ∧ Timestamp.zero ≤ state.store.committed
  /-- The cached types have ranks. -/
  ranked : Ranked state.cache.Parent
  /-- All versions are of schemas. -/
  own : ∀ key bytes, state.store.index key = some bytes → key.s = SCHEMA_REGISTRY_NODE ∧
    key.g = GraphId.DEFAULT ∧
      ∃ typeName, state.store.predicateId (schemaPredicate typeName) = some key.p
  /-- A type that was stored has its own name and reads back, and its predicate is known. -/
  named : ∀ typeName definition, state.latest typeName = some definition →
    definition.typeName = typeName ∧ serde.Rereads definition ∧
      (state.store.predicateId (schemaPredicate typeName)).isSome
  /-- The one current schema of a type is the one that was stored last. -/
  single : ∀ typeName p, state.store.predicateId (schemaPredicate typeName) = some p →
    state.store.SingleValued SCHEMA_REGISTRY_NODE p GraphId.DEFAULT state.now
      ((state.latest typeName).map (schemaObject ext serde))
  /-- The last version of the current schema reads back as it. -/
  told : ∀ typeName definition p tt version, state.latest typeName = some definition →
    state.store.predicateId (schemaPredicate typeName) = some p →
    state.store.IsLast ⟨SCHEMA_REGISTRY_NODE, p, schemaObject ext serde definition,
      GraphId.DEFAULT⟩ tt version →
    ∃ during, state.store.reconstruct ext SCHEMA_REGISTRY_NODE p (schemaObject ext serde definition)
      tt version.content = .ok (.property SCHEMA_REGISTRY_NODE (schemaPredicate typeName)
        (.text (serde.toString definition.wire)) during)

/-- The types that are read from the store are the ones stored last. -/
theorem Kept.loads (kept : state.Kept ext serde) {now : Timestamp}
    (clock : state.now ≤ now) (running : now ≠ Timestamp.END_OF_TIME) :
    ∃ cache, state.store.loadTypes ext serde now = .ok cache ∧
      ∀ name, Latest.lookup name cache = state.latest name := by
  have recorded := kept.intact.sound.recorded
  have point : (⟨state.store.committed, none, none⟩ : ReadAt).vtAsOf.getD now = now := rfl
  have within : ∀ ids, ScanAdmits .spog
      (Order.spog.keyPrefix (some SCHEMA_REGISTRY_NODE) none none none)
      ⟨state.store.committed, none, none⟩ .union ids →
      state.store.Shows state.store.committed now ids → ids.g = GraphId.DEFAULT := by
    rintro ids _ ⟨tt, version, governs, _⟩
    exact (kept.own ⟨ids, tt⟩ _ (Index.history_eq_some.mp governs.seen.stored).1).2.1
  obtain ⟨quads, scanned, result⟩ := kept.intact.scanUnion_within (Order.keyPrefix_short ..) within
  rw [point] at result
  -- What is shown of the registry node is the current schema of each type.
  have shown : ∀ definition, definition ∈ (quads.map Prod.snd).filterMap
      (TypeCache.readSchema serde) ↔ state.latest definition.typeName = some definition := by
    intro definition
    rw [List.mem_filterMap]
    constructor
    · rintro ⟨_, inside, read⟩
      obtain ⟨quad, member, rfl⟩ := List.mem_map.mp inside
      obtain ⟨_, shows⟩ := (result.mem_iff quad.1).mp (List.mem_map.mpr ⟨quad, member, rfl⟩)
      obtain ⟨tt, version, governs, _, _, rebuilt⟩ := result.read quad member
      obtain ⟨⟨s, p, o, g⟩, triple⟩ := quad
      dsimp only at shows governs rebuilt read
      obtain ⟨rfl, rfl, typeName, known⟩ :=
        kept.own ⟨⟨s, p, o, g⟩, tt⟩ _ (Index.history_eq_some.mp governs.seen.stored).1
      have single := kept.single typeName p known
      obtain ⟨other, stored, rfl⟩ := Option.map_eq_some_iff.mp
        ((single.shows_iff recorded clock running).mp shows)
      obtain ⟨during, told⟩ := kept.told typeName other p tt version stored known
        ((single.governs_iff recorded clock).mp governs)
      obtain rfl := Except.ok.inj (told.symm.trans rebuilt)
      obtain ⟨rfl, rereads, _⟩ := kept.named typeName other stored
      rw [readSchema_schema rereads] at read
      obtain rfl := Option.some.inj read
      exact stored
    · intro stored
      obtain ⟨_, rereads, present⟩ := kept.named _ _ stored
      obtain ⟨p, known⟩ := Option.isSome_iff_exists.mp present
      have single := kept.single _ p known
      have shows := (single.shows_iff recorded clock running).mpr
        (Option.map_eq_some_iff.mpr ⟨definition, stored, rfl⟩)
      have covers : Order.spog.keyPrefix (some SCHEMA_REGISTRY_NODE) none none none <+:
          Order.spog.tuple ⟨SCHEMA_REGISTRY_NODE, p, schemaObject ext serde definition,
            GraphId.DEFAULT⟩ :=
        TripleStore.keyPrefix_covers ⟨by simp, by simp, by simp, by simp⟩ _
      obtain ⟨quad, member, same⟩ := List.mem_map.mp
        ((result.mem_iff _).mpr ⟨⟨covers, rfl, rfl⟩, shows⟩)
      obtain ⟨tt, version, governs, _, _, rebuilt⟩ := result.read quad member
      rw [same] at governs rebuilt
      obtain ⟨during, told⟩ := kept.told _ definition p tt version stored known
        ((single.governs_iff recorded clock).mp governs)
      refine ⟨quad.2, List.mem_map.mpr ⟨quad, member, rfl⟩, ?_⟩
      rw [← Except.ok.inj (told.symm.trans rebuilt)]
      exact readSchema_schema rereads _ during
  refine ⟨_, Except.bind_eq_ok.mpr ⟨_, scanned, rfl⟩, fun name => ?_⟩
  rw [congrFun (TypeCache.lookup_foldl_insert _ []) name]
  have pairs : ∀ definition, (name, definition) ∈ ((quads.map Prod.snd).filterMap
      (TypeCache.readSchema serde)).map (fun definition => (definition.typeName, definition)) ↔
        state.latest name = some definition := by
    intro definition
    rw [List.mem_map]
    constructor
    · rintro ⟨other, member, same⟩
      obtain ⟨rfl, rfl⟩ := Prod.mk.inj same
      exact (shown other).mp member
    · intro stored
      obtain ⟨rfl, _⟩ := kept.named name definition stored
      exact ⟨definition, (shown definition).mpr stored, rfl⟩
  cases stored : state.latest name with
  | none =>
    refine (assigned_of_forall_ne _ fun pair member same => ?_).trans rfl
    obtain ⟨other, definition⟩ := pair
    obtain rfl : other = name := same
    rw [pairs, stored] at member
    cases member
  | some definition =>
    refine assigned_of_mem _ ((pairs definition).mpr stored) fun other member => ?_
    rw [pairs, stored] at member
    exact (Option.some.inj member).symm

section Insert

variable {definition : NodeTypeDef} {now : Timestamp} {tx : Transaction}

/-- A known predicate stays known after a commit. -/
theorem predicateId_mono {wall : Timestamp} (done : (store.commit ext tx wall).1 = after) :
    ∀ name p, store.predicateId name = some p → after.predicateId name = some p := by
  intro name p known
  rw [← done]
  exact TripleStore.predicateId_commit known

/-- Before a predicate of a schema is known, the schema has no versions. -/
theorem Kept.valued (kept : state.Kept ext serde)
    (names : ∀ name p, state.store.predicateId name = some p → after.predicateId name = some p)
    (spelled : after.Spelled) {typeName : String} {p : PredId}
    (known : after.predicateId (schemaPredicate typeName) = some p) :
    state.store.SingleValued SCHEMA_REGISTRY_NODE p GraphId.DEFAULT state.now
      ((state.latest typeName).map (schemaObject ext serde)) := by
  cases before : state.store.predicateId (schemaPredicate typeName) with
  | none =>
    have unstored : state.latest typeName = none := by
      cases stored : state.latest typeName with
      | none => rfl
      | some definition =>
        have present := (kept.named typeName definition stored).2.2
        rw [before] at present
        cases present
    rw [unstored]
    refine TripleStore.SingleValued.of_blank fun o tt => ?_
    cases stored : state.store.index.history ⟨SCHEMA_REGISTRY_NODE, p, o, GraphId.DEFAULT⟩ tt with
    | none => rfl
    | some version =>
      -- A version would be of a schema whose predicate was known, which is the same one.
      obtain ⟨_, _, name, earlier⟩ := kept.own _ _ (Index.history_eq_some.mp stored).1
      obtain rfl := typeName_inj spelled (names _ _ earlier) known
      rw [before] at earlier
      cases earlier
  | some q =>
    obtain rfl : q = p := Option.some.inj ((names _ _ before).symm.trans known)
    exact kept.single typeName q before

/-- A commit that writes no schema of a type keeps what holds of the schema. -/
theorem Kept.untouched (kept : state.Kept ext serde) (clock : state.now ≤ now)
    (writable : AccessHistory.Writable ext state.store tx.writes)
    (done : (state.store.commit ext tx now).1 = after) {typeName : String} {p : PredId}
    (known : after.predicateId (schemaPredicate typeName) = some p)
    (other : ∀ quad ∈ state.store.commitQuads ext tx now, quad.key.p ≠ p) :
    after.SingleValued SCHEMA_REGISTRY_NODE p GraphId.DEFAULT now
      ((state.latest typeName).map (schemaObject ext serde)) ∧
    ∀ definition tt version, state.latest typeName = some definition →
      after.IsLast ⟨SCHEMA_REGISTRY_NODE, p, schemaObject ext serde definition,
        GraphId.DEFAULT⟩ tt version →
      ∃ during, after.reconstruct ext SCHEMA_REGISTRY_NODE p (schemaObject ext serde definition)
        tt version.content = .ok (.property SCHEMA_REGISTRY_NODE (schemaPredicate typeName)
          (.text (serde.toString definition.wire)) during) := by
  have history : ∀ o, after.index.history ⟨SCHEMA_REGISTRY_NODE, p, o, GraphId.DEFAULT⟩ =
      state.store.index.history ⟨SCHEMA_REGISTRY_NODE, p, o, GraphId.DEFAULT⟩ := by
    intro o
    rcases kept.intact.history_commit writable.room writable.stable done
      ⟨SCHEMA_REGISTRY_NODE, p, o, GraphId.DEFAULT⟩ with ⟨_, same⟩ | ⟨quad, member, same, _⟩
    · exact same
    · exact absurd (congrArg QuadIds.p same) (other quad member)
  have spelled := @TripleStore.Spelled.commit ext _ kept.spelled kept.numbered tx writable.named now
  have keeps := @TripleStore.keepsNames_commit ext _ kept.numbered tx writable.named now
  rw [done] at spelled
  refine ⟨((kept.valued (predicateId_mono done) spelled known).congr history).mono clock,
    fun definition tt version stored last => ?_⟩
  obtain ⟨q, before⟩ := Option.isSome_iff_exists.mp (kept.named typeName definition stored).2.2
  obtain rfl : q = p := Option.some.inj ((predicateId_mono done _ _ before).symm.trans known)
  rw [TripleStore.IsLast, history] at last
  obtain ⟨during, rebuilt⟩ := kept.told typeName definition q tt version stored before last
  have again := kept.intact.reconstruct_commit writable.stable writable.apart keeps rebuilt
  rw [done] at again
  exact ⟨during, again⟩

/-- A commit of the write of a schema is of its predicate. -/
theorem Kept.written (kept : state.Kept ext serde)
    (only : tx.writes = [TripleStore.schemaWrite serde definition now])
    (done : (state.store.commit ext tx now).1 = after) :
    ∀ quad ∈ state.store.commitQuads ext tx now, quad.key.s = SCHEMA_REGISTRY_NODE ∧
      after.predicateId (schemaPredicate definition.typeName) = some quad.key.p ∧
        quad.key.g = GraphId.DEFAULT := by
  intro quad member
  obtain ⟨w, among, subject, predicate, graph⟩ :=
    TripleStore.slot_commitQuads kept.intact.sound.keyed.holds tx now quad member
  rw [only] at among
  obtain rfl := List.mem_singleton.mp among
  rw [done] at predicate
  exact ⟨subject, predicate, graph⟩

/-- What a commit of the write of a schema keeps besides the schemas. -/
theorem Kept.store_commit (kept : state.Kept ext serde) (clock : state.now ≤ now)
    (only : tx.writes = [TripleStore.schemaWrite serde definition now])
    (writable : AccessHistory.Writable ext state.store tx.writes)
    (done : (state.store.commit ext tx now).1 = after) :
    after.Intact ext ∧ after.Numbered ∧ after.Spelled ∧
      (Timestamp.zero ≤ now ∧ Timestamp.zero ≤ after.committed) ∧
      ∀ key bytes, after.index key = some bytes → key.s = SCHEMA_REGISTRY_NODE ∧
        key.g = GraphId.DEFAULT ∧
          ∃ typeName, after.predicateId (schemaPredicate typeName) = some key.p := by
  have intact := kept.intact.commit writable.room writable.stable now
  have spelled := @TripleStore.Spelled.commit ext _ kept.spelled kept.numbered tx writable.named now
  have keeps := @TripleStore.keepsNames_commit ext _ kept.numbered tx writable.named now
  have index := @TripleStore.index_commit ext _ kept.intact.sound.keyed.holds tx now
  have advanced := (@TripleStore.committed_commit ext _ writable.room tx now).1
  rw [done] at intact spelled keeps index advanced
  refine ⟨intact, keeps.numbered, spelled,
    ⟨le_trans kept.clock.1 clock, le_trans kept.clock.2 advanced⟩, fun key bytes found => ?_⟩
  rw [index] at found
  rcases Index.putAll_eq_some found with old | new
  · obtain ⟨subject, graph, typeName, known⟩ := kept.own key bytes old
    exact ⟨subject, graph, typeName, predicateId_mono done _ _ known⟩
  · obtain ⟨subject, predicate, graph⟩ := kept.written only done _ new
    exact ⟨subject, graph, _, predicate⟩

/-- Storing a type keeps what holds of a registry, with the type as the one stored last. -/
theorem Kept.insert (kept : state.Kept ext serde) (clock : state.now ≤ now)
    (writable : AccessHistory.Writable ext state.store [TripleStore.schemaWrite serde definition now])
    (rereads : serde.Rereads definition) (checked : List NodeTypeDef) {result : Except StorageError Timestamp}
    (done : state.store.insertSchema ext serde definition now = (after, result)) :
    Kept ext serde ⟨after, state.cache, checked,
      if result.isOk then state.stored ++ [definition] else state.stored, now⟩ := by
  let w := TripleStore.schemaWrite serde definition now
  let tx : Transaction := state.store.begin.insertIn w.triple w.graph w.mode
  have only : tx.writes = [TripleStore.schemaWrite serde definition now] := rfl
  have writable_ : AccessHistory.Writable ext state.store tx.writes := writable
  have first : (state.store.commit ext tx now).1 = after := congrArg Prod.fst done
  obtain ⟨intact, numbered, spelled, times, own⟩ := kept.store_commit clock only writable_ first
  have untouched := @Kept.untouched ext serde after state now tx kept clock writable_ first
  cases result with
  | error problem =>
    have nothing := @TripleStore.commitQuads_of_error _ _ _ tx _ _ done
    have other : ∀ p, ∀ quad ∈ state.store.commitQuads ext tx now, quad.key.p ≠ p := by
      intro p quad member
      rw [nothing] at member
      cases member
    refine ⟨intact, numbered, spelled, times, kept.ranked, own, fun typeName other stored => ?_,
      fun typeName p known => (untouched known (other p)).1,
      fun typeName definition p tt version stored known last =>
        (untouched known (other p)).2 definition tt version stored last⟩
    obtain ⟨same, reads, present⟩ := kept.named typeName other stored
    obtain ⟨p, known⟩ := Option.isSome_iff_exists.mp present
    exact ⟨same, reads, by rw [predicateId_mono first _ _ known]; rfl⟩
  | ok time =>
    -- The type is the last one of its name, and the current schema says so.
    change Kept ext serde ⟨after, state.cache, checked, state.stored ++ [definition], now⟩
    have latest : ∀ typeName, TypeRegistry.latest
        ⟨after, state.cache, checked, state.stored ++ [definition], now⟩ typeName =
          Function.update state.latest definition.typeName (some definition) typeName := by
      intro typeName
      simp only [TypeRegistry.latest, assigned, List.map_append, List.foldl_append, List.map_cons,
        List.map_nil, List.foldl_cons, List.foldl_nil]
    obtain ⟨p, bytes, known, _⟩ := TripleStore.commitQuads_replacing
      kept.intact.sound.keyed.holds only rfl done
    have before : state.store.SingleValued SCHEMA_REGISTRY_NODE p GraphId.DEFAULT state.now
        ((state.latest definition.typeName).map (schemaObject ext serde)) :=
      kept.valued (predicateId_mono first) spelled known
    obtain ⟨single, version, last, during, rebuilt⟩ := TripleStore.SingleValued.commit kept.intact
      writable_.room only rfl writable_.stable writable_.apart rfl times.1 kept.clock.2 done known
      (rev_schemaPredicate spelled known) before clock
    refine ⟨intact, numbered, spelled, times, kept.ranked, own, fun typeName other stored => ?_,
      fun typeName q known' => ?_, fun typeName other q tt version' stored known' last' => ?_⟩
    · have stored' := (latest typeName).symm.trans stored
      by_cases same : typeName = definition.typeName
      · subst same
        rw [Function.update_self] at stored'
        obtain rfl := Option.some.inj stored'
        exact ⟨rfl, rereads, by rw [known]; rfl⟩
      · rw [Function.update_of_ne same] at stored'
        obtain ⟨named, reads, present⟩ := kept.named typeName other stored'
        obtain ⟨q, known'⟩ := Option.isSome_iff_exists.mp present
        exact ⟨named, reads, by rw [predicateId_mono first _ _ known']; rfl⟩
    · by_cases same : typeName = definition.typeName
      · subst same
        obtain rfl : p = q := Option.some.inj (known.symm.trans known')
        rw [latest, Function.update_self]
        exact single
      · rw [latest, Function.update_of_ne same]
        refine (untouched known' fun quad member equal => same ?_).1
        have own := (kept.written only first quad member).2.1
        rw [equal] at own
        exact typeName_inj spelled known' own
    · have stored' := (latest typeName).symm.trans stored
      by_cases same : typeName = definition.typeName
      · subst same
        rw [Function.update_self] at stored'
        obtain rfl := Option.some.inj stored'
        obtain rfl : p = q := Option.some.inj (known.symm.trans known')
        obtain ⟨rfl, rfl⟩ := last.unique last'
        exact ⟨during, rebuilt⟩
      · rw [Function.update_of_ne same] at stored'
        refine (untouched known' fun quad member equal => same ?_).2 other tt version' stored' last'
        have own := (kept.written only first quad member).2.1
        rw [equal] at own
        exact typeName_inj spelled known' own

end Insert

/-- Publishing the first stored type of its name does not change which types were stored last. -/
theorem latest_publish {definition : NodeTypeDef}
    (first : state.stored.find? (fun other => decide (other.typeName = definition.typeName)) =
      some definition) (now : Timestamp) :
    latest ⟨state.store, state.cache.insert definition, state.checked,
      state.stored.erase definition, now⟩ = state.latest := by
  obtain ⟨_, front, back, split, others⟩ := List.find?_eq_some_iff_append.mp first
  have apart : ∀ other ∈ front, other.typeName ≠ definition.typeName := by
    intro other member same
    have differs := others other member
    simp [same] at differs
  have absent : definition ∉ front := fun member => apart definition member rfl
  have erased : state.stored.erase definition = front ++ back := by
    rw [split, List.erase_append_right _ absent, List.erase_cons_head]
  -- Other types that were stored before do not depend on the order of assignments.
  have moved : ∀ (front : List NodeTypeDef) (held : String → Option NodeTypeDef),
      (∀ other ∈ front, other.typeName ≠ definition.typeName) →
      assigned (Function.update held definition.typeName (some definition))
          (front.map fun other => (other.typeName, other)) =
        Function.update (assigned held (front.map fun other => (other.typeName, other)))
          definition.typeName (some definition) := by
    intro front
    induction front with
    | nil => exact fun _ _ => rfl
    | cons other rest ih =>
      intro held apart
      obtain ⟨differs, later⟩ := List.forall_mem_cons.mp apart
      have swapped := Function.update_comm differs (some other) (some definition) held
      have more := ih (Function.update held other.typeName (some other)) later
      rw [swapped] at more
      exact more
  unfold latest
  dsimp only
  rw [erased, split, TypeCache.lookup_insert]
  simp only [List.map_append, List.map_cons]
  unfold assigned at moved ⊢
  rw [List.foldl_append, List.foldl_append, List.foldl_cons, moved front _ apart]

/-- When a step is taken in order. -/
def InOrder (ext : External) (serde : SchemaSerde) (state : TypeRegistry) : RegistryStep → Prop
  | .check _ => True
  | .insert definition now => state.now ≤ now ∧ serde.Rereads definition ∧
      AccessHistory.Writable ext state.store [TripleStore.schemaWrite serde definition now]
  | .publish definition =>
      state.cache.checkNoCycle definition.typeName definition.parentTypes = .ok () ∧
      state.stored.find? (fun other => decide (other.typeName = definition.typeName)) =
        some definition
  | .reopen now => state.now ≤ now ∧ now ≠ Timestamp.END_OF_TIME

/-- A step in order keeps what holds of a registry. -/
theorem Kept.next (kept : state.Kept ext serde) {step : RegistryStep} {after : TypeRegistry}
    (ordered : InOrder ext serde state step) (taken : state.next ext serde step = some after) :
    after.Kept ext serde := by
  cases step with
  | check definition =>
    simp only [TypeRegistry.next] at taken
    split at taken
    · cases taken
      exact kept
    · cases taken
      exact ⟨kept.intact, kept.numbered, kept.spelled, kept.clock, kept.ranked, kept.own, kept.named,
        kept.single, kept.told⟩
  | insert definition now =>
    obtain ⟨clock, rereads, writable⟩ := ordered
    simp only [TypeRegistry.next] at taken
    split_ifs at taken
    split at taken
    · rename_i store problem done
      cases taken
      exact kept.insert clock writable rereads _ done
    · rename_i store time done
      cases taken
      exact kept.insert clock writable rereads _ done
  | publish definition =>
    obtain ⟨passed, first⟩ := ordered
    simp only [TypeRegistry.next] at taken
    split_ifs at taken
    cases taken
    have same := latest_publish first state.now
    refine ⟨kept.intact, kept.numbered, kept.spelled, kept.clock,
      TypeCache.ranked_insert kept.ranked passed, kept.own, ?_, ?_, ?_⟩
    · rw [same]
      exact kept.named
    · rw [same]
      exact kept.single
    · rw [same]
      exact kept.told
  | reopen now =>
    obtain ⟨clock, running⟩ := ordered
    simp only [TypeRegistry.next] at taken
    split_ifs at taken with idle
    obtain ⟨cache, read, found⟩ := kept.loads clock running
    rw [read] at taken
    cases taken
    have before : ∀ name, state.latest name = Latest.lookup name state.cache := by
      intro name
      rw [TypeRegistry.latest, idle.2]
      rfl
    have same : latest ⟨state.store, cache, state.checked, state.stored, now⟩ = state.latest := by
      funext name
      rw [← found name, TypeRegistry.latest]
      dsimp only
      rw [idle.2]
      rfl
    refine ⟨kept.intact, kept.numbered, kept.spelled, ⟨le_trans kept.clock.1 clock, kept.clock.2⟩,
      kept.ranked.mono ?_, kept.own, ?_, ?_, ?_⟩
    · rintro child parent ⟨definition, cached, among⟩
      exact ⟨definition, by rw [← before, ← found]; exact cached, among⟩
    · rw [same]
      exact kept.named
    · rw [same]
      exact fun typeName p known => (kept.single typeName p known).mono clock
    · rw [same]
      exact kept.told

/-- The hierarchy has no cycle, every type resolves, and an idle registry is what the store has. -/
structure Consistent (ext : External) (serde : SchemaSerde) (state : TypeRegistry) : Prop where
  /-- No cached type inherits from itself. -/
  acyclic : ∀ typeName, ¬ Relation.TransGen state.cache.Parent typeName typeName
  /-- The fields of every type are resolved. -/
  resolves : ∀ typeName, ∃ fuel fields, state.cache.resolvedFields fuel typeName = some fields
  /-- With no registration in progress, the cached types are those the store has. -/
  faithful : state.checked = [] → state.stored = [] → ∀ now, state.now ≤ now →
    now ≠ Timestamp.END_OF_TIME → ∃ cache, state.store.loadTypes ext serde now = .ok cache ∧
      ∀ name, Latest.lookup name cache = Latest.lookup name state.cache

/-- A registry kept in order is consistent. -/
theorem Kept.consistent (kept : state.Kept ext serde) : state.Consistent ext serde := by
  refine ⟨kept.ranked.acyclic, fun typeName => ?_, fun _ idle now clock running => ?_⟩
  · obtain ⟨fuel, walks⟩ := TypeCache.exists_collectFields kept.ranked typeName
    obtain ⟨collected, done⟩ := walks ([], [])
    exact ⟨fuel, collected.2, by rw [TypeCache.resolvedFields, done]; rfl⟩
  · obtain ⟨cache, read, found⟩ := kept.loads clock running
    refine ⟨cache, read, fun name => ?_⟩
    rw [found, latest, idle]
    rfl

/-- A registry over a new store is kept in order. -/
theorem kept_fresh (ext : External) (serde : SchemaSerde) (inlineMax : Nat) (vocabulary : Vocabulary)
    (canonical : Bool) : (fresh inlineMax vocabulary canonical).Kept ext serde := by
  have blank := TripleStore.index_configured inlineMax vocabulary canonical
  refine ⟨TripleStore.intact_configured ext inlineMax vocabulary canonical, fun _ _ found => ?_,
    fun _ _ found => ?_, ⟨le_refl _, le_refl _⟩, Ranked.of_empty ?_, fun key bytes found => ?_,
    fun typeName definition stored => ?_, fun typeName p known => ?_,
    fun typeName definition p tt version stored => ?_⟩
  · cases found
  · cases found
  · rintro child parent ⟨definition, cached, _⟩
    cases cached
  · rw [show (fresh inlineMax vocabulary canonical).store.index = fun _ => none from blank] at found
    cases found
  · cases stored
  · cases (TripleStore.predicateId_configured ..).symm.trans known
  · cases stored

/--
In every run that stores and caches types in order, the hierarchy is acyclic and the cache is true.

In order means that the clock does not go back, that what is stored can be stored and read back,
that a type which is cached passes the check again, and that no type of its name was stored before
it and is not cached yet.
-/
theorem consistent_of_registrations {inlineMax : Nat} {vocabulary : Vocabulary} {canonical : Bool}
    (run : Runs (next ext serde) (InOrder ext serde) (fresh inlineMax vocabulary canonical) state) :
    state.Consistent ext serde :=
  -- The invariant also says which versions the store has of the schemas.
  (run.invariant (fun _ _ _ kept ordered taken => kept.next ordered taken)
    (kept_fresh ext serde inlineMax vocabulary canonical)).consistent

/-- A type without fields that inherits from one other. -/
def childOf (typeName parent : String) : NodeTypeDef := ⟨typeName, [], none, [parent]⟩

/-- The text of the schema of a type without fields that inherits from one other. -/
def childText (parent : String) : String :=
  "\x7b\"fields\":[],\"parent_types\":[\"" ++ parent ++ "\"]\x7d"

/-- A writer and reader of the schemas of types without fields. -/
def childSerde : SchemaSerde where
  toString wire := childText (wire.parentTypes.headD "")
  fromStr text :=
    (["Company", "Person"].find? fun parent => decide (childText parent = text)).map fun parent =>
      ⟨[], none, [parent]⟩
  fieldsFromStr _ := none

/-- The JSON text of a value that is a text, whose quotes are escaped. -/
def quotedText (content : String) : Bytes :=
  utf8 "\x7b\"type\":\"Text\",\"v\":\"" ++ utf8 (String.ofList (content.toList.flatMap fun c =>
    if c = '\x22' then ['\x5c', c] else [c])) ++ utf8 "\"\x7d"

/-- Third-party code that writes the text of a schema as JSON and reads it back. -/
def childJson : External where
  xxh3_128 bytes := bytes.length
  parseUuid _ := none
  jsonToVec
    | .text content => .ok (quotedText content)
    | _ => .error "not a text"
  jsonFromSlice bytes :=
    match (["Company", "Person"].map childText).find? fun text => decide (quotedText text = bytes) with
    | some text => .ok (.text text)
    | none => .error "not a schema"

/-- A registry over a new store. -/
def opened : TypeRegistry := fresh DEFAULT_INLINE_VALUE_MAX_BYTES Vocabulary.default true

/-- Two registrations of types that name each other, with each step of one next to that of the other. -/
def crossed : List RegistryStep :=
  [.check (childOf "Company" "Person"), .check (childOf "Person" "Company"),
    .insert (childOf "Company" "Person") (Timestamp.wrap 5),
    .insert (childOf "Person" "Company") (Timestamp.wrap 6),
    .publish (childOf "Company" "Person"), .publish (childOf "Person" "Company")]

/-- Two registrations that pass the check together close a cycle, along which no type resolves. -/
theorem registrations_close_cycle : ∃ state : TypeRegistry,
    Runs (next childJson childSerde) (fun _ _ => True) opened state ∧
    Relation.TransGen state.cache.Parent "Company" "Company" ∧
    (∀ fuel, state.cache.resolvedFields fuel "Company" = none) ∧
    ¬ state.Consistent childJson childSerde := by
  have done : (Runs.stepAll (next childJson childSerde) (fun _ _ => True) opened crossed).map
      TypeRegistry.cache = some [("Company", childOf "Company" "Person"),
        ("Person", childOf "Person" "Company")] := by
    decide +kernel
  obtain ⟨state, taken, cache⟩ := Option.map_eq_some_iff.mp done
  have company : state.cache.Parent "Company" "Person" := by
    rw [cache]
    exact ⟨childOf "Company" "Person", rfl, List.mem_singleton_self _⟩
  have person : state.cache.Parent "Person" "Company" := by
    rw [cache]
    exact ⟨childOf "Person" "Company", rfl, List.mem_singleton_self _⟩
  have cycle := Relation.TransGen.tail (.single company) person
  -- Each of the two walks goes on with the other.
  have walks : ∀ fuel found, TypeCache.collectFields state.cache fuel found "Company" = none ∧
      TypeCache.collectFields state.cache fuel found "Person" = none := by
    rw [cache]
    intro fuel
    induction fuel with
    | zero => exact fun _ => ⟨rfl, rfl⟩
    | succ fuel ih =>
      intro found
      refine ⟨Option.bind_eq_none_iff.mpr fun next walked => ?_,
        Option.bind_eq_none_iff.mpr fun next walked => ?_⟩
      · cases walked.symm.trans (ih found).2
      · cases walked.symm.trans (ih found).1
  refine ⟨state, Runs.of_stepAll taken, cycle, fun fuel => ?_, fun kept => kept.acyclic _ cycle⟩
  rw [TypeCache.resolvedFields, (walks fuel _).1]
  rfl

/-- The state after a check. -/
def checkedOne : TypeRegistry := { opened with checked := [childOf "Company" "Person"] }

/-- A type that is registered alone is cached and consistent. -/
theorem consistent_of_registrations_one : ∃ state : TypeRegistry,
    state.cache = [("Company", childOf "Company" "Person")] ∧
    state.Consistent childJson childSerde := by
  have first : next childJson childSerde opened (.check (childOf "Company" "Person")) =
      some checkedOne := rfl
  have stored : (next childJson childSerde checkedOne
      (.insert (childOf "Company" "Person") (Timestamp.wrap 5))).map (fun state =>
        (state.cache, state.stored)) = some ([], [childOf "Company" "Person"]) := by
    decide +kernel
  obtain ⟨middle, second, parts⟩ := Option.map_eq_some_iff.mp stored
  obtain ⟨cache, pending⟩ := Prod.mk.inj parts
  have ordered : InOrder childJson childSerde checkedOne
      (.insert (childOf "Company" "Person") (Timestamp.wrap 5)) := by
    refine ⟨by decide, by unfold SchemaSerde.Rereads; decide +kernel, ⟨by decide +kernel, by decide +kernel,
      fun w member => ?_, fun w member => ?_⟩⟩
    · rw [List.mem_singleton.mp member]
      rintro _ _ _ _ ⟨⟩ json written
      cases written
      decide +kernel
    · -- Nothing is stored out of line yet.
      rw [List.mem_singleton.mp member]
      rintro _ _ _ _ ⟨⟩ held loaded
      have nothing : (checkedOne.store.loadBlob childJson (valueObject childJson
          (.text (childSerde.toString (childOf "Company" "Person").wire)))).toOption = none := by
        decide +kernel
      rw [loaded] at nothing
      cases nothing
  have published : next childJson childSerde middle (.publish (childOf "Company" "Person")) =
      some { middle with
        cache := [("Company", childOf "Company" "Person")], stored := [] } := by
    simp only [next, cache, pending]
    rfl
  have last : InOrder childJson childSerde middle (.publish (childOf "Company" "Person")) := by
    rw [InOrder, cache, pending]
    exact ⟨by rfl, by decide⟩
  have run := ((Runs.done opened).step _ trivial first).step _ ordered second
  exact ⟨_, rfl, consistent_of_registrations (run.step _ last published)⟩

end TypeRegistry

end Polargraph
