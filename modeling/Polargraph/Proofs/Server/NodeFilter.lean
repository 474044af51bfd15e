import Polargraph.Proofs.Server.ApplyChanges
import Polargraph.Proofs.Server.NodeAccess
import Polargraph.Server.Query

/-! Which answers bind nodes only that the caller's groups are granted. -/

namespace Polargraph

namespace TripleStore

/-- A relation that is live at a time. -/
def LiveRelation (ext : External) (store : TripleStore) (now : Timestamp) (subject : NodeId)
    (predicate : String) (object : NodeId) (temporal : BiTemporalRange) : Prop :=
  ∃ triples, store.scanByPredicateAt ext predicate ⟨store.committed, none, none⟩ now = .ok triples ∧
    ∃ name edge, Triple.relation subject name object edge temporal ∈ triples

/-- A user is in a group. -/
def MemberOf (ext : External) (store : TripleStore) (now : Timestamp) (user group : NodeId) : Prop :=
  ∃ temporal, store.LiveRelation ext now user BUILTIN_MEMBER_OF_PRED group temporal

/-- A user is in a group without an end. -/
def MemberForever (ext : External) (store : TripleStore) (now : Timestamp) (user : NodeId) : Prop :=
  ∃ group temporal, store.LiveRelation ext now user BUILTIN_MEMBER_OF_PRED group temporal ∧
    temporal.vtEnd = Timestamp.END_OF_TIME

/-- One of a user's groups is granted a node, or a type that a node is an instance of. -/
def GrantedTo (ext : External) (store : TripleStore) (prefixes : String → Option String)
    (index : TypeIndex) (now : Timestamp) (user node : NodeId) : Prop :=
  ∃ group, store.MemberOf ext now user group ∧
    ((∃ temporal, store.LiveRelation ext now group BUILTIN_HAS_ACCESS_PRED node temporal) ∨
      ∃ name triples, store.scanByPredicateAt ext BUILTIN_HAS_ACCESS_TYPE_PRED
          ⟨store.committed, none, none⟩ now = .ok triples ∧
        (∃ predicate temporal, Triple.property group predicate (.text name) temporal ∈ triples) ∧
          node ∈ index.instancesOf (store.classNodes ext prefixes [name]))

variable {ext : External}

/-- A relation without an end is one of those listed, as object and subject. -/
theorem mem_endlessRelations {triples : List Triple} {subject object : NodeId} :
    (object, subject) ∈ endlessRelations triples ↔ ∃ predicate edge temporal,
      Triple.relation subject predicate object edge temporal ∈ triples ∧
        temporal.vtEnd = Timestamp.END_OF_TIME := by
  unfold endlessRelations
  rw [List.mem_filterMap]
  constructor
  · rintro ⟨triple, member, listed⟩
    cases triple with
    | relation s predicate o edge temporal =>
      simp only [Option.ite_none_right_eq_some, Option.some.injEq, Prod.mk.injEq] at listed
      obtain ⟨endless, rfl, rfl⟩ := listed
      exact ⟨predicate, edge, temporal, member, endless⟩
    | property | edgeProperty | edgeRelation => cases listed
  · rintro ⟨predicate, edge, temporal, member, endless⟩
    exact ⟨_, member, by simp [endless]⟩

/-- A text without an end that is listed is one of the properties. -/
theorem property_of_endlessTexts {triples : List Triple} {subject : NodeId} {text : String}
    (listed : (subject, text) ∈ endlessTexts triples) : ∃ predicate temporal,
      Triple.property subject predicate (.text text) temporal ∈ triples := by
  obtain ⟨triple, member, made⟩ := List.mem_filterMap.mp listed
  split at made
  · split_ifs at made
    cases made
    exact ⟨_, _, member⟩
  · cases made

/-- A user in a group without an end is filtered, and what passes is granted. -/
theorem filter_of_member {store : TripleStore} {prefixes : String → Option String} {index : TypeIndex}
    {built : Timestamp} {cache : List (String × List NodeId)} {user : NodeId}
    (synced : store.buildAccessCache ext prefixes index built = .ok cache)
    (member : store.MemberForever ext built user) :
    ∃ nodes, Latest.lookup user.uuid.display cache = some nodes ∧
      ∀ node ∈ nodes, store.GrantedTo ext prefixes index built user node := by
  obtain ⟨members, read, rest⟩ := Except.bind_eq_ok.mp synced
  obtain ⟨grants, read', rest⟩ := Except.bind_eq_ok.mp rest
  obtain ⟨types, read'', _⟩ := Except.bind_eq_ok.mp rest
  obtain ⟨cache', built', gives⟩ :=
    @AccessHistory.buildAccessCache_spec ext store prefixes index built _ _ _ read read' read''
  obtain rfl := Except.ok.inj (built'.symm.trans synced)
  obtain ⟨held, given⟩ := gives user
  obtain ⟨group, temporal, ⟨triples, scanned, name, edge, inside⟩, endless⟩ := member
  obtain rfl := Except.ok.inj (scanned.symm.trans read)
  have listed := held.mpr ⟨group, mem_endlessRelations.mpr ⟨name, edge, temporal, inside, endless⟩⟩
  obtain ⟨nodes, found⟩ := Option.isSome_iff_exists.mp listed
  refine ⟨nodes, found, fun node own => ?_⟩
  obtain ⟨group, joined, granted⟩ := (given node).mp (by rw [found]; exact own)
  obtain ⟨name, edge, temporal, inside, _⟩ := mem_endlessRelations.mp joined
  refine ⟨group, ⟨temporal, triples, scanned, name, edge, inside⟩, ?_⟩
  rcases granted with direct | ⟨name, typed, instance_⟩
  · obtain ⟨name, edge, temporal, inside, _⟩ := mem_endlessRelations.mp direct
    exact Or.inl ⟨temporal, grants, read', name, edge, inside⟩
  · exact Or.inr ⟨name, types, read'', property_of_endlessTexts typed, instance_⟩

end TripleStore

/-- A request that reads rows of bindings. -/
inductive RowsRequest where
  /-- A query over patterns. -/
  | query (request : QueryRequest)
  /-- The same, streamed. -/
  | queryStream (request : QueryRequest)
  /-- A query in Cypher. -/
  | cypherQuery (request : CypherQueryRequest)
  /-- The same, streamed. -/
  | cypherQueryStream (request : CypherQueryRequest)
  /-- A query that starts from the visible hits of a vector search. -/
  | vectorSeedQuery (request : VectorSeedQueryRequest) (hits : Except Status (List NodeId))

namespace RowsRequest

/-- The caller. -/
def userId : RowsRequest → String
  | query request => request.userId
  | queryStream request => request.userId
  | cypherQuery request => request.userId
  | cypherQueryStream request => request.userId
  | vectorSeedQuery request _ => request.userId

/-- Whether the rows are streamed. -/
def streams : RowsRequest → Bool
  | queryStream _ => true
  | cypherQueryStream _ => true
  | _ => false

end RowsRequest

namespace QueryServer

section External

variable (ext : External) (arith : FloatArithmetic) (matchesRegex : String → String → Bool)
  (compiler : CypherCompiler) (server : QueryServer)

/-- The bindings of nodes in the rows of chunks. -/
def chunkRows (chunks : List QueryStreamChunk) : List Bindings :=
  (chunks.flatMap QueryStreamChunk.results).map Solution.nodes

/-- The bindings of nodes that a request returns. -/
def boundNodes : RowsRequest → Option (Except Status (List Bindings))
  | .query request => (server.query ext request).map (fun rows => rows.map (List.map Solution.nodes))
  | .queryStream request => (server.queryStream ext request).map (fun rows => rows.map chunkRows)
  | .cypherQuery request => (server.cypherQuery ext arith matchesRegex compiler request).map
      (fun rows => rows.map (List.map CypherBinding.nodes))
  | .cypherQueryStream request => (server.cypherQueryStream ext matchesRegex compiler request).map
      (fun rows => rows.map chunkRows)
  | .vectorSeedQuery request hits => some (server.vectorSeedQuery ext request hits)

/-- What a request returns binds nodes only that satisfy a predicate. -/
def BindsOnly (request : RowsRequest) (allowed : NodeId → Prop) : Prop :=
  ∀ rows, server.boundNodes ext arith matchesRegex compiler request = some (.ok rows) →
    ∀ row ∈ rows, ∀ bound ∈ row, allowed bound.2

end External

variable {ext : External} {arith : FloatArithmetic} {matchesRegex : String → String → Bool}
  {compiler : CypherCompiler} {server : QueryServer}

/-- A user with an entry in the cache has the entry's nodes as filter. -/
theorem getAccessFilter_of_lookup {userId : String} {nodes : List NodeId} (named : userId ≠ "")
    (found : Latest.lookup userId server.accessCache = some nodes) :
    server.getAccessFilter userId = some nodes := by
  rw [getAccessFilter, if_neg named, found]

/-- Rows that pass a filter bind nodes of the filter only. -/
theorem mem_filterBindings {rows : List Bindings} {nodes : List NodeId} {row : Bindings}
    (member : row ∈ filterBindings rows (some nodes)) : ∀ bound ∈ row, bound.2 ∈ nodes := by
  intro bound inside
  have all := (List.mem_filter.mp member).2
  exact List.contains_iff_mem.mp (List.all_eq_true.mp all bound inside)

/-- Rows that a filter keeps were there before. -/
theorem keepPassing_sub {φ : Type} {check : φ → Bindings → Except StorageError Bool}
    {filters : List φ} {rows kept : List Bindings} (done : keepPassing check filters rows = .ok kept) :
    ∀ row ∈ kept, row ∈ rows := by
  induction rows generalizing kept with
  | nil =>
    cases done
    exact fun row member => member
  | cons first rest ih =>
    obtain ⟨passes, _, done⟩ := Except.bind_eq_ok.mp done
    obtain ⟨others, later, done⟩ := Except.bind_eq_ok.mp done
    cases done
    intro row member
    cases passes with
    | true =>
      rcases List.mem_cons.mp member with rfl | old
      · exact List.mem_cons_self
      · exact List.mem_cons_of_mem _ (ih later row old)
    | false => exact List.mem_cons_of_mem _ (ih later row member)

/-- The rows that pass the filters of a query were there before. -/
theorem applyFilters_sub {snapshot : Snapshot} {compiled : CompiledQuery} {rows kept : List Bindings}
    (done : snapshot.applyFilters ext matchesRegex compiled rows = .ok kept) :
    ∀ row ∈ kept, row ∈ rows := by
  obtain ⟨first, values, done⟩ := Except.bind_eq_ok.mp done
  obtain ⟨second, texts, edges⟩ := Except.bind_eq_ok.mp done
  exact fun row member =>
    keepPassing_sub values row (keepPassing_sub texts row (keepPassing_sub edges row member))

/-- What a row has for a variable is one of its bindings. -/
theorem mem_of_lookup {row : Bindings} {name : String} {node : NodeId}
    (found : row.lookup name = some node) : (name, node) ∈ row := by
  obtain ⟨before, after, rfl, _⟩ := List.lookup_eq_some_iff.mp found
  simp

/-- Ordering, skipping and limiting only leaves rows out. -/
theorem applyOrderSkipLimit_sub {rows : List AggregatedRow} {orderBy : List OrderSpec}
    {skip limit : Option Nat} : ∀ row ∈ applyOrderSkipLimit rows orderBy skip limit, row ∈ rows := by
  intro row member
  have sorted : row ∈ (if orderBy.isEmpty then rows
      else rows.mergeSort (fun left right => (AggregatedRow.compareBy orderBy left right).isLE)) := by
    unfold applyOrderSkipLimit at member
    cases limit with
    | none => exact List.mem_of_mem_drop member
    | some limit => exact List.mem_of_mem_drop (List.mem_of_mem_take member)
  split_ifs at sorted
  · exact sorted
  · exact List.mem_mergeSort.mp sorted

/-- The nodes of a result row are bound by one of the rows. -/
theorem applyAggregations_sub {snapshot : Snapshot} {rows : List Bindings} {keys : List String}
    {specs : List AggregationSpec} {orderBy : List OrderSpec} {skip limit : Option Nat} :
    ∀ result ∈ applyAggregations ext arith snapshot rows keys specs orderBy skip limit,
      ∀ bound ∈ result.groupKeys, ∃ row ∈ rows, bound ∈ row := by
  intro result member bound inside
  unfold applyAggregations at member
  split_ifs at member
  · obtain ⟨row, own, rfl⟩ := List.mem_map.mp (applyOrderSkipLimit_sub result member)
    exact ⟨row, own, inside⟩
  · obtain ⟨bucket, held, rfl⟩ := List.mem_map.mp (applyOrderSkipLimit_sub result member)
    -- Every row of a group is one of the rows.
    have grouped : ∀ (rest : List Bindings) (buckets : List (Bytes × List Bindings)),
        (∀ row ∈ rest, row ∈ rows) → (∀ bucket ∈ buckets, ∀ row ∈ bucket.2, row ∈ rows) →
        ∀ bucket ∈ rest.foldl (fun buckets binding =>
          Latest.entryUpdate (groupKeyBytes binding keys) [] (fun held => held ++ [binding]) buckets)
            buckets, ∀ row ∈ bucket.2, row ∈ rows := by
      intro rest
      induction rest with
      | nil => exact fun buckets _ old => old
      | cons first rest ih =>
        intro buckets own old
        have first_own := own first List.mem_cons_self
        refine ih _ (fun row inside => own row (List.mem_cons_of_mem _ inside)) ?_
        refine Latest.forall_entryUpdate old ?_ fun slot there => ?_
        · simpa using first_own
        · intro row inside
          rcases List.mem_append.mp inside with before | new
          · exact old _ there row before
          · rw [List.mem_singleton.mp new]
            exact first_own
    cases head : bucket.2.head? with
    | none => simp [head] at inside
    | some first =>
      simp only [head, List.mem_filterMap, Option.map_eq_some_iff] at inside
      obtain ⟨key, _, node, found, rfl⟩ := inside
      refine ⟨first, ?_, mem_of_lookup found⟩
      exact grouped rows [] (fun _ own => own) (by simp) bucket held first (List.mem_of_head? head)

/-- The nodes of a row of an answer are those of the result row. -/
theorem projectRow_sub {compiled : CompiledQuery} {snapshot : Snapshot} {result : AggregatedRow} :
    ∀ bound ∈ (server.projectRow ext compiled snapshot result).nodes, bound ∈ result.groupKeys := by
  intro bound member
  unfold projectRow at member
  dsimp only at member
  split_ifs at member
  · exact member
  · simp only [List.mem_filterMap, Option.map_eq_some_iff] at member
    obtain ⟨name, _, node, found, rfl⟩ := member
    exact mem_of_lookup found

/-- An outcome that was changed row by row was an outcome of rows. -/
theorem exists_of_map {α β : Type} {change : List α → List β} {rows : List β}
    {outcome : Option (Except Status (List α))}
    (done : outcome.map (fun rows => rows.map change) = some (.ok rows)) :
    ∃ before, outcome = some (.ok before) ∧ change before = rows := by
  match outcome, done with
  | some (.ok before), done =>
    simp only [Option.map_some, Except.map, Option.some.injEq, Except.ok.injEq] at done
    exact ⟨before, rfl, done⟩

/-- An answer over patterns binds nodes of the caller's filter only. -/
theorem bindsOnly_query {request : QueryRequest} {nodes : List NodeId}
    (filtered : server.getAccessFilter request.userId = some nodes) :
    server.BindsOnly ext arith matchesRegex compiler (.query request) (· ∈ nodes) := by
  intro rows done row member bound inside
  obtain ⟨solutions, answered, rfl⟩ := exists_of_map done
  obtain ⟨solution, own, rfl⟩ := List.mem_map.mp member
  unfold query at answered
  rw [filtered] at answered
  split at answered
  · cases answered
  dsimp only at answered
  obtain ⟨before, _, rfl⟩ := exists_of_map answered
  have all := (List.mem_filter.mp own).2
  exact List.contains_iff_mem.mp (List.all_eq_true.mp all bound inside)

/-- So does an answer that starts from a vector search. -/
theorem bindsOnly_vectorSeedQuery {request : VectorSeedQueryRequest} {nodes : List NodeId}
    {hits : Except Status (List NodeId)}
    (filtered : server.getAccessFilter request.userId = some nodes) :
    server.BindsOnly ext arith matchesRegex compiler (.vectorSeedQuery request hits) (· ∈ nodes) := by
  intro rows done row member bound inside
  have answered := Option.some.inj done
  unfold vectorSeedQuery at answered
  rw [filtered] at answered
  dsimp only at answered
  split_ifs at answered
  split at answered
  · cases answered
  · cases answered
    cases member
  · obtain ⟨before, _, made⟩ := Except.bind_eq_ok.mp answered
    cases made
    exact mem_filterBindings member bound inside

/-- And an answer in Cypher. -/
theorem bindsOnly_cypherQuery {request : CypherQueryRequest} {nodes : List NodeId}
    (filtered : server.getAccessFilter request.userId = some nodes) :
    server.BindsOnly ext arith matchesRegex compiler (.cypherQuery request) (· ∈ nodes) := by
  intro rows done row member bound inside
  obtain ⟨answer, answered, rfl⟩ := exists_of_map done
  obtain ⟨cells, own, rfl⟩ := List.mem_map.mp member
  unfold cypherQuery at answered
  dsimp only at answered
  split at answered
  · cases answered
  split at answered
  · cases answered
  split at answered
  · cases answered
  split at answered
  · cases answered
  -- The rows are those that are finished.
  obtain ⟨found, _, finished⟩ := Option.map_eq_some_iff.mp answered
  obtain ⟨before, _, finished⟩ := Except.bind_eq_ok.mp finished
  obtain ⟨kept, passed, finished⟩ := Except.bind_eq_ok.mp finished
  cases finished
  obtain ⟨result, aggregated, rfl⟩ := List.mem_map.mp own
  obtain ⟨row, held, binds⟩ := applyAggregations_sub result aggregated bound
    (projectRow_sub bound inside)
  rw [filtered] at passed
  have kept_ := TripleStore.storageErrToStatus_eq_ok passed
  exact mem_filterBindings (applyFilters_sub kept_ row held) bound binds

/-- The form an identifier is displayed in is not empty. -/
theorem display_ne_empty (uuid : Uuid) : uuid.display ≠ "" := by
  intro empty
  have letters := congrArg String.toList empty
  simp [Uuid.display] at letters

/-- Third-party code for runs over relations. -/
def countedBytes : External := { External.unreached with xxh3_128 := fun bytes => bytes.length }

/-- A user who is named by an IRI. -/
def alice : NodeId := iriToNodeId countedBytes "urn:alice"

/-- A relation of two nodes from the first clock tick on. -/
def relating (subject : NodeId) (predicate : String) (object : NodeId) (edge : UInt8) : Triple :=
  .relation subject predicate object ⟨(NodeId.ofByte edge).uuid⟩
    ⟨Timestamp.zero, Timestamp.END_OF_TIME, Timestamp.zero⟩

/-- A store in which the user's group may access one end of a relation. -/
def aliceStore : TripleStore :=
  (TripleStore.create.commit countedBytes ((((Transaction.new Timestamp.zero).insertIn
    (relating alice BUILTIN_MEMBER_OF_PRED (NodeId.ofByte 2) 11) GraphId.DEFAULT .auto).insertIn
    (relating (NodeId.ofByte 2) BUILTIN_HAS_ACCESS_PRED (NodeId.ofByte 3) 12) GraphId.DEFAULT
      .auto).insertIn (relating (NodeId.ofByte 3) "urn:knows" (NodeId.ofByte 4) 13)
        GraphId.DEFAULT .auto) (Timestamp.wrap 5)).1

/-- A server for it, whose cache is up to date. -/
def aliceServer : QueryServer where
  store := aliceStore
  prefixes _ := none
  registry := []
  graphAccess := ⟨[], .fromLevels [] []⟩
  accessCache := [(alice.uuid.display, [NodeId.ofByte 3])]
  openTx _ := none
  vectorHits _ _ := []
  edges _ := ⟨(NodeId.ofByte 20).uuid⟩
  rounds := 5
  now := Timestamp.wrap 6

/-- A request of the user for what relates two nodes. -/
def acquaintances (userId : String) : QueryRequest where
  patterns := [⟨.var "s", some "urn:knows", none, .var "o", none, none, .union⟩]
  rules := []
  graphs := []
  asOfTxTime := Timestamp.zero
  snapshotTs := Timestamp.zero
  asOfValidTime := Timestamp.zero
  excludeInferred := false
  userId := userId
  txId := ""

/-- The outcome of an operation that succeeds. -/
theorem eq_ok_of_toOption {ε α : Type} {outcome : Except ε α} {value : α}
    (done : outcome.toOption = some value) : outcome = .ok value := by
  cases outcome with
  | error problem => cases done
  | ok held => rw [Option.some.inj done]

/-- The relations of that store under a predicate of node-level access. -/
theorem aliceStore_relations :
    aliceStore.scanByPredicateAt countedBytes BUILTIN_MEMBER_OF_PRED
        ⟨aliceStore.committed, none, none⟩ (Timestamp.wrap 6) =
      .ok [.relation alice BUILTIN_MEMBER_OF_PRED (NodeId.ofByte 2) ⟨(NodeId.ofByte 11).uuid⟩
        ⟨Timestamp.zero, Timestamp.END_OF_TIME, Timestamp.wrap 5⟩] ∧
    aliceStore.scanByPredicateAt countedBytes BUILTIN_HAS_ACCESS_PRED
        ⟨aliceStore.committed, none, none⟩ (Timestamp.wrap 6) =
      .ok [.relation (NodeId.ofByte 2) BUILTIN_HAS_ACCESS_PRED (NodeId.ofByte 3)
        ⟨(NodeId.ofByte 12).uuid⟩ ⟨Timestamp.zero, Timestamp.END_OF_TIME, Timestamp.wrap 5⟩] ∧
    aliceStore.scanByPredicateAt countedBytes BUILTIN_HAS_ACCESS_TYPE_PRED
        ⟨aliceStore.committed, none, none⟩ (Timestamp.wrap 6) = .ok [] :=
  ⟨eq_ok_of_toOption (by decide +kernel), eq_ok_of_toOption (by decide +kernel),
    eq_ok_of_toOption (by decide +kernel)⟩

/-- The user is in the group without an end, and the cache is that of the store. -/
theorem aliceServer_synced :
    aliceServer.store.buildAccessCache countedBytes aliceServer.prefixes ⟨[]⟩ (Timestamp.wrap 6) =
      .ok aliceServer.accessCache ∧
    aliceServer.store.MemberForever countedBytes (Timestamp.wrap 6) alice := by
  refine ⟨eq_ok_of_toOption (by decide +kernel), NodeId.ofByte 2,
    ⟨Timestamp.zero, Timestamp.END_OF_TIME, Timestamp.wrap 5⟩, ?_, rfl⟩
  exact ⟨_, aliceStore_relations.1, _, _, List.mem_singleton_self _⟩

end QueryServer

end Polargraph
