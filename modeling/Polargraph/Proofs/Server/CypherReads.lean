import Polargraph.Proofs.Query.Alike
import Polargraph.Proofs.Storage.Dating
import Polargraph.Proofs.Storage.Rewriting
import Polargraph.Server.Query

/-! What the graphs that a caller cannot read, or did not select, show in an answer in Cypher. -/

namespace Polargraph

/-- A list of graphs is the one a reader is confined to, or has every graph when it is not confined. -/
def Seen (readable : Option (List UInt32)) (graphs : List UInt32) : Prop :=
  match readable with
  | some own => graphs = own
  | none => ∀ raw, raw ∈ graphs

/-- There is such a list. -/
theorem exists_seen (readable : Option (List UInt32)) : ∃ graphs, Seen readable graphs := by
  cases readable with
  | some own => exact ⟨own, rfl⟩
  | none =>
    have every : ∀ size, size = UInt32.size → ∃ graphs : List UInt32, ∀ raw, raw ∈ graphs := by
      intro size bound
      refine ⟨(List.range size).map UInt32.ofNat, fun raw => List.mem_map.mpr ⟨raw.toNat, ?_, by simp⟩⟩
      exact List.mem_range.mpr (bound ▸ raw.toNat_lt_size)
    exact every _ rfl

/-- A reader sees the graphs of such a list. -/
theorem Seen.canRead {readable : Option (List UInt32)} {graphs : List UInt32}
    (seen : Seen readable graphs) (ts : Timestamp) (vtAsOf : Option Timestamp) (g : GraphId) :
    (ReadAt.mk ts vtAsOf (some graphs)).canRead g = (ReadAt.mk ts vtAsOf readable).canRead g := by
  cases readable with
  | none => exact List.contains_iff_mem.mpr (seen g.raw)
  | some own => rw [show graphs = own from seen]

namespace TripleStore

variable {ext : External} {readable : Option (List UInt32)} {graphs : List UInt32}
  {store left right : TripleStore}

/-- Two stores have the same names, and hold the same in the graphs a reader sees. -/
structure SameSelected (readable : Option (List UInt32)) (left right : TripleStore) : Prop where
  /-- The graphs of IRIs. -/
  graphFwd : ∀ iri, left.graphFwd iri = right.graphFwd iri
  /-- The IRIs of graphs. -/
  graphRev : ∀ g, left.graphRev g = right.graphRev g
  /-- The vocabulary. -/
  vocabulary : left.vocabulary = right.vocabulary
  /-- The versions and the annotations. -/
  shown : ∀ graphs, Seen readable graphs → SameReadable graphs left right

/-- What is stored was recorded by the counter, under keys of their widths. -/
structure WellDated (store : TripleStore) : Prop where
  /-- All orders hold the same versions. -/
  orders : store.db.OrdersHold store.index
  /-- Every version was recorded by the counter. -/
  recorded : ∀ key bytes, store.index key = some bytes → key.tt ≤ store.committed
  /-- So was every annotation. -/
  annotations : DatedBy store.db store.committed
  /-- The keys of annotations have their widths. -/
  keyed : store.db.WellKeyed

/-- A new store is dated. -/
theorem wellDated_configured (inlineMax : Nat) (vocabulary : Vocabulary) (canonical : Bool) :
    (configured inlineMax vocabulary canonical).WellDated where
  orders := (sound_configured External.unreached inlineMax vocabulary canonical).keyed.holds
  recorded := (sound_configured External.unreached inlineMax vocabulary canonical).recorded
  annotations := datedBy_configured inlineMax vocabulary canonical _
  keyed := (Reachable.create inlineMax vocabulary canonical :
    Reachable External.unreached _).wellKeyed

/-- A commit keeps a store dated, until the counter runs out. -/
theorem WellDated.commit (dated : store.WellDated) (room : store.committed ≠ Timestamp.END_OF_TIME)
    (tx : Transaction) (wall : Timestamp) : (store.commit ext tx wall).1.WellDated := by
  obtain ⟨advanced, stamped⟩ := @committed_commit ext _ room tx wall
  refine ⟨Db.OrdersHold.self fun order => commit_holds ext store (dated.orders order) tx wall,
    fun key bytes found => ?_, dated.annotations.commit room tx wall, ?_⟩
  · rw [index_commit dated.orders] at found
    rcases Index.putAll_eq_some found with old | new
    · exact le_trans (dated.recorded key bytes old) advanced
    · exact le_of_eq (stamped _ new)
  · exact wellKeyed_commit dated.keyed tx wall

/-- So does naming a graph. -/
theorem WellDated.internGraph (dated : store.WellDated) {after : TripleStore} {iri : String}
    {g : GraphId} (done : store.internGraph ext iri = .ok (after, g)) : after.WellDated := by
  have orders := internGraph_orders dated.orders done
  have index : after.index = store.index := Db.OrdersHold.index_eq orders
  have committed : after.committed = store.committed := by
    unfold TripleStore.internGraph at done
    split_ifs at done
    split at done
    · cases done
      rfl
    · obtain ⟨_, _, done⟩ := Except.bind_eq_ok.mp done
      cases done
      rfl
  have kept : ∀ cf ∈ ANNOTATIONS, after.db.family cf = store.db.family cf := by
    intro cf annotation
    refine family_internGraph done ?_ ?_ <;> rintro rfl <;> simp [ANNOTATIONS] at annotation
  refine ⟨orders.self, ?_, ⟨?_, ?_⟩, dated.keyed.congr fun cf member => kept cf ?_⟩
  · rw [index, committed]
    exact dated.recorded
  · rw [kept .epa (by simp [ANNOTATIONS]), committed]
    exact dated.annotations.epa
  · rw [kept .epo (by simp [ANNOTATIONS]), committed]
    exact dated.annotations.epo
  · simpa [ANNOTATIONS] using member

/-- A version of an order was recorded by the counter. -/
theorem WellDated.keyTt_le (dated : store.WellDated) {order : Order} {entry : Bytes × Bytes}
    (member : entry ∈ (store.db.family (.quads order)).entries) : keyTt entry.1 ≤ store.committed := by
  obtain ⟨quad, key, found⟩ := (dated.orders order entry.1 entry.2).mp member
  rw [key, Order.keyTt_encode]
  exact dated.recorded quad entry.2 found

/-- The readable entries of two lists are the same when one of them is in the other. -/
theorem mem_of_readable {graphs : List UInt32} {graphOf : Bytes → GraphId}
    {first second : List (Bytes × Bytes)}
    (same : readableEntries graphs graphOf first = readableEntries graphs graphOf second)
    {entry : Bytes × Bytes} (member : entry ∈ first)
    (reads : readableAdmits (some graphs) (graphOf entry.1) = true) : entry ∈ second := by
  have kept : entry ∈ readableEntries graphs graphOf first := List.mem_filter.mpr ⟨member, reads⟩
  rw [same] at kept
  exact (List.mem_filter.mp kept).1

/-- A read at the other store's latest commit sees the same as one at the own latest commit. -/
theorem seenAlike_of_same (same : SameReadable graphs left right) (names : Seen readable graphs)
    (first : left.WellDated) (second : right.WellDated) {here there : Timestamp}
    (times : here = there ∨ left.committed ≤ here ∧ right.committed ≤ there)
    (vtAsOf : Option Timestamp) : left.SeenAlike ⟨here, vtAsOf, readable⟩
      ⟨there, vtAsOf, some graphs⟩ := by
  -- What is recorded by both counters is seen at both times.
  have seen : ∀ tt, tt ≤ left.committed → tt ≤ right.committed → (here < tt ↔ there < tt) := by
    intro tt early early'
    rcases times with rfl | ⟨late, late'⟩
    · exact Iff.rfl
    · exact iff_of_false (not_lt.mpr (le_trans early late)) (not_lt.mpr (le_trans early' late'))
  have admits : ∀ g, (ReadAt.mk here vtAsOf readable).canRead g = true →
      readableAdmits (some graphs) g = true := by
    intro g reads
    rw [← names.canRead] at reads
    exact reads
  refine ⟨rfl, fun g => (names.canRead here vtAsOf g).symm, ?_, ?_, ?_⟩
  · intro order entry member reads
    exact seen _ (first.keyTt_le member)
      (second.keyTt_le (mem_of_readable (same.versions order) member (admits _ reads)))
  · intro entry member dk decoded reads
    obtain ⟨dk', decoded', graph⟩ := decodeEpaKey_ok entry.1 (first.keyed.epa entry member)
    obtain rfl := Except.ok.inj (decoded.symm.trans decoded')
    rw [graph] at reads
    exact seen _ (first.annotations.epa entry member dk decoded) (second.annotations.epa entry
      (mem_of_readable same.epa member (admits _ reads)) dk decoded)
  · intro entry member dk decoded reads
    obtain ⟨dk', decoded', graph⟩ := decodeEpoKey_ok entry.1 (first.keyed.epo entry member)
    obtain rfl := Except.ok.inj (decoded.symm.trans decoded')
    rw [graph] at reads
    exact seen _ (first.annotations.epo entry member dk decoded) (second.annotations.epo entry
      (mem_of_readable same.epo member (admits _ reads)) dk decoded)

end TripleStore

namespace Snapshot.Alike

variable {ext : External}

/-- Snapshots of a store at points that see the same are alike. -/
theorem of_seenAlike {store : TripleStore} {first second : ReadAt}
    (seen : store.SeenAlike first second) (now : Timestamp) (prefixes : String → Option String) :
    Alike ext ⟨store, first, now, prefixes⟩ ⟨store, second, now, prefixes⟩ where
  now := rfl
  prefixes := rfl
  vocabulary := rfl
  graphId _ := rfl
  graphForNode _ := rfl
  graphNode _ := rfl
  bySubjectPredicate _ _ := seen.scanPredicate ..
  byPredicate _ := seen.scanPredicate ..
  inScope _ _ := seen.scanScopedAt ..
  execute choice := by
    cases choice <;> simp only [Snapshot.execute, scanBySubjectPredicate, scanByPredicate,
      TripleStore.scanBySubjectPredicateAt, TripleStore.scanBySubjectAt,
      TripleStore.scanBySubjectObjectAt, TripleStore.scanByPredicateObjectAt,
      TripleStore.scanByPredicateAt, TripleStore.scanByObjectAt, TripleStore.scanAllAt,
      seen.scanPredicate, seen.scanUnion]
  annotations := seen.scanEdgeAnnotationsWith

/-- Snapshots of stores with the same names, that hold the same in the readable graphs, are alike. -/
theorem of_sameSelected {readable : Option (List UInt32)} {graphs : List UInt32}
    {left right : TripleStore} (same : TripleStore.SameSelected readable left right)
    (shown : SameReadable graphs left right) (first : left.db.WellKeyed)
    (second : right.db.WellKeyed) (ts : Timestamp) (vtAsOf : Option Timestamp) (now : Timestamp)
    (prefixes : String → Option String) :
    Alike ext ⟨left, ⟨ts, vtAsOf, some graphs⟩, now, prefixes⟩
      ⟨right, ⟨ts, vtAsOf, some graphs⟩, now, prefixes⟩ where
  now := rfl
  prefixes := rfl
  vocabulary := same.vocabulary
  graphId := same.graphFwd
  graphForNode node := by
    simp only [TripleStore.graphForNode, TripleStore.listGraphs, TripleStore.graphIri,
      same.graphRev, shown.nextGraphId]
  graphNode g := by simp only [TripleStore.graphNode, TripleStore.graphIri, same.graphRev]
  bySubjectPredicate _ _ := TripleStore.scanPredicate_congr shown rfl ..
  byPredicate _ := TripleStore.scanPredicate_congr shown rfl ..
  inScope _ _ := TripleStore.scanScopedAt_congr shown rfl ..
  execute choice := by
    cases choice <;> simp (disch := rfl) only [Snapshot.execute, scanBySubjectPredicate,
      scanByPredicate, TripleStore.scanBySubjectPredicateAt, TripleStore.scanBySubjectAt,
      TripleStore.scanBySubjectObjectAt, TripleStore.scanByPredicateObjectAt,
      TripleStore.scanByPredicateAt, TripleStore.scanByObjectAt, TripleStore.scanAllAt,
      TripleStore.scanPredicate_congr shown, TripleStore.scanUnion_congr shown]
  annotations edge := TripleStore.scanEdgeAnnotationsWith_congr shown first second edge ts

/-- Being alike is transitive. -/
theorem trans {left middle right : Snapshot} (first : Alike ext left middle)
    (second : Alike ext middle right) : Alike ext left right where
  now := first.now.trans second.now
  prefixes := first.prefixes.trans second.prefixes
  vocabulary := first.vocabulary.trans second.vocabulary
  graphId iri := (first.graphId iri).trans (second.graphId iri)
  graphForNode node := (first.graphForNode node).trans (second.graphForNode node)
  graphNode g := (first.graphNode g).trans (second.graphNode g)
  bySubjectPredicate s p := (first.bySubjectPredicate s p).trans (second.bySubjectPredicate s p)
  byPredicate p := (first.byPredicate p).trans (second.byPredicate p)
  inScope pattern scope := (first.inScope pattern scope).trans (second.inScope pattern scope)
  execute choice := (first.execute choice).trans (second.execute choice)
  annotations edge := (first.annotations edge).trans (second.annotations edge)

/-- Reads of both stores are alike, at the same time or each at its latest commit. -/
theorem of_stores {readable : Option (List UInt32)} {left right : TripleStore}
    (same : TripleStore.SameSelected readable left right) (first : left.WellDated)
    (second : right.WellDated) {here there : Timestamp}
    (times : here = there ∨ left.committed ≤ here ∧ right.committed ≤ there)
    (vtAsOf : Option Timestamp) (now : Timestamp) (prefixes : String → Option String) :
    Alike ext ⟨left, ⟨here, vtAsOf, readable⟩, now, prefixes⟩
      ⟨right, ⟨there, vtAsOf, readable⟩, now, prefixes⟩ := by
  obtain ⟨graphs, names⟩ := exists_seen readable
  have shown := same.shown graphs names
  have own : Alike ext _ _ := of_seenAlike
    (TripleStore.seenAlike_of_same shown names first second times vtAsOf) now prefixes
  have other : Alike ext _ _ := of_sameSelected same shown first.keyed second.keyed there vtAsOf now
    prefixes
  have every : right.SeenAlike ⟨there, vtAsOf, some graphs⟩ ⟨there, vtAsOf, readable⟩ :=
    .of_graphs right rfl rfl (names.canRead there vtAsOf)
  exact (own.trans other).trans (of_seenAlike every now prefixes)

end Snapshot.Alike

namespace TripleStore

variable {ext : External} {left right : TripleStore} {graphs : List UInt32}

/-- The newest node among an edge's annotations is the same at points that see the same. -/
theorem SeenAlike.nodeAnnotations {store : TripleStore} {first second : ReadAt}
    (seen : store.SeenAlike first second) (start : Bytes) :
    ((store.db.family .epo).scanPrefix start).foldlM
        (nodeAnnotationEntry first.ts first.readable) none =
      ((store.db.family .epo).scanPrefix start).foldlM
        (nodeAnnotationEntry second.ts second.readable) none := by
  refine List.foldlM_congr_items (fun entry member best => ?_) none
  have stored := (SortedMap.mem_scanPrefix.mp member).1
  unfold nodeAnnotationEntry
  cases decoded : decodeEpoKey entry.1 with
  | error problem => rfl
  | ok dk =>
    have graph := seen.canRead dk.g
    simp only [bind, Except.bind, readableAdmits_eq]
    by_cases reads : first.canRead dk.g = true
    · have time := seen.epo entry stored dk decoded reads
      exact if_congr (or_congr time (by rw [graph])) rfl rfl
    · have hidden : second.canRead dk.g = false := by simpa [graph] using reads
      simp only [graph, hidden, Bool.not_false, or_true, if_true]

/-- The annotation of an edge is the same at points that see the same. -/
theorem SeenAlike.getEdgeAnnotationWith {store : TripleStore} {first second : ReadAt}
    (seen : store.SeenAlike first second) (edge : EdgeId) (predicate : String) :
    store.getEdgeAnnotationWith ext edge predicate first.ts first.readable =
      store.getEdgeAnnotationWith ext edge predicate second.ts second.readable := by
  have scalars : ∀ start, latestAnnotations decodeEpaKey (fun _ => ()) first.ts first.readable
      ((store.db.family .epa).scanPrefix start) = latestAnnotations decodeEpaKey (fun _ => ())
        second.ts second.readable ((store.db.family .epa).scanPrefix start) := fun start =>
    latestAnnotations_alike seen.canRead
      (fun entry member => seen.epa entry (SortedMap.mem_scanPrefix.mp member).1) _
  simp only [TripleStore.getEdgeAnnotationWith, scalars, seen.nodeAnnotations]

/-- A restricted reader finds the same annotation of an edge in stores with the same readable ones. -/
theorem getEdgeAnnotationWith_congr (same : SameReadable graphs left right)
    (first : left.db.WellKeyed) (second : right.db.WellKeyed) (edge : EdgeId) (predicate : String)
    (ts : Timestamp) : left.getEdgeAnnotationWith ext edge predicate ts (some graphs) =
      right.getEdgeAnnotationWith ext edge predicate ts (some graphs) := by
  have only : ∀ entries : List (Bytes × Bytes), (∀ entry ∈ entries, entry.1.length = 48) →
      entries.foldlM (nodeAnnotationEntry ts (some graphs)) none =
        (entries.filter fun entry =>
          readableAdmits (some graphs) (edgeRelationGraph entry.1)).foldlM
            (nodeAnnotationEntry ts (some graphs)) none := by
    refine fun entries wide => List.foldlM_of_skips (fun best entry member unread => ?_) none
    obtain ⟨dk, decoded, graph⟩ := decodeEpoKey_ok entry.1 (wide _ member)
    refine Except.bind_eq_ok.mpr ⟨dk, decoded, ?_⟩
    rw [if_pos (Or.inr (by rw [graph, unread]; rfl))]
    rfl
  have nodes : ∀ start, ((left.db.family .epo).scanPrefix start).foldlM
      (nodeAnnotationEntry ts (some graphs)) none = ((right.db.family .epo).scanPrefix start).foldlM
        (nodeAnnotationEntry ts (some graphs)) none := by
    intro start
    rw [only _ fun entry member => first.epo entry (SortedMap.mem_scanPrefix.mp member).1,
      only _ fun entry member => second.epo entry (SortedMap.mem_scanPrefix.mp member).1,
      SortedMap.filter_scanPrefix_congr same.epo start]
  simp only [TripleStore.getEdgeAnnotationWith, same.predicateId, nodes,
    latestAnnotations_congr decodeEpaKey_ok first.epa second.epa same.epa]

/-- Where a reader sees every graph, the annotation of an edge is the same in both stores. -/
theorem getEdgeAnnotation_congr (same : SameSelected none left right) (first : left.WellDated)
    (second : right.WellDated) {here there : Timestamp}
    (times : here = there ∨ left.committed ≤ here ∧ right.committed ≤ there) (edge : EdgeId)
    (predicate : String) : left.getEdgeAnnotation ext edge predicate here =
      right.getEdgeAnnotation ext edge predicate there := by
  obtain ⟨graphs, names⟩ := exists_seen none
  have shown := same.shown graphs names
  have every : right.SeenAlike ⟨there, none, some graphs⟩ ⟨there, none, none⟩ :=
    .of_graphs right rfl rfl (names.canRead there none)
  calc left.getEdgeAnnotationWith ext edge predicate here none
      = left.getEdgeAnnotationWith ext edge predicate there (some graphs) :=
        (seenAlike_of_same shown names first second times none).getEdgeAnnotationWith edge predicate
    _ = right.getEdgeAnnotationWith ext edge predicate there (some graphs) :=
        getEdgeAnnotationWith_congr shown first.keyed second.keyed edge predicate there
    _ = right.getEdgeAnnotationWith ext edge predicate there none :=
        every.getEdgeAnnotationWith edge predicate

end TripleStore

namespace QueryServer

variable {ext : External} {arith : FloatArithmetic} {matchesRegex : String → String → Bool}
  {compiler : CypherCompiler} {server : QueryServer} {store : TripleStore}
  {request : CypherQueryRequest}

/-- The server over another store. -/
def holding (server : QueryServer) (store : TripleStore) : QueryServer := { server with store := store }

/-- The graphs a Cypher query reads, nothing when it reads every graph. -/
def selected (ext : External) (compiler : CypherCompiler) (server : QueryServer)
    (request : CypherQueryRequest) : Option (List UInt32) :=
  (server.cypherSnapshot compiler request (server.snapshotFor Timestamp.zero
    (callerAccess ext server.graphAccess request.userId))).point.readable

/-- The valid time a Cypher query reads at. -/
def validTimeOf (request : CypherQueryRequest) : Option Timestamp :=
  if request.asOfValidTime = Timestamp.zero then none else some request.asOfValidTime

/-- What a Cypher query reads at a time. -/
theorem cypherSnapshot_eq (ts : Timestamp) : server.cypherSnapshot compiler request
    (server.snapshotFor ts (callerAccess ext server.graphAccess request.userId)) =
      ⟨server.store, ⟨ts, validTimeOf request, server.selected ext compiler request⟩, server.now,
        server.prefixes⟩ := by
  unfold selected cypherSnapshot cypherSnapshotScope inferredScope withVtAsOf snapshotFor validTimeOf
    ReadAt.withinGraphs ReadAt.withoutGraphs
  cases compiler.useGraph request.cypher <;> dsimp only <;> split_ifs <;> rfl

/-- A Cypher query reads at the time it starts from. -/
theorem ts_cypherSnapshot (ts : Timestamp) (access : Option UserGraphAccess) :
    (server.cypherSnapshot compiler request (server.snapshotFor ts access)).point.ts = ts := by
  unfold cypherSnapshot cypherSnapshotScope inferredScope withVtAsOf snapshotFor ReadAt.withinGraphs
    ReadAt.withoutGraphs
  cases compiler.useGraph request.cypher <;> dsimp only <;> split_ifs <;> rfl

/-- Stores with the same names select the same graphs. -/
theorem cypherGraphs_over (same : ∀ iri, server.store.graphFwd iri = store.graphFwd iri)
    (graphs : List String) : (server.holding store).cypherGraphs graphs = server.cypherGraphs graphs := by
  simp only [cypherGraphs, holding, TripleStore.graphId, same]

/-- The same graphs are read in both stores. -/
theorem selected_over {readable : Option (List UInt32)}
    (same : TripleStore.SameSelected readable server.store store) :
    (server.holding store).selected ext compiler request = server.selected ext compiler request := by
  obtain ⟨graphs, names⟩ := exists_seen readable
  have next := (same.shown graphs names).nextGraphId
  have listed : store.listGraphs = server.store.listGraphs := by
    simp only [TripleStore.listGraphs, TripleStore.graphIri, same.graphRev, next]
  have inferred : store.inferredGraphs = server.store.inferredGraphs := by
    simp only [TripleStore.inferredGraphs, TripleStore.inferredLabel, TripleStore.graphId, listed,
      same.graphFwd]
  have graphs := cypherGraphs_over same.graphFwd
  unfold selected cypherSnapshot cypherSnapshotScope inferredScope ReadAt.withoutGraphs
  simp only [graphs]
  have graph : (server.holding store).graphAccess = server.graphAccess := rfl
  have table : (server.holding store).store = store := rfl
  rw [graph, table, inferred, listed]
  unfold withVtAsOf snapshotFor
  cases compiler.useGraph request.cypher <;> dsimp only <;> split_ifs <;> rfl

/-- A request is compiled to the same query. -/
theorem compileRequest_over {readable : Option (List UInt32)}
    (same : TripleStore.SameSelected readable server.store store) :
    (server.holding store).compileRequest compiler request = server.compileRequest compiler request := by
  simp only [compileRequest, cypherDataset, cypherGraphs_over same.graphFwd]
  simp only [holding, same.vocabulary]

/-- A request is refused over both stores, or reads them at one time or at their latest commits. -/
theorem cypherReadAt_over (access : Option UserGraphAccess) :
    (∃ refused, server.cypherReadAt request access = .error refused ∧
      (server.holding store).cypherReadAt request access = .error refused) ∨
    ∃ here there, (here = there ∨ server.store.committed ≤ here ∧ store.committed ≤ there) ∧
      server.cypherReadAt request access = .ok (server.snapshotFor here access) ∧
      (server.holding store).cypherReadAt request access =
        .ok ((server.holding store).snapshotFor there access) := by
  unfold cypherReadAt snapshotAt
  split_ifs with named zero
  · have open_ : (server.holding store).openTx = server.openTx := rfl
    rw [open_]
    cases server.openTx request.txId with
    | none => exact Or.inl ⟨_, rfl, rfl⟩
    | some tx => exact Or.inr ⟨tx.readTs, tx.readTs, Or.inl rfl, rfl, rfl⟩
  · exact Or.inr ⟨_, _, Or.inr ⟨le_refl _, le_refl _⟩, rfl, rfl⟩
  · exact Or.inr ⟨_, _, Or.inl rfl, rfl, rfl⟩

/-- Snapshots that are alike give the properties of nodes the same values. -/
theorem propertyOf_alike {left right : Snapshot} (alike : Snapshot.Alike ext left right) :
    propertyOf ext left = propertyOf ext right := by
  funext node prop
  simp only [propertyOf, alike.bySubjectPredicate, alike.vocabulary, alike.prefixes]

/-- The condition under which an answer reads nothing but the selected graphs. -/
def ReadsSelected (ext : External) (compiler : CypherCompiler) (server : QueryServer)
    (request : CypherQueryRequest) (compiled : CompiledQuery) : Prop :=
  compiled.edgePropProjections = [] ∨ server.selected ext compiler request = none

/-- What both servers read in Cypher is alike. -/
theorem alike_cypherSnapshot
    (same : TripleStore.SameSelected (server.selected ext compiler request) server.store store)
    (first : server.store.WellDated) (second : store.WellDated) {here there : Timestamp}
    (times : here = there ∨ server.store.committed ≤ here ∧ store.committed ≤ there) :
    Snapshot.Alike ext (server.cypherSnapshot compiler request (server.snapshotFor here
        (callerAccess ext server.graphAccess request.userId)))
      ((server.holding store).cypherSnapshot compiler request ((server.holding store).snapshotFor there
        (callerAccess ext server.graphAccess request.userId))) := by
  have own := @cypherSnapshot_eq ext compiler server request here
  have other := @cypherSnapshot_eq ext compiler (server.holding store) request there
  rw [selected_over same] at other
  rw [own]
  refine Eq.mp (congrArg (Snapshot.Alike ext _) other.symm) ?_
  exact .of_stores same first second times _ _ _

/-- The rows of both servers have the same values. -/
theorem projectRow_over {compiled : CompiledQuery}
    (same : TripleStore.SameSelected (server.selected ext compiler request) server.store store)
    (first : server.store.WellDated) (second : store.WellDated) {left right : Snapshot}
    (alike : Snapshot.Alike ext left right)
    (times : left.point.ts = right.point.ts ∨
      server.store.committed ≤ left.point.ts ∧ store.committed ≤ right.point.ts)
    (reads : server.ReadsSelected ext compiler request compiled) :
    server.projectRow ext compiled left = (server.holding store).projectRow ext compiled right := by
  funext row
  have edges : compiled.edgePropProjections.filterMap (fun projection =>
      ((row.groupKeys.lookup projection.1).bind (fun node =>
        server.edgePropertyOf ext left ⟨node.uuid⟩ projection.2)).map
          (fun value => (projection.1 ++ "." ++ projection.2, value))) =
      compiled.edgePropProjections.filterMap (fun projection =>
        ((row.groupKeys.lookup projection.1).bind (fun node =>
          (server.holding store).edgePropertyOf ext right ⟨node.uuid⟩ projection.2)).map
            (fun value => (projection.1 ++ "." ++ projection.2, value))) := by
    rcases reads with nothing | every
    · rw [nothing]
      rfl
    · -- Without a restriction the store itself shows no more than the snapshot.
      rw [every] at same
      have annotation : ∀ edge prop, server.edgePropertyOf ext left edge prop =
          (server.holding store).edgePropertyOf ext right edge prop := by
        intro edge prop
        have latest := @TripleStore.getEdgeAnnotation_congr ext server.store store same first second
          left.point.ts right.point.ts times edge
        simp only [edgePropertyOf, latest, alike.vocabulary, alike.prefixes]
        rfl
      simp only [ annotation]
  simp only [projectRow, projectedValues, propertyOf_alike alike]
  exact congrArg (CypherBinding.mk _) (congrArg List.reverse (congrArg (· ++ _)
    (congrArg (_ ++ ·) edges)))

/-- Third-party code that reads the text of a user, and writes a one-letter text as JSON. -/
def annotatedText : External where
  xxh3_128 bytes := bytes.length
  parseUuid text := if text = (NodeId.ofByte 1).uuid.display then some (NodeId.ofByte 1).uuid else none
  jsonToVec
    | .text content =>
      .ok (utf8 "\x7b\"type\":\"Text\",\"v\":\"" ++ utf8 content ++ utf8 "\"\x7d")
    | _ => .error "not a text"
  jsonFromSlice bytes :=
    if bytes = utf8 "\x7b\"type\":\"Text\",\"v\":\"x\"\x7d" then .ok (.text "x")
    else .error "not the text"

/-- A relation from the first clock tick on. -/
def linked (predicate : String) (edge : UInt8) : Triple :=
  .relation (NodeId.ofByte 3) predicate (NodeId.ofByte 4) ⟨(NodeId.ofByte edge).uuid⟩
    ⟨Timestamp.zero, Timestamp.END_OF_TIME, Timestamp.zero⟩

/-- A new store in which a graph is named. -/
def graphedStore : TripleStore :=
  match TripleStore.create.internGraph annotatedText "urn:g" with
  | .ok (store, _) => store
  | .error _ => .create

/-- A store with two relations in the default graph. -/
def linkedStore : TripleStore :=
  (graphedStore.commit annotatedText (((Transaction.new Timestamp.zero).insertIn
    (linked "urn:knows" 13) GraphId.DEFAULT .auto).insertIn (linked "urn:since" 14) GraphId.DEFAULT
      .auto) (Timestamp.wrap 5)).1

/-- An annotation of one of them in the other graph. -/
def hiddenNote : Transaction :=
  (Transaction.new (Timestamp.wrap 5)).insertIn (.edgeProperty ⟨(NodeId.ofByte 13).uuid⟩ "urn:since"
    (.text "x") ⟨Timestamp.zero, Timestamp.END_OF_TIME, Timestamp.zero⟩) ⟨1⟩ .auto

/-- The same store with the annotation. -/
def notedStore : TripleStore := (linkedStore.commit annotatedText hiddenNote (Timestamp.wrap 6)).1

/-- A server for a user without grants, who can read the default graph only. -/
def ungranted (store : TripleStore) : QueryServer where
  store := store
  prefixes _ := none
  registry := []
  graphAccess := ⟨[], .fromLevels [] []⟩
  accessCache := []
  openTx _ := none
  vectorHits _ _ := []
  edges _ := ⟨(NodeId.ofByte 20).uuid⟩
  rounds := 5
  now := Timestamp.wrap 9

/-- A compiled query that returns the ends of a relation and perhaps a property of its edge. -/
def linkPlan (props : List (String × String)) : CompiledQuery where
  query := [⟨.var "s", some "urn:knows", none, .var "o", some "r", none, .union⟩]
  rules := []
  valueFilters := []
  textFilters := []
  returnVars := ["s", "o"]
  limit := none
  vectorNear := none
  aggregations := []
  groupKeys := ["s", "o"]
  orderBy := []
  skip := none
  edgeAnnotationFilters := []
  propProjections := []
  edgePropProjections := props
  edgeIdProjections := []
  nodeIdProjections := []
  graph := none

/-- A compiler of the texts of such queries. -/
def linkCompiler (props : List (String × String)) : CypherCompiler where
  compile _ _ := .ok (linkPlan props)
  isWriteStatement _ := false
  useGraph _ := none

/-- A request of the user. -/
def linkRequest : CypherQueryRequest where
  cypher := "MATCH (s)-[r:<urn:knows>]->(o) RETURN s, o, r.<urn:since>"
  params := []
  graphs := []
  asOfTxTime := Timestamp.zero
  asOfValidTime := Timestamp.zero
  excludeInferred := false
  hasVector := false
  userId := (NodeId.ofByte 1).uuid.display
  txId := ""

/-- Arithmetic for answers without numbers. -/
def numberless : FloatArithmetic := ⟨fun _ => 0, fun _ => 0, fun _ _ => 0, fun _ _ => 0, fun _ _ => 0⟩

/-- Both stores are dated. -/
theorem notedStore_dated : linkedStore.WellDated ∧ notedStore.WellDated := by
  have named : graphedStore.WellDated := by
    unfold graphedStore
    split
    · rename_i done
      exact (TripleStore.wellDated_configured _ _ _).internGraph done
    · exact TripleStore.wellDated_configured _ _ _
  have first : linkedStore.WellDated := named.commit (by decide +kernel) _ _
  exact ⟨first, first.commit (by decide +kernel) _ _⟩

/-- The stores differ in a graph the user cannot read. -/
theorem notedStore_same : TripleStore.SameSelected (some [0]) linkedStore notedStore := by
  have known : ∀ w ∈ hiddenNote.writes, (linkedStore.predicateId w.triple.predicate).isSome := by
    decide +kernel
  obtain ⟨db, committed, after⟩ := @TripleStore.commit_known annotatedText _ _ (Timestamp.wrap 6) known
  have values : (linkedStore.db.family .blob).entries = (notedStore.db.family .blob).entries := by
    decide +kernel
  have versions : ∀ order ∈ Order.ALL,
      readableEntries [0] order.graphOf (linkedStore.db.family (.quads order)).entries =
        readableEntries [0] order.graphOf (notedStore.db.family (.quads order)).entries := by
    decide +kernel
  refine ⟨fun iri => by rw [notedStore, after], fun g => by rw [notedStore, after],
    by rw [notedStore, after], ?_⟩
  rintro graphs rfl
  exact {
    predicateId := fun name => by rw [notedStore, after]; rfl
    rev := fun id => by rw [notedStore, after]
    nextGraphId := by rw [notedStore, after]
    versions := fun order => versions order (by cases order <;> decide)
    blobs := fun order entry _ _ q _ => by
      rw [Db.get, Db.get, SortedMap.find?, SortedMap.find?, values]
    epa := by decide +kernel
    pea := by decide +kernel
    epo := by decide +kernel }

end QueryServer

end Polargraph
