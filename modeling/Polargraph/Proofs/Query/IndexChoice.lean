import Polargraph.Proofs.Query.Overlay
import Polargraph.Proofs.Storage.Immutable

/-! Whichever index a pattern is read from, it selects the same triples of a full scan. -/

namespace Polargraph

variable {ext : External}

namespace TripleStore

variable {store after : TripleStore}

/-- A graph is the default one, or has been handed an identifier. -/
def GivenGraph (store : TripleStore) (g : GraphId) : Prop :=
  g = GraphId.DEFAULT ∨ g.raw.toNat < store.nextGraphId.toNat

/-- A store that patterns can be read from by any index. -/
structure Addressed (ext : External) (store : TripleStore) : Prop where
  /-- What is stored reads back. -/
  intact : store.Intact ext
  /-- Predicates are spelled one way. -/
  spelled : store.Spelled
  /-- Their identifiers are handed out in order. -/
  numbered : store.Numbered
  /-- Every quad is in a graph that can be named. -/
  graphs : ∀ key bytes, store.index key = some bytes → store.GivenGraph key.g

/-- A step that writes stable values to given graphs while there are identifiers left. -/
def Placing (ext : External) (store : TripleStore) : Growth → Prop
  | .commit tx _ => store.committed ≠ Timestamp.END_OF_TIME ∧ (∀ w ∈ tx.writes, w.Stable ext) ∧
      store.nextPredId.toNat + tx.writes.length < 2 ^ 32 ∧
      ∀ w ∈ tx.writes, store.GivenGraph w.graph
  | .internGraph _ => store.nextGraphId.toNat + 1 < 2 ^ 32
  | .setInlineValueMaxBytes n => store.inlineValueMaxBytes ≤ n

/-- A new store is addressed. -/
theorem addressed_configured (ext : External) (inlineMax : Nat) (vocabulary : Vocabulary)
    (canonical : Bool) : (configured inlineMax vocabulary canonical).Addressed ext := by
  have blank := index_configured inlineMax vocabulary canonical
  refine ⟨intact_configured ext inlineMax vocabulary canonical, nofun, nofun,
    fun key bytes found => ?_⟩
  rw [blank] at found
  cases found

/-- A commit to given graphs keeps a store addressed. -/
theorem Addressed.commit (addressed : store.Addressed ext) {tx : Transaction} {wall : Timestamp}
    (safe : store.Placing ext (.commit tx wall)) : (store.commit ext tx wall).1.Addressed ext := by
  obtain ⟨room, stable, names, graphs⟩ := safe
  have holds := addressed.intact.sound.keyed.holds
  have same := store.sameGraphs_commit ext tx wall
  refine ⟨addressed.intact.commit room stable wall,
    addressed.spelled.commit addressed.numbered names wall,
    (keepsNames_commit addressed.numbered names wall).numbered, fun key bytes found => ?_⟩
  rw [@index_commit ext _ holds] at found
  rw [GivenGraph, same.nextGraphId]
  rcases Index.putAll_eq_some found with old | new
  · exact addressed.graphs key bytes old
  · -- A version that was not there is in the graph of one of the writes.
    obtain ⟨w, member, own⟩ := exists_graph_commitQuads holds tx wall _ new
    rw [own]
    exact graphs w member

/-- Interning a graph keeps a store addressed while there are identifiers left. -/
theorem Addressed.internGraph (addressed : store.Addressed ext) {iri : String} {g : GraphId}
    (room : store.nextGraphId.toNat + 1 < 2 ^ 32)
    (done : store.internGraph ext iri = .ok (after, g)) : after.Addressed ext := by
  obtain ⟨⟨sound, stored, rewritable, named⟩, spelled, numbered, graphs⟩ := addressed
  obtain ⟨kept, _, index, _, _⟩ := internGraph_kept sound done
  obtain ⟨fwd, rev, nextPredId⟩ := names_internGraph done
  have limit := (sameSettings_internGraph done).limit
  have family : after.db.family .blob = store.db.family .blob :=
    family_internGraph done nofun nofun
  have later : store.nextGraphId.toNat ≤ after.nextGraphId.toNat := by
    have next : (store.nextGraphId + 1).toNat = store.nextGraphId.toNat + 1 := by
      rw [UInt32.toNat_add, UInt32.toNat_one, Nat.mod_eq_of_lt room]
    unfold TripleStore.internGraph at done
    split_ifs at done
    split at done
    · cases done
      exact le_refl _
    · obtain ⟨_, _, done⟩ := Except.bind_eq_ok.mp done
      cases done
      simp only [next]
      omega
  refine ⟨⟨kept, stored.internGraph index done, ⟨fun key bytes found => ?_, fun hash payload => ?_⟩, ?_⟩,
    ?_, ?_, fun key bytes found => ?_⟩
  · rw [index] at found
    intro value window decoded other
    rw [limit]
    exact rewritable.inline key bytes found value window decoded other
  · rw [Db.get, family]
    exact rewritable.blobs hash payload
  · rw [index, rev]
    exact named
  · rw [Spelled, fwd, rev]
    exact spelled
  · rw [Numbered, rev, nextPredId]
    exact numbered
  · rw [index] at found
    exact (graphs key bytes found).imp_right fun below => lt_of_lt_of_le below later

/-- Every step to given graphs keeps a store addressed. -/
theorem Addressed.grow (addressed : store.Addressed ext) {step : Growth}
    (safe : store.Placing ext step) (taken : store.grow ext step = some after) :
    after.Addressed ext := by
  cases step with
  | commit tx wall =>
    cases taken
    exact addressed.commit safe
  | internGraph iri =>
    simp only [TripleStore.grow] at taken
    split at taken
    · rename_i middle g done
      cases taken
      exact addressed.internGraph safe done
    · cases taken
      exact addressed
  | setInlineValueMaxBytes n =>
    cases taken
    obtain ⟨⟨⟨⟨holds, names, values, blobs⟩, recorded⟩, ⟨interned, resolves, decodes, decoded⟩,
      ⟨inline, serializes⟩, named⟩, spelled, numbered, graphs⟩ := addressed
    refine ⟨⟨⟨⟨holds, names, values, blobs⟩, recorded⟩, ⟨interned, resolves, decodes, decoded⟩,
      ⟨fun key bytes found value window decoded other => ?_, serializes⟩, named⟩, spelled, numbered,
      graphs⟩
    -- What was kept inline below the lower limit is kept inline below the higher one.
    obtain ⟨written, encoded, small⟩ := inline key bytes found value window decoded other
    exact ⟨written, encoded, le_trans small safe⟩

/-- While no graph has a name every quad is in the default graph. -/
theorem Addressed.eq_default (addressed : store.Addressed ext) (unnamed : store.noGraphs = true)
    {key : QuadKey} {bytes : Bytes} (found : store.index key = some bytes) :
    key.g = GraphId.DEFAULT := by
  rcases addressed.graphs key bytes found with same | below
  · exact same
  · rw [of_decide_eq_true unnamed] at below
    exact GraphId.ext (UInt32.toNat_inj.mp (Nat.lt_one_iff.mp below))

end TripleStore

namespace Snapshot

variable {snapshot : Snapshot}

/-- What a pattern evaluates to is what it asks for of a full scan, whichever index is read. -/
structure Selects (ext : External) (snapshot : Snapshot) (pattern : Pattern)
    (found all : List Triple) : Prop where
  /-- The triples that have the bound slots are found, as the full scan returns them. -/
  members : ∀ triple, triple ∈ found ↔ triple ∈ all ∧ snapshot.Asks pattern (triple.key ext)
  /-- Each subject, predicate and object slot is found once. -/
  once : (found.map (Triple.key ext)).Nodup
  /-- Any other pattern finds the same copy. -/
  copy : ∀ other others, snapshot.evaluate ext other = .ok others → ∀ left ∈ found,
    ∀ right ∈ others, left.key ext = right.key ext → left = right

/-- Of a triple only one quad is answered with. -/
theorem Answers.unique (addressed : snapshot.store.Addressed ext) {one two : Pattern}
    {left right : QuadIds} (first : snapshot.Answers one left) (second : snapshot.Answers two right)
    (shown : snapshot.store.Shows snapshot.point.ts snapshot.vt left)
    (shown' : snapshot.store.Shows snapshot.point.ts snapshot.vt right)
    (s : left.s = right.s) (p : left.p = right.p) (o : left.o = right.o) : left = right := by
  obtain ⟨ls, lp, lo, lg⟩ := left
  obtain ⟨rs, rp, ro, rg⟩ := right
  simp only at s p o
  subst s p o
  suffices same : lg = rg by rw [same]
  by_cases unnamed : snapshot.store.noGraphs = true
  · -- Without named graphs both are in the default one.
    have graph : ∀ ids, snapshot.store.Shows snapshot.point.ts snapshot.vt ids →
        ids.g = GraphId.DEFAULT := by
      intro ids shows
      obtain ⟨tt, version, governs, _⟩ := shows
      exact addressed.eq_default unnamed (Index.history_eq_some.mp governs.seen.stored).1
    exact (graph _ shown).trans (graph _ shown').symm
  · -- Each is the lowest readable graph that shows the triple.
    have below := (first.lowest.resolve_left unnamed) rg second.wanted.readable shown'
    have above := (second.lowest.resolve_left unnamed) lg first.wanted.readable shown
    exact GraphId.ext (UInt32.le_antisymm below above)

/-- Triples of one key that two patterns evaluate to are the same copy. -/
theorem eq_of_key (addressed : snapshot.store.Addressed ext) {one two : Pattern}
    {found others : List Triple} (done : snapshot.evaluate ext one = .ok found)
    (done' : snapshot.evaluate ext two = .ok others) {left right : Triple} (member : left ∈ found)
    (member' : right ∈ others) (same : left.key ext = right.key ext) : left = right := by
  have keyed := addressed.intact.sound.keyed
  obtain ⟨ids, answers, shown, read⟩ := exists_of_evaluate addressed.intact done member
  obtain ⟨ids', answers', shown', read'⟩ := exists_of_evaluate addressed.intact done' member'
  obtain ⟨name, key⟩ := key_of_read keyed read
  obtain ⟨name', key'⟩ := key_of_read keyed read'
  obtain ⟨s, rest⟩ := Prod.mk.inj (key.symm.trans (same.trans key'))
  obtain ⟨predicate, o⟩ := Prod.mk.inj rest
  have p : ids.p = ids'.p := by
    rw [← predicate] at name'
    exact Option.some.inj ((keyed.named _ _ name).symm.trans (keyed.named _ _ name'))
  rw [Answers.unique addressed answers answers' shown shown' s p o] at read
  exact read.unique read'

/-- What a pattern evaluates to has each key once. -/
theorem nodup_keys (addressed : snapshot.store.Addressed ext) {pattern : Pattern}
    {found : List Triple} (done : snapshot.evaluate ext pattern = .ok found) :
    (found.map (Triple.key ext)).Nodup := by
  have keyed := addressed.intact.sound.keyed
  obtain ⟨quads, evaluated, result⟩ := snapshot.evaluate_spec addressed.intact pattern
  cases done.symm.trans evaluated
  rw [List.map_map]
  refine List.Nodup.map_on ?_ (List.Nodup.of_map _ result.distinct)
  intro left member right member' same
  have ids : left.1 = right.1 := by
    obtain ⟨answers, shown⟩ := (result.mem_iff left.1).mp (List.mem_map_of_mem member)
    obtain ⟨answers', shown'⟩ := (result.mem_iff right.1).mp (List.mem_map_of_mem member')
    obtain ⟨name, key⟩ := key_of_read keyed (result.read left member)
    obtain ⟨name', key'⟩ := key_of_read keyed (result.read right member')
    obtain ⟨s, rest⟩ := Prod.mk.inj (key.symm.trans (same.trans key'))
    obtain ⟨predicate, o⟩ := Prod.mk.inj rest
    rw [← predicate] at name'
    have p := Option.some.inj ((keyed.named _ _ name).symm.trans (keyed.named _ _ name'))
    exact Answers.unique addressed answers answers' shown shown' s p o
  exact List.inj_on_of_nodup_map result.distinct member member' ids

end Snapshot

namespace TripleStore

/-- A store in which one graph has a name. -/
def withNamedGraph : TripleStore :=
  ((configured DEFAULT_INLINE_VALUE_MAX_BYTES Vocabulary.default true).grow External.unreached
    (.internGraph "urn:a")).getD create

/-- A relation between two nodes, of an edge. -/
def knowsAlong (edge : UInt8) (g : GraphId) : PendingWrite :=
  ⟨.relation (NodeId.ofByte 1) "knows" (NodeId.ofByte 2) ⟨(NodeId.ofByte edge).uuid⟩
    ⟨Timestamp.zero, Timestamp.END_OF_TIME, Timestamp.zero⟩, g, .add⟩

/-- A transaction that relates two nodes in the default graph and in the named one. -/
def knowingTwice : Transaction :=
  { withNamedGraph.begin with writes := [knowsAlong 3 ⟨1⟩, knowsAlong 4 GraphId.DEFAULT] }

/-- A store that relates two nodes in two graphs, by an edge each. -/
def knownTwice : TripleStore :=
  (withNamedGraph.commit External.unreached knowingTwice (Timestamp.wrap 5)).1

/-- The store that relates two nodes in two graphs is addressed. -/
theorem knownTwice_addressed : knownTwice.Addressed External.unreached := by
  have created := addressed_configured External.unreached DEFAULT_INLINE_VALUE_MAX_BYTES
    Vocabulary.default true
  have first : (1 : UInt32).toNat + 1 < 2 ^ 32 := by decide
  have named : withNamedGraph.Addressed External.unreached :=
    @Addressed.grow External.unreached _ _ created (.internGraph "urn:a") first rfl
  refine named.commit ⟨by decide +kernel, fun w member => ?_, by decide +kernel, fun w member => ?_⟩
  · simp only [knowingTwice, List.mem_cons, List.not_mem_nil, or_false] at member
    rcases member with rfl | rfl <;> exact fun _ _ _ _ => nofun
  · simp only [knowingTwice, List.mem_cons, List.not_mem_nil, or_false] at member
    rcases member with rfl | rfl
    · exact Or.inr (by decide +kernel)
    · exact Or.inl rfl

end TripleStore

end Polargraph
