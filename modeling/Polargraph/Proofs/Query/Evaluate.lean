import Polargraph.Proofs.Server.QuadNames
import Polargraph.Query.Eval

/-! What the evaluation of one pattern returns, whichever index it reads. -/

namespace Polargraph

namespace TripleStore

variable {ext : External} {store : TripleStore}

/-- The entry that a union read holds for a subject, predicate and object after one more quad. -/
private def keepLowest (held : List ((NodeId × PredId × NodeId) × GraphId × Triple))
    (quad : QuadIds × Triple) : List ((NodeId × PredId × NodeId) × GraphId × Triple) :=
  Latest.entryUpdate (quad.1.s, quad.1.p, quad.1.o) (quad.1.g, quad.2)
    (fun prev => if prev.1.raw ≤ quad.1.g.raw then prev else (quad.1.g, quad.2)) held

/-- The entries of a union read hold the quad of the lowest graph for each triple read so far. -/
private structure HoldsLowest (held : List ((NodeId × PredId × NodeId) × GraphId × Triple))
    (read : List (QuadIds × Triple)) : Prop where
  /-- Each triple is held once. -/
  distinct : (held.map Prod.fst).Nodup
  /-- What is held is what was read in the lowest graph. -/
  lowest : ∀ s p o g triple, Latest.lookup (s, p, o) held = some (g, triple) ↔
    (⟨s, p, o, g⟩, triple) ∈ read ∧ ∀ other ∈ read, other.1.s = s → other.1.p = p →
      other.1.o = o → g.raw ≤ other.1.g.raw
  /-- Every triple that was read is held. -/
  covers : ∀ quad ∈ read, (Latest.lookup (quad.1.s, quad.1.p, quad.1.o) held).isSome

/-- One more quad is taken into account. -/
private theorem HoldsLowest.step {held : List ((NodeId × PredId × NodeId) × GraphId × Triple)}
    {read : List (QuadIds × Triple)} (holds : HoldsLowest held read) {quad : QuadIds × Triple}
    (new : quad.1 ∉ read.map Prod.fst) : HoldsLowest (keepLowest held quad) (read ++ [quad]) := by
  obtain ⟨⟨s, p, o, g⟩, triple⟩ := quad
  have fresh : ∀ other ∈ read, other.1 ≠ ⟨s, p, o, g⟩ := fun other member same =>
    new (List.mem_map.mpr ⟨other, member, same⟩)
  refine ⟨Latest.nodup_entryUpdate _ _ _ holds.distinct, fun s' p' o' g' triple' => ?_,
    fun other member => ?_⟩
  · by_cases own : (s', p', o') = (s, p, o)
    · obtain ⟨rfl, rest⟩ := Prod.mk.inj own
      obtain ⟨rfl, rfl⟩ := Prod.mk.inj rest
      simp only [keepLowest, Latest.lookup_entryUpdate_self, Option.some.injEq]
      cases before : Latest.lookup (s', p', o') held with
      | none =>
        -- Nothing of this triple was read before.
        have absent : ∀ other ∈ read, other.1.s = s' → other.1.p = p' → other.1.o = o' → False := by
          intro other member rfl rfl rfl
          have there := holds.covers other member
          rw [before] at there
          cases there
        simp only [Option.getD_none, ite_self, Prod.mk.injEq, List.mem_append, List.mem_singleton]
        constructor
        · rintro ⟨rfl, rfl⟩
          refine ⟨Or.inr ⟨rfl, rfl⟩, fun other member first second third => ?_⟩
          rcases member with old | rfl
          · exact (absent other old first second third).elim
          · exact UInt32.le_refl _
        · rintro ⟨old | ⟨same, rfl⟩, _⟩
          · exact (absent _ old rfl rfl rfl).elim
          · exact ⟨(QuadIds.mk.inj same).2.2.2.symm, rfl⟩
      | some best =>
        obtain ⟨low, kept⟩ := best
        obtain ⟨member, least⟩ := (holds.lowest _ _ _ _ _).mp before
        simp only [Option.getD_some, List.mem_append, List.mem_singleton]
        by_cases lower : low.raw ≤ g.raw
        · rw [if_pos lower, Prod.mk.injEq]
          constructor
          · rintro ⟨rfl, rfl⟩
            refine ⟨Or.inl member, fun other inside first second third => ?_⟩
            rcases inside with old | rfl
            · exact least other old first second third
            · exact lower
          · rintro ⟨old | same, best⟩
            · -- Both are lowest among what was read before.
              have again := (holds.lowest _ _ _ _ _).mpr
                ⟨old, fun other inside => best other (Or.inl inside)⟩
              rw [before] at again
              exact Prod.mk.inj (Option.some.inj again)
            · -- The new quad is no lower than the held one, and is not the same quad.
              obtain ⟨ids, rfl⟩ := Prod.mk.inj same
              obtain ⟨_, _, _, rfl⟩ := QuadIds.mk.inj ids
              have below := best _ (Or.inl member) rfl rfl rfl
              have equal : low = g' := GraphId.ext (UInt32.le_antisymm lower below)
              exact absurd (by rw [equal]) (fresh _ member)
        · rw [if_neg lower, Prod.mk.injEq]
          have higher : g.raw ≤ low.raw := (UInt32.le_total low.raw g.raw).resolve_left lower
          constructor
          · rintro ⟨rfl, rfl⟩
            refine ⟨Or.inr rfl, fun other inside first second third => ?_⟩
            rcases inside with old | rfl
            · exact UInt32.le_trans higher (least other old first second third)
            · exact UInt32.le_refl _
          · rintro ⟨old | same, best⟩
            · have above := least _ old rfl rfl rfl
              have below := best _ (Or.inr rfl) rfl rfl rfl
              exact absurd (UInt32.le_trans above below) lower
            · obtain ⟨ids, rfl⟩ := Prod.mk.inj same
              exact ⟨(QuadIds.mk.inj ids).2.2.2.symm, rfl⟩
    · -- The entries of other triples are left alone.
      simp only [keepLowest, Latest.lookup_entryUpdate_ne own, holds.lowest, List.mem_append,
        List.mem_singleton]
      constructor
      · rintro ⟨member, least⟩
        refine ⟨Or.inl member, fun other inside first second third => ?_⟩
        rcases inside with old | rfl
        · exact least other old first second third
        · exact absurd (by rw [← first, ← second, ← third]) own
      · rintro ⟨old | same, least⟩
        · exact ⟨old, fun other inside => least other (Or.inl inside)⟩
        · obtain ⟨ids, rfl⟩ := Prod.mk.inj same
          obtain ⟨rfl, rfl, rfl, rfl⟩ := QuadIds.mk.inj ids
          exact absurd rfl own
  · by_cases own : (other.1.s, other.1.p, other.1.o) = (s, p, o)
    · simp [keepLowest, own]
    · rw [keepLowest, Latest.lookup_entryUpdate_ne own]
      rcases List.mem_append.mp member with old | last
      · exact holds.covers other old
      · cases List.mem_singleton.mp last
        exact absurd rfl own

/-- A union read keeps, of each triple, the quad in the lowest graph. -/
theorem lowestGraphs_spec {quads : List (QuadIds × Triple)} (distinct : (quads.map Prod.fst).Nodup) :
    ∃ kept : List (QuadIds × Triple), lowestGraphs quads = kept.map Prod.snd ∧
      (kept.map Prod.fst).Nodup ∧ ∀ quad, quad ∈ kept ↔ quad ∈ quads ∧ ∀ other ∈ quads,
        other.1.s = quad.1.s → other.1.p = quad.1.p → other.1.o = quad.1.o →
          quad.1.g.raw ≤ other.1.g.raw := by
  -- The invariant is carried over the quads read so far.
  have loop : ∀ (rest read : List (QuadIds × Triple))
      (held : List ((NodeId × PredId × NodeId) × GraphId × Triple)),
      ((read ++ rest).map Prod.fst).Nodup → HoldsLowest held read →
      HoldsLowest (rest.foldl keepLowest held) (read ++ rest) := by
    intro rest
    induction rest with
    | nil => simp
    | cons quad rest ih =>
      intro read held apart holds
      have new : quad.1 ∉ read.map Prod.fst := by
        intro member
        rw [List.map_append] at apart
        exact (List.nodup_append.mp apart).2.2 _ member _ (by simp) rfl
      have next := ih (read ++ [quad]) (keepLowest held quad) (by simpa using apart) (holds.step new)
      simpa using next
  have whole : HoldsLowest (quads.foldl keepLowest []) quads :=
    loop quads [] [] (by simpa using distinct) ⟨by simp, by simp [Latest.lookup], by simp⟩
  refine ⟨(quads.foldl keepLowest []).map
    fun slot => (⟨slot.1.1, slot.1.2.1, slot.1.2.2, slot.2.1⟩, slot.2.2), ?_, ?_, fun quad => ?_⟩
  · rw [List.map_map]
    rfl
  · have keys := whole.distinct
    rw [List.map_map]
    refine List.Nodup.of_map (fun ids : QuadIds => (ids.s, ids.p, ids.o)) ?_
    simpa [List.map_map, Function.comp_def] using keys
  · obtain ⟨⟨s, p, o, g⟩, triple⟩ := quad
    rw [← whole.lowest, ← Latest.mem_iff_lookup whole.distinct, List.mem_map]
    constructor
    · rintro ⟨⟨⟨s', p', o'⟩, g', triple'⟩, member, same⟩
      obtain ⟨ids, rfl⟩ := Prod.mk.inj same
      obtain ⟨rfl, rfl, rfl, rfl⟩ := QuadIds.mk.inj ids
      exact member
    · intro member
      exact ⟨_, member, rfl⟩

/-- What a version reads back as is a triple of its quad. -/
theorem triple_of_reconstruct {ids : QuadIds} {tt : Timestamp} {bytes : Bytes} {triple : Triple}
    (fits : Fits ext ids.o bytes)
    (blobs : ∀ entry ∈ (store.db.family .blob).entries, BlobFits ext entry.1 entry.2)
    (rebuilt : store.reconstruct ext ids.s ids.p ids.o tt bytes = .ok triple) :
    store.rev ids.p = some triple.predicate ∧
      ((∃ edge window, triple = .relation ids.s triple.predicate ids.o edge window) ∨
        ∃ value window, triple = .property ids.s triple.predicate value window ∧
          valueObject ext value = ids.o) := by
  obtain ⟨name, known, ⟨edge, window, rfl⟩ | ⟨value, window, rfl, own, _⟩⟩ :=
    reconstruct_cases fits blobs rebuilt
  · exact ⟨known, Or.inl ⟨edge, window, rfl⟩⟩
  · exact ⟨known, Or.inr ⟨value, window, rfl, own⟩⟩

/-- A quad that a read across all graphs answers with: the one in the lowest graph that shows it. -/
structure Answers (store : TripleStore) (s : Option NodeId) (predicate : Option String)
    (o : Option NodeId) (point : ReadAt) (vt : Timestamp) (ids : QuadIds) : Prop where
  /-- The bound slots agree, and the reader may see the graph. -/
  wanted : store.Wanted s predicate o .union point ids
  /-- No lower graph that the reader may see has the triple. -/
  lowest : store.noGraphs = true ∨ ∀ g, point.canRead g = true →
    store.Shows point.ts vt { ids with g := g } → ids.g.raw ≤ g.raw

/-- Keys under the prefix of components that lead an order are those of quads that have them. -/
theorem admits_iff {order : Order} {s : Option NodeId} {p : Option PredId} {o : Option NodeId}
    (leads : ∀ slot, ((⟨s, p, o, none⟩ : Bound).bytes slot).isSome →
      slot ∈ order.slots.takeWhile (fun slot => ((⟨s, p, o, none⟩ : Bound).bytes slot).isSome))
    {point : ReadAt} {ids : QuadIds} :
    ScanAdmits order (order.keyPrefix s p o none) point .union ids ↔
      Bound.Matches ⟨s, p, o, none⟩ ids ∧ point.canRead ids.g = true :=
  ⟨fun admits => ⟨Order.matches_of_keyPrefix leads admits.under, admits.readable⟩,
    fun ⟨agrees, readable⟩ => ⟨keyPrefix_covers agrees order, rfl, readable⟩⟩

/-- A read across all graphs under a prefix answers with the quads that have its components. -/
theorem Intact.scanUnion_spec (intact : store.Intact ext) (order : Order) (s : Option NodeId)
    (p : Option PredId) (o : Option NodeId)
    (leads : ∀ slot, ((⟨s, p, o, none⟩ : Bound).bytes slot).isSome →
      slot ∈ order.slots.takeWhile (fun slot => ((⟨s, p, o, none⟩ : Bound).bytes slot).isSome))
    {predicate : Option String} (resolved : predicate.map store.predicateId = p.map some)
    (point : ReadAt) (now : Timestamp) :
    ∃ quads : List (QuadIds × Triple),
      store.scanUnion ext order (order.keyPrefix s p o none) point now =
        .ok (quads.map Prod.snd) ∧
      store.ScanResult ext point.ts (point.vtAsOf.getD now)
        (store.Answers s predicate o point (point.vtAsOf.getD now)) quads := by
  have holds := intact.sound.keyed.holds
  have short := Order.keyPrefix_short order s p o none
  obtain ⟨quads, scanned⟩ := (snapshotScanKeyed_spec ext (holds order) short point now
    .union).1.mpr fun ids slot finds =>
      intact.rebuilds (Index.history_eq_some.mp finds.governs.seen.stored).1 slot.tt
  have result := scanResult_of_keyed (holds order) short scanned
  have wanted : ∀ ids, ScanAdmits order (order.keyPrefix s p o none) point .union ids ↔
      store.Wanted s predicate o .union point ids := by
    intro ids
    rw [admits_iff leads]
    constructor
    · rintro ⟨agrees, readable⟩
      refine ⟨fun node same => agrees.s node same, ?_, fun node same => agrees.o node same, rfl,
        readable⟩
      rintro name rfl
      cases p with
      | none => simp at resolved
      | some id =>
        have known : store.predicateId name = some id := by simpa using resolved
        rw [known, agrees.p id rfl]
    · intro asked
      exact ⟨⟨asked.subject, asked.pred resolved, asked.object, by simp⟩, asked.readable⟩
  by_cases none : store.noGraphs = true
  · refine ⟨quads, Except.bind_eq_ok.mpr ⟨quads, scanned, if_pos none⟩, result.distinct,
      fun ids => ?_, result.read⟩
    rw [result.mem_iff, wanted]
    exact and_congr_left fun _ => ⟨fun asked => ⟨asked, Or.inl none⟩, Answers.wanted⟩
  · obtain ⟨kept, lowest, distinct, members⟩ := lowestGraphs_spec result.distinct
    refine ⟨kept, Except.bind_eq_ok.mpr ⟨quads, scanned, ?_⟩, distinct, fun ids => ?_,
      fun quad member => result.read quad ((members quad).mp member).1⟩
    · rw [if_neg none, lowest]
      rfl
    · constructor
      · intro member
        obtain ⟨quad, inside, rfl⟩ := List.mem_map.mp member
        obtain ⟨within, least⟩ := (members quad).mp inside
        obtain ⟨admits, shows⟩ := (result.mem_iff quad.1).mp (List.mem_map.mpr ⟨quad, within, rfl⟩)
        refine ⟨⟨(wanted _).mp admits, Or.inr fun g readable shown => ?_⟩, shows⟩
        -- The same triple in another graph was read too.
        have asked := (wanted _).mp admits
        have other := (result.mem_iff { quad.1 with g := g }).mpr ⟨(wanted _).mpr
          ⟨asked.subject, asked.predicate, asked.object, rfl, readable⟩, shown⟩
        obtain ⟨beside, there, same⟩ := List.mem_map.mp other
        have below := least beside there (by rw [same]) (by rw [same]) (by rw [same])
        rwa [same] at below
      · rintro ⟨answers, shows⟩
        obtain ⟨quad, within, rfl⟩ := List.mem_map.mp
          ((result.mem_iff ids).mpr ⟨(wanted ids).mpr answers.wanted, shows⟩)
        refine List.mem_map.mpr ⟨quad, (members quad).mpr ⟨within, ?_⟩, rfl⟩
        intro other there s p o
        obtain ⟨admits, shown⟩ := (result.mem_iff other.1).mp (List.mem_map.mpr ⟨other, there, rfl⟩)
        have same : { quad.1 with g := other.1.g } = other.1 := by
          simp only [← s, ← p, ← o]
        exact (answers.lowest.resolve_left none) other.1.g admits.readable (by rwa [same])

/-- A read across all graphs for a predicate, which is empty when the predicate has no identifier. -/
theorem Intact.scanPredicate_spec (intact : store.Intact ext) (order : Order) (s o : Option NodeId)
    (leads : ∀ p slot, ((⟨s, some p, o, none⟩ : Bound).bytes slot).isSome →
      slot ∈ order.slots.takeWhile
        (fun slot => ((⟨s, some p, o, none⟩ : Bound).bytes slot).isSome))
    (name : String) (point : ReadAt) (now : Timestamp) :
    ∃ quads : List (QuadIds × Triple),
      store.scanPredicate ext name order (fun p => order.keyPrefix s (some p) o none) point now =
        .ok (quads.map Prod.snd) ∧
      store.ScanResult ext point.ts (point.vtAsOf.getD now)
        (store.Answers s (some name) o point (point.vtAsOf.getD now)) quads := by
  cases known : store.predicateId name with
  | some p =>
    simp only [scanPredicate, known]
    exact intact.scanUnion_spec order s (some p) o (leads p) (by simp [known]) point now
  | none =>
    refine ⟨[], by simp only [scanPredicate, known]; rfl, by simp, fun ids => ?_, by simp⟩
    refine ⟨by simp, fun ⟨answers, _⟩ => ?_⟩
    have interned := answers.wanted.predicate name rfl
    rw [known] at interned
    cases interned

end TripleStore

namespace Snapshot

variable {ext : External} {snapshot : Snapshot}

/-- The valid time of a snapshot's reads. -/
def vt (snapshot : Snapshot) : Timestamp := snapshot.point.vtAsOf.getD snapshot.now

/-- A quad that a pattern evaluates to. -/
def Answers (snapshot : Snapshot) (pattern : Pattern) : QuadIds → Prop :=
  snapshot.store.Answers pattern.subject pattern.predicate pattern.object snapshot.point snapshot.vt

/-- Whether a triple's object slot is a node is whether its quad's is. -/
theorem objectMatches_iff (keyed : snapshot.store.Keyed ext) {ts vt : Timestamp} {ids : QuadIds}
    {triple : Triple} (read : snapshot.store.ReadFrom ext ts vt ids triple) (o : NodeId) :
    objectMatches ext o triple = true ↔ ids.o = o := by
  obtain ⟨tt, version, governs, _, _, rebuilt⟩ := read
  have stored := (Index.history_eq_some.mp governs.seen.stored).1
  obtain ⟨_, ⟨edge, window, said⟩ | ⟨value, window, said, own⟩⟩ :=
    TripleStore.triple_of_reconstruct (keyed.values _ _ stored) keyed.blobs rebuilt
  · rw [said]
    simp [objectMatches]
  · rw [said]
    simp [objectMatches, own]

/-- Whatever the index, a pattern evaluates to the quads that have its bound slots. -/
theorem evaluate_spec (intact : snapshot.store.Intact ext) (pattern : Pattern) :
    ∃ quads : List (QuadIds × Triple),
      snapshot.evaluate ext pattern = .ok (quads.map Prod.snd) ∧
      snapshot.store.ScanResult ext snapshot.point.ts snapshot.vt (snapshot.Answers pattern)
        quads := by
  obtain ⟨s, predicate, o⟩ := pattern
  -- Each index is scanned under a prefix of exactly the slots that are bound.
  cases s with
  | some s =>
    cases predicate with
    | some name =>
      obtain ⟨quads, done, result⟩ := intact.scanPredicate_spec .spog (some s) none
        (fun p slot => by cases slot <;> simp [Bound.bytes, Order.slots]) name snapshot.point
        snapshot.now
      cases o with
      | none => exact ⟨quads, done, result⟩
      | some o =>
        -- There is no prefix of all three slots: the object is compared afterwards.
        refine ⟨quads.filter fun quad => objectMatches ext o quad.2, ?_, ?_, fun ids => ?_,
          fun quad member => result.read quad (List.mem_filter.mp member).1⟩
        · refine Except.bind_eq_ok.mpr ⟨_, done, ?_⟩
          rw [List.filter_map]
          rfl
        · exact result.distinct.sublist (List.filter_sublist.map _)
        · have object : ∀ quad ∈ quads, objectMatches ext o quad.2 = true ↔ quad.1.o = o :=
            fun quad member => objectMatches_iff intact.sound.keyed (result.read quad member) o
          constructor
          · intro member
            obtain ⟨quad, within, rfl⟩ := List.mem_map.mp member
            obtain ⟨inside, agrees⟩ := List.mem_filter.mp within
            obtain ⟨⟨asked, lowest⟩, shows⟩ :=
              (result.mem_iff quad.1).mp (List.mem_map.mpr ⟨quad, inside, rfl⟩)
            refine ⟨⟨⟨asked.subject, asked.predicate, ?_, rfl, asked.readable⟩, lowest⟩, shows⟩
            intro node same
            exact ((object quad inside).mp agrees).trans (Option.some.inj same)
          · rintro ⟨⟨asked, lowest⟩, shows⟩
            have broad : snapshot.Answers ⟨some s, some name, none⟩ ids :=
              ⟨⟨asked.subject, asked.predicate, by simp, rfl, asked.readable⟩, lowest⟩
            obtain ⟨quad, inside, rfl⟩ := List.mem_map.mp ((result.mem_iff ids).mpr ⟨broad, shows⟩)
            exact List.mem_map.mpr ⟨quad, List.mem_filter.mpr
              ⟨inside, (object quad inside).mpr (asked.object o rfl)⟩, rfl⟩
    | none =>
      cases o with
      | some o =>
        exact intact.scanUnion_spec .sopg (some s) none (some o)
          (fun slot => by cases slot <;> simp [Bound.bytes, Order.slots]) rfl snapshot.point
          snapshot.now
      | none =>
        exact intact.scanUnion_spec .spog (some s) none none
          (fun slot => by cases slot <;> simp [Bound.bytes, Order.slots]) rfl snapshot.point
          snapshot.now
  | none =>
    cases predicate with
    | some name =>
      cases o with
      | some o =>
        exact intact.scanPredicate_spec .posg none (some o)
          (fun p slot => by cases slot <;> simp [Bound.bytes, Order.slots]) name snapshot.point
          snapshot.now
      | none =>
        exact intact.scanPredicate_spec .psog none none
          (fun p slot => by cases slot <;> simp [Bound.bytes, Order.slots]) name snapshot.point
          snapshot.now
    | none =>
      cases o with
      | some o =>
        exact intact.scanUnion_spec .ospg none none (some o)
          (fun slot => by cases slot <;> simp [Bound.bytes, Order.slots]) rfl snapshot.point
          snapshot.now
      | none =>
        exact intact.scanUnion_spec .spog none none none
          (fun slot => by cases slot <;> simp [Bound.bytes, Order.slots]) rfl snapshot.point
          snapshot.now

/-- Of the readable graphs that show a triple one is the lowest, and the triple is read there. -/
theorem exists_answers {pattern : Pattern} {ids : QuadIds}
    (wanted : snapshot.store.Wanted pattern.subject pattern.predicate pattern.object .union
      snapshot.point ids) (shows : snapshot.store.Shows snapshot.point.ts snapshot.vt ids) :
    ∃ g, snapshot.Answers pattern { ids with g := g } ∧
      snapshot.store.Shows snapshot.point.ts snapshot.vt { ids with g := g } := by
  let shown (n : Nat) : Prop := ∃ g : GraphId, g.raw.toNat = n ∧ snapshot.point.canRead g = true ∧
    snapshot.store.Shows snapshot.point.ts snapshot.vt { ids with g := g }
  have some_ : ∃ n, shown n := ⟨_, ids.g, rfl, wanted.readable, shows⟩
  classical
  obtain ⟨g, number, readable, here⟩ := Nat.find_spec some_
  refine ⟨g, ⟨⟨wanted.subject, wanted.predicate, wanted.object, rfl, readable⟩,
    Or.inr fun other may there => ?_⟩, here⟩
  have least := Nat.find_min' some_ ⟨other, rfl, may, there⟩
  rw [UInt32.le_iff_toNat_le, number]
  exact least

/-- A triple that is read has the predicate of its quad. -/
theorem predicateId_of_read (keyed : snapshot.store.Keyed ext) {ts vt : Timestamp} {ids : QuadIds}
    {triple : Triple} (read : snapshot.store.ReadFrom ext ts vt ids triple) :
    snapshot.store.predicateId triple.predicate = some ids.p := by
  obtain ⟨tt, version, governs, _, _, rebuilt⟩ := read
  have stored := (Index.history_eq_some.mp governs.seen.stored).1
  exact keyed.named _ _
    (TripleStore.triple_of_reconstruct (keyed.values _ _ stored) keyed.blobs rebuilt).1

/-- A triple that a pattern evaluates to is read from a quad that has the bound slots. -/
theorem exists_of_evaluate (intact : snapshot.store.Intact ext) {pattern : Pattern}
    {triples : List Triple} (done : snapshot.evaluate ext pattern = .ok triples) {triple : Triple}
    (member : triple ∈ triples) : ∃ ids, snapshot.Answers pattern ids ∧
      snapshot.store.Shows snapshot.point.ts snapshot.vt ids ∧
      snapshot.store.ReadFrom ext snapshot.point.ts snapshot.vt ids triple := by
  obtain ⟨quads, evaluated, result⟩ := snapshot.evaluate_spec intact pattern
  cases done.symm.trans evaluated
  obtain ⟨quad, inside, rfl⟩ := List.mem_map.mp member
  obtain ⟨answers, shows⟩ := (result.mem_iff quad.1).mp (List.mem_map.mpr ⟨quad, inside, rfl⟩)
  exact ⟨quad.1, answers, shows, result.read quad inside⟩

/-- In an intact store every pattern evaluates. -/
theorem exists_evaluate (intact : snapshot.store.Intact ext) (pattern : Pattern) :
    ∃ triples, snapshot.evaluate ext pattern = .ok triples := by
  obtain ⟨quads, done, _⟩ := snapshot.evaluate_spec intact pattern
  exact ⟨_, done⟩

end Snapshot

end Polargraph
