import Polargraph.Proofs.Server.QuadNames

/-! When a consumer of the change feed holds exactly the live quads. -/

namespace Polargraph

variable {ext : External}

namespace Feed

variable {store after : TripleStore}

/-- Whether a version has no end. -/
def isOpen (quad : StagedQuad) : Bool :=
  decide ((validTime quad.value).map Prod.snd = some Timestamp.END_OF_TIME)

/-- What the event of a version makes of the consumer's set. -/
def changeOf (store : TripleStore) (quad : StagedQuad) : Option (Change QuadName) :=
  (store.nameOfIds quad.key.toQuadIds).map fun name => ⟨name, isOpen quad⟩

/-- The event of a rebuilt version changes the consumer's set as the version says. -/
theorem change_quadEvent {commitTs : Timestamp} {author : String} {ops : List GraphOp}
    {entries : List (GraphId × Triple)} {quad : StagedQuad} {entry : GraphId × Triple}
    (fits : Fits ext quad.key.o quad.value)
    (blobs : ∀ entry ∈ (store.db.family .blob).entries, BlobFits ext entry.1 entry.2)
    (rebuilt : store.rebuildLogged ext commitTs quad = .ok entry) :
    (store.quadEvent (fun _ _ => true) .unfiltered none ⟨commitTs, author, ops, entries⟩ entry).bind
      (ChangeEvent.change ext) = changeOf store quad := by
  obtain ⟨triple, read, same⟩ := Except.bind_eq_ok.mp rebuilt
  cases same
  obtain ⟨name, _⟩ := @TripleStore.nameOf_of_reconstruct ext store quad.key.toQuadIds _ _ _ fits
    blobs read
  obtain ⟨_, _, inner⟩ := Except.bind_eq_ok.mp read
  obtain ⟨decoded, decodes, _⟩ := Except.bind_eq_ok.mp inner
  obtain ⟨window, here⟩ := validTime_of_decodeValue decodes
  have temporal : triple.temporal = ⟨window.1, window.2, commitTs⟩ :=
    TripleStore.temporal_of_reconstruct here read
  have kind : isOpen quad = decide (triple.temporal.vtEnd = Timestamp.END_OF_TIME) := by
    simp [isOpen, here, temporal]
  -- The event carries the wire form of the triple, from which the consumer takes the name.
  rw [changeOf, kind, ← name, TripleStore.nameOf]
  simp only [TripleStore.quadEvent, ChangeFilter.unfiltered, ChangeFilter.visible, Option.all_none,
    Bool.and_self, Bool.not_true, List.isEmpty_nil, Bool.or_self, Bool.false_eq_true, if_false]
  cases tripleToProto true triple with
  | none => rfl
  | some proto =>
    simp only [Option.map_some, Option.bind_some, ChangeEvent.change, ChangeKind.ofTriple]
    cases proto.quadName ext (store.graphName quad.key.g) with
    | none => rfl
    | some name =>
      simp only [Option.bind_some, Option.map_some]
      split_ifs with open_
      · simp [open_]
      · simp [open_]

/-- The consumer takes in a record as its versions say. -/
theorem receive_record {commitTs : Timestamp} {author : String} {ops : List GraphOp}
    {quads : List StagedQuad} {entries : List (GraphId × Triple)} {held : List QuadName}
    (fits : ∀ quad ∈ quads, Fits ext quad.key.o quad.value)
    (blobs : ∀ entry ∈ (store.db.family .blob).entries, BlobFits ext entry.1 entry.2)
    (rebuilt : quads.mapM (store.rebuildLogged ext commitTs) = .ok entries) :
    receive ext store held [⟨commitTs, author, ops, entries⟩] =
      (quads.filterMap (changeOf store)).foldl Change.apply held := by
  have silent : (ops.filterMap (store.opEvent .unfiltered none ⟨commitTs, author, ops, entries⟩)).filterMap
      (ChangeEvent.change ext) = [] := by
    refine List.filterMap_eq_nil_iff.mpr fun event member => ?_
    obtain ⟨op, _, made⟩ := List.mem_filterMap.mp member
    cases op <;> simp only [TripleStore.opEvent, ChangeFilter.unfiltered, ChangeFilter.visible,
      Option.all_none, Bool.and_self, if_true, Option.some.injEq] at made <;> subst made <;> rfl
  have each : entries.filterMap (fun entry => (store.quadEvent (fun _ _ => true) .unfiltered none
      ⟨commitTs, author, ops, entries⟩ entry).bind (ChangeEvent.change ext)) =
      quads.filterMap (changeOf store) := by
    -- The record stays the same while its versions are gone through.
    generalize all : (⟨commitTs, author, ops, entries⟩ : ChangeRecord) = record
    have same : ∃ listed, record = ⟨commitTs, author, ops, listed⟩ := ⟨entries, all.symm⟩
    have pairs := Except.mapM_eq_ok.mp rebuilt
    clear rebuilt silent all
    obtain ⟨listed, rfl⟩ := same
    induction pairs with
    | nil => rfl
    | cons first _ ih =>
      simp only [List.filterMap_cons, change_quadEvent (fits _ List.mem_cons_self) blobs first,
        ih fun quad member => fits quad (List.mem_cons_of_mem _ member)]
  rw [receive]
  simp only [List.flatMap_cons, List.flatMap_nil, List.append_nil, TripleStore.changeEvents,
    List.filterMap_append, silent, List.filterMap_filterMap]
  rw [each]

/-- The versions that a commit leaves, of those it writes. -/
def left (quads : List StagedQuad) : Index := Index.putAll (fun _ => none) quads

/-- A version is in step with its event: whether it has an end tells whether its quad is live. -/
structure InStep (store : TripleStore) (now : Timestamp) (ids : QuadIds) (start stop : Timestamp) :
    Prop where
  /-- It has begun. -/
  begun : start ≤ now
  /-- If it is the latest of its quad to start, it has no end or has ended. -/
  latest : store.WouldGovern now ids start → stop = Timestamp.END_OF_TIME ∨ stop ≤ now
  /-- If it is not, it has no end exactly if the quad is live. -/
  earlier : ¬ store.WouldGovern now ids start →
    (stop = Timestamp.END_OF_TIME ↔ store.Shows store.committed now ids)

/-- The events of a commit tell what it makes of the live quads, and reach the consumer. -/
structure Followed (ext : External) (feed : Feed) (tx : Transaction) (now : Timestamp) : Prop where
  /-- The clock does not go back. -/
  clock : feed.now ≤ now
  /-- It has not run out, and neither has the counter. -/
  room : now ≠ Timestamp.END_OF_TIME ∧ feed.store.nextCommitTs now ≠ Timestamp.END_OF_TIME
  /-- The author is not cut within a character. -/
  author : (fromUtf8 (authorBytes tx.author)).isSome
  /-- Operations, versions and the lengths of their values fit the counts of a log entry. -/
  counts : tx.graphOps.length < 2 ^ 16 ∧ (feed.store.commitQuads ext tx now).length < 2 ^ 32 ∧
    ∀ quad ∈ feed.store.commitQuads ext tx now, quad.value.length < 2 ^ 32
  /-- There are identifiers for its predicates. -/
  predicates : feed.store.nextPredId.toNat + tx.writes.length < 2 ^ 32
  /-- Its values read back. -/
  stable : ∀ w ∈ tx.writes, w.Stable ext
  /-- It writes to known graphs. -/
  graphs : ∀ w ∈ tx.writes, feed.store.KnownGraph w.graph
  /-- The versions it leaves are in step with their events. -/
  inStep : ∀ key bytes start stop, left (feed.store.commitQuads ext tx now) key = some bytes →
    validTime bytes = some (start, stop) → InStep feed.store now key.toQuadIds start stop

/-- A step whose events tell what it makes of the live quads. -/
def InTime (ext : External) (feed : Feed) : FeedStep → Prop
  | .internGraph _ => feed.store.nextGraphId.toNat + 1 < 2 ^ 32
  | .commit tx now => feed.Followed ext tx now

/-- What holds of a consumer that was told of everything. -/
structure Kept (ext : External) (feed : Feed) : Prop where
  /-- What is stored can be rebuilt. -/
  stored : feed.store.Rebuildable ext
  /-- What is stored reads back. -/
  sound : feed.store.Sound ext
  /-- Graphs have names of their own. -/
  graphs : feed.store.GraphsNamed
  /-- Predicates have identifiers of their own. -/
  numbered : feed.store.Numbered
  /-- The log entries are of commits so far. -/
  reached : feed.store.LogReached
  /-- The counter is past the epoch and has not run out. -/
  counter : Timestamp.zero ≤ feed.store.committed ∧ feed.store.committed ≠ Timestamp.END_OF_TIME
  /-- Neither has the clock. -/
  running : feed.now ≠ Timestamp.END_OF_TIME
  /-- Every version is in a known graph, and its predicate has a name. -/
  named : ∀ key bytes, feed.store.index key = some bytes →
    feed.store.KnownGraph key.g ∧ (feed.store.rev key.p).isSome
  /-- Every version has begun. -/
  begun : ∀ ids tt version, feed.store.index.history ids tt = some version →
    version.start ≤ feed.now
  /-- Every governing version has no end or has ended. -/
  settled : ∀ ids tt version,
    (feed.store.index.history ids).Governs feed.store.committed feed.now tt version →
    version.stop = Timestamp.END_OF_TIME ∨ version.stop ≤ feed.now
  /-- The consumer holds the live quads. -/
  held : ∀ name, name ∈ feed.held ↔ ∃ ids,
    feed.store.Shows feed.store.committed feed.now ids ∧ feed.store.nameOfIds ids = some name

variable {feed following : Feed}

/-- A clock that has not run out is before the end of time. -/
theorem lt_end {time : Timestamp} (running : time ≠ Timestamp.END_OF_TIME) :
    time < Timestamp.END_OF_TIME := lt_of_le_of_ne (Timestamp.le_END_OF_TIME time) running

/-- The same versions govern later, since every version has begun. -/
theorem Kept.governs_later (kept : feed.Kept ext) {now : Timestamp} (clock : feed.now ≤ now)
    {ids : QuadIds} {tt : Timestamp} {version : Version Timestamp Bytes} :
    (feed.store.index.history ids).Governs feed.store.committed now tt version ↔
      (feed.store.index.history ids).Governs feed.store.committed feed.now tt version := by
  have sees : ∀ {tt version},
      (feed.store.index.history ids).Sees feed.store.committed now tt version ↔
        (feed.store.index.history ids).Sees feed.store.committed feed.now tt version :=
    fun {tt version} => ⟨fun seen => ⟨seen.stored, seen.recorded, kept.begun _ _ _ seen.stored⟩,
      fun seen => ⟨seen.stored, seen.recorded, le_trans seen.begun clock⟩⟩
  exact ⟨fun governs => ⟨sees.mp governs.seen, fun other version' seen =>
      governs.latest other version' (sees.mpr seen)⟩,
    fun governs => ⟨sees.mpr governs.seen, fun other version' seen =>
      governs.latest other version' (sees.mp seen)⟩⟩

/-- The same quads are live later, since what governs has no end or has ended. -/
theorem Kept.shows_later (kept : feed.Kept ext) {now : Timestamp} (clock : feed.now ≤ now)
    (running : now ≠ Timestamp.END_OF_TIME) (ids : QuadIds) :
    feed.store.Shows feed.store.committed now ids ↔
      feed.store.Shows feed.store.committed feed.now ids := by
  constructor
  · rintro ⟨tt, version, governs, covers, ranked⟩
    exact ⟨tt, version, (kept.governs_later clock).mp governs, lt_of_le_of_lt clock covers, ranked⟩
  · rintro ⟨tt, version, governs, covers, ranked⟩
    refine ⟨tt, version, (kept.governs_later clock).mpr governs, ?_, ranked⟩
    rcases kept.settled ids tt version governs with endless | ended
    · rw [endless]
      exact lt_end running
    · exact absurd covers (not_lt.mpr ended)

/-- A consumer that was told of everything holds the live quads. -/
theorem Kept.reproduces (kept : feed.Kept ext) : feed.Reproduces ext := by
  have holds := kept.sound.keyed.holds
  have point : (⟨feed.store.committed, none, none⟩ : ReadAt).vtAsOf.getD feed.now = feed.now := rfl
  -- Every version can be rebuilt, so the scan succeeds.
  have succeeds : ∃ live, feed.store.scanScopedAt ext none none none .union
      ⟨feed.store.committed, none, none⟩ feed.now = .ok live := by
    rw [TripleStore.scanScopedAt_eq (p := none) rfl]
    obtain ⟨quads, scanned⟩ := (TripleStore.snapshotScanKeyed_spec ext
      (holds (TripleStore.chooseOrder none none none .union).1)
      (TripleStore.chooseOrder_short none none none .union) ⟨feed.store.committed, none, none⟩
      feed.now .union).1.mpr fun ids slot finds => by
        have stored := (Index.history_eq_some.mp finds.governs.seen.stored).1
        exact Maintained.exists_reconstruct (kept.named _ _ stored).2
          (kept.stored.decodes _ _ stored) (kept.stored.resolves _ _ stored) kept.stored.blobs slot.tt
    exact ⟨_, Except.bind_eq_ok.mpr ⟨quads, scanned, rfl⟩⟩
  obtain ⟨live, scanned⟩ := succeeds
  obtain ⟨quads, rfl, result⟩ := TripleStore.scanScopedAt_spec holds scanned
  rw [point] at result
  refine ⟨_, scanned, fun name => (kept.held name).trans ?_⟩
  have named : ∀ quad ∈ quads, feed.store.nameOf ext (quad.1.g, quad.2) =
      feed.store.nameOfIds quad.1 := by
    intro quad member
    obtain ⟨tt, version, governs, _, _, rebuilt⟩ := result.read quad member
    have stored := (Index.history_eq_some.mp governs.seen.stored).1
    exact (TripleStore.nameOf_of_reconstruct (kept.sound.keyed.values _ _ stored)
      kept.sound.keyed.blobs rebuilt).1
  have wanted : ∀ ids, feed.store.Wanted none none none .union
      ⟨feed.store.committed, none, none⟩ ids := fun ids =>
    ⟨fun _ => nofun, fun _ => nofun, fun _ => nofun, rfl, rfl⟩
  constructor
  · rintro ⟨ids, shows, here⟩
    obtain ⟨quad, member, rfl⟩ := List.mem_map.mp ((result.mem_iff ids).mpr ⟨wanted ids, shows⟩)
    exact ⟨_, List.mem_map.mpr ⟨quad, member, rfl⟩, (named quad member).trans here⟩
  · rintro ⟨_, member, here⟩
    obtain ⟨quad, inside, rfl⟩ := List.mem_map.mp member
    exact ⟨quad.1, ((result.mem_iff quad.1).mp (List.mem_map.mpr ⟨quad, inside, rfl⟩)).2,
      (named quad inside).symm.trans here⟩

/-- What a commit leaves is stored, and other versions stay. -/
theorem index_eq_left (quads : List StagedQuad) (index : Index) (key : QuadKey) :
    index.putAll quads key = (left quads key).or (index key) := by
  rw [left, Index.putAll_apply, Index.putAll_apply]
  split <;> rfl

/-- What a commit leaves of a quad is the last of what it writes of it. -/
theorem left_eq_some {quads : List StagedQuad} {key : QuadKey} {bytes : Bytes} :
    left quads key = some bytes ↔
      ((quads.filter (fun quad => decide (quad.key = key))).getLast?).map StagedQuad.value =
        some bytes := by
  rw [left, Index.putAll_apply]
  split <;> simp [*]

/-- What a followed commit makes of a quad. -/
theorem Kept.shows_commit (kept : feed.Kept ext) {tx : Transaction} {now : Timestamp}
    (followed : feed.Followed ext tx now) (done : (feed.store.commit ext tx now).1 = after)
    (decodes : ∀ key bytes, after.index key = some bytes → Decodes ext bytes) (ids : QuadIds) :
    match left (feed.store.commitQuads ext tx now) ⟨ids, after.committed⟩ with
    | none => after.Shows after.committed now ids ↔
        feed.store.Shows feed.store.committed feed.now ids
    | some bytes => after.Shows after.committed now ids ↔
        (validTime bytes).map Prod.snd = some Timestamp.END_OF_TIME := by
  have counted := kept.sound.counted kept.counter.2
  have index : after.index = feed.store.index.putAll (feed.store.commitQuads ext tx now) := by
    rw [← done]
    exact TripleStore.index_commit kept.sound.keyed.holds tx now
  obtain ⟨advanced, stamped⟩ := @TripleStore.committed_commit ext _ kept.counter.2 tx now
  have dated := @TripleStore.committed_commit_cases ext feed.store tx now
  rw [done] at advanced stamped dated
  have others : ∀ tt ≠ after.committed,
      after.index.history ids tt = feed.store.index.history ids tt := by
    intro tt apart
    have same : after.index ⟨ids, tt⟩ = feed.store.index ⟨ids, tt⟩ := by
      rw [index]
      refine Index.putAll_of_forall_ne _ fun quad member equal => apart ?_
      rw [← stamped quad member, equal]
    simp only [Index.history, same]
  have own : after.index ⟨ids, after.committed⟩ =
      (left (feed.store.commitQuads ext tx now) ⟨ids, after.committed⟩).or
        (feed.store.index ⟨ids, after.committed⟩) := by
    conv_lhs => rw [index]
    exact index_eq_left _ _ _
  split
  · rename_i nothing
    rw [nothing, Option.none_or] at own
    rw [← kept.shows_later followed.clock followed.room.1]
    refine TripleStore.shows_of_kept counted advanced (funext fun tt => ?_) now
    by_cases here : tt = after.committed
    · simp only [Index.history, here, own]
    · exact others tt here
  · rename_i bytes written
    rw [written, Option.some_or] at own
    obtain ⟨decoded, read⟩ := decodes _ _ own
    obtain ⟨⟨start, stop⟩, window⟩ := validTime_of_decodeValue read
    -- A commit that leaves a version is dated after the counter.
    have later : feed.store.committed < after.committed := by
      rcases dated with next | ⟨_, nothing⟩
      · rw [next]
        exact lt_of_lt_of_le (Timestamp.lt_wrap_succ kept.counter.2) (le_max_left _ _)
      · rw [nothing] at written
        cases written
    have record : after.index.history ids = (feed.store.index.history ids).put after.committed
        ⟨start, stop, bytes⟩ := by
      refine funext fun tt => ?_
      by_cases here : tt = after.committed
      · subst here
        rw [History.put_self]
        exact Index.history_eq_some.mpr ⟨own, window⟩
      · rw [others tt here, History.put_of_ne here]
    rw [TripleStore.shows_of_put counted later (le_refl _) record, window]
    have inStep := followed.inStep _ _ _ _ written window
    simp only [Option.map_some, Option.some.injEq]
    constructor
    · rintro (⟨would, covers⟩ | ⟨loses, shows⟩)
      · rcases inStep.latest would with endless | ended
        · exact endless
        · exact absurd covers (not_lt.mpr ended)
      · exact (inStep.earlier loses).mpr shows
    · intro endless
      by_cases would : feed.store.WouldGovern now ids start
      · refine Or.inl ⟨would, ?_⟩
        simp only [endless]
        exact lt_end followed.room.1
      · exact Or.inr ⟨would, (inStep.earlier would).mp endless⟩

/-- The last change of a quad's name is that of the last version written of the quad. -/
theorem last_changeOf (named : store.Named) (graphs : store.GraphsNamed) {tt : Timestamp}
    {quads : List StagedQuad} (stamped : ∀ quad ∈ quads, quad.key.tt = tt)
    (known : ∀ quad ∈ quads, store.KnownGraph quad.key.g) {ids : QuadIds} {name : QuadName}
    (here : store.KnownGraph ids.g) (own : store.nameOfIds ids = some name) :
    Change.last (quads.filterMap (changeOf store)) name =
      ((quads.filter (fun quad => decide (quad.key = ⟨ids, tt⟩))).getLast?).map isOpen := by
  have changes : (quads.filterMap (changeOf store)).filter (fun change => decide (change.key = name)) =
      (quads.filter (fun quad => decide (quad.key = ⟨ids, tt⟩))).map
        (fun quad => ⟨name, isOpen quad⟩) := by
    induction quads with
    | nil => rfl
    | cons quad rest ih =>
      have later := ih (fun other member => stamped other (List.mem_cons_of_mem _ member))
        (fun other member => known other (List.mem_cons_of_mem _ member))
      by_cases same : quad.key = ⟨ids, tt⟩
      · have change : changeOf store quad = some ⟨name, isOpen quad⟩ := by
          rw [changeOf, same, own]
          rfl
        rw [List.filterMap_cons_some change, List.filter_cons_of_pos (by simp), later,
          List.filter_cons_of_pos (by simp [same]), List.map_cons]
      · rw [List.filter_cons_of_neg (by simp [same])]
        cases made : changeOf store quad with
        | none => rw [List.filterMap_cons_none made, later]
        | some change =>
          obtain ⟨other, theirs, rfl⟩ := Option.map_eq_some_iff.mp made
          -- A quad of the same name is the same quad, and is written at the same time.
          have apart : other ≠ name := by
            rintro rfl
            refine same ?_
            have equal := TripleStore.nameOfIds_inj named graphs
              (known quad List.mem_cons_self) here theirs own
            rw [← equal, ← stamped quad List.mem_cons_self]
          rw [List.filterMap_cons_some made, List.filter_cons_of_neg (by simp [apart]), later]
  rw [Change.last, changes, List.getLast?_map, Option.map_map]
  rfl

/-- A consumer that takes in what a followed commit wrote holds what is live after. -/
theorem Kept.held_commit (kept : feed.Kept ext) {tx : Transaction} {now : Timestamp}
    (followed : feed.Followed ext tx now) (done : (feed.store.commit ext tx now).1 = after)
    (decodes : ∀ key bytes, after.index key = some bytes → Decodes ext bytes)
    (named : after.Named) (graphs : after.GraphsNamed) {fresh : Nat}
    (keeps : feed.store.KeepsNames after fresh) (same : after.graphRev = feed.store.graphRev)
    (known : ∀ key bytes, after.index key = some bytes →
      after.KnownGraph key.g ∧ (after.rev key.p).isSome) (name : QuadName) :
    name ∈ ((feed.store.commitQuads ext tx now).filterMap (changeOf after)).foldl Change.apply
        feed.held ↔
      ∃ ids, after.Shows after.committed now ids ∧ after.nameOfIds ids = some name := by
  have index : after.index = feed.store.index.putAll (feed.store.commitQuads ext tx now) := by
    rw [← done]
    exact TripleStore.index_commit kept.sound.keyed.holds tx now
  have stamped := (@TripleStore.committed_commit ext _ kept.counter.2 tx now).2
  rw [done] at stamped
  have listed : ∀ quad ∈ feed.store.commitQuads ext tx now, after.KnownGraph quad.key.g := by
    intro quad member
    cases stored : after.index quad.key with
    | some bytes => exact (known _ _ stored).1
    | none =>
      rw [index, Index.putAll_apply] at stored
      split at stored
      · cases stored
      · rename_i nothing
        rw [List.getLast?_eq_none_iff] at nothing
        exact absurd (List.mem_filter.mpr ⟨member, by simp⟩) (nothing ▸ List.not_mem_nil)
  have stored : ∀ {other : TripleStore} {ts vt : Timestamp} {ids : QuadIds}, other.Shows ts vt ids →
      ∃ key bytes, key.toQuadIds = ids ∧ other.index key = some bytes := by
    rintro other ts vt ids ⟨tt, version, governs, _, _⟩
    exact ⟨⟨ids, tt⟩, _, rfl, (Index.history_eq_some.mp governs.seen.stored).1⟩
  -- What was live before keeps its name.
  have before : ∀ ids, feed.store.Shows feed.store.committed feed.now ids →
      after.nameOfIds ids = feed.store.nameOfIds ids ∧ after.KnownGraph ids.g := by
    intro ids shows
    obtain ⟨key, bytes, rfl, found⟩ := stored shows
    obtain ⟨graph, predicate⟩ := kept.named key bytes found
    refine ⟨TripleStore.nameOfIds_kept keeps (by rw [same]) (by simpa [TripleStore.nameOfIds]),
      ?_⟩
    rw [TripleStore.KnownGraph, same]
    exact graph
  have held_iff : ∀ ids, after.KnownGraph ids.g → after.nameOfIds ids = some name →
      (name ∈ feed.held ↔ feed.store.Shows feed.store.committed feed.now ids) := by
    intro ids graph own
    rw [kept.held name]
    constructor
    · rintro ⟨other, shows, theirs⟩
      obtain ⟨kept_, graph'⟩ := before other shows
      rwa [TripleStore.nameOfIds_inj named graphs graph graph' own (kept_.trans theirs)]
    · intro shows
      exact ⟨ids, shows, (before ids shows).1.symm.trans own⟩
  rw [Change.mem_foldl_apply]
  by_cases found : ∃ ids, after.KnownGraph ids.g ∧ after.nameOfIds ids = some name
  · obtain ⟨ids, graph, own⟩ := found
    have only : (∃ ids, after.Shows after.committed now ids ∧ after.nameOfIds ids = some name) ↔
        after.Shows after.committed now ids := by
      refine ⟨?_, fun shows => ⟨ids, shows, own⟩⟩
      rintro ⟨other, shows, theirs⟩
      obtain ⟨key, bytes, rfl, found⟩ := stored shows
      rwa [TripleStore.nameOfIds_inj named graphs graph (known key bytes found).1 own theirs]
    rw [only, last_changeOf named graphs stamped listed graph own]
    have shows := kept.shows_commit followed done decodes ids
    cases written : ((feed.store.commitQuads ext tx now).filter
        (fun quad => decide (quad.key = ⟨ids, after.committed⟩))).getLast? with
    | none =>
      have nothing : left (feed.store.commitQuads ext tx now) ⟨ids, after.committed⟩ = none := by
        rw [left, Index.putAll_apply, written]
      rw [nothing] at shows
      simp only at shows
      rw [shows, ← held_iff ids graph own]
      simp
    | some quad =>
      have last : left (feed.store.commitQuads ext tx now) ⟨ids, after.committed⟩ =
          some quad.value := by
        rw [left, Index.putAll_apply, written]
      rw [last] at shows
      simp only at shows
      rw [shows]
      simp [isOpen]
  · -- Nothing has the name, neither before nor among what is written.
    have unheld : name ∉ feed.held := by
      intro member
      obtain ⟨ids, shows, own⟩ := (kept.held name).mp member
      obtain ⟨kept_, graph⟩ := before ids shows
      exact found ⟨ids, graph, kept_.trans own⟩
    have unchanged : Change.last ((feed.store.commitQuads ext tx now).filterMap (changeOf after)) name =
        none := by
      rw [Change.last, Option.map_eq_none_iff, List.getLast?_eq_none_iff,
        List.filter_eq_nil_iff]
      intro change member
      obtain ⟨quad, inside, made⟩ := List.mem_filterMap.mp member
      obtain ⟨other, theirs, rfl⟩ := Option.map_eq_some_iff.mp made
      rintro own
      exact found ⟨_, listed quad inside, theirs.trans (congrArg some (of_decide_eq_true own))⟩
    rw [unchanged]
    simp only [Option.getD_none, unheld, decide_false, Bool.false_eq_true, false_iff]
    rintro ⟨ids, shows, own⟩
    obtain ⟨key, bytes, rfl, stored_⟩ := stored shows
    exact found ⟨_, (known key bytes stored_).1, own⟩

/-- The consumer receives what a followed commit wrote. -/
theorem receive_commit {quads : List StagedQuad} {tx : Transaction} {time : Timestamp}
    {held : List QuadName}
    (entries : (after.db.family .chg).seek (TripleStore.resumeKey time) = [] ∧ quads = [] ∨
      (after.db.family .chg).seek (TripleStore.resumeKey time) =
        [(after.committed.toBeBytes, encodeChange tx.author tx.graphOps quads)])
    (author : (fromUtf8 (authorBytes tx.author)).isSome) (ops : tx.graphOps.length < 2 ^ 16)
    (count : quads.length < 2 ^ 32) (small : ∀ quad ∈ quads, quad.value.length < 2 ^ 32)
    (fits : ∀ quad ∈ quads, Fits ext quad.key.o quad.value)
    (blobs : ∀ entry ∈ (after.db.family .blob).entries, BlobFits ext entry.1 entry.2)
    (rebuilt : ∀ quad ∈ quads, ∃ entry, after.rebuildLogged ext after.committed quad = .ok entry) :
    receive ext after held (delivered (after.changesAfter ext time SUBSCRIBE_BATCH)) =
      (quads.filterMap (changeOf after)).foldl Change.apply held := by
  have start : (max (Timestamp.clamp (time.micros + 1)) Timestamp.zero).toBeBytes =
      TripleStore.resumeKey time := rfl
  rcases entries with ⟨nothing, rfl⟩ | one
  · simp only [TripleStore.changesAfter, start, nothing]
    rfl
  · obtain ⟨name, named⟩ := Option.isSome_iff_exists.mp author
    obtain ⟨triples, done⟩ := Except.mapM_isOk_iff.mpr rebuilt
    have whole : quads.take (quads.length % 2 ^ 32) = quads := by
      rw [Nat.mod_eq_of_lt count, List.take_length]
    have decoded : after.decodeChange ext after.committed
        (encodeChange tx.author tx.graphOps quads) =
          .ok ⟨after.committed, name, tx.graphOps, triples⟩ :=
      TripleStore.decodeChange_encodeChange named ops small (by rw [whole]; exact done)
    have read : after.changesAfter ext time SUBSCRIBE_BATCH =
        .ok [⟨after.committed, name, tx.graphOps, triples⟩] := by
      simp only [TripleStore.changesAfter, start, one, SUBSCRIBE_BATCH, List.take_succ_cons,
        List.take_nil, List.mapM_cons, List.mapM_nil, Timestamp.fromBeBytes_take, decoded]
      rfl
    rw [read]
    exact receive_record fits blobs done

/-- A followed commit keeps the consumer up to date. -/
theorem Kept.commit (kept : feed.Kept ext) {tx : Transaction} {now : Timestamp}
    (followed : feed.Followed ext tx now) (taken : feed.next ext (.commit tx now) = some following) :
    following.Kept ext := by
  have readsBack : ∀ w ∈ tx.writes, w.ReadsBack ext :=
    fun w member => readsBack_of_stable (followed.stable w member)
  have holds := kept.sound.keyed.holds
  have stored := kept.stored.commit holds readsBack now
  have logs := kept.stored.logs holds readsBack now
  have sound := kept.sound.commit kept.counter.2 tx followed.stable now
  have same := feed.store.sameGraphs_commit ext tx now
  have keeps := @TripleStore.keepsNames_commit ext _ kept.numbered tx followed.predicates now
  obtain ⟨reached, entries⟩ := @TripleStore.seek_commit ext _ kept.reached kept.counter.2
    kept.counter.1 tx now followed.room.2
  have dated := @TripleStore.committed_commit_cases ext feed.store tx now
  have index := @TripleStore.index_commit ext _ kept.sound.keyed.holds tx now
  have fits := TripleStore.fits_commitQuads kept.sound.keyed followed.stable now
  have graphs_of := @TripleStore.exists_graph_commitQuads ext _ kept.sound.keyed.holds tx now
  obtain ⟨advanced, stamped⟩ := @TripleStore.committed_commit ext _ kept.counter.2 tx now
  obtain ⟨_, backed⟩ := feed.store.commit_blobs ext (holds .gspo) kept.stored.resolves tx now
  simp only [Feed.next, Option.some.injEq] at taken
  generalize done : (feed.store.commit ext tx now).1 = after at *
  have graphs := kept.graphs.congr same
  have known : ∀ key bytes, after.index key = some bytes →
      after.KnownGraph key.g ∧ (after.rev key.p).isSome := by
    intro key bytes found
    rw [index] at found
    rw [TripleStore.KnownGraph, same.graphRev]
    rcases Index.putAll_eq_some found with old | new
    · obtain ⟨graph, named⟩ := kept.named key bytes old
      obtain ⟨name, named⟩ := Option.isSome_iff_exists.mp named
      exact ⟨graph, by rw [keeps.rev _ _ named]; rfl⟩
    · obtain ⟨w, written, of_w⟩ := graphs_of _ new
      refine ⟨?_, (logs.quads _ new).2⟩
      rw [of_w]
      exact followed.graphs w written
  -- A commit overwrites no version, since it is dated after all of them.
  have stays : ∀ ids tt version, feed.store.index.history ids tt = some version →
      after.index.history ids tt = some version := by
    intro ids tt version found
    obtain ⟨stored, window⟩ := Index.history_eq_some.mp found
    refine Index.history_eq_some.mpr ⟨?_, window⟩
    rw [index]
    refine (Index.putAll_of_forall_ne _ fun quad member equal => ?_).trans stored
    have early := kept.sound.recorded _ _ stored
    have time := stamped quad member
    rw [equal] at time
    rcases dated with next | ⟨_, nothing⟩
    · have later : feed.store.committed < feed.store.nextCommitTs now :=
        lt_of_lt_of_le (Timestamp.lt_wrap_succ kept.counter.2) (le_max_left _ _)
      rw [← next, ← time] at later
      exact absurd later (not_lt.mpr early)
    · rw [nothing] at member
      cases member
  -- A version that is stored after was stored before, or is one that the commit leaves.
  have origin : ∀ ids tt version, after.index.history ids tt = some version →
      feed.store.index.history ids tt = some version ∨
        InStep feed.store now ids version.start version.stop := by
    intro ids tt version found
    obtain ⟨stored, window⟩ := Index.history_eq_some.mp found
    rw [index, index_eq_left] at stored
    cases written : left (feed.store.commitQuads ext tx now) ⟨ids, tt⟩ with
    | none =>
      rw [written, Option.none_or] at stored
      exact Or.inl (Index.history_eq_some.mpr ⟨stored, window⟩)
    | some bytes =>
      rw [written, Option.some_or] at stored
      obtain rfl := Option.some.inj stored
      exact Or.inr (followed.inStep _ _ _ _ written window)
  have received := @receive_commit ext _ _ _ _ feed.held entries followed.author
    followed.counts.1 followed.counts.2.1 followed.counts.2.2 fits sound.keyed.blobs
    fun quad member => by
      obtain ⟨triple, rebuilt⟩ := @Maintained.exists_reconstruct ext after quad.key.toQuadIds _
        (logs.quads quad member).2 (logs.quads quad member).1
        (backed quad member) stored.blobs after.committed
      exact ⟨_, Except.bind_eq_ok.mpr ⟨triple, rebuilt, rfl⟩⟩
  rw [received] at taken
  subst taken
  refine ⟨stored, sound, graphs, keeps.numbered, reached, ⟨le_trans kept.counter.1 advanced, ?_⟩,
    followed.room.1, known, fun ids tt version found => ?_, fun ids tt version governs => ?_,
    kept.held_commit followed done stored.decodes sound.keyed.named graphs keeps same.graphRev known⟩
  · rcases dated with next | ⟨stays, _⟩
    · simp only [next]
      exact followed.room.2
    · simp only [stays]
      exact kept.counter.2
  · rcases origin ids tt version found with old | new
    · exact le_trans (kept.begun ids tt version old) followed.clock
    · exact new.begun
  · have overtakes : ∀ other version', feed.store.index.history ids other = some version' →
        version'.start ≤ now →
        version'.start < version.start ∨ (version'.start = version.start ∧ other ≤ tt) :=
      fun other version' old starts => governs.latest other version' ⟨stays ids other version' old,
        le_trans (kept.sound.recorded ⟨ids, other⟩ _ (Index.history_eq_some.mp old).1) advanced,
        starts⟩
    rcases origin ids tt version governs.seen.stored with old | new
    · have early := kept.sound.recorded ⟨ids, tt⟩ _ (Index.history_eq_some.mp old).1
      have before := kept.settled ids tt version ((kept.governs_later followed.clock).mp
        ⟨⟨old, early, governs.seen.begun⟩, fun other version' seen =>
          overtakes other version' seen.stored seen.begun⟩)
      exact before.imp_right fun ended => le_trans ended followed.clock
    · refine new.latest ⟨new.begun, fun other version' old starts => ?_⟩
      rcases overtakes other version' old starts with less | ⟨equal, _⟩
      · exact le_of_lt less
      · exact le_of_eq equal

/-- Interning a graph changes nothing for the consumer. -/
theorem Kept.internGraph (kept : feed.Kept ext) {iri : String} {g : GraphId}
    (room : feed.store.nextGraphId.toNat + 1 < 2 ^ 32)
    (done : feed.store.internGraph ext iri = .ok (after, g)) :
    Kept ext { feed with store := after } := by
  obtain ⟨sound, committed, index, _⟩ := TripleStore.internGraph_kept kept.sound done
  obtain ⟨graphs, same⟩ := kept.graphs.internGraph room done
  obtain ⟨_, rev, nextPredId⟩ := TripleStore.names_internGraph done
  have log : after.db.family .chg = feed.store.db.family .chg :=
    TripleStore.family_internGraph done nofun nofun
  have known : ∀ g, feed.store.KnownGraph g → after.KnownGraph g := by
    intro g graph
    rw [TripleStore.KnownGraph, same g graph]
    exact graph
  refine ⟨kept.stored.internGraph index done, sound, graphs, ?_, ?_, ?_, kept.running, ?_, ?_, ?_,
    fun name => ?_⟩
  · rw [TripleStore.Numbered, rev, nextPredId]
    exact kept.numbered
  · rw [TripleStore.LogReached, log, committed]
    exact kept.reached
  · rw [committed]
    exact kept.counter
  · rw [index, rev]
    exact fun key bytes found => (kept.named key bytes found).imp_left (known key.g)
  · rw [index]
    exact kept.begun
  · rw [index, committed]
    exact kept.settled
  · -- A live quad is in a graph that was known before, which has the name it had.
    rw [kept.held name]
    refine exists_congr fun ids => ?_
    have shows : after.Shows after.committed feed.now ids ↔
        feed.store.Shows feed.store.committed feed.now ids := by
      simp only [TripleStore.Shows, index, committed]
    rw [shows]
    refine and_congr_right fun live => ?_
    obtain ⟨tt, version, governs, _⟩ := live
    have stored := (Index.history_eq_some.mp governs.seen.stored).1
    have graph : after.graphRev ids.g = feed.store.graphRev ids.g :=
      same ids.g (kept.named _ _ stored).1
    simp only [TripleStore.nameOfIds, TripleStore.graphName, TripleStore.graphIri, rev, graph]

/-- A step in time keeps the consumer up to date. -/
theorem Kept.next (kept : feed.Kept ext) {step : FeedStep} (inTime : InTime ext feed step)
    (taken : feed.next ext step = some following) : following.Kept ext := by
  cases step with
  | internGraph iri =>
    simp only [Feed.next] at taken
    split at taken
    · rename_i after _ done
      cases taken
      exact kept.internGraph inTime done
    · cases taken
      exact kept
  | commit tx now => exact kept.commit inTime taken

/-- A new store has no versions. -/
theorem index_fresh (inlineMax : Nat) (vocabulary : Vocabulary) (canonical : Bool) :
    (fresh inlineMax vocabulary canonical).store.index = fun _ => none :=
  TripleStore.index_configured inlineMax vocabulary canonical

/-- A consumer of a new store holds nothing, and nothing is live. -/
theorem kept_fresh (ext : External) (inlineMax : Nat) (vocabulary : Vocabulary)
    (canonical : Bool) : (fresh inlineMax vocabulary canonical).Kept ext := by
  have blank := index_fresh inlineMax vocabulary canonical
  have nothing : ∀ ids tt,
      (fresh inlineMax vocabulary canonical).store.index.history ids tt = none := by
    intro ids tt
    rw [blank]
    rfl
  have log : (fresh inlineMax vocabulary canonical).store.db.family .chg = SortedMap.empty :=
    TripleStore.family_configured (by simp) ..
  refine ⟨TripleStore.rebuildable_configured ext inlineMax vocabulary canonical,
    TripleStore.sound_configured ext inlineMax vocabulary canonical,
    TripleStore.graphsNamed_configured inlineMax vocabulary canonical,
    fun _ _ named => (by cases named), ?_, ⟨le_refl _, fun last => by cases last⟩,
    fun last => (by cases last), fun key bytes found => ?_, fun ids tt version found => ?_,
    fun ids tt version governs => ?_, fun name => ⟨fun held => (by cases held), ?_⟩⟩
  · rw [TripleStore.LogReached, log]
    exact fun _ logged => by cases logged
  · rw [blank] at found
    cases found
  · rw [nothing] at found
    cases found
  · have found := governs.seen.stored
    rw [nothing] at found
    cases found
  · rintro ⟨ids, ⟨tt, version, governs, _⟩, _⟩
    have found := governs.seen.stored
    rw [nothing] at found
    cases found

/-- In every run whose steps are in time, the consumer holds exactly the live quads. -/
theorem reproduces_of_run {inlineMax : Nat} {vocabulary : Vocabulary} {canonical : Bool}
    (run : Runs (Feed.next ext) (InTime ext) (fresh inlineMax vocabulary canonical) feed) :
    feed.Reproduces ext :=
  -- The invariant also says of every version that it has begun and whether it may still end.
  (run.invariant (fun _ _ _ kept inTime taken => kept.next inTime taken)
    (kept_fresh ext inlineMax vocabulary canonical)).reproduces

/-- A transaction that relates two nodes over a window. -/
def relating (vtStart vtEnd : Timestamp) : Transaction :=
  (Transaction.new Timestamp.zero).insertIn (.relation (NodeId.ofByte 1) "knows" (NodeId.ofByte 2)
    ⟨(NodeId.ofByte 3).uuid⟩ ⟨vtStart, vtEnd, Timestamp.zero⟩) GraphId.DEFAULT .add

/-- How a consumer tells the quad of that relation apart. -/
def relatingName : QuadName :=
  ⟨NodeId.ofByte 1, Vocabulary.default.canonicalPredicate "knows", NodeId.ofByte 2, ""⟩

/-- The state before two nodes are related. -/
def before : Feed := fresh DEFAULT_INLINE_VALUE_MAX_BYTES Vocabulary.default true

/-- The state after two nodes are related over a window. -/
def afterRelating (vtStart vtEnd : Timestamp) : Feed :=
  let store := (before.store.commit External.unreached (relating vtStart vtEnd)
    (Timestamp.wrap 10)).1
  ⟨store, Timestamp.wrap 10, receive External.unreached store []
    (delivered (store.changesAfter External.unreached Timestamp.zero SUBSCRIBE_BATCH))⟩

/-- It is one step away. -/
theorem next_before (vtStart vtEnd : Timestamp) : before.next External.unreached
    (.commit (relating vtStart vtEnd) (Timestamp.wrap 10)) = some (afterRelating vtStart vtEnd) := rfl

/-- The quads that are live in a state, as a consumer tells them apart. -/
def liveNames (feed : Feed) : Option (List (Option QuadName)) :=
  ((feed.store.scanScopedAt External.unreached none none none .union
    ⟨feed.store.committed, none, none⟩ feed.now).map fun live =>
      live.map (feed.store.nameOf External.unreached)).toOption

/-- The consumer holds the quads that are live in a state it reproduces. -/
theorem Reproduces.mem_iff (reproduces : feed.Reproduces External.unreached)
    {names : List (Option QuadName)} (listed : feed.liveNames = some names) (name : QuadName) :
    name ∈ feed.held ↔ some name ∈ names := by
  obtain ⟨live, scanned, same⟩ := reproduces
  rw [liveNames, scanned] at listed
  obtain rfl := Option.some.inj listed
  rw [same name, List.mem_map]

/-- Relating two nodes without end is followed. -/
theorem reproduces_of_run_relating : (afterRelating Timestamp.zero Timestamp.END_OF_TIME).Reproduces
      External.unreached ∧
    (afterRelating Timestamp.zero Timestamp.END_OF_TIME).held = [relatingName] := by
  have told : (afterRelating Timestamp.zero Timestamp.END_OF_TIME).held = [relatingName] := by
    decide +kernel
  refine ⟨reproduces_of_run (.step _ (.done _) ?_ (next_before _ _)), told⟩
  have written : ∀ w ∈ (relating Timestamp.zero Timestamp.END_OF_TIME).writes,
      w = ⟨.relation (NodeId.ofByte 1) "knows" (NodeId.ofByte 2) ⟨(NodeId.ofByte 3).uuid⟩
        ⟨Timestamp.zero, Timestamp.END_OF_TIME, Timestamp.zero⟩, GraphId.DEFAULT, .add⟩ := by
    intro w member
    exact List.mem_singleton.mp member
  refine ⟨by decide, by decide +kernel, by decide +kernel, by decide +kernel, by decide +kernel,
    fun w member => ?_, fun w member => ?_, fun key bytes start stop found window => ?_⟩
  · rw [written w member]
    exact fun _ _ _ _ => nofun
  · rw [written w member]
    exact Or.inl rfl
  · -- The store is new, so the version is the latest of its quad.
    have endless : ∀ quad ∈ before.store.commitQuads External.unreached
        (relating Timestamp.zero Timestamp.END_OF_TIME) (Timestamp.wrap 10),
          validTime quad.value = some (Timestamp.zero, Timestamp.END_OF_TIME) := by
      decide +kernel
    obtain ⟨quad, last, rfl⟩ := Option.map_eq_some_iff.mp (left_eq_some.mp found)
    have own := endless quad (List.mem_filter.mp (List.mem_of_getLast? last)).1
    obtain ⟨rfl, rfl⟩ := Prod.mk.inj (Option.some.inj (own.symm.trans window))
    refine ⟨by decide, fun _ => Or.inl rfl, fun overtaken => absurd ⟨by decide, ?_⟩ overtaken⟩
    intro tt version stored
    rw [index_fresh] at stored
    cases stored

/--
A quad that is live until later is not held, since its version has an end, and a quad that is live from
later on is held, since its version has none.
-/
theorem feed_not_reproduces :
    (∃ feed, Runs (Feed.next External.unreached) (fun _ _ => True) before feed ∧
      feed.held = [] ∧ feed.liveNames = some [some relatingName] ∧
        ¬ feed.Reproduces External.unreached) ∧
    ∃ feed, Runs (Feed.next External.unreached) (fun _ _ => True) before feed ∧
      feed.held = [relatingName] ∧ feed.liveNames = some [] ∧
        ¬ feed.Reproduces External.unreached := by
  constructor
  · have held : (afterRelating Timestamp.zero (Timestamp.wrap 100)).held = [] := by decide +kernel
    have listed : (afterRelating Timestamp.zero (Timestamp.wrap 100)).liveNames =
        some [some relatingName] := by decide +kernel
    refine ⟨_, .step _ (.done _) trivial (next_before _ _), held, listed, fun reproduces => ?_⟩
    have inside := (reproduces.mem_iff listed relatingName).mpr (List.mem_singleton_self _)
    rw [held] at inside
    cases inside
  · have held : (afterRelating (Timestamp.wrap 50) Timestamp.END_OF_TIME).held =
        [relatingName] := by decide +kernel
    have listed : (afterRelating (Timestamp.wrap 50) Timestamp.END_OF_TIME).liveNames = some [] := by
      decide +kernel
    refine ⟨_, .step _ (.done _) trivial (next_before _ _), held, listed, fun reproduces => ?_⟩
    have inside := (reproduces.mem_iff listed relatingName).mp (by simp [held])
    cases inside

end Feed

end Polargraph
