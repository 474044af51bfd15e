import Polargraph.Proofs.Server.NodeAccess
import Polargraph.Proofs.Storage.MigrateReads

/-! A property with one value at a time, kept so by writes that replace the value. -/

namespace Polargraph

namespace TripleStore

variable {ext : External} {store after : TripleStore} {s : NodeId} {p : PredId} {g : GraphId}
  {now : Timestamp} {current : Option NodeId}

/-- The versions of a property, whose last ones have ended except that of the current value. -/
structure SingleValued (store : TripleStore) (s : NodeId) (p : PredId) (g : GraphId)
    (now : Timestamp) (current : Option NodeId) : Prop where
  /-- Versions are of values, recorded after the epoch, and have started after it by now. -/
  written : ∀ object tt version, store.index.history ⟨s, p, object, g⟩ tt = some version →
    Timestamp.zero ≤ tt ∧ Timestamp.zero ≤ version.start ∧ version.start ≤ now ∧
      version.content.head? ≠ some DISC_RELATION
  /-- What is recorded later of a value does not start earlier. -/
  ordered : ∀ object tt tt' version version',
    store.index.history ⟨s, p, object, g⟩ tt = some version →
    store.index.history ⟨s, p, object, g⟩ tt' = some version' → tt ≤ tt' →
      version.start ≤ version'.start
  /-- The last version of the current value has no end, and any other one has ended. -/
  ends : ∀ object tt version, store.IsLast ⟨s, p, object, g⟩ tt version →
    (current = some object ∧ version.stop = Timestamp.END_OF_TIME) ∨
      (current ≠ some object ∧ version.stop ≤ now)
  /-- The current value has a last version. -/
  held : ∀ object, current = some object →
    ∃ tt version, store.IsLast ⟨s, p, object, g⟩ tt version

namespace SingleValued

/-- A property without versions has no value. -/
theorem of_blank (blank : ∀ object tt, store.index.history ⟨s, p, object, g⟩ tt = none) :
    store.SingleValued s p g now none := by
  refine ⟨fun object tt version stored => ?_, fun object tt tt' version version' stored => ?_,
    fun object tt version last => ?_, nofun⟩
  · rw [blank] at stored
    cases stored
  · rw [blank] at stored
    cases stored
  · have stored := last.1
    rw [blank] at stored
    cases stored

/-- What holds of a property still holds later. -/
theorem mono (single : store.SingleValued s p g now current) {later : Timestamp}
    (passed : now ≤ later) : store.SingleValued s p g later current := by
  refine ⟨fun object tt version stored => ?_, single.ordered, fun object tt version last => ?_,
    single.held⟩
  · obtain ⟨dated, begun, started, value⟩ := single.written object tt version stored
    exact ⟨dated, begun, le_trans started passed, value⟩
  · rcases single.ends object tt version last with same | ⟨other, ended⟩
    · exact Or.inl same
    · exact Or.inr ⟨other, le_trans ended passed⟩

/-- What holds of a property holds of it in a store with the same versions of it. -/
theorem congr (single : store.SingleValued s p g now current)
    (same : ∀ object, after.index.history ⟨s, p, object, g⟩ =
      store.index.history ⟨s, p, object, g⟩) :
    after.SingleValued s p g now current := by
  have last : ∀ {object tt version}, after.IsLast ⟨s, p, object, g⟩ tt version ↔
      store.IsLast ⟨s, p, object, g⟩ tt version := by
    intro object tt version
    rw [IsLast, IsLast, same]
  refine ⟨fun object tt version => ?_, fun object tt tt' version version' => ?_,
    fun object tt version final => single.ends object tt version (last.mp final),
    fun object now => ?_⟩
  · rw [same]
    exact single.written object tt version
  · rw [same]
    exact single.ordered object tt tt' version version'
  · obtain ⟨tt, version, final⟩ := single.held object now
    exact ⟨tt, version, last.mpr final⟩

/-- From now on, the version that governs a value is its last one. -/
theorem governs_iff (single : store.SingleValued s p g now current)
    (recorded : ∀ key bytes, store.index key = some bytes → key.tt ≤ store.committed)
    {object : NodeId} {vt tt : Timestamp} (passed : now ≤ vt)
    {version : Version Timestamp Bytes} :
    (store.index.history ⟨s, p, object, g⟩).Governs store.committed vt tt version ↔
      store.IsLast ⟨s, p, object, g⟩ tt version := by
  have sees : ∀ {tt version}, store.index.history ⟨s, p, object, g⟩ tt = some version →
      (store.index.history ⟨s, p, object, g⟩).Sees store.committed vt tt version := by
    intro tt version stored
    obtain ⟨_, _, started, _⟩ := single.written object tt version stored
    exact ⟨stored, recorded ⟨⟨s, p, object, g⟩, tt⟩ _ (Index.history_eq_some.mp stored).1,
      le_trans started passed⟩
  constructor
  · intro governs
    refine ⟨governs.seen.stored, fun other version' stored => ?_⟩
    rcases governs.latest other version' (sees stored) with before | ⟨_, early⟩
    · -- A version recorded later would not start earlier.
      by_contra late
      exact absurd before (not_lt.mpr (single.ordered object tt other version version'
        governs.seen.stored stored (le_of_lt (not_le.mp late))))
    · exact early
  · rintro ⟨stored, latest⟩
    refine ⟨sees stored, fun other version' seen => ?_⟩
    have early := latest other version' seen.stored
    rcases lt_or_eq_of_le (single.ordered object other tt version' version seen.stored stored
      early) with before | together
    · exact Or.inl before
    · exact Or.inr ⟨together, early⟩

/-- From now on, exactly the current value is shown. -/
theorem shows_iff (single : store.SingleValued s p g now current)
    (recorded : ∀ key bytes, store.index key = some bytes → key.tt ≤ store.committed)
    {object : NodeId} {vt : Timestamp} (passed : now ≤ vt) (running : vt ≠ Timestamp.END_OF_TIME) :
    store.Shows store.committed vt ⟨s, p, object, g⟩ ↔ current = some object := by
  constructor
  · rintro ⟨tt, version, governs, covers, _⟩
    have last := (single.governs_iff recorded passed).mp governs
    rcases single.ends object tt version last with ⟨same, _⟩ | ⟨_, ended⟩
    · exact same
    · exact absurd (lt_of_lt_of_le covers (le_trans ended passed)) (lt_irrefl _)
  · intro same
    obtain ⟨tt, version, last⟩ := single.held object same
    refine ⟨tt, version, (single.governs_iff recorded passed).mpr last, ?_, fun least => ?_⟩
    · rcases single.ends object tt version last with ⟨_, endless⟩ | ⟨other, _⟩
      · rw [endless]
        exact lt_of_le_of_ne (Timestamp.le_END_OF_TIME vt) running
      · exact absurd same other
    · obtain ⟨_, begun, _⟩ := single.written object tt version last.1
      rw [least.1] at begun
      exact absurd begun (by decide)

/-- The newest version of a value by the word of its time is its last one. -/
theorem newest_iff (single : store.SingleValued s p g now current)
    (windowed : ∀ key bytes, store.index key = some bytes → (validTime bytes).isSome)
    {object : NodeId} {bytes : Bytes} :
    store.index.Newest ⟨s, p, object, g⟩ bytes ↔
      ∃ tt version, store.IsLast ⟨s, p, object, g⟩ tt version ∧ version.content = bytes := by
  have dated : ∀ {tt bytes}, store.index ⟨⟨s, p, object, g⟩, tt⟩ = some bytes →
      ∃ version, store.index.history ⟨s, p, object, g⟩ tt = some version ∧
        version.content = bytes := by
    intro tt bytes found
    obtain ⟨⟨start, stop⟩, window⟩ := Option.isSome_iff_exists.mp (windowed _ _ found)
    exact ⟨⟨start, stop, bytes⟩, Index.history_eq_some.mpr ⟨found, window⟩, rfl⟩
  constructor
  · rintro ⟨tt, found, newest⟩
    obtain ⟨version, stored, rfl⟩ := dated found
    refine ⟨tt, version, ⟨stored, fun other version' stored' => ?_⟩, rfl⟩
    have first := (single.written object tt version stored).1
    have second := (single.written object other version' stored').1
    have present := (Index.history_eq_some.mp stored').1
    exact (Timestamp.word_le_iff second first).mp (newest other (by rw [present]; rfl))
  · rintro ⟨tt, version, ⟨stored, latest⟩, rfl⟩
    refine ⟨tt, (Index.history_eq_some.mp stored).1, fun other present => ?_⟩
    obtain ⟨bytes, found⟩ := Option.isSome_iff_exists.mp present
    obtain ⟨version', stored', _⟩ := dated found
    have first := (single.written object tt version stored).1
    have second := (single.written object other version' stored').1
    exact (Timestamp.word_le_iff second first).mpr (latest other version' stored')

end SingleValued

/-- What a committed write that replaces a value writes: the value, and the ends of open others. -/
theorem commitQuads_replacing (holds : store.db.OrdersHold store.index) {name : String}
    {value : Value} {window : BiTemporalRange} {mode : WriteMode} {tx : Transaction}
    {wall time : Timestamp} (only : tx.writes = [⟨.property s name value window, g, mode⟩])
    (replaces : mode.resolve (.property s name value window) = .replace)
    (done : store.commit ext tx wall = (after, .ok time)) :
    ∃ p bytes, after.predicateId name = some p ∧ Windowed bytes ∧
      validTime bytes = some (window.vtStart, window.vtEnd) ∧
      (∃ (middle : TripleStore) (put : WriteBatch),
        middle.encodePropertyEntry ext [] value { window with tt := after.committed } =
          .ok (put, bytes)) ∧
      ∀ quad, quad ∈ store.commitQuads ext tx wall ↔
        quad = ⟨⟨⟨s, p, valueObject ext value, g⟩, after.committed⟩, bytes⟩ ∨
        ∃ other held, other ≠ valueObject ext value ∧ store.index.Newest ⟨s, p, other, g⟩ held ∧
          openAt window.vtStart held = true ∧ quad.key = ⟨⟨s, p, other, g⟩, after.committed⟩ ∧
          withVtEnd held window.vtStart = .ok quad.value := by
  obtain ⟨middle, p, staging, _, family, known, staged, quads⟩ := commit_single only done
  obtain ⟨blobs, bytes, closing, encoded, _, closed, written, _⟩ := stageWrite_property staged
  have here : middle.db.OrderHolds .gspo store.index := (holds .gspo).congr family
  obtain ⟨values, read, _, listed⟩ := openValues_spec here s p g window.vtStart
  -- Nothing is staged before, so the stored open values are the ones to close.
  have closes : closeValues s p g after.committed window.vtStart (valueObject ext value) values =
      .ok closing := by
    unfold stageClosings at closed
    rw [if_pos replaces, read] at closed
    exact closed
  refine ⟨p, bytes, known, windowed_encodePropertyEntry encoded, validTime_encodePropertyEntry encoded,
    ⟨middle, _, encoded⟩, fun quad => ?_⟩
  rw [quads, written]
  simp only [Staging.none, List.nil_append, List.mem_append, List.mem_singleton]
  rw [or_comm, mem_closeValues closes]
  refine or_congr_right ⟨?_, ?_⟩
  · rintro ⟨⟨other, held⟩, member, apart, key, ended⟩
    obtain ⟨newest, still⟩ := (listed other held).mp member
    exact ⟨other, held, apart, newest, still, key, ended⟩
  · rintro ⟨other, held, apart, newest, still, key, ended⟩
    exact ⟨(other, held), (listed other held).mpr ⟨newest, still⟩, apart, key, ended⟩

/-- A new version of a quad of a property after a write that replaces its value. -/
structure Replaced (now : Timestamp) (object : NodeId) (bytes : Bytes) (o : NodeId)
    (before : History Timestamp Bytes) (fresh : Version Timestamp Bytes) : Prop where
  /-- It has started after the epoch by now. -/
  begun : Timestamp.zero ≤ fresh.start ∧ fresh.start ≤ now
  /-- It is of a value. -/
  value : fresh.content.head? ≠ some DISC_RELATION
  /-- It does not start earlier than what was recorded before. -/
  ordered : ∀ tt version, before tt = some version → version.start ≤ fresh.start
  /-- It is the written value without an end, or the end of another. -/
  ends : (o = object ∧ fresh.stop = Timestamp.END_OF_TIME ∧ fresh.content = bytes) ∨
    (o ≠ object ∧ fresh.stop ≤ now)

/-- The version that is put into the history of a quad after all others is its last one. -/
theorem isLast_put {ids : QuadIds} {fresh : Version Timestamp Bytes}
    (recorded : ∀ key bytes, store.index key = some bytes → key.tt ≤ store.committed)
    (later : store.committed < after.committed)
    (record : after.index.history ids = (store.index.history ids).put after.committed fresh) :
    after.IsLast ids after.committed fresh := by
  refine ⟨by rw [record, History.put_self], fun other version stored => ?_⟩
  by_cases same : other = after.committed
  · exact le_of_eq same
  · rw [record, History.put_of_ne same] at stored
    exact le_trans (recorded ⟨ids, other⟩ _ (Index.history_eq_some.mp stored).1) (le_of_lt later)

/-- What a committed write of an open value makes of every value of its property. -/
theorem SingleValued.history_commit (intact : store.Intact ext)
    (room : store.committed ≠ Timestamp.END_OF_TIME) {tx : Transaction}
    (stable : ∀ w ∈ tx.writes, w.Stable ext) {wall : Timestamp}
    (done : (store.commit ext tx wall).1 = after)
    (single : store.SingleValued s p g now current) {later : Timestamp} (passed : now ≤ later)
    (begun : Timestamp.zero ≤ later) {object : NodeId} {bytes : Bytes} (windowed : Windowed bytes)
    (own : validTime bytes = some (later, Timestamp.END_OF_TIME))
    (listed : ∀ quad, quad ∈ store.commitQuads ext tx wall ↔
      quad = ⟨⟨⟨s, p, object, g⟩, after.committed⟩, bytes⟩ ∨
      ∃ other held, other ≠ object ∧ store.index.Newest ⟨s, p, other, g⟩ held ∧
        openAt later held = true ∧ quad.key = ⟨⟨s, p, other, g⟩, after.committed⟩ ∧
        withVtEnd held later = .ok quad.value) (o : NodeId) :
    (o ≠ object ∧ after.index.history ⟨s, p, o, g⟩ = store.index.history ⟨s, p, o, g⟩ ∧
      ∀ tt version, store.IsLast ⟨s, p, o, g⟩ tt version → version.stop ≤ later) ∨
    ∃ fresh, store.committed < after.committed ∧
      after.index.history ⟨s, p, o, g⟩ =
        (store.index.history ⟨s, p, o, g⟩).put after.committed fresh ∧
      Replaced later object bytes o (store.index.history ⟨s, p, o, g⟩) fresh := by
  have windows : ∀ key bytes, store.index key = some bytes → (validTime bytes).isSome := by
    intro key bytes found
    obtain ⟨decoded, read⟩ := intact.stored.decodes key bytes found
    obtain ⟨window, here⟩ := validTime_of_decodeValue read
    rw [here]
    rfl
  have newest : ∀ {o held}, store.index.Newest ⟨s, p, o, g⟩ held ↔
      ∃ tt version, store.IsLast ⟨s, p, o, g⟩ tt version ∧ version.content = held :=
    single.newest_iff windows
  rcases intact.history_commit room stable done ⟨s, p, o, g⟩ with
    ⟨nothing, same⟩ | ⟨quad, member, same, advanced, start, stop, window, record⟩
  · refine Or.inl ⟨?_, same, fun tt version last => ?_⟩
    · rintro rfl
      exact nothing _ ((listed _).mpr (Or.inl rfl)) rfl
    · -- A value that was still open would have been closed.
      by_contra open_
      obtain ⟨found, window⟩ := Index.history_eq_some.mp last.1
      obtain ⟨_, _, _, value⟩ := single.written o tt version last.1
      obtain ⟨closed, ended, _⟩ := withVtEnd_of_validTime window later
      have still : openAt later version.content = true := by
        simp only [openAt, window, Option.any_some, Bool.and_eq_true, decide_eq_true_eq]
        exact ⟨value, not_le.mp open_⟩
      have other : o ≠ object := by
        rintro rfl
        exact nothing _ ((listed _).mpr (Or.inl rfl)) rfl
      exact nothing ⟨⟨⟨s, p, o, g⟩, after.committed⟩, closed⟩ ((listed _).mpr (Or.inr
        ⟨o, version.content, other, newest.mpr ⟨tt, version, last, rfl⟩, still, rfl, ended⟩)) rfl
  · refine Or.inr ⟨_, advanced, record, ?_⟩
    rcases (listed quad).mp member with rfl | ⟨other, held, apart, top, still, key, ended⟩
    · obtain rfl : object = o := congrArg QuadIds.o same
      obtain ⟨rfl, rfl⟩ := Prod.mk.inj (Option.some.inj (window.symm.trans own))
      refine ⟨⟨begun, le_refl _⟩, windowed.1, fun tt version stored => ?_, Or.inl ⟨rfl, rfl, rfl⟩⟩
      obtain ⟨_, _, started, _⟩ := single.written object tt version stored
      exact le_trans started passed
    · obtain rfl : other = o := by
        rw [key] at same
        exact congrArg QuadIds.o same
      obtain ⟨tt, version, last, rfl⟩ := newest.mp top
      obtain ⟨_, during⟩ := Index.history_eq_some.mp last.1
      obtain ⟨closed, ended', window', head⟩ := withVtEnd_of_validTime during later
      obtain rfl := Except.ok.inj (ended'.symm.trans ended)
      obtain ⟨rfl, rfl⟩ := Prod.mk.inj (Option.some.inj (window.symm.trans window'))
      obtain ⟨_, first, started, value⟩ := single.written other tt version last.1
      refine ⟨⟨first, le_trans started passed⟩, by rw [head]; exact value,
        fun tt' version' stored => ?_, Or.inr ⟨apart, le_refl _⟩⟩
      exact single.ordered other tt' tt version' version stored last.1 (last.2 tt' version' stored)

/-- A value that replaces the others is the one value of its property. -/
theorem SingleValued.replace (single : store.SingleValued s p g now current)
    (recorded : ∀ key bytes, store.index key = some bytes → key.tt ≤ store.committed)
    (counting : Timestamp.zero ≤ store.committed) {later : Timestamp} (passed : now ≤ later)
    {object : NodeId} {bytes : Bytes}
    (each : ∀ o, (o ≠ object ∧
      after.index.history ⟨s, p, o, g⟩ = store.index.history ⟨s, p, o, g⟩ ∧
        ∀ tt version, store.IsLast ⟨s, p, o, g⟩ tt version → version.stop ≤ later) ∨
      ∃ fresh, store.committed < after.committed ∧
        after.index.history ⟨s, p, o, g⟩ =
          (store.index.history ⟨s, p, o, g⟩).put after.committed fresh ∧
        Replaced later object bytes o (store.index.history ⟨s, p, o, g⟩) fresh) :
    after.SingleValued s p g later (some object) := by
  have put : ∀ {o : NodeId} {fresh version : Version Timestamp Bytes} {tt : Timestamp},
      after.index.history ⟨s, p, o, g⟩ =
        (store.index.history ⟨s, p, o, g⟩).put after.committed fresh →
      after.index.history ⟨s, p, o, g⟩ tt = some version →
      (tt = after.committed ∧ version = fresh) ∨
        (tt ≠ after.committed ∧ store.index.history ⟨s, p, o, g⟩ tt = some version) := by
    intro o fresh version tt record stored
    rw [record] at stored
    by_cases same : tt = after.committed
    · subst same
      rw [History.put_self] at stored
      exact Or.inl ⟨rfl, (Option.some.inj stored).symm⟩
    · rw [History.put_of_ne same] at stored
      exact Or.inr ⟨same, stored⟩
  have early : ∀ {o tt version}, store.index.history ⟨s, p, o, g⟩ tt = some version →
      tt ≤ store.committed := fun {o tt version} stored =>
    recorded ⟨⟨s, p, o, g⟩, tt⟩ _ (Index.history_eq_some.mp stored).1
  refine ⟨fun o tt version stored => ?_, fun o tt tt' version version' stored stored' before => ?_,
    fun o tt version last => ?_, fun o same => ?_⟩
  · rcases each o with ⟨_, same, _⟩ | ⟨fresh, advanced, record, added⟩
    · rw [same] at stored
      obtain ⟨dated, begun, started, value⟩ := single.written o tt version stored
      exact ⟨dated, begun, le_trans started passed, value⟩
    · rcases put record stored with ⟨rfl, rfl⟩ | ⟨_, old⟩
      · exact ⟨le_trans counting (le_of_lt advanced), added.begun.1, added.begun.2, added.value⟩
      · obtain ⟨dated, begun, started, value⟩ := single.written o tt version old
        exact ⟨dated, begun, le_trans started passed, value⟩
  · rcases each o with ⟨_, same, _⟩ | ⟨fresh, advanced, record, added⟩
    · rw [same] at stored stored'
      exact single.ordered o tt tt' version version' stored stored' before
    · rcases put record stored' with ⟨rfl, rfl⟩ | ⟨_, old'⟩
      · rcases put record stored with ⟨_, rfl⟩ | ⟨_, old⟩
        · exact le_refl _
        · exact added.ordered tt version old
      · rcases put record stored with ⟨rfl, _⟩ | ⟨_, old⟩
        · -- What was recorded before is not recorded after the new version.
          exact absurd (lt_of_lt_of_le advanced (le_trans before (early old'))) (lt_irrefl _)
        · exact single.ordered o tt tt' version version' old old' before
  · rcases each o with ⟨other, same, ended⟩ | ⟨fresh, advanced, record, added⟩
    · have last' : store.IsLast ⟨s, p, o, g⟩ tt version := by
        rw [IsLast, ← same]
        exact last
      exact Or.inr ⟨fun equal => other (Option.some.inj equal).symm, ended tt version last'⟩
    · obtain ⟨_, rfl⟩ := last.unique (isLast_put recorded advanced record)
      rcases added.ends with ⟨rfl, endless, _⟩ | ⟨other, ended⟩
      · exact Or.inl ⟨rfl, endless⟩
      · exact Or.inr ⟨fun equal => other (Option.some.inj equal).symm, ended⟩
  · obtain rfl := Option.some.inj same
    rcases each object with ⟨other, _⟩ | ⟨fresh, advanced, record, _⟩
    · exact absurd rfl other
    · exact ⟨_, fresh, isLast_put recorded advanced record⟩

/-- A committed write of an open value makes it the one value of its property. -/
theorem SingleValued.commit {ext : External} (intact : store.Intact ext)
    (room : store.committed ≠ Timestamp.END_OF_TIME) {name : String} {value : Value}
    {window : BiTemporalRange} {mode : WriteMode} {tx : Transaction} {wall time : Timestamp}
    (only : tx.writes = [⟨.property s name value window, g, mode⟩])
    (replaces : mode.resolve (.property s name value window) = .replace)
    (stable : ∀ w ∈ tx.writes, w.Stable ext) (apart : ∀ w ∈ tx.writes, store.Apart ext w)
    (endless : window.vtEnd = Timestamp.END_OF_TIME) (begun : Timestamp.zero ≤ window.vtStart)
    (counting : Timestamp.zero ≤ store.committed)
    (done : store.commit ext tx wall = (after, .ok time))
    (known : after.predicateId name = some p) (named : after.rev p = some name)
    (single : store.SingleValued s p g now current) (passed : now ≤ window.vtStart) :
    after.SingleValued s p g window.vtStart (some (valueObject ext value)) ∧
    ∃ version, after.IsLast ⟨s, p, valueObject ext value, g⟩ after.committed version ∧
      ∃ during, after.reconstruct ext s p (valueObject ext value) after.committed version.content =
        .ok (.property s name value during) := by
  have first : (store.commit ext tx wall).1 = after := by rw [done]
  have recorded := intact.sound.recorded
  have after_ := intact.commit room stable wall
  rw [first] at after_
  have logs := intact.stored.logs intact.sound.keyed.holds
    (fun w member => readsBack_of_stable (stable w member)) wall
  obtain ⟨q, bytes, known', windowed, own, ⟨middle, put, encoded⟩, listed⟩ :=
    commitQuads_replacing intact.sound.keyed.holds only replaces done
  obtain rfl : q = p := Option.some.inj (known'.symm.trans known)
  rw [endless] at own
  have each := single.history_commit intact room stable first passed begun windowed own listed
  refine ⟨single.replace recorded counting passed each, ?_⟩
  rcases each (valueObject ext value) with ⟨other, _⟩ | ⟨fresh, advanced, record, added⟩
  · exact absurd rfl other
  · have last := isLast_put recorded advanced record
    rcases added.ends with ⟨_, _, rfl⟩ | ⟨other, _⟩
    · -- What was put out of line is the value of the one write.
      have inside : (⟨.property s name value window, g, mode⟩ : PendingWrite) ∈ tx.writes := by
        rw [only]
        exact List.mem_singleton_self _
      have found := (Index.history_eq_some.mp last.1).1
      have loaded : IsRef fresh.content →
          after.loadBlob ext (valueObject ext value) = .ok value := by
        intro ref
        have put := after_.stored.resolves _ _ found ref
        rw [← first] at put ⊢
        exact intact.loadBlob_written only (stable _ inside) (apart _ inside) rfl put
      obtain ⟨during, rebuilt⟩ := reconstruct_property named (stable _ inside _ _ _ _ rfl) encoded
        (after_.stored.decodes _ _ found) loaded after.committed
      exact ⟨fresh, last, during, rebuilt⟩
    · exact absurd rfl other

end TripleStore

end Polargraph
