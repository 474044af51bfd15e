import Polargraph.Lib.SplitHistory
import Polargraph.Proofs.Storage.MigrateV3

/-! What readers of a migrated store are shown, against what the store of format 2 showed them. -/

namespace Polargraph

variable {ext : External}

/-- From the epoch on, later times have greater words. -/
theorem Timestamp.word_lt_iff {left right : Timestamp} (first : zero ≤ left) (second : zero ≤ right) :
    left.word < right.word ↔ left < right := by
  have low : (0 : Int) ≤ left.micros := first
  have low' : (0 : Int) ≤ right.micros := second
  have high := left.high
  have high' := right.high
  rw [lt_iff]
  simp only [word]
  omega

/-- From the epoch on, a time that is no later has no greater word. -/
theorem Timestamp.word_le_iff {left right : Timestamp} (first : zero ≤ left) (second : zero ≤ right) :
    left.word ≤ right.word ↔ left ≤ right := by
  rw [← not_lt, ← not_lt, word_lt_iff second first]

namespace Index

variable {index : Index} {quads : List StagedQuad} {ids : QuadIds} {tt : Timestamp}

/-- Versions of one time put the one of a quad into its history. -/
theorem history_putAll_of_mem (one : OneValue quads) (dated : ∀ quad ∈ quads, quad.key.tt = tt)
    {bytes : Bytes} (member : ⟨⟨ids, tt⟩, bytes⟩ ∈ quads) {window : Timestamp × Timestamp}
    (read : validTime bytes = some window) :
    (index.putAll quads).history ids = (index.history ids).put tt ⟨window.1, window.2, bytes⟩ := by
  funext time
  by_cases now : time = tt
  · subst now
    rw [History.put_self, history_eq_some]
    exact ⟨putAll_of_oneValue index one member, read⟩
  · have apart : ∀ quad ∈ quads, quad.key ≠ ⟨ids, time⟩ := by
      intro quad within same
      have here := dated quad within
      rw [same] at here
      exact now here
    rw [History.put_of_ne now]
    simp only [history, putAll_of_forall_ne index apart]

/-- Versions of other quads leave a history as it is. -/
theorem history_putAll_of_forall_ne' (apart : ∀ quad ∈ quads, quad.key.toQuadIds ≠ ids) :
    (index.putAll quads).history ids = index.history ids := by
  funext time
  have keys : ∀ quad ∈ quads, quad.key ≠ ⟨ids, time⟩ := fun quad member same =>
    apart quad member (congrArg QuadKey.toQuadIds same)
  simp only [history, putAll_of_forall_ne index keys]

end Index

/-- A property as it was before a version: earlier records, no later starts. -/
structure Precedes (index : Index) (s : NodeId) (p : PredId) (time start : Timestamp) : Prop where
  /-- Its records are from the epoch on, and before the version. -/
  recorded : ∀ object tt, (index ⟨slotOf s p object, tt⟩).isSome → Timestamp.zero ≤ tt ∧ tt < time
  /-- What was recorded has a newest version. -/
  newest : ∀ object tt, (index ⟨slotOf s p object, tt⟩).isSome →
    ∃ held, index.Newest (slotOf s p object) held
  /-- No version of a value starts before one that was recorded earlier. -/
  forward : ∀ object tt tt' version version', index.history (slotOf s p object) tt = some version →
    index.history (slotOf s p object) tt' = some version' → tt ≤ tt' → version.start ≤ version'.start
  /-- No version starts later. -/
  begun : ∀ object tt version, index.history (slotOf s p object) tt = some version →
    version.start ≤ start

section Step

variable {index : Index} {s : NodeId} {p : PredId} {tt : Timestamp} {o : NodeId}
  {window : BiTemporalRange} {bytes : Bytes} {quads : List StagedQuad} {latest : List (NodeId × Bytes)}

/-- What is in a history is stored. -/
theorem Index.isSome_of_history {ids : QuadIds} {version : Version Timestamp Bytes}
    (stored : index.history ids tt = some version) : (index ⟨ids, tt⟩).isSome := by
  rw [(Index.history_eq_some.mp stored).1]
  rfl

/-- Before a version nothing was recorded at its time or later, in the order of keys. -/
theorem Precedes.fresh {start : Timestamp} (precedes : Precedes index s p tt start) (epoch : Timestamp.zero ≤ tt) :
    Fresh index s p tt := by
  intro object time stored
  obtain ⟨low, before⟩ := precedes.recorded object time stored
  exact (Timestamp.word_lt_iff low epoch).mpr before

/-- The newest version of a value is the last of its history. -/
theorem Precedes.newest_version {start : Timestamp} (precedes : Precedes index s p tt start)
    (follows : Follows index s p latest) {object : NodeId} {held : Bytes}
    (newest : index.Newest (slotOf s p object) held) :
    ∃ time version, index.history (slotOf s p object) time = some version ∧ version.content = held ∧
      ∀ other version', index.history (slotOf s p object) other = some version' → other ≤ time := by
  have windowed := follows.windowed _ ((follows.newest object held).mpr newest)
  obtain ⟨time, found, top⟩ := newest
  obtain ⟨range, read⟩ := Option.isSome_iff_exists.mp windowed.2
  have here : (index ⟨slotOf s p object, time⟩).isSome := by
    rw [found]
    rfl
  refine ⟨time, ⟨range.1, range.2, held⟩, Index.history_eq_some.mpr ⟨found, read⟩, rfl, ?_⟩
  intro other version' stored
  have present := Index.isSome_of_history stored
  exact (Timestamp.word_le_iff (precedes.recorded object other present).1
    (precedes.recorded object time here).1).mp (top other present)

/-- What a version does to the history of a value: it is put, the value is closed, or nothing. -/
inductive Effect (index after : Index) (s : NodeId) (p : PredId) (tt : Timestamp) (o : NodeId)
    (window : BiTemporalRange) (bytes : Bytes) (object : NodeId) : Prop
  /-- The version is of this value. -/
  | put (own : object = o) (history : after.history (slotOf s p object) =
      (index.history (slotOf s p object)).put tt ⟨window.vtStart, window.vtEnd, bytes⟩)
  /-- The last version of the value was open, and is closed. -/
  | close (other : object ≠ o) (ends : window.vtEnd = Timestamp.END_OF_TIME) (time : Timestamp)
      (version : Version Timestamp Bytes) (closed : Bytes)
      (stored : index.history (slotOf s p object) time = some version)
      (top : ∀ other version', index.history (slotOf s p object) other = some version' → other ≤ time)
      (still : window.vtStart < version.stop)
      (history : after.history (slotOf s p object) =
        (index.history (slotOf s p object)).put tt ⟨version.start, window.vtStart, closed⟩)
  /-- There is nothing to close. -/
  | keep (other : object ≠ o) (ended : window.vtEnd = Timestamp.END_OF_TIME →
      ∀ tt version, index.history (slotOf s p object) tt = some version →
        ∃ time final, index.history (slotOf s p object) time = some final ∧
          (∀ other version', index.history (slotOf s p object) other = some version' →
            other ≤ time) ∧ final.stop ≤ window.vtStart)
      (history : after.history (slotOf s p object) = index.history (slotOf s p object))

/-- What a version adds has one of the three effects on each value. -/
theorem Adds.effect (adds : Adds index s p tt o window bytes quads) (follows : Follows index s p latest)
    (precedes : Precedes index s p tt window.vtStart)
    (own : validTime bytes = some (window.vtStart, window.vtEnd)) (object : NodeId) :
    Effect index (index.putAll quads) s p tt o window bytes object := by
  have one := adds.oneValue follows
  have dated : ∀ quad ∈ quads, quad.key.tt = tt := fun quad member => (adds.dated quad member).1
  by_cases same : object = o
  · subst same
    exact .put rfl (Index.history_putAll_of_mem one dated ((adds _).mpr (Or.inr rfl)) own)
  by_cases closing : ∃ held, window.vtEnd = Timestamp.END_OF_TIME ∧
      index.Newest (slotOf s p object) held ∧ openAt window.vtStart held = true
  · obtain ⟨held, ends, newest, still⟩ := closing
    have windowed := follows.windowed _ ((follows.newest object held).mpr newest)
    obtain ⟨time, version, stored, content, top⟩ := precedes.newest_version follows newest
    have read := (Index.history_eq_some.mp stored).2
    rw [content] at read
    obtain ⟨closed, done, read', _⟩ := withVtEnd_of_validTime read window.vtStart
    rw [windowed.openAt_eq, QuadOut.stillOpen, read] at still
    have member : ⟨⟨slotOf s p object, tt⟩, closed⟩ ∈ quads := by
      refine (adds _).mpr (Or.inl ⟨ends, object, held, same, newest, ?_, rfl, done⟩)
      rw [windowed.openAt_eq, QuadOut.stillOpen, read]
      exact still
    exact .close same ends time version closed stored top (by simpa using still)
      (Index.history_putAll_of_mem one dated member read')
  · refine .keep same (fun ends tt version stored => ?_) ?_
    · -- The newest version is the last one, and is not open.
      obtain ⟨held, newest⟩ := precedes.newest object tt (Index.isSome_of_history stored)
      obtain ⟨time, final, stored, content, top⟩ := precedes.newest_version follows newest
      have windowed := follows.windowed _ ((follows.newest object held).mpr newest)
      have read := (Index.history_eq_some.mp stored).2
      rw [content] at read
      refine ⟨time, final, stored, top, ?_⟩
      by_contra still
      refine closing ⟨held, ends, newest, ?_⟩
      rw [windowed.openAt_eq, QuadOut.stillOpen, read]
      simpa using still
    · refine Index.history_putAll_of_forall_ne' fun quad member ids => ?_
      rcases (adds quad).mp member with ⟨ends, other, held, _, newest, still, key, _⟩ | rfl
      · rw [key] at ids
        have objects : other = object := congrArg QuadIds.o ids
        rw [objects] at newest
        exact closing ⟨held, ends, newest, still⟩
      · exact same (congrArg QuadIds.o ids).symm

/-- A version of a value goes forward. -/
theorem Precedes.forward_own (precedes : Precedes index s p tt window.vtStart) (object : NodeId) :
    (index.history (slotOf s p object)).Forward tt ⟨window.vtStart, window.vtEnd, bytes⟩ where
  newest time _ stored := (precedes.recorded object time (Index.isSome_of_history stored)).2
  starts := precedes.begun object

/-- A closing version of a value goes forward. -/
theorem Precedes.forward_close {start stop time : Timestamp} (precedes : Precedes index s p tt start)
    {object : NodeId} {version : Version Timestamp Bytes} {closed : Bytes}
    (stored : index.history (slotOf s p object) time = some version)
    (top : ∀ other version', index.history (slotOf s p object) other = some version' → other ≤ time) :
    (index.history (slotOf s p object)).Forward tt ⟨version.start, stop, closed⟩ where
  newest time _ stored := (precedes.recorded object time (Index.isSome_of_history stored)).2
  starts other version' found :=
    precedes.forward object other time version' version found stored (top other version' found)

/-- The last version of a value governs from its start on. -/
theorem Precedes.governs_last {start ts vt time : Timestamp} (precedes : Precedes index s p tt start)
    {object : NodeId} {version : Version Timestamp Bytes}
    (stored : index.history (slotOf s p object) time = some version)
    (top : ∀ other version', index.history (slotOf s p object) other = some version' → other ≤ time)
    (reached : tt ≤ ts) (begun : version.start ≤ vt) :
    (index.history (slotOf s p object)).Governs ts vt time version := by
  have recorded := (precedes.recorded object time (Index.isSome_of_history stored)).2
  refine ⟨⟨stored, le_trans (le_of_lt recorded) reached, begun⟩, fun other version' seen => ?_⟩
  have earlier := top other version' seen.stored
  rcases lt_or_eq_of_le (precedes.forward object other time version' version seen.stored stored
    earlier) with starts | starts
  · exact Or.inl starts
  · exact Or.inr ⟨starts, earlier⟩

/-- What readers are shown of a property. -/
def shownOf (index : Index) (s : NodeId) (p : PredId) : Picture Timestamp NodeId :=
  fun ts vt object => (index.history (slotOf s p object)).Live ts vt

/-- What a version does to what readers are shown of a property: it supersedes the other values. -/
theorem Effect.shown {after : Index} {object : NodeId}
    (effect : Effect index after s p tt o window bytes object)
    (precedes : Precedes index s p tt window.vtStart) (ts vt : Timestamp) :
    shownOf after s p ts vt object ↔ (shownOf index s p).supersede Timestamp.END_OF_TIME
      ⟨tt, o, window.vtStart, window.vtEnd⟩ ts vt object := by
  unfold shownOf Picture.supersede
  dsimp only
  cases effect with
  | put own history =>
    subst own
    rw [history, (precedes.forward_own object).live_put]
    dsimp only
    by_cases reached : tt ≤ ts
    · by_cases begun : window.vtStart ≤ vt
      · simp [reached, begun]
      · simp [reached, begun]
    · simp [reached]
  | close other ends time version closed stored top still history =>
    rw [history, (precedes.forward_close stored top).live_put]
    dsimp only
    by_cases reached : tt ≤ ts
    · by_cases begun : version.start ≤ vt
      · -- Until the version begins its own value, the closed one is shown as before.
        have shown : vt < window.vtStart → (index.history (slotOf s p object)).Live ts vt :=
          fun before => ⟨time, version, precedes.governs_last stored top reached begun,
            lt_trans before still⟩
        simp only [reached, begun, and_self, if_true, forall_const, other, ne_eq,
          not_false_eq_true, ends, false_and, or_false, and_false, IsEmpty.forall_iff, true_and]
        exact ⟨fun before => ⟨before, shown before⟩, fun both => both.1⟩
      · have before : vt < window.vtStart := lt_of_lt_of_le (not_le.mp begun)
          (precedes.begun object time version stored)
        simp [reached, begun, other, before]
    · simp [reached]
  | keep other ended history =>
    rw [history]
    have bounded : (index.history (slotOf s p object)).Live ts vt → tt ≤ ts →
        window.vtEnd = Timestamp.END_OF_TIME → vt < window.vtStart := by
      rintro ⟨time, version, governs, before⟩ reached ends
      -- The last version governs if it has begun, and has ended when the new one begins.
      obtain ⟨last, final, stored, top, stops⟩ := ended ends time version governs.seen.stored
      by_cases begun : final.start ≤ vt
      · rw [(governs.unique (precedes.governs_last stored top reached begun)).2] at before
        exact lt_of_lt_of_le before stops
      · exact lt_of_lt_of_le (not_le.mp begun) (precedes.begun object last final stored)
    by_cases reached : tt ≤ ts
    · simp only [reached, other, IsEmpty.forall_iff, forall_const, true_and, ne_eq, not_false_eq_true,
        false_and, and_false, or_false]
      exact ⟨fun live => ⟨fun ends => bounded live reached ends, live⟩, fun both => both.2⟩
    · simp [reached]

/-- A version of the history after an effect was there, or is the one of this time. -/
theorem Effect.history_cases {after : Index} {object : NodeId}
    (effect : Effect index after s p tt o window bytes object)
    (precedes : Precedes index s p tt window.vtStart) {time : Timestamp}
    {version : Version Timestamp Bytes}
    (stored : after.history (slotOf s p object) time = some version) :
    index.history (slotOf s p object) time = some version ∨
      (time = tt ∧ version.start ≤ window.vtStart ∧ ∀ other version',
        index.history (slotOf s p object) other = some version' → version'.start ≤ version.start) := by
  cases effect with
  | put own history =>
    rw [history] at stored
    by_cases now : time = tt
    · subst now
      rw [History.put_self] at stored
      cases stored
      exact Or.inr ⟨rfl, le_refl _, precedes.begun object⟩
    · rw [History.put_of_ne now] at stored
      exact Or.inl stored
  | close other ends last closing closed found top still history =>
    rw [history] at stored
    by_cases now : time = tt
    · subst now
      rw [History.put_self] at stored
      cases stored
      exact Or.inr ⟨rfl, precedes.begun object last closing found, fun other version' old =>
        precedes.forward object other last version' closing old found (top other version' old)⟩
    · rw [History.put_of_ne now] at stored
      exact Or.inl stored
  | keep other ended history =>
    rw [history] at stored
    exact Or.inl stored

/-- After a version, a property is as it was before a later one that starts no earlier. -/
theorem Precedes.next (precedes : Precedes index s p tt window.vtStart)
    (adds : Adds index s p tt o window bytes quads) (follows : Follows index s p latest)
    (own : validTime bytes = some (window.vtStart, window.vtEnd)) (epoch : Timestamp.zero ≤ tt)
    {later start : Timestamp} (after : tt < later) (begins : window.vtStart ≤ start) :
    Precedes (index.putAll quads) s p later start where
  recorded object time stored := by
    obtain ⟨value, found⟩ := Option.isSome_iff_exists.mp stored
    rcases Index.putAll_eq_some found with before | member
    · have here := precedes.recorded object time (by rw [before]; rfl)
      exact ⟨here.1, lt_trans here.2 after⟩
    · have here : time = tt := (adds.dated _ member).1
      rw [here]
      exact ⟨epoch, after⟩
  newest object time stored := by
    have dated : ∀ quad ∈ quads, quad.key.tt = tt := fun quad member => (adds.dated quad member).1
    have newest := fun held => @Index.newest_putAll index quads tt (slotOf s p object) held
      (adds.oneValue follows) dated (precedes.fresh epoch object)
    by_cases written : ∃ quad ∈ quads, quad.key = ⟨slotOf s p object, tt⟩
    · obtain ⟨⟨key, held⟩, member, same⟩ := written
      dsimp only at same
      subst same
      exact ⟨held, (newest held).mpr (Or.inl member)⟩
    · have apart : ∀ quad ∈ quads, quad.key ≠ ⟨slotOf s p object, tt⟩ := fun quad member same =>
        written ⟨quad, member, same⟩
      obtain ⟨value, found⟩ := Option.isSome_iff_exists.mp stored
      rcases Index.putAll_eq_some found with before | member
      · obtain ⟨held, old⟩ := precedes.newest object time (by rw [before]; rfl)
        exact ⟨held, (newest held).mpr (Or.inr ⟨apart, old⟩)⟩
      · have here : time = tt := (adds.dated _ member).1
        subst here
        exact absurd rfl (apart _ member)
  forward object time time' version version' stored stored' order := by
    have effect := adds.effect follows precedes own object
    rcases effect.history_cases precedes stored with old | ⟨rfl, _, _⟩
    · rcases effect.history_cases precedes stored' with old' | ⟨rfl, _, highest⟩
      · exact precedes.forward object time time' version version' old old' order
      · exact highest time version old
    · rcases effect.history_cases precedes stored' with old' | ⟨rfl, _, _⟩
      · exact absurd (precedes.recorded object time' (Index.isSome_of_history old')).2 (not_lt.mpr order)
      · rw [Option.some.inj (stored.symm.trans stored')]
  begun object time version stored := by
    have effect := adds.effect follows precedes own object
    rcases effect.history_cases precedes stored with old | ⟨_, starts, _⟩
    · exact le_trans (precedes.begun object time version old) begins
    · exact le_trans starts begins

end Step

namespace V2

/-- The object of a version: that of its key, or the content hash of the value of a property. -/
def objectOf (ext : External) (o : NodeId) (bytes : Bytes) : NodeId :=
  match decodeValue ext bytes with
  | .ok (.property value _) => valueObject ext value
  | _ => o

/-- The window of a version. -/
def windowOf (bytes : Bytes) : Timestamp × Timestamp :=
  (validTime bytes).getD (Timestamp.zero, Timestamp.zero)

/-- What a version asserts of the object slot of its subject and predicate. -/
def assertion (ext : External) (entry : Spo × Bytes) : Assertion Timestamp NodeId :=
  ⟨entry.1.tt, objectOf ext entry.1.o entry.2, (windowOf entry.2).1, (windowOf entry.2).2⟩

/-- What a decoded property asserts. -/
theorem assertion_of_decoded {entry : Spo × Bytes} {value : Value} {window : BiTemporalRange}
    (decoded : decodeValue ext entry.2 = .ok (.property value window)) :
    assertion ext entry = ⟨entry.1.tt, valueObject ext value, window.vtStart, window.vtEnd⟩ := by
  obtain ⟨range, read⟩ := validTime_of_decodeValue decoded
  have same := decodeValue_window read decoded
  dsimp only at same
  unfold assertion objectOf windowOf
  rw [decoded, read, same]
  rfl

end V2

/-- Versions of a property as a store of format 2 has them, which never start before earlier ones. -/
structure Ascending (ext : External) (s : NodeId) (p : PredId) (versions : List (V2.Spo × Bytes)) :
    Prop where
  /-- They are values of the property, in the order of their keys. -/
  history : PropertyHistory ext s p versions
  /-- They were committed from the epoch on. -/
  epoch : ∀ entry ∈ versions, Timestamp.zero ≤ entry.1.tt
  /-- None starts before an earlier one. -/
  forward : versions.Pairwise fun earlier later =>
    (V2.windowOf earlier.2).1 ≤ (V2.windowOf later.2).1

/-- What a migration shows of a property is what its versions show when they supersede one another. -/
theorem foldlM_version_shown {store : TripleStore} {index : Index} {s : NodeId} {p : PredId}
    {latest : List (NodeId × Bytes)} {versions : List (V2.Spo × Bytes)}
    (ascending : Ascending ext s p versions) (follows : Follows index s p latest)
    (precedes : ∀ entry ∈ versions, Precedes index s p entry.1.tt (V2.windowOf entry.2).1)
    {out : QuadOut} {state : QuadOut × List (NodeId × Bytes)}
    (run : versions.foldlM (QuadOut.version ext store) (out, latest) = .ok state) :
    ∃ added, state.1.quads = out.quads ++ added ∧
      (∀ quad ∈ added, (∃ entry ∈ versions, quad.key.tt = entry.1.tt) ∧
        ∃ object, quad.key.toQuadIds = slotOf s p object ∧ (object ∈ latest.map Prod.fst ∨
          ∃ entry ∈ versions, (V2.assertion ext entry).value = object)) ∧
      shownOf (index.putAll added) s p = (versions.map (V2.assertion ext)).foldl
        (Picture.supersede Timestamp.END_OF_TIME) (shownOf index s p) := by
  induction versions generalizing index latest out with
  | nil =>
    cases run
    exact ⟨[], by simp, by simp, rfl⟩
  | cons entry rest ih =>
    obtain ⟨⟨subject, predicate, value, window, decoded⟩, values⟩ :=
      List.forall_mem_cons.mp ascending.history.values
    obtain ⟨above, ordered⟩ := List.pairwise_cons.mp ascending.history.ordered
    obtain ⟨starts, forward⟩ := List.pairwise_cons.mp ascending.forward
    obtain ⟨epoch, epochs⟩ := List.forall_mem_cons.mp ascending.epoch
    have asserts := V2.assertion_of_decoded decoded
    have first := precedes entry List.mem_cons_self
    have start : (V2.windowOf entry.2).1 = window.vtStart := congrArg Assertion.start asserts
    rw [start] at first
    have migrated := QuadOut.version_spec store follows subject predicate decoded out
    rw [List.foldlM_cons] at run
    obtain ⟨middle, step, run⟩ := Except.bind_eq_ok.mp run
    cases encoded : store.encodePropertyEntry ext [] value window with
    | error problem =>
      rw [encoded] at migrated
      dsimp only at migrated
      rw [migrated] at step
      cases step
    | ok written =>
      obtain ⟨blobs, bytes⟩ := written
      rw [encoded] at migrated
      obtain ⟨next, added, done, quads, adds⟩ := migrated
      rw [done] at step
      cases step
      have own := TripleStore.validTime_encodePropertyEntry encoded
      have fresh := first.fresh epoch
      have again := adds.follows follows fresh (TripleStore.windowed_encodePropertyEntry encoded)
      have later : ∀ entry ∈ rest, Precedes (index.putAll added) s p entry.1.tt
          (V2.windowOf entry.2).1 := by
        intro other member
        refine first.next adds follows own epoch ?_ ?_
        · exact (Timestamp.word_lt_iff epoch (epochs other member)).mp (above other member)
        · rw [← start]
          exact starts other member
      obtain ⟨more, quads', slots, shown⟩ := ih ⟨⟨values, ordered⟩, epochs, forward⟩ again later run
      refine ⟨added ++ more, ?_, fun quad member => ?_, ?_⟩
      · rw [quads', quads, List.append_assoc]
      · rcases List.mem_append.mp member with member | member
        · refine ⟨⟨entry, List.mem_cons_self, (adds.dated quad member).1⟩, ?_⟩
          rcases (adds quad).mp member with ⟨_, other, held, _, newest, _, key, _⟩ | rfl
          · refine ⟨other, by rw [key], Or.inl ?_⟩
            exact List.mem_map.mpr ⟨_, (follows.newest other held).mpr newest, rfl⟩
          · exact ⟨_, rfl, Or.inr ⟨entry, List.mem_cons_self, by rw [asserts]⟩⟩
        · obtain ⟨⟨dating, within, time⟩, object, ids, source⟩ := slots quad member
          refine ⟨⟨dating, List.mem_cons_of_mem _ within, time⟩, object, ids, ?_⟩
          rcases source with listed | ⟨other, member, same⟩
          · obtain ⟨held, member, rfl⟩ := List.mem_map.mp listed
            rcases (mem_followed follows.distinct).mp member with rfl | ⟨_, before, member, _⟩
            · exact Or.inr ⟨entry, List.mem_cons_self, by rw [asserts]⟩
            · exact Or.inl (List.mem_map.mpr ⟨_, member, rfl⟩)
          · exact Or.inr ⟨other, List.mem_cons_of_mem _ member, same⟩
      · rw [Index.putAll_append, shown, List.map_cons, List.foldl_cons, asserts]
        congr 1
        funext ts vt object
        exact propext ((adds.effect follows first own object).shown first ts vt)

end Polargraph
