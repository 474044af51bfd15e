import Polargraph.Lib.Gather
import Polargraph.Proofs.Storage.MigrateReads

/-! A migrated store shows what the store of format 2 showed exactly if its corrections resume. -/

namespace Polargraph

variable {ext : External}

namespace V2

/-- A key reads back. -/
theorem decodeSpo_encodeSpo (k : Spo) : decodeSpo (encodeSpo k) = .ok k := by
  obtain ⟨s, p, o, tt⟩ := k
  have widths := s.uuid.width
  have widtho := o.uuid.width
  have widthp : (u32Bytes p).length = 4 := by simp
  have widtht := tt.toBeBytes_length
  have length : (encodeSpo ⟨s, p, o, tt⟩).length = KEY_LEN := by
    simp only [encodeSpo, List.length_append, widths, widtho, widthp, widtht]
    rfl
  have first : slice (encodeSpo ⟨s, p, o, tt⟩) 0 16 = s.uuid.bytes := by
    simp only [encodeSpo, slice, List.append_assoc, List.drop_zero]
    exact List.take_left' widths
  have second : slice (encodeSpo ⟨s, p, o, tt⟩) 16 20 = u32Bytes p := by
    simp only [encodeSpo, slice, List.append_assoc]
    rw [List.drop_left' widths]
    exact List.take_left' widthp
  have third : slice (encodeSpo ⟨s, p, o, tt⟩) 20 36 = o.uuid.bytes := by
    simp only [encodeSpo, slice]
    rw [List.append_assoc, List.drop_left' (by simp [widths, widthp])]
    exact List.take_left' widtho
  have fourth : slice (encodeSpo ⟨s, p, o, tt⟩) 36 44 = tt.toBeBytes := by
    simp only [encodeSpo, slice]
    rw [List.drop_left' (by simp [widths, widthp, widtho])]
    exact List.take_of_length_le (le_of_eq widtht)
  have checked : checkLen (encodeSpo ⟨s, p, o, tt⟩) KEY_LEN "v2 SPO" = .ok () := by
    simp [checkLen, length]
  simp only [decodeSpo, checked, first, second, third, fourth, bind, Except.bind]
  simp [pure, Except.pure]

/-- Two keys with the same bytes are equal. -/
theorem encodeSpo_inj {left right : Spo} (same : encodeSpo left = encodeSpo right) : left = right := by
  have read := decodeSpo_encodeSpo left
  rw [same, decodeSpo_encodeSpo] at read
  exact (Except.ok.inj read).symm

/-- What a key is of: its subject, its predicate and its object slot. -/
def Spo.slot (k : Spo) : NodeId × PredId × NodeId := (k.s, k.p, k.o)

/-- The entries of a store of format 2, in the order of their keys. -/
def entries (spo : SortedMap Bytes Bytes) : List (Spo × Bytes) :=
  spo.entries.filterMap fun item => (decodeSpo item.1).toOption.map fun k => (k, item.2)

/-- The versions under one key. -/
def versions (spo : SortedMap Bytes Bytes) (s : NodeId) (p : PredId) (o : NodeId) :
    List (Spo × Bytes) :=
  (entries spo).filter fun entry => decide (entry.1.slot = (s, p, o))

/-- The history of one key. -/
def history (spo : SortedMap Bytes Bytes) (s : NodeId) (p : PredId) (o : NodeId) :
    History Timestamp Bytes := fun tt =>
  (spo.find? (encodeSpo ⟨s, p, o, tt⟩)).bind fun bytes =>
    (validTime bytes).map fun window => ⟨window.1, window.2, bytes⟩

/-- A store of format 2 shows an object: it is that of the version that governs a key. -/
def Shows (ext : External) (spo : SortedMap Bytes Bytes) (ts vt : Timestamp) (s : NodeId) (p : PredId)
    (object : NodeId) : Prop :=
  ∃ o tt version, (history spo s p o).Governs ts vt tt version ∧ vt < version.stop ∧
    objectOf ext o version.content = object

/-- A store as format 2 has it. -/
structure WellFormed (ext : External) (spo : SortedMap Bytes Bytes) : Prop where
  /-- Keys are of versions that were committed from the epoch on. -/
  keys : ∀ item ∈ spo.entries, ∃ k, item.1 = encodeSpo k ∧ Timestamp.zero ≤ k.tt
  /-- Values of properties are under the common object slot. -/
  properties : ∀ k bytes, (encodeSpo k, bytes) ∈ spo.entries → k.o = PROPERTY_SENTINEL →
    ∃ value window, decodeValue ext bytes = .ok (.property value window)
  /-- Relations are under their objects. -/
  relations : ∀ k bytes, (encodeSpo k, bytes) ∈ spo.entries → k.o ≠ PROPERTY_SENTINEL →
    ∃ edge window, decodeValue ext bytes = .ok (.relation edge window)

/-- No version of a property starts before one that was committed earlier. -/
def NeverBefore (spo : SortedMap Bytes Bytes) : Prop :=
  ∀ s p, (versions spo s p PROPERTY_SENTINEL).Pairwise fun earlier later =>
    (windowOf earlier.2).1 ≤ (windowOf later.2).1

/-- No relation has an object that is the content hash of a value of the same property. -/
def HashesApart (ext : External) (spo : SortedMap Bytes Bytes) : Prop :=
  ∀ relation ∈ entries spo, relation.1.o ≠ PROPERTY_SENTINEL →
    ∀ property ∈ versions spo relation.1.s relation.1.p PROPERTY_SENTINEL,
      objectOf ext PROPERTY_SENTINEL property.2 ≠ relation.1.o

/--
Every version of a property with an end resumes the one before it.

It has the same value, or the one before has ended when it starts.
-/
def CorrectionsResume (ext : External) (spo : SortedMap Bytes Bytes) : Prop :=
  ∀ s p, ((versions spo s p PROPERTY_SENTINEL).map (assertion ext)).IsChain
    (Picture.Resumes Timestamp.END_OF_TIME)

variable {spo : SortedMap Bytes Bytes} {s : NodeId} {p : PredId} {o : NodeId}

/-- The entries are those of the store. -/
theorem WellFormed.mem_entries (wellFormed : WellFormed ext spo) {entry : Spo × Bytes} :
    entry ∈ entries spo ↔ (encodeSpo entry.1, entry.2) ∈ spo.entries := by
  unfold entries
  rw [List.mem_filterMap]
  constructor
  · rintro ⟨item, member, found⟩
    obtain ⟨k, key, _⟩ := wellFormed.keys item member
    rw [key, decodeSpo_encodeSpo] at found
    cases found
    rw [← key]
    exact member
  · intro member
    exact ⟨_, member, by rw [decodeSpo_encodeSpo]; rfl⟩

/-- The entries are in the order of their keys. -/
theorem WellFormed.sorted (wellFormed : WellFormed ext spo) :
    (entries spo).Pairwise fun left right => encodeSpo left.1 < encodeSpo right.1 := by
  unfold entries
  rw [List.pairwise_filterMap]
  refine spo.sorted.imp_of_mem fun {left right} memberL memberR below => ?_
  intro first found second found'
  obtain ⟨k, key, _⟩ := wellFormed.keys left memberL
  obtain ⟨k', key', _⟩ := wellFormed.keys right memberR
  rw [key, decodeSpo_encodeSpo] at found
  rw [key', decodeSpo_encodeSpo] at found'
  cases found
  cases found'
  rw [← key, ← key']
  exact below

/-- The part of a key before its time. -/
theorem take_encodeSpo (k : Spo) :
    (encodeSpo k).take 36 = k.s.uuid.bytes ++ u32Bytes k.p ++ k.o.uuid.bytes := by
  refine List.take_left' ?_
  simp [k.s.uuid.width, k.o.uuid.width]

/-- Keys agree before their times exactly if they have one slot. -/
theorem slot_eq_iff {left right : Spo} :
    left.slot = right.slot ↔ (encodeSpo left).take 36 = (encodeSpo right).take 36 := by
  obtain ⟨s, p, o, tt⟩ := left
  obtain ⟨s', p', o', tt'⟩ := right
  constructor
  · intro same
    cases same
    rw [take_encodeSpo, take_encodeSpo]
  · intro same
    have time : encodeSpo ⟨s, p, o, tt⟩ = encodeSpo ⟨s', p', o', tt⟩ := by
      rw [take_encodeSpo, take_encodeSpo] at same
      unfold encodeSpo
      dsimp only at same ⊢
      rw [same]
    cases encodeSpo_inj time
    rfl

/-- Versions of one key stand together. -/
theorem WellFormed.contiguous (wellFormed : WellFormed ext spo) :
    (entries spo).Contiguous fun entry => entry.1.slot := by
  intro a b c sub same
  have order := wellFormed.sorted.sublist sub
  obtain ⟨below, above, _⟩ : (encodeSpo a.1 < encodeSpo b.1 ∧ encodeSpo a.1 < encodeSpo c.1) ∧
      encodeSpo b.1 < encodeSpo c.1 ∧ True := by
    simpa using order
  have long : 36 ≤ (encodeSpo a.1).length := by
    simp [encodeSpo, a.1.s.uuid.width, a.1.o.uuid.width]
  exact slot_eq_iff.mpr (SortedMap.take_eq_of_between (slot_eq_iff.mp same) long below.1 above)

/-- The versions of a key are the entries with its slot. -/
theorem mem_versions {entry : Spo × Bytes} :
    entry ∈ versions spo s p o ↔ entry ∈ entries spo ∧ entry.1.slot = (s, p, o) := by
  simp [versions]

/-- The times of the versions of a key increase, as words. -/
theorem WellFormed.versions_ordered (wellFormed : WellFormed ext spo) :
    (versions spo s p o).Pairwise fun earlier later => earlier.1.tt.word < later.1.tt.word := by
  have order := wellFormed.sorted.sublist (List.filter_sublist
    (p := fun entry : Spo × Bytes => decide (entry.1.slot = (s, p, o))))
  refine order.imp_of_mem fun {left right} memberL memberR below => ?_
  have slotL := (mem_versions.mp memberL).2
  have slotR := (mem_versions.mp memberR).2
  obtain ⟨⟨s, p, o, tt⟩, bytes⟩ := left
  obtain ⟨⟨s', p', o', tt'⟩, bytes'⟩ := right
  cases slotL
  cases slotR
  have times : tt.toBeBytes < tt'.toBeBytes := SortedMap.append_lt_append_iff.mp below
  have fits : ∀ time : Timestamp, time.word < 256 ^ 8 := by
    intro time
    simp only [Timestamp.word]
    omega
  exact (beBytes_lt_iff (fits tt) (fits tt')).mp times

/-- Versions were committed from the epoch on. -/
theorem WellFormed.epoch (wellFormed : WellFormed ext spo) {entry : Spo × Bytes}
    (member : entry ∈ entries spo) : Timestamp.zero ≤ entry.1.tt := by
  obtain ⟨k, key, epoch⟩ := wellFormed.keys _ (wellFormed.mem_entries.mp member)
  rw [encodeSpo_inj key]
  exact epoch

/-- The times of the versions of a key increase. -/
theorem WellFormed.versions_timed (wellFormed : WellFormed ext spo) :
    (versions spo s p o).Pairwise fun earlier later => earlier.1.tt < later.1.tt :=
  wellFormed.versions_ordered.imp_of_mem fun memberL memberR below =>
    (Timestamp.word_lt_iff (wellFormed.epoch (mem_versions.mp memberL).1)
      (wellFormed.epoch (mem_versions.mp memberR).1)).mp below

/-- Every version has a window. -/
theorem WellFormed.window (wellFormed : WellFormed ext spo) {entry : Spo × Bytes}
    (member : entry ∈ entries spo) : validTime entry.2 = some (windowOf entry.2) := by
  have stored := wellFormed.mem_entries.mp member
  have read : ∃ window, validTime entry.2 = some window := by
    by_cases property : entry.1.o = PROPERTY_SENTINEL
    · obtain ⟨value, window, decoded⟩ := wellFormed.properties _ _ stored property
      exact validTime_of_decodeValue decoded
    · obtain ⟨edge, window, decoded⟩ := wellFormed.relations _ _ stored property
      exact validTime_of_decodeValue decoded
  obtain ⟨window, read⟩ := read
  rw [windowOf, read]
  rfl

/-- The versions of a list, recorded one after another. -/
def recorded (list : List (Spo × Bytes)) : History Timestamp Bytes :=
  list.foldl (fun history entry => history.put entry.1.tt
    ⟨(windowOf entry.2).1, (windowOf entry.2).2, entry.2⟩) fun _ => none

/-- What is recorded is of the list, and the entries of one with distinct times are. -/
theorem recorded_eq_some {list : List (Spo × Bytes)}
    (timed : list.Pairwise fun earlier later => earlier.1.tt < later.1.tt) {tt : Timestamp}
    {version : Version Timestamp Bytes} : recorded list tt = some version ↔ ∃ entry ∈ list,
      entry.1.tt = tt ∧ version = ⟨(windowOf entry.2).1, (windowOf entry.2).2, entry.2⟩ := by
  induction list using List.reverseRecOn with
  | nil => simp [recorded]
  | append_singleton rest last ih =>
    obtain ⟨before, _, above⟩ := List.pairwise_append.mp timed
    have step : recorded (rest ++ [last]) = (recorded rest).put last.1.tt
        ⟨(windowOf last.2).1, (windowOf last.2).2, last.2⟩ := by
      simp only [recorded, List.foldl_concat]
    rw [step]
    by_cases now : tt = last.1.tt
    · subst now
      rw [History.put_self]
      constructor
      · intro same
        exact ⟨last, by simp, rfl, (Option.some.inj same).symm⟩
      · rintro ⟨entry, member, time, rfl⟩
        rcases List.mem_append.mp member with earlier | same
        · have below := above entry earlier last (List.mem_singleton.mpr rfl)
          rw [time] at below
          exact absurd below (lt_irrefl _)
        · rw [List.mem_singleton.mp same]
    · rw [History.put_of_ne now, ih before]
      constructor
      · rintro ⟨entry, member, rest⟩
        exact ⟨entry, List.mem_append_left _ member, rest⟩
      · rintro ⟨entry, member, time, same⟩
        rcases List.mem_append.mp member with earlier | own
        · exact ⟨entry, earlier, time, same⟩
        · rw [List.mem_singleton.mp own] at time
          exact absurd time.symm now

/-- The history of a key is that of its versions. -/
theorem WellFormed.history_eq (wellFormed : WellFormed ext spo) :
    history spo s p o = recorded (versions spo s p o) := by
  funext tt
  ext version
  rw [recorded_eq_some wellFormed.versions_timed]
  simp only [history, Option.bind_eq_some_iff, Option.map_eq_some_iff]
  constructor
  · rintro ⟨bytes, found, window, read, rfl⟩
    have member : (⟨s, p, o, tt⟩, bytes) ∈ entries spo :=
      wellFormed.mem_entries.mpr (SortedMap.find?_eq_some.mp found)
    refine ⟨_, mem_versions.mpr ⟨member, rfl⟩, rfl, ?_⟩
    simp [windowOf, read]
  · rintro ⟨⟨k, bytes⟩, member, rfl, rfl⟩
    obtain ⟨listed, slot⟩ := mem_versions.mp member
    cases slot
    exact ⟨bytes, SortedMap.find?_eq_some.mpr (wellFormed.mem_entries.mp listed), _,
      wellFormed.window listed, rfl⟩

/-- What the versions of a key show when each overwrites those before. -/
theorem recorded_shown {list : List (Spo × Bytes)} (one : ∀ entry ∈ list, entry.1.o = o)
    (timed : list.Pairwise fun earlier later => earlier.1.tt < later.1.tt)
    (forward : list.Pairwise fun earlier later => (windowOf earlier.2).1 ≤ (windowOf later.2).1)
    (ts vt : Timestamp) (object : NodeId) :
    (∃ tt version, (recorded list).Governs ts vt tt version ∧ vt < version.stop ∧
        objectOf ext o version.content = object) ↔
      (list.map (assertion ext)).foldl Picture.overwrite Picture.nothing ts vt object := by
  induction list using List.reverseRecOn with
  | nil =>
    refine iff_of_false ?_ id
    rintro ⟨tt, version, governs, _⟩
    cases governs.seen.stored
  | append_singleton rest last ih =>
    obtain ⟨before, _, above⟩ := List.pairwise_append.mp timed
    obtain ⟨start, _, begins⟩ := List.pairwise_append.mp forward
    have ih := ih (fun entry member => one entry (List.mem_append_left _ member)) before start
    have here := one last (by simp)
    have goes : (recorded rest).Forward last.1.tt
        ⟨(windowOf last.2).1, (windowOf last.2).2, last.2⟩ := by
      refine ⟨fun tt version stored => ?_, fun tt version stored => ?_⟩
      · obtain ⟨entry, member, rfl, _⟩ := (recorded_eq_some before).mp stored
        exact above entry member last (List.mem_singleton.mpr rfl)
      · obtain ⟨entry, member, _, rfl⟩ := (recorded_eq_some before).mp stored
        exact begins entry member last (List.mem_singleton.mpr rfl)
    have step : recorded (rest ++ [last]) = (recorded rest).put last.1.tt
        ⟨(windowOf last.2).1, (windowOf last.2).2, last.2⟩ := by
      simp only [recorded, List.foldl_concat]
    rw [step, List.map_append, List.foldl_append]
    simp only [List.map_cons, List.map_nil, List.foldl_cons, List.foldl_nil, goes.governs_put,
      Picture.overwrite, ← ih]
    -- The last version decides where it is seen, and the rest elsewhere.
    split_ifs with reached seen
    · constructor
      · rintro ⟨_, _, ⟨_, rfl⟩, still, rfl⟩
        exact ⟨by rw [assertion, here], still⟩
      · rintro ⟨same, still⟩
        exact ⟨_, _, ⟨rfl, rfl⟩, still, by rw [same, assertion, here]⟩
    · exact absurd reached seen
    · rename_i seen
      exact absurd seen reached
    · exact Iff.rfl

end V2

namespace QuadOut

variable {store : TripleStore}

/-- The versions a migration wrote, as the orders hold them. -/
def index (out : QuadOut) : Index := Index.putAll (fun _ => none) out.quads

/-- Collecting the versions of a store rewrites its groups one after another. -/
theorem foldlM_collect {items : List (Bytes × Bytes)}
    (keys : ∀ item ∈ items, ∃ k, item.1 = V2.encodeSpo k) (out : QuadOut)
    (current : List (V2.Spo × Bytes)) :
    (items.foldlM (collect ext store) (out, current) >>= fun state => state.1.group ext store state.2) =
      (List.gather (fun entry : V2.Spo × Bytes => entry.1.slot) current
        (items.filterMap fun item => (V2.decodeSpo item.1).toOption.map fun k => (k, item.2))).foldlM
          (group ext store) out := by
  induction items generalizing out current with
  | nil =>
    rw [List.filterMap_nil, List.gather]
    simp [List.foldlM_cons, pure, Except.pure, bind, Except.bind]
    cases out.group ext store current <;> rfl
  | cons item rest ih =>
    obtain ⟨k, key⟩ := keys item List.mem_cons_self
    obtain ⟨bytes, value⟩ := item
    dsimp only at key
    subst key
    have later := fun item member => keys item (List.mem_cons_of_mem _ member)
    have decoded := V2.decodeSpo_encodeSpo k
    have read : (V2.decodeSpo (V2.encodeSpo k)).toOption = some k := by
      rw [decoded]
      rfl
    rw [List.foldlM_cons, List.filterMap_cons]
    simp only [read, Option.map_some]
    cases current with
    | nil =>
      have step : collect ext store (out, []) (V2.encodeSpo k, value) = .ok (out, [(k, value)]) := by
        simp [collect, decoded, bind, Except.bind, pure, Except.pure]
      rw [step]
      exact (ih later out [(k, value)]).trans (by rw [List.gather])
    | cons first more =>
      by_cases same : first.1.slot = k.slot
      · have step : collect ext store (out, first :: more) (V2.encodeSpo k, value) =
            .ok (out, first :: more ++ [(k, value)]) := by
          have equal : (first.1.s, first.1.p, first.1.o) = (k.s, k.p, k.o) := same
          simp [collect, decoded, bind, Except.bind, pure, Except.pure, equal]
        rw [step, List.gather, if_pos same]
        exact ih later out (first :: more ++ [(k, value)])
      · have step : collect ext store (out, first :: more) (V2.encodeSpo k, value) =
            (out.group ext store (first :: more)).map fun out => (out, [(k, value)]) := by
          have apart : (first.1.s, first.1.p, first.1.o) ≠ (k.s, k.p, k.o) := same
          simp only [collect, decoded, bind, Except.bind, pure, Except.pure, if_pos apart]
          cases out.group ext store (first :: more) <;> rfl
        rw [step, List.gather, if_neg same, List.foldlM_cons]
        cases out.group ext store (first :: more) with
        | error problem => rfl
        | ok next => exact ih later next [(k, value)]

/-- What is written for the versions of one key. -/
structure Rewrites (ext : External) (versions : List (V2.Spo × Bytes)) (added : List StagedQuad) :
    Prop where
  /-- It is recorded at the time of a version. -/
  dated : ∀ quad ∈ added, ∃ entry ∈ versions, quad.key.tt = entry.1.tt
  /-- It is of the object of a version. -/
  slots : ∀ quad ∈ added, ∃ entry ∈ versions,
    quad.key.toQuadIds = slotOf entry.1.s entry.1.p (V2.assertion ext entry).value
  /-- The values of a property supersede one another. -/
  property : ∀ s p, (∀ entry ∈ versions, entry.1.slot = (s, p, V2.PROPERTY_SENTINEL)) →
    shownOf (Index.putAll (fun _ => none) added) s p =
      (versions.map (V2.assertion ext)).foldl (Picture.supersede Timestamp.END_OF_TIME) Picture.nothing
  /-- The history of a relation is the same. -/
  relation : ∀ s p o, o ≠ V2.PROPERTY_SENTINEL → (∀ entry ∈ versions, entry.1.slot = (s, p, o)) →
    (Index.putAll (fun _ => none) added).history (slotOf s p o) = V2.recorded versions

/-- The versions of a relation are written as they are. -/
theorem foldlM_version_relation {versions : List (V2.Spo × Bytes)}
    (relations : ∀ entry ∈ versions, ∃ edge window, decodeValue ext entry.2 = .ok (.relation edge window))
    {state result : QuadOut × List (NodeId × Bytes)}
    (run : versions.foldlM (version ext store) state = .ok result) :
    result.1.quads = state.1.quads ++ versions.map (fun entry =>
      ⟨⟨slotOf entry.1.s entry.1.p entry.1.o, entry.1.tt⟩, entry.2⟩) := by
  induction versions generalizing state with
  | nil =>
    cases run
    simp
  | cons entry rest ih =>
    obtain ⟨⟨edge, window, decoded⟩, later⟩ := List.forall_mem_cons.mp relations
    rw [List.foldlM_cons] at run
    obtain ⟨middle, step, run⟩ := Except.bind_eq_ok.mp run
    obtain ⟨out, latest⟩ := state
    obtain ⟨k, bytes⟩ := entry
    unfold version at step
    dsimp only at step decoded
    obtain ⟨value, read, step⟩ := Except.bind_eq_ok.mp step
    rw [decoded] at read
    cases read
    obtain ⟨next, emitted, step⟩ := Except.bind_eq_ok.mp step
    cases step
    unfold emit at emitted
    split at emitted
    · cases emitted
    · cases emitted
      rw [ih later run]
      simp [slotOf]

/-- Nothing is written for no versions. -/
theorem Rewrites.nil (ext : External) : Rewrites ext [] [] where
  dated _ member := absurd member List.not_mem_nil
  slots _ member := absurd member List.not_mem_nil
  property s p _ := by
    funext ts vt object
    refine propext (iff_of_false ?_ id)
    rintro ⟨tt, version, governs, _⟩
    cases governs.seen.stored
  relation _ _ _ _ _ := rfl

variable {spo : SortedMap Bytes Bytes}

/-- Rewriting the versions of a key writes what they show. -/
theorem group_rewrites (wellFormed : V2.WellFormed ext spo) (never : V2.NeverBefore spo) {s : NodeId}
    {p : PredId} {o : NodeId} (nonempty : V2.versions spo s p o ≠ []) {out next : QuadOut}
    (done : out.group ext store (V2.versions spo s p o) = .ok next) :
    ∃ added, next.quads = out.quads ++ added ∧ Rewrites ext (V2.versions spo s p o) added := by
  obtain ⟨first, here⟩ := List.exists_mem_of_ne_nil _ nonempty
  have firstSlot := (V2.mem_versions.mp here).2
  have stored : ∀ entry ∈ V2.versions spo s p o, (V2.encodeSpo entry.1, entry.2) ∈ spo.entries :=
    fun entry member => wellFormed.mem_entries.mp (V2.mem_versions.mp member).1
  have slot : ∀ entry ∈ V2.versions spo s p o, entry.1.s = s ∧ entry.1.p = p ∧ entry.1.o = o := by
    intro entry member
    have same := (V2.mem_versions.mp member).2
    exact ⟨congrArg Prod.fst same, congrArg (fun slot => slot.2.1) same,
      congrArg (fun slot => slot.2.2) same⟩
  obtain ⟨state, run, done⟩ := Except.bind_eq_ok.mp done
  cases done
  by_cases property : o = V2.PROPERTY_SENTINEL
  · subst property
    have ascending : Ascending ext s p (V2.versions spo s p V2.PROPERTY_SENTINEL) := by
      refine ⟨⟨fun entry member => ?_, wellFormed.versions_ordered⟩, fun entry member => ?_, never s p⟩
      · exact ⟨(slot entry member).1, (slot entry member).2.1,
          wellFormed.properties _ _ (stored entry member) (slot entry member).2.2⟩
      · exact wellFormed.epoch (V2.mem_versions.mp member).1
    have follows : Follows (fun _ => none) s p [] := by
      refine ⟨List.nodup_nil, fun object bytes => iff_of_false List.not_mem_nil ?_, nofun⟩
      rintro ⟨time, found, _⟩
      cases found
    have precedes : ∀ entry ∈ V2.versions spo s p V2.PROPERTY_SENTINEL,
        Precedes (fun _ => none) s p entry.1.tt (V2.windowOf entry.2).1 := by
      intro entry _
      refine ⟨fun _ _ stored => ?_, fun _ _ stored => ?_, fun _ _ _ _ _ stored => ?_,
        fun _ _ _ stored => ?_⟩ <;> cases stored
    obtain ⟨added, quads, slots, shown⟩ := foldlM_version_shown ascending follows precedes run
    have nothing : shownOf (fun _ => none) s p = Picture.nothing :=
      (Rewrites.nil ext).property s p fun _ member => absurd member List.not_mem_nil
    refine ⟨added, quads, fun quad member => (slots quad member).1, fun quad member => ?_,
      fun s' p' all => ?_, fun s' p' o' other all => ?_⟩
    · obtain ⟨_, object, ids, listed | ⟨entry, within, value⟩⟩ := slots quad member
      · cases listed
      · exact ⟨entry, within, by rw [ids, (slot entry within).1, (slot entry within).2.1, value]⟩
    · have same := firstSlot.symm.trans (all first here)
      cases same
      rw [shown, nothing]
    · have same := firstSlot.symm.trans (all first here)
      cases same
      exact absurd rfl other
  · -- A relation keeps its history.
    have relations := fun entry member =>
      wellFormed.relations _ _ (stored entry member) ((slot entry member).2.2 ▸ property)
    have quads := foldlM_version_relation relations run
    have object : ∀ entry ∈ V2.versions spo s p o, (V2.assertion ext entry).value = o := by
      intro entry member
      obtain ⟨edge, window, decoded⟩ := relations entry member
      simp only [V2.assertion, V2.objectOf, decoded]
      exact (slot entry member).2.2
    refine ⟨_, quads, fun quad member => ?_, fun quad member => ?_, fun s' p' all => ?_,
      fun s' p' o' other all => ?_⟩
    · obtain ⟨entry, within, rfl⟩ := List.mem_map.mp member
      exact ⟨entry, within, rfl⟩
    · obtain ⟨entry, within, rfl⟩ := List.mem_map.mp member
      exact ⟨entry, within, by rw [object entry within, (slot entry within).2.2]⟩
    · have same := firstSlot.symm.trans (all first here)
      cases same
      exact absurd rfl property
    · have same := firstSlot.symm.trans (all first here)
      cases same
      clear quads run
      funext tt
      ext ⟨start, stop, content⟩
      rw [V2.recorded_eq_some wellFormed.versions_timed, Index.history_eq_some]
      constructor
      · rintro ⟨found, read⟩
        rcases Index.putAll_eq_some found with before | member
        · cases before
        · obtain ⟨entry, within, same⟩ := List.mem_map.mp member
          cases same
          have window := wellFormed.window (V2.mem_versions.mp within).1
          have ranges := Option.some.inj (read.symm.trans window)
          refine ⟨entry, within, rfl, ?_⟩
          rw [← ranges]
      · rintro ⟨entry, within, rfl, same⟩
        cases same
        refine ⟨?_, wellFormed.window (V2.mem_versions.mp within).1⟩
        have one : Index.OneValue ((V2.versions spo s p o).map fun entry =>
            (⟨⟨slotOf entry.1.s entry.1.p entry.1.o, entry.1.tt⟩, entry.2⟩ : StagedQuad)) := by
          intro quad member quad' member' same
          obtain ⟨left, withinL, rfl⟩ := List.mem_map.mp member
          obtain ⟨right, withinR, rfl⟩ := List.mem_map.mp member'
          obtain ⟨⟨_, _, _, tt⟩, bytes⟩ := left
          obtain ⟨⟨_, _, _, tt'⟩, bytes'⟩ := right
          have times : tt = tt' := congrArg QuadKey.tt same
          subst times
          have slotL := (V2.mem_versions.mp withinL).2
          have slotR := (V2.mem_versions.mp withinR).2
          cases slotL
          cases slotR
          exact SortedMap.unique spo (stored _ withinL) (stored _ withinR)
        obtain ⟨hs, hp, ho⟩ := slot entry within
        have put := Index.putAll_of_oneValue (fun _ => none) one (List.mem_map.mpr ⟨entry, within, rfl⟩)
        dsimp only at put
        rw [hs, hp, ho] at put
        exact put

/-- Rewriting groups of versions writes what each of them asks for. -/
theorem foldlM_group {groups : List (List (V2.Spo × Bytes))}
    (each : ∀ versions ∈ groups, ∀ out next, group ext store out versions = .ok next →
      ∃ added, next.quads = out.quads ++ added ∧ Rewrites ext versions added) {out final : QuadOut}
    (run : groups.foldlM (group ext store) out = .ok final) :
    ∃ pairs : List (List (V2.Spo × Bytes) × List StagedQuad), pairs.map Prod.fst = groups ∧
      (∀ pair ∈ pairs, Rewrites ext pair.1 pair.2) ∧
      final.quads = out.quads ++ (pairs.map Prod.snd).flatten := by
  induction groups generalizing out with
  | nil =>
    cases run
    exact ⟨[], rfl, nofun, by simp⟩
  | cons versions rest ih =>
    rw [List.foldlM_cons] at run
    obtain ⟨next, step, run⟩ := Except.bind_eq_ok.mp run
    obtain ⟨added, quads, rewrites⟩ := each versions List.mem_cons_self out next step
    obtain ⟨pairs, groups, all, quads'⟩ :=
      ih (fun other member => each other (List.mem_cons_of_mem _ member)) run
    refine ⟨(versions, added) :: pairs, by rw [List.map_cons, groups], fun pair member => ?_, ?_⟩
    · rcases List.mem_cons.mp member with rfl | member
      · exact rewrites
      · exact all pair member
    · rw [quads', quads, List.map_cons, List.flatten_cons, List.append_assoc]

/-- The history of a slot in all that is written is the one of the only group that writes to it. -/
theorem history_of_sole {before after : List (List StagedQuad)} {added : List StagedQuad}
    {ids : QuadIds}
    (others : ∀ other ∈ before ++ after, ∀ quad ∈ other, quad.key.toQuadIds ≠ ids) :
    (Index.putAll (fun _ => none) (before ++ added :: after).flatten).history ids =
      (Index.putAll (fun _ => none) added).history ids := by
  have apart : ∀ list : List (List StagedQuad), (∀ other ∈ list, other ∈ before ++ after) →
      ∀ quad ∈ list.flatten, quad.key.toQuadIds ≠ ids := by
    intro list within quad member
    obtain ⟨other, inside, member⟩ := List.mem_flatten.mp member
    exact others other (within other inside) quad member
  rw [List.flatten_append, List.flatten_cons, Index.putAll_append, Index.putAll_append,
    Index.history_putAll_of_forall_ne' (apart after fun _ => List.mem_append_right _)]
  -- What was written before is of other quads, so the slot was empty.
  funext time
  have empty : Index.putAll (fun _ => none) before.flatten ⟨ids, time⟩ = none :=
    Index.putAll_of_forall_ne _ fun quad member same =>
      apart before (fun _ => List.mem_append_left _) quad member (congrArg QuadKey.toQuadIds same)
  have same : Index.putAll (Index.putAll (fun _ => none) before.flatten) added ⟨ids, time⟩ =
      Index.putAll (fun _ => none) added ⟨ids, time⟩ := by
    rw [Index.putAll_apply, empty, Index.putAll_apply (fun _ => none) added]
  simp only [Index.history, same]

variable {out : QuadOut}

/-- The groups a migration rewrites, and what it writes for each. -/
theorem migrateQuads_spec (wellFormed : V2.WellFormed ext spo) (never : V2.NeverBefore spo)
    (done : migrateQuads ext store spo = .ok out) :
    ∃ pairs : List (List (V2.Spo × Bytes) × List StagedQuad),
      pairs.map Prod.fst = List.gather (fun entry : V2.Spo × Bytes => entry.1.slot) []
        (V2.entries spo) ∧
      (∀ pair ∈ pairs, Rewrites ext pair.1 pair.2) ∧ out.quads = (pairs.map Prod.snd).flatten := by
  have run : (List.gather (fun entry : V2.Spo × Bytes => entry.1.slot) [] (V2.entries spo)).foldlM
      (group ext store) empty = .ok out := by
    have keys : ∀ item ∈ spo.entries, ∃ k, item.1 = V2.encodeSpo k := fun item member =>
      (wellFormed.keys item member).imp fun _ both => both.1
    rw [V2.entries, ← foldlM_collect keys]
    exact done
  have each : ∀ versions ∈ List.gather (fun entry : V2.Spo × Bytes => entry.1.slot) []
      (V2.entries spo), ∀ out next, group ext store out versions = .ok next →
        ∃ added, next.quads = out.quads ++ added ∧ Rewrites ext versions added := by
    intro versions member out next done
    cases found : versions with
    | nil =>
      rw [found] at done
      cases done
      exact ⟨[], by simp, .nil ext⟩
    | cons first rest =>
      rw [← found]
      have within : first ∈ versions := by
        rw [found]
        exact List.mem_cons_self
      -- A group is all versions of its key.
      have all := List.eq_filter_of_mem_gather wellFormed.contiguous member within
      obtain ⟨⟨s, p, o, tt⟩, bytes⟩ := first
      have same : versions = V2.versions spo s p o := all
      rw [same] at done within ⊢
      exact group_rewrites wellFormed never (List.ne_nil_of_mem within) done
  obtain ⟨pairs, groups, rewrites, quads⟩ := foldlM_group each run
  exact ⟨pairs, groups, rewrites, by rw [quads]; rfl⟩

/-- What is written to a slot is what is written for the only key whose versions are of it. -/
theorem history_slot (wellFormed : V2.WellFormed ext spo) (never : V2.NeverBefore spo)
    (done : migrateQuads ext store spo = .ok out) {s : NodeId} {p : PredId} {object o : NodeId}
    (sole : ∀ entry ∈ V2.entries spo, entry.1.s = s → entry.1.p = p →
      (V2.assertion ext entry).value = object → entry.1.o = o) :
    ∃ added, Rewrites ext (V2.versions spo s p o) added ∧
      out.index.history (slotOf s p object) =
        (Index.putAll (fun _ => none) added).history (slotOf s p object) := by
  obtain ⟨pairs, groups, rewrites, quads⟩ := migrateQuads_spec wellFormed never done
  have apart := @List.pairwise_gather _ _ _ (fun entry : V2.Spo × Bytes => entry.1.slot) []
    (V2.entries spo) (by simp) wellFormed.contiguous
  have flat := @List.flatten_gather _ _ _ (fun entry : V2.Spo × Bytes => entry.1.slot) []
    (V2.entries spo)
  rw [← groups] at apart flat
  -- Whatever is written to the slot is written for a version of the key.
  have source : ∀ pair ∈ pairs, ∀ quad ∈ pair.2, quad.key.toQuadIds = slotOf s p object →
      ∃ entry ∈ pair.1, entry.1.slot = (s, p, o) := by
    intro pair member quad within ids
    obtain ⟨entry, inside, same⟩ := (rewrites pair member).slots quad within
    have listed : entry ∈ V2.entries spo := by
      have flattened : entry ∈ (pairs.map Prod.fst).flatten :=
        List.mem_flatten.mpr ⟨pair.1, List.mem_map.mpr ⟨pair, member, rfl⟩, inside⟩
      rw [flat] at flattened
      exact flattened
    rw [ids] at same
    have subject : s = entry.1.s := congrArg QuadIds.s same
    have predicate : p = entry.1.p := congrArg QuadIds.p same
    have value : object = (V2.assertion ext entry).value := congrArg QuadIds.o same
    have slot := sole entry listed subject.symm predicate.symm value.symm
    exact ⟨entry, inside, by rw [V2.Spo.slot, ← subject, ← predicate, slot]⟩
  unfold index
  rw [quads]
  by_cases empty : V2.versions spo s p o = []
  · rw [empty]
    refine ⟨[], .nil ext, Index.history_putAll_of_forall_ne' fun quad member ids => ?_⟩
    obtain ⟨added, within, member⟩ := List.mem_flatten.mp member
    obtain ⟨pair, inside, rfl⟩ := List.mem_map.mp within
    obtain ⟨entry, inGroup, slot⟩ := source pair inside quad member ids
    have listed : entry ∈ V2.versions spo s p o := by
      refine V2.mem_versions.mpr ⟨?_, slot⟩
      have flattened : entry ∈ (pairs.map Prod.fst).flatten :=
        List.mem_flatten.mpr ⟨pair.1, List.mem_map.mpr ⟨pair, inside, rfl⟩, inGroup⟩
      rw [flat] at flattened
      exact flattened
    rw [empty] at listed
    cases listed
  · obtain ⟨first, here⟩ := List.exists_mem_of_ne_nil _ empty
    obtain ⟨listed, slot⟩ := V2.mem_versions.mp here
    have flattened : first ∈ (pairs.map Prod.fst).flatten := by
      rw [flat]
      exact listed
    obtain ⟨versions, within, inside⟩ := List.mem_flatten.mp flattened
    obtain ⟨pair, member, rfl⟩ := List.mem_map.mp within
    have all : pair.1 = V2.versions spo s p o := by
      have gathered : pair.1 ∈ List.gather (fun entry : V2.Spo × Bytes => entry.1.slot) []
          (V2.entries spo) := by
        rw [← groups]
        exact within
      rw [List.eq_filter_of_mem_gather wellFormed.contiguous gathered inside, slot]
      rfl
    refine ⟨pair.2, all ▸ rewrites pair member, ?_⟩
    obtain ⟨before, after, cut⟩ := List.append_of_mem member
    rw [cut] at apart
    rw [List.map_append, List.map_cons] at apart
    obtain ⟨_, later, earlier⟩ := List.pairwise_append.mp apart
    rw [cut, List.map_append, List.map_cons]
    refine history_of_sole fun other found quad member' ids => ?_
    -- Another group that writes to the slot would have the same key.
    rcases List.mem_append.mp found with found | found
    · obtain ⟨pair', inside', rfl⟩ := List.mem_map.mp found
      obtain ⟨entry, inGroup, slot'⟩ := source pair' (by rw [cut]; simp [inside']) quad member' ids
      exact earlier pair'.1 (List.mem_map.mpr ⟨pair', inside', rfl⟩) pair.1 List.mem_cons_self
        entry inGroup first inside (slot'.trans slot.symm)
    · obtain ⟨pair', inside', rfl⟩ := List.mem_map.mp found
      obtain ⟨entry, inGroup, slot'⟩ := source pair' (by rw [cut]; simp [inside']) quad member' ids
      exact (List.pairwise_cons.mp later).1 pair'.1 (List.mem_map.mpr ⟨pair', inside', rfl⟩)
        first inside entry inGroup (slot.trans slot'.symm)

/-- Everything a migration writes is of the default graph, and was recorded from the epoch on. -/
theorem migrateQuads_mem (wellFormed : V2.WellFormed ext spo) (never : V2.NeverBefore spo)
    (done : migrateQuads ext store spo = .ok out) {quad : StagedQuad} (member : quad ∈ out.quads) :
    quad.key.g = GraphId.DEFAULT ∧ Timestamp.zero ≤ quad.key.tt := by
  obtain ⟨pairs, groups, rewrites, quads⟩ := migrateQuads_spec wellFormed never done
  have flat := @List.flatten_gather _ _ _ (fun entry : V2.Spo × Bytes => entry.1.slot) []
    (V2.entries spo)
  rw [← groups] at flat
  rw [quads] at member
  obtain ⟨added, within, member⟩ := List.mem_flatten.mp member
  obtain ⟨pair, inside, rfl⟩ := List.mem_map.mp within
  obtain ⟨entry, _, ids⟩ := (rewrites pair inside).slots quad member
  obtain ⟨dating, inGroup, time⟩ := (rewrites pair inside).dated quad member
  have listed : dating ∈ V2.entries spo := by
    have flattened : dating ∈ (pairs.map Prod.fst).flatten :=
      List.mem_flatten.mpr ⟨pair.1, List.mem_map.mpr ⟨pair, inside, rfl⟩, inGroup⟩
    rw [flat] at flattened
    exact flattened
  exact ⟨congrArg QuadIds.g ids, time ▸ wellFormed.epoch listed⟩

end QuadOut

namespace V2

variable {spo : SortedMap Bytes Bytes} {store : TripleStore} {out : QuadOut} {s : NodeId} {p : PredId}
  {object : NodeId}

/-- The object of a relation is that of its key. -/
theorem WellFormed.object_of_relation (wellFormed : WellFormed ext spo) {entry : Spo × Bytes}
    (member : entry ∈ entries spo) (relation : entry.1.o ≠ PROPERTY_SENTINEL) :
    objectOf ext entry.1.o entry.2 = entry.1.o := by
  obtain ⟨edge, window, decoded⟩ :=
    wellFormed.relations _ _ (wellFormed.mem_entries.mp member) relation
  simp only [objectOf, decoded]

/-- Where there is a relation, the migrated store shows what format 2 showed. -/
theorem shows_relation (wellFormed : WellFormed ext spo) (never : NeverBefore spo)
    (hashes : HashesApart ext spo) (done : migrateQuads ext store spo = .ok out)
    {relation : Spo × Bytes} (member : relation ∈ entries spo) (other : relation.1.o ≠ PROPERTY_SENTINEL)
    (ts vt : Timestamp) :
    shownOf out.index relation.1.s relation.1.p ts vt relation.1.o ↔
      Shows ext spo ts vt relation.1.s relation.1.p relation.1.o := by
  -- No value of the property has this object, so only versions of the relation are of the slot.
  have sole : ∀ entry ∈ entries spo, entry.1.s = relation.1.s → entry.1.p = relation.1.p →
      (assertion ext entry).value = relation.1.o → entry.1.o = relation.1.o := by
    intro entry listed subject predicate value
    by_cases property : entry.1.o = PROPERTY_SENTINEL
    · rw [assertion, property] at value
      refine absurd value (hashes relation member other entry (mem_versions.mpr ⟨listed, ?_⟩))
      rw [Spo.slot, subject, predicate, property]
    · rw [assertion, wellFormed.object_of_relation listed property] at value
      exact value
  obtain ⟨added, rewrites, same⟩ := QuadOut.history_slot wellFormed never done sole
  have kept := rewrites.relation relation.1.s relation.1.p relation.1.o other fun entry listed =>
    (mem_versions.mp listed).2
  rw [shownOf, same, kept, ← wellFormed.history_eq]
  constructor
  · rintro ⟨tt, version, governs, still⟩
    refine ⟨relation.1.o, tt, version, governs, still, ?_⟩
    have stored := governs.seen.stored
    rw [wellFormed.history_eq, recorded_eq_some wellFormed.versions_timed] at stored
    obtain ⟨entry, listed, _, rfl⟩ := stored
    obtain ⟨listed, slot⟩ := mem_versions.mp listed
    have object : entry.1.o = relation.1.o := congrArg (fun slot => slot.2.2) slot
    rw [← object] at other ⊢
    exact wellFormed.object_of_relation listed other
  · rintro ⟨o, tt, version, governs, still, object⟩
    have stored := governs.seen.stored
    rw [wellFormed.history_eq, recorded_eq_some wellFormed.versions_timed] at stored
    obtain ⟨entry, listed, _, rfl⟩ := stored
    obtain ⟨listed, slot⟩ := mem_versions.mp listed
    have here : entry.1.o = o := congrArg (fun slot => slot.2.2) slot
    have own := sole entry listed (congrArg Prod.fst slot) (congrArg (fun slot => slot.2.1) slot)
      (by rw [assertion, here]; exact object)
    rw [here] at own
    subst own
    exact ⟨tt, _, governs, still⟩

/-- Where there is no relation, both stores show what they make of the versions of the property. -/
theorem shows_property (wellFormed : WellFormed ext spo) (never : NeverBefore spo)
    (done : migrateQuads ext store spo = .ok out)
    (none_ : ∀ entry ∈ entries spo, entry.1.o ≠ PROPERTY_SENTINEL → entry.1.s = s → entry.1.p = p →
      entry.1.o ≠ object) (ts vt : Timestamp) :
    (shownOf out.index s p ts vt object ↔ ((versions spo s p PROPERTY_SENTINEL).map
      (assertion ext)).foldl (Picture.supersede Timestamp.END_OF_TIME) Picture.nothing ts vt object) ∧
    (Shows ext spo ts vt s p object ↔ ((versions spo s p PROPERTY_SENTINEL).map
      (assertion ext)).foldl Picture.overwrite Picture.nothing ts vt object) := by
  have sole : ∀ entry ∈ entries spo, entry.1.s = s → entry.1.p = p →
      (assertion ext entry).value = object → entry.1.o = PROPERTY_SENTINEL := by
    intro entry listed subject predicate value
    by_contra relation
    rw [assertion, wellFormed.object_of_relation listed relation] at value
    exact none_ entry listed relation subject predicate value
  obtain ⟨added, rewrites, same⟩ := QuadOut.history_slot wellFormed never done sole
  have shown := rewrites.property s p fun entry listed => (mem_versions.mp listed).2
  constructor
  · rw [← shown, shownOf, shownOf, same]
  · have one : ∀ entry ∈ versions spo s p PROPERTY_SENTINEL, entry.1.o = PROPERTY_SENTINEL :=
      fun entry listed => congrArg (fun slot => slot.2.2) (mem_versions.mp listed).2
    rw [← recorded_shown one wellFormed.versions_timed (never s p)]
    constructor
    · rintro ⟨o, tt, version, governs, still, value⟩
      have stored := governs.seen.stored
      rw [wellFormed.history_eq, recorded_eq_some wellFormed.versions_timed] at stored
      obtain ⟨entry, listed, _, rfl⟩ := stored
      obtain ⟨listed, slot⟩ := mem_versions.mp listed
      have here : entry.1.o = o := congrArg (fun slot => slot.2.2) slot
      have own := sole entry listed (congrArg Prod.fst slot) (congrArg (fun slot => slot.2.1) slot)
        (by rw [assertion, here]; exact value)
      rw [here] at own
      subst own
      rw [wellFormed.history_eq] at governs
      exact ⟨tt, _, governs, still, value⟩
    · rintro ⟨tt, version, governs, still, value⟩
      rw [← wellFormed.history_eq] at governs
      exact ⟨PROPERTY_SENTINEL, tt, version, governs, still, value⟩

end V2

/-- A migrated store shows a quad if a reader of its slot is shown it. -/
theorem migrated_shows {spo : SortedMap Bytes Bytes} {store migrated : TripleStore} {out : QuadOut}
    (wellFormed : V2.WellFormed ext spo) (never : V2.NeverBefore spo)
    (done : migrateQuads ext store spo = .ok out) (holds : migrated.db.OrdersHold out.index)
    (ts vt : Timestamp) (ids : QuadIds) :
    migrated.Shows ts vt ids ↔
      ids.g = GraphId.DEFAULT ∧ shownOf out.index ids.s ids.p ts vt ids.o := by
  have source : ∀ tt version, out.index.history ids tt = some version →
      ids.g = GraphId.DEFAULT ∧ Timestamp.zero ≤ tt := by
    intro tt version stored
    rcases Index.putAll_eq_some (Index.history_eq_some.mp stored).1 with before | member
    · cases before
    · exact QuadOut.migrateQuads_mem wellFormed never done member
  have slot : ids.g = GraphId.DEFAULT → slotOf ids.s ids.p ids.o = ids := by
    intro graph
    obtain ⟨s, p, o, g⟩ := ids
    exact congrArg _ graph.symm
  rw [TripleStore.Shows, TripleStore.index, holds.index_eq]
  constructor
  · rintro ⟨tt, version, governs, still, _⟩
    have graph := (source tt version governs.seen.stored).1
    rw [shownOf, slot graph]
    exact ⟨graph, tt, version, governs, still⟩
  · rintro ⟨graph, live⟩
    rw [shownOf, slot graph] at live
    obtain ⟨tt, version, governs, still⟩ := live
    refine ⟨tt, version, governs, still, ?_⟩
    rintro ⟨_, rfl⟩
    exact absurd (source _ _ governs.seen.stored).2 (by decide)

/--
A migrated store shows at every point what the store of format 2 showed, exactly if its corrections
resume.

Values are told apart by their content hashes, as the object slots of keys tell them apart.
-/
theorem migration_preserves_reads_iff {spo : SortedMap Bytes Bytes} {store migrated : TripleStore}
    {out : QuadOut} (wellFormed : V2.WellFormed ext spo) (never : V2.NeverBefore spo)
    (hashes : V2.HashesApart ext spo) (done : migrateQuads ext store spo = .ok out)
    (holds : migrated.db.OrdersHold out.index) :
    (∀ ts vt ids, migrated.Shows ts vt ids ↔
        ids.g = GraphId.DEFAULT ∧ V2.Shows ext spo ts vt ids.s ids.p ids.o) ↔
      V2.CorrectionsResume ext spo := by
  have alone : ∀ s p object, (∃ relation ∈ V2.entries spo, relation.1.o ≠ V2.PROPERTY_SENTINEL ∧
      relation.1.s = s ∧ relation.1.p = p ∧ relation.1.o = object) ∨
      ∀ entry ∈ V2.entries spo, entry.1.o ≠ V2.PROPERTY_SENTINEL → entry.1.s = s → entry.1.p = p →
        entry.1.o ≠ object := by
    intro s p object
    by_cases relation : ∃ relation ∈ V2.entries spo, relation.1.o ≠ V2.PROPERTY_SENTINEL ∧
        relation.1.s = s ∧ relation.1.p = p ∧ relation.1.o = object
    · exact Or.inl relation
    · exact Or.inr fun entry listed other subject predicate same =>
        relation ⟨entry, listed, other, subject, predicate, same⟩
  have timed : ∀ s p, ((V2.versions spo s p V2.PROPERTY_SENTINEL).map (V2.assertion ext)).Pairwise
      fun earlier later => earlier.time < later.time := fun s p =>
    List.pairwise_map.mpr wellFormed.versions_timed
  have forward : ∀ s p, ((V2.versions spo s p V2.PROPERTY_SENTINEL).map (V2.assertion ext)).Pairwise
      fun earlier later => earlier.start ≤ later.start := fun s p => List.pairwise_map.mpr (never s p)
  constructor
  · intro agree s p
    refine (Picture.readings_agree_iff (timed s p) (forward s p)).mp fun ts vt object => ?_
    rcases alone s p object with ⟨relation, member, other, rfl, rfl, rfl⟩ | none_
    · -- The object of a relation is the hash of no value, so neither reading shows it.
      have absent : ∀ version ∈ (V2.versions spo relation.1.s relation.1.p V2.PROPERTY_SENTINEL).map
          (V2.assertion ext), version.value ≠ relation.1.o := by
        intro version listed
        obtain ⟨entry, within, rfl⟩ := List.mem_map.mp listed
        have sentinel : entry.1.o = V2.PROPERTY_SENTINEL :=
          congrArg (fun slot => slot.2.2) (V2.mem_versions.mp within).2
        have apart := hashes relation member other entry within
        rw [← sentinel] at apart
        exact apart
      constructor
      · intro shown
        obtain ⟨version, listed, same⟩ := Picture.value_of_foldl Picture.value_of_overwrite shown
        exact absurd same (absent version listed)
      · intro shown
        obtain ⟨version, listed, same⟩ := Picture.value_of_foldl Picture.value_of_supersede shown
        exact absurd same (absent version listed)
    · obtain ⟨new, old⟩ := V2.shows_property wellFormed never done none_ ts vt
      have here := agree ts vt (slotOf s p object)
      rw [migrated_shows wellFormed never done holds] at here
      simp only [slotOf, true_and] at here
      rw [← old, ← here, new]
  · intro resume ts vt ids
    rw [migrated_shows wellFormed never done holds]
    refine and_congr_right fun _ => ?_
    rcases alone ids.s ids.p ids.o with ⟨relation, member, other, subject, predicate, same⟩ | none_
    · rw [← subject, ← predicate, ← same]
      exact V2.shows_relation wellFormed never hashes done member other ts vt
    · obtain ⟨new, old⟩ := V2.shows_property wellFormed never done none_ ts vt
      rw [new, old]
      exact ((Picture.readings_agree_iff (timed ids.s ids.p) (forward ids.s ids.p)).mpr
        (resume ids.s ids.p) ts vt ids.o).symm

/-- For every store without backward corrections the migrated store shows what it showed. -/
def MigrationPreservesReads (ext : External) : Prop :=
  ∀ (spo : SortedMap Bytes Bytes) (store migrated : TripleStore) (out : QuadOut),
    V2.WellFormed ext spo → V2.NeverBefore spo → V2.HashesApart ext spo →
    migrateQuads ext store spo = .ok out → migrated.db.OrdersHold out.index →
    ∀ ts vt ids, migrated.Shows ts vt ids ↔
      ids.g = GraphId.DEFAULT ∧ V2.Shows ext spo ts vt ids.s ids.p ids.o

/-- A version of an embedding that is valid between two times. -/
def embeddingBetween (tt vtStart vtEnd : Int) (floats : List UInt32) : V2.Spo × Bytes :=
  (⟨NodeId.ofByte 1, 1, V2.PROPERTY_SENTINEL, Timestamp.wrap tt⟩,
    DISC_VECTOR :: ((Timestamp.wrap vtStart).toBeBytes ++ (Timestamp.wrap vtEnd).toBeBytes
      ++ leBytes 4 floats.length ++ floats.flatMap (fun bits => leBytes 4 bits.toNat)))

/-- An embedding without an end, and another that replaces it for a while. -/
def replacedForAWhile : List (V2.Spo × Bytes) := [embeddingFrom 1 0 [7], embeddingBetween 2 5 10 [7, 8]]

/-- The store of format 2 that has them. -/
def interruptedStore : SortedMap Bytes Bytes :=
  ⟨replacedForAWhile.map fun entry => (V2.encodeSpo entry.1, entry.2), by decide +kernel⟩

/-- The entries of the store are the two versions. -/
theorem entries_interruptedStore : V2.entries interruptedStore = replacedForAWhile := by
  simp [V2.entries, interruptedStore, replacedForAWhile, V2.decodeSpo_encodeSpo, Except.toOption]

/-- The first version decodes. -/
theorem decodeValue_first : decodeValue hashLength (embeddingFrom 1 0 [7]).2 =
    .ok (.property (.vector [7]) ⟨Timestamp.zero, Timestamp.END_OF_TIME, Timestamp.zero⟩) := by
  decide +kernel

/-- The second version decodes. -/
theorem decodeValue_second : decodeValue hashLength (embeddingBetween 2 5 10 [7, 8]).2 =
    .ok (.property (.vector [7, 8])
      ⟨Timestamp.wrap 5, Timestamp.wrap 10, Timestamp.zero⟩) := by
  decide +kernel

/-- The store is one that format 2 has. -/
theorem wellFormed_interruptedStore : V2.WellFormed hashLength interruptedStore := by
  have items : ∀ item ∈ interruptedStore.entries,
      item = (V2.encodeSpo (embeddingFrom 1 0 [7]).1, (embeddingFrom 1 0 [7]).2) ∨
      item = (V2.encodeSpo (embeddingBetween 2 5 10 [7, 8]).1, (embeddingBetween 2 5 10 [7, 8]).2) := by
    intro item member
    simpa [interruptedStore, replacedForAWhile] using member
  refine ⟨fun item member => ?_, fun k bytes member property => ?_, fun k bytes member other => ?_⟩
  · rcases items item member with rfl | rfl
    · exact ⟨_, rfl, by decide +kernel⟩
    · exact ⟨_, rfl, by decide +kernel⟩
  · rcases items _ member with same | same
    · have held : bytes = _ := congrArg Prod.snd same
      rw [held]
      exact ⟨_, _, decodeValue_first⟩
    · have held : bytes = _ := congrArg Prod.snd same
      rw [held]
      exact ⟨_, _, decodeValue_second⟩
  · rcases items _ member with same | same
    · rw [V2.encodeSpo_inj (congrArg Prod.fst same)] at other
      exact absurd rfl other
    · rw [V2.encodeSpo_inj (congrArg Prod.fst same)] at other
      exact absurd rfl other

/-- Its second version starts after the first. -/
theorem neverBefore_interruptedStore : V2.NeverBefore interruptedStore := by
  intro s p
  have both : replacedForAWhile.Pairwise fun earlier later =>
      (V2.windowOf earlier.2).1 ≤ (V2.windowOf later.2).1 := by decide +kernel
  unfold V2.versions
  rw [entries_interruptedStore]
  exact both.sublist List.filter_sublist

/-- It has no relations. -/
theorem hashesApart_interruptedStore : V2.HashesApart hashLength interruptedStore := by
  intro relation member other
  rw [entries_interruptedStore] at member
  simp only [replacedForAWhile, List.mem_cons, List.not_mem_nil, or_false] at member
  rcases member with rfl | rfl <;> exact absurd rfl other

/-- Some store holds in its orders what a migration wrote. -/
theorem exists_migrated (out : QuadOut) :
    ∃ migrated : TripleStore, migrated.db.OrdersHold out.index := by
  have orders := TripleStore.configured_orders DEFAULT_INLINE_VALUE_MAX_BYTES Vocabulary.default true
  generalize TripleStore.configured DEFAULT_INLINE_VALUE_MAX_BYTES Vocabulary.default true = store at orders
  exact ⟨{ store with db := store.db.write (out.quads.flatMap batchQuad) },
    fun order => Stages.quads out.quads store.db order _ (orders order)⟩

/-- While a value is replaced for a while, the migrated store shows it beside its replacement. -/
theorem migration_shows_replaced : ¬ MigrationPreservesReads hashLength := by
  intro preserves
  have runs : (migrateQuads hashLength namedStore interruptedStore).isOk = true := by decide +kernel
  cases done : migrateQuads hashLength namedStore interruptedStore with
  | error problem =>
    rw [done] at runs
    cases runs
  | ok out =>
    obtain ⟨migrated, holds⟩ := exists_migrated out
    have agree := preserves interruptedStore namedStore migrated out wellFormed_interruptedStore
      neverBefore_interruptedStore hashesApart_interruptedStore done holds (Timestamp.wrap 2)
      (Timestamp.wrap 7) (slotOf (NodeId.ofByte 1) 1 (valueObject hashLength (.vector [7])))
    have none_ : ∀ entry ∈ V2.entries interruptedStore, entry.1.o ≠ V2.PROPERTY_SENTINEL →
        entry.1.s = NodeId.ofByte 1 → entry.1.p = 1 →
          entry.1.o ≠ valueObject hashLength (.vector [7]) := by
      intro entry member other
      rw [entries_interruptedStore] at member
      simp only [replacedForAWhile, List.mem_cons, List.not_mem_nil, or_false] at member
      rcases member with rfl | rfl <;> exact absurd rfl other
    obtain ⟨new, old⟩ := V2.shows_property wellFormed_interruptedStore neverBefore_interruptedStore done
      none_ (Timestamp.wrap 2) (Timestamp.wrap 7)
    have all : V2.versions interruptedStore (NodeId.ofByte 1) 1 V2.PROPERTY_SENTINEL =
        replacedForAWhile := by
      unfold V2.versions
      rw [entries_interruptedStore]
      rfl
    have asserts : replacedForAWhile.map (V2.assertion hashLength) =
        [⟨Timestamp.wrap 1, valueObject hashLength (.vector [7]), Timestamp.zero,
            Timestamp.END_OF_TIME⟩,
          ⟨Timestamp.wrap 2, valueObject hashLength (.vector [7, 8]), Timestamp.wrap 5,
            Timestamp.wrap 10⟩] := by
      simp only [replacedForAWhile, List.map_cons, List.map_nil,
        V2.assertion_of_decoded decodeValue_first, V2.assertion_of_decoded decodeValue_second]
      rfl
    have apart : valueObject hashLength (.vector [7]) ≠ valueObject hashLength (.vector [7, 8]) := by
      decide +kernel
    rw [migrated_shows wellFormed_interruptedStore neverBefore_interruptedStore done holds] at agree
    simp only [slotOf, true_and] at agree
    rw [new, old, all, asserts] at agree
    -- The first value is still shown by its own history, and the second version hides it in the one.
    have shown : Picture.supersede Timestamp.END_OF_TIME (Picture.supersede Timestamp.END_OF_TIME
        Picture.nothing ⟨Timestamp.wrap 1, valueObject hashLength (.vector [7]), Timestamp.zero,
          Timestamp.END_OF_TIME⟩) ⟨Timestamp.wrap 2, valueObject hashLength (.vector [7, 8]),
            Timestamp.wrap 5, Timestamp.wrap 10⟩ (Timestamp.wrap 2) (Timestamp.wrap 7)
        (valueObject hashLength (.vector [7])) := by
      have ends : ¬ Timestamp.wrap 10 = Timestamp.END_OF_TIME := by decide +kernel
      have recorded : Timestamp.wrap 1 ≤ Timestamp.wrap 2 := by decide +kernel
      have begun : Timestamp.zero ≤ Timestamp.wrap 7 := by decide +kernel
      have still : Timestamp.wrap 7 < Timestamp.END_OF_TIME := by decide +kernel
      simp [Picture.supersede, apart, ends, recorded, begun, still]
    have hidden := agree.mp shown
    have recorded : Timestamp.wrap 2 ≤ Timestamp.wrap 2 ∧ Timestamp.wrap 5 ≤ Timestamp.wrap 7 := by
      decide +kernel
    simp only [List.foldl_cons, List.foldl_nil] at hidden
    rw [Picture.overwrite, if_pos recorded] at hidden
    exact apart hidden.1

/-- A migrated store shows what the store with the interrupted embedding showed exactly if it resumes. -/
theorem migration_preserves_reads_iff_interrupted : ∃ (migrated : TripleStore) (out : QuadOut),
    migrateQuads hashLength namedStore interruptedStore = .ok out ∧
    ((∀ ts vt ids, migrated.Shows ts vt ids ↔
        ids.g = GraphId.DEFAULT ∧ V2.Shows hashLength interruptedStore ts vt ids.s ids.p ids.o) ↔
      V2.CorrectionsResume hashLength interruptedStore) := by
  have runs : (migrateQuads hashLength namedStore interruptedStore).isOk = true := by decide +kernel
  cases done : migrateQuads hashLength namedStore interruptedStore with
  | error problem =>
    rw [done] at runs
    cases runs
  | ok out =>
    obtain ⟨migrated, holds⟩ := exists_migrated out
    exact ⟨migrated, out, rfl, migration_preserves_reads_iff wellFormed_interruptedStore
      neverBefore_interruptedStore hashesApart_interruptedStore done holds⟩

end Polargraph
