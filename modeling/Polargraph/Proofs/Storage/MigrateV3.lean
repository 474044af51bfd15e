import Polargraph.Proofs.Storage.SstImport
import Polargraph.Storage.MigrateV3

/-! A migration writes the versions that live writes of the same history would store. -/

namespace Polargraph

variable {ext : External}

namespace Index

variable {index : Index} {quads : List StagedQuad} {tt : Timestamp} {ids : QuadIds} {bytes : Bytes}

/-- Versions of one key have one value. -/
def OneValue (quads : List StagedQuad) : Prop :=
  ∀ quad ∈ quads, ∀ other ∈ quads, quad.key = other.key → quad.value = other.value

/-- A version whose key has one value is stored with it. -/
theorem putAll_of_oneValue (index : Index) (one : OneValue quads) {quad : StagedQuad}
    (member : quad ∈ quads) : index.putAll quads quad.key = some quad.value := by
  obtain ⟨value, found⟩ := Option.isSome_iff_exists.mp (index.putAll_isSome member)
  rw [found]
  -- The stored value is that of a version with the same key.
  rw [putAll_apply] at found
  split at found
  · rename_i last isLast
    cases found
    obtain ⟨within, same⟩ := List.mem_filter.mp (List.mem_of_getLast? isLast)
    rw [one last within quad member (of_decide_eq_true same)]
  · rename_i none_
    have within : quad ∈ quads.filter (fun other => decide (other.key = quad.key)) :=
      List.mem_filter.mpr ⟨member, by simp⟩
    rw [List.getLast?_eq_none_iff.mp none_] at within
    cases within

/-- The same versions, with one value for each key, store the same in any order. -/
theorem putAll_congr (index : Index) {first second : List StagedQuad} (one : OneValue first)
    (same : ∀ quad, quad ∈ first ↔ quad ∈ second) : index.putAll first = index.putAll second := by
  have other : OneValue second := fun quad member quad' member' =>
    one quad ((same quad).mpr member) quad' ((same quad').mpr member')
  funext key
  by_cases written : ∃ quad ∈ first, quad.key = key
  · obtain ⟨quad, member, rfl⟩ := written
    rw [putAll_of_oneValue index one member, putAll_of_oneValue index other ((same quad).mp member)]
  · have apart : ∀ quad ∈ first, quad.key ≠ key := fun quad member equal =>
      written ⟨quad, member, equal⟩
    rw [putAll_of_forall_ne index apart,
      putAll_of_forall_ne index fun quad member => apart quad ((same quad).mpr member)]

/-- The newest version after some of a later time is the one among them, if there is one. -/
theorem newest_putAll (one : OneValue quads) (dated : ∀ quad ∈ quads, quad.key.tt = tt)
    (fresh : ∀ time, (index ⟨ids, time⟩).isSome → time.word < tt.word) :
    (index.putAll quads).Newest ids bytes ↔ ⟨⟨ids, tt⟩, bytes⟩ ∈ quads ∨
      ((∀ quad ∈ quads, quad.key ≠ ⟨ids, tt⟩) ∧ index.Newest ids bytes) := by
  have old : ∀ time, (index ⟨ids, time⟩).isSome →
      index.putAll quads ⟨ids, time⟩ = index ⟨ids, time⟩ := by
    intro time stored
    apply putAll_of_forall_ne
    intro quad member same
    have here := dated quad member
    rw [same] at here
    have before := fresh time stored
    dsimp only at here
    rw [here] at before
    exact absurd before (lt_irrefl _)
  have known : ∀ time, (index.putAll quads ⟨ids, time⟩).isSome →
      (index ⟨ids, time⟩).isSome ∨ time = tt := by
    intro time stored
    obtain ⟨value, found⟩ := Option.isSome_iff_exists.mp stored
    rcases putAll_eq_some found with before | member
    · exact Or.inl (by rw [before]; rfl)
    · exact Or.inr (dated _ member)
  have absent : index ⟨ids, tt⟩ = none := by
    rw [← Option.not_isSome_iff_eq_none]
    exact fun stored => lt_irrefl _ (fresh tt stored)
  constructor
  · intro newest
    obtain ⟨time, found, top⟩ := newest
    rcases putAll_eq_some found with before | member
    · have stored : (index ⟨ids, time⟩).isSome := by rw [before]; rfl
      refine Or.inr ⟨fun quad member same => ?_, time, before, fun other present => ?_⟩
      · have written := index.putAll_isSome member
        rw [same] at written
        exact absurd (fresh time stored) (not_lt.mpr (top tt written))
      · apply top other
        rw [old other present]
        exact present
    · have here : time = tt := dated _ member
      subst here
      exact Or.inl member
  · intro either
    rcases either with member | ⟨none_, time, found, top⟩
    · refine ⟨tt, putAll_of_oneValue index one member, fun other present => ?_⟩
      rcases known other present with before | rfl
      · exact le_of_lt (fresh other before)
      · exact le_refl _
    · have stored : (index ⟨ids, time⟩).isSome := by rw [found]; rfl
      refine ⟨time, (old time stored).trans found, fun other present => ?_⟩
      rcases known other present with before | rfl
      · exact top other before
      · rw [putAll_of_forall_ne index none_, absent] at present
        cases present

end Index

/-- The window of an encoded entry does not include its transaction time. -/
theorem TripleStore.encodePropertyEntry_tt (store : TripleStore) (batch : WriteBatch) (value : Value)
    (window : BiTemporalRange) (tt : Timestamp) :
    store.encodePropertyEntry ext batch value { window with tt := tt } =
      store.encodePropertyEntry ext batch value window := by
  cases value <;> rfl

/-- A value that is no relation and has a window. -/
def Windowed (bytes : Bytes) : Prop :=
  bytes.head? ≠ some DISC_RELATION ∧ (validTime bytes).isSome

/-- An encoded entry is no relation and has a window. -/
theorem TripleStore.windowed_encodePropertyEntry {store : TripleStore} {batch after : WriteBatch}
    {value : Value} {temporal : BiTemporalRange} {bytes : Bytes}
    (encoded : store.encodePropertyEntry ext batch value temporal = .ok (after, bytes)) :
    Windowed bytes := by
  refine ⟨?_, by rw [validTime_encodePropertyEntry encoded]; rfl⟩
  rcases encodePropertyEntry_cases encoded with ⟨inline, _⟩ | ⟨payload, _, rfl, _⟩
  · unfold encodeProperty at inline
    split at inline
    · cases inline
      simp [DISC_VECTOR, DISC_RELATION]
    · split at inline
      · cases inline
      · cases inline
        simp [DISC_PROPERTY, DISC_RELATION]
  · simp [encodePropertyRef, DISC_PROPERTY_REF, DISC_RELATION]

/-- A value with a window can be closed, and stays one. -/
theorem Windowed.close {bytes : Bytes} (windowed : Windowed bytes) (time : Timestamp) :
    ∃ closed, withVtEnd bytes time = .ok closed ∧ Windowed closed := by
  obtain ⟨⟨vtStart, vtEnd⟩, read⟩ := Option.isSome_iff_exists.mp windowed.2
  obtain ⟨closed, done, window, head⟩ := withVtEnd_of_validTime read time
  exact ⟨closed, done, by rw [head]; exact windowed.1, by rw [window]; rfl⟩

/-- A value with a window is open by either of the two tests. -/
theorem Windowed.openAt_eq {bytes : Bytes} (windowed : Windowed bytes) (time : Timestamp) :
    openAt time bytes = QuadOut.stillOpen time bytes := by
  simp [openAt, QuadOut.stillOpen, windowed.1]

/-- Where the values of a property are stored. -/
def slotOf (s : NodeId) (p : PredId) (object : NodeId) : QuadIds := ⟨s, p, object, GraphId.DEFAULT⟩

/--
What one version of a property adds.

It closes the other open values if it is open-ended, and is put itself.
-/
def Adds (index : Index) (s : NodeId) (p : PredId) (tt : Timestamp) (o : NodeId)
    (window : BiTemporalRange) (bytes : Bytes) (quads : List StagedQuad) : Prop :=
  ∀ quad, quad ∈ quads ↔
    (window.vtEnd = Timestamp.END_OF_TIME ∧ ∃ other held, other ≠ o ∧
      index.Newest (slotOf s p other) held ∧ openAt window.vtStart held = true ∧
        quad.key = ⟨slotOf s p other, tt⟩ ∧ withVtEnd held window.vtStart = .ok quad.value) ∨
    quad = ⟨⟨slotOf s p o, tt⟩, bytes⟩

/-- A list has the newest version of each value of a property. -/
structure Follows (index : Index) (s : NodeId) (p : PredId) (latest : List (NodeId × Bytes)) :
    Prop where
  /-- No value is listed twice. -/
  distinct : (latest.map Prod.fst).Nodup
  /-- What is listed is newest. -/
  newest : ∀ object bytes, (object, bytes) ∈ latest ↔ index.Newest (slotOf s p object) bytes
  /-- It is no relation, and has a window. -/
  windowed : ∀ entry ∈ latest, Windowed entry.2

/-- Nothing of a property was recorded at a time or after it, in the order of keys. -/
def Fresh (index : Index) (s : NodeId) (p : PredId) (tt : Timestamp) : Prop :=
  ∀ object time, (index ⟨slotOf s p object, time⟩).isSome → time.word < tt.word

section Adds

variable {index : Index} {s : NodeId} {p : PredId} {tt : Timestamp} {o : NodeId}
  {window : BiTemporalRange} {bytes : Bytes} {quads : List StagedQuad} {latest : List (NodeId × Bytes)}

/-- What a version adds is recorded at its time. -/
theorem Adds.dated (adds : Adds index s p tt o window bytes quads) :
    ∀ quad ∈ quads, quad.key.tt = tt ∧ ∃ object, quad.key.toQuadIds = slotOf s p object := by
  intro quad member
  rcases (adds quad).mp member with ⟨_, other, _, _, _, _, key, _⟩ | rfl
  · rw [key]
    exact ⟨rfl, other, rfl⟩
  · exact ⟨rfl, o, rfl⟩

/-- What a version adds has one value for each key. -/
theorem Adds.oneValue (adds : Adds index s p tt o window bytes quads) (follows : Follows index s p latest) :
    Index.OneValue quads := by
  intro quad member quad' member' same
  rcases (adds quad).mp member with ⟨_, other, held, apart, newest, _, key, closed⟩ | rfl
  · rcases (adds quad').mp member' with ⟨_, other', held', _, newest', _, key', closed'⟩ | rfl
    · -- Both close the newest version of one value.
      rw [key, key'] at same
      have objects : other = other' := congrArg (fun key : QuadKey => key.o) same
      subst objects
      have first := (follows.newest other held).mpr newest
      have second := (follows.newest other held').mpr newest'
      have equal : held = held' := congrArg Prod.snd (List.inj_on_of_nodup_map follows.distinct
        first second rfl)
      subst equal
      exact Except.ok.inj (closed.symm.trans closed')
    · rw [key] at same
      exact absurd (congrArg (fun key : QuadKey => key.o) same) apart
  · rcases (adds quad').mp member' with ⟨_, other', _, apart, _, _, key', _⟩ | rfl
    · rw [key'] at same
      exact absurd (congrArg (fun key : QuadKey => key.o) same).symm apart
    · rfl

/-- The list after a version: the values it closes are closed, and its own is the latest. -/
def followed (o : NodeId) (window : BiTemporalRange) (bytes : Bytes) (latest : List (NodeId × Bytes)) :
    List (NodeId × Bytes) :=
  QuadOut.setLatest o bytes (if window.vtEnd = Timestamp.END_OF_TIME then
    latest.map (fun entry => if entry.1 = o || !QuadOut.stillOpen window.vtStart entry.2 then entry
      else (entry.1, ((withVtEnd entry.2 window.vtStart).toOption).getD entry.2)) else latest)

/-- The latest bytes of a value are found in its place. -/
theorem setLatest_spec (o : NodeId) (bytes : Bytes) (distinct : (latest.map Prod.fst).Nodup) :
    ((QuadOut.setLatest o bytes latest).map Prod.fst).Nodup ∧
      ∀ entry, entry ∈ QuadOut.setLatest o bytes latest ↔
        entry = (o, bytes) ∨ (entry.1 ≠ o ∧ entry ∈ latest) := by
  -- Nothing is added to the objects but the one that is set.
  suffices both : (∀ object ∈ (QuadOut.setLatest o bytes latest).map Prod.fst,
      object = o ∨ object ∈ latest.map Prod.fst) ∧
      ((QuadOut.setLatest o bytes latest).map Prod.fst).Nodup ∧
      ∀ entry, entry ∈ QuadOut.setLatest o bytes latest ↔
        entry = (o, bytes) ∨ (entry.1 ≠ o ∧ entry ∈ latest) from both.2
  induction latest with
  | nil => simp [QuadOut.setLatest]
  | cons first rest ih =>
    obtain ⟨other, held⟩ := first
    rw [List.map_cons, List.nodup_cons] at distinct
    obtain ⟨absent, distinct⟩ := distinct
    obtain ⟨objects, nodup, listed⟩ := ih distinct
    have unlisted : ∀ value, (other, value) ∉ rest := fun value member =>
      absent (List.mem_map.mpr ⟨_, member, rfl⟩)
    simp only [QuadOut.setLatest]
    split_ifs with same
    · subst same
      refine ⟨fun object member => Or.inr (by simpa using member), ?_, fun entry => ?_⟩
      · rw [List.map_cons, List.nodup_cons]
        exact ⟨absent, distinct⟩
      · rw [List.mem_cons, List.mem_cons]
        constructor
        · rintro (own | later)
          · exact Or.inl own
          · refine Or.inr ⟨fun equal => unlisted entry.2 ?_, Or.inr later⟩
            rw [← equal]
            exact later
        · rintro (own | ⟨apart, own | later⟩)
          · exact Or.inl own
          · rw [own] at apart
            exact absurd rfl apart
          · exact Or.inr later
    · refine ⟨fun object member => ?_, ?_, fun entry => ?_⟩
      · rw [List.map_cons, List.mem_cons] at member
        rcases member with own | later
        · exact Or.inr (by rw [own]; simp)
        · exact (objects object later).imp_right (fun old => by simp [List.mem_map.mp old])
      · rw [List.map_cons, List.nodup_cons]
        exact ⟨fun member => (objects other member).elim same absent, nodup⟩
      · rw [List.mem_cons, List.mem_cons, listed]
        constructor
        · rintro (own | new | ⟨apart, later⟩)
          · exact Or.inr ⟨by rw [own]; exact same, Or.inl own⟩
          · exact Or.inl new
          · exact Or.inr ⟨apart, Or.inr later⟩
        · rintro (new | ⟨apart, own | later⟩)
          · exact Or.inr (Or.inl new)
          · exact Or.inl own
          · exact Or.inr (Or.inr ⟨apart, later⟩)

/-- An entry of the list, closed if the version closes it. -/
theorem mem_followed {entry : NodeId × Bytes} (distinct : (latest.map Prod.fst).Nodup) :
    entry ∈ followed o window bytes latest ↔ entry = (o, bytes) ∨ (entry.1 ≠ o ∧
      ∃ held, (entry.1, held) ∈ latest ∧
        if window.vtEnd = Timestamp.END_OF_TIME ∧ QuadOut.stillOpen window.vtStart held = true then
          entry.2 = ((withVtEnd held window.vtStart).toOption).getD held
        else entry.2 = held) := by
  unfold followed
  split_ifs with open_
  · -- The list is mapped, which keeps the objects.
    have objects : (latest.map (fun entry : NodeId × Bytes =>
        if (entry.1 = o || !QuadOut.stillOpen window.vtStart entry.2) = true then entry
        else (entry.1, ((withVtEnd entry.2 window.vtStart).toOption).getD entry.2))).map Prod.fst =
          latest.map Prod.fst := by
      rw [List.map_map]
      refine List.map_congr_left fun entry _ => ?_
      dsimp only [Function.comp_apply]
      split_ifs <;> rfl
    rw [(setLatest_spec o bytes (by rw [objects]; exact distinct)).2]
    refine or_congr_right (and_congr_right fun apart => ?_)
    rw [List.mem_map]
    constructor
    · rintro ⟨before, member, same⟩
      have object : entry.1 = before.1 := by
        rw [← same]
        split_ifs <;> rfl
      rw [object] at apart ⊢
      refine ⟨before.2, member, ?_⟩
      rw [← same]
      simp only [apart, decide_false, Bool.false_or, open_, true_and]
      cases QuadOut.stillOpen window.vtStart before.2 <;> rfl
    · rintro ⟨held, member, value⟩
      refine ⟨_, member, ?_⟩
      simp only [apart, decide_false, Bool.false_or, open_, true_and] at value ⊢
      cases still : QuadOut.stillOpen window.vtStart held with
      | true =>
        rw [still, if_pos rfl] at value
        exact Prod.ext rfl value.symm
      | false =>
        rw [still, if_neg (by simp)] at value
        exact Prod.ext rfl value.symm
  · rw [(setLatest_spec o bytes distinct).2]
    refine or_congr_right (and_congr_right fun _ => ?_)
    simp only [open_, false_and, if_false]
    constructor
    · exact fun member => ⟨entry.2, member, rfl⟩
    · rintro ⟨held, member, value⟩
      rw [← value] at member
      exact member

/-- The list after a version has the newest versions again. -/
theorem Adds.follows (adds : Adds index s p tt o window bytes quads) (follows : Follows index s p latest)
    (fresh : Fresh index s p tt) (own : Windowed bytes) :
    Follows (index.putAll quads) s p (followed o window bytes latest) := by
  have one := adds.oneValue follows
  have newest : ∀ object held, (index.putAll quads).Newest (slotOf s p object) held ↔
      ⟨⟨slotOf s p object, tt⟩, held⟩ ∈ quads ∨
        ((∀ quad ∈ quads, quad.key ≠ ⟨slotOf s p object, tt⟩) ∧
          index.Newest (slotOf s p object) held) := fun object held =>
    Index.newest_putAll one (fun quad member => (adds.dated quad member).1) (fresh object)
  have unique : ∀ object held held', (object, held) ∈ latest → (object, held') ∈ latest →
      held = held' := fun object held held' first second =>
    congrArg Prod.snd (List.inj_on_of_nodup_map follows.distinct first second rfl)
  have closedOf : ∀ held, Windowed held → withVtEnd held window.vtStart =
      .ok (((withVtEnd held window.vtStart).toOption).getD held) := by
    intro held windowed
    obtain ⟨closed, done, _⟩ := windowed.close window.vtStart
    rw [done]
    rfl
  -- A version is added for a value exactly if it is the own one, or closes the newest one.
  have added : ∀ object held, ⟨⟨slotOf s p object, tt⟩, held⟩ ∈ quads ↔
      (object ≠ o ∧ window.vtEnd = Timestamp.END_OF_TIME ∧ ∃ before, (object, before) ∈ latest ∧
        QuadOut.stillOpen window.vtStart before = true ∧
          withVtEnd before window.vtStart = .ok held) ∨ (object = o ∧ held = bytes) := by
    intro object held
    rw [adds]
    constructor
    · rintro (⟨open_, other, before, apart, new, still, key, closed⟩ | same)
      · have objects : object = other := congrArg (fun key : QuadKey => key.o) key
        subst objects
        have member := (follows.newest object before).mpr new
        rw [(follows.windowed _ member).openAt_eq] at still
        exact Or.inl ⟨apart, open_, before, member, still, closed⟩
      · cases same
        exact Or.inr ⟨rfl, rfl⟩
    · rintro (⟨apart, open_, before, member, still, closed⟩ | ⟨rfl, rfl⟩)
      · have at_ := (follows.windowed _ member).openAt_eq window.vtStart
        exact Or.inl ⟨open_, object, before, apart, (follows.newest object before).mp member,
          by rw [at_]; exact still, rfl, closed⟩
      · exact Or.inr rfl
  refine ⟨?_, fun object held => ?_, fun entry member => ?_⟩
  · unfold followed
    split_ifs
    · refine (setLatest_spec o bytes ?_).1
      rw [List.map_map]
      have objects : latest.map (Prod.fst ∘ fun entry : NodeId × Bytes =>
          if (entry.1 = o || !QuadOut.stillOpen window.vtStart entry.2) = true then entry
          else (entry.1, ((withVtEnd entry.2 window.vtStart).toOption).getD entry.2)) =
            latest.map Prod.fst := by
        refine List.map_congr_left fun entry _ => ?_
        dsimp only [Function.comp_apply]
        split_ifs <;> rfl
      rw [objects]
      exact follows.distinct
    · exact (setLatest_spec o bytes follows.distinct).1
  · rw [mem_followed follows.distinct, newest]
    constructor
    · rintro (same | ⟨apart, before, member, value⟩)
      · cases same
        exact Or.inl ((added o bytes).mpr (Or.inr ⟨rfl, rfl⟩))
      · dsimp only at apart member value
        split_ifs at value with closes
        · -- The newest version of this value is closed.
          refine Or.inl ((added object held).mpr (Or.inl ⟨apart, closes.1, before, member, closes.2, ?_⟩))
          rw [value]
          exact closedOf before (follows.windowed _ member)
        · rw [value]
          refine Or.inr ⟨fun quad within key => ?_, (follows.newest object before).mp member⟩
          obtain ⟨key', value'⟩ := quad
          dsimp only at key
          subst key
          rcases (added object value').mp within with ⟨_, open_, held', member', still, _⟩ | ⟨same, _⟩
          · rw [unique object _ _ member' member] at still
            exact closes ⟨open_, still⟩
          · exact apart same
    · rintro (within | ⟨none_, new⟩)
      · rcases (added object held).mp within with ⟨apart, open_, before, member, still, closed⟩ | ⟨rfl, rfl⟩
        · refine Or.inr ⟨apart, before, member, ?_⟩
          dsimp only
          rw [if_pos ⟨open_, still⟩, closed]
          rfl
        · exact Or.inl rfl
      · have member := (follows.newest object held).mpr new
        have apart : object ≠ o := by
          rintro rfl
          exact none_ _ ((added object bytes).mpr (Or.inr ⟨rfl, rfl⟩)) rfl
        refine Or.inr ⟨apart, held, member, ?_⟩
        dsimp only
        rw [if_neg]
        rintro ⟨open_, still⟩
        exact none_ _ ((added object _).mpr (Or.inl ⟨apart, open_, held, member, still,
          closedOf held (follows.windowed _ member)⟩)) rfl
  · rcases (mem_followed follows.distinct).mp member with rfl | ⟨apart, before, listed, value⟩
    · exact own
    · split_ifs at value
      · obtain ⟨closed, done, windowed⟩ := (follows.windowed _ listed).close window.vtStart
        rw [value, done]
        exact windowed
      · rw [value]
        exact follows.windowed _ listed

end Adds

namespace QuadOut

/-- Writing a version with a window adds it. -/
theorem emit_ok (out : QuadOut) (q : QuadKey) {bytes : Bytes} (windowed : Windowed bytes) :
    ∃ next, out.emit ext q bytes = .ok next ∧ next.quads = out.quads ++ [⟨q, bytes⟩] ∧
      next.side = out.side := by
  obtain ⟨window, read⟩ := Option.isSome_iff_exists.mp windowed.2
  unfold emit
  rw [read]
  exact ⟨_, rfl, rfl, rfl⟩

/-- Closing the others writes a closing version of each that is open, and keeps the list in step. -/
theorem closeOthers_spec (k : V2.Spo) (o : NodeId) (time : Timestamp) {latest : List (NodeId × Bytes)}
    (windowed : ∀ entry ∈ latest, Windowed entry.2) (out : QuadOut) :
    ∃ next added, closeOthers ext k o time out latest = .ok (next, latest.map (fun entry =>
        if entry.1 = o || !stillOpen time entry.2 then entry
        else (entry.1, ((withVtEnd entry.2 time).toOption).getD entry.2))) ∧
      next.quads = out.quads ++ added ∧ next.side = out.side ∧
      ∀ quad, quad ∈ added ↔ ∃ entry ∈ latest, entry.1 ≠ o ∧ stillOpen time entry.2 = true ∧
        quad.key = ⟨slotOf k.s k.p entry.1, k.tt⟩ ∧ withVtEnd entry.2 time = .ok quad.value := by
  induction latest generalizing out with
  | nil => exact ⟨out, [], rfl, by simp, rfl, by simp⟩
  | cons first rest ih =>
    obtain ⟨other, bytes⟩ := first
    have later := fun entry member => windowed entry (List.mem_cons_of_mem _ member)
    simp only [closeOthers, List.map_cons]
    split_ifs with skip
    · obtain ⟨next, added, run, quads, side, listed⟩ := ih later out
      refine ⟨next, added, Except.bind_eq_ok.mpr ⟨_, run, rfl⟩, quads, side, fun quad => ?_⟩
      rw [listed]
      constructor
      · rintro ⟨entry, member, rest⟩
        exact ⟨entry, List.mem_cons_of_mem _ member, rest⟩
      · rintro ⟨entry, member, apart, still, rest⟩
        rcases List.mem_cons.mp member with rfl | member
        · simp [apart, still] at skip
        · exact ⟨entry, member, apart, still, rest⟩
    · obtain ⟨closed, done, own⟩ := (windowed _ List.mem_cons_self).close time
      obtain ⟨emitted, run, quads, side⟩ := @emit_ok ext out
        ⟨⟨k.s, k.p, other, GraphId.DEFAULT⟩, k.tt⟩ closed own
      obtain ⟨next, added, more, quads', side', listed⟩ := ih later { emitted with report :=
        { emitted.report with closingVersionsSynthesized :=
          emitted.report.closingVersionsSynthesized + 1 } }
      dsimp only at done more quads' side'
      refine ⟨next, ⟨⟨slotOf k.s k.p other, k.tt⟩, closed⟩ :: added, ?_, ?_, side'.trans side,
        fun quad => ?_⟩
      · refine Except.bind_eq_ok.mpr ⟨closed, done, Except.bind_eq_ok.mpr ⟨emitted, run,
          Except.bind_eq_ok.mpr ⟨_, more, ?_⟩⟩⟩
        rw [done]
        rfl
      · rw [quads', quads, List.append_assoc]
        rfl
      · rw [List.mem_cons, listed]
        simp only [Bool.or_eq_true, decide_eq_true_eq, Bool.not_eq_true', not_or,
          Bool.not_eq_false] at skip
        constructor
        · rintro (rfl | ⟨entry, member, rest⟩)
          · exact ⟨(other, bytes), List.mem_cons_self, skip.1, skip.2, rfl, done⟩
          · exact ⟨entry, List.mem_cons_of_mem _ member, rest⟩
        · rintro ⟨entry, member, apart, still, key, value⟩
          rcases List.mem_cons.mp member with rfl | member
          · left
            obtain ⟨key', value'⟩ := quad
            dsimp only at key value
            rw [key]
            exact congrArg (StagedQuad.mk _) (Except.ok.inj (value.symm.trans done))
          · exact Or.inr ⟨entry, member, apart, still, key, value⟩

variable {index : Index} {s : NodeId} {p : PredId} {latest : List (NodeId × Bytes)}

/-- Rewriting a version of a property adds what its replay adds, unless it cannot be encoded. -/
theorem version_spec (store : TripleStore) (follows : Follows index s p latest)
    {entry : V2.Spo × Bytes} (subject : entry.1.s = s) (predicate : entry.1.p = p) {value : Value}
    {window : BiTemporalRange} (decoded : decodeValue ext entry.2 = .ok (.property value window))
    (out : QuadOut) :
    match store.encodePropertyEntry ext [] value window with
    | .error problem => version ext store (out, latest) entry = .error problem
    | .ok (_, bytes) => ∃ next added, version ext store (out, latest) entry =
          .ok (next, followed (valueObject ext value) window bytes latest) ∧
        next.quads = out.quads ++ added ∧
        Adds index s p entry.1.tt (valueObject ext value) window bytes added := by
  obtain ⟨k, held⟩ := entry
  dsimp only at subject predicate decoded ⊢
  subst subject predicate
  have moved := @TripleStore.encodePropertyEntry_append ext store (out.side ++
    (value.asText.map (batchTextTrigrams k.s k.p GraphId.DEFAULT)).getD []) value window
  unfold version
  dsimp only
  rw [decoded]
  cases encoded : store.encodePropertyEntry ext [] value window with
  | error problem =>
    rw [encoded] at moved
    simp only [bind, Except.bind, moved, Except.map]
  | ok entry =>
    obtain ⟨blobs, bytes⟩ := entry
    rw [encoded] at moved
    have own := TripleStore.windowed_encodePropertyEntry encoded
    simp only [bind, Except.bind, moved, Except.map]
    generalize prepared : out.readProperty _ bytes = ready
    have before : ready.quads = out.quads := by
      rw [← prepared]
      rfl
    by_cases open_ : window.vtEnd = Timestamp.END_OF_TIME
    · -- An open-ended value closes the others, and is then written.
      obtain ⟨middle, added, run, quads, _, listed⟩ := @closeOthers_spec ext k (valueObject ext value)
        window.vtStart latest follows.windowed ready
      obtain ⟨next, emitted, quads', _⟩ := @emit_ok ext middle
        ⟨slotOf k.s k.p (valueObject ext value), k.tt⟩ bytes own
      refine ⟨next, added ++ [⟨⟨slotOf k.s k.p (valueObject ext value), k.tt⟩, bytes⟩], ?_, ?_,
        fun quad => ?_⟩
      · rw [if_pos open_, run]
        dsimp only
        unfold slotOf at emitted
        rw [emitted]
        unfold followed
        rw [if_pos open_]
        rfl
      · rw [quads', quads, before, List.append_assoc]
      · rw [List.mem_append, List.mem_singleton, listed]
        refine or_congr_left ⟨?_, ?_⟩
        · rintro ⟨⟨other, value⟩, member, apart, still, key, closed⟩
          rw [← (follows.windowed _ member).openAt_eq] at still
          exact ⟨open_, other, value, apart, (follows.newest other value).mp member, still, key, closed⟩
        · rintro ⟨_, other, value, apart, newest, still, key, closed⟩
          have member := (follows.newest other value).mpr newest
          rw [(follows.windowed _ member).openAt_eq] at still
          exact ⟨(other, value), member, apart, still, key, closed⟩
    · obtain ⟨next, emitted, quads', _⟩ := @emit_ok ext ready
        ⟨slotOf k.s k.p (valueObject ext value), k.tt⟩ bytes own
      refine ⟨next, [⟨⟨slotOf k.s k.p (valueObject ext value), k.tt⟩, bytes⟩], ?_, ?_, fun quad => ?_⟩
      · rw [if_neg open_]
        unfold slotOf at emitted
        rw [emitted]
        unfold followed
        rw [if_neg open_]
        rfl
      · rw [quads', before]
      · simp [open_]

end QuadOut

namespace TripleStore

variable {store : TripleStore} {index : Index} {s : NodeId} {p : PredId}
  {latest : List (NodeId × Bytes)} {name : String}

/-- Closing values that can be closed succeeds. -/
theorem closeValues_ok (s : NodeId) (p : PredId) (g : GraphId) (tt closingAt : Timestamp)
    (kept : NodeId) {values : List (NodeId × Bytes)}
    (closes : ∀ entry ∈ values, ∃ closed, withVtEnd entry.2 closingAt = .ok closed) :
    ∃ closing, closeValues s p g tt closingAt kept values = .ok closing := by
  induction values with
  | nil => exact ⟨[], rfl⟩
  | cons entry rest ih =>
    obtain ⟨closing, done⟩ := ih fun other member => closes other (List.mem_cons_of_mem _ member)
    obtain ⟨other, bytes⟩ := entry
    obtain ⟨closed, isClosed⟩ := closes _ List.mem_cons_self
    simp only [closeValues]
    split_ifs
    · exact ⟨closing, done⟩
    · exact ⟨_, Except.bind_eq_ok.mpr ⟨closed, isClosed, Except.bind_eq_ok.mpr ⟨closing, done, rfl⟩⟩⟩

/-- A live write in the automatic mode closes the other open values if it is open-ended. -/
theorem stageClosings_auto (holds : store.db.OrderHolds .gspo index) (follows : Follows index s p latest)
    (name : String) (value : Value) (window : BiTemporalRange) (tt : Timestamp) (o : NodeId) :
    ∃ closing, store.stageClosings (WriteMode.auto.resolve (.property s name value window)) s p
        GraphId.DEFAULT tt window.vtStart o [] = .ok closing ∧
      ∀ quad, quad ∈ closing ↔ window.vtEnd = Timestamp.END_OF_TIME ∧ ∃ other held, other ≠ o ∧
        index.Newest (slotOf s p other) held ∧ openAt window.vtStart held = true ∧
          quad.key = ⟨slotOf s p other, tt⟩ ∧ withVtEnd held window.vtStart = .ok quad.value := by
  unfold stageClosings
  by_cases open_ : window.vtEnd = Timestamp.END_OF_TIME
  · have mode : WriteMode.auto.resolve (.property s name value window) = .replace := if_pos open_
    obtain ⟨values, read, _, listed⟩ := openValues_spec holds s p GraphId.DEFAULT window.vtStart
    have closes : ∀ entry ∈ values, ∃ closed, withVtEnd entry.2 window.vtStart = .ok closed := by
      intro entry member
      have newest := ((listed entry.1 entry.2).mp member).1
      obtain ⟨closed, done, _⟩ := (follows.windowed _ ((follows.newest entry.1 entry.2).mpr newest)).close
        window.vtStart
      exact ⟨closed, done⟩
    obtain ⟨closing, done⟩ := closeValues_ok s p GraphId.DEFAULT tt window.vtStart o closes
    refine ⟨closing, ?_, fun quad => ?_⟩
    · rw [if_pos mode]
      exact Except.bind_eq_ok.mpr ⟨values, read, done⟩
    · rw [mem_closeValues done]
      constructor
      · rintro ⟨⟨other, held⟩, member, apart, key, closed⟩
        obtain ⟨newest, still⟩ := (listed other held).mp member
        exact ⟨open_, other, held, apart, newest, still, key, closed⟩
      · rintro ⟨_, other, held, apart, newest, still, key, closed⟩
        exact ⟨(other, held), (listed other held).mpr ⟨newest, still⟩, apart, key, closed⟩
  · have mode : WriteMode.auto.resolve (.property s name value window) = .add := if_neg open_
    refine ⟨[], ?_, fun quad => ?_⟩
    · rw [if_neg (by rw [mode]; decide)]
    · simp [open_]

/-- What stays the same while a property of a known name is written. -/
structure Serves (store after : TripleStore) (name : String) (p : PredId) : Prop where
  /-- The name has its identifier. -/
  known : after.predicateId name = some p
  /-- The inline threshold is the same. -/
  limit : after.inlineValueMaxBytes = store.inlineValueMaxBytes

/-- A live write of a property adds what its replay adds, unless it cannot be encoded. -/
theorem insertAtTs_property (holds : store.db.OrdersHold index) (follows : Follows index s p latest)
    (known : store.predicateId name = some p) (value : Value) (window : BiTemporalRange)
    (tt : Timestamp) :
    match store.encodePropertyEntry ext [] value window with
    | .error problem =>
      (store.insertAtTs ext (.property s name value window) tt).2 = .error problem
    | .ok (_, bytes) => ∃ quads, Adds index s p tt (valueObject ext value) window bytes quads ∧
        (store.insertAtTs ext (.property s name value window) tt).2 = .ok () ∧
        (store.insertAtTs ext (.property s name value window) tt).1.db.OrdersHold
          (index.putAll quads) ∧
        store.Serves (store.insertAtTs ext (.property s name value window) tt).1 name p := by
  have interned : store.internPredicate name = (store, p) := by
    have known' := known
    rw [predicateId_eq] at known'
    simp only [internPredicate, known']
  have encoding := @encodePropertyEntry_tt ext store [] value window tt
  unfold insertAtTs
  dsimp only [stageWrites, Triple.predicate]
  rw [interned]
  cases encoded : store.encodePropertyEntry ext [] value window with
  | error problem =>
    rw [encoded] at encoding
    simp only [stageWrite, Staging.none, Triple.temporal, encoding, bind, Except.bind]
  | ok entry =>
    obtain ⟨blobs, bytes⟩ := entry
    rw [encoded] at encoding
    obtain ⟨closing, closed, listed⟩ := stageClosings_auto (holds .gspo) follows name value window tt
      (valueObject ext value)
    have staged : ∃ next, store.stageWrite ext tt p Staging.none
        ⟨.property s name value window, GraphId.DEFAULT, .auto⟩ = .ok next ∧
        next.quads = closing ++ [⟨⟨slotOf s p (valueObject ext value), tt⟩, bytes⟩] := by
      refine ⟨_, Except.bind_eq_ok.mpr ⟨(blobs, bytes), encoding,
        Except.bind_eq_ok.mpr ⟨closing, closed, rfl⟩⟩, ?_⟩
      rfl
    obtain ⟨next, staged, quads⟩ := staged
    dsimp only
    rw [staged]
    dsimp only
    refine ⟨next.quads, fun quad => ?_, rfl, ?_, ?_⟩
    · rw [quads, List.mem_append, List.mem_singleton, listed]
    · have sound := stageWrite_sound (Staging.Sound.none tt) staged
      have stages : Stages (next.batch ++ batchChange tt "" [] next.quads) next.quads := by
        refine sound.stages.append_other fun op member order same => ?_
        rw [batchChange_cf member] at same
        cases same
      intro order
      unfold advanceTo
      split_ifs <;> exact stages _ order _ (holds order)
    · unfold advanceTo
      split_ifs <;> exact ⟨known, rfl⟩

end TripleStore

/-- Versions of one property as they are read: in the order of their keys, each with a value. -/
structure PropertyHistory (ext : External) (s : NodeId) (p : PredId)
    (versions : List (V2.Spo × Bytes)) : Prop where
  /-- They are values of the property. -/
  values : ∀ entry ∈ versions, entry.1.s = s ∧ entry.1.p = p ∧
    ∃ value window, decodeValue ext entry.2 = .ok (.property value window)
  /-- Their times increase, in the order of keys. -/
  ordered : versions.Pairwise fun earlier later => earlier.1.tt.word < later.1.tt.word

/-- Commit the versions of a property live, one transaction each, at their own times. -/
def replayLive (ext : External) (name : String) :
    TripleStore → List (V2.Spo × Bytes) → Except StorageError TripleStore
  | store, [] => .ok store
  | store, (k, bytes) :: rest =>
    match decodeValue ext bytes with
    | .ok (.property value window) =>
      match store.insertAtTs ext (.property k.s name value window) k.tt with
      | (after, .ok ()) => replayLive ext name after rest
      | (_, .error problem) => .error problem
    | .ok _ => replayLive ext name store rest
    | .error problem => .error problem

section Replay

variable {index : Index} {s : NodeId} {p : PredId} {latest : List (NodeId × Bytes)} {name : String}
  {store live : TripleStore}

/-- Versions of new keys are stored besides what was there. -/
theorem Index.putAll_eq_some_iff {quads : List StagedQuad} (one : Index.OneValue quads)
    (new : ∀ quad ∈ quads, index quad.key = none) (key : QuadKey) (bytes : Bytes) :
    index.putAll quads key = some bytes ↔ index key = some bytes ∨ ⟨key, bytes⟩ ∈ quads := by
  constructor
  · exact Index.putAll_eq_some
  · rintro (before | member)
    · rw [Index.putAll_of_forall_ne]
      · exact before
      · intro quad member same
        have absent := new quad member
        rw [same, before] at absent
        cases absent
    · exact Index.putAll_of_oneValue index one member

/-- What a migration writes for versions of a property is what live writes of them store. -/
theorem replay_spec {versions : List (V2.Spo × Bytes)} (history : PropertyHistory ext s p versions)
    (holds : live.db.OrdersHold index) (follows : Follows index s p latest)
    (serves : store.Serves live name p) (fresh : ∀ entry ∈ versions, Fresh index s p entry.1.tt)
    (out : QuadOut) :
    match versions.foldlM (QuadOut.version ext store) (out, latest) with
    | .error problem => replayLive ext name live versions = .error problem
    | .ok (next, _) => ∃ after index' added, replayLive ext name live versions = .ok after ∧
        next.quads = out.quads ++ added ∧ after.db.OrdersHold index' ∧
        ∀ key bytes, index' key = some bytes ↔ index key = some bytes ∨ ⟨key, bytes⟩ ∈ added := by
  induction versions generalizing live index latest out with
  | nil => exact ⟨live, index, [], rfl, by simp, holds, by simp⟩
  | cons entry rest ih =>
    obtain ⟨⟨subject, predicate, value, window, decoded⟩, _⟩ :=
      List.forall_mem_cons.mp history.values
    obtain ⟨above, ordered⟩ := List.pairwise_cons.mp history.ordered
    have new := fresh entry List.mem_cons_self
    have migrated := QuadOut.version_spec store follows subject predicate decoded out
    have written := @TripleStore.insertAtTs_property ext live index s p latest name holds follows
      serves.known value window entry.1.tt
    rw [TripleStore.encodePropertyEntry_congr serves.limit] at written
    obtain ⟨k, held⟩ := entry
    dsimp only at subject predicate decoded new migrated written above
    rw [List.foldlM_cons]
    simp only [replayLive, decoded, subject]
    cases encoded : store.encodePropertyEntry ext [] value window with
    | error problem =>
      rw [encoded] at migrated written
      dsimp only at migrated written
      rw [migrated]
      change (match live.insertAtTs ext (.property s name value window) k.tt with
        | (after, .ok ()) => replayLive ext name after rest
        | (_, .error problem) => .error problem) = .error problem
      generalize live.insertAtTs ext (.property s name value window) k.tt = result at written ⊢
      obtain ⟨after, outcome⟩ := result
      dsimp only at written
      rw [written]
    | ok entry =>
      obtain ⟨blobs, bytes⟩ := entry
      rw [encoded] at migrated written
      obtain ⟨next, added, run, quads, adds⟩ := migrated
      obtain ⟨staged, adds', outcome, holds', serves'⟩ := written
      generalize live.insertAtTs ext (.property s name value window) k.tt = result at outcome holds' serves' ⊢
      obtain ⟨after, done⟩ := result
      dsimp only at outcome holds' serves'
      subst outcome
      -- Both add the same versions, so the list follows the live store again.
      have one := adds.oneValue follows
      have same := @Index.putAll_congr index _ staged one fun quad =>
        (adds quad).trans (adds' quad).symm
      rw [← same] at holds'
      have again := adds.follows follows new (TripleStore.windowed_encodePropertyEntry encoded)
      have absent : ∀ quad ∈ added, index quad.key = none := by
        intro quad member
        obtain ⟨time, object, ids⟩ := adds.dated quad member
        obtain ⟨⟨key, tt⟩, held⟩ := quad
        dsimp only at time ids
        subst time ids
        rw [← Option.not_isSome_iff_eq_none]
        exact fun stored => lt_irrefl _ (new object k.tt stored)
      have later : ∀ entry ∈ rest, Fresh (index.putAll added) s p entry.1.tt := by
        intro entry member object time stored
        obtain ⟨value, found⟩ := Option.isSome_iff_exists.mp stored
        rcases Index.putAll_eq_some found with before | put
        · exact fresh entry (List.mem_cons_of_mem _ member) object time (by rw [before]; rfl)
        · have here := (adds.dated _ put).1
          dsimp only at here
          rw [here]
          exact above entry member
      have tail : PropertyHistory ext s p rest :=
        ⟨fun entry member => history.values entry (List.mem_cons_of_mem _ member), ordered⟩
      have more := ih tail holds' again
        ⟨serves'.known, serves'.limit.trans serves.limit⟩ later next
      rw [run]
      change match rest.foldlM (QuadOut.version ext store)
          (next, followed (valueObject ext value) window bytes latest) with
        | .error problem => replayLive ext name after rest = .error problem
        | .ok (next, _) => ∃ last index' added, replayLive ext name after rest = .ok last ∧
            next.quads = out.quads ++ added ∧ last.db.OrdersHold index' ∧
            ∀ key bytes, index' key = some bytes ↔ index key = some bytes ∨ ⟨key, bytes⟩ ∈ added
      generalize rest.foldlM (QuadOut.version ext store)
        (next, followed (valueObject ext value) window bytes latest) = done at more ⊢
      cases done with
      | error problem => exact more
      | ok final =>
        obtain ⟨last, index', rest', replayed, quads', orders, stored⟩ := more
        refine ⟨last, index', added ++ rest', replayed, ?_, orders, fun key bytes => ?_⟩
        · rw [quads', quads, List.append_assoc]
        · rw [stored, Index.putAll_eq_some_iff one absent, List.mem_append, or_assoc]

/--
A migration writes the quad versions that live commits of the same versions would store.

The store has no version of the property yet. Where a version cannot be encoded, both fail on it.
-/
theorem group_writes_live {versions : List (V2.Spo × Bytes)}
    (history : PropertyHistory ext s p versions) (holds : store.db.OrdersHold store.index)
    (known : store.predicateId name = some p)
    (unwritten : ∀ object time, store.index ⟨slotOf s p object, time⟩ = none) (out : QuadOut) :
    match out.group ext store versions with
    | .error problem => replayLive ext name store versions = .error problem
    | .ok next => ∃ live added, replayLive ext name store versions = .ok live ∧
        next.quads = out.quads ++ added ∧
        ∀ key bytes, live.index key = some bytes ↔
          store.index key = some bytes ∨ ⟨key, bytes⟩ ∈ added := by
  have follows : Follows store.index s p [] := by
    refine ⟨List.nodup_nil, fun object bytes => ?_, nofun⟩
    refine iff_of_false List.not_mem_nil ?_
    rintro ⟨time, found, _⟩
    rw [unwritten] at found
    cases found
  have run := @replay_spec ext store.index s p [] name store store versions history holds follows
    ⟨known, rfl⟩ (fun entry _ object time stored => by rw [unwritten] at stored; cases stored) out
  unfold QuadOut.group
  split at run
  · rename_i problem failed
    rw [failed]
    exact run
  · rename_i next tail done
    rw [done]
    obtain ⟨live, index', added, replayed, quads, orders, stored⟩ := run
    refine ⟨live, added, replayed, quads, fun key bytes => ?_⟩
    rw [TripleStore.index, orders.index_eq, stored]

end Replay

/-- Outside functions under which vectors of different lengths have different hashes. -/
def hashLength : External := { External.unreached with xxh3_128 := fun bytes => bytes.length }

/-- A new store that knows the predicate of the versions below. -/
def namedStore : TripleStore :=
  ((TripleStore.configured DEFAULT_INLINE_VALUE_MAX_BYTES Vocabulary.default true).internPredicate
    "embedding").1

/-- A version of an embedding that is valid from a time on. -/
def embeddingFrom (tt : Int) (vtStart : Int) (floats : List UInt32) : V2.Spo × Bytes :=
  (⟨NodeId.ofByte 1, 1, V2.PROPERTY_SENTINEL, Timestamp.wrap tt⟩,
    DISC_VECTOR :: ((Timestamp.wrap vtStart).toBeBytes ++ Timestamp.END_OF_TIME.toBeBytes
      ++ leBytes 4 floats.length ++ floats.flatMap (fun bits => leBytes 4 bits.toNat)))

/-- Two embeddings of a node, the second of which replaces the first. -/
def twoEmbeddings : List (V2.Spo × Bytes) := [embeddingFrom 1 0 [7], embeddingFrom 2 5 [7, 8]]

/-- The second of two values closes the first in a migration as it does live. -/
theorem group_writes_live_two :
    (QuadOut.empty.group hashLength namedStore twoEmbeddings).toOption.map
      (fun out => out.quads.length) = some 3 ∧
    match QuadOut.empty.group hashLength namedStore twoEmbeddings with
    | .error problem => replayLive hashLength "embedding" namedStore twoEmbeddings = .error problem
    | .ok next => ∃ live added, replayLive hashLength "embedding" namedStore twoEmbeddings = .ok live ∧
        next.quads = QuadOut.empty.quads ++ added ∧
        ∀ key bytes, live.index key = some bytes ↔
          namedStore.index key = some bytes ∨ ⟨key, bytes⟩ ∈ added := by
  have orders : namedStore.db.OrdersHold fun _ => none := fun order =>
    (TripleStore.configured_orders _ _ _ order).congr
      (TripleStore.family_internPredicate _ "embedding" (by simp))
  have nothing : namedStore.index = fun _ => none := orders.index_eq
  have history : PropertyHistory hashLength (NodeId.ofByte 1) 1 twoEmbeddings := by
    refine ⟨fun entry member => ?_, by decide +kernel⟩
    simp only [twoEmbeddings, List.mem_cons, List.not_mem_nil, or_false] at member
    have first : decodeValue hashLength (embeddingFrom 1 0 [7]).2 = .ok (.property (.vector [7])
        ⟨Timestamp.zero, Timestamp.END_OF_TIME, Timestamp.zero⟩) := by decide +kernel
    have second : decodeValue hashLength (embeddingFrom 2 5 [7, 8]).2 = .ok (.property (.vector [7, 8])
        ⟨Timestamp.wrap 5, Timestamp.END_OF_TIME, Timestamp.zero⟩) := by decide +kernel
    rcases member with rfl | rfl
    · exact ⟨rfl, rfl, _, _, first⟩
    · exact ⟨rfl, rfl, _, _, second⟩
  have known : namedStore.predicateId "embedding" = some 1 := by decide +kernel
  refine ⟨by decide +kernel, group_writes_live history ?_ known ?_ QuadOut.empty⟩
  · rw [nothing]
    exact orders
  · intro object time
    rw [nothing]

end Polargraph
