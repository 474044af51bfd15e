import Mathlib.Data.List.Chain
import Polargraph.Lib.Bitemporal

/-! Versions of a slot with one value at a time, read as one history or as one history for each value. -/

/-- A version that gives a slot a value. -/
structure Assertion (τ ω : Type) where
  /-- When it was recorded. -/
  time : τ
  /-- The value. -/
  value : ω
  /-- The first instant at which the slot has the value. -/
  start : τ
  /-- The first instant at which it no longer does. -/
  stop : τ

/-- What readers are shown: by transaction time, valid time and value. -/
abbrev Picture (τ ω : Type) := τ → τ → ω → Prop

namespace Picture

variable {τ ω : Type} [LinearOrder τ]

/-- No reader is shown anything. -/
def nothing : Picture τ ω := fun _ _ _ => False

/-- In one history a version decides on every value from its start on. -/
def overwrite (shown : Picture τ ω) (version : Assertion τ ω) : Picture τ ω := fun ts vt value =>
  if version.time ≤ ts ∧ version.start ≤ vt then value = version.value ∧ vt < version.stop
  else shown ts vt value

/-- In histories by value a version decides on its own value, and ends the others if it has no end. -/
def supersede (last : τ) (shown : Picture τ ω) (version : Assertion τ ω) : Picture τ ω :=
  fun ts vt value =>
    (version.time ≤ ts → value = version.value → version.start ≤ vt → vt < version.stop) ∧
    (version.time ≤ ts → value ≠ version.value → version.stop = last → vt < version.start) ∧
    (shown ts vt value ∨ (version.time ≤ ts ∧ value = version.value ∧ version.start ≤ vt))

variable {last : τ} {shown : Picture τ ω} {version : Assertion τ ω} {versions : List (Assertion τ ω)}
  {ts vt : τ} {value : ω}

/-- A reader before a version is shown what it was shown without it. -/
theorem overwrite_before (before : ts < version.time) :
    overwrite shown version ts vt value ↔ shown ts vt value := by
  unfold overwrite
  rw [if_neg fun reached => absurd before (not_lt.mpr reached.1)]

/-- A reader before a version is shown what it was shown without it. -/
theorem supersede_before (before : ts < version.time) :
    supersede last shown version ts vt value ↔ shown ts vt value := by
  have unreached : ¬ version.time ≤ ts := not_le.mpr before
  simp [supersede, unreached]

/-- Readers after all versions are shown the same. -/
def Settled (shown : Picture τ ω) (time : τ) : Prop :=
  ∀ ts vt value, time ≤ ts → (shown ts vt value ↔ shown time vt value)

/-- After a later version readers are shown the same again. -/
theorem Settled.overwrite {time : τ} (settled : Settled shown time) (later : time ≤ version.time) :
    Settled (shown.overwrite version) version.time := by
  intro ts vt value reached
  have same : shown ts vt value ↔ shown version.time vt value := by
    rw [settled ts vt value (le_trans later reached), settled version.time vt value later]
  simp only [Picture.overwrite, reached, le_refl, true_and, same]

/-- After a later version readers are shown the same again. -/
theorem Settled.supersede {time : τ} (settled : Settled shown time) (later : time ≤ version.time) :
    Settled (shown.supersede last version) version.time := by
  intro ts vt value reached
  have same : shown ts vt value ↔ shown version.time vt value := by
    rw [settled ts vt value (le_trans later reached), settled version.time vt value later]
  simp only [Picture.supersede, reached, le_refl, true_and, same]

/-- The pictures of the versions recorded so far settle at the last of them. -/
theorem settled_foldl (step : Picture τ ω → Assertion τ ω → Picture τ ω)
    (keeps : ∀ {shown : Picture τ ω} {version : Assertion τ ω} {time : τ}, Settled shown time →
      time ≤ version.time → Settled (step shown version) version.time)
    (ordered : versions.Pairwise fun earlier later => earlier.time < later.time)
    {final : Assertion τ ω} (isLast : versions.getLast? = some final) :
    Settled (versions.foldl step nothing) final.time := by
  induction versions using List.reverseRecOn generalizing final with
  | nil => cases isLast
  | append_singleton rest version ih =>
    rw [List.getLast?_concat] at isLast
    cases isLast
    obtain ⟨before, _, above⟩ := List.pairwise_append.mp ordered
    rw [List.foldl_concat]
    cases previous : rest.getLast? with
    | none =>
      rw [List.getLast?_eq_none_iff.mp previous]
      have nothing_ : Settled (nothing : Picture τ ω) version.time := fun _ _ _ _ => Iff.rfl
      exact keeps nothing_ (le_refl _)
    | some earlier =>
      have member := List.mem_of_getLast? previous
      exact keeps (ih before previous)
        (le_of_lt (above earlier member version (List.mem_singleton.mpr rfl)))

/-- A version keeps the two readings alike exactly if it has no end, or what it follows has ended. -/
def Resumes (last : τ) (earlier later : Assertion τ ω) : Prop :=
  later.stop ≠ last → earlier.value ≠ later.value → earlier.stop ≤ later.start

/-- A version adds at most its own value to what is shown. -/
theorem value_of_overwrite (shown : Picture τ ω) (version : Assertion τ ω) (ts vt : τ) (value : ω)
    (after : overwrite shown version ts vt value) : value = version.value ∨ shown ts vt value := by
  unfold overwrite at after
  split_ifs at after
  · exact Or.inl after.1
  · exact Or.inr after

/-- A version adds at most its own value to what is shown. -/
theorem value_of_supersede (shown : Picture τ ω) (version : Assertion τ ω) (ts vt : τ) (value : ω)
    (after : supersede last shown version ts vt value) : value = version.value ∨ shown ts vt value :=
  after.2.2.symm.imp (fun own => own.2.1) id

omit [LinearOrder τ] in
/-- Only values that a version asserts are shown. -/
theorem value_of_foldl {step : Picture τ ω → Assertion τ ω → Picture τ ω}
    (adds : ∀ shown version ts vt value, step shown version ts vt value →
      value = version.value ∨ shown ts vt value)
    (shown : versions.foldl step nothing ts vt value) : ∃ version ∈ versions, version.value = value := by
  induction versions using List.reverseRecOn with
  | nil => exact shown.elim
  | append_singleton rest version ih =>
    rw [List.foldl_concat] at shown
    rcases adds _ _ _ _ _ shown with same | earlier
    · exact ⟨version, by simp, same.symm⟩
    · obtain ⟨other, member, same⟩ := ih earlier
      exact ⟨other, List.mem_append_left _ member, same⟩

/-- What the last version decides is shown from its start on. -/
theorem foldl_overwrite_last {final : Assertion τ ω} (isLast : versions.getLast? = some final)
    (reached : final.time ≤ ts) (begun : final.start ≤ vt) :
    versions.foldl overwrite nothing ts vt value ↔ value = final.value ∧ vt < final.stop := by
  obtain ⟨rest, rfl⟩ := List.getLast?_eq_some_iff.mp isLast
  rw [List.foldl_concat]
  unfold overwrite
  rw [if_pos ⟨reached, begun⟩]

/-- Both readings of one more version agree if those before it do, and it resumes what it follows. -/
theorem overwrite_iff_supersede {other : Picture τ ω}
    (agree : ∀ ts vt value, shown ts vt value ↔ other ts vt value)
    (resumes : ∀ ts vt value, version.time ≤ ts → version.start ≤ vt → version.stop ≠ last →
      value ≠ version.value → ¬ shown ts vt value) :
    overwrite shown version ts vt value ↔ supersede last other version ts vt value := by
  unfold overwrite supersede
  rw [← agree]
  by_cases reached : version.time ≤ ts
  · by_cases begun : version.start ≤ vt
    · by_cases own : value = version.value
      · simp [reached, begun, own]
      · by_cases open_ : version.stop = last
        · simp [reached, begun, own, open_]
        · simp [reached, begun, own, open_, resumes ts vt value reached begun open_ own]
    · have before : vt < version.start := not_le.mp begun
      simp [begun, before]
  · simp [reached]

/-- The two readings agree everywhere exactly if every version resumes the one before it. -/
theorem readings_agree_iff
    (ordered : versions.Pairwise fun earlier later => earlier.time < later.time)
    (forward : versions.Pairwise fun earlier later => earlier.start ≤ later.start) :
    (∀ ts vt value, versions.foldl overwrite nothing ts vt value ↔
        versions.foldl (supersede last) nothing ts vt value) ↔
      versions.IsChain (Resumes last) := by
  -- The induction takes the last version away; the readings of the rest differ no later than it.
  induction versions using List.reverseRecOn with
  | nil => simp
  | append_singleton rest version ih =>
    obtain ⟨before, _, above⟩ := List.pairwise_append.mp ordered
    obtain ⟨start, _, begins⟩ := List.pairwise_append.mp forward
    have later := fun earlier member => above earlier member version (List.mem_singleton.mpr rfl)
    have starts := fun earlier member => begins earlier member version (List.mem_singleton.mpr rfl)
    specialize ih before start
    rw [List.isChain_append]
    simp only [List.isChain_singleton, true_and, List.head?_cons, Option.mem_def, Option.some.injEq,
      forall_eq', List.foldl_concat]
    constructor
    · intro agree
      have rest_agree : ∀ ts vt value, rest.foldl overwrite nothing ts vt value ↔
          rest.foldl (supersede last) nothing ts vt value := by
        intro ts vt value
        cases previous : rest.getLast? with
        | none =>
          rw [List.getLast?_eq_none_iff.mp previous]
          rfl
        | some final =>
          -- A reader from the last version on is shown what one at that version is.
          have member := List.mem_of_getLast? previous
          have earlier : min ts final.time < version.time :=
            lt_of_le_of_lt (min_le_right _ _) (later final member)
          have now := agree (min ts final.time) vt value
          rw [overwrite_before earlier, supersede_before earlier] at now
          rcases le_total ts final.time with soon | late
          · rw [min_eq_left soon] at now
            exact now
          · rw [min_eq_right late] at now
            rw [settled_foldl _ Settled.overwrite before previous ts vt value late,
              settled_foldl _ Settled.supersede before previous ts vt value late]
            exact now
      refine ⟨ih.mp rest_agree, fun final previous open_ apart => ?_⟩
      -- At its own start the version before it would still be shown.
      have member := List.mem_of_getLast? previous
      have now := agree version.time version.start final.value
      by_contra still
      have shown : rest.foldl (supersede last) nothing version.time version.start final.value := by
        rw [← rest_agree, foldl_overwrite_last previous (le_of_lt (later final member))
          (starts final member)]
        exact ⟨rfl, not_le.mp still⟩
      have hidden : ¬ overwrite (rest.foldl overwrite nothing) version version.time version.start
          final.value := by
        simp [overwrite, apart]
      refine hidden (now.mpr ⟨fun _ same => absurd same apart, fun _ _ ends => absurd ends open_,
        Or.inl shown⟩)
    · rintro ⟨chain, resumes⟩ ts vt value
      refine overwrite_iff_supersede (ih.mpr chain) fun ts vt value reached begun open_ apart => ?_
      cases previous : rest.getLast? with
      | none =>
        rw [List.getLast?_eq_none_iff.mp previous]
        exact id
      | some final =>
        have member := List.mem_of_getLast? previous
        rw [foldl_overwrite_last previous (le_trans (le_of_lt (later final member)) reached)
          (le_trans (starts final member) begun)]
        rintro ⟨rfl, still⟩
        have ended := resumes final previous open_ apart
        exact absurd still (not_lt.mpr (le_trans ended begun))

end Picture

namespace History

variable {τ β : Type} [LinearOrder τ] {history : History τ β} {now : τ} {fresh : Version τ β}

/-- A version goes forward: it is recorded last, and no version starts later. -/
structure Forward (history : History τ β) (now : τ) (fresh : Version τ β) : Prop where
  /-- It is recorded after the others. -/
  newest : ∀ tt version, history tt = some version → tt < now
  /-- It starts no earlier than the others. -/
  starts : ∀ tt version, history tt = some version → version.start ≤ fresh.start

/-- A version that goes forward governs from its start on, and changes nothing before. -/
theorem Forward.governs_put (forward : history.Forward now fresh) {ts vt tt : τ}
    {version : Version τ β} : (history.put now fresh).Governs ts vt tt version ↔
      if now ≤ ts ∧ fresh.start ≤ vt then tt = now ∧ version = fresh
      else history.Governs ts vt tt version := by
  split_ifs with reached
  · have own : (history.put now fresh).Governs ts vt now fresh :=
      (governs_put_self forward.newest reached.1 reached.2).mpr fun tt version seen =>
        forward.starts tt version seen.stored
    constructor
    · intro governs
      exact governs.unique own
    · rintro ⟨rfl, rfl⟩
      exact own
  · -- Either the reader is before the record, or the window has not begun.
    have unseen : ∀ version, ¬ (history.put now fresh).Sees ts vt now version := by
      intro version seen
      have same := Option.some.inj (seen.stored.symm.trans put_self)
      rw [same] at seen
      exact reached ⟨seen.recorded, seen.begun⟩
    have old : ∀ tt version, history.Sees ts vt tt version → tt ≠ now := fun tt version seen =>
      ne_of_lt (forward.newest tt version seen.stored)
    constructor
    · intro governs
      have apart : tt ≠ now := by
        rintro rfl
        exact unseen version governs.seen
      exact ((governs_put_of_ne forward.newest apart).mp governs).1
    · intro governs
      refine (governs_put_of_ne forward.newest (old tt version governs.seen)).mpr ⟨governs, ?_⟩
      exact fun recorded begun => absurd ⟨recorded, begun⟩ reached

/-- A version that goes forward decides from its start on, and changes nothing before. -/
theorem Forward.live_put (forward : history.Forward now fresh) {ts vt : τ} :
    (history.put now fresh).Live ts vt ↔
      if now ≤ ts ∧ fresh.start ≤ vt then vt < fresh.stop else history.Live ts vt := by
  simp only [Live, forward.governs_put]
  split_ifs with reached
  · constructor
    · rintro ⟨_, _, ⟨_, rfl⟩, before⟩
      exact before
    · exact fun before => ⟨now, fresh, ⟨rfl, rfl⟩, before⟩
  · exact Iff.rfl

end History
