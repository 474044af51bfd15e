import Mathlib.Data.List.Basic
import Mathlib.Data.Prod.Lex

/-! Histories of one fact in two times, and the version that governs a point of them. -/

/-- One recorded version of a fact: the window of valid time it claims, and its content. -/
structure Version (τ β : Type) where
  /-- The first instant the window covers. -/
  start : τ
  /-- The first instant after the window. -/
  stop : τ
  /-- What the version says. -/
  content : β

/-- The versions of one fact by the transaction time they were recorded at. -/
abbrev History (τ β : Type) := τ → Option (Version τ β)

namespace History

variable {τ β : Type} [LinearOrder τ]

/-- A reader at a transaction time and a valid time takes a version into account. -/
structure Sees (history : History τ β) (ts vt tt : τ) (version : Version τ β) : Prop where
  /-- The version is recorded. -/
  stored : history tt = some version
  /-- It was recorded by the reader's transaction time. -/
  recorded : tt ≤ ts
  /-- Its window has begun. -/
  begun : version.start ≤ vt

/-- A seen version that no other seen version outranks: the latest start, then the latest record. -/
structure Governs (history : History τ β) (ts vt tt : τ) (version : Version τ β) : Prop where
  /-- The version is seen. -/
  seen : history.Sees ts vt tt version
  /-- Every seen version starts earlier, or starts together with it and is recorded no later. -/
  latest : ∀ other version', history.Sees ts vt other version' →
    version'.start < version.start ∨ (version'.start = version.start ∧ other ≤ tt)

/-- The governing version exists and its window covers the valid time. -/
def Live (history : History τ β) (ts vt : τ) : Prop :=
  ∃ tt version, history.Governs ts vt tt version ∧ vt < version.stop

/-- At most one version governs a point. -/
theorem Governs.unique {history : History τ β} {ts vt tt other : τ}
    {version version' : Version τ β} (left : history.Governs ts vt tt version)
    (right : history.Governs ts vt other version') : tt = other ∧ version = version' := by
  -- Each of the two does not outrank the other, so they are recorded together.
  have forward := left.latest other version' right.seen
  have backward := right.latest tt version left.seen
  have together : tt = other := by
    rcases forward with earlier | ⟨same, before⟩
    · rcases backward with later | ⟨same, _⟩
      · exact absurd (lt_trans earlier later) (lt_irrefl _)
      · exact absurd earlier (same ▸ lt_irrefl _)
    · rcases backward with later | ⟨_, after⟩
      · exact absurd later (same ▸ lt_irrefl _)
      · exact le_antisymm after before
  subst together
  exact ⟨rfl, Option.some.inj (left.seen.stored.symm.trans right.seen.stored)⟩

/-- The only record of a history governs where it is seen. -/
theorem Sees.governs_of_sole {history : History τ β} {ts vt tt : τ} {version : Version τ β}
    (seen : history.Sees ts vt tt version)
    (sole : ∀ other version', history other = some version' → other = tt) :
    history.Governs ts vt tt version := by
  refine ⟨seen, fun other version' sees => ?_⟩
  have together := sole other version' sees.stored
  subst together
  have same := Option.some.inj (seen.stored.symm.trans sees.stored)
  exact Or.inr ⟨same ▸ rfl, le_refl _⟩

/-- A reader sees the same versions of two histories that agree up to its transaction time. -/
theorem sees_congr {left right : History τ β} {ts : τ} (agree : ∀ tt ≤ ts, left tt = right tt)
    {vt tt : τ} {version : Version τ β} :
    left.Sees ts vt tt version ↔ right.Sees ts vt tt version :=
  ⟨fun seen => ⟨agree tt seen.recorded ▸ seen.stored, seen.recorded, seen.begun⟩,
    fun seen => ⟨(agree tt seen.recorded).symm ▸ seen.stored, seen.recorded, seen.begun⟩⟩

/-- The same version governs two histories that agree up to the reader's transaction time. -/
theorem governs_congr {left right : History τ β} {ts : τ} (agree : ∀ tt ≤ ts, left tt = right tt)
    {vt tt : τ} {version : Version τ β} :
    left.Governs ts vt tt version ↔ right.Governs ts vt tt version :=
  ⟨fun governs => ⟨(sees_congr agree).mp governs.seen, fun other version' seen =>
      governs.latest other version' ((sees_congr agree).mpr seen)⟩,
    fun governs => ⟨(sees_congr agree).mpr governs.seen, fun other version' seen =>
      governs.latest other version' ((sees_congr agree).mp seen)⟩⟩

/-- Readers from the last record on see the same versions. -/
theorem sees_of_recorded {history : History τ β} {ts later vt tt : τ} {version : Version τ β}
    (recorded : ∀ tt version, history tt = some version → tt ≤ ts) (reached : ts ≤ later) :
    history.Sees later vt tt version ↔ history.Sees ts vt tt version :=
  ⟨fun seen => ⟨seen.stored, recorded _ _ seen.stored, seen.begun⟩,
    fun seen => ⟨seen.stored, le_trans seen.recorded reached, seen.begun⟩⟩

/-- The same version governs for all readers from the last record on. -/
theorem governs_of_recorded {history : History τ β} {ts later vt tt : τ} {version : Version τ β}
    (recorded : ∀ tt version, history tt = some version → tt ≤ ts) (reached : ts ≤ later) :
    history.Governs later vt tt version ↔ history.Governs ts vt tt version :=
  ⟨fun governs => ⟨(sees_of_recorded recorded reached).mp governs.seen, fun other version' seen =>
      governs.latest other version' ((sees_of_recorded recorded reached).mpr seen)⟩,
    fun governs => ⟨(sees_of_recorded recorded reached).mpr governs.seen, fun other version' seen =>
      governs.latest other version' ((sees_of_recorded recorded reached).mp seen)⟩⟩

/-- A history with finitely many records: all of them are in a list. -/
def Finite (history : History τ β) : Prop :=
  ∃ times : List τ, ∀ tt version, history tt = some version → tt ∈ times

omit [LinearOrder τ] in
/-- Among the records of a finite history with a property, one has the highest rank. -/
theorem Finite.exists_max {ρ : Type} [LinearOrder ρ] {history : History τ β}
    (finite : history.Finite) (rank : τ → Version τ β → ρ) (holds : τ → Version τ β → Prop) {tt : τ}
    {version : Version τ β} (stored : history tt = some version) (own : holds tt version) :
    ∃ top best, history top = some best ∧ holds top best ∧
      ∀ other version', history other = some version' → holds other version' →
        rank other version' ≤ rank top best := by
  -- A further record of the list either outranks the best so far or does not.
  obtain ⟨times, complete⟩ := finite
  suffices listed : ∃ top best, history top = some best ∧ holds top best ∧
      ∀ other ∈ times, ∀ version', history other = some version' → holds other version' →
        rank other version' ≤ rank top best by
    obtain ⟨top, best, kept, has, above⟩ := listed
    exact ⟨top, best, kept, has, fun other version' found =>
      above other (complete other version' found) version' found⟩
  clear complete
  induction times with
  | nil => exact ⟨tt, version, stored, own, by simp⟩
  | cons first rest ih =>
    obtain ⟨top, best, kept, has, above⟩ := ih
    by_cases better : ∃ version', history first = some version' ∧ holds first version' ∧
        rank top best < rank first version'
    · obtain ⟨version', found, holds', higher⟩ := better
      refine ⟨first, version', found, holds', fun other within other' found' holdsOther => ?_⟩
      rcases List.mem_cons.mp within with rfl | within
      · exact le_of_eq (by rw [Option.some.inj (found'.symm.trans found)])
      · exact le_of_lt (lt_of_le_of_lt (above other within other' found' holdsOther) higher)
    · refine ⟨top, best, kept, has, fun other within other' found' holdsOther => ?_⟩
      rcases List.mem_cons.mp within with rfl | within
      · exact not_lt.mp fun higher => better ⟨other', found', holdsOther, higher⟩
      · exact above other within other' found' holdsOther

section Put

variable {history : History τ β} {now : τ} {fresh : Version τ β}

/-- Record one more version. -/
def put (history : History τ β) (now : τ) (fresh : Version τ β) : History τ β :=
  Function.update history now (some fresh)

/-- The recorded version reads back. -/
theorem put_self : history.put now fresh now = some fresh := Function.update_self _ _ _

/-- Other records read back as before. -/
theorem put_of_ne {tt : τ} (apart : tt ≠ now) : history.put now fresh tt = history tt :=
  Function.update_of_ne apart _ _

/-- A version recorded after all others is seen by every later reader of its window. -/
theorem sees_put_self {ts vt : τ} (reached : now ≤ ts) (begun : fresh.start ≤ vt) :
    (history.put now fresh).Sees ts vt now fresh :=
  ⟨Function.update_self _ _ _, reached, begun⟩

/-- Other records are seen as before. -/
theorem sees_put_of_ne {ts vt tt : τ} {version : Version τ β} (apart : tt ≠ now) :
    (history.put now fresh).Sees ts vt tt version ↔ history.Sees ts vt tt version := by
  have same : (history.put now fresh) tt = history tt := Function.update_of_ne apart _ _
  exact ⟨fun seen => ⟨same ▸ seen.stored, seen.recorded, seen.begun⟩,
    fun seen => ⟨same.symm ▸ seen.stored, seen.recorded, seen.begun⟩⟩

/-- A version recorded last governs where its window has begun and no seen version starts later. -/
theorem governs_put_self {ts vt : τ} (newest : ∀ tt version, history tt = some version → tt < now)
    (reached : now ≤ ts) (begun : fresh.start ≤ vt) :
    (history.put now fresh).Governs ts vt now fresh ↔
      ∀ tt version, history.Sees ts vt tt version → version.start ≤ fresh.start := by
  -- Against older records the later record wins every tie.
  constructor
  · intro governs tt version seen
    have apart : tt ≠ now := ne_of_lt (newest tt version seen.stored)
    rcases governs.latest tt version ((sees_put_of_ne apart).mpr seen) with before | ⟨same, _⟩
    · exact le_of_lt before
    · exact le_of_eq same
  · intro lowest
    refine ⟨sees_put_self reached begun, fun other version' seen => ?_⟩
    by_cases same : other = now
    · subst same
      have content := Option.some.inj (seen.stored.symm.trans put_self)
      exact Or.inr ⟨content ▸ rfl, le_refl _⟩
    · have old := (sees_put_of_ne same).mp seen
      rcases lt_or_eq_of_le (lowest other version' old) with before | equal
      · exact Or.inl before
      · exact Or.inr ⟨equal, le_of_lt (newest other version' old.stored)⟩

/-- An older record still governs exactly when the new one is not seen or starts earlier. -/
theorem governs_put_of_ne {ts vt tt : τ} {version : Version τ β}
    (newest : ∀ tt version, history tt = some version → tt < now) (apart : tt ≠ now) :
    (history.put now fresh).Governs ts vt tt version ↔
      history.Governs ts vt tt version ∧
        (now ≤ ts → fresh.start ≤ vt → fresh.start < version.start) := by
  constructor
  · intro governs
    have seen := (sees_put_of_ne apart).mp governs.seen
    refine ⟨⟨seen, fun other version' sees => ?_⟩, fun reached begun => ?_⟩
    · have old : other ≠ now := ne_of_lt (newest other version' sees.stored)
      exact governs.latest other version' ((sees_put_of_ne old).mpr sees)
    · rcases governs.latest now fresh (sees_put_self reached begun) with before | ⟨_, order⟩
      · exact before
      · exact absurd (newest tt version seen.stored) (not_lt.mpr order)
  · rintro ⟨governs, later⟩
    refine ⟨(sees_put_of_ne apart).mpr governs.seen, fun other version' seen => ?_⟩
    by_cases same : other = now
    · subst same
      have content := Option.some.inj (seen.stored.symm.trans put_self)
      subst content
      exact Or.inl (later seen.recorded seen.begun)
    · exact governs.latest other version' ((sees_put_of_ne same).mp seen)

end Put

section Prune

variable {history kept : History τ β}

/--
Pruning that drops a version only when a kept one has the same start and a later record.

The kept record must itself be old enough for every reader concerned.
-/
structure Shadowed (history kept : History τ β) (cutoff : τ) : Prop where
  /-- Nothing is added or changed. -/
  subset : ∀ tt version, kept tt = some version → history tt = some version
  /-- Every dropped version is shadowed by a kept one. -/
  shadow : ∀ tt version, history tt = some version → kept tt ≠ some version →
    ∃ later version', kept later = some version' ∧ version'.start = version.start ∧
      tt < later ∧ later < cutoff

/-- Dropping shadowed versions changes no governing version from the cutoff on. -/
theorem Shadowed.governs_iff {cutoff ts vt tt : τ} {version : Version τ β}
    (pruned : Shadowed history kept cutoff) (within : cutoff ≤ ts) :
    kept.Governs ts vt tt version ↔ history.Governs ts vt tt version := by
  -- A dropped version is outranked by its shadow, which every such reader sees.
  have shadowSeen : ∀ other version', history.Sees ts vt other version' →
      kept other ≠ some version' → ∃ later shadow, kept.Sees ts vt later shadow ∧
        shadow.start = version'.start ∧ other < later := by
    intro other version' seen dropped
    obtain ⟨later, shadow, stored, same, after, old⟩ :=
      pruned.shadow other version' seen.stored dropped
    exact ⟨later, shadow, ⟨stored, le_trans (le_of_lt old) within, same ▸ seen.begun⟩, same, after⟩
  have lift : ∀ {other version'}, kept.Sees ts vt other version' →
      history.Sees ts vt other version' := fun seen =>
    ⟨pruned.subset _ _ seen.stored, seen.recorded, seen.begun⟩
  constructor
  · intro governs
    refine ⟨lift governs.seen, fun other version' seen => ?_⟩
    by_cases present : kept other = some version'
    · exact governs.latest other version' ⟨present, seen.recorded, seen.begun⟩
    · obtain ⟨later, shadow, sees, same, after⟩ := shadowSeen other version' seen present
      rcases governs.latest later shadow sees with before | ⟨equal, order⟩
      · exact Or.inl (same ▸ before)
      · exact Or.inr ⟨same ▸ equal, le_of_lt (lt_of_lt_of_le after order)⟩
  · intro governs
    have present : kept tt = some version := by
      by_contra dropped
      obtain ⟨later, shadow, sees, same, after⟩ := shadowSeen tt version governs.seen dropped
      rcases governs.latest later shadow (lift sees) with before | ⟨_, order⟩
      · exact lt_irrefl _ (same ▸ before)
      · exact absurd after (not_lt.mpr order)
    exact ⟨⟨present, governs.seen.recorded, governs.seen.begun⟩,
      fun other version' seen => governs.latest other version' (lift seen)⟩

end Prune

end History
