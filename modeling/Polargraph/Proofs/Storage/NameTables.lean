import Mathlib.Data.Set.List
import Polargraph.Lib.Assign
import Polargraph.Proofs.Core.Utf8
import Polargraph.Proofs.Storage.Keys
import Polargraph.Storage.Interning

/-! Tables of names: what the metadata records of them, and what is loaded from it. -/

namespace Polargraph

/-- The keys that a table of names is recorded under. -/
structure TableKeys where
  /-- The keys of names start with it. -/
  start : Bytes
  /-- The keys of identifiers start with it. -/
  reverse : Bytes
  /-- The key of the next identifier. -/
  counter : Bytes

namespace TableKeys

/-- What the keys of a table start with. -/
def heads (keys : TableKeys) : List Bytes := [keys.start, keys.reverse, keys.counter]

/-- A key of a table. -/
def Owns (keys : TableKeys) (key : Bytes) : Prop := ∃ head ∈ keys.heads, head <+: key

/-- The kinds of keys of a table are told apart by how they start. -/
structure Separate (keys : TableKeys) : Prop where
  /-- Names and identifiers. -/
  names : ¬ keys.start <+: keys.reverse ∧ ¬ keys.reverse <+: keys.start
  /-- Names and the counter. -/
  start : ¬ keys.start <+: keys.counter ∧ ¬ keys.counter <+: keys.start
  /-- Identifiers and the counter. -/
  reverse : ¬ keys.reverse <+: keys.counter ∧ ¬ keys.counter <+: keys.reverse

/-- The keys of predicates. -/
def predicates : TableKeys := ⟨utf8 "p/", utf8 "pid/", META_PRED_CTR⟩

/-- The keys of graphs. -/
def graphs : TableKeys := ⟨utf8 "g/", utf8 "gid/", META_GRAPH_CTR⟩

/-- The records of a name with an identifier, and of the next one. -/
def records (keys : TableKeys) (name : String) (id next : UInt32) : WriteBatch := [
  .put .metadata (keys.start ++ utf8 name) (u32Bytes id),
  .put .metadata (keys.reverse ++ u32Bytes id) (utf8 name),
  .put .metadata keys.counter (u32Bytes next)]

/-- The records of a name that changes. -/
def renames (keys : TableKeys) (old new : String) (id : UInt32) : WriteBatch := [
  .delete .metadata (keys.start ++ utf8 old),
  .put .metadata (keys.start ++ utf8 new) (u32Bytes id),
  .put .metadata (keys.reverse ++ u32Bytes id) (utf8 new)]

/-- The keys of predicates are separate. -/
theorem predicates_separate : predicates.Separate :=
  ⟨by decide +kernel, by decide +kernel, by decide +kernel⟩

/-- The keys of graphs are separate. -/
theorem graphs_separate : graphs.Separate :=
  ⟨by decide +kernel, by decide +kernel, by decide +kernel⟩

/-- Keys that start differently are different. -/
theorem ne_of_heads {left right : Bytes} (apart : ¬ left <+: right ∧ ¬ right <+: left)
    {one two : Bytes} (first : left <+: one) (second : right <+: two) : one ≠ two := by
  rintro rfl
  exact (List.prefix_or_prefix_of_prefix first second).elim apart.1 apart.2

/-- A key of one table is not one of the other. -/
theorem not_owns_of_owns {key : Bytes} :
    (predicates.Owns key → ¬ graphs.Owns key) ∧ (graphs.Owns key → ¬ predicates.Owns key) := by
  have apart : ∀ left ∈ predicates.heads, ∀ right ∈ graphs.heads,
      ¬ left <+: right ∧ ¬ right <+: left := by decide +kernel
  have never : predicates.Owns key → graphs.Owns key → False := by
    rintro ⟨left, member, first⟩ ⟨right, member', second⟩
    exact ne_of_heads (apart left member right member') first second rfl
  exact ⟨never, fun graph predicate => never predicate graph⟩

/-- Keys of one kind are not of another. -/
theorem Separate.apart {keys : TableKeys} (separate : keys.Separate) :
    (∀ left right, keys.start ++ left ≠ keys.reverse ++ right) ∧
      (∀ rest, keys.start ++ rest ≠ keys.counter) ∧ ∀ rest, keys.reverse ++ rest ≠ keys.counter :=
  ⟨fun _ _ => ne_of_heads separate.names (List.prefix_append _ _) (List.prefix_append _ _),
    fun _ => ne_of_heads separate.start (List.prefix_append _ _) List.prefix_rfl,
    fun _ => ne_of_heads separate.reverse (List.prefix_append _ _) List.prefix_rfl⟩

/-- The key of a name is one of the table. -/
theorem owns_start (keys : TableKeys) (rest : Bytes) : keys.Owns (keys.start ++ rest) :=
  ⟨keys.start, by simp [heads], List.prefix_append _ _⟩

/-- The key of an identifier is one of the table. -/
theorem owns_reverse (keys : TableKeys) (rest : Bytes) : keys.Owns (keys.reverse ++ rest) :=
  ⟨keys.reverse, by simp [heads], List.prefix_append _ _⟩

/-- The key of the counter is one of the table. -/
theorem owns_counter (keys : TableKeys) : keys.Owns keys.counter :=
  ⟨keys.counter, by simp [heads], List.prefix_rfl⟩

end TableKeys

namespace LoadedNames

variable {names : LoadedNames}

/-- The two directions of a table are inverse, and its identifiers were handed out. -/
structure Inverse (names : LoadedNames) : Prop where
  /-- A name leads to an identifier that leads back to it. -/
  iff : ∀ name id, names.fwd name = some id ↔ names.rev id = some name
  /-- Identifiers are positive and below the next one. -/
  within : ∀ id name, names.rev id = some name → 0 < id.toNat ∧ id.toNat < names.next.toNat

/-- A table with a new name. -/
def add (names : LoadedNames) (name : String) (id next : UInt32) : LoadedNames :=
  ⟨Function.update names.fwd name (some id), Function.update names.rev id (some name), next⟩

/-- A table with a name changed. -/
def rename (names : LoadedNames) (old new : String) (id : UInt32) : LoadedNames :=
  ⟨Function.update (Function.update names.fwd old none) new (some id),
    Function.update names.rev id (some new), names.next⟩

/-- A new name under an identifier that was not handed out keeps a table inverse. -/
theorem Inverse.add (inverse : names.Inverse) {name : String} {id next : UInt32}
    (absent : names.fwd name = none) (positive : 0 < id.toNat)
    (fresh : names.next.toNat ≤ id.toNat) (below : id.toNat < next.toNat) :
    (names.add name id next).Inverse := by
  have unused : ∀ other, names.rev id ≠ some other := by
    intro other found
    have early := (inverse.within id other found).2
    omega
  refine ⟨fun other key => ?_, fun key other found => ?_⟩
  · simp only [LoadedNames.add, Function.update_apply]
    by_cases own : other = name
    · subst own
      by_cases same : key = id
      · subst same
        simp
      · have gone : names.rev key ≠ some other := by
          rw [Ne, ← inverse.iff, absent]
          exact nofun
        simp [same, gone, Ne.symm same]
    · by_cases same : key = id
      · subst same
        have gone : names.fwd other ≠ some key := by
          rw [Ne, inverse.iff]
          exact unused other
        simp [own, gone, Ne.symm own]
      · simp [own, same, inverse.iff]
  · simp only [LoadedNames.add, Function.update_apply] at found ⊢
    split_ifs at found with own
    · rw [own]
      exact ⟨positive, below⟩
    · obtain ⟨some_, early⟩ := inverse.within key other found
      exact ⟨some_, by omega⟩

/-- A changed name keeps a table inverse. -/
theorem Inverse.rename (inverse : names.Inverse) {old new : String} {id : UInt32}
    (held : names.fwd old = some id) (absent : names.fwd new = none) :
    (names.rename old new id).Inverse := by
  have back := (inverse.iff old id).mp held
  refine ⟨fun other key => ?_, fun key other found => ?_⟩
  · simp only [LoadedNames.rename, Function.update_apply]
    by_cases own : other = new
    · subst own
      by_cases same : key = id
      · subst same
        simp
      · have gone : names.rev key ≠ some other := by
          rw [Ne, ← inverse.iff, absent]
          exact nofun
        simp [same, gone, Ne.symm same]
    · by_cases same : key = id
      · subst same
        -- The identifier led to the old name, which is gone.
        have only : names.fwd other = some key → other = old := fun found =>
          Option.some.inj (((inverse.iff other key).mp found).symm.trans back)
        by_cases first : other = old
        · subst first
          simp [own, Ne.symm own]
        · have gone : names.fwd other ≠ some key := fun found => first (only found)
          simp [own, first, gone, Ne.symm own]
      · by_cases first : other = old
        · subst first
          have gone : names.rev key ≠ some other := by
            rw [Ne, ← inverse.iff, held]
            exact fun found => same (Option.some.inj found).symm
          simp [own, same, gone]
        · simp [own, same, first, inverse.iff]
  · simp only [LoadedNames.rename, Function.update_apply] at found ⊢
    split_ifs at found with own
    · rw [own]
      exact inverse.within id old back
    · exact inverse.within key other found

end LoadedNames

namespace Db

variable {db : Db} {keys : TableKeys} {names : LoadedNames}

/-- The metadata records a table of names. -/
structure Records (db : Db) (keys : TableKeys) (names : LoadedNames) : Prop where
  /-- Every name is recorded with its identifier. -/
  forward : ∀ name, db.get .metadata (keys.start ++ utf8 name) = (names.fwd name).map u32Bytes
  /-- Nothing else is recorded as a name. -/
  only : ∀ key value, db.get .metadata key = some value → keys.start <+: key →
    ∃ name, key = keys.start ++ utf8 name
  /-- Every identifier is recorded with its name. -/
  backward : ∀ id, db.get .metadata (keys.reverse ++ u32Bytes id) = (names.rev id).map utf8
  /-- The next identifier is recorded. -/
  counter : db.loadCounter keys.counter = names.next

/-- Records depend on the keys of their table only. -/
theorem Records.congr (recorded : db.Records keys names) {other : Db}
    (same : ∀ key, keys.Owns key → other.get .metadata key = db.get .metadata key) :
    other.Records keys names := by
  refine ⟨fun name => ?_, fun key value found under => ?_, fun id => ?_, ?_⟩
  · rw [same _ (keys.owns_start _), recorded.forward]
  · rw [same key ⟨keys.start, by simp [TableKeys.heads], under⟩] at found
    exact recorded.only key value found under
  · rw [same _ (keys.owns_reverse _), recorded.backward]
  · unfold loadCounter
    rw [same _ keys.owns_counter]
    exact recorded.counter

/-- Operations on other keys leave a key as it was. -/
theorem get_write_apart {batch : WriteBatch} {cf : Cf} {key : Bytes}
    (apart : ∀ op ∈ batch, ∀ held, op.cell cf key held = held) :
    (db.write batch).get cf key = db.get cf key := by
  rw [get_write]
  induction batch with
  | nil => rfl
  | cons op rest ih =>
    rw [List.foldl_cons, apart op List.mem_cons_self]
    exact ih fun other member => apart other (List.mem_cons_of_mem _ member)

/-- The counter reads as it was last written. -/
theorem loadCounter_of_get {key : Bytes} {id : UInt32}
    (found : db.get .metadata key = some (u32Bytes id)) : db.loadCounter key = id := by
  rw [loadCounter, found]
  simp

/-- Recording a new name records the table with it. -/
theorem Records.add (recorded : db.Records keys names) (separate : keys.Separate) (name : String)
    (id next : UInt32) :
    (db.write (keys.records name id next)).Records keys (names.add name id next) := by
  have read : ∀ key, (db.write (keys.records name id next)).get .metadata key =
      if key = keys.counter then some (u32Bytes next)
      else if key = keys.reverse ++ u32Bytes id then some (utf8 name)
      else if key = keys.start ++ utf8 name then some (u32Bytes id) else db.get .metadata key := by
    intro key
    simp [get_write, TableKeys.records, WriteOp.cell]
  obtain ⟨names_, starts, reverses⟩ := separate.apart
  refine ⟨fun other => ?_, fun key value found under => ?_, fun other => ?_, ?_⟩
  · rw [read, if_neg (starts _), if_neg (names_ _ _)]
    simp only [LoadedNames.add, Function.update_apply, List.append_cancel_left_eq]
    by_cases own : other = name
    · simp [own]
    · rw [if_neg fun same => own (utf8_inj same), if_neg own, recorded.forward]
  · rw [read] at found
    split_ifs at found with counter reverse own
    · exact absurd (counter ▸ under) separate.start.1
    · obtain ⟨rest, whole⟩ := under
      exact absurd (whole.trans reverse) (names_ _ _)
    · exact ⟨name, own⟩
    · exact recorded.only key value found under
  · rw [read, if_neg (reverses _)]
    simp only [LoadedNames.add, Function.update_apply, List.append_cancel_left_eq]
    by_cases own : other = id
    · simp [own]
    · rw [if_neg fun same => own (u32Bytes_inj same), if_neg (names_ _ _).symm, if_neg own,
        recorded.backward]
  · exact loadCounter_of_get ((read _).trans (if_pos rfl))

/-- Recording a changed name records the table with it. -/
theorem Records.rename (recorded : db.Records keys names) (separate : keys.Separate)
    (old new : String) (id : UInt32) :
    (db.write (keys.renames old new id)).Records keys (names.rename old new id) := by
  have read : ∀ key, (db.write (keys.renames old new id)).get .metadata key =
      if key = keys.reverse ++ u32Bytes id then some (utf8 new)
      else if key = keys.start ++ utf8 new then some (u32Bytes id)
      else if key = keys.start ++ utf8 old then none else db.get .metadata key := by
    intro key
    simp [get_write, TableKeys.renames, WriteOp.cell]
  obtain ⟨names_, starts, reverses⟩ := separate.apart
  refine ⟨fun other => ?_, fun key value found under => ?_, fun other => ?_, ?_⟩
  · rw [read, if_neg (names_ _ _)]
    simp only [LoadedNames.rename, Function.update_apply, List.append_cancel_left_eq]
    by_cases own : other = new
    · simp [own]
    · rw [if_neg fun same => own (utf8_inj same), if_neg own]
      by_cases first : other = old
      · simp [first]
      · rw [if_neg fun same => first (utf8_inj same), if_neg first, recorded.forward]
  · rw [read] at found
    split_ifs at found with reverse own
    · obtain ⟨rest, whole⟩ := under
      exact absurd (whole.trans reverse) (names_ _ _)
    · exact ⟨new, own⟩
    · exact recorded.only key value found under
  · rw [read]
    simp only [LoadedNames.rename, Function.update_apply, List.append_cancel_left_eq]
    by_cases own : other = id
    · simp [own]
    · rw [if_neg fun same => own (u32Bytes_inj same), if_neg (names_ _ _).symm,
        if_neg (names_ _ _).symm, if_neg own, recorded.backward]
  · rw [loadCounter, read, if_neg (reverses _).symm, if_neg (starts _).symm, if_neg (starts _).symm]
    exact recorded.counter

/-- The tables that some records of names with identifiers are loaded as. -/
private theorem foldlM_loadName (utf8Error : Bytes → String) (bad : String → String) (start : Bytes)
    (pairs : List (String × UInt32)) (fwd : String → Option UInt32) (rev : UInt32 → Option String) :
    (pairs.map fun pair => (start ++ utf8 pair.1, u32Bytes pair.2)).foldlM
        (loadName utf8Error bad start.length) (fwd, rev) =
      .ok (assigned fwd pairs, assigned rev (pairs.map Prod.swap)) := by
  induction pairs generalizing fwd rev with
  | nil => rfl
  | cons pair rest ih =>
    have first : loadName utf8Error bad start.length (fwd, rev)
        (start ++ utf8 pair.1, u32Bytes pair.2) =
        .ok (Function.update fwd pair.1 (some pair.2), Function.update rev pair.2 (some pair.1)) := by
      simp [loadName, fromUtf8_utf8]
    rw [List.map_cons, List.foldlM_cons, first]
    exact ih _ _

/-- What is recorded of a table is loaded as the table. -/
theorem Records.loadNames (recorded : db.Records keys names) (inverse : names.Inverse)
    (utf8Error : Bytes → String) (bad : String → String) :
    db.loadNames utf8Error keys.start bad keys.counter = .ok names := by
  -- Every entry under the prefix is the record of a name.
  have shaped : ∀ entry ∈ (db.family .metadata).scanPrefix keys.start,
      ∃ pair : String × UInt32, (keys.start ++ utf8 pair.1, u32Bytes pair.2) = entry := by
    intro entry member
    obtain ⟨stored, under⟩ := SortedMap.mem_scanPrefix.mp member
    have found : db.get .metadata entry.1 = some entry.2 := SortedMap.find?_eq_some.mpr stored
    obtain ⟨name, own⟩ := recorded.only _ _ found under
    rw [own, recorded.forward] at found
    obtain ⟨id, _, bytes⟩ := Option.map_eq_some_iff.mp found
    exact ⟨(name, id), Prod.ext own.symm bytes⟩
  have listed : (db.family .metadata).scanPrefix keys.start ∈
      Set.range (List.map fun pair : String × UInt32 => (keys.start ++ utf8 pair.1, u32Bytes pair.2)) := by
    rw [Set.range_list_map]
    exact shaped
  obtain ⟨pairs, listed⟩ := listed
  have members : ∀ name id, (name, id) ∈ pairs ↔ names.fwd name = some id := by
    intro name id
    have scanned : (keys.start ++ utf8 name, u32Bytes id) ∈
        (db.family .metadata).scanPrefix keys.start ↔ names.fwd name = some id := by
      rw [SortedMap.mem_scanPrefix, ← SortedMap.find?_eq_some]
      refine (and_iff_left (List.prefix_append _ _)).trans ?_
      rw [show (db.family .metadata).find? (keys.start ++ utf8 name) =
        (names.fwd name).map u32Bytes from recorded.forward name, Option.map_eq_some_iff]
      exact ⟨fun ⟨other, found, same⟩ => u32Bytes_inj same ▸ found, fun found => ⟨id, found, rfl⟩⟩
    rw [← scanned, ← listed, List.mem_map]
    constructor
    · intro member
      exact ⟨_, member, rfl⟩
    · rintro ⟨⟨other, key⟩, member, same⟩
      obtain ⟨first, second⟩ := Prod.mk.inj same
      rwa [← utf8_inj (List.append_cancel_left first), ← u32Bytes_inj second]
  have fwd : assigned (fun _ => none) pairs = names.fwd := by
    funext name
    cases known : names.fwd name with
    | some id =>
      exact assigned_of_mem _ ((members name id).mpr known) fun other member =>
        Option.some.inj (((members name other).mp member).symm.trans known)
    | none =>
      refine assigned_of_forall_ne _ fun pair member same => ?_
      have found := (members pair.1 pair.2).mp member
      rw [same, known] at found
      cases found
  have swapped : ∀ name id, (id, name) ∈ pairs.map Prod.swap ↔ names.rev id = some name := by
    intro name id
    rw [← inverse.iff, ← members]
    simp
  have rev : assigned (fun _ => none) (pairs.map Prod.swap) = names.rev := by
    funext id
    cases known : names.rev id with
    | some name =>
      exact assigned_of_mem _ ((swapped name id).mpr known) fun other member =>
        Option.some.inj (((swapped other id).mp member).symm.trans known)
    | none =>
      refine assigned_of_forall_ne _ fun pair member same => ?_
      have found := (swapped pair.2 pair.1).mp member
      rw [same, known] at found
      cases found
  unfold Db.loadNames
  rw [← listed, foldlM_loadName, fwd, rev, recorded.counter]
  rfl

end Db

end Polargraph
