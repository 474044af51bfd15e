import Polargraph.Lib.PrefixScan
import Polargraph.Storage.Keys

/-! The key-value database: column families and atomic write batches. -/

namespace Polargraph

/-- The column families the modelled operations read or write. -/
inductive Cf where
  /-- One of the eight quad orders. -/
  | quads (order : Order)
  /-- Predicate and graph tables, the oracle counter and the change-log floor. -/
  | metadata
  /-- Trigram full-text index. -/
  | tri
  /-- Edge-property annotations. -/
  | epa
  /-- Predicate-first index over the edge-property annotations. -/
  | pea
  /-- Edge-relation annotations. -/
  | epo
  /-- IRI dictionary. -/
  | iri
  /-- Out-of-line property values. -/
  | blob
  /-- Change log. -/
  | chg
deriving DecidableEq

/-- One operation of a write batch. -/
inductive WriteOp where
  /-- Store a value under a key. -/
  | put (cf : Cf) (key value : Bytes)
  /-- Remove a key. -/
  | delete (cf : Cf) (key : Bytes)
  /-- Remove the keys from one up to but not including another. -/
  | deleteRange (cf : Cf) (low high : Bytes)
deriving DecidableEq

/-- The column family an operation touches. -/
def WriteOp.cf : WriteOp → Cf
  | put cf _ _ => cf
  | delete cf _ => cf
  | deleteRange cf _ _ => cf

/-- Whether an operation stores a value. -/
def WriteOp.IsPut (op : WriteOp) : Prop := ∃ cf key value, op = .put cf key value

/-- What an operation makes of the value under a key. -/
def WriteOp.cell (op : WriteOp) (cf : Cf) (key : Bytes) (held : Option Bytes) : Option Bytes :=
  match op with
  | put own name value => if cf = own ∧ key = name then some value else held
  | delete own name => if cf = own ∧ key = name then none else held
  | deleteRange own low high => if cf = own ∧ low ≤ key ∧ key < high then none else held

/-- Operations that reach the database together. -/
abbrev WriteBatch := List WriteOp

/-- The contents of every column family. -/
structure Db where
  /-- The entries of a column family, in key order. -/
  family : Cf → SortedMap Bytes Bytes

namespace Db

/-- The database with no entries. -/
def empty : Db := ⟨fun _ => SortedMap.empty⟩

/-- The value stored under a key of a column family. -/
def get (db : Db) (cf : Cf) (key : Bytes) : Option Bytes := (db.family cf).find? key

/-- Replace the contents of one column family. -/
def setFamily (db : Db) (cf : Cf) (entries : SortedMap Bytes Bytes) : Db :=
  ⟨Function.update db.family cf entries⟩

/-- Carry out one operation. -/
def apply (db : Db) : WriteOp → Db
  | .put cf key value => db.setFamily cf ((db.family cf).insert key value)
  | .delete cf key => db.setFamily cf ((db.family cf).erase key)
  | .deleteRange cf low high => db.setFamily cf ((db.family cf).eraseRange low high)

/-- Carry out a batch as one step. -/
def write (db : Db) (batch : WriteBatch) : Db := batch.foldl apply db

/-- Writing two batches one after the other is writing them together. -/
theorem write_append (db : Db) (first second : WriteBatch) :
    db.write (first ++ second) = (db.write first).write second := List.foldl_append

/-- An operation leaves the other column families alone. -/
theorem family_apply_ne (db : Db) {op : WriteOp} {cf : Cf} (apart : cf ≠ op.cf) :
    (db.apply op).family cf = db.family cf := by
  cases op <;> exact Function.update_of_ne apart _ _

/-- A batch leaves the column families it does not touch alone. -/
theorem family_write_of_forall_ne (db : Db) {batch : WriteBatch} {cf : Cf}
    (apart : ∀ op ∈ batch, cf ≠ op.cf) : (db.write batch).family cf = db.family cf := by
  induction batch generalizing db with
  | nil => rfl
  | cons op rest ih =>
    have first := db.family_apply_ne (apart op List.mem_cons_self)
    have later := ih (db.apply op) (fun other member => apart other (List.mem_cons_of_mem _ member))
    exact later.trans first

/-- A batch of deletes removes the listed keys of its column family. -/
theorem mem_family_write_deletes (db : Db) (cf : Cf) (keys : List Bytes) {entry : Bytes × Bytes} :
    entry ∈ ((db.write (keys.map (.delete cf))).family cf).entries ↔
      entry ∈ (db.family cf).entries ∧ entry.1 ∉ keys := by
  induction keys generalizing db with
  | nil => simp [write]
  | cons key rest ih =>
    have erased : (db.apply (.delete cf key)).family cf = (db.family cf).erase key :=
      Function.update_self _ _ _
    have later := ih (db.apply (.delete cf key))
    rw [erased, SortedMap.mem_erase] at later
    rw [List.map_cons, List.mem_cons, not_or, ← and_assoc]
    exact later

/-- A deleted key reads as absent, and every other key as before. -/
theorem get_write_deletes (db : Db) (cf : Cf) (keys : List Bytes) (key : Bytes) :
    (db.write (keys.map (.delete cf))).get cf key = if key ∈ keys then none else db.get cf key := by
  ext value
  rw [get, SortedMap.find?_eq_some, mem_family_write_deletes, ← SortedMap.find?_eq_some]
  split_ifs with deleted
  · simp [deleted]
  · simp [deleted, get]

/-- A batch of deletes leaves the other column families alone. -/
theorem family_write_deletes_of_ne (db : Db) {cf other : Cf} (apart : other ≠ cf)
    (keys : List Bytes) : (db.write (keys.map (.delete cf))).family other = db.family other := by
  refine db.family_write_of_forall_ne fun op member => ?_
  obtain ⟨key, _, rfl⟩ := List.mem_map.mp member
  exact apart

/-- A stored value reads back, and other keys as before. -/
theorem get_apply_put (db : Db) (cf other : Cf) (key name value : Bytes) :
    (db.apply (.put cf key value)).get other name =
      if other = cf ∧ name = key then some value else db.get other name := by
  by_cases same : other = cf
  · subst same
    have stored : (db.apply (.put other key value)).family other =
        (db.family other).insert key value := Function.update_self _ _ _
    rw [get, stored]
    split_ifs with hit
    · rw [hit.2, SortedMap.find?_insert_self]
    · exact SortedMap.find?_insert_ne _ _ fun equal => hit ⟨rfl, equal⟩
  · have untouched : (db.apply (.put cf key value)).family other = db.family other :=
      db.family_apply_ne same
    rw [get, untouched, if_neg fun both => same both.1]
    rfl

/-- A key reads as the operation leaves it. -/
theorem get_apply (db : Db) (op : WriteOp) (cf : Cf) (key : Bytes) :
    (db.apply op).get cf key = op.cell cf key (db.get cf key) := by
  cases op with
  | put own name value => exact db.get_apply_put own cf name key value
  | delete own name =>
    have one := db.get_write_deletes own [name] key
    simp only [write, List.map_cons, List.map_nil, List.foldl_cons, List.foldl_nil,
      List.mem_singleton] at one
    by_cases same : cf = own
    · subst same
      simpa [WriteOp.cell] using one
    · rw [get, show (db.apply (.delete own name)).family cf = db.family cf from db.family_apply_ne same]
      simp [WriteOp.cell, same, get]
  | deleteRange own low high =>
    by_cases same : cf = own
    · subst same
      have erased : (db.apply (.deleteRange cf low high)).family cf =
          (db.family cf).eraseRange low high := by
        simp only [apply, setFamily, Function.update_self]
      ext value
      rw [get, erased, SortedMap.find?_eq_some, SortedMap.mem_eraseRange, ← SortedMap.find?_eq_some]
      by_cases within : low ≤ key ∧ key < high
      · simp [WriteOp.cell, within]
      · simp [WriteOp.cell, within, get]
    · rw [get, show (db.apply (.deleteRange own low high)).family cf = db.family cf from
        db.family_apply_ne same]
      simp [WriteOp.cell, same, get]

/-- A key reads as the operations of a batch leave it one after another. -/
theorem get_write (db : Db) (batch : WriteBatch) (cf : Cf) (key : Bytes) :
    (db.write batch).get cf key =
      batch.foldl (fun held op => op.cell cf key held) (db.get cf key) := by
  induction batch generalizing db with
  | nil => rfl
  | cons op rest ih =>
    rw [List.foldl_cons, ← get_apply]
    exact ih (db.apply op)

/-- After a batch of puts a key reads as it did before, or as one of the puts wrote it. -/
theorem get_write_puts (db : Db) {batch : WriteBatch} (puts : ∀ op ∈ batch, op.IsPut) (cf : Cf)
    (key : Bytes) :
    ((∀ value, .put cf key value ∉ batch) ∧ (db.write batch).get cf key = db.get cf key) ∨
      ∃ value, .put cf key value ∈ batch ∧ (db.write batch).get cf key = some value := by
  -- The last put of the key decides.
  induction batch generalizing db with
  | nil => exact Or.inl ⟨fun _ => List.not_mem_nil, rfl⟩
  | cons op rest ih =>
    obtain ⟨own, name, stored, rfl⟩ := puts op List.mem_cons_self
    have step := db.get_apply_put own cf name key stored
    rcases ih (db.apply (.put own name stored))
        (fun other member => puts other (List.mem_cons_of_mem _ member)) with
      ⟨absent, same⟩ | ⟨value, member, found⟩
    · have read : (db.write (.put own name stored :: rest)).get cf key =
          (db.apply (.put own name stored)).get cf key := same
      rw [step] at read
      by_cases hit : cf = own ∧ key = name
      · obtain ⟨rfl, rfl⟩ := hit
        rw [if_pos ⟨rfl, rfl⟩] at read
        exact Or.inr ⟨stored, List.mem_cons_self, read⟩
      · rw [if_neg hit] at read
        refine Or.inl ⟨fun value member => ?_, read⟩
        rcases List.mem_cons.mp member with here | later
        · cases here
          exact hit ⟨rfl, rfl⟩
        · exact absent value later
    · exact Or.inr ⟨value, List.mem_cons_of_mem _ member, found⟩

/-- A key is stored after a batch of puts when one of them writes it or it was stored before. -/
theorem isSome_get_write_puts (db : Db) {batch : WriteBatch} (puts : ∀ op ∈ batch, op.IsPut)
    (cf : Cf) (key : Bytes) : ((db.write batch).get cf key).isSome ↔
      (∃ value, .put cf key value ∈ batch) ∨ (db.get cf key).isSome := by
  rcases db.get_write_puts puts cf key with ⟨absent, same⟩ | ⟨value, member, found⟩
  · rw [same]
    exact ⟨Or.inr, fun either => either.resolve_left fun ⟨value, member⟩ => absent value member⟩
  · rw [found]
    exact ⟨fun _ => Or.inl ⟨value, member⟩, fun _ => rfl⟩

/-- A batch that puts entries of a shape into a column family leaves only entries of that shape. -/
theorem entries_write {db : Db} (cf : Cf) (shape : Bytes × Bytes → Prop) {batch : WriteBatch}
    (before : ∀ entry ∈ (db.family cf).entries, shape entry)
    (puts : ∀ key value, .put cf key value ∈ batch → shape (key, value)) :
    ∀ entry ∈ ((db.write batch).family cf).entries, shape entry := by
  induction batch generalizing db with
  | nil => exact before
  | cons op rest ih =>
    refine ih (fun entry member => ?_) fun key value later =>
      puts key value (List.mem_cons_of_mem _ later)
    by_cases same : cf = op.cf
    · cases op with
      | put own key value =>
        obtain rfl : cf = own := same
        simp only [apply, setFamily, Function.update_self, SortedMap.mem_insert] at member
        rcases member with rfl | ⟨old, _⟩
        · exact puts _ _ List.mem_cons_self
        · exact before entry old
      | delete own key =>
        obtain rfl : cf = own := same
        simp only [apply, setFamily, Function.update_self, SortedMap.mem_erase] at member
        exact before entry member.1
      | deleteRange own low high =>
        obtain rfl : cf = own := same
        simp only [apply, setFamily, Function.update_self, SortedMap.mem_eraseRange] at member
        exact before entry member.1
    · rw [db.family_apply_ne same] at member
      exact before entry member

/-- A batch that puts keys of a shape into a column family leaves only keys of that shape. -/
theorem keys_write {db : Db} (cf : Cf) (shape : Bytes → Prop) {batch : WriteBatch}
    (before : ∀ entry ∈ (db.family cf).entries, shape entry.1)
    (puts : ∀ key value, .put cf key value ∈ batch → shape key) :
    ∀ entry ∈ ((db.write batch).family cf).entries, shape entry.1 :=
  entries_write cf (fun entry => shape entry.1) before puts

end Db

end Polargraph
