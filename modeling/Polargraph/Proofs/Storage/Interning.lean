import Polargraph.Proofs.Storage.NameTables
import Polargraph.Proofs.Storage.Rewriting

/-! Tables of names under concurrent calls: inverse, in step with the database, never reusing. -/

namespace Polargraph

variable {ext : External} {debug : String → String}

namespace TableCall

/-- The forward table once the call that has the lock is through. -/
def settledFwd : Option TableCall → (String → Option UInt32) → String → Option UInt32
  | some (.recorded name id), fwd => Function.update fwd name (some id)
  | some (.renamed old new id), fwd => Function.update (Function.update fwd old none) new (some id)
  | _, fwd => fwd

/-- The reverse table once the call that has the lock is through. -/
def settledRev : Option TableCall → (UInt32 → Option String) → UInt32 → Option String
  | some (.recorded name id), rev | some (.entered name id), rev =>
    Function.update rev id (some name)
  | some (.renamed _ new id), rev | some (.moved new id), rev => Function.update rev id (some new)
  | _, rev => rev

/-- What a call knows of the tables while it has the lock. -/
def Knows (fwd : String → Option UInt32) (next recorded : UInt32) : Option TableCall → Prop
  | some (.taken name id) => fwd name = none ∧ recorded.toNat ≤ id.toNat ∧
      next.toNat = id.toNat + 1 ∧ 0 < id.toNat
  | some (.recorded name _) => fwd name = none
  | some (.renaming old new id) | some (.renamed old new id) => fwd old = some id ∧ fwd new = none
  | _ => True

end TableCall

/-- A table in memory, with a call that may have its lock, is in step with the database. -/
structure Tabled (db : Db) (keys : TableKeys) (names : LoadedNames) (call : Option TableCall)
    (taken returned : List UInt32) : Prop where
  /-- The database records the table that the call will leave, and an earlier next identifier. -/
  disk : ∃ recorded, recorded.toNat ≤ names.next.toNat ∧
    db.Records keys
      ⟨TableCall.settledFwd call names.fwd, TableCall.settledRev call names.rev, recorded⟩ ∧
    LoadedNames.Inverse
      ⟨TableCall.settledFwd call names.fwd, TableCall.settledRev call names.rev, recorded⟩ ∧
    TableCall.Knows names.fwd names.next recorded call
  /-- There is a next identifier. -/
  positive : 0 < names.next.toNat
  /-- No identifier is taken twice, and what is taken is below the next one. -/
  distinct : taken.Nodup ∧ ∀ id ∈ taken, id.toNat < names.next.toNat
  /-- What is returned has a name. -/
  resolved : ∀ id ∈ returned, (names.rev id).isSome

namespace Tabled

variable {db : Db} {keys : TableKeys} {names : LoadedNames} {call : Option TableCall}
  {taken returned : List UInt32}

/-- A database that has the same records is in step with the table too. -/
theorem congr (tabled : Tabled db keys names call taken returned) {other : Db}
    (same : ∀ key, keys.Owns key → other.get .metadata key = db.get .metadata key) :
    Tabled other keys names call taken returned := by
  obtain ⟨⟨recorded, earlier, records, rest⟩, positive, distinct, resolved⟩ := tabled
  exact ⟨⟨recorded, earlier, records.congr same, rest⟩, positive, distinct, resolved⟩

/-- While no call has the lock the tables are inverse, and a found identifier can be returned. -/
theorem inverse (tabled : Tabled db keys names none taken returned) (name : String) (id : UInt32) :
    names.fwd name = some id ↔ names.rev id = some name := by
  obtain ⟨_, _, _, inverse, _⟩ := tabled.disk
  exact inverse.iff name id

/-- An identifier that was found is returned. -/
theorem found (tabled : Tabled db keys names none taken returned) {name : String} {id : UInt32}
    (known : names.fwd name = some id) : Tabled db keys names none taken (returned ++ [id]) := by
  refine ⟨tabled.disk, tabled.positive, tabled.distinct, fun other member => ?_⟩
  rcases List.mem_append.mp member with old | new
  · exact tabled.resolved other old
  · rw [List.mem_singleton.mp new, (tabled.inverse name id).mp known]
    rfl

/-- A call takes the next identifier for a name that has none. -/
theorem take (tabled : Tabled db keys names none taken returned) {name : String}
    (absent : names.fwd name = none) (room : names.next.toNat + 1 < 2 ^ 32) :
    Tabled db keys ⟨names.fwd, names.rev, names.next + 1⟩ (some (.taken name names.next))
      (taken ++ [names.next]) returned := by
  obtain ⟨⟨recorded, earlier, records, inverse, _⟩, positive, ⟨apart, below⟩, resolved⟩ := tabled
  have next : (names.next + 1).toNat = names.next.toNat + 1 := by
    rw [UInt32.toNat_add, UInt32.toNat_one, Nat.mod_eq_of_lt room]
  refine ⟨⟨recorded, ?_, records, inverse, absent, earlier, next, positive⟩, ?_, ⟨?_, ?_⟩, resolved⟩
  · simp only [next]
    omega
  · simp only [next]
    omega
  · refine List.nodup_append.mpr ⟨apart, by simp, fun id old other new same => ?_⟩
    have early := below id old
    rw [same, List.mem_singleton.mp new] at early
    exact absurd early (Nat.lt_irrefl _)
  · intro id member
    simp only [next]
    rcases List.mem_append.mp member with old | new
    · have early := below id old
      omega
    · rw [List.mem_singleton.mp new]
      omega

/-- A call checks that a name can be changed. -/
theorem check (tabled : Tabled db keys names none taken returned) {old new : String} {id : UInt32}
    (held : names.fwd old = some id) (absent : names.fwd new = none) :
    Tabled db keys names (some (.renaming old new id)) taken returned := by
  obtain ⟨⟨recorded, earlier, records, inverse, _⟩, positive, distinct, resolved⟩ := tabled
  exact ⟨⟨recorded, earlier, records, inverse, held, absent⟩, positive, distinct,
    resolved⟩

/-- A call whose records are not written leaves the tables as they were. -/
theorem fail (tabled : Tabled db keys names call taken returned)
    (unwritten : TableCall.settledFwd call names.fwd = names.fwd ∧
      TableCall.settledRev call names.rev = names.rev) :
    Tabled db keys names none taken returned := by
  obtain ⟨⟨recorded, earlier, records, inverse, _⟩, positive, distinct, resolved⟩ := tabled
  rw [unwritten.1, unwritten.2] at records inverse
  exact ⟨⟨recorded, earlier, records, inverse, trivial⟩, positive, distinct, resolved⟩

/-- A call writes the records of its name. -/
theorem record {name : String} {id : UInt32}
    (tabled : Tabled db keys names (some (.taken name id)) taken returned)
    (separate : keys.Separate) :
    Tabled (db.write (keys.records name id names.next)) keys names (some (.recorded name id)) taken
      returned := by
  obtain ⟨⟨recorded, earlier, records, inverse, absent, fresh, next, some_⟩, positive, distinct, resolved⟩ := tabled
  refine ⟨⟨names.next, le_refl _, records.add separate name id names.next,
    inverse.add absent some_ fresh ?_, absent⟩, positive, distinct, resolved⟩
  omega

/-- A call writes the records of a name that changes. -/
theorem change {old new : String} {id : UInt32}
    (tabled : Tabled db keys names (some (.renaming old new id)) taken returned)
    (separate : keys.Separate) :
    Tabled (db.write (keys.renames old new id)) keys names (some (.renamed old new id)) taken
      returned := by
  obtain ⟨⟨recorded, earlier, records, inverse, held, absent⟩, positive, distinct, resolved⟩ := tabled
  exact ⟨⟨recorded, earlier, records.rename separate old new id, inverse.rename held absent, held,
    absent⟩, positive, distinct, resolved⟩

/-- A call changes the tables in memory to those it will leave. -/
theorem move (tabled : Tabled db keys names call taken returned) {after : LoadedNames}
    {later : Option TableCall} {returned' : List UInt32}
    (fwd : TableCall.settledFwd later after.fwd = TableCall.settledFwd call names.fwd)
    (rev : TableCall.settledRev later after.rev = TableCall.settledRev call names.rev)
    (next : after.next = names.next)
    (knows : ∀ recorded, TableCall.Knows after.fwd after.next recorded later)
    (resolved : ∀ id ∈ returned', (after.rev id).isSome) :
    Tabled db keys after later taken returned' := by
  obtain ⟨⟨recorded, earlier, records, inverse, _⟩, positive, distinct, _⟩ := tabled
  refine ⟨⟨recorded, ?_, ?_, ?_, knows recorded⟩, ?_, ?_, resolved⟩
  · rwa [next]
  · rwa [fwd, rev]
  · rwa [fwd, rev]
  · rwa [next]
  · rwa [next]

/-- No identifier is that of two names, whatever call has the lock. -/
theorem single (tabled : Tabled db keys names call taken returned) {one two : String} {id : UInt32}
    (first : names.fwd one = some id) (second : names.fwd two = some id) : one = two := by
  obtain ⟨recorded, _, _, inverse, knows⟩ := tabled.disk
  have unique : ∀ left right key, TableCall.settledFwd call names.fwd left = some key →
      TableCall.settledFwd call names.fwd right = some key → left = right :=
    fun left right key found found' => Option.some.inj
      (((inverse.iff left key).mp found).symm.trans ((inverse.iff right key).mp found'))
  cases call with
  | none => exact unique one two id first second
  | some call =>
    cases call with
    | recorded name new =>
      -- The table has every name but the one that is recorded.
      have kept : ∀ other key, names.fwd other = some key →
          TableCall.settledFwd (some (.recorded name new)) names.fwd other = some key := by
        intro other key found
        refine (Function.update_of_ne (fun same => ?_) _ _).trans found
        rw [same, show names.fwd name = none from knows] at found
        cases found
      exact unique one two id (kept one id first) (kept two id second)
    | renamed old new changed =>
      obtain ⟨held, absent⟩ := knows
      -- The table has every name but the one that changes.
      have kept : ∀ other key, names.fwd other = some key → other ≠ old →
          TableCall.settledFwd (some (.renamed old new changed)) names.fwd other = some key := by
        intro other key found apart
        have fresh : other ≠ new := by
          rintro rfl
          rw [absent] at found
          cases found
        exact (Function.update_of_ne fresh _ _).trans ((Function.update_of_ne apart _ _).trans found)
      have target : TableCall.settledFwd (some (.renamed old new changed)) names.fwd new =
          some changed := Function.update_self _ _ _
      -- Another name of the identifier would be the new name.
      have alone : ∀ other, names.fwd other = some changed → other = old := by
        intro other found
        by_contra apart
        have same := unique other new changed (kept other changed found apart) target
        rw [same, absent] at found
        cases found
      by_cases own : one = old
      · subst own
        rw [Option.some.inj (held.symm.trans first)] at alone
        exact (alone two second).symm
      · by_cases own' : two = old
        · subst own'
          rw [Option.some.inj (held.symm.trans second)] at alone
          exact alone one first
        · exact unique one two id (kept one id first own) (kept two id second own')
    | _ => exact unique one two id first second

end Tabled

namespace TripleStore

variable {store : TripleStore}

/-- The tables of predicates. -/
def predicateNames (store : TripleStore) : LoadedNames := ⟨store.fwd, store.rev, store.nextPredId⟩

/-- The tables of graphs. -/
def graphNames (store : TripleStore) : LoadedNames :=
  ⟨fun iri => (store.graphFwd iri).map GraphId.raw, fun id => store.graphRev ⟨id⟩, store.nextGraphId⟩

/-- A version's predicate has a name, and so does its graph unless it is the default one. -/
def Resolves (store : TripleStore) (key : QuadKey) : Prop :=
  (store.rev key.p).isSome ∧ (key.g = GraphId.DEFAULT ∨ (store.graphRev key.g).isSome)

end TripleStore

namespace Interner

variable {state after : Interner}

/-- Everything holds together while calls are under way. -/
structure Sound (state : Interner) : Prop where
  /-- The tables of predicates are in step with the database. -/
  predicates : Tabled state.store.db .predicates state.store.predicateNames state.predicateCall
    state.taken state.returned
  /-- So are those of graphs. -/
  graphs : Tabled state.store.db .graphs state.store.graphNames state.graphCall
    (state.takenGraphs.map GraphId.raw) (state.returnedGraphs.map GraphId.raw)
  /-- The orders hold the same versions. -/
  holds : state.store.db.OrdersHold state.store.index
  /-- Every version can be named. -/
  quads : ∀ key bytes, state.store.index key = some bytes → state.store.Resolves key

/-- There are identifiers left for the names that a step takes one for. -/
def HasIdentifiers (state : Interner) : InternStep → Prop
  | .lockPredicate name => state.store.fwd name = none → state.store.nextPredId.toNat + 1 < 2 ^ 32
  | .lockGraph iri => state.store.graphFwd iri = none → state.store.nextGraphId.toNat + 1 < 2 ^ 32
  | _ => True

/-- Whether there are identifiers left can be computed. -/
instance (state : Interner) : DecidablePred state.HasIdentifiers
  | .lockPredicate name => inferInstanceAs
    (Decidable (state.store.fwd name = none → state.store.nextPredId.toNat + 1 < 2 ^ 32))
  | .lockGraph iri => inferInstanceAs
    (Decidable (state.store.graphFwd iri = none → state.store.nextGraphId.toNat + 1 < 2 ^ 32))
  | .setVocabulary .. | .internPredicate _ | .renamePredicate .. | .writePredicate _
  | .enterPredicate | .returnPredicate | .internGraph _ | .writeGraph _ | .enterGraph | .returnGraph
  | .writeQuad _ => isTrue trivial

/-- A batch for other families than the orders leaves the versions. -/
theorem Sound.write (sound : state.Sound) {batch : WriteBatch}
    (families : ∀ op ∈ batch, ∀ order, Cf.quads order ≠ op.cf) :
    (state.store.dbWrite batch).index = state.store.index ∧
      (state.store.dbWrite batch).db.OrdersHold (state.store.dbWrite batch).index := by
  have orders : (state.store.db.write batch).OrdersHold state.store.index := fun order =>
    (sound.holds order).write_other families
  have index : (state.store.dbWrite batch).index = state.store.index := Db.OrdersHold.index_eq orders
  refine ⟨index, ?_⟩
  rw [index]
  exact orders

/-- The records of one table leave the keys of another as they are. -/
theorem get_records_apart {keys other : TableKeys}
    (apart : ∀ key, other.Owns key → ¬ keys.Owns key) (db : Db) {key : Bytes} (own : other.Owns key)
    {batch : WriteBatch} (records : ∀ op ∈ batch, (∃ name, keys.Owns name ∧ ((∃ value,
      op = .put .metadata name value) ∨ op = .delete .metadata name)) ∨ op.cf ≠ .metadata) :
    (db.write batch).get .metadata key = db.get .metadata key := by
  refine Db.get_write_apart fun op member held => ?_
  rcases records op member with ⟨name, theirs, kind⟩ | elsewhere
  · have differs : key ≠ name := by
      rintro rfl
      exact apart key own theirs
    rcases kind with ⟨value, rfl⟩ | rfl <;> simp [WriteOp.cell, differs]
  · cases op <;> simp only [WriteOp.cf, ne_eq] at elsewhere <;> simp [WriteOp.cell, Ne.symm elsewhere]

/-- The keys of a table's records are its own. -/
theorem records_own (keys : TableKeys) (name : String) (id next : UInt32) :
    ∀ op ∈ keys.records name id next, (∃ key, keys.Owns key ∧ ((∃ value,
      op = .put .metadata key value) ∨ op = .delete .metadata key)) ∨ op.cf ≠ .metadata := by
  intro op member
  simp only [TableKeys.records, List.mem_cons, List.not_mem_nil, or_false] at member
  rcases member with rfl | rfl | rfl
  · exact Or.inl ⟨_, keys.owns_start _, Or.inl ⟨_, rfl⟩⟩
  · exact Or.inl ⟨_, keys.owns_reverse _, Or.inl ⟨_, rfl⟩⟩
  · exact Or.inl ⟨_, keys.owns_counter, Or.inl ⟨_, rfl⟩⟩

/-- So are those of a name that changes. -/
theorem renames_own (keys : TableKeys) (old new : String) (id : UInt32) :
    ∀ op ∈ keys.renames old new id, (∃ key, keys.Owns key ∧ ((∃ value,
      op = .put .metadata key value) ∨ op = .delete .metadata key)) ∨ op.cf ≠ .metadata := by
  intro op member
  simp only [TableKeys.renames, List.mem_cons, List.not_mem_nil, or_false] at member
  rcases member with rfl | rfl | rfl
  · exact Or.inl ⟨_, keys.owns_start _, Or.inr rfl⟩
  · exact Or.inl ⟨_, keys.owns_start _, Or.inl ⟨_, rfl⟩⟩
  · exact Or.inl ⟨_, keys.owns_reverse _, Or.inl ⟨_, rfl⟩⟩

/-- Looking a predicate up keeps everything together. -/
theorem Sound.internPredicate (sound : state.Sound) (free : state.predicateCall = none)
    (pred : String) : (state.internPredicate pred).Sound := by
  have tabled := sound.predicates
  rw [free] at tabled
  unfold Interner.internPredicate
  dsimp only
  split
  · rename_i id known
    refine ⟨?_, sound.graphs, sound.holds, sound.quads⟩
    simp only [free]
    exact tabled.found known
  · exact ⟨sound.predicates, sound.graphs, sound.holds, sound.quads⟩

/-- Taking an identifier for a predicate keeps everything together while there are some left. -/
theorem Sound.lockPredicate (sound : state.Sound) (free : state.predicateCall = none)
    {name : String} (room : state.HasIdentifiers (.lockPredicate name)) :
    (state.lockPredicate name).Sound := by
  have tabled := sound.predicates
  rw [free] at tabled
  unfold Interner.lockPredicate
  dsimp only
  split
  · rename_i id known
    refine ⟨?_, sound.graphs, sound.holds, sound.quads⟩
    simp only [free]
    exact tabled.found known
  · rename_i absent
    exact ⟨tabled.take absent (room absent), sound.graphs, sound.holds, sound.quads⟩

/-- Checking a renaming keeps everything together. -/
theorem Sound.renamePredicate (sound : state.Sound) (free : state.predicateCall = none)
    (old new : String) : (state.renamePredicate debug old new).Sound := by
  have tabled := sound.predicates
  rw [free] at tabled
  unfold Interner.renamePredicate
  split
  · exact ⟨sound.predicates, sound.graphs, sound.holds, sound.quads⟩
  · rename_i id held
    split_ifs with taken
    · exact ⟨sound.predicates, sound.graphs, sound.holds, sound.quads⟩
    · have absent : state.store.fwd new = none := by simpa using taken
      exact ⟨tabled.check held absent, sound.graphs, sound.holds, sound.quads⟩

/-- Writing the records of a call on predicates keeps everything together, as does failing to. -/
theorem Sound.writePredicate (sound : state.Sound) {succeeds : Bool}
    (taken : state.writePredicate succeeds = some after) : after.Sound := by
  have tabled := sound.predicates
  have apart : ∀ key, TableKeys.graphs.Owns key → ¬ TableKeys.predicates.Owns key :=
    fun _ => TableKeys.not_owns_of_owns.2
  unfold Interner.writePredicate at taken
  split at taken
  · rename_i name id call
    rw [call] at tabled
    split_ifs at taken with done
    · cases taken
      obtain ⟨index, holds⟩ := @Sound.write state sound
        (predicateRecords name id state.store.nextPredId) (by simp [predicateRecords, WriteOp.cf])
      refine ⟨tabled.record TableKeys.predicates_separate, ?_, holds, fun key bytes found => ?_⟩
      · exact sound.graphs.congr fun key own => get_records_apart apart _ own
          (records_own .predicates name id state.store.nextPredId)
      · rw [index] at found
        exact sound.quads key bytes found
    · cases taken
      exact ⟨tabled.fail ⟨rfl, rfl⟩, sound.graphs, sound.holds, sound.quads⟩
  · rename_i old new id call
    rw [call] at tabled
    split_ifs at taken with done
    · cases taken
      obtain ⟨index, holds⟩ := @Sound.write state sound (renameRecords old new id)
        (by simp [renameRecords, WriteOp.cf])
      refine ⟨tabled.change TableKeys.predicates_separate, ?_, holds, fun key bytes found => ?_⟩
      · exact sound.graphs.congr fun key own => get_records_apart apart _ own
          (renames_own .predicates old new id)
      · rw [index] at found
        exact sound.quads key bytes found
    · cases taken
      exact ⟨tabled.fail ⟨rfl, rfl⟩, sound.graphs, sound.holds, sound.quads⟩
  · cases taken

/-- Changing the forward table of predicates keeps everything together. -/
theorem Sound.enterPredicate (sound : state.Sound) (taken : state.enterPredicate = some after) :
    after.Sound := by
  have tabled := sound.predicates
  unfold Interner.enterPredicate at taken
  split at taken
  · rename_i name id call
    cases taken
    rw [call] at tabled
    exact ⟨tabled.move rfl rfl rfl (fun _ => trivial) tabled.resolved, sound.graphs, sound.holds,
      sound.quads⟩
  · rename_i old new id call
    cases taken
    rw [call] at tabled
    exact ⟨tabled.move rfl rfl rfl (fun _ => trivial) tabled.resolved, sound.graphs, sound.holds,
      sound.quads⟩
  · cases taken

/-- An identifier that leads to a name still does after another name is entered. -/
theorem isSome_update {rev : UInt32 → Option String} {id key : UInt32} {name : String}
    (before : (rev key).isSome) : (Function.update rev id (some name) key).isSome := by
  rw [Function.update_apply]
  split_ifs
  · rfl
  · exact before

/-- Changing the reverse table of predicates keeps everything together. -/
theorem Sound.returnPredicate (sound : state.Sound) (taken : state.returnPredicate = some after) :
    after.Sound := by
  have tabled := sound.predicates
  unfold Interner.returnPredicate at taken
  split at taken
  · rename_i name id call
    cases taken
    rw [call] at tabled
    refine ⟨tabled.move rfl rfl rfl (fun _ => trivial) fun key member => ?_, sound.graphs, sound.holds,
      fun key bytes found => (sound.quads key bytes found).imp_left isSome_update⟩
    rcases List.mem_append.mp member with old | new
    · exact isSome_update (tabled.resolved key old)
    · rw [List.mem_singleton.mp new]
      simp [TripleStore.predicateNames]
  · rename_i new id call
    cases taken
    rw [call] at tabled
    exact ⟨tabled.move rfl rfl rfl (fun _ => trivial)
      fun key member => isSome_update (tabled.resolved key member), sound.graphs, sound.holds,
      fun key bytes found => (sound.quads key bytes found).imp_left isSome_update⟩
  · cases taken

/-- Looking a graph up keeps everything together. -/
theorem Sound.internGraph (sound : state.Sound) (free : state.graphCall = none) (iri : String) :
    (state.internGraph iri).Sound := by
  have tabled := sound.graphs
  rw [free] at tabled
  unfold Interner.internGraph
  split_ifs with blank
  · exact ⟨sound.predicates, sound.graphs, sound.holds, sound.quads⟩
  · split
    · rename_i id known
      refine ⟨sound.predicates, ?_, sound.holds, sound.quads⟩
      have named : state.store.graphNames.fwd iri = some id.raw := by
        simp [TripleStore.graphNames, known]
      simp only [free, List.map_append, List.map_cons, List.map_nil]
      exact tabled.found named
    · exact ⟨sound.predicates, sound.graphs, sound.holds, sound.quads⟩

/-- Taking an identifier for a graph keeps everything together while there are some left. -/
theorem Sound.lockGraph (sound : state.Sound) (free : state.graphCall = none) {iri : String}
    (room : state.HasIdentifiers (.lockGraph iri)) : (state.lockGraph iri).Sound := by
  have tabled := sound.graphs
  rw [free] at tabled
  unfold Interner.lockGraph
  dsimp only
  split
  · rename_i id known
    refine ⟨sound.predicates, ?_, sound.holds, sound.quads⟩
    have named : state.store.graphNames.fwd iri = some id.raw := by
      simp [TripleStore.graphNames, known]
    simp only [free, List.map_append, List.map_cons, List.map_nil]
    exact tabled.found named
  · rename_i absent
    have unnamed : state.store.graphNames.fwd iri = none := by
      simp [TripleStore.graphNames, absent]
    refine ⟨sound.predicates, ?_, sound.holds, sound.quads⟩
    simp only [List.map_append, List.map_cons, List.map_nil]
    exact tabled.take unnamed (room absent)

/-- Writing the records of a call on graphs keeps everything together, as does failing to. -/
theorem Sound.writeGraph (sound : state.Sound) {succeeds : Bool}
    (taken : state.writeGraph ext succeeds = some after) : after.Sound := by
  have tabled := sound.graphs
  have apart : ∀ key, TableKeys.predicates.Owns key → ¬ TableKeys.graphs.Owns key :=
    fun _ => TableKeys.not_owns_of_owns.1
  unfold Interner.writeGraph at taken
  split at taken
  · rename_i iri id call
    rw [call] at tabled
    split at taken
    · cases taken
      exact ⟨sound.predicates, tabled.fail ⟨rfl, rfl⟩, sound.holds, sound.quads⟩
    · rename_i batch pending built
      obtain ⟨entry, rfl, dictionary⟩ := TripleStore.batchIri_cf built
      split_ifs at taken with done
      · cases taken
        -- The dictionary is none of the tables.
        have families : ∀ op ∈ graphRecords iri ⟨id⟩ state.store.nextGraphId ++ entry, ∀ order,
            Cf.quads order ≠ op.cf := by
          intro op member order
          rcases List.mem_append.mp member with record | other
          · simp only [graphRecords, List.mem_cons, List.not_mem_nil, or_false] at record
            rcases record with rfl | rfl | rfl <;> simp [WriteOp.cf]
          · simp [dictionary op other]
        have elsewhere : ∀ db : Db, ∀ key, (db.write entry).get .metadata key = db.get .metadata key :=
          fun db key => by
            rw [Db.get, Db.get, db.family_write_of_forall_ne fun op member => by
              simp [dictionary op member]]
        obtain ⟨index, holds⟩ := sound.write families
        refine ⟨?_, ?_, holds, fun key bytes found => ?_⟩
        · refine sound.predicates.congr fun key own => ?_
          simp only [TripleStore.dbWrite, Db.write_append, elsewhere]
          exact get_records_apart apart _ own (records_own .graphs iri id state.store.nextGraphId)
        · refine (tabled.record TableKeys.graphs_separate).congr fun key _ => ?_
          simp only [TripleStore.dbWrite, Db.write_append, elsewhere]
          rfl
        · rw [index] at found
          exact sound.quads key bytes found
      · cases taken
        exact ⟨sound.predicates, tabled.fail ⟨rfl, rfl⟩, sound.holds, sound.quads⟩
  · cases taken

/-- Changing the forward table of graphs keeps everything together. -/
theorem Sound.enterGraph (sound : state.Sound) (taken : state.enterGraph = some after) :
    after.Sound := by
  have tabled := sound.graphs
  unfold Interner.enterGraph at taken
  split at taken
  · rename_i iri id call
    cases taken
    rw [call] at tabled
    refine ⟨sound.predicates, tabled.move ?_ rfl rfl (fun _ => trivial) tabled.resolved, sound.holds,
      sound.quads⟩
    funext other
    simp only [TableCall.settledFwd, TripleStore.graphNames, Function.update_apply]
    split_ifs <;> rfl
  · cases taken

/-- Changing the reverse table of graphs keeps everything together. -/
theorem Sound.returnGraph (sound : state.Sound) (taken : state.returnGraph = some after) :
    after.Sound := by
  have tabled := sound.graphs
  unfold Interner.returnGraph at taken
  split at taken
  · rename_i iri id call
    cases taken
    rw [call] at tabled
    have kept : ∀ g : GraphId, (state.store.graphRev g).isSome →
        (Function.update state.store.graphRev ⟨id⟩ (some iri) g).isSome := by
      intro g before
      rw [Function.update_apply]
      split_ifs
      · rfl
      · exact before
    refine ⟨sound.predicates, tabled.move rfl ?_ rfl (fun _ => trivial) fun key member => ?_,
      sound.holds, fun key bytes found => (sound.quads key bytes found).imp_right fun graph =>
        graph.imp_right (kept key.g)⟩
    · funext other
      simp only [TableCall.settledRev, TripleStore.graphNames, Function.update_apply, GraphId.mk.injEq]
    · simp only [List.map_append, List.map_cons, List.map_nil] at member
      rcases List.mem_append.mp member with old | new
      · exact kept ⟨key⟩ (tabled.resolved key old)
      · rw [List.mem_singleton.mp new]
        simp [TripleStore.graphNames]
  · cases taken

/-- Writing a version whose identifiers were returned keeps everything together. -/
theorem Sound.writeQuad (sound : state.Sound) {quad : StagedQuad}
    (predicate : quad.key.p ∈ state.returned)
    (graph : quad.key.g = GraphId.DEFAULT ∨ quad.key.g ∈ state.returnedGraphs) :
    Sound { state with store := state.store.dbWrite (batchQuad quad) } := by
  have elsewhere : ∀ key, (state.store.db.write (batchQuad quad)).get .metadata key =
      state.store.db.get .metadata key := fun key => by
    rw [Db.get, Db.get, Db.family_write_of_forall_ne _ fun op member => ?_]
    obtain ⟨order, _, rfl⟩ := List.mem_map.mp member
    simp [WriteOp.cf]
  have orders : (state.store.db.write (batchQuad quad)).OrdersHold (state.store.index.put quad) :=
    fun order => (sound.holds order).batchQuad quad
  have index : (state.store.dbWrite (batchQuad quad)).index = state.store.index.put quad :=
    Db.OrdersHold.index_eq orders
  refine ⟨sound.predicates.congr fun key _ => elsewhere key,
    sound.graphs.congr fun key _ => elsewhere key, ?_, fun key bytes found => ?_⟩
  · simp only [index]
    exact orders
  · simp only [index] at found
    by_cases own : key = quad.key
    · rw [own]
      refine ⟨sound.predicates.resolved _ predicate, graph.imp_right fun member => ?_⟩
      exact sound.graphs.resolved quad.key.g.raw (List.mem_map_of_mem member)
    · rw [Index.put, Function.update_of_ne own] at found
      exact sound.quads key bytes found

/-- Every step for which there are identifiers left keeps everything together. -/
theorem Sound.next (sound : state.Sound) {step : InternStep} (room : state.HasIdentifiers step)
    (taken : state.next ext debug step = some after) : after.Sound := by
  cases step with
  | setVocabulary vocabulary canonical =>
    cases taken
    exact ⟨sound.predicates, sound.graphs, sound.holds, sound.quads⟩
  | internPredicate pred =>
    simp only [Interner.next, Option.isSome_iff_ne_none] at taken
    split_ifs at taken with free
    cases taken
    exact sound.internPredicate (not_not.mp free) pred
  | lockPredicate name =>
    simp only [Interner.next, Option.isSome_iff_ne_none] at taken
    split_ifs at taken with busy
    cases taken
    exact sound.lockPredicate (not_not.mp fun held => busy (Or.inl held)) room
  | renamePredicate old new =>
    simp only [Interner.next, Option.isSome_iff_ne_none] at taken
    split_ifs at taken with free
    cases taken
    exact sound.renamePredicate (not_not.mp free) old new
  | writePredicate succeeds => exact sound.writePredicate taken
  | enterPredicate => exact sound.enterPredicate taken
  | returnPredicate => exact sound.returnPredicate taken
  | internGraph iri =>
    simp only [Interner.next, Option.isSome_iff_ne_none] at taken
    split_ifs at taken with free
    cases taken
    exact sound.internGraph (not_not.mp free) iri
  | lockGraph iri =>
    simp only [Interner.next, Option.isSome_iff_ne_none] at taken
    split_ifs at taken with busy
    cases taken
    exact sound.lockGraph (not_not.mp fun held => busy (Or.inl held)) room
  | writeGraph succeeds => exact sound.writeGraph taken
  | enterGraph => exact sound.enterGraph taken
  | returnGraph => exact sound.returnGraph taken
  | writeQuad quad =>
    simp only [Interner.next] at taken
    split_ifs at taken with returned
    cases taken
    exact sound.writeQuad returned.1 returned.2

/-- A new table is in step with a database that records nothing of it. -/
theorem tabled_empty {db : Db} {keys : TableKeys}
    (blank : ∀ key, keys.Owns key → db.get .metadata key = none) :
    Tabled db keys ⟨fun _ => none, fun _ => none, 1⟩ none [] [] := by
  refine ⟨⟨1, le_refl _, ⟨fun name => blank _ (keys.owns_start _), fun key value found under => ?_,
    fun id => blank _ (keys.owns_reverse _), ?_⟩,
    ⟨fun _ _ => ⟨fun held => (by cases held), fun held => by cases held⟩, fun _ _ held => by cases held⟩,
    trivial⟩, by decide, ⟨List.nodup_nil, fun _ member => by cases member⟩, fun _ member => by cases member⟩
  · rw [blank key ⟨keys.start, by simp [TableKeys.heads], under⟩] at found
    cases found
  · rw [Db.loadCounter, blank _ keys.owns_counter]

/-- In a new store everything holds together. -/
theorem sound_start (inlineMax : Nat) (vocabulary : Vocabulary) (canonical : Bool) :
    (start (.configured inlineMax vocabulary canonical)).Sound := by
  have blank := TripleStore.index_configured inlineMax vocabulary canonical
  -- What a new store records is no table.
  have unowned : ∀ keys ∈ [TableKeys.predicates, TableKeys.graphs], ∀ head ∈ keys.heads,
      ¬ head <+: META_STORAGE_FORMAT ∧ ¬ head <+: META_CHANGES_FLOOR := by decide +kernel
  have absent : ∀ keys ∈ [TableKeys.predicates, TableKeys.graphs], ∀ key, keys.Owns key →
      (TripleStore.configured inlineMax vocabulary canonical).db.get .metadata key = none := by
    rintro keys member key ⟨head, inside, under⟩
    obtain ⟨format, floor⟩ := unowned keys member head inside
    refine (Db.get_write_apart fun op written held => ?_).trans rfl
    simp only [List.mem_cons, List.not_mem_nil, or_false] at written
    rcases written with rfl | rfl
    · have differs : key ≠ META_STORAGE_FORMAT := fun same => format (same ▸ under)
      simp [WriteOp.cell, differs]
    · have differs : key ≠ META_CHANGES_FLOOR := fun same => floor (same ▸ under)
      simp [WriteOp.cell, differs]
  refine ⟨tabled_empty (absent _ (by simp)), tabled_empty (absent _ (by simp)), ?_,
    fun key bytes found => ?_⟩
  · rw [start, blank]
    exact TripleStore.configured_orders inlineMax vocabulary canonical
  · rw [start, blank] at found
    cases found

/-- A call that is left alone interns a new predicate as if in one step. -/
theorem runs_internPredicate (free : state.predicateCall = none) (idle : state.waiting = [])
    {pred : String} (absent : state.store.fwd (state.store.canonicalName pred) = none) :
    Runs (next ext debug) (fun _ _ => True) state { state with
      store := (state.store.internPredicate pred).1
      returned := state.returned ++ [(state.store.internPredicate pred).2]
      taken := state.taken ++ [(state.store.internPredicate pred).2] } := by
  refine @Runs.of_stepAll _ _ _ _ _ [.internPredicate pred,
    .lockPredicate (state.store.canonicalName pred), .writePredicate true, .enterPredicate,
    .returnPredicate] _ _ ?_
  obtain ⟨store, byNode, waiting, call, waiting', call', returned, returned', taken, taken', refused⟩ :=
    state
  simp only at free idle absent
  subst free idle
  simp [Runs.stepAll, next, internPredicate, lockPredicate, writePredicate, enterPredicate,
    returnPredicate, absent, TripleStore.internPredicate,
    TripleStore.dbWrite, predicateRecords]

/-- A call whose write fails leaves only the identifier it took behind. -/
theorem runs_failing (free : state.predicateCall = none) (idle : state.waiting = [])
    {pred : String} (absent : state.store.fwd (state.store.canonicalName pred) = none) :
    Runs (next ext debug) (fun _ _ => True) state { state with
      store := { state.store with nextPredId := state.store.nextPredId + 1 }
      taken := state.taken ++ [state.store.nextPredId] } := by
  refine @Runs.of_stepAll _ _ _ _ _ [.internPredicate pred,
    .lockPredicate (state.store.canonicalName pred), .writePredicate false] _ _ ?_
  obtain ⟨store, byNode, waiting, call, waiting', call', returned, returned', taken, taken', refused⟩ :=
    state
  simp only at free idle absent
  subst free idle
  simp [Runs.stepAll, next, internPredicate, lockPredicate, writePredicate, absent]

/-- Any number of calls whose writes fail move the next identifier on. -/
theorem runs_failing_times (free : state.predicateCall = none) (idle : state.waiting = [])
    {pred : String} (absent : state.store.fwd (state.store.canonicalName pred) = none) (n : Nat) :
    ∃ taken, Runs (next ext debug) (fun _ _ => True) state { state with
      store := { state.store with nextPredId := state.store.nextPredId + UInt32.ofNat n }
      taken := taken } := by
  induction n with
  | zero => exact ⟨state.taken, by simpa using Runs.done state⟩
  | succ n ih =>
    obtain ⟨taken, run⟩ := ih
    have next := @runs_failing ext debug { state with
      store := { state.store with nextPredId := state.store.nextPredId + UInt32.ofNat n }
      taken := taken } free idle pred absent
    have one : state.store.nextPredId + UInt32.ofNat (n + 1) =
        state.store.nextPredId + UInt32.ofNat n + 1 := by
      rw [UInt32.ofNat_add, UInt32.add_assoc]
      rfl
    rw [one]
    exact ⟨_, run.trans next⟩

/-- Tables that are inverse while no call has their lock, and are loaded as they are. -/
structure TableHolds (names : LoadedNames) (call : Option TableCall) (taken : List UInt32)
    (load : (Bytes → String) → Except StorageError LoadedNames) : Prop where
  /-- While no call has the lock the two directions are inverse. -/
  inverse : call = none → ∀ name id, names.fwd name = some id ↔ names.rev id = some name
  /-- At any time an identifier is that of one name at most. -/
  single : ∀ one two id, names.fwd one = some id → names.fwd two = some id → one = two
  /-- No identifier is taken twice. -/
  distinct : taken.Nodup
  /-- What the database records is loaded as inverse tables, whose next identifier is above all. -/
  loads : ∀ utf8Error, ∃ loaded, load utf8Error = .ok loaded ∧ loaded.Inverse ∧
    -- While no call has the lock these are the tables in memory.
    (call = none → loaded.fwd = names.fwd ∧ loaded.rev = names.rev)

/-- The tables of names are inverse and persistent. -/
structure Consistent (state : Interner) : Prop where
  /-- Those of predicates. -/
  predicates : TableHolds state.store.predicateNames state.predicateCall state.taken
    state.store.db.loadPredicates
  /-- Those of graphs. -/
  graphs : TableHolds state.store.graphNames state.graphCall
    (state.takenGraphs.map GraphId.raw) state.store.db.loadGraphs
  /-- The identifiers of every stored version have names. -/
  resolves : ∀ key bytes, state.store.index key = some bytes → state.store.Resolves key

/-- Tables that are in step with the database hold. -/
theorem tableHolds_of_tabled {db : Db} {keys : TableKeys} {names : LoadedNames}
    {call : Option TableCall} {taken returned : List UInt32}
    (tabled : Tabled db keys names call taken returned) (bad : String → String) :
    TableHolds names call taken fun utf8Error =>
      db.loadNames utf8Error keys.start bad keys.counter := by
  refine ⟨fun free => ?_, fun one two id => tabled.single, tabled.distinct.1, fun utf8Error => ?_⟩
  · subst free
    exact tabled.inverse
  · obtain ⟨recorded, _, records, inverse, _⟩ := tabled.disk
    refine ⟨_, records.loadNames inverse utf8Error bad, inverse, fun free => ?_⟩
    subst free
    exact ⟨rfl, rfl⟩

/-- In every state of a run with identifiers left the tables are inverse and persistent. -/
theorem consistent_of_run {inlineMax : Nat} {vocabulary : Vocabulary} {canonical : Bool}
    (run : Runs (next ext debug) HasIdentifiers (start (.configured inlineMax vocabulary canonical))
      state) : state.Consistent := by
  have sound : state.Sound := run.invariant
    (fun _ _ _ sound room taken => sound.next room taken) (sound_start inlineMax vocabulary canonical)
  exact ⟨tableHolds_of_tabled sound.predicates _, tableHolds_of_tabled sound.graphs _, sound.quads⟩

/-- A new store with the default vocabulary. -/
def unused : Interner := start (.configured DEFAULT_INLINE_VALUE_MAX_BYTES Vocabulary.default true)

/-- A renamed predicate beside a graph, with a failed write between, leaves the tables consistent. -/
theorem consistent_renamed : ∃ state : Interner, state.store.fwd "urn:b" = some 1 ∧
    state.store.graphFwd "urn:g" = some ⟨2⟩ ∧ state.Consistent := by
  have done : (Runs.stepAll (next External.unreached id) HasIdentifiers unused
      [.internPredicate "urn:a", .lockPredicate "urn:a", .internGraph "urn:g", .lockGraph "urn:g",
        .writePredicate true, .writeGraph false, .enterPredicate, .returnPredicate,
        .internGraph "urn:g", .renamePredicate "urn:a" "urn:b", .lockGraph "urn:g",
        .writeGraph true, .writePredicate true, .enterGraph, .enterPredicate, .returnGraph,
        .returnPredicate]).map
      (fun state => (state.store.fwd "urn:b", state.store.graphFwd "urn:g")) =
        some (some 1, some ⟨2⟩) := by decide +kernel
  obtain ⟨state, taken, named⟩ := Option.map_eq_some_iff.mp done
  obtain ⟨predicate, graph⟩ := Prod.mk.inj named
  exact ⟨state, predicate, graph, consistent_of_run (Runs.of_stepAll taken)⟩

/-- The store when one predicate was interned and the next identifier has gone round. -/
def wrapped : TripleStore :=
  { (unused.store.internPredicate "urn:a").1 with
    nextPredId := (unused.store.internPredicate "urn:a").1.nextPredId + UInt32.ofNat (2 ^ 32 - 1) }

/-- After enough failed writes an identifier is given to a second name. -/
theorem identifier_reused : ∃ state,
    Runs (next External.unreached id) (fun _ _ => True) unused state ∧ ¬ state.Consistent := by
  have first := @runs_internPredicate External.unreached id unused rfl rfl "urn:a" rfl
  obtain ⟨taken, failing⟩ := @runs_failing_times External.unreached id
    { unused with
      store := (unused.store.internPredicate "urn:a").1
      returned := unused.returned ++ [(unused.store.internPredicate "urn:a").2]
      taken := unused.taken ++ [(unused.store.internPredicate "urn:a").2] } rfl rfl "urn:b"
    (by decide +kernel) (2 ^ 32 - 1)
  -- The counter has gone round to the identifier of the first name.
  have absent : wrapped.fwd (wrapped.canonicalName "urn:c") = none := by decide +kernel
  have one : (wrapped.internPredicate "urn:c").1.fwd "urn:a" = some 1 := by decide +kernel
  have two : (wrapped.internPredicate "urn:c").1.fwd "urn:c" = some 1 := by decide +kernel
  have second := @runs_internPredicate External.unreached id
    { unused with
      store := wrapped
      returned := unused.returned ++ [(unused.store.internPredicate "urn:a").2]
      taken := taken } rfl rfl "urn:c" absent
  refine ⟨_, (first.trans failing).trans second, fun consistent => ?_⟩
  have same := consistent.predicates.single "urn:a" "urn:c" 1 one two
  exact absurd same (by decide)

end Interner

end Polargraph
