import Polargraph.Proofs.Storage.Lineage
import Polargraph.Proofs.Storage.Recorded

/-! Committed history is immutable, as long as no commit overwrites an out-of-line value. -/

namespace Polargraph

variable {ext : External}

/-- A triple under another predicate name. -/
def Triple.under (name : String) : Triple → Triple
  | .relation subject _ object edgeId window => .relation subject name object edgeId window
  | .property subject _ value window => .property subject name value window
  | .edgeProperty edge _ value window => .edgeProperty edge name value window
  | .edgeRelation edge _ object window => .edgeRelation edge name object window

/-- A step that adds to a store or changes what is added next. -/
inductive Growth where
  /-- A transaction commits, or fails to. -/
  | commit (tx : Transaction) (wall : Timestamp)
  /-- A graph IRI is interned, or refused. -/
  | internGraph (iri : String)
  /-- The inline threshold is set. -/
  | setInlineValueMaxBytes (n : Nat)

namespace TripleStore

variable {store middle after later : TripleStore}

/-- The store after a step. -/
def grow (ext : External) (store : TripleStore) : Growth → Option TripleStore
  | .commit tx wall => some (store.commit ext tx wall).1
  | .internGraph iri =>
    match store.internGraph ext iri with
    | .ok (after, _) => some after
    | .error _ => some store
  | .setInlineValueMaxBytes n => some (store.setInlineValueMaxBytes n)

/--
A transaction overwrites no out-of-line value with another.

Its own values read back from their encodings, and there are identifiers and times left for it.
-/
structure OverwritesNone (ext : External) (store : TripleStore) (tx : Transaction) : Prop where
  /-- Under the hash of a value that is put out of line, no other value is stored. -/
  stored : ∀ w ∈ tx.writes, ∀ value, store.PutsOut ext w value →
    ∀ held, store.loadBlob ext (valueObject ext value) = .ok held → held = value
  /-- Nor does the transaction put another one there. -/
  together : ∀ left ∈ tx.writes, ∀ right ∈ tx.writes, ∀ value other, store.PutsOut ext left value →
    store.PutsOut ext right other → valueObject ext value = valueObject ext other → value = other
  /-- Every value reads back as itself. -/
  stable : ∀ w ∈ tx.writes, w.Stable ext
  /-- The counter has not run out. -/
  room : store.committed ≠ Timestamp.END_OF_TIME
  /-- Nor have the predicate identifiers. -/
  names : store.nextPredId.toNat + tx.writes.length < 2 ^ 32

/-- Steps that overwrite no out-of-line value with another. -/
def Preserving (ext : External) (store : TripleStore) : Growth → Prop
  | .commit tx _ => store.OverwritesNone ext tx
  | .internGraph _ | .setInlineValueMaxBytes _ => True

/-- A store from which everything reads back, and whose predicates are named one way. -/
structure Durable (ext : External) (store : TripleStore) : Prop where
  /-- What is stored reads back as triples of its own quads. -/
  sound : store.Sound ext
  /-- What is stored can be rebuilt. -/
  stored : store.Rebuildable ext
  /-- The predicate of every version has a name. -/
  named : ∀ key bytes, store.index key = some bytes → (store.rev key.p).isSome
  /-- Predicate identifiers are handed out in order. -/
  numbered : store.Numbered
  /-- Every known name is spelled by its identifier. -/
  spelled : store.Spelled

/-- A new store is durable. -/
theorem durable_configured (ext : External) (inlineMax : Nat) (vocabulary : Vocabulary)
    (canonical : Bool) : (configured inlineMax vocabulary canonical).Durable ext := by
  obtain ⟨sound, stored, _, named⟩ := intact_configured ext inlineMax vocabulary canonical
  refine ⟨sound, stored, named, fun p name found => ?_, fun name p found => ?_⟩
  · cases found
  · cases found

/-- A commit of values that read back keeps a store durable. -/
theorem Durable.commit (durable : store.Durable ext) {tx : Transaction}
    (safe : store.OverwritesNone ext tx) (wall : Timestamp) :
    (store.commit ext tx wall).1.Durable ext := by
  obtain ⟨sound, stored, named, numbered, spelled⟩ := durable
  have holds := sound.keyed.holds
  have readsBack : ∀ w ∈ tx.writes, w.ReadsBack ext :=
    fun w member => readsBack_of_stable (safe.stable w member)
  have logs := stored.logs holds readsBack wall
  refine ⟨sound.commit safe.room tx safe.stable wall, stored.commit holds readsBack wall,
    fun key bytes found => ?_, (keepsNames_commit numbered safe.names wall).numbered,
    spelled.commit numbered safe.names wall⟩
  rw [@index_commit ext _ holds] at found
  rcases Index.putAll_eq_some found with old | new
  · exact logs.names _ (named key bytes old)
  · exact (logs.quads _ new).2

/-- What loads from a store still loads after a commit that overwrites no value with another. -/
theorem Durable.loadBlob_commit (durable : store.Durable ext) {tx : Transaction}
    (safe : store.OverwritesNone ext tx) (wall : Timestamp) {node : NodeId} {held : Value}
    (loaded : store.loadBlob ext node = .ok held) :
    (store.commit ext tx wall).1.loadBlob ext node = .ok held :=
  TripleStore.loadBlob_commit durable.sound.keyed.holds durable.stored.resolves safe.stable
    safe.stored wall loaded

/-- A value that a commit puts out of line loads as itself. -/
theorem Durable.loadBlob_put (durable : store.Durable ext) {tx : Transaction}
    (safe : store.OverwritesNone ext tx) {wall : Timestamp} {w : PendingWrite}
    (member : w ∈ tx.writes) {value : Value} (puts : store.PutsOut ext w value)
    (put : ((store.commit ext tx wall).1.db.get .blob
      (valueObject ext value).uuid.bytes).isSome) :
    (store.commit ext tx wall).1.loadBlob ext (valueObject ext value) = .ok value :=
  TripleStore.loadBlob_put durable.sound.keyed.holds durable.stored safe.stable
    (safe.stored w member value puts)
    (fun other within read own => safe.together w member other within value read puts own) put

/-- A triple says what a transaction wrote of a quad, or what it closed of it. -/
def Written (ext : External) (store after : TripleStore) (tx : Transaction) (ids : QuadIds)
    (triple : Triple) : Prop :=
  (∃ w ∈ tx.writes, after.quadOf ext w = some ids ∧ ∃ window,
    triple = (w.triple.under (after.canonicalName w.triple.predicate)).during window) ∨
  ∃ tt bytes before window, store.index ⟨ids, tt⟩ = some bytes ∧
    store.reconstruct ext ids.s ids.p ids.o tt bytes = .ok before ∧ triple = before.during window

/-- What a store keeps of an earlier one. -/
structure Remembers (ext : External) (store later : TripleStore) : Prop where
  /-- The counter is not taken back. -/
  advanced : store.committed ≤ later.committed
  /-- The versions up to the counter are the same. -/
  versions : ∀ key : QuadKey, key.tt ≤ store.committed → later.index key = store.index key
  /-- Names are kept. -/
  rev : ∀ p name, store.rev p = some name → later.rev p = some name
  /-- So are their identifiers. -/
  ids : ∀ name p, store.predicateId name = some p → later.predicateId name = some p
  /-- Names are stored in the same form. -/
  canonical : ∀ name, later.canonicalName name = store.canonicalName name
  /-- What loads still loads. -/
  loads : ∀ node held, store.loadBlob ext node = .ok held → later.loadBlob ext node = .ok held

/-- A store keeps everything of itself. -/
theorem Remembers.refl (store : TripleStore) : store.Remembers ext store :=
  ⟨le_rfl, fun _ _ => rfl, fun _ _ found => found, fun _ _ found => found, fun _ => rfl,
    fun _ _ loaded => loaded⟩

/-- What is kept twice is kept. -/
theorem Remembers.trans (first : store.Remembers ext middle) (second : middle.Remembers ext later) :
    store.Remembers ext later := by
  refine ⟨le_trans first.advanced second.advanced, fun key early => ?_, fun p name found => ?_,
    fun name p found => ?_, fun name => ?_, fun node held loaded => ?_⟩
  · rw [second.versions key (le_trans early first.advanced), first.versions key early]
  · exact second.rev p name (first.rev p name found)
  · exact second.ids name p (first.ids name p found)
  · rw [second.canonical, first.canonical]
  · exact second.loads node held (first.loads node held loaded)

/-- What a version reads back as is kept. -/
theorem Remembers.reconstruct (remembers : store.Remembers ext later) {s o : NodeId} {p : PredId}
    {tt : Timestamp} {bytes : Bytes} {triple : Triple}
    (rebuilt : store.reconstruct ext s p o tt bytes = .ok triple) :
    later.reconstruct ext s p o tt bytes = .ok triple :=
  reconstruct_mono (remembers.rev p) (remembers.loads o) rebuilt

/-- In a durable store every version is rebuilt. -/
theorem Durable.rebuilds (durable : store.Durable ext) {key : QuadKey} {bytes : Bytes}
    (found : store.index key = some bytes) (tt : Timestamp) :
    ∃ triple, store.reconstruct ext key.s key.p key.o tt bytes = .ok triple :=
  @Maintained.exists_reconstruct ext store key.toQuadIds bytes (durable.named key bytes found)
    (durable.stored.decodes key bytes found) (durable.stored.resolves key bytes found)
    durable.stored.blobs tt

/-- A commit that overwrites no value with another keeps what was there. -/
theorem Durable.remembers_commit (durable : store.Durable ext) {tx : Transaction}
    (safe : store.OverwritesNone ext tx) (wall : Timestamp) :
    store.Remembers ext (store.commit ext tx wall).1 := by
  obtain ⟨advanced, stamped⟩ := @committed_commit ext _ safe.room tx wall
  refine ⟨advanced, fun key early => ?_, (keepsNames_commit durable.numbered safe.names wall).rev,
    fun name p known => predicateId_commit known,
    (sameSettings_commit ext store tx wall).canonicalName,
    fun node held loaded => durable.loadBlob_commit safe wall loaded⟩
  rw [@index_commit ext _ durable.sound.keyed.holds]
  apply Index.putAll_of_forall_ne
  intro quad member same
  -- What it writes is later than the counter was.
  have later : store.committed < (store.commit ext tx wall).1.committed := by
    rcases @committed_commit_cases ext store tx wall with next | ⟨_, nothing⟩
    · rw [next]
      exact lt_of_lt_of_le (Timestamp.lt_wrap_succ safe.room) (le_max_left _ _)
    · rw [nothing] at member
      cases member
  rw [← stamped quad member, same] at later
  exact absurd early (not_le_of_gt later)

/-- Interning a graph keeps what was there. -/
theorem Durable.internGraph (durable : store.Durable ext) {iri : String} {g : GraphId}
    (done : store.internGraph ext iri = .ok (after, g)) :
    after.Durable ext ∧ store.Remembers ext after := by
  obtain ⟨sound, stored, named, numbered, spelled⟩ := durable
  obtain ⟨kept, counter, index, names, _⟩ := internGraph_kept sound done
  obtain ⟨fwd, rev, nextPredId⟩ := names_internGraph done
  have blobs : after.db.get .blob = store.db.get .blob := by
    have family : after.db.family .blob = store.db.family .blob :=
      family_internGraph done (by simp) (by simp)
    funext hash
    rw [Db.get, Db.get, family]
  refine ⟨⟨kept, stored.internGraph index done, ?_, ?_, ?_⟩, le_of_eq counter.symm, ?_, ?_, ?_,
    (sameSettings_internGraph done).canonicalName, ?_⟩
  · rw [index, rev]
    exact named
  · rw [Numbered, rev, nextPredId]
    exact numbered
  · rw [Spelled, fwd, rev]
    exact spelled
  · rw [index]
    exact fun _ _ => rfl
  · rw [rev]
    exact fun _ _ found => found
  · intro name p known
    rw [names]
    exact known
  · intro node held loaded
    unfold loadBlob at loaded ⊢
    rw [blobs]
    exact loaded

/-- Changing the inline threshold changes nothing that is stored. -/
theorem Durable.setInlineValueMaxBytes (durable : store.Durable ext) (n : Nat) :
    (store.setInlineValueMaxBytes n).Durable ext ∧
      store.Remembers ext (store.setInlineValueMaxBytes n) := by
  obtain ⟨⟨⟨holds, names, values, blobs⟩, recorded⟩, ⟨interned, resolves, decodes, decoded⟩, named,
    numbered, spelled⟩ := durable
  exact ⟨⟨⟨⟨holds, names, values, blobs⟩, recorded⟩, ⟨interned, resolves, decodes, decoded⟩, named,
    numbered, spelled⟩, ⟨le_rfl, fun _ _ => rfl, fun _ _ found => found, fun _ _ found => found,
    fun _ => rfl, fun _ _ loaded => loaded⟩⟩

/-- Every step that overwrites no value with another keeps what was there. -/
theorem Durable.grow (durable : store.Durable ext) {step : Growth} (safe : store.Preserving ext step)
    (taken : store.grow ext step = some after) : after.Durable ext ∧ store.Remembers ext after := by
  cases step with
  | commit tx wall =>
    cases taken
    exact ⟨durable.commit safe wall, durable.remembers_commit safe wall⟩
  | internGraph iri =>
    simp only [TripleStore.grow] at taken
    split at taken
    · rename_i middle g done
      cases taken
      exact durable.internGraph done
    · cases taken
      exact ⟨durable, .refl store⟩
  | setInlineValueMaxBytes n =>
    cases taken
    exact durable.setInlineValueMaxBytes n

/-- A value that is encoded as a reference is put out of line. -/
theorem putsOut_of_isRef {w : PendingWrite} {subject : NodeId} {predicate : String} {value : Value}
    {window temporal : BiTemporalRange} {batch put : WriteBatch} {bytes : Bytes}
    (same : w.triple = .property subject predicate value window)
    (encoded : store.encodePropertyEntry ext batch value temporal = .ok (put, bytes))
    (ref : IsRef bytes) : store.PutsOut ext w value := by
  obtain ⟨inline, full, encoded⟩ := Except.bind_eq_ok.mp encoded
  split_ifs at encoded with small
  · cases encoded
    exact absurd ref (not_isRef_encodeProperty full)
  · obtain ⟨again, written, length⟩ := encodeProperty_window full window
    exact ⟨subject, predicate, window, same, again, written, by omega⟩

/-- A version that came about from a transaction reads back as what was written or closed. -/
theorem Durable.written (durable : store.Durable ext) {tx : Transaction}
    (safe : store.OverwritesNone ext tx) {wall : Timestamp} {ids : QuadIds} {bytes : Bytes}
    (comes : Comes ext (store.commit ext tx wall).1 tx.writes store.index ids bytes)
    (backed : IsRef bytes →
      ((store.commit ext tx wall).1.db.get .blob ids.o.uuid.bytes).isSome) (tt : Timestamp) :
    ∃ triple, (store.commit ext tx wall).1.reconstruct ext ids.s ids.p ids.o tt bytes = .ok triple ∧
      Written ext store (store.commit ext tx wall).1 tx ids triple := by
  have remembers := durable.remembers_commit safe wall
  have spelled := (durable.commit safe wall).spelled
  have settings := sameSettings_commit ext store tx wall
  have puts : ∀ value, (∃ w ∈ tx.writes, store.PutsOut ext w value) →
      ((store.commit ext tx wall).1.db.get .blob (valueObject ext value).uuid.bytes).isSome →
      (store.commit ext tx wall).1.loadBlob ext (valueObject ext value) = .ok value := by
    rintro value ⟨w, member, own⟩ put
    exact durable.loadBlob_put safe member own put
  generalize (store.commit ext tx wall).1 = after at comes backed remembers spelled settings puts ⊢
  -- The induction is on how the version came about.
  induction comes generalizing tt with
  | @relation w subject object predicate edge window p temporal member same known =>
    have name : after.rev p = some (after.canonicalName predicate) := by
      rw [predicateId_eq] at known
      exact spelled _ _ known
    obtain ⟨during, rebuilt⟩ := @reconstruct_relation ext after subject object p _ name edge
      temporal tt
    refine ⟨_, rebuilt, Or.inl ⟨w, member, ?_, during, ?_⟩⟩
    · simp only [quadOf, same, known, Option.map_some]
    · rw [same]
      rfl
  | @property w subject predicate value window temporal p batch put bytes member same known encoded =>
    have name : after.rev p = some (after.canonicalName predicate) := by
      rw [predicateId_eq] at known
      exact spelled _ _ known
    have stable := safe.stable w member subject predicate value window same
    have decodes : Decodes ext bytes := by
      rcases encodePropertyEntry_cases encoded with ⟨inline, _⟩ | ⟨_, _, rfl, _⟩
      · exact decodes_encodeProperty
          (readsBack_of_stable (safe.stable w member) subject predicate value window same) inline
      · exact decodes_encodePropertyRef temporal
    have loads : IsRef bytes → after.loadBlob ext (valueObject ext value) = .ok value := by
      intro ref
      rw [encodePropertyEntry_congr settings.limit] at encoded
      exact puts value ⟨w, member, putsOut_of_isRef same encoded ref⟩ (backed ref)
    obtain ⟨during, rebuilt⟩ := @reconstruct_property ext after after subject p _ value temporal
      batch put bytes name stable encoded decodes loads tt
    refine ⟨_, rebuilt, Or.inl ⟨w, member, ?_, during, ?_⟩⟩
    · simp only [quadOf, same, known, Option.map_some]
    · rw [same]
      rfl
  | @stored ids earlier bytes found =>
    obtain ⟨before, rebuilt⟩ := durable.rebuilds found earlier
    obtain ⟨window, again⟩ := reconstruct_later rebuilt tt
    exact ⟨_, remembers.reconstruct again, Or.inr ⟨earlier, bytes, before, window, found, rebuilt, rfl⟩⟩
  | closed _ closing ih =>
    obtain ⟨triple, rebuilt, written⟩ :=
      ih tt (fun ref => backed ((isRef_withVtEnd closing).mpr ref))
    obtain ⟨window, again⟩ := reconstruct_closed closing rebuilt tt
    refine ⟨_, again, ?_⟩
    rcases written with ⟨w, member, own, _, rfl⟩ | ⟨earlier, held, before, _, found, read, rfl⟩
    · exact Or.inl ⟨w, member, own, window, Triple.during_during _ _ _⟩
    · exact Or.inr ⟨earlier, held, before, window, found, read, Triple.during_during _ _ _⟩

/-- An as-of read of a later store finds what it found before. -/
theorem Remembers.snapshotScanKeyed (remembers : store.Remembers ext later)
    (durable : store.Durable ext) (after : later.Durable ext) {order : Order} {start : Bytes}
    (short : start.length ≤ QUAD_TUPLE_LEN) {point : ReadAt} (past : point.ts ≤ store.committed)
    {now soon : Timestamp} (same : point.vtAsOf.getD soon = point.vtAsOf.getD now)
    (graphs : GraphScope) : ∃ before quads,
      store.snapshotScanKeyed ext order start point now graphs = .ok before ∧
      later.snapshotScanKeyed ext order start point soon graphs = .ok quads ∧ before.Perm quads := by
  have agree : ∀ key : QuadKey, key.tt ≤ point.ts → later.index key = store.index key :=
    fun key early => remembers.versions key (le_trans early past)
  have finds : ∀ ids slot, ScanFinds later.index order start point (point.vtAsOf.getD soon) graphs
      ids slot ↔ ScanFinds store.index order start point (point.vtAsOf.getD now) graphs ids slot := by
    intro ids slot
    rw [same]
    exact scanFinds_congr agree
  have rebuilds : ∀ ids slot, ScanFinds store.index order start point (point.vtAsOf.getD now) graphs
      ids slot → ∃ triple, store.reconstruct ext ids.s ids.p ids.o slot.tt slot.bytes = .ok triple ∧
        later.reconstruct ext ids.s ids.p ids.o slot.tt slot.bytes = .ok triple := by
    intro ids slot found
    obtain ⟨triple, rebuilt⟩ := durable.rebuilds
      (Index.history_eq_some.mp found.governs.seen.stored).1 slot.tt
    exact ⟨triple, rebuilt, remembers.reconstruct rebuilt⟩
  obtain ⟨runs, listed⟩ := snapshotScanKeyed_spec ext (durable.sound.keyed.holds order) short point
    now graphs
  obtain ⟨runs', listed'⟩ := snapshotScanKeyed_spec ext (after.sound.keyed.holds order) short point
    soon graphs
  obtain ⟨before, run⟩ := runs.mpr fun ids slot found =>
    (rebuilds ids slot found).imp fun _ both => both.1
  obtain ⟨quads, run'⟩ := runs'.mpr fun ids slot found =>
    (rebuilds ids slot ((finds ids slot).mp found)).imp fun _ both => both.2
  obtain ⟨distinct, members⟩ := listed before run
  obtain ⟨distinct', members'⟩ := listed' quads run'
  refine ⟨before, quads, run, run', ?_⟩
  apply (List.perm_ext_iff_of_nodup (List.Nodup.of_map _ distinct)
    (List.Nodup.of_map _ distinct')).mpr
  intro quad
  rw [members quad.1 quad.2, members' quad.1 quad.2]
  apply exists_congr
  intro slot
  rw [finds]
  apply and_congr_right
  intro found
  obtain ⟨triple, first, second⟩ := rebuilds quad.1 slot found
  rw [first, second]

/-- A name that gets an identifier later names no version from before. -/
theorem Remembers.unknown (remembers : store.Remembers ext later) (durable : store.Durable ext)
    (after : later.Durable ext) {name : String} {p : PredId} (new : store.predicateId name = none)
    (known : later.predicateId name = some p) {key : QuadKey} {bytes : Bytes}
    (found : store.index key = some bytes) : key.p ≠ p := by
  rintro rfl
  obtain ⟨own, named⟩ := Option.isSome_iff_exists.mp (durable.named key bytes found)
  -- The identifier would spell the name, and so it would have named it before.
  have spelled : later.rev key.p = some (later.canonicalName name) := by
    rw [predicateId_eq] at known
    exact after.spelled _ _ known
  have same : own = store.canonicalName name := by
    have kept := remembers.rev _ _ named
    rw [spelled, remembers.canonical] at kept
    exact (Option.some.inj kept).symm
  have before := durable.sound.keyed.named _ _ named
  rw [same, predicateId_eq, canonicalName_idem, ← predicateId_eq, new] at before
  cases before

/-- A later store answers an as-of read as the store did. -/
def AnswersAlike (ext : External) (store later : TripleStore) : Prop :=
  ∀ (s : Option NodeId) (predicate : Option String) (o : Option NodeId) (scope : GraphScope)
    (point : ReadAt) (now soon : Timestamp), point.ts ≤ store.committed →
    point.vtAsOf.getD soon = point.vtAsOf.getD now → ∃ before after,
      store.scanScopedAt ext s predicate o scope point now = .ok before ∧
      later.scanScopedAt ext s predicate o scope point soon = .ok after ∧ before.Perm after

/-- What remembers a store answers as-of reads as it did. -/
theorem Remembers.answersAlike (remembers : store.Remembers ext later)
    (durable : store.Durable ext) (after : later.Durable ext) : AnswersAlike ext store later := by
  intro s predicate o scope point now soon past same
  -- A predicate that has the same identifier in both stores is looked for under it.
  have both : ∀ p : Option PredId, predicate.map store.predicateId = p.map some →
      predicate.map later.predicateId = p.map some → ∃ before after,
        store.scanScopedAt ext s predicate o scope point now = .ok before ∧
        later.scanScopedAt ext s predicate o scope point soon = .ok after ∧ before.Perm after := by
    intro p resolved resolved'
    obtain ⟨before, quads, run, run', perm⟩ := @Remembers.snapshotScanKeyed ext store later remembers
      durable after (chooseOrder s p o scope).1 _ (chooseOrder_short s p o scope) point past now soon
        same scope
    rw [scanScopedAt_eq resolved, scanScopedAt_eq resolved']
    exact ⟨_, _, Except.bind_eq_ok.mpr ⟨before, run, rfl⟩, Except.bind_eq_ok.mpr ⟨quads, run', rfl⟩,
      (perm.filter _).map _⟩
  cases predicate with
  | none => exact both none rfl rfl
  | some name =>
    cases known : store.predicateId name with
    | some p =>
      have kept := remembers.ids name p known
      exact both (some p) (by simp [known]) (by simp [kept])
    | none =>
      refine ⟨[], [], scanScopedAt_unknown known, ?_, .refl []⟩
      cases known' : later.predicateId name with
      | none => exact scanScopedAt_unknown known'
      | some p =>
        -- What is found under the identifier was recorded after the point of the read.
        have resolved : (some name).map later.predicateId = (some p).map some := by simp [known']
        obtain ⟨runs, listed⟩ := snapshotScanKeyed_spec ext
          (after.sound.keyed.holds (chooseOrder s (some p) o scope).1)
          (chooseOrder_short s (some p) o scope) point soon scope
        obtain ⟨quads, run⟩ := runs.mpr fun ids slot found =>
          after.rebuilds (Index.history_eq_some.mp found.governs.seen.stored).1 slot.tt
        have none_ : quads.filter (fun quad => boundAgrees s (some p) o quad.1) = [] := by
          rw [List.filter_eq_nil_iff]
          intro quad member agrees
          obtain ⟨slot, found, _⟩ := ((listed quads run).2 quad.1 quad.2).mp member
          have stored := (Index.history_eq_some.mp found.governs.seen.stored).1
          rw [remembers.versions _ (le_trans found.governs.seen.recorded past)] at stored
          exact remembers.unknown durable after known known' stored
            ((boundAgrees_iff.mp agrees).2.1 p rfl)
        rw [scanScopedAt_eq resolved]
        refine Except.bind_eq_ok.mpr ⟨quads, run, ?_⟩
        rw [none_]
        rfl

/-- Every version of a store reads back as the same in a later one, and as-of reads answer alike. -/
structure Immutable (ext : External) (store later : TripleStore) : Prop where
  /-- Versions are kept and read back as the same triples. -/
  versions : ∀ key bytes, store.index key = some bytes → later.index key = some bytes ∧
    ∃ triple, store.reconstruct ext key.s key.p key.o key.tt bytes = .ok triple ∧
      later.reconstruct ext key.s key.p key.o key.tt bytes = .ok triple
  /-- As-of reads answer as they did. -/
  reads : AnswersAlike ext store later

/-- What commits write reads back as what was written, and is immutable from then on. -/
structure KeepsHistory (ext : External) (store : TripleStore) : Prop where
  /-- A version that a commit adds reads back as what the transaction wrote or closed. -/
  written : ∀ tx wall, store.OverwritesNone ext tx → ∀ key bytes,
    (store.commit ext tx wall).1.index key = some bytes → store.index key = none →
      ∃ triple, (store.commit ext tx wall).1.reconstruct ext key.s key.p key.o key.tt bytes =
        .ok triple ∧ Written ext store (store.commit ext tx wall).1 tx key.toQuadIds triple
  /-- Later steps change nothing that was there. -/
  kept : ∀ later, Runs (grow ext) (Preserving ext) store later → Immutable ext store later

/-- Every state of a run from a new store is durable. -/
theorem durable_of_run {inlineMax : Nat} {vocabulary : Vocabulary} {canonical : Bool}
    (run : Runs (grow ext) (Preserving ext) (configured inlineMax vocabulary canonical) store) :
    store.Durable ext :=
  run.invariant (fun _ _ _ durable safe taken => (durable.grow safe taken).1)
    (durable_configured ext inlineMax vocabulary canonical)

/-- Committed history is immutable while no commit overwrites an out-of-line value with another. -/
theorem history_immutable {inlineMax : Nat} {vocabulary : Vocabulary} {canonical : Bool}
    (run : Runs (grow ext) (Preserving ext) (configured inlineMax vocabulary canonical) store) :
    KeepsHistory ext store := by
  have durable := durable_of_run run
  refine ⟨fun tx wall safe key bytes found new => ?_, fun later more => ?_⟩
  · have holds := durable.sound.keyed.holds
    rw [@index_commit ext store holds] at found
    rcases Index.putAll_eq_some found with old | added
    · rw [new] at old
      cases old
    · have comes := @comes_commitQuads ext store holds tx wall _ added
      have backed := (store.commit_blobs ext (holds .gspo) durable.stored.resolves tx wall).2 _ added
      exact durable.written safe comes backed key.tt
  · have remembers : store.Remembers ext later :=
      more.relation (fun state => .refl state) (fun _ _ _ first second => first.trans second)
        (fun _ _ _ durable safe taken => durable.grow safe taken) durable
    have after := durable_of_run (run.trans more)
    refine ⟨fun key bytes found => ?_, remembers.answersAlike durable after⟩
    obtain ⟨triple, rebuilt⟩ := durable.rebuilds found key.tt
    refine ⟨?_, triple, rebuilt, remembers.reconstruct rebuilt⟩
    rw [remembers.versions key (durable.sound.recorded key bytes found)]
    exact found

/-- The JSON of a text of one letter with a language tag. -/
def taggedJson (lang : String) : Bytes :=
  utf8 ("\x7b\"LangText\":\x7b\"text\":\"a\",\"lang\":\"" ++ lang ++ "\"\x7d\x7d")

/-- Outside functions that encode texts of one letter with one of two language tags. -/
def jsonTagged : External where
  xxh3_128 bytes := bytes.length
  parseUuid _ := none
  jsonToVec
    | .langText _ lang => .ok (taggedJson lang)
    | _ => .error "not a tagged text"
  jsonFromSlice bytes :=
    if bytes = taggedJson "en" then .ok (.langText "a" "en")
    else if bytes = taggedJson "EN" then .ok (.langText "a" "EN")
    else .error "not a tagged text"

/-- A transaction that titles a node in a language. -/
def titledIn (node : NodeId) (lang : String) : Transaction :=
  (Transaction.new Timestamp.zero).insertIn (.property node "title" (.langText "a" lang)
    ⟨Timestamp.zero, Timestamp.END_OF_TIME, Timestamp.zero⟩) GraphId.DEFAULT .auto

/-- A new store that puts every value out of line, after a title was committed. -/
def titledOnce : TripleStore :=
  ((configured 0 Vocabulary.default true).commit jsonTagged
    (titledIn (NodeId.ofByte 1) "en") Timestamp.zero).1

/-- The first title of a store keeps its history. -/
theorem history_immutable_titled : KeepsHistory jsonTagged titledOnce := by
  have safe : (configured 0 Vocabulary.default true).OverwritesNone jsonTagged
      (titledIn (NodeId.ofByte 1) "en") := by
    have only : ∀ w ∈ (titledIn (NodeId.ofByte 1) "en").writes, w.triple =
        .property (NodeId.ofByte 1) "title" (.langText "a" "en")
          ⟨Timestamp.zero, Timestamp.END_OF_TIME, Timestamp.zero⟩ := by
      intro w member
      rw [List.mem_singleton.mp member]
    refine ⟨?_, ?_, ?_, by decide, by decide⟩
    · rintro w member value ⟨_, _, _, same, _⟩ held loaded
      have empty : ((configured 0 Vocabulary.default true).loadBlob jsonTagged
          (valueObject jsonTagged value)).toOption = none := rfl
      rw [loaded] at empty
      cases empty
    · rintro left first right second value other ⟨_, _, _, same, _⟩ ⟨_, _, _, same', _⟩ _
      rw [only left first] at same
      rw [only right second] at same'
      cases same
      cases same'
      rfl
    · intro w member subject predicate value window same
      rw [only w member] at same
      cases same
      intro json written
      cases written
      decide +kernel
  exact history_immutable (.step (.commit (titledIn (NodeId.ofByte 1) "en") Timestamp.zero) (.done _)
    safe rfl)

/-- The same title in another spelling of the language changes what the first one reads back as. -/
theorem history_overwritten : ∃ later key bytes window,
    Runs (grow jsonTagged) (fun _ _ => True) (configured 0 Vocabulary.default true) titledOnce ∧
    Runs (grow jsonTagged) (fun _ _ => True) titledOnce later ∧
    titledOnce.index key = some bytes ∧
    (titledOnce.reconstruct jsonTagged key.s key.p key.o key.tt bytes).toOption =
      some (.property (NodeId.ofByte 1) "urn:pg:vocab:title" (.langText "a" "en") window) ∧
    (later.reconstruct jsonTagged key.s key.p key.o key.tt bytes).toOption =
      some (.property (NodeId.ofByte 1) "urn:pg:vocab:title" (.langText "a" "EN") window) ∧
    ¬ Immutable jsonTagged titledOnce later := by
  let key : QuadKey := ⟨⟨NodeId.ofByte 1, 1, valueObject jsonTagged (.langText "a" "en"),
    GraphId.DEFAULT⟩, Timestamp.wrap 1⟩
  let again : Growth := .commit (titledIn (NodeId.ofByte 2) "EN") Timestamp.zero
  let later := (titledOnce.commit jsonTagged (titledIn (NodeId.ofByte 2) "EN") Timestamp.zero).1
  let window : BiTemporalRange := ⟨Timestamp.zero, Timestamp.END_OF_TIME, Timestamp.wrap 1⟩
  have found : titledOnce.index key = some (encodePropertyRef window) := by decide +kernel
  have first : (titledOnce.reconstruct jsonTagged key.s key.p key.o key.tt
      (encodePropertyRef window)).toOption =
        some (.property (NodeId.ofByte 1) "urn:pg:vocab:title" (.langText "a" "en") window) := by
    decide +kernel
  have second : (later.reconstruct jsonTagged key.s key.p key.o key.tt
      (encodePropertyRef window)).toOption =
        some (.property (NodeId.ofByte 1) "urn:pg:vocab:title" (.langText "a" "EN") window) := by
    decide +kernel
  refine ⟨later, key, _, window, .step (.commit (titledIn (NodeId.ofByte 1) "en") Timestamp.zero)
    (.done _) trivial rfl, .step again (.done _) trivial rfl, found, first, second, ?_⟩
  intro immutable
  obtain ⟨_, triple, before, after⟩ := immutable.versions key _ found
  rw [before] at first
  rw [after] at second
  have same := first.symm.trans second
  simp at same

end TripleStore

end Polargraph
