import Polargraph.Proofs.Storage.Rewriting
import Polargraph.Server.ChangeEvents

/-! Names of quads, and what a commit logs and keeps of them. -/

namespace Polargraph

variable {ext : External}

namespace TripleStore

variable {store middle after : TripleStore}

/-- The tables of graphs agree, and every graph but the default one that is known has an IRI. -/
structure GraphsNamed (store : TripleStore) : Prop where
  /-- The IRI of a graph names it. -/
  fwd : ∀ g iri, store.graphRev g = some iri → store.graphFwd iri = some g
  /-- It is not empty. -/
  filled : ∀ g iri, store.graphRev g = some iri → iri ≠ ""
  /-- Identifiers are handed out in order. -/
  numbered : ∀ g iri, store.graphRev g = some iri → g.raw.toNat < store.nextGraphId.toNat
  /-- The default graph has no IRI, and its identifier is never handed out. -/
  default : store.graphRev GraphId.DEFAULT = none ∧ 0 < store.nextGraphId.toNat

/-- A graph that quads can be in. -/
def KnownGraph (store : TripleStore) (g : GraphId) : Prop :=
  g = GraphId.DEFAULT ∨ (store.graphRev g).isSome

/-- A new store knows the default graph alone. -/
theorem graphsNamed_configured (inlineMax : Nat) (vocabulary : Vocabulary) (canonical : Bool) :
    (configured inlineMax vocabulary canonical).GraphsNamed where
  fwd _ _ found := nomatch found
  filled _ _ found := nomatch found
  numbered _ _ found := nomatch found
  default := ⟨rfl, Nat.one_pos⟩

/-- Graphs that are the same are named the same. -/
theorem GraphsNamed.congr (named : store.GraphsNamed) (same : store.SameGraphs after) :
    after.GraphsNamed := by
  obtain ⟨fwd, filled, numbered, default⟩ := named
  constructor
  · rw [same.graphFwd, same.graphRev]
    exact fwd
  · rw [same.graphRev]
    exact filled
  · rw [same.graphRev, same.nextGraphId]
    exact numbered
  · rw [same.graphRev, same.nextGraphId]
    exact default

/-- Interning a graph keeps the names and the known graphs while there are identifiers left. -/
theorem GraphsNamed.internGraph {iri : String} {g : GraphId} (named : store.GraphsNamed)
    (room : store.nextGraphId.toNat + 1 < 2 ^ 32)
    (done : store.internGraph ext iri = .ok (middle, g)) :
    middle.GraphsNamed ∧ ∀ known, store.KnownGraph known →
      middle.graphRev known = store.graphRev known := by
  unfold TripleStore.internGraph at done
  split_ifs at done with blank
  split at done
  · cases done
    exact ⟨named, fun _ _ => rfl⟩
  · rename_i unknown
    obtain ⟨_, _, done⟩ := Except.bind_eq_ok.mp done
    cases done
    have next : (store.nextGraphId + 1).toNat = store.nextGraphId.toNat + 1 := by
      rw [UInt32.toNat_add, UInt32.toNat_one, Nat.mod_eq_of_lt room]
    have below : store.nextGraphId.toNat < (store.nextGraphId + 1).toNat := by omega
    have fresh : (⟨store.nextGraphId⟩ : GraphId) ≠ GraphId.DEFAULT := by
      intro same
      have least := named.default.2
      rw [show store.nextGraphId = GraphId.DEFAULT.raw from congrArg GraphId.raw same] at least
      exact absurd least (Nat.lt_irrefl 0)
    refine ⟨⟨?_, ?_, ?_, ?_, ?_⟩, ?_⟩
    · intro other name found
      simp only [Function.update_apply] at found ⊢
      split_ifs at found with own
      · cases found
        rw [if_pos rfl, own]
      · have before := named.fwd other name found
        rw [if_neg fun same => ?_, before]
        rw [same, unknown] at before
        cases before
    · intro other name found
      simp only [Function.update_apply] at found
      split_ifs at found
      · cases found
        exact blank
      · exact named.filled other name found
    · intro other name found
      simp only [Function.update_apply] at found
      split_ifs at found with own
      · rw [own]
        exact below
      · exact lt_trans (named.numbered other name found) below
    · exact (Function.update_of_ne fresh.symm _ _).trans named.default.1
    · exact lt_trans named.default.2 below
    · intro known already
      refine Function.update_of_ne (fun same => ?_) _ _
      rcases already with here | here
      · exact fresh (same.symm.trans here)
      · obtain ⟨name, found⟩ := Option.isSome_iff_exists.mp here
        have early := named.numbered known name found
        rw [same] at early
        exact absurd early (lt_irrefl _)

/-- Known graphs are told apart by their names. -/
theorem GraphsNamed.graphName_inj (named : store.GraphsNamed) {left right : GraphId}
    (known : store.KnownGraph left) (known' : store.KnownGraph right)
    (same : store.graphName left = store.graphName right) : left = right := by
  have blank : store.graphName GraphId.DEFAULT = "" := by
    simp [graphName, graphIri, named.default.1]
  have filled : ∀ g iri, store.graphRev g = some iri → store.graphName g = iri ∧ iri ≠ "" :=
    fun g iri found => ⟨by simp [graphName, graphIri, found], named.filled g iri found⟩
  rcases known with rfl | known <;> rcases known' with rfl | known'
  · rfl
  · obtain ⟨iri, found⟩ := Option.isSome_iff_exists.mp known'
    obtain ⟨name, some_⟩ := filled right iri found
    exact absurd (name.symm.trans (same.symm.trans blank)) some_
  · obtain ⟨iri, found⟩ := Option.isSome_iff_exists.mp known
    obtain ⟨name, some_⟩ := filled left iri found
    exact absurd (name.symm.trans (same.trans blank)) some_
  · obtain ⟨iri, found⟩ := Option.isSome_iff_exists.mp known
    obtain ⟨iri', found'⟩ := Option.isSome_iff_exists.mp known'
    obtain rfl := ((filled left iri found).1.symm.trans same).trans (filled right iri' found').1
    exact Option.some.inj ((named.fwd left iri found).symm.trans (named.fwd right iri found'))

/-- The name of a quad. -/
def nameOfIds (store : TripleStore) (ids : QuadIds) : Option QuadName :=
  (store.rev ids.p).map fun predicate => ⟨ids.s, predicate, ids.o, store.graphName ids.g⟩

/-- Quads in known graphs are told apart by their names. -/
theorem nameOfIds_inj (named : store.Named) (graphs : store.GraphsNamed) {left right : QuadIds}
    (known : store.KnownGraph left.g) (known' : store.KnownGraph right.g) {name : QuadName}
    (first : store.nameOfIds left = some name) (second : store.nameOfIds right = some name) :
    left = right := by
  obtain ⟨predicate, found, rfl⟩ := Option.map_eq_some_iff.mp first
  obtain ⟨other, found', same⟩ := Option.map_eq_some_iff.mp second
  obtain ⟨s, rfl, o, g⟩ := QuadName.mk.inj same
  -- The predicate's name leads back to its identifier, and the graph's to the graph.
  have p := Option.some.inj ((named _ _ found).symm.trans (named _ _ found'))
  have graph := graphs.graphName_inj known known' g.symm
  cases left
  cases right
  simp only at s o p graph
  rw [s, o, p, graph]

/-- What a version reads back as is named like its quad. -/
theorem nameOf_of_reconstruct {ids : QuadIds} {tt : Timestamp} {bytes : Bytes} {triple : Triple}
    (fits : Fits ext ids.o bytes)
    (blobs : ∀ entry ∈ (store.db.family .blob).entries, BlobFits ext entry.1 entry.2)
    (rebuilt : store.reconstruct ext ids.s ids.p ids.o tt bytes = .ok triple) :
    store.nameOf ext (ids.g, triple) = store.nameOfIds ids ∧ (store.nameOfIds ids).isSome := by
  obtain ⟨name, known, ⟨edge, window, rfl⟩ | ⟨value, window, rfl, own, _⟩⟩ :=
    reconstruct_cases fits blobs rebuilt
  · simp [nameOf, tripleToProto, ProtoTriple.quadName, nameOfIds, known]
  · simp [nameOf, tripleToProto, ProtoTriple.quadName, nameOfIds, known, own]

/-- Predicate identifiers are handed out in order. -/
def Numbered (store : TripleStore) : Prop :=
  ∀ p name, store.rev p = some name → p.toNat < store.nextPredId.toNat

/-- Names keep their identifiers, and at most some more identifiers are handed out. -/
structure KeepsNames (store after : TripleStore) (fresh : Nat) : Prop where
  /-- Identifiers are still handed out in order. -/
  numbered : after.Numbered
  /-- Names are kept. -/
  rev : ∀ p name, store.rev p = some name → after.rev p = some name
  /-- Few identifiers are handed out. -/
  few : after.nextPredId.toNat ≤ store.nextPredId.toNat + fresh

/-- A store keeps its own names. -/
theorem KeepsNames.refl (numbered : store.Numbered) : store.KeepsNames store 0 :=
  ⟨numbered, fun _ _ found => found, le_refl _⟩

/-- Interning a predicate keeps the names while there are identifiers left. -/
theorem keepsNames_internPredicate (numbered : store.Numbered)
    (room : store.nextPredId.toNat + 1 < 2 ^ 32) (pred : String) :
    store.KeepsNames (store.internPredicate pred).1 1 := by
  have next : (store.nextPredId + 1).toNat = store.nextPredId.toNat + 1 := by
    rw [UInt32.toNat_add, UInt32.toNat_one, Nat.mod_eq_of_lt room]
  simp only [internPredicate]
  split
  · exact ⟨numbered, fun _ _ found => found, Nat.le_succ _⟩
  · refine ⟨fun p name found => ?_, fun p name found => ?_, le_of_eq next⟩
    · simp only [Function.update_apply] at found
      simp only [next]
      split_ifs at found with own
      · rw [own]
        omega
      · have early := numbered p name found
        omega
    · refine (Function.update_of_ne (fun same => ?_) _ _).trans found
      have early := numbered p name found
      rw [same] at early
      exact absurd early (Nat.lt_irrefl _)

/-- Staging keeps the names while there are identifiers left. -/
theorem keepsNames_stageWrites (numbered : store.Numbered) (tt : Timestamp) (staging : Staging)
    {writes : List PendingWrite} (room : store.nextPredId.toNat + writes.length < 2 ^ 32) :
    store.KeepsNames (stageWrites ext tt store staging writes).1 writes.length := by
  induction writes generalizing store staging with
  | nil => exact .refl numbered
  | cons w rest ih =>
    simp only [List.length_cons] at room ⊢
    have first := keepsNames_internPredicate numbered (by omega) w.triple.predicate
    have few := first.few
    simp only [stageWrites]
    split
    · refine ⟨first.numbered, first.rev, le_trans few ?_⟩
      omega
    · rename_i next staged
      have later := ih first.numbered next (by omega)
      refine ⟨later.numbered, fun p name found => later.rev p name (first.rev p name found), ?_⟩
      have more := later.few
      omega

/-- A commit keeps the names while there are identifiers left. -/
theorem keepsNames_commit (numbered : store.Numbered) {tx : Transaction}
    (room : store.nextPredId.toNat + tx.writes.length < 2 ^ 32) (wall : Timestamp) :
    store.KeepsNames (store.commit ext tx wall).1 tx.writes.length := by
  have nothing : store.KeepsNames store tx.writes.length :=
    ⟨numbered, fun _ _ found => found, Nat.le_add_right _ _⟩
  have published : (store.beginCommit wall).1.Numbered := numbered
  have staged := @keepsNames_stageWrites ext _ published (store.beginCommit wall).2 Staging.none
    tx.writes room
  exact commit_keeps ext store tx wall nothing ⟨numbered, nothing.rev, nothing.few⟩
    ⟨staged.numbered, staged.rev, staged.few⟩ fun _ _ kept => ⟨kept.numbered, kept.rev, kept.few⟩

/-- The names of quads in known graphs are kept along with those of predicates and graphs. -/
theorem nameOfIds_kept {ids : QuadIds} {fresh : Nat} (kept : store.KeepsNames after fresh)
    (graph : after.graphRev ids.g = store.graphRev ids.g) (named : (store.nameOfIds ids).isSome) :
    after.nameOfIds ids = store.nameOfIds ids := by
  obtain ⟨name, here⟩ := Option.isSome_iff_exists.mp named
  obtain ⟨predicate, found, rfl⟩ := Option.map_eq_some_iff.mp here
  rw [here]
  simp [nameOfIds, graphName, graphIri, kept.rev _ _ found, graph]

/-- Every version a commit writes is of the graph of one of its writes. -/
theorem exists_graph_commitQuads (holds : store.db.OrdersHold store.index) (tx : Transaction)
    (wall : Timestamp) : ∀ quad ∈ store.commitQuads ext tx wall,
      ∃ w ∈ tx.writes, quad.key.g = w.graph := by
  intro quad member
  obtain ⟨w, listed, _, _, own⟩ := slot_commitQuads holds tx wall quad member
  exact ⟨w, listed, own⟩

/-- Every version a commit of stable values writes fits its object slot. -/
theorem fits_commitQuads (keyed : store.Keyed ext) {tx : Transaction}
    (stable : ∀ w ∈ tx.writes, w.Stable ext) (wall : Timestamp) :
    ∀ quad ∈ store.commitQuads ext tx wall, Fits ext quad.key.o quad.value :=
  (commit_all (keyed.holds .gspo) (carried_fits ext) keyed.values
    (fun w member => encodes_fits (stable w member)) wall).1

/-- A flush that logs nothing writes no versions. -/
theorem stagedQuads_of_not_logs {tx : Transaction} {commitTs : Timestamp}
    (silent : store.logs ext tx commitTs = false) : store.stagedQuads ext tx commitTs = [] := by
  revert silent
  unfold logs
  refine flush_rule ext store tx commitTs (fun _ _ => rfl) fun after staging batch _ _ silent => ?_
  simp only [Except.isOk, Except.toBool, Bool.true_and, Bool.not_eq_false', Bool.and_eq_true,
    List.isEmpty_iff] at silent
  exact silent.2

/-- A sorted list whose only element is given holds it once. -/
private theorem eq_singleton_of_sorted {entries : List (Bytes × Bytes)} {entry : Bytes × Bytes}
    (sorted : entries.Pairwise (fun left right => left.1 < right.1)) (inside : entry ∈ entries)
    (only : ∀ other ∈ entries, other = entry) : entries = [entry] := by
  cases entries with
  | nil => cases inside
  | cons first rest =>
    obtain rfl := only first List.mem_cons_self
    cases rest with
    | nil => rfl
    | cons second more =>
      have same := only second (by simp)
      have below := List.rel_of_pairwise_cons sorted (show second ∈ second :: more by simp)
      rw [same] at below
      exact absurd below (lt_irrefl _)

/-- A commit that writes nothing may leave the counter; any other is dated after it. -/
theorem committed_commit_cases (tx : Transaction) (wall : Timestamp) :
    (store.commit ext tx wall).1.committed = store.nextCommitTs wall ∨
      (store.commit ext tx wall).1.committed = store.committed ∧
        store.commitQuads ext tx wall = [] :=
  commit_rule ext store tx wall (fun _ => Or.inr ⟨rfl, rfl⟩) (fun _ => Or.inl rfl)
    fun _ => Or.inl (committed_flush _ _ _)

/-- Log entries are of commits that the counter has reached. -/
def LogReached (store : TripleStore) : Prop :=
  ∀ entry ∈ (store.db.family .chg).entries, ∃ time, entry.1 = time.toBeBytes ∧
    Timestamp.zero < time ∧ time ≠ Timestamp.END_OF_TIME ∧ time ≤ store.committed

/-- A commit that does not run out of time logs what it writes as the only later entry, if anything. -/
theorem seek_commit (reached : store.LogReached) (room : store.committed ≠ Timestamp.END_OF_TIME)
    (positive : Timestamp.zero ≤ store.committed) (tx : Transaction) {wall : Timestamp}
    (last : store.nextCommitTs wall ≠ Timestamp.END_OF_TIME) :
    (store.commit ext tx wall).1.LogReached ∧
      (((store.commit ext tx wall).1.db.family .chg).seek (resumeKey store.committed) = [] ∧
          store.commitQuads ext tx wall = [] ∨
        ((store.commit ext tx wall).1.db.family .chg).seek (resumeKey store.committed) =
          [((store.commit ext tx wall).1.committed.toBeBytes,
            encodeChange tx.author tx.graphOps (store.commitQuads ext tx wall))]) := by
  have later : store.committed < store.nextCommitTs wall :=
    lt_of_lt_of_le (Timestamp.lt_wrap_succ room) (le_max_left _ _)
  have ahead : Timestamp.zero < store.nextCommitTs wall := lt_of_le_of_lt positive later
  -- Nothing in the log from before is later than the counter.
  have none_later : ∀ entry ∈ (store.db.family .chg).seek (resumeKey store.committed), False := by
    intro entry member
    obtain ⟨time, key, past, short, early⟩ := reached entry (SortedMap.mem_seek.mp member).1
    obtain ⟨start, bytes⟩ := entry
    subst key
    exact absurd ((mem_seek_resumeKey past short).mp member).2 (not_lt.mpr early)
  have blank : (store.db.family .chg).seek (resumeKey store.committed) = [] :=
    List.eq_nil_iff_forall_not_mem.mpr none_later
  have advanced : (store.beginCommit wall).1.LogReached := fun entry member => by
    obtain ⟨time, key, past, short, early⟩ := reached entry member
    exact ⟨time, key, past, short, le_trans early (le_of_lt later)⟩
  refine commit_rule ext store tx wall (fun _ => ⟨reached, Or.inl ⟨blank, rfl⟩⟩)
    (fun _ => ⟨advanced, Or.inl ⟨blank, rfl⟩⟩) fun _ => ?_
  have chg := @chg_flush ext (store.beginCommit wall).1 tx (store.beginCommit wall).2
  have counter : ((store.beginCommit wall).1.flush ext tx (store.beginCommit wall).2).1.committed =
      store.nextCommitTs wall := committed_flush _ _ _
  split_ifs at chg with logs
  · refine ⟨fun entry member => ?_, Or.inr ?_⟩
    · rw [chg] at member
      rw [counter]
      rcases SortedMap.mem_insert.mp member with here | ⟨old, _⟩
      · exact ⟨_, congrArg Prod.fst here, ahead, last, le_refl _⟩
      · exact advanced entry old
    · refine eq_singleton_of_sorted (SortedMap.seek_sorted _ _) ?_ fun entry member => ?_
      · rw [counter]
        refine (mem_seek_resumeKey ahead last).mpr ⟨?_, later⟩
        rw [chg]
        exact SortedMap.mem_insert.mpr (Or.inl rfl)
      · obtain ⟨stored, start⟩ := SortedMap.mem_seek.mp member
        rw [chg] at stored
        rw [counter]
        rcases SortedMap.mem_insert.mp stored with here | ⟨old, _⟩
        · exact here
        · exact (none_later entry (SortedMap.mem_seek.mpr ⟨old, start⟩)).elim
  · refine ⟨fun entry member => ?_, Or.inl ⟨?_, ?_⟩⟩
    · rw [chg] at member
      rw [counter]
      exact advanced entry member
    · rw [SortedMap.seek, chg]
      exact blank
    · exact stagedQuads_of_not_logs (Bool.not_eq_true _ ▸ logs)

end TripleStore

end Polargraph
