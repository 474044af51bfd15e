import Polargraph.Proofs.Storage.Blobs
import Polargraph.Proofs.Storage.LogEntry

/-! What holds of everything that writes stage, since it survives closing. -/

namespace Polargraph

variable {ext : External}

/-- Something holds of every staged version and of every out-of-line value that is put. -/
structure Staging.All (staging : Staging) (version : NodeId → Bytes → Prop)
    (payload : Bytes → Bytes → Prop) : Prop where
  /-- It holds of the staged versions. -/
  quads : ∀ quad ∈ staging.quads, version quad.key.o quad.value
  /-- It holds of the values a later write may close. -/
  values : ∀ name, ∀ value ∈ staging.slot name, version value.1 value.2
  /-- It holds of the out-of-line values. -/
  blobs : ∀ hash bytes, .put .blob hash bytes ∈ staging.batch → payload hash bytes

/-- Nothing is staged at first. -/
theorem Staging.none_all (version : NodeId → Bytes → Prop) (payload : Bytes → Bytes → Prop) :
    Staging.none.All version payload where
  quads _ member := absurd member List.not_mem_nil
  values _ _ member := absurd member List.not_mem_nil
  blobs _ _ member := absurd member List.not_mem_nil

/-- What holds of relations and survives closing. -/
structure Carried (version : NodeId → Bytes → Prop) : Prop where
  /-- It holds of relations. -/
  relation : ∀ object edgeId temporal, version object (encodeRelation edgeId temporal)
  /-- It survives closing. -/
  closed : ∀ object bytes closed closing, version object bytes →
    withVtEnd bytes closing = .ok closed → version object closed

namespace TripleStore

variable {store after : TripleStore} {index : Index} {version : NodeId → Bytes → Prop}
  {payload : Bytes → Bytes → Prop} {tt : Timestamp} {staging next : Staging}

/-- What a write stages of its own has the property: its version and its out-of-line value. -/
def Encodes (ext : External) (store : TripleStore) (version : NodeId → Bytes → Prop)
    (payload : Bytes → Bytes → Prop) (w : PendingWrite) : Prop :=
  ∀ subject predicate value window, w.triple = .property subject predicate value window →
    ∀ batch blobs bytes temporal,
      store.encodePropertyEntry ext batch value temporal = .ok (batch ++ blobs, bytes) →
      version (valueObject ext value) bytes ∧
        ∀ hash written, .put .blob hash written ∈ blobs → payload hash written

/-- Staging one write keeps what holds of everything staged. -/
theorem stageWrite_all (holds : store.db.OrderHolds .gspo index) (carried : Carried version)
    (stored : ∀ key bytes, index key = some bytes → version key.o bytes) {p : PredId}
    {w : PendingWrite} (encodes : store.Encodes ext version payload w)
    (all : staging.All version payload) (done : store.stageWrite ext tt p staging w = .ok next) :
    next.All version payload := by
  obtain ⟨triple, g, mode⟩ := w
  cases triple with
  | relation subject predicate object edgeId window =>
    cases done
    refine ⟨fun quad member => ?_, all.values, fun hash bytes member => ?_⟩
    · rcases List.mem_append.mp member with old | new
      · exact all.quads quad old
      · rw [List.mem_singleton.mp new]
        exact carried.relation _ _ _
    · rcases List.mem_append.mp member with old | new
      · exact all.blobs hash bytes old
      · obtain ⟨order, same⟩ := batchQuads_cf new
        cases same
  | property subject predicate value window =>
    obtain ⟨blobs, bytes, closing, encoded, _, closed, quads, batch, values⟩ :=
      stageWrite_property done
    obtain ⟨own, payloads⟩ := encodes _ _ _ _ rfl _ _ _ _ encoded
    refine ⟨fun quad member => ?_, fun name held member => ?_, fun hash written member => ?_⟩
    · rw [quads] at member
      rcases List.mem_append.mp member with before | new
      · exact all.quads quad before
      · rcases List.mem_append.mp new with closes | here
        · -- What a write closes was staged earlier or is stored.
          obtain ⟨bytes', closing', _, staged | ⟨time, found⟩⟩ :=
            mem_stageClosings holds closed closes
          · exact carried.closed _ _ _ _ (all.values (subject, p, g) _ staged) closing'
          · exact carried.closed _ _ _ _ (stored ⟨⟨subject, p, quad.key.o, g⟩, time⟩ _ found)
              closing'
        · rw [List.mem_singleton.mp here]
          exact own
    · by_cases slot : name = (subject, p, g)
      · subst slot
        rw [Staging.slot, values, Latest.lookup_entryUpdate_self, Option.getD_some] at member
        rcases List.mem_append.mp member with before | here
        · split_ifs at before
          · simp at before
          · exact all.values (subject, p, g) held before
        · rw [List.mem_singleton.mp here]
          exact own
      · rw [Staging.slot, values, Latest.lookup_entryUpdate_ne slot] at member
        exact all.values name held member
    · rw [batch] at member
      simp only [List.mem_append] at member
      rcases member with ((before | blob) | staged) | text
      · exact all.blobs hash written before
      · exact payloads hash written blob
      · obtain ⟨order, same⟩ := batchQuads_cf staged
        cases same
      · cases batchTextTrigrams_cf text
  | edgeProperty edge predicate value window =>
    obtain ⟨bytes, _, done⟩ := Except.bind_eq_ok.mp done
    cases done
    refine ⟨all.quads, all.values, fun hash written member => ?_⟩
    rcases List.mem_append.mp member with old | new
    · exact all.blobs hash written old
    · simp [batchEpa] at new
  | edgeRelation edge predicate object window =>
    cases done
    refine ⟨all.quads, all.values, fun hash written member => ?_⟩
    rcases List.mem_append.mp member with old | new
    · exact all.blobs hash written old
    · simp [batchEpo] at new

/-- Interning a predicate does not change how values are encoded. -/
theorem encodes_internPredicate (pred : String) {w : PendingWrite} :
    (store.internPredicate pred).1.Encodes ext version payload w ↔
      store.Encodes ext version payload w := by
  have same : ∀ batch value temporal,
      (store.internPredicate pred).1.encodePropertyEntry ext batch value temporal =
        store.encodePropertyEntry ext batch value temporal := by
    intro batch value temporal
    unfold TripleStore.internPredicate
    simp only
    split <;> rfl
  simp only [Encodes, same]

/-- Staging any number of writes keeps what holds of everything staged. -/
theorem stageWrites_all {writes : List PendingWrite} (holds : store.db.OrderHolds .gspo index)
    (carried : Carried version)
    (stored : ∀ key bytes, index key = some bytes → version key.o bytes)
    (encodes : ∀ w ∈ writes, store.Encodes ext version payload w)
    (all : staging.All version payload)
    (done : stageWrites ext tt store staging writes = (after, .ok next)) :
    next.All version payload := by
  refine (stageWrites_ordered (motive := fun store staging =>
    (∀ w ∈ writes, store.Encodes ext version payload w) ∧ staging.All version payload) holds
      ⟨encodes, all⟩ done fun w member store staging next kept both staged => ?_).2
  have still : ∀ other ∈ writes,
      (store.internPredicate w.triple.predicate).1.Encodes ext version payload other :=
    fun other listed => (encodes_internPredicate _).mpr (both.1 other listed)
  exact ⟨still, stageWrite_all kept carried stored (still w member) both.2 staged⟩

/-- What holds of everything staged holds of the versions and out-of-line values a flush adds. -/
theorem flush_all {tx : Transaction} (holds : store.db.OrderHolds .gspo index)
    (carried : Carried version)
    (stored : ∀ key bytes, index key = some bytes → version key.o bytes)
    (encodes : ∀ w ∈ tx.writes, store.Encodes ext version payload w) (commitTs : Timestamp) :
    (∀ quad ∈ store.stagedQuads ext tx commitTs, version quad.key.o quad.value) ∧
      ∀ entry ∈ ((store.flush ext tx commitTs).1.db.family .blob).entries,
        entry ∈ (store.db.family .blob).entries ∨ payload entry.1 entry.2 := by
  have blob : (stageWrites ext commitTs store Staging.none tx.writes).1.db.family .blob =
      store.db.family .blob := family_stageWrites commitTs store _ _ (by simp)
  refine flush_rule ext store tx commitTs
    (fun _ => ⟨by simp, fun entry member => Or.inl (by rwa [blob] at member)⟩)
    fun after staging batch staged built => ?_
  rw [staged] at blob
  have all := stageWrites_all holds carried stored encodes (Staging.none_all version payload) staged
  refine ⟨all.quads, Db.entries_write .blob
    (fun entry => entry ∈ (store.db.family .blob).entries ∨ payload entry.1 entry.2)
    (fun entry member => Or.inl (by rwa [blob] at member)) fun hash written put => Or.inr ?_⟩
  -- Only what the writes stage puts out-of-line values.
  rcases mem_commitBatch built put with own | change | iri | counter
  · exact all.blobs hash written own
  · cases change
  · cases iri
  · cases counter

/-- What holds of everything staged holds of the versions and out-of-line values a commit adds. -/
theorem commit_all {tx : Transaction} (holds : store.db.OrderHolds .gspo index)
    (carried : Carried version)
    (stored : ∀ key bytes, index key = some bytes → version key.o bytes)
    (encodes : ∀ w ∈ tx.writes, store.Encodes ext version payload w) (wall : Timestamp) :
    (∀ quad ∈ store.commitQuads ext tx wall, version quad.key.o quad.value) ∧
      ∀ entry ∈ ((store.commit ext tx wall).1.db.family .blob).entries,
        entry ∈ (store.db.family .blob).entries ∨ payload entry.1 entry.2 := by
  have published : (store.beginCommit wall).1.db.OrderHolds .gspo index := holds
  exact commit_rule ext store tx wall (fun _ => ⟨by simp, fun entry member => Or.inl member⟩)
    (fun _ => ⟨by simp, fun entry member => Or.inl member⟩)
    fun _ => flush_all published carried stored encodes _

end TripleStore

end Polargraph
