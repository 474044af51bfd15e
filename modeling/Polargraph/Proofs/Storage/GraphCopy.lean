import Mathlib.Data.List.Nodup
import Polargraph.Proofs.Storage.Closings

/-! What dropping and copying a graph leave live. -/

namespace Polargraph

/-- The pieces of a list are the list. -/
theorem chunks_flatten {α : Type} {size : Nat} (positive : 0 < size) (items : List α) :
    (chunks size items).flatten = items := by
  -- The first pieces are the items up to the end of the last of them.
  have taken : ∀ n, ((List.range n).map (fun i => (items.drop (i * size)).take size)).flatten =
      items.take (n * size) := by
    intro n
    induction n with
    | zero => simp
    | succ n ih =>
      rw [List.range_succ, List.map_append, List.flatten_append, ih, Nat.succ_mul, List.take_add]
      simp
  rw [chunks, taken, List.take_of_length_le]
  have whole := Nat.div_add_mod (items.length + size - 1) size
  have rest := Nat.mod_lt (items.length + size - 1) positive
  rw [Nat.mul_comm]
  omega

/-- An item is the only one of its name in a list that names nothing twice. -/
private theorem filter_eq_singleton {α β : Type} [DecidableEq β] {name : α → Option β}
    {items : List α} (distinct : (items.filterMap name).Nodup) {item : α} {own : β}
    (member : item ∈ items) (named : name item = some own) :
    items.filter (fun other => decide (name other = some own)) = [item] := by
  induction items with
  | nil => cases member
  | cons first rest ih =>
    rw [List.filterMap_cons] at distinct
    by_cases same : name first = some own
    · rw [same] at distinct
      obtain ⟨absent, _⟩ := List.nodup_cons.mp distinct
      have others : ∀ other ∈ rest, name other ≠ some own := fun other inside equal =>
        absent (List.mem_filterMap.mpr ⟨other, inside, equal⟩)
      rw [List.filter_cons_of_pos (by simpa using same), List.filter_eq_nil_iff.mpr fun other inside =>
        by simpa using others other inside]
      rcases List.mem_cons.mp member with rfl | later
      · rfl
      · exact absurd named (others item later)
    · have later : item ∈ rest := by
        rcases List.mem_cons.mp member with rfl | later
        · exact absurd named same
        · exact later
      rw [List.filter_cons_of_neg (by simpa using same)]
      refine ih ?_ later
      split at distinct
      · exact distinct
      · exact (List.nodup_cons.mp distinct).2

namespace TripleStore

variable {ext : External} {store after : TripleStore}

/-- Commits of writes that add have recorded each write, of different quads, and nothing else. -/
structure AddedEach (ext : External) (store after : TripleStore) (writes : List PendingWrite) :
    Prop where
  /-- The store stays sound. -/
  sound : after.Sound ext
  /-- The same graphs are known. -/
  graphs : store.SameGraphs after
  /-- The counter does not go back. -/
  advanced : store.committed ≤ after.committed
  /-- Known names stay known. -/
  names : ∀ name id, store.predicateId name = some id → after.predicateId name = some id
  /-- The predicates of the writes are known. -/
  interned : ∀ w ∈ writes, (after.predicateId w.triple.predicate).isSome
  /-- Each write is recorded. -/
  written : ∀ w ∈ writes, ∀ ids, after.quadOf ext w = some ids → ∃ tt bytes,
    store.committed < tt ∧ tt ≤ after.committed ∧ after.index.history ids =
      (store.index.history ids).put tt
        ⟨w.triple.temporal.vtStart, w.triple.temporal.vtEnd, bytes⟩
  /-- Other quads keep their histories. -/
  kept : ∀ ids, (∀ w ∈ writes, after.quadOf ext w ≠ some ids) →
    after.index.history ids = store.index.history ids

/-- One commit of writes of different quads records each of them. -/
theorem Added.each {writes : List PendingWrite} (added : store.Added ext after writes)
    (sound : after.Sound ext) (graphs : store.SameGraphs after)
    (distinct : (writes.filterMap (after.quadOf ext)).Nodup) :
    store.AddedEach ext after writes where
  sound := sound
  graphs := graphs
  advanced := added.advanced
  names := added.names
  interned := added.interned
  written w member ids own := by
    -- No other write of the list is of the same quad.
    have only : after.lastWrite ext writes ids = some w := by
      rw [lastWrite, filter_eq_singleton distinct member own]
      rfl
    have record := added.history ids
    rw [only] at record
    obtain ⟨bytes, record⟩ := record
    exact ⟨after.committed, bytes, added.later (List.ne_nil_of_mem member), le_refl _, record⟩
  kept ids none_written := by
    have absent : after.lastWrite ext writes ids = none := by
      rw [lastWrite, List.getLast?_eq_none_iff, List.filter_eq_nil_iff]
      exact fun w member => by simpa using none_written w member
    have record := added.history ids
    rwa [absent] at record

/-- Commits one after the other record the writes of both. -/
theorem AddedEach.append {middle : TripleStore} {first second : List PendingWrite}
    (early : store.AddedEach ext middle first) (late : middle.AddedEach ext after second)
    (distinct : ((first ++ second).filterMap (after.quadOf ext)).Nodup) :
    store.AddedEach ext after (first ++ second) where
  sound := late.sound
  graphs := early.graphs.trans late.graphs
  advanced := le_trans early.advanced late.advanced
  names name id known := late.names name id (early.names name id known)
  interned w member := by
    rcases List.mem_append.mp member with here | there
    · obtain ⟨id, known⟩ := Option.isSome_iff_exists.mp (early.interned w here)
      rw [late.names _ _ known]
      rfl
    · exact late.interned w there
  written w member ids own := by
    rw [List.filterMap_append] at distinct
    have apart := (List.nodup_append.mp distinct).2.2
    rcases List.mem_append.mp member with here | there
    · -- The quad is not written again.
      obtain ⟨tt, bytes, later, reached, record⟩ := early.written w here ids
        (quadOf_of_interned late.names (early.interned w here) own)
      refine ⟨tt, bytes, later, le_trans reached late.advanced, ?_⟩
      rw [late.kept ids fun other inside same => ?_, record]
      exact apart ids (List.mem_filterMap.mpr ⟨w, here, own⟩) ids
        (List.mem_filterMap.mpr ⟨other, inside, same⟩) rfl
    · obtain ⟨tt, bytes, later, reached, record⟩ := late.written w there ids own
      refine ⟨tt, bytes, lt_of_le_of_lt early.advanced later, reached, ?_⟩
      rw [record, early.kept ids fun other inside same => ?_]
      exact apart ids (List.mem_filterMap.mpr ⟨other, inside, quadOf_mono late.names same⟩) ids
        (List.mem_filterMap.mpr ⟨w, there, own⟩) rfl
  kept ids none_written := by
    rw [late.kept ids fun w inside => none_written w (List.mem_append_right _ inside),
      early.kept ids fun w inside same =>
        none_written w (List.mem_append_left _ inside) (quadOf_mono late.names same)]

/-- The writes of some additions to a graph. -/
def additions (g : GraphId) (triples : List Triple) : List PendingWrite :=
  triples.map fun triple => ⟨triple, g, .add⟩

/-- Additions close nothing. -/
theorem additions_adds {g : GraphId} {triples : List Triple} :
    ∀ w ∈ additions g triples, w.Adds := by
  intro w member
  obtain ⟨triple, _, rfl⟩ := List.mem_map.mp member
  cases triple <;> simp [PendingWrite.Adds, WriteMode.resolve]

/-- The transaction of a chunk has the additions of its triples. -/
theorem writes_chunkTx (store : TripleStore) (author : String) (g : GraphId)
    (triples : List Triple) :
    (store.chunkTx author g triples).writes = additions g triples := by
  suffices folded : ∀ tx : Transaction,
      (triples.foldl (fun tx triple => tx.insertIn triple g .add) tx).writes =
        tx.writes ++ additions g triples from folded _
  induction triples with
  | nil => exact fun tx => (List.append_nil _).symm
  | cons first rest ih =>
    intro tx
    rw [List.foldl_cons, ih]
    simp [Transaction.insertIn, additions]

/-- Recording a graph operation keeps the writes. -/
theorem writes_recordGraphOp (tx : Transaction) (op : GraphOp) :
    (tx.recordGraphOp op).writes = tx.writes := rfl

/-- A commit of additions of different quads records each of them. -/
theorem addedEach_commit {tx : Transaction} {g : GraphId} {triples : List Triple}
    {now time : Timestamp} (sound : store.Sound ext)
    (room : store.committed ≠ Timestamp.END_OF_TIME) (same : tx.writes = additions g triples)
    (stable : ∀ w ∈ additions g triples, w.Stable ext)
    (done : store.commit ext tx now = (after, .ok time))
    (distinct : ((additions g triples).filterMap (after.quadOf ext)).Nodup) :
    store.AddedEach ext after (additions g triples) := by
  have added := added_commit sound.keyed.holds (sound.counted room)
    (by rw [same]; exact additions_adds) done
  have settled := sound.commit room tx (by rw [same]; exact stable) now
  have graphs := sameGraphs_commit ext store tx now
  rw [done] at settled graphs
  rw [same] at added
  exact added.each settled graphs distinct

/-- Committing chunks of additions one after another records each of them. -/
theorem addedEach_commitChunks {author : String} {g : GraphId} {op : GraphOp} {now : Timestamp}
    {commits : Nat} {pieces : List (List Triple)} (sound : store.Sound ext)
    (room : store.HasRoom now (pieces.length + commits + 1))
    (stable : ∀ w ∈ additions g pieces.flatten, w.Stable ext)
    (done : commitChunks ext author g op now store pieces = (after, .ok ()))
    (distinct : ((additions g pieces.flatten).filterMap (after.quadOf ext)).Nodup) :
    store.AddedEach ext after (additions g pieces.flatten) ∧ after.HasRoom now commits := by
  induction pieces generalizing store with
  | nil =>
    simp only [commitChunks] at done
    split at done
    · cases done
    · rename_i time committed
      cases done
      have space : store.HasRoom now (commits + 1) := room.mono (by simp)
      have left := @HasRoom.commit ext _ _ _ space ((store.chunkTx author g []).recordGraphOp op)
      rw [committed] at left
      exact ⟨addedEach_commit sound room.room ((writes_recordGraphOp _ op).trans
        (writes_chunkTx store author g [])) stable committed distinct, left⟩
  | cons chunk rest ih =>
    have own : additions g (chunk :: rest).flatten = additions g chunk ++ additions g rest.flatten :=
      List.map_append
    have space : store.HasRoom now (rest.length + commits + 1 + 1) := room.mono (by rw [List.length_cons]; omega)
    cases rest with
    | nil =>
      simp only [commitChunks] at done
      split at done
      · cases done
      · rename_i time committed
        cases done
        have left := @HasRoom.commit ext _ _ _ space
          ((store.chunkTx author g chunk).recordGraphOp op)
        rw [committed] at left
        have flat : [chunk].flatten = chunk := by simp
        rw [flat] at stable distinct ⊢
        exact ⟨addedEach_commit sound room.room ((writes_recordGraphOp _ op).trans
          (writes_chunkTx store author g chunk)) stable committed distinct, left.mono (by simp)⟩
    | cons next others =>
      simp only [commitChunks] at done
      split at done
      · cases done
      · rename_i middle time committed
        have left := @HasRoom.commit ext _ _ _ space (store.chunkTx author g chunk)
        have settled := sound.commit room.room (store.chunkTx author g chunk)
          (by
            rw [writes_chunkTx]
            exact fun w member => stable w (by rw [own]; exact List.mem_append_left _ member)) now
        rw [committed] at left settled
        rw [own] at stable distinct ⊢
        have split := distinct
        rw [List.filterMap_append] at split
        obtain ⟨late, finished⟩ := ih settled left
          (fun w member => stable w (List.mem_append_right _ member)) done
          (List.nodup_append.mp split).2.1
        -- The first writes are of the same quads already when they are committed.
        have interned : ∀ w ∈ additions g chunk,
            (middle.predicateId w.triple.predicate).isSome := by
          have added := added_commit sound.keyed.holds (sound.counted room.room)
            (by rw [writes_chunkTx]; exact additions_adds) committed
          rw [writes_chunkTx] at added
          exact added.interned
        have same : (additions g chunk).filterMap (middle.quadOf ext) =
            (additions g chunk).filterMap (after.quadOf ext) := by
          refine List.filterMap_congr fun w member => Option.ext fun ids => ⟨quadOf_mono late.names,
            quadOf_of_interned late.names (interned w member)⟩
        have early := addedEach_commit sound room.room (writes_chunkTx store author g chunk)
          (fun w member => stable w (List.mem_append_left _ member)) committed
          (same ▸ (List.nodup_append.mp split).1)
        exact ⟨early.append late distinct, finished⟩

/-- Committing chunks keeps known names. -/
theorem predicateId_commitChunks {author : String} {g : GraphId} {op : GraphOp} {now : Timestamp}
    {pieces : List (List Triple)} {name : String} {id : PredId}
    (known : store.predicateId name = some id)
    (done : commitChunks ext author g op now store pieces = (after, .ok ())) :
    after.predicateId name = some id := by
  -- Each commit keeps them.
  have step : ∀ {store middle : TripleStore} {tx : Transaction} {time : Timestamp},
      store.predicateId name = some id → store.commit ext tx now = (middle, .ok time) →
        middle.predicateId name = some id := fun known committed => by
    exact (congrArg (fun store => store.predicateId name) (congrArg Prod.fst committed)).symm.trans
      (predicateId_commit known)
  induction pieces generalizing store with
  | nil =>
    simp only [commitChunks] at done
    split at done
    · cases done
    · cases done
      exact step known ‹_›
  | cons chunk rest ih =>
    cases rest with
    | nil =>
      simp only [commitChunks] at done
      split at done
      · cases done
      · cases done
        exact step known ‹_›
    | cons next others =>
      simp only [commitChunks] at done
      split at done
      · cases done
      · exact ih (step known ‹_›) done

/-- At most how many commits a graph operation takes for some quads. -/
def graphOpCommits (quads : Nat) : Nat := (quads + GRAPH_OP_CHUNK - 1) / GRAPH_OP_CHUNK + 1

/-- How many quads of a graph are live. -/
def liveCount (ext : External) (store : TripleStore) (g : GraphId) (now : Timestamp) : Nat :=
  match store.liveQuads ext g now with
  | .ok live => live.length
  | .error _ => 0

/-- Versions of some different quads of a graph have been recorded, and nothing else. -/
structure Filled (ext : External) (store after : TripleStore) (items : List (QuadIds × Triple)) :
    Prop where
  /-- The store stays sound. -/
  sound : after.Sound ext
  /-- The same graphs are known. -/
  graphs : store.SameGraphs after
  /-- The counter does not go back. -/
  advanced : store.committed ≤ after.committed
  /-- Known names stay known. -/
  names : ∀ name id, store.predicateId name = some id → after.predicateId name = some id
  /-- Each item is recorded. -/
  written : ∀ item ∈ items, ∃ tt bytes, store.committed < tt ∧ tt ≤ after.committed ∧
    after.index.history item.1 = (store.index.history item.1).put tt
      ⟨item.2.temporal.vtStart, item.2.temporal.vtEnd, bytes⟩
  /-- Other quads keep their histories. -/
  kept : ∀ ids, ids ∉ items.map Prod.fst → after.index.history ids = store.index.history ids

/-- Committing chunks of triples of different quads records each of them. -/
theorem filled_commitChunks {author : String} {g : GraphId} {op : GraphOp} {now : Timestamp}
    {commits : Nat} {items : List (QuadIds × Triple)} (sound : store.Sound ext)
    (room : store.HasRoom now (graphOpCommits items.length + commits))
    (own : ∀ item ∈ items, store.quadOf ext ⟨item.2, g, .add⟩ = some item.1 ∧
      PendingWrite.Stable ext ⟨item.2, g, .add⟩)
    (distinct : (items.map Prod.fst).Nodup)
    (done : commitChunks ext author g op now store
      (chunks GRAPH_OP_CHUNK (items.map Prod.snd)) = (after, .ok ())) :
    store.Filled ext after items ∧ after.HasRoom now commits := by
  have flat : (chunks GRAPH_OP_CHUNK (items.map Prod.snd)).flatten = items.map Prod.snd :=
    chunks_flatten (by decide) _
  have names : ∀ name id, store.predicateId name = some id → after.predicateId name = some id :=
    fun _ _ known => predicateId_commitChunks known done
  have quads : ∀ item ∈ items, after.quadOf ext ⟨item.2, g, .add⟩ = some item.1 :=
    fun item member => quadOf_mono names (own item member).1
  have listed : (additions g (items.map Prod.snd)).filterMap (after.quadOf ext) =
      items.map Prod.fst := by
    clear done room flat distinct own
    rw [additions, List.map_map, List.filterMap_map]
    induction items with
    | nil => rfl
    | cons first rest ih =>
      rw [List.map_cons, ← ih fun item member => quads item (List.mem_cons_of_mem _ member),
        List.filterMap_cons, Function.comp_apply, Function.comp_apply,
        quads first List.mem_cons_self]
  have stable : ∀ w ∈ additions g (items.map Prod.snd), w.Stable ext := by
    intro w member
    obtain ⟨triple, inside, rfl⟩ := List.mem_map.mp member
    obtain ⟨item, within, rfl⟩ := List.mem_map.mp inside
    exact (own item within).2
  have space : store.HasRoom now
      ((chunks GRAPH_OP_CHUNK (items.map Prod.snd)).length + commits + 1) := by
    refine room.mono (le_of_eq ?_)
    simp only [chunks, graphOpCommits, List.length_map, List.length_range]
    omega
  obtain ⟨each, left⟩ := addedEach_commitChunks sound space (by rwa [flat]) done
    (by rwa [flat, listed])
  rw [flat] at each
  refine ⟨⟨each.sound, each.graphs, each.advanced, names, fun item member => ?_,
    fun ids absent => each.kept ids fun w inside same => absent ?_⟩, left⟩
  · exact each.written ⟨item.2, g, .add⟩
      (List.mem_map.mpr ⟨item.2, List.mem_map.mpr ⟨item, member, rfl⟩, rfl⟩) item.1
      (quads item member)
  · rw [← listed]
    exact List.mem_filterMap.mpr ⟨w, inside, same⟩

/-- A quad that is filled is shown when its version would govern and covers the time. -/
theorem Filled.shows_iff {items : List (QuadIds × Triple)} (filled : store.Filled ext after items)
    (counted : store.Counted) {item : QuadIds × Triple} (member : item ∈ items) (vt : Timestamp) :
    after.Shows after.committed vt item.1 ↔
      (store.WouldGovern vt item.1 item.2.temporal.vtStart ∧ vt < item.2.temporal.vtEnd) ∨
        (¬ store.WouldGovern vt item.1 item.2.temporal.vtStart ∧
          store.Shows store.committed vt item.1) := by
  obtain ⟨tt, bytes, later, reached, record⟩ := filled.written item member
  exact shows_of_put counted later reached record vt

/-- What dropping a graph does. -/
structure Dropped (ext : External) (store : TripleStore) (g : GraphId) (now : Timestamp)
    (after : TripleStore) : Prop where
  /-- The store stays sound. -/
  sound : after.Sound ext
  /-- The same graphs are known. -/
  graphs : store.SameGraphs after
  /-- The counter does not go back. -/
  advanced : store.committed ≤ after.committed
  /-- Other graphs keep their histories. -/
  kept : ∀ ids, ids.g ≠ g → after.index.history ids = store.index.history ids
  /-- No quad of the graph is live. -/
  hidden : ∀ ids, ids.g = g → ¬ after.Shows after.committed now ids
  /-- The same later versions would govern. -/
  would : ∀ ids start, after.WouldGovern now ids start ↔ store.WouldGovern now ids start

/-- A successful drop closes every live quad of its graph. -/
theorem dropGraphBy_spec {g : GraphId} {author : String} {now : Timestamp} {commits n : Nat}
    (sound : store.Sound ext)
    (room : store.HasRoom now (graphOpCommits (store.liveCount ext g now) + commits))
    (done : store.dropGraphBy ext g author now = (after, .ok n)) :
    store.Dropped ext g now after ∧ after.HasRoom now commits := by
  unfold dropGraphBy at done
  split at done
  · cases done
  · rename_i live listed
    split at done
    · cases done
    · rename_i closed committed
      cases done
      obtain ⟨quads, rfl, result⟩ := liveQuads_spec sound.keyed.holds listed
      have within : ∀ quad ∈ quads, quad.1.g = g := fun quad member =>
        ((result.mem_iff quad.1).mp (List.mem_map.mpr ⟨quad, member, rfl⟩)).1
      have counted := sound.counted (room.mono (Nat.zero_le _)).room
      -- The closing versions are of the live quads.
      have moved : (quads.map Prod.snd).map (closeAt now) =
          (quads.map fun quad => (quad.1, closeAt now quad.2)).map Prod.snd := by
        rw [List.map_map, List.map_map]
        rfl
      have listed_ids : (quads.map fun quad => (quad.1, closeAt now quad.2)).map Prod.fst =
          quads.map Prod.fst := by
        rw [List.map_map]
        rfl
      have space : store.HasRoom now (graphOpCommits
          (quads.map fun quad => (quad.1, closeAt now quad.2)).length + commits) := by
        simp only [liveCount, listed, List.length_map] at room ⊢
        exact room
      rw [moved] at committed
      obtain ⟨filled, left⟩ := filled_commitChunks sound space (fun item member => by
          obtain ⟨quad, inside, rfl⟩ := List.mem_map.mp member
          obtain ⟨own, stable⟩ := (result.read quad inside).keyed sound.keyed g .add
          rw [quadOf_closeAt, own, ← within quad inside]
          exact ⟨rfl, within quad inside ▸ stable_closeAt stable⟩)
        (listed_ids ▸ result.distinct) committed
      -- Each closing version starts when the version it closes does, and ends at once.
      have closing : ∀ quad ∈ quads, (closeAt now quad.2).temporal.vtEnd = now ∧
          store.WouldGovern now quad.1 (closeAt now quad.2).temporal.vtStart ∧
          ∀ start, store.WouldGovern now quad.1 start →
            (closeAt now quad.2).temporal.vtStart ≤ start := by
        intro quad inside
        have own := ((result.read quad inside).keyed sound.keyed g .add).1
        obtain ⟨tt, version, governs, _, window, _⟩ := result.read quad inside
        rw [temporal_closeAt (w := ⟨quad.2, g, .add⟩) own, window]
        exact ⟨max_eq_left governs.seen.begun, wouldGovern_of_governs sound.recorded governs,
          fun start would => would.2 tt version governs.seen.stored governs.seen.begun⟩
      refine ⟨⟨filled.sound, filled.graphs, filled.advanced, fun ids other => ?_,
        fun ids here shows => ?_, fun ids start => ?_⟩, left⟩
      · refine filled.kept ids fun member => other ?_
        rw [listed_ids] at member
        exact ((result.mem_iff ids).mp member).1
      · by_cases member : ids ∈ quads.map Prod.fst
        · -- The closing version governs, and has ended.
          obtain ⟨quad, inside, rfl⟩ := List.mem_map.mp member
          obtain ⟨ends, would, _⟩ := closing quad inside
          rcases (filled.shows_iff counted (List.mem_map.mpr ⟨quad, inside, rfl⟩) now).mp shows with
            ⟨_, covers⟩ | ⟨loses, _⟩
          · exact absurd covers (not_lt.mpr (le_of_eq ends))
          · exact loses would
        · have kept := filled.kept ids (by rwa [listed_ids])
          exact member ((result.mem_iff ids).mpr
            ⟨here, (shows_of_kept counted filled.advanced kept now).mp shows⟩)
      · by_cases member : ids ∈ quads.map Prod.fst
        · obtain ⟨quad, inside, rfl⟩ := List.mem_map.mp member
          obtain ⟨_, would, highest⟩ := closing quad inside
          obtain ⟨tt, bytes, later, _, record⟩ :=
            filled.written _ (List.mem_map.mpr ⟨quad, inside, rfl⟩)
          have absent : store.index.history quad.1 tt = none := by
            by_contra stored
            obtain ⟨version, stored⟩ := Option.ne_none_iff_exists'.mp stored
            exact absurd (counted.recorded ⟨quad.1, tt⟩ _ (Index.history_eq_some.mp stored).1)
              (not_le.mpr later)
          rw [wouldGovern_of_put absent record]
          exact ⟨fun both => both.1, fun old => ⟨old, fun _ => highest start old⟩⟩
        · simp only [WouldGovern, filled.kept ids (by rwa [listed_ids])]

/-- A drop hides its graph and shows the others as before, and a second one closes nothing. -/
theorem dropGraphBy_closes {g : GraphId} {author : String} {now : Timestamp} {n : Nat}
    (sound : store.Sound ext)
    (room : store.HasRoom now (graphOpCommits (store.liveCount ext g now)))
    (done : store.dropGraphBy ext g author now = (after, .ok n)) :
    (∀ ids, ids.g = g → ¬ after.Shows after.committed now ids) ∧
      (∀ ids, ids.g ≠ g → ∀ vt,
        (after.Shows after.committed vt ids ↔ store.Shows store.committed vt ids)) ∧
      ∀ again m, after.dropGraphBy ext g author now = (again, .ok m) → m = 0 := by
  obtain ⟨drop, _⟩ := dropGraphBy_spec sound (room.mono (Nat.le_of_eq (Nat.add_zero _))) done
  refine ⟨drop.hidden, fun ids other => shows_of_kept (sound.counted
    (room.mono (Nat.zero_le _)).room) drop.advanced (drop.kept ids other), fun again m closed => ?_⟩
  unfold dropGraphBy at closed
  split at closed
  · cases closed
  · rename_i live listed
    split at closed
    · cases closed
    · cases closed
      -- A quad that is closed again would be shown by the first drop.
      obtain ⟨quads, rfl, result⟩ := liveQuads_spec drop.sound.keyed.holds listed
      cases quads with
      | nil => rfl
      | cons quad rest =>
        obtain ⟨here, shows⟩ := (result.mem_iff quad.1).mp List.mem_cons_self
        exact absurd shows (drop.hidden quad.1 here)

/-- The flag of a chunked copy of some quads is not kept in the target itself. -/
def FlagApart (store : TripleStore) (target : GraphId) (quads : Nat) : Prop :=
  GRAPH_OP_CHUNK < quads → target ≠ GraphId.DEFAULT → store.systemGraphId ≠ target

/-- A flag that is changed, or not, only touches the system graph. -/
structure FlagChanged (ext : External) (store : TripleStore) (target : GraphId)
    (after : TripleStore) : Prop where
  /-- The store stays sound. -/
  sound : after.Sound ext
  /-- The counter does not go back. -/
  advanced : store.committed ≤ after.committed
  /-- Known names stay known. -/
  names : ∀ name id, store.predicateId name = some id → after.predicateId name = some id
  /-- The target keeps its histories. -/
  kept : ∀ ids, ids.g = target → after.index.history ids = store.index.history ids

/-- What only touches another graph leaves the target as it was. -/
theorem Beside.flagChanged {target meta_ : GraphId} (beside : store.Beside ext meta_ after)
    (apart : meta_ ≠ target) : store.FlagChanged ext target after where
  sound := beside.sound
  advanced := beside.advanced
  names := beside.names
  kept ids here := beside.kept ids fun same => apart (same.symm.trans here)

/-- Setting the flag of a copy leaves the target as it was, and the flag where it is known. -/
theorem flagChanged_set {target : GraphId} {now : Timestamp} {chunked : Bool} {commits : Nat}
    (sound : store.Sound ext) (room : store.HasRoom now (commits + 1))
    (apart : chunked = true → target ≠ GraphId.DEFAULT → store.systemGraphId ≠ target)
    (done : store.flagged chunked target (fun store => store.setGraphMetadata ext target
      [(COPY_IN_PROGRESS_PRED, .bool true)] now) = (after, .ok ()))
    (stable : (Value.bool true).Stable ext) :
    store.FlagChanged ext target after ∧ after.HasRoom now commits ∧
      (chunked = true → target ≠ GraphId.DEFAULT →
        ∃ meta_, after.graphFwd SYSTEM_GRAPH_IRI = some meta_ ∧ meta_ ≠ target) := by
  unfold flagged at done
  split_ifs at done with wanted
  · simp only [Bool.and_eq_true, decide_eq_true_eq] at wanted
    obtain ⟨beside, known, left⟩ := setGraphMetadata_beside sound room (by simpa using stable) done
    have other := apart wanted.1 wanted.2
    exact ⟨beside.flagChanged other, left, fun _ _ => ⟨_, known, other⟩⟩
  · cases done
    simp only [Bool.and_eq_true, decide_eq_true_eq] at wanted
    exact ⟨(Beside.refl sound ⟨target.raw + 1⟩).flagChanged (by
      intro same
      have word := congrArg GraphId.raw same
      simp at word), room.mono (Nat.le_succ _), fun chunked named => absurd ⟨chunked, named⟩ wanted⟩

/-- Clearing the flag of a copy leaves the target as it was. -/
theorem flagChanged_clear {target : GraphId} {now : Timestamp} {chunked : Bool}
    (sound : store.Sound ext) (room : store.HasRoom now 1)
    (known : chunked = true → target ≠ GraphId.DEFAULT →
      ∃ meta_, store.graphFwd SYSTEM_GRAPH_IRI = some meta_ ∧ meta_ ≠ target)
    (done : store.flagged chunked target
      (fun store => store.clearGraphMetadata ext target COPY_IN_PROGRESS_PRED now) =
        (after, .ok ())) : store.FlagChanged ext target after := by
  unfold flagged at done
  split_ifs at done with wanted
  · simp only [Bool.and_eq_true, decide_eq_true_eq] at wanted
    obtain ⟨meta_, system, other⟩ := known wanted.1 wanted.2
    exact (clearGraphMetadata_beside sound room system done).flagChanged other
  · cases done
    exact ⟨sound, le_refl _, fun _ _ known => known, fun _ _ => rfl⟩

/-- A quad moved to another graph. -/
def moveTo (target : GraphId) (quad : QuadIds × Triple) : QuadIds × Triple :=
  ({ quad.1 with g := target }, quad.2)

/-- Quads of one graph stay different when they are moved to another. -/
theorem nodup_moveTo {quads : List (QuadIds × Triple)} {source target : GraphId}
    (distinct : (quads.map Prod.fst).Nodup) (within : ∀ quad ∈ quads, quad.1.g = source) :
    ((quads.map (moveTo target)).map Prod.fst).Nodup := by
  have same : (quads.map (moveTo target)).map Prod.fst =
      (quads.map Prod.fst).map (fun ids => ({ ids with g := target } : QuadIds)) := by
    rw [List.map_map, List.map_map]
    rfl
  rw [same]
  refine List.Nodup.map_on (fun left inside right inside' equal => ?_) distinct
  obtain ⟨⟨⟨s, p, o, g⟩, _⟩, member, rfl⟩ := List.mem_map.mp inside
  obtain ⟨⟨⟨s', p', o', g'⟩, _⟩, member', rfl⟩ := List.mem_map.mp inside'
  have graphs : g = g' := (within _ member).trans (within _ member').symm
  simp only [QuadIds.mk.injEq] at equal ⊢
  exact ⟨equal.1, equal.2.1, equal.2.2.1, graphs⟩

/-- The quads live in the target after are those live in the source before. -/
def CopiedLive (store after : TripleStore) (source target : GraphId) (now : Timestamp) : Prop :=
  ∀ ids : QuadIds, ids.g = target → (after.Shows after.committed now ids ↔
    store.Shows store.committed now { ids with g := source })

/--
No live quad of the source starts before a version of it in the target.

Only versions that have begun count, open or closed.
-/
def StartsLast (store : TripleStore) (source target : GraphId) (now : Timestamp) : Prop :=
  ∀ ids : QuadIds, ids.g = target → ∀ tt version,
    (store.index.history { ids with g := source }).Governs store.committed now tt version →
    now < version.stop → ¬ (version.start = Timestamp.MIN ∧ tt = Timestamp.MIN) →
      store.WouldGovern now ids version.start

section Copy

variable {source target : GraphId} {author : String} {now : Timestamp} {n : Nat}
  (sound : store.Sound ext) (distinct : source ≠ target)
  (room : store.HasRoom now (graphOpCommits (store.liveCount ext target now) +
    (graphOpCommits n + 2)))
  (apart : store.FlagApart target n) (stable : (Value.bool true).Stable ext)
include sound distinct room apart stable

/-- A copy after a drop leaves a sound store, and what it copies live in the target. -/
theorem copyGraphBy_spec
    (done : store.copyGraphBy ext source target true author now = (after, .ok n)) :
    after.Sound ext ∧ ∀ ids : QuadIds, ids.g = target → (after.Shows after.committed now ids ↔
      ∃ tt version,
        (store.index.history { ids with g := source }).Governs store.committed now tt version ∧
        now < version.stop ∧ ¬ (version.start = Timestamp.MIN ∧ tt = Timestamp.MIN) ∧
        store.WouldGovern now ids version.start) := by
  unfold copyGraphBy at done
  rw [if_neg distinct] at done
  simp only [if_true] at done
  split at done
  · cases done
  · rename_i cleared closed dropped
    obtain ⟨drop, dropRoom⟩ := dropGraphBy_spec sound room dropped
    split at done
    · cases done
    · rename_i live listed
      split at done
      · cases done
      · rename_i flagged_ set
        split at done
        · cases done
        · rename_i filled_ committed
          split at done
          · cases done
          · rename_i last cleared'
            cases done
            obtain ⟨quads, rfl, result⟩ := liveQuads_spec drop.sound.keyed.holds listed
            have within : ∀ quad ∈ quads, quad.1.g = source := fun quad member =>
              ((result.mem_iff quad.1).mp (List.mem_map.mpr ⟨quad, member, rfl⟩)).1
            have copies : quads.map Prod.snd = (quads.map (moveTo target)).map Prod.snd := by
              rw [List.map_map]
              rfl
            have count : (quads.map (moveTo target)).length = (quads.map Prod.snd).length := by simp
            have flagId : cleared.systemGraphId = store.systemGraphId := by
              rw [systemGraphId, systemGraphId, drop.graphs.graphFwd, drop.graphs.nextGraphId]
            -- The flag, the copies and the flag again are recorded one after the other.
            obtain ⟨flag, flagRoom, known⟩ := flagChanged_set drop.sound dropRoom
              (fun chunked named => by
                rw [flagId]
                exact apart (by simpa using chunked) named) set stable
            rw [copies] at committed
            obtain ⟨fill, fillRoom⟩ := filled_commitChunks flag.sound (by rwa [count])
              (fun item member => by
                obtain ⟨quad, inside, rfl⟩ := List.mem_map.mp member
                obtain ⟨own, stable⟩ := (result.read quad inside).keyed drop.sound.keyed target .add
                exact ⟨quadOf_mono flag.names own, stable⟩)
              (nodup_moveTo result.distinct within) committed
            have clear := flagChanged_clear fill.sound fillRoom
              (fun chunked named => by
                rw [fill.graphs.graphFwd]
                exact known chunked named) cleared'
            have counted := sound.counted (room.mono (Nat.zero_le _)).room
            have dropCounted := drop.sound.counted dropRoom.room
            have flagCounted := flag.sound.counted flagRoom.room
            have fillCounted := fill.sound.counted fillRoom.room
            refine ⟨clear.sound, fun ids moved => ?_⟩
            -- Before the copies nothing is live in the target, and the versions there are the old ones.
            have hidden : ¬ flagged_.Shows flagged_.committed now ids := fun shows =>
              drop.hidden ids moved
                ((shows_of_kept dropCounted flag.advanced (flag.kept ids moved) now).mp shows)
            have would : ∀ start, flagged_.WouldGovern now ids start ↔
                store.WouldGovern now ids start := fun start => by
              rw [← drop.would ids start, WouldGovern, WouldGovern, flag.kept ids moved]
            have source_kept : ∀ tt version,
                (cleared.index.history { ids with g := source }).Governs cleared.committed now tt
                  version ↔ (store.index.history { ids with g := source }).Governs store.committed
                    now tt version := fun tt version => by
              rw [drop.kept _ (show source ≠ target from distinct)]
              exact History.governs_of_recorded (fun tt version stored => counted.recorded _ _
                (Index.history_eq_some.mp stored).1) drop.advanced
            rw [shows_of_kept fillCounted clear.advanced (clear.kept ids moved)]
            constructor
            · intro shows
              by_cases member : ids ∈ (quads.map (moveTo target)).map Prod.fst
              · obtain ⟨item, copied, rfl⟩ := List.mem_map.mp member
                have governs := (fill.shows_iff flagCounted copied now).mp shows
                obtain ⟨quad, inside, rfl⟩ := List.mem_map.mp copied
                have here : ({ (moveTo target quad).1 with g := source } : QuadIds) = quad.1 := by
                  rw [← within quad inside]
                  rfl
                obtain ⟨tt, version, own, covers, window, _⟩ := result.read quad inside
                obtain ⟨_, tt', version', own', _, ranked⟩ :=
                  (result.mem_iff quad.1).mp (List.mem_map.mpr ⟨quad, inside, rfl⟩)
                obtain ⟨rfl, rfl⟩ := own.unique own'
                rcases governs with ⟨would', _⟩ | ⟨_, before⟩
                · rw [would, show (moveTo target quad).2.temporal.vtStart = version.start from
                    congrArg BiTemporalRange.vtStart window] at would'
                  exact ⟨tt, version, (source_kept tt version).mp (by rwa [here]), covers, ranked,
                    would'⟩
                · exact absurd before hidden
              · exact absurd ((shows_of_kept flagCounted fill.advanced (fill.kept ids member) now).mp
                  shows) hidden
            · rintro ⟨tt, version, own, covers, ranked, would'⟩
              have own := (source_kept tt version).mpr own
              obtain ⟨quad, inside, here⟩ := List.mem_map.mp ((result.mem_iff _).mpr
                ⟨rfl, tt, version, own, covers, ranked⟩)
              obtain ⟨tt', version', own', _, window, _⟩ := result.read quad inside
              rw [here] at own'
              obtain ⟨rfl, rfl⟩ := own.unique own'
              have item : (moveTo target quad).1 = ids := by
                rw [moveTo, here, ← moved]
              have start : (moveTo target quad).2.temporal = ⟨version.start, version.stop, tt⟩ := window
              rw [← item]
              refine (fill.shows_iff flagCounted (List.mem_map.mpr ⟨quad, inside, rfl⟩) now).mpr
                (Or.inl ?_)
              rw [item, would, start]
              exact ⟨would', covers⟩

/-- What copying a graph into another after dropping it leaves live in the target. -/
theorem copyGraphBy_shows_iff
    (done : store.copyGraphBy ext source target true author now = (after, .ok n)) (ids : QuadIds)
    (moved : ids.g = target) : after.Shows after.committed now ids ↔
      ∃ tt version,
        (store.index.history { ids with g := source }).Governs store.committed now tt version ∧
        now < version.stop ∧ ¬ (version.start = Timestamp.MIN ∧ tt = Timestamp.MIN) ∧
        store.WouldGovern now ids version.start :=
  (copyGraphBy_spec sound distinct room apart stable done).2 ids moved

/-- A move does what a copy does, and leaves nothing live in the source. -/
theorem moveGraphBy_moves_iff
    (later : ∀ middle, store.copyGraphBy ext source target true author now = (middle, .ok n) →
      middle.HasRoom now (graphOpCommits (middle.liveCount ext source now)))
    (done : store.moveGraphBy ext source target author now = (after, .ok n)) :
    (store.CopiedLive after source target now ↔ store.StartsLast source target now) ∧
      ∀ ids, ids.g = source → ¬ after.Shows after.committed now ids := by
  rw [moveGraphBy, if_neg distinct] at done
  split at done
  · cases done
  · rename_i middle _ copied
    split at done
    · cases done
    · rename_i dropped
      cases done
      obtain ⟨sound', shown⟩ := copyGraphBy_spec sound distinct room apart stable copied
      obtain ⟨drop, _⟩ := dropGraphBy_spec sound'
        ((later _ copied).mono (Nat.le_of_eq (Nat.add_zero _))) dropped
      -- The drop keeps what the copy left in the target.
      have kept : ∀ ids : QuadIds, ids.g = target →
          (after.Shows after.committed now ids ↔ middle.Shows middle.committed now ids) :=
        fun ids moved => shows_of_kept (sound'.counted ((later _ copied).mono (Nat.zero_le _)).room)
          drop.advanced (drop.kept ids (moved ▸ distinct.symm)) now
      refine ⟨⟨fun copied ids moved tt version governs covers ranked => ?_,
        fun last ids moved => ?_⟩, drop.hidden⟩
      · obtain ⟨_, _, own, _, _, would⟩ := (shown ids moved).mp ((kept ids moved).mp
          ((copied ids moved).mpr ⟨tt, version, governs, covers, ranked⟩))
        obtain ⟨rfl, rfl⟩ := governs.unique own
        exact would
      · rw [kept ids moved, shown ids moved]
        constructor
        · rintro ⟨tt, version, governs, covers, ranked, _⟩
          exact ⟨tt, version, governs, covers, ranked⟩
        · rintro ⟨tt, version, governs, covers, ranked⟩
          exact ⟨tt, version, governs, covers, ranked,
            last ids moved tt version governs covers ranked⟩

end Copy

/-- A copy is a copy exactly when no live quad of the source starts before one in the target. -/
theorem copyGraphBy_copies_iff {source target : GraphId} {author : String} {now : Timestamp}
    {n : Nat} (sound : store.Sound ext) (distinct : source ≠ target)
    (room : store.HasRoom now (graphOpCommits (store.liveCount ext target now) +
      (graphOpCommits n + 2)))
    (apart : store.FlagApart target n) (stable : (Value.bool true).Stable ext)
    (done : store.copyGraphBy ext source target true author now = (after, .ok n)) :
    store.CopiedLive after source target now ↔ store.StartsLast source target now := by
  have shown := copyGraphBy_shows_iff sound distinct room apart stable done
  constructor
  · intro copied ids moved tt version governs covers ranked
    obtain ⟨tt', version', own, _, _, would⟩ := (shown ids moved).mp
      ((copied ids moved).mpr ⟨tt, version, governs, covers, ranked⟩)
    obtain ⟨rfl, rfl⟩ := governs.unique own
    exact would
  · intro last ids moved
    rw [shown ids moved]
    constructor
    · rintro ⟨tt, version, governs, covers, ranked, _⟩
      exact ⟨tt, version, governs, covers, ranked⟩
    · rintro ⟨tt, version, governs, covers, ranked⟩
      exact ⟨tt, version, governs, covers, ranked,
        last ids moved tt version governs covers ranked⟩

/-- A new store in which a graph is interned. -/
def withOneGraph : TripleStore :=
  match create.internGraph External.unreached "urn:g" with
  | .ok (store, _) => store
  | .error _ => create

/-- A transaction that relates two nodes in a graph, from a start on. -/
def related (tx : Transaction) (start : Int) (g : GraphId) : Transaction :=
  tx.insertIn (.relation (NodeId.ofByte 1) "knows" (NodeId.ofByte 2) ⟨(NodeId.ofByte 3).uuid⟩
    ⟨Timestamp.wrap start, Timestamp.END_OF_TIME, Timestamp.zero⟩) g .add

/-- A store in which the default graph and another relate two nodes, each from its own start on. -/
def relatedTwice (first second : Int) : TripleStore :=
  (withOneGraph.commit External.unreached (related (related withOneGraph.begin first
    GraphId.DEFAULT) second ⟨1⟩) (Timestamp.wrap 6)).1

/-- The store with two relations is sound. -/
theorem relatedTwice_sound (first second : Int) :
    (relatedTwice first second).Sound External.unreached := by
  have interned : ∃ g, create.internGraph External.unreached "urn:g" = .ok (withOneGraph, g) := by
    have succeeds : (create.internGraph External.unreached "urn:g").isOk = true := by decide +kernel
    unfold withOneGraph
    cases done : create.internGraph External.unreached "urn:g" with
    | error problem => rw [done] at succeeds; cases succeeds
    | ok pair => exact ⟨pair.2, rfl⟩
  obtain ⟨g, interned⟩ := interned
  have sound := (internGraph_kept (sound_configured External.unreached _ _ _) interned).1
  refine sound.commit (by decide +kernel) _ (fun w member => ?_) _
  simp only [related, Transaction.insertIn, begin, Transaction.new, List.nil_append,
    List.mem_append, List.mem_singleton] at member
  rcases member with rfl | rfl <;> exact fun _ _ _ _ same => by cases same

/-- The result of copying the default graph onto the other graph of two related nodes. -/
def copiedOver (first second : Int) : TripleStore × Except StorageError Nat :=
  (relatedTwice first second).copyGraphBy External.unreached GraphId.DEFAULT ⟨1⟩ true ""
    (Timestamp.wrap 10)

/-- A pair is its first component with what its second one is. -/
private theorem eq_pair {α β : Type} {pair : α × β} {second : β} (result : pair.2 = second) :
    pair = (pair.1, second) := by
  rw [← result]

/-- The copy succeeds when the result says so. -/
theorem copiedOver_eq {first second : Int} {n : Nat} (result : (copiedOver first second).2 = .ok n) :
    (relatedTwice first second).copyGraphBy External.unreached GraphId.DEFAULT ⟨1⟩ true ""
      (Timestamp.wrap 10) = ((copiedOver first second).1, .ok n) :=
  eq_pair result

/-- A copy onto a graph whose versions start no later is a copy. -/
theorem copyGraphBy_copies_iff_earlier :
    (relatedTwice 5 1).CopiedLive (copiedOver 5 1).1 GraphId.DEFAULT ⟨1⟩ (Timestamp.wrap 10) ↔
      (relatedTwice 5 1).StartsLast GraphId.DEFAULT ⟨1⟩ (Timestamp.wrap 10) := by
  have done := copiedOver_eq (show (copiedOver 5 1).2 = .ok 1 by decide +kernel)
  have room : (relatedTwice 5 1).HasRoom (Timestamp.wrap 10)
      (graphOpCommits ((relatedTwice 5 1).liveCount External.unreached ⟨1⟩ (Timestamp.wrap 10)) +
        (graphOpCommits 1 + 2)) := by
    unfold HasRoom
    decide +kernel
  have few : (relatedTwice 5 1).FlagApart ⟨1⟩ 1 := fun many => absurd many (by decide)
  exact copyGraphBy_copies_iff (relatedTwice_sound 5 1) (by decide) room few
    (fun _ written => by cases written) done

/-- The drop of one of two related nodes' graphs closes it for good. -/
theorem dropGraphBy_closes_one :
    let after := ((relatedTwice 5 1).dropGraphBy External.unreached ⟨1⟩ "" (Timestamp.wrap 10)).1
    (∀ ids : QuadIds, ids.g = ⟨1⟩ → ¬ after.Shows after.committed (Timestamp.wrap 10) ids) ∧
      (∀ ids : QuadIds, ids.g ≠ ⟨1⟩ → ∀ vt, (after.Shows after.committed vt ids ↔
        (relatedTwice 5 1).Shows (relatedTwice 5 1).committed vt ids)) ∧
      ∀ again m, after.dropGraphBy External.unreached ⟨1⟩ "" (Timestamp.wrap 10) = (again, .ok m) →
        m = 0 :=
  dropGraphBy_closes (relatedTwice_sound 5 1) (by unfold HasRoom; decide +kernel)
    (eq_pair (show _ = Except.ok 1 by decide +kernel))

/-- A move onto a graph whose versions start no later is a move. -/
theorem moveGraphBy_moves_iff_earlier :
    let after := ((relatedTwice 5 1).moveGraphBy External.unreached GraphId.DEFAULT ⟨1⟩ ""
      (Timestamp.wrap 10)).1
    ((relatedTwice 5 1).CopiedLive after GraphId.DEFAULT ⟨1⟩ (Timestamp.wrap 10) ↔
      (relatedTwice 5 1).StartsLast GraphId.DEFAULT ⟨1⟩ (Timestamp.wrap 10)) ∧
      ∀ ids : QuadIds, ids.g = GraphId.DEFAULT →
        ¬ after.Shows after.committed (Timestamp.wrap 10) ids :=
  moveGraphBy_moves_iff (relatedTwice_sound 5 1) (by decide)
    (by unfold HasRoom; decide +kernel) (fun many => absurd many (by decide))
    (fun _ written => by cases written)
    (fun middle copied => by
      obtain rfl : (copiedOver 5 1).1 = middle := congrArg Prod.fst copied
      unfold HasRoom
      decide +kernel)
    (eq_pair (show _ = Except.ok 1 by decide +kernel))

/-- The store with two relations is reachable. -/
theorem relatedTwice_reachable (first second : Int) :
    Reachable External.unreached (relatedTwice first second) := by
  refine .commit _ _ ?_
  have created : Reachable External.unreached create :=
    .create DEFAULT_INLINE_VALUE_MAX_BYTES Vocabulary.default true
  unfold withOneGraph
  split
  · rename_i done
    exact .internGraph created done
  · exact created

/-- The relation as it is read back, from a start on. -/
def relation (start : Int) : Triple :=
  .relation (NodeId.ofByte 1) "urn:pg:vocab:knows" (NodeId.ofByte 2) ⟨(NodeId.ofByte 3).uuid⟩
    ⟨Timestamp.wrap start, Timestamp.END_OF_TIME, Timestamp.wrap 6⟩

/-- A version of the target that starts later than the source's hides what is copied. -/
theorem copyGraphBy_misses : Reachable External.unreached (relatedTwice 1 5) ∧
    (copiedOver 1 5).2 = .ok 1 ∧
      ¬ (relatedTwice 1 5).CopiedLive (copiedOver 1 5).1 GraphId.DEFAULT ⟨1⟩ (Timestamp.wrap 10) := by
  have sound := relatedTwice_sound 1 5
  have result : (copiedOver 1 5).2 = .ok 1 := by decide +kernel
  refine ⟨relatedTwice_reachable 1 5, result, fun copied => ?_⟩
  have room : (relatedTwice 1 5).HasRoom (Timestamp.wrap 10)
      (graphOpCommits ((relatedTwice 1 5).liveCount External.unreached ⟨1⟩ (Timestamp.wrap 10)) +
        (graphOpCommits 1 + 2)) := by
    unfold HasRoom
    decide +kernel
  have few : (relatedTwice 1 5).FlagApart ⟨1⟩ 1 := fun many => absurd many (by decide)
  have shown := copyGraphBy_shows_iff sound (by decide) room few
    (fun _ written => by cases written) (copiedOver_eq result)
  -- Both graphs show the relation, each from its own start on.
  have read : ∀ (g : GraphId) (start : Int), (relatedTwice 1 5).liveQuads External.unreached g
      (Timestamp.wrap 10) = .ok [relation start] → ∃ ids : QuadIds, ids.g = g ∧
        (relatedTwice 1 5).Shows (relatedTwice 1 5).committed (Timestamp.wrap 10) ids ∧
        (relatedTwice 1 5).ReadFrom External.unreached (relatedTwice 1 5).committed
          (Timestamp.wrap 10) ids (relation start) := by
    intro g start listed
    obtain ⟨quads, same, result⟩ := liveQuads_spec sound.keyed.holds listed
    obtain ⟨quad, inside, here⟩ := List.mem_map.mp (same ▸ List.mem_singleton_self (relation start))
    obtain ⟨own, shows⟩ := (result.mem_iff quad.1).mp (List.mem_map.mpr ⟨quad, inside, rfl⟩)
    exact ⟨quad.1, own, shows, here ▸ result.read quad inside⟩
  obtain ⟨⟨s, p, o, g⟩, rfl, shows, from_⟩ := read GraphId.DEFAULT 1 (by decide +kernel)
  obtain ⟨⟨s', p', o', g'⟩, rfl, _, from'⟩ := read ⟨1⟩ 5 (by decide +kernel)
  have same : (⟨s, p, o, ⟨1⟩⟩ : QuadIds) = ⟨s', p', o', ⟨1⟩⟩ := Option.some.inj
    ((from_.keyed sound.keyed ⟨1⟩ .add).1.symm.trans (from'.keyed sound.keyed ⟨1⟩ .add).1)
  cases same
  obtain ⟨tt, version, governs, _, _, would⟩ :=
    (shown ⟨s, p, o, ⟨1⟩⟩ rfl).mp ((copied ⟨s, p, o, ⟨1⟩⟩ rfl).mpr shows)
  obtain ⟨_, first, own, _, window, _⟩ := from_
  obtain ⟨_, second, other, _, window', _⟩ := from'
  obtain ⟨rfl, rfl⟩ := governs.unique own
  -- The relation of the target starts later.
  have late := would.2 _ second other.seen.stored other.seen.begun
  have starts : version.start = Timestamp.wrap 1 := (congrArg BiTemporalRange.vtStart window).symm
  have starts' : second.start = Timestamp.wrap 5 := (congrArg BiTemporalRange.vtStart window').symm
  rw [starts, starts'] at late
  exact absurd late (by decide)

end TripleStore

end Polargraph
