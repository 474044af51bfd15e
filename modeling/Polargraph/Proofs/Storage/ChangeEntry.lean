import Polargraph.Proofs.Core.Utf8
import Polargraph.Proofs.Storage.LogReplay

/-! Which change-log entries decode to what was logged. -/

namespace Polargraph

/-- As many operations are read as were asked for. -/
theorem length_readGraphOps {n : Nat} {buf rest : Bytes} {ops : List GraphOp}
    (read : readGraphOps n buf = some (ops, rest)) : ops.length = n := by
  induction n generalizing buf ops rest with
  | zero =>
    cases read
    rfl
  | succ n ih =>
    obtain ⟨⟨op, after⟩, _, read⟩ := Option.bind_eq_some_iff.mp read
    obtain ⟨⟨more, last⟩, later, read⟩ := Option.bind_eq_some_iff.mp read
    cases read
    rw [List.length_cons, ih later]

/-- The author bytes of an entry begin those of the author. -/
theorem authorBytes_isPrefix (author : String) : authorBytes author <+: utf8 author :=
  List.take_prefix _ _

/-- An author of at most 65535 bytes is kept whole. -/
theorem authorBytes_of_short {author : String} (short : (utf8 author).length ≤ 65535) :
    authorBytes author = utf8 author := by
  rw [authorBytes, min_eq_left short, List.take_length]

/-- A version takes at least one byte of an entry, and its value takes its own length. -/
theorem length_encode_le {author : String} {ops : List GraphOp} {quads : List StagedQuad} :
    quads.length ≤ (encodeChange author ops quads).length ∧
      ∀ quad ∈ quads, quad.value.length ≤ (encodeChange author ops quads).length := by
  have inside : (quads.flatMap StagedQuad.encode).length ≤ (encodeChange author ops quads).length := by
    simp only [encodeChange, List.length_cons, List.length_append]
    omega
  -- The induction counts the versions one after another.
  have counted : quads.length ≤ (quads.flatMap StagedQuad.encode).length ∧
      ∀ quad ∈ quads, quad.value.length ≤ (quads.flatMap StagedQuad.encode).length := by
    induction quads with
    | nil => simp
    | cons first rest ih =>
      obtain ⟨count, values⟩ := ih (by simp only [encodeChange, List.length_cons, List.length_append]; omega)
      have own : first.value.length + 1 ≤ first.encode.length := by
        simp only [StagedQuad.encode, List.length_append, u32Bytes_length]
        omega
      rw [List.flatMap_cons, List.length_append, List.length_cons]
      refine ⟨by omega, fun quad member => ?_⟩
      rcases List.mem_cons.mp member with rfl | later
      · omega
      · have bound := values quad later
        omega
  exact ⟨le_trans counted.1 inside, fun quad member => le_trans (counted.2 quad member) inside⟩

namespace TripleStore

variable {ext : External} {store after : TripleStore}

/-- A part that is passed on was there. -/
private theorem orBad_eq_ok {α : Type} {commitTs : Timestamp} {part : Option α} {value : α}
    (read : orBad commitTs part = .ok value) : part = some value := by
  cases part with
  | none => cases read
  | some found =>
    cases read
    rfl

/-- What follows a part that is there is what is done with it. -/
private theorem bind_of_read {α β : Type} {commitTs : Timestamp} {part : Option α} {value : α}
    (next : α → Except StorageError β) (read : part = some value) :
    (orBad commitTs part >>= next) = next value := by
  rw [read]
  rfl

/-- What is decoded of an entry: a string of the author bytes, and operations counted in two bytes. -/
theorem decodeChange_parts {tt : Timestamp} {author : String} {ops : List GraphOp}
    {quads : List StagedQuad} {record : ChangeRecord}
    (done : store.decodeChange ext tt (encodeChange author ops quads) = .ok record) :
    record.commitTs = tt ∧ fromUtf8 (authorBytes author) = some record.author ∧
      record.graphOps.length = ops.length % 2 ^ 16 := by
  simp only [decodeChange, encodeChange, List.append_assoc] at done
  -- The fields are read in the order they were written, up to the operations.
  replace done := (bind_of_read _ (readBytes_append [CHANGES_VERSION] _ rfl)).symm.trans done
  rw [if_neg (not_not.mpr rfl)] at done
  replace done := (bind_of_read _ (readBytes_append _ _ (beBytes_length 2 _))).symm.trans done
  replace done := (bind_of_read _ (readBytes_append _ _ (beNat_authorBytes author).symm)).symm.trans done
  obtain ⟨name, named, done⟩ := Except.bind_eq_ok.mp done
  replace done := (bind_of_read _ (readBytes_append _ _ (beBytes_length 2 _))).symm.trans done
  obtain ⟨⟨listed, rest⟩, read, done⟩ := Except.bind_eq_ok.mp done
  obtain ⟨⟨nQuads, rest⟩, _, done⟩ := Except.bind_eq_ok.mp done
  obtain ⟨rebuilt, _, done⟩ := Except.bind_eq_ok.mp done
  cases done
  refine ⟨rfl, orBad_eq_ok named, ?_⟩
  have length := length_readGraphOps (orBad_eq_ok read)
  rw [length, beNat_beBytes]
  norm_num

/--
An entry decodes to what was logged.

The author is the same, or the prefix that its 65535 bytes spell, and each version is rebuilt.
-/
def DecodesExactly (ext : External) (store : TripleStore) (tt : Timestamp) (author : String)
    (ops : List GraphOp) (quads : List StagedQuad) : Prop :=
  ∃ record, store.decodeChange ext tt (encodeChange author ops quads) = .ok record ∧
    record.commitTs = tt ∧ record.graphOps = ops ∧
    (utf8 record.author <+: utf8 author ∧ ((utf8 author).length ≤ 65535 → record.author = author)) ∧
    quads.mapM (rebuildLogged ext store tt) = .ok record.quads

/-- An entry that fits the database decodes to what was logged exactly under three conditions. -/
theorem decodesExactly_iff {tt : Timestamp} {author : String} {ops : List GraphOp}
    {quads : List StagedQuad} (fits : (encodeChange author ops quads).length < 2 ^ 32) :
    DecodesExactly ext store tt author ops quads ↔
      (fromUtf8 (authorBytes author)).isSome ∧ ops.length < 2 ^ 16 ∧
        ∀ quad ∈ quads, ∃ triple, store.rebuildLogged ext tt quad = .ok triple := by
  obtain ⟨counted, values⟩ := @length_encode_le author ops quads
  have small : ∀ quad ∈ quads, quad.value.length < 2 ^ 32 := fun quad member =>
    lt_of_le_of_lt (values quad member) fits
  constructor
  · rintro ⟨record, done, _, operations, _, rebuilt⟩
    obtain ⟨_, named, length⟩ := decodeChange_parts done
    refine ⟨by rw [named]; rfl, ?_, Except.mapM_isOk_iff.mp ⟨_, rebuilt⟩⟩
    rw [operations] at length
    rw [length]
    exact Nat.mod_lt _ (by decide)
  · rintro ⟨named, few, rebuilds⟩
    obtain ⟨name, named⟩ := Option.isSome_iff_exists.mp named
    obtain ⟨triples, rebuilt⟩ := Except.mapM_isOk_iff.mpr rebuilds
    have whole : quads.take (quads.length % 2 ^ 32) = quads := by
      rw [Nat.mod_eq_of_lt (lt_of_le_of_lt counted fits), List.take_length]
    refine ⟨_, decodeChange_encodeChange named few small (by rw [whole]; exact rebuilt), rfl, rfl,
      ⟨?_, fun short => ?_⟩, rebuilt⟩
    · rw [utf8_of_fromUtf8 named]
      exact authorBytes_isPrefix author
    · rw [authorBytes_of_short short, fromUtf8_utf8] at named
      exact (Option.some.inj named).symm

/-- The versions of a commit can be rebuilt after it when its values read back. -/
theorem rebuilds_commit (holds : store.db.OrdersHold store.index) (stored : store.Rebuildable ext)
    {tx : Transaction} (readsBack : ∀ w ∈ tx.writes, w.ReadsBack ext) (wall time : Timestamp) :
    ∀ quad ∈ store.commitQuads ext tx wall,
      ∃ triple, (store.commit ext tx wall).1.rebuildLogged ext time quad = .ok triple := by
  intro quad member
  have logs := stored.logs holds readsBack wall
  obtain ⟨_, backed⟩ := store.commit_blobs ext (holds .gspo) stored.resolves tx wall
  obtain ⟨decodes, named⟩ := logs.quads quad member
  obtain ⟨triple, rebuilt⟩ := @Maintained.exists_reconstruct ext (store.commit ext tx wall).1
    quad.key.toQuadIds quad.value named decodes (backed quad member) (fun hash payload found =>
      (logs.blobs hash payload found).elim (stored.blobs hash payload) id) time
  exact ⟨_, Except.bind_eq_ok.mpr ⟨triple, rebuilt, rfl⟩⟩

/-- A commit with an operation or a version has an entry in the log. -/
theorem mem_chg_commit {tx : Transaction} {wall time : Timestamp}
    (logged : (tx.graphOps.isEmpty && (store.commitQuads ext tx wall).isEmpty) = false)
    (done : store.commit ext tx wall = (after, .ok time)) :
    (after.db.family .chg).find? time.toBeBytes =
      some (encodeChange tx.author tx.graphOps (store.commitQuads ext tx wall)) := by
  rcases @chg_commit ext store tx wall with ⟨_, nothing, idle⟩ | ⟨entry, counter, _⟩
  · -- Without versions there is an operation, so the transaction is not empty.
    exfalso
    rw [done] at idle
    have blank : tx.graphOps = [] := (idle rfl).elim (fun empty => by
      simp only [Transaction.isEmpty, Bool.and_eq_true, List.isEmpty_iff] at empty
      exact empty.2) id
    simp [blank, nothing] at logged
  · have full : tx.isEmpty = false := by
      by_contra empty
      simp only [Bool.not_eq_false] at empty
      have quads : store.commitQuads ext tx wall = [] := by rw [commitQuads, if_pos empty]
      simp only [Transaction.isEmpty, Bool.and_eq_true, List.isEmpty_iff] at empty
      simp [empty.2, quads] at logged
    have own := (commit_time full done).2
    rw [done] at entry
    rw [entry, own]
    exact SortedMap.find?_insert_self _ _ _

/--
The entries of the change log decode exactly under three conditions.

The author is not cut within a character, the operations can be counted, and each version can be
rebuilt; after a commit of values that read back the last one holds.
-/
theorem change_entries_decode (ext : External) :
    (∀ (store : TripleStore) tt author ops quads, (encodeChange author ops quads).length < 2 ^ 32 →
      (DecodesExactly ext store tt author ops quads ↔
        (fromUtf8 (authorBytes author)).isSome ∧ ops.length < 2 ^ 16 ∧
          ∀ quad ∈ quads, ∃ triple, store.rebuildLogged ext tt quad = .ok triple)) ∧
    ∀ (store after : TripleStore) tx wall time, store.db.OrdersHold store.index →
      store.Rebuildable ext → (∀ w ∈ tx.writes, w.ReadsBack ext) →
      store.commit ext tx wall = (after, .ok time) →
      (tx.graphOps.isEmpty && (store.commitQuads ext tx wall).isEmpty) = false →
      (encodeChange tx.author tx.graphOps (store.commitQuads ext tx wall)).length < 2 ^ 32 →
      (after.db.family .chg).find? time.toBeBytes =
          some (encodeChange tx.author tx.graphOps (store.commitQuads ext tx wall)) ∧
        (DecodesExactly ext after time tx.author tx.graphOps (store.commitQuads ext tx wall) ↔
          (fromUtf8 (authorBytes tx.author)).isSome ∧ tx.graphOps.length < 2 ^ 16) := by
  refine ⟨fun store tt author ops quads fits => decodesExactly_iff fits, ?_⟩
  intro store after tx wall time holds stored readsBack done logged fits
  refine ⟨mem_chg_commit logged done, ?_⟩
  have rebuilds := rebuilds_commit holds stored readsBack wall time
  rw [done] at rebuilds
  rw [decodesExactly_iff fits]
  exact and_congr_right fun _ => and_iff_left rebuilds

/-- A relation and a graph operation that are committed under a name. -/
def signedRelation : Transaction :=
  (((Transaction.new Timestamp.zero).setAuthor "ann").recordGraphOp (.created ⟨2⟩)).insertIn
    (.relation (NodeId.ofByte 1) "knows" (NodeId.ofByte 2) ⟨Uuid.nil⟩
      ⟨Timestamp.zero, Timestamp.END_OF_TIME, Timestamp.zero⟩) GraphId.DEFAULT .auto

/-- The entry of a signed commit decodes to what was logged. -/
theorem change_entries_decode_signed : ∃ after,
    (configured 256 Vocabulary.default true).commit External.unreached signedRelation Timestamp.zero =
      (after, .ok (Timestamp.wrap 1)) ∧
    DecodesExactly External.unreached after (Timestamp.wrap 1) "ann" [.created ⟨2⟩]
      ((configured 256 Vocabulary.default true).commitQuads External.unreached signedRelation
        Timestamp.zero) := by
  obtain ⟨after, done⟩ : ∃ after, (configured 256 Vocabulary.default true).commit
      External.unreached signedRelation Timestamp.zero = (after, .ok (Timestamp.wrap 1)) := ⟨_, rfl⟩
  have intact := intact_configured External.unreached 256 Vocabulary.default true
  have readsBack : ∀ w ∈ signedRelation.writes, w.ReadsBack External.unreached := by
    intro w member subject predicate value temporal same
    rw [List.mem_singleton.mp member] at same
    cases same
  have entry := (change_entries_decode External.unreached).2 _ after signedRelation
    Timestamp.zero (Timestamp.wrap 1) intact.sound.keyed.holds intact.stored readsBack done rfl
    (by decide +kernel)
  exact ⟨after, done, entry.2.mpr ⟨by decide +kernel, by decide⟩⟩

/-- An entry whose author bytes are no string is reported as corrupt. -/
theorem decodeChange_of_cut {tt : Timestamp} {author : String} {ops : List GraphOp}
    {quads : List StagedQuad} (cut : fromUtf8 (authorBytes author) = none) :
    store.decodeChange ext tt (encodeChange author ops quads) =
      .error (.keyDecode ("corrupt change-log entry at " ++ toString tt.micros)) := by
  have authorLen : beNat (beBytes 2 (authorBytes author).length) = (authorBytes author).length :=
    beNat_beBytes_of_lt (by simp only [authorBytes, List.length_take]; omega)
  simp only [decodeChange, encodeChange, List.append_assoc]
  -- The layout version, the length of the author and the author's bytes are there.
  refine (bind_of_read _ (readBytes_append [CHANGES_VERSION] _ rfl)).trans ?_
  refine (if_neg (not_not.mpr rfl)).trans ?_
  refine (bind_of_read _ (readBytes_append _ _ (beBytes_length 2 _))).trans ?_
  refine (bind_of_read _ (readBytes_append _ _ (beNat_authorBytes author).symm)).trans ?_
  rw [cut]
  rfl

/-- Letters of one byte, then a letter of two. -/
def lettersThenTwo (n : Nat) : String := String.ofList (List.replicate n 'a' ++ ['é'])

/-- The bytes of letters of one byte, then of a letter of two. -/
theorem utf8_lettersThenTwo (n : Nat) :
    utf8 (lettersThenTwo n) = List.replicate n 0x61 ++ [0xC3, 0xA9] := by
  rw [lettersThenTwo, utf8_ofList]
  induction n with
  | zero => decide
  | succ n ih =>
    rw [List.replicate_succ, List.cons_append, List.flatMap_cons, ih]
    rfl

/-- Letters of one byte before the first byte of a longer letter spell no string. -/
theorem fromUtf8_letters (n : Nat) : fromUtf8 (List.replicate n 0x61 ++ [0xC3]) = none := by
  have invalid : ¬ ByteArray.IsValidUTF8
      ⟨(List.replicate n (0x61 : UInt8) ++ [(0xC3 : UInt8)]).toArray⟩ := by
    induction n with
    | zero => decide
    | succ n ih =>
      intro valid
      apply ih
      -- The first letter is a character of its own, so it can be taken off.
      apply ByteArray.isValidUTF8_utf8Encode_singleton_append_iff.mp
      have same : ['a'].utf8Encode ++ ⟨(List.replicate n (0x61 : UInt8) ++ [(0xC3 : UInt8)]).toArray⟩ =
          (⟨(List.replicate (n + 1) (0x61 : UInt8) ++ [(0xC3 : UInt8)]).toArray⟩ : ByteArray) := by
        apply ByteArray.ext
        rw [ByteArray.data_append, List.utf8Encode_singleton, List.data_toByteArray,
          List.append_toArray]
        rfl
      rw [same]
      exact valid
  rw [fromUtf8, String.fromUTF8?, dif_neg invalid]

/-- An author whose last letter is cut by the limit of an entry, and a graph operation. -/
def longAuthor : Transaction :=
  ((Transaction.new Timestamp.zero).setAuthor (lettersThenTwo 65534)).recordGraphOp
    (.created ⟨2⟩)

/-- The bytes that are kept of the long author end within a letter. -/
theorem authorBytes_longAuthor :
    authorBytes longAuthor.author = List.replicate 65534 0x61 ++ [0xC3] := by
  have whole : utf8 longAuthor.author = (List.replicate 65534 0x61 ++ [0xC3]) ++ [0xA9] := by
    rw [List.append_assoc]
    exact utf8_lettersThenTwo 65534
  have length : (List.replicate 65534 (0x61 : UInt8) ++ [0xC3]).length = 65535 := by
    rw [List.length_append, List.length_replicate]
    rfl
  rw [authorBytes, whole, List.length_append, length]
  exact List.take_left' length

/-- The commit of the long author writes an entry that is rejected as corrupt. -/
theorem long_author_rejected : ∃ after entry,
    (configured 256 Vocabulary.default true).commit External.unreached longAuthor Timestamp.zero =
      (after, .ok (Timestamp.wrap 1)) ∧
    (after.db.family .chg).find? (Timestamp.wrap 1).toBeBytes = some entry ∧
    after.decodeChange External.unreached (Timestamp.wrap 1) entry =
      .error (.keyDecode "corrupt change-log entry at 1") := by
  obtain ⟨after, done⟩ : ∃ after, (configured 256 Vocabulary.default true).commit
      External.unreached longAuthor Timestamp.zero = (after, .ok (Timestamp.wrap 1)) := ⟨_, rfl⟩
  refine ⟨after, _, done, mem_chg_commit rfl done, ?_⟩
  apply decodeChange_of_cut
  rw [authorBytes_longAuthor]
  exact fromUtf8_letters 65534

end TripleStore

end Polargraph
