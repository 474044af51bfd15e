import Polargraph.Lib.Except
import Polargraph.Storage.Changes

/-! Change-log entries read back as they were written. -/

namespace Polargraph

/-- The front of a buffer is cut off by its length. -/
theorem readBytes_append {n : Nat} (first rest : Bytes) (width : first.length = n) :
    readBytes n (first ++ rest) = some (first, rest) := by
  subst width
  simp [readBytes]

/-- A node reads back from its own bytes. -/
private theorem readNode_append (node : NodeId) (rest : Bytes) :
    readNode (node.uuid.bytes ++ rest) = some (node, rest) := by
  simp [readNode, readBytes_append _ rest node.uuid.width]

/-- A 32-bit identifier reads back from its own bytes. -/
private theorem readU32_append (id : UInt32) (rest : Bytes) :
    readU32 (u32Bytes id ++ rest) = some (id, rest) := by
  simp [readU32, readBytes_append _ rest (u32Bytes_length id)]

/-- A length reads back modulo the range of its four bytes. -/
theorem readU32_beBytes (count : Nat) (rest : Bytes) :
    readU32 (beBytes 4 count ++ rest) = some (UInt32.ofNat (count % 2 ^ 32), rest) := by
  simp [readU32, readBytes_append _ rest (beBytes_length 4 count), u32From, beNat_beBytes]

/-- A number taken modulo the range of 32 bits fits them. -/
private theorem toNat_ofNat_mod (count : Nat) :
    (UInt32.ofNat (count % 2 ^ 32)).toNat = count % 2 ^ 32 := by
  have bound : count % 2 ^ 32 < 2 ^ 32 := Nat.mod_lt _ (by decide)
  rw [UInt32.toNat_ofNat']
  exact Nat.mod_eq_of_lt bound

/-- A graph operation reads back from its own bytes. -/
private theorem readGraphOp_append (op : GraphOp) (rest : Bytes) :
    readGraphOp (op.encode ++ rest) = some (op, rest) := by
  -- The kind is the first byte, and both graphs follow it.
  have kind : ∀ (byte : UInt8) (tail : Bytes), readBytes 1 (byte :: tail) = some ([byte], tail) :=
    fun byte tail => readBytes_append [byte] tail rfl
  cases op with
  | created g | dropped g | copied source target =>
    simp [readGraphOp, GraphOp.encode, kind, readU32_append]

/-- Graph operations read back one after another. -/
theorem readGraphOps_append (ops : List GraphOp) (rest : Bytes) :
    readGraphOps ops.length (ops.flatMap GraphOp.encode ++ rest) = some (ops, rest) := by
  induction ops with
  | nil => rfl
  | cons op more ih =>
    rw [List.length_cons, List.flatMap_cons, List.append_assoc, readGraphOps, readGraphOp_append]
    simp only [Option.bind_eq_bind, Option.bind_some, ih]
    rfl

/-- A logged version reads back when its value is short enough for its length field. -/
private theorem readQuad_append {quad : StagedQuad} (small : quad.value.length < 2 ^ 32)
    (rest : Bytes) :
    readQuad (quad.encode ++ rest) = some (quad.key.toQuadIds, quad.value, rest) := by
  have len : (UInt32.ofNat (quad.value.length % 2 ^ 32)).toNat = quad.value.length :=
    (toNat_ofNat_mod _).trans (Nat.mod_eq_of_lt small)
  have value : readBytes (UInt32.ofNat (quad.value.length % 2 ^ 32)).toNat (quad.value ++ rest) =
      some (quad.value, rest) := readBytes_append _ rest len.symm
  -- The fields are read in the order they were written.
  simp only [readQuad, StagedQuad.encode, List.append_assoc, Option.bind_eq_bind]
  refine Option.bind_eq_some_iff.mpr ⟨_, readNode_append _ _, ?_⟩
  refine Option.bind_eq_some_iff.mpr ⟨_, readU32_append _ _, ?_⟩
  refine Option.bind_eq_some_iff.mpr ⟨_, readNode_append _ _, ?_⟩
  refine Option.bind_eq_some_iff.mpr ⟨_, readU32_append _ _, ?_⟩
  refine Option.bind_eq_some_iff.mpr ⟨_, readU32_beBytes _ _, ?_⟩
  exact Option.bind_eq_some_iff.mpr ⟨_, value, rfl⟩

/-- Read a number of logged quad versions, not rebuilt. -/
def readLogged : Nat → Bytes → Option (List (QuadIds × Bytes))
  | 0, _ => some []
  | n + 1, buf => do
    let (ids, value, rest) ← readQuad buf
    let quads ← readLogged n rest
    return (ids, value) :: quads

/-- The quad versions of a change-log entry, not rebuilt. -/
def loggedQuads (entry : Bytes) : Option (List (QuadIds × Bytes)) := do
  let (version, rest) ← readBytes 1 entry
  if version ≠ [CHANGES_VERSION] then none
  else do
    let (authorLen, rest) ← readBytes 2 rest
    let (_, rest) ← readBytes (beNat authorLen) rest
    let (nOps, rest) ← readBytes 2 rest
    let (_, rest) ← readGraphOps (beNat nOps) rest
    let (nQuads, rest) ← readU32 rest
    readLogged nQuads.toNat rest

/-- Logged versions read back one after another. -/
private theorem readLogged_append {quads : List StagedQuad}
    (small : ∀ quad ∈ quads, quad.value.length < 2 ^ 32) (rest : Bytes) :
    readLogged quads.length (quads.flatMap StagedQuad.encode ++ rest) =
      some (quads.map fun quad => (quad.key.toQuadIds, quad.value)) := by
  induction quads with
  | nil => rfl
  | cons quad more ih =>
    have later := ih fun other member => small other (List.mem_cons_of_mem _ member)
    rw [List.length_cons, List.flatMap_cons, List.append_assoc, readLogged,
      readQuad_append (small quad List.mem_cons_self)]
    simp only [Option.bind_eq_bind, Option.bind_some, later]
    rfl

/-- The length of an author fits its field. -/
theorem beNat_authorBytes (author : String) :
    beNat (beBytes 2 (authorBytes author).length) = (authorBytes author).length :=
  beNat_beBytes_of_lt (by simp only [authorBytes, List.length_take]; omega)

/-- Operations read back when their number fits its field. -/
theorem readGraphOps_written {ops : List GraphOp} (few : ops.length < 2 ^ 16) (rest : Bytes) :
    readGraphOps (beNat (beBytes 2 ops.length)) (ops.flatMap GraphOp.encode ++ rest) =
      some (ops, rest) := by
  rw [show beNat (beBytes 2 ops.length) = ops.length from beNat_beBytes_of_lt few]
  exact readGraphOps_append ops rest

/-- The versions of a written entry read back, when their numbers and lengths fit their fields. -/
theorem loggedQuads_encodeChange {author : String} {ops : List GraphOp} {quads : List StagedQuad}
    (few : ops.length < 2 ^ 16) (bounded : quads.length < 2 ^ 32)
    (small : ∀ quad ∈ quads, quad.value.length < 2 ^ 32) :
    loggedQuads (encodeChange author ops quads) =
      some (quads.map fun quad => (quad.key.toQuadIds, quad.value)) := by
  have all : readLogged (UInt32.ofNat (quads.length % 2 ^ 32)).toNat
      (quads.flatMap StagedQuad.encode) =
        some (quads.map fun quad => (quad.key.toQuadIds, quad.value)) := by
    rw [toNat_ofNat_mod, Nat.mod_eq_of_lt bounded, ← readLogged_append small [], List.append_nil]
  -- The fields are read in the order they were written.
  simp only [loggedQuads, encodeChange, List.append_assoc, Option.bind_eq_bind]
  refine Option.bind_eq_some_iff.mpr ⟨_, readBytes_append [CHANGES_VERSION] _ rfl, ?_⟩
  refine (if_neg (not_not.mpr rfl)).trans ?_
  refine Option.bind_eq_some_iff.mpr ⟨_, readBytes_append _ _ (beBytes_length 2 _), ?_⟩
  refine Option.bind_eq_some_iff.mpr ⟨_, readBytes_append _ _ (beNat_authorBytes author).symm, ?_⟩
  refine Option.bind_eq_some_iff.mpr ⟨_, readBytes_append _ _ (beBytes_length 2 _), ?_⟩
  refine Option.bind_eq_some_iff.mpr ⟨_, readGraphOps_written few _, ?_⟩
  exact Option.bind_eq_some_iff.mpr ⟨_, readU32_beBytes _ _, all⟩

namespace TripleStore

variable {ext : External} {store : TripleStore}

/-- Rebuild the triple of a logged version. -/
def rebuildLogged (ext : External) (store : TripleStore) (commitTs : Timestamp)
    (quad : StagedQuad) : Except StorageError (GraphId × Triple) := do
  let triple ← store.reconstruct ext quad.key.s quad.key.p quad.key.o commitTs quad.value
  return (quad.key.g, triple)

/-- Reading logged versions rebuilds them one after another. -/
private theorem readQuads_append {commitTs : Timestamp} {quads : List StagedQuad}
    (small : ∀ quad ∈ quads, quad.value.length < 2 ^ 32) (rest : Bytes) {n : Nat}
    (within : n ≤ quads.length) :
    store.readQuads ext commitTs n (quads.flatMap StagedQuad.encode ++ rest) =
      (quads.take n).mapM (rebuildLogged ext store commitTs) := by
  induction quads generalizing n with
  | nil =>
    obtain rfl : n = 0 := Nat.le_zero.mp within
    rfl
  | cons quad more ih =>
    cases n with
    | zero => rfl
    | succ n =>
      have later := ih (fun other member => small other (List.mem_cons_of_mem _ member))
        (Nat.le_of_succ_le_succ within)
      rw [List.flatMap_cons, List.append_assoc, List.take_succ_cons, List.mapM_cons, readQuads,
        readQuad_append (small quad List.mem_cons_self)]
      simp only [orBad, bind, Except.bind, later, rebuildLogged]
      cases store.reconstruct ext quad.key.s quad.key.p quad.key.o commitTs quad.value <;> rfl

/-- A part that is read is passed on. -/
private theorem orBad_bind {α β : Type} {commitTs : Timestamp} {part : Option α} {value : α}
    {next : α → Except StorageError β} {result : β} (read : part = some value)
    (later : next value = .ok result) : (orBad commitTs part >>= next) = .ok result := by
  rw [read]
  exact later

/--
A written entry decodes to its author, its operations and its rebuilt versions.

The versions are counted in four bytes, so only as many as these spell are read.
-/
theorem decodeChange_encodeChange {author name : String} {ops : List GraphOp}
    {quads : List StagedQuad} (named : fromUtf8 (authorBytes author) = some name)
    (few : ops.length < 2 ^ 16) (small : ∀ quad ∈ quads, quad.value.length < 2 ^ 32)
    {commitTs : Timestamp} {triples : List (GraphId × Triple)}
    (rebuilt : (quads.take (quads.length % 2 ^ 32)).mapM (rebuildLogged ext store commitTs) =
      .ok triples) :
    store.decodeChange ext commitTs (encodeChange author ops quads) =
      .ok ⟨commitTs, name, ops, triples⟩ := by
  have all : store.readQuads ext commitTs (UInt32.ofNat (quads.length % 2 ^ 32)).toNat
      (quads.flatMap StagedQuad.encode) = .ok triples := by
    rw [toNat_ofNat_mod, ← rebuilt,
      ← readQuads_append small [] (Nat.mod_le quads.length (2 ^ 32)), List.append_nil]
  -- The fields are read in the order they were written.
  simp only [decodeChange, encodeChange, List.append_assoc]
  refine orBad_bind (readBytes_append [CHANGES_VERSION] _ rfl) ?_
  refine (if_neg (not_not.mpr rfl)).trans ?_
  refine orBad_bind (readBytes_append _ _ (beBytes_length 2 _)) ?_
  refine orBad_bind (readBytes_append _ _ (beNat_authorBytes author).symm) ?_
  refine orBad_bind named ?_
  refine orBad_bind (readBytes_append _ _ (beBytes_length 2 _)) ?_
  refine orBad_bind (readGraphOps_written few _) ?_
  refine orBad_bind (readU32_beBytes _ _) ?_
  exact Except.bind_eq_ok.mpr ⟨triples, all, rfl⟩

end TripleStore

end Polargraph
