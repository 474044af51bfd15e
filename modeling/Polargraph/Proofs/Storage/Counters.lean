import Polargraph.Lib.Except
import Polargraph.Lib.Saturating
import Polargraph.Proofs.Core.Utf8
import Polargraph.Storage.Counters

/-! When the value of a counter does not depend on how its increments are merged. -/

namespace Polargraph

namespace Counters

open Relation Saturating

/-- The least number. -/
abbrev LEAST : Int := -2 ^ 63

/-- The greatest number. -/
abbrev GREATEST : Int := 2 ^ 63 - 1

/-- The increments of one counter, in order. -/
def deltasOf (history : List (String × NodeId × Int64)) (space : String) (node : NodeId) :
    List Int64 :=
  history.filterMap fun entry => if entry.1 = space ∧ entry.2.1 = node then some entry.2.2 else none

/-- The saturating sum of some increments, one after another. -/
def total (deltas : List Int64) : Int64 := deltas.foldl saturatingAdd 0

/-- However the store merges, every counter reads as the sum of its own increments in order. -/
def Reads (history : List (String × NodeId × Int64)) : Prop :=
  ∀ store, Reaches history store → ∀ space nodes, check space nodes.length = .ok () →
    getCounters space nodes store = .ok (nodes.map fun node => total (deltasOf history space node))

/-- No run of increments whose sum leaves the 64 bits is next to one with the opposite sign. -/
def SteadyCounter (deltas : List Int64) : Prop := Steady LEAST GREATEST (deltas.map Int64.toInt)

/-- Every number is within the bounds. -/
theorem within_toInt (deltas : List Int64) :
    ∀ d ∈ deltas.map Int64.toInt, LEAST ≤ d ∧ d ≤ GREATEST := by
  intro d member
  obtain ⟨n, _, rfl⟩ := List.mem_map.mp member
  have least := n.le_toInt
  have most := n.toInt_lt
  exact ⟨least, Int.le_sub_one_of_lt most⟩

/-- A number is read back from its bytes. -/
@[simp] theorem decode_encode (n : Int64) : decode (encode n) = n := by
  have fits := n.toUInt64.toNat_lt
  rw [decode, encode, if_pos (leBytes_length ..), leNat_leBytes, Nat.mod_eq_of_lt (by omega),
    UInt64.ofNat_toNat]
  exact Int64.toInt64_toUInt64 n

/-- A sum of two numbers is the one within the bounds. -/
theorem toInt_saturatingAdd (a b : Int64) :
    (saturatingAdd a b).toInt = clamp LEAST GREATEST (a.toInt + b.toInt) := by
  rw [saturatingAdd, clamp, Int64.toInt_ofInt_of_le (by omega) (by omega)]

/-- Nothing and a number add up to the number. -/
theorem zero_saturatingAdd (n : Int64) : saturatingAdd 0 n = n := by
  have bounds := within_toInt [n] _ List.mem_cons_self
  refine Int64.toInt_inj.mp ?_
  rw [toInt_saturatingAdd, clamp]
  simp only [Int64.toInt_zero]
  omega

/-- A saturating sum of numbers is one of integers. -/
theorem toInt_foldl {α : Type} (read : α → Int64) (items : List α) (start : Int64) :
    (items.foldl (fun total item => saturatingAdd total (read item)) start).toInt =
      (items.map fun item => (read item).toInt).foldl
        (fun total d => clamp LEAST GREATEST (total + d)) start.toInt := by
  induction items generalizing start with
  | nil => rfl
  | cons item rest ih =>
    rw [List.foldl_cons, ih, toInt_saturatingAdd]
    rfl

/-- What operands are merged to. -/
theorem decode_addI64 (existing : Option Bytes) (operands : List Bytes) :
    (decode (addI64 existing operands)).toInt =
      (operands.map fun op => (decode op).toInt).foldl
        (fun total d => clamp LEAST GREATEST (total + d)) ((existing.map decode).getD 0).toInt := by
  rw [addI64, decode_encode, toInt_foldl]

/-- Namespaces and nodes have keys of their own. -/
theorem key_inj {space other : String} {node node' : NodeId}
    (same : key space node = key other node') : space = other ∧ node = node' := by
  -- The node is the last sixteen bytes.
  have lengths : (0 :: node.uuid.bytes).length = (0 :: node'.uuid.bytes).length := by
    rw [List.length_cons, List.length_cons, node.uuid.width, node'.uuid.width]
  obtain ⟨first, last⟩ := List.append_inj' same lengths
  exact ⟨utf8_inj first, NodeId.ext (Uuid.ext (List.cons.inj last).2)⟩

/-- A slot holds the sums of adjacent runs of increments. -/
def Covers (deltas : List Int64) (slot : Slot) : Prop :=
  ∃ (first : List Int) (runs : List (List Int)), deltas.map Int64.toInt = first ++ runs.flatten ∧
    ((slot.base.map decode).getD 0).toInt = clamp LEAST GREATEST first.sum ∧
    slot.operands.map (fun op => (decode op).toInt) =
      runs.map fun run => clamp LEAST GREATEST run.sum

/-- A slot that covers steady increments reads as their sum. -/
theorem Covers.value {deltas : List Int64} {slot : Slot} (covers : Covers deltas slot)
    (steady : SteadyCounter deltas) : (slot.value.map decode).getD 0 = total deltas := by
  obtain ⟨first, runs, parts, base, operands⟩ := covers
  have fold := fold_of_steady (by decide) (by decide) (within_toInt deltas) steady
  rw [SteadyCounter, parts] at steady
  refine Int64.toInt_inj.mp ?_
  have sum : (total deltas).toInt = clamp LEAST GREATEST (deltas.map Int64.toInt).sum := by
    rw [total, ← fold]
    exact toInt_foldl id deltas 0
  rw [sum, parts, ← foldl_runs (by decide) (by decide) steady, ← base, ← operands]
  unfold Slot.value
  split_ifs with empty
  · rw [empty]
    rfl
  · exact decode_addI64 slot.base slot.operands

/-- Merging operands that cover steady increments keeps them covered. -/
theorem Covers.compacts {deltas : List Int64} {slot after : Slot} (covers : Covers deltas slot)
    (steady : SteadyCounter deltas) (merged : slot.Compacts after) : Covers deltas after := by
  obtain ⟨first, runs, parts, base, operands⟩ := covers
  rw [SteadyCounter, parts] at steady
  cases merged with
  | @combined base' front run back =>
    obtain ⟨early, last, rfl, operands, backs⟩ := List.append_eq_map_iff.mp
      ((List.map_append ..).symm.trans operands)
    obtain ⟨fronts, middle, rfl, before, inner⟩ := List.append_eq_map_iff.mp
      ((List.map_append ..).symm.trans operands.symm)
    have own := @foldl_runs LEAST GREATEST (by decide) (by decide) [] middle
      fun a b inside => steady a b (inside.trans ⟨first ++ fronts.flatten, last.flatten, by simp⟩)
    refine ⟨first, fronts ++ middle.flatten :: last, by simp [parts], base, ?_⟩
    rw [List.map_append, List.map_append, List.map_cons, List.map_cons, ← before, backs,
      decode_addI64, ← inner]
    exact congrArg (fun value => _ ++ value :: _) own
  | @applied base' run back =>
    obtain ⟨middle, last, rfl, inner, backs⟩ := List.append_eq_map_iff.mp
      ((List.map_append ..).symm.trans operands)
    refine ⟨first ++ middle.flatten, last, by simp [parts], ?_, backs.symm⟩
    rw [Option.map_some, Option.getD_some, decode_addI64, ← inner, base]
    exact foldl_runs (by decide) (by decide)
      fun a b inside => steady a b (inside.trans ⟨[], last.flatten, by simp⟩)

/-- One more increment of a counter is one more operand of its slot, and of no other. -/
theorem covers_mergeCf {store : Sts} {deltas : String → NodeId → List Int64}
    (covers : ∀ space node, Covers (deltas space node) (store (key space node))) (space : String)
    (node : NodeId) (delta : Int64) (other : String) (node' : NodeId) :
    Covers (deltas other node' ++ deltasOf [(space, node, delta)] other node')
      (mergeCf store (key space node) (encode delta) (key other node')) := by
  obtain ⟨first, runs, parts, base, operands⟩ := covers other node'
  by_cases own : space = other ∧ node = node'
  · obtain ⟨rfl, rfl⟩ := own
    refine ⟨first, runs ++ [[delta.toInt]], ?_, ?_, ?_⟩
    · simp [deltasOf, parts]
    · rw [mergeCf, Function.update_self]
      exact base
    · have bounds := within_toInt [delta] _ List.mem_cons_self
      rw [mergeCf, Function.update_self, List.map_append, List.map_append, operands]
      simp only [List.map_singleton, decode_encode, List.sum_singleton, clamp]
      congr 2
      omega
  · rw [mergeCf, Function.update_of_ne fun same => own ((key_inj same).imp Eq.symm Eq.symm)]
    exact ⟨first, runs, by simpa [deltasOf, own] using parts, base, operands⟩

/-- The increments of a longer history are those of its parts. -/
theorem deltasOf_append (history more : List (String × NodeId × Int64)) (space : String)
    (node : NodeId) :
    deltasOf (history ++ more) space node = deltasOf history space node ++ deltasOf more space node :=
  List.filterMap_append

/-- Every slot covers the increments of its counter as long as they are steady. -/
theorem covers_of_reaches {history : List (String × NodeId × Int64)} {store : Sts}
    (reached : Reaches history store)
    (steady : ∀ space node, SteadyCounter (deltasOf history space node)) (space : String)
    (node : NodeId) : Covers (deltasOf history space node) (store (key space node)) := by
  -- The induction follows what happened to the store.
  induction reached generalizing space node with
  | empty => exact ⟨[], [], rfl, rfl, rfl⟩
  | @increment history store after name increments before done ih =>
    have early := ih fun space node a b inside => steady space node a b (inside.trans (by
      rw [deltasOf_append, List.map_append]
      exact (List.prefix_append _ _).isInfix))
    unfold incrementCounters at done
    obtain ⟨_, _, made⟩ := Except.bind_eq_ok.mp done
    cases made
    rename_i checked
    clear steady ih before done checked
    induction increments generalizing store history with
    | nil => simpa [deltasOf] using early space node
    | cons increment rest more =>
      have next := @more (history ++ [(name, increment)]) _ fun space node => by
        rw [deltasOf_append]
        exact covers_mergeCf early name increment.1 increment.2 space node
      simpa using next
  | @compact history store key' slot before merged ih =>
    by_cases own : key space node = key'
    · subst own
      rw [Function.update_self]
      exact (ih steady space node).compacts (steady space node) merged
    · rw [Function.update_of_ne own]
      exact ih steady space node

/-- Some adjacent increments of a counter are all of those of some adjacent entries. -/
theorem exists_infix {history : List (String × NodeId × Int64)} {space : String} {node : NodeId}
    {run : List Int} (part : run <:+: (deltasOf history space node).map Int64.toInt) :
    ∃ entries, entries <:+: history ∧ (deltasOf entries space node).map Int64.toInt = run := by
  obtain ⟨before, behind, split⟩ := part
  obtain ⟨early, late, parts, sums, _⟩ := List.map_eq_append_iff.mp split.symm
  obtain ⟨first, middle, rfl, _, own⟩ := List.map_eq_append_iff.mp sums
  obtain ⟨lead, rest, rfl, left, _⟩ := List.filterMap_eq_append_iff.mp parts
  obtain ⟨start, entries, rfl, _, inside⟩ := List.filterMap_eq_append_iff.mp left
  exact ⟨entries, ⟨start, rest, rfl⟩, by rw [← own, ← inside]; rfl⟩

/-- Adjacent operands can be merged in every grouping. -/
theorem compacts_of_merged {run : List Int} {x : Int} (merged : Merged LEAST GREATEST run x)
    {deltas : List Int64} (own : deltas.map Int64.toInt = run) :
    ∃ v : Int64, v.toInt = x ∧ ∀ front back, ReflTransGen Slot.Compacts
      ⟨none, front ++ deltas.map encode ++ back⟩ ⟨none, front ++ encode v :: back⟩ := by
  induction merged generalizing deltas with
  | one d =>
    obtain ⟨v, rfl, same⟩ := List.map_eq_singleton_iff.mp own
    exact ⟨v, same, fun front back => by simpa using ReflTransGen.refl⟩
  | pair left right ihLeft ihRight =>
    obtain ⟨as, bs, rfl, first, last⟩ := List.map_eq_append_iff.mp own
    obtain ⟨v, rfl, before⟩ := ihLeft first
    obtain ⟨w, rfl, behind⟩ := ihRight last
    refine ⟨saturatingAdd v w, toInt_saturatingAdd v w, fun front back => ?_⟩
    have one := before front (bs.map encode ++ back)
    have two := behind (front ++ [encode v]) back
    have both := @Slot.Compacts.combined none front [encode v, encode w] back nofun
    have sum : addI64 none [encode v, encode w] = encode (saturatingAdd v w) := by
      simp [addI64, zero_saturatingAdd]
    rw [sum] at both
    simp only [List.map_append, List.append_assoc, List.cons_append, List.nil_append] at one two both ⊢
    exact (one.trans two).tail both

/-- A history of named counters can be written one increment after another. -/
theorem exists_written {history : List (String × NodeId × Int64)}
    (named : ∀ entry ∈ history, check entry.1 1 = .ok ()) (space : String) (node : NodeId) :
    ∃ store, Reaches history store ∧
      store (key space node) = ⟨none, (deltasOf history space node).map encode⟩ := by
  induction history using List.reverseRecOn with
  | nil => exact ⟨_, .empty, rfl⟩
  | append_singleton before entry ih =>
    obtain ⟨store, reached, own⟩ := ih fun other member => named other (List.mem_append_left _ member)
    obtain ⟨name, other, delta⟩ := entry
    have done : incrementCounters name [(other, delta)] store =
        .ok (mergeCf store (key name other) (encode delta)) := by
      rw [incrementCounters]
      exact Except.bind_eq_ok.mpr ⟨(), named (name, other, delta) (by simp), rfl⟩
    refine ⟨_, reached.increment done, ?_⟩
    rw [deltasOf_append, mergeCf]
    by_cases same : name = space ∧ other = node
    · obtain ⟨rfl, rfl⟩ := same
      simp [own, deltasOf]
    · rw [Function.update_of_ne fun equal => same ((key_inj equal).imp Eq.symm Eq.symm), own]
      simp [deltasOf, same]

/-- A store may go on merging under one key. -/
theorem Reaches.compacts {history : List (String × NodeId × Int64)} {store : Sts} {key : Bytes}
    {slot : Slot} (reached : Reaches history store)
    (merged : ReflTransGen Slot.Compacts (store key) slot) :
    Reaches history (Function.update store key slot) := by
  induction merged with
  | refl => rwa [Function.update_eq_self]
  | tail _ step ih =>
    have next := @Reaches.compact _ _ key _ ih (by rwa [Function.update_self])
    rwa [Function.update_idem] at next

/-- Counters read alike however the store merges, for every part of a history, exactly when no
increments beyond the 64 bits are next to ones of the opposite sign. -/
theorem reads_iff_steady (history : List (String × NodeId × Int64))
    (named : ∀ entry ∈ history, check entry.1 1 = .ok ()) :
    (∀ part, part <:+: history → Reads part) ↔
      ∀ space node, SteadyCounter (deltasOf history space node) := by
  constructor
  · intro reads space node
    refine steady_of_merged (by decide) (by decide) (within_toInt _) fun run part x y left right => ?_
    obtain ⟨entries, inside, own⟩ := exists_infix part
    have known : ∀ entry ∈ entries, check entry.1 1 = .ok () := fun entry member =>
      named entry (inside.subset member)
    -- Each grouping can be read after a part of the history.
    have value : ∀ x, Merged LEAST GREATEST run x →
        x = (total (deltasOf entries space node)).toInt := by
      intro x merged
      obtain ⟨store, reached, slot⟩ := exists_written known space node
      obtain ⟨v, rfl, path⟩ := compacts_of_merged merged own
      have least := path [] []
      rw [List.nil_append, List.append_nil, ← slot, List.nil_append] at least
      have valid : check space 1 = .ok () := by
        have filled : deltasOf entries space node ≠ [] := by
          intro empty
          rw [empty] at own
          exact merged.ne_nil own.symm
        obtain ⟨delta, member⟩ := List.exists_mem_of_ne_nil _ filled
        obtain ⟨entry, listed, found⟩ := List.mem_filterMap.mp member
        split_ifs at found with same
        exact same.1 ▸ known entry listed
      have read := reads entries inside _ (reached.compacts least) space [node] valid
      unfold getCounters at read
      rw [List.length_singleton, valid] at read
      have same := Except.ok.inj read
      rw [List.map_singleton, List.map_singleton, Function.update_self] at same
      have sum : ((Slot.value ⟨none, [encode v]⟩).map decode).getD 0 = v := by
        simp [Slot.value, addI64, zero_saturatingAdd]
      rw [← (List.cons.inj same).1, sum]
    exact (value x left).trans (value y right).symm
  · intro steady part inside store reached space nodes checked
    unfold getCounters
    rw [checked]
    refine congrArg Except.ok (List.map_congr_left fun node _ => ?_)
    have own : ∀ space node, SteadyCounter (deltasOf part space node) := by
      intro space node a b sub
      refine steady space node a b (sub.trans ?_)
      exact (inside.filterMap _).map _
    exact (covers_of_reaches reached own space node).value (own space node)

/-- A single increment reads alike however the store merges. -/
theorem reads_iff_steady_one :
    (∀ part, part <:+: [("used", NodeId.ofByte 1, 5)] → Reads part) ↔
      ∀ space node, SteadyCounter (deltasOf [("used", NodeId.ofByte 1, 5)] space node) :=
  reads_iff_steady [("used", NodeId.ofByte 1, 5)] (by simp [check, MAX_COUNTERS_PER_CALL])

/-- Increments that pass the greatest number and come back. -/
def overflowing : List (String × NodeId × Int64) :=
  [("used", NodeId.ofByte 1, 9223372036854775807), ("used", NodeId.ofByte 1, 1),
    ("used", NodeId.ofByte 1, -1)]

/-- A counter that passed the greatest number reads differently when its last increments are merged. -/
theorem overflowing_not_reads : ¬ Reads overflowing := by
  intro reads
  have named : ∀ entry ∈ overflowing, check entry.1 1 = .ok () := by
    simp [overflowing, check, MAX_COUNTERS_PER_CALL]
  obtain ⟨store, reached, slot⟩ := exists_written named "used" (NodeId.ofByte 1)
  have own : (deltasOf overflowing "used" (NodeId.ofByte 1)).map encode =
      [encode 9223372036854775807] ++ [encode 1, encode (-1)] ++ [] := rfl
  rw [own] at slot
  have merged := @Slot.Compacts.combined none [encode 9223372036854775807] [encode 1, encode (-1)] []
    nofun
  rw [← slot] at merged
  have read := reads _ (reached.compact merged) "used" [NodeId.ofByte 1]
    (named _ List.mem_cons_self)
  unfold getCounters at read
  rw [List.length_singleton, named _ List.mem_cons_self] at read
  have same := (List.cons.inj (Except.ok.inj read)).1
  dsimp only at same
  rw [Function.update_self] at same
  revert same
  decide +kernel

end Counters

end Polargraph
