import Polargraph.Storage.Codec

/-! Counters of nodes: increments that the store merges, in groups of its own choice. -/

namespace Polargraph

namespace Counters

/-- Most increments or lookups per call. -/
def MAX_COUNTERS_PER_CALL : Nat := 10000

/-- The number of eight bytes, least significant first. -/
def decode (bytes : Bytes) : Int64 :=
  if bytes.length = 8 then (UInt64.ofNat (leNat bytes)).toInt64 else 0

/-- The eight bytes of a number, least significant first. -/
def encode (n : Int64) : Bytes := leBytes 8 n.toUInt64.toNat

/-- The sum of two numbers, or the bound it is beyond. -/
def saturatingAdd (a b : Int64) : Int64 :=
  Int64.ofInt (max (-2 ^ 63) (min (2 ^ 63 - 1) (a.toInt + b.toInt)))

/-- The merge operator: the sum of the existing value and every operand. -/
def addI64 (existing : Option Bytes) (operands : List Bytes) : Bytes :=
  encode (operands.foldl (fun total op => saturatingAdd total (decode op))
    ((existing.map decode).getD 0))

/-- The key of a counter. -/
def key (space : String) (node : NodeId) : Bytes := utf8 space ++ 0 :: node.uuid.bytes

/-- The check of a call. -/
def check (space : String) (n : Nat) : Except StorageError Unit :=
  if space = "" ∨ '\x00' ∈ space.toList then
    .error (.validation "counter namespace must be non-empty and contain no NUL")
  else if MAX_COUNTERS_PER_CALL < n then
    .error (.validation ("at most " ++ toString MAX_COUNTERS_PER_CALL ++ " counters per call"))
  else .ok ()

/-- What the store holds under a key: a value, and the operands that are not yet merged into it. -/
structure Slot where
  /-- The value. -/
  base : Option Bytes
  /-- The operands, in the order they were written. -/
  operands : List Bytes

/-- The value that is read. -/
def Slot.value (slot : Slot) : Option Bytes :=
  if slot.operands = [] then slot.base else some (addI64 slot.base slot.operands)

/-- The counters by key. -/
abbrev Sts := Bytes → Slot

/-- Write one more operand. -/
def mergeCf (store : Sts) (key operand : Bytes) : Sts :=
  Function.update store key ⟨(store key).base, (store key).operands ++ [operand]⟩

/-- Add each number to the counter of its node. -/
def incrementCounters (space : String) (increments : List (NodeId × Int64)) (store : Sts) :
    Except StorageError Sts := do
  check space increments.length
  return increments.foldl (fun store (node, delta) => mergeCf store (key space node) (encode delta)) store

/-- The counters of some nodes, in the order of the nodes. -/
def getCounters (space : String) (nodes : List NodeId) (store : Sts) :
    Except StorageError (List Int64) := do
  check space nodes.length
  return nodes.map fun node => ((store (key space node)).value.map decode).getD 0

/-- The store merges adjacent operands, alone or into the value. -/
inductive Slot.Compacts : Slot → Slot → Prop
  /-- Some operands become one. -/
  | combined {base : Option Bytes} {front run back : List Bytes} (filled : run ≠ []) :
      Compacts ⟨base, front ++ run ++ back⟩ ⟨base, front ++ addI64 none run :: back⟩
  /-- The first operands are merged into the value. -/
  | applied {base : Option Bytes} {run back : List Bytes} :
      Compacts ⟨base, run ++ back⟩ ⟨some (addI64 base run), back⟩

/-- The stores that a history of increments may lead to, each with its namespace and node. -/
inductive Reaches : List (String × NodeId × Int64) → Sts → Prop
  /-- Nothing was counted. -/
  | empty : Reaches [] fun _ => ⟨none, []⟩
  /-- A call increments some counters. -/
  | increment {history : List (String × NodeId × Int64)} {store after : Sts} {space : String}
      {increments : List (NodeId × Int64)} (before : Reaches history store)
      (done : incrementCounters space increments store = .ok after) :
      Reaches (history ++ increments.map fun (node, delta) => (space, node, delta)) after
  /-- The store merges operands under one key. -/
  | compact {history : List (String × NodeId × Int64)} {store : Sts} {key : Bytes} {slot : Slot}
      (before : Reaches history store) (merged : (store key).Compacts slot) :
      Reaches history (Function.update store key slot)

end Counters

end Polargraph
