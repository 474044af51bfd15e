import Polargraph.Lib.Latest
import Polargraph.Storage.Store

/-! Snapshot scans: the governing version of every quad under a key prefix. -/

namespace Polargraph

/-- Which graphs a scan reads. -/
inductive GraphScope where
  /-- Every graph, the default graph included. -/
  | union
  /-- One graph. -/
  | one (g : GraphId)
  /-- A set of graphs, kept in strictly increasing order. -/
  | set (graphs : List GraphId) (sorted : graphs.Pairwise (fun left right => left.raw < right.raw))
  /-- Every graph except the default graph. -/
  | named

/-- Whether quads of a graph are in scope. -/
def GraphScope.admits : GraphScope → GraphId → Bool
  | union, _ => true
  | one want, g => decide (want = g)
  -- A binary search of a strictly increasing list finds exactly its members.
  | set graphs _, g => graphs.contains g
  | named, g => decide (g ≠ GraphId.DEFAULT)

/-- The point a read looks at, and the graphs the reader may see. -/
structure ReadAt where
  /-- The transaction time. -/
  ts : Timestamp
  /-- The valid time, or the time of the read when absent. -/
  vtAsOf : Option Timestamp
  /-- The readable graphs, or every graph when absent. -/
  readable : Option (List UInt32)

/-- Whether the reader may see a graph. -/
def ReadAt.canRead (point : ReadAt) (g : GraphId) : Bool :=
  match point.readable with
  | none => true
  | some graphs => graphs.contains g.raw

/-- The best version of a quad seen so far. -/
structure VersionSlot where
  /-- Start of its valid time. -/
  vtStart : Timestamp
  /-- Its transaction time. -/
  tt : Timestamp
  /-- End of its valid time. -/
  vtEnd : Timestamp
  /-- Its index value. -/
  bytes : Bytes
deriving DecidableEq

/-- The slot of a quad of which no version was seen yet. -/
def VersionSlot.fresh : VersionSlot := ⟨Timestamp.MIN, Timestamp.MIN, Timestamp.MIN, []⟩

/-- Replace a slot by a version with a later start, or with the same start and a later record. -/
def VersionSlot.absorb (offered held : VersionSlot) : VersionSlot :=
  if held.vtStart < offered.vtStart ∨ (offered.vtStart = held.vtStart ∧ held.tt < offered.tt) then
    offered
  else held

namespace TripleStore

/-- The best version of every quad scanned so far. -/
abbrev LatestVersions := List (QuadIds × VersionSlot)

/-- Take one index entry into account. -/
def scanEntry (order : Order) (point : ReadAt) (vt : Timestamp) (graphs : GraphScope)
    (latest : LatestVersions) (entry : Bytes × Bytes) : Except StorageError LatestVersions := do
  let (key, value) := entry
  -- Cheap checks before decoding: transaction time, then graph.
  if point.ts < keyTt key then return latest
  let g := order.graphOf key
  if !graphs.admits g || !point.canRead g then return latest
  match validTime value with
  | none => return latest
  | some (vtStart, vtEnd) =>
    if vt < vtStart then return latest
    let q ← order.decode key
    return Latest.entryUpdate q.toQuadIds VersionSlot.fresh
      (VersionSlot.absorb ⟨vtStart, q.tt, vtEnd, value⟩) latest

/-- The best version of every quad under a prefix that the scan admits. -/
def scanLatest (store : TripleStore) (order : Order) (start : Bytes) (point : ReadAt)
    (vt : Timestamp) (graphs : GraphScope) : Except StorageError LatestVersions :=
  ((store.db.family (.quads order)).scanPrefix start).foldlM (scanEntry order point vt graphs) []

/-- The best versions under a prefix whose window covers the valid time. -/
def scanLive (store : TripleStore) (order : Order) (start : Bytes) (point : ReadAt)
    (vt : Timestamp) (graphs : GraphScope) : Except StorageError LatestVersions := do
  let latest ← store.scanLatest order start point vt graphs
  return latest.filter (fun slot => decide (vt < slot.2.vtEnd))

section External

variable (ext : External)

/-- Scan one order, keeping the identifiers of each quad; `now` is the clock at the read. -/
def snapshotScanKeyed (store : TripleStore) (order : Order) (start : Bytes) (point : ReadAt)
    (now : Timestamp) (graphs : GraphScope) : Except StorageError (List (QuadIds × Triple)) := do
  -- A single unreadable graph: nothing to scan.
  match graphs with
  | .one g => if !point.canRead g then return []
  | _ => pure ()
  let vt := point.vtAsOf.getD now
  let live ← store.scanLive order start point vt graphs
  live.mapM fun (ids, slot) => do
    let triple ← store.reconstruct ext ids.s ids.p ids.o slot.tt slot.bytes
    return (ids, triple)

/-- The order and prefix that cover the most bound components of a scoped scan. -/
def chooseOrder (s : Option NodeId) (p : Option PredId) (o : Option NodeId) (scope : GraphScope) :
    Order × Bytes :=
  match scope, s, p, o with
  | .one g, some _, _, _ => (.gspo, Order.gspo.keyPrefix s p o (some g))
  | .one g, none, some _, _ => (.gpos, Order.gpos.keyPrefix none p o (some g))
  | .one _, none, none, some _ => (.ospg, Order.ospg.keyPrefix none none o none)
  | .one g, none, none, none => (.gspo, Order.gspo.keyPrefix none none none (some g))
  | _, some _, some _, _ => (.spog, Order.spog.keyPrefix s p o none)
  | _, some _, none, some _ => (.sopg, Order.sopg.keyPrefix s none o none)
  | _, some _, none, none => (.spog, Order.spog.keyPrefix s none none none)
  | _, none, some _, _ => (.posg, Order.posg.keyPrefix none p o none)
  | _, none, none, some _ => (.ospg, Order.ospg.keyPrefix none none o none)
  | _, none, none, none => (.spog, Order.spog.keyPrefix none none none none)

/-- Whether the bound components of a scan agree with a quad. -/
def boundAgrees (s : Option NodeId) (p : Option PredId) (o : Option NodeId) (ids : QuadIds) :
    Bool :=
  s.all (fun s => decide (s = ids.s)) && p.all (fun p => decide (p = ids.p)) &&
    o.all (fun o => decide (o = ids.o))

/-- Triples matching the bound components within a scope, each with its graph. -/
def scanScopedAt (store : TripleStore) (subject : Option NodeId) (predicate : Option String)
    (object : Option NodeId) (scope : GraphScope) (point : ReadAt) (now : Timestamp) :
    Except StorageError (List (GraphId × Triple)) := do
  let run (p : Option PredId) : Except StorageError (List (GraphId × Triple)) := do
    let (order, start) := chooseOrder subject p object scope
    let quads ← store.snapshotScanKeyed ext order start point now scope
    -- A prefix may cover fewer components than are bound, so the rest is filtered.
    return (quads.filter (fun quad => boundAgrees subject p object quad.1)).map
      (fun quad => (quad.1.g, quad.2))
  match predicate with
  | none => run none
  | some name =>
    match store.predicateId name with
    | none => return []
    | some id => run (some id)

/-- Every triple of a graph. -/
def scanGraphAt (store : TripleStore) (g : GraphId) (point : ReadAt) (now : Timestamp) :
    Except StorageError (List Triple) := do
  let start := Order.gspo.keyPrefix none none none (some g)
  let quads ← store.snapshotScanKeyed ext .gspo start point now (.one g)
  return quads.map Prod.snd

/-- The triples of a subject in a graph. -/
def scanBySubjectInGraphAt (store : TripleStore) (g : GraphId) (subject : NodeId)
    (point : ReadAt) (now : Timestamp) : Except StorageError (List Triple) := do
  let start := Order.gspo.keyPrefix (some subject) none none (some g)
  let quads ← store.snapshotScanKeyed ext .gspo start point now (.one g)
  return quads.map Prod.snd

end External

end TripleStore

end Polargraph
