import Polargraph.Lib.Machine
import Polargraph.Storage.Mvcc

/-! Bitemporal retention: pruning of shadowed versions and the sweep of unreferenced values, also taken apart. -/

namespace Polargraph

/-- Policy controlling bitemporal data retention. -/
structure RetentionPolicy where
  /-- Delete versions that were shadowed more than this many seconds ago. -/
  txAgeSecs : UInt64
  /-- Also delete a quad once all its versions ended more than this many seconds ago. -/
  vtLookbackSecs : Option UInt64

/-- Statistics of a completed retention run. -/
structure RetentionStats where
  /-- Index entries scanned, across all orders. -/
  triplesScanned : Nat
  /-- Index entries deleted, across all orders. -/
  triplesDeleted : Nat
  /-- Out-of-line values no longer referenced. -/
  blobsDeleted : Nat
deriving DecidableEq

/-- A time some seconds before another, computed with saturating arithmetic. -/
def secondsBefore (now : Timestamp) (secs : UInt64) : Timestamp :=
  let age := Timestamp.clamp ((Timestamp.wrap secs.toNat).micros * 1000000)
  Timestamp.clamp (now.micros - age.micros)

namespace RetentionPolicy

/-- Versions shadowed before this transaction time are deleted. -/
def txCutoff (policy : RetentionPolicy) (now : Timestamp) : Timestamp :=
  secondsBefore now policy.txAgeSecs

/-- Quads all of whose versions ended before this valid time are deleted. -/
def vtCutoff (policy : RetentionPolicy) (now : Timestamp) : Option Timestamp :=
  policy.vtLookbackSecs.map (secondsBefore now)

end RetentionPolicy

/-- The transaction time and window of an index entry, unless it cannot be parsed. -/
def parseVersion (entry : Bytes × Bytes) : Option (Timestamp × Timestamp × Timestamp) :=
  if entry.1.length < 8 then none
  else (validTime entry.2).map (fun window => (keyTt entry.1, window.1, window.2))

/-- A newer version with the same start was committed before the cutoff. -/
def isShadowed (versions : List (Bytes × Bytes)) (txCutoff : Timestamp) (entry : Bytes × Bytes) :
    Bool :=
  match parseVersion entry with
  | none => false
  | some (tt, start, _) =>
    versions.any (fun other =>
      match parseVersion other with
      | none => false
      | some (tt', start', _) => decide (start' = start ∧ tt < tt' ∧ tt' < txCutoff))

/-- The entry's window ended before a time. -/
def endedBefore (time : Timestamp) (entry : Bytes × Bytes) : Bool :=
  match parseVersion entry with
  | none => false
  | some (_, _, vtEnd) => decide (vtEnd < time)

/-- The versions of one quad that the cutoffs expire. -/
def selectExpired (versions : List (Bytes × Bytes)) (txCutoff : Timestamp)
    (vtCutoff : Option Timestamp) : List (Bytes × Bytes) :=
  let survivors := versions.filter (fun entry => !isShadowed versions txCutoff entry)
  -- Drop the whole quad once every surviving version is closed before the lookback cutoff.
  if vtCutoff.any (fun cut => survivors.all (endedBefore cut)) then
    versions.filter (fun entry => (parseVersion entry).isSome)
  else versions.filter (isShadowed versions txCutoff)

/-- Deletes are flushed in chunks of at least this many. -/
def FLUSH_EVERY : Nat := 10000

/-- Collect deletes group by group, flushing the batch once it is large. -/
def flushChunks : WriteBatch → List WriteBatch → List WriteBatch
  | batch, [] => if batch.isEmpty then [] else [batch]
  | batch, group :: rest =>
    if FLUSH_EVERY ≤ (batch ++ group).length then (batch ++ group) :: flushChunks [] rest
    else flushChunks (batch ++ group) rest

namespace TripleStore

/-- The versions of every quad of an order, in key order. -/
def quadGroups (store : TripleStore) (order : Order) : List (List (Bytes × Bytes)) :=
  SortedMap.prefixGroups QUAD_TUPLE_LEN [] (store.db.family (.quads order)).entries

/-- The deletes of an order, in the chunks they are written in. -/
def pruneChunks (store : TripleStore) (order : Order) (txCutoff : Timestamp)
    (vtCutoff : Option Timestamp) : List WriteBatch :=
  flushChunks [] ((store.quadGroups order).map (fun group =>
    (selectExpired group txCutoff vtCutoff).map (fun entry => .delete (.quads order) entry.1)))

/-- Delete the expired versions of an order; also count the entries scanned and deleted. -/
def pruneOrder (store : TripleStore) (order : Order) (txCutoff : Timestamp)
    (vtCutoff : Option Timestamp) : TripleStore × Nat × Nat :=
  let chunks := store.pruneChunks order txCutoff vtCutoff
  (chunks.foldl dbWrite store, (store.db.family (.quads order)).entries.length,
    chunks.flatten.length)

/-- Mark the object slot of an index entry whose value is out of line. -/
def markEntry (live : List Bytes) (entry : Bytes × Bytes) : Except StorageError (List Bytes) := do
  if entry.2.head? ≠ some DISC_PROPERTY_REF then return live
  let q ← Order.spog.decode entry.1
  return live ++ [q.o.uuid.bytes]

/-- Mark the values some entry of the leading order references. -/
def markLive (store : TripleStore) : Except StorageError (List Bytes) :=
  (store.db.family (.quads .spog)).entries.foldlM markEntry []

/-- Sweep: the deletes of the values that are not marked. -/
def sweepBatch (store : TripleStore) (live : List Bytes) : WriteBatch :=
  ((store.db.family .blob).entries.filter (fun entry =>
    decide (entry.1.length = 16 ∧ entry.1 ∉ live))).map (fun entry => .delete .blob entry.1)

/-- Delete the values no index entry references; also count them. -/
def sweepUnreferencedBlobs (store : TripleStore) : TripleStore × Except StorageError Nat :=
  match store.markLive with
  | .error problem => (store, .error problem)
  | .ok live => (store.dbWrite (store.sweepBatch live), .ok (store.sweepBatch live).length)

/-- Prune some orders one after another, adding up the counts. -/
def pruneOrders (txCutoff : Timestamp) (vtCutoff : Option Timestamp) :
    List Order → TripleStore → TripleStore × Nat × Nat
  | [], store => (store, 0, 0)
  | order :: rest, store =>
    let (store, scanned, deleted) := store.pruneOrder order txCutoff vtCutoff
    let (store, scannedLater, deletedLater) := pruneOrders txCutoff vtCutoff rest store
    (store, scanned + scannedLater, deleted + deletedLater)

/-- Delete what a policy expires, then sweep when something was deleted. -/
def runRetention (store : TripleStore) (policy : RetentionPolicy) (now : Timestamp) :
    TripleStore × Except StorageError RetentionStats :=
  let (store, scanned, deleted) :=
    pruneOrders (policy.txCutoff now) (policy.vtCutoff now) Order.ALL store
  if deleted = 0 then (store, .ok ⟨scanned, deleted, 0⟩)
  else
    match store.sweepUnreferencedBlobs with
    | (store, .error problem) => (store, .error problem)
    | (store, .ok blobs) => (store, .ok ⟨scanned, deleted, blobs⟩)

end TripleStore

/-- The cutoffs a retention run works with. -/
structure Cutoffs where
  /-- Versions shadowed before this transaction time are deleted. -/
  tx : Timestamp
  /-- Quads closed out before this valid time are deleted, unless there is no lookback. -/
  vt : Option Timestamp

/-- How far a retention run has come. -/
inductive Phase where
  /-- No retention run is going on. -/
  | idle
  /-- The next order of some remaining ones is scanned next; some entries were deleted so far. -/
  | scanning (cutoffs : Cutoffs) (deleted : Nat) (orders : List Order)
  /-- An order was scanned, and the chunks of its deletes are written one after another. -/
  | deleting (cutoffs : Cutoffs) (deleted : Nat) (chunks : List WriteBatch) (orders : List Order)
  /-- The orders are pruned, and the sweep starts next. -/
  | pruned
  /-- The mark scan found these hashes. -/
  | marked (live : List Bytes)
  /-- The sweep scan built this batch of deletes. -/
  | swept (batch : WriteBatch)

/-- A store under maintenance. -/
structure Maintained where
  /-- The store. -/
  store : TripleStore
  /-- How far the retention run has come. -/
  phase : Phase

/-- A step: a whole commit, setting or pruning of the log, or one step of a retention run. -/
inductive Upkeep where
  /-- A transaction commits, or fails to; `wall` is the clock. -/
  | commit (tx : Transaction) (wall : Timestamp)
  /-- The inline threshold is set. -/
  | setInlineValueMaxBytes (n : Nat)
  /-- The change log is pruned. -/
  | pruneChanges (before : Timestamp)
  /-- A retention run starts; `now` is the clock. -/
  | start (policy : RetentionPolicy) (now : Timestamp)
  /-- The next order is scanned, or the sweep is decided on when none is left. -/
  | scan
  /-- The next chunk of deletes is written. -/
  | delete
  /-- The mark scan. -/
  | mark
  /-- The sweep scan. -/
  | sweep
  /-- The sweep's deletes are written. -/
  | deleteBlobs

namespace Maintained

/-- A store on which no retention run is going on. -/
def opened (store : TripleStore) : Maintained := ⟨store, .idle⟩

/-- The state after a step, unless the step is not enabled. -/
def next (ext : External) (state : Maintained) : Upkeep → Option Maintained
  | .commit tx wall => some { state with store := (state.store.commit ext tx wall).1 }
  | .setInlineValueMaxBytes n => some { state with store := state.store.setInlineValueMaxBytes n }
  | .pruneChanges before => some { state with store := (state.store.pruneChanges before).1 }
  | .start policy now =>
    match state.phase with
    | .idle => some { state with
        phase := .scanning ⟨policy.txCutoff now, policy.vtCutoff now⟩ 0 Order.ALL }
    | _ => none
  | .scan =>
    match state.phase with
    | .scanning cutoffs deleted (order :: rest) =>
      let chunks := state.store.pruneChunks order cutoffs.tx cutoffs.vt
      some { state with phase := .deleting cutoffs (deleted + chunks.flatten.length) chunks rest }
    | .scanning _ deleted [] => some { state with phase := if deleted = 0 then .idle else .pruned }
    | _ => none
  | .delete =>
    match state.phase with
    | .deleting cutoffs deleted (chunk :: chunks) rest =>
      some ⟨state.store.dbWrite chunk, .deleting cutoffs deleted chunks rest⟩
    | .deleting cutoffs deleted [] rest =>
      some { state with phase := .scanning cutoffs deleted rest }
    | _ => none
  | .mark =>
    match state.phase with
    | .pruned =>
      match state.store.markLive with
      | .ok live => some { state with phase := .marked live }
      | .error _ => some { state with phase := .idle }
    | _ => none
  | .sweep =>
    match state.phase with
    | .marked live =>
      let batch := state.store.sweepBatch live
      some { state with phase := if batch.isEmpty then .idle else .swept batch }
    | _ => none
  | .deleteBlobs =>
    match state.phase with
    | .swept batch => some ⟨state.store.dbWrite batch, .idle⟩
    | _ => none

/-- Take some steps one after another, unless one is not enabled. -/
def after (ext : External) (state : Maintained) (steps : List Upkeep) : Option Maintained :=
  Runs.stepAll (next ext) (fun _ _ => True) state steps

end Maintained

end Polargraph
