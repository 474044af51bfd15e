import Polargraph.Storage.Write

/-! Transactions: optimistic concurrency control over one commit lock. -/

namespace Polargraph

/-- An in-progress read-write transaction. -/
structure Transaction where
  /-- The transaction reads data committed at or before this time. -/
  readTs : Timestamp
  /-- The buffered writes, each with its graph and write mode. -/
  writes : List PendingWrite
  /-- IRIs to record in the IRI dictionary on commit. -/
  iris : List String
  /-- Who is writing. -/
  author : String
  /-- Graph-level operations to record in the change log. -/
  graphOps : List GraphOp

namespace Transaction

/-- A transaction that has buffered nothing. -/
def new (readTs : Timestamp) : Transaction := ⟨readTs, [], [], "", []⟩

/-- Buffer a triple for a graph with a write mode. -/
def insertIn (tx : Transaction) (triple : Triple) (graph : GraphId) (mode : WriteMode) :
    Transaction :=
  { tx with writes := tx.writes ++ [⟨triple, graph, mode⟩] }

/-- Record the caller's user id on the commit's change-log entry. -/
def setAuthor (tx : Transaction) (author : String) : Transaction := { tx with author := author }

/-- Record a graph-level operation on the commit's change-log entry. -/
def recordGraphOp (tx : Transaction) (op : GraphOp) : Transaction :=
  { tx with graphOps := tx.graphOps ++ [op] }

/-- Record an IRI in the IRI dictionary when the transaction commits. -/
def bindIri (tx : Transaction) (iri : String) : Transaction := { tx with iris := tx.iris ++ [iri] }

/-- Whether there is nothing to commit. -/
def isEmpty (tx : Transaction) : Bool :=
  tx.writes.isEmpty && tx.iris.isEmpty && tx.graphOps.isEmpty

end Transaction

namespace TripleStore

/-- Begin a transaction that reads all data committed so far. -/
def begin (store : TripleStore) : Transaction := Transaction.new store.readTs

/-- Begin a transaction that reads as of an earlier commit time. -/
def beginAt (store : TripleStore) (readTs : Timestamp) : Except StorageError Transaction :=
  if store.readTs < readTs then
    .error (.validation ("read_ts " ++ toString readTs.micros ++ " is ahead of the latest commit "
      ++ toString store.readTs.micros))
  else .ok (Transaction.new readTs)

section External

variable (ext : External)

/-- The key prefix a write must find unchanged, unless it is an annotation or its predicate is new. -/
def conflictPrefix (store : TripleStore) (w : PendingWrite) : Option Bytes :=
  match store.predicateId w.triple.predicate with
  | none => none
  | some p =>
    match w.triple with
    | .relation subject _ object _ _ =>
      some (Order.gspo.keyPrefix (some subject) (some p) (some object) (some w.graph))
    | .property subject _ value _ =>
      match w.mode.resolve w.triple with
      | .replace => some (Order.gspo.keyPrefix (some subject) (some p) none (some w.graph))
      | _ => some (Order.gspo.keyPrefix (some subject) (some p) (some (valueObject ext value))
          (some w.graph))
    | .edgeProperty .. => none
    | .edgeRelation .. => none

/-- A version committed after the read time exists for what a write writes. -/
def checkConflict (store : TripleStore) (w : PendingWrite) (readTs commitTs : Timestamp) :
    Option ConflictError :=
  match store.conflictPrefix ext w with
  | none => none
  | some start =>
    if ((store.db.family (.quads .gspo)).scanPrefix start).any
        (fun entry => decide (readTs < keyTt entry.1 ∧ keyTt entry.1 ≤ commitTs)) then
      some ⟨w.triple.subject, w.triple.predicate⟩
    else none

/-- The first conflict of a transaction's writes. -/
def firstConflict (store : TripleStore) (tx : Transaction) (commitTs : Timestamp) :
    Option ConflictError :=
  tx.writes.findSome? (fun w => store.checkConflict ext w tx.readTs commitTs)

/-- Add the dictionary entries of a transaction's IRIs to a batch. -/
def batchIris (store : TripleStore) (batch : WriteBatch) (iris : List String) :
    Except StorageError WriteBatch := do
  let (batch, _) ← iris.foldlM
    (fun (batch, pending) iri => store.batchIri ext batch iri pending) (batch, [])
  return batch

/-- The whole batch of a transaction whose writes are staged. -/
def commitBatch (store : TripleStore) (tx : Transaction) (commitTs : Timestamp)
    (staging : Staging) : Except StorageError WriteBatch := do
  let batch := staging.batch ++ batchChange commitTs tx.author tx.graphOps staging.quads
  let batch ← store.batchIris ext batch tx.iris
  return batch ++ [.put .metadata META_ORACLE_CTR commitTs.toBeBytes]

/-- The versions a transaction that passed the conflict check writes, none when it fails. -/
def stagedQuads (store : TripleStore) (tx : Transaction) (commitTs : Timestamp) :
    List StagedQuad :=
  match stageWrites ext commitTs store Staging.none tx.writes with
  | (_, .error _) => []
  | (store, .ok staging) =>
    match store.commitBatch ext tx commitTs staging with
    | .error _ => []
    | .ok _ => staging.quads

/-- Stage the writes of a transaction that passed the conflict check, and write the batch. -/
def flush (store : TripleStore) (tx : Transaction) (commitTs : Timestamp) :
    TripleStore × Except StorageError Timestamp :=
  match stageWrites ext commitTs store Staging.none tx.writes with
  | (store, .error problem) => (store, .error problem)
  | (store, .ok staging) =>
    match store.commitBatch ext tx commitTs staging with
    | .error problem => (store, .error problem)
    | .ok batch => (store.dbWrite batch, .ok commitTs)

/-- Whether a flush writes a log entry. -/
def logs (store : TripleStore) (tx : Transaction) (commitTs : Timestamp) : Bool :=
  (store.flush ext tx commitTs).2.isOk &&
    !(tx.graphOps.isEmpty && (store.stagedQuads ext tx commitTs).isEmpty)

/-- The conflict check and the write of a commit whose timestamp has been handed out. -/
def finishCommit (store : TripleStore) (tx : Transaction) (commitTs : Timestamp) :
    TripleStore × Except StorageError Timestamp :=
  match store.firstConflict ext tx commitTs with
  | some conflict => (store, .error (.writeConflict conflict))
  | none => store.flush ext tx commitTs

/-- Commit a transaction while nothing else runs; `wall` is the clock at the commit. -/
def commit (store : TripleStore) (tx : Transaction) (wall : Timestamp) :
    TripleStore × Except StorageError Timestamp :=
  if tx.isEmpty then (store, .ok tx.readTs)
  else
    let (store, commitTs) := store.beginCommit wall
    store.finishCommit ext tx commitTs

/-- The versions a commit writes, none when it is empty, conflicts or fails. -/
def commitQuads (store : TripleStore) (tx : Transaction) (wall : Timestamp) : List StagedQuad :=
  if tx.isEmpty then []
  else
    let (store, commitTs) := store.beginCommit wall
    match store.firstConflict ext tx commitTs with
    | some _ => []
    | none => store.stagedQuads ext tx commitTs

end External

end TripleStore

end Polargraph
