import Polargraph.Lib.Machine
import Polargraph.Server.ApplyChanges
import Polargraph.Server.CypherWrite

/-! Insert requests, and one wire transaction: calls that buffer into it, its commit, its rollback and its expiry. -/

namespace Polargraph

/-- An insert request. -/
structure InsertRequest where
  /-- The triples, each with the identifier its edge gets. -/
  triples : List (ProtoTriple × EdgeId)
  /-- Annotations of edges. -/
  edgeAnnotations : List ProtoAnnotation
  /-- IRIs to record. -/
  iris : List String
  /-- The IRI of the graph, empty for the default graph. -/
  graph : String

/-- The refusal of an insert request that is malformed. -/
def InsertRequest.refusal (request : InsertRequest) : Option Status :=
  if request.triples = [] ∧ request.edgeAnnotations = [] ∧ request.iris = [] then
    some (.status .invalidArgument
      "insert request must contain at least one triple, edge annotation or IRI")
  else if request.iris.any (fun iri => decide (iri = "")) then
    some (.status .invalidArgument "iris must not contain empty strings")
  else none

namespace Transaction

/-- Buffer the writes of a caller. -/
def insertAll (tx : Transaction) (author : String) (writes : List PendingWrite) : Transaction :=
  writes.foldl (fun tx w => (tx.setAuthor author).insertIn w.triple w.graph w.mode) tx

/-- Buffer IRIs to record. -/
def bindAll (tx : Transaction) (iris : List String) : Transaction := iris.foldl bindIri tx

end Transaction

namespace TripleStore

section External

variable (ext : External)

/-- The writes of an insert request, whose graph a service call creates. -/
def insertWrites (store : TripleStore) (access : Option UserGraphAccess) (request : InsertRequest)
    (now : Timestamp) : TripleStore × Except Status (List PendingWrite) :=
  match request.refusal with
  | some refused => (store, .error refused)
  | none =>
    match store.graphFor ext access request.graph .write true now with
    | (store, .error refused) => (store, .error refused)
    | (store, .ok g) => (store, do
        let triples ← triplesWrites g request.triples
        let annotations ← request.edgeAnnotations.mapM (edgeAnnotationFromProto now)
        let writes := triples ++ annotations.map (fun triple => ⟨triple, g, .auto⟩)
        rejectUserAclWrites access (writes.map (fun w => w.triple.predicate))
        return writes)

/-- Insert in a transaction of its own; `edgeTypes` are the edge types, `now` is the clock. -/
def insert (store : TripleStore) (edgeTypes : String → Option Cardinality)
    (access : Option UserGraphAccess) (author : String) (request : InsertRequest)
    (now : Timestamp) : TripleStore × Except Status Timestamp :=
  match store.insertWrites ext access request now with
  | (store, .error refused) => (store, .error refused)
  | (store, .ok writes) =>
    match store.validateAdds ext edgeTypes now writes with
    | .error refused => (store, .error refused)
    | .ok () =>
      let tx := ((store.begin.setAuthor author).insertAll author writes).bindAll request.iris
      let (store, committed) := store.commit ext tx now
      (store, storageErrToStatus committed)

end External

end TripleStore

/-- What a call buffers: its writes and the IRIs it records. -/
structure Buffered where
  /-- The writes. -/
  writes : List PendingWrite
  /-- The IRIs. -/
  iris : List String

/-- What a transaction has buffered. -/
def Transaction.buffered (tx : Transaction) : Buffered := ⟨tx.writes, tx.iris⟩

/-- What some calls buffer, one after another. -/
def Buffered.concat (calls : List Buffered) : Buffered :=
  ⟨calls.flatMap Buffered.writes, calls.flatMap Buffered.iris⟩

/-- A Cypher write that was parsed and whose graph was resolved. -/
structure CypherWrite where
  /-- Who is writing. -/
  author : String
  /-- The graphs the caller may read, or every graph when absent. -/
  readable : Option (List UInt32)
  /-- The rows the matching part has at a point, unless the statement matches nothing. -/
  matched : Option (TripleStore → ReadAt → Timestamp → Except Status (List Bindings))
  /-- The operations, carried out once for each row. -/
  ops : List Cypher.WriteOp
  /-- The graph it writes to, if one is named. -/
  graph : Option GraphId
  /-- The namespaces of the declared prefixes. -/
  prefixes : String → Option String
  /-- The identifiers it draws at random. -/
  drawn : Nat → Uuid
  /-- The debug text of a literal. -/
  debug : CypherValue → String

namespace CypherWrite

/-- The status of an error of a Cypher write. -/
def mapWriteErr (write : CypherWrite) : CypherWriteError → Status
  | .unboundVariable name => .status .invalidArgument ("unbound variable '" ++ name ++ "'")
  | .storage problem => .storage problem
  | .invalidNodeId given => .status .invalidArgument ("'id' property must be a valid UUID string: "
      ++ match given with
        | .str text => text
        | other => write.debug other)

/-- Carry out a Cypher write in a transaction; what it buffered before a failure stays buffered. -/
def executeWrites (write : CypherWrite) (ext : External) (store : TripleStore) (now : Timestamp)
    (tx : Transaction) : Transaction × Except Status WriteResult :=
  let point : ReadAt := ⟨tx.readTs, none, write.readable⟩
  let context : WriteContext := ⟨store, point, write.prefixes, write.graph, write.drawn, now⟩
  match write.matched.elim (.ok [[]]) (fun rows => rows store point now) with
  | .error refused => (tx, .error refused)
  | .ok rows =>
    match context.executeRows ext write.ops ⟨tx, [], 0, ⟨[], 0, 0⟩⟩ rows with
    | (state, .error problem) => (state.tx, .error (write.mapWriteErr problem))
    | (state, .ok ()) => (state.tx, .ok state.result)

/-- What a Cypher write buffers on its own. -/
def effect (write : CypherWrite) (ext : External) (store : TripleStore) (now : Timestamp)
    (readTs : Timestamp) : Buffered :=
  (write.executeWrites ext store now (Transaction.new readTs)).1.buffered

end CypherWrite

/-- How a request to commit ended. -/
structure CommitEnd where
  /-- What the client is told. -/
  result : Except Status Nat
  /-- What the transaction had buffered. -/
  buffered : Buffered
  /-- What the calls acknowledged by then had buffered, in order. -/
  acked : List Buffered
  /-- Whether the transaction is open after. -/
  isOpen : Bool

/-- Whether a commit succeeded. -/
def CommitEnd.succeeded (ended : CommitEnd) : Bool := ended.result.isOk

/-- The state of one wire transaction and of the calls that use it. -/
structure Wire where
  /-- The store. -/
  store : TripleStore
  /-- Whether the map of open transactions has it. -/
  mapped : Bool
  /-- The transaction behind the shared handle. -/
  tx : Transaction
  /-- When a call last used it. -/
  lastUsed : Timestamp
  /-- The calls that hold a reference into the map. -/
  refs : List Nat
  /-- The calls that hold a clone of the handle. -/
  handles : List Nat
  /-- The call that holds the lock of the transaction. -/
  lock : Option Nat
  /-- What the call that holds the lock buffered, once it has, unless it failed. -/
  written : Option (Except Status Buffered)
  /-- Whether the sweeper found it idle and is about to remove it. -/
  expiring : Bool
  /-- Whether a commit removed it from the map and has not unwrapped the handle yet. -/
  removed : Bool
  /-- What the acknowledged calls buffered, in order. -/
  acked : List Buffered
  /-- Whether a rollback was acknowledged. -/
  rolledBack : Bool
  /-- How the commits that found it open ended, in order. -/
  commits : List CommitEnd

/-- A step of a call, of a commit or rollback, of the sweeper or of another transaction. -/
inductive WireStep where
  /-- An insert looks the transaction up, and keeps the reference into the map. -/
  | insertLookUp (call : Nat)
  /-- A Cypher write looks the transaction up, and clones the handle. -/
  | cypherLookUp (call : Nat)
  /-- A call acquires the lock. -/
  | acquire (call : Nat)
  /-- An insert buffers its writes. -/
  | insertBuffer (call : Nat) (author : String) (writes : List PendingWrite) (iris : List String)
      (now : Timestamp)
  /-- A Cypher write buffers its writes. -/
  | cypherBuffer (call : Nat) (write : CypherWrite) (now : Timestamp)
  /-- A call returns, which releases what it holds. -/
  | respond (call : Nat)
  /-- A commit removes the transaction from the map. -/
  | commitRemove
  /-- The commit takes the transaction out of the handle and commits it. -/
  | commitUnwrap (wall : Timestamp)
  /-- A rollback removes the transaction from the map. -/
  | rollback
  /-- The sweeper finds the transaction idle. -/
  | sweepSelect (now : Timestamp) (idleTimeout : Nat)
  /-- The sweeper removes what it found idle. -/
  | sweepRemove
  /-- Another transaction commits. -/
  | other (tx : Transaction) (wall : Timestamp)

namespace Wire

/-- A transaction that was just begun. -/
def opened (store : TripleStore) (now : Timestamp) : Wire :=
  ⟨store, true, store.begin, now, [], [], none, none, false, false, [], false, []⟩

/-- The state after a commit unwraps the handle, which succeeds if no call holds a clone. -/
def unwrap (ext : External) (wire : Wire) (wall : Timestamp) : Wire :=
  let ended (result : Except Status Nat) : CommitEnd :=
    ⟨result, wire.tx.buffered, wire.acked, wire.mapped⟩
  if wire.handles = [] then
    let (store, committed) := wire.store.commit ext wire.tx wall
    let result : Except Status Nat := match committed with
      | .ok _ => .ok wire.tx.writes.length
      | .error problem => .error (.storage problem)
    { wire with store := store, removed := false, commits := wire.commits ++ [ended result] }
  else { wire with
    removed := false
    commits := wire.commits ++ [ended (.error (.status .internal
      "transaction is still in use by a concurrent RPC"))] }

/-- The state after a step, unless the step is not enabled. -/
def next (ext : External) (wire : Wire) : WireStep → Option Wire
  | .insertLookUp call =>
    if wire.mapped ∧ call ∉ wire.refs ++ wire.handles then
      some { wire with refs := call :: wire.refs } else none
  | .cypherLookUp call =>
    if wire.mapped ∧ call ∉ wire.refs ++ wire.handles then
      some { wire with handles := call :: wire.handles } else none
  | .acquire call =>
    if wire.lock = none ∧ call ∈ wire.refs ++ wire.handles then
      some { wire with lock := some call } else none
  | .insertBuffer call author writes iris now =>
    if wire.lock = some call ∧ call ∈ wire.refs ∧ wire.written.isNone then
      some { wire with
        tx := (wire.tx.insertAll author writes).bindAll iris
        lastUsed := now
        written := some (.ok ⟨writes, iris⟩) } else none
  | .cypherBuffer call write now =>
    if wire.lock = some call ∧ call ∈ wire.handles ∧ wire.written.isNone then
      match write.executeWrites ext wire.store now (wire.tx.setAuthor write.author) with
      | (tx, .error refused) => some { wire with tx := tx, written := some (.error refused) }
      | (tx, .ok _) => some { wire with
          tx := tx
          lastUsed := now
          written := some (.ok (write.effect ext wire.store now wire.tx.readTs)) } else none
  | .respond call =>
    if wire.lock = some call then
      match wire.written with
      | none => none
      | some result => some { wire with
          refs := wire.refs.erase call
          handles := wire.handles.erase call
          lock := none
          written := none
          acked := wire.acked ++ (match result with
            | .ok buffered => [buffered]
            | .error _ => []) } else none
  -- Removing an entry waits until no call holds a reference into the map.
  | .commitRemove =>
    if wire.mapped ∧ wire.refs = [] then some { wire with mapped := false, removed := true }
    else none
  | .commitUnwrap wall => if wire.removed then some (wire.unwrap ext wall) else none
  | .rollback =>
    if wire.mapped ∧ wire.refs = [] then some { wire with mapped := false, rolledBack := true }
    else none
  | .sweepSelect now idleTimeout =>
    if wire.mapped ∧ wire.lock = none ∧ wire.lastUsed.micros + idleTimeout < now.micros then
      some { wire with expiring := true } else none
  | .sweepRemove =>
    if wire.expiring ∧ wire.refs = [] then some { wire with mapped := false, expiring := false }
    else none
  | .other tx wall => some { wire with store := (wire.store.commit ext tx wall).1 }

end Wire

end Polargraph
