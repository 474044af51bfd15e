import Polargraph.Storage.Mvcc

/-! Named-graph management: metadata, drop, copy and move. -/

namespace Polargraph

/-- The system graph holding graph metadata. -/
def SYSTEM_GRAPH_IRI : String := "urn:pg:graph:meta"

/-- Metadata predicate set on a copy target while a chunked copy is running. -/
def COPY_IN_PROGRESS_PRED : String := "urn:pg:copyInProgress"

/-- Quads per commit for drop and copy. -/
def GRAPH_OP_CHUNK : Nat := 50000

/-- Close an envelope at a time, never before its start. -/
def BiTemporalRange.closeAt (now : Timestamp) (temporal : BiTemporalRange) : BiTemporalRange :=
  { temporal with vtEnd := max now temporal.vtStart }

/-- An envelope that starts at a time and has no end. -/
def BiTemporalRange.assertNow (now : Timestamp) : BiTemporalRange :=
  ⟨now, Timestamp.END_OF_TIME, Timestamp.zero⟩

/-- A triple with its valid time closed at a time; annotations stay as they are. -/
def closeAt (now : Timestamp) : Triple → Triple
  | .relation subject predicate object edgeId temporal =>
    .relation subject predicate object edgeId (temporal.closeAt now)
  | .property subject predicate value temporal =>
    .property subject predicate value (temporal.closeAt now)
  | other => other

/-- Consecutive pieces of at most some number of items. -/
def chunks {α : Type} (size : Nat) (items : List α) : List (List α) :=
  (List.range ((items.length + size - 1) / size)).map
    (fun i => (items.drop (i * size)).take size)

namespace TripleStore

section External

variable (ext : External)

/-- The identifier of the system graph, interning it on first use. -/
def systemGraph (store : TripleStore) : Except StorageError (TripleStore × GraphId) :=
  store.internGraph ext SYSTEM_GRAPH_IRI

/-- The node of a named graph, or an error for the default graph. -/
def graphNodeOrErr (store : TripleStore) (g : GraphId) : Except StorageError NodeId :=
  match store.graphNode ext g with
  | some node => .ok node
  | none => .error (.validation ("g" ++ toString g.raw.toNat
      ++ " is not a named graph (the default graph has no metadata)"))

/-- Replace metadata properties of a graph, one value per predicate. -/
def setGraphMetadata (store : TripleStore) (g : GraphId) (metadata : List (String × Value))
    (now : Timestamp) : TripleStore × Except StorageError Unit :=
  match store.graphNodeOrErr ext g with
  | .error problem => (store, .error problem)
  | .ok node =>
    match store.systemGraph ext with
    | .error problem => (store, .error problem)
    | .ok (store, meta_) =>
      let tx := metadata.foldl (fun (tx : Transaction) (entry : String × Value) =>
        tx.insertIn (.property node entry.1 entry.2 (.assertNow now)) meta_ .replace) store.begin
      match store.commit ext tx now with
      | (store, .error problem) => (store, .error problem)
      | (store, .ok _) => (store, .ok ())

/-- Close a metadata property of a graph. -/
def clearGraphMetadata (store : TripleStore) (g : GraphId) (predicate : String) (now : Timestamp) :
    TripleStore × Except StorageError Unit :=
  match store.graphNode ext g, store.graphId SYSTEM_GRAPH_IRI with
  | some node, some meta_ =>
    match store.scanBySubjectInGraphAt ext meta_ node ⟨store.committed, none, none⟩ now with
    | .error problem => (store, .error problem)
    | .ok triples =>
      let closing := triples.filter (fun triple => decide (triple.predicate = predicate))
      let tx := closing.foldl (fun (tx : Transaction) triple =>
        tx.insertIn (closeAt now triple) meta_ .add) store.begin
      match store.commit ext tx now with
      | (store, .error problem) => (store, .error problem)
      | (store, .ok _) => (store, .ok ())
  | _, _ => (store, .ok ())

/-- Create a named graph and set its metadata properties, recording the author. -/
def createGraphBy (store : TripleStore) (iri : String) (metadata : List (String × Value))
    (author : String) (now : Timestamp) : TripleStore × Except StorageError GraphId :=
  let isNew := (store.graphId iri).isNone
  match store.internGraph ext iri with
  | .error problem => (store, .error problem)
  | .ok (store, g) =>
    let created := if isNew then
        store.commit ext ((store.begin.setAuthor author).recordGraphOp (.created g)) now
      else (store, .ok store.readTs)
    match created with
    | (store, .error problem) => (store, .error problem)
    | (store, .ok _) =>
      if metadata.isEmpty then (store, .ok g)
      else match store.setGraphMetadata ext g metadata now with
        | (store, .error problem) => (store, .error problem)
        | (store, .ok ()) => (store, .ok g)

/-- The quads of a graph that are valid now, at the latest commit. -/
def liveQuads (store : TripleStore) (g : GraphId) (now : Timestamp) :
    Except StorageError (List Triple) :=
  store.scanGraphAt ext g ⟨store.committed, none, none⟩ now

/-- The transaction of one chunk of additions to a graph. -/
def chunkTx (store : TripleStore) (author : String) (g : GraphId) (triples : List Triple) :
    Transaction :=
  triples.foldl (fun tx triple => tx.insertIn triple g .add) (store.begin.setAuthor author)

/--
Commit chunks of additions to a graph one after another, the last with a graph operation.

With no chunk at all the operation is committed on its own.
-/
def commitChunks (author : String) (g : GraphId) (op : GraphOp) (now : Timestamp) :
    TripleStore → List (List Triple) → TripleStore × Except StorageError Unit
  | store, [] =>
    match store.commit ext ((store.chunkTx author g []).recordGraphOp op) now with
    | (store, .error problem) => (store, .error problem)
    | (store, .ok _) => (store, .ok ())
  | store, [last] =>
    match store.commit ext ((store.chunkTx author g last).recordGraphOp op) now with
    | (store, .error problem) => (store, .error problem)
    | (store, .ok _) => (store, .ok ())
  | store, chunk :: next :: rest =>
    match store.commit ext (store.chunkTx author g chunk) now with
    | (store, .error problem) => (store, .error problem)
    | (store, .ok _) => commitChunks author g op now store (next :: rest)

/-- Close every live quad of a graph, recording the author. -/
def dropGraphBy (store : TripleStore) (g : GraphId) (author : String) (now : Timestamp) :
    TripleStore × Except StorageError Nat :=
  match store.liveQuads ext g now with
  | .error problem => (store, .error problem)
  | .ok live =>
    match commitChunks ext author g (.dropped g) now store
        (chunks GRAPH_OP_CHUNK (live.map (closeAt now))) with
    | (store, .error problem) => (store, .error problem)
    | (store, .ok ()) => (store, .ok live.length)

/-- Set or clear the flag of a chunked copy on a target other than the default graph. -/
def flagged (store : TripleStore) (chunked : Bool) (target : GraphId)
    (change : TripleStore → TripleStore × Except StorageError Unit) :
    TripleStore × Except StorageError Unit :=
  if chunked && decide (target ≠ GraphId.DEFAULT) then change store else (store, .ok ())

/-- Copy the live quads of a graph into another, which is dropped first when asked for. -/
def copyGraphBy (store : TripleStore) (source target : GraphId) (clearTarget : Bool)
    (author : String) (now : Timestamp) : TripleStore × Except StorageError Nat :=
  if source = target then (store, .ok 0)
  else
    let cleared := if clearTarget then store.dropGraphBy ext target author now else (store, .ok 0)
    match cleared with
    | (store, .error problem) => (store, .error problem)
    | (store, .ok _) =>
      match store.liveQuads ext source now with
      | .error problem => (store, .error problem)
      | .ok live =>
        let chunked := decide (GRAPH_OP_CHUNK < live.length)
        match store.flagged chunked target
            (fun store => store.setGraphMetadata ext target
              [(COPY_IN_PROGRESS_PRED, .bool true)] now) with
        | (store, .error problem) => (store, .error problem)
        | (store, .ok ()) =>
          match commitChunks ext author target (.copied source target) now store
              (chunks GRAPH_OP_CHUNK live) with
          | (store, .error problem) => (store, .error problem)
          | (store, .ok ()) =>
            match store.flagged chunked target
                (fun store => store.clearGraphMetadata ext target COPY_IN_PROGRESS_PRED now) with
            | (store, .error problem) => (store, .error problem)
            | (store, .ok ()) => (store, .ok live.length)

/-- Copy a graph into another, replacing it, then drop the source. -/
def moveGraphBy (store : TripleStore) (source target : GraphId) (author : String)
    (now : Timestamp) : TripleStore × Except StorageError Nat :=
  if source = target then (store, .ok 0)
  else
    match store.copyGraphBy ext source target true author now with
    | (store, .error problem) => (store, .error problem)
    | (store, .ok n) =>
      match store.dropGraphBy ext source author now with
      | (store, .error problem) => (store, .error problem)
      | (store, .ok _) => (store, .ok n)

end External

end TripleStore

end Polargraph
