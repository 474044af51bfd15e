import Polargraph.Storage.Open
import Polargraph.Storage.Write

/-! Concurrent calls that intern and rename predicates and intern graphs, step by step. -/

namespace Polargraph

/-- How far a call that holds the lock of a table of names has come. -/
inductive TableCall where
  /-- It took an identifier for a name that has none. -/
  | taken (name : String) (id : UInt32)
  /-- It wrote both to the database. -/
  | recorded (name : String) (id : UInt32)
  /-- It put them in the forward table. -/
  | entered (name : String) (id : UInt32)
  /-- It checked that a name can be changed to another. -/
  | renaming (old new : String) (id : UInt32)
  /-- It wrote the change to the database. -/
  | renamed (old new : String) (id : UInt32)
  /-- It made the change in the forward table. -/
  | moved (new : String) (id : UInt32)
deriving DecidableEq

/-- A store whose tables of names are used by several calls at a time. -/
structure Interner where
  /-- The store. -/
  store : TripleStore
  /-- The graphs by the nodes their IRIs name. -/
  graphByNode : NodeId → Option GraphId
  /-- Stored forms of predicates that were not found, and wait for the lock of their tables. -/
  waiting : List String
  /-- The call that holds the lock of the tables of predicates. -/
  predicateCall : Option TableCall
  /-- Graph IRIs that were not found, and wait for the lock of their tables. -/
  waitingGraphs : List String
  /-- The call that holds the lock of the tables of graphs. -/
  graphCall : Option TableCall
  /-- The predicate identifiers that were returned. -/
  returned : List PredId
  /-- The graph identifiers that were returned. -/
  returnedGraphs : List GraphId
  /-- The predicate identifiers that were taken, in order. -/
  taken : List PredId
  /-- The graph identifiers that were taken, in order. -/
  takenGraphs : List GraphId
  /-- The errors that were returned, other than those of the database. -/
  refused : List StorageError

/-- A step of one of the calls, or of the surroundings. -/
inductive InternStep where
  /-- The vocabulary changes, or whether names are stored under it. -/
  | setVocabulary (vocabulary : Vocabulary) (canonical : Bool)
  /-- A predicate is looked up under the read lock. -/
  | internPredicate (pred : String)
  /-- A stored form is looked up again under the write lock, and takes an identifier. -/
  | lockPredicate (name : String)
  /-- A renaming is checked under the write lock. -/
  | renamePredicate (old new : String)
  /-- The database writes the records of the call on predicates, or fails to. -/
  | writePredicate (succeeds : Bool)
  /-- The call on predicates changes the forward table. -/
  | enterPredicate
  /-- The call on predicates changes the reverse table and returns. -/
  | returnPredicate
  /-- A graph IRI is looked up under the read lock. -/
  | internGraph (iri : String)
  /-- A graph IRI is looked up again under the write lock, and takes an identifier. -/
  | lockGraph (iri : String)
  /-- The database writes the records of the call on graphs, or fails to. -/
  | writeGraph (succeeds : Bool)
  /-- The call on graphs changes the forward table. -/
  | enterGraph
  /-- The call on graphs changes the reverse table and returns. -/
  | returnGraph
  /-- A version whose identifiers were returned is written. -/
  | writeQuad (quad : StagedQuad)

/-- The records of a new predicate. -/
def predicateRecords (name : String) (id next : PredId) : WriteBatch := [
  .put .metadata (metaForwardKey name) (u32Bytes id),
  .put .metadata (metaReverseKey id) (utf8 name),
  .put .metadata META_PRED_CTR (u32Bytes next)]

/-- The records of a predicate whose name changes. -/
def renameRecords (old new : String) (id : PredId) : WriteBatch := [
  .delete .metadata (metaForwardKey old),
  .put .metadata (metaForwardKey new) (u32Bytes id),
  .put .metadata (metaReverseKey id) (utf8 new)]

/-- The records of a new graph. -/
def graphRecords (iri : String) (id : GraphId) (next : UInt32) : WriteBatch := [
  .put .metadata (metaGraphKey iri) (u32Bytes id.raw),
  .put .metadata (metaGraphRevKey id) (utf8 iri),
  .put .metadata META_GRAPH_CTR (u32Bytes next)]

namespace Interner

/-- A store that no call uses yet. -/
def start (store : TripleStore) : Interner where
  store := store
  graphByNode := fun _ => none
  waiting := []
  predicateCall := none
  waitingGraphs := []
  graphCall := none
  returned := []
  returnedGraphs := []
  taken := []
  takenGraphs := []
  refused := []

/-- A call is given an error. -/
def refuse (state : Interner) (problem : StorageError) : Interner :=
  { state with refused := state.refused ++ [problem] }

/-- A predicate is looked up under the read lock. -/
def internPredicate (state : Interner) (pred : String) : Interner :=
  let name := state.store.canonicalName pred
  match state.store.fwd name with
  | some id => { state with returned := state.returned ++ [id] }
  | none => { state with waiting := state.waiting ++ [name] }

/-- A stored form is looked up again under the write lock, and takes an identifier. -/
def lockPredicate (state : Interner) (name : String) : Interner :=
  let state := { state with waiting := state.waiting.erase name }
  match state.store.fwd name with
  | some id => { state with returned := state.returned ++ [id] }
  | none =>
    let id := state.store.nextPredId
    { state with
      store := { state.store with nextPredId := id + 1 }
      predicateCall := some (.taken name id)
      taken := state.taken ++ [id] }

section Debug

variable (debug : String → String)

/-- A renaming is checked under the write lock. -/
def renamePredicate (state : Interner) (old new : String) : Interner :=
  match state.store.fwd old with
  | none => state.refuse (.validation ("predicate " ++ debug old ++ " is not interned"))
  | some id =>
    if (state.store.fwd new).isSome then
      state.refuse (.validation ("predicate " ++ debug new ++ " is already interned"))
    else { state with predicateCall := some (.renaming old new id) }

end Debug

/-- The database writes the records of the call on predicates, or fails to and ends the call. -/
def writePredicate (state : Interner) (succeeds : Bool) : Option Interner :=
  match state.predicateCall with
  | some (.taken name id) =>
    if succeeds then
      some { state with
        store := state.store.dbWrite (predicateRecords name id state.store.nextPredId)
        predicateCall := some (.recorded name id) }
    else some { state with predicateCall := none }
  | some (.renaming old new id) =>
    if succeeds then
      some { state with
        store := state.store.dbWrite (renameRecords old new id)
        predicateCall := some (.renamed old new id) }
    else some { state with predicateCall := none }
  | _ => none

/-- The call on predicates changes the forward table. -/
def enterPredicate (state : Interner) : Option Interner :=
  match state.predicateCall with
  | some (.recorded name id) =>
    some { state with
      store := { state.store with fwd := Function.update state.store.fwd name (some id) }
      predicateCall := some (.entered name id) }
  | some (.renamed old new id) =>
    some { state with
      store := { state.store with
        fwd := Function.update (Function.update state.store.fwd old none) new (some id) }
      predicateCall := some (.moved new id) }
  | _ => none

/-- The call on predicates changes the reverse table and returns. -/
def returnPredicate (state : Interner) : Option Interner :=
  match state.predicateCall with
  | some (.entered name id) =>
    some { state with
      store := { state.store with rev := Function.update state.store.rev id (some name) }
      predicateCall := none
      returned := state.returned ++ [id] }
  | some (.moved new id) =>
    some { state with
      store := { state.store with rev := Function.update state.store.rev id (some new) }
      predicateCall := none }
  | _ => none

/-- A graph IRI is looked up under the read lock. -/
def internGraph (state : Interner) (iri : String) : Interner :=
  if iri = "" then state.refuse (.validation "graph IRI must not be empty")
  else match state.store.graphFwd iri with
    | some id => { state with returnedGraphs := state.returnedGraphs ++ [id] }
    | none => { state with waitingGraphs := state.waitingGraphs ++ [iri] }

/-- A graph IRI is looked up again under the write lock, and takes an identifier. -/
def lockGraph (state : Interner) (iri : String) : Interner :=
  let state := { state with waitingGraphs := state.waitingGraphs.erase iri }
  match state.store.graphFwd iri with
  | some id => { state with returnedGraphs := state.returnedGraphs ++ [id] }
  | none =>
    let id := state.store.nextGraphId
    { state with
      store := { state.store with nextGraphId := id + 1 }
      graphCall := some (.taken iri id)
      takenGraphs := state.takenGraphs ++ [⟨id⟩] }

/--
The database writes the records of the call on graphs, or fails to and ends the call.

The IRI goes into the dictionary, and the call ends when another IRI names the same node.
-/
def writeGraph (ext : External) (state : Interner) (succeeds : Bool) : Option Interner :=
  match state.graphCall with
  | some (.taken iri id) =>
    match state.store.batchIri ext (graphRecords iri ⟨id⟩ state.store.nextGraphId) iri [] with
    | .error problem => some ({ state with graphCall := none }.refuse problem)
    | .ok (batch, _) =>
      if succeeds then
        some { state with
          store := state.store.dbWrite batch
          graphByNode := Function.update state.graphByNode (iriToNodeId ext iri) (some ⟨id⟩)
          graphCall := some (.recorded iri id) }
      else some { state with graphCall := none }
  | _ => none

/-- The call on graphs changes the forward table. -/
def enterGraph (state : Interner) : Option Interner :=
  match state.graphCall with
  | some (.recorded iri id) =>
    some { state with
      store := { state.store with
        graphFwd := Function.update state.store.graphFwd iri (some ⟨id⟩) }
      graphCall := some (.entered iri id) }
  | _ => none

/-- The call on graphs changes the reverse table and returns. -/
def returnGraph (state : Interner) : Option Interner :=
  match state.graphCall with
  | some (.entered iri id) =>
    some { state with
      store := { state.store with
        graphRev := Function.update state.store.graphRev ⟨id⟩ (some iri) }
      graphCall := none
      returnedGraphs := state.returnedGraphs ++ [⟨id⟩] }
  | _ => none

/-- The state after a step, if it can be taken. -/
def next (ext : External) (debug : String → String) (state : Interner) :
    InternStep → Option Interner
  | .setVocabulary vocabulary canonical =>
    some { state with
      store := { state.store with vocabulary := vocabulary, canonicalNames := canonical } }
  -- A lookup and a call that changes the tables wait while another call has the lock.
  | .internPredicate pred =>
    if state.predicateCall.isSome then none else some (state.internPredicate pred)
  | .lockPredicate name =>
    if state.predicateCall.isSome ∨ name ∉ state.waiting then none
    else some (state.lockPredicate name)
  | .renamePredicate old new =>
    if state.predicateCall.isSome then none else some (state.renamePredicate debug old new)
  | .writePredicate succeeds => state.writePredicate succeeds
  | .enterPredicate => state.enterPredicate
  | .returnPredicate => state.returnPredicate
  | .internGraph iri =>
    if state.graphCall.isSome then none else some (state.internGraph iri)
  | .lockGraph iri =>
    if state.graphCall.isSome ∨ iri ∉ state.waitingGraphs then none else some (state.lockGraph iri)
  | .writeGraph succeeds => state.writeGraph ext succeeds
  | .enterGraph => state.enterGraph
  | .returnGraph => state.returnGraph
  | .writeQuad quad =>
    if quad.key.p ∈ state.returned ∧
        (quad.key.g = GraphId.DEFAULT ∨ quad.key.g ∈ state.returnedGraphs) then
      some { state with store := state.store.dbWrite (batchQuad quad) }
    else none

end Interner

end Polargraph
