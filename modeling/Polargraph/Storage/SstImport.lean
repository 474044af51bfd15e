import Polargraph.Lib.KeyedSort
import Polargraph.Storage.Mvcc

/-! Bulk import: one sorted file for each order, ingested past the write path. -/

namespace Polargraph

/-- Triples and IRIs collected for an import. -/
structure SstImporter where
  /-- The triples, each with its graph. -/
  triples : List (Triple × GraphId)
  /-- IRIs to record in the IRI dictionary. -/
  iris : List String

namespace TripleStore

/-- Sort the entries of an order, drop repeated keys, and ingest the rest. -/
def ingestSorted (store : TripleStore) (sort : List (Bytes × Bytes) → List (Bytes × Bytes))
    (order : Order) (entries : List (Bytes × Bytes)) : TripleStore :=
  if entries.isEmpty then store
  else store.dbWrite
    ((dedupByKey (sort entries)).map (fun entry => .put (.quads order) entry.1 entry.2))

/-- Intern the predicates of some triples, each name once. -/
def predIds (store : TripleStore) (ids : List (String × PredId)) :
    List (Triple × GraphId) → TripleStore × List (String × PredId)
  | [] => (store, ids)
  | (triple, _) :: rest =>
    match ids.lookup triple.predicate with
    | some _ => predIds store ids rest
    | none =>
      let (store, id) := store.internPredicate triple.predicate
      predIds store ((triple.predicate, id) :: ids) rest

section External

variable (ext : External)

/-- The versions of a triple whose predicate is interned, and what goes to the other families. -/
def importTriple (store : TripleStore) (window : BiTemporalRange) (p : PredId)
    (collected : WriteBatch × List StagedQuad) (triple : Triple) (g : GraphId) :
    Except StorageError (WriteBatch × List StagedQuad) :=
  let (batch, quads) := collected
  match triple with
  | .relation subject _ object edgeId _ =>
    .ok (batch, quads ++ [⟨⟨⟨subject, p, object, g⟩, window.tt⟩, encodeRelation edgeId window⟩])
  | .property subject _ value _ => do
    let trigrams := (value.asText.map (batchTextTrigrams subject p g)).getD []
    let (batch, bytes) ← store.encodePropertyEntry ext (batch ++ trigrams) value window
    return (batch, quads ++ [⟨⟨⟨subject, p, valueObject ext value, g⟩, window.tt⟩, bytes⟩])
  | .edgeProperty edge _ value temporal => do
    let bytes ← encodeProperty ext value { temporal with tt := window.tt }
    return (batch ++ batchEpa edge p g window.tt bytes, quads)
  | .edgeRelation edge _ object temporal =>
    .ok (batch ++ batchEpo edge p object g { temporal with tt := window.tt }, quads)

/-- What some triples add to the import, one after another. -/
def importTriples (store : TripleStore) (window : BiTemporalRange) (ids : List (String × PredId)) :
    WriteBatch × List StagedQuad → List (Triple × GraphId) →
    Except StorageError (WriteBatch × List StagedQuad)
  | collected, [] => .ok collected
  | collected, (triple, g) :: rest => do
    let p := (ids.lookup triple.predicate).getD 0
    let collected ← store.importTriple ext window p collected triple g
    importTriples store window ids collected rest

/-- The entries of an order. -/
def orderEntries (quads : List StagedQuad) (order : Order) : List (Bytes × Bytes) :=
  quads.map (fun quad => (order.encode quad.key, quad.value))

/--
Import what was collected, valid from now on.

Every order sorts and ingests its own entries; `wall` is the clock at the commit timestamp.
-/
def finishImport (store : TripleStore) (sort : Order → List (Bytes × Bytes) → List (Bytes × Bytes))
    (importer : SstImporter) (wall now : Timestamp) : TripleStore × Except StorageError Nat :=
  if importer.triples.isEmpty && importer.iris.isEmpty then (store, .ok 0)
  else
    let (store, ids) := store.predIds [] importer.triples
    let (store, commitTs) := store.beginCommit wall
    let window : BiTemporalRange := ⟨now, Timestamp.END_OF_TIME, commitTs⟩
    match store.importTriples ext window ids ([], []) importer.triples with
    | .error problem => (store, .error problem)
    | .ok (batch, quads) =>
      let store := Order.ALL.foldl
        (fun store order => store.ingestSorted (sort order) order (orderEntries quads order)) store
      match store.batchIris ext batch importer.iris with
      | .error problem => (store, .error problem)
      | .ok batch =>
        (store.dbWrite (batch ++ [.put .metadata META_ORACLE_CTR commitTs.toBeBytes]),
          .ok importer.triples.length)

end External

end TripleStore

end Polargraph
