import Polargraph.Storage.Changes

/-! Staging of buffered writes into a batch, including the closing versions of replaced values. -/

namespace Polargraph

/-- Text values longer than this many bytes are not written to the trigram index. -/
def TRIGRAM_MAX_TEXT_BYTES : Nat := 512

/-- Subject, predicate and graph of a property. -/
abbrev PropertySlot := NodeId × PredId × GraphId

/-- What the writes staged so far put into the batch. -/
structure Staging where
  /-- The batch. -/
  batch : WriteBatch
  /-- Property values staged in this batch that a later replacing write must close. -/
  values : List (PropertySlot × List (NodeId × Bytes))
  /-- The quad versions in the batch, in staging order. -/
  quads : List StagedQuad

/-- Nothing is staged yet. -/
def Staging.none : Staging := ⟨[], [], []⟩

/-- Write one quad version into all eight orders. -/
def batchQuad (quad : StagedQuad) : WriteBatch :=
  Order.ALL.map (fun order => .put (.quads order) (order.encode quad.key) quad.value)

/-- Stage quad versions. -/
def Staging.addQuads (staging : Staging) (quads : List StagedQuad) : Staging :=
  { staging with
    batch := staging.batch ++ quads.flatMap batchQuad
    quads := staging.quads ++ quads }

/-- Trigram entries of a text property. -/
def batchTextTrigrams (subject : NodeId) (predId : PredId) (g : GraphId) (text : String) :
    WriteBatch :=
  if TRIGRAM_MAX_TEXT_BYTES < (utf8 text).length then []
  else (extractTrigrams text).map (fun trigram => .put .tri (encodeTri trigram predId g subject) [])

/-- Entries of an edge-property annotation. -/
def batchEpa (edge : EdgeId) (predId : PredId) (g : GraphId) (tt : Timestamp) (value : Bytes) :
    WriteBatch :=
  [.put .epa (encodeEpaKey edge predId g tt) value, .put .pea (encodePeaKey predId edge g tt) value]

/-- Entry of an edge-relation annotation. -/
def batchEpo (edge : EdgeId) (predId : PredId) (object : NodeId) (g : GraphId)
    (temporal : BiTemporalRange) : WriteBatch :=
  [.put .epo (encodeEpoKey edge predId object g temporal.tt)
    (temporal.vtStart.toBeBytes ++ temporal.vtEnd.toBeBytes)]

/-- Keep the latest value of an object: replace the last one when it is of the same object. -/
def pushLatest (object : NodeId) (value : Bytes) : List (NodeId × Bytes) → List (NodeId × Bytes)
  | [] => [(object, value)]
  | [(previous, bytes)] =>
    if previous = object then [(previous, value)] else [(previous, bytes), (object, value)]
  | first :: second :: rest => first :: pushLatest object value (second :: rest)

/-- Whether a stored property value is still open at a time. -/
def openAt (time : Timestamp) (bytes : Bytes) : Bool :=
  decide (bytes.head? ≠ some DISC_RELATION) &&
    (validTime bytes).any (fun window => decide (time < window.2))

/-- Whether a staged property value is open-ended. -/
def openEnded (bytes : Bytes) : Bool :=
  (validTime bytes).any (fun window => decide (window.2 = Timestamp.END_OF_TIME))

/--
The values a replacing write closes: the stored open ones, with the staged ones in their place.

A value staged earlier in the batch supersedes its stored version, and is closed only when it is
open-ended itself.
-/
def supersede (stored staged : List (NodeId × Bytes)) : List (NodeId × Bytes) :=
  staged.foldl (fun toClose value =>
    let others := toClose.filter (fun other => decide (other.1 ≠ value.1))
    if openEnded value.2 then others ++ [value] else others) stored

namespace TripleStore

/-- The latest version of every property value of a slot that is still open at a time. -/
def openValues (store : TripleStore) (s : NodeId) (p : PredId) (g : GraphId)
    (time : Timestamp) : Except StorageError (List (NodeId × Bytes)) := do
  let start := Order.gspo.keyPrefix (some s) (some p) none (some g)
  -- Keys sort oldest first within a value, so the last one seen wins.
  let latest ← ((store.db.family (.quads .gspo)).scanPrefix start).foldlM (fun latest entry => do
    let q ← Order.gspo.decode entry.1
    return pushLatest q.o entry.2 latest) []
  return latest.filter (fun value => openAt time value.2)

/-- The closing versions of the values other than one. -/
def closeValues (s : NodeId) (p : PredId) (g : GraphId) (tt closingAt : Timestamp)
    (kept : NodeId) : List (NodeId × Bytes) → Except StorageError (List StagedQuad)
  | [] => .ok []
  | (other, bytes) :: rest =>
    if other = kept then closeValues s p g tt closingAt kept rest
    else do
      let closed ← withVtEnd bytes closingAt
      let quads ← closeValues s p g tt closingAt kept rest
      return StagedQuad.mk ⟨⟨s, p, other, g⟩, tt⟩ closed :: quads

/-- The closing versions a property write puts before its own, none unless it replaces. -/
def stageClosings (store : TripleStore) (mode : WriteMode) (s : NodeId) (p : PredId) (g : GraphId)
    (tt closingAt : Timestamp) (kept : NodeId) (slot : List (NodeId × Bytes)) :
    Except StorageError (List StagedQuad) :=
  if mode = .replace then do
    let stored ← store.openValues s p g closingAt
    closeValues s p g tt closingAt kept (supersede stored slot)
  else .ok []

variable (ext : External)

/-- Stage one write whose predicate has been interned. -/
def stageWrite (store : TripleStore) (tt : Timestamp) (p : PredId) (staging : Staging)
    (w : PendingWrite) : Except StorageError Staging :=
  let temporal : BiTemporalRange := { w.triple.temporal with tt := tt }
  let g := w.graph
  match w.triple with
  | .relation subject _ object edgeId _ =>
    .ok (staging.addQuads [⟨⟨⟨subject, p, object, g⟩, tt⟩, encodeRelation edgeId temporal⟩])
  | .property subject _ value _ => do
    let o := valueObject ext value
    let (batch, bytes) ← store.encodePropertyEntry ext staging.batch value temporal
    let slot := (Latest.lookup (subject, p, g) staging.values).getD []
    let closing ← store.stageClosings (w.mode.resolve w.triple) subject p g tt temporal.vtStart o slot
    let kept := if w.mode.resolve w.triple = .replace then [] else slot
    let written : StagedQuad := ⟨⟨⟨subject, p, o, g⟩, tt⟩, bytes⟩
    let staged := { staging with batch := batch }.addQuads (closing ++ [written])
    return { staged with
      batch := staged.batch ++ (value.asText.map (batchTextTrigrams subject p g)).getD []
      values := Latest.entryUpdate (subject, p, g) [] (fun _ => kept ++ [(o, bytes)]) staging.values }
  | .edgeProperty edge _ value _ => do
    let bytes ← encodeProperty ext value temporal
    return { staging with batch := staging.batch ++ batchEpa edge p g tt bytes }
  | .edgeRelation edge _ object _ =>
    .ok { staging with batch := staging.batch ++ batchEpo edge p object g temporal }

/-- Stage writes one after another; predicates stay interned even when staging fails. -/
def stageWrites (tt : Timestamp) :
    TripleStore → Staging → List PendingWrite → TripleStore × Except StorageError Staging
  | store, staging, [] => (store, .ok staging)
  | store, staging, w :: rest =>
    let (store, p) := store.internPredicate w.triple.predicate
    match store.stageWrite ext tt p staging w with
    | .error problem => (store, .error problem)
    | .ok next => stageWrites tt store next rest

/-- Insert a triple into the default graph at an explicit transaction time. -/
def insertAtTs (store : TripleStore) (triple : Triple) (tt : Timestamp) :
    TripleStore × Except StorageError Unit :=
  let write : PendingWrite := ⟨triple, GraphId.DEFAULT, .auto⟩
  match stageWrites ext tt store Staging.none [write] with
  | (store, .error problem) => (store, .error problem)
  | (store, .ok staging) =>
    let batch := staging.batch ++ batchChange tt "" [] staging.quads
    ((store.dbWrite batch).advanceTo tt, .ok ())

end TripleStore

end Polargraph
