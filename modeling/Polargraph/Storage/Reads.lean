import Mathlib.Data.List.Infix
import Mathlib.Data.List.Sort
import Polargraph.Storage.Scan

/-! The other reads of a snapshot: unions, subject graphs, text search, annotations, history. -/

namespace Polargraph

namespace Value

/-- Equality of doubles as numbers: zeros are equal, and not-a-number equals nothing. -/
def sameFloat (left right : UInt64) : Bool :=
  !isNan left && !isNan right &&
    decide (left = right ∨ (left ||| right) &&& 0x7fffffffffffffff = 0)

/-- Equality of single-precision floats as numbers. -/
def sameFloat32 (left right : UInt32) : Bool :=
  let nan (bits : UInt32) := decide (0x7f800000 < (bits &&& 0x7fffffff))
  !nan left && !nan right && decide (left = right ∨ (left ||| right) &&& 0x7fffffff = 0)

/-- Equality of values, which differs from equality of bits on floating-point numbers only. -/
def same : Value → Value → Bool
  | float left, float right => sameFloat left right
  | vector left, vector right =>
    decide (left.length = right.length) && (left.zip right).all (fun pair => sameFloat32 pair.1 pair.2)
  | left, right => decide (left = right)

end Value

/-- Whether a restriction of the readable graphs, if any, admits a graph. -/
def readableAdmits (readable : Option (List UInt32)) (g : GraphId) : Bool :=
  match readable with
  | none => true
  | some graphs => graphs.contains g.raw

/-- The value carried by an edge annotation. -/
inductive EdgeAnnotationValue where
  /-- A scalar. -/
  | scalar (value : Value)
  /-- A reference to a node. -/
  | node (node : NodeId)
deriving DecidableEq

/-- A single annotation on an edge. -/
structure EdgeAnnotation where
  /-- Its predicate name. -/
  predicate : String
  /-- Its value. -/
  value : EdgeAnnotationValue
deriving DecidableEq

/-- A decoded annotation key, with the object of a relation annotation. -/
structure DecodedAnnotation where
  /-- The annotated edge. -/
  edgeId : EdgeId
  /-- The interned predicate. -/
  predId : PredId
  /-- The object node of a relation annotation, and the nil node otherwise. -/
  object : NodeId
  /-- The graph. -/
  g : GraphId
  /-- The transaction time. -/
  tt : Timestamp

/-- Decode a key of the edge-property annotations. -/
def decodeEpaKey (key : Bytes) : Except StorageError DecodedAnnotation := do
  checkLen key 32 "EPA"
  return ⟨⟨Uuid.fromSlice (slice key 0 16)⟩, u32From (slice key 16 20), ⟨Uuid.nil⟩,
    ⟨u32From (slice key 20 24)⟩, Timestamp.fromBeBytes (slice key 24 32)⟩

/-- Decode a key of the edge-relation annotations. -/
def decodeEpoKey (key : Bytes) : Except StorageError DecodedAnnotation := do
  checkLen key 48 "EPO"
  return ⟨⟨Uuid.fromSlice (slice key 0 16)⟩, u32From (slice key 16 20),
    ⟨Uuid.fromSlice (slice key 20 36)⟩, ⟨u32From (slice key 36 40)⟩,
    Timestamp.fromBeBytes (slice key 40 48)⟩

/-- Decode a key of the predicate-first annotation index. -/
def decodePeaKey (key : Bytes) : Except StorageError DecodedAnnotation := do
  checkLen key 32 "PEA"
  return ⟨⟨Uuid.fromSlice (slice key 4 20)⟩, u32From (slice key 0 4), ⟨Uuid.nil⟩,
    ⟨u32From (slice key 20 24)⟩, Timestamp.fromBeBytes (slice key 24 32)⟩

/-- The graph and the subject of a trigram key. -/
def decodeTri (key : Bytes) : Except StorageError (GraphId × NodeId) := do
  checkLen key 27 "TRI"
  return (⟨u32From (slice key 7 11)⟩, ⟨Uuid.fromSlice (slice key 11 27)⟩)

/-- A quad whose versions are being read, with the best of them so far. -/
structure CurrentQuad where
  /-- The forty bytes of its key before the transaction time. -/
  id : Bytes
  /-- Start of the best version's valid time. -/
  vtStart : Timestamp
  /-- Transaction time of the best version. -/
  tt : Timestamp
  /-- End of the best version's valid time. -/
  vtEnd : Timestamp

/-- The subject and graph of a quad whose best version covers a valid time. -/
def CurrentQuad.flush (vt : Timestamp) (quad : CurrentQuad) : List (NodeId × GraphId) :=
  if vt < quad.vtEnd then [(⟨Uuid.fromSlice (quad.id.take 16)⟩, Order.spog.graphOf quad.id)] else []

/-- A version of a property in its history. -/
structure PropertyVersion where
  /-- Its transaction time. -/
  tt : Timestamp
  /-- Whether it is open-ended. -/
  isOpen : Bool
  /-- Its object slot. -/
  o : NodeId
  /-- Its index value. -/
  bytes : Bytes

namespace TripleStore

/-- No graph was ever named; identifiers are assigned from one on. -/
def noGraphs (store : TripleStore) : Bool := decide (store.nextGraphId = 1)

/-- Keep one triple for each subject, predicate and object: that of the lowest graph. -/
def lowestGraphs (quads : List (QuadIds × Triple)) : List Triple :=
  (quads.foldl (fun held (ids, triple) =>
    Latest.entryUpdate (ids.s, ids.p, ids.o) (ids.g, triple)
      (fun prev => if prev.1.raw ≤ ids.g.raw then prev else (ids.g, triple)) held) []).map
    (fun slot => slot.2.2)

/-- Take one entry of the leading order into account; the calls for finished quads come first. -/
def liveEntry (point : ReadAt) (vt : Timestamp)
    (state : List (NodeId × GraphId) × Option CurrentQuad) (entry : Bytes × Bytes) :
    List (NodeId × GraphId) × Option CurrentQuad :=
  let (key, value) := entry
  if key.length < 48 ∨ point.ts < keyTt key then state
  else if !point.canRead (Order.spog.graphOf key) then state
  else match validTime value with
    | none => state
    | some (vtStart, vtEnd) =>
      if vt < vtStart then state
      else
        let next : CurrentQuad := ⟨key.take 40, vtStart, keyTt key, vtEnd⟩
        match state.2 with
        | none => (state.1, some next)
        | some best =>
          if best.id = next.id then
            if best.vtStart < next.vtStart ∨ (next.vtStart = best.vtStart ∧ best.tt < next.tt) then
              (state.1, some next)
            else state
          else (state.1 ++ best.flush vt, some next)

/-- The subject and graph of every live quad under a prefix of the leading order. -/
def liveSubjectGraphsAt (store : TripleStore) (start : Bytes) (point : ReadAt) (now : Timestamp) :
    List (NodeId × GraphId) :=
  let vt := point.vtAsOf.getD now
  let (calls, last) :=
    ((store.db.family (.quads .spog)).scanPrefix start).foldl (liveEntry point vt) ([], none)
  calls ++ (last.map (CurrentQuad.flush vt)).getD []

/-- The graphs in which a subject has a live quad. -/
def subjectGraphs (store : TripleStore) (subject : NodeId) (point : ReadAt) (now : Timestamp) :
    List GraphId :=
  (store.liveSubjectGraphsAt subject.uuid.bytes point now).foldl
    (fun out call => if call.2 ∈ out then out else out ++ [call.2]) []

/-- The graphs in which each of some subjects has a live quad. -/
def allSubjectGraphs (store : TripleStore) (keep : NodeId → Bool) (point : ReadAt)
    (now : Timestamp) : List (NodeId × List GraphId) :=
  (store.liveSubjectGraphsAt [] point now).foldl (fun out call =>
    if keep call.1 then
      Latest.entryUpdate call.1 []
        (fun graphs => if call.2 ∈ graphs then graphs else graphs ++ [call.2]) out
    else out) []

/-- The subjects with a trigram entry under a predicate, in any graph. -/
def scanTrigramCandidates (store : TripleStore) (p : PredId) (trigram : Bytes) : List NodeId :=
  ((store.db.family .tri).scanPrefix (trigram ++ u32Bytes p)).filterMap fun entry =>
    match decodeTri entry.1 with
    | .ok (_, node) => some node
    | .error _ => none

/-- The subjects that have every trigram of a query, none when the query has no trigram. -/
def textCandidates (store : TripleStore) (p : PredId) (query : String) : List NodeId :=
  let sets := (extractTrigrams query).map (store.scanTrigramCandidates p)
  match sets.insertionSort (fun left right => left.length ≤ right.length) with
  | [] => []
  | first :: others => first.dedup.filter (fun node => others.all (fun set => set.contains node))

/-- The latest version of each key among the annotations of a scan. -/
def latestAnnotations {κ : Type} [DecidableEq κ] (decode : Bytes → Except StorageError DecodedAnnotation)
    (name : DecodedAnnotation → κ) (ts : Timestamp) (readable : Option (List UInt32))
    (entries : List (Bytes × Bytes)) : Except StorageError (List (κ × Timestamp × Bytes)) :=
  entries.foldlM (fun latest (key, value) => do
    let dk ← decode key
    if ts < dk.tt ∨ !readableAdmits readable dk.g then return latest
    return Latest.entryUpdate (name dk) (Timestamp.MIN, [])
      (fun slot => if slot.1 < dk.tt then (dk.tt, value) else slot) latest) []

/-- The newest edge of each graph's versions of a relation seen so far. -/
def edgeEntry (ext : External) (ts : Timestamp) (readable : Option (List UInt32))
    (best : List (GraphId × Timestamp × EdgeId)) (entry : Bytes × Bytes) :
    List (GraphId × Timestamp × EdgeId) :=
  let (key, value) := entry
  let tt := keyTt key
  let g := Order.spog.graphOf key
  if ts < tt ∨ !readableAdmits readable g then best
  else match decodeValue ext value with
    | .ok (.relation edgeId _) =>
      Latest.entryUpdate g (tt, edgeId)
        (fun prev => if tt ≤ prev.1 then prev else (tt, edgeId)) best
    | _ => best

/-- The newest node of an edge's annotations seen so far. -/
def nodeAnnotationEntry (ts : Timestamp) (readable : Option (List UInt32))
    (best : Option (Timestamp × NodeId)) (entry : Bytes × Bytes) :
    Except StorageError (Option (Timestamp × NodeId)) := do
  let dk ← decodeEpoKey entry.1
  if ts < dk.tt ∨ !readableAdmits readable dk.g then return best
  return match best with
    | none => some (dk.tt, dk.object)
    | some held => if held.1 < dk.tt then some (dk.tt, dk.object) else some held

/-- The property version of an entry, unless it is a relation's or not readable. -/
def historyEntry (readable : Option (List UInt32)) (versions : List PropertyVersion)
    (entry : Bytes × Bytes) : Except StorageError (List PropertyVersion) := do
  let (key, value) := entry
  if value.head? = some DISC_RELATION ∨ !readableAdmits readable (Order.spog.graphOf key) then
    return versions
  match validTime value with
  | none => return versions
  | some (_, vtEnd) =>
    let q ← Order.spog.decode key
    return versions ++ [⟨q.tt, decide (vtEnd = Timestamp.END_OF_TIME), q.o, value⟩]

section External

variable (ext : External)

/-- Scan across all graphs and keep one triple for each subject, predicate and object. -/
def scanUnion (store : TripleStore) (order : Order) (start : Bytes) (point : ReadAt)
    (now : Timestamp) : Except StorageError (List Triple) := do
  let quads ← store.snapshotScanKeyed ext order start point now .union
  if store.noGraphs then return quads.map Prod.snd
  return lowestGraphs quads

/-- Scan across all graphs under a prefix that needs the identifier of a predicate. -/
def scanPredicate (store : TripleStore) (predicate : String) (order : Order)
    (start : PredId → Bytes) (point : ReadAt) (now : Timestamp) :
    Except StorageError (List Triple) :=
  match store.predicateId predicate with
  | none => .ok []
  | some p => store.scanUnion ext order (start p) point now

/-- The triples of a subject. -/
def scanBySubjectAt (store : TripleStore) (subject : NodeId) :=
  store.scanUnion ext .spog (Order.spog.keyPrefix (some subject) none none none)

/-- The triples of a subject and a predicate. -/
def scanBySubjectPredicateAt (store : TripleStore) (subject : NodeId) (predicate : String) :=
  store.scanPredicate ext predicate .spog
    (fun p => Order.spog.keyPrefix (some subject) (some p) none none)

/-- The triples of a predicate. -/
def scanByPredicateAt (store : TripleStore) (predicate : String) :=
  store.scanPredicate ext predicate .psog (fun p => Order.psog.keyPrefix none (some p) none none)

/-- The triples of a predicate and an object, which may be the hash of a value. -/
def scanByPredicateObjectAt (store : TripleStore) (predicate : String) (object : NodeId) :=
  store.scanPredicate ext predicate .posg
    (fun p => Order.posg.keyPrefix none (some p) (some object) none)

/-- The properties of a predicate whose value equals a value. -/
def scanByPredicateValueAt (store : TripleStore) (predicate : String) (value : Value)
    (point : ReadAt) (now : Timestamp) : Except StorageError (List Triple) := do
  let triples ← store.scanByPredicateObjectAt ext predicate (valueObject ext value) point now
  return triples.filter fun triple =>
    match triple with
    | .property _ _ held _ => held.same value
    | _ => false

/-- The triples of an object. -/
def scanByObjectAt (store : TripleStore) (object : NodeId) :=
  store.scanUnion ext .ospg (Order.ospg.keyPrefix none none (some object) none)

/-- The triples of a subject and an object. -/
def scanBySubjectObjectAt (store : TripleStore) (subject object : NodeId) :=
  store.scanUnion ext .sopg (Order.sopg.keyPrefix (some subject) none (some object) none)

/-- Every triple of the store. -/
def scanAllAt (store : TripleStore) := store.scanUnion ext .spog []

/-- Whether a subject has a live text value that contains a query, both lower-cased. -/
def confirmText (toLowercase : String → String) (store : TripleStore) (predicate query : String)
    (point : ReadAt) (now : Timestamp) (node : NodeId) : Except StorageError Bool := do
  let triples ← store.scanBySubjectPredicateAt ext node predicate point now
  return triples.any fun triple =>
    match triple with
    | .property _ _ value _ => value.asText.any
        (fun text => decide (utf8 (toLowercase query) <:+: utf8 (toLowercase text)))
    | _ => false

/-- The subjects with a live text value under a predicate that contains a query. -/
def textSearchAt (toLowercase : String → String) (store : TripleStore) (predicate query : String)
    (point : ReadAt) (now : Timestamp) : Except StorageError (List NodeId) :=
  match store.predicateId predicate with
  | none => .ok []
  | some p => do
    let candidates := store.textCandidates p query
    let confirmed ← candidates.mapM (fun node => do
      return (node, ← store.confirmText ext toLowercase predicate query point now node))
    return (confirmed.filter Prod.snd).map Prod.fst

/-- The annotations of an edge, properties before relations. -/
def scanEdgeAnnotationsWith (store : TripleStore) (edge : EdgeId) (ts : Timestamp)
    (readable : Option (List UInt32)) : Except StorageError (List EdgeAnnotation) := do
  let start := edge.uuid.bytes
  let scalars ← latestAnnotations decodeEpaKey DecodedAnnotation.predId ts readable
    ((store.db.family .epa).scanPrefix start)
  let properties ← scalars.mapM fun (p, _, bytes) => do
    let name ← store.predicateOrErr p
    match ← decodeValue ext bytes with
    | .property value _ => return [⟨name, .scalar value⟩]
    | _ => return []
  let nodes ← latestAnnotations decodeEpoKey (fun dk => (dk.predId, dk.object)) ts readable
    ((store.db.family .epo).scanPrefix start)
  let relations ← nodes.mapM fun ((p, object), _) => do
    let name ← store.predicateOrErr p
    return ⟨name, .node object⟩
  return properties.flatten ++ relations

/-- The annotations of an edge as triples; `now` is the clock at the read. -/
def scanEdgeAnnotationsAsTriplesWith (store : TripleStore) (edge : EdgeId) (ts : Timestamp)
    (readable : Option (List UInt32)) (now : Timestamp) : Except StorageError (List Triple) := do
  let annotations ← store.scanEdgeAnnotationsWith ext edge ts readable
  return annotations.map fun annotation =>
    match annotation.value with
    | .scalar value => .edgeProperty edge annotation.predicate value ⟨now, Timestamp.END_OF_TIME, now⟩
    | .node object => .edgeRelation edge annotation.predicate object ⟨now, Timestamp.END_OF_TIME, now⟩

/-- The edge properties with a predicate, the latest version of each edge. -/
def scanAnnotationsByPredicateWith (store : TripleStore) (predicate : String) (ts : Timestamp)
    (readable : Option (List UInt32)) : Except StorageError (List Triple) :=
  match store.predicateId predicate with
  | none => .ok []
  | some p => do
    let latest ← latestAnnotations decodePeaKey DecodedAnnotation.edgeId ts readable
      ((store.db.family .pea).scanPrefix (u32Bytes p))
    let triples ← latest.mapM fun (edge, tt, bytes) => do
      match ← decodeValue ext bytes with
      | .property value temporal =>
        return [Triple.edgeProperty edge predicate value { temporal with tt := tt }]
      | _ => return []
    return triples.flatten

/-- The value of the latest property annotation, if there is one. -/
def scalarAnnotation (predicate : String) (latest : List (Unit × Timestamp × Bytes)) :
    Except StorageError (Option EdgeAnnotation) :=
  match latest with
  | [] => .ok none
  | (_, _, bytes) :: _ => do
    match ← decodeValue ext bytes with
    | .property value _ => return some ⟨predicate, .scalar value⟩
    | _ => return none

/-- The latest annotation of an edge under a predicate, a property before a relation. -/
def getEdgeAnnotationWith (store : TripleStore) (edge : EdgeId) (predicate : String)
    (ts : Timestamp) (readable : Option (List UInt32)) :
    Except StorageError (Option EdgeAnnotation) :=
  match store.predicateId predicate with
  | none => .ok none
  | some p => do
    let start := edge.uuid.bytes ++ u32Bytes p
    let scalars ← latestAnnotations decodeEpaKey (fun _ => ()) ts readable
      ((store.db.family .epa).scanPrefix start)
    let property ← scalarAnnotation ext predicate scalars
    if property.isSome then return property
    let node ← ((store.db.family .epo).scanPrefix start).foldlM (nodeAnnotationEntry ts readable) none
    return node.map (fun best => ⟨predicate, .node best.2⟩)

/-- The latest annotation of an edge under a predicate, in any graph. -/
def getEdgeAnnotation (store : TripleStore) (edge : EdgeId) (predicate : String) (ts : Timestamp) :
    Except StorageError (Option EdgeAnnotation) :=
  store.getEdgeAnnotationWith ext edge predicate ts none

/-- The historical values of a property, newest first. -/
def scanPropertyHistoryIn (store : TripleStore) (subject : NodeId) (predicate : String)
    (limit : Nat) (readable : Option (List UInt32)) :
    Except StorageError (List (Value × Timestamp)) :=
  match store.predicateId predicate with
  | none => .ok []
  | some p => do
    let start := Order.spog.keyPrefix (some subject) (some p) none none
    let versions ← ((store.db.family (.quads .spog)).scanPrefix start).foldlM
      (historyEntry readable) []
    -- A closed version next to an open one of the same commit records a replacement.
    let openAt := (versions.filter PropertyVersion.isOpen).map PropertyVersion.tt
    let written := versions.filter (fun version => version.isOpen || !openAt.contains version.tt)
    let newest := written.insertionSort (fun left right => right.tt ≤ left.tt)
    let values ← (newest.take (if limit = 0 then 50 else limit)).mapM fun version => do
      match ← decodeValue ext version.bytes with
      | .property value _ => return [(value, version.tt)]
      | .propertyRef _ => do
        let value ← store.loadBlob ext version.o
        return [(value, version.tt)]
      | .relation _ _ => return []
    return values.flatten

/-- The edges of a relation, newest first. -/
def scanSpoForEdgeIdsIn (store : TripleStore) (subject : NodeId) (p : PredId) (object : NodeId)
    (ts : Timestamp) (readable : Option (List UInt32)) : List EdgeId :=
  let start := Order.spog.keyPrefix (some subject) (some p) (some object) none
  let best := ((store.db.family (.quads .spog)).scanPrefix start).foldl
    (edgeEntry ext ts readable) []
  let found := (best.map Prod.snd).insertionSort (fun left right => right.1 ≤ left.1)
  (found.map Prod.snd).foldl (fun seen edge => if edge ∈ seen then seen else seen ++ [edge]) []

end External

end TripleStore

end Polargraph
