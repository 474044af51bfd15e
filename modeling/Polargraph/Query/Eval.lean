import Polargraph.Server.CypherWrite

/-! Evaluation of one pattern: the choice of an index, its scan, and schema-aware pruning. -/

namespace Polargraph

/-- A triple pattern: an absent slot matches anything. -/
structure Pattern where
  /-- The subject. -/
  subject : Option NodeId
  /-- The predicate. -/
  predicate : Option String
  /-- The object, which for a property is the hash of its value. -/
  object : Option NodeId
deriving DecidableEq

/-- Which storage scan the evaluator performs. -/
inductive IndexChoice where
  /-- All three slots are bound. -/
  | spoExact (subject : NodeId) (predicate : String) (object : NodeId)
  /-- Subject and predicate. -/
  | spoPrefixSP (subject : NodeId) (predicate : String)
  /-- Subject only. -/
  | spoPrefixS (subject : NodeId)
  /-- Subject and object. -/
  | sopPrefixSO (subject object : NodeId)
  /-- Predicate and object. -/
  | posPrefixPO (predicate : String) (object : NodeId)
  /-- Predicate only. -/
  | psoPrefixP (predicate : String)
  /-- Object only. -/
  | ospPrefixO (object : NodeId)
  /-- No constraints. -/
  | fullScan
deriving DecidableEq

/-- The best index for a pattern. -/
def chooseIndex (pattern : Pattern) : IndexChoice :=
  match pattern.subject, pattern.predicate, pattern.object with
  | some s, some p, some o => .spoExact s p o
  | some s, some p, none => .spoPrefixSP s p
  | some s, none, some o => .sopPrefixSO s o
  | some s, none, none => .spoPrefixS s
  | none, some p, some o => .posPrefixPO p o
  | none, some p, none => .psoPrefixP p
  | none, none, some o => .ospPrefixO o
  | none, none, none => .fullScan

/-- A store at a point of a read, with the clock at the request and the prefixes of its vocabulary. -/
structure Snapshot where
  /-- The store. -/
  store : TripleStore
  /-- The point of the read, and the graphs the reader may see. -/
  point : ReadAt
  /-- The clock. -/
  now : Timestamp
  /-- The namespaces of the declared prefixes. -/
  prefixes : String → Option String

/-- The type constraints of a predicate. -/
structure EdgeTypeDef where
  /-- The type of its subjects. -/
  domain : Option String
  /-- The type of its objects. -/
  range : Option String
deriving DecidableEq

/-- The registered predicates with their definitions. -/
abbrev EdgeTypeRegistry := List (String × EdgeTypeDef)

/-- The definition of a predicate by its name, or by the IRI the name resolves to. -/
def EdgeTypeRegistry.getEdgeType (registry : EdgeTypeRegistry) (vocabulary : Vocabulary)
    (prefixes : String → Option String) (predicate : String) : Option EdgeTypeDef :=
  match registry.lookup predicate with
  | some found => some found
  | none =>
    let iri := vocabulary.expand prefixes predicate
    (registry.find? (fun entry => decide (vocabulary.expand prefixes entry.1 = iri))).map Prod.snd

section External

variable (ext : External)

/-- Whether the object slot of a triple is a node. -/
def objectMatches (expected : NodeId) : Triple → Bool
  | .relation _ _ object _ _ => decide (object = expected)
  | .property _ _ value _ => decide (valueObject ext value = expected)
  | .edgeProperty .. | .edgeRelation .. => false

namespace Snapshot

/-- The triples of a subject and a predicate. -/
def scanBySubjectPredicate (snapshot : Snapshot) (subject : NodeId) (predicate : String) :
    Except StorageError (List Triple) :=
  snapshot.store.scanBySubjectPredicateAt ext subject predicate snapshot.point snapshot.now

/-- The triples of a predicate. -/
def scanByPredicate (snapshot : Snapshot) (predicate : String) : Except StorageError (List Triple) :=
  snapshot.store.scanByPredicateAt ext predicate snapshot.point snapshot.now

/-- Triples matching the bound slots of a pattern within a scope, each with its graph. -/
def scanScoped (snapshot : Snapshot) (pattern : Pattern) (scope : GraphScope) :
    Except StorageError (List (GraphId × Triple)) :=
  snapshot.store.scanScopedAt ext pattern.subject pattern.predicate pattern.object scope snapshot.point
    snapshot.now

/-- The node of the class a type name resolves to. -/
def classNode (snapshot : Snapshot) (name : String) : NodeId :=
  iriToNodeId ext (snapshot.store.vocabulary.expand snapshot.prefixes name)

/-- Perform a chosen scan. -/
def execute (snapshot : Snapshot) : IndexChoice → Except StorageError (List Triple)
  | .spoExact subject predicate object => do
    let candidates ← snapshot.scanBySubjectPredicate ext subject predicate
    return candidates.filter (objectMatches ext object)
  | .spoPrefixSP subject predicate => snapshot.scanBySubjectPredicate ext subject predicate
  | .spoPrefixS subject => snapshot.store.scanBySubjectAt ext subject snapshot.point snapshot.now
  | .sopPrefixSO subject object =>
    snapshot.store.scanBySubjectObjectAt ext subject object snapshot.point snapshot.now
  | .posPrefixPO predicate object =>
    snapshot.store.scanByPredicateObjectAt ext predicate object snapshot.point snapshot.now
  | .psoPrefixP predicate => snapshot.scanByPredicate ext predicate
  | .ospPrefixO object => snapshot.store.scanByObjectAt ext object snapshot.point snapshot.now
  | .fullScan => snapshot.store.scanAllAt ext snapshot.point snapshot.now

/-- All triples that match a pattern. -/
def evaluate (snapshot : Snapshot) (pattern : Pattern) : Except StorageError (List Triple) :=
  snapshot.execute ext (chooseIndex pattern)

/-- Whether a node is an instance of the class a type name resolves to. -/
def nodeHasType (snapshot : Snapshot) (node : NodeId) (expected : String) :
    Except StorageError Bool := do
  let triples ← snapshot.scanBySubjectPredicate ext node RDF_TYPE
  return triples.any fun triple =>
    match triple with
    | .relation _ _ object _ _ => decide (object = snapshot.classNode ext expected)
    | _ => false

/-- Whether a bound slot has the type that is expected of it, if any. -/
def slotHasType (snapshot : Snapshot) (expected : Option String) (slot : Option NodeId) :
    Except StorageError Bool :=
  match expected, slot with
  | some name, some node => snapshot.nodeHasType ext node name
  | _, _ => .ok true

/-- All triples that match a pattern, none when a bound slot lacks the type its predicate requires. -/
def evaluateWithRegistry (snapshot : Snapshot) (registry : Option EdgeTypeRegistry)
    (pattern : Pattern) : Except StorageError (List Triple) :=
  match (registry.bind fun registry => pattern.predicate.bind fun predicate =>
      registry.getEdgeType snapshot.store.vocabulary snapshot.prefixes predicate) with
  | none => snapshot.evaluate ext pattern
  | some definition => do
    let domain ← snapshot.slotHasType ext definition.domain pattern.subject
    -- The object is not looked at when the subject already lacks its type.
    if !domain then .ok []
    else do
      let range ← snapshot.slotHasType ext definition.range pattern.object
      if !range then .ok [] else snapshot.evaluate ext pattern

end Snapshot

/-- Whether a triple satisfies every bound slot of a pattern; an annotation has no object slot. -/
def tripleMatchesPattern (triple : Triple) (pattern : Pattern) : Bool :=
  pattern.subject.all (fun s => decide (triple.subject = s)) &&
    pattern.predicate.all (fun p => decide (triple.predicate = p)) &&
      pattern.object.all (fun o => objectMatches ext o triple)

/-- Whether results have a triple of the same relation, or of the same subject and property. -/
def resultsContainKey (results : List Triple) (candidate : Triple) : Bool :=
  results.any fun held => match held, candidate with
    | .relation rs rp ro _ _, .relation cs cp co _ _ => decide (rs = cs ∧ rp = cp ∧ ro = co)
    | .property rs rp _ _, .property cs cp _ _ => decide (rs = cs ∧ rp = cp)
    | _, _ => false

/-- All triples that match a pattern, with those of a transaction's own writes that are new. -/
def Snapshot.evaluateWithOverlay (snapshot : Snapshot) (pending : List Triple)
    (registry : Option EdgeTypeRegistry) (pattern : Pattern) : Except StorageError (List Triple) := do
  let results ← snapshot.evaluateWithRegistry ext registry pattern
  return pending.foldl (fun results triple =>
    if tripleMatchesPattern ext triple pattern && !resultsContainKey results triple then
      results ++ [triple]
    else results) results

end External

end Polargraph
