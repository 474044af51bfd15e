import Polargraph.Lib.Machine
import Polargraph.Storage.Mvcc
import Polargraph.Storage.Reads

/-! The registry of node types: schemas stored as properties of one node, and the cache of them. -/

namespace Polargraph

/-- The expected value kind for a field. -/
inductive FieldKind where
  | bool
  | int
  | float
  | text
  | blob
  | vector
deriving DecidableEq

/-- A single field in a node type schema. -/
structure FieldDef where
  /-- The name of the field. -/
  name : String
  /-- The kind its values have. -/
  kind : FieldKind
  /-- Whether its absence is an error. -/
  required : Bool
deriving DecidableEq

/-- Whether a vector space keeps its vectors in memory or maps them from a file. -/
inductive StorageMode where
  | memory
  | mmap
deriving DecidableEq

/-- Metadata for a node type's vector embedding space. -/
structure VectorSpaceDef where
  /-- Name of the space the vectors of the type live in. -/
  spaceName : String
  /-- Expected dimensionality. -/
  dimensions : UInt32
  /-- Identifier of the embedding model. -/
  embeddingModel : Option String
  /-- Storage mode for the vectors of the space. -/
  storageMode : StorageMode
  /-- The quantization of the space. -/
  quantization : Option String
deriving DecidableEq

/-- A named node type schema. -/
structure NodeTypeDef where
  /-- The name of the type. -/
  typeName : String
  /-- The fields it declares itself. -/
  fields : List FieldDef
  /-- Its vector space. -/
  vectorSpace : Option VectorSpaceDef
  /-- The types it inherits all fields of. -/
  parentTypes : List String
deriving DecidableEq

/-- On-disk layout for a node type schema. -/
structure NodeSchemaJson where
  /-- The fields of the type. -/
  fields : List FieldDef
  /-- Its vector space. -/
  vectorSpace : Option VectorSpaceDef
  /-- Its parents. -/
  parentTypes : List String
deriving DecidableEq

/-- What is stored of a type besides its name. -/
def NodeTypeDef.wire (definition : NodeTypeDef) : NodeSchemaJson :=
  ⟨definition.fields, definition.vectorSpace, definition.parentTypes⟩

/-- The text writer and readers of schemas. -/
structure SchemaSerde where
  /-- Write a schema. -/
  toString : NodeSchemaJson → String
  /-- Read a schema. -/
  fromStr : String → Option NodeSchemaJson
  /-- Read the fields of an old record. -/
  fieldsFromStr : String → Option (List FieldDef)

/-- Well-known node that holds all schema property triples as its properties. -/
def SCHEMA_REGISTRY_NODE : NodeId :=
  ⟨⟨[0x70, 0x6f, 0x6c, 0x61, 0x72, 0x67, 0x72, 0x61, 0x70, 0x68, 0x5f, 0x73, 0x63, 0x68, 0x65, 0x6d],
    rfl⟩⟩

/-- What the predicates of schemas start with. -/
def SCHEMA_PREDICATE_PREFIX : String := "__schema__/"

/-- The predicate of the schema of a type. -/
def schemaPredicate (typeName : String) : String := SCHEMA_PREDICATE_PREFIX ++ typeName

/-- The type whose schema has a predicate. -/
def typeNameFromPredicate (predicate : String) : Option String :=
  if SCHEMA_PREDICATE_PREFIX.toList.isPrefixOf predicate.toList then
    some (String.ofList (predicate.toList.drop SCHEMA_PREDICATE_PREFIX.toList.length))
  else none

/-- The cached types by their names. -/
abbrev TypeCache := List (String × NodeTypeDef)

namespace TypeCache

/-- Run a check on some items until one fails. -/
def passes {α : Type} (check : α → Option Bool) : List α → Option Bool
  | [] => some true
  | item :: rest => do
    if ← check item then passes check rest else return false

/-- Whether no ancestor of a walk is met again above a type, unless the walk is cut off. -/
def dfsCycleCheck (cache : TypeCache) : Nat → List String → String → Option Bool
  | 0, _, _ => none
  | fuel + 1, ancestors, current =>
    if current ∈ ancestors then some false
    else match Latest.lookup current cache with
      | none => some true
      | some definition =>
        passes (dfsCycleCheck cache fuel (current :: ancestors)) definition.parentTypes

/-- Walk the parent chain of a type and refuse it if a cycle is detected. -/
def checkNoCycle (cache : TypeCache) (typeName : String) :
    List String → Except StorageError Unit
  | [] => .ok ()
  | parent :: rest =>
    -- A walk meets every cached type at most once, so it is not cut off by then.
    if dfsCycleCheck cache (cache.length + 1) [typeName] parent = some true then
      checkNoCycle cache typeName rest
    else .error (.validation ("cycle detected in type hierarchy: '" ++ typeName ++ "' → '" ++ parent
      ++ "'"))

/-- Add a field unless one of its name was collected before. -/
def collectField (found : List String × List FieldDef) (field : FieldDef) :
    List String × List FieldDef :=
  if field.name ∈ found.1 then found else (field.name :: found.1, found.2 ++ [field])

/-- Collect the fields of a type and then those of its parents, unless the walk is cut off. -/
def collectFields (cache : TypeCache) :
    Nat → List String × List FieldDef → String → Option (List String × List FieldDef)
  | 0, _, _ => none
  | fuel + 1, found, typeName =>
    match Latest.lookup typeName cache with
    | none => some found
    | some definition =>
      definition.parentTypes.foldlM (collectFields cache fuel)
        (definition.fields.foldl collectField found)

/-- All fields available on a type, inherited ones included, unless the walk is cut off. -/
def resolvedFields (cache : TypeCache) (fuel : Nat) (typeName : String) : Option (List FieldDef) :=
  (cache.collectFields fuel ([], []) typeName).map Prod.snd

/-- Cache a type under its name. -/
def insert (cache : TypeCache) (definition : NodeTypeDef) : TypeCache :=
  Latest.entryUpdate definition.typeName definition (fun _ => definition) cache

/-- The type whose schema a triple of the registry node stores. -/
def readSchema (serde : SchemaSerde) : Triple → Option NodeTypeDef
  | .property _ predicate (.text json) _ =>
    match typeNameFromPredicate predicate with
    | none => none
    | some typeName =>
      match serde.fromStr json with
      | some wire => some ⟨typeName, wire.fields, wire.vectorSpace, wire.parentTypes⟩
      -- Old records hold the fields alone.
      | none => (serde.fieldsFromStr json).map fun fields => ⟨typeName, fields, none, []⟩
  | _ => none

end TypeCache

section External

variable (ext : External) (serde : SchemaSerde)

namespace TripleStore

/-- The types whose schemas a store has. -/
def loadTypes (store : TripleStore) (now : Timestamp) : Except StorageError TypeCache := do
  let triples ← store.scanBySubjectAt ext SCHEMA_REGISTRY_NODE ⟨store.committed, none, none⟩ now
  return (triples.filterMap (TypeCache.readSchema serde)).foldl TypeCache.insert []

/-- The write of the schema of a type. -/
def schemaWrite (definition : NodeTypeDef) (now : Timestamp) : PendingWrite :=
  ⟨.property SCHEMA_REGISTRY_NODE (schemaPredicate definition.typeName)
    (.text (serde.toString definition.wire)) ⟨now, Timestamp.END_OF_TIME, now⟩,
    GraphId.DEFAULT, .auto⟩

/-- Store the schema of a type. -/
def insertSchema (store : TripleStore) (definition : NodeTypeDef) (now : Timestamp) :
    TripleStore × Except StorageError Timestamp :=
  let w := schemaWrite serde definition now
  store.commit ext (store.begin.insertIn w.triple w.graph w.mode) now

end TripleStore

/-- A registry and the registrations in progress. -/
structure TypeRegistry where
  /-- The store. -/
  store : TripleStore
  /-- The cached types. -/
  cache : TypeCache
  /-- Types that passed the check and are not stored yet. -/
  checked : List NodeTypeDef
  /-- Types that are stored and not cached yet, in the order they were stored in. -/
  stored : List NodeTypeDef
  /-- The latest reading of the clock. -/
  now : Timestamp

/-- What one registration does under one lock, or a restart. -/
inductive RegistryStep where
  /-- A registration checks the parents of its type. -/
  | check (definition : NodeTypeDef)
  /-- A registration that passed the check stores its type. -/
  | insert (definition : NodeTypeDef) (now : Timestamp)
  /-- A registration that stored its type caches it. -/
  | publish (definition : NodeTypeDef)
  /-- The registry is opened again over its store. -/
  | reopen (now : Timestamp)

namespace TypeRegistry

/-- A registry over a new store. -/
def fresh (inlineMax : Nat) (vocabulary : Vocabulary) (canonical : Bool) : TypeRegistry :=
  ⟨TripleStore.configured inlineMax vocabulary canonical, [], [], [], Timestamp.zero⟩

/-- The state after a step, when the step can be taken. -/
def next (state : TypeRegistry) : RegistryStep → Option TypeRegistry
  | .check definition =>
    match state.cache.checkNoCycle definition.typeName definition.parentTypes with
    | .error _ => some state
    | .ok () => some { state with checked := state.checked ++ [definition] }
  | .insert definition now =>
    if definition ∈ state.checked then
      let rest := state.checked.erase definition
      match state.store.insertSchema ext serde definition now with
      | (store, .error _) => some { state with store := store, checked := rest, now := now }
      | (store, .ok _) => some { state with
          store := store, checked := rest, stored := state.stored ++ [definition], now := now }
    else none
  | .publish definition =>
    if definition ∈ state.stored then
      some { state with
        cache := state.cache.insert definition, stored := state.stored.erase definition }
    else none
  | .reopen now =>
    if state.checked = [] ∧ state.stored = [] then
      match state.store.loadTypes ext serde now with
      | .error _ => none
      | .ok cache => some { state with cache := cache, now := now }
    else none

end TypeRegistry

end External

end Polargraph
