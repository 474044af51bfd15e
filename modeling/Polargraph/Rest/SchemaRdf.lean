import Polargraph.Lib.Filing
import Polargraph.Rest.Protocol
import Polargraph.Rest.RdfImport

/-! Export and import of a schema: node types and edge types as a Turtle document. -/

namespace Polargraph

/-- A field of a node type or an edge type. -/
structure SchemaField where
  /-- The name of the field. -/
  name : String
  /-- The name of the kind of its values. -/
  kind : String
  /-- Whether it must be given. -/
  required : Bool
deriving DecidableEq

/-- A node type. -/
structure SchemaNodeType where
  /-- The name of the type. -/
  typeName : String
  /-- Its own fields. -/
  fields : List SchemaField
  /-- The names of the types it is one of. -/
  parentTypes : List String
deriving DecidableEq

/-- An edge type. -/
structure SchemaEdgeType where
  /-- The predicate of its edges. -/
  predicate : String
  /-- The type of their subjects, empty for any. -/
  domain : String
  /-- The type of their objects, empty for any. -/
  range : String
  /-- Its fields. -/
  fields : List SchemaField
deriving DecidableEq

/-- What the IRIs of node types start with. -/
def TYPE_BASE : String := "urn:polargraph:type:"

/-- What the IRIs of fields start with. -/
def PROP_BASE : String := "urn:polargraph:prop:"

/-- What the IRIs of edge types start with. -/
def REL_BASE : String := "urn:polargraph:rel:"

/-- The datatype that stands for a kind of values. -/
def fieldKindToXsd (kind : String) : String :=
  if kind = "int" ∨ kind = "integer" then "http://www.w3.org/2001/XMLSchema#integer"
  else if kind = "float" ∨ kind = "double" then "http://www.w3.org/2001/XMLSchema#double"
  else if kind = "bool" ∨ kind = "boolean" then "http://www.w3.org/2001/XMLSchema#boolean"
  else if kind = "blob" then "http://www.w3.org/2001/XMLSchema#hexBinary"
  else "http://www.w3.org/2001/XMLSchema#string"

/-- The kind of values that a datatype stands for. -/
def xsdToFieldKind (xsd : String) : String :=
  if xsd = "http://www.w3.org/2001/XMLSchema#integer" then "int"
  else if xsd = "http://www.w3.org/2001/XMLSchema#double" ∨
    xsd = "http://www.w3.org/2001/XMLSchema#float" ∨
    xsd = "http://www.w3.org/2001/XMLSchema#decimal" then "float"
  else if xsd = "http://www.w3.org/2001/XMLSchema#boolean" then "bool"
  else if xsd = "http://www.w3.org/2001/XMLSchema#hexBinary" then "blob"
  else "text"

section Writing

/-- A field of an owner as it is written, with the IRI of the owner in angle brackets. -/
def writeField (owner ownerIri : String) (field : SchemaField) : String :=
  let propIri := "<" ++ PROP_BASE ++ owner ++ "/" ++ field.name ++ ">"
  let xsdRange := fieldKindToXsd field.kind
  propIri ++ " a owl:DatatypeProperty ;\n    rdfs:domain " ++ ownerIri ++
    " ;\n    rdfs:range <" ++ xsdRange ++ "> .\n"

/-- A node type and its fields as they are written. -/
def writeNodeType (nt : SchemaNodeType) : String :=
  let classIri := "<" ++ TYPE_BASE ++ nt.typeName ++ ">"
  let parents := nt.parentTypes.map fun p => "<" ++ TYPE_BASE ++ p ++ ">"
  classIri ++ " a owl:Class" ++
    (if nt.parentTypes.isEmpty then "" else " ;\n    rdfs:subClassOf " ++ ", ".intercalate parents) ++
    " .\n" ++ String.join (nt.fields.map (writeField nt.typeName classIri))

/-- An edge type and its fields as they are written. -/
def writeEdgeType (et : SchemaEdgeType) : String :=
  let relIri := "<" ++ REL_BASE ++ et.predicate ++ ">"
  let parts := (if et.domain = "" then []
      else ["    rdfs:domain <" ++ TYPE_BASE ++ et.domain ++ ">"]) ++
    (if et.range = "" then [] else ["    rdfs:range <" ++ TYPE_BASE ++ et.range ++ ">"])
  (if parts.isEmpty then relIri ++ " a owl:ObjectProperty .\n"
    else relIri ++ " a owl:ObjectProperty ;\n" ++ " ;\n".intercalate parts ++ " .\n") ++
    String.join (et.fields.map (writeField et.predicate relIri))

/-- A schema as a Turtle document. -/
def serializeSchemaRdf (nodeTypes : List SchemaNodeType) (edgeTypes : List SchemaEdgeType) : String :=
  "@prefix owl:  <http://www.w3.org/2002/07/owl#> .\n" ++
    "@prefix rdfs: <http://www.w3.org/2000/01/rdf-schema#> .\n" ++
    "@prefix xsd:  <http://www.w3.org/2001/XMLSchema#> .\n" ++
    "@prefix rdf:  <http://www.w3.org/1999/02/22-rdf-syntax-ns#> .\n" ++
    "\n" ++ String.join (nodeTypes.map writeNodeType) ++ String.join (edgeTypes.map writeEdgeType)

end Writing

section Reading

/-- The class of node types. -/
def OWL_CLASS : String := "http://www.w3.org/2002/07/owl#Class"

/-- The class of edge types. -/
def OWL_OBJECT_PROPERTY : String := "http://www.w3.org/2002/07/owl#ObjectProperty"

/-- The class of fields. -/
def OWL_DATATYPE_PROPERTY : String := "http://www.w3.org/2002/07/owl#DatatypeProperty"

/-- The predicate that gives a class. -/
def SCHEMA_RDF_TYPE : String := "http://www.w3.org/1999/02/22-rdf-syntax-ns#type"

/-- The predicate that gives a domain. -/
def RDFS_DOMAIN : String := "http://www.w3.org/2000/01/rdf-schema#domain"

/-- The predicate that gives a range. -/
def RDFS_RANGE : String := "http://www.w3.org/2000/01/rdf-schema#range"

/-- The predicate that gives a parent. -/
def RDFS_SUBCLASS_OF : String := "http://www.w3.org/2000/01/rdf-schema#subClassOf"

/-- What one triple says about a schema. -/
inductive SchemaDeclaration where
  /-- An IRI is that of a node type. -/
  | nodeClass (iri : String)
  /-- An IRI is that of an edge type. -/
  | objectProperty (iri : String)
  /-- The owner of a field, by its IRI. -/
  | fieldDomain (iri owner : String)
  /-- The datatype of a field. -/
  | fieldRange (iri datatype : String)
  /-- The domain of an edge type. -/
  | edgeDomain (iri domain : String)
  /-- The range of an edge type. -/
  | edgeRange (iri range : String)
  /-- A parent of a node type, by its name. -/
  | parent (iri parentName : String)
deriving DecidableEq

/-- What a triple says about a schema, if anything. -/
def schemaDeclaration (t : ImportedTriple) : Option SchemaDeclaration :=
  match t.object with
  | .iri objIri =>
    if t.predicate = SCHEMA_RDF_TYPE then
      if objIri = OWL_CLASS then some (.nodeClass t.subject)
      else if objIri = OWL_OBJECT_PROPERTY then some (.objectProperty t.subject)
      else none
    else if t.predicate = RDFS_DOMAIN then
      if (strippedPrefix PROP_BASE t.subject).isSome then some (.fieldDomain t.subject objIri)
      else if (strippedPrefix REL_BASE t.subject).isSome then some (.edgeDomain t.subject objIri)
      else none
    else if t.predicate = RDFS_RANGE then
      if (strippedPrefix PROP_BASE t.subject).isSome then some (.fieldRange t.subject objIri)
      else if (strippedPrefix REL_BASE t.subject).isSome then some (.edgeRange t.subject objIri)
      else none
    else if t.predicate = RDFS_SUBCLASS_OF ∧ (strippedPrefix TYPE_BASE t.subject).isSome then
      (strippedPrefix TYPE_BASE objIri).map (.parent t.subject)
    else none
  | _ => none

/-- What was read of a schema. -/
structure SchemaDeclarations where
  /-- The IRIs of node types, in order. -/
  classIris : List String
  /-- The IRIs of edge types, in order. -/
  objPropIris : List String
  /-- The owners of fields. -/
  dtPropDomains : SortedMap String String
  /-- The datatypes of fields. -/
  dtPropRanges : SortedMap String String
  /-- The domains of edge types. -/
  objPropDomains : SortedMap String String
  /-- The ranges of edge types. -/
  objPropRanges : SortedMap String String
  /-- The parents of node types, by name. -/
  classParents : SortedMap String (List String)

namespace SchemaDeclarations

/-- Nothing was read. -/
def empty : SchemaDeclarations :=
  ⟨[], [], SortedMap.empty, SortedMap.empty, SortedMap.empty, SortedMap.empty, SortedMap.empty⟩

/-- One more declaration is read; of two about one IRI the later one stays. -/
def add (declared : SchemaDeclarations) : SchemaDeclaration → SchemaDeclarations
  | .nodeClass iri => { declared with classIris := declared.classIris ++ [iri] }
  | .objectProperty iri => { declared with objPropIris := declared.objPropIris ++ [iri] }
  | .fieldDomain iri owner =>
    { declared with dtPropDomains := declared.dtPropDomains.insert iri owner }
  | .fieldRange iri datatype =>
    { declared with dtPropRanges := declared.dtPropRanges.insert iri datatype }
  | .edgeDomain iri domain =>
    { declared with objPropDomains := declared.objPropDomains.insert iri domain }
  | .edgeRange iri range =>
    { declared with objPropRanges := declared.objPropRanges.insert iri range }
  | .parent iri parentName =>
    let parents := (declared.classParents.find? iri).getD [] ++ [parentName]
    { declared with classParents := declared.classParents.insert iri parents }

/-- The node type of an IRI, without its fields. -/
def nodeType (declared : SchemaDeclarations) (iri : String) : Option SchemaNodeType :=
  (strippedPrefix TYPE_BASE iri).map fun typeName =>
    ⟨typeName, [], (declared.classParents.find? iri).getD []⟩

/-- The edge type of an IRI, without its fields. -/
def edgeType (declared : SchemaDeclarations) (iri : String) : Option SchemaEdgeType :=
  (strippedPrefix REL_BASE iri).map fun predicate =>
    ⟨predicate, ((declared.objPropDomains.find? iri).bind (strippedPrefix TYPE_BASE)).getD "",
      ((declared.objPropRanges.find? iri).bind (strippedPrefix TYPE_BASE)).getD "", []⟩

/-- The field that a triple declares, with the name of its owner. -/
def field (declared : SchemaDeclarations) (t : ImportedTriple) : Option (String × SchemaField) :=
  match t.object with
  | .iri objIri =>
    if t.predicate = SCHEMA_RDF_TYPE ∧ objIri = OWL_DATATYPE_PROPERTY then do
      let rest ← strippedPrefix PROP_BASE t.subject
      -- The owner ends at the first slash, wherever the name of the owner ends.
      let (owner, fieldName) ← splitOnce "/" rest
      let range := (declared.dtPropRanges.find? t.subject).getD ""
      return (owner, ⟨fieldName, xsdToFieldKind range, false⟩)
    else none
  | _ => none

end SchemaDeclarations

/-- A node type with one more field. -/
def SchemaNodeType.push (nt : SchemaNodeType) (field : SchemaField) : SchemaNodeType :=
  { nt with fields := nt.fields ++ [field] }

/-- An edge type with one more field. -/
def SchemaEdgeType.push (et : SchemaEdgeType) (field : SchemaField) : SchemaEdgeType :=
  { et with fields := et.fields ++ [field] }

/-- The node types and edge types of a Turtle document, given the parser of its bytes. -/
def parseSchemaRdf (parseF64 : String → Option UInt64)
    (rio : Bytes → Except String (List RioTriple)) (input : Bytes) :
    Except String (List SchemaNodeType × List SchemaEdgeType) := do
  let triples ← parseTurtle parseF64 rio input
  let declared := (triples.filterMap schemaDeclaration).foldl
    SchemaDeclarations.add SchemaDeclarations.empty
  let fields := triples.filterMap declared.field
  -- A field goes to the node type of its owner's name, and to the edge type of that name as well.
  let nodeTypes := fields.foldl
    (fun nodeTypes field => Filing.file SchemaNodeType.typeName SchemaNodeType.push field nodeTypes)
    (declared.classIris.filterMap declared.nodeType)
  let edgeTypes := fields.foldl
    (fun edgeTypes field => Filing.file SchemaEdgeType.predicate SchemaEdgeType.push field edgeTypes)
    (declared.objPropIris.filterMap declared.edgeType)
  return (nodeTypes, edgeTypes)

end Reading

end Polargraph
