import Polargraph.Proofs.Rest.BlankNodes
import Polargraph.Proofs.Rest.Literals
import Polargraph.Proofs.Rest.SchemaText

/-! When an exported schema is imported as the same schema. -/

namespace Polargraph

/-- An IRI of an edge type is not one of a field. -/
theorem strippedPrefix_prop_rel (predicate : String) :
    strippedPrefix PROP_BASE (REL_BASE ++ predicate) = none := by
  cases found : strippedPrefix PROP_BASE (REL_BASE ++ predicate) with
  | none => rfl
  | some rest =>
    -- They differ where the one has the first letter of its kind.
    have same := congrArg (fun text => text.toList[15]?) (strippedPrefix_eq_some.mp found)
    simp [PROP_BASE, REL_BASE] at same

namespace Schema

/-- A triple of IRIs as the parser hands it over. -/
def handed (t : String × String × String) : RioTriple :=
  ⟨.namedNode t.1, t.2.1, .namedNode t.2.2⟩

/-- A triple of IRIs as it is imported. -/
def imported (t : String × String × String) : ImportedTriple := ⟨t.1, false, t.2.1, .iri t.2.2, none⟩

/-- The parser returns the triples of a document in the order in which they are written. -/
def ReadsBack (rio : Bytes → Except String (List RioTriple)) (document : Turtle.Document) : Prop :=
  rio (utf8 document.write) = .ok (document.triples.map handed)

/-- What is said about a field of an owner. -/
def fieldDeclarations (owner ownerIri : String) (field : SchemaField) : List SchemaDeclaration :=
  [.fieldDomain (fieldIri owner field) ownerIri,
    .fieldRange (fieldIri owner field) (fieldKindToXsd field.kind)]

/-- What is said about a node type and its fields. -/
def nodeDeclarations (nt : SchemaNodeType) : List SchemaDeclaration :=
  .nodeClass (TYPE_BASE ++ nt.typeName) ::
    (nt.parentTypes.map (.parent (TYPE_BASE ++ nt.typeName)) ++
      nt.fields.flatMap (fieldDeclarations nt.typeName (TYPE_BASE ++ nt.typeName)))

/-- What is said about an edge type and its fields. -/
def edgeDeclarations (et : SchemaEdgeType) : List SchemaDeclaration :=
  .objectProperty (REL_BASE ++ et.predicate) ::
    ((if et.domain = "" then [] else [.edgeDomain (REL_BASE ++ et.predicate) (TYPE_BASE ++ et.domain)]) ++
      (if et.range = "" then [] else [.edgeRange (REL_BASE ++ et.predicate) (TYPE_BASE ++ et.range)]) ++
      et.fields.flatMap (fieldDeclarations et.predicate (REL_BASE ++ et.predicate)))

/-- What some statements say. -/
def said (statements : List Turtle.Statement) : List SchemaDeclaration :=
  ((statements.flatMap Turtle.Statement.triples).map imported).filterMap schemaDeclaration

/-- What several lists of statements say is what each of them says. -/
theorem said_flatMap {α : Type} (items : List α) (statements : α → List Turtle.Statement) :
    said (items.flatMap statements) = items.flatMap fun item => said (statements item) := by
  simp [said, List.flatMap_assoc, List.map_flatMap, List.filterMap_flatMap]

/-- A field's IRI is that of a field. -/
theorem strippedPrefix_fieldIri (owner : String) (field : SchemaField) :
    strippedPrefix PROP_BASE (fieldIri owner field) = some (owner ++ "/" ++ field.name) := by
  rw [fieldIri, String.append_assoc, String.append_assoc, strippedPrefix_append, String.append_assoc]

/-- What the statement about a field says. -/
theorem said_field (owner ownerIri : String) (field : SchemaField) :
    said [fieldStatement owner ownerIri field] = fieldDeclarations owner ownerIri field := by
  have rdf : Turtle.TYPE = SCHEMA_RDF_TYPE := rfl
  simp [said, fieldStatement, Turtle.Statement.triples, Turtle.Term.meaning, imported,
    schemaDeclaration, strippedPrefix_fieldIri, fieldDeclarations, rdf, OWL, RDFS, SCHEMA_RDF_TYPE,
    RDFS_DOMAIN, RDFS_RANGE, OWL_CLASS, OWL_OBJECT_PROPERTY]

/-- What the statements about some fields say. -/
theorem said_fields (owner ownerIri : String) (fields : List SchemaField) :
    said (fields.map (fieldStatement owner ownerIri)) =
      fields.flatMap (fieldDeclarations owner ownerIri) := by
  rw [← List.flatMap_singleton' (fields.map _), List.flatMap_map, said_flatMap]
  simp only [said_field]

/-- A statement says what it says before what the later ones say. -/
theorem said_cons (statement : Turtle.Statement) (rest : List Turtle.Statement) :
    said (statement :: rest) = said [statement] ++ said rest := by
  simp [said]

/-- What the statements about a node type say. -/
theorem said_nodeStatements (nt : SchemaNodeType) : said (nodeStatements nt) = nodeDeclarations nt := by
  have rdf : Turtle.TYPE = SCHEMA_RDF_TYPE := rfl
  have subclass : RDFS.namespace_ ++ "subClassOf" = RDFS_SUBCLASS_OF := by decide +kernel
  have class_ : OWL.namespace_ ++ "Class" = OWL_CLASS := by decide +kernel
  have first : RDFS_SUBCLASS_OF ≠ SCHEMA_RDF_TYPE := by decide +kernel
  have second : RDFS_SUBCLASS_OF ≠ RDFS_DOMAIN := by decide +kernel
  have third : RDFS_SUBCLASS_OF ≠ RDFS_RANGE := by decide +kernel
  rw [nodeStatements, said_cons, said_fields, nodeDeclarations, ← List.cons_append]
  congr 1
  cases nt.parentTypes with
  | nil =>
    simp [said, Turtle.Statement.triples, Turtle.Term.meaning, imported, schemaDeclaration, rdf, class_]
  | cons parent rest =>
    simp [said, Turtle.Statement.triples, Turtle.Term.meaning, imported, schemaDeclaration, rdf, class_,
      subclass, first, second, third, strippedPrefix_append, List.filterMap_map, Function.comp_def]

/-- What the statements about an edge type say. -/
theorem said_edgeStatements (et : SchemaEdgeType) : said (edgeStatements et) = edgeDeclarations et := by
  have rdf : Turtle.TYPE = SCHEMA_RDF_TYPE := rfl
  have property : OWL.namespace_ ++ "ObjectProperty" = OWL_OBJECT_PROPERTY := by decide +kernel
  have domain : RDFS.namespace_ ++ "domain" = RDFS_DOMAIN := by decide +kernel
  have range : RDFS.namespace_ ++ "range" = RDFS_RANGE := by decide +kernel
  have first : OWL_OBJECT_PROPERTY ≠ OWL_CLASS := by decide +kernel
  have second : RDFS_DOMAIN ≠ SCHEMA_RDF_TYPE := by decide +kernel
  have third : RDFS_RANGE ≠ SCHEMA_RDF_TYPE := by decide +kernel
  have fourth : RDFS_RANGE ≠ RDFS_DOMAIN := by decide +kernel
  rw [edgeStatements, said_cons, said_fields, edgeDeclarations, ← List.cons_append]
  -- Each of the two parts is there or not.
  split_ifs <;>
    simp [said, Turtle.Statement.triples, Turtle.Term.meaning, imported, schemaDeclaration, rdf,
      property, domain, range, first, second, third, fourth, strippedPrefix_prop_rel,
      strippedPrefix_append]

/-- What is said in a schema. -/
def declarations (nodeTypes : List SchemaNodeType) (edgeTypes : List SchemaEdgeType) :
    List SchemaDeclaration :=
  nodeTypes.flatMap nodeDeclarations ++ edgeTypes.flatMap edgeDeclarations

/-- A schema's document says what is said in the schema. -/
theorem said_document (nodeTypes : List SchemaNodeType) (edgeTypes : List SchemaEdgeType) :
    said (document nodeTypes edgeTypes).statements = declarations nodeTypes edgeTypes := by
  have both : said (nodeTypes.flatMap nodeStatements ++ edgeTypes.flatMap edgeStatements) =
      said (nodeTypes.flatMap nodeStatements) ++ said (edgeTypes.flatMap edgeStatements) := by
    simp [said]
  rw [document, both, said_flatMap, said_flatMap, declarations]
  simp only [said_nodeStatements, said_edgeStatements]

/-- What is read of a schema from a start: each part takes the declarations of its kind. -/
def taken (start : SchemaDeclarations) (declared : List SchemaDeclaration) : SchemaDeclarations where
  classIris := start.classIris ++ declared.filterMap fun
    | .nodeClass iri => some iri
    | _ => none
  objPropIris := start.objPropIris ++ declared.filterMap fun
    | .objectProperty iri => some iri
    | _ => none
  dtPropDomains := Filing.insertAll start.dtPropDomains (declared.filterMap fun
    | .fieldDomain iri owner => some (iri, owner)
    | _ => none)
  dtPropRanges := Filing.insertAll start.dtPropRanges (declared.filterMap fun
    | .fieldRange iri datatype => some (iri, datatype)
    | _ => none)
  objPropDomains := Filing.insertAll start.objPropDomains (declared.filterMap fun
    | .edgeDomain iri domain => some (iri, domain)
    | _ => none)
  objPropRanges := Filing.insertAll start.objPropRanges (declared.filterMap fun
    | .edgeRange iri range => some (iri, range)
    | _ => none)
  classParents := Filing.gatherAll start.classParents (declared.filterMap fun
    | .parent iri parentName => some (iri, parentName)
    | _ => none)

/-- Reading one declaration after another takes each to the part of its kind. -/
theorem foldl_add (start : SchemaDeclarations) (declared : List SchemaDeclaration) :
    declared.foldl SchemaDeclarations.add start = taken start declared := by
  induction declared generalizing start with
  | nil => simp [taken, Filing.insertAll, Filing.gatherAll]
  | cons declaration rest ih =>
    rw [List.foldl_cons, ih]
    cases declaration <;> simp [taken, SchemaDeclarations.add, Filing.insertAll, Filing.gatherAll]

section Parts

variable (nodeTypes : List SchemaNodeType) (edgeTypes : List SchemaEdgeType)

/-- Lists of nothing are nothing together. -/
theorem flatMap_nothing {α β : Type} (items : List α) : (items.flatMap fun _ => ([] : List β)) = [] :=
  List.flatMap_eq_nil_iff.mpr fun _ _ => rfl

/-- What is written for names that are given is written for the items that have one. -/
theorem flatMap_given {α β : Type} (items : List α) (name : α → String) (make : α → β) :
    (items.flatMap fun item => if name item = "" then [] else [make item]) =
      (items.filter fun item => name item ≠ "").map make := by
  induction items with
  | nil => rfl
  | cons item rest ih =>
    rw [List.flatMap_cons, ih]
    by_cases blank : name item = "" <;> simp [blank]

/-- What is read of a schema. -/
def read : SchemaDeclarations := taken SchemaDeclarations.empty (declarations nodeTypes edgeTypes)

/-- The IRIs of node types are read in order. -/
theorem classIris_read :
    (read nodeTypes edgeTypes).classIris = nodeTypes.map fun nt => TYPE_BASE ++ nt.typeName := by
  simp [read, taken, SchemaDeclarations.empty, declarations, nodeDeclarations, edgeDeclarations,
    fieldDeclarations, List.filterMap_flatMap, flatMap_nothing, apply_ite (List.filterMap _),
    ← List.map_eq_flatMap]

/-- The IRIs of edge types are read in order. -/
theorem objPropIris_read :
    (read nodeTypes edgeTypes).objPropIris = edgeTypes.map fun et => REL_BASE ++ et.predicate := by
  simp [read, taken, SchemaDeclarations.empty, declarations, nodeDeclarations, edgeDeclarations,
    fieldDeclarations, List.filterMap_flatMap, flatMap_nothing, apply_ite (List.filterMap _),
    ← List.map_eq_flatMap]

/-- The datatypes of fields are those of the kinds of the fields. -/
theorem dtPropRanges_read : (read nodeTypes edgeTypes).dtPropRanges =
    Filing.insertAll SortedMap.empty ((nodeTypes.flatMap fun nt => nt.fields.map fun field =>
        (fieldIri nt.typeName field, fieldKindToXsd field.kind)) ++
      edgeTypes.flatMap fun et => et.fields.map fun field =>
        (fieldIri et.predicate field, fieldKindToXsd field.kind)) := by
  simp [read, taken, SchemaDeclarations.empty, declarations, nodeDeclarations, edgeDeclarations,
    fieldDeclarations, List.filterMap_flatMap, flatMap_nothing, apply_ite (List.filterMap _),
    ← List.map_eq_flatMap]

/-- The domains of edge types are those that are not empty. -/
theorem objPropDomains_read : (read nodeTypes edgeTypes).objPropDomains =
    Filing.insertAll SortedMap.empty ((edgeTypes.filter fun et => et.domain ≠ "").map fun et =>
      (REL_BASE ++ et.predicate, TYPE_BASE ++ et.domain)) := by
  simp [read, taken, SchemaDeclarations.empty, declarations, nodeDeclarations, edgeDeclarations,
    fieldDeclarations, List.filterMap_flatMap, flatMap_nothing, apply_ite (List.filterMap _),
    flatMap_given]

/-- The ranges of edge types are those that are not empty. -/
theorem objPropRanges_read : (read nodeTypes edgeTypes).objPropRanges =
    Filing.insertAll SortedMap.empty ((edgeTypes.filter fun et => et.range ≠ "").map fun et =>
      (REL_BASE ++ et.predicate, TYPE_BASE ++ et.range)) := by
  simp [read, taken, SchemaDeclarations.empty, declarations, nodeDeclarations, edgeDeclarations,
    fieldDeclarations, List.filterMap_flatMap, flatMap_nothing, apply_ite (List.filterMap _),
    flatMap_given]

/-- The parents of node types are read by the IRIs of the node types. -/
theorem classParents_read : (read nodeTypes edgeTypes).classParents =
    Filing.gatherAll SortedMap.empty (nodeTypes.flatMap fun nt => nt.parentTypes.map fun parent =>
      (TYPE_BASE ++ nt.typeName, parent)) := by
  simp [read, taken, SchemaDeclarations.empty, declarations, nodeDeclarations, edgeDeclarations,
    fieldDeclarations, List.filterMap_flatMap, flatMap_nothing, apply_ite (List.filterMap _)]

end Parts

section Types

variable {nodeTypes : List SchemaNodeType} {edgeTypes : List SchemaEdgeType}

/-- Names of node types are distinct as IRIs. -/
theorem nodup_classIris (distinct : (nodeTypes.map SchemaNodeType.typeName).Nodup) :
    (nodeTypes.map fun nt => TYPE_BASE ++ nt.typeName).Nodup := by
  have apart := distinct.map (f := (TYPE_BASE ++ ·)) fun _ _ same => (String.append_right_inj _).mp same
  rwa [List.map_map] at apart

/-- Node types are read with their parents. -/
theorem nodeTypes_read (distinct : (nodeTypes.map SchemaNodeType.typeName).Nodup) :
    (read nodeTypes edgeTypes).classIris.filterMap (read nodeTypes edgeTypes).nodeType =
      nodeTypes.map fun nt => { nt with fields := [] } := by
  rw [classIris_read, List.filterMap_map, ← List.filterMap_eq_map]
  refine List.filterMap_congr fun nt member => ?_
  rw [Function.comp_apply, SchemaDeclarations.nodeType, strippedPrefix_append, classParents_read,
    Filing.find?_gatherAll]
  have own := Filing.under_flatMap (nodup_classIris distinct) SchemaNodeType.parentTypes member
  rw [own]
  rfl

/-- What was written of an edge type, where it is given, is read as it was. -/
theorem name_read (distinct : (edgeTypes.map SchemaEdgeType.predicate).Nodup)
    (name : SchemaEdgeType → String) {et : SchemaEdgeType} (member : et ∈ edgeTypes) :
    (((Filing.insertAll SortedMap.empty ((edgeTypes.filter fun et => name et ≠ "").map fun et =>
      (REL_BASE ++ et.predicate, TYPE_BASE ++ name et))).find? (REL_BASE ++ et.predicate)).bind
        (strippedPrefix TYPE_BASE)).getD "" = name et := by
  -- Only the edge type itself is written under its IRI.
  have only : ∀ other ∈ edgeTypes, REL_BASE ++ other.predicate = REL_BASE ++ et.predicate →
      other = et := fun other inside same =>
    List.inj_on_of_nodup_map distinct inside member ((String.append_right_inj _).mp same)
  by_cases blank : name et = ""
  · rw [Filing.find?_insertAll_of_notMem, blank]
    · rfl
    · intro there
      obtain ⟨_, listed, same⟩ := List.mem_map.mp there
      obtain ⟨other, inside, rfl⟩ := List.mem_map.mp listed
      obtain ⟨inside, given⟩ := List.mem_filter.mp inside
      rw [only other inside same] at given
      exact absurd blank (of_decide_eq_true given)
  · obtain ⟨value, found⟩ := @Filing.exists_insertAll _ _ _ SortedMap.empty
      ((edgeTypes.filter fun et => name et ≠ "").map fun et =>
        (REL_BASE ++ et.predicate, TYPE_BASE ++ name et)) (REL_BASE ++ et.predicate)
      (Or.inl (List.mem_map.mpr ⟨_, List.mem_map.mpr
        ⟨et, List.mem_filter.mpr ⟨member, decide_eq_true blank⟩, rfl⟩, rfl⟩))
    rcases Filing.mem_of_insertAll found with listed | before
    · obtain ⟨other, inside, same⟩ := List.mem_map.mp listed
      obtain ⟨first, rfl⟩ := Prod.mk.inj same
      rw [found, only other (List.mem_filter.mp inside).1 first, Option.bind_some,
        strippedPrefix_append]
      rfl
    · cases before

/-- Edge types are read with their domains and ranges. -/
theorem edgeTypes_read (distinct : (edgeTypes.map SchemaEdgeType.predicate).Nodup) :
    (read nodeTypes edgeTypes).objPropIris.filterMap (read nodeTypes edgeTypes).edgeType =
      edgeTypes.map fun et => { et with fields := [] } := by
  rw [objPropIris_read, List.filterMap_map, ← List.filterMap_eq_map]
  refine List.filterMap_congr fun et member => ?_
  rw [Function.comp_apply, SchemaDeclarations.edgeType, strippedPrefix_append, objPropDomains_read,
    objPropRanges_read, Option.map_some, name_read distinct SchemaEdgeType.domain member,
    name_read distinct SchemaEdgeType.range member]
  rfl

end Types

/-- The fields of a schema, each with the name of its owner, in the order in which they are written. -/
def listed (nodeTypes : List SchemaNodeType) (edgeTypes : List SchemaEdgeType) :
    List (String × SchemaField) :=
  (nodeTypes.flatMap fun nt => nt.fields.map fun field => (nt.typeName, field)) ++
    edgeTypes.flatMap fun et => et.fields.map fun field => (et.predicate, field)

/-- A field as it is read, apart from its owner and its name. -/
def recast (declared : SchemaDeclarations) (owner : String) (field : SchemaField) (name : String) :
    SchemaField :=
  ⟨name, xsdToFieldKind ((declared.dtPropRanges.find? (fieldIri owner field)).getD ""), false⟩

/-- A field as it is read, with the owner that is read for it. -/
def reread (declared : SchemaDeclarations) (entry : String × SchemaField) :
    Option (String × SchemaField) :=
  (splitOnce "/" (entry.1 ++ "/" ++ entry.2.name)).map fun parts =>
    (parts.1, recast declared entry.1 entry.2 parts.2)

/-- The fields that some statements declare. -/
def declaredFields (declared : SchemaDeclarations) (statements : List Turtle.Statement) :
    List (String × SchemaField) :=
  ((statements.flatMap Turtle.Statement.triples).map imported).filterMap declared.field

/-- What several lists of statements declare is what each of them declares. -/
theorem declaredFields_flatMap (declared : SchemaDeclarations) {α : Type} (items : List α)
    (statements : α → List Turtle.Statement) :
    declaredFields declared (items.flatMap statements) =
      items.flatMap fun item => declaredFields declared (statements item) := by
  simp [declaredFields, List.flatMap_assoc, List.map_flatMap, List.filterMap_flatMap]

/-- A statement declares its fields before those of the later ones. -/
theorem declaredFields_cons (declared : SchemaDeclarations) (statement : Turtle.Statement)
    (rest : List Turtle.Statement) : declaredFields declared (statement :: rest) =
      declaredFields declared [statement] ++ declaredFields declared rest := by
  simp [declaredFields]

/-- The statement about a field declares it. -/
theorem declaredFields_field (declared : SchemaDeclarations) (owner ownerIri : String)
    (field : SchemaField) : declaredFields declared [fieldStatement owner ownerIri field] =
      (reread declared (owner, field)).toList := by
  have rdf : Turtle.TYPE = SCHEMA_RDF_TYPE := rfl
  have property : OWL.namespace_ ++ "DatatypeProperty" = OWL_DATATYPE_PROPERTY := by decide +kernel
  have domain : RDFS.namespace_ ++ "domain" ≠ SCHEMA_RDF_TYPE := by decide +kernel
  have range : RDFS.namespace_ ++ "range" ≠ SCHEMA_RDF_TYPE := by decide +kernel
  simp only [declaredFields, fieldStatement, Turtle.Statement.triples, Turtle.Term.meaning, imported,
    List.flatMap_cons, List.flatMap_nil, List.map_cons, List.map_nil, List.append_nil,
    List.cons_append, List.nil_append, List.filterMap_cons, List.filterMap_nil,
    SchemaDeclarations.field, rdf, property, domain, range, and_self, false_and, if_true, if_false,
    strippedPrefix_fieldIri, reread, recast, Option.bind_eq_bind, Option.bind_some]
  cases splitOnce "/" (owner ++ "/" ++ field.name) <;> rfl

/-- The statements about some fields declare them. -/
theorem declaredFields_fields (declared : SchemaDeclarations) (owner ownerIri : String)
    (fields : List SchemaField) : declaredFields declared (fields.map (fieldStatement owner ownerIri)) =
      (fields.map fun field => (owner, field)).filterMap (reread declared) := by
  rw [← List.flatMap_singleton' (fields.map _), List.flatMap_map, declaredFields_flatMap]
  simp only [declaredFields_field]
  induction fields with
  | nil => rfl
  | cons field rest ih =>
    rw [List.flatMap_cons, ih, List.map_cons, List.filterMap_cons]
    cases reread declared (owner, field) <;> rfl

/-- A schema's document declares the fields of the schema. -/
theorem declaredFields_document (declared : SchemaDeclarations) (nodeTypes : List SchemaNodeType)
    (edgeTypes : List SchemaEdgeType) :
    declaredFields declared (document nodeTypes edgeTypes).statements =
      (listed nodeTypes edgeTypes).filterMap (reread declared) := by
  have rdf : Turtle.TYPE = SCHEMA_RDF_TYPE := rfl
  have class_ : OWL.namespace_ ++ "Class" ≠ OWL_DATATYPE_PROPERTY := by decide +kernel
  have subclass : RDFS.namespace_ ++ "subClassOf" ≠ SCHEMA_RDF_TYPE := by decide +kernel
  have property : OWL.namespace_ ++ "ObjectProperty" ≠ OWL_DATATYPE_PROPERTY := by decide +kernel
  have domain : RDFS.namespace_ ++ "domain" ≠ SCHEMA_RDF_TYPE := by decide +kernel
  have range : RDFS.namespace_ ++ "range" ≠ SCHEMA_RDF_TYPE := by decide +kernel
  -- The statements about the types themselves declare none.
  have nodes : ∀ nt : SchemaNodeType, declaredFields declared (nodeStatements nt) =
      (nt.fields.map fun field => (nt.typeName, field)).filterMap (reread declared) := by
    intro nt
    rw [nodeStatements, declaredFields_cons, declaredFields_fields]
    refine (congrArg (· ++ _) ?_).trans (List.nil_append _)
    split_ifs <;> simp [declaredFields, Turtle.Statement.triples, Turtle.Term.meaning, imported,
      SchemaDeclarations.field, rdf, class_, subclass]
  have edges : ∀ et : SchemaEdgeType, declaredFields declared (edgeStatements et) =
      (et.fields.map fun field => (et.predicate, field)).filterMap (reread declared) := by
    intro et
    rw [edgeStatements, declaredFields_cons, declaredFields_fields]
    refine (congrArg (· ++ _) ?_).trans (List.nil_append _)
    split_ifs <;> simp [declaredFields, Turtle.Statement.triples, Turtle.Term.meaning, imported,
      SchemaDeclarations.field, rdf, property, domain, range]
  have both : declaredFields declared
        (nodeTypes.flatMap nodeStatements ++ edgeTypes.flatMap edgeStatements) =
      declaredFields declared (nodeTypes.flatMap nodeStatements) ++
        declaredFields declared (edgeTypes.flatMap edgeStatements) := by
    simp [declaredFields]
  rw [document, both, declaredFields_flatMap, declaredFields_flatMap, listed, List.filterMap_append,
    List.filterMap_flatMap, List.filterMap_flatMap]
  simp only [nodes, edges]

/-- The fields that are read for a name of an owner. -/
def attached (nodeTypes : List SchemaNodeType) (edgeTypes : List SchemaEdgeType) (owner : String) :
    List SchemaField :=
  Filing.under owner ((listed nodeTypes edgeTypes).filterMap (reread (read nodeTypes edgeTypes)))

/-- An exported schema is imported with the fields that are read for the names of its types. -/
theorem parseSchemaRdf_serializeSchemaRdf {parseF64 : String → Option UInt64}
    {rio : Bytes → Except String (List RioTriple)} {nodeTypes : List SchemaNodeType}
    {edgeTypes : List SchemaEdgeType} (reads : ReadsBack rio (document nodeTypes edgeTypes))
    (nodes : (nodeTypes.map SchemaNodeType.typeName).Nodup)
    (edges : (edgeTypes.map SchemaEdgeType.predicate).Nodup) :
    parseSchemaRdf parseF64 rio (utf8 (serializeSchemaRdf nodeTypes edgeTypes)) =
      .ok (nodeTypes.map fun nt => { nt with fields := attached nodeTypes edgeTypes nt.typeName },
        edgeTypes.map fun et => { et with fields := attached nodeTypes edgeTypes et.predicate }) := by
  have triples : parseTurtle parseF64 rio (utf8 (serializeSchemaRdf nodeTypes edgeTypes)) =
      .ok ((document nodeTypes edgeTypes).triples.map imported) := by
    rw [parseTurtle, serializeSchemaRdf_eq, reads]
    simp only [Except.mapError, bind, Except.bind, pure, Except.pure, List.map_map]
    rfl
  have state : (((document nodeTypes edgeTypes).triples.map imported).filterMap schemaDeclaration).foldl
      SchemaDeclarations.add SchemaDeclarations.empty = read nodeTypes edgeTypes := by
    rw [foldl_add, read, ← said_document]
    rfl
  have fields : ((document nodeTypes edgeTypes).triples.map imported).filterMap
        (read nodeTypes edgeTypes).field =
      (listed nodeTypes edgeTypes).filterMap (reread (read nodeTypes edgeTypes)) :=
    declaredFields_document _ _ _
  have bareNodes : ((nodeTypes.map fun nt => { nt with fields := [] }).map
      SchemaNodeType.typeName).Nodup := by
    rw [List.map_map]
    exact nodes
  have bareEdges : ((edgeTypes.map fun et => { et with fields := [] }).map
      SchemaEdgeType.predicate).Nodup := by
    rw [List.map_map]
    exact edges
  have pushNode : ∀ (fields : List SchemaField) (nt : SchemaNodeType),
      fields.foldl SchemaNodeType.push nt = { nt with fields := nt.fields ++ fields } := by
    intro fields
    induction fields with
    | nil => simp
    | cons field rest ih => intro nt; simp [ih, SchemaNodeType.push]
  have pushEdge : ∀ (fields : List SchemaField) (et : SchemaEdgeType),
      fields.foldl SchemaEdgeType.push et = { et with fields := et.fields ++ fields } := by
    intro fields
    induction fields with
    | nil => simp
    | cons field rest ih => intro et; simp [ih, SchemaEdgeType.push]
  rw [parseSchemaRdf, triples]
  simp only [bind, Except.bind, pure, Except.pure, state, fields, nodeTypes_read nodes,
    edgeTypes_read edges]
  rw [@Filing.foldl_file _ _ _ _ _ SchemaNodeType.push _ bareNodes fun _ _ => rfl,
    @Filing.foldl_file _ _ _ _ _ SchemaEdgeType.push _ bareEdges fun _ _ => rfl]
  simp only [List.map_map, Function.comp_def, pushNode, pushEdge, List.nil_append, attached]

/-- What is before the first slash has none. -/
theorem notMem_of_splitOnce {text before after : String}
    (found : splitOnce "/" text = some (before, after)) : '/' ∉ before.toList := by
  obtain ⟨⟨first, second⟩, split, same⟩ := Option.map_eq_some_iff.mp found
  cases same
  rw [String.toList_ofList]
  exact Splitting.notMem_of_once_single split

/-- A field that is read has an owner without a slash. -/
theorem notMem_of_attached {nodeTypes : List SchemaNodeType} {edgeTypes : List SchemaEdgeType}
    {owner : String} (slash : '/' ∈ owner.toList) : attached nodeTypes edgeTypes owner = [] := by
  refine List.filterMap_eq_nil_iff.mpr fun item member => ?_
  obtain ⟨entry, _, taken⟩ := List.mem_filterMap.mp member
  obtain ⟨parts, split, rfl⟩ := Option.map_eq_some_iff.mp taken
  refine if_neg ?_
  rintro rfl
  exact notMem_of_splitOnce split slash

/-- Types whose names have a slash have no fields. -/
structure Slashless (nodeTypes : List SchemaNodeType) (edgeTypes : List SchemaEdgeType) : Prop where
  /-- A node type with fields has a name without a slash. -/
  nodes : ∀ nt ∈ nodeTypes, nt.fields ≠ [] → '/' ∉ nt.typeName.toList
  /-- An edge type with fields has a predicate without a slash. -/
  edges : ∀ et ∈ edgeTypes, et.fields ≠ [] → '/' ∉ et.predicate.toList

section Fields

variable {nodeTypes : List SchemaNodeType} {edgeTypes : List SchemaEdgeType}

/-- Owners of fields have no slash. -/
theorem Slashless.owner (plain : Slashless nodeTypes edgeTypes) {entry : String × SchemaField}
    (member : entry ∈ listed nodeTypes edgeTypes) : '/' ∉ entry.1.toList := by
  rcases List.mem_append.mp member with node | edge
  · obtain ⟨nt, inside, own⟩ := List.mem_flatMap.mp node
    obtain ⟨field, there, rfl⟩ := List.mem_map.mp own
    exact plain.nodes nt inside (List.ne_nil_of_mem there)
  · obtain ⟨et, inside, own⟩ := List.mem_flatMap.mp edge
    obtain ⟨field, there, rfl⟩ := List.mem_map.mp own
    exact plain.edges et inside (List.ne_nil_of_mem there)

/-- A field of an owner as it is read when its owner is. -/
def kept (nodeTypes : List SchemaNodeType) (edgeTypes : List SchemaEdgeType) (owner : String)
    (field : SchemaField) : SchemaField :=
  recast (read nodeTypes edgeTypes) owner field field.name

/-- Without slashes in owners, every field is read with its owner. -/
theorem Slashless.filterMap_reread (plain : Slashless nodeTypes edgeTypes) :
    (listed nodeTypes edgeTypes).filterMap (reread (read nodeTypes edgeTypes)) =
      (nodeTypes.flatMap fun nt => (nt.fields.map (kept nodeTypes edgeTypes nt.typeName)).map
        fun field => (nt.typeName, field)) ++
      edgeTypes.flatMap fun et => (et.fields.map (kept nodeTypes edgeTypes et.predicate)).map
        fun field => (et.predicate, field) := by
  have whole : ∀ entry ∈ listed nodeTypes edgeTypes, reread (read nodeTypes edgeTypes) entry =
      some (entry.1, kept nodeTypes edgeTypes entry.1 entry.2) := fun entry member => by
    rw [reread, splitOnce_slash (plain.owner member)]
    rfl
  rw [List.filterMap_congr whole, List.filterMap_eq_map', listed, List.map_append, List.map_flatMap,
    List.map_flatMap]
  simp only [List.map_map, Function.comp_def]

/-- The fields read for a node type are its own, before those of the edge type of its name. -/
theorem Slashless.attached_node (plain : Slashless nodeTypes edgeTypes)
    (distinct : (nodeTypes.map SchemaNodeType.typeName).Nodup) {nt : SchemaNodeType}
    (member : nt ∈ nodeTypes) : attached nodeTypes edgeTypes nt.typeName =
      nt.fields.map (kept nodeTypes edgeTypes nt.typeName) ++ Filing.under nt.typeName
        (edgeTypes.flatMap fun et => (et.fields.map (kept nodeTypes edgeTypes et.predicate)).map
          fun field => (et.predicate, field)) := by
  rw [attached, plain.filterMap_reread, Filing.under_append]
  exact congrArg (· ++ _) (Filing.under_flatMap distinct
    (fun nt => nt.fields.map (kept nodeTypes edgeTypes nt.typeName)) member)

/-- The fields read for an edge type are those of the node type of its name, before its own. -/
theorem Slashless.attached_edge (plain : Slashless nodeTypes edgeTypes)
    (distinct : (edgeTypes.map SchemaEdgeType.predicate).Nodup) {et : SchemaEdgeType}
    (member : et ∈ edgeTypes) : attached nodeTypes edgeTypes et.predicate =
      Filing.under et.predicate (nodeTypes.flatMap fun nt =>
        (nt.fields.map (kept nodeTypes edgeTypes nt.typeName)).map fun field => (nt.typeName, field)) ++
      et.fields.map (kept nodeTypes edgeTypes et.predicate) := by
  rw [attached, plain.filterMap_reread, Filing.under_append]
  exact congrArg (_ ++ ·) (Filing.under_flatMap distinct
    (fun et => et.fields.map (kept nodeTypes edgeTypes et.predicate)) member)

end Fields

end Schema

/-- A field as a schema carries it: whether it is required is not written. -/
def SchemaField.erased (field : SchemaField) : SchemaField := { field with required := false }

/-- A node type as a schema carries it. -/
def SchemaNodeType.erased (nt : SchemaNodeType) : SchemaNodeType :=
  { nt with fields := nt.fields.map SchemaField.erased }

/-- An edge type as a schema carries it. -/
def SchemaEdgeType.erased (et : SchemaEdgeType) : SchemaEdgeType :=
  { et with fields := et.fields.map SchemaField.erased }

/-- The kinds of values that have a datatype of their own. -/
def FIELD_KINDS : List String := ["bool", "int", "float", "text", "blob"]

/-- A kind is read from the datatype that stands for it. -/
theorem xsdToFieldKind_fieldKindToXsd {kind : String} (known : kind ∈ FIELD_KINDS) :
    xsdToFieldKind (fieldKindToXsd kind) = kind := by
  simp only [FIELD_KINDS, List.mem_cons, List.not_mem_nil, or_false] at known
  rcases known with rfl | rfl | rfl | rfl | rfl <;> decide +kernel

namespace Schema

/-- An exported schema is imported as the same schema, apart from what is required. -/
def RoundTrips (parseF64 : String → Option UInt64) (rio : Bytes → Except String (List RioTriple))
    (nodeTypes : List SchemaNodeType) (edgeTypes : List SchemaEdgeType) : Prop :=
  parseSchemaRdf parseF64 rio (utf8 (serializeSchemaRdf nodeTypes edgeTypes)) =
    .ok (nodeTypes.map SchemaNodeType.erased, edgeTypes.map SchemaEdgeType.erased)

/-- The IRI of each field tells its owner and its kind. -/
structure Unambiguous (nodeTypes : List SchemaNodeType) (edgeTypes : List SchemaEdgeType) : Prop where
  /-- Types whose names have a slash have no fields. -/
  plain : Slashless nodeTypes edgeTypes
  /-- A node type and an edge type that share a name have no fields. -/
  apart : ∀ nt ∈ nodeTypes, ∀ et ∈ edgeTypes, nt.typeName = et.predicate →
    nt.fields = [] ∧ et.fields = []
  /-- Fields of a node type that share a name are of one kind. -/
  nodeKinds : ∀ nt ∈ nodeTypes, ∀ left ∈ nt.fields, ∀ right ∈ nt.fields, left.name = right.name →
    left.kind = right.kind
  /-- Fields of an edge type that share a name are of one kind. -/
  edgeKinds : ∀ et ∈ edgeTypes, ∀ left ∈ et.fields, ∀ right ∈ et.fields, left.name = right.name →
    left.kind = right.kind

variable {nodeTypes : List SchemaNodeType} {edgeTypes : List SchemaEdgeType}

/-- Fields of one owner that share a name are of one kind. -/
theorem Unambiguous.kind_eq (clear : Unambiguous nodeTypes edgeTypes)
    (nodes : (nodeTypes.map SchemaNodeType.typeName).Nodup)
    (edges : (edgeTypes.map SchemaEdgeType.predicate).Nodup) {left right : String × SchemaField}
    (first : left ∈ listed nodeTypes edgeTypes) (second : right ∈ listed nodeTypes edgeTypes)
    (owner : left.1 = right.1) (name : left.2.name = right.2.name) : left.2.kind = right.2.kind := by
  rcases List.mem_append.mp first with node | edge
  · obtain ⟨nt, inside, own⟩ := List.mem_flatMap.mp node
    obtain ⟨field, there, rfl⟩ := List.mem_map.mp own
    rcases List.mem_append.mp second with node' | edge'
    · obtain ⟨nt', inside', own'⟩ := List.mem_flatMap.mp node'
      obtain ⟨field', there', rfl⟩ := List.mem_map.mp own'
      cases List.inj_on_of_nodup_map nodes inside inside' owner
      exact clear.nodeKinds nt inside field there field' there' name
    · obtain ⟨et, inside', own'⟩ := List.mem_flatMap.mp edge'
      obtain ⟨field', there', rfl⟩ := List.mem_map.mp own'
      exact absurd (clear.apart nt inside et inside' owner).1 (List.ne_nil_of_mem there)
  · obtain ⟨et, inside, own⟩ := List.mem_flatMap.mp edge
    obtain ⟨field, there, rfl⟩ := List.mem_map.mp own
    rcases List.mem_append.mp second with node' | edge'
    · obtain ⟨nt, inside', own'⟩ := List.mem_flatMap.mp node'
      obtain ⟨field', there', rfl⟩ := List.mem_map.mp own'
      exact absurd (clear.apart nt inside' et inside owner.symm).2 (List.ne_nil_of_mem there)
    · obtain ⟨et', inside', own'⟩ := List.mem_flatMap.mp edge'
      obtain ⟨field', there', rfl⟩ := List.mem_map.mp own'
      cases List.inj_on_of_nodup_map edges inside inside' owner
      exact clear.edgeKinds et inside field there field' there' name

/-- The IRI of a field tells its owner, if that has no slash, and its name. -/
theorem fieldIri_inj {owner owner' : String} {field field' : SchemaField}
    (plain : '/' ∉ owner.toList) (plain' : '/' ∉ owner'.toList)
    (same : fieldIri owner field = fieldIri owner' field') :
    owner = owner' ∧ field.name = field'.name := by
  have rest := strippedPrefix_fieldIri owner field
  rw [same, strippedPrefix_fieldIri, Option.some.injEq] at rest
  have split := splitOnce_slash plain field.name
  rw [← rest, splitOnce_slash plain', Option.some.injEq, Prod.mk.injEq] at split
  exact ⟨split.1.symm, split.2.symm⟩

/-- The datatypes of fields are read from the list of all fields. -/
theorem dtPropRanges_listed : (read nodeTypes edgeTypes).dtPropRanges =
    Filing.insertAll SortedMap.empty ((listed nodeTypes edgeTypes).map fun entry =>
      (fieldIri entry.1 entry.2, fieldKindToXsd entry.2.kind)) := by
  rw [dtPropRanges_read, listed, List.map_append, List.map_flatMap, List.map_flatMap]
  simp only [List.map_map, Function.comp_def]

/-- Each field is read as it was written. -/
theorem Unambiguous.kept_eq (clear : Unambiguous nodeTypes edgeTypes)
    (nodes : (nodeTypes.map SchemaNodeType.typeName).Nodup)
    (edges : (edgeTypes.map SchemaEdgeType.predicate).Nodup)
    (kinds : ∀ entry ∈ listed nodeTypes edgeTypes, entry.2.kind ∈ FIELD_KINDS)
    {entry : String × SchemaField} (member : entry ∈ listed nodeTypes edgeTypes) :
    kept nodeTypes edgeTypes entry.1 entry.2 = entry.2.erased := by
  have there : fieldIri entry.1 entry.2 ∈ ((listed nodeTypes edgeTypes).map fun entry =>
      (fieldIri entry.1 entry.2, fieldKindToXsd entry.2.kind)).map Prod.fst :=
    List.mem_map.mpr ⟨_, List.mem_map.mpr ⟨entry, member, rfl⟩, rfl⟩
  obtain ⟨datatype, found⟩ := Filing.exists_insertAll (m := SortedMap.empty) (Or.inl there)
  have written := (Filing.mem_of_insertAll found).resolve_right nofun
  obtain ⟨other, inside, same⟩ := List.mem_map.mp written
  rw [Prod.mk.injEq] at same
  -- The field that was written last under the IRI has the same owner and name, so the same kind.
  obtain ⟨owner, name⟩ := fieldIri_inj (clear.plain.owner inside) (clear.plain.owner member) same.1
  have kind : xsdToFieldKind datatype = entry.2.kind := by
    rw [← same.2, xsdToFieldKind_fieldKindToXsd (kinds other inside)]
    exact clear.kind_eq nodes edges inside member owner name
  rw [kept, recast, dtPropRanges_listed, found, Option.getD_some, kind, SchemaField.erased]

/-- A schema round-trips precisely when the IRIs of its fields tell their owners and kinds. -/
theorem roundTrips_iff_unambiguous (parseF64 : String → Option UInt64)
    {rio : Bytes → Except String (List RioTriple)} (reads : ReadsBack rio (document nodeTypes edgeTypes))
    (nodes : (nodeTypes.map SchemaNodeType.typeName).Nodup)
    (edges : (edgeTypes.map SchemaEdgeType.predicate).Nodup)
    (kinds : ∀ entry ∈ listed nodeTypes edgeTypes, entry.2.kind ∈ FIELD_KINDS) :
    RoundTrips parseF64 rio nodeTypes edgeTypes ↔ Unambiguous nodeTypes edgeTypes := by
  -- The schema that is imported is the same when every type is given its own fields.
  have own : RoundTrips parseF64 rio nodeTypes edgeTypes ↔
      (∀ nt ∈ nodeTypes, attached nodeTypes edgeTypes nt.typeName = nt.fields.map SchemaField.erased) ∧
      ∀ et ∈ edgeTypes, attached nodeTypes edgeTypes et.predicate = et.fields.map SchemaField.erased := by
    rw [RoundTrips, parseSchemaRdf_serializeSchemaRdf reads nodes edges, Except.ok.injEq, Prod.mk.injEq,
      List.map_inj_left, List.map_inj_left]
    refine and_congr (forall₂_congr fun nt _ => ?_) (forall₂_congr fun et _ => ?_)
    · rw [SchemaNodeType.erased, SchemaNodeType.mk.injEq]
      tauto
    · rw [SchemaEdgeType.erased, SchemaEdgeType.mk.injEq]
      tauto
  rw [own]
  constructor
  · intro ⟨ofNodes, ofEdges⟩
    have plain : Slashless nodeTypes edgeTypes := by
      refine ⟨fun nt member some slash => some ?_, fun et member some slash => some ?_⟩
      · exact List.map_eq_nil_iff.mp ((ofNodes nt member).symm.trans (notMem_of_attached slash))
      · exact List.map_eq_nil_iff.mp ((ofEdges et member).symm.trans (notMem_of_attached slash))
    -- Every type has only its own fields, so no other type has fields under its name.
    have nodeFields : ∀ nt ∈ nodeTypes, nt.fields.map (kept nodeTypes edgeTypes nt.typeName) =
          nt.fields.map SchemaField.erased ∧
        Filing.under nt.typeName (edgeTypes.flatMap fun et =>
          (et.fields.map (kept nodeTypes edgeTypes et.predicate)).map fun field =>
            (et.predicate, field)) = [] := by
      intro nt member
      have all := ofNodes nt member
      rw [plain.attached_node nodes member, ← List.append_nil (nt.fields.map SchemaField.erased)] at all
      exact List.append_inj all (by rw [List.length_map, List.length_map])
    have edgeFields : ∀ et ∈ edgeTypes, Filing.under et.predicate (nodeTypes.flatMap fun nt =>
          (nt.fields.map (kept nodeTypes edgeTypes nt.typeName)).map fun field =>
            (nt.typeName, field)) = [] ∧
        et.fields.map (kept nodeTypes edgeTypes et.predicate) = et.fields.map SchemaField.erased := by
      intro et member
      have all := ofEdges et member
      rw [plain.attached_edge edges member, ← List.nil_append (et.fields.map SchemaField.erased)] at all
      exact List.append_inj' all (by rw [List.length_map, List.length_map])
    have kind : ∀ owner (fields : List SchemaField),
        fields.map (kept nodeTypes edgeTypes owner) = fields.map SchemaField.erased →
        ∀ left ∈ fields, ∀ right ∈ fields, left.name = right.name → left.kind = right.kind := by
      intro owner fields same left first right second name
      have each := List.map_inj_left.mp same
      have iri : fieldIri owner left = fieldIri owner right := by rw [fieldIri, fieldIri, name]
      have ofLeft := congrArg SchemaField.kind (each left first)
      have ofRight := congrArg SchemaField.kind (each right second)
      rw [kept, recast, iri] at ofLeft
      exact ofLeft.symm.trans ofRight
    refine ⟨plain, fun nt member et inside same => ⟨?_, ?_⟩,
      fun nt member => kind _ _ (nodeFields nt member).1,
      fun et member => kind _ _ (edgeFields et member).2⟩
    · have beside := (edgeFields et inside).1
      rw [← same] at beside
      exact List.map_eq_nil_iff.mp ((Filing.under_flatMap nodes
        (fun nt => nt.fields.map (kept nodeTypes edgeTypes nt.typeName)) member).symm.trans beside)
    · have beside := (nodeFields nt member).2
      rw [same] at beside
      exact List.map_eq_nil_iff.mp ((Filing.under_flatMap edges
        (fun et => et.fields.map (kept nodeTypes edgeTypes et.predicate)) inside).symm.trans beside)
  · intro clear
    refine ⟨fun nt member => ?_, fun et member => ?_⟩
    · rw [clear.plain.attached_node nodes member, Filing.under_flatMap_eq_nil fun et inside same =>
        List.map_eq_nil_iff.mpr (clear.apart nt member et inside same.symm).2, List.append_nil]
      refine List.map_congr_left fun field there => ?_
      exact clear.kept_eq nodes edges kinds (List.mem_append_left _
        (List.mem_flatMap.mpr ⟨nt, member, List.mem_map.mpr ⟨field, there, rfl⟩⟩))
    · rw [clear.plain.attached_edge edges member, Filing.under_flatMap_eq_nil fun nt inside same =>
        List.map_eq_nil_iff.mpr (clear.apart nt inside et member same).1, List.nil_append]
      refine List.map_congr_left fun field there => ?_
      exact clear.kept_eq nodes edges kinds (List.mem_append_right _
        (List.mem_flatMap.mpr ⟨et, member, List.mem_map.mpr ⟨field, there, rfl⟩⟩))

/-- A parser that knows one document. -/
def rereading (document : Turtle.Document) (input : Bytes) : Except String (List RioTriple) :=
  if input = utf8 document.write then .ok (document.triples.map handed) else .error "unreached"

/-- It returns the triples of that document. -/
theorem readsBack_rereading (document : Turtle.Document) : ReadsBack (rereading document) document :=
  if_pos rfl

/-- A node type with two fields. -/
def person : SchemaNodeType := ⟨"Person", [⟨"name", "text", true⟩, ⟨"age", "int", false⟩], []⟩

/-- An edge type with one field. -/
def worksAt : SchemaEdgeType := ⟨"works_at", "Person", "", [⟨"since", "text", false⟩]⟩

/-- A schema of two types with plain names round-trips. -/
theorem roundTrips_person : RoundTrips (fun _ => none) (rereading (document [person] [worksAt]))
    [person] [worksAt] := by
  refine (roundTrips_iff_unambiguous _ (readsBack_rereading (document [person] [worksAt])) (by decide)
    (by decide) (by decide)).mpr ⟨⟨?_, ?_⟩, ?_, ?_, ?_⟩
  all_goals simp only [List.forall_mem_singleton]
  all_goals decide

/-- A node type that is named by an IRI, with one field. -/
def iriPerson : SchemaNodeType := ⟨"http://example.org/Person", [⟨"name", "text", false⟩], []⟩

/-- A node type that is named by an IRI loses its field. -/
theorem iriPerson_loses_field : ReadsBack (rereading (document [iriPerson] [])) (document [iriPerson] []) ∧
    ¬ RoundTrips (fun _ => none) (rereading (document [iriPerson] [])) [iriPerson] [] := by
  refine ⟨readsBack_rereading _, fun same => ?_⟩
  have lost : attached [iriPerson] [] "http://example.org/Person" = [] := notMem_of_attached (by decide)
  rw [RoundTrips, parseSchemaRdf_serializeSchemaRdf (readsBack_rereading (document [iriPerson] []))
    (by decide) (by decide), Except.ok.injEq, Prod.mk.injEq, List.map_inj_left] at same
  have fields := congrArg SchemaNodeType.fields (same.1 iriPerson List.mem_cons_self)
  exact absurd (lost.symm.trans fields) (by decide)

end Schema

end Polargraph
