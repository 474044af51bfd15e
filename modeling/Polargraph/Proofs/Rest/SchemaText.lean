import Polargraph.Lib.Turtle
import Polargraph.Rest.SchemaRdf

/-! An exported schema is a Turtle document, written out. -/

namespace Polargraph

namespace Schema

/-- The directive for the names of classes. -/
def OWL : Turtle.Directive := ⟨"owl", "http://www.w3.org/2002/07/owl#", "  "⟩

/-- The directive for the names of schema predicates. -/
def RDFS : Turtle.Directive := ⟨"rdfs", "http://www.w3.org/2000/01/rdf-schema#", " "⟩

/-- The directives at the start of an exported schema. -/
def directives : List Turtle.Directive :=
  [OWL, RDFS, ⟨"xsd", "http://www.w3.org/2001/XMLSchema#", "  "⟩,
    ⟨"rdf", "http://www.w3.org/1999/02/22-rdf-syntax-ns#", "  "⟩]

/-- The IRI of a field of an owner. -/
def fieldIri (owner : String) (field : SchemaField) : String :=
  PROP_BASE ++ owner ++ "/" ++ field.name

/-- The statement about a field of an owner. -/
def fieldStatement (owner ownerIri : String) (field : SchemaField) : Turtle.Statement where
  subject := .iri (fieldIri owner field)
  predicates := [(.a, [.short OWL "DatatypeProperty"]), (.short RDFS "domain", [.iri ownerIri]),
    (.short RDFS "range", [.iri (fieldKindToXsd field.kind)])]

/-- The statements about a node type and its fields. -/
def nodeStatements (nt : SchemaNodeType) : List Turtle.Statement :=
  ⟨.iri (TYPE_BASE ++ nt.typeName), (.a, [.short OWL "Class"]) ::
    if nt.parentTypes.isEmpty then [] else
      [(.short RDFS "subClassOf", nt.parentTypes.map fun p => .iri (TYPE_BASE ++ p))]⟩ ::
    nt.fields.map (fieldStatement nt.typeName (TYPE_BASE ++ nt.typeName))

/-- The statements about an edge type and its fields. -/
def edgeStatements (et : SchemaEdgeType) : List Turtle.Statement :=
  ⟨.iri (REL_BASE ++ et.predicate), (.a, [.short OWL "ObjectProperty"]) ::
    ((if et.domain = "" then [] else [(.short RDFS "domain", [.iri (TYPE_BASE ++ et.domain)])]) ++
      if et.range = "" then [] else [(.short RDFS "range", [.iri (TYPE_BASE ++ et.range)])])⟩ ::
    et.fields.map (fieldStatement et.predicate (REL_BASE ++ et.predicate))

/-- The statements about a schema shorten names of the first two namespaces only. -/
theorem shortens {nodeTypes : List SchemaNodeType} {edgeTypes : List SchemaEdgeType}
    {statement : Turtle.Statement}
    (member : statement ∈ nodeTypes.flatMap nodeStatements ++ edgeTypes.flatMap edgeStatements)
    {directive : Turtle.Directive} {local_ : String}
    (short : Turtle.Term.short directive local_ ∈ statement.terms) : directive ∈ directives := by
  have both : directive = OWL ∨ directive = RDFS → directive ∈ directives := by
    rintro (rfl | rfl) <;> simp [directives]
  refine both ?_
  have ofField : ∀ owner ownerIri field, statement = fieldStatement owner ownerIri field →
      directive = OWL ∨ directive = RDFS := by
    rintro owner ownerIri field rfl
    simp only [Turtle.Statement.terms, fieldStatement, List.flatMap_cons, List.flatMap_nil,
      List.mem_cons, List.mem_append, List.not_mem_nil, or_false, Turtle.Term.short.injEq,
      reduceCtorEq, false_or] at short
    rcases short with ⟨first, _⟩ | ⟨second, _⟩ | ⟨second, _⟩
    · exact Or.inl first
    · exact Or.inr second
    · exact Or.inr second
  rcases List.mem_append.mp member with node | edge
  · obtain ⟨nt, _, listed⟩ := List.mem_flatMap.mp node
    rcases List.mem_cons.mp listed with rfl | field
    · simp only [Turtle.Statement.terms] at short
      split_ifs at short with orphan
      · simp at short
        exact Or.inl short.1
      · simp at short
        exact short.imp And.left And.left
    · obtain ⟨field, _, rfl⟩ := List.mem_map.mp field
      exact ofField _ _ _ rfl
  · obtain ⟨et, _, listed⟩ := List.mem_flatMap.mp edge
    rcases List.mem_cons.mp listed with rfl | field
    · simp only [Turtle.Statement.terms] at short
      split_ifs at short <;> simp at short <;> tauto
    · obtain ⟨field, _, rfl⟩ := List.mem_map.mp field
      exact ofField _ _ _ rfl

/-- A schema as a Turtle document. -/
def document (nodeTypes : List SchemaNodeType) (edgeTypes : List SchemaEdgeType) : Turtle.Document where
  directives := directives
  statements := nodeTypes.flatMap nodeStatements ++ edgeTypes.flatMap edgeStatements
  distinct := by decide
  declared _ member _ _ short := shortens member short

/-- A field is written as its statement is. -/
theorem writeField_eq (owner ownerIri : String) (field : SchemaField) :
    writeField owner ("<" ++ ownerIri ++ ">") field = (fieldStatement owner ownerIri field).write := by
  apply String.toList_injective
  simp [writeField, fieldStatement, fieldIri, Turtle.Statement.write, Turtle.writePredicate,
    Turtle.Term.write, OWL, RDFS, String.intercalate_cons_cons]

/-- The fields of an owner are written as their statements are. -/
theorem join_writeField (base owner : String) (fields : List SchemaField) :
    String.join (fields.map (writeField owner ("<" ++ base ++ owner ++ ">"))) =
      String.join ((fields.map (fieldStatement owner (base ++ owner))).map Turtle.Statement.write) := by
  have bracketed : "<" ++ base ++ owner = "<" ++ (base ++ owner) := String.append_assoc
  rw [List.map_map, bracketed]
  exact congrArg String.join
    (List.map_congr_left fun field _ => writeField_eq owner (base ++ owner) field)

/-- A node type is written as its statements are. -/
theorem writeNodeType_eq (nt : SchemaNodeType) :
    writeNodeType nt = String.join ((nodeStatements nt).map Turtle.Statement.write) := by
  rw [writeNodeType, nodeStatements, List.map_cons, String.join_cons, ← join_writeField]
  congr 1
  cases nt.parentTypes with
  | nil =>
    apply String.toList_injective
    simp [Turtle.Statement.write, Turtle.writePredicate, Turtle.Term.write, OWL]
  | cons first rest =>
    apply String.toList_injective
    simp [Turtle.Statement.write, Turtle.writePredicate, Turtle.Term.write, OWL, RDFS,
      Function.comp_def, String.intercalate_cons_cons]

/-- An edge type is written as its statements are. -/
theorem writeEdgeType_eq (et : SchemaEdgeType) :
    writeEdgeType et = String.join ((edgeStatements et).map Turtle.Statement.write) := by
  rw [writeEdgeType, edgeStatements, List.map_cons, String.join_cons, ← join_writeField]
  congr 1
  -- Each of the two parts is there or not.
  apply String.toList_injective
  split_ifs <;> simp_all [Turtle.Statement.write, Turtle.writePredicate, Turtle.Term.write, OWL, RDFS,
    String.intercalate_cons_cons]

/-- Texts of several lists of statements are joined as one list is. -/
theorem join_flatMap {α : Type} (items : List α) (statements : α → List Turtle.Statement) :
    String.join (items.map fun item => String.join ((statements item).map Turtle.Statement.write)) =
      String.join ((items.flatMap statements).map Turtle.Statement.write) := by
  apply String.toList_injective
  simp [String.toList_join, List.flatMap_map, List.flatMap_assoc, List.map_flatMap]

/-- The directives are written as the start of an exported schema. -/
theorem join_directives : String.join (directives.map Turtle.Directive.write) =
    "@prefix owl:  <http://www.w3.org/2002/07/owl#> .\n" ++
      "@prefix rdfs: <http://www.w3.org/2000/01/rdf-schema#> .\n" ++
      "@prefix xsd:  <http://www.w3.org/2001/XMLSchema#> .\n" ++
      "@prefix rdf:  <http://www.w3.org/1999/02/22-rdf-syntax-ns#> .\n" := by
  simp [directives, Turtle.Directive.write, OWL, RDFS]

/-- A schema is exported as its document is written. -/
theorem serializeSchemaRdf_eq (nodeTypes : List SchemaNodeType) (edgeTypes : List SchemaEdgeType) :
    serializeSchemaRdf nodeTypes edgeTypes = (document nodeTypes edgeTypes).write := by
  have nodes := join_flatMap nodeTypes nodeStatements
  have edges := join_flatMap edgeTypes edgeStatements
  simp only [← writeNodeType_eq] at nodes
  simp only [← writeEdgeType_eq] at edges
  have start : serializeSchemaRdf nodeTypes edgeTypes =
      String.join (directives.map Turtle.Directive.write) ++ "\n" ++
        String.join (nodeTypes.map writeNodeType) ++ String.join (edgeTypes.map writeEdgeType) :=
    congrArg (fun lines => lines ++ "\n" ++ String.join (nodeTypes.map writeNodeType) ++
      String.join (edgeTypes.map writeEdgeType)) join_directives.symm
  have rest : (document nodeTypes edgeTypes).write =
      String.join (directives.map Turtle.Directive.write) ++ "\n" ++ String.join
        ((nodeTypes.flatMap nodeStatements ++ edgeTypes.flatMap edgeStatements).map
          Turtle.Statement.write) := rfl
  rw [start, rest, List.map_append, String.join_append, ← nodes, ← edges, String.append_assoc]

end Schema

end Polargraph
