import Polargraph.Query.CypherCompile

/-! The patterns that the matching part of a Cypher statement compiles to. -/

namespace Polargraph

namespace CompiledMatch

variable {ext : External} {vocabulary : Vocabulary} {prefixes : String → Option String}
  {made : CompiledMatch}

/-- Every pattern is still in every graph, and has a known predicate. -/
def Unscoped (made : CompiledMatch) : Prop :=
  ∀ vp ∈ made.patterns, vp.graph = .union ∧ vp.predicateVar = none

/-- Nothing compiled yet is unscoped. -/
theorem unscoped_empty : empty.Unscoped := by
  intro vp member
  cases member

/-- One more pattern keeps a match unscoped. -/
theorem Unscoped.pattern (unscoped : made.Unscoped) {vp : VarPattern}
    (own : vp.graph = .union ∧ vp.predicateVar = none) : (made.pattern vp).Unscoped := by
  intro other member
  rcases List.mem_append.mp member with earlier | last
  · exact unscoped other earlier
  · rw [List.mem_singleton.mp last]
    exact own

/-- Filters on the properties of a node keep a match unscoped. -/
theorem Unscoped.props (unscoped : made.Unscoped) (var : String)
    (props : List (String × CypherValue)) :
    (props.foldl (fun made prop => made.valueFilter var (vocabulary.resolveName prefixes prop.1)
      prop.2.toFilterValue) made).Unscoped := by
  induction props generalizing made with
  | nil => exact unscoped
  | cons prop rest ih =>
    apply ih
    exact unscoped

/-- The label of a node keeps a match unscoped. -/
theorem Unscoped.label (unscoped : made.Unscoped) (var : String) (label : Option String) :
    (label.elim made
      (fun label => made.pattern (labelPattern ext vocabulary prefixes var label))).Unscoped := by
  cases label with
  | none => exact unscoped
  | some label => exact unscoped.pattern ⟨rfl, rfl⟩

/-- A node on its own keeps a match unscoped. -/
theorem Unscoped.emitNodeBinding (unscoped : made.Unscoped) (var : String) (node : Cypher.NodePat) :
    (made.emitNodeBinding ext vocabulary prefixes var node).Unscoped := by
  apply Unscoped.props
  have labelled := @Unscoped.label ext vocabulary prefixes made unscoped var node.label
  split
  · exact labelled.pattern ⟨rfl, rfl⟩
  · exact labelled

/-- A node that a relationship binds keeps a match unscoped. -/
theorem Unscoped.emitNodeFilters (unscoped : made.Unscoped) (var : String) (node : Cypher.NodePat) :
    (made.emitNodeFilters ext vocabulary prefixes var node).Unscoped :=
  (unscoped.label var node.label).props var node.props

/-- A name for a node keeps a match unscoped. -/
theorem Unscoped.getOrAnon (unscoped : made.Unscoped) (var : Option String) :
    (made.getOrAnon var).2.Unscoped := by
  cases var <;> exact unscoped

/-- A relationship keeps a match unscoped. -/
theorem Unscoped.emitRel (unscoped : made.Unscoped) (rel : Cypher.RelPat) (subject object : String) :
    (made.emitRel vocabulary prefixes rel subject object).Unscoped := by
  unfold CompiledMatch.emitRel
  dsimp only
  split
  · split
    · exact unscoped.pattern ⟨rfl, rfl⟩
    · apply Unscoped.pattern _ ⟨rfl, rfl⟩
      split <;> exact unscoped
  · have related := @Unscoped.pattern made unscoped { VarPattern.of (.var subject)
      (vocabulary.resolveName prefixes rel.predicate) (.var object) with edgeVar := rel.var }
      ⟨rfl, rfl⟩
    exact related

/-- A step of a path keeps a match unscoped. -/
theorem Unscoped.emitHop (unscoped : made.Unscoped) (current : String) (hop : Cypher.HopPat) :
    (made.emitHop ext vocabulary prefixes current hop).1.Unscoped := by
  apply Unscoped.emitNodeFilters
  have named := unscoped.getOrAnon hop.target.var
  split
  · exact named.emitRel _ _ _
  · exact named.emitRel _ _ _

/-- A path keeps a match unscoped. -/
theorem Unscoped.compilePath (unscoped : made.Unscoped) (path : Cypher.CypherPath) :
    (made.compilePath ext vocabulary prefixes path).Unscoped := by
  have hops : ∀ (hops : List Cypher.HopPat) (state : CompiledMatch × String), state.1.Unscoped →
      (hops.foldl (fun state hop => state.1.emitHop ext vocabulary prefixes state.2 hop)
        state).1.Unscoped := by
    intro hops
    induction hops with
    | nil => exact fun _ held => held
    | cons hop rest ih => exact fun state held => ih _ (held.emitHop state.2 hop)
  have named := unscoped.getOrAnon path.start.var
  unfold CompiledMatch.compilePath
  dsimp only
  split
  · exact named.emitNodeBinding _ _
  · exact hops _ _ (named.emitNodeFilters _ _)

/-- A condition keeps a match unscoped. -/
theorem Unscoped.addWhere (unscoped : made.Unscoped) (condition : Cypher.WhereClause) :
    (made.addWhere vocabulary prefixes condition).Unscoped := by
  unfold CompiledMatch.addWhere
  split <;> try split_ifs
  all_goals exact unscoped

/-- Binding the variables of filters keeps a match unscoped. -/
theorem Unscoped.bindFilters (unscoped : made.Unscoped) : made.bindFilters.Unscoped := by
  intro vp member
  rcases List.mem_append.mp member with earlier | bound
  · exact unscoped vp earlier
  · obtain ⟨_, _, rfl⟩ := List.mem_map.mp bound
    exact ⟨rfl, rfl⟩

end CompiledMatch

/-- The patterns of a compiled match are still in every graph. -/
theorem Cypher.CypherQuery.unscoped_compileMatch (ext : External) (vocabulary : Vocabulary)
    (prefixes : String → Option String) (query : CypherQuery) :
    (query.compileMatch ext vocabulary prefixes).Unscoped := by
  have paths : ∀ (paths : List CypherPath) (made : CompiledMatch), made.Unscoped →
      (paths.foldl (·.compilePath ext vocabulary prefixes) made).Unscoped := by
    intro paths
    induction paths with
    | nil => exact fun _ held => held
    | cons path rest ih => exact fun made held => ih _ (held.compilePath path)
  have conditions : ∀ (conditions : List WhereClause) (made : CompiledMatch), made.Unscoped →
      (conditions.foldl (·.addWhere vocabulary prefixes) made).Unscoped := by
    intro conditions
    induction conditions with
    | nil => exact fun _ held => held
    | cons condition rest ih => exact fun made held => ih _ (held.addWhere condition)
  apply CompiledMatch.Unscoped.bindFilters
  apply conditions
  have matched := conditions query.whereClauses _
    (paths query.matchPatterns _ CompiledMatch.unscoped_empty)
  cases query.callClause with
  | none => exact matched
  | some call => exact matched

end Polargraph
