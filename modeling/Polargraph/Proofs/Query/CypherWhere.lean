import Polargraph.Proofs.Query.CypherCompile
import Polargraph.Proofs.Query.Evaluate
import Polargraph.Proofs.Query.Values
import Polargraph.Proofs.Server.NodeFilter
import Polargraph.Proofs.Server.Query
import Polargraph.Proofs.Storage.Annotations

/-! The rows a Cypher query keeps, against the conditions it asks for. -/

namespace Polargraph

namespace CypherValue

/-- Whether a value to compare with is a parameter. -/
def isParam : CypherValue → Bool
  | param _ => true
  | _ => false

/-- The value to compare with, for the values of the parameters. -/
def operand (params : List (String × Value)) : CypherValue → Option Value
  | param name => params.lookup name
  | other => some other.toCoreValue

end CypherValue

namespace Cypher

/-- How a condition on a property compares. -/
inductive Operator where
  /-- By a comparison, with a literal or a parameter. -/
  | compares (op : ComparisonOp) (parameter : Bool)
  /-- By what a text contains. -/
  | contains
  /-- By what a text starts with. -/
  | startsWith
deriving DecidableEq

/-- What a condition on a property is about. -/
structure ConjunctShape where
  /-- Whether its variable is one of a relationship. -/
  relationship : Bool
  /-- How it compares. -/
  operator : Operator
deriving DecidableEq

/-- A condition of a shape is looked at, and compares with what it says. -/
def ConjunctShape.Checked (shape : ConjunctShape) : Prop :=
  match shape.operator with
  | .compares op parameter => if shape.relationship then ¬ (op = .eq ∧ parameter = true) else op = .eq
  | .contains | .startsWith => shape.relationship = false

namespace CypherQuery

/-- The variables of relationships; one of a path of relationships stands for no single edge. -/
def relationshipVars (query : CypherQuery) : List String :=
  query.matchPatterns.flatMap fun path => path.hops.flatMap fun hop =>
    if hop.rel.recursive then [] else hop.rel.var.toList

/-- All conditions of a query. -/
def conjuncts (query : CypherQuery) : List WhereClause := query.whereClauses ++ query.withFilters

end CypherQuery

namespace WhereClause

/-- The shape of a condition on a property, texts matched by an expression apart. -/
def shape (relationships : List String) : WhereClause → Option ConjunctShape
  | propertyEq var _ value => some ⟨relationships.contains var, .compares .eq value.isParam⟩
  | propertyCmp var _ op value => some ⟨relationships.contains var, .compares op value.isParam⟩
  | contains var _ _ => some ⟨relationships.contains var, .contains⟩
  | startsWith var _ _ => some ⟨relationships.contains var, .startsWith⟩
  | vectorNear .. | regex .. => none

end WhereClause

end Cypher

section External

variable (ext : External)

namespace Snapshot

/-- A live property of a node has a value. -/
def HasValue (snapshot : Snapshot) (node : NodeId) (name : String) (value : Value) : Prop :=
  ∃ ids predicate window,
    snapshot.store.Wanted (some node) (some name) none .union snapshot.point ids ∧
    snapshot.store.Shows snapshot.point.ts snapshot.vt ids ∧
    snapshot.store.ReadFrom ext snapshot.point.ts snapshot.vt ids
      (.property node predicate value window)

/-- Some live value of a property of what a variable stands for, a node or an edge, is as wanted. -/
def Meets (snapshot : Snapshot) (relationships : List String) (row : Bindings) (var prop : String)
    (wanted : Value → Bool) : Prop :=
  ∃ node value, row.lookup var = some node ∧ wanted value = true ∧
    let name := snapshot.store.vocabulary.resolveName snapshot.prefixes prop
    if relationships.contains var then
      TripleStore.HasAnnotation ext snapshot.store ⟨node.uuid⟩
        (snapshot.store.vocabulary.canonicalPredicate name) snapshot.point.ts snapshot.point.readable
        value
    else snapshot.HasValue ext node name value

/-- A row satisfies a condition on a property. -/
def Satisfies (snapshot : Snapshot) (relationships : List String) (params : List (String × Value))
    (row : Bindings) : Cypher.WhereClause → Prop
  | .propertyEq var prop value => ∃ expected, value.operand params = some expected ∧
      snapshot.Meets ext relationships row var prop (fun held => held.compareBy .eq expected)
  | .propertyCmp var prop op value => ∃ expected, value.operand params = some expected ∧
      snapshot.Meets ext relationships row var prop (fun held => held.compareBy op expected)
  | .contains var prop text => snapshot.Meets ext relationships row var prop fun held =>
      held.asText.any fun own => decide (utf8 text <:+: utf8 own)
  | .startsWith var prop text => snapshot.Meets ext relationships row var prop fun held =>
      held.asText.any fun own => decide (utf8 text <+: utf8 own)
  | .vectorNear .. | .regex .. => True

end Snapshot

end External

/-- A query runs to the rows that are left of those its patterns match. -/
def Cypher.CypherQuery.RunsTo (query : CypherQuery) (ext : External)
    (matchesRegex : String → String → Bool) (server : QueryServer) (request : CypherQueryRequest)
    (access : Option UserGraphAccess) (snapshot : Snapshot) (left : List Bindings) : Prop :=
  ∃ compiled rows,
    (query.compileWithVocabulary ext snapshot.store.vocabulary snapshot.prefixes).substituteParams
      request.params = .ok compiled ∧
    server.cypherMatch ext request access (server.cypherDataset compiled request.graphs) snapshot =
      some (.ok rows) ∧
    snapshot.applyFilters ext matchesRegex compiled rows = .ok left

/-- Every row that any query with conditions of some shapes runs to satisfies all of them. -/
def Cypher.RowsSatisfy (shapes : Set ConjunctShape) : Prop :=
  ∀ (ext : External) (matchesRegex : String → String → Bool) (server : QueryServer)
    (request : CypherQueryRequest) (access : Option UserGraphAccess) (snapshot : Snapshot)
    (query : CypherQuery) (left : List Bindings),
    snapshot.store.Intact ext →
    query.RunsTo ext matchesRegex server request access snapshot left →
    (∀ clause ∈ query.conjuncts, ∀ shape, clause.shape query.relationshipVars = some shape →
      shape ∈ shapes) →
    ∀ row ∈ left, ∀ clause ∈ query.conjuncts,
      snapshot.Satisfies ext query.relationshipVars request.params row clause

namespace CompiledMatch

section Names

variable {ext : External} {vocabulary : Vocabulary} {prefixes : String → Option String}
  {made : CompiledMatch}

/-- The filter that looks at a condition, if there is any. -/
def Routes (vocabulary : Vocabulary) (prefixes : String → Option String) (relationships : List String)
    (made : CompiledMatch) : Cypher.WhereClause → Prop
  | .propertyEq var prop value =>
    if relationships.contains var then
      ⟨var, vocabulary.resolveName prefixes prop, .eq, value.toCoreValue⟩ ∈
        made.edgeAnnotationFilters
    else ⟨var, vocabulary.resolveName prefixes prop, value.toFilterValue⟩ ∈ made.valueFilters
  | .propertyCmp var prop op value =>
    if relationships.contains var then
      ⟨var, vocabulary.resolveName prefixes prop, op, value.toCoreValue⟩ ∈ made.edgeAnnotationFilters
    else op = .eq →
      ⟨var, vocabulary.resolveName prefixes prop, value.toFilterValue⟩ ∈ made.valueFilters
  | .contains var prop text =>
    ⟨var, vocabulary.resolveName prefixes prop, .contains text⟩ ∈ made.textFilters
  | .startsWith var prop text =>
    ⟨var, vocabulary.resolveName prefixes prop, .startsWith text⟩ ∈ made.textFilters
  | .vectorNear .. | .regex .. => True

/-- More filters are added, for the same relationships. -/
structure Adds (before after : CompiledMatch) : Prop where
  /-- The relationships are the same. -/
  edgeVars : after.edgeVars = before.edgeVars
  /-- Filters on values stay. -/
  values : before.valueFilters ⊆ after.valueFilters
  /-- So do those on texts. -/
  texts : before.textFilters ⊆ after.textFilters
  /-- So do those on annotations. -/
  edges : before.edgeAnnotationFilters ⊆ after.edgeAnnotationFilters

/-- Additions go on from one another. -/
theorem Adds.trans {first second third : CompiledMatch} (one : Adds first second)
    (two : Adds second third) : Adds first third :=
  ⟨two.edgeVars.trans one.edgeVars, fun _ member => two.values (one.values member),
    fun _ member => two.texts (one.texts member), fun _ member => two.edges (one.edges member)⟩

/-- What looks at a condition still does after additions. -/
theorem Routes.mono {after : CompiledMatch} {relationships : List String}
    {clause : Cypher.WhereClause}
    (routes : Routes vocabulary prefixes relationships made clause) (adds : Adds made after) :
    Routes vocabulary prefixes relationships after clause := by
  cases clause with
  | propertyEq var prop value =>
    simp only [Routes] at routes ⊢
    split_ifs at routes ⊢
    · exact adds.edges routes
    · exact adds.values routes
  | propertyCmp var prop op value =>
    simp only [Routes] at routes ⊢
    split_ifs at routes ⊢
    · exact adds.edges routes
    · exact fun same => adds.values (routes same)
  | contains | startsWith => exact adds.texts routes
  | vectorNear | regex => trivial

/-- A condition only adds filters. -/
theorem adds_addWhere (made : CompiledMatch) (clause : Cypher.WhereClause) :
    Adds made (made.addWhere vocabulary prefixes clause) := by
  have refl : Adds made made := ⟨rfl, List.Subset.refl _, List.Subset.refl _, List.Subset.refl _⟩
  have value : ∀ var prop value, Adds made (made.valueFilter var prop value) := fun _ _ _ =>
    ⟨rfl, List.subset_append_left _ _, List.Subset.refl _, List.Subset.refl _⟩
  have text : ∀ var prop kind, Adds made (made.textFilter var prop kind) := fun _ _ _ =>
    ⟨rfl, List.Subset.refl _, List.subset_append_left _ _, List.Subset.refl _⟩
  have edge : ∀ var prop op value, Adds made (made.edgeFilter var prop op value) := fun _ _ _ _ =>
    ⟨rfl, List.Subset.refl _, List.Subset.refl _, List.subset_append_left _ _⟩
  cases clause with
  | propertyEq var prop operand =>
    simp only [addWhere]
    split_ifs
    · exact edge _ _ _ _
    · exact value _ _ _
  | propertyCmp var prop op operand =>
    simp only [addWhere]
    split_ifs
    · exact edge _ _ _ _
    · exact value _ _ _
    · exact refl
  | contains | startsWith | regex => exact text _ _ _
  | vectorNear => exact ⟨rfl, List.Subset.refl _, List.Subset.refl _, List.Subset.refl _⟩

/-- A condition is looked at, unless it compares a node's property for something else than equality. -/
theorem routes_addWhere (made : CompiledMatch) (clause : Cypher.WhereClause) :
    Routes vocabulary prefixes made.edgeVars (made.addWhere vocabulary prefixes clause) clause := by
  have last : ∀ {α : Type} (items : List α) (item : α), item ∈ items ++ [item] :=
    fun items item => List.mem_append_right items (List.mem_singleton_self item)
  cases clause with
  | propertyEq var prop value =>
    simp only [Routes, addWhere]
    split_ifs
    · exact last _ _
    · exact last _ _
  | propertyCmp var prop op value =>
    simp only [Routes, addWhere]
    split_ifs with edge equal
    · exact last _ _
    · exact fun _ => last _ _
    · exact fun same => absurd same equal
  | contains | startsWith => exact last _ _
  | vectorNear | regex => trivial

/-- All conditions of a list are looked at. -/
theorem routes_foldl (clauses : List Cypher.WhereClause) (made : CompiledMatch) :
    Adds made (clauses.foldl (·.addWhere vocabulary prefixes) made) ∧
      ∀ clause ∈ clauses, Routes vocabulary prefixes made.edgeVars
        (clauses.foldl (·.addWhere vocabulary prefixes) made) clause := by
  -- The induction is on the conditions, over what is compiled so far.
  induction clauses generalizing made with
  | nil =>
    exact ⟨⟨rfl, List.Subset.refl _, List.Subset.refl _, List.Subset.refl _⟩,
      fun _ member => absurd member List.not_mem_nil⟩
  | cons clause rest ih =>
    have here := @adds_addWhere vocabulary prefixes made clause
    obtain ⟨later, routed⟩ := ih (made.addWhere vocabulary prefixes clause)
    refine ⟨here.trans later, fun other member => ?_⟩
    rcases List.mem_cons.mp member with rfl | last
    · exact (routes_addWhere made other).mono later
    · rw [← here.edgeVars]
      exact routed other last

/-- A node that a relationship binds binds no edge. -/
theorem edgeVars_emitNodeFilters (made : CompiledMatch) (var : String) (node : Cypher.NodePat) :
    (made.emitNodeFilters ext vocabulary prefixes var node).edgeVars = made.edgeVars := by
  have props : ∀ (props : List (String × CypherValue)) (made : CompiledMatch),
      (props.foldl (fun made prop => made.valueFilter var (vocabulary.resolveName prefixes prop.1)
        prop.2.toFilterValue) made).edgeVars = made.edgeVars := by
    intro props
    induction props with
    | nil => exact fun _ => rfl
    | cons prop rest ih => exact fun made => ih _
  unfold emitNodeFilters
  rw [props]
  cases node.label <;> rfl

/-- Nor does a node on its own. -/
theorem edgeVars_emitNodeBinding (made : CompiledMatch) (var : String) (node : Cypher.NodePat) :
    (made.emitNodeBinding ext vocabulary prefixes var node).edgeVars = made.edgeVars := by
  obtain ⟨own, label, props⟩ := node
  -- Its first property only adds a pattern.
  have same := @edgeVars_emitNodeFilters ext vocabulary prefixes made var ⟨own, label, props⟩
  cases label with
  | some label => exact same
  | none =>
    cases props with
    | nil => exact same
    | cons prop rest =>
      have bound := @edgeVars_emitNodeFilters ext vocabulary prefixes
        (made.pattern (.of (.var var) (vocabulary.resolveName prefixes prop.1) .any)) var
        ⟨own, none, prop :: rest⟩
      exact bound

/-- A node without a variable is given a name. -/
theorem edgeVars_getOrAnon (made : CompiledMatch) (var : Option String) :
    (made.getOrAnon var).2.edgeVars = made.edgeVars := by
  cases var <;> rfl

/-- A relationship binds its edge, unless it stands for a path. -/
theorem edgeVars_emitRel (made : CompiledMatch) (rel : Cypher.RelPat) (subject object : String) :
    (made.emitRel vocabulary prefixes rel subject object).edgeVars =
      made.edgeVars ++ if rel.recursive then [] else rel.var.toList := by
  unfold emitRel
  dsimp only
  cases path : rel.recursive with
  | true =>
    simp only [if_true, List.append_nil]
    cases rel.maxHops with
    | some hops => rfl
    | none =>
      -- Rules for a path are made once.
      dsimp only
      split_ifs <;> rfl
  | false => rfl

/-- A step of a path binds the edge of its relationship. -/
theorem edgeVars_emitHop (made : CompiledMatch) (current : String) (hop : Cypher.HopPat) :
    (made.emitHop ext vocabulary prefixes current hop).1.edgeVars =
      made.edgeVars ++ if hop.rel.recursive then [] else hop.rel.var.toList := by
  unfold emitHop
  dsimp only
  rw [edgeVars_emitNodeFilters]
  cases hop.direction with
  | out | into => rw [edgeVars_emitRel, edgeVars_getOrAnon]

/-- A path binds the edges of its relationships. -/
theorem edgeVars_compilePath (made : CompiledMatch) (path : Cypher.CypherPath) :
    (made.compilePath ext vocabulary prefixes path).edgeVars =
      made.edgeVars ++ path.hops.flatMap fun hop =>
        if hop.rel.recursive then [] else hop.rel.var.toList := by
  have steps : ∀ (hops : List Cypher.HopPat) (state : CompiledMatch × String),
      (hops.foldl (fun state hop => state.1.emitHop ext vocabulary prefixes state.2 hop)
        state).1.edgeVars = state.1.edgeVars ++ hops.flatMap fun hop =>
          if hop.rel.recursive then [] else hop.rel.var.toList := by
    intro hops
    induction hops with
    | nil => simp
    | cons hop rest ih =>
      intro state
      rw [List.foldl_cons, ih, edgeVars_emitHop, List.flatMap_cons, List.append_assoc]
  unfold compilePath
  dsimp only
  split_ifs with alone
  · rw [edgeVars_emitNodeBinding, edgeVars_getOrAnon, List.isEmpty_iff.mp alone, List.flatMap_nil,
      List.append_nil]
  · rw [steps, edgeVars_emitNodeFilters, edgeVars_getOrAnon]

end Names

end CompiledMatch

section Names

variable {ext : External} {vocabulary : Vocabulary} {prefixes : String → Option String}

/-- Every condition of a query is looked at when its filters are compiled. -/
theorem Cypher.CypherQuery.routes (query : CypherQuery) {clause : WhereClause}
    (member : clause ∈ query.conjuncts) :
    CompiledMatch.Routes vocabulary prefixes query.relationshipVars
      (query.compileMatch ext vocabulary prefixes) clause := by
  -- All relationships are known before the first condition is compiled.
  have paths : ∀ (paths : List CypherPath) (made : CompiledMatch),
      (paths.foldl (·.compilePath ext vocabulary prefixes) made).edgeVars =
        made.edgeVars ++ paths.flatMap fun path => path.hops.flatMap fun hop =>
          if hop.rel.recursive then [] else hop.rel.var.toList := by
    intro paths
    induction paths with
    | nil => simp
    | cons path rest ih =>
      intro made
      rw [List.foldl_cons, ih, CompiledMatch.edgeVars_compilePath, List.flatMap_cons,
        List.append_assoc]
  have known := paths query.matchPatterns CompiledMatch.empty
  obtain ⟨adds, routed⟩ := @CompiledMatch.routes_foldl vocabulary prefixes query.whereClauses
    (query.matchPatterns.foldl (·.compilePath ext vocabulary prefixes) CompiledMatch.empty)
  have called : ∀ made : CompiledMatch, CompiledMatch.Adds made (query.callClause.elim made
      fun call => { made with
        vectorNear := some
          ⟨call.yieldVars.head?.getD "__call_node", call.space, call.k, call.ef⟩ }) := by
    intro made
    cases query.callClause <;>
      exact ⟨rfl, List.Subset.refl _, List.Subset.refl _, List.Subset.refl _⟩
  have between := called (query.whereClauses.foldl (·.addWhere vocabulary prefixes)
    (query.matchPatterns.foldl (·.compilePath ext vocabulary prefixes) CompiledMatch.empty))
  obtain ⟨later, filtered⟩ := @CompiledMatch.routes_foldl vocabulary prefixes query.withFilters _
  have bound : ∀ made : CompiledMatch, CompiledMatch.Adds made made.bindFilters := fun _ =>
    ⟨rfl, List.Subset.refl _, List.Subset.refl _, List.Subset.refl _⟩
  have all : CompiledMatch.empty.edgeVars ++ query.relationshipVars = query.relationshipVars := rfl
  have sum := known.trans all
  rcases List.mem_append.mp member with condition | filter
  · rw [← sum]
    exact (routed clause condition).mono ((between.trans later).trans (bound _))
  · have same := between.edgeVars.trans (adds.edgeVars.trans sum)
    rw [← same]
    exact (filtered clause filter).mono (bound _)

/-- The filters of a compiled query are those its conditions are compiled to. -/
theorem Cypher.CypherQuery.filters_compileWithVocabulary (query : CypherQuery) :
    (query.compileWithVocabulary ext vocabulary prefixes).valueFilters =
        (query.compileMatch ext vocabulary prefixes).valueFilters ∧
      (query.compileWithVocabulary ext vocabulary prefixes).textFilters =
        (query.compileMatch ext vocabulary prefixes).textFilters ∧
      (query.compileWithVocabulary ext vocabulary prefixes).edgeAnnotationFilters =
        (query.compileMatch ext vocabulary prefixes).edgeAnnotationFilters := by
  unfold compileWithVocabulary
  cases query.graph <;> exact ⟨rfl, rfl, rfl⟩

end Names

/-- A row that filters keep passes each of them. -/
theorem passes_of_keepPassing {φ : Type} {check : φ → Bindings → Except StorageError Bool}
    {filters : List φ} {rows kept : List Bindings} (done : keepPassing check filters rows = .ok kept)
    {row : Bindings} (member : row ∈ kept) : ∀ filter ∈ filters, check filter row = .ok true := by
  have all : ∀ filters, passesAll check filters row = .ok true →
      ∀ filter ∈ filters, check filter row = .ok true := by
    intro filters
    induction filters with
    | nil => exact fun _ _ member => absurd member List.not_mem_nil
    | cons first rest ih =>
      intro passes
      obtain ⟨here, first', passes⟩ := Except.bind_eq_ok.mp passes
      cases here with
      | false => cases passes
      | true => exact List.forall_mem_cons.mpr ⟨first', ih passes⟩
  -- The induction is on the rows that are looked at.
  induction rows generalizing kept with
  | nil =>
    cases done
    cases member
  | cons first rest ih =>
    obtain ⟨passes, own, done⟩ := Except.bind_eq_ok.mp done
    obtain ⟨others, later, done⟩ := Except.bind_eq_ok.mp done
    cases done
    cases passes with
    | false => exact ih later member
    | true =>
      rcases List.mem_cons.mp member with rfl | old
      · exact all filters own
      · exact ih later old

namespace Snapshot

variable {ext : External} {matchesRegex : String → String → Bool} {snapshot : Snapshot} {row : Bindings}

/-- A property among the triples of a node is live. -/
theorem hasValue_of_scan (intact : snapshot.store.Intact ext) {node : NodeId} {name : String}
    {triples : List Triple} (done : snapshot.scanBySubjectPredicate ext node name = .ok triples)
    {test : Value → Bool}
    (found : (triples.any fun triple => match triple with
      | .property _ _ value _ => test value
      | _ => false) = true) :
    ∃ value, test value = true ∧ snapshot.HasValue ext node name value := by
  have scanned : snapshot.evaluate ext ⟨some node, some name, none⟩ = .ok triples := done
  obtain ⟨triple, member, passes⟩ := List.any_eq_true.mp found
  obtain ⟨ids, answers, shows, read⟩ := exists_of_evaluate intact scanned member
  cases triple with
  | property subject predicate value window =>
    -- The triple was read from a quad of the node and the predicate.
    have keyed := intact.sound.keyed
    have source := read
    obtain ⟨tt, version, governs, _, _, rebuilt⟩ := source
    have stored := (Index.history_eq_some.mp governs.seen.stored).1
    obtain ⟨_, ⟨_, _, same⟩ | ⟨_, _, same, _⟩⟩ :=
      TripleStore.triple_of_reconstruct (keyed.values _ _ stored) keyed.blobs rebuilt
    · cases same
    · have subject' : subject = node :=
        (Triple.property.inj same).1.trans (answers.wanted.subject node rfl)
      rw [subject'] at read
      exact ⟨value, passes, ids, predicate, window, answers.wanted, shows, read⟩
  | _ => cases passes

/-- A row that passes a filter on a value has it. -/
theorem meets_of_passesValue (intact : snapshot.store.Intact ext) {filter : ValueFilter}
    (passes : snapshot.passesValue ext filter row = .ok true) :
    ∃ node expected value, row.lookup filter.var = some node ∧ filter.value = .literal expected ∧
      value.same expected = true ∧ snapshot.HasValue ext node filter.predicate value := by
  unfold passesValue at passes
  split at passes
  · rename_i node expected bound literal
    obtain ⟨triples, scanned, found⟩ := Except.bind_eq_ok.mp passes
    obtain ⟨value, same, live⟩ :=
      @hasValue_of_scan ext snapshot intact node filter.predicate triples scanned
        (fun value => value.same expected) (Except.ok.inj found)
    exact ⟨node, expected, value, bound, literal, same, live⟩
  · cases passes

/-- A row that passes a filter on a text has one that matches. -/
theorem meets_of_passesText (intact : snapshot.store.Intact ext) {filter : TextFilter}
    (passes : snapshot.passesText ext matchesRegex filter row = .ok true) :
    ∃ node value, row.lookup filter.var = some node ∧
      value.asText.any (textMatches matchesRegex filter.kind) = true ∧
      snapshot.HasValue ext node filter.predicate value := by
  unfold passesText at passes
  split at passes
  · rename_i node bound
    obtain ⟨triples, scanned, found⟩ := Except.bind_eq_ok.mp passes
    obtain ⟨value, matches_, live⟩ :=
      @hasValue_of_scan ext snapshot intact node filter.predicate triples scanned
        (fun value => value.asText.any (textMatches matchesRegex filter.kind)) (Except.ok.inj found)
    exact ⟨node, value, bound, matches_, live⟩
  · cases passes

/-- A row that passes a filter on an annotation has one that compares so. -/
theorem meets_of_passesEdgeAnnotation {filter : EdgeAnnotationFilter}
    (passes : snapshot.passesEdgeAnnotation ext filter row = .ok true) :
    ∃ node value, row.lookup filter.var = some node ∧
      value.compareBy filter.op filter.value = true ∧
      TripleStore.HasAnnotation ext snapshot.store ⟨node.uuid⟩
        (snapshot.store.vocabulary.canonicalPredicate filter.predicate) snapshot.point.ts
        snapshot.point.readable value := by
  unfold passesEdgeAnnotation at passes
  split at passes
  · rename_i node bound
    obtain ⟨annotations, scanned, found⟩ := Except.bind_eq_ok.mp passes
    obtain ⟨⟨name, content⟩, member, own⟩ := List.any_eq_true.mp (Except.ok.inj found)
    obtain ⟨named, compares⟩ := Bool.and_eq_true_iff.mp own
    have same : name = _ := of_decide_eq_true named
    cases content with
    | scalar value =>
      rw [same] at member
      exact ⟨node, value, bound, compares, TripleStore.hasAnnotation_of_scan scanned member⟩
    | node other => cases compares
  · cases passes

end Snapshot

namespace Cypher

variable {ext : External} {matchesRegex : String → String → Bool}

/-- A row that a query keeps satisfies every condition that is checked. -/
theorem satisfies_of_checked {server : QueryServer} {request : CypherQueryRequest}
    {access : Option UserGraphAccess} {snapshot : Snapshot} {query : CypherQuery}
    {left : List Bindings} (intact : snapshot.store.Intact ext)
    (runs : query.RunsTo ext matchesRegex server request access snapshot left) {row : Bindings}
    (member : row ∈ left) {clause : WhereClause} (inside : clause ∈ query.conjuncts)
    (checked : ∀ shape, clause.shape query.relationshipVars = some shape → shape.Checked) :
    snapshot.Satisfies ext query.relationshipVars request.params row clause := by
  obtain ⟨compiled, rows, substituted, _, kept⟩ := runs
  obtain ⟨filters, replaced, same⟩ := Except.bind_eq_ok.mp substituted
  cases same
  obtain ⟨first, values, kept⟩ := Except.bind_eq_ok.mp kept
  obtain ⟨second, texts, edges⟩ := Except.bind_eq_ok.mp kept
  have fromTexts := QueryServer.keepPassing_sub edges row member
  have fromValues := QueryServer.keepPassing_sub texts row fromTexts
  have routed := @CypherQuery.routes ext snapshot.store.vocabulary snapshot.prefixes query clause inside
  obtain ⟨valueFilters, textFilters, edgeFilters⟩ := @CypherQuery.filters_compileWithVocabulary ext
    snapshot.store.vocabulary snapshot.prefixes query
  rw [valueFilters] at replaced
  -- A condition of each kind is looked at by one filter, which the row passes.
  have value : ∀ var name (operand : CypherValue), ⟨var, name, operand.toFilterValue⟩ ∈
      (query.compileMatch ext snapshot.store.vocabulary snapshot.prefixes).valueFilters →
      ∃ node expected held, row.lookup var = some node ∧
        operand.operand request.params = some expected ∧ held.same expected = true ∧
        snapshot.HasValue ext node name held := by
    intro var name operand there
    obtain ⟨filter, done⟩ := Except.mapM_isOk_iff.mp ⟨filters, replaced⟩ _ there
    have passes := passes_of_keepPassing values fromValues filter
      ((Except.mem_of_mapM replaced).mpr ⟨_, there, done⟩)
    obtain ⟨node, expected, held, bound, literal, same, live⟩ :=
      Snapshot.meets_of_passesValue intact passes
    -- A parameter has been replaced by its value.
    unfold CompiledQuery.substituteParam at done
    cases operand with
    | param text =>
      simp only [CypherValue.toFilterValue] at done
      split at done
      · rename_i value given
        cases done
        cases literal
        exact ⟨node, _, held, bound, given, same, live⟩
      · cases done
    | _ =>
      cases done
      cases literal
      exact ⟨node, _, held, bound, rfl, same, live⟩
  have text : ∀ filter ∈ (query.compileMatch ext snapshot.store.vocabulary
      snapshot.prefixes).textFilters, snapshot.passesText ext matchesRegex filter row = .ok true := by
    intro filter there
    refine passes_of_keepPassing texts fromTexts filter ?_
    rw [← textFilters] at there
    exact there
  have edge : ∀ filter ∈ (query.compileMatch ext snapshot.store.vocabulary
      snapshot.prefixes).edgeAnnotationFilters,
      snapshot.passesEdgeAnnotation ext filter row = .ok true := by
    intro filter there
    refine passes_of_keepPassing edges member filter ?_
    rw [← edgeFilters] at there
    exact there
  cases clause with
  | propertyEq var prop operand =>
    have shaped := checked _ rfl
    simp only [ConjunctShape.Checked] at shaped
    simp only [CompiledMatch.Routes] at routed
    split_ifs at routed shaped with edge'
    · obtain ⟨node, held, bound, compares, live⟩ :=
        Snapshot.meets_of_passesEdgeAnnotation (edge _ routed)
      have literal : operand.operand request.params = some operand.toCoreValue := by
        cases operand with
        | param => exact absurd ⟨trivial, rfl⟩ shaped
        | _ => rfl
      refine ⟨_, literal, node, held, bound, compares, ?_⟩
      rwa [if_pos edge']
    · obtain ⟨node, expected, held, bound, given, same, live⟩ := value _ _ _ routed
      refine ⟨expected, given, node, held, bound, Value.compareBy_of_same same, ?_⟩
      rwa [if_neg edge']
  | propertyCmp var prop op operand =>
    have shaped := checked _ rfl
    simp only [ConjunctShape.Checked] at shaped
    simp only [CompiledMatch.Routes] at routed
    split_ifs at routed shaped with edge'
    · obtain ⟨node, held, bound, compares, live⟩ :=
        Snapshot.meets_of_passesEdgeAnnotation (edge _ routed)
      have literal : operand.operand request.params = some operand.toCoreValue := by
        cases operand with
        | param =>
          -- Nothing but equality holds of the value that stands in for a parameter.
          have equal : op = .eq := by
            cases held <;> simp_all [Value.compareBy, CypherValue.toCoreValue]
          exact absurd ⟨equal, rfl⟩ shaped
        | _ => rfl
      refine ⟨_, literal, node, held, bound, compares, ?_⟩
      rwa [if_pos edge']
    · obtain ⟨node, expected, held, bound, given, same, live⟩ := value _ _ _ (routed shaped)
      subst shaped
      refine ⟨expected, given, node, held, bound, Value.compareBy_of_same same, ?_⟩
      rwa [if_neg edge']
  | contains var prop needle =>
    have shaped : query.relationshipVars.contains var = false := checked _ rfl
    obtain ⟨node, held, bound, matches_, live⟩ := Snapshot.meets_of_passesText intact (text _ routed)
    refine ⟨node, held, bound, matches_, ?_⟩
    rwa [if_neg (by rw [shaped]; exact Bool.false_ne_true)]
  | startsWith var prop start =>
    have shaped : query.relationshipVars.contains var = false := checked _ rfl
    obtain ⟨node, held, bound, matches_, live⟩ := Snapshot.meets_of_passesText intact (text _ routed)
    refine ⟨node, held, bound, matches_, ?_⟩
    rwa [if_neg (by rw [shaped]; exact Bool.false_ne_true)]
  | vectorNear | regex => trivial

/-- The JSON text of the value that stands for none. -/
def nullJson : Bytes := utf8 "\x7b\"type\":\"Null\"\x7d"

/-- The JSON text of one string. -/
def agoJson : Bytes := utf8 "\x7b\"type\":\"Text\",\"v\":\"long ago\"\x7d"

/-- Third-party code that writes and reads these two texts. -/
def twoTexts : External where
  xxh3_128 _ := 0
  parseUuid _ := none
  jsonToVec value := if value = .null then .ok nullJson
    else if value = .text "long ago" then .ok agoJson else .error "unreached"
  jsonFromSlice bytes := if bytes = nullJson then .ok .null
    else if bytes = agoJson then .ok (.text "long ago") else .error "unreached"

/-- A store to which some triples were written. -/
def storing (triples : List Triple) : TripleStore :=
  (TripleStore.create.commit twoTexts { TripleStore.create.begin with
    writes := triples.map fun triple => ⟨triple, GraphId.DEFAULT, .auto⟩ } (Timestamp.wrap 5)).1

/-- The latest snapshot of a store. -/
def reading (store : TripleStore) : Snapshot where
  store := store
  point := ⟨Timestamp.wrap 5, none, none⟩
  now := Timestamp.wrap 6
  prefixes _ := none

/-- A request with a value for one parameter. -/
def asking : CypherQueryRequest where
  cypher := ""
  params := [("p", .int 5)]
  graphs := []
  asOfTxTime := Timestamp.zero
  asOfValidTime := Timestamp.zero
  excludeInferred := false
  hasVector := false
  userId := ""
  txId := ""

/-- A query for what matches a path and a condition. -/
def matching (path : CypherPath) (clause : WhereClause) : CypherQuery where
  callClause := none
  matchPatterns := [path]
  whereClauses := [clause]
  returnItems := []
  limit := none
  orderBy := []
  skip := none
  withFilters := []
  graph := none

/-- The path of one labelled node. -/
def labelled : CypherPath := ⟨⟨some "n", some "Person", []⟩, []⟩

/-- The path of one relationship. -/
def acquaintance : CypherPath :=
  ⟨⟨some "a", none, []⟩, [⟨⟨some "r", "knows", false, none⟩, .out, ⟨some "b", none, []⟩⟩]⟩

/-- A store with one node of a type. -/
def onePerson : TripleStore :=
  storing [.relation (NodeId.ofByte 1) RDF_TYPE
    (iriToNodeId twoTexts (Vocabulary.default.expand (fun _ => none) "Person"))
    ⟨(NodeId.ofByte 9).uuid⟩ ⟨Timestamp.zero, Timestamp.END_OF_TIME, Timestamp.zero⟩]

/-- A store with one relationship, whose edge has an annotation without a value. -/
def nullSince : TripleStore :=
  storing [.relation (NodeId.ofByte 1) "knows" (NodeId.ofByte 2) ⟨(NodeId.ofByte 3).uuid⟩
      ⟨Timestamp.zero, Timestamp.END_OF_TIME, Timestamp.zero⟩,
    .edgeProperty ⟨(NodeId.ofByte 3).uuid⟩ "since" .null
      ⟨Timestamp.zero, Timestamp.END_OF_TIME, Timestamp.zero⟩]

/-- A store with one relationship, and a text of the node that has the identifier of its edge. -/
def namesake : TripleStore :=
  storing [.relation (NodeId.ofByte 1) "knows" (NodeId.ofByte 2) ⟨(NodeId.ofByte 3).uuid⟩
      ⟨Timestamp.zero, Timestamp.END_OF_TIME, Timestamp.zero⟩,
    .property (NodeId.ofByte 3) "since" (.text "long ago")
      ⟨Timestamp.zero, Timestamp.END_OF_TIME, Timestamp.zero⟩]

/-- The rows that a query over a store runs to, if it does. -/
def CypherQuery.outcome (query : CypherQuery) (store : TripleStore) : Option (List Bindings) := do
  let compiled ← ((query.compileWithVocabulary twoTexts store.vocabulary
    (fun _ => none)).substituteParams asking.params).toOption
  let found ← (QueryServer.answering store).cypherMatch twoTexts asking none compiled (reading store)
  let rows ← found.toOption
  ((reading store).applyFilters twoTexts (fun _ _ => false) compiled rows).toOption

/-- A query with an outcome runs to it. -/
theorem runsTo_of_outcome {query : CypherQuery} {store : TripleStore} {left : List Bindings}
    (done : query.outcome store = some left) :
    query.RunsTo twoTexts (fun _ _ => false) (QueryServer.answering store) asking none (reading store)
      left := by
  have ok : ∀ {ε α : Type} {result : Except ε α} {value : α}, result.toOption = some value →
      result = .ok value := by
    intro ε α result value same
    cases result <;> cases same
    rfl
  obtain ⟨compiled, substituted, done⟩ := Option.bind_eq_some_iff.mp done
  obtain ⟨found, matched, done⟩ := Option.bind_eq_some_iff.mp done
  obtain ⟨rows, success, done⟩ := Option.bind_eq_some_iff.mp done
  refine ⟨compiled, rows, ok substituted, ?_, ok done⟩
  rw [← ok success]
  exact matched

/-- A store to which known texts were written is intact. -/
theorem storing_intact {triples : List Triple}
    (known : ∀ triple ∈ triples, ∀ subject predicate value temporal,
      triple = .property subject predicate value temporal → value = .null ∨ value = .text "long ago") :
    (storing triples).Intact twoTexts := by
  have created : TripleStore.create.Intact twoTexts :=
    TripleStore.intact_configured twoTexts DEFAULT_INLINE_VALUE_MAX_BYTES Vocabulary.default true
  refine created.commit nofun (fun w member => ?_) _
  obtain ⟨triple, inside, rfl⟩ := List.mem_map.mp member
  intro subject predicate value temporal same
  have apart : nullJson ≠ agoJson := by decide +kernel
  rcases known triple inside subject predicate value temporal same with rfl | rfl
  · intro json written
    have text : json = nullJson := (Except.ok.inj written).symm
    rw [text]
    exact if_pos rfl
  · intro json written
    have text : json = agoJson := (Except.ok.inj written).symm
    rw [text]
    simp [twoTexts, apart.symm]

/-- A row that fails a condition of a shape shows that not all rows satisfy theirs. -/
theorem not_rowsSatisfy {shapes : Set ConjunctShape} {shape : ConjunctShape} (among : shape ∈ shapes)
    {store : TripleStore} (intact : store.Intact twoTexts) (path : CypherPath) (clause : WhereClause)
    (shaped : clause.shape (matching path clause).relationshipVars = some shape) (row : Bindings)
    (fails : (matching path clause).outcome store = some [row] ∧
      ¬ (reading store).Satisfies twoTexts (matching path clause).relationshipVars asking.params
        row clause) : ¬ RowsSatisfy shapes := by
  intro all
  refine fails.2 (all _ _ _ _ _ _ _ _ intact (runsTo_of_outcome fails.1) ?_ row
    (List.mem_singleton_self _) clause (List.mem_singleton_self _))
  intro other member shape' same
  obtain rfl := List.mem_singleton.mp member
  rw [← Option.some.inj (shaped.symm.trans same)]
  exact among

/-- A comparison of a node's property other than for equality is not made. -/
theorem dropped_comparison {op : ComparisonOp} (other : op ≠ .eq) (value : CypherValue) :
    (matching labelled (.propertyCmp "n" "age" op value)).outcome onePerson =
        some [[("n", NodeId.ofByte 1)]] ∧
      ¬ (reading onePerson).Satisfies twoTexts
        (matching labelled (.propertyCmp "n" "age" op value)).relationshipVars asking.params
        [("n", NodeId.ofByte 1)] (.propertyCmp "n" "age" op value) := by
  constructor
  · -- Nothing is compiled of the comparison, so the query is the same whatever it is.
    have plain : (matching labelled (.propertyCmp "n" "age" op value)).compileWithVocabulary twoTexts
        onePerson.vocabulary (fun _ => none) =
          (matching labelled (.propertyCmp "n" "age" .gt (.int 30))).compileWithVocabulary twoTexts
            onePerson.vocabulary (fun _ => none) := by
      cases op with
      | eq => exact absurd rfl other
      | _ => rfl
    have same : (matching labelled (.propertyCmp "n" "age" op value)).outcome onePerson =
        (matching labelled (.propertyCmp "n" "age" .gt (.int 30))).outcome onePerson := by
      unfold CypherQuery.outcome
      rw [plain]
    rw [same]
    decide +kernel
  · -- Nothing has the property.
    rintro ⟨expected, _, node, held, bound, _, ids, predicate, window, wanted, _⟩
    have unknown : onePerson.predicateId
        (onePerson.vocabulary.resolveName (fun _ => none) "age") = none := by
      decide +kernel
    have known := wanted.predicate _ rfl
    cases unknown.symm.trans known

/-- The row of the one relationship. -/
def acquaintanceRow : Bindings :=
  [("r", NodeId.ofByte 3), ("b", NodeId.ofByte 2), ("a", NodeId.ofByte 1)]

/-- What was decoded is no property but the null value. -/
def isNull : Except StorageError DecodedValue → Bool
  | .ok (.property value _) => decide (value = .null)
  | _ => true

/-- A relationship's property is not compared with the value of a parameter. -/
theorem unsubstituted_parameter :
    (matching acquaintance (.propertyEq "r" "since" (.param "p"))).outcome nullSince =
        some [acquaintanceRow] ∧
      ¬ (reading nullSince).Satisfies twoTexts
        (matching acquaintance (.propertyEq "r" "since" (.param "p"))).relationshipVars asking.params
        acquaintanceRow (.propertyEq "r" "since" (.param "p")) := by
  constructor
  · decide +kernel
  · rintro ⟨expected, given, node, held, _, compares, entry, member, _, _, _, _, window, content⟩
    -- The only annotation has no value, and the parameter has one.
    have nulls : ((nullSince.db.family .epa).entries.all fun entry =>
        isNull (decodeValue twoTexts entry.2)) = true := by
      decide +kernel
    have null := List.all_eq_true.mp nulls entry (SortedMap.mem_scanPrefix.mp member).1
    rw [content] at null
    rw [of_decide_eq_true null] at compares
    cases given
    cases compares

/-- A text of a relationship is looked for at the node that has the identifier of its edge. -/
theorem namesake_text (clause : WhereClause)
    (asks : clause = .contains "r" "since" "long" ∨ clause = .startsWith "r" "since" "long") :
    (matching acquaintance clause).outcome namesake = some [acquaintanceRow] ∧
      ¬ (reading namesake).Satisfies twoTexts (matching acquaintance clause).relationshipVars
        asking.params acquaintanceRow clause := by
  -- The edge has no annotation at all.
  have none : (namesake.db.family .epa).entries.isEmpty = true := by decide +kernel
  have nothing : ∀ {start : Bytes}, ∀ entry ∈ (namesake.db.family .epa).scanPrefix start, False := by
    intro start entry member
    have stored := (SortedMap.mem_scanPrefix.mp member).1
    rw [List.isEmpty_iff.mp none] at stored
    cases stored
  rcases asks with rfl | rfl
  · refine ⟨by decide +kernel, ?_⟩
    rintro ⟨node, held, _, _, entry, member, _⟩
    exact nothing entry member
  · refine ⟨by decide +kernel, ?_⟩
    rintro ⟨node, held, _, _, entry, member, _⟩
    exact nothing entry member

/--
Every row satisfies all conditions of some shapes exactly when every shape is checked: a node's
property is compared for equality or as a text, and one of a relationship with a literal, or not for
equality.
-/
theorem rowsSatisfy_iff (shapes : Set ConjunctShape) :
    RowsSatisfy shapes ↔ ∀ shape ∈ shapes, shape.Checked := by
  constructor
  · intro all shape among
    by_contra unchecked
    obtain ⟨relationship, operator⟩ := shape
    have ago : namesake.Intact twoTexts := by
      refine storing_intact fun triple member subject predicate value temporal same => ?_
      simp only [List.mem_cons, List.not_mem_nil, or_false] at member
      rcases member with rfl | rfl
      · cases same
      · exact Or.inr (Triple.property.inj same).2.2.1.symm
    cases operator with
    | compares op parameter =>
      simp only [ConjunctShape.Checked] at unchecked
      split_ifs at unchecked with edge
      · -- The value that stands in for a parameter is found instead of the parameter's value.
        obtain ⟨rfl, rfl⟩ := not_not.mp unchecked
        subst edge
        have intact : nullSince.Intact twoTexts := by
          refine storing_intact fun triple member subject predicate value temporal same => ?_
          simp only [List.mem_cons, List.not_mem_nil, or_false] at member
          rcases member with rfl | rfl <;> cases same
        exact not_rowsSatisfy among intact acquaintance (.propertyEq "r" "since" (.param "p")) rfl _
          unsubstituted_parameter all
      · have node : relationship = false := by simpa using edge
        subst node
        have intact : onePerson.Intact twoTexts := by
          refine storing_intact fun triple member subject predicate value temporal same => ?_
          rw [List.mem_singleton.mp member] at same
          cases same
        exact not_rowsSatisfy among intact labelled
          (.propertyCmp "n" "age" op (if parameter then .param "p" else .int 30))
          (by cases parameter <;> rfl) _ (dropped_comparison unchecked _) all
    | contains =>
      have edge : relationship = true := by simpa [ConjunctShape.Checked] using unchecked
      subst edge
      exact not_rowsSatisfy among ago acquaintance (.contains "r" "since" "long") rfl _
        (namesake_text _ (Or.inl rfl)) all
    | startsWith =>
      have edge : relationship = true := by simpa [ConjunctShape.Checked] using unchecked
      subst edge
      exact not_rowsSatisfy among ago acquaintance (.startsWith "r" "since" "long") rfl _
        (namesake_text _ (Or.inr rfl)) all
  · intro checked ext matchesRegex server request access snapshot query left intact runs shaped row
      member clause inside
    exact satisfies_of_checked intact runs member inside fun shape own =>
      checked shape (shaped clause inside shape own)

/-- A person without an age is among the rows of the persons older than thirty. -/
theorem comparison_ignored :
    (matching labelled (.propertyCmp "n" "age" .gt (.int 30))).RunsTo twoTexts (fun _ _ => false)
      (QueryServer.answering onePerson) asking none (reading onePerson)
      [[("n", NodeId.ofByte 1)]] ∧
    ¬ (reading onePerson).Satisfies twoTexts [] asking.params [("n", NodeId.ofByte 1)]
      (.propertyCmp "n" "age" .gt (.int 30)) := by
  have dropped := @dropped_comparison .gt (by decide) (.int 30)
  exact ⟨runsTo_of_outcome dropped.1, dropped.2⟩

end Cypher

end Polargraph
