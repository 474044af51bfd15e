import Polargraph.Proofs.Shacl.Data

/-! Which nodes denote paths that are supported, and from which of them parsing a path ends. -/

namespace Polargraph

namespace Shacl

open Fuelled

namespace DataView

variable (ext : External) (view : DataView)

/-- A node is a list, and so denotes a sequence. -/
abbrev IsSequence (n : NodeId) : Prop := (Latest.lookup RDF_FIRST (view.properties ext n)).isSome

/-- A node denotes the inverse of the path of another. -/
def Inverts (n inner : NodeId) : Prop :=
  ¬ view.IsSequence ext n ∧
    (Latest.lookup (sh "inversePath") (view.properties ext n)).bind List.head? = some (.node inner)

/-- A node denotes a path by predicates, inverses and sequences. -/
inductive Supported : NodeId → Prop
  /-- A predicate. -/
  | predicate {n : NodeId} (other : ¬ view.IsSequence ext n) (plain : ∀ inner, ¬ view.Inverts ext n inner)
      (known : ∀ term ∈ UNSUPPORTED_PATHS,
        (Latest.lookup (sh term) (view.properties ext n)).isSome = false) : Supported n
  /-- The inverse of a path. -/
  | inverse {n inner : NodeId} (inverts : view.Inverts ext n inner) (of : Supported inner) :
      Supported n
  /-- A sequence of paths. -/
  | sequence {n : NodeId} {items : List Obj} (list : view.IsSequence ext n)
      (members : view.list ext n = some items) (nodes : ∀ item ∈ items, item.asNode.isSome)
      (all : ∀ step, .node step ∈ items → Supported step) : Supported n

/-- A path node leads to one that it is made of, behind members that denote supported paths. -/
inductive PathStep : NodeId → NodeId → Prop
  /-- An inverse leads to what it inverts. -/
  | inner {n inner : NodeId} (inverts : view.Inverts ext n inner) : PathStep n inner
  /-- A sequence leads to its members, as far as those before are supported. -/
  | member {n step : NodeId} {front back : List Obj} (list : view.IsSequence ext n)
      (members : view.list ext n = some (front ++ .node step :: back))
      (early : ∀ item ∈ front, ∃ m, item = .node m ∧ view.Supported ext m) : PathStep n step

/-- No infinite chain of path nodes starts at a node. -/
def PathEnds (n : NodeId) : Prop := Acc (fun step n => view.PathStep ext n step) n

variable {ext view} {id : NodeId}

/-- What parsing a member of a sequence does. -/
def memberBody (view : DataView) (id : NodeId)
    (again : NodeId → Fuelled ShapeError Path) : Obj → Fuelled ShapeError Path
  | .node step => again step
  | .lit _ => throw (view.invalid id "sequence path steps must be IRIs")

/-- Parsing a sequence parses its members. -/
theorem pathBody_sequence {n : NodeId} (list : view.IsSequence ext n)
    (again : NodeId → Fuelled ShapeError Path) : view.pathBody ext id again n = (do
      let items ← ofOption (view.list ext n)
      let steps ← items.mapM (memberBody view id again)
      return .sequence steps) := by
  unfold pathBody
  dsimp only
  rw [if_pos list]
  rfl

/-- Parsing an inverse parses what it inverts. -/
theorem pathBody_inverse {n inner : NodeId} (inverts : view.Inverts ext n inner)
    (again : NodeId → Fuelled ShapeError Path) : view.pathBody ext id again n = (do
      return .inverse (← again inner)) := by
  unfold pathBody
  dsimp only
  rw [if_neg inverts.1, inverts.2]

/-- Parsing any other node does not go on. -/
theorem pathBody_other {n : NodeId} (other : ¬ view.IsSequence ext n)
    (plain : ∀ inner, ¬ view.Inverts ext n inner) (again : NodeId → Fuelled ShapeError Path) :
    view.pathBody ext id again n =
      match UNSUPPORTED_PATHS.find? fun term =>
        (Latest.lookup (sh term) (view.properties ext n)).isSome with
      | some term => throw (view.invalid id ("sh:" ++ term ++ " is not supported"))
      | none => pure (.predicate (view.iri n)) := by
  unfold pathBody
  dsimp only
  rw [if_neg other]
  split
  · rename_i inner found
    exact absurd ⟨other, found⟩ (plain inner)
  · rfl

/-- A node is a sequence, an inverse or neither. -/
theorem path_cases (ext : External) (view : DataView) (n : NodeId) : view.IsSequence ext n ∨
    (∃ inner, view.Inverts ext n inner) ∨
      (¬ view.IsSequence ext n ∧ ∀ inner, ¬ view.Inverts ext n inner) := by
  by_cases list : view.IsSequence ext n
  · exact Or.inl list
  · by_cases inverts : ∃ inner, view.Inverts ext n inner
    · exact Or.inr (Or.inl inverts)
    · exact Or.inr (Or.inr ⟨list, fun inner same => inverts ⟨inner, same⟩⟩)

/-- Parsing a path does no less when parsing what it is made of does no less. -/
theorem pathBody_mono (f g : NodeId → Fuelled ShapeError Path) (below : ∀ n, Below (f n) (g n))
    (n : NodeId) : Below (view.pathBody ext id f n) (view.pathBody ext id g n) := by
  rcases path_cases ext view n with list | ⟨inner, inverts⟩ | ⟨other, plain⟩
  · rw [pathBody_sequence list, pathBody_sequence list]
    refine (Below.refl _).bind fun items => (Below.mapM fun item _ => ?_).bind fun _ => .refl _
    cases item with
    | node step => exact below step
    | lit value => exact .refl _
  · rw [pathBody_inverse inverts, pathBody_inverse inverts]
    exact (below inner).bind fun _ => .refl _
  · rw [pathBody_other other plain, pathBody_other other plain]
    exact .refl _

/-- Parsing a path to a greater depth ends alike. -/
theorem parsePath_mono {fuel more : Nat} (least : fuel ≤ more) (n : NodeId) :
    Below (view.parsePath ext id fuel n) (view.parsePath ext id more n) :=
  iterate_mono pathBody_mono least n

/-- A node whose path is parsed is supported. -/
theorem supported_of_returns {fuel : Nat} {n : NodeId} {path : Path}
    (returns : (view.parsePath ext id fuel n).Returns path) : view.Supported ext n := by
  induction fuel generalizing n path with
  | zero => cases returns
  | succ fuel ih =>
    change (view.pathBody ext id (view.parsePath ext id fuel) n).Returns path at returns
    rcases path_cases ext view n with list | ⟨inner, inverts⟩ | ⟨other, plain⟩
    · rw [pathBody_sequence list] at returns
      obtain ⟨items, read, more⟩ := returns_bind.mp returns
      obtain ⟨steps, parsed, _⟩ := returns_bind.mp more
      have each := exists_returns_mapM.mp ⟨steps, parsed⟩
      have known : ∀ item ∈ items, ∃ m, item = .node m ∧ view.Supported ext m := by
        intro item member
        obtain ⟨step, done⟩ := each item member
        cases item with
        | node m => exact ⟨m, rfl, ih done⟩
        | lit value => cases done
      refine .sequence list (returns_ofOption.mp read) (fun item member => ?_) fun step member => ?_
      · obtain ⟨m, rfl, _⟩ := known item member
        rfl
      · obtain ⟨m, same, supported⟩ := known _ member
        cases same
        exact supported
    · rw [pathBody_inverse inverts] at returns
      obtain ⟨_, done, _⟩ := returns_bind.mp returns
      exact .inverse inverts (ih done)
    · rw [pathBody_other other plain] at returns
      split at returns
      · cases returns
      · rename_i absent
        refine .predicate other plain fun term member => ?_
        simpa using List.find?_eq_none.mp absent term member

/-- Where parsing a supported path ends, it returns a path. -/
theorem Supported.returns_of_ends {n : NodeId} (supported : view.Supported ext n) {fuel : Nat}
    (ended : (view.parsePath ext id fuel n).Ends) :
    ∃ path, (view.parsePath ext id fuel n).Returns path := by
  induction supported generalizing fuel with
  | predicate other plain known =>
    cases fuel with
    | zero =>
      obtain ⟨outcome, run⟩ := ended
      cases run
    | succ fuel =>
      change ∃ path, (view.pathBody ext id (view.parsePath ext id fuel) _).Returns path
      rw [pathBody_other other plain, List.find?_eq_none.mpr fun term member => by
        rw [known term member]; exact Bool.false_ne_true]
      exact ⟨_, returns_pure.mpr rfl⟩
  | inverse inverts of ih =>
    cases fuel with
    | zero =>
      obtain ⟨outcome, run⟩ := ended
      cases run
    | succ fuel =>
      change (view.pathBody ext id (view.parsePath ext id fuel) _).Ends at ended
      change ∃ path, (view.pathBody ext id (view.parsePath ext id fuel) _).Returns path
      rw [pathBody_inverse inverts] at ended ⊢
      obtain ⟨path, done⟩ := ih (ends_bind.mp ended).1
      exact ⟨_, returns_bind.mpr ⟨path, done, returns_pure.mpr rfl⟩⟩
  | @sequence n items list members nodes all ih =>
    cases fuel with
    | zero =>
      obtain ⟨outcome, run⟩ := ended
      cases run
    | succ fuel =>
      change (view.pathBody ext id (view.parsePath ext id fuel) _).Ends at ended
      change ∃ path, (view.pathBody ext id (view.parsePath ext id fuel) _).Returns path
      rw [pathBody_sequence list] at ended ⊢
      have read := returns_ofOption (ε := ShapeError).mpr members
      have loop := (ends_bind.mp ((ends_bind.mp ended).2 items read)).1
      -- Every member returns: it ends since those before it do, and it is supported.
      have each : ∀ item ∈ items, (memberBody view id (view.parsePath ext id fuel) item).Ends →
          ∃ path, (memberBody view id (view.parsePath ext id fuel) item).Returns path := by
        intro item member ends
        obtain ⟨step, node⟩ := Option.isSome_iff_exists.mp (nodes item member)
        cases item with
        | node m => exact ih m member ends
        | lit value => cases node
      obtain ⟨steps, done⟩ := exists_returns_mapM.mpr fun item member => by
        obtain ⟨front, back, split⟩ := List.append_of_mem member
        refine each item member (ends_of_mapM (split ▸ loop) fun other early => ?_)
        exact each other (by rw [split]; exact List.mem_append_left _ early)
      exact ⟨_, returns_bind.mpr ⟨items, read, returns_bind.mpr ⟨steps, done,
        returns_pure.mpr rfl⟩⟩⟩

/-- A path node leads to finitely many others. -/
theorem finite_pathStep (n : NodeId) :
    ∃ called : List NodeId, ∀ step, view.PathStep ext n step → step ∈ called := by
  obtain ⟨items, read⟩ := @exists_list ext view n
  refine ⟨items.filterMap Obj.asNode ++ (((Latest.lookup (sh "inversePath")
    (view.properties ext n)).bind List.head?).bind Obj.asNode).toList, fun step leads => ?_⟩
  rw [List.mem_append]
  cases leads with
  | inner inverts =>
    right
    rw [inverts.2]
    exact List.mem_singleton_self _
  | member list members early =>
    left
    rw [read] at members
    obtain rfl := Option.some.inj members
    exact List.mem_filterMap.mpr ⟨_, List.mem_append_right _ List.mem_cons_self, rfl⟩

/-- Parsing a path ends exactly where no infinite chain of path nodes starts. -/
theorem parsePath_ends_iff {n : NodeId} :
    (∃ fuel, (view.parsePath ext id fuel n).Ends) ↔ view.PathEnds ext n := by
  constructor
  · rintro ⟨fuel, ended⟩
    refine acc_of_ends (fun fuel n ended step leads => ?_) ended
    cases leads with
    | inner inverts =>
      rw [pathBody_inverse inverts] at ended
      exact (ends_bind.mp ended).1
    | member list members early =>
      rw [pathBody_sequence list] at ended
      have loop := (ends_bind.mp ((ends_bind.mp ended).2 _ (returns_ofOption.mpr members))).1
      have reached := @ends_of_mapM _ _ _ _ _ _ (Obj.node step) loop
      refine reached fun other inside ends => ?_
      obtain ⟨m, rfl, supported⟩ := early other inside
      exact supported.returns_of_ends ends
  · refine ends_of_acc pathBody_mono finite_pathStep fun fuel n each => ?_
    rcases path_cases ext view n with list | ⟨inner, inverts⟩ | ⟨other, plain⟩
    · rw [pathBody_sequence list]
      obtain ⟨items, read⟩ := @exists_list ext view n
      refine ends_bind.mpr ⟨ends_ofOption read, fun items' read' => ?_⟩
      obtain rfl : items' = items := Option.some.inj ((returns_ofOption.mp read').symm.trans read)
      refine ends_bind.mpr ⟨ends_mapM.mpr fun front item back split returned => ?_,
        fun _ _ => ends_pure _⟩
      -- A member is parsed only after those before it were, which are thus supported.
      cases item with
      | lit value => exact ends_throw _
      | node step =>
        refine each step (.member list (split ▸ read) fun other inside => ?_)
        obtain ⟨path, done⟩ := returned other inside
        cases other with
        | node m => exact ⟨m, rfl, @supported_of_returns ext view id fuel m path done⟩
        | lit value => cases done
    · rw [pathBody_inverse inverts]
      exact ends_bind.mpr ⟨each inner (.inner inverts), fun _ _ => ends_pure _⟩
    · rw [pathBody_other other plain]
      split
      · exact ends_throw _
      · exact ends_pure _

end DataView

end Shacl

end Polargraph
