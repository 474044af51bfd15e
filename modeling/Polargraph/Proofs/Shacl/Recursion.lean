import Polargraph.Proofs.Shacl.Load
import Polargraph.Shacl.Validate

/-! From which shapes the data is validated after finitely many steps. -/

namespace Polargraph

namespace Shacl

open Fuelled Relation

section External

variable (ext : External) (lib : Library) (data : DataView) (shapes : Shapes)

/-- A shape that is evaluated has another one as its property shape. -/
def PropertyStep (shape next : Shape) : Prop :=
  shape.deactivated = false ∧ ∃ p ∈ shape.properties, Latest.lookup p shapes = some next

/-- Evaluating a shape at a focus node may evaluate another. -/
inductive Config.Calls : Config → Config → Prop
  /-- A property shape, at the same focus node. -/
  | property {stack : List (NodeId × NodeId)} {shape next : Shape} {focus : Obj}
      (step : PropertyStep shapes shape next) : Calls ⟨stack, shape, focus⟩ ⟨stack, next, focus⟩
  /-- A shape that a value must conform to, unless it is being evaluated there. -/
  | node {stack : List (NodeId × NodeId)} {shape next : Shape} {focus v : Obj} {values : List Obj}
      {id : NodeId} (active : shape.deactivated = false)
      (found : shapeValues ext data shape focus = .ok values) (member : v ∈ values)
      (required : .node id ∈ shape.constraints) (named : Latest.lookup id shapes = some next)
      (new : (id, v.key ext) ∉ stack) :
      Calls ⟨stack, shape, focus⟩ ⟨stack ++ [(id, v.key ext)], next, v⟩

/-- A validation evaluates a shape with a target at one of its focus nodes. -/
def Starts (focus : Option (List NodeId)) (config : Config) : Prop :=
  config.stack = [] ∧ config.shape ∈ shapesInOrder shapes ∧ config.shape.deactivated = false ∧
    config.shape.targets ≠ [] ∧
    ∃ nodes, (focusNodes ext data focus config.shape).Returns nodes ∧ config.focus ∈ nodes

/-- No shape that a validation comes to evaluate is a property shape of itself, directly or not. -/
def PropertiesEnd (focus : Option (List NodeId)) : Prop :=
  ∀ start, Starts ext data shapes focus start →
    ∀ config, ReflTransGen (Config.Calls ext data shapes) start config →
      ¬ TransGen (PropertyStep shapes) config.shape config.shape

/-- The path of every shape can be evaluated: it inverts nothing but predicates. -/
def Evaluable : Prop :=
  ∀ entry ∈ shapes, ∀ focus, ∃ values, shapeValues ext data entry.2 focus = .ok values

variable {ext lib data shapes}

/-- Whether a value conforms is not told with less when evaluating shapes does no less. -/
theorem conformsBody_mono {f g : Config → Fuelled ShapeError (List ValidationResult)}
    (below : ∀ config, Below (f config) (g config)) (stack : List (NodeId × NodeId)) (id : NodeId)
    (v : Obj) : Below (conformsBody ext shapes f stack id v) (conformsBody ext shapes g stack id v) := by
  unfold conformsBody
  split
  · exact .refl _
  · split_ifs
    · exact .refl _
    · exact (below _).bind fun _ => .refl _

/-- Checking a value does no less when telling whether values conform does no less. -/
theorem checkValue_mono {f g : NodeId → Obj → Fuelled ShapeError Bool}
    (below : ∀ id v, Below (f id v) (g id v)) (c : Constraint) (v : Obj) :
    Below (checkValue ext lib data f c v) (checkValue ext lib data g c v) := by
  cases c with
  | node id => exact (below id v).bind fun _ => .refl _
  | _ => exact .refl _

/-- The constraints of a shape do no less when telling whether values conform does no less. -/
theorem constraintResults_mono {f g : NodeId → Obj → Fuelled ShapeError Bool}
    (below : ∀ id v, Below (f id v) (g id v)) (shape : Shape) (focus : Obj) (values : List Obj)
    (c : Constraint) : Below (constraintResults ext lib data f shape focus values c)
      (constraintResults ext lib data g shape focus values c) := by
  have loop : ∀ c : Constraint, Below
      (values.mapM fun v => do
        return (← checkValue ext lib data f c v).map (resultOf shape focus c (some v)))
      (values.mapM fun v => do
        return (← checkValue ext lib data g c v).map (resultOf shape focus c (some v))) :=
    fun c => Below.mapM fun v _ => (checkValue_mono below c v).bind fun _ => .refl _
  cases c with
  | minCount | maxCount | closed => exact .refl _
  | _ => exact (loop _).bind fun _ => .refl _

/-- Evaluating a shape does no less when evaluating those it refers to does no less. -/
theorem validateBody_mono (f g : Config → Fuelled ShapeError (List ValidationResult))
    (below : ∀ config, Below (f config) (g config)) (config : Config) :
    Below (validateBody ext lib data shapes f config) (validateBody ext lib data shapes g config) := by
  unfold validateBody
  split_ifs
  · exact .refl _
  · refine (Below.refl _).bind fun values => (Below.mapM fun c _ => ?_).bind fun results =>
      (Below.mapM fun p _ => ?_).bind fun _ => .refl _
    · exact constraintResults_mono (conformsBody_mono below config.stack) _ _ values c
    · split
      · exact below _
      · exact .refl _

/-- A name that is looked up is listed with what it names. -/
theorem mem_of_lookup {id : NodeId} {shape : Shape} (found : Latest.lookup id shapes = some shape) :
    (id, shape) ∈ shapes := by
  induction shapes with
  | nil => cases found
  | cons first rest ih =>
    obtain ⟨other, held⟩ := first
    by_cases same : other = id
    · subst same
      rw [Latest.lookup, if_pos rfl] at found
      cases found
      exact List.mem_cons_self
    · rw [Latest.lookup, if_neg same] at found
      exact List.mem_cons_of_mem _ (ih found)

/-- Telling whether an object is an instance of a class does not fail, and ends. -/
theorem returns_isInstance (c : NodeId) (v : Obj) :
    ∃ truth, (isInstance ext data c v).Returns truth := by
  cases v with
  | lit value => exact ⟨false, returns_pure.mpr rfl⟩
  | node n =>
    obtain ⟨classes, found⟩ := @DataView.exists_types ext data n
    exact ⟨_, returns_bind.mpr ⟨classes, returns_ofOption.mpr found, returns_pure.mpr rfl⟩⟩

/-- Checking a value ends where telling whether it conforms to a shape it must conform to does. -/
theorem ends_checkValue {f : NodeId → Obj → Fuelled ShapeError Bool} {c : Constraint} {v : Obj}
    (each : ∀ id, c = .node id → (f id v).Ends) : (checkValue ext lib data f c v).Ends := by
  cases c with
  | node id => exact ends_bind.mpr ⟨each id rfl, fun _ _ => ends_pure _⟩
  | «class» c =>
    obtain ⟨truth, done⟩ := @returns_isInstance ext data c v
    exact ends_bind.mpr ⟨done.ends, fun _ _ => ends_pure _⟩
  | _ => exact ends_pure _

/-- Checking a value does not fail where telling whether it conforms does not. -/
theorem safe_checkValue {f : NodeId → Obj → Fuelled ShapeError Bool} {c : Constraint} {v : Obj}
    (each : ∀ id, (f id v).Safe) : (checkValue ext lib data f c v).Safe := by
  cases c with
  | node id => exact (each id).bind fun _ _ => safe_pure _
  | «class» c => exact Safe.bind (fun _ => returns_isInstance c v) fun _ _ => safe_pure _
  | _ => exact safe_pure _

/-- Telling whether a value conforms does not fail where evaluating shapes does not. -/
theorem safe_conformsBody {f : Config → Fuelled ShapeError (List ValidationResult)}
    (each : ∀ id shape, (id, shape) ∈ shapes → ∀ stack v, (f ⟨stack, shape, v⟩).Safe)
    (stack : List (NodeId × NodeId)) (id : NodeId) (v : Obj) :
    (conformsBody ext shapes f stack id v).Safe := by
  unfold conformsBody
  split
  · exact safe_pure _
  · rename_i shape found
    split_ifs
    · exact safe_pure _
    · exact (each id shape (mem_of_lookup found) _ v).bind fun _ _ => safe_pure _

/-- The results of a constraint that is on each value come from checking the values. -/
theorem constraintResults_node {f : NodeId → Obj → Fuelled ShapeError Bool} (shape : Shape)
    (focus : Obj) (values : List Obj) (id : NodeId) :
    constraintResults ext lib data f shape focus values (.node id) = (do
      let details ← values.mapM fun v => do
        return (← checkValue ext lib data f (.node id) v).map
          (resultOf shape focus (.node id) (some v))
      return details.filterMap (fun result => result)) := rfl

/-- The results of a constraint are found where checking the values ends. -/
theorem ends_constraintResults {f : NodeId → Obj → Fuelled ShapeError Bool} {shape : Shape}
    {focus : Obj} {values : List Obj} {c : Constraint}
    (each : ∀ id, c = .node id → ∀ v ∈ values, (f id v).Ends) :
    (constraintResults ext lib data f shape focus values c).Ends := by
  have loop : (values.mapM fun v => do
      return (← checkValue ext lib data f c v).map (resultOf shape focus c (some v))).Ends := by
    refine ends_mapM.mpr fun front v back split _ => ends_bind.mpr ⟨?_, fun _ _ => ends_pure _⟩
    exact ends_checkValue fun id same => each id same v (by simp [split])
  cases c with
  | minCount | maxCount | closed => exact ends_pure _
  | _ => exact ends_bind.mpr ⟨loop, fun _ _ => ends_pure _⟩

/-- The results of a constraint are found without failure where telling what conforms does not fail. -/
theorem safe_constraintResults {f : NodeId → Obj → Fuelled ShapeError Bool}
    (each : ∀ id v, (f id v).Safe) (shape : Shape) (focus : Obj) (values : List Obj) (c : Constraint) :
    (constraintResults ext lib data f shape focus values c).Safe := by
  have loop : (values.mapM fun v => do
      return (← checkValue ext lib data f c v).map (resultOf shape focus c (some v))).Safe :=
    Safe.mapM fun v _ => (safe_checkValue fun id => each id v).bind fun _ _ => safe_pure _
  cases c with
  | minCount | maxCount | closed => exact safe_pure _
  | _ => exact loop.bind fun _ _ => safe_pure _

/-- Evaluating a shape ends where evaluating those it calls does. -/
theorem ends_validateBody {f : Config → Fuelled ShapeError (List ValidationResult)} {config : Config}
    (each : ∀ next, config.Calls ext data shapes next → (f next).Ends) :
    (validateBody ext lib data shapes f config).Ends := by
  obtain ⟨stack, shape, focus⟩ := config
  unfold validateBody
  split_ifs with idle
  · exact ends_pure _
  · rw [Bool.not_eq_true] at idle
    refine ends_bind.mpr ⟨ends_ofExcept _, fun values found => ?_⟩
    refine ends_bind.mpr ⟨ends_mapM.mpr fun front c back split _ => ?_, fun _ _ =>
      ends_bind.mpr ⟨ends_mapM.mpr fun front p back split _ => ?_, fun _ _ => ends_pure _⟩⟩
    · refine ends_constraintResults fun id same v member => ?_
      unfold conformsBody
      split
      · exact ends_pure _
      · rename_i next named
        split_ifs with met
        · exact ends_pure _
        · refine ends_bind.mpr ⟨each _ (.node idle (returns_ofExcept.mp found) member ?_ named met),
            fun _ _ => ends_pure _⟩
          exact split ▸ same ▸ List.mem_append_right _ List.mem_cons_self
    · dsimp only
      split
      · rename_i next named
        exact each _ (.property ⟨idle, p, split ▸ List.mem_append_right _ List.mem_cons_self, named⟩)
      · exact ends_pure _

/-- Evaluating shapes with paths that can be evaluated does not fail. -/
theorem safe_validateShape (evaluable : Evaluable ext data shapes) {fuel : Nat} {config : Config}
    (listed : ∃ id, (id, config.shape) ∈ shapes) :
    (validateShape ext lib data shapes fuel config).Safe := by
  induction fuel generalizing config with
  | zero =>
    rintro ⟨outcome, run⟩
    cases run
  | succ fuel ih =>
    change (validateBody ext lib data shapes (validateShape ext lib data shapes fuel) config).Safe
    unfold validateBody
    split_ifs
    · exact safe_pure _
    · obtain ⟨id, member⟩ := listed
      obtain ⟨values, found⟩ := evaluable _ member config.focus
      refine Safe.bind (fun _ => ⟨values, returns_ofExcept.mpr found⟩) fun values _ => ?_
      have conforms := @safe_conformsBody ext shapes (validateShape ext lib data shapes fuel)
        fun id shape inside stack v => ih ⟨id, inside⟩
      refine (Safe.mapM fun c _ => safe_constraintResults (conforms config.stack) config.shape
        config.focus values c).bind fun _ _ => ?_
      refine (Safe.mapM fun p _ => ?_).bind fun _ _ => safe_pure _
      split
      · rename_i next named
        exact ih ⟨p, mem_of_lookup named⟩
      · exact safe_pure _

/-- Where evaluating a shape without failures ends, evaluating those it calls does. -/
theorem calls_end (evaluable : Evaluable ext data shapes) {fuel : Nat} {config next : Config}
    (listed : ∃ id, (id, config.shape) ∈ shapes)
    (ended : (validateShape ext lib data shapes (fuel + 1) config).Ends)
    (called : config.Calls ext data shapes next) :
    (validateShape ext lib data shapes fuel next).Ends := by
  change (validateBody ext lib data shapes (validateShape ext lib data shapes fuel) config).Ends
    at ended
  have conforms := @safe_conformsBody ext shapes (validateShape ext lib data shapes fuel)
    fun id shape inside stack v => safe_validateShape evaluable ⟨id, inside⟩
  have active : config.shape.deactivated = false := by
    cases called with
    | property step => exact step.1
    | node active => exact active
  obtain ⟨name, inside⟩ := listed
  obtain ⟨values, found⟩ := evaluable _ inside config.focus
  unfold validateBody at ended
  rw [if_neg (by simp [active])] at ended
  have loops := ends_bind.mp ((ends_bind.mp ended).2 values (returns_ofExcept.mpr found))
  have each : ∀ c, (constraintResults ext lib data (conformsBody ext shapes
      (validateShape ext lib data shapes fuel) config.stack) config.shape config.focus values c).Safe :=
    fun c => safe_constraintResults (conforms config.stack) _ _ _ c
  cases called with
  | property step =>
    obtain ⟨_, p, member, named⟩ := step
    obtain ⟨results, done⟩ := Safe.mapM (fun c _ => each c) loops.1
    obtain ⟨front, back, split⟩ := List.append_of_mem member
    have nested := (ends_bind.mp (loops.2 results done)).1
    rw [split] at nested
    have own := ends_of_mapM nested fun q _ ends => ?_
    · rw [named] at own
      exact own
    · revert ends
      dsimp only
      split
      · rename_i other called
        exact safe_validateShape evaluable ⟨q, mem_of_lookup called⟩
      · exact safe_pure _
  | @node stack shape next focus v values' id active found' member required named new =>
    obtain rfl : values = values' := Except.ok.inj (found.symm.trans found')
    obtain ⟨front, back, split⟩ := List.append_of_mem required
    have own := loops.1
    rw [split] at own
    have checked := ends_of_mapM own fun c _ => each c
    rw [constraintResults_node] at checked
    obtain ⟨before, after, parts⟩ := List.append_of_mem member
    have every := (ends_bind.mp checked).1
    rw [parts] at every
    have result := ends_of_mapM every fun other _ =>
      (safe_checkValue fun id => conforms stack id other).bind fun _ _ => safe_pure _
    have told := (ends_bind.mp (ends_bind.mp result).1).1
    unfold conformsBody at told
    rw [named] at told
    dsimp only at told
    rw [if_neg new] at told
    exact (ends_bind.mp told).1

/-- The subjects and the objects of the data, by their slots. -/
def keysOf (ext : External) (data : DataView) : List NodeId :=
  (data.triples ext).flatMap fun spo => [spo.1, spo.2.2.key ext]

section Keys

variable {keys : List NodeId} (within : ∀ key ∈ keysOf ext data, key ∈ keys)

include within

/-- A value of a predicate on a subject is an object of the data. -/
theorem key_of_objects {s : NodeId} {p : String} {o : Obj} (member : o ∈ data.objects ext s p) :
    o.key ext ∈ keys := by
  obtain ⟨spo, inside, _, rfl⟩ := DataView.mem_of_objects member
  exact within _ (List.mem_flatMap.mpr ⟨spo, inside, by simp⟩)

/-- A subject with a value of a predicate is a subject of the data. -/
theorem key_of_subjects {s : NodeId} {p : String} {o : Obj} (member : s ∈ data.subjects ext p o) :
    s ∈ keys := by
  obtain ⟨spo, inside, rfl, _⟩ := DataView.mem_of_subjects member
  exact within _ (List.mem_flatMap.mpr ⟨spo, inside, by simp⟩)

set_option linter.unusedSectionVars false in
mutual

/-- The values of a path are its focus node, or subjects and objects of the data. -/
theorem key_of_pathValues : (path : Path) → ∀ (focus : Obj) (values : List Obj),
    focus.key ext ∈ keys → pathValues ext data path focus = .ok values →
      ∀ v ∈ values, v.key ext ∈ keys
  | .predicate name => by
    intro focus values _ found v member
    cases focus with
    | lit value =>
      rw [pathValues] at found
      cases found
      cases member
    | node n =>
      rw [pathValues] at found
      cases found
      exact key_of_objects within member
  | .inverse (.predicate name) => by
    intro focus values _ found v member
    rw [pathValues] at found
    cases found
    obtain ⟨s, inside, rfl⟩ := List.mem_map.mp member
    exact key_of_subjects within inside
  | .inverse (.inverse _) => by
    intro focus values _ found
    rw [pathValues] at found
    cases found
  | .inverse (.sequence _) => by
    intro focus values _ found
    rw [pathValues] at found
    cases found
  | .sequence steps => by
    intro focus values start found
    rw [pathValues] at found
    refine key_of_stepValues steps [focus] values (fun o member => ?_) found
    rw [List.mem_singleton.mp member]
    exact start

/-- The values of some steps are where they start, or subjects and objects of the data. -/
theorem key_of_stepValues : (steps : List Path) → ∀ cur values : List Obj,
    (∀ o ∈ cur, o.key ext ∈ keys) → stepValues ext data steps cur = .ok values →
      ∀ v ∈ values, v.key ext ∈ keys
  | [] => by
    intro cur values start found
    rw [stepValues] at found
    cases found
    exact start
  | step :: rest => by
    intro cur values start found
    rw [stepValues] at found
    obtain ⟨lists, each, more⟩ := Except.bind_eq_ok.mp found
    refine key_of_stepValues rest _ values (fun o member => ?_) more
    obtain ⟨list, inside, held⟩ := List.mem_flatten.mp (Seen.mem_of_distinctBy member).1
    obtain ⟨focus, early, done⟩ := (Except.mem_of_mapM each).mp inside
    exact key_of_pathValues step focus list (start focus early) done o held

end

/-- The values of a shape are its focus node, or subjects and objects of the data. -/
theorem key_of_shapeValues {shape : Shape} {focus : Obj} {values : List Obj}
    (start : focus.key ext ∈ keys) (found : shapeValues ext data shape focus = .ok values) :
    ∀ v ∈ values, v.key ext ∈ keys := by
  intro v member
  unfold shapeValues at found
  split at found
  · rename_i path _
    obtain ⟨listed, done, rfl⟩ := Except.map_eq_ok.mp found
    exact key_of_pathValues within path focus listed start done v (Seen.mem_of_distinctBy member).1
  · cases found
    rw [List.mem_singleton.mp member]
    exact start

/-- Evaluating a shape calls only finitely many others after one another, unless a shape comes back
at the same focus node through property shapes. -/
theorem acc_calls {start : Config} (listed : ∃ id, (id, start.shape) ∈ shapes)
    (focus : start.focus.key ext ∈ keys)
    (acyclic : ∀ config, ReflTransGen (Config.Calls ext data shapes) start config →
      ¬ TransGen (PropertyStep shapes) config.shape config.shape) :
    Acc (fun next config => config.Calls ext data shapes next) start := by
  -- The outer induction is on the pairs that are not being evaluated, the inner one on property steps.
  induction left : (((shapes.map Prod.fst) ×ˢ keys).filter fun pair =>
      decide (pair ∉ start.stack)).length using Nat.strongRecOn generalizing start with
  | ind count ih =>
    obtain ⟨stack, shape, node⟩ := start
    have lift : ∀ {first next}, ReflTransGen (PropertyStep shapes) first next →
        ReflTransGen (Config.Calls ext data shapes) ⟨stack, first, node⟩ ⟨stack, next, node⟩ := by
      intro first next path
      induction path with
      | refl => exact .refl
      | tail _ step ih => exact ih.tail (.property step)
    have inner : Acc (fun next shape => PropertyStep shapes shape next) shape := by
      obtain ⟨id, member⟩ := listed
      have finite : ∀ a b, PropertyStep shapes a b → b ∈ shapes.map Prod.snd := by
        rintro a b ⟨_, p, _, named⟩
        exact List.mem_map.mpr ⟨_, mem_of_lookup named, rfl⟩
      exact acc_of_acyclic finite (List.mem_map.mpr ⟨_, member, rfl⟩)
        fun next path => acyclic _ (lift path)
    induction inner with
    | intro shape _ deeper =>
      refine ⟨_, fun next called => ?_⟩
      have onward : ∀ config, ReflTransGen (Config.Calls ext data shapes) next config →
          ¬ TransGen (PropertyStep shapes) config.shape config.shape :=
        fun config path => acyclic config (.head called path)
      cases called with
      | property step =>
        obtain ⟨active, p, member, named⟩ := step
        exact deeper _ ⟨active, p, member, named⟩ ⟨p, mem_of_lookup named⟩ focus onward left
      | @node _ _ next _ v values id active found member required named new =>
        have key := key_of_shapeValues within focus found v member
        refine ih _ ?_ ⟨id, mem_of_lookup named⟩ key onward rfl
        subst left
        have fewer : (((shapes.map Prod.fst) ×ˢ keys).filter fun pair =>
            decide (pair ∉ stack ++ [(id, v.key ext)])) =
            (((shapes.map Prod.fst) ×ˢ keys).filter fun pair => decide (pair ∉ stack)).filter
              fun pair => decide (pair ≠ (id, v.key ext)) := by
          rw [List.filter_filter]
          refine List.filter_congr fun pair _ => ?_
          rw [← Bool.decide_and]
          refine decide_eq_decide.mpr ?_
          rw [List.mem_append, List.mem_singleton, not_or]
          exact and_comm
        rw [fewer]
        refine List.length_filter_lt_length_iff_exists.mpr
          ⟨(id, v.key ext), List.mem_filter.mpr ⟨?_, by simpa using new⟩, by simp⟩
        exact List.pair_mem_product.mpr ⟨List.mem_map.mpr ⟨_, mem_of_lookup named, rfl⟩, key⟩

end Keys

/-- Evaluating a shape to a greater depth ends where it ended. -/
theorem ends_validateShape_mono {fuel more : Nat} (least : fuel ≤ more) (config : Config)
    (ended : (validateShape ext lib data shapes fuel config).Ends) :
    (validateShape ext lib data shapes more config).Ends :=
  (iterate_mono validateBody_mono least config).ends ended

/-- Evaluating a shape ends where the shapes it calls cannot go on forever. -/
theorem validateShape_ends {config : Config}
    (accessible : Acc (fun next config => config.Calls ext data shapes next) config) :
    ∃ fuel, (validateShape ext lib data shapes fuel config).Ends := by
  refine ends_of_acc validateBody_mono (fun config => ?_)
    (fun fuel config each => ends_validateBody each) accessible
  -- The shapes called are listed, at the focus node or at one of its values.
  obtain ⟨stack, shape, focus⟩ := config
  let values := match shapeValues ext data shape focus with
    | .ok values => values
    | .error _ => []
  refine ⟨shapes.map (fun entry => ⟨stack, entry.2, focus⟩) ++ shapes.flatMap fun entry =>
    values.map fun v => ⟨stack ++ [(entry.1, v.key ext)], entry.2, v⟩, fun next called => ?_⟩
  rw [List.mem_append, List.mem_map, List.mem_flatMap]
  cases called with
  | property step =>
    obtain ⟨_, p, _, named⟩ := step
    exact Or.inl ⟨_, mem_of_lookup named, rfl⟩
  | @node _ _ _ _ v values' id active found member required named new =>
    refine Or.inr ⟨_, mem_of_lookup named, List.mem_map.mpr ⟨v, ?_, rfl⟩⟩
    simp only [values, found]
    exact member

/-- The focus nodes of a shape are found. -/
theorem exists_focusNodes (focus : Option (List NodeId)) (shape : Shape) :
    ∃ nodes, (focusNodes ext data focus shape).Returns nodes := by
  have each : ∀ target ∈ shape.targets, ∃ nodes,
      (ofOption (ε := ShapeError) (targetNodes ext data target)).Returns nodes := by
    intro target _
    cases target with
    | «class» c =>
      obtain ⟨nodes, found⟩ := @DataView.exists_instances ext data c
      exact ⟨nodes.map .node, returns_ofOption.mpr (by rw [targetNodes, found]; rfl)⟩
    | _ => exact ⟨_, returns_ofOption.mpr rfl⟩
  obtain ⟨selected, found⟩ := exists_returns_mapM.mpr each
  exact ⟨_, returns_bind.mpr ⟨selected, found, returns_pure.mpr rfl⟩⟩

/-- A shape in the order of evaluation is listed. -/
theorem listed_of_mem_inOrder {shape : Shape} (member : shape ∈ shapesInOrder shapes) :
    ∃ id, (id, shape) ∈ shapes := by
  obtain ⟨id, _, named⟩ := List.mem_filterMap.mp member
  exact ⟨id, mem_of_lookup named⟩

/-- A validation ends where each evaluation it starts does. -/
theorem validate_ends {focus : Option (List NodeId)}
    (each : ∀ start, Starts ext data shapes focus start →
      ∃ fuel, (validateShape ext lib data shapes fuel start).Ends) :
    ∃ fuel, (validate ext lib data shapes focus fuel).Ends := by
  obtain ⟨fuel, ended⟩ := exists_common (@ends_validateShape_mono ext lib data shapes)
    fun start (_ : start ∈ (shapesInOrder shapes).flatMap fun shape =>
      (@exists_focusNodes ext data focus shape).choose.map fun node => Config.mk [] shape node) =>
        each start
  refine ⟨fuel, ends_bind.mpr ⟨ends_mapM.mpr fun front shape back split _ => ?_,
    fun _ _ => ends_pure _⟩⟩
  split_ifs with idle
  · exact ends_pure _
  · rw [not_or, Bool.not_eq_true] at idle
    have found := (@exists_focusNodes ext data focus shape).choose_spec
    refine ends_bind.mpr ⟨found.ends, fun nodes known => ends_bind.mpr ⟨?_, fun _ _ => ends_pure _⟩⟩
    obtain rfl := found.unique known
    have inside : shape ∈ shapesInOrder shapes := by simp [split]
    refine ends_mapM.mpr fun early node late parts _ => ?_
    have member : node ∈ (@exists_focusNodes ext data focus shape).choose := by simp [parts]
    exact ended _ (List.mem_flatMap.mpr ⟨shape, inside, List.mem_map.mpr ⟨node, member, rfl⟩⟩)
      ⟨rfl, inside, idle.1, idle.2, _, known, member⟩

/-- Where a validation without failures ends, each evaluation it starts does. -/
theorem starts_end (evaluable : Evaluable ext data shapes) {focus : Option (List NodeId)}
    {fuel : Nat} (ended : (validate ext lib data shapes focus fuel).Ends) {start : Config}
    (starts : Starts ext data shapes focus start) :
    (validateShape ext lib data shapes fuel start).Ends := by
  obtain ⟨stack, shape, node⟩ := start
  obtain ⟨rfl, inside, active, targets, nodes, found, member⟩ := starts
  dsimp only at inside active targets found member
  obtain ⟨front, back, split⟩ := List.append_of_mem inside
  have loop := (ends_bind.mp ended).1
  rw [split] at loop
  have safe : ∀ other ∈ shapesInOrder shapes, ∀ nodes : List Obj, (nodes.mapM fun node =>
      validateShape ext lib data shapes fuel ⟨[], other, node⟩).Safe := fun other listed nodes =>
    Safe.mapM fun _ _ => safe_validateShape evaluable (listed_of_mem_inOrder listed)
  have own := ends_of_mapM loop fun other early => ?_
  · rw [if_neg (by simp [active, targets])] at own
    have nodes_ := (ends_bind.mp ((ends_bind.mp own).2 nodes found)).1
    obtain ⟨early, late, parts⟩ := List.append_of_mem member
    rw [parts] at nodes_
    have each := @ends_of_mapM _ _ _ (fun node => validateShape ext lib data shapes fuel ⟨[], shape, node⟩)
      early late node nodes_
    exact each fun _ _ => safe_validateShape evaluable (listed_of_mem_inOrder inside)
  · have known : other ∈ shapesInOrder shapes := split ▸ List.mem_append_left _ early
    split_ifs
    · exact safe_pure _
    · exact Safe.bind (fun _ => exists_focusNodes focus other) fun _ _ =>
        (safe other known _).bind fun _ _ => safe_pure _

/-- A validation ends when no shape it evaluates is a property shape of itself. -/
theorem validate_ends_of_propertiesEnd {focus : Option (List NodeId)}
    (ending : PropertiesEnd ext data shapes focus) :
    ∃ fuel, (validate ext lib data shapes focus fuel).Ends := by
  refine validate_ends fun start starts => validateShape_ends ?_
  refine @acc_calls ext data shapes (start.focus.key ext :: keysOf ext data)
    (fun key member => List.mem_cons_of_mem _ member) start
    (listed_of_mem_inOrder starts.2.1) List.mem_cons_self (ending start starts)

/-- A validation without failures that ends evaluates no shape that is a property shape of itself. -/
theorem propertiesEnd_of_ends (evaluable : Evaluable ext data shapes)
    {focus : Option (List NodeId)} {fuel : Nat}
    (ended : (validate ext lib data shapes focus fuel).Ends) :
    PropertiesEnd ext data shapes focus := by
  intro start starts config path cycle
  -- What a shape that ends calls is listed, so the calls behind it end as well.
  have accessible : ∀ {fuel config}, (∃ id, (id, Config.shape config) ∈ shapes) →
      (validateShape ext lib data shapes fuel config).Ends →
        Acc (fun next config => config.Calls ext data shapes next) config := by
    intro fuel
    induction fuel with
    | zero =>
      rintro config _ ⟨outcome, run⟩
      cases run
    | succ fuel ih =>
      intro config listed done
      refine ⟨_, fun next called => ih ?_ (calls_end evaluable listed done called)⟩
      cases called with
      | property step =>
        obtain ⟨_, p, _, named⟩ := step
        exact ⟨p, mem_of_lookup named⟩
      | @node _ _ _ _ _ _ id _ _ _ _ named _ => exact ⟨id, mem_of_lookup named⟩
  have first := accessible (listed_of_mem_inOrder starts.2.1) (starts_end evaluable ended starts)
  have later : Acc (fun next config => config.Calls ext data shapes next) config := by
    clear cycle
    induction path with
    | refl => exact first
    | tail _ step ih => exact ih.inv step
  have around : TransGen (Config.Calls ext data shapes) config config := by
    obtain ⟨stack, shape, node⟩ := config
    exact cycle.lift (fun shape => Config.mk stack shape node) fun _ _ step => .property step
  have lone := later.transGen
  clear first later path cycle
  induction lone with
  | intro config _ ih => exact ih config (transGen_swap.mpr around) around

end External

/-- A shape whose path node inverts itself. -/
def selfInverse : DataView where
  stored := []
  iriOf _ := none
  adds := [(NodeId.ofByte 1, sh "path", .node (NodeId.ofByte 2)),
    (NodeId.ofByte 2, sh "inversePath", .node (NodeId.ofByte 2)),
    (NodeId.ofByte 1, sh "targetNode", .node (NodeId.ofByte 1))]
  retracted := []

/-- A shape that is its own property shape, with a target. -/
def ownProperty : Shape where
  id := NodeId.ofByte 1
  targets := [.node (.node (NodeId.ofByte 1))]
  path := none
  constraints := []
  properties := [NodeId.ofByte 1]
  severity := .violation
  message := none
  deactivated := false

/-- A library for shapes without numbers, patterns and reports. -/
def Library.unreached : Library where
  arith := ⟨fun _ => 0, fun _ => 0, fun sum _ => sum, fun left _ => left, fun left _ => left⟩
  displayF64 _ := ""
  regexNew _ := .ok ()
  isMatch _ _ := true
  debugObj _ := ""

end Shacl

end Polargraph
