import Polargraph.Lib.Except
import Polargraph.Proofs.Shacl.Paths

/-! From which shapes graphs the shapes are loaded, or refused, after finitely many steps. -/

namespace Polargraph

namespace Shacl

open Fuelled

namespace DataView

variable (ext : External) (lib : Library) (view : DataView)

/-- The path node of a shape. -/
def HasPath (id n : NodeId) : Prop := (view.get ext id "path").head? = some (.node n)

/-- A shape has no path, or one that is supported. -/
def OwnSupported (id : NodeId) : Prop :=
  ∀ value, (view.get ext id "path").head? = some value → ∃ n, value = .node n ∧ view.Supported ext n

/-- Loading a shape comes to parse the path of a node. -/
inductive Asked (id : NodeId) : NodeId → Prop
  /-- Its own path, when its targets are accepted. -/
  | own {targets : List Target} {n : NodeId} (accepted : view.parseTargets ext id = .ok targets)
      (path : view.HasPath ext id n) : Asked id n
  /-- The path of a property shape of a closed shape, when nothing before is refused. -/
  | allowed {targets : List Target} {constraints : List Constraint} {front back : List NodeId}
      {p n : NodeId} (accepted : view.parseTargets ext id = .ok targets)
      (supported : view.OwnSupported ext id)
      (required : (view.parseConstraints ext lib id).Returns constraints)
      (properties : view.parseProperties ext id = .ok (front ++ p :: back))
      (closed : (view.get ext id "closed").head? = some (.lit (.bool true)))
      (early : ∀ q ∈ front, ∀ m, view.HasPath ext q m → view.Supported ext m)
      (path : view.HasPath ext p n) : Asked id n

variable {ext lib view} {id : NodeId} {fuel more : Nat}

/-- Parsing the own path of a shape ends where parsing its path node does. -/
theorem ends_ownPath : (view.parseOwnPath ext fuel id).Ends ↔
    ∀ n, view.HasPath ext id n → (view.parsePath ext id fuel n).Ends := by
  unfold parseOwnPath HasPath
  rcases (view.get ext id "path").head? with _ | value
  · exact iff_of_true (ends_pure _) nofun
  · cases value with
    | lit value => exact iff_of_true (ends_bind.mpr ⟨ends_ofExcept _, nofun⟩) nofun
    | node n =>
      constructor
      · rintro ended m ⟨⟩
        exact (ends_bind.mp ((ends_bind.mp ended).2 n rfl)).1
      · intro each
        refine ends_bind.mpr ⟨ends_ofExcept _, fun m read => ?_⟩
        obtain rfl := Except.ok.inj (returns_ofExcept.mp read)
        exact ends_bind.mpr ⟨each n rfl, fun _ _ => ends_pure _⟩

/-- A shape whose own path is parsed has a supported one or none. -/
theorem ownSupported_of_returns {path : Option Path}
    (returns : (view.parseOwnPath ext fuel id).Returns path) : view.OwnSupported ext id := by
  unfold parseOwnPath at returns
  intro value found
  rw [found] at returns
  obtain ⟨n, read, more⟩ := returns_bind.mp returns
  obtain ⟨steps, parsed, _⟩ := returns_bind.mp more
  cases value with
  | lit value => cases read
  | node m =>
    cases read
    exact ⟨n, rfl, supported_of_returns parsed⟩

/-- Parsing a supported own path returns where it ends. -/
theorem OwnSupported.returns_of_ends (supported : view.OwnSupported ext id)
    (ended : (view.parseOwnPath ext fuel id).Ends) :
    ∃ path, (view.parseOwnPath ext fuel id).Returns path := by
  unfold parseOwnPath at ended ⊢
  cases found : (view.get ext id "path").head? with
  | none => exact ⟨none, returns_pure.mpr rfl⟩
  | some value =>
    rw [found] at ended
    obtain ⟨n, rfl, denotes⟩ := supported value found
    have read : (ofExcept (view.nodeOf id "path" (.node n))).Returns n := rfl
    obtain ⟨path, done⟩ := denotes.returns_of_ends (ends_bind.mp ((ends_bind.mp ended).2 n read)).1
    exact ⟨some path, returns_bind.mpr ⟨n, read, returns_bind.mpr ⟨path, done, returns_pure.mpr rfl⟩⟩⟩

/-- The predicate of a path that is one. -/
def allowedName : Path → Option String
  | .predicate name => some name
  | _ => none

/-- The predicate that a property shape allows is the one its path node denotes. -/
theorem parseAllowed_of_path {p n : NodeId} (path : view.HasPath ext p n) :
    view.parseAllowed ext fuel id p = (do return allowedName (← view.parsePath ext id fuel n)) := by
  unfold parseAllowed
  rw [path]
  refine congrArg (view.parsePath ext id fuel n >>= ·) (funext fun steps => ?_)
  cases steps <;> rfl

/-- A property shape without a path node allows nothing. -/
theorem parseAllowed_of_not {p : NodeId} (without : ∀ n, ¬ view.HasPath ext p n) :
    view.parseAllowed ext fuel id p = pure none := by
  unfold parseAllowed
  split
  · rename_i n found
    exact absurd found (without n)
  · rfl

/-- Reading an allowed predicate ends where parsing the path does. -/
theorem ends_allowed {p : NodeId} : (view.parseAllowed ext fuel id p).Ends ↔
    ∀ n, view.HasPath ext p n → (view.parsePath ext id fuel n).Ends := by
  by_cases named : ∃ n, view.HasPath ext p n
  · obtain ⟨n, path⟩ := named
    rw [parseAllowed_of_path path, ends_bind]
    constructor
    · rintro ⟨ended, _⟩ m other
      obtain rfl : n = m := by
        have same := path.symm.trans other
        cases same
        rfl
      exact ended
    · intro each
      exact ⟨each n path, fun _ _ => ends_pure _⟩
  · rw [not_exists] at named
    rw [parseAllowed_of_not named]
    exact iff_of_true (ends_pure _) fun n path => absurd path (named n)

/-- An allowed predicate is read where parsing the path ends and the path is supported. -/
theorem returns_allowed_iff {p : NodeId} (ended : (view.parseAllowed ext fuel id p).Ends) :
    (∃ allowed, (view.parseAllowed ext fuel id p).Returns allowed) ↔
      ∀ n, view.HasPath ext p n → view.Supported ext n := by
  by_cases named : ∃ n, view.HasPath ext p n
  · obtain ⟨n, path⟩ := named
    constructor
    · rintro ⟨allowed, done⟩ m other
      rw [parseAllowed_of_path other] at done
      obtain ⟨steps, parsed, _⟩ := returns_bind.mp done
      exact supported_of_returns parsed
    · intro supported
      obtain ⟨steps, parsed⟩ := (supported n path).returns_of_ends (ends_allowed.mp ended n path)
      rw [parseAllowed_of_path path]
      exact ⟨_, returns_bind.mpr ⟨steps, parsed, returns_pure.mpr rfl⟩⟩
  · rw [not_exists] at named
    rw [parseAllowed_of_not named]
    exact iff_of_true ⟨none, returns_pure.mpr rfl⟩ fun n path => absurd path (named n)

/-- The list that a shape term names is read to its end, or refused. -/
theorem ends_parseList (term : String) : (view.parseList ext id term).Ends := by
  unfold parseList
  split
  · exact ends_pure _
  · refine ends_bind.mpr ⟨ends_ofExcept _, fun head _ => ?_⟩
    obtain ⟨items, read⟩ := @exists_list ext view head
    exact ends_bind.mpr ⟨ends_ofOption read, fun _ _ => ends_pure _⟩

/-- Parsing the constraints of a shape ends. -/
theorem ends_constraints : (view.parseConstraints ext lib id).Ends :=
  ends_bind.mpr ⟨ends_ofExcept _, fun _ _ => ends_bind.mpr ⟨ends_parseList _, fun _ _ =>
    ends_bind.mpr ⟨ends_ofExcept _, fun _ _ => ends_pure _⟩⟩⟩

/-- Parsing a shape to a depth ends where the paths it asks for do. -/
theorem ends_parseShape : (view.parseShape ext lib fuel id).Ends ↔
    ∀ n, view.Asked ext lib id n → (view.parsePath ext id fuel n).Ends := by
  constructor
  · intro ended n asked
    cases asked with
    | own accepted path =>
      have rest := (ends_bind.mp ended).2 _ (returns_ofExcept.mpr accepted)
      exact ends_ownPath.mp (ends_bind.mp rest).1 n path
    | @allowed _ _ front back p _ accepted supported required properties closed early path =>
      -- Each step before the closed part ends and is not refused.
      have rest := ends_bind.mp ((ends_bind.mp ended).2 _ (returns_ofExcept.mpr accepted))
      obtain ⟨steps, parsed⟩ := supported.returns_of_ends rest.1
      have last := (ends_bind.mp ((ends_bind.mp (rest.2 steps parsed)).2 _ required)).2 _
        (returns_ofExcept.mpr properties)
      have shut := (ends_bind.mp last).1
      unfold parseClosed at shut
      rw [if_pos closed] at shut
      refine ends_allowed.mp (ends_of_mapM (ends_bind.mp shut).1 fun q member ends => ?_) n path
      exact (returns_allowed_iff ends).mpr (early q member)
  · intro each
    refine ends_bind.mpr ⟨ends_ofExcept _, fun targets accepted => ?_⟩
    have accepted_ := returns_ofExcept.mp accepted
    refine ends_bind.mpr ⟨ends_ownPath.mpr fun n path => each n (.own accepted_ path),
      fun path parsed => ?_⟩
    have supported := ownSupported_of_returns parsed
    refine ends_bind.mpr ⟨ends_constraints, fun constraints required => ?_⟩
    refine ends_bind.mpr ⟨ends_ofExcept _, fun properties read => ?_⟩
    refine ends_bind.mpr ⟨?_, fun _ _ => ends_bind.mpr ⟨ends_ofExcept _, fun _ _ => ends_pure _⟩⟩
    unfold parseClosed
    split_ifs with closed
    · refine ends_bind.mpr ⟨ends_mapM.mpr fun front p back split returned => ?_, fun _ _ =>
        ends_bind.mpr ⟨ends_parseList _, fun _ _ =>
          ends_bind.mpr ⟨ends_ofExcept _, fun _ _ => ends_pure _⟩⟩⟩
      refine ends_allowed.mpr fun n path_ => each n (.allowed accepted_ supported required
        (split ▸ returns_ofExcept.mp read) closed (fun q member => ?_) path_)
      obtain ⟨allowed, done⟩ := returned q member
      exact (returns_allowed_iff done.ends).mp ⟨allowed, done⟩
    · exact ends_pure _

/-- The nodes that loading a shape asks for are among finitely many. -/
theorem finite_asked (id : NodeId) :
    ∃ nodes : List NodeId, ∀ n, view.Asked ext lib id n → n ∈ nodes := by
  refine ⟨(id :: (view.get ext id "property").filterMap Obj.asNode).filterMap fun p =>
    ((view.get ext p "path").head?).bind Obj.asNode, fun n asked => List.mem_filterMap.mpr ?_⟩
  cases asked with
  | own accepted path => exact ⟨id, List.mem_cons_self, by rw [path]; rfl⟩
  | @allowed _ _ front back p _ accepted supported required properties closed early path =>
    refine ⟨p, List.mem_cons_of_mem _ (List.mem_filterMap.mpr ?_), by rw [path]; rfl⟩
    obtain ⟨value, member, node⟩ := (@Except.mem_of_mapM _ _ _ _ _ _ properties p).mp (by simp)
    refine ⟨value, member, ?_⟩
    cases value with
    | node m => exact congrArg some (Except.ok.inj node)
    | lit value => cases node

/-- Parsing a shape to a greater depth ends where it ended. -/
theorem ends_parseShape_mono (least : fuel ≤ more)
    (ended : (view.parseShape ext lib fuel id).Ends) : (view.parseShape ext lib more id).Ends :=
  ends_parseShape.mpr fun n asked =>
    (parsePath_mono least n).ends (ends_parseShape.mp ended n asked)

/-- Parsing a shape ends exactly where no infinite chain of path nodes starts at one it asks for. -/
theorem parseShape_ends_iff : (∃ fuel, (view.parseShape ext lib fuel id).Ends) ↔
    ∀ n, view.Asked ext lib id n → view.PathEnds ext n := by
  constructor
  · rintro ⟨fuel, ended⟩ n asked
    exact parsePath_ends_iff.mp ⟨fuel, ends_parseShape.mp ended n asked⟩
  · intro each
    obtain ⟨nodes, complete⟩ := @finite_asked ext lib view id
    obtain ⟨fuel, ended⟩ := exists_common (fun least n => (@parsePath_mono ext view id _ _ least n).ends)
      fun n (_ : n ∈ nodes) asked => parsePath_ends_iff.mpr (each n asked)
    exact ⟨fuel, ends_parseShape.mpr fun n asked => ended n (complete n asked) asked⟩

/-- Loading ends in every order of the shapes exactly where parsing each of them does. -/
theorem loadIn_ends_iff :
    (∀ order, order.Perm (view.shapeIds ext) → ∃ fuel, (view.loadIn ext lib fuel order).Ends) ↔
      ∀ id ∈ view.shapeIds ext, ∀ n, view.Asked ext lib id n → view.PathEnds ext n := by
  constructor
  · intro each id member
    -- The shape may be the first one.
    obtain ⟨fuel, ended⟩ := each _ (List.perm_cons_erase member).symm
    have first := ends_mapM.mp ended [] id _ rfl nofun
    exact parseShape_ends_iff.mp ⟨fuel, (ends_bind.mp first).1⟩
  · intro each order perm
    obtain ⟨fuel, ended⟩ := exists_common (fun least id => @ends_parseShape_mono ext lib view id _ _ least)
      fun id (member : id ∈ order) (_ : True) => parseShape_ends_iff.mpr (each id (perm.mem_iff.mp member))
    refine ⟨fuel, ends_mapM.mpr fun front id back split _ => ?_⟩
    exact ends_bind.mpr ⟨ended id (by simp [split]) trivial, fun _ _ => ends_pure _⟩

end DataView

end Shacl

end Polargraph
