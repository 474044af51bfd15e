import Polargraph.Proofs.Storage.GraphSteps
import Polargraph.Server.CreateGraph

/-! Who becomes admin of a graph that several requests create. -/

namespace Polargraph

namespace TripleStore

variable {ext : External} {store middle after : TripleStore}

/-- Interned graphs keep their identifiers. -/
def KeepsGraphs (store after : TripleStore) : Prop :=
  ∀ iri g, store.graphId iri = some g → after.graphId iri = some g

/-- A store keeps its own graphs. -/
theorem KeepsGraphs.refl (store : TripleStore) : store.KeepsGraphs store := fun _ _ known => known

/-- Keeping graphs is transitive. -/
theorem KeepsGraphs.trans (first : store.KeepsGraphs middle) (second : middle.KeepsGraphs after) :
    store.KeepsGraphs after := fun iri g known => second iri g (first iri g known)

/-- A commit keeps interned graphs. -/
theorem keepsGraphs_commit (store : TripleStore) (tx : Transaction) (wall : Timestamp) :
    store.KeepsGraphs (store.commit ext tx wall).1 := by
  intro iri g known
  rw [graphId, (sameGraphs_commit ext store tx wall).graphFwd]
  exact known

/-- Interning a graph keeps those interned before, and its IRI names its identifier. -/
theorem internGraph_keepsGraphs {iri : String} {g : GraphId}
    (done : store.internGraph ext iri = .ok (middle, g)) :
    store.KeepsGraphs middle ∧ middle.graphId iri = some g := by
  unfold internGraph at done
  split_ifs at done
  split at done
  · rename_i id known
    cases done
    exact ⟨.refl store, known⟩
  · rename_i unknown
    obtain ⟨_, _, done⟩ := Except.bind_eq_ok.mp done
    cases done
    refine ⟨fun other own known => ?_, Function.update_self _ _ _⟩
    -- A known IRI is another one than the one that gets an identifier.
    have apart : other ≠ iri := by
      intro same
      rw [graphId, same, unknown] at known
      cases known
    exact (Function.update_of_ne apart _ _).trans known

/-- Setting metadata keeps interned graphs. -/
theorem setGraphMetadata_keepsGraphs (store : TripleStore) (g : GraphId)
    (metadata : List (String × Value)) (now : Timestamp) :
    store.KeepsGraphs (store.setGraphMetadata ext g metadata now).1 := by
  unfold setGraphMetadata
  split
  · exact .refl store
  · split
    · exact .refl store
    · rename_i middle meta_ interned
      have first := (internGraph_keepsGraphs interned).1
      simp only
      generalize metadata.foldl _ _ = tx
      have second := @keepsGraphs_commit ext middle tx now
      cases committed : middle.commit ext tx now with
      | mk last result =>
        rw [committed] at second
        cases result <;> exact first.trans second

/-- Creating a graph keeps those created before; when it succeeds, the graph is the one handed out. -/
theorem createGraphBy_keepsGraphs {iri author : String} {metadata : List (String × Value)}
    {now : Timestamp} {result : Except StorageError GraphId}
    (done : store.createGraphBy ext iri metadata author now = (after, result)) :
    store.KeepsGraphs after ∧ ∀ g, result = .ok g → after.graphId iri = some g := by
  unfold createGraphBy at done
  simp only at done
  split at done
  · cases done
    exact ⟨.refl store, fun _ same => nomatch same⟩
  · rename_i middle g interned
    obtain ⟨first, named⟩ := internGraph_keepsGraphs interned
    -- Each later step keeps the graph just interned too.
    have settled : ∀ {last : TripleStore}, middle.KeepsGraphs last → (∀ own, result = .ok own → own = g) →
        store.KeepsGraphs last ∧ ∀ own, result = .ok own → last.graphId iri = some own := by
      intro last second handed
      refine ⟨first.trans second, fun own same => ?_⟩
      rw [handed own same]
      exact second iri g named
    have recorded : middle.KeepsGraphs (if (store.graphId iri).isNone = true then
        middle.commit ext ((middle.begin.setAuthor author).recordGraphOp (.created g)) now
        else (middle, .ok middle.readTs)).1 := by
      split_ifs
      · exact middle.keepsGraphs_commit _ now
      · exact .refl middle
    split at done
    · rename_i last problem ended
      rw [ended] at recorded
      cases done
      exact settled recorded fun own same => nomatch same
    · rename_i last time ended
      rw [ended] at recorded
      split_ifs at done
      · cases done
        exact settled recorded fun own same => (Except.ok.inj same).symm
      · have set := @setGraphMetadata_keepsGraphs ext last g metadata now
        cases ran : last.setGraphMetadata ext g metadata now with
        | mk final outcome =>
          rw [ran] at set done
          cases outcome with
          | error problem =>
            cases done
            exact settled (recorded.trans set) fun own same => nomatch same
          | ok made =>
            cases done
            exact settled (recorded.trans set) fun own same => (Except.ok.inj same).symm

/-- Resolving a write target keeps interned graphs. -/
theorem targetGraph_keepsGraphs (store : TripleStore) (iri : String) (now : Timestamp) :
    store.KeepsGraphs (store.targetGraph ext iri now).1 := by
  unfold targetGraph
  split_ifs
  · exact .refl store
  · split
    · exact .refl store
    · exact (createGraphBy_keepsGraphs rfl).1

/-- Granting access keeps interned graphs. -/
theorem grantGraphAccess_keepsGraphs (store : TripleStore) (user : NodeId) (g : GraphId)
    (level : GraphAccessLevel) (now : Timestamp) :
    store.KeepsGraphs (store.grantGraphAccess ext user g level now).1 := by
  unfold grantGraphAccess
  split
  · exact .refl store
  · split
    · exact .refl store
    · rename_i middle meta_ interned
      have first := (internGraph_keepsGraphs interned).1
      simp only
      generalize List.foldl _ _ _ = tx
      have second := @keepsGraphs_commit ext middle tx now
      cases committed : middle.commit ext tx now with
      | mk last result =>
        rw [committed] at second
        cases result <;> exact first.trans second

/-- A request that is to make a user admin is of that user. -/
theorem creator_checkCreateGraph {index : GraphAccessIndex} {request : CreateGraphRequest}
    {user : NodeId} {metadata : List (String × Value)}
    (checked : store.checkCreateGraph ext index request = .ok (some user, metadata)) :
    request.author ≠ "" ∧ principalNode ext request.author = .ok user := by
  unfold checkCreateGraph at checked
  split_ifs at checked
  obtain ⟨_, _, checked⟩ := Except.bind_eq_ok.mp checked
  obtain ⟨creator, chosen, checked⟩ := Except.bind_eq_ok.mp checked
  obtain ⟨_, _, same⟩ := Except.bind_eq_ok.mp checked
  cases same
  unfold creatorOf at chosen
  split at chosen
  · cases level : requireLevel _ _ _ _ with
    | error refused =>
      rw [level] at chosen
      cases chosen
    | ok admitted =>
      rw [level] at chosen
      cases chosen
  · rename_i own here _
    -- Only a caller with a user identifier has an access of its own.
    have named : request.author ≠ "" := by
      intro blank
      rw [callerAccess, if_pos blank] at here
      cases here
    cases principal : principalNode ext request.author with
    | error refused =>
      rw [principal] at chosen
      cases chosen
    | ok node =>
      rw [principal] at chosen
      cases chosen
      exact ⟨named, rfl⟩
  · cases chosen

end TripleStore

namespace GraphCreation

variable {ext : External} {state : GraphCreation}

/-- Only the user that created a graph is its admin. -/
structure OnlyCreator (state : GraphCreation) : Prop where
  /-- At most one user received Admin. -/
  once : ∀ iri left right, (iri, left) ∈ state.admins → (iri, right) ∈ state.admins → left = right
  /-- No user did if a service call created the graph. -/
  users : ∀ iri user, (iri, user) ∈ state.admins → (iri, "") ∉ state.origins

/-- Whether a request that is to make a user admin creates the graph itself. -/
def unraced (state : GraphCreation) : CreationStep → Bool
  | .create call _ => match state.calls call with
    | some (.checked request (some _) _) => (state.store.graphId request.iri).isNone
    | _ => true
  | _ => true

/-- A request that is to make a user admin creates the graph itself. -/
def Unraced (state : GraphCreation) (step : CreationStep) : Prop := state.unraced step = true

/-- Whether a request is raced is decided by looking the graph up. -/
instance (state : GraphCreation) (step : CreationStep) : Decidable (state.Unraced step) :=
  inferInstanceAs (Decidable (_ = true))

/-- A user that created a graph. -/
def CreatedBy (ext : External) (origins : List (String × String)) (iri : String) (user : NodeId) :
    Prop :=
  ∃ author, author ≠ "" ∧ principalNode ext author = .ok user ∧ (iri, author) ∈ origins

/-- What holds of the requests when none is raced. -/
structure Kept (ext : External) (state : GraphCreation) : Prop where
  /-- Created graphs exist. -/
  exist : ∀ entry ∈ state.origins, (state.store.graphId entry.1).isSome
  /-- A graph is created once. -/
  once : ∀ iri left right, (iri, left) ∈ state.origins → (iri, right) ∈ state.origins → left = right
  /-- A checked request that is to make a user admin is of that user. -/
  checked : ∀ call request user metadata,
    state.calls call = some (.checked request (some user) metadata) →
    request.author ≠ "" ∧ principalNode ext request.author = .ok user
  /-- A request that is about to make a user admin created the graph. -/
  created : ∀ call iri user g, state.calls call = some (.created iri (some user) g) →
    CreatedBy ext state.origins iri user
  /-- A user that received Admin created the graph. -/
  admins : ∀ iri user, (iri, user) ∈ state.admins → CreatedBy ext state.origins iri user

/-- Without requests everything is kept. -/
theorem kept_opened (store : TripleStore) : (opened store).Kept ext where
  exist _ member := nomatch member
  once _ _ _ member := nomatch member
  checked _ _ _ _ pending := nomatch pending
  created _ _ _ _ pending := nomatch pending
  admins _ _ member := nomatch member

/-- Whoever creates a graph once does so alone. -/
theorem Kept.onlyCreator (kept : state.Kept ext) : state.OnlyCreator where
  once iri left right first second := by
    obtain ⟨author, _, own, member⟩ := kept.admins iri left first
    obtain ⟨other, _, others, member'⟩ := kept.admins iri right second
    rw [kept.once iri author other member member'] at own
    exact Except.ok.inj (own.symm.trans others)
  users iri user member service := by
    obtain ⟨author, named, _, created⟩ := kept.admins iri user member
    exact named (kept.once iri author "" created service)

/-- A user that created a graph did so after more graphs are created. -/
theorem CreatedBy.mono {origins more : List (String × String)} {iri : String} {user : NodeId}
    (created : CreatedBy ext origins iri user) (grown : ∀ entry ∈ origins, entry ∈ more) :
    CreatedBy ext more iri user := by
  obtain ⟨author, named, own, member⟩ := created
  exact ⟨author, named, own, grown _ member⟩

/-- The graphs created before are among those created after a write. -/
theorem origins_afterCreating (state : GraphCreation) (store : TripleStore) (iri author : String) :
    ∀ entry ∈ state.origins, entry ∈ (state.afterCreating store iri author).origins := by
  intro entry member
  simp only [afterCreating]
  split_ifs
  · exact List.mem_append_left _ member
  · exact member

/-- A write that may create a graph keeps what holds of the requests. -/
theorem Kept.afterCreating (kept : state.Kept ext) {store : TripleStore}
    (graphs : state.store.KeepsGraphs store) (iri author : String) :
    (state.afterCreating store iri author).Kept ext where
  exist entry member := by
    have old : ∀ entry ∈ state.origins, (store.graphId entry.1).isSome := by
      intro entry member
      obtain ⟨g, known⟩ := Option.isSome_iff_exists.mp (kept.exist entry member)
      rw [graphs _ _ known]
      rfl
    simp only [GraphCreation.afterCreating] at member
    split_ifs at member with fresh
    · rcases List.mem_append.mp member with before | new
      · exact old entry before
      · rw [List.mem_singleton.mp new]
        exact (Bool.and_eq_true_iff.mp fresh).2
    · exact old entry member
  once name left right first second := by
    simp only [GraphCreation.afterCreating] at first second
    split_ifs at first second with fresh
    · -- A graph that is created now was not created before, since it did not exist.
      have unknown : ∀ author, (iri, author) ∉ state.origins := by
        intro author member
        have known := kept.exist _ member
        rw [Option.isNone_iff_eq_none.mp (Bool.and_eq_true_iff.mp fresh).1] at known
        cases known
      simp only [List.mem_append, List.mem_singleton, Prod.mk.injEq] at first second
      rcases first with before | ⟨rfl, rfl⟩ <;> rcases second with before' | ⟨same, rfl⟩
      · exact kept.once name left right before before'
      · exact absurd (same ▸ before) (unknown left)
      · exact absurd before' (unknown right)
      · rfl
    · exact kept.once name left right first second
  checked := kept.checked
  created call name user g pending :=
    (kept.created call name user g pending).mono (state.origins_afterCreating store iri author)
  admins name user member :=
    (kept.admins name user member).mono (state.origins_afterCreating store iri author)

/-- Moving one request along keeps what holds of the requests, if it holds of that one. -/
theorem Kept.update (kept : state.Kept ext) (call : Nat) (moved : Option CreateGraphCall)
    (checked : ∀ request user metadata, moved = some (.checked request (some user) metadata) →
      request.author ≠ "" ∧ principalNode ext request.author = .ok user)
    (created : ∀ iri user g, moved = some (.created iri (some user) g) →
      CreatedBy ext state.origins iri user) :
    Kept ext { state with calls := Function.update state.calls call moved } where
  exist := kept.exist
  once := kept.once
  checked other request user metadata pending := by
    have placed : Function.update state.calls call moved other =
        some (.checked request (some user) metadata) := pending
    by_cases same : other = call
    · refine checked request user metadata ?_
      rwa [same, Function.update_self] at placed
    · refine kept.checked other request user metadata ?_
      rwa [Function.update_of_ne same] at placed
  created other iri user g pending := by
    have placed : Function.update state.calls call moved other =
        some (.created iri (some user) g) := pending
    by_cases same : other = call
    · refine created iri user g ?_
      rwa [same, Function.update_self] at placed
    · refine kept.created other iri user g ?_
      rwa [Function.update_of_ne same] at placed
  admins := kept.admins

/-- A write that creates no graph of a request keeps what holds of the requests. -/
theorem Kept.store (kept : state.Kept ext) {store : TripleStore}
    (graphs : state.store.KeepsGraphs store) : Kept ext { state with store := store } where
  exist entry member := by
    obtain ⟨g, known⟩ := Option.isSome_iff_exists.mp (kept.exist entry member)
    rw [graphs _ _ known]
    rfl
  once := kept.once
  checked := kept.checked
  created := kept.created
  admins := kept.admins

/-- A step that is not raced keeps what holds of the requests. -/
theorem Kept.next {after : GraphCreation} (kept : state.Kept ext) {step : CreationStep}
    (unraced : Unraced state step) (taken : state.next ext step = some after) : after.Kept ext := by
  cases step with
  | check call request index =>
    simp only [GraphCreation.next] at taken
    split at taken
    · cases taken
    · split at taken
      · cases taken
        exact kept
      · rename_i creator metadata checked
        cases taken
        refine kept.update call _ (fun own user given same => ?_) (fun _ _ _ same => nomatch same)
        cases same
        exact TripleStore.creator_checkCreateGraph checked
  | create call now =>
    simp only [GraphCreation.next] at taken
    split at taken
    · rename_i request creator metadata pending
      cases done : state.store.createGraphBy ext request.iri metadata request.author now with
      | mk store result =>
        rw [done] at taken
        cases taken
        obtain ⟨graphs, exists_⟩ := TripleStore.createGraphBy_keepsGraphs done
        refine (kept.afterCreating graphs request.iri request.author).update call _
          (fun own user given same => ?_) (fun iri user g same => ?_)
        · cases result <;> cases same
        · cases result with
          | error problem => cases same
          | ok own =>
            cases same
            -- The graph did not exist before the step and exists after, so it is recorded.
            obtain ⟨named, principal⟩ := kept.checked call request user metadata pending
            have fresh : (state.store.graphId request.iri).isNone = true := by
              simpa only [Unraced, GraphCreation.unraced, pending] using unraced
            refine ⟨request.author, named, principal, ?_⟩
            simp [GraphCreation.afterCreating, Option.isNone_iff_eq_none.mp fresh, exists_ g rfl]
    · cases taken
  | grant call now =>
    simp only [GraphCreation.next] at taken
    split at taken
    · rename_i iri creator g pending
      have ended := kept.update call none (fun _ _ _ same => nomatch same)
        (fun _ _ _ same => nomatch same)
      split at taken
      · cases taken
        exact ended
      · rename_i user
        have graphs := @TripleStore.grantGraphAccess_keepsGraphs ext state.store user g .admin now
        split at taken
        · rename_i store problem granted
          rw [granted] at graphs
          cases taken
          exact ended.store graphs
        · rename_i store granted
          rw [granted] at graphs
          cases taken
          refine { ended.store graphs with admins := fun name own member => ?_ }
          rcases List.mem_append.mp member with before | new
          · exact kept.admins name own before
          · -- The user that is granted Admin now is the one that created the graph.
            cases List.mem_singleton.mp new
            exact kept.created call iri user g pending
    · cases taken
  | serviceWrite iri now =>
    cases taken
    exact kept.afterCreating (state.store.targetGraph_keepsGraphs iri now) iri ""
  | other tx wall =>
    cases taken
    exact kept.store (state.store.keepsGraphs_commit tx wall)

/-- In every run in which no request is raced, only creators become admins. -/
theorem onlyCreator_of_run {store : TripleStore}
    (run : Runs (GraphCreation.next ext) Unraced (opened store) state) : state.OnlyCreator :=
  -- The invariant also says which requests are about to make a user admin.
  (run.invariant (fun _ _ _ kept unraced taken => kept.next unraced taken)
    (kept_opened store)).onlyCreator

/-- Third-party code that serialises the name of a level as it is. -/
def levelText : External where
  xxh3_128 bytes := bytes.length
  parseUuid _ := none
  jsonToVec
    | .text content => .ok (utf8 content)
    | _ => .error "not a text"
  jsonFromSlice bytes :=
    if bytes = utf8 "admin" then .ok (.text "admin") else .error "not a level"

/-- A request of a user to create a graph. -/
def requestOf (user : String) : CreateGraphRequest := ⟨user, "urn:example:g", []⟩

/-- The state after some steps on a new store. -/
def ran (admits : GraphCreation → CreationStep → Prop) [∀ state step, Decidable (admits state step)]
    (steps : List CreationStep) : Option GraphCreation :=
  Runs.stepAll (GraphCreation.next levelText) admits (opened TripleStore.create) steps

/-- The state after some steps, reached by a run. -/
theorem exists_ran {admits : GraphCreation → CreationStep → Prop}
    [∀ state step, Decidable (admits state step)] {steps : List CreationStep} {α : Type}
    {view : GraphCreation → α} {seen : α} (shown : (ran admits steps).map view = some seen) :
    ∃ state, Runs (GraphCreation.next levelText) admits (opened TripleStore.create) state ∧
      view state = seen := by
  obtain ⟨state, taken, same⟩ := Option.map_eq_some_iff.mp shown
  exact ⟨state, Runs.of_stepAll taken, same⟩

/-- Nobody has a grant. -/
def noIndex : GraphAccessIndex := ⟨[], .fromLevels [] []⟩

/-- A user that creates a graph alone is its only admin. -/
theorem onlyCreator_of_run_alone : ∃ state : GraphCreation, state.OnlyCreator ∧
    state.admins = [("urn:example:g", NodeId.fromIri levelText "alice")] := by
  obtain ⟨state, run, seen⟩ := @exists_ran Unraced _ [.check 0 (requestOf "alice") noIndex,
    .create 0 (Timestamp.wrap 10), .grant 0 (Timestamp.wrap 11)] _ GraphCreation.admins
    [("urn:example:g", NodeId.fromIri levelText "alice")] (by decide +kernel)
  exact ⟨state, onlyCreator_of_run run, seen⟩

/--
Two users whose requests are both checked before either creates the graph both become its admin, and
so does a user whose request a service call overtakes.
-/
theorem creation_not_onlyCreator :
    (∃ state, Runs (GraphCreation.next levelText) (fun _ _ => True) (opened TripleStore.create)
        state ∧
      (state.admins, state.store.graphGrants levelText (Timestamp.wrap 20)) =
        ([("urn:example:g", NodeId.fromIri levelText "alice"),
          ("urn:example:g", NodeId.fromIri levelText "bob")],
        .ok [⟨NodeId.fromIri levelText "bob", ⟨1⟩, .admin⟩,
          ⟨NodeId.fromIri levelText "alice", ⟨1⟩, .admin⟩]) ∧
      ¬ state.OnlyCreator) ∧
    ∃ state, Runs (GraphCreation.next levelText) (fun _ _ => True) (opened TripleStore.create)
        state ∧
      (state.admins, state.origins) =
        ([("urn:example:g", NodeId.fromIri levelText "alice")], [("urn:example:g", "")]) ∧
      ¬ state.OnlyCreator := by
  constructor
  · obtain ⟨state, run, seen⟩ := @exists_ran (fun _ _ => True) _
      [.check 0 (requestOf "alice") noIndex, .check 1 (requestOf "bob") noIndex,
        .create 0 (Timestamp.wrap 10), .grant 0 (Timestamp.wrap 11),
        .create 1 (Timestamp.wrap 12), .grant 1 (Timestamp.wrap 13)] _
      (fun state => (state.admins, state.store.graphGrants levelText (Timestamp.wrap 20)))
      ([("urn:example:g", NodeId.fromIri levelText "alice"),
          ("urn:example:g", NodeId.fromIri levelText "bob")],
        .ok [⟨NodeId.fromIri levelText "bob", ⟨1⟩, .admin⟩,
          ⟨NodeId.fromIri levelText "alice", ⟨1⟩, .admin⟩]) (by decide +kernel)
    refine ⟨state, run, seen, fun only => ?_⟩
    have admins := (Prod.mk.inj seen).1
    have same := only.once "urn:example:g" (NodeId.fromIri levelText "alice")
      (NodeId.fromIri levelText "bob") (by simp [admins]) (by simp [admins])
    revert same
    decide +kernel
  · obtain ⟨state, run, seen⟩ := @exists_ran (fun _ _ => True) _
      [.check 0 (requestOf "alice") noIndex, .serviceWrite "urn:example:g" (Timestamp.wrap 10),
        .create 0 (Timestamp.wrap 11), .grant 0 (Timestamp.wrap 12)] _ (fun state => (state.admins, state.origins))
      ([("urn:example:g", NodeId.fromIri levelText "alice")], [("urn:example:g", "")])
      (by decide +kernel)
    refine ⟨state, run, seen, fun only => ?_⟩
    obtain ⟨admins, origins⟩ := Prod.mk.inj seen
    exact only.users "urn:example:g" (NodeId.fromIri levelText "alice") (by simp [admins])
      (by simp [origins])

end GraphCreation

end Polargraph
