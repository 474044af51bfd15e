import Polargraph.Proofs.Rest.Literals
import Polargraph.Server.ApiKeys

/-! When a server that was started with a key keeps authenticating requests. -/

namespace Polargraph

namespace ApiKeys

/-- A header carries a key. -/
def Carries (header : Option String) (key : String) : Prop :=
  header = some ("Bearer " ++ key) ∨ header = some ("ApiKey " ++ key)

/-- Requests that carry none of the keys are rejected, except on the exempt path. -/
def Authenticates (keys : List String) : Prop :=
  ∀ path header, path ∉ EXEMPT_PATHS → (∀ key ∈ keys, ¬ Carries header key) →
    passes keys path header = false

/-- A step does not revoke the last of the keys. -/
def SparesKey (state : State) (step : Step) : Prop :=
  ∀ key, step = .write (.revokeApiKey key) → ∃ other ∈ state.keys, other ≠ key

/-- Keys match when they are the same. -/
theorem keyMatchesCt_iff {provided valid : String} :
    keyMatchesCt provided valid = true ↔ provided = valid := by
  unfold keyMatchesCt
  split_ifs with lengths
  · exact iff_of_false (by simp) fun same => lengths (by rw [same])
  · exact decide_eq_true_iff.trans ⟨utf8_inj, congrArg utf8⟩

/-- The check of a header finds one of the keys in it. -/
theorem checkBearerAuth_iff {header : Option String} {keys : List String} :
    checkBearerAuth header keys = true ↔ ∃ key ∈ keys, Carries header key := by
  have listed : ∀ provided, keys.any (keyMatchesCt provided) = true ↔ provided ∈ keys := by
    intro provided
    simp only [List.any_eq_true, keyMatchesCt_iff]
    exact ⟨fun ⟨key, member, same⟩ => same ▸ member, fun member => ⟨_, member, rfl⟩⟩
  unfold checkBearerAuth Carries
  cases header with
  | none => simp
  | some value =>
    simp only [Option.some.injEq]
    cases bearer : strippedPrefix "Bearer " value with
    | some provided =>
      obtain rfl := strippedPrefix_eq_some.mp bearer
      refine (listed provided).trans ⟨fun member => ⟨_, member, Or.inl rfl⟩, ?_⟩
      rintro ⟨key, member, same | same⟩
      · exact String.append_right_inj _ |>.mp same ▸ member
      · have other := strippedPrefix_other key (by decide : ("Bearer ".toList.isPrefixOf
          "ApiKey ".toList) = false) (by decide)
        rw [← same, strippedPrefix_append] at other
        cases other
    | none =>
      have apart : ∀ key, value ≠ "Bearer " ++ key := fun key same => by
        rw [strippedPrefix_eq_some.mpr same] at bearer
        cases bearer
      cases own : strippedPrefix "ApiKey " value with
      | some provided =>
        obtain rfl := strippedPrefix_eq_some.mp own
        refine (listed provided).trans ⟨fun member => ⟨_, member, Or.inr rfl⟩, ?_⟩
        rintro ⟨key, member, same | same⟩
        · exact absurd same (apart key)
        · exact String.append_right_inj _ |>.mp same ▸ member
      | none =>
        refine iff_of_false Bool.false_ne_true ?_
        rintro ⟨key, _, same | same⟩
        · exact apart key same
        · rw [strippedPrefix_eq_some.mpr same] at own
          cases own

/-- A server authenticates exactly as long as it has a key. -/
theorem authenticates_iff {keys : List String} : Authenticates keys ↔ keys ≠ [] := by
  constructor
  · rintro rejects rfl
    have open_ := rejects "" none (by decide) nofun
    cases open_
  · intro filled path header listed absent
    unfold passes
    rw [List.isEmpty_eq_false_iff.mpr filled, decide_eq_false listed, Bool.false_or, Bool.false_or,
      Bool.eq_false_iff]
    intro found
    obtain ⟨key, member, carried⟩ := checkBearerAuth_iff.mp found
    exact absent key member carried

/-- A step leaves a key exactly if it does not revoke the last one. -/
theorem next_filled {state after : State} {step : Step} (filled : state.keys ≠ [])
    (taken : next state step = some after) : after.keys ≠ [] ↔ SparesKey state step := by
  cases step with
  | arrive header change =>
    simp only [next] at taken
    split_ifs at taken <;> cases taken <;> exact iff_of_true filled nofun
  | check change =>
    simp only [next] at taken
    split_ifs at taken
    split at taken <;> cases taken <;> exact iff_of_true filled nofun
  | write change =>
    simp only [next] at taken
    split_ifs at taken
    cases taken
    cases change with
    | addApiKey key => exact iff_of_true (List.append_ne_nil_of_right_ne_nil _ (List.cons_ne_nil _ _)) nofun
    | revokeApiKey key =>
      simp [Change.write, SparesKey]

/-- In every run that never revokes the last key the server authenticates, and the first step that
does so is the first after which it does not. -/
theorem authenticates_of_run (first : String) (more : List String) {state : State}
    (run : Runs next SparesKey (start first more) state) :
    Authenticates state.keys ∧ ∀ step after, next state step = some after →
      (Authenticates after.keys ↔ SparesKey state step) := by
  have filled : state.keys ≠ [] := run.invariant
    (fun _ _ _ held spared taken => (next_filled held taken).mpr spared) (List.cons_ne_nil _ _)
  refine ⟨authenticates_iff.mpr filled, fun step after taken => ?_⟩
  rw [authenticates_iff]
  exact next_filled filled taken

/-- One of two keys is revoked by a request that carries the other. -/
theorem authenticates_rotated : Authenticates ["new"] := by
  have arrived : next (start "old" ["new"]) (.arrive (some "Bearer new") (.revokeApiKey "old")) =
      some ⟨["old", "new"], [.revokeApiKey "old"], []⟩ := by decide +kernel
  have checked : next ⟨["old", "new"], [.revokeApiKey "old"], []⟩ (.check (.revokeApiKey "old")) =
      some ⟨["old", "new"], [], [.revokeApiKey "old"]⟩ := by decide +kernel
  have written : next ⟨["old", "new"], [], [.revokeApiKey "old"]⟩ (.write (.revokeApiKey "old")) =
      some ⟨["new"], [], []⟩ := by decide +kernel
  have spared : SparesKey ⟨["old", "new"], [], [.revokeApiKey "old"]⟩
      (.write (.revokeApiKey "old")) := by
    rintro _ ⟨⟩
    exact ⟨"new", by decide, by decide⟩
  refine (authenticates_of_run "old" ["new"] (.step _ (.step _ (.step _ (.done _) ?_ arrived)
    ?_ checked) spared written)).1
  · rintro _ ⟨⟩
  · rintro _ ⟨⟩

/-- The only key is revoked by a request that carries it, and then a request without one passes. -/
theorem lastKey_revoked : ∃ state, Runs next (fun _ _ => True) (start "secret" []) state ∧
    passes state.keys "/polargraph.v1.PolarGraphService/Insert" none = true := by
  have arrived : next (start "secret" []) (.arrive (some "Bearer secret") (.revokeApiKey "secret")) =
      some ⟨["secret"], [.revokeApiKey "secret"], []⟩ := by decide +kernel
  have checked : next ⟨["secret"], [.revokeApiKey "secret"], []⟩ (.check (.revokeApiKey "secret")) =
      some ⟨["secret"], [], [.revokeApiKey "secret"]⟩ := by decide +kernel
  have written : next ⟨["secret"], [], [.revokeApiKey "secret"]⟩ (.write (.revokeApiKey "secret")) =
      some ⟨[], [], []⟩ := by decide +kernel
  exact ⟨_, .step _ (.step _ (.step _ (.done _) trivial arrived) trivial checked) trivial written, rfl⟩

end ApiKeys

end Polargraph
