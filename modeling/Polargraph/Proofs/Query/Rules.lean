import Mathlib.Data.Set.Finite.List
import Polargraph.Proofs.Query.Evaluate
import Polargraph.Proofs.Server.DeleteTriples
import Polargraph.Query.Rules

/-! Rules are run to the least facts closed under them, when no unseeded head is stored. -/

namespace Polargraph

variable {ext : External} {snapshot : Snapshot}

namespace Snapshot

/-- Of a predicate that is not stored no readable quad is shown. -/
theorem Unstored.absent (intact : snapshot.store.Intact ext) {name : String}
    (unstored : snapshot.Unstored ext name) {ids : QuadIds}
    (readable : snapshot.point.canRead ids.g = true)
    (shows : snapshot.store.Shows snapshot.point.ts snapshot.vt ids) :
    snapshot.store.predicateId name ≠ some ids.p := by
  intro known
  obtain ⟨quads, done, result⟩ := snapshot.evaluate_spec intact ⟨none, some name, none⟩
  have wanted : snapshot.store.Wanted none (some name) none .union snapshot.point ids :=
    ⟨nofun, fun other same => by rw [← Option.some.inj same, known], nofun, rfl, readable⟩
  -- In the lowest graph that shows the triple it would be read by its predicate.
  obtain ⟨g, answers, here⟩ := @exists_answers snapshot ⟨none, some name, none⟩ ids wanted shows
  have member := (result.mem_iff { ids with g := g }).mpr ⟨answers, here⟩
  have blank : quads.map Prod.snd = [] := Except.ok.inj (done.symm.trans unstored)
  rw [List.map_eq_nil_iff.mp blank] at member
  cases member

/-- A predicate that is not stored is not read under its own or another name. -/
theorem Unstored.evaluate (intact : snapshot.store.Intact ext) {name other : String}
    (unstored : snapshot.Unstored ext name)
    (same : snapshot.store.predicateId name = snapshot.store.predicateId other)
    (s o : Option NodeId) : snapshot.evaluate ext ⟨s, some other, o⟩ = .ok [] := by
  obtain ⟨quads, done, result⟩ := snapshot.evaluate_spec intact ⟨s, some other, o⟩
  cases quads with
  | nil => exact done
  | cons quad rest =>
    obtain ⟨answers, shows⟩ := (result.mem_iff quad.1).mp (by simp)
    exact absurd (same.trans (answers.wanted.predicate other rfl))
      (unstored.absent intact answers.wanted.readable shows)

/-- A stored triple that is read is not of a predicate that is not stored. -/
theorem Unstored.predicateId_ne (intact : snapshot.store.Intact ext) {name : String}
    (unstored : snapshot.Unstored ext name) {ids : QuadIds} {triple : Triple}
    (readable : snapshot.point.canRead ids.g = true)
    (shows : snapshot.store.Shows snapshot.point.ts snapshot.vt ids)
    (read : snapshot.store.ReadFrom ext snapshot.point.ts snapshot.vt ids triple) :
    snapshot.store.predicateId name ≠ snapshot.store.predicateId triple.predicate := by
  rw [predicateId_of_read intact.sound.keyed read]
  exact unstored.absent intact readable shows

/-- A quad that a scoped scan finds is shown, readable, and read from its own version. -/
theorem exists_of_scanScoped (intact : snapshot.store.Intact ext) {pattern : Pattern}
    {scope : GraphScope} {found : List (GraphId × Triple)}
    (done : snapshot.scanScoped ext pattern scope = .ok found) {quad : GraphId × Triple}
    (member : quad ∈ found) : ∃ ids, ids.g = quad.1 ∧ snapshot.store.Wanted pattern.subject
        pattern.predicate pattern.object scope snapshot.point ids ∧
      snapshot.store.Shows snapshot.point.ts snapshot.vt ids ∧
      snapshot.store.ReadFrom ext snapshot.point.ts snapshot.vt ids quad.2 := by
  obtain ⟨quads, rfl, result⟩ := TripleStore.scanScopedAt_spec intact.sound.keyed.holds done
  obtain ⟨read, inside, rfl⟩ := List.mem_map.mp member
  obtain ⟨wanted, shows⟩ := (result.mem_iff read.1).mp (List.mem_map.mpr ⟨read, inside, rfl⟩)
  exact ⟨read.1, rfl, wanted, shows, result.read read inside⟩

/-- In an intact store the visit of a node succeeds. -/
theorem exists_visitHops (intact : snapshot.store.Intact ext) (predicate : String) (hops : Nat)
    (visited frontier : List NodeId) :
    ∃ nodes, snapshot.visitHops ext predicate hops visited frontier = .ok nodes := by
  have visit : ∀ (nodes : List NodeId) state,
      ∃ next, nodes.foldlM (snapshot.visitNode ext predicate) state = .ok next := by
    intro nodes
    induction nodes with
    | nil => exact fun state => ⟨state, rfl⟩
    | cons node rest ih =>
      intro state
      obtain ⟨triples, read⟩ := exists_evaluate intact ⟨some node, some predicate, none⟩
      obtain ⟨next, done⟩ := ih _
      exact ⟨next, by
        rw [List.foldlM_cons]
        exact Except.bind_eq_ok.mpr ⟨_, Except.bind_eq_ok.mpr ⟨triples, read, rfl⟩, done⟩⟩
  induction hops generalizing visited frontier with
  | zero => exact ⟨visited, rfl⟩
  | succ hops ih =>
    obtain ⟨⟨seen, next⟩, done⟩ := visit frontier (visited, [])
    obtain ⟨nodes, rest⟩ := ih seen next
    by_cases last : next.isEmpty = true
    · refine ⟨seen, Except.bind_eq_ok.mpr ⟨_, done, ?_⟩⟩
      simp [last]
    · refine ⟨nodes, Except.bind_eq_ok.mpr ⟨_, done, ?_⟩⟩
      simpa [last] using rest

/-- In an intact store paths are followed without failure. -/
theorem exists_matchPath (intact : snapshot.store.Intact ext) (vp : VarPattern) (hops : Nat)
    (sol : Solution) : ∃ found, snapshot.matchPath ext vp hops sol = .ok found := by
  unfold matchPath
  cases vp.predicate with
  | none => exact ⟨[], rfl⟩
  | some predicate =>
    dsimp only
    split_ifs
    · exact ⟨[], rfl⟩
    · have starts : ∃ starts, snapshot.pathStarts ext predicate (resolveTerm ext sol vp.subject) =
          .ok starts := by
        unfold pathStarts
        cases resolveTerm ext sol vp.subject with
        | some node => exact ⟨_, rfl⟩
        | none =>
          obtain ⟨triples, read⟩ := exists_evaluate intact ⟨none, some predicate, none⟩
          exact ⟨_, Except.bind_eq_ok.mpr ⟨triples, read, rfl⟩⟩
      obtain ⟨starts, done⟩ := starts
      have each : ∀ start, ∃ found, snapshot.pathsFrom ext vp predicate hops sol start = .ok found := by
        intro start
        unfold pathsFrom
        cases sol.bindNode vp.subject start with
        | none => exact ⟨[], rfl⟩
        | some base =>
          obtain ⟨nodes, reached⟩ := exists_visitHops intact predicate hops [] [start]
          exact ⟨_, Except.bind_eq_ok.mpr ⟨nodes, reached, rfl⟩⟩
      choose found paths using each
      exact ⟨_, Except.bind_eq_ok.mpr ⟨starts, done, Except.bind_eq_ok.mpr
        ⟨starts.map found, Except.mapM_eq_ok.mpr (List.forall₂_map_right_iff.mpr
          (List.forall₂_same.mpr fun start _ => paths start)), rfl⟩⟩⟩

/-- No path along a predicate that is not stored is found. -/
theorem Unstored.matchPath (intact : snapshot.store.Intact ext) {held name : String}
    (unstored : snapshot.Unstored ext held)
    (same : snapshot.store.predicateId held = snapshot.store.predicateId name) {vp : VarPattern}
    (named : vp.predicate = some name) {hops : Nat} {sol : Solution} {found : List Solution}
    (done : snapshot.matchPath ext vp hops sol = .ok found) : found = [] := by
  -- The first step from any start finds no edge.
  have reach : ∀ start, snapshot.reachableFromHops ext start name hops = .ok [] := by
    intro start
    cases hops with
    | zero => rfl
    | succ hops =>
      have read : snapshot.scanBySubjectPredicate ext start name = .ok [] :=
        unstored.evaluate intact same (some start) none
      have visit : [start].foldlM (snapshot.visitNode ext name) ([], []) = .ok ([], []) := by
        rw [List.foldlM_cons]
        exact Except.bind_eq_ok.mpr ⟨_, Except.bind_eq_ok.mpr ⟨[], read, rfl⟩, rfl⟩
      exact Except.bind_eq_ok.mpr ⟨_, visit, rfl⟩
  unfold Snapshot.matchPath at done
  rw [named] at done
  dsimp only at done
  split_ifs at done
  · exact (Except.ok.inj done).symm
  · obtain ⟨starts, _, done⟩ := Except.bind_eq_ok.mp done
    obtain ⟨parts, each, done⟩ := Except.bind_eq_ok.mp done
    cases done
    refine List.flatten_eq_nil_iff.mpr fun part member => ?_
    obtain ⟨start, _, paths⟩ := (Except.mem_of_mapM each).mp member
    unfold pathsFrom at paths
    split at paths
    · exact (Except.ok.inj paths).symm
    · obtain ⟨nodes, reached, paths⟩ := Except.bind_eq_ok.mp paths
      cases (reach start).symm.trans reached
      exact (Except.ok.inj paths).symm

end Snapshot

namespace DerivedFacts

/-- Looking up a key of a map with entries is looking it up in the list of them. -/
private theorem latest_lookup {σ : Type} (key : String) (slots : List (String × σ)) :
    Latest.lookup key slots = slots.lookup key := by
  induction slots with
  | nil => rfl
  | cons head rest ih =>
    obtain ⟨other, slot⟩ := head
    rw [Latest.lookup, List.lookup_cons, ih]
    by_cases same : other = key
    · subst same
      simp
    · have apart : (key == other) = false := beq_false_of_ne (Ne.symm same)
      rw [if_neg same, apart]

/-- Facts inserted one after another are those there already and the new ones. -/
theorem mem_foldl_insertNew {α : Type} [DecidableEq α] (items : List α) (held : List α) (item : α) :
    item ∈ items.foldl insertNew held ↔ item ∈ held ∨ item ∈ items := by
  induction items generalizing held with
  | nil => simp
  | cons first rest ih =>
    rw [List.foldl_cons, ih, List.mem_cons]
    by_cases there : first ∈ held
    · rw [insertNew, if_pos there]
      constructor
      · exact fun member => member.imp_right Or.inr
      · rintro (old | rfl | later)
        · exact Or.inl old
        · exact Or.inl there
        · exact Or.inr later
    · rw [insertNew, if_neg there, List.mem_append, List.mem_singleton, or_assoc]

/-- The entry of a predicate after pairs were inserted. -/
theorem lookup_insert (name other : String) (pairs : List (NodeId × NodeId))
    (derived : DerivedFacts) :
    (Latest.entryUpdate name [] (fun held => pairs.foldl insertNew held) derived).lookup other =
      if other = name then some (pairs.foldl insertNew ((derived.lookup name).getD []))
      else derived.lookup other := by
  rw [← latest_lookup, ← latest_lookup, ← latest_lookup]
  split_ifs with same
  · rw [same, Latest.lookup_entryUpdate_self]
  · exact Latest.lookup_entryUpdate_ne same _ _ _

/-- The facts after pairs were inserted under a predicate. -/
theorem facts_insert (name : String) (pairs : List (NodeId × NodeId))
    (derived : DerivedFacts) :
    facts (Latest.entryUpdate name [] (fun held => pairs.foldl insertNew held) derived) =
      derived.facts ∪ {fact | fact.1 = name ∧ fact.2 ∈ pairs} := by
  ext ⟨other, pair⟩
  simp only [facts, Set.mem_ofPred_eq, Set.mem_union, lookup_insert]
  by_cases same : other = name
  · subst same
    simp only [if_true, Option.some.injEq, exists_eq_left', mem_foldl_insertNew, true_and]
    refine or_congr_left ?_
    cases derived.lookup other <;> simp
  · simp [same]

/-- The facts of a seed are held, under their predicates only. -/
theorem ofSeed_spec (seed : List Fact) : (ofSeed seed).facts = {fact | fact ∈ seed} ∧
    ∀ name, ((ofSeed seed).lookup name).isSome ↔ ∃ fact ∈ seed, fact.1 = name := by
  have loop : ∀ (rest : List Fact) (derived : DerivedFacts),
      facts (rest.foldl (fun derived fact =>
        Latest.entryUpdate fact.1 [] (fun held => insertNew held fact.2) derived) derived) =
          derived.facts ∪ {fact | fact ∈ rest} ∧
      ∀ name, ((rest.foldl (fun derived fact =>
        Latest.entryUpdate fact.1 [] (fun held => insertNew held fact.2) derived)
          derived).lookup name).isSome ↔
        (derived.lookup name).isSome ∨ ∃ fact ∈ rest, fact.1 = name := by
    intro rest
    induction rest with
    | nil => simp
    | cons fact rest ih =>
      intro derived
      obtain ⟨pred, s, o⟩ := fact
      obtain ⟨all, keys⟩ := ih (Latest.entryUpdate pred [] (fun held => insertNew held (s, o)) derived)
      have one := facts_insert pred [(s, o)] derived
      have key := fun name => lookup_insert pred name [(s, o)] derived
      simp only [List.foldl_cons, List.foldl_nil] at one key
      refine ⟨?_, fun name => ?_⟩
      · rw [List.foldl_cons, all, one]
        ext ⟨name, pair⟩
        simp only [Set.mem_union, Set.mem_ofPred_eq, List.mem_cons, List.not_mem_nil, or_false,
          Prod.mk.injEq, or_assoc]
      · rw [List.foldl_cons, keys, key]
        by_cases same : name = pred
        · simp [same]
        · simp [same, Ne.symm same]
  obtain ⟨all, keys⟩ := loop seed []
  refine ⟨?_, fun name => ?_⟩
  · refine all.trans ?_
    simp [facts]
  · refine (keys name).trans ?_
    simp

end DerivedFacts

namespace Snapshot

variable {seed : List Fact} {derived : Set String} {state : DerivedFacts} {body : List VarPattern}

/-- The facts held are of derived predicates, and a derived predicate without an entry is not stored. -/
structure Primed (ext : External) (snapshot : Snapshot) (derived : Set String)
    (state : DerivedFacts) : Prop where
  /-- Entries are of derived predicates. -/
  keys : ∀ name, (state.lookup name).isSome → name ∈ derived
  /-- A derived predicate without an entry is not stored. -/
  absent : ∀ name ∈ derived, state.lookup name = none → snapshot.Unstored ext name

/-- A match that binds no edge extends a solution whatever its edge and window. -/
private theorem extendFull_relation {vp : VarPattern} (unbound : vp.edgeVar = none) (s o : NodeId)
    (name : String) (edge other : EdgeId) (window during : BiTemporalRange) (sol : Solution) :
    extendFull (.relation s name o edge window) vp true sol =
      extendFull (.relation s name o other during) vp true sol := by
  simp only [extendFull, extendEdge, unbound]
  cases vp.object <;> rfl

/-- The predicate of a substituted pattern is that of the pattern, or is bound to its variable. -/
private theorem predicate_substitute {vp : VarPattern} {sol : Solution} {name : String}
    (given_ : (substitute ext vp sol).predicate = some name) :
    vp.predicate = some name ∨ (vp.predicate = none ∧
      ∃ var, vp.predicateVar = some var ∧ sol.preds.lookup var = some name) := by
  cases held : vp.predicate with
  | some other =>
    simp only [substitute, held, Option.some_or, Option.some.injEq] at given_
    exact Or.inl (by rw [given_])
  | none =>
    refine Or.inr ⟨rfl, ?_⟩
    cases bound : vp.predicateVar with
    | some var =>
      simp only [substitute, held, bound, Option.none_or, Option.bind_some] at given_
      exact ⟨var, rfl, given_⟩
    | none => simp [substitute, held, bound] at given_

/-- Variables that are bound to a derived predicate are those that a pattern of the body may bind. -/
def BindsNames (derived : Set String) (body : List VarPattern) (sol : Solution) : Prop :=
  ∀ var name, sol.preds.lookup var = some name → name ∈ derived → MayName derived body var

/-- Binding a variable to a node binds no predicate. -/
theorem preds_bindVar {sol next : Solution} {name : String} {node : NodeId}
    (bound : sol.bindVar name node = some next) : next.preds = sol.preds := by
  unfold Solution.bindVar at bound
  split_ifs at bound
  split at bound
  · split_ifs at bound
    cases bound
    rfl
  · cases bound
    rfl

/-- Binding a term to a node binds no predicate. -/
theorem preds_bindNode {sol next : Solution} {term : Term} {node : NodeId}
    (bound : sol.bindNode term node = some next) : next.preds = sol.preds := by
  cases term with
  | var name => exact preds_bindVar bound
  | literal value => cases bound
  | _ =>
    cases bound
    rfl

/-- Extending a solution by an object binds no predicate. -/
theorem preds_extendObject {triple : Triple} {object : Term} {bindValues : Bool}
    {sol next : Solution} (extended : extendObject triple object bindValues sol = some next) :
    next.preds = sol.preds := by
  unfold extendObject at extended
  split at extended
  · cases extended
    rfl
  · cases extended
    rfl
  · cases extended
    rfl
  · split at extended
    · split_ifs at extended
      cases extended
      rfl
    · cases extended
  · split at extended
    · exact preds_bindVar extended
    · split_ifs at extended
      unfold Solution.bindValue at extended
      split_ifs at extended
      split at extended
      · split_ifs at extended
        cases extended
        rfl
      · cases extended
        rfl
    · cases extended

/-- Extending a solution by a triple binds at most one variable to its predicate. -/
theorem preds_extendFull {triple : Triple} {vp : VarPattern} {bindValues : Bool}
    {sol next : Solution} (extended : extendFull triple vp bindValues sol = some next) :
    next.preds = sol.preds ∨ ∃ var, vp.predicateVar = some var ∧ sol.preds.lookup var = none ∧
      next.preds = (var, triple.predicate) :: sol.preds := by
  obtain ⟨first, subject, extended⟩ := Option.bind_eq_some_iff.mp extended
  obtain ⟨second, object, extended⟩ := Option.bind_eq_some_iff.mp extended
  obtain ⟨third, edge, extended⟩ := Option.bind_eq_some_iff.mp extended
  have kept : third.preds = sol.preds := by
    rw [← preds_bindNode subject, ← preds_extendObject object]
    unfold extendEdge at edge
    split at edge
    · exact preds_bindVar edge
    · cases edge
      rfl
  unfold extendPred at extended
  split at extended
  · rename_i var named
    unfold Solution.bindPred at extended
    split at extended
    · split_ifs at extended
      cases extended
      exact Or.inl kept
    · rename_i free
      cases extended
      rw [kept] at free
      exact Or.inr ⟨var, named, free, by rw [kept]⟩
  · cases extended
    exact Or.inl kept

/-- What extends a solution keeps its variables of derived predicates to those that may name one. -/
theorem BindsNames.extends {facts : Set Fact} {body : List VarPattern} {vp : VarPattern}
    (member : vp ∈ body) {sol next : Solution} (binds : BindsNames derived body sol)
    (extended : snapshot.Extends ext derived facts vp sol next) : BindsNames derived body next := by
  -- A new binding is to the predicate of a match.
  have matched : ∀ {triple : Triple} {full : Solution}, extendFull triple vp true sol = some full →
      (triple.predicate ∈ derived → vp.predicate = some triple.predicate ∨
        ∃ var, vp.predicateVar = some var ∧ sol.preds.lookup var = some triple.predicate) →
      full.preds = next.preds → BindsNames derived body next := by
    intro triple full more names same var name found inside
    rw [← same] at found
    rcases preds_extendFull more with kept | ⟨own, bound, free, grown⟩
    · rw [kept] at found
      exact binds var name found inside
    · rw [grown, List.lookup_cons] at found
      by_cases here : var = own
      · subst here
        simp only [beq_self_eq_true, Option.some.injEq] at found
        subst found
        rcases names inside with named | ⟨other, again, held⟩
        · exact ⟨vp, member, bound, triple.predicate, inside, named⟩
        · cases bound.symm.trans again
          rw [free] at held
          cases held
      · rw [beq_false_of_ne here] at found
        exact binds var name found inside
  -- A stored triple that extends a solution is of no derived predicate.
  have stored : ∀ {triple : Triple}, ¬ snapshot.IsOf derived triple → triple.predicate ∈ derived →
      False := fun apart inside => apart ⟨_, inside, rfl⟩
  unfold Extends at extended
  split at extended
  · -- A path binds nodes only.
    have along : next.preds = sol.preds := by
      have target : ∀ {base : Solution} {node : NodeId}, bindTarget vp.object base node = some next →
          next.preds = base.preds := by
        intro base node bound
        unfold bindTarget at bound
        split at bound
        · split_ifs at bound
          cases bound
          rfl
        · cases bound
        · exact preds_bindNode bound
      obtain ⟨name, _, ⟨_, _, _, base, _, _, bound, reached⟩ | ⟨_, items, done, inside⟩⟩ := extended
      · rw [target reached, preds_bindNode bound]
      · unfold matchPath at done
        split at done
        · cases done
          cases inside
        · dsimp only at done
          split_ifs at done
          · cases done
            cases inside
          · obtain ⟨starts, _, done⟩ := Except.bind_eq_ok.mp done
            obtain ⟨parts, each, done⟩ := Except.bind_eq_ok.mp done
            cases done
            obtain ⟨part, there, here⟩ := List.mem_flatten.mp inside
            obtain ⟨start, _, paths⟩ := (Except.mem_of_mapM each).mp there
            unfold pathsFrom at paths
            split at paths
            · cases paths
              cases here
            · rename_i base bound
              obtain ⟨nodes, _, paths⟩ := Except.bind_eq_ok.mp paths
              cases paths
              obtain ⟨node, _, reached⟩ := List.mem_filterMap.mp here
              rw [target reached, preds_bindNode bound]
    intro var name found
    rw [along] at found
    exact binds var name found
  · split at extended
    · obtain ⟨triple, ⟨name, s, o, edge, window, inside, given_, _, _, _, rfl⟩ | ⟨_, apart⟩, more⟩ :=
        extended
      · exact matched more (fun _ => (predicate_substitute given_).imp_right And.right) rfl
      · exact matched more (fun inside => (stored apart inside).elim) rfl
    · obtain ⟨quad, _, apart, more⟩ := extended
      obtain ⟨full, first, more⟩ := Option.bind_eq_some_iff.mp more
      refine matched first (fun inside => (stored apart inside).elim) ?_
      split at more
      · obtain ⟨node, _, bound⟩ := Option.bind_eq_some_iff.mp more
        exact (preds_bindVar bound).symm
      · cases more
        rfl

/-- No readable triple of a derived predicate is read by a pattern kept apart from them. -/
private theorem Separate.not_isOf (intact : snapshot.store.Intact ext) {vp : VarPattern}
    (separate : snapshot.Separate ext derived body vp) {sol : Solution}
    (named : ∀ name ∈ derived, (substitute ext vp sol).predicate = some name →
      snapshot.Unstored ext name) {ids : QuadIds} {triple : Triple}
    (asked : ∀ name, (substitute ext vp sol).predicate = some name →
      snapshot.store.predicateId name = some ids.p)
    (readable : snapshot.point.canRead ids.g = true)
    (shows : snapshot.store.Shows snapshot.point.ts snapshot.vt ids)
    (read : snapshot.store.ReadFrom ext snapshot.point.ts snapshot.vt ids triple) :
    ¬ snapshot.IsOf derived triple := by
  rintro ⟨held, inside, same⟩
  -- A derived predicate that is stored is read by no pattern but its own.
  have stored : ¬ snapshot.Unstored ext held := fun unstored =>
    unstored.predicateId_ne intact readable shows read same
  cases given_ : vp.predicate with
  | none => exact stored (separate.all given_ held inside)
  | some name =>
    have whole : (substitute ext vp sol).predicate = some name := by simp [substitute, given_]
    by_cases own : name ∈ derived
    · exact (named name own whole).absent intact readable shows (asked name whole)
    · rw [predicateId_of_read intact.sound.keyed read, ← asked name whole] at same
      exact stored (separate.other name own given_ held inside same)

/-- Stored and derived triples of a pattern extend a solution as the pattern says. -/
private theorem evaluateHybrid_spec (intact : snapshot.store.Intact ext)
    (primed : Primed ext snapshot derived state) {vp : VarPattern}
    (separate : snapshot.Separate ext derived body vp) (edges : NodeId × NodeId → EdgeId)
    {sol : Solution} (binds : BindsNames derived body sol) : ∃ triples,
      snapshot.evaluateHybrid ext edges state (substitute ext vp sol) = .ok triples ∧
      ∀ next, (∃ triple ∈ triples, extendFull triple vp true sol = some next) ↔
        ∃ triple, snapshot.Stands ext derived state.facts (substitute ext vp sol) triple ∧
          extendFull triple vp true sol = some next := by
  obtain ⟨triples, done⟩ := exists_evaluate intact (substitute ext vp sol)
  -- A pattern that names no derived predicate with an entry is evaluated on the store.
  have stored : (∀ name ∈ derived, (substitute ext vp sol).predicate = some name →
        state.lookup name = none) →
      snapshot.evaluateHybrid ext edges state (substitute ext vp sol) = .ok triples ∧
      ∀ triple, triple ∈ triples ↔
        snapshot.Stands ext derived state.facts (substitute ext vp sol) triple := by
    intro missing
    have unheld : ∀ name, (substitute ext vp sol).predicate = some name →
        state.lookup name = none := by
      intro name given_
      cases found : state.lookup name with
      | none => rfl
      | some pairs =>
        rw [missing name (primed.keys name (by rw [found]; rfl)) given_] at found
        cases found
    refine ⟨?_, fun triple => ⟨fun member => Or.inr ⟨⟨triples, done, member⟩, ?_⟩, ?_⟩⟩
    · have none : ((substitute ext vp sol).predicate.bind fun predicate =>
          (state.lookup predicate).map fun pairs => (predicate, pairs)) = none := by
        cases given_ : (substitute ext vp sol).predicate with
        | none => rfl
        | some name => simp [unheld name given_]
      rw [evaluateHybrid, none]
      exact done
    · obtain ⟨ids, answers, shows, read⟩ := exists_of_evaluate intact done member
      exact separate.not_isOf intact
        (fun name inside given_ => primed.absent name inside (missing name inside given_))
        answers.wanted.predicate answers.wanted.readable shows read
    · rintro (⟨name, s, o, edge, window, _, given_, ⟨pairs, found, _⟩, _⟩ | ⟨⟨items, same, member⟩, _⟩)
      · rw [unheld name given_] at found
        cases found
      · cases done.symm.trans same
        exact member
  by_cases named : ∃ name ∈ derived, (substitute ext vp sol).predicate = some name ∧
      (state.lookup name).isSome
  · -- A derived predicate with an entry has its facts for matches.
    obtain ⟨name, inside, given_, entry⟩ := named
    obtain ⟨pairs, found⟩ := Option.isSome_iff_exists.mp entry
    have unbound : vp.edgeVar = none := by
      rcases predicate_substitute given_ with own | ⟨free, var⟩
      · exact (separate.plain name inside own).2.1
      · obtain ⟨var, bound, held⟩ := var
        exact separate.free var free bound (binds var name held inside)
    have agrees : ∀ (slot : Option NodeId) (node : NodeId),
        slot.all (fun own => decide (own = node)) = true ↔ ∀ own, slot = some own → own = node := by
      intro slot node
      cases slot <;> simp
    refine ⟨_, by rw [evaluateHybrid, given_, Option.bind_some, found]; rfl, fun next => ?_⟩
    constructor
    · rintro ⟨triple, member, extended⟩
      obtain ⟨pair, held, rfl⟩ := List.mem_map.mp member
      obtain ⟨there, slots⟩ := List.mem_filter.mp held
      obtain ⟨subject, object⟩ := Bool.and_eq_true_iff.mp slots
      exact ⟨_, Or.inl ⟨name, pair.1, pair.2, edges pair, _, inside, given_, ⟨pairs, found, there⟩,
        (agrees _ _).mp subject, (agrees _ _).mp object, rfl⟩, extended⟩
    · rintro ⟨triple, stands, extended⟩
      rcases stands with ⟨other, s, o, edge, window, _, again, fact, subject, object, rfl⟩ | stored_
      · obtain rfl := Option.some.inj (given_.symm.trans again)
        obtain ⟨_, same, there⟩ := fact
        cases found.symm.trans same
        refine ⟨_, List.mem_map.mpr ⟨(s, o), List.mem_filter.mpr ⟨there, ?_⟩, rfl⟩, ?_⟩
        · exact Bool.and_eq_true_iff.mpr ⟨(agrees _ _).mpr subject, (agrees _ _).mpr object⟩
        · rw [← extended]
          exact extendFull_relation unbound _ _ _ _ _ _ _ _
      · -- What the store has of a derived predicate stands for nothing.
        obtain ⟨⟨items, same, member⟩, apart⟩ := stored_
        obtain ⟨ids, answers, shows, read⟩ := exists_of_evaluate intact same member
        refine absurd ⟨name, inside, ?_⟩ apart
        rw [predicateId_of_read intact.sound.keyed read]
        exact answers.wanted.predicate name given_
  · obtain ⟨evaluated, members⟩ := stored fun name inside given_ => by
      cases found : state.lookup name with
      | none => rfl
      | some pairs => exact absurd ⟨name, inside, given_, by rw [found]; rfl⟩ named
    exact ⟨triples, evaluated, fun next => by simp only [members]⟩

/-- In an intact store a pattern kept apart extends a solution as it says, however it is read. -/
theorem matchOne_spec (intact : snapshot.store.Intact ext)
    (primed : Primed ext snapshot derived state) {vp : VarPattern}
    (separate : snapshot.Separate ext derived body vp) (edges : NodeId × NodeId → EdgeId)
    {sol : Solution} (binds : BindsNames derived body sol) : ∃ found,
      snapshot.matchOne ext true (snapshot.evaluateHybrid ext edges state) vp sol = .ok found ∧
      ∀ next, next ∈ found ↔ snapshot.Extends ext derived state.facts vp sol next := by
  unfold matchOne Extends
  cases length : vp.maxHops with
  | some hops =>
    dsimp only
    obtain ⟨found, done⟩ := exists_matchPath intact vp hops sol
    refine ⟨found, done, fun next => ?_⟩
    cases named : vp.predicate with
    | none =>
      rw [matchPath, named] at done
      cases done
      simp
    | some name =>
      -- Paths are followed over predicates that are not derived only.
      have outside : name ∉ derived := fun inside => by
        have plain := (separate.plain name inside named).1
        rw [length] at plain
        cases plain
      constructor
      · intro member
        refine ⟨name, rfl, Or.inr ⟨fun other inside same => ?_, found, done, member⟩⟩
        have blank := (separate.other name outside named other inside same).matchPath intact same
          named done
        rw [blank] at member
        cases member
      · rintro ⟨other, own, ways⟩
        cases own
        rcases ways with ⟨inside, _⟩ | ⟨_, items, same, member⟩
        · exact absurd inside outside
        · cases done.symm.trans same
          exact member
  | none =>
    dsimp only
    unfold matchPattern
    cases scope : snapshot.graphScope ext sol vp.graph with
    | none =>
      dsimp only
      obtain ⟨triples, done, members⟩ := evaluateHybrid_spec intact primed separate edges binds
      refine ⟨_, Except.bind_eq_ok.mpr ⟨triples, done, rfl⟩, fun next => ?_⟩
      rw [List.mem_filterMap]
      exact members next
    | some scope_ =>
      dsimp only
      obtain ⟨quads, done⟩ := intact.scans (substitute ext vp sol).subject
        (substitute ext vp sol).predicate (substitute ext vp sol).object scope_ snapshot.point
        snapshot.now
      refine ⟨_, Except.bind_eq_ok.mpr ⟨quads, done, rfl⟩, fun next => ?_⟩
      rw [List.mem_filterMap]
      have united : vp.graph ≠ .union := by
        intro same
        rw [same] at scope
        cases scope
      constructor
      · rintro ⟨quad, member, extended⟩
        refine ⟨quad, ⟨quads, done, member⟩, ?_, extended⟩
        obtain ⟨ids, _, wanted, shows, read⟩ := exists_of_scanScoped intact done member
        refine separate.not_isOf intact (fun name inside given_ => ?_) wanted.predicate
          wanted.readable shows read
        rcases predicate_substitute given_ with own | ⟨free, _⟩
        · exact ((separate.plain name inside own).2.2).resolve_left united
        · exact separate.all free name inside
      · rintro ⟨quad, ⟨items, same, member⟩, _, extended⟩
        cases done.symm.trans same
        exact ⟨quad, member, extended⟩

end Snapshot

/-- Patterns that extend solutions as a relation says are evaluated to what they say together. -/
theorem Snapshot.evaluateSolutions_spec {bindValues : Bool}
    {scan : Pattern → Except StorageError (List Triple)} {holds : Solution → Prop}
    {extends_ : VarPattern → Solution → Solution → Prop} (body : List VarPattern)
    (each : ∀ vp ∈ body, ∀ sol, holds sol → ∃ found,
      snapshot.matchOne ext bindValues scan vp sol = .ok found ∧
      ∀ next, next ∈ found ↔ extends_ vp sol next)
    (keeps : ∀ vp ∈ body, ∀ sol next, holds sol → extends_ vp sol next → holds next)
    {solutions : List Solution} (all : ∀ sol ∈ solutions, holds sol) :
    ∃ found, snapshot.evaluateSolutions ext bindValues scan body solutions = .ok found ∧
      ∀ last, last ∈ found ↔ ∃ sol ∈ solutions, Solves extends_ body sol last := by
  induction body generalizing solutions with
  | nil => cases solutions <;> exact ⟨_, rfl, by simp [Solves]⟩
  | cons vp rest ih =>
    cases solutions with
    | nil => exact ⟨[], rfl, by simp⟩
    | cons first others =>
      obtain ⟨found, done⟩ := Except.mapM_isOk_iff.mpr fun sol member =>
        let ⟨found, matched, _⟩ := each vp List.mem_cons_self sol (all sol member)
        ⟨found, matched⟩
      -- What the first pattern finds is what extends one of the solutions.
      have step : ∀ next, next ∈ found.flatten ↔
          ∃ sol ∈ first :: others, extends_ vp sol next := by
        intro next
        rw [List.mem_flatten]
        constructor
        · rintro ⟨part, inside, here⟩
          obtain ⟨sol, start, matched⟩ := (Except.mem_of_mapM done).mp inside
          obtain ⟨own, again, members⟩ := each vp List.mem_cons_self sol (all sol start)
          cases matched.symm.trans again
          exact ⟨sol, start, (members next).mp here⟩
        · rintro ⟨sol, start, extended⟩
          obtain ⟨own, matched, members⟩ := each vp List.mem_cons_self sol (all sol start)
          exact ⟨own, (Except.mem_of_mapM done).mpr ⟨sol, start, matched⟩,
            (members next).mpr extended⟩
      obtain ⟨result, evaluated, solved⟩ := @ih
        (fun other member => each other (List.mem_cons_of_mem _ member))
        (fun other member => keeps other (List.mem_cons_of_mem _ member)) found.flatten
        (fun next member =>
          let ⟨sol, start, extended⟩ := (step next).mp member
          keeps vp List.mem_cons_self sol next (all sol start) extended)
      refine ⟨result, Except.bind_eq_ok.mpr ⟨_, done, evaluated⟩, fun last => ?_⟩
      rw [solved]
      constructor
      · rintro ⟨next, member, rest_⟩
        obtain ⟨sol, start, extended⟩ := (step next).mp member
        exact ⟨sol, start, next, extended, rest_⟩
      · rintro ⟨sol, start, next, extended, rest_⟩
        exact ⟨next, (step next).mpr ⟨sol, start, extended⟩, rest_⟩

namespace Snapshot

variable {seed : List Fact} {derived : Set String} {state : DerivedFacts} {body : List VarPattern}

/-- More facts reach more. -/
private theorem reaches_mono {facts more : Set Fact} (grows : facts ⊆ more) {name : String}
    {hops : Nat} {start target : NodeId} (reaches : Reaches facts name hops start target) :
    Reaches more name hops start target := by
  induction hops generalizing start with
  | zero => exact reaches
  | succ hops ih =>
    rcases reaches with step | ⟨middle, step, rest⟩
    · exact Or.inl (grows step)
    · exact Or.inr ⟨middle, grows step, ih rest⟩

/-- More facts extend more solutions. -/
private theorem extends_mono {facts more : Set Fact} (grows : facts ⊆ more) {vp : VarPattern}
    {sol next : Solution} (extended : snapshot.Extends ext derived facts vp sol next) :
    snapshot.Extends ext derived more vp sol next := by
  unfold Extends at extended ⊢
  cases length : vp.maxHops with
  | some hops =>
    rw [length] at extended
    obtain ⟨name, named, ⟨inside, start, target, base, bound, reaches, rest⟩ | stored⟩ := extended
    · exact ⟨name, named,
        Or.inl ⟨inside, start, target, base, bound, reaches_mono grows reaches, rest⟩⟩
    · exact ⟨name, named, Or.inr stored⟩
  | none =>
    rw [length] at extended
    dsimp only at extended ⊢
    cases scope : snapshot.graphScope ext sol vp.graph with
    | none =>
      rw [scope] at extended
      obtain ⟨triple, ⟨name, s, o, edge, window, inside, given_, fact, rest⟩ | stored, next_⟩ :=
        extended
      · exact ⟨triple, Or.inl ⟨name, s, o, edge, window, inside, given_, grows fact, rest⟩, next_⟩
      · exact ⟨triple, Or.inr stored, next_⟩
    | some scope_ =>
      rw [scope] at extended
      exact extended

/-- More facts solve more bodies. -/
private theorem solves_mono {extends_ more : VarPattern → Solution → Solution → Prop}
    (grows : ∀ vp sol next, extends_ vp sol next → more vp sol next) {body : List VarPattern}
    {sol last : Solution} (solved : Solves extends_ body sol last) : Solves more body sol last := by
  induction body generalizing sol with
  | nil => exact solved
  | cons vp rest ih =>
    obtain ⟨next, extended, rest_⟩ := solved
    exact ⟨next, grows _ _ _ extended, ih rest_⟩

/-- A rule derives more from more facts. -/
theorem derives_mono (rule : Rule) : Monotone (snapshot.derives ext derived rule) := by
  intro facts more grows fact ⟨head, sol, solved, pair⟩
  exact ⟨head, sol, solves_mono (fun _ _ _ => extends_mono grows) solved, pair⟩

/-- The rules that a snapshot can run on derived facts only. -/
def Runnable (ext : External) (snapshot : Snapshot) (derived : Set String) (rules : List Rule) :
    Prop :=
  ∀ rule ∈ rules, rule.headPredicate ∈ derived ∧
    ∀ vp ∈ rule.body, snapshot.Separate ext derived rule.body vp

/-- Applying a rule whose body has some solutions adds what these derive. -/
theorem applyRule_of_solved {edges : NodeId × NodeId → EdgeId} {rule : Rule}
    {solutions : List Solution} (added : Bool)
    (evaluated : snapshot.executeQueryHybridFull ext edges rule.body state = .ok solutions)
    {derive : Set Fact} (derives : derive =
      {fact | fact.1 = rule.headPredicate ∧ fact.2 ∈ solutions.filterMap (derivedPair rule)}) :
    ∃ next again, snapshot.applyRule ext edges (state, added) rule = .ok (next, again) ∧
      (∀ name, (next.lookup name).isSome ↔
        name = rule.headPredicate ∨ (state.lookup name).isSome) ∧
      next.facts = state.facts ∪ derive ∧ (again = true ↔ added = true ∨ ¬ derive ⊆ state.facts) := by
  refine ⟨_, _, Except.bind_eq_ok.mpr ⟨solutions, evaluated, rfl⟩, fun name => ?_, ?_, ?_⟩
  · rw [DerivedFacts.lookup_insert]
    split_ifs with same <;> simp [same]
  · rw [derives]
    exact DerivedFacts.facts_insert _ _ _
  · rw [derives, Bool.or_eq_true, List.any_eq_true]
    refine or_congr_right ?_
    -- A pair is new when the entry of the head, if any, lacks it.
    have held : ∀ pair, (rule.headPredicate, pair) ∈ state.facts ↔
        pair ∈ (state.lookup rule.headPredicate).getD [] := by
      intro pair
      simp only [DerivedFacts.facts, Set.mem_ofPred_eq]
      cases state.lookup rule.headPredicate <;> simp
    constructor
    · rintro ⟨pair, member, new⟩ all
      have there := all (show (rule.headPredicate, pair) ∈ _ from ⟨rfl, member⟩)
      rw [held] at there
      simp [there] at new
    · intro new
      obtain ⟨⟨name, pair⟩, ⟨same, member⟩, absent⟩ := Set.not_subset.mp new
      obtain rfl : name = rule.headPredicate := same
      rw [held] at absent
      exact ⟨pair, member, by simpa using absent⟩

/-- Applying a rule adds what it derives, and reports whether that is anything new. -/
theorem applyRule_spec (intact : snapshot.store.Intact ext)
    (primed : Primed ext snapshot derived state) {rule : Rule} (head : rule.headPredicate ∈ derived)
    (separate : ∀ vp ∈ rule.body, snapshot.Separate ext derived rule.body vp)
    (edges : NodeId × NodeId → EdgeId) (added : Bool) : ∃ next again,
      snapshot.applyRule ext edges (state, added) rule = .ok (next, again) ∧
      Primed ext snapshot derived next ∧
      next.facts = state.facts ∪ snapshot.derives ext derived rule state.facts ∧
      (again = true ↔
        added = true ∨ ¬ snapshot.derives ext derived rule state.facts ⊆ state.facts) := by
  have start : ∀ sol ∈ [Solution.empty], BindsNames derived rule.body sol := by
    intro sol member
    cases List.mem_singleton.mp member
    exact fun _ _ => nofun
  obtain ⟨solutions, evaluated, solved⟩ := evaluateSolutions_spec rule.body
    (fun vp member sol => matchOne_spec intact primed (separate vp member) edges)
    (fun vp member sol next binds extended => binds.extends member extended) start
  have derive : snapshot.derives ext derived rule state.facts =
      {fact | fact.1 = rule.headPredicate ∧ fact.2 ∈ solutions.filterMap (derivedPair rule)} := by
    ext fact
    simp only [derives, Set.mem_ofPred_eq, List.mem_filterMap, solved, List.mem_singleton,
      exists_eq_left]
  obtain ⟨next, again, applied, keys, facts, grew⟩ := applyRule_of_solved added evaluated derive
  refine ⟨next, again, applied, ⟨fun name entry => ?_, fun name inside missing => ?_⟩, facts, grew⟩
  · rcases (keys name).mp entry with same | held
    · rw [same]
      exact head
    · exact primed.keys name held
  · refine primed.absent name inside (Option.not_isSome_iff_eq_none.mp fun held => ?_)
    have entry := (keys name).mpr (.inr held)
    rw [missing] at entry
    cases entry

/-- Applying rules in turn is a pass, and reports whether it adds anything. -/
theorem foldlM_applyRule (intact : snapshot.store.Intact ext) (edges : NodeId × NodeId → EdgeId)
    {rules : List Rule} (runnable : Runnable ext snapshot derived rules)
    (primed : Primed ext snapshot derived state) (added : Bool) : ∃ next again,
      rules.foldlM (snapshot.applyRule ext edges) (state, added) = .ok (next, again) ∧
      Primed ext snapshot derived next ∧
      next.facts = LeastClosed.pass (snapshot.derives ext derived) rules state.facts ∧
      (again = true ↔ added = true ∨
        ¬ LeastClosed.pass (snapshot.derives ext derived) rules state.facts ⊆ state.facts) := by
  induction rules generalizing state added with
  | nil => exact ⟨state, added, rfl, primed, rfl, by simp [LeastClosed.pass]⟩
  | cons rule rest ih =>
    obtain ⟨head, separate⟩ := runnable rule List.mem_cons_self
    obtain ⟨middle, more, applied, primed', facts, grew⟩ :=
      applyRule_spec intact primed head separate edges added
    obtain ⟨next, again, done, primed'', all, grew'⟩ := ih
      (fun other member => runnable other (List.mem_cons_of_mem _ member)) primed' more
    have step : LeastClosed.pass (snapshot.derives ext derived) (rule :: rest) state.facts =
        LeastClosed.pass (snapshot.derives ext derived) rest middle.facts := by
      rw [LeastClosed.pass, List.foldl_cons, ← facts]
      rfl
    refine ⟨next, again, by
      rw [List.foldlM_cons]
      exact Except.bind_eq_ok.mpr ⟨_, applied, done⟩, primed'', by rw [all, step], ?_⟩
    rw [grew', grew, step, or_assoc]
    refine or_congr_right ?_
    have first : state.facts ⊆ middle.facts := by
      rw [facts]
      exact Set.subset_union_left
    have later : middle.facts ⊆ LeastClosed.pass (snapshot.derives ext derived) rest middle.facts :=
      LeastClosed.subset_pass
    -- Something is new in the end when the first rule or a later one added it.
    constructor
    · rintro (new | new) all_
      · refine new fun fact member => all_ (later ?_)
        rw [facts]
        exact Or.inr member
      · exact new (subset_trans all_ first)
    · intro new
      by_contra none
      obtain ⟨old, older⟩ := not_or.mp none
      have same : middle.facts ⊆ state.facts := by
        rw [facts]
        exact Set.union_subset (subset_refl _) (not_not.mp old)
      exact new (subset_trans (not_not.mp older) same)

/-- There are finitely many nodes. -/
theorem finite_nodeId : Finite NodeId := by
  have bytes : Finite UInt8 := Finite.of_injective UInt8.toFin fun _ _ => UInt8.toFin_inj.mp
  have wide : Finite {bytes : Bytes // bytes.length = 16} := (List.finite_length_eq UInt8 16).to_subtype
  refine Finite.of_injective
    (fun node : NodeId => (⟨node.uuid.bytes, node.uuid.width⟩ : {bytes : Bytes // bytes.length = 16}))
    fun left right same => NodeId.bytes_inj (congrArg Subtype.val same)

/-- There are finitely many least facts. -/
theorem finite_leastFacts (seed : List Fact) (rules : List Rule) :
    (snapshot.leastFacts ext seed rules).Finite := by
  have nodes := finite_nodeId
  have names : (derivedPredicates seed rules).Finite := by
    refine ((seed.map Prod.fst).finite_toSet.union
      (rules.map Rule.headPredicate).finite_toSet).subset ?_
    rintro name (⟨fact, member, rfl⟩ | ⟨rule, member, rfl⟩)
    · exact Or.inl (List.mem_map.mpr ⟨fact, member, rfl⟩)
    · exact Or.inr (List.mem_map.mpr ⟨rule, member, rfl⟩)
  -- All facts of the derived predicates together are closed under the rules.
  refine (names.prod Set.finite_univ).subset (LeastClosed.least_subset ?_ ?_)
  · exact fun fact member => ⟨Or.inl ⟨fact, member, rfl⟩, trivial⟩
  · rintro rule member fact ⟨head, _⟩
    exact ⟨Or.inr ⟨rule, member, head.symm⟩, trivial⟩

/-- Rules whose passes add what they derive are run from facts within the least ones to these. -/
theorem executeRecursive_least {edges : NodeId × NodeId → EdgeId} {rules : List Rule}
    {derive : Rule → Set Fact → Set Fact} (mono : ∀ rule ∈ rules, Monotone (derive rule))
    {holds : DerivedFacts → Prop}
    (passes : ∀ state, holds state → ∃ next again,
      rules.foldlM (snapshot.applyRule ext edges) (state, false) = .ok (next, again) ∧ holds next ∧
      next.facts = LeastClosed.pass derive rules state.facts ∧
      (again = true ↔ ¬ LeastClosed.pass derive rules state.facts ⊆ state.facts))
    (start : Set Fact) (finite : (LeastClosed.least derive start rules).Finite) (held : holds state)
    (above : start ⊆ state.facts) (below : state.facts ⊆ LeastClosed.least derive start rules) :
    ∃ rounds result, (∀ more, rounds ≤ more →
        snapshot.executeRecursive ext edges rules more state = some (.ok result)) ∧
      result.facts = LeastClosed.least derive start rules := by
  -- Every pass but the last leaves fewer of the least facts missing.
  induction missing : (LeastClosed.least derive start rules \
      state.facts).ncard using Nat.strong_induction_on generalizing state with
  | _ count ih =>
    obtain ⟨next, again, passed, held', facts, grew⟩ := passes state held
    have grows : state.facts ⊆ next.facts := by
      rw [facts]
      exact LeastClosed.subset_pass
    have within : next.facts ⊆ LeastClosed.least derive start rules := by
      rw [facts]
      exact LeastClosed.pass_subset mono below (LeastClosed.closed_least mono)
    cases again with
    | false =>
      have stable : LeastClosed.pass derive rules state.facts ⊆ state.facts := by
        by_contra new
        cases grew.mpr new
      have same : next.facts = state.facts := by
        rw [facts]
        exact subset_antisymm stable LeastClosed.subset_pass
      refine ⟨1, next, fun more enough => ?_, ?_⟩
      · obtain ⟨more, rfl⟩ := Nat.exists_eq_add_of_le' enough
        simp only [executeRecursive, passed]
      · rw [same]
        exact LeastClosed.eq_least above below stable
    | true =>
      have new : ¬ next.facts ⊆ state.facts := by
        rw [facts]
        exact grew.mp rfl
      obtain ⟨rounds, result, done, all⟩ := ih _
        (by rw [← missing]; exact LeastClosed.missing_lt finite grows within new) held'
        (subset_trans above grows) within rfl
      refine ⟨rounds + 1, result, fun more enough => ?_, all⟩
      obtain ⟨more, rfl⟩ := Nat.exists_eq_add_of_le' (le_trans (Nat.le_add_left 1 rounds) enough)
      simp only [executeRecursive, passed]
      exact done more (by omega)

/-- From facts within the least ones the rules are run to these. -/
theorem executeRecursive_spec (intact : snapshot.store.Intact ext)
    (edges : NodeId × NodeId → EdgeId) {rules : List Rule}
    (runnable : Runnable ext snapshot derived rules) (start : Set Fact)
    (finite : (LeastClosed.least (snapshot.derives ext derived) start rules).Finite)
    (primed : Primed ext snapshot derived state) (above : start ⊆ state.facts)
    (below : state.facts ⊆ LeastClosed.least (snapshot.derives ext derived) start rules) :
    ∃ rounds result, (∀ more, rounds ≤ more →
        snapshot.executeRecursive ext edges rules more state = some (.ok result)) ∧
      result.facts = LeastClosed.least (snapshot.derives ext derived) start rules := by
  refine executeRecursive_least (fun rule _ => derives_mono rule) (fun state primed => ?_) start
    finite primed above below
  obtain ⟨next, again, passed, primed', facts, grew⟩ :=
    foldlM_applyRule intact edges runnable primed false
  exact ⟨next, again, passed, primed', facts, by simpa using grew⟩

/-- Applying a rule keeps the facts. -/
private theorem facts_applyRule {edges : NodeId × NodeId → EdgeId} {added again : Bool} {rule : Rule}
    {next : DerivedFacts}
    (done : snapshot.applyRule ext edges (state, added) rule = .ok (next, again)) :
    state.facts ⊆ next.facts := by
  obtain ⟨solutions, _, done⟩ := Except.bind_eq_ok.mp done
  cases done
  rw [DerivedFacts.facts_insert]
  exact Set.subset_union_left

/-- Running rules keeps the facts. -/
private theorem facts_executeRecursive {edges : NodeId × NodeId → EdgeId} {rules : List Rule}
    {rounds : Nat} {result : DerivedFacts}
    (done : snapshot.executeRecursive ext edges rules rounds state = some (.ok result)) :
    state.facts ⊆ result.facts := by
  have pass : ∀ (rest : List Rule) (start : DerivedFacts × Bool) (finish : DerivedFacts × Bool),
      rest.foldlM (snapshot.applyRule ext edges) start = .ok finish →
        start.1.facts ⊆ finish.1.facts := by
    intro rest
    induction rest with
    | nil =>
      intro start finish same
      cases same
      exact subset_refl _
    | cons rule rest ih =>
      intro start finish steps
      rw [List.foldlM_cons] at steps
      obtain ⟨middle, one, steps⟩ := Except.bind_eq_ok.mp steps
      exact subset_trans (facts_applyRule one) (ih middle finish steps)
  induction rounds generalizing state with
  | zero => cases done
  | succ rounds ih =>
    rw [executeRecursive] at done
    split at done
    · cases done
    · rename_i next passed
      exact subset_trans (pass _ _ _ passed) (ih done)
    · rename_i next passed
      cases done
      exact pass _ _ _ passed

/-- The rule that relates the subjects of a predicate to themselves. -/
def selfRule (name : String) : Rule where
  headPredicate := name
  headSubjectVar := "x"
  headObjectVar := "x"
  body := [⟨.var "x", some name, none, .any, none, none, .union⟩]

/-- The rule of a predicate about itself reads no other one. -/
theorem separate_selfRule (seed : List Fact) (name : String) : ∀ rule ∈ [selfRule name],
    ∀ vp ∈ rule.body,
      snapshot.Separate ext (derivedPredicates seed [selfRule name]) rule.body vp := by
  intro rule member vp inside
  cases List.mem_singleton.mp member
  cases List.mem_singleton.mp inside
  refine ⟨fun other _ _ => ⟨rfl, rfl, Or.inl rfl⟩, fun other outside same => ?_, nofun, nofun⟩
  cases same
  exact absurd (Or.inr ⟨selfRule name, List.mem_singleton_self _, rfl⟩) outside

/-- A head that is stored and has no seed is read from the store before it is derived. -/
theorem not_runsToLeast_selfRule (intact : snapshot.store.Intact ext) {name : String}
    (unseeded : ¬ ∃ fact ∈ seed, fact.1 = name) (stored : ¬ snapshot.Unstored ext name) :
    ¬ snapshot.RunsToLeast ext seed [selfRule name] := by
  intro runs
  obtain ⟨rounds, result, done, all⟩ := runs (fun _ => ⟨Uuid.nil⟩) _ (List.Perm.refl _)
  obtain ⟨triples, read⟩ := exists_evaluate intact ⟨none, some name, none⟩
  obtain ⟨triple, rest, rfl⟩ : ∃ triple rest, triples = triple :: rest := by
    cases triples with
    | nil => exact absurd read stored
    | cons triple rest => exact ⟨triple, rest, rfl⟩
  have missing : (DerivedFacts.ofSeed seed).lookup name = none := by
    rw [← Option.not_isSome_iff_eq_none, (DerivedFacts.ofSeed_spec seed).2]
    exact unseeded
  -- The first round finds the stored triple and derives that its subject is related to itself.
  have derived : (name, triple.subject, triple.subject) ∈ result.facts := by
    have hybrid : snapshot.evaluateHybrid ext (fun _ => ⟨Uuid.nil⟩) (DerivedFacts.ofSeed seed)
        ⟨none, some name, none⟩ = .ok (triple :: rest) := by
      rw [evaluateHybrid, Option.bind_some, missing]
      exact read
    have matched : snapshot.matchOne ext true
        (snapshot.evaluateHybrid ext (fun _ => ⟨Uuid.nil⟩) (DerivedFacts.ofSeed seed))
        ⟨.var "x", some name, none, .any, none, none, .union⟩ Solution.empty =
          .ok ((triple :: rest).map fun triple => ⟨[("x", triple.subject)], [], []⟩) := by
      refine Except.bind_eq_ok.mpr ⟨_, hybrid, ?_⟩
      rw [← List.filterMap_eq_map]
      rfl
    obtain ⟨rounds, rfl⟩ : ∃ fewer, rounds = fewer + 1 := by
      cases rounds with
      | zero => cases done 0 (le_refl _)
      | succ fewer => exact ⟨fewer, rfl⟩
    have run := done (rounds + 1) (le_refl _)
    have solved : snapshot.executeQueryHybridFull ext (fun _ => ⟨Uuid.nil⟩) (selfRule name).body
        (DerivedFacts.ofSeed seed) =
          .ok ((triple :: rest).map fun triple => ⟨[("x", triple.subject)], [], []⟩) := by
      refine Except.bind_eq_ok.mpr ⟨[_], Except.mapM_eq_ok.mpr (.cons matched .nil), ?_⟩
      rw [List.flatten_singleton]
      rfl
    obtain ⟨next, again, applied, there⟩ : ∃ next again, snapshot.applyRule ext
        (fun _ => ⟨Uuid.nil⟩) (DerivedFacts.ofSeed seed, false) (selfRule name) =
          .ok (next, again) ∧ (name, triple.subject, triple.subject) ∈ next.facts := by
      refine ⟨_, _, Except.bind_eq_ok.mpr ⟨_, solved, rfl⟩, ?_⟩
      rw [DerivedFacts.facts_insert]
      exact Or.inr ⟨rfl, List.mem_filterMap.mpr ⟨_, List.mem_map.mpr ⟨triple, by simp, rfl⟩, rfl⟩⟩
    have passed : [selfRule name].foldlM (snapshot.applyRule ext fun _ => ⟨Uuid.nil⟩)
        (DerivedFacts.ofSeed seed, false) = .ok (next, again) := by
      rw [List.foldlM_cons]
      exact Except.bind_eq_ok.mpr ⟨_, applied, rfl⟩
    rw [executeRecursive, passed] at run
    cases again with
    | false =>
      cases run
      exact there
    | true => exact facts_executeRecursive run there
  -- The least facts have none of a predicate that has no seed and follows from itself only.
  have least : snapshot.leastFacts ext seed [selfRule name] ⊆ {fact | fact.1 ≠ name} := by
    refine LeastClosed.least_subset (fun fact member same => unseeded ⟨fact, member, same⟩) ?_
    intro rule member fact derives
    cases List.mem_singleton.mp member
    obtain ⟨_, sol, ⟨next, extended, _⟩, _⟩ := derives
    obtain ⟨other, stands, _⟩ := extended
    exfalso
    have inside : name ∈ derivedPredicates seed [selfRule name] :=
      Or.inr ⟨selfRule name, List.mem_singleton_self _, rfl⟩
    rcases stands with ⟨_, _, _, _, _, _, own, held, _⟩ | ⟨⟨items, same, there⟩, apart⟩
    · cases own
      exact held rfl
    · obtain ⟨ids, answers, _, found⟩ := exists_of_evaluate intact same there
      refine apart ⟨name, inside, ?_⟩
      rw [predicateId_of_read intact.sound.keyed found]
      exact answers.wanted.predicate name rfl
  rw [all] at derived
  exact least derived rfl

/-- The latest snapshot of a store in which one node knows another. -/
def acquainted : Snapshot where
  store := TripleStore.relatedUntil Timestamp.END_OF_TIME
  point := ⟨Timestamp.wrap 5, none, none⟩
  now := Timestamp.wrap 6
  prefixes _ := none

/-- The rules of who reaches whom along a relation. -/
def reachRules : List Rule :=
  [⟨"reaches", "x", "y", [⟨.var "x", some "knows", none, .var "y", none, none, .union⟩]⟩,
    ⟨"reaches", "x", "z", [⟨.var "x", some "reaches", none, .var "y", none, none, .union⟩,
      ⟨.var "y", some "knows", none, .var "z", none, none, .union⟩]⟩]

end Snapshot

end Polargraph
