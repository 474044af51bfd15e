import Mathlib.Data.List.Nodup
import Mathlib.Logic.Relation

/-! Best-first search of a graph from one node, keeping a bounded number of the nearest found. -/

variable {α δ : Type}

/-- A queue that gives back the entries put into it, in an order of its own. -/
structure Queue (δ α : Type) where
  /-- Take out the top entry. -/
  pop : List (δ × α) → Option ((δ × α) × List (δ × α))
  /-- The entry and the rest are what was there. -/
  perm : ∀ entries top rest, pop entries = some (top, rest) → (top :: rest).Perm entries
  /-- Only an empty queue has no top. -/
  empty : ∀ entries, pop entries = none → entries = []

/-- How distances are compared and entries with a distance are queued. -/
structure Ranking (δ α : Type) where
  /-- Whether a distance is less than another. -/
  lt : δ → δ → Bool
  /-- The distance of what has none. -/
  infinity : δ
  /-- The queue with the nearest entry at the top. -/
  near : Queue δ α
  /-- The queue with the furthest entry at the top. -/
  far : Queue δ α
  /-- Entries from the nearest to the furthest. -/
  sorted : List (δ × α) → List (δ × α)
  /-- They are the entries that were given. -/
  sorted_perm : ∀ entries, (sorted entries).Perm entries

/-- A search under way. -/
structure Beam (δ α : Type) where
  /-- Nodes that were looked at. -/
  visited : List α
  /-- Nodes that are still to be expanded. -/
  candidates : List (δ × α)
  /-- The nearest nodes so far. -/
  found : List (δ × α)

namespace Ranking

variable (ranking : Ranking δ α)

/-- The distance of the furthest entry. -/
def worst (found : List (δ × α)) : δ :=
  match ranking.far.pop found with
  | some ((d, _), _) => d
  | none => ranking.infinity

/-- Drop the furthest entry if there are more than `ef`. -/
def trim (ef : Nat) (found : List (δ × α)) : List (δ × α) :=
  if found.length > ef then
    match ranking.far.pop found with
    | some (_, rest) => rest
    | none => found
  else found

/-- A search that has looked at its first node only. -/
def start (dist : α → δ) (entry : α) : Beam δ α :=
  ⟨[entry], [(dist entry, entry)], [(dist entry, entry)]⟩

variable [DecidableEq α]

/-- Look at a node, and keep it if it is near enough or fewer than `ef` were found. -/
def visit (ef : Nat) (dist : α → δ) (beam : Beam δ α) (e : α) : Beam δ α :=
  if e ∈ beam.visited then beam
  else
    let visited := e :: beam.visited
    let d := dist e
    if ranking.lt d (ranking.worst beam.found) || decide (beam.found.length < ef) then
      ⟨visited, (d, e) :: beam.candidates, ranking.trim ef ((d, e) :: beam.found)⟩
    else { beam with visited := visited }

/-- Expand candidates until the nearest is further than all that was found; `none` out of fuel. -/
def expand (next : α → List α) (ef : Nat) (dist : α → δ) : Nat → Beam δ α → Option (List (δ × α))
  | 0, _ => none
  | fuel + 1, beam =>
    match ranking.near.pop beam.candidates with
    | none => some beam.found
    | some ((d, c), rest) =>
      if ranking.lt (ranking.worst beam.found) d then some beam.found
      else expand next ef dist fuel
        ((next c).foldl (ranking.visit ef dist) { beam with candidates := rest })

end Ranking

/-- What a search from a node has looked at can be reached, and what it found are distinct such nodes. -/
structure Beam.Explores (beam : Beam δ α) (next : α → List α) (entry : α) : Prop where
  /-- Nodes looked at can be reached. -/
  reached : ∀ e ∈ beam.visited, Relation.ReflTransGen (fun a b => b ∈ next a) entry e
  /-- Candidates were looked at. -/
  candidates : ∀ c ∈ beam.candidates, c.2 ∈ beam.visited
  /-- What was found was looked at. -/
  found : ∀ c ∈ beam.found, c.2 ∈ beam.visited
  /-- No node was found twice. -/
  once : (beam.found.map Prod.snd).Nodup

namespace Ranking

variable {ranking : Ranking δ α} {next : α → List α} {ef : Nat} {dist : α → δ} {entry : α}
  {beam : Beam δ α}

/-- What is left without the furthest entry was there. -/
theorem trim_perm (ef : Nat) (found : List (δ × α)) :
    ∃ dropped, (dropped ++ ranking.trim ef found).Perm found := by
  unfold trim
  split_ifs
  · split
    · rename_i top rest popped
      exact ⟨[top], ranking.far.perm _ _ _ popped⟩
    · exact ⟨[], .refl _⟩
  · exact ⟨[], .refl _⟩

/-- A search that has looked at its first node explores from it. -/
theorem start_explores (next : α → List α) (dist : α → δ) (entry : α) :
    (start dist entry).Explores next entry where
  reached e member := by
    rw [List.mem_singleton.mp member]
  candidates c member := by
    rw [List.mem_singleton.mp member]
    exact List.mem_cons_self
  found c member := by
    rw [List.mem_singleton.mp member]
    exact List.mem_cons_self
  once := List.nodup_singleton _

variable [DecidableEq α]

/-- Looking at a node that can be reached keeps the search exploring. -/
theorem visit_explores (explores : beam.Explores next entry) {e : α}
    (reachable : Relation.ReflTransGen (fun a b => b ∈ next a) entry e) :
    (ranking.visit ef dist beam e).Explores next entry := by
  unfold visit
  dsimp only
  split_ifs with seen
  · exact explores
  · -- The node is new, so it was not found before.
    have fresh : ((dist e, e) :: beam.found).map Prod.snd |>.Nodup := by
      rw [List.map_cons, List.nodup_cons]
      refine ⟨fun member => ?_, explores.once⟩
      obtain ⟨c, listed, same⟩ := List.mem_map.mp member
      have own : e = c.2 := same.symm
      rw [own] at seen
      exact seen (explores.found c listed)
    have looked : ∀ c ∈ (dist e, e) :: beam.found, c.2 ∈ e :: beam.visited := by
      intro c member
      rcases List.mem_cons.mp member with rfl | old
      · exact List.mem_cons_self
      · exact List.mem_cons_of_mem _ (explores.found c old)
    refine ⟨?_, ?_, ?_, ?_⟩
    · intro other member
      rcases List.mem_cons.mp member with rfl | old
      · exact reachable
      · exact explores.reached other old
    · intro c member
      rcases List.mem_cons.mp member with rfl | old
      · exact List.mem_cons_self
      · exact List.mem_cons_of_mem _ (explores.candidates c old)
    · intro c member
      obtain ⟨dropped, perm⟩ := @trim_perm _ _ ranking ef ((dist e, e) :: beam.found)
      exact looked c (perm.subset (List.mem_append_right _ member))
    · obtain ⟨dropped, perm⟩ := @trim_perm _ _ ranking ef ((dist e, e) :: beam.found)
      have whole := (perm.map Prod.snd).nodup_iff.mpr fresh
      rw [List.map_append] at whole
      exact (List.nodup_append.mp whole).2.1
  · refine ⟨?_, ?_, ?_, explores.once⟩
    · intro other member
      rcases List.mem_cons.mp member with rfl | old
      · exact reachable
      · exact explores.reached other old
    · exact fun c member => List.mem_cons_of_mem _ (explores.candidates c member)
    · exact fun c member => List.mem_cons_of_mem _ (explores.found c member)

/-- Looking at nodes that can be reached keeps the search exploring. -/
theorem visitAll_explores {nodes : List α}
    (reachable : ∀ e ∈ nodes, Relation.ReflTransGen (fun a b => b ∈ next a) entry e)
    (explores : beam.Explores next entry) :
    (nodes.foldl (ranking.visit ef dist) beam).Explores next entry := by
  induction nodes generalizing beam with
  | nil => exact explores
  | cons e rest ih =>
    apply ih (fun other later => reachable other (List.mem_cons_of_mem _ later))
    exact visit_explores explores (reachable e List.mem_cons_self)

/-- What a search finds are distinct nodes that can be reached from where it started. -/
theorem expand_explores {fuel : Nat} {found : List (δ × α)} (explores : beam.Explores next entry)
    (done : ranking.expand next ef dist fuel beam = some found) :
    (found.map Prod.snd).Nodup ∧
      ∀ c ∈ found, Relation.ReflTransGen (fun a b => b ∈ next a) entry c.2 := by
  induction fuel generalizing beam with
  | zero => cases done
  | succ fuel ih =>
    have finished : (beam.found.map Prod.snd).Nodup ∧
        ∀ c ∈ beam.found, Relation.ReflTransGen (fun a b => b ∈ next a) entry c.2 :=
      ⟨explores.once, fun c member => explores.reached _ (explores.found c member)⟩
    simp only [expand] at done
    split at done
    · cases done
      exact finished
    · rename_i d c rest popped
      have perm := ranking.near.perm _ _ _ popped
      split_ifs at done
      · cases done
        exact finished
      · -- The neighbours of a candidate are one step further.
        have own := explores.reached c
          (explores.candidates (d, c) (perm.subset List.mem_cons_self))
        refine ih (visitAll_explores (fun e member => own.tail member) ?_) done
        exact ⟨explores.reached, fun other member =>
          explores.candidates other (perm.subset (List.mem_cons_of_mem _ member)),
          explores.found, explores.once⟩

/-- The nodes of a list that a search has not looked at. -/
def unvisited (nodes : List α) (beam : Beam δ α) : List α :=
  nodes.filter (fun e => e ∉ beam.visited)

/-- Looking at a listed node adds a candidate only if it was not looked at before. -/
theorem visit_shrinks {nodes : List α} {e : α} (listed : e ∈ nodes) :
    (ranking.visit ef dist beam e).candidates.length +
      (unvisited nodes (ranking.visit ef dist beam e)).length ≤
        beam.candidates.length + (unvisited nodes beam).length := by
  unfold visit
  dsimp only
  split_ifs with seen
  · exact Nat.le_refl _
  all_goals
    have fewer : (nodes.filter (fun other => other ∉ e :: beam.visited)).length <
        (nodes.filter (fun other => other ∉ beam.visited)).length := by
      have split : nodes.filter (fun other => other ∉ e :: beam.visited) =
          (nodes.filter (fun other => other ∉ beam.visited)).filter (fun other => other ≠ e) := by
        rw [List.filter_filter]
        congr 1
        funext other
        simp [not_or]
      rw [split]
      exact List.length_filter_lt_length_iff_exists.mpr
        ⟨e, List.mem_filter.mpr ⟨listed, by simpa using seen⟩, by simp⟩
    simp only [unvisited, List.length_cons]
    omega

/-- Looking at listed nodes adds a candidate for each that was not looked at before. -/
theorem visitAll_shrinks {nodes some : List α} (listed : ∀ e ∈ some, e ∈ nodes) :
    (some.foldl (ranking.visit ef dist) beam).candidates.length +
      (unvisited nodes (some.foldl (ranking.visit ef dist) beam)).length ≤
        beam.candidates.length + (unvisited nodes beam).length := by
  induction some generalizing beam with
  | nil => exact Nat.le_refl _
  | cons e rest ih =>
    have later := @ih (ranking.visit ef dist beam e)
      (fun other member => listed other (List.mem_cons_of_mem _ member))
    exact Nat.le_trans later (visit_shrinks (listed e List.mem_cons_self))

/-- A search ends: each node it expands is a candidate once. -/
theorem expand_isSome {nodes : List α} (listed : ∀ c, ∀ e ∈ next c, e ∈ nodes) {fuel : Nat}
    (enough : beam.candidates.length + (unvisited nodes beam).length < fuel) :
    (ranking.expand next ef dist fuel beam).isSome := by
  induction fuel generalizing beam with
  | zero => exact absurd enough (Nat.not_lt_zero _)
  | succ fuel ih =>
    simp only [expand]
    split
    · rfl
    · rename_i d c rest popped
      split_ifs
      · rfl
      · apply ih
        have one := (ranking.near.perm _ _ _ popped).length_eq
        have rest := @visitAll_shrinks _ _ ranking ef dist { beam with candidates := rest } _
          nodes (next c) (listed c)
        simp only [unvisited, List.length_cons] at one rest enough ⊢
        omega

end Ranking

/-- At most `ef` nodes can be reached from a node. -/
def ReachesAtMost (next : α → List α) (entry : α) (ef : Nat) : Prop :=
  ∀ nodes : List α, nodes.Nodup →
    (∀ e ∈ nodes, Relation.ReflTransGen (fun a b => b ∈ next a) entry e) → nodes.length ≤ ef

namespace Ranking

/-- Distances that can be compared are kept in order. -/
structure Orders (ranking : Ranking δ α) (comparable : δ → Prop) : Prop where
  /-- Nothing in a queue is further than its top. -/
  furthest : ∀ entries top rest, (∀ entry ∈ entries, comparable entry.1) →
    ranking.far.pop entries = some (top, rest) →
      ∀ entry ∈ entries, ranking.lt top.1 entry.1 = false
  /-- No entry is further than a later one. -/
  ascending : ∀ entries, (∀ entry ∈ entries, comparable entry.1) →
    (ranking.sorted entries).Pairwise fun near far => ranking.lt far.1 near.1 = false

/--
All that was looked at was found, and can be reached.

What is neither a candidate nor busy has its neighbours looked at.
-/
structure Roomy (next : α → List α) (dist : α → δ) (entry : α) (busy : α → Prop)
    (beam : Beam δ α) : Prop where
  /-- What was looked at was found, with its distance. -/
  all : beam.found = beam.visited.map fun e => (dist e, e)
  /-- No node was looked at twice. -/
  distinct : beam.visited.Nodup
  /-- The first node was looked at. -/
  start : entry ∈ beam.visited
  /-- What was looked at can be reached. -/
  reached : ∀ e ∈ beam.visited, Relation.ReflTransGen (fun a b => b ∈ next a) entry e
  /-- Candidates were found. -/
  candidates : ∀ c ∈ beam.candidates, c ∈ beam.found
  /-- What is neither a candidate nor busy was expanded. -/
  frontier : ∀ a ∈ beam.visited,
    busy a ∨ (dist a, a) ∈ beam.candidates ∨ ∀ b ∈ next a, b ∈ beam.visited

variable {ranking : Ranking δ α} {next : α → List α} {ef fuel : Nat} {dist : α → δ} {entry : α}
  {busy : α → Prop} {beam : Beam δ α}

/-- A search that has looked at its first node has room. -/
theorem roomy_start (next : α → List α) (dist : α → δ) (entry : α) :
    Roomy next dist entry (fun _ => False) (start dist entry) where
  all := rfl
  distinct := List.nodup_singleton _
  start := List.mem_cons_self
  reached e member := List.mem_singleton.mp member ▸ .refl
  candidates c member := member
  frontier a member := by
    rw [List.mem_singleton.mp member]
    exact Or.inr (Or.inl List.mem_cons_self)

/-- A search that has nothing left to expand has found all that can be reached. -/
theorem Roomy.finished (roomy : Roomy next dist entry (fun _ => False) beam)
    (left : beam.candidates = []) : (beam.found.map Prod.snd).Nodup ∧ ∀ c, c ∈ beam.found ↔
      c.1 = dist c.2 ∧ Relation.ReflTransGen (fun a b => b ∈ next a) entry c.2 := by
  have closed : ∀ a ∈ beam.visited, ∀ b ∈ next a, b ∈ beam.visited := fun a looked =>
    ((roomy.frontier a looked).resolve_left id).resolve_left (by simp [left])
  have reaches : ∀ e, Relation.ReflTransGen (fun a b => b ∈ next a) entry e →
      e ∈ beam.visited := by
    intro e path
    induction path with
    | refl => exact roomy.start
    | tail _ step ih => exact closed _ ih _ step
  refine ⟨by simpa [roomy.all, Function.comp_def] using roomy.distinct, fun c => ?_⟩
  rw [roomy.all, List.mem_map]
  constructor
  · rintro ⟨e, looked, rfl⟩
    exact ⟨rfl, roomy.reached e looked⟩
  · exact fun both => ⟨c.2, reaches _ both.2, Prod.ext both.1.symm rfl⟩

/-- No entry found is further than the worst of them. -/
theorem Orders.worst {comparable : δ → Prop} (orders : ranking.Orders comparable)
    {found : List (δ × α)} (near : ∀ entry ∈ found, comparable entry.1) {c : δ × α}
    (inside : c ∈ found) : ranking.lt (ranking.worst found) c.1 = false := by
  unfold Ranking.worst
  split
  · rename_i popped
    exact orders.furthest _ _ _ near popped c inside
  · rename_i empty
    rw [ranking.far.empty _ empty] at inside
    cases inside

variable [DecidableEq α]

/-- A search with room for all that can be reached finds the node it looks at. -/
theorem Roomy.visit (roomy : Roomy next dist entry busy beam) (few : ReachesAtMost next entry ef)
    {e : α} (reachable : Relation.ReflTransGen (fun a b => b ∈ next a) entry e) :
    Roomy next dist entry busy (ranking.visit ef dist beam e) ∧
      e ∈ (ranking.visit ef dist beam e).visited ∧
      beam.visited ⊆ (ranking.visit ef dist beam e).visited := by
  by_cases seen : e ∈ beam.visited
  · rw [Ranking.visit, if_pos seen]
    exact ⟨roomy, seen, List.Subset.refl _⟩
  · -- All that was found can be reached, and so can the new node.
    have distinct := List.nodup_cons.mpr ⟨seen, roomy.distinct⟩
    have reached := List.forall_mem_cons.mpr ⟨reachable, roomy.reached⟩
    have room : beam.found.length + 1 ≤ ef := by
      simpa [roomy.all] using few (e :: beam.visited) distinct reached
    have found : ranking.visit ef dist beam e =
        ⟨e :: beam.visited, (dist e, e) :: beam.candidates, (dist e, e) :: beam.found⟩ := by
      rw [Ranking.visit, if_neg seen, if_pos (by simp; omega), trim, if_neg (by simpa using room)]
    rw [found]
    refine ⟨⟨by rw [List.map_cons, roomy.all], distinct, List.mem_cons_of_mem _ roomy.start, reached,
      fun c member => ?_, fun a looked => ?_⟩, List.mem_cons_self, List.subset_cons_self _ _⟩
    · rcases List.mem_cons.mp member with rfl | old
      · exact List.mem_cons_self
      · exact List.mem_cons_of_mem _ (roomy.candidates c old)
    · rcases List.mem_cons.mp looked with rfl | old
      · exact Or.inr (Or.inl List.mem_cons_self)
      · exact (roomy.frontier a old).imp_right fun either => either.imp (List.mem_cons_of_mem _)
          fun all b step => List.mem_cons_of_mem _ (all b step)

/-- A search with room for all that can be reached finds the nodes it looks at. -/
theorem Roomy.visits (few : ReachesAtMost next entry ef) {nodes : List α}
    (reachable : ∀ e ∈ nodes, Relation.ReflTransGen (fun a b => b ∈ next a) entry e)
    (roomy : Roomy next dist entry busy beam) :
    Roomy next dist entry busy (nodes.foldl (ranking.visit ef dist) beam) ∧
      (∀ e ∈ nodes, e ∈ (nodes.foldl (ranking.visit ef dist) beam).visited) ∧
      beam.visited ⊆ (nodes.foldl (ranking.visit ef dist) beam).visited := by
  induction nodes generalizing beam with
  | nil => exact ⟨roomy, nofun, List.Subset.refl _⟩
  | cons e rest ih =>
    obtain ⟨own, others⟩ := List.forall_mem_cons.mp reachable
    obtain ⟨one, looked, more⟩ := @Roomy.visit _ _ ranking _ _ _ _ _ _ _ roomy few _ own
    obtain ⟨all, later, kept⟩ := ih others one
    exact ⟨all, List.forall_mem_cons.mpr ⟨kept looked, later⟩, List.Subset.trans more kept⟩

/-- Expanding a candidate looks at its neighbours, so that it need not be expanded again. -/
theorem Roomy.expand (roomy : Roomy next dist entry (fun _ => False) beam)
    (few : ReachesAtMost next entry ef) {d : δ} {c : α} {rest : List (δ × α)}
    (popped : ranking.near.pop beam.candidates = some ((d, c), rest)) :
    Roomy next dist entry (fun _ => False)
      ((next c).foldl (ranking.visit ef dist) { beam with candidates := rest }) := by
  have perm := ranking.near.perm _ _ _ popped
  have own : c ∈ beam.visited := by
    have found := roomy.candidates _ (perm.subset List.mem_cons_self)
    rw [roomy.all] at found
    obtain ⟨e, looked, same⟩ := List.mem_map.mp found
    cases same
    exact looked
  have before : Roomy next dist entry (· = c) { beam with candidates := rest } :=
    { roomy with
      candidates := fun other member =>
        roomy.candidates other (perm.subset (List.mem_cons_of_mem _ member))
      frontier := fun a looked => by
        rcases (roomy.frontier a looked).resolve_left id with candidate | expanded
        · rcases List.mem_cons.mp (perm.mem_iff.mpr candidate) with same | later
          · exact Or.inl (Prod.mk.inj same).2
          · exact Or.inr (Or.inl later)
        · exact Or.inr (Or.inr expanded) }
  obtain ⟨after, looked, _⟩ := @Roomy.visits _ _ ranking _ _ _ _ _ _ _ few (next c)
    (fun e step => (roomy.reached c own).tail step) before
  refine { after with frontier := fun a member => Or.inr ?_ }
  rcases after.frontier a member with rfl | other
  · exact Or.inr looked
  · exact other

/-- A search with room for all that can be reached finds all of it. -/
theorem Roomy.exhausts {comparable : δ → Prop} (orders : ranking.Orders comparable)
    (valued : ∀ e, Relation.ReflTransGen (fun a b => b ∈ next a) entry e → comparable (dist e))
    (few : ReachesAtMost next entry ef) {found : List (δ × α)}
    (roomy : Roomy next dist entry (fun _ => False) beam)
    (done : ranking.expand next ef dist fuel beam = some found) :
    (found.map Prod.snd).Nodup ∧ ∀ c, c ∈ found ↔
      c.1 = dist c.2 ∧ Relation.ReflTransGen (fun a b => b ∈ next a) entry c.2 := by
  induction fuel generalizing beam with
  | zero => cases done
  | succ fuel ih =>
    rw [Ranking.expand] at done
    split at done
    · cases done
      exact roomy.finished (ranking.near.empty _ ‹_›)
    · rename_i d c rest popped
      split_ifs at done with beyond
      · -- No candidate is further than all that was found, as it was found itself.
        have inside := roomy.candidates (d, c)
          ((ranking.near.perm _ _ _ popped).subset List.mem_cons_self)
        have near : ∀ entry ∈ beam.found, comparable entry.1 := by
          rw [roomy.all]
          intro other member
          obtain ⟨e, looked, rfl⟩ := List.mem_map.mp member
          exact valued e (roomy.reached e looked)
        rw [orders.worst near inside] at beyond
        cases beyond
      · exact ih (roomy.expand few popped) done

end Ranking
