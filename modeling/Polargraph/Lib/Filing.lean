import Mathlib.Data.List.Nodup
import Polargraph.Lib.SortedMap

/-! Filing items under the holders that have their keys. -/

namespace Filing

variable {Holder Item Key : Type} [DecidableEq Key]

/-- File an item under the first holder with its key; it is dropped when there is none. -/
def file (key : Holder → Key) (put : Holder → Item → Holder) (item : Key × Item) :
    List Holder → List Holder
  | [] => []
  | holder :: rest =>
    if key holder = item.1 then put holder item.2 :: rest else holder :: file key put item rest

/-- The items of one key, in order. -/
def under (name : Key) (items : List (Key × Item)) : List Item :=
  items.filterMap fun item => if item.1 = name then some item.2 else none

variable {key : Holder → Key} {put : Holder → Item → Holder}

/-- Where keys are distinct, an item goes to every holder with its key. -/
theorem file_eq_map {holders : List Holder} (distinct : (holders.map key).Nodup) (item : Key × Item) :
    file key put item holders =
      holders.map fun holder => if key holder = item.1 then put holder item.2 else holder := by
  induction holders with
  | nil => rfl
  | cons holder rest ih =>
    obtain ⟨fresh, later⟩ := List.nodup_cons.mp distinct
    rw [file, List.map_cons, ih later]
    by_cases own : key holder = item.1
    · -- No later holder has the key.
      have others : rest.map (fun h => if key h = item.1 then put h item.2 else h) = rest := by
        refine (List.map_congr_left fun h member => ?_).trans (List.map_id rest)
        rw [if_neg fun same => fresh (List.mem_map.mpr ⟨h, member, same.trans own.symm⟩)]
        rfl
      rw [if_pos own, if_pos own, others]
    · rw [if_neg own, if_neg own]

/-- Items filed one after another are what each holder is given, in order. -/
theorem foldl_file {holders : List Holder} (distinct : (holders.map key).Nodup)
    (keeps : ∀ holder item, key (put holder item) = key holder) (items : List (Key × Item)) :
    items.foldl (fun holders item => file key put item holders) holders =
      holders.map fun holder => (under (key holder) items).foldl put holder := by
  induction items generalizing holders with
  | nil => simp [under]
  | cons item rest ih =>
    have keys : ((file key put item holders).map key) = holders.map key := by
      rw [file_eq_map distinct, List.map_map]
      refine List.map_congr_left fun holder _ => ?_
      rw [Function.comp_apply, apply_ite key, keeps, ite_self]
    rw [List.foldl_cons, ih (by rwa [keys]), file_eq_map distinct, List.map_map]
    refine List.map_congr_left fun holder _ => ?_
    rw [Function.comp_apply]
    by_cases own : key holder = item.1
    · rw [if_pos own, keeps, under, under, List.filterMap_cons, if_pos own.symm]
      rfl
    · rw [if_neg own, under, under, List.filterMap_cons, if_neg (Ne.symm own)]

/-- The items of a key in two lists are those in the first and those in the second. -/
theorem under_append (name : Key) (left right : List (Key × Item)) :
    under name (left ++ right) = under name left ++ under name right := List.filterMap_append

/-- A key has no items when the holders with it list none. -/
theorem under_flatMap_eq_nil {holders : List Holder} {name : Key} {items : Holder → List Item}
    (bare : ∀ holder ∈ holders, key holder = name → items holder = []) :
    under name (holders.flatMap fun holder => (items holder).map fun item => (key holder, item)) =
      [] := by
  refine List.filterMap_eq_nil_iff.mpr fun item member => ?_
  obtain ⟨holder, inside, listed⟩ := List.mem_flatMap.mp member
  obtain ⟨own, there, rfl⟩ := List.mem_map.mp listed
  refine if_neg fun same => ?_
  rw [bare holder inside same] at there
  cases there

/-- Where keys are distinct, the items of a key are those its holder lists. -/
theorem under_flatMap {holders : List Holder} (distinct : (holders.map key).Nodup)
    (items : Holder → List Item) {holder : Holder} (member : holder ∈ holders) :
    under (key holder) (holders.flatMap fun holder => (items holder).map fun item =>
      (key holder, item)) = items holder := by
  induction holders with
  | nil => cases member
  | cons first rest ih =>
    obtain ⟨fresh, later⟩ := List.nodup_cons.mp distinct
    rw [List.flatMap_cons, under_append]
    rcases List.mem_cons.mp member with rfl | inside
    · have others := @under_flatMap_eq_nil _ _ _ _ key rest (key holder) items
        fun h there same => absurd (List.mem_map.mpr ⟨h, there, same⟩) fresh
      rw [others, List.append_nil, under, List.filterMap_map]
      simp
    · have apart : key first ≠ key holder := fun same =>
        fresh (List.mem_map.mpr ⟨holder, inside, same.symm⟩)
      rw [ih later inside, under, List.filterMap_map]
      simp [apart]

section Maps

variable {K V : Type} [LinearOrder K]

/-- Pairs are inserted into a map one after another, later ones in place of earlier ones. -/
def insertAll (m : SortedMap K V) (pairs : List (K × V)) : SortedMap K V :=
  pairs.foldl (fun m pair => m.insert pair.1 pair.2) m

/-- What is found under a key was inserted, or was there before. -/
theorem mem_of_insertAll {m : SortedMap K V} {pairs : List (K × V)} {name : K} {value : V}
    (found : (insertAll m pairs).find? name = some value) :
    (name, value) ∈ pairs ∨ m.find? name = some value := by
  induction pairs generalizing m with
  | nil => exact Or.inr found
  | cons pair rest ih =>
    rcases ih found with later | now
    · exact Or.inl (List.mem_cons_of_mem _ later)
    · by_cases own : name = pair.1
      · subst own
        rw [SortedMap.find?_insert_self] at now
        cases now
        exact Or.inl List.mem_cons_self
      · rw [SortedMap.find?_insert_ne _ _ own] at now
        exact Or.inr now

/-- Something is found under a key that was inserted, or that was there before. -/
theorem exists_insertAll {m : SortedMap K V} {pairs : List (K × V)} {name : K}
    (given : name ∈ pairs.map Prod.fst ∨ (m.find? name).isSome) :
    ∃ value, (insertAll m pairs).find? name = some value := by
  induction pairs generalizing m with
  | nil => exact Option.isSome_iff_exists.mp (given.resolve_left (List.not_mem_nil))
  | cons pair rest ih =>
    refine ih ?_
    by_cases own : name = pair.1
    · right
      rw [own, SortedMap.find?_insert_self]
      rfl
    · rw [SortedMap.find?_insert_ne _ _ own]
      exact given.imp_left fun member => (List.mem_cons.mp member).resolve_left own

/-- A key that is not inserted keeps what was there before. -/
theorem find?_insertAll_of_notMem {m : SortedMap K V} {pairs : List (K × V)} {name : K}
    (absent : name ∉ pairs.map Prod.fst) : (insertAll m pairs).find? name = m.find? name := by
  induction pairs generalizing m with
  | nil => rfl
  | cons pair rest ih =>
    rw [List.map_cons, List.mem_cons, not_or] at absent
    exact (ih absent.2).trans (SortedMap.find?_insert_ne _ _ absent.1)

/-- Values are added to the lists of their keys one after another. -/
def gatherAll (m : SortedMap K (List V)) (pairs : List (K × V)) : SortedMap K (List V) :=
  pairs.foldl (fun m pair => m.insert pair.1 ((m.find? pair.1).getD [] ++ [pair.2])) m

/-- The list of a key is what was there before and what was added, in order. -/
theorem find?_gatherAll (m : SortedMap K (List V)) (pairs : List (K × V)) (name : K) :
    ((gatherAll m pairs).find? name).getD [] = (m.find? name).getD [] ++ under name pairs := by
  induction pairs generalizing m with
  | nil => simp [gatherAll, under]
  | cons pair rest ih =>
    refine (ih (m.insert pair.1 ((m.find? pair.1).getD [] ++ [pair.2]))).trans ?_
    by_cases own : pair.1 = name
    · rw [← own, SortedMap.find?_insert_self, under, under, List.filterMap_cons, if_pos rfl]
      simp
    · rw [SortedMap.find?_insert_ne _ _ (Ne.symm own), under, under, List.filterMap_cons, if_neg own]

end Maps

end Filing
