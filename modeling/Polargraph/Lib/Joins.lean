import Mathlib.Data.Multiset.Bind

/-! Joins of tables of partial assignments: the order of the tables does not matter. -/

namespace Joins

/-- Lists that do not repeat themselves give the same, if what only one of them has gives nothing. -/
theorem flatMap_perm {α β : Type} {small large : List α} (distinct : small.Nodup)
    (distinct' : large.Nodup) {gives : α → List β}
    (out : ∀ item ∈ small, item ∉ large → gives item = [])
    (out' : ∀ item ∈ large, item ∉ small → gives item = []) :
    (small.flatMap gives).Perm (large.flatMap gives) := by
  classical
  have dropped (left right : List α) (none : ∀ item ∈ left, item ∉ right → gives item = []) :
      left.flatMap gives = (left.filter (· ∈ right)).flatMap gives := by
    induction left with
    | nil => rfl
    | cons first rest ih =>
      have later := ih fun item member => none item (List.mem_cons_of_mem _ member)
      by_cases there : first ∈ right
      · rw [List.filter_cons_of_pos (by simpa using there), List.flatMap_cons, List.flatMap_cons, later]
      · rw [List.filter_cons_of_neg (by simpa using there), List.flatMap_cons, later,
          none first List.mem_cons_self there, List.nil_append]
  -- What both have is the same, in some order.
  have common : (small.filter (· ∈ large)).Perm (large.filter (· ∈ small)) := by
    refine (List.perm_ext_iff_of_nodup (distinct.filter _) (distinct'.filter _)).mpr fun item => ?_
    simp only [List.mem_filter, decide_eq_true_eq]
    exact And.comm
  rw [dropped small large out, dropped large small out']
  exact common.flatMap_right gives

/-- Such lists give the same, where each item gives at most one result. -/
theorem filterMap_perm {α β : Type} {small large : List α} (distinct : small.Nodup)
    (distinct' : large.Nodup) {gives : α → Option β}
    (out : ∀ item ∈ small, item ∉ large → gives item = none)
    (out' : ∀ item ∈ large, item ∉ small → gives item = none) :
    (small.filterMap gives).Perm (large.filterMap gives) := by
  rw [List.filterMap_eq_flatMap_toList, List.filterMap_eq_flatMap_toList]
  refine flatMap_perm distinct distinct' (fun item member absent => ?_) fun item member absent => ?_
  · rw [out item member absent]
    rfl
  · rw [out' item member absent]
    rfl

variable {κ ν : Type} [DecidableEq κ] [DecidableEq ν] (repeats : ν → Bool)

/-- Assign a value to a key, or check that it has it, if the value agrees with itself. -/
def assign (key : κ) (value : ν) (row : κ → Option ν) : Option (κ → Option ν) :=
  match row key with
  | some held => if held = value ∧ repeats value = true then some row else none
  | none => some (Function.update row key (some value))

/-- Assign every value of a record. -/
def assignAll (record : List (κ × ν)) (row : κ → Option ν) : Option (κ → Option ν) :=
  record.foldlM (fun row item => assign repeats item.1 item.2 row) row

/-- The rows that extend some rows by the records of a table. -/
def extend (table : Multiset (List (κ × ν))) (rows : Multiset (κ → Option ν)) :
    Multiset (κ → Option ν) :=
  rows.bind fun row => table.filterMap fun record => assignAll repeats record row

/-- The rows that extend some rows by the records of several tables in turn. -/
def join (tables : List (Multiset (List (κ × ν)))) (rows : Multiset (κ → Option ν)) :
    Multiset (κ → Option ν) :=
  tables.foldl (fun rows table => extend repeats table rows) rows

variable {repeats}

/-- Assigning to a key that has a value checks it. -/
theorem assign_of_some {key : κ} {value held : ν} {row : κ → Option ν} (own : row key = some held) :
    assign repeats key value row =
      if held = value ∧ repeats value = true then some row else none := by
  rw [assign, own]

/-- Assigning to a key that has no value sets it. -/
theorem assign_of_none {key : κ} {value : ν} {row : κ → Option ν} (free : row key = none) :
    assign repeats key value row = some (Function.update row key (some value)) := by
  rw [assign, free]

/-- Assignments can be made in either order. -/
theorem assign_comm (key other : κ) (value next : ν) (row : κ → Option ν) :
    (assign repeats key value row).bind (assign repeats other next) =
      (assign repeats other next row).bind (assign repeats key value) := by
  by_cases same : other = key
  · subst same
    cases own : row other with
    | none =>
      -- The second assignment compares the two values, whichever is first.
      have set (held : ν) : Function.update row other (some held) other = some held :=
        Function.update_self _ _ _
      rw [assign_of_none own, assign_of_none own, Option.bind_some, Option.bind_some,
        assign_of_some (set value), assign_of_some (set next)]
      by_cases equal : value = next
      · subst equal
        rfl
      · rw [if_neg fun both => equal both.1, if_neg fun both => equal both.1.symm]
    | some held =>
      rw [assign_of_some own, assign_of_some own]
      split_ifs with first second
      · rw [Option.bind_some, Option.bind_some, assign_of_some own, assign_of_some own, if_pos first,
          if_pos second]
      · rw [Option.bind_some, assign_of_some own, if_neg second]
        rfl
      · rw [Option.bind_some, assign_of_some own, if_neg first]
        rfl
      · rfl
  · -- Different keys do not see each other.
    have apart (held : ν) : Function.update row key (some held) other = row other :=
      Function.update_of_ne same _ _
    have apart' (held : ν) : Function.update row other (some held) key = row key :=
      Function.update_of_ne (Ne.symm same) _ _
    cases own : row key with
    | none =>
      cases theirs : row other with
      | none =>
        rw [assign_of_none own, assign_of_none theirs, Option.bind_some, Option.bind_some,
          assign_of_none ((apart value).trans theirs), assign_of_none ((apart' next).trans own),
          Function.update_comm same]
      | some held =>
        rw [assign_of_none own, assign_of_some theirs, Option.bind_some,
          assign_of_some ((apart value).trans theirs)]
        split_ifs with agrees
        · rw [Option.bind_some, assign_of_none own]
        · rfl
    | some held =>
      cases theirs : row other with
      | none =>
        rw [assign_of_some own, assign_of_none theirs, Option.bind_some,
          assign_of_some ((apart' next).trans own)]
        split_ifs with agrees
        · rw [Option.bind_some, assign_of_none theirs]
        · rfl
      | some second =>
        rw [assign_of_some own, assign_of_some theirs]
        split_ifs with agrees agrees'
        · rw [Option.bind_some, Option.bind_some, assign_of_some theirs, assign_of_some own,
            if_pos agrees, if_pos agrees']
        · rw [Option.bind_some, assign_of_some theirs, if_neg agrees']
          rfl
        · rw [Option.bind_some, assign_of_some own, if_neg agrees]
          rfl
        · rfl

/-- A record without assignments leaves the row as it is. -/
@[simp] theorem assignAll_nil (row : κ → Option ν) : assignAll repeats [] row = some row := rfl

/-- A record starts with its first assignment. -/
theorem assignAll_cons (item : κ × ν) (record : List (κ × ν)) (row : κ → Option ν) :
    assignAll repeats (item :: record) row =
      (assign repeats item.1 item.2 row).bind (assignAll repeats record) := by
  rw [assignAll, List.foldlM_cons]
  rfl

/-- A record of one assignment makes it. -/
theorem assignAll_single (key : κ) (value : ν) (row : κ → Option ν) :
    assignAll repeats [(key, value)] row = assign repeats key value row := by
  rw [assignAll_cons]
  cases assign repeats key value row <;> rfl

/-- The assignments of two records are made in turn. -/
theorem assignAll_append (record other : List (κ × ν)) (row : κ → Option ν) :
    assignAll repeats (record ++ other) row =
      (assignAll repeats record row).bind (assignAll repeats other) := by
  rw [assignAll, List.foldlM_append]
  rfl

/-- An assignment keeps what a row has, and sets its own key. -/
theorem assign_spec {key : κ} {value : ν} {row next : κ → Option ν}
    (done : assign repeats key value row = some next) :
    next key = some value ∧ (∀ other held, row other = some held → next other = some held) ∧
      ∀ held, row key = some held → held = value ∧ repeats value = true := by
  cases own : row key with
  | none =>
    rw [assign_of_none own] at done
    cases done
    refine ⟨Function.update_self _ _ _, fun other held there => ?_, fun held => nofun⟩
    have apart : other ≠ key := by
      rintro rfl
      rw [own] at there
      cases there
    rwa [Function.update_of_ne apart]
  | some held =>
    rw [assign_of_some own] at done
    split_ifs at done with agrees
    cases done
    refine ⟨own.trans (congrArg some agrees.1), fun _ _ there => there, fun other same => ?_⟩
    rwa [← Option.some.inj same]

/-- The assignments of a record keep what a row has. -/
theorem kept_of_assignAll {record : List (κ × ν)} {row next : κ → Option ν}
    (done : assignAll repeats record row = some next) {key : κ} {held : ν}
    (own : row key = some held) : next key = some held := by
  induction record generalizing row with
  | nil =>
    cases done
    exact own
  | cons first rest ih =>
    rw [assignAll_cons] at done
    obtain ⟨middle, here, later⟩ := Option.bind_eq_some_iff.mp done
    exact ih later ((assign_spec here).2.1 _ _ own)

/-- A record assigns each of its values. -/
theorem assigned_of_assignAll {record : List (κ × ν)} {row next : κ → Option ν}
    (done : assignAll repeats record row = some next) {key : κ} {value : ν}
    (member : (key, value) ∈ record) : next key = some value := by
  induction record generalizing row with
  | nil => cases member
  | cons first rest ih =>
    rw [assignAll_cons] at done
    obtain ⟨middle, here, later⟩ := Option.bind_eq_some_iff.mp done
    rcases List.mem_cons.mp member with same | there
    · subst same
      exact kept_of_assignAll later (assign_spec here).1
    · exact ih later there

/-- What a row has agrees with every assignment of a record that extends it. -/
theorem agrees_of_assignAll {record : List (κ × ν)} {row next : κ → Option ν}
    (done : assignAll repeats record row = some next) {item : κ × ν} (member : item ∈ record)
    {held : ν} (own : row item.1 = some held) : held = item.2 ∧ repeats item.2 = true := by
  -- Earlier assignments keep what the row has.
  induction record generalizing row with
  | nil => cases member
  | cons first rest ih =>
    rw [assignAll_cons] at done
    obtain ⟨middle, here, later⟩ := Option.bind_eq_some_iff.mp done
    obtain ⟨_, kept, agrees⟩ := assign_spec here
    rcases List.mem_cons.mp member with rfl | there
    · exact agrees held own
    · exact ih later there (kept _ _ own)

/-- An assignment can be made before a record or after it. -/
theorem assign_assignAll (key : κ) (value : ν) (record : List (κ × ν)) (row : κ → Option ν) :
    (assign repeats key value row).bind (assignAll repeats record) =
      (assignAll repeats record row).bind (assign repeats key value) := by
  -- The induction is on the record: each of its assignments is passed in turn.
  induction record generalizing row with
  | nil =>
    rw [assignAll_nil, Option.bind_some]
    cases assign repeats key value row <;> rfl
  | cons item rest ih =>
    have passed := @assign_comm κ ν _ _ repeats key item.1 value item.2 row
    calc (assign repeats key value row).bind (assignAll repeats (item :: rest))
        = ((assign repeats key value row).bind (assign repeats item.1 item.2)).bind
            (assignAll repeats rest) := by
          rw [Option.bind_assoc]
          exact congrArg _ (funext fun row => assignAll_cons item rest row)
      _ = (assign repeats item.1 item.2 row).bind fun row =>
            (assign repeats key value row).bind (assignAll repeats rest) := by
          rw [passed, Option.bind_assoc]
      _ = (assign repeats item.1 item.2 row).bind fun row =>
            (assignAll repeats rest row).bind (assign repeats key value) :=
          congrArg _ (funext ih)
      _ = (assignAll repeats (item :: rest) row).bind (assign repeats key value) := by
          rw [assignAll_cons, Option.bind_assoc]

/-- Two records can be assigned in either order. -/
theorem assignAll_comm (record other : List (κ × ν)) (row : κ → Option ν) :
    (assignAll repeats record row).bind (assignAll repeats other) =
      (assignAll repeats other row).bind (assignAll repeats record) := by
  induction record generalizing row with
  | nil =>
    rw [assignAll_nil, Option.bind_some]
    cases assignAll repeats other row <;> rfl
  | cons item rest ih =>
    calc (assignAll repeats (item :: rest) row).bind (assignAll repeats other)
        = (assign repeats item.1 item.2 row).bind fun row =>
            (assignAll repeats rest row).bind (assignAll repeats other) := by
          rw [assignAll_cons, Option.bind_assoc]
      _ = ((assign repeats item.1 item.2 row).bind (assignAll repeats other)).bind
            (assignAll repeats rest) := by
          rw [Option.bind_assoc]
          exact congrArg _ (funext ih)
      _ = (assignAll repeats other row).bind (assignAll repeats (item :: rest)) := by
          rw [assign_assignAll, Option.bind_assoc]
          exact congrArg _ (funext fun row => (assignAll_cons item rest row).symm)

/-- Two tables can be joined in either order. -/
theorem extend_comm (table other : Multiset (List (κ × ν))) (rows : Multiset (κ → Option ν)) :
    extend repeats other (extend repeats table rows) =
      extend repeats table (extend repeats other rows) := by
  simp only [extend, Multiset.bind_assoc]
  refine Multiset.bind_congr fun row _ => ?_
  -- For one row, the pairs of records that agree are the same.
  have pairs (table other : Multiset (List (κ × ν))) :
      ((table.filterMap fun record => assignAll repeats record row).bind fun row =>
        other.filterMap fun record => assignAll repeats record row) =
      table.bind fun record => other.filterMap fun next =>
        (assignAll repeats record row).bind (assignAll repeats next) := by
    rw [Multiset.filterMap_eq_bind, Multiset.bind_assoc]
    refine Multiset.bind_congr fun record _ => ?_
    cases assignAll repeats record row with
    | none => simp [Multiset.filterMap_eq_bind]
    | some row => simp
  rw [pairs, pairs]
  simp only [Multiset.filterMap_eq_bind]
  rw [Multiset.bind_bind]
  refine Multiset.bind_congr fun next _ => Multiset.bind_congr fun record _ => ?_
  rw [assignAll_comm]

/-- No rows are extended to none. -/
@[simp] theorem join_zero (tables : List (Multiset (List (κ × ν)))) : join repeats tables 0 = 0 := by
  rw [join]
  induction tables with
  | nil => rfl
  | cons table rest ih =>
    rw [List.foldl_cons, extend, Multiset.zero_bind]
    exact ih

/-- Permuted tables join to the same rows. -/
theorem join_perm {tables others : List (Multiset (List (κ × ν)))} (perm : tables.Perm others)
    (rows : Multiset (κ → Option ν)) : join repeats tables rows = join repeats others rows :=
  perm.foldl_eq' (fun table _ other _ rows => extend_comm table other rows) rows

end Joins
