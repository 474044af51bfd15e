import Polargraph.Lib.Except
import Polargraph.Storage.Reads

/-! The annotations a scan of an edge finds: the newest version of each that the reader may see. -/

namespace Polargraph

namespace TripleStore

section Newest

variable {κ : Type} [DecidableEq κ]

/-- A version of an annotation is one that a reader may see at a time. -/
structure SeenAnnotation (decode : Bytes → Except StorageError DecodedAnnotation) (ts : Timestamp)
    (readable : Option (List UInt32)) (entry : Bytes × Bytes) (dk : DecodedAnnotation) : Prop where
  /-- Its key reads so. -/
  decoded : decode entry.1 = .ok dk
  /-- It was recorded by then. -/
  recorded : dk.tt ≤ ts
  /-- The reader may see its graph. -/
  readable : readableAdmits readable dk.g = true

/-- What is kept of some versions: the newest one of each name, or an empty slot. -/
structure KeepsNewest (decode : Bytes → Except StorageError DecodedAnnotation)
    (name : DecodedAnnotation → κ) (ts : Timestamp) (readable : Option (List UInt32))
    (seen : List (Bytes × Bytes)) (latest : List (κ × Timestamp × Bytes)) : Prop where
  /-- Each name has one slot. -/
  distinct : (latest.map Prod.fst).Nodup
  /-- A name without a slot has no version. -/
  absent : ∀ key, Latest.lookup key latest = none → ∀ entry ∈ seen, ∀ dk,
    SeenAnnotation decode ts readable entry dk → name dk ≠ key
  /-- A slot is empty, or has a version. -/
  own : ∀ key slot, Latest.lookup key latest = some slot → slot.2 = [] ∨
    ∃ entry ∈ seen, ∃ dk, SeenAnnotation decode ts readable entry dk ∧ name dk = key ∧
      slot = (dk.tt, entry.2)
  /-- No version is newer than the slot of its name. -/
  newest : ∀ key slot, Latest.lookup key latest = some slot → ∀ entry ∈ seen, ∀ dk,
    SeenAnnotation decode ts readable entry dk → name dk = key → dk.tt ≤ slot.1

variable {decode : Bytes → Except StorageError DecodedAnnotation} {name : DecodedAnnotation → κ}
  {ts : Timestamp} {readable : Option (List UInt32)}

/-- Going on with more versions keeps the newest ones. -/
theorem KeepsNewest.foldlM {entries seen : List (Bytes × Bytes)}
    {latest after : List (κ × Timestamp × Bytes)}
    (held : KeepsNewest decode name ts readable seen latest)
    (done : entries.foldlM (fun latest (key, value) => do
      let dk ← decode key
      if ts < dk.tt ∨ !readableAdmits readable dk.g then return latest
      return Latest.entryUpdate (name dk) (Timestamp.MIN, [])
        (fun slot => if slot.1 < dk.tt then (dk.tt, value) else slot) latest) latest = .ok after) :
    KeepsNewest decode name ts readable (seen ++ entries) after := by
  -- The induction is on the versions that are left.
  induction entries generalizing seen latest with
  | nil =>
    cases done
    rwa [List.append_nil]
  | cons entry rest ih =>
    obtain ⟨key, value⟩ := entry
    rw [List.foldlM_cons] at done
    obtain ⟨next, step, done⟩ := Except.bind_eq_ok.mp done
    obtain ⟨dk, decoded, step⟩ := Except.bind_eq_ok.mp step
    rw [List.append_cons]
    refine ih ?_ done
    have only : ∀ other, SeenAnnotation decode ts readable (key, value) other → other = dk :=
      fun other sees => Except.ok.inj (sees.decoded.symm.trans decoded)
    by_cases skipped : ts < dk.tt ∨ (!readableAdmits readable dk.g) = true
    · -- A version that is not seen changes nothing.
      rw [if_pos skipped] at step
      cases step
      have unseen : ∀ other, ¬ SeenAnnotation decode ts readable (key, value) other := by
        intro other sees
        cases only other sees
        rcases skipped with late | hidden
        · exact absurd sees.recorded (not_le.mpr late)
        · rw [sees.readable] at hidden
          cases hidden
      have before : ∀ item ∈ seen ++ [(key, value)], ∀ other,
          SeenAnnotation decode ts readable item other → item ∈ seen := by
        intro item member other sees
        rcases List.mem_append.mp member with earlier | last
        · exact earlier
        · rw [List.mem_singleton.mp last] at sees
          exact absurd sees (unseen other)
      refine ⟨held.distinct, fun name' none item member other sees =>
        held.absent name' none item (before item member other sees) other sees,
        fun name' slot found => ?_, fun name' slot found item member other sees =>
        held.newest name' slot found item (before item member other sees) other sees⟩
      rcases held.own name' slot found with empty | ⟨item, member, other, sees⟩
      · exact Or.inl empty
      · exact Or.inr ⟨item, List.mem_append_left _ member, other, sees⟩
    · rw [if_neg skipped] at step
      cases step
      obtain ⟨late, visible⟩ := not_or.mp skipped
      have sees : SeenAnnotation decode ts readable (key, value) dk :=
        ⟨decoded, not_lt.mp late, by simpa using visible⟩
      refine ⟨Latest.nodup_entryUpdate _ _ _ held.distinct, fun name' none item member other saw => ?_,
        fun name' slot found => ?_, fun name' slot found item member other saw same => ?_⟩
      · by_cases own : name' = name dk
        · subst own
          simp at none
        · rw [Latest.lookup_entryUpdate_ne own] at none
          rcases List.mem_append.mp member with earlier | last
          · exact held.absent name' none item earlier other saw
          · rw [List.mem_singleton.mp last] at saw
            rw [only other saw]
            exact Ne.symm own
      · by_cases own : name' = name dk
        · subst own
          rw [Latest.lookup_entryUpdate_self] at found
          cases found
          split_ifs with later
          · exact Or.inr ⟨_, List.mem_append_right _ (List.mem_singleton_self _), dk, sees, rfl, rfl⟩
          · cases present : Latest.lookup (name dk) latest with
            | none => exact Or.inl rfl
            | some slot =>
              rcases held.own _ slot present with empty | ⟨item, member, other, saw⟩
              · exact Or.inl empty
              · exact Or.inr ⟨item, List.mem_append_left _ member, other, saw⟩
        · rw [Latest.lookup_entryUpdate_ne own] at found
          rcases held.own name' slot found with empty | ⟨item, member, other, saw⟩
          · exact Or.inl empty
          · exact Or.inr ⟨item, List.mem_append_left _ member, other, saw⟩
      · subst same
        by_cases own : name other = name dk
        · rw [own, Latest.lookup_entryUpdate_self] at found
          cases found
          have bound : item ∈ seen → other.tt ≤ ((Latest.lookup (name dk) latest).getD
              (Timestamp.MIN, [])).1 := by
            intro earlier
            cases present : Latest.lookup (name dk) latest with
            | none => exact absurd own (held.absent _ present item earlier other saw)
            | some slot => exact held.newest _ slot present item earlier other saw own
          rcases List.mem_append.mp member with earlier | last
          · split_ifs with later
            · exact le_trans (bound earlier) (le_of_lt later)
            · exact bound earlier
          · rw [List.mem_singleton.mp last] at saw
            rw [only other saw]
            split_ifs with later
            · exact le_refl _
            · exact not_lt.mp later
        · rw [Latest.lookup_entryUpdate_ne own] at found
          rcases List.mem_append.mp member with earlier | last
          · exact held.newest _ slot found item earlier other saw rfl
          · rw [List.mem_singleton.mp last] at saw
            exact absurd (congrArg name (only other saw)) own

/-- The latest annotations of some versions are the newest ones. -/
theorem keepsNewest_latestAnnotations {entries : List (Bytes × Bytes)}
    {latest : List (κ × Timestamp × Bytes)}
    (done : latestAnnotations decode name ts readable entries = .ok latest) :
    KeepsNewest decode name ts readable entries latest := by
  have start : KeepsNewest decode name ts readable [] [] :=
    ⟨List.nodup_nil, fun _ _ _ member => absurd member List.not_mem_nil, fun _ _ => nofun,
      fun _ _ => nofun⟩
  exact start.foldlM done

end Newest

variable {ext : External} {store : TripleStore}

/-- The newest version of an edge's annotation that a reader may see at a time has a value. -/
def HasAnnotation (ext : External) (store : TripleStore) (edge : EdgeId) (name : String)
    (ts : Timestamp) (readable : Option (List UInt32)) (value : Value) : Prop :=
  ∃ entry ∈ (store.db.family .epa).scanPrefix edge.uuid.bytes, ∃ dk,
    SeenAnnotation decodeEpaKey ts readable entry dk ∧ store.rev dk.predId = some name ∧
    (∀ other ∈ (store.db.family .epa).scanPrefix edge.uuid.bytes, ∀ dk',
      SeenAnnotation decodeEpaKey ts readable other dk' → dk'.predId = dk.predId → dk'.tt ≤ dk.tt) ∧
    ∃ window, decodeValue ext entry.2 = .ok (.property value window)

/-- A value that a scan of an edge finds is that of the newest version. -/
theorem hasAnnotation_of_scan {edge : EdgeId} {ts : Timestamp} {readable : Option (List UInt32)}
    {annotations : List EdgeAnnotation}
    (done : store.scanEdgeAnnotationsWith ext edge ts readable = .ok annotations) {name : String}
    {value : Value} (member : ⟨name, .scalar value⟩ ∈ annotations) :
    HasAnnotation ext store edge name ts readable value := by
  obtain ⟨scalars, latest, done⟩ := Except.bind_eq_ok.mp done
  obtain ⟨properties, read, done⟩ := Except.bind_eq_ok.mp done
  obtain ⟨nodes, _, done⟩ := Except.bind_eq_ok.mp done
  obtain ⟨relations, related, done⟩ := Except.bind_eq_ok.mp done
  cases done
  have kept := keepsNewest_latestAnnotations latest
  rcases List.mem_append.mp member with property | relation
  · obtain ⟨found, inside, here⟩ := List.mem_flatten.mp property
    obtain ⟨⟨p, tt, bytes⟩, slot, step⟩ := (Except.mem_of_mapM read).mp inside
    obtain ⟨text, known, step⟩ := Except.bind_eq_ok.mp step
    obtain ⟨decoded, content, step⟩ := Except.bind_eq_ok.mp step
    have stored := (Latest.mem_iff_lookup kept.distinct).mp slot
    cases decoded with
    | property own window =>
      cases step
      cases List.mem_singleton.mp here
      rcases kept.own p _ stored with empty | ⟨entry, version, dk, sees, same, parts⟩
      · -- An empty slot has no value.
        rw [show bytes = [] from empty] at content
        cases content
      · obtain ⟨time, own⟩ := Prod.mk.inj parts
        subst own
        refine ⟨entry, version, dk, sees, ?_, fun other among dk' saw alike => ?_, window, content⟩
        · rw [same]
          unfold predicateOrErr predicateString at known
          split at known
          · cases known
          · rename_i spelled found
            cases known
            exact found
        · rw [← time]
          exact kept.newest p _ stored other among dk' saw (alike.trans same)
    | _ =>
      cases step
      cases here
  · obtain ⟨_, _, step⟩ := (Except.mem_of_mapM related).mp relation
    obtain ⟨text, _, step⟩ := Except.bind_eq_ok.mp step
    cases step

end TripleStore

end Polargraph
