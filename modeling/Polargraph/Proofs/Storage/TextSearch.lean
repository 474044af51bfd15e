import Polargraph.Proofs.Core.Utf8
import Polargraph.Proofs.Query.Evaluate
import Polargraph.Proofs.Storage.Closings
import Polargraph.Proofs.Storage.Noninterference

/-! When a text search finds exactly the subjects whose short values contain the query. -/

namespace Polargraph

variable {ext : External}

/-- Every trigram takes three bytes. -/
theorem length_of_mem_extractTrigrams {text : String} {trigram : Bytes}
    (member : trigram ∈ extractTrigrams text) : trigram.length = 3 := by
  rw [extractTrigrams] at member
  split_ifs at member with empty short
  · cases member
  · rw [List.mem_singleton.mp member, List.length_append, List.length_replicate]
    omega
  · obtain ⟨start, inside, rfl⟩ := List.mem_map.mp (List.mem_dedup.mp member)
    have bound := List.mem_range.mp inside
    rw [List.length_take, List.length_drop]
    omega

/-- Only the empty text has no trigrams. -/
theorem extractTrigrams_ne_nil {text : String} (some : text ≠ "") : extractTrigrams text ≠ [] := by
  have bytes : (utf8 text).isEmpty = false := by
    rw [List.isEmpty_eq_false_iff]
    intro blank
    have same : utf8 text = utf8 "" := blank.trans (by decide +kernel)
    exact some (utf8_inj same)
  rw [extractTrigrams, bytes, if_neg Bool.false_ne_true]
  split_ifs with short
  · exact List.cons_ne_nil _ _
  · -- The first window is one of them.
    have first : (0 : Nat) ∈ List.range ((utf8 text).length - 2) := List.mem_range.mpr (by omega)
    exact List.ne_nil_of_mem (List.mem_dedup.mpr (List.mem_map.mpr ⟨0, first, rfl⟩))

namespace TripleStore

variable {store : TripleStore}

/-- A subject has a posting of a trigram under a predicate, in some graph. -/
def Posted (store : TripleStore) (p : PredId) (trigram : Bytes) (node : NodeId) : Prop :=
  ∃ g, (store.db.get .tri (encodeTri trigram p g node)).isSome

/-- The candidates of a trigram are the subjects that have a posting of it. -/
theorem mem_scanTrigramCandidates {p : PredId} {trigram : Bytes} (width : trigram.length = 3)
    {node : NodeId} :
    node ∈ store.scanTrigramCandidates p trigram ↔ store.Posted p trigram node := by
  have front : (trigram ++ u32Bytes p).length = 7 := by
    rw [List.length_append, width, u32Bytes_length]
  rw [scanTrigramCandidates, List.mem_filterMap]
  constructor
  · rintro ⟨⟨key, value⟩, member, decoded⟩
    obtain ⟨listed, start⟩ := SortedMap.mem_scanPrefix.mp member
    obtain ⟨rest, rfl⟩ := start
    split at decoded
    · rename_i g other done
      cases decoded
      obtain ⟨_, checked, done⟩ := Except.bind_eq_ok.mp done
      cases done
      have long : (trigram ++ u32Bytes p ++ rest).length = 27 := by
        rw [checkLen] at checked
        split_ifs at checked with same
        exact not_not.mp same
      rw [List.length_append, front] at long
      -- The rest of the key is a graph and a subject.
      have graph : slice (trigram ++ u32Bytes p ++ rest) 7 11 = rest.take 4 := by
        change ((trigram ++ u32Bytes p ++ rest).drop 7).take 4 = rest.take 4
        rw [← front, List.drop_left]
      have subject : slice (trigram ++ u32Bytes p ++ rest) 11 27 = rest.drop 4 := by
        rw [slice, show (11 : Nat) = 7 + 4 from rfl, ← List.drop_drop, ← front, List.drop_left,
          List.take_of_length_le (by rw [List.length_drop]; omega)]
      have key : encodeTri trigram p ⟨u32From (slice (trigram ++ u32Bytes p ++ rest) 7 11)⟩
          ⟨Uuid.fromSlice (slice (trigram ++ u32Bytes p ++ rest) 11 27)⟩ =
            trigram ++ u32Bytes p ++ rest := by
        rw [encodeTri, graph, subject, u32Bytes_u32From (by rw [List.length_take]; omega),
          Uuid.bytes_fromSlice (by rw [List.length_drop]; omega), List.append_assoc _ _ (rest.drop 4),
          List.take_append_drop]
      refine ⟨⟨u32From (slice (trigram ++ u32Bytes p ++ rest) 7 11)⟩, ?_⟩
      rw [key, Db.get, SortedMap.find?_eq_some.mpr listed]
      rfl
    · cases decoded
  · rintro ⟨g, found⟩
    obtain ⟨value, found⟩ := Option.isSome_iff_exists.mp found
    refine ⟨_, SortedMap.mem_scanPrefix.mpr ⟨SortedMap.find?_eq_some.mp found, ?_⟩, ?_⟩
    · exact ⟨u32Bytes g.raw ++ node.uuid.bytes, by simp [encodeTri]⟩
    · have long : (encodeTri trigram p g node).length = 27 := by
        simp [encodeTri, width, node.uuid.width]
      have subject : slice (encodeTri trigram p g node) 11 27 = node.uuid.bytes := by
        have lead : (trigram ++ u32Bytes p ++ u32Bytes g.raw).length = 11 := by
          rw [List.length_append, front, u32Bytes_length]
        rw [slice, encodeTri, ← lead, List.drop_left,
          List.take_of_length_le (by rw [node.uuid.width, lead])]
      have decoded : ∃ g', decodeTri (encodeTri trigram p g node) = .ok (g', node) := by
        refine ⟨⟨u32From (slice (encodeTri trigram p g node) 7 11)⟩,
          Except.bind_eq_ok.mpr ⟨(), ?_, ?_⟩⟩
        · rw [checkLen, if_neg (not_not.mpr long)]
        · rw [subject, Uuid.fromSlice_bytes]
          rfl
      obtain ⟨g', decoded⟩ := decoded
      simp only [decoded]

/-- A subject has a posting of every trigram of a query under a predicate. -/
def PostedAll (store : TripleStore) (predicate query : String) (node : NodeId) : Prop :=
  ∃ p, store.predicateId predicate = some p ∧
    ∀ trigram ∈ extractTrigrams query, store.Posted p trigram node

/-- A text is a live value of a predicate for a subject, in a graph that the reader may see. -/
def LiveText (ext : External) (store : TripleStore) (predicate : String) (point : ReadAt)
    (now : Timestamp) (node : NodeId) (text : String) : Prop :=
  ∃ ids name value window, store.Wanted (some node) (some predicate) none .union point ids ∧
    store.ReadFrom ext point.ts (point.vtAsOf.getD now) ids (.property node name value window) ∧
    value.asText = some text

/-- A text is a value that scans answer with: that of the lowest graph of those with its digest. -/
def ScannedText (ext : External) (store : TripleStore) (predicate : String) (point : ReadAt)
    (now : Timestamp) (node : NodeId) (text : String) : Prop :=
  ∃ ids subject name value window,
    store.Answers (some node) (some predicate) none point (point.vtAsOf.getD now) ids ∧
    store.Shows point.ts (point.vtAsOf.getD now) ids ∧
    store.ReadFrom ext point.ts (point.vtAsOf.getD now) ids (.property subject name value window) ∧
    value.asText = some text

/-- A text is short enough for the index. -/
def IsShort (text : String) : Prop := (utf8 text).length ≤ TRIGRAM_MAX_TEXT_BYTES

/-- A text contains a query, both lower-cased. -/
def ContainsLowered (toLowercase : String → String) (query text : String) : Prop :=
  utf8 (toLowercase query) <:+: utf8 (toLowercase text)

/-- The search finds exactly the subjects with a live short value that contains the query. -/
def SearchesExactly (ext : External) (toLowercase : String → String) (store : TripleStore)
    (predicate query : String) (point : ReadAt) (now : Timestamp) : Prop :=
  ∃ nodes, store.textSearchAt ext toLowercase predicate query point now = .ok nodes ∧
    ∀ node, node ∈ nodes ↔ ∃ text, store.LiveText ext predicate point now node text ∧
      IsShort text ∧ ContainsLowered toLowercase query text

/-- Postings tell the subjects with matching short values from those with matching long ones. -/
structure PostsMatches (ext : External) (toLowercase : String → String) (store : TripleStore)
    (predicate query : String) (point : ReadAt) (now : Timestamp) : Prop where
  /-- A subject with a matching short value has a posting of every trigram of the query. -/
  complete : ∀ node text, store.LiveText ext predicate point now node text → IsShort text →
    ContainsLowered toLowercase query text → store.PostedAll predicate query node
  /-- Scans answer with some matching value of it, whatever values share a digest. -/
  scanned : ∀ node text, store.LiveText ext predicate point now node text → IsShort text →
    ContainsLowered toLowercase query text → ∃ other,
      store.ScannedText ext predicate point now node other ∧ ContainsLowered toLowercase query other
  /-- A subject with every posting and a matching value has a matching short one. -/
  bounded : ∀ node, store.PostedAll predicate query node → ∀ text,
    store.ScannedText ext predicate point now node text → ContainsLowered toLowercase query text →
      ∃ other, store.LiveText ext predicate point now node other ∧ IsShort other ∧
        ContainsLowered toLowercase query other

/-- A node has the trigrams of a query as soon as they are posted. -/
theorem hasTrigrams_iff {predicate query : String} (some : query ≠ "") {node : NodeId} :
    store.HasTrigrams predicate query node ↔ store.PostedAll predicate query node := by
  refine exists_congr fun p => and_congr_right fun _ => ?_
  constructor
  · intro ⟨_, each⟩ trigram member
    exact (mem_scanTrigramCandidates (length_of_mem_extractTrigrams member)).mp (each trigram member)
  · intro each
    exact ⟨extractTrigrams_ne_nil some, fun trigram member =>
      (mem_scanTrigramCandidates (length_of_mem_extractTrigrams member)).mpr (each trigram member)⟩

/-- In an intact store the values of a subject are read, and they are what scans answer with. -/
theorem exists_scanBySubjectPredicate (intact : store.Intact ext) (predicate : String)
    (point : ReadAt) (now : Timestamp) (node : NodeId) : ∃ triples,
      store.scanBySubjectPredicateAt ext node predicate point now = .ok triples ∧
      ∀ text, store.ScannedText ext predicate point now node text ↔ ∃ subject name value window,
        Triple.property subject name value window ∈ triples ∧ value.asText = some text := by
  let snapshot : Snapshot := ⟨store, point, now, fun _ => none⟩
  obtain ⟨quads, done, result⟩ :=
    @Snapshot.evaluate_spec ext snapshot intact ⟨some node, some predicate, none⟩
  refine ⟨quads.map Prod.snd, done, fun text => ?_⟩
  constructor
  · intro ⟨ids, subject, name, value, window, answers, shows, read, content⟩
    obtain ⟨quad, member, rfl⟩ := List.mem_map.mp ((result.mem_iff ids).mpr ⟨answers, shows⟩)
    have same := (result.read quad member).unique read
    exact ⟨subject, name, value, window, List.mem_map.mpr ⟨quad, member, same⟩, content⟩
  · intro ⟨subject, name, value, window, member, content⟩
    obtain ⟨quad, inside, same⟩ := List.mem_map.mp member
    obtain ⟨answers, shows⟩ := (result.mem_iff quad.1).mp (List.mem_map.mpr ⟨quad, inside, rfl⟩)
    have read := result.read quad inside
    rw [same] at read
    exact ⟨quad.1, subject, name, value, window, answers, shows, read, content⟩

/-- What scans answer with is live. -/
theorem LiveText.of_scanned (intact : store.Intact ext) {predicate : String} {point : ReadAt}
    {now : Timestamp} {node : NodeId} {text : String}
    (scanned : store.ScannedText ext predicate point now node text) :
    store.LiveText ext predicate point now node text := by
  obtain ⟨ids, subject, name, value, window, answers, _, read, content⟩ := scanned
  have own : subject = node := by
    obtain ⟨tt, version, governs, _, _, rebuilt⟩ := read
    have stored := (Index.history_eq_some.mp governs.seen.stored).1
    obtain ⟨_, ⟨_, _, same⟩ | ⟨_, _, same, _⟩⟩ := triple_of_reconstruct
      (intact.sound.keyed.values _ _ stored) intact.sound.keyed.blobs rebuilt
    · cases same
    · rw [(Triple.property.inj same).1, answers.wanted.subject node rfl]
  subst own
  exact ⟨ids, name, value, window, answers.wanted, read, content⟩

/-- A candidate is confirmed when one of the values that scans answer with contains the query. -/
theorem confirmText_iff (intact : store.Intact ext) {toLowercase : String → String}
    {predicate query : String} {point : ReadAt} {now : Timestamp} {node : NodeId} :
    store.confirmText ext toLowercase predicate query point now node = .ok true ↔
      ∃ text, store.ScannedText ext predicate point now node text ∧
        ContainsLowered toLowercase query text := by
  obtain ⟨triples, read, texts⟩ := exists_scanBySubjectPredicate intact predicate point now node
  rw [confirmText, read]
  change Except.ok (triples.any _) = .ok true ↔ _
  rw [Except.ok.injEq, List.any_eq_true]
  constructor
  · rintro ⟨triple, member, matched⟩
    cases triple with
    | property subject name value window =>
      obtain ⟨text, content, holds⟩ := (Option.any_eq_true _ _).mp matched
      have inside : utf8 (toLowercase query) <:+: utf8 (toLowercase text) := of_decide_eq_true holds
      exact ⟨text, (texts text).mpr ⟨subject, name, value, window, member, content⟩, inside⟩
    | _ => cases matched
  · rintro ⟨text, scanned, holds⟩
    obtain ⟨subject, name, value, window, member, content⟩ := (texts text).mp scanned
    have inside : utf8 (toLowercase query) <:+: utf8 (toLowercase text) := holds
    refine ⟨_, member, ?_⟩
    dsimp only
    rw [content]
    exact decide_eq_true inside

/-- A new store in which one node was given a short title. -/
def withTitle : TripleStore :=
  (create.commit jsonText (titled Timestamp.zero "aaa" GraphId.DEFAULT) Timestamp.zero).1

/-- The title reads back as it was written. -/
theorem withTitle_intact : withTitle.Intact jsonText := by
  have created : create.Intact jsonText :=
    intact_configured jsonText DEFAULT_INLINE_VALUE_MAX_BYTES Vocabulary.default true
  refine created.commit nofun (fun w member => ?_) _
  rw [List.mem_singleton.mp member]
  intro subject predicate value temporal same
  obtain ⟨_, _, rfl, _⟩ := Triple.property.inj same
  intro json written
  cases written
  decide +kernel

/-- The text of the only property that was scanned. -/
def onlyText : Except StorageError (List Triple) → Option String
  | .ok [.property _ _ value _] => value.asText
  | _ => none

end TripleStore

end Polargraph
