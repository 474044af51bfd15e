import Polargraph.Proofs.Rest.Literals

/-! What an exported JSON-LD document is read back as. -/

namespace Polargraph

variable {parseF64 : String → Option UInt64}

namespace Json

/-- A list is read as it was written when its items are. -/
theorem written_array {items : List Json} :
    (array items).written = array items ↔ ∀ item ∈ items, item.written = item := by
  rw [written, array.injEq]
  induction items with
  | nil => simp [writtenItems]
  | cons item rest ih => rw [writtenItems, List.cons.injEq, ih, List.forall_mem_cons]

/-- An object whose fields are read as they were written is read so. -/
theorem written_object {fields : List (String × Json)}
    (own : ∀ pair ∈ fields, pair.2.written = pair.2) : (object fields).written = object fields := by
  rw [written]
  congr 1
  induction fields with
  | nil => rfl
  | cons pair rest ih =>
    obtain ⟨name, item⟩ := pair
    rw [writtenFields, own (name, item) List.mem_cons_self,
      ih fun other member => own other (List.mem_cons_of_mem _ member)]

end Json

/-- A literal in JSON is native or its text, never a double that is not finite. -/
theorem written_coerceXsdValue (lexical datatype : String) :
    (coerceXsdValue parseF64 lexical datatype).written = coerceXsdValue parseF64 lexical datatype := by
  rw [coerceXsdValue]
  split_ifs with whole double truth yes no
  · cases parseI64 lexical <;> rfl
  · cases parseF64 lexical with
    | none => rfl
    | some bits =>
      dsimp only
      split_ifs with finite
      · rw [Json.written, if_pos finite]
      · rfl
  all_goals rfl

/-- A literal is an object of two fields. -/
theorem jsonldLiteral_eq (lexical after : String) : ∃ typeStr coerced,
    jsonldLiteral parseF64 lexical after =
      .object [("@type", .string typeStr), ("@value", coerced)] ∧ coerced.written = coerced := by
  rw [jsonldLiteral]
  cases strippedPrefix "^^<" after with
  | some dtPart => exact ⟨_, _, rfl, written_coerceXsdValue _ _⟩
  | none =>
    cases strippedPrefix "@" after with
    | some langPart => exact ⟨_, _, rfl, rfl⟩
    | none => exact ⟨_, _, rfl, rfl⟩

/-- A rendered object is a reference, a literal or a text. -/
theorem ntObjectToJsonld_cases (obj : String) :
    (∃ id, ntObjectToJsonld parseF64 obj = .object [("@id", .string id)]) ∨
      (∃ lexical after, ntObjectToJsonld parseF64 obj = jsonldLiteral parseF64 lexical after) ∨
      ntObjectToJsonld parseF64 obj = .string obj := by
  rw [ntObjectToJsonld]
  split_ifs with blank iri
  · exact .inl ⟨_, rfl⟩
  · exact .inl ⟨_, rfl⟩
  · split
    · split
      · exact .inr (.inl ⟨_, _, rfl⟩)
      · exact .inr (.inr rfl)
    · exact .inr (.inr rfl)

/-- A rendered object is read as it was written, and is no list. -/
theorem ntObjectToJsonld_shape (obj : String) :
    (ntObjectToJsonld parseF64 obj).written = ntObjectToJsonld parseF64 obj ∧
      ∀ items, ntObjectToJsonld parseF64 obj ≠ .array items := by
  rcases @ntObjectToJsonld_cases parseF64 obj with ⟨id, reference⟩ | ⟨lexical, after, literal⟩ | text
  · rw [reference]
    exact ⟨rfl, nofun⟩
  · obtain ⟨typeStr, coerced, fields, own⟩ := @jsonldLiteral_eq parseF64 lexical after
    rw [literal, fields]
    refine ⟨Json.written_object ?_, nofun⟩
    intro pair member
    simp only [List.mem_cons, List.not_mem_nil, or_false] at member
    rcases member with rfl | rfl
    · rfl
    · exact own
  · rw [text]
    exact ⟨rfl, nofun⟩

/-- The objects a node has under a predicate. -/
def objectsOf (node : SortedMap String Json) (key : String) : List Json :=
  ((node.find? key).map Json.items).getD []

/-- Adding an object adds it behind those of its predicate. -/
theorem objectsOf_addObject (node : SortedMap String Json) (pred : String × String) (key : String) :
    objectsOf (addObject parseF64 node pred) key =
      if stripBrackets pred.1 = key then objectsOf node key ++ [ntObjectToJsonld parseF64 pred.2]
      else objectsOf node key := by
  have single : ∀ item : Json, (∀ items, item ≠ .array items) → item.items = [item] := by
    intro item other
    cases item with
    | array items => exact absurd rfl (other items)
    | _ => rfl
  have value := single _ (@ntObjectToJsonld_shape parseF64 pred.2).2
  split_ifs with own
  · subst own
    rw [addObject, objectsOf, objectsOf]
    cases held : node.find? (stripBrackets pred.1) with
    | none => simp [value]
    | some existing =>
      cases existing with
      | array items => simp [Json.items]
      | _ => simp [Json.items]
  · have apart : key ≠ stripBrackets pred.1 := fun same => own same.symm
    rw [addObject, objectsOf, objectsOf]
    cases node.find? (stripBrackets pred.1) with
    | none => simp only [SortedMap.find?_insert_ne _ _ apart]
    | some existing => cases existing <;> simp only [SortedMap.find?_insert_ne _ _ apart]

/-- The objects of a node are those of its predicates, in the order they were added. -/
theorem objectsOf_foldl (preds : List (String × String)) (node : SortedMap String Json)
    (key : String) : objectsOf (preds.foldl (addObject parseF64) node) key =
      objectsOf node key ++ (preds.filter (fun pred => decide (stripBrackets pred.1 = key))).map
        (fun pred => ntObjectToJsonld parseF64 pred.2) := by
  induction preds generalizing node with
  | nil => simp
  | cons pred rest ih =>
    rw [List.foldl_cons, ih, objectsOf_addObject, List.filter_cons]
    split_ifs with own <;> simp_all

/-- The triples of a subject are those given for it, in the order they were given. -/
theorem find?_bySubject (triples : List RdfTriple) (subject : String) :
    ((bySubject triples).find? subject).getD [] =
      (triples.filter (fun t => decide (t.subject = subject))).map
        (fun t => (t.predicate, t.object)) := by
  -- The induction starts from any groups, whose triples come first.
  have general : ∀ groups : SortedMap String (List (String × String)),
      ((triples.foldl (fun groups t => groups.insert t.subject
        ((groups.find? t.subject).getD [] ++ [(t.predicate, t.object)])) groups).find? subject).getD [] =
      (groups.find? subject).getD [] ++ (triples.filter (fun t => decide (t.subject = subject))).map
        (fun t => (t.predicate, t.object)) := by
    induction triples with
    | nil => simp
    | cons t rest ih =>
      intro groups
      rw [List.foldl_cons, ih, List.filter_cons]
      by_cases own : t.subject = subject
      · subst own
        simp
      · rw [SortedMap.find?_insert_ne _ _ (Ne.symm own), if_neg (by simpa using own)]
  rw [bySubject, general]
  rfl

/-- Every group has a triple, and every triple is in the group of its subject. -/
theorem mem_bySubject {triples : List RdfTriple} {subject predicate object : String} :
    (∃ preds, (subject, preds) ∈ (bySubject triples).entries ∧ (predicate, object) ∈ preds) ↔
      ⟨subject, predicate, object⟩ ∈ triples := by
  have listed := find?_bySubject triples subject
  constructor
  · intro ⟨preds, group, member⟩
    rw [SortedMap.find?_eq_some.mpr group, Option.getD_some] at listed
    rw [listed] at member
    obtain ⟨t, given, same⟩ := List.mem_map.mp member
    obtain ⟨kept, own⟩ := List.mem_filter.mp given
    cases same
    cases of_decide_eq_true own
    exact kept
  · intro given
    have member : (predicate, object) ∈ ((bySubject triples).find? subject).getD [] := by
      rw [listed]
      exact List.mem_map.mpr ⟨_, List.mem_filter.mpr ⟨given, decide_eq_true rfl⟩, rfl⟩
    cases found : (bySubject triples).find? subject with
    | none =>
      rw [found] at member
      cases member
    | some preds =>
      rw [found] at member
      exact ⟨preds, SortedMap.find?_eq_some.mp found, member⟩

/-- A lookup among the entries of a map is one in the map. -/
theorem SortedMap.lookup_entries (m : SortedMap String Json) (key : String) :
    m.entries.lookup key = m.find? key := by
  rw [SortedMap.find?]
  induction m.entries with
  | nil => rfl
  | cons pair rest ih =>
    obtain ⟨other, stored⟩ := pair
    rw [List.lookup_cons, List.find?_cons]
    by_cases same : other = key
    · subst same
      simp
    · have apart : (key == other) = false := by simpa using Ne.symm same
      simp [apart, same, ih]

/-- The node of a subject before it is written. -/
def subjectMap (parseF64 : String → Option UInt64) (group : String × List (String × String)) :
    SortedMap String Json :=
  group.2.foldl (addObject parseF64)
    (SortedMap.empty.insert "@id" (.string (stripBrackets group.1)))

/-- A node keeps its identifier when no predicate is named like it. -/
theorem find?_id {group : String × List (String × String)}
    (named : ∀ pred ∈ group.2, stripBrackets pred.1 ≠ "@id") :
    (subjectMap parseF64 group).find? "@id" = some (.string (stripBrackets group.1)) := by
  obtain ⟨subject, preds⟩ := group
  rw [subjectMap]
  have start : ((SortedMap.empty : SortedMap String Json).insert "@id"
      (.string (stripBrackets subject))).find? "@id" = some (.string (stripBrackets subject)) :=
    SortedMap.find?_insert_self _ _ _
  generalize (SortedMap.empty : SortedMap String Json).insert "@id" _ = node at start
  induction preds generalizing node with
  | nil => exact start
  | cons pred rest ih =>
    apply ih fun other member => named other (List.mem_cons_of_mem _ member)
    have apart : "@id" ≠ stripBrackets pred.1 := Ne.symm (named pred List.mem_cons_self)
    rw [addObject]
    cases node.find? (stripBrackets pred.1) with
    | none => simpa only [SortedMap.find?_insert_ne _ _ apart] using start
    | some existing =>
      cases existing <;> simpa only [SortedMap.find?_insert_ne _ _ apart] using start

/-- The document is read as it was written. -/
theorem written_jsonldDocument (triples : List RdfTriple) :
    (jsonldDocument parseF64 triples).written = jsonldDocument parseF64 triples := by
  have added : ∀ (node : SortedMap String Json) (pred : String × String),
      (∀ pair ∈ node.entries, pair.2.written = pair.2) →
      ∀ pair ∈ (addObject parseF64 node pred).entries, pair.2.written = pair.2 := by
    intro node pred own pair member
    have value := (@ntObjectToJsonld_shape parseF64 pred.2).1
    have stored : ∀ existing, node.find? (stripBrackets pred.1) = some existing →
        existing.written = existing := fun existing found =>
      own (_, existing) (SortedMap.find?_eq_some.mp found)
    rw [addObject] at member
    split at member
    case h_1 items found =>
      rcases SortedMap.mem_insert.mp member with rfl | ⟨member, _⟩
      · have listed := stored _ found
        refine Json.written_array.mpr fun item member => ?_
        rcases List.mem_append.mp member with earlier | last
        · exact Json.written_array.mp listed item earlier
        · rw [List.mem_singleton.mp last]
          exact value
      · exact own pair member
    case h_2 existing _ found =>
      rcases SortedMap.mem_insert.mp member with rfl | ⟨member, _⟩
      · refine Json.written_array.mpr fun item member => ?_
        simp only [List.mem_cons, List.not_mem_nil, or_false] at member
        rcases member with rfl | rfl
        · exact stored _ found
        · exact value
      · exact own pair member
    case h_3 =>
      rcases SortedMap.mem_insert.mp member with rfl | ⟨member, _⟩
      · exact value
      · exact own pair member
  have node : ∀ group, (subjectNode parseF64 group).written = subjectNode parseF64 group := by
    intro group
    apply Json.written_object
    have start : ∀ pair ∈ ((SortedMap.empty : SortedMap String Json).insert "@id"
        (.string (stripBrackets group.1))).entries, pair.2.written = pair.2 := by
      intro pair member
      rcases SortedMap.mem_insert.mp member with rfl | ⟨member, _⟩
      · rfl
      · cases member
    generalize (SortedMap.empty : SortedMap String Json).insert "@id" _ = node at start ⊢
    induction group.2 generalizing node with
    | nil => exact start
    | cons pred rest ih => exact ih _ (added node pred start)
  apply Json.written_object
  intro pair member
  simp only [List.mem_cons, List.not_mem_nil, or_false] at member
  rcases member with rfl | rfl
  · rfl
  · refine Json.written_array.mpr fun item member => ?_
    obtain ⟨group, _, rfl⟩ := List.mem_map.mp member
    exact node group

/-- What a rendered triple is read back as, if anything. -/
def reread (parseF64 : String → Option UInt64) (serde : SerdeJson) (t : RdfTriple) :
    Option ImportedTriple :=
  (jsonldObject parseF64 serde (ntObjectToJsonld parseF64 t.object)).map fun object =>
    match strippedPrefix "_:" (stripBrackets t.subject) with
    | some label => ⟨label, true, stripBrackets t.predicate, object, none⟩
    | none => ⟨stripBrackets t.subject, false, stripBrackets t.predicate, object, none⟩

/-- An item of a predicate of a node is the object of a triple of it. -/
theorem mem_items_subjectMap {group : String × List (String × String)} {key : String} {item : Json}
    (apart : key ≠ "@id") :
    (∃ val, (key, val) ∈ (subjectMap parseF64 group).entries ∧ item ∈ val.items) ↔
      ∃ pred ∈ group.2, stripBrackets pred.1 = key ∧ ntObjectToJsonld parseF64 pred.2 = item := by
  have listed : objectsOf (subjectMap parseF64 group) key =
      (group.2.filter (fun pred => decide (stripBrackets pred.1 = key))).map
        (fun pred => ntObjectToJsonld parseF64 pred.2) := by
    have blank : objectsOf ((SortedMap.empty : SortedMap String Json).insert "@id"
        (.string (stripBrackets group.1))) key = [] := by
      rw [objectsOf, SortedMap.find?_insert_ne _ _ apart]
      rfl
    rw [subjectMap, objectsOf_foldl, blank, List.nil_append]
  have held : (∃ val, (key, val) ∈ (subjectMap parseF64 group).entries ∧ item ∈ val.items) ↔
      item ∈ objectsOf (subjectMap parseF64 group) key := by
    rw [objectsOf]
    constructor
    · intro ⟨val, stored, member⟩
      rw [SortedMap.find?_eq_some.mpr stored]
      exact member
    · intro member
      cases found : (subjectMap parseF64 group).find? key with
      | none =>
        rw [found] at member
        cases member
      | some val =>
        rw [found] at member
        exact ⟨val, SortedMap.find?_eq_some.mp found, member⟩
  rw [held, listed]
  simp only [List.mem_map, List.mem_filter, decide_eq_true_eq, and_assoc]

/-- A node is read back as what its triples are, when no predicate is a keyword. -/
theorem mem_jsonldNode {serde : SerdeJson} {group : String × List (String × String)}
    (named : ∀ pred ∈ group.2, strippedPrefix "@" (stripBrackets pred.1) = none) {t : ImportedTriple} :
    t ∈ jsonldNode parseF64 serde (subjectNode parseF64 group) ↔
      ∃ pred ∈ group.2, reread parseF64 serde ⟨group.1, pred.1, pred.2⟩ = some t := by
  have keyword : (strippedPrefix "@" "@id").isSome := rfl
  have apart : ∀ pred ∈ group.2, stripBrackets pred.1 ≠ "@id" := by
    intro pred member same
    have plain := named pred member
    rw [same] at plain
    rw [plain] at keyword
    cases keyword
  -- An item of a node becomes a triple of the subject under the name of its key.
  have items : ∀ make : String → ImportedObject → ImportedTriple,
      t ∈ (subjectMap parseF64 group).entries.flatMap (fun entry =>
        if (strippedPrefix "@" entry.1).isSome then []
        else entry.2.items.filterMap fun item =>
          (jsonldObject parseF64 serde item).map (make entry.1)) ↔
      ∃ pred ∈ group.2, (jsonldObject parseF64 serde (ntObjectToJsonld parseF64 pred.2)).map
        (make (stripBrackets pred.1)) = some t := by
    intro make
    simp only [List.mem_flatMap, Prod.exists]
    constructor
    · rintro ⟨key, val, stored, member⟩
      split_ifs at member with special
      · cases member
      · obtain ⟨item, listed, made⟩ := List.mem_filterMap.mp member
        have other : key ≠ "@id" := by
          rintro rfl
          exact special keyword
        obtain ⟨pred, given, rfl, rfl⟩ := (mem_items_subjectMap other).mp ⟨val, stored, listed⟩
        exact ⟨pred.1, pred.2, given, made⟩
    · rintro ⟨predicate, object, given, made⟩
      obtain ⟨val, stored, listed⟩ := (mem_items_subjectMap (apart _ given)).mpr
        ⟨(predicate, object), given, rfl, rfl⟩
      refine ⟨stripBrackets predicate, val, stored, ?_⟩
      rw [if_neg (by simp [named _ given])]
      exact List.mem_filterMap.mpr ⟨_, listed, made⟩
  rw [subjectNode, jsonldNode]
  have id : (((subjectMap parseF64 group).entries.lookup "@id").bind Json.asString) =
      some (stripBrackets group.1) := by
    rw [SortedMap.lookup_entries, find?_id apart]
    rfl
  rw [subjectMap] at id items
  simp only [id, reread]
  cases strippedPrefix "_:" (stripBrackets group.1) with
  | none => exact items fun key object => ⟨stripBrackets group.1, false, key, object, none⟩
  | some label => exact items fun key object => ⟨label, true, key, object, none⟩

/-- The text of a document is read back as the document. -/
def SerdeJson.Rereads (serde : SerdeJson) (document : Json) : Prop :=
  serde.fromSlice (serde.toVec document) = .ok document.written

/-- A document is read back as what its triples are, when no predicate is a keyword. -/
theorem parseJsonld_serializeJsonld {serde : SerdeJson} {triples : List RdfTriple}
    (reads : serde.Rereads (jsonldDocument parseF64 triples))
    (named : ∀ t ∈ triples, strippedPrefix "@" (stripBrackets t.predicate) = none) :
    ∃ imported, parseJsonld parseF64 serde (serializeJsonld parseF64 serde triples) = .ok imported ∧
      ∀ t, t ∈ imported ↔ ∃ given ∈ triples, reread parseF64 serde given = some t := by
  refine ⟨((bySubject triples).entries.map (subjectNode parseF64)).flatMap
    (jsonldNode parseF64 serde), ?_, fun t => ?_⟩
  · rw [SerdeJson.Rereads, written_jsonldDocument] at reads
    rw [parseJsonld, serializeJsonld, reads]
    rfl
  · simp only [List.mem_flatMap, List.mem_map]
    constructor
    · intro ⟨node, ⟨⟨subject, preds⟩, group, same⟩, member⟩
      subst same
      have plain : ∀ pred ∈ preds, strippedPrefix "@" (stripBrackets pred.1) = none :=
        fun pred listed => named ⟨subject, pred.1, pred.2⟩ (mem_bySubject.mp ⟨preds, group, listed⟩)
      obtain ⟨pred, listed, made⟩ := (mem_jsonldNode plain).mp member
      exact ⟨_, mem_bySubject.mp ⟨preds, group, listed⟩, made⟩
    · intro ⟨⟨subject, predicate, object⟩, given, made⟩
      obtain ⟨preds, group, listed⟩ := mem_bySubject.mpr given
      have plain : ∀ pred ∈ preds, strippedPrefix "@" (stripBrackets pred.1) = none :=
        fun pred listed => named ⟨subject, pred.1, pred.2⟩ (mem_bySubject.mp ⟨preds, group, listed⟩)
      exact ⟨_, ⟨(subject, preds), group, rfl⟩, (mem_jsonldNode plain).mpr ⟨_, listed, made⟩⟩

end Polargraph
