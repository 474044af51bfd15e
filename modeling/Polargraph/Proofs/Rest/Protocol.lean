import Mathlib.Algebra.BigOperators.Group.List.Basic
import Polargraph.Proofs.Rest.Literals
import Polargraph.Rest.Protocol

/-! Form fields read back as the strings they encode when these are ASCII. -/

namespace Polargraph

/-- How a byte may be written in a form field. -/
inductive FormByte : UInt8 → List Char → Prop where
  /-- An ASCII character may stand for itself, unless the form gives it a meaning. -/
  | plain (char : Char) (ascii : char.toNat < 128) (free : char ≠ '%' ∧ char ≠ '+' ∧ char ≠ '&') :
    FormByte char.toUInt8 [char]
  /-- A space may be written as `+`. -/
  | space : FormByte 32 ['+']
  /-- Any byte may be written as an escape, with digits of either case. -/
  | escape (byte : UInt8) (high low : Char)
      (first : high = Nat.digitChar (byte.toNat / 16) ∨ high = (Nat.digitChar (byte.toNat / 16)).toUpper)
      (second : low = Nat.digitChar (byte.toNat % 16) ∨ low = (Nat.digitChar (byte.toNat % 16)).toUpper) :
    FormByte byte ['%', high, low]

/-- A text that encodes a string as the value of a form field. -/
def FormEncoded (string encoded : String) : Prop :=
  ∃ pieces, List.Forall₂ FormByte (utf8 string) pieces ∧ encoded.toList = pieces.flatten

/-- The usual way to write a byte in a form field. -/
def formByte (byte : UInt8) : List Char :=
  let char := Char.ofNat byte.toNat
  if byte < 128 ∧ (char.isAlphanum ∨ char ∈ ['*', '-', '.', '_']) then [char]
  else if byte = 32 then ['+']
  else '%' :: (upperHexByte byte).toList

/-- The usual encoding of a string as the value of a form field. -/
def formEncode (string : String) : String := String.ofList ((utf8 string).flatMap formByte)

/-- A string of ASCII characters. -/
def AsciiOnly (string : String) : Prop := ∀ char ∈ string.toList, char.toNat < 128

/-- A string with each byte of its encoding taken for a character. -/
def bytewise (string : String) : String := String.ofList ((utf8 string).map byteChar)

/-- The code of an ASCII character is its byte. -/
theorem toNat_toUInt8 {char : Char} (ascii : char.toNat < 128) :
    char.toUInt8.toNat = char.toNat := by
  have same : char.toUInt8.toNat = char.toNat % 256 := UInt32.toNat_toUInt8 char.val
  omega

/-- An ASCII character is one byte. -/
theorem utf8EncodeChar_ascii {char : Char} (ascii : char.toNat < 128) :
    String.utf8EncodeChar char = [char.toUInt8] := by
  have small : char.toNat ≤ 127 := by omega
  have whole : UInt8.ofNat char.toNat = char.toUInt8 := by
    apply UInt8.toNat_inj.mp
    rw [toNat_toUInt8 ascii, UInt8.toNat_ofNat']
    omega
  simp [String.utf8EncodeChar, small, whole]

/-- The usual way to write a byte is one of the ways. -/
theorem formByte_formByte (byte : UInt8) : FormByte byte (formByte byte) := by
  rw [formByte]
  split_ifs with raw space
  · -- Such a character is its own code.
    have code : (Char.ofNat byte.toNat).toNat = byte.toNat := by
      have valid : byte.toNat.isValidChar := .inl (by have := byte.toNat_lt; omega)
      rw [Char.ofNat, dif_pos valid]
      rfl
    have small : byte.toNat < 128 := UInt8.lt_iff_toNat_lt.mp raw.1
    have whole : (Char.ofNat byte.toNat).toUInt8 = byte := by
      apply UInt8.toNat_inj.mp
      rw [toNat_toUInt8 (by omega), code]
    have free : Char.ofNat byte.toNat ≠ '%' ∧ Char.ofNat byte.toNat ≠ '+' ∧
        Char.ofNat byte.toNat ≠ '&' := by
      refine ⟨fun same => ?_, fun same => ?_, fun same => ?_⟩
      all_goals
        rw [same] at raw
        exact absurd raw.2 (by decide)
    have plain := FormByte.plain (Char.ofNat byte.toNat) (by omega) free
    rwa [whole] at plain
  · rw [space]
    exact .space
  · rw [toList_upperHexByte]
    exact .escape byte _ _ (.inr rfl) (.inr rfl)

/-- The usual encoding encodes the string. -/
theorem formEncoded_formEncode (string : String) : FormEncoded string (formEncode string) := by
  refine ⟨(utf8 string).map formByte, ?_, ?_⟩
  · rw [List.forall₂_map_right_iff]
    exact List.forall₂_same.mpr fun byte _ => formByte_formByte byte
  · rw [formEncode, String.toList_ofList, List.flatMap]

/-- No way to write a byte has `&`. -/
theorem amp_notMem {byte : UInt8} {piece : List Char} (written : FormByte byte piece) :
    '&' ∉ piece := by
  -- No digit is `&`, in either case.
  have digit : ∀ half < 16, ∀ char : Char,
      char = Nat.digitChar half ∨ char = (Nat.digitChar half).toUpper → '&' ≠ char := by
    intro half small char spelled same
    obtain ⟨letter, bytes, _, value⟩ := hexDigit_digitChar small spelled
    rw [← same] at bytes
    cases bytes
    cases value
  have bound := byte.toNat_lt
  cases written with
  | plain char ascii free => simpa using free.2.2.symm
  | space => decide
  | escape _ high low first second =>
    simp only [List.mem_cons, List.not_mem_nil, or_false, not_or]
    exact ⟨by decide, digit _ (by omega) _ first, digit _ (by omega) _ second⟩

/-- The bytes of a piece of a field, once `+` is read as a space. -/
def pieceBytes (piece : List Char) : Bytes :=
  (piece.flatMap fun char => if char = '+' then [' '] else [char]).flatMap String.utf8EncodeChar

/-- A byte that starts no escape decodes to its own character. -/
theorem percentDecodeBytes_cons {byte : UInt8} (literal : byte ≠ 37) (rest : Bytes) :
    percentDecodeBytes (byte :: rest) = byteChar byte :: percentDecodeBytes rest := by
  match rest with
  | [] => rfl
  | [_] => rfl
  | _ :: _ :: _ => rw [percentDecodeBytes, if_neg literal]

/-- Each way to write a byte decodes to the character whose code the byte is. -/
theorem percentDecodeBytes_piece {byte : UInt8} {piece : List Char} (written : FormByte byte piece)
    (rest : Bytes) :
    percentDecodeBytes (pieceBytes piece ++ rest) = byteChar byte :: percentDecodeBytes rest := by
  have bound := byte.toNat_lt
  cases written with
  | plain char ascii free =>
    have bytes : pieceBytes [char] = [char.toUInt8] := by
      simp [pieceBytes, free.2.1, utf8EncodeChar_ascii ascii]
    have literal : char.toUInt8 ≠ 37 := by
      intro same
      have code := congrArg UInt8.toNat same
      rw [toNat_toUInt8 ascii] at code
      exact free.1 (Char.toNat_inj.mp code)
    rw [bytes]
    exact percentDecodeBytes_cons literal rest
  | space => exact percentDecodeBytes_cons (by decide) rest
  | escape _ high low first second =>
    obtain ⟨one, bytes, sign, value⟩ := hexDigit_digitChar (by omega) first
    obtain ⟨two, bytes', sign', value'⟩ := hexDigit_digitChar (by omega) second
    -- A digit is no `+`, so the piece is left as it is.
    have kept : ∀ {char : Char} {letter : UInt8}, String.utf8EncodeChar char = [letter] →
        letter ≠ 43 → char ≠ '+' := by
      intro char letter spelled apart same
      rw [same] at spelled
      cases spelled
      exact apart rfl
    have whole : pieceBytes ['%', high, low] = [37, one, two] := by
      have percent : String.utf8EncodeChar '%' = [37] := rfl
      simp [pieceBytes, kept bytes sign, kept bytes' sign', bytes, bytes', percent]
    rw [whole, List.cons_append, List.cons_append, List.cons_append, List.nil_append,
      percentDecodeBytes, if_pos rfl, byteFromStrRadix_halves sign value value']

/-- The value of a field is the string it encodes, with each byte taken for a character. -/
theorem urlencodingDecode_encoded {string encoded : String} (written : FormEncoded string encoded) :
    urlencodingDecode encoded = bytewise string := by
  obtain ⟨pieces, each, whole⟩ := written
  have bytes : utf8 (replaceChar '+' " " encoded) = pieces.flatMap pieceBytes := by
    rw [replaceChar, utf8_ofList, whole, ← List.flatMap_id, List.flatMap_assoc, List.flatMap_assoc]
    refine List.flatMap_congr fun piece _ => ?_
    rw [pieceBytes, List.flatMap_assoc]
    rfl
  -- One piece after the other.
  have general : ∀ {bytes : Bytes} {pieces : List (List Char)}, List.Forall₂ FormByte bytes pieces →
      percentDecodeBytes (pieces.flatMap pieceBytes) = bytes.map byteChar := by
    intro bytes pieces each
    induction each with
    | nil => rfl
    | cons head _ ih => rw [List.flatMap_cons, percentDecodeBytes_piece head, ih, List.map_cons]
  rw [urlencodingDecode, percentDecode, bytes, general each, bytewise]

/-- Sizes of at least one that add up to their number are all one. -/
theorem eq_one_of_sum_eq_length {sizes : List Nat} (positive : ∀ size ∈ sizes, 1 ≤ size)
    (total : sizes.sum = sizes.length) : ∀ size ∈ sizes, size = 1 := by
  induction sizes with
  | nil => intro size member; exact absurd member List.not_mem_nil
  | cons head rest ih =>
    intro size member
    have first := positive head List.mem_cons_self
    have later := fun size member => positive size (List.mem_cons_of_mem head member)
    have others := List.length_le_sum_of_one_le rest later
    rw [List.sum_cons, List.length_cons] at total
    rcases List.mem_cons.mp member with rfl | member
    · omega
    · exact ih later (by omega) size member

/-- A string is its bytes taken for characters exactly when it is ASCII. -/
theorem bytewise_eq_iff {string : String} : bytewise string = string ↔ AsciiOnly string := by
  have bytes : utf8 string = string.toList.flatMap String.utf8EncodeChar := by
    rw [← utf8_ofList, String.ofList_toList]
  rw [← String.toList_inj, bytewise, String.toList_ofList, bytes, AsciiOnly]
  constructor
  · -- A character of more bytes would make the text longer.
    intro same char member
    have lengths := congrArg List.length same
    rw [List.length_map, List.length_flatMap] at lengths
    have single := @eq_one_of_sum_eq_length
      (string.toList.map fun char => (String.utf8EncodeChar char).length)
      (by
        intro size listed
        obtain ⟨char, _, rfl⟩ := List.mem_map.mp listed
        rw [String.length_utf8EncodeChar]
        exact char.utf8Size_pos)
      (by rw [lengths, List.length_map])
      _ (List.mem_map_of_mem member)
    rw [String.length_utf8EncodeChar] at single
    have small := UInt32.le_iff_toNat_le.mp (Char.utf8Size_eq_one_iff.mp single)
    have bound : char.toNat ≤ 127 := small
    omega
  · intro ascii
    rw [List.map_flatMap]
    -- Each character comes back from its only byte.
    have each : ∀ char ∈ string.toList,
        (String.utf8EncodeChar char).map byteChar = [char] := by
      intro char member
      rw [utf8EncodeChar_ascii (ascii char member), List.map_cons, List.map_nil, byteChar,
        toNat_toUInt8 (ascii char member), Char.ofNat_toNat]
    rw [List.flatMap_congr each]
    exact List.flatMap_singleton' string.toList

/-- The value of a field is the string it encodes exactly when that is ASCII. -/
theorem urlencodingDecode_eq_iff {string encoded : String} (written : FormEncoded string encoded) :
    urlencodingDecode encoded = string ↔ AsciiOnly string := by
  rw [urlencodingDecode_encoded written]
  exact bytewise_eq_iff

/-- The text of a form with some fields. -/
def joinFields (fields : List String) : String :=
  String.ofList (['&'].intercalate (fields.map String.toList))

/-- A field of a form. -/
def formField (name value : String) : String := name ++ "=" ++ value

/-- A parameter of a request, by what it says about the dataset. -/
inductive DatasetParam where
  /-- A graph of the default graph. -/
  | default (iri : String)
  /-- A named graph. -/
  | named (iri : String)
  /-- A field that is about something else. -/
  | other

/-- The IRI a parameter names. -/
def DatasetParam.iri : DatasetParam → Option String
  | .default iri | .named iri => some iri
  | .other => none

/-- A field of a form that says what a parameter says. -/
inductive DatasetParam.Field : DatasetParam → String → Prop where
  /-- The field of a graph of the default graph. -/
  | default {iri encoded : String} (written : FormEncoded iri encoded) :
    Field (.default iri) (formField "default-graph-uri" encoded)
  /-- The field of a named graph. -/
  | named {iri encoded : String} (written : FormEncoded iri encoded) :
    Field (.named iri) (formField "named-graph-uri" encoded)
  /-- A field of another name, or without a value. -/
  | other {field : String} (single : '&' ∉ field.toList)
      (apart : ∀ value, splitOnce "=" field ≠ some ("default-graph-uri", value) ∧
        splitOnce "=" field ≠ some ("named-graph-uri", value)) :
    Field .other field

/-- The IRIs of the default graph that some parameters name. -/
def defaultIris (params : List DatasetParam) : List String :=
  params.filterMap fun param => match param with | .default iri => some iri | _ => none

/-- The IRIs of the named graphs that some parameters name. -/
def namedIris (params : List DatasetParam) : List String :=
  params.filterMap fun param => match param with | .named iri => some iri | _ => none

/-- The dataset that some parameters name. -/
def datasetOf (params : List DatasetParam) : Option SparqlDataset :=
  if defaultIris params = [] ∧ namedIris params = [] then none
  else some ⟨defaultIris params, some (namedIris params)⟩

/-- An encoded string has no `&`. -/
theorem amp_notMem_encoded {string encoded : String} (written : FormEncoded string encoded) :
    '&' ∉ encoded.toList := by
  obtain ⟨pieces, each, whole⟩ := written
  rw [whole]
  clear whole
  generalize utf8 string = bytes at each
  induction each with
  | nil => exact List.not_mem_nil
  | cons way _ ih =>
    rw [List.flatten_cons, List.mem_append, not_or]
    exact ⟨amp_notMem way, ih⟩

/-- A form is split into the fields it was joined from. -/
theorem formPairs_joinFields {fields : List String}
    (single : ∀ field ∈ fields, '&' ∉ field.toList) :
    formPairs (joinFields fields) = fields.filterMap (splitOnce "=") := by
  -- A form without fields is split into one empty field, which has no value.
  by_cases empty : fields = []
  · rw [empty]
    rfl
  have split : formFields (joinFields fields) = fields := by
    rw [formFields, joinFields, String.toList_ofList, List.splitOn_intercalate]
    · rw [List.map_map]
      have same : String.ofList ∘ String.toList = id := by
        funext field
        exact String.ofList_toList
      rw [same, List.map_id]
    · intro chars member
      obtain ⟨field, listed, rfl⟩ := List.mem_map.mp member
      exact single field listed
    · simpa using empty
  rw [formPairs, split]

/-- A field is split at its first `=`. -/
theorem splitOnce_equals {name : String} (plain : '=' ∉ name.toList) (value : String) :
    splitOnce "=" (formField name value) = some (name, value) := by
  have whole : (formField name value).toList = name.toList ++ '=' :: value.toList := by
    simp [formField]
  rw [splitOnce, whole, show "=".toList = ['='] from rfl, Splitting.once_single plain]
  simp

/-- A field has `&` only in its name or its value. -/
theorem amp_notMem_formField {name value : String} (plain : '&' ∉ name.toList)
    (single : '&' ∉ value.toList) : '&' ∉ (formField name value).toList := by
  simp [formField, plain, single]

/-- The query of a form is the decoded value of its first field of that name. -/
theorem extractQueryFromForm_joinFields {before after : List String} {encoded : String}
    (earlier : ∀ field ∈ before, '&' ∉ field.toList ∧
      ∀ value, splitOnce "=" field ≠ some ("query", value))
    (single : '&' ∉ encoded.toList) (later : ∀ field ∈ after, '&' ∉ field.toList) :
    extractQueryFromForm (joinFields (before ++ formField "query" encoded :: after)) =
      some (urlencodingDecode encoded) := by
  have fields : ∀ field ∈ before ++ formField "query" encoded :: after, '&' ∉ field.toList := by
    intro field member
    rcases List.mem_append.mp member with first | rest
    · exact (earlier field first).1
    · rcases List.mem_cons.mp rest with same | last
      · rw [same]
        exact amp_notMem_formField (by decide) single
      · exact later field last
  -- No field before it has the name.
  have none : (before.filterMap (splitOnce "=")).find? (fun pair => decide (pair.1 = "query")) = none := by
    refine List.find?_eq_none.mpr fun pair member => ?_
    obtain ⟨field, listed, read⟩ := List.mem_filterMap.mp member
    simp only [decide_eq_true_eq]
    intro same
    exact (earlier field listed).2 pair.2 (by rw [read, ← same])
  have named : splitOnce "=" (formField "query" encoded) = some ("query", encoded) :=
    @splitOnce_equals "query" (by decide) encoded
  have found : ((before ++ formField "query" encoded :: after).filterMap (splitOnce "=")).find?
      (fun pair => decide (pair.1 = "query")) = some ("query", encoded) := by
    rw [List.filterMap_append, List.filterMap_cons_some named, List.find?_append, none,
      Option.none_or]
    exact List.find?_cons_of_pos (decide_eq_true rfl)
  rw [extractQueryFromForm, formPairs_joinFields fields, found, Option.map_some]

/-- The fields of parameters have no `&`. -/
theorem DatasetParam.Field.amp_notMem {param : DatasetParam} {field : String}
    (meant : param.Field field) : '&' ∉ field.toList := by
  cases meant with
  | default written => exact amp_notMem_formField (by decide) (amp_notMem_encoded written)
  | named written => exact amp_notMem_formField (by decide) (amp_notMem_encoded written)
  | other single _ => exact single

/-- The decoded value of a field of a name. -/
def valueNamed (name field : String) : Option String :=
  (splitOnce "=" field).bind fun pair =>
    if pair.1 = name then some (urlencodingDecode pair.2) else none

/-- The values of a name are those of the fields that have it. -/
theorem paramsNamed_filterMap (name : String) (fields : List String) :
    paramsNamed name (fields.filterMap (splitOnce "=")) = fields.filterMap (valueNamed name) := by
  have pairs : ∀ pairs : List (String × String), paramsNamed name pairs =
      pairs.filterMap fun pair => if pair.1 = name then some (urlencodingDecode pair.2) else none := by
    intro pairs
    induction pairs with
    | nil => rfl
    | cons head rest ih =>
      rw [paramsNamed] at ih ⊢
      by_cases here : head.1 = name
      · simp [here, ih]
      · simp [here, ih]
  rw [pairs, List.filterMap_filterMap]
  rfl

/-- What a field gives for a name is known from what it reads as. -/
theorem valueNamed_formField {name field : String} (plain : '=' ∉ name.toList) (value : String) :
    valueNamed field (formField name value) =
      if name = field then some (urlencodingDecode value) else none := by
  rw [valueNamed, splitOnce_equals plain, Option.bind_some]

/-- A field of another name gives nothing. -/
theorem valueNamed_eq_none {name field : String}
    (apart : ∀ value, splitOnce "=" field ≠ some (name, value)) : valueNamed name field = none := by
  rw [valueNamed]
  cases read : splitOnce "=" field with
  | none => rfl
  | some pair =>
    have other : pair.1 ≠ name := fun same => apart pair.2 (by rw [read, ← same])
    rw [Option.bind_some, if_neg other]

/-- A field gives the IRI its parameter has for the default graph, taken byte by byte. -/
theorem DatasetParam.Field.default_value {param : DatasetParam} {field : String}
    (meant : param.Field field) : valueNamed "default-graph-uri" field =
      (match param with | .default iri => some iri | _ => none).map bytewise := by
  cases meant with
  | default written =>
    rw [valueNamed_formField (by decide), if_pos rfl, urlencodingDecode_encoded written]
    rfl
  | named written => rw [valueNamed_formField (by decide), if_neg (by decide)]; rfl
  | other _ apart => rw [valueNamed_eq_none fun value => (apart value).1]; rfl

/-- A field gives the IRI its parameter has for a named graph, taken byte by byte. -/
theorem DatasetParam.Field.named_value {param : DatasetParam} {field : String}
    (meant : param.Field field) : valueNamed "named-graph-uri" field =
      (match param with | .named iri => some iri | _ => none).map bytewise := by
  cases meant with
  | default written => rw [valueNamed_formField (by decide), if_neg (by decide)]; rfl
  | named written =>
    rw [valueNamed_formField (by decide), if_pos rfl, urlencodingDecode_encoded written]
    rfl
  | other _ apart => rw [valueNamed_eq_none fun value => (apart value).2]; rfl

/-- The dataset of some forms has the IRIs of their parameters, taken byte by byte. -/
theorem datasetFromParams_fields {sources : List (List (DatasetParam × String))}
    (meant : ∀ source ∈ sources, ∀ field ∈ source, field.1.Field field.2) :
    datasetFromParams (sources.map fun source => joinFields (source.map Prod.snd)) =
      let params := (sources.flatten).map Prod.fst
      if defaultIris params = [] ∧ namedIris params = [] then none
      else some ⟨(defaultIris params).map bytewise, some ((namedIris params).map bytewise)⟩ := by
  have pairs : (sources.map fun source => joinFields (source.map Prod.snd)).flatMap formPairs =
      (sources.flatten.map Prod.snd).filterMap (splitOnce "=") := by
    rw [List.flatMap_map, List.map_flatten, List.filterMap_flatten, List.map_map]
    refine congrArg List.flatten (List.map_congr_left fun source member => ?_)
    refine formPairs_joinFields fun field listed => ?_
    obtain ⟨whole, inside, rfl⟩ := List.mem_map.mp listed
    exact (meant source member whole inside).amp_notMem
  have each : ∀ field ∈ sources.flatten, field.1.Field field.2 := by
    intro field member
    obtain ⟨source, listed, inside⟩ := List.mem_flatten.mp member
    exact meant source listed field inside
  have default : paramsNamed "default-graph-uri"
      ((sources.flatten.map Prod.snd).filterMap (splitOnce "=")) =
        (defaultIris (sources.flatten.map Prod.fst)).map bytewise := by
    rw [paramsNamed_filterMap, defaultIris, List.map_filterMap, List.filterMap_map,
      List.filterMap_map]
    exact List.filterMap_congr fun field member => (each field member).default_value
  have named : paramsNamed "named-graph-uri"
      ((sources.flatten.map Prod.snd).filterMap (splitOnce "=")) =
        (namedIris (sources.flatten.map Prod.fst)).map bytewise := by
    rw [paramsNamed_filterMap, namedIris, List.map_filterMap, List.filterMap_map,
      List.filterMap_map]
    exact List.filterMap_congr fun field member => (each field member).named_value
  simp only [datasetFromParams, pairs, default, named, List.map_eq_nil_iff]

/-- Texts are left alone by a function exactly when each of them is. -/
theorem map_eq_self_iff {texts : List String} {change : String → String} :
    texts.map change = texts ↔ ∀ text ∈ texts, change text = text := by
  rw [← List.map_id texts, List.map_map, List.map_inj_left]
  simp

/-- The dataset of some forms is the one their parameters name exactly when all IRIs are ASCII. -/
theorem datasetFromParams_eq_iff {sources : List (List (DatasetParam × String))}
    (meant : ∀ source ∈ sources, ∀ field ∈ source, field.1.Field field.2) :
    datasetFromParams (sources.map fun source => joinFields (source.map Prod.snd)) =
        datasetOf (sources.flatten.map Prod.fst) ↔
      ∀ param ∈ sources.flatten.map Prod.fst, ∀ iri ∈ param.iri, AsciiOnly iri := by
  rw [datasetFromParams_fields meant, datasetOf]
  dsimp only
  generalize sources.flatten.map Prod.fst = params
  have parts : (∀ param ∈ params, ∀ iri ∈ param.iri, AsciiOnly iri) ↔
      (∀ iri ∈ defaultIris params, bytewise iri = iri) ∧
        ∀ iri ∈ namedIris params, bytewise iri = iri := by
    simp only [bytewise_eq_iff, defaultIris, namedIris, List.mem_filterMap]
    constructor
    · intro all
      refine ⟨fun iri ⟨param, member, read⟩ => ?_, fun iri ⟨param, member, read⟩ => ?_⟩
      all_goals
        cases param <;> cases read
        exact all _ member _ rfl
    · intro all param member iri read
      cases param with
      | default => cases read; exact all.1 _ ⟨_, member, rfl⟩
      | named => cases read; exact all.2 _ ⟨_, member, rfl⟩
      | other => cases read
  rw [parts, ← map_eq_self_iff, ← map_eq_self_iff]
  split_ifs with empty
  · simp [empty]
  · simp

/-- Form fields are read back as the strings they encode exactly when these are ASCII. -/
theorem extractQueryFromForm_eq_iff (sources : List (List (DatasetParam × String))) :
    (∀ (query encoded : String) (before after : List String), FormEncoded query encoded →
      (∀ field ∈ before, '&' ∉ field.toList ∧
        ∀ value, splitOnce "=" field ≠ some ("query", value)) →
      (∀ field ∈ after, '&' ∉ field.toList) →
      (extractQueryFromForm (joinFields (before ++ formField "query" encoded :: after)) = some query ↔
        AsciiOnly query)) ∧
    ((∀ source ∈ sources, ∀ field ∈ source, field.1.Field field.2) →
      (datasetFromParams (sources.map fun source => joinFields (source.map Prod.snd)) =
          datasetOf (sources.flatten.map Prod.fst) ↔
        ∀ param ∈ sources.flatten.map Prod.fst, ∀ iri ∈ param.iri, AsciiOnly iri)) := by
  refine ⟨?_, fun meant => datasetFromParams_eq_iff meant⟩
  intro query encoded before after written earlier later
  rw [extractQueryFromForm_joinFields earlier (amp_notMem_encoded written) later,
    Option.some.injEq, urlencodingDecode_eq_iff written]

/-- An ASCII query and an ASCII graph come back. -/
theorem extractQueryFromForm_ascii :
    (extractQueryFromForm (joinFields ([] ++ formField "query" (formEncode "DESCRIBE ?x") :: [])) =
        some "DESCRIBE ?x" ↔ AsciiOnly "DESCRIBE ?x") ∧
      (datasetFromParams ([[(DatasetParam.default "urn:g",
            formField "default-graph-uri" (formEncode "urn:g"))]].map
          fun source => joinFields (source.map Prod.snd)) =
          datasetOf ([[(DatasetParam.default "urn:g",
            formField "default-graph-uri" (formEncode "urn:g"))]].flatten.map Prod.fst) ↔
        ∀ param ∈ ([[(DatasetParam.default "urn:g",
            formField "default-graph-uri" (formEncode "urn:g"))]].flatten.map Prod.fst),
          ∀ iri ∈ param.iri, AsciiOnly iri) := by
  refine ⟨?_, ?_⟩
  · exact (extractQueryFromForm_eq_iff []).1 "DESCRIBE ?x" (formEncode "DESCRIBE ?x") [] []
      (formEncoded_formEncode "DESCRIBE ?x") (by simp) (by simp)
  · refine (extractQueryFromForm_eq_iff _).2 ?_
    intro source member field inside
    rw [List.mem_singleton.mp member] at inside
    rw [List.mem_singleton.mp inside]
    exact .default (formEncoded_formEncode "urn:g")

/-- A letter of two bytes comes back as two characters. -/
theorem accent_lost :
    extractQueryFromForm (formField "query" (formEncode "é")) = some "Ã©" ∧
      ¬ ∀ query encoded : String, FormEncoded query encoded →
        extractQueryFromForm (formField "query" encoded) = some query := by
  have read : extractQueryFromForm (formField "query" (formEncode "é")) = some "Ã©" := by
    decide +kernel
  refine ⟨read, fun inverse => ?_⟩
  have back := inverse "é" (formEncode "é") (formEncoded_formEncode "é")
  rw [read] at back
  exact absurd back (by decide)

end Polargraph
