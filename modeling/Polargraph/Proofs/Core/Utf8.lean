import Polargraph.Core.Value

/-! Strings and their UTF-8 bytes. -/

namespace Polargraph

/-- The bytes from a position on are listed behind those already collected. -/
private theorem toList_loop (bytes : ByteArray) (i : Nat) (collected : List UInt8) :
    ByteArray.toList.loop bytes i collected = collected.reverse ++ bytes.data.toList.drop i := by
  induction i, collected using ByteArray.toList.loop.induct bytes with
  | case1 i collected inside ih =>
    rw [ByteArray.toList.loop, if_pos inside, ih]
    have bound : i < bytes.data.toList.length := by simpa using inside
    -- The byte at the position is the first of those that are left.
    have next : bytes.get! i = bytes.data.toList[i] := by
      simp only [ByteArray.get!, Array.getElem_toList]
      exact getElem!_pos bytes.data i (by simpa using inside)
    rw [List.drop_eq_getElem_cons bound, next, List.reverse_cons, List.append_assoc]
    rfl
  | case2 i collected outside =>
    rw [ByteArray.toList.loop, if_neg outside]
    have past : bytes.data.toList.length ≤ i := by simpa using outside
    rw [List.drop_eq_nil_of_le past, List.append_nil]

/-- The bytes of an array are those of its data. -/
theorem toList_eq_data (bytes : ByteArray) : bytes.toList = bytes.data.toList := by
  rw [ByteArray.toList, toList_loop]
  rfl

/-- A string is read from its own bytes. -/
theorem fromUtf8_utf8 (text : String) : fromUtf8 (utf8 text) = some text := by
  have same : (⟨(utf8 text).toArray⟩ : ByteArray) = text.toByteArray := by
    rw [utf8, toList_eq_data]
    rfl
  rw [fromUtf8, same, String.fromUTF8?, dif_pos text.isValidUTF8]
  rfl

/-- A string that is read from bytes has these bytes. -/
theorem utf8_of_fromUtf8 {bytes : Bytes} {text : String} (read : fromUtf8 bytes = some text) :
    utf8 text = bytes := by
  unfold fromUtf8 String.fromUTF8? at read
  split_ifs at read with valid
  cases read
  rw [utf8, toList_eq_data]
  rfl

/-- Strings with the same bytes are the same. -/
theorem utf8_inj {left right : String} (same : utf8 left = utf8 right) : left = right := by
  have read := fromUtf8_utf8 left
  rw [same, fromUtf8_utf8] at read
  exact (Option.some.inj read).symm

/-- The bytes of a string are those of its characters. -/
theorem utf8_ofList (chars : List Char) :
    utf8 (String.ofList chars) = chars.flatMap String.utf8EncodeChar := by
  rw [utf8, toList_eq_data, String.toUTF8_eq_toByteArray, String.toByteArray_ofList, List.utf8Encode,
    List.data_toByteArray]

/-- The bytes of two strings behind each other are those of the first, then those of the second. -/
theorem utf8_append (left right : String) : utf8 (left ++ right) = utf8 left ++ utf8 right := by
  simp only [utf8, toList_eq_data]
  rw [String.toUTF8_eq_toByteArray, String.toByteArray_append, ByteArray.data_append]
  exact Array.toList_append

end Polargraph
