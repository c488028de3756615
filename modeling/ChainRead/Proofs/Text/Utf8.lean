import ChainRead.Text.Utf8

/-! # Text comes back from its UTF-8 bytes

The first character is read off the first bytes whatever follows them, so a text's characters come
back one by one.
-/

namespace ChainRead.Utf8

open String

theorem encode_eq (text : String) : encode text = text.toList.flatMap utf8EncodeChar := by
  rw [encode, toUTF8_eq_toByteArray, ← utf8Encode_toList, List.utf8Encode, List.data_toByteArray]

theorem first?_encoded (c : Char) (rest : Bytes) : first? (utf8EncodeChar c ++ rest) = some c := by
  have hc : (utf8EncodeChar c).length ≤ 4 := by
    rw [length_utf8EncodeChar]
    exact c.utf8Size_le_four
  rw [first?, List.take_append, List.take_of_length_le hc, List.toByteArray_append]
  exact ByteArray.utf8DecodeChar?_utf8EncodeChar_append

theorem decodeChars_encoded (cs : List Char) {fuel : Nat} (h : cs.length ≤ fuel) :
    decodeChars fuel (cs.flatMap utf8EncodeChar) = cs := by
  induction cs generalizing fuel with
  | nil => cases fuel <;> rfl
  | cons c cs ih =>
    obtain ⟨fuel, rfl⟩ : ∃ k, fuel = k + 1 := Nat.exists_eq_succ_of_ne_zero (by simp at h; omega)
    have hf := first?_encoded c (cs.flatMap utf8EncodeChar)
    have hd : (utf8EncodeChar c ++ cs.flatMap utf8EncodeChar).drop c.utf8Size =
        cs.flatMap utf8EncodeChar := List.drop_left' (length_utf8EncodeChar c)
    rw [List.flatMap_cons]
    cases hb : utf8EncodeChar c ++ cs.flatMap utf8EncodeChar with
    | nil =>
      have hn := c.utf8Size_pos
      rw [← length_utf8EncodeChar, (List.append_eq_nil_iff.mp hb).1] at hn
      cases hn
    | cons b bytes =>
      rw [hb] at hf hd
      simp only [decodeChars, hf, hd]
      rw [ih (Nat.le_of_succ_le_succ h)]

theorem length_le_encoded (cs : List Char) :
    cs.length ≤ (cs.flatMap utf8EncodeChar).length := by
  induction cs with
  | nil => exact Nat.zero_le _
  | cons c cs ih =>
    have hc := c.utf8Size_pos
    rw [List.flatMap_cons, List.length_append, List.length_cons, length_utf8EncodeChar]
    omega

/-- A text is what its bytes read as. -/
theorem decode_encode (text : String) : decode (encode text) = text := by
  rw [decode, encode_eq, decodeChars_encoded _ (length_le_encoded _), ofList_toList]

end ChainRead.Utf8
