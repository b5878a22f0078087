import Mathlib

/-!
# Strings by their bytes

Strings are ordered by their characters, and these by their code points. In UTF-8 a character takes
one to four bytes, of which the first tells how many. It is greater the more there are, so a
character that takes more bytes than another one comes behind it; and of those that take equally
many the bytes are the digits of the code point, the highest in front. So the order of strings is
that of their bytes (`utf8Bytes_strictMono`).
-/

namespace Missive

/-- The bytes of a character in UTF-8. -/
def charBytes (c : Char) : List Nat := (String.utf8EncodeChar c).map UInt8.toNat

/-- The bytes of a string in UTF-8. -/
def utf8Bytes (s : String) : List Nat := s.toUTF8.data.toList.map UInt8.toNat

theorem utf8Bytes_eq_flatMap (s : String) : utf8Bytes s = s.toList.flatMap charBytes := by
  have hbytes : s.toUTF8.data.toList = s.toList.flatMap String.utf8EncodeChar := by
    rw [String.toUTF8, ← String.utf8Encode_toList, List.utf8Encode, List.data_toByteArray]
  rw [utf8Bytes, hbytes, List.map_flatMap]
  rfl

/-- The four forms of a character: the length is told by the first byte, and the others hold six
    bits each. -/
theorem charBytes_eq (c : Char) : charBytes c =
    if c.toNat ≤ 127 then [c.toNat]
    else if c.toNat ≤ 2047 then [192 + c.toNat / 64, 128 + c.toNat % 64]
    else if c.toNat ≤ 65535 then
      [224 + c.toNat / 4096, 128 + c.toNat / 64 % 64, 128 + c.toNat % 64]
    else [240 + c.toNat / 262144, 128 + c.toNat / 4096 % 64, 128 + c.toNat / 64 % 64,
      128 + c.toNat % 64] := by
  -- There are not so many code points that the first byte would not hold what is left.
  have hlt : c.toNat < 1114112 := by
    have := c.valid
    unfold UInt32.isValidChar Nat.isValidChar at this
    rw [Char.toNat_val] at this
    omega
  rw [charBytes, String.utf8EncodeChar, Char.toNat_val]
  split_ifs <;>
    simp only [List.map_cons, List.map_nil, UInt8.toNat_ofNat', List.cons.injEq, and_true] <;> omega

theorem charBytes_ne_nil (c : Char) : charBytes c ≠ [] := by
  rw [charBytes, ne_eq, List.map_eq_nil_iff]
  exact String.utf8EncodeChar_ne_nil

/-- The bytes of a character come before those of a greater one, whatever follows them. -/
theorem charBytes_append_lt {c d : Char} (h : c < d) (xs ys : List Nat) :
    charBytes c ++ xs < charBytes d ++ ys := by
  have hcd : c.toNat < d.toNat := h
  rw [charBytes_eq, charBytes_eq]
  split_ifs <;> simp only [List.cons_append, List.nil_append, List.cons_lt_cons_iff] <;> omega

theorem flatMap_charBytes_lt {cs ds : List Char} (h : cs < ds) :
    cs.flatMap charBytes < ds.flatMap charBytes := by
  induction h with
  | @nil d ds =>
    rw [List.flatMap_nil, List.flatMap_cons]
    obtain ⟨b, bytes, hb⟩ := List.exists_cons_of_ne_nil (charBytes_ne_nil d)
    rw [hb]
    exact List.nil_lt_cons _ _
  | rel h =>
    rw [List.flatMap_cons, List.flatMap_cons]
    exact charBytes_append_lt h _ _
  | cons _ ih =>
    rw [List.flatMap_cons, List.flatMap_cons]
    exact List.append_left_lt ih

/-- The order of strings is that of their bytes. -/
theorem utf8Bytes_strictMono : StrictMono utf8Bytes := by
  intro s t h
  rw [utf8Bytes_eq_flatMap, utf8Bytes_eq_flatMap]
  exact flatMap_charBytes_lt (String.lt_iff_toList_lt.1 h)

end Missive
