import Mathlib.Tactic.IntervalCases
import Missive.Proofs.Outcome
import Missive.Text.Quoted

/-!
# Reading the strings that were written

Each character is read back from what it was written as: itself, an escape of one letter, or the
escape of its code. So a string in quotes is read back, whatever follows it.

* `Reader.stringBody_escape`: one character.
* `Reader.quoted_append`: a string.
-/

namespace Missive.Reader

open Outcome

theorem hexValue?_digitChar {d : Nat} (h : d < 16) : hexValue? (Nat.digitChar d) = some d := by
  interval_cases d <;> rfl

/-- The code of a character below the blank is written with two digits. -/
theorem codeUnit_digitChars {n : Nat} (h : n < 256) (rest : List Char) :
    codeUnit ('0' :: '0' :: Nat.digitChar (n / 16) :: Nat.digitChar (n % 16) :: rest) = .ok n := by
  have hhex : hex4? '0' '0' (Nat.digitChar (n / 16)) (Nat.digitChar (n % 16)) = some n := by
    rw [hex4?, hexValue?_digitChar (by omega), hexValue?_digitChar (by omega)]
    change some (((0 * 16 + 0) * 16 + n / 16) * 16 + n % 16) = some n
    congr 1
    omega
  rw [codeUnit, hhex]

theorem pairedUnit_of_lt {n : Nat} (h : n < 0xD800) (rest : List Char) :
    pairedUnit n rest = .ok (.ofNat n, 5) := by
  have htrailing : isTrailing n = false := by simp [isTrailing]; omega
  have hleading : isLeading n = false := by simp [isLeading]; omega
  rw [pairedUnit, htrailing, hleading]
  rfl

/-! ## Single characters -/

theorem stringBody_of_escape {s : List Char} {d : Char} {n : Nat}
    (h : escape pairedUnit s = .ok (d, n)) :
    stringBody pairedUnit 0 ('\\' :: s) = do
      let (ds, rest) ← stringBody pairedUnit n s
      return (d :: ds, rest) := by
  rw [stringBody, if_neg (by decide), if_pos rfl, h]
  rfl

theorem stringBody_letter {c letter : Char} (h : simpleEscape? letter = some c)
    (hu : letter ≠ 'u') (s : List Char) :
    stringBody pairedUnit 0 ('\\' :: letter :: s) = do
      let (cs, rest) ← stringBody pairedUnit 0 s
      return (c :: cs, rest) := by
  have he : escape pairedUnit (letter :: s) = .ok (c, 1) := by
    rw [escape, if_neg hu, h]
  rw [stringBody_of_escape he, stringBody]

theorem stringBody_code {c : Char} (h : c.toNat < 256) (s : List Char) :
    stringBody pairedUnit 0 ('\\' :: 'u' :: '0' :: '0' :: Nat.digitChar (c.toNat / 16) ::
      Nat.digitChar (c.toNat % 16) :: s) = do
      let (cs, rest) ← stringBody pairedUnit 0 s
      return (c :: cs, rest) := by
  have he : escape pairedUnit ('u' :: '0' :: '0' :: Nat.digitChar (c.toNat / 16) ::
      Nat.digitChar (c.toNat % 16) :: s) = .ok (c, 5) := by
    rw [escape, if_pos rfl, codeUnit_digitChars h, ok_bind, pairedUnit_of_lt (by omega),
      Char.ofNat_toNat]
  -- The five characters behind the backslash belong to the escape, and are passed over.
  rw [stringBody_of_escape he, stringBody, stringBody, stringBody, stringBody, stringBody]

theorem stringBody_verbatim {c : Char} (hq : c ≠ '"') (hb : c ≠ '\\') (h : ¬ c < ' ')
    (s : List Char) :
    stringBody pairedUnit 0 (c :: s) = do
      let (cs, rest) ← stringBody pairedUnit 0 s
      return (c :: cs, rest) := by
  rw [stringBody, if_neg hq, if_neg hb, if_neg h]

/-- A character is read back from what it was written as. -/
theorem stringBody_escape (c : Char) (s : List Char) :
    stringBody pairedUnit 0 (Text.escape c ++ s) = do
      let (cs, rest) ← stringBody pairedUnit 0 s
      return (c :: cs, rest) := by
  unfold Text.escape
  -- The quote, the backslash and the five control characters that have a letter come first.
  split
  · next h => subst h; exact stringBody_letter rfl (by decide) s
  split
  · next h => subst h; exact stringBody_letter rfl (by decide) s
  split
  · next h => subst h; exact stringBody_letter rfl (by decide) s
  split
  · next h => subst h; exact stringBody_letter rfl (by decide) s
  split
  · next h => subst h; exact stringBody_letter rfl (by decide) s
  split
  · next h => subst h; exact stringBody_letter rfl (by decide) s
  split
  · next h => subst h; exact stringBody_letter rfl (by decide) s
  split
  · next h =>
    have hlt : c.toNat < 32 := h
    exact stringBody_code (by omega) s
  · next hq hb _ _ _ _ _ h => exact stringBody_verbatim hq hb h s

/-! ## Strings -/

theorem stringBody_flatMap_escape (cs rest : List Char) :
    stringBody pairedUnit 0 (cs.flatMap Text.escape ++ '"' :: rest) = .ok (cs, rest) := by
  induction cs with
  | nil => rfl
  | cons c cs ih =>
    rw [List.flatMap_cons, List.append_assoc, stringBody_escape, ih]
    rfl

/-- A string in quotes is read back, and what follows it is left. -/
theorem quoted_append (s : String) (rest : List Char) :
    quoted (Text.quoted s ++ rest) = .ok (s, rest) := by
  have hmark : mark '"' (Text.quoted s ++ rest) =
      .ok ((), s.toList.flatMap Text.escape ++ '"' :: rest) := by
    rw [Text.quoted, List.cons_append, List.cons_append, List.append_assoc]
    rfl
  rw [quoted, hmark, ok_bind]
  dsimp only
  rw [stringBody_flatMap_escape, ok_bind, String.ofList_toList]
  rfl

end Missive.Reader
