import Mathlib.Data.List.Basic
import Missive.Number.Text
import Missive.Proofs.Number
import Missive.Proofs.Outcome
import Missive.Text.Numeral

/-!
# Reading the integers that were written

An integer is written with the digits of its magnitude, without a leading zero. It is read back
from them if what follows cannot belong to a numeral (`Reader.EndsNumeral`).

* `Reader.number_chars`: an integer node is read back, and what follows it is left.
-/

namespace Missive

/-! ## Digits -/

theorem isDigit_of_mem_digitsOf {n : Nat} {c : Char} (h : c ∈ digitsOf n) : c.isDigit = true :=
  Nat.isDigit_of_mem_toDigits (by decide) (by decide) h

theorem digitsOf_ne_nil (n : Nat) : digitsOf n ≠ [] := Nat.toDigits_ne_nil

theorem valueOf_digitsOf (n : Nat) : Numeral.valueOf (digitsOf n) = n :=
  Nat.ofDigitChars_ten_toDigits

/-- Only zero is written with a leading zero. -/
theorem digitsOf_of_head_zero {n : Nat} (h : (digitsOf n).head? = some '0') :
    digitsOf n = ['0'] := by
  induction n using Nat.strongRecOn with
  | ind n ih =>
    rcases Nat.lt_or_ge n 10 with hn | hn
    · rw [digitsOf, Nat.toDigits_of_lt_base hn] at h ⊢
      exact congrArg (fun c => [c]) (Option.some.inj h)
    · -- The first digit is that of a smaller number, which is not zero.
      rw [digitsOf, Nat.toDigits_of_base_le (by decide) hn,
        List.head?_append_of_ne_nil _ Nat.toDigits_ne_nil] at h
      have hzero := congrArg Numeral.valueOf (ih (n / 10) (by omega) h)
      rw [valueOf_digitsOf] at hzero
      change n / 10 = 0 at hzero
      omega

namespace Reader

/-! ## Numerals -/

/-- The characters do not continue a numeral. -/
def EndsNumeral : List Char → Prop
  | [] => True
  | c :: _ => c.isDigit = false ∧ c ≠ '.' ∧ c ≠ 'e' ∧ c ≠ 'E'

variable {rest : List Char}

theorem digits_append {ds : List Char} (hd : ds ≠ []) (hds : ∀ c ∈ ds, c.isDigit = true)
    (h : EndsNumeral rest) : digits (ds ++ rest) = .ok (ds, rest) := by
  have htake : (ds ++ rest).takeWhile Char.isDigit = ds := by
    rw [List.takeWhile_append_of_pos hds]
    cases rest with
    | nil => rw [List.takeWhile_nil, List.append_nil]
    | cons c rest =>
      rw [List.takeWhile_cons_of_neg (by simp [h.1]), List.append_nil]
  have hdrop : (ds ++ rest).dropWhile Char.isDigit = rest := by
    rw [List.dropWhile_append_of_pos hds]
    cases rest with
    | nil => rfl
    | cons c rest => rw [List.dropWhile_cons_of_neg (by simp [h.1])]
  obtain ⟨c, ds, rfl⟩ := List.exists_cons_of_ne_nil hd
  rw [List.cons_append] at htake hdrop ⊢
  rw [digits, if_pos (hds c List.mem_cons_self), htake, hdrop]

theorem fractionPart_of_ends (h : EndsNumeral rest) : fractionPart rest = .ok (none, rest) := by
  unfold fractionPart
  split
  · exact absurd rfl h.2.1
  · rfl

theorem exponentPart_of_ends (h : EndsNumeral rest) : exponentPart rest = .ok (none, rest) := by
  cases rest with
  | nil => rfl
  | cons c rest => rw [exponentPart, if_neg (by simp [h.2.2.1, h.2.2.2])]

/-- The digits of a number are read as a numeral of digits alone. -/
theorem unsignedNumeral_digitsOf (isNegative : Bool) (n : Nat) (h : EndsNumeral rest) :
    unsignedNumeral isNegative (digitsOf n ++ rest) =
      .ok ({ isNegative, whole := digitsOf n, fraction := none, exponent := none }, rest) := by
  have hwhole : wholePart (digitsOf n ++ rest) = .ok (digitsOf n, rest) := by
    rw [wholePart, digits_append (digitsOf_ne_nil n) (fun _ => isDigit_of_mem_digitsOf) h,
      Outcome.ok_bind]
    -- A leading zero is refused where other digits follow.
    exact if_neg fun hz => hz.2 (digitsOf_of_head_zero hz.1)
  rw [unsignedNumeral, hwhole, Outcome.ok_bind]
  dsimp only
  rw [fractionPart_of_ends h, Outcome.ok_bind]
  dsimp only
  rw [exponentPart_of_ends h]
  rfl

theorem toNumber?_digitsOf (isNegative : Bool) {n : Nat} (hn : n < UInt64.size) :
    Numeral.toNumber? { isNegative, whole := digitsOf n, fraction := none, exponent := none } =
      Numeral.integer isNegative n := by
  rw [Numeral.toNumber?, valueOf_digitsOf, if_pos ⟨rfl, rfl, hn⟩]

/-- The first character of a written number tells that it is one. -/
theorem exists_digitsOf_append (n : Nat) (rest : List Char) :
    ∃ c s, digitsOf n ++ rest = c :: s ∧ c.isDigit = true := by
  obtain ⟨c, ds, hds⟩ := List.exists_cons_of_ne_nil (digitsOf_ne_nil n)
  refine ⟨c, ds ++ rest, by rw [hds, List.cons_append], isDigit_of_mem_digitsOf (n := n) ?_⟩
  rw [hds]
  exact List.mem_cons_self

theorem numeral_digitsOf (n : Nat) (rest : List Char) :
    numeral (digitsOf n ++ rest) = unsignedNumeral false (digitsOf n ++ rest) := by
  obtain ⟨c, s, hs, hc⟩ := exists_digitsOf_append n rest
  rw [hs]
  unfold numeral
  split
  · next heq =>
    cases heq
    cases hc
  · rfl

theorem integer_natAbs {n : Int64} (hn : n < 0) :
    Numeral.integer true n.toInt.natAbs = some (.negative n hn) := by
  have hneg := Number.toInt_neg hn
  have hmin := n.le_toInt
  have hval : (-(n.toInt.natAbs : Int)) = n.toInt := by omega
  rw [Numeral.integer, if_neg (by simp), if_pos (by omega), hval, Int64.ofInt_toInt,
    Number.ofSigned, dif_pos hn]

/-- An integer node is read back, and what follows it is left. -/
theorem number_chars {n : Number} (hn : n.integer?.isSome) (h : EndsNumeral rest) :
    number (n.chars ++ rest) = .ok (n, rest) := by
  cases n with
  | natural n =>
    rw [Number.chars, number, numeral_digitsOf, unsignedNumeral_digitsOf false n.toNat h,
      Outcome.ok_bind]
    dsimp only
    have hvalue : n.toNat.toUInt64 = n := UInt64.ofNat_toNat
    rw [toNumber?_digitsOf false n.toNat_lt, Numeral.integer, if_pos (by simp), hvalue]
    rfl
  | negative n hneg =>
    -- The magnitude of the least integer exceeds the signed words, but not the unsigned ones.
    have hlt : n.toInt.natAbs < UInt64.size := by
      have hmin := n.le_toInt
      have := Number.toInt_neg hneg
      change _ < 18446744073709551616
      omega
    rw [Number.chars, List.cons_append, number, numeral, unsignedNumeral_digitsOf true _ h,
      Outcome.ok_bind]
    dsimp only
    rw [toNumber?_digitsOf true hlt, integer_natAbs hneg]
    rfl
  | real x hx => cases hn

end Reader

end Missive
