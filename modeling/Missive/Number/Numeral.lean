import Missive.Number.Basic

/-!
# The value of a numeral

A *numeral* is the spelling of a number: its sign, the digits of its whole part, and, where
written, those of its fraction and exponent. A numeral of digits alone is an integer if a word
holds it; every other one is a float.

A float is read without exact rounding. Its digits are gathered into a word while they fit, the
others only moving the decimal exponent (whole part) or being dropped (fraction); the word is
then rounded to a float and scaled by a power of ten, each step rounding once more.
-/

namespace Missive

/-- The spelling of a number. -/
structure Numeral where
  isNegative : Bool
  whole : List Char
  fraction : Option (List Char)
  /-- Whether the exponent is negative, and its digits. -/
  exponent : Option (Bool × List Char)
deriving DecidableEq

namespace Numeral

/-- The value of a run of digits. -/
def valueOf (digits : List Char) : Nat := Nat.ofDigitChars 10 digits 0

/-- The value of a digit. -/
def digitValue (c : Char) : Nat := c.toNat - '0'.toNat

/-- Appends digits of the whole part to the significand while it fits a word; and how many are
    left out. -/
def gatherWhole (significand : Nat) : List Char → Nat × Nat
  | [] => (significand, 0)
  | c :: rest =>
    let next := significand * 10 + digitValue c
    if next < UInt64.size then gatherWhole next rest else (significand, rest.length + 1)

/-- Appends digits of the fraction to the significand while it fits a word; and how many are
    taken. -/
def gatherFraction (significand : Nat) : List Char → Nat × Nat
  | [] => (significand, 0)
  | c :: rest =>
    let next := significand * 10 + digitValue c
    if next < UInt64.size then
      let (result, taken) := gatherFraction next rest
      (result, taken + 1)
    else (significand, 0)

/-- The greatest exponent that is written out; a larger one is beyond every float. -/
def exponentLimit : Nat := 2147483647

/-- The nearest exponent that a signed word of 32 bits holds. -/
def clampExponent (e : Int) : Int :=
  if e < -2147483648 then -2147483648 else if 2147483647 < e then 2147483647 else e

/-- The float `f · 10^e`, scaled in steps of at most `10^308`; none if it is infinite. -/
def scale? (f : Float) (e : Int) : Option Float :=
  if e.natAbs ≤ 308 then
    let power := Float.ofScientific 1 false e.natAbs
    if 0 ≤ e then
      let scaled := f * power
      if scaled.isInf then none else some scaled
    else some (f / power)
  else if f == 0 then some f
  else if 0 ≤ e then none
  else scale? (f / Float.ofScientific 1 false 308) (e + 308)
termination_by (-e).toNat
decreasing_by omega

/-- The sign of the numeral given to a float. -/
def signed (n : Numeral) (x : Float) : Float := if n.isNegative then -x else x

/-- The float of the numeral, none if it is out of range. -/
def toFloat? (n : Numeral) : Option Float :=
  let (significand, dropped) := gatherWhole 0 n.whole
  let (significand, taken) := gatherFraction significand (n.fraction.getD [])
  let e : Int := dropped - taken
  let magnitude? :=
    match n.exponent with
    | none => scale? significand.toUInt64.toFloat e
    | some (isNegative, digits) =>
      let written := valueOf digits
      if exponentLimit < written then
        if significand ≠ 0 ∧ ¬ isNegative then none else some 0
      else
        let e := clampExponent (if isNegative then e - written else e + written)
        scale? significand.toUInt64.toFloat e
  magnitude?.map n.signed

/-- The number of a numeral of digits alone whose value `n` fits an unsigned word. Zero with a
    sign is a float, and so is what lies below the negative words. -/
def integer (isNegative : Bool) (n : Nat) : Option Number :=
  if ¬ isNegative then some (.natural n.toUInt64)
  else if 0 < n ∧ n ≤ 0x8000000000000000 then some (.ofSigned (.ofInt (-n)))
  else Number.ofFloat? (-n.toUInt64.toFloat)

/-- The number that a numeral spells, none if it is out of range. -/
def toNumber? (n : Numeral) : Option Number :=
  if n.fraction.isNone ∧ n.exponent.isNone ∧ valueOf n.whole < UInt64.size then
    integer n.isNegative (valueOf n.whole)
  else n.toFloat?.bind Number.ofFloat?

end Numeral

end Missive
