import Missive.Number.Basic
import Missive.Number.Shortest

/-!
# Writing a number

Integers are written in decimal. A float is written with its shortest digits: in plain notation,
with a digit on each side of the point, if the exponent of its first digit is from `-5` to `15`,
and otherwise in scientific notation with a signed exponent.
-/

namespace Missive

/-- The decimal digits of a natural number. -/
def digitsOf (n : Nat) : List Char := Nat.toDigits 10 n

namespace ShortDecimal

/-- Plain notation, where the first digit has the exponent `first`. -/
def plain (digits : List Char) (first : Int) : List Char :=
  if first < 0 then
    '0' :: '.' :: List.replicate (-first - 1).toNat '0' ++ digits
  else
    let whole := first.toNat + 1
    let fraction := digits.drop whole
    digits.take whole ++ List.replicate (whole - digits.length) '0'
      ++ '.' :: (if fraction.isEmpty then ['0'] else fraction)

/-- Scientific notation, where the first digit has the exponent `first`. -/
def scientific (digits : List Char) (first : Int) : List Char :=
  let fraction := digits.drop 1
  digits.take 1 ++ (if fraction.isEmpty then [] else '.' :: fraction)
    ++ 'e' :: (if first < 0 then '-' else '+') :: digitsOf first.natAbs

/-- The text of a positive decimal. -/
def chars (d : ShortDecimal) : List Char :=
  let digits := digitsOf d.digits
  let first := d.exponent + digits.length - 1
  if -5 ≤ first ∧ first ≤ 15 then plain digits first else scientific digits first

end ShortDecimal

namespace Number

/-- The text of a finite float. Zero keeps its sign. -/
def floatChars (x : Float) : List Char :=
  let sign := if x.toBits < 0x8000000000000000 then [] else ['-']
  let b := Binade.ofFloat x
  sign ++ if b.m = 0 then ['0', '.', '0'] else b.shortest.chars

/-- The text of a number. -/
def chars : Number → List Char
  | .natural n => digitsOf n.toNat
  | .negative n _ => '-' :: digitsOf n.toInt.natAbs
  | .real x _ => floatChars x

/-- The text of a number, as a string. -/
def text (n : Number) : String := .ofList n.chars

end Number

end Missive
