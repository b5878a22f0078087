import Missive.Number.Numeral
import Missive.Text.Reader

/-!
# Numerals in text

A numeral has a whole part without leading zeros, and may have a sign, a fraction and an exponent.
-/

namespace Missive.Reader

/-- A run of at least one digit. -/
def digits : Reader (List Char) := fun s =>
  match s with
  | [] => .error .truncated
  | c :: _ =>
    if c.isDigit then .ok (s.takeWhile Char.isDigit, s.dropWhile Char.isDigit)
    else .error .unexpected

/-- The whole part of a numeral: no digit follows a leading zero. -/
def wholePart : Reader (List Char) := fun s => do
  let (ds, rest) ← digits s
  if ds.head? = some '0' ∧ ds ≠ ['0'] then .error .unexpected else return (ds, rest)

/-- The fraction of a numeral, if there is one. -/
def fractionPart : Reader (Option (List Char)) := fun s =>
  match s with
  | '.' :: s => do
    let (ds, rest) ← digits s
    return (some ds, rest)
  | s => .ok (none, s)

/-- Whether the sign of an exponent is negative, and what follows the sign. -/
def exponentSign : List Char → Bool × List Char
  | '-' :: s => (true, s)
  | '+' :: s => (false, s)
  | s => (false, s)

/-- The exponent of a numeral, if there is one. -/
def exponentPart : Reader (Option (Bool × List Char)) := fun s =>
  match s with
  | [] => .ok (none, [])
  | c :: more =>
    if c = 'e' ∨ c = 'E' then do
      let (isNegative, more) := exponentSign more
      let (ds, rest) ← digits more
      return (some (isNegative, ds), rest)
    else .ok (none, s)

/-- A numeral, whose sign has been read. -/
def unsignedNumeral (isNegative : Bool) : Reader Numeral := fun s => do
  let (whole, s) ← wholePart s
  let (fraction, s) ← fractionPart s
  let (exponent, s) ← exponentPart s
  return ({ isNegative, whole, fraction, exponent }, s)

/-- A numeral. -/
def numeral : Reader Numeral := fun s =>
  match s with
  | '-' :: s => unsignedNumeral true s
  | s => unsignedNumeral false s

/-- A number. A numeral out of range is not allowed. -/
def number : Reader Number := fun s => do
  let (n, rest) ← numeral s
  match n.toNumber? with
  | some x => return (x, rest)
  | none => .error .unexpected

end Missive.Reader
