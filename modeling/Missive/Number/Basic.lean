/-!
# Numbers of a tree

A number node is an unsigned word, a negative word or a finite float. The first two are the
*integer* nodes: between them they hold every integer from `-2^63` to `2^64 - 1`, each in one
way. A float node is never an integer, whatever its value.

* `Number.signed?`, `Number.unsigned?`: the value of an integer node as a word, when it fits.
* `Number.integer?`: its mathematical value.
* `Number.toFloat`: the nearest float, a tie going to the even one.
-/

namespace Missive

/-- A number node. The negative words are the ones below zero, so that no integer is held
    twice; and an infinity or a NaN is no number. -/
inductive Number where
  | natural (n : UInt64)
  | negative (n : Int64) (isNegative : n < 0)
  | real (x : Float) (isFinite : x.isFinite = true)
deriving DecidableEq

namespace Number

/-- The node of a signed word. -/
def ofSigned (n : Int64) : Number :=
  if h : n < 0 then .negative n h else .natural n.toUInt64

/-- The node of a float, if it is finite. -/
def ofFloat? (x : Float) : Option Number :=
  if h : x.isFinite = true then some (.real x h) else none

/-- The value of an integer node that fits a signed word. -/
def signed? : Number → Option Int64
  | .natural n => if n < 0x8000000000000000 then some n.toInt64 else none
  | .negative n _ => some n
  | .real .. => none

/-- The value of an integer node that fits an unsigned word. -/
def unsigned? : Number → Option UInt64
  | .natural n => some n
  | .negative .. => none
  | .real .. => none

/-- The mathematical value of an integer node. -/
def integer? : Number → Option Int
  | .natural n => some n.toNat
  | .negative n _ => some n.toInt
  | .real .. => none

/-- The value as a float, rounded to nearest for an integer that no float holds. -/
def toFloat : Number → Float
  | .natural n => n.toFloat
  | .negative n _ => n.toFloat
  | .real x _ => x

end Number

end Missive
