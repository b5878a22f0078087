import Missive.Number.Basic

/-!
# Integers of a bounded range

The ten integer types that a field may have, each with its range, and how a number node is read
as one of them. A node is read as a signed word first and as an unsigned word after that; either
reading must lie in the range.
-/

namespace Missive

/-- The integer types of fields. The two types of pointer size have 64 bits. -/
inductive IntKind where
  | i8 | i16 | i32 | i64 | isize
  | u8 | u16 | u32 | u64 | usize
deriving DecidableEq

namespace IntKind

/-- The name under which mismatches report the type. -/
def name : IntKind → String
  | i8 => "i8" | i16 => "i16" | i32 => "i32" | i64 => "i64" | isize => "isize"
  | u8 => "u8" | u16 => "u16" | u32 => "u32" | u64 => "u64" | usize => "usize"

/-- The least integer of the type. -/
def min : IntKind → Int
  | i8 => -128
  | i16 => -32768
  | i32 => -2147483648
  | i64 | isize => -9223372036854775808
  | u8 | u16 | u32 | u64 | usize => 0

/-- The greatest integer of the type. -/
def max : IntKind → Int
  | i8 => 127
  | i16 => 32767
  | i32 => 2147483647
  | i64 | isize => 9223372036854775807
  | u8 => 255
  | u16 => 65535
  | u32 => 4294967295
  | u64 | usize => 18446744073709551615

end IntKind

/-- An integer in the range of the type `k`. -/
structure BoundedInt (k : IntKind) where
  val : Int
  min_le : k.min ≤ val
  le_max : val ≤ k.max
deriving DecidableEq

namespace BoundedInt

variable {k : IntKind}

/-- The integer `n` as one of type `k`, if it lies in the range. -/
def ofInt? (k : IntKind) (n : Int) : Option (BoundedInt k) :=
  if h : k.min ≤ n ∧ n ≤ k.max then some ⟨n, h.1, h.2⟩ else none

/-- The integer that a node holds, if it lies in the range of `k`. -/
def ofNumber? (k : IntKind) (n : Number) : Option (BoundedInt k) :=
  (n.signed?.bind fun i => ofInt? k i.toInt) <|> (n.unsigned?.bind fun u => ofInt? k u.toNat)

/-- The node that holds the integer. -/
def toNumber (n : BoundedInt k) : Number :=
  if n.val < 0 then .ofSigned (.ofInt n.val) else .natural (.ofNat n.val.toNat)

end BoundedInt

end Missive
