import Missive.FieldType
import Missive.Text.Printer

/-!
# Enumerations as leaves

A field may be one of finitely many variants, each carried as a leaf: its *tag*, an integer or a
string. A leaf is read as the first variant whose tag it is.
-/

namespace Missive

/-- Whether an integer type has negative integers. -/
def IntKind.isSigned : IntKind → Bool
  | i8 | i16 | i32 | i64 | isize => true
  | u8 | u16 | u32 | u64 | usize => false

/-- The tag of a variant. -/
inductive Tag where
  | int {k : IntKind} (n : BoundedInt k)
  | text (s : String)

namespace Tag

/-- The leaf that carries the tag. -/
def toTree : Tag → Tree
  | int n => .number n.toNumber
  | text s => .string s

/-- Whether the node is the tag: an integer tag is compared with the signed or the unsigned
    value of a number, as its own type is, and is never a float. -/
def isNode : Tag → Tree → Bool
  | @int k n, .number x =>
    if k.isSigned then x.signed? = some (.ofInt n.val) else x.unsigned? = some (.ofNat n.val.toNat)
  | text s, .string s' => s = s'
  | _, _ => false

end Tag

/-- An enumeration: its name in mismatches, and the tags of its variants. -/
structure LeafEnum where
  name : String
  tags : List Tag

namespace LeafEnum

/-- A variant of an enumeration. -/
structure Variant (e : LeafEnum) where
  index : Fin e.tags.length
deriving DecidableEq

variable {e : LeafEnum}

/-- The tag of a variant. -/
def Variant.tag (v : e.Variant) : Tag := e.tags.get v.index

/-- The first variant whose tag is the node. -/
def ofNode? (e : LeafEnum) (node : Tree) : Option e.Variant :=
  (e.tags.findFinIdx? (·.isNode node)).map Variant.mk

variable {μ : Type}

instance : ToView μ e.Variant where
  toView v := .leaf v.tag.toTree

variable [Message μ]

/-- How a value that is no variant is described: a leaf by its text. -/
def describe : Value μ → String
  | .leaf node => node.compact
  | value => value.describe

instance : OfValue μ e.Variant where
  ofValue value :=
    let found :=
      match value with
      | .leaf node => e.ofNode? node
      | _ => none
    match found with
    | some v => return v
    | none => .mismatch e.name (describe value)

end LeafEnum

end Missive
