import Missive.Fields
import Missive.Number.Bounded
import Missive.Number.Text

/-!
# Field types

The types that fields may have: integers, floats, booleans, strings, trees, messages of one type
or of any, and options and lists of these. For each it is said what encoding sees of a field
(`ToView`) and which decoded values give one (`OfValue`).

A null value is an absent option, and a null tree. It is no value of the other types.
-/

namespace Missive

/-- The instances of one message type `α` among the instances `μ`. -/
class MessageClass (μ : Type) (α : Type) where
  /-- The handle of the type. -/
  handle : MessageType
  /-- An instance of the type among all instances. -/
  wrap : α → μ
  /-- The instance of the type that it is, if it is one, whatever type it tells. -/
  unwrap? : μ → Option α

variable {μ : Type}

/-! ## Views -/

instance {k : IntKind} : ToView μ (BoundedInt k) where
  toView n := .leaf (.number n.toNumber)

instance : ToView μ Float where
  toView x := .ofFloat x

/-- A float of single precision is seen as one of double precision. -/
instance : ToView μ Float32 where
  toView x := .ofFloat x.toFloat

instance : ToView μ Bool where
  toView b := .leaf (.bool b)

instance : ToView μ String where
  toView s := .leaf (.string s)

/-- A null tree is seen as the absent value. -/
instance : ToView μ Tree where
  toView t := .ofTree t

instance {α : Type} [ToView μ α] : ToView μ (Option α) where
  toView a? :=
    match a? with
    | some a => toView a
    | none => .null

instance {α : Type} [ToView μ α] : ToView μ (List α) where
  toView as := .array (as.map toView)

/-- A message of one type. -/
instance (priority := low) {α : Type} [MessageClass μ α] : ToView μ α where
  toView a := .message (MessageClass.wrap a)

/-- A message of any type. -/
instance : ToView μ μ where
  toView m := .message m

/-! ## Conversions -/

variable [Message μ]

/-- An integer is a number of its range that is no float. -/
instance {k : IntKind} : OfValue μ (BoundedInt k) where
  ofValue value :=
    match value with
    | .leaf (.number n) =>
      match BoundedInt.ofNumber? k n with
      | some i => return i
      | none => .mismatch k.name value.describe
    | _ => .mismatch k.name value.describe

/-- A float is any number. -/
instance : OfValue μ Float where
  ofValue value :=
    match value with
    | .leaf (.number n) => return n.toFloat
    | _ => .mismatch "f64" value.describe

/-- A float of single precision is any number that does not become infinite by rounding. -/
instance : OfValue μ Float32 where
  ofValue value :=
    match value with
    | .leaf (.number n) =>
      let x := n.toFloat.toFloat32
      if x.isFinite then return x
      else .mismatch "f32" ("number " ++ n.text ++ " out of f32 range")
    | _ => .mismatch "f32" value.describe

instance : OfValue μ Bool where
  ofValue value :=
    match value with
    | .leaf (.bool b) => return b
    | _ => .mismatch "bool" value.describe

instance : OfValue μ String where
  ofValue value :=
    match value with
    | .leaf (.string s) => return s
    | _ => .mismatch "string" value.describe

/-- A tree is passed through, null being the absent value. -/
instance : OfValue μ Tree where
  ofValue value :=
    match value with
    | .null => return .null
    | .leaf t => return t
    | _ => .mismatch "primitive" value.describe

instance {α : Type} [OfValue μ α] : OfValue μ (Option α) where
  ofValue value :=
    match value with
    | .null => return none
    | _ => some <$> ofValue value

instance {α : Type} [OfValue μ α] : OfValue μ (List α) where
  ofValue value :=
    match value with
    | .array items => items.zipIdx.mapM fun (v, i) => ConvertM.element i (ofValue v)
    | _ => .mismatch "array" value.describe

/-- A message of one type. -/
instance (priority := low) {α : Type} [MessageClass μ α] : OfValue μ α where
  ofValue value :=
    match value with
    | .message m =>
      match MessageClass.unwrap? m with
      | some a => return a
      | none => .mismatch (MessageClass.handle μ α).name value.describe
    | _ => .mismatch (MessageClass.handle μ α).name value.describe

/-- A message of any type. -/
instance : OfValue μ μ where
  ofValue value :=
    match value with
    | .message m => return m
    | _ => .mismatch "message" value.describe

end Missive
