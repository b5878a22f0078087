import Missive.Descriptor

/-!
# Values and views

A *value* is what decoding makes of a tree: null, an opaque leaf, a message or an array. A *view*
is what encoding sees of a field: the same, and a float that is not finite, for which trees have
no number.

The message instances are of a type `μ`, which stands for all message types that a program works
with. A `Message` instance of `μ` tells the type of an instance and shows its fields.
-/

namespace Missive

/-- The floats that are no numbers of a tree. -/
inductive NonFinite where
  | nan
  | infinity
  | minusInfinity
deriving DecidableEq

/-- The text of a float that is not finite. -/
def NonFinite.text : NonFinite → String
  | nan => "NaN"
  | infinity => "inf"
  | minusInfinity => "-inf"

/-- The kind of a float that is not finite. -/
def NonFinite.ofFloat (x : Float) : NonFinite :=
  if x.isNaN then nan else if x < 0 then minusInfinity else infinity

/-- A decoded value. -/
inductive Value (μ : Type) where
  | null
  | leaf (t : Tree)
  | message (m : μ)
  | array (items : List (Value μ))

/-- What encoding sees of a field. -/
inductive View (μ : Type) where
  | null
  | leaf (t : Tree)
  /-- A float that trees have no number for. The view of a float is this one only if the float is
      not finite; that a field shows a finite float in this way is left out. -/
  | nonFinite (x : NonFinite)
  | message (m : μ)
  | array (items : List (View μ))

/-- Message instances. -/
class Message (μ : Type) where
  /-- The type whose field table the instance is encoded with. -/
  messageType : μ → MessageType
  /-- What a field holds, if the instance has it. -/
  field : μ → String → Option (View μ)

export Message (messageType)

/-- The field types that encoding can see. -/
class ToView (μ : Type) (α : Type) where
  /-- What encoding sees of a field. -/
  toView : α → View μ

export ToView (toView)

variable {μ : Type}

/-- How an instance is described in mismatches. -/
def describeMessage [Message μ] (m : μ) : String := "message " ++ (messageType m).name

/-- How an array is described in mismatches. -/
def describeArray (size : Nat) : String := "array[" ++ toString size ++ "]"

namespace Value

/-- Whether the value is null. -/
def isNull : Value μ → Bool
  | null => true
  | _ => false

/-- How the value is described in mismatches. -/
def describe [Message μ] : Value μ → String
  | null => "null"
  | leaf t => t.kind
  | message m => describeMessage m
  | array items => describeArray items.length

mutual

/-- The view of a value that is passed on unchanged. -/
def view : Value μ → View μ
  | null => .null
  | leaf t => .leaf t
  | message m => .message m
  | array items => .array (viewItems items)

/-- The views of the items. -/
def viewItems : List (Value μ) → List (View μ)
  | [] => []
  | v :: vs => v.view :: viewItems vs

end

end Value

namespace View

/-- How the view is described in mismatches. -/
def describe [Message μ] : View μ → String
  | null => "null"
  | leaf t => t.kind
  | nonFinite x => "non-finite number " ++ x.text
  | message m => describeMessage m
  | array items => describeArray items.length

/-- The view of a tree: null is the absent value. -/
def ofTree : Tree → View μ
  | .null => .null
  | t => .leaf t

/-- The view of a float. -/
def ofFloat (x : Float) : View μ :=
  match Number.ofFloat? x with
  | some n => .leaf (.number n)
  | none => .nonFinite (.ofFloat x)

end View

end Missive
