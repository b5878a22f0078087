import Missive.Error
import Missive.Value

/-!
# Fields

The values that a message is built from, by name, with the path of the message. A builder takes
them one by one, each converted to the type that it wants.

A conversion knows where it is: it moves a path along with it, which is also what a failed
conversion leaves behind. `Fields.take` steps into the field before the conversion and one step
back after it. A conversion that fails further down does not come back to where it started, and
then the path of the fields stays that much longer.

* `OfValue μ α`: fields of type `α` can be made of decoded values.
* `Fields.take`: takes a field out and converts it.
-/

namespace Missive

/-- Conversions: they may fail, and move along a path. -/
abbrev ConvertM := ExceptT Error (StateM Path)

namespace ConvertM

variable {α : Type}

/-- Fails at the current path. -/
def mismatch (expected got : String) : ConvertM α := do
  throw (.typeMismatch (← get) expected got)

/-- Converts an element of an array: the path steps into it and, unless the conversion fails,
    back. -/
def element (n : Nat) (convert : ConvertM α) : ConvertM α := do
  modify (·.index n)
  let a ← convert
  modify (·.pop)
  return a

end ConvertM

/-- The field types that decoding can give. -/
class OfValue (μ : Type) (α : Type) where
  /-- The field that a decoded value gives. -/
  ofValue : Value μ → ConvertM α

export OfValue (ofValue)

/-- The values of a message's fields, in order, and the path of the message. -/
structure Fields (μ : Type) where
  path : Path := {}
  entries : List (String × Value μ) := []

/-- Programs that take fields. -/
abbrev FieldsM (μ : Type) := ExceptT Error (StateM (Fields μ))

namespace Fields

variable {μ : Type}

/-- The fields with one more at the end. -/
def insert (fields : Fields μ) (name : String) (value : Value μ) : Fields μ :=
  { fields with entries := fields.entries ++ [(name, value)] }

/-- The first value of a name. -/
def get? (fields : Fields μ) (name : String) : Option (Value μ) := fields.entries.lookup name

/-- The names, in order. -/
def names (fields : Fields μ) : List String := fields.entries.map (·.1)

/-- The number of fields. -/
def size (fields : Fields μ) : Nat := fields.entries.length

/-- Whether there is no field. -/
def isEmpty (fields : Fields μ) : Bool := fields.entries.isEmpty

/-- The fields without the first of a name. -/
def erase (fields : Fields μ) (name : String) : Fields μ :=
  { fields with entries := fields.entries.eraseP (·.1 = name) }

/-- Takes out the first value of a name, converted to a field type. -/
def take {α : Type} [OfValue μ α] (name : String) : FieldsM μ α := do
  let fields ← get
  match fields.get? name with
  | none => throw (.missingField fields.path name)
  | some value =>
    let (result, path) := (ofValue value : ConvertM α).run.run (fields.path.field name)
    set { fields.erase name with path := path.pop }
    ofExcept result

end Fields

end Missive
