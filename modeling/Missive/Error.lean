import Missive.Descriptor
import Missive.Path
import Missive.Text.Value

/-!
# Errors

What can go wrong: in registrations, in references to types, in the data, and in the text.
-/

namespace Missive

/-- The cause of a failure. -/
inductive Error where
  /-- The type has no field table. -/
  | unknownType (type : MessageType)
  /-- The name is bound to no type. -/
  | unknownTypeName (name : String)
  /-- The type has a field table already. -/
  | duplicateType (type : MessageType)
  /-- The name is bound already. -/
  | duplicateName (name : String) (existing : MessageType)
  /-- The table declares a field twice. -/
  | duplicateField (type : MessageType) (field : String)
  /-- The message at the path lacks a field. -/
  | missingField (path : Path) (field : String)
  /-- The object at the path has a key that is not declared. -/
  | unknownField (path : Path) (field : String)
  /-- The value at the path is not of the kind that is expected. -/
  | typeMismatch (path : Path) (expected got : String)
  /-- The text does not spell a tree. -/
  | malformedText (fault : TextFault)
  /-- The data is nested too deep. -/
  | depthExceeded (maxDepth : UInt32)
  /-- There is no registry to work with. -/
  | registryNotInstalled
deriving DecidableEq

namespace Error

/-- The wording of an error. -/
def message : Error → String
  | unknownType type => s!"unknown message type {type.name} (no field table registered)"
  | unknownTypeName name => s!"unknown message type name: {name}"
  | duplicateType type => s!"message type {type.name} registered twice"
  | duplicateName name existing =>
    s!"message type name {name} already bound to {existing.name}"
  | duplicateField type field => s!"duplicate field {field} in {type.name}"
  | missingField path field => s!"missing field {field} at {path.text}"
  | unknownField path field => s!"unknown field {field} at {path.text}"
  | typeMismatch path expected got =>
    s!"type mismatch at {path.text}: expected {expected}, got {got}"
  | malformedText .truncated => "malformed text: unexpected end"
  | malformedText .unexpected => "malformed text: unexpected character or value"
  | depthExceeded maxDepth => s!"depth exceeded (max={maxDepth.toNat})"
  | registryNotInstalled => "no process-wide registry installed"

end Error

/-- The tree that a text spells, the fault of a malformed text being an error. -/
def Tree.parse (text : String) : Except Error Tree :=
  (Tree.ofText text).mapError .malformedText

end Missive
