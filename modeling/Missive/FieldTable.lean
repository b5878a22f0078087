import Missive.Descriptor

/-!
# Field tables

The fields that a message type declares, in order. A registered table declares each name once;
this is checked by the registration, not by the table.
-/

namespace Missive

/-- A declared field. -/
structure FieldSpec where
  name : String
  type : Descriptor
  /-- Whether the field may be absent. -/
  nullable : Bool := false
deriving DecidableEq

/-- The declared fields of a message type. -/
structure FieldTable where
  specs : List FieldSpec
deriving DecidableEq

/-- The field as a tree. That it may be absent is mentioned only if so. -/
def FieldSpec.toTree (spec : FieldSpec) : Tree :=
  .object ([("name", .string spec.name), ("type", spec.type.toTree)]
    ++ if spec.nullable then [("nullable", .bool true)] else [])

namespace FieldTable

/-- The declared names, in order. -/
def names (table : FieldTable) : List String := table.specs.map (·.name)

/-- The first field of a name. -/
def get? (table : FieldTable) (name : String) : Option FieldSpec :=
  table.specs.find? (·.name = name)

/-- The number of fields. -/
def size (table : FieldTable) : Nat := table.specs.length

/-- Whether there is no field. -/
def isEmpty (table : FieldTable) : Bool := table.specs.isEmpty

/-- The first name that stands behind an equal one, where `seen` are the names before. -/
def firstRepeated? (seen : List String) : List FieldSpec → Option String
  | [] => none
  | spec :: rest =>
    if spec.name ∈ seen then some spec.name else firstRepeated? (seen ++ [spec.name]) rest

/-- The first name that is declared a second time. -/
def firstDuplicate? (table : FieldTable) : Option String := firstRepeated? [] table.specs

/-- The table as a tree. -/
def toTree (table : FieldTable) : Tree := .array (table.specs.map FieldSpec.toTree)

end FieldTable

end Missive
