import Missive.Registry.Basic

/-!
# Listing a registry

The registered types with their names and fields, in an order of their own: by the first name,
types without a name coming first, and then by the name of the type. Strings are ordered by their
code points.
-/

namespace Missive

/-- A registered type in a listing. -/
structure TypeSummary where
  names : List String
  typeName : String
  fields : FieldTable
deriving DecidableEq

namespace TypeSummary

/-- The order of types in a listing. -/
def le (a b : TypeSummary) : Bool :=
  match a.names.head?, b.names.head? with
  | none, none => a.typeName ≤ b.typeName
  | none, some _ => true
  | some _, none => false
  | some x, some y => if x = y then a.typeName ≤ b.typeName else x ≤ y

/-- The summary as a tree. -/
def toTree (s : TypeSummary) : Tree :=
  .object [("names", .array (s.names.map .string)), ("rust_type", .string s.typeName),
    ("fields", s.fields.toTree)]

end TypeSummary

/-- The registered types of a registry. -/
structure Listing where
  types : List TypeSummary
deriving DecidableEq

/-- The listing as a tree. -/
def Listing.toTree (l : Listing) : Tree := .object [("types", .array (l.types.map (·.toTree)))]

namespace Registry

variable {φ : Type}

/-- The names that are bound to a type, in order. -/
def namesOf (R : Registry φ) (type : MessageType) : List String :=
  ((R.names.filter (·.2 = type)).map (·.1)).mergeSort fun a b => a ≤ b

/-- The summary of a registered type. -/
def summary (R : Registry φ) (type : MessageType) (entry : TypeEntry φ) : TypeSummary where
  names := R.namesOf type
  typeName := type.name
  fields := entry.fields

/-- The registered types, in order. -/
def describe (R : Registry φ) : Listing where
  types := (R.types.map fun (type, entry) => R.summary type entry).mergeSort TypeSummary.le

end Registry

end Missive
