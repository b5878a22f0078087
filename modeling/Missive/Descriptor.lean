import Missive.Tree

/-!
# Descriptors

How a value is to be taken: as an opaque leaf, as a message, or as an array of one of these.
A message is referred to by a name, which a registry resolves, or directly by the handle of its
type.
-/

namespace Missive

/-- The handle of a message type. Types are told apart by their number, and a number has one name,
    so that handles with the same number are the same. The name serves diagnostics, and two types
    may share it. -/
structure MessageType where
  id : Nat
  name : String
deriving DecidableEq

/-- A reference to a message type. -/
inductive TypeRef where
  | named (name : String)
  | handle (type : MessageType)
deriving DecidableEq

/-- The name, or that of the type. -/
def TypeRef.label : TypeRef → String
  | named name => name
  | handle type => type.name

/-- How a value is to be taken. -/
inductive Descriptor where
  | primitive
  | message (target : TypeRef)
  | array (element : Descriptor)
deriving DecidableEq

namespace Descriptor

/-- The name of the descriptor's kind. -/
def kind : Descriptor → String
  | primitive => "primitive"
  | message _ => "message"
  | array _ => "array"

/-- The reference that remains when all arrays are taken off. -/
def reference? : Descriptor → Option TypeRef
  | primitive => none
  | message target => some target
  | array element => element.reference?

/-- The descriptor as a tree. -/
def toTree : Descriptor → Tree
  | primitive => .object [("kind", .string "primitive")]
  | message target => .object [("kind", .string "message"), ("of", .string target.label)]
  | array element => .object [("kind", .string "array"), ("of", element.toTree)]

end Descriptor

end Missive
