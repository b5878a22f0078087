import Missive.Decode
import Missive.Encode
import Missive.FieldType
import Missive.Text.Printer

/-!
# Packing

Messages as trees and as text. A message is packed with the field table of its own type; it is
unpacked as one of a given type, or as the type that a name is bound to.
-/

namespace Missive.Registry

variable {φ : Type} {m : Type → Type} [Monad m] [MonadExceptOf Error m] {μ : Type} [Message μ]

/-- The tree of a message. -/
def toTree (R : Registry φ) (message : μ) : Except Error Tree :=
  R.encode (.message message) (.message (.handle (messageType message)))

/-- The text of a message. -/
def pack (R : Registry φ) (layout : Layout) (message : μ) : Except Error String :=
  (Tree.text layout) <$> R.toTree message

/-- The conversion of a decoded value at the root. -/
def convertRoot {α : Type} [OfValue μ α] (value : Value μ) : Except Error α :=
  ((ofValue value : ConvertM α).run.run .root).1

/-- The message of type `α` that a tree holds. -/
def ofTree {α : Type} [MessageClass μ α] (R : Registry (Factory m μ)) (tree : Tree) :
    m α := do
  let value ← R.decode tree (.message (.handle (MessageClass.handle μ α)))
  ofExcept (convertRoot value)

/-- The message of type `α` that a text holds. -/
def unpack {α : Type} [MessageClass μ α] (R : Registry (Factory m μ)) (text : String) : m α := do
  let tree ← ofExcept (Tree.parse text)
  R.ofTree tree

/-- The message that a text holds, as the type that a name is bound to. -/
def unpackNamed (R : Registry (Factory m μ)) (name text : String) : m μ := do
  let tree ← ofExcept (Tree.parse text)
  let value ← R.decode tree (.message (.named name))
  ofExcept (convertRoot value)

end Missive.Registry
