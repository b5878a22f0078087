import Missive.Fields
import Missive.Registry.Basic

/-!
# Decoding

Decoding makes a value of a tree, as a descriptor tells. A null node is the null value wherever it
stands. A message is built by the factory that is registered for its type, from the values of all
declared fields in the order of the table: the messages in them are built before.

Factories are run in a monad `m` in which errors can be thrown; where it has further effects,
they come in the order of the calls.

The nesting is limited as in encoding. The limit is looked at first, before the references and the
shape of the node.
-/

namespace Missive

/-- Builds a message from its fields. -/
abbrev Factory (m : Type → Type) (μ : Type) := Fields μ → m μ

namespace Registry

variable {m : Type → Type} [Monad m] [MonadExceptOf Error m] {μ : Type}

/-- The first key that is not declared. -/
def unknownKey? (table : FieldTable) (members : List (String × Tree)) : Option String :=
  (members.map (·.1)).find? fun key => (table.get? key).isNone

/-- Whether a declared field may be absent. -/
def allowsAbsent (options : Options) (spec : FieldSpec) : Bool :=
  spec.nullable || options.missingFields = .treatAsNull

/-- Decodes what stands at a path and a depth. -/
def decodeAt (R : Registry (Factory m μ)) (path : Path) (depth : UInt32) (tree : Tree)
    (d : Descriptor) : m (Value μ) :=
  if tree.isNull then pure .null
  else
    match d with
    | .primitive => if R.allowsLeaf tree depth then pure (.leaf tree) else throw R.tooDeep
    | .message target =>
      if _ : depth < R.options.maxDepth then do
        let type ← ofExcept (R.resolve target)
        let entry ← ofExcept (R.entry type)
        match tree with
        | .object members =>
          if R.options.denyUnknownFields then
            if let some key := unknownKey? entry.fields members then
              throw (.unknownField path key)
          let entries ← entry.fields.specs.mapM fun spec =>
            match members.lookup spec.name with
            | some node => do
              let value ← R.decodeAt (path.field spec.name) (depth + 1) node spec.type
              return (spec.name, value)
            | none =>
              if allowsAbsent R.options spec then return (spec.name, .null)
              else throw (.missingField path spec.name)
          let message ← entry.factory { path, entries }
          return .message message
        | _ => throw (.typeMismatch path "object" tree.kind)
      else throw R.tooDeep
    | .array element =>
      if _ : depth < R.options.maxDepth then
        match tree with
        | .array items => do
          let values ← items.zipIdx.mapM fun (node, i) =>
            R.decodeAt (path.index i) (depth + 1) node element
          return .array values
        | _ => throw (.typeMismatch path "array" tree.kind)
      else throw R.tooDeep
termination_by R.options.maxDepth.toNat - depth.toNat
decreasing_by all_goals exact depth_decreasing (by assumption)

/-- Decodes a tree. -/
def decode (R : Registry (Factory m μ)) (tree : Tree) (d : Descriptor) : m (Value μ) :=
  R.decodeAt .root 0 tree d

end Registry

end Missive
