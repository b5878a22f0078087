import Missive.Registry.Basic
import Missive.Value

/-!
# Encoding

Encoding makes a tree of a view, as a descriptor tells. A message is laid out with the field table
of its own type: the type that the descriptor refers to is not looked at.

The nesting is limited, so that encoding ends even if messages contain each other without end.
-/

namespace Missive

namespace Registry

variable {φ : Type} {μ : Type} [Message μ]

/-- Encodes what stands at a path and a depth. -/
def encodeAt (R : Registry φ) (path : Path) (depth : UInt32) (view : View μ) (d : Descriptor) :
    Except Error Tree :=
  match view, d with
  | .null, _ => .ok .null
  | .nonFinite x, _ => .error (.typeMismatch path "finite number" x.text)
  | .leaf t, .primitive => if R.allowsLeaf t depth then .ok t else .error R.tooDeep
  | .message m, .message _ =>
    if _ : depth < R.options.maxDepth then do
      let table ← R.lookupFields (messageType m)
      let members ← table.specs.mapM fun spec =>
        match Message.field m spec.name with
        | none => .error (.missingField path spec.name)
        | some v => do
          let node ← R.encodeAt (path.field spec.name) (depth + 1) v spec.type
          return (spec.name, node)
      return .ofMembers members
    else .error R.tooDeep
  | .array items, .array element =>
    if _ : depth < R.options.maxDepth then do
      let nodes ← items.zipIdx.mapM fun (v, i) =>
        R.encodeAt (path.index i) (depth + 1) v element
      return .array nodes
    else .error R.tooDeep
  | view, d => .error (.typeMismatch path d.kind view.describe)
termination_by R.options.maxDepth.toNat - depth.toNat
decreasing_by all_goals exact depth_decreasing (by assumption)

/-- Encodes a view. -/
def encode (R : Registry φ) (view : View μ) (d : Descriptor) : Except Error Tree :=
  R.encodeAt .root 0 view d

end Registry

end Missive
