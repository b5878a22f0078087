import Missive.Path
import Missive.Proofs.Canonical

/-!
# Positions

Where a path leads: in a tree to a node, and in a registry to the descriptor that is declared for
that node. The two are walked apart from each other, step by step.

* `Tree.at?`: the node that steps lead to.
* `Registry.descriptorAt?`, `Registry.tableAt?`: what is declared there.
-/

namespace Missive

/-! ## Nodes -/

namespace Tree

/-- The node one step further. -/
def child? : Tree → Step → Option Tree
  | object members, .field name => members.lookup name
  | array items, .index i => items[i]?
  | _, _ => none

/-- The node that the steps lead to. -/
def at? (t : Tree) (steps : List Step) : Option Tree := steps.foldlM child? t

variable {t node : Tree} {steps : List Step}

/-- Steps are walked from where the steps before them lead. -/
theorem at?_append {rest : List Step} (h : t.at? steps = some node) :
    t.at? (steps ++ rest) = node.at? rest := by
  rw [at?, List.foldlM_append]
  change (t.at? steps).bind (fun node => node.at? rest) = _
  rw [h, Option.bind_some]

theorem at?_cons {s : Step} {child : Tree} (h : t.child? s = some child) :
    t.at? (s :: steps) = child.at? steps := by
  rw [at?, List.foldlM_cons, h]
  rfl

/-- A field of an object that a path leads to. -/
theorem at?_field {path : Path} {members : List (String × Tree)} {name : String}
    (h : t.at? path.steps = some (.object members)) (hl : members.lookup name = some node) :
    t.at? (path.field name).steps = some node :=
  (at?_append h).trans (at?_cons (s := .field name) hl)

/-- An item of an array that a path leads to. -/
theorem at?_index {path : Path} {items : List Tree} {i : Nat}
    (h : t.at? path.steps = some (.array items)) (hi : items[i]? = some node) :
    t.at? (path.index i).steps = some node :=
  (at?_append h).trans (at?_cons (s := .index i) hi)

end Tree

/-! ## Descriptors -/

namespace Registry

variable {φ : Type} {R : Registry φ}

/-- The descriptor one step further. -/
def childType? (R : Registry φ) : Descriptor → Step → Option Descriptor
  | .message target, .field name => do
    let table ← R.tableOf? target
    let spec ← table.get? name
    return spec.type
  | .array element, .index _ => some element
  | _, _ => none

/-- The descriptor that is declared for what the steps lead to. -/
def descriptorAt? (R : Registry φ) (d : Descriptor) (steps : List Step) : Option Descriptor :=
  steps.foldlM R.childType? d

/-- The field table of the message type that is declared for what the steps lead to. -/
def tableAt? (R : Registry φ) (d : Descriptor) (steps : List Step) : Option FieldTable :=
  match R.descriptorAt? d steps with
  | some (.message target) => R.tableOf? target
  | _ => none

variable {d d' : Descriptor} {steps : List Step}

theorem descriptorAt?_append {s : Step} (h : R.descriptorAt? d steps = some d') :
    R.descriptorAt? d (steps ++ [s]) = R.childType? d' s := by
  rw [descriptorAt?, List.foldlM_append]
  change (R.descriptorAt? d steps).bind (fun d => [s].foldlM R.childType? d) = _
  rw [h, Option.bind_some, List.foldlM_cons]
  exact Option.bind_fun_some _

/-- Where a message is declared, its fields are declared by the table of its type. -/
theorem descriptorAt?_field {path : Path} {target : TypeRef} {table : FieldTable} {name : String}
    {spec : FieldSpec} (h : R.descriptorAt? d path.steps = some (.message target))
    (ht : R.tableOf? target = some table) (hs : table.get? name = some spec) :
    R.descriptorAt? d (path.field name).steps = some spec.type := by
  refine (descriptorAt?_append h).trans ?_
  rw [childType?, ht]
  change (table.get? name).bind _ = _
  rw [hs]
  rfl

/-- Where an array is declared, all its items are declared alike. -/
theorem descriptorAt?_index {path : Path} {element : Descriptor}
    (h : R.descriptorAt? d path.steps = some (.array element)) (i : Nat) :
    R.descriptorAt? d (path.index i).steps = some element :=
  descriptorAt?_append h

theorem tableAt?_of_descriptorAt? {target : TypeRef}
    (h : R.descriptorAt? d steps = some (.message target)) :
    R.tableAt? d steps = R.tableOf? target := by
  rw [tableAt?, h]

end Registry

end Missive
