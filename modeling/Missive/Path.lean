/-!
# Paths

The way from the root of a tree, or of a value, to one of its nodes: through the fields of
messages and the elements of arrays. Errors report the path of the node at fault.
-/

namespace Missive

/-- A step from a node to one of its children. -/
inductive Step where
  | field (name : String)
  | index (n : Nat)
deriving DecidableEq

/-- The steps from the root to a node. -/
structure Path where
  steps : List Step := []
deriving DecidableEq

namespace Path

/-- The path of the root. -/
def root : Path := {}

/-- Whether this is the path of the root. -/
def isRoot (p : Path) : Bool := p.steps.isEmpty

/-- One step further. -/
def push (p : Path) (s : Step) : Path := ⟨p.steps ++ [s]⟩

/-- One step back; the root stays where it is. -/
def pop (p : Path) : Path := ⟨p.steps.dropLast⟩

@[simp] theorem length_push (p : Path) (s : Step) :
    (p.push s).steps.length = p.steps.length + 1 := by simp [push]

@[simp] theorem pop_push (p : Path) (s : Step) : (p.push s).pop = p := by simp [push, pop]

/-- The path of a field of the node. -/
def field (p : Path) (name : String) : Path := p.push (.field name)

/-- The path of an element of the node. -/
def index (p : Path) (n : Nat) : Path := p.push (.index n)

/-- The text of a step behind another one. -/
def stepText : Step → String
  | .field name => "." ++ name
  | .index n => "[" ++ toString n ++ "]"

/-- The text of a first step: a field has no dot there. -/
def firstText : Step → String
  | .field name => name
  | .index n => "[" ++ toString n ++ "]"

/-- The text of a path, such as `bar[1][0].y`; the root is a dollar sign. Names are not
    escaped. -/
def text (p : Path) : String :=
  match p.steps with
  | [] => "$"
  | first :: rest => firstText first ++ String.join (rest.map stepText)

end Path

end Missive
