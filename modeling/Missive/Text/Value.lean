import Missive.Text.Container
import Missive.Text.Numeral
import Missive.Text.Quoted
import Missive.Tree

/-!
# Reading trees

A value is told by its first character. Containers are read to a bounded nesting: a tree of text
has at most `maxTextDepth` of them inside each other.

* `Tree.ofText`: the tree that a text spells.
* `Reader.skip`: any value, of which only the shape is looked at.
-/

namespace Missive

namespace Reader

/-- How the values of a format are read: what null and the booleans stand for, the readers of
    numbers and strings, and those of containers whose opening bracket has been read. -/
structure Parts (α : Type) where
  null : α
  bool : Bool → α
  number : Reader α
  string : Reader α
  array : Reader α
  object : Reader α

/-- A value, behind blanks. -/
def value {α : Type} (parts : Parts α) : Reader α := fun s =>
  match skipBlanks s with
  | [] => .error .truncated
  | 'n' :: s => (word ['u', 'l', 'l']).map (fun () => parts.null) s
  | 't' :: s => (word ['r', 'u', 'e']).map (fun () => parts.bool true) s
  | 'f' :: s => (word ['a', 'l', 's', 'e']).map (fun () => parts.bool false) s
  | '[' :: s => parts.array s
  | '\x7b' :: s => parts.object s
  | c :: s =>
    if c = '"' then parts.string (c :: s)
    else if c = '-' ∨ c.isDigit then parts.number (c :: s)
    else .error .unexpected

/-- A tree, with the readers of containers given. -/
def treeWith (array object : Reader Tree) : Reader Tree :=
  value { null := .null, bool := .bool, number := number.map .number, string := quoted.map .string,
          array, object }

/-- A tree of at most the given number of nested containers. A repeated key keeps its first
    position and its last value. -/
def tree : (room : Nat) → Reader Tree
  | 0 => treeWith refuse refuse
  | room + 1 =>
    treeWith ((items (tree room)).map .array) ((members quoted fun _ => tree room).map .ofMembers)

/-- A value of which only the shape is looked at, with the readers of containers given. Numbers
    may be out of range, and escapes need not form characters. -/
def skipWith (array object : Reader Unit) : Reader Unit :=
  value { null := (), bool := fun _ => (), number := numeral.map fun _ => (),
          string := looseQuoted.map fun _ => (), array, object }

/-- A value of at most the given number of nested containers, of which only the shape is looked
    at. -/
def skip : (room : Nat) → Reader Unit
  | 0 => skipWith refuse refuse
  | room + 1 =>
    skipWith ((items (skip room)).map fun _ => ())
      ((members looseQuoted fun _ => skip room).map fun _ => ())

end Reader

/-- The most containers that may be nested in a text. -/
def maxTextDepth : Nat := 127

/-- The tree that a text spells. -/
def Tree.ofText (text : String) : Except TextFault Tree :=
  Reader.whole (Reader.tree maxTextDepth) text

end Missive
