import Missive.Number.Text
import Missive.Text.Quoted
import Missive.Tree

/-!
# Writing a tree as text

One printer for two layouts: *compact*, without blanks, and *indented*, with each item and member
of a container on a line of its own, two blanks further in than the container. Empty containers
take no line in either.
-/

namespace Missive

/-- How the text of a tree is laid out. -/
inductive Layout where
  | compact
  | indented
deriving DecidableEq

namespace Layout

/-- What stands before an item or member at a nesting level, and before the bracket that closes
    a container at that level. -/
def lineBreak (layout : Layout) (level : Nat) : List Char :=
  match layout with
  | compact => []
  | indented => '\n' :: List.replicate (2 * level) ' '

/-- What stands between a key and its value. -/
def colon : Layout → List Char
  | compact => [':']
  | indented => [':', ' ']

end Layout

namespace Tree

open Text (quoted)

mutual

/-- Writes a tree, whose first line stands at a nesting level, in front of the given
    characters. -/
def write (layout : Layout) (level : Nat) : Tree → List Char → List Char
  | null, rest => 'n' :: 'u' :: 'l' :: 'l' :: rest
  | bool true, rest => 't' :: 'r' :: 'u' :: 'e' :: rest
  | bool false, rest => 'f' :: 'a' :: 'l' :: 's' :: 'e' :: rest
  | number n, rest => n.chars ++ rest
  | string s, rest => quoted s ++ rest
  | array [], rest => '[' :: ']' :: rest
  | array (t :: ts), rest =>
    '[' :: (layout.lineBreak (level + 1)
      ++ t.write layout (level + 1) (writeItems layout level ts rest))
  | object [], rest => '\x7b' :: '\x7d' :: rest
  | object ((key, t) :: ts), rest =>
    '\x7b' :: (layout.lineBreak (level + 1) ++ (quoted key ++ (layout.colon
      ++ t.write layout (level + 1) (writeMembers layout level ts rest))))

/-- Writes the items after the first, each behind a comma, and the closing bracket. -/
def writeItems (layout : Layout) (level : Nat) : List Tree → List Char → List Char
  | [], rest => layout.lineBreak level ++ ']' :: rest
  | t :: ts, rest =>
    ',' :: (layout.lineBreak (level + 1)
      ++ t.write layout (level + 1) (writeItems layout level ts rest))

/-- Writes the members after the first, each behind a comma, and the closing bracket. -/
def writeMembers (layout : Layout) (level : Nat) : List (String × Tree) → List Char → List Char
  | [], rest => layout.lineBreak level ++ '\x7d' :: rest
  | (key, t) :: ts, rest =>
    ',' :: (layout.lineBreak (level + 1) ++ (quoted key ++ (layout.colon
      ++ t.write layout (level + 1) (writeMembers layout level ts rest))))

end

/-- The text of a tree. -/
def text (layout : Layout) (t : Tree) : String := .ofList (t.write layout 0 [])

/-- The compact text of a tree. -/
def compact (t : Tree) : String := t.text .compact

end Tree

end Missive
