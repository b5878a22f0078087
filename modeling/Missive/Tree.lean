import Missive.Number.Basic

/-!
# Trees

The generic trees that messages are encoded to: null, booleans, numbers, strings, arrays and
objects. The members of an object are ordered, and setting a key that is already there keeps its
position.

* `Tree.kind`: the name of a node's kind in mismatches.
* `Tree.setMember`: setting a key of an object.
* `Tree.levels`: how many containers are nested in a tree, as a machine word.
-/

namespace Missive

/-- A generic tree. -/
inductive Tree where
  | null
  | bool (b : Bool)
  | number (n : Number)
  | string (s : String)
  | array (items : List Tree)
  | object (members : List (String × Tree))

namespace Tree

/-- The name of the node's kind. -/
def kind : Tree → String
  | null => "null"
  | bool _ => "bool"
  | number _ => "number"
  | string _ => "string"
  | array _ => "array"
  | object _ => "object"

/-- Whether the node is null. -/
def isNull : Tree → Bool
  | null => true
  | _ => false

/-- Sets a key to a value: where the key stands if it does, and at the end otherwise. -/
def setMember (key : String) (value : Tree) : List (String × Tree) → List (String × Tree)
  | [] => [(key, value)]
  | (k, v) :: rest => if k = key then (k, value) :: rest else (k, v) :: setMember key value rest

/-- The members that result from setting each key in turn. -/
def ofMembers (members : List (String × Tree)) : Tree :=
  .object (members.foldl (fun acc (key, value) => setMember key value acc) [])

mutual

/-- The greatest number of containers on a way down from the node. -/
def levels : Tree → UInt32
  | array items => levelsOfItems items + 1
  | object members => levelsOfMembers members + 1
  | _ => 0

/-- The most levels of an item, `0` if there is none. -/
def levelsOfItems : List Tree → UInt32
  | [] => 0
  | t :: ts => max t.levels (levelsOfItems ts)

/-- The most levels of a member, `0` if there is none. -/
def levelsOfMembers : List (String × Tree) → UInt32
  | [] => 0
  | (_, t) :: ts => max t.levels (levelsOfMembers ts)

end

end Tree

end Missive
