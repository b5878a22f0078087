import Missive.LeafEnum

/-!
# Sample message types

A family of message types that shows what fields can be: numbers, strings and trees, optional
fields, ragged arrays of messages, types that contain themselves and each other, and enumerations.
The tags of some enumerations lie at the ends of the integer types, and those of one are unusual
strings.
-/

namespace Missive.Sample

/-- A message of one number. -/
structure Bar where
  y : BoundedInt .i64
deriving DecidableEq

/-- An optional number, and rows of messages. -/
structure Foo where
  x : Option (BoundedInt .i64)
  bar : List (List Bar)
deriving DecidableEq

/-- A node that contains nodes. -/
structure TreeNode where
  label : String
  children : List TreeNode

mutual

/-- A team of persons. -/
structure Team where
  name : String
  lead : Option Person
  members : List Person

/-- A person, with the team that they lead. -/
structure Person where
  name : String
  age : BoundedInt .u32
  team : Option Team

end

/-- Fields of several kinds, one of them a tree that is passed through. -/
structure Reading where
  sensor : String
  value : Float
  calibrated : Bool
  seq : BoundedInt .u32
  attrs : Tree

/-- A shape. -/
structure Circle where
  radius : Float
deriving DecidableEq

/-- A shape. -/
structure Square where
  side : Float
  angle : Float
deriving DecidableEq

/-- Low, normal and high, tagged by numbers. -/
def priority : LeafEnum where
  name := "Priority"
  tags := [.int (k := .i32) ⟨1, by decide, by decide⟩, .int (k := .i32) ⟨2, by decide, by decide⟩,
    .int (k := .i32) ⟨3, by decide, by decide⟩]

/-- Open, blocked and done, tagged by words. -/
def status : LeafEnum where
  name := "Status"
  tags := [.text "open", .text "blocked", .text "done"]

/-- Tags at the ends and in the middle of the unsigned words. -/
def level : LeafEnum where
  name := "Level"
  tags := [.int (k := .u64) ⟨0, by decide, by decide⟩,
    .int (k := .u64) ⟨9223372036854775808, by decide, by decide⟩,
    .int (k := .u64) ⟨18446744073709551615, by decide, by decide⟩]

/-- Tags at the ends of the signed words, and just below zero. -/
def signed : LeafEnum where
  name := "Signed"
  tags := [.int (k := .i64) ⟨-9223372036854775808, by decide, by decide⟩,
    .int (k := .i64) ⟨-1, by decide, by decide⟩,
    .int (k := .i64) ⟨9223372036854775807, by decide, by decide⟩]

/-- The empty string, a letter, and a string that is escaped in text. -/
def mode : LeafEnum where
  name := "Mode"
  tags := [.text "", .text "R", .text "é\n"]

/-- A task, with its former statuses from the oldest on. -/
structure Task where
  title : String
  priority : Sample.priority.Variant
  status : Option Sample.status.Variant
  history : List Sample.status.Variant
deriving DecidableEq

/-- A message type that is not among the registered ones. -/
structure Unregistered where
  value : BoundedInt .i64
deriving DecidableEq

/-- A chain of nodes, each the only child of the one above, labelled from the bottom. -/
def TreeNode.chain (length : Nat) : TreeNode :=
  match length with
  | 0 | 1 => ⟨"0", []⟩
  | n + 2 => ⟨toString (n + 1), [chain (n + 1)]⟩

/-- Two rows of two messages. -/
def Foo.scenario : Foo where
  x := none
  bar := [[⟨⟨71, by decide, by decide⟩⟩, ⟨⟨72, by decide, by decide⟩⟩],
    [⟨⟨41, by decide, by decide⟩⟩, ⟨⟨42, by decide, by decide⟩⟩]]

end Missive.Sample
