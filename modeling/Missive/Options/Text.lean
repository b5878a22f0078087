import Missive.Options.Basic
import Missive.Text.Value

/-!
# Reading options

Options are spelled as an object, in which each option may be left out and other keys are passed
over, or as an array of the options in order, of which the last ones may be left out.
-/

namespace Missive.Options

/-- An option that has been read. -/
inductive Setting where
  | maxDepth (n : UInt32)
  | missingFields (policy : MissingPolicy)
  | denyUnknownFields (b : Bool)
  | other
deriving DecidableEq

/-- The options with one of them set. -/
def apply (o : Options) : Setting → Options
  | .maxDepth n => { o with maxDepth := n }
  | .missingFields policy => { o with missingFields := policy }
  | .denyUnknownFields b => { o with denyUnknownFields := b }
  | .other => o

/-- A depth: an integer that fits 32 bits. -/
def readDepth : Reader Setting := fun s => do
  let (n, rest) ← Reader.number (Reader.skipBlanks s)
  match n.unsigned? with
  | some n => if n.toNat < UInt32.size then return (.maxDepth n.toUInt32, rest) else .error .unexpected
  | none => .error .unexpected

/-- The name of a policy. -/
def readPolicyName : Reader MissingPolicy := fun s => do
  let (name, rest) ← Reader.quoted s
  if name = MissingPolicy.name .error then return (.error, rest)
  else if name = MissingPolicy.name .treatAsNull then return (.treatAsNull, rest)
  else .error .unexpected

/-- A policy: its name, or an object with the name as its only key and null as its value. -/
def readPolicy : Reader Setting := fun s =>
  match Reader.skipBlanks s with
  | '\x7b' :: s => do
    let (policy, s) ← readPolicyName s
    let ((), s) ← Reader.mark ':' s
    let ((), s) ← Reader.word ['n', 'u', 'l', 'l'] (Reader.skipBlanks s)
    let ((), rest) ← Reader.mark '\x7d' s
    return (.missingFields policy, rest)
  | s => Reader.map .missingFields readPolicyName s

/-- A truth value. -/
def readFlag : Reader Setting := fun s =>
  match Reader.skipBlanks s with
  | 't' :: s => Reader.map (fun () => .denyUnknownFields true) (Reader.word ['r', 'u', 'e']) s
  | s => Reader.map (fun () => .denyUnknownFields false) (Reader.word ['f', 'a', 'l', 's', 'e']) s

/-- The value of a key. That of an unknown key may be nested as deep as the text is long. -/
def readSetting (key : String) : Reader Setting := fun s =>
  if key = "max_depth" then readDepth s
  else if key = "missing_fields" then readPolicy s
  else if key = "deny_unknown_fields" then readFlag s
  else Reader.map (fun () => .other) (Reader.skip s.length) s

/-- The settings of an object, whose opening bracket has been read. An option may be set once. -/
def readMembers : Reader Options := fun s => do
  let (members, rest) ← Reader.members Reader.quoted readSetting s
  let known := (members.filter (·.2 ≠ .other)).map (·.1)
  if known.Nodup then return ((members.map (·.2)).foldl apply {}, rest) else .error .unexpected

/-- The settings of an array from the given ones on, up to its closing bracket. -/
def readItems (o : Options) : List (Reader Setting) → Reader Options
  | [], _ => .error .unexpected
  | setting :: more, s => do
    let (set, s) ← setting s
    match Reader.skipBlanks s with
    | ']' :: rest => return (o.apply set, rest)
    | ',' :: s => readItems (o.apply set) more s
    | _ => .error .unexpected

/-- Options, as an object or as an array. -/
def read : Reader Options := fun s =>
  match Reader.skipBlanks s with
  | '\x7b' :: s => readMembers s
  | '[' :: s =>
    match Reader.skipBlanks s with
    | ']' :: rest => .ok ({}, rest)
    | s => readItems {} [readDepth, readPolicy, readFlag] s
  | _ => .error .unexpected

/-- The options that a text spells. -/
def ofText? (text : String) : Option Options := (Reader.whole read text).toOption

end Missive.Options
