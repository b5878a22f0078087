import Missive.Tree

/-!
# Options

The limits and policies of encoding and decoding.
-/

namespace Missive

/-- What the decoder does about a declared field that is absent. -/
inductive MissingPolicy where
  /-- An absent field is an error unless it is nullable. -/
  | error
  /-- Every absent field is taken as null. -/
  | treatAsNull
deriving DecidableEq

/-- The name of a policy in the options' text. -/
def MissingPolicy.name : MissingPolicy → String
  | error => "error"
  | treatAsNull => "treat_as_null"

/-- Limits and policies. -/
structure Options where
  /-- How many messages, arrays and containers in leaves may be nested. -/
  maxDepth : UInt32 := 64
  missingFields : MissingPolicy := .error
  /-- Whether a key that is not declared is an error. -/
  denyUnknownFields : Bool := false
deriving DecidableEq

namespace Options

/-- No key but the declared ones. -/
def strict : Options := { denyUnknownFields := true }

/-- Absent fields are null. -/
def lenient : Options := { missingFields := .treatAsNull }

/-- The options as a tree. -/
def toTree (o : Options) : Tree :=
  .object [("max_depth", .number (.natural o.maxDepth.toUInt64)),
    ("missing_fields", .string o.missingFields.name),
    ("deny_unknown_fields", .bool o.denyUnknownFields)]

end Options

end Missive
