import Missive.Sample.Definitions
import Missive.Sample.FieldKind

/-!
# Scripted records

Records have no fields of their own, so their factories follow a *plan*: which fields are taken, in
which order, and as what. Without a plan all fields are taken as they are. What the factories do
is noted, so that the order of their calls can be seen.
-/

namespace Missive.Sample

/-- A field that is taken. -/
structure PlanStep where
  name : String
  type : FieldKind
  /-- Whether the plan goes on without the field if it cannot be taken. -/
  isTolerant : Bool := false

/-- What a factory of records has done. -/
inductive Note where
  /-- It was called for the message at the path, with fields of the names. -/
  | called (type : MessageType) (path : Path) (names : List String)
  /-- It went on without a field; and the path of the fields after that. -/
  | skipped (error : Error) (path : Path)

/-- The plans of the record types, the latest first, and the notes in order. -/
structure Script where
  plans : List (MessageType × List PlanStep) := []
  notes : List Note := []

/-- Factories that follow plans and take notes. -/
abbrev ScriptM := ExceptT Error (StateM Script)

namespace Script

/-- The script with a plan for a record type. -/
def plan (script : Script) (type : MessageType) (steps : List PlanStep) : Script :=
  { script with plans := (type, steps) :: script.plans }

/-- The script with more notes. -/
def note (script : Script) (notes : List Note) : Script :=
  { script with notes := script.notes ++ notes }

/-- The script without notes. -/
def clear (script : Script) : Script := { script with notes := [] }

end Script

/-- Takes fields as planned: the notes, and the entries of the record. -/
def follow : List PlanStep → Fields Instance →
    List Note × Except Error (List (String × View Instance))
  | [], _ => ([], .ok [])
  | step :: rest, fields =>
    match (step.type.take step.name).run.run fields with
    | (.ok view, fields) =>
      let (notes, result) := follow rest fields
      (notes, ((step.name, view) :: ·) <$> result)
    | (.error e, fields) =>
      if step.isTolerant then
        let (notes, result) := follow rest fields
        (.skipped e fields.path :: notes, result)
      else ([], .error e)

/-- The plan that takes all fields as they are. -/
def planOf (fields : Fields Instance) : List PlanStep :=
  fields.names.map fun name => { name, type := .any }

/-- The factory of a record type. The records that it builds tell their own type. -/
def Record.factory (type : MessageType) : Factory ScriptM Instance := fun fields => do
  modify (·.note [.called type fields.path fields.names])
  let steps := ((← get).plans.lookup type).getD (planOf fields)
  let (notes, result) := follow steps fields
  modify (·.note notes)
  let entries ← ofExcept result
  return .record type { type, entries }

namespace Kind

/-- The definition of a type, if it has one. -/
def definition? {m : Type → Type} [Monad m] [MonadExceptOf Error m] :
    Kind → Option (Definition (Factory m Instance))
  | bar => some Sample.bar
  | foo => some Sample.foo
  | treeNode => some Sample.treeNode
  | team => some Sample.team
  | person => some Sample.person
  | reading => some Sample.reading
  | circle => some Sample.circle
  | square => some Sample.square
  | drawing => some Sample.drawing
  | task => some Sample.task
  | unregistered | record _ => none

/-- The factory of a type, if it has one. -/
def factory? : Kind → Option (Factory ScriptM Instance)
  | record type => some (Record.factory type)
  | k => k.definition?.map (·.factory)

/-- The instance of a type that fields give, if it is built from fields alone. -/
def build? : Kind → Option (Fields Instance → Except Error Instance)
  | unregistered => some (build Unregistered.create)
  | k => k.definition?.map (·.factory)

end Kind

end Missive.Sample
