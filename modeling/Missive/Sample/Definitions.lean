import Missive.Decode
import Missive.Sample.Instance

/-!
# Sample definitions

The names, field tables and factories of the sample types, and the registration of them all. Shapes
are drawn as circles unless told otherwise: the name `Shape` is bound to that type.
-/

namespace Missive.Sample

open Fields (take)

/-! ## Building instances -/

/-- A bar of its number. -/
def Bar.create : FieldsM Instance Bar := do
  return { y := ← take "y" }

/-- A foo of its number and its rows. -/
def Foo.create : FieldsM Instance Foo := do
  return { x := ← take "x", bar := ← take "bar" }

/-- A node of its label and its children. -/
def TreeNode.create : FieldsM Instance TreeNode := do
  return { label := ← take "label", children := ← take "children" }

/-- A team of its name, its lead and its members. -/
def Team.create : FieldsM Instance Team := do
  return { name := ← take "name", lead := ← take "lead", members := ← take "members" }

/-- A person of their name, age and team. The team is taken first. -/
def Person.create : FieldsM Instance Person := do
  let team ← take "team"
  return { name := ← take "name", age := ← take "age", team }

/-- A reading of all that it measures. -/
def Reading.create : FieldsM Instance Reading := do
  return {
    sensor := ← take "sensor"
    value := ← take "value"
    calibrated := ← take "calibrated"
    seq := ← take "seq"
    attrs := ← take "attrs" }

/-- A circle of its radius. -/
def Circle.create : FieldsM Instance Circle := do
  return { radius := ← take "radius" }

/-- A square of its side and its angle. -/
def Square.create : FieldsM Instance Square := do
  return { side := ← take "side", angle := ← take "angle" }

/-- A drawing of shapes of any type. -/
def Drawing.create : FieldsM Instance Drawing := do
  return { shapes := ← take "shapes" }

/-- A task of its title, priority and statuses. -/
def Task.create : FieldsM Instance Task := do
  return {
    title := ← take "title"
    priority := ← take "priority"
    status := ← take "status"
    history := ← take "history" }

/-- Not registered, but built in the same way. -/
def Unregistered.create : FieldsM Instance Unregistered := do
  return { value := ← take "value" }

/-! ## Field tables -/

/-- An array of messages of a name. -/
def arrayOf (name : String) : Descriptor := .array (.message (.named name))

/-- One leaf, the number. -/
def Bar.fields : FieldTable where
  specs := [{ name := "y", type := .primitive }]

/-- A leaf that may be absent, and rows of bars. -/
def Foo.fields : FieldTable where
  specs := [{ name := "x", type := .primitive, nullable := true },
    { name := "bar", type := .array (arrayOf "Bar") }]

/-- A leaf, and nodes of the same type. -/
def TreeNode.fields : FieldTable where
  specs := [{ name := "label", type := .primitive },
    { name := "children", type := arrayOf "TreeNode" }]

/-- A leaf, a person that may be absent, and persons. -/
def Team.fields : FieldTable where
  specs := [{ name := "name", type := .primitive },
    { name := "lead", type := .message (.named "Person"), nullable := true },
    { name := "members", type := arrayOf "Person" }]

/-- Two leaves, and a team that may be absent. -/
def Person.fields : FieldTable where
  specs := [{ name := "name", type := .primitive },
    { name := "age", type := .primitive },
    { name := "team", type := .message (.named "Team"), nullable := true }]

/-- Five leaves, the last of which may be absent. -/
def Reading.fields : FieldTable where
  specs := [{ name := "sensor", type := .primitive },
    { name := "value", type := .primitive },
    { name := "calibrated", type := .primitive },
    { name := "seq", type := .primitive },
    { name := "attrs", type := .primitive, nullable := true }]

/-- One leaf, the radius. -/
def Circle.fields : FieldTable where
  specs := [{ name := "radius", type := .primitive }]

/-- Two leaves, the side and the angle. -/
def Square.fields : FieldTable where
  specs := [{ name := "side", type := .primitive },
    { name := "angle", type := .primitive }]

/-- Shapes: what that name is bound to is for the registry to say. -/
def Drawing.fields : FieldTable where
  specs := [{ name := "shapes", type := arrayOf "Shape" }]

/-- Leaves, one of which may be absent, and an array of leaves. -/
def Task.fields : FieldTable where
  specs := [{ name := "title", type := .primitive },
    { name := "priority", type := .primitive },
    { name := "status", type := .primitive, nullable := true },
    { name := "history", type := .array .primitive }]

/-! ## Definitions -/

/-- The instance that a builder makes of fields. -/
def build {α : Type} [MessageClass Instance α] (create : FieldsM Instance α)
    (fields : Fields Instance) : Except Error Instance :=
  MessageClass.wrap <$> (create.run.run fields).1

section

variable {m : Type → Type} [Monad m] [MonadExceptOf Error m]

/-- The definition of a type whose instances a builder makes. Each sample type is defined under
    its own name. -/
def define {α : Type} [MessageClass Instance α] (name : String) (fields : FieldTable)
    (create : FieldsM Instance α) : Definition (Factory m Instance) where
  name
  type := MessageClass.handle Instance α
  fields
  factory fields := ofExcept (build create fields)

def bar : Definition (Factory m Instance) := define "Bar" Bar.fields Bar.create

def foo : Definition (Factory m Instance) := define "Foo" Foo.fields Foo.create

def treeNode : Definition (Factory m Instance) :=
  define "TreeNode" TreeNode.fields TreeNode.create

def team : Definition (Factory m Instance) := define "Team" Team.fields Team.create

def person : Definition (Factory m Instance) := define "Person" Person.fields Person.create

def reading : Definition (Factory m Instance) := define "Reading" Reading.fields Reading.create

def circle : Definition (Factory m Instance) := define "Circle" Circle.fields Circle.create

def square : Definition (Factory m Instance) := define "Square" Square.fields Square.create

def drawing : Definition (Factory m Instance) := define "Drawing" Drawing.fields Drawing.create

def task : Definition (Factory m Instance) := define "Task" Task.fields Task.create

/-- The definitions of the sample types. -/
def definitions : List (Definition (Factory m Instance)) :=
  [bar, foo, treeNode, team, person, reading, circle, square, drawing, task]

/-- Registers the sample types. -/
def registerAll : RegistryM (Factory m Instance) Unit := do
  definitions.forM Registry.register
  Registry.registerName "Shape" (Kind.type .circle)

/-- The registry of the sample types. -/
def registry (options : Options := {}) : Registry (Factory m Instance) :=
  (registerAll.run.run { options }).2

end

end Missive.Sample
