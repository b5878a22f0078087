import Missive.Error
import Missive.FieldTable
import Missive.Options.Basic

/-!
# Registries

A registry holds what is known of the message types: for each type its field table and the
factory that builds its instances, and the types that names are bound to. The two are independent:
a name may be bound to a type whose table comes later, or never.

Registering is done in steps that may fail, and what a registration has recorded before it fails
would stay. `Registry.register` therefore checks the name before it records the type.

* `Registry.registerType`, `Registry.registerName`, `Registry.register`: the registrations.
* `Registry.entry`, `Registry.resolve`: looking up.
* `Registry.validate`: whether all references lead to registered types.
* `Registry.allowsLeaf`, `Registry.tooDeep`: the limit on the nesting, which is counted by a machine
  word. The word stays below the limit wherever a traversal goes further down, so that it does not
  wrap; and since it comes nearer to the limit with each step, every traversal ends
  (`Registry.depth_decreasing`).
* `Slot`: a place for one registry that all parts of a program share.

What factories are is left open (`φ`): no registration calls one.
-/

namespace Missive

/-- What is registered for a type. -/
structure TypeEntry (φ : Type) where
  fields : FieldTable
  factory : φ

/-- The registered types, the bound names, and the options of encoding and decoding. -/
structure Registry (φ : Type) where
  types : List (MessageType × TypeEntry φ) := []
  names : List (String × MessageType) := []
  options : Options := {}

/-- Registrations: they change a registry, and may fail. -/
abbrev RegistryM (φ : Type) := ExceptT Error (StateM (Registry φ))

/-- A message type with the name that it is registered under. -/
structure Definition (φ : Type) where
  name : String
  type : MessageType
  fields : FieldTable
  factory : φ

namespace Registry

variable {φ : Type}

/-! ## Looking up -/

/-- What is registered for a type. -/
def entry (R : Registry φ) (type : MessageType) : Except Error (TypeEntry φ) :=
  match R.types.lookup type with
  | some entry => .ok entry
  | none => .error (.unknownType type)

/-- The field table of a type. -/
def lookupFields (R : Registry φ) (type : MessageType) : Except Error FieldTable :=
  (·.fields) <$> R.entry type

/-- The type that a name is bound to. -/
def lookupByName (R : Registry φ) (name : String) : Except Error MessageType :=
  match R.names.lookup name with
  | some type => .ok type
  | none => .error (.unknownTypeName name)

/-- The type that is referred to. -/
def resolve (R : Registry φ) : TypeRef → Except Error MessageType
  | .named name => R.lookupByName name
  | .handle type => .ok type

/-- Whether a type has a field table. -/
def contains (R : Registry φ) (type : MessageType) : Bool := (R.types.lookup type).isSome

/-- The number of field tables. -/
def size (R : Registry φ) : Nat := R.types.length

/-- Whether there is no field table. -/
def isEmpty (R : Registry φ) : Bool := R.types.isEmpty

/-! ## Registering -/

/-- Fails if a name is bound. -/
def ensureNameFree (name : String) : RegistryM φ Unit := do
  match (← get).names.lookup name with
  | some existing => throw (.duplicateName name existing)
  | none => return

/-- Records the field table and the factory of a type. -/
def registerType (type : MessageType) (fields : FieldTable) (factory : φ) : RegistryM φ Unit := do
  if (← get).contains type then throw (.duplicateType type)
  if let some field := fields.firstDuplicate? then throw (.duplicateField type field)
  modify fun R => { R with types := R.types ++ [(type, { fields, factory })] }

/-- Binds a name to a type, registered or not. -/
def registerName (name : String) (type : MessageType) : RegistryM φ Unit := do
  ensureNameFree name
  modify fun R => { R with names := R.names ++ [(name, type)] }

/-- Records a type with its name. -/
def register (d : Definition φ) : RegistryM φ Unit := do
  ensureNameFree d.name
  registerType d.type d.fields d.factory
  registerName d.name d.type

/-- Replaces the options. -/
def setOptions (options : Options) : RegistryM φ Unit :=
  modify fun R => { R with options }

/-! ## Checking -/

/-- Fails if a reference does not lead to a registered type. -/
def checkReference (R : Registry φ) (target : TypeRef) : Except Error Unit := do
  let type ← R.resolve target
  discard (R.entry type)

/-- Fails if a declared field refers to a type that is not registered. -/
def checkTable (R : Registry φ) (table : FieldTable) : Except Error Unit :=
  table.specs.forM fun spec => spec.type.reference?.forM R.checkReference

/-- Fails if a table refers to, or a name is bound to, a type that is not registered. -/
def validate (R : Registry φ) : Except Error Unit := do
  R.types.forM fun (_, entry) => R.checkTable entry.fields
  R.names.forM fun (_, type) => discard (R.entry type)

/-! ## Depth -/

/-- The error of data that is nested too deep. -/
def tooDeep (R : Registry φ) : Error := .depthExceeded R.options.maxDepth

/-- The sum of two words, or the greatest word if there is none. -/
def addSaturating (a b : UInt32) : UInt32 := if a + b < a then 0xFFFFFFFF else a + b

/-- Whether a leaf may stand at a depth: each container in it is one level further down. -/
def allowsLeaf (R : Registry φ) (leaf : Tree) (depth : UInt32) : Bool :=
  leaf.levels = 0 || addSaturating depth (leaf.levels - 1) < R.options.maxDepth

/-- Below the limit the depth does not wrap, and comes nearer to the limit. -/
theorem depth_decreasing {depth maxDepth : UInt32} (h : depth < maxDepth) :
    maxDepth.toNat - (depth + 1).toNat < maxDepth.toNat - depth.toNat := by
  have lt : depth.toNat < maxDepth.toNat := h
  have bound := maxDepth.toNat_lt
  have next : (depth + 1).toNat = depth.toNat + 1 := by
    rw [UInt32.toNat_add]
    exact Nat.mod_eq_of_lt (by simp; omega)
  omega

end Registry

/-! ## The shared registry -/

/-- A slot for one registry, empty at first. It is filled once and stays so. -/
structure Slot (φ : Type) where
  installed : Option (Registry φ) := none

namespace Slot

variable {φ : Type}

/-- The slot with a registry installed. If it holds one already, that one stays, and the new one
    is given back. -/
def install (slot : Slot φ) (R : Registry φ) : Slot φ × Option (Registry φ) :=
  match slot.installed with
  | none => ({ installed := some R }, none)
  | some _ => (slot, some R)

/-- The installed registry. -/
def get (slot : Slot φ) : Except Error (Registry φ) :=
  match slot.installed with
  | some R => .ok R
  | none => .error .registryNotInstalled

end Slot

end Missive
