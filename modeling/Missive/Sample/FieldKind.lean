import Missive.Sample.Instance

/-!
# Field types as data

The field types of the sample family, as a type of their own: so that what a field is taken as can
be told at run time, and so that statements about all of them can be proved by induction.
-/

namespace Missive.Sample

/-- What an instance of a type is. -/
abbrev Kind.Carrier : Kind → Type
  | bar => Bar
  | foo => Foo
  | treeNode => TreeNode
  | team => Team
  | person => Person
  | reading => Reading
  | circle => Circle
  | square => Square
  | drawing => Drawing
  | task => Task
  | unregistered => Unregistered
  | record _ => Record

/-- The instances of a type among all instances. -/
@[reducible] def Kind.messageClass : (k : Kind) → MessageClass Instance k.Carrier
  | bar => inferInstanceAs (MessageClass Instance Bar)
  | foo => inferInstanceAs (MessageClass Instance Foo)
  | treeNode => inferInstanceAs (MessageClass Instance TreeNode)
  | team => inferInstanceAs (MessageClass Instance Team)
  | person => inferInstanceAs (MessageClass Instance Person)
  | reading => inferInstanceAs (MessageClass Instance Reading)
  | circle => inferInstanceAs (MessageClass Instance Circle)
  | square => inferInstanceAs (MessageClass Instance Square)
  | drawing => inferInstanceAs (MessageClass Instance Drawing)
  | task => inferInstanceAs (MessageClass Instance Task)
  | unregistered => inferInstanceAs (MessageClass Instance Unregistered)
  | record own => Record.messageClass own

/-- A field type. -/
inductive FieldKind where
  | int (k : IntKind)
  | float
  | single
  | bool
  | string
  | tree
  | variant (e : LeafEnum)
  | message (k : Kind)
  | anyMessage
  /-- Every value, unchanged. -/
  | any
  | option (t : FieldKind)
  | list (t : FieldKind)

namespace FieldKind

/-- The fields of a type. -/
abbrev Carrier : FieldKind → Type
  | int k => BoundedInt k
  | float => Float
  | single => Float32
  | bool => Bool
  | string => String
  | tree => Tree
  | variant e => e.Variant
  | message k => k.Carrier
  | anyMessage => Instance
  | any => View Instance
  | option t => Option t.Carrier
  | list t => List t.Carrier

/-- What encoding sees of a field. -/
def view : (t : FieldKind) → t.Carrier → View Instance
  | int _, n => toView n
  | float, x => toView x
  | single, x => toView x
  | bool, b => toView b
  | string, s => toView s
  | tree, t => toView t
  | variant _, v => toView v
  | message k, m => .message (k.messageClass.wrap m)
  | anyMessage, m => .message m
  | any, v => v
  | option t, a? =>
    letI : ToView Instance t.Carrier := ⟨t.view⟩
    toView a?
  | list t, as =>
    letI : ToView Instance t.Carrier := ⟨t.view⟩
    toView as

/-- The field that a decoded value gives. -/
def convert : (t : FieldKind) → Value Instance → ConvertM t.Carrier
  | int _, v => ofValue v
  | float, v => ofValue v
  | single, v => ofValue v
  | bool, v => ofValue v
  | string, v => ofValue v
  | tree, v => ofValue v
  | variant _, v => ofValue v
  | message k, v =>
    letI := k.messageClass
    ofValue v
  | anyMessage, v => ofValue v
  | any, v => return v.view
  | option t, v =>
    letI : OfValue Instance t.Carrier := ⟨t.convert⟩
    ofValue v
  | list t, v =>
    letI : OfValue Instance t.Carrier := ⟨t.convert⟩
    ofValue v

/-- Takes a field out and gives what encoding sees of it. -/
def take (t : FieldKind) (name : String) : FieldsM Instance (View Instance) :=
  letI : OfValue Instance t.Carrier := ⟨t.convert⟩
  t.view <$> Fields.take name

end FieldKind

end Missive.Sample
