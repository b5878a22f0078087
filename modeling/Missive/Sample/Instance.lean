import Missive.Sample.Types

/-!
# Sample messages

All instances that the sample family works with: those of the sample types, and *records*, whose
types and fields are whatever they were given. A record may tell another type than its own; it is
then encoded with the table of that type, but is not taken for one of its instances.
-/

namespace Missive.Sample

/-- The types of the family. Records may be of any other type. -/
inductive Kind where
  | bar | foo | treeNode | team | person | reading | circle | square | drawing | task
  | unregistered
  | record (type : MessageType)
deriving DecidableEq

/-- The handle of a type. -/
def Kind.type : Kind → MessageType
  | bar => ⟨0, "forser_testkit::Bar"⟩
  | foo => ⟨1, "forser_testkit::Foo"⟩
  | treeNode => ⟨2, "forser_testkit::TreeNode"⟩
  | team => ⟨3, "forser_testkit::Team"⟩
  | person => ⟨4, "forser_testkit::Person"⟩
  | reading => ⟨5, "forser_testkit::Reading"⟩
  | circle => ⟨6, "forser_testkit::Circle"⟩
  | square => ⟨7, "forser_testkit::Square"⟩
  | drawing => ⟨8, "forser_testkit::Drawing"⟩
  | task => ⟨9, "forser_testkit::Task"⟩
  | unregistered => ⟨10, "forser_testkit::Unregistered"⟩
  | record type => type

mutual

/-- An instance of the family. -/
inductive Instance where
  | bar (m : Bar)
  | foo (m : Foo)
  | treeNode (m : TreeNode)
  | team (m : Team)
  | person (m : Person)
  | reading (m : Reading)
  | circle (m : Circle)
  | square (m : Square)
  | drawing (m : Drawing)
  | task (m : Task)
  | unregistered (m : Unregistered)
  | record (own : MessageType) (m : Record)

/-- Shapes of any type. -/
structure Drawing where
  shapes : List Instance

/-- Fields as they were given, and the type that is told. -/
structure Record where
  type : MessageType
  entries : List (String × View Instance)

end

/-! ## The types among all instances -/

instance : MessageClass Instance Bar where
  handle := Kind.type .bar
  wrap := .bar
  unwrap?
    | .bar m => some m
    | _ => none

instance : MessageClass Instance Foo where
  handle := Kind.type .foo
  wrap := .foo
  unwrap?
    | .foo m => some m
    | _ => none

instance : MessageClass Instance TreeNode where
  handle := Kind.type .treeNode
  wrap := .treeNode
  unwrap?
    | .treeNode m => some m
    | _ => none

instance : MessageClass Instance Team where
  handle := Kind.type .team
  wrap := .team
  unwrap?
    | .team m => some m
    | _ => none

instance : MessageClass Instance Person where
  handle := Kind.type .person
  wrap := .person
  unwrap?
    | .person m => some m
    | _ => none

instance : MessageClass Instance Reading where
  handle := Kind.type .reading
  wrap := .reading
  unwrap?
    | .reading m => some m
    | _ => none

instance : MessageClass Instance Circle where
  handle := Kind.type .circle
  wrap := .circle
  unwrap?
    | .circle m => some m
    | _ => none

instance : MessageClass Instance Square where
  handle := Kind.type .square
  wrap := .square
  unwrap?
    | .square m => some m
    | _ => none

instance : MessageClass Instance Drawing where
  handle := Kind.type .drawing
  wrap := .drawing
  unwrap?
    | .drawing m => some m
    | _ => none

instance : MessageClass Instance Task where
  handle := Kind.type .task
  wrap := .task
  unwrap?
    | .task m => some m
    | _ => none

instance : MessageClass Instance Unregistered where
  handle := Kind.type .unregistered
  wrap := .unregistered
  unwrap?
    | .unregistered m => some m
    | _ => none

/-- The records of one type, whatever they tell. -/
@[reducible] def Record.messageClass (own : MessageType) : MessageClass Instance Record where
  handle := Kind.type (.record own)
  wrap := .record own
  unwrap?
    | .record type m => if type = own then some m else none
    | _ => none

/-! ## What instances show -/

namespace Instance

/-- The type of an instance, whatever it tells. -/
def kind : Instance → Kind
  | bar _ => .bar
  | foo _ => .foo
  | treeNode _ => .treeNode
  | team _ => .team
  | person _ => .person
  | reading _ => .reading
  | circle _ => .circle
  | square _ => .square
  | drawing _ => .drawing
  | task _ => .task
  | unregistered _ => .unregistered
  | record own _ => .record own

/-- The fields of an instance, in order. -/
def entries : Instance → List (String × View Instance)
  | bar m => [("y", toView m.y)]
  | foo m => [("x", toView m.x), ("bar", toView m.bar)]
  | treeNode m => [("label", toView m.label), ("children", toView m.children)]
  | team m => [("name", toView m.name), ("lead", toView m.lead), ("members", toView m.members)]
  | person m => [("name", toView m.name), ("age", toView m.age), ("team", toView m.team)]
  | reading m => [("sensor", toView m.sensor), ("value", toView m.value),
      ("calibrated", toView m.calibrated), ("seq", toView m.seq), ("attrs", toView m.attrs)]
  | circle m => [("radius", toView m.radius)]
  | square m => [("side", toView m.side), ("angle", toView m.angle)]
  | drawing m => [("shapes", toView m.shapes)]
  | task m => [("title", toView m.title), ("priority", toView m.priority),
      ("status", toView m.status), ("history", toView m.history)]
  | unregistered m => [("value", toView m.value)]
  | record _ m => m.entries

end Instance

/-- A record tells the type that it was given. -/
instance : Message Instance where
  messageType
    | .record _ m => m.type
    | m => m.kind.type
  field m name := m.entries.lookup name

end Missive.Sample
