import Missive.Proofs.Factory
import Missive.Proofs.Registrations
import Missive.Sample.Definitions

/-!
# The sample factories

Each sample factory rebuilds the instances of its type from the values that they show. The six whose
fields are integers, strings, enumerations and messages of one type are faithful as well. A factory
with a float field is not: a float is also made of an integer node, and is then not seen as one.
-/

namespace Missive.Sample

open Outcome

/-! ## The types among all instances -/

instance : LawfulMessageClass Instance Bar where
  unwrap?_wrap _ := rfl
  wrap_of_unwrap? {m a} h := by cases m <;> cases h; rfl

instance : LawfulMessageClass Instance Foo where
  unwrap?_wrap _ := rfl
  wrap_of_unwrap? {m a} h := by cases m <;> cases h; rfl

instance : LawfulMessageClass Instance TreeNode where
  unwrap?_wrap _ := rfl
  wrap_of_unwrap? {m a} h := by cases m <;> cases h; rfl

instance : LawfulMessageClass Instance Team where
  unwrap?_wrap _ := rfl
  wrap_of_unwrap? {m a} h := by cases m <;> cases h; rfl

instance : LawfulMessageClass Instance Person where
  unwrap?_wrap _ := rfl
  wrap_of_unwrap? {m a} h := by cases m <;> cases h; rfl

instance : LawfulMessageClass Instance Reading where
  unwrap?_wrap _ := rfl
  wrap_of_unwrap? {m a} h := by cases m <;> cases h; rfl

instance : LawfulMessageClass Instance Circle where
  unwrap?_wrap _ := rfl
  wrap_of_unwrap? {m a} h := by cases m <;> cases h; rfl

instance : LawfulMessageClass Instance Square where
  unwrap?_wrap _ := rfl
  wrap_of_unwrap? {m a} h := by cases m <;> cases h; rfl

instance : LawfulMessageClass Instance Drawing where
  unwrap?_wrap _ := rfl
  wrap_of_unwrap? {m a} h := by cases m <;> cases h; rfl

instance : LawfulMessageClass Instance Task where
  unwrap?_wrap _ := rfl
  wrap_of_unwrap? {m a} h := by cases m <;> cases h; rfl

theorem priority_distinctTags : priority.DistinctTags := by
  simp [LeafEnum.DistinctTags, priority, Tag.toTree, BoundedInt.toNumber]

theorem status_distinctTags : status.DistinctTags := by
  simp [LeafEnum.DistinctTags, status, Tag.toTree]

instance : Restorable Instance priority.Variant := LeafEnum.restorable priority_distinctTags

instance : Restorable Instance status.Variant := LeafEnum.restorable status_distinctTags

/-! ## What the registry holds -/

/-- The sample registry, whose factories do nothing but build or fail. -/
abbrev sampleRegistry (o : Options) : Registry (Factory (Except Error) Instance) := registry o

/-- What is registered for a definition. -/
def entryOf (d : Definition (Factory (Except Error) Instance)) :
    TypeEntry (Factory (Except Error) Instance) where
  fields := d.fields
  factory := d.factory

/-- The names of the sample types, and what they are bound to. -/
def boundNames : List (String × MessageType) :=
  (definitions (m := Except Error)).map (fun d => (d.name, d.type)) ++
    [("Shape", Kind.type .circle)]

section Registry

variable {o : Options}

/-- Each registration succeeds. -/
theorem sampleRegistry_eq : sampleRegistry o =
    { types := definitions.map fun d => (d.type, entryOf d), names := boundNames, options := o } :=
  rfl

theorem sampleRegistry_options : (sampleRegistry o).options = o := by
  rw [sampleRegistry_eq]

/-- What is registered for the type of a definition. -/
theorem sampleRegistry_entry {type : MessageType}
    {entry : TypeEntry (Factory (Except Error) Instance)}
    (h : (definitions.map fun d => (d.type, entryOf d)).lookup type = some entry) :
    (sampleRegistry o).entry type = .ok entry := by
  rw [sampleRegistry_eq, Registry.entry, h]

/-- Bound names lead to their types, under all options. -/
theorem sampleRegistry_resolve {name : String} {type : MessageType}
    (h : boundNames.lookup name = some type) :
    (sampleRegistry o).resolve (.named name) = .ok type := by
  rw [sampleRegistry_eq, Registry.resolve, Registry.lookupByName, h]

/-- The sample registry comes about by registrations. -/
theorem sampleRegistry_reachable : (sampleRegistry o).Reachable := by
  have hdefs : Registry.Reaches ((definitions (m := Except Error)).forM Registry.register) :=
    .forM (fun d => .run (.register d)) _
  exact hdefs.bind (fun _ => .run (.registerName "Shape" (Kind.type .circle))) _ (.empty o)

end Registry

section Build

variable {α : Type} [MessageClass Instance α] {name : String} {table : FieldTable}
  {create : FieldsM Instance α}

/-- A factory succeeds as its builder does, and gives the instance that was built. -/
theorem factory_eq_ok {fields : Fields Instance} {m : Instance}
    (h : (entryOf (define name table create)).factory fields = .ok m) :
    ∃ a fields', create.run.run fields = (.ok a, fields') ∧ m = MessageClass.wrap a := by
  change ofExcept (build create fields) = _ at h
  rw [ofExcept_eq, build] at h
  rcases hrun : create.run.run fields with ⟨e | a, fields'⟩
  · rw [hrun] at h
    cases h
  · rw [hrun] at h
    cases h
    exact ⟨a, fields', rfl, rfl⟩

/-- A factory fails as its builder does. -/
theorem factory_eq_error {fields : Fields Instance} {e : Error}
    (h : (entryOf (define name table create)).factory fields = .error e) :
    (create.run.run fields).1 = .error e := by
  change ofExcept (build create fields) = _ at h
  rw [ofExcept_eq, build] at h
  cases hrun : (create.run.run fields).1 with
  | error e' =>
    rw [hrun] at h
    cases h
    rfl
  | ok a =>
    rw [hrun] at h
    cases h

/-- A factory rebuilds an instance if its builder makes it of the values that the instance shows
    under the declared names. -/
theorem rebuilds_of_makes {a : α}
    (h : Makes (MessageClass.wrap a : Instance) table.names create a) :
    (entryOf (define name table create)).Rebuilds (MessageClass.wrap a) := by
  intro fields hn hs
  change ofExcept (build create fields) = _
  rw [ofExcept_eq, build, h fields ⟨hn, hs⟩]
  rfl

/-- A factory is faithful if its builder takes all declared fields, and the instance shows each of
    them as it was taken. -/
theorem faithful_of_shows
    (htype : ∀ a : α, messageType (MessageClass.wrap a : Instance) = MessageClass.handle Instance α)
    (h : Shows MessageClass.wrap [] table.size create) :
    (entryOf (define name table create)).Faithful (MessageClass.handle Instance α) := by
  intro fields m hn hm
  obtain ⟨a, fields', hrun, rfl⟩ := factory_eq_ok hm
  have hsize : fields.size = table.size := by
    have hlength := congrArg List.length hn
    rwa [Fields.names, List.length_map, entryOf, FieldTable.names, List.length_map] at hlength
  exact ⟨htype a, (h fields a fields' hrun hsize).1⟩

end Build

/-! ## Rebuilding

Each builder takes the fields of its type by their names, and each field is of a type that is
restored from what is seen of it. -/

theorem rebuilds_bar (m : Bar) : (entryOf bar).Rebuilds (.bar m) := by
  refine rebuilds_of_makes ?_
  exact .take (by decide) rfl <| .pure

theorem rebuilds_foo (m : Foo) : (entryOf foo).Rebuilds (.foo m) := by
  refine rebuilds_of_makes ?_
  exact .take (by decide) rfl <| .take (by decide) rfl <| .pure

theorem rebuilds_treeNode (m : TreeNode) : (entryOf treeNode).Rebuilds (.treeNode m) := by
  obtain ⟨label, children⟩ := m
  refine rebuilds_of_makes ?_
  exact .take (by decide) rfl <| .take (by decide) rfl <| .pure

theorem rebuilds_team (m : Team) : (entryOf team).Rebuilds (.team m) := by
  obtain ⟨name, lead, members⟩ := m
  refine rebuilds_of_makes ?_
  exact .take (by decide) rfl <| .take (by decide) rfl <| .take (by decide) rfl <| .pure

/-- The team is taken first, though it stands last in the table. -/
theorem rebuilds_person (m : Person) : (entryOf person).Rebuilds (.person m) := by
  obtain ⟨name, age, team⟩ := m
  refine rebuilds_of_makes ?_
  exact .take (by decide) rfl <| .take (by decide) rfl <| .take (by decide) rfl <| .pure

theorem rebuilds_reading (m : Reading) : (entryOf reading).Rebuilds (.reading m) := by
  refine rebuilds_of_makes ?_
  exact .take (by decide) rfl <| .take (by decide) rfl <| .take (by decide) rfl <|
    .take (by decide) rfl <| .take (by decide) rfl <| .pure

theorem rebuilds_circle (m : Circle) : (entryOf circle).Rebuilds (.circle m) := by
  refine rebuilds_of_makes ?_
  exact .take (by decide) rfl <| .pure

theorem rebuilds_square (m : Square) : (entryOf square).Rebuilds (.square m) := by
  refine rebuilds_of_makes ?_
  exact .take (by decide) rfl <| .take (by decide) rfl <| .pure

/-- Shapes are taken as they are, whatever their types. -/
theorem rebuilds_drawing (m : Drawing) : (entryOf drawing).Rebuilds (.drawing m) := by
  obtain ⟨shapes⟩ := m
  refine rebuilds_of_makes ?_
  exact .take (by decide) rfl <| .pure

theorem rebuilds_task (m : Task) : (entryOf task).Rebuilds (.task m) := by
  refine rebuilds_of_makes ?_
  exact .take (by decide) rfl <| .take (by decide) rfl <| .take (by decide) rfl <|
    .take (by decide) rfl <| .pure

/-! ## Faithfulness

The fields are taken in the order of the builder, and shown by the instance under the same names. -/

theorem faithful_bar : (entryOf bar).Faithful (Kind.type .bar) := by
  refine faithful_of_shows (fun _ => rfl) ?_
  refine .take fun y => .pure ?_
  simp only [List.forall_mem_cons]
  exact ⟨rfl, fun _ h => absurd h List.not_mem_nil⟩

theorem faithful_foo : (entryOf foo).Faithful (Kind.type .foo) := by
  refine faithful_of_shows (fun _ => rfl) ?_
  refine .take fun x => .take fun bar => .pure ?_
  simp only [List.forall_mem_cons]
  exact ⟨rfl, rfl, fun _ h => absurd h List.not_mem_nil⟩

theorem faithful_treeNode : (entryOf treeNode).Faithful (Kind.type .treeNode) := by
  refine faithful_of_shows (fun _ => rfl) ?_
  refine .take fun label => .take fun children => .pure ?_
  simp only [List.forall_mem_cons]
  exact ⟨rfl, rfl, fun _ h => absurd h List.not_mem_nil⟩

theorem faithful_team : (entryOf team).Faithful (Kind.type .team) := by
  refine faithful_of_shows (fun _ => rfl) ?_
  refine .take fun name => .take fun lead => .take fun members => .pure ?_
  simp only [List.forall_mem_cons]
  exact ⟨rfl, rfl, rfl, fun _ h => absurd h List.not_mem_nil⟩

theorem faithful_person : (entryOf person).Faithful (Kind.type .person) := by
  refine faithful_of_shows (fun _ => rfl) ?_
  refine .take fun team => .take fun name => .take fun age => .pure ?_
  simp only [List.forall_mem_cons]
  exact ⟨rfl, rfl, rfl, fun _ h => absurd h List.not_mem_nil⟩

/-- Variants are shown by the tags that they were read from. -/
theorem faithful_task : (entryOf task).Faithful (Kind.type .task) := by
  refine faithful_of_shows (fun _ => rfl) ?_
  refine .take fun title => .take fun priority => .take fun status => .take fun history => .pure ?_
  simp only [List.forall_mem_cons]
  exact ⟨rfl, rfl, rfl, rfl, fun _ h => absurd h List.not_mem_nil⟩

end Missive.Sample
