import Mathlib
import Missive.Proofs.Sample.Factories
import Missive.Proofs.Truth

/-!
# Errors of sample messages

Whatever tree a sample message cannot be read from, the error is true of that tree, and under all
options. The fields that may be null are options and a tree, all of which a null is converted to.
-/

namespace Missive.Sample

open Outcome

/-- The enumerations whose variants are told by their text. -/
def enumNames : List String := [priority.name, status.name]

section Fields

variable {o : Options} {α : Type} [MessageClass Instance α] {name : String} {table : FieldTable}
  {create : FieldsM Instance α}

theorem candid_int {k : IntKind} :
    (sampleRegistry o).Candid enumNames .primitive (BoundedInt k) :=
  Registry.candid_leaf convertsWhole_int (by cases k <;> decide)

theorem candid_float : (sampleRegistry o).Candid enumNames .primitive Float :=
  Registry.candid_leaf convertsWhole_float (by decide)

theorem candid_bool : (sampleRegistry o).Candid enumNames .primitive Bool :=
  Registry.candid_leaf convertsWhole_bool (by decide)

theorem candid_string : (sampleRegistry o).Candid enumNames .primitive String :=
  Registry.candid_leaf convertsWhole_string (by decide)

theorem candid_tree : (sampleRegistry o).Candid enumNames .primitive Tree :=
  Registry.candid_leaf convertsWhole_tree (by decide)

/-- What a builder has made is of its type. -/
theorem candid_built [LawfulMessageClass Instance α] {target : TypeRef}
    (h : (sampleRegistry o).follow target = .ok (entryOf (define name table create))) :
    (sampleRegistry o).Candid enumNames (.message target) α := by
  refine Registry.candid_message convertsWhole_message ?_
  intro entry fields m he hm
  cases h.symm.trans he
  obtain ⟨a, _, _, rfl⟩ := factory_eq_ok hm
  refine ⟨a, ?_⟩
  simp only [ofValue, unwrap?_wrap]

/-- What is decoded under a bound name is of the type whose builder is registered for it. -/
theorem candid_named [LawfulMessageClass Instance α] {bound : String} {type : MessageType}
    (hr : boundNames.lookup bound = some type)
    (he : (definitions.map fun d => (d.type, entryOf d)).lookup type =
      some (entryOf (define name table create))) :
    (sampleRegistry o).Candid enumNames (.message (.named bound)) α :=
  candid_built (Registry.follow_eq_ok_iff.2
    ⟨type, sampleRegistry_resolve hr, sampleRegistry_entry he⟩)

/-- A factory is truthful if its builder is, which takes its fields from what was decoded. -/
theorem truthfulFactory_of_truthfully (hn : table.names.Nodup)
    (h : (sampleRegistry o).Truthfully enumNames table table.names create) :
    (sampleRegistry o).TruthfulFactory enumNames (entryOf (define name table create)) := by
  intro s depth entries e hs he
  exact h s depth _ e (s.reads_of_decoded hn hs) (factory_eq_error he)

end Fields

/-! ## The factories -/

section Factories

variable {o : Options}

theorem truthful_bar : (sampleRegistry o).TruthfulFactory enumNames (entryOf bar) := by
  refine truthfulFactory_of_truthfully (by decide) ?_
  exact .take (by decide) rfl candid_int (.inl rfl) fun _ => .pure

theorem truthful_foo : (sampleRegistry o).TruthfulFactory enumNames (entryOf foo) := by
  have hbar : (sampleRegistry o).Candid enumNames (.message (.named "Bar")) Bar :=
    candid_named rfl rfl
  refine truthfulFactory_of_truthfully (by decide) ?_
  refine .take (by decide) rfl candid_int.option (.inr ⟨none, fun _ => rfl⟩) fun _ => ?_
  exact .take (by decide) rfl hbar.list.list (.inl rfl) fun _ => .pure

theorem truthful_treeNode : (sampleRegistry o).TruthfulFactory enumNames (entryOf treeNode) := by
  have hchild : (sampleRegistry o).Candid enumNames (.message (.named "TreeNode")) TreeNode :=
    candid_named rfl rfl
  refine truthfulFactory_of_truthfully (by decide) ?_
  refine .take (by decide) rfl candid_string (.inl rfl) fun _ => ?_
  exact .take (by decide) rfl hchild.list (.inl rfl) fun _ => .pure

theorem truthful_team : (sampleRegistry o).TruthfulFactory enumNames (entryOf team) := by
  have hperson : (sampleRegistry o).Candid enumNames (.message (.named "Person")) Person :=
    candid_named rfl rfl
  refine truthfulFactory_of_truthfully (by decide) ?_
  refine .take (by decide) rfl candid_string (.inl rfl) fun _ => ?_
  refine .take (by decide) rfl hperson.option (.inr ⟨none, fun _ => rfl⟩) fun _ => ?_
  exact .take (by decide) rfl hperson.list (.inl rfl) fun _ => .pure

/-- The team is an option, so a null in its place is converted. -/
theorem truthful_person : (sampleRegistry o).TruthfulFactory enumNames (entryOf person) := by
  have hteam : (sampleRegistry o).Candid enumNames (.message (.named "Team")) Team :=
    candid_named rfl rfl
  refine truthfulFactory_of_truthfully (by decide) ?_
  refine .take (by decide) rfl hteam.option (.inr ⟨none, fun _ => rfl⟩) fun _ => ?_
  refine .take (by decide) rfl candid_string (.inl rfl) fun _ => ?_
  exact .take (by decide) rfl candid_int (.inl rfl) fun _ => .pure

/-- The last field is a tree, and a null is one. -/
theorem truthful_reading : (sampleRegistry o).TruthfulFactory enumNames (entryOf reading) := by
  refine truthfulFactory_of_truthfully (by decide) ?_
  refine .take (by decide) rfl candid_string (.inl rfl) fun _ => ?_
  refine .take (by decide) rfl candid_float (.inl rfl) fun _ => ?_
  refine .take (by decide) rfl candid_bool (.inl rfl) fun _ => ?_
  refine .take (by decide) rfl candid_int (.inl rfl) fun _ => ?_
  exact .take (by decide) rfl candid_tree (.inr ⟨.null, fun _ => rfl⟩) fun _ => .pure

theorem truthful_circle : (sampleRegistry o).TruthfulFactory enumNames (entryOf circle) := by
  refine truthfulFactory_of_truthfully (by decide) ?_
  exact .take (by decide) rfl candid_float (.inl rfl) fun _ => .pure

theorem truthful_square : (sampleRegistry o).TruthfulFactory enumNames (entryOf square) := by
  refine truthfulFactory_of_truthfully (by decide) ?_
  refine .take (by decide) rfl candid_float (.inl rfl) fun _ => ?_
  exact .take (by decide) rfl candid_float (.inl rfl) fun _ => .pure

/-- A shape may be of any type, so only a null is none. -/
theorem truthful_drawing : (sampleRegistry o).TruthfulFactory enumNames (entryOf drawing) := by
  have hshape : (sampleRegistry o).Candid enumNames (.message (.named "Shape")) Instance :=
    Registry.candid_message convertsWhole_anyMessage fun _ _ m _ _ => ⟨m, rfl⟩
  refine truthfulFactory_of_truthfully (by decide) ?_
  exact .take (by decide) rfl hshape.list (.inl rfl) fun _ => .pure

theorem truthful_task : (sampleRegistry o).TruthfulFactory enumNames (entryOf task) := by
  have hpriority : (sampleRegistry o).Candid enumNames .primitive priority.Variant :=
    Registry.candid_variant (by decide)
  have hstatus : (sampleRegistry o).Candid enumNames .primitive status.Variant :=
    Registry.candid_variant (by decide)
  refine truthfulFactory_of_truthfully (by decide) ?_
  refine .take (by decide) rfl candid_string (.inl rfl) fun _ => ?_
  refine .take (by decide) rfl hpriority (.inl rfl) fun _ => ?_
  refine .take (by decide) rfl hstatus.option (.inr ⟨none, fun _ => rfl⟩) fun _ => ?_
  exact .take (by decide) rfl hstatus.list (.inl rfl) fun _ => .pure

theorem truthful_definitions : ∀ d ∈ definitions,
    (sampleRegistry o).TruthfulFactory enumNames (entryOf d) := by
  simp only [definitions, List.forall_mem_cons]
  exact ⟨truthful_bar, truthful_foo, truthful_treeNode, truthful_team, truthful_person,
    truthful_reading, truthful_circle, truthful_square, truthful_drawing, truthful_task,
    fun _ h => absurd h List.not_mem_nil⟩

theorem sampleRegistry_validate : (sampleRegistry o).validate = .ok () := by
  rw [sampleRegistry_eq]
  cbv

/-- All that the sample registry refers to is registered, and its factories are truthful. -/
theorem sampleRegistry_honest : (sampleRegistry o).Honest enumNames where
  distinctFields := sampleRegistry_reachable.distinctFields
  closed := Registry.validate_eq_ok_iff.1 sampleRegistry_validate
  factories x hx := by
    rw [sampleRegistry_eq] at hx
    obtain ⟨d, hd, rfl⟩ := List.mem_map.1 hx
    exact truthful_definitions d hd
  object_notMem := by decide
  array_notMem := by decide

/-- A message class is read truthfully if its type is among the definitions. -/
theorem readsTruthfully_of_defined {α : Type} [MessageClass Instance α]
    [LawfulMessageClass Instance α] {name : String} {table : FieldTable}
    {create : FieldsM Instance α}
    (h : (definitions.map fun d => (d.type, entryOf d)).lookup (MessageClass.handle Instance α) =
      some (entryOf (define name table create))) :
    (sampleRegistry o).ReadsTruthfully enumNames α := by
  refine sampleRegistry_honest.readsTruthfully ?_ ?_
  · rw [sampleRegistry_eq, Registry.contains, h]
    rfl
  · exact candid_built (Registry.follow_eq_ok_iff.2 ⟨_, rfl, sampleRegistry_entry h⟩)

end Factories

/-- A sample message that cannot be read from a tree has an error that is true of the tree: one of
    the four of `Registry.Truthful`. -/
theorem read_errors_truthful (o : Options) :
    (sampleRegistry o).ReadsTruthfully enumNames Bar ∧
    (sampleRegistry o).ReadsTruthfully enumNames Foo ∧
    (sampleRegistry o).ReadsTruthfully enumNames TreeNode ∧
    (sampleRegistry o).ReadsTruthfully enumNames Team ∧
    (sampleRegistry o).ReadsTruthfully enumNames Person ∧
    (sampleRegistry o).ReadsTruthfully enumNames Reading ∧
    (sampleRegistry o).ReadsTruthfully enumNames Circle ∧
    (sampleRegistry o).ReadsTruthfully enumNames Square ∧
    (sampleRegistry o).ReadsTruthfully enumNames Drawing ∧
    (sampleRegistry o).ReadsTruthfully enumNames Task := by
  refine ⟨?_, ?_, ?_, ?_, ?_, ?_, ?_, ?_, ?_, ?_⟩
  all_goals exact readsTruthfully_of_defined rfl

/-- A task one of whose former statuses is not a status. -/
def Task.lateTree : Tree :=
  .object [("title", .string "Paint"), ("priority", .number (.natural 1)),
    ("history", .array [.string "open", .string "late"])]

/-- A team one of whose members has no age. -/
def Team.agelessTree : Tree :=
  .object [("name", .string "A"), ("members", .array [.object [("name", .string "B")]])]

/-- The second status is told by its text. -/
def Task.lateError : Error := .typeMismatch ⟨[.field "history", .index 1]⟩ "Status" "\"late\""

/-- The age is missing. -/
def Team.agelessError : Error := .missingField ⟨[.field "members", .index 0]⟩ "age"

/-- The age is taken as null. -/
def Team.nullAgeError : Error :=
  .typeMismatch ⟨[.field "members", .index 0, .field "age"]⟩ "u32" "null"

/-- A status that is none, an age that is missing, and the same age where it is taken as null. -/
theorem read_errors_truthful_late :
    ((sampleRegistry {}).ofTree Task.lateTree : Except Error Task) = .error Task.lateError ∧
    (sampleRegistry {}).Truthful enumNames (.message (.handle (Kind.type .task))) Task.lateTree
      Task.lateError ∧
    ((sampleRegistry {}).ofTree Team.agelessTree : Except Error Team) = .error Team.agelessError ∧
    (sampleRegistry {}).Truthful enumNames (.message (.handle (Kind.type .team)))
      Team.agelessTree Team.agelessError ∧
    ((sampleRegistry { missingFields := .treatAsNull }).ofTree Team.agelessTree :
      Except Error Team) = .error Team.nullAgeError ∧
    (sampleRegistry { missingFields := .treatAsNull }).Truthful enumNames
      (.message (.handle (Kind.type .team))) Team.agelessTree Team.nullAgeError := by
  have hlate : ((sampleRegistry {}).ofTree Task.lateTree : Except Error Task) =
      .error Task.lateError := by cbv
  have hmissing : ((sampleRegistry {}).ofTree Team.agelessTree : Except Error Team) =
      .error Team.agelessError := by cbv
  have hnull : ((sampleRegistry { missingFields := .treatAsNull }).ofTree Team.agelessTree :
      Except Error Team) = .error Team.nullAgeError := by cbv
  obtain ⟨_, _, _, hteam, _, _, _, _, _, htask⟩ := read_errors_truthful {}
  obtain ⟨_, _, _, hteam', _⟩ := read_errors_truthful { missingFields := .treatAsNull }
  exact ⟨hlate, htask _ _ hlate, hmissing, hteam _ _ hmissing, hnull, hteam' _ _ hnull⟩

end Missive.Sample
