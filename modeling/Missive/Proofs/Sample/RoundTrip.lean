import Mathlib
import Missive.Proofs.Sample.Families

/-!
# Round trips of sample messages

Every registered sample message comes back from the tree that is made of it, whatever the options
are. Of drawings this is said if they show circles only: under the name `Shape` a square would be
read as a circle.
-/

namespace Missive.Sample

variable {o : Options}

theorem roundTrips_of_regular {α : Type} [MessageClass Instance α] [LawfulMessageClass Instance α]
    {a : α} (ha : (MessageClass.wrap a : Instance).Regular)
    (htype : messageType (MessageClass.wrap a : Instance) = MessageClass.handle Instance α) :
    (sampleRegistry o).RoundTrips a :=
  Registry.roundTrips_of_covers sampleRegistry_reachable.distinctFields covers_regular
    (fun _ h => h) ha htype

/-- What is encoded to a tree is decoded to itself, for all types and under all options. -/
theorem tree_round_trip (o : Options) :
    (∀ m : Bar, (sampleRegistry o).RoundTrips m) ∧
    (∀ m : Foo, (sampleRegistry o).RoundTrips m) ∧
    (∀ m : TreeNode, (sampleRegistry o).RoundTrips m) ∧
    (∀ m : Team, (sampleRegistry o).RoundTrips m) ∧
    (∀ m : Person, (sampleRegistry o).RoundTrips m) ∧
    (∀ m : Reading, (sampleRegistry o).RoundTrips m) ∧
    (∀ m : Circle, (sampleRegistry o).RoundTrips m) ∧
    (∀ m : Square, (sampleRegistry o).RoundTrips m) ∧
    (∀ m : Task, (sampleRegistry o).RoundTrips m) ∧
    (∀ m : Drawing, (∀ shape ∈ m.shapes, ∃ c, shape = .circle c) →
      (sampleRegistry o).RoundTrips m) := by
  refine ⟨?_, ?_, ?_, ?_, ?_, ?_, ?_, ?_, ?_, ?_⟩
  case refine_10 => exact fun m hm => roundTrips_of_regular hm rfl
  all_goals exact fun m => roundTrips_of_regular trivial rfl

/-- The tree of the two rows of two messages. -/
def Foo.scenarioTree : Tree :=
  .object [("x", .null), ("bar", .array [
    .array [.object [("y", .number (.natural 71))], .object [("y", .number (.natural 72))]],
    .array [.object [("y", .number (.natural 41))], .object [("y", .number (.natural 42))]]])]

/-- Two rows of messages go to a tree and come back, and so does a drawing of a circle. -/
theorem tree_round_trip_scenario :
    (sampleRegistry {}).toTree (Instance.foo Foo.scenario) = .ok Foo.scenarioTree ∧
    (sampleRegistry {}).ofTree Foo.scenarioTree = .ok Foo.scenario ∧
    (sampleRegistry {}).RoundTrips (Drawing.mk [.circle ⟨1⟩]) := by
  have h : (sampleRegistry {}).toTree (Instance.foo Foo.scenario) = .ok Foo.scenarioTree := by cbv
  obtain ⟨_, hfoo, _, _, _, _, _, _, _, hdrawing⟩ := tree_round_trip {}
  exact ⟨h, hfoo _ _ h, hdrawing _ (List.forall_mem_singleton.2 ⟨_, rfl⟩)⟩

end Missive.Sample
