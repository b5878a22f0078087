import Mathlib
import Missive.Proofs.Reencoding
import Missive.Proofs.Sample.Factories

/-!
# Encoding what was decoded: sample messages

The sample types without floats and trees refer to each other only, and their factories are
faithful. So whatever tree a message of one of these types is read from, it is encoded to the
canonical form of that tree.
-/

namespace Missive.Sample

/-- The definitions of the types whose fields are integers, strings, enumerations and messages of
    one of these types. -/
def plainDefinitions : List (Definition (Factory (Except Error) Instance)) :=
  [bar, foo, treeNode, team, person, task]

/-- The types of the plain definitions. -/
abbrev IsPlainType (type : MessageType) : Prop := type ∈ plainDefinitions.map (·.type)

theorem faithful_plain : ∀ d ∈ plainDefinitions, (entryOf d).Faithful d.type := by
  simp only [plainDefinitions, List.forall_mem_cons]
  exact ⟨faithful_bar, faithful_foo, faithful_treeNode, faithful_team, faithful_person,
    faithful_task, fun _ h => absurd h List.not_mem_nil⟩

/-- Whether the reference leads to the type of a plain definition. -/
def leadsToPlain : TypeRef → Bool
  | .named name => (boundNames.lookup name).any fun type => IsPlainType type
  | .handle type => IsPlainType type

section Closed

variable {o : Options}

/-- Such a reference is resolved to a plain type in the sample registry. -/
theorem isPlainType_of_resolve {target : TypeRef} {type : MessageType}
    (ht : leadsToPlain target = true) (h : (sampleRegistry o).resolve target = .ok type) :
    IsPlainType type := by
  cases target with
  | handle type =>
    cases h
    exact of_decide_eq_true ht
  | named name =>
    rw [sampleRegistry_eq, Registry.resolve, Registry.lookupByName] at h
    dsimp only at h
    split at h
    · next hl =>
      cases h
      rw [leadsToPlain, hl] at ht
      exact of_decide_eq_true ht
    · cases h

theorem entry_plain :
    ∀ d ∈ plainDefinitions, (sampleRegistry o).entry d.type = .ok (entryOf d) := by
  simp only [plainDefinitions, List.forall_mem_cons]
  refine ⟨?_, ?_, ?_, ?_, ?_, ?_, fun _ h => absurd h List.not_mem_nil⟩
  all_goals exact sampleRegistry_entry rfl

/-- The plain types refer to plain types only. -/
theorem refers_plain : ∀ d ∈ plainDefinitions, ∀ spec ∈ d.fields.specs,
    (sampleRegistry o).Refers IsPlainType spec.type := by
  have hall : ∀ d ∈ plainDefinitions, ∀ spec ∈ d.fields.specs,
      spec.type.reference?.all leadsToPlain = true := by decide
  intro d hd spec hs target type href hres
  have ht := hall d hd spec hs
  rw [href] at ht
  exact isPlainType_of_resolve ht hres

theorem faithfulOn_plain : (sampleRegistry o).FaithfulOn IsPlainType := by
  intro type entry htype he
  obtain ⟨d, hd, rfl⟩ := List.mem_map.1 htype
  cases he.symm.trans (entry_plain d hd)
  exact ⟨faithful_plain d hd, refers_plain d hd⟩

/-- What is decoded as a plain type is encoded again to its canonical form. -/
theorem reencodes_plain {α : Type} [MessageClass Instance α] [LawfulMessageClass Instance α]
    (htype : ∀ a : α, messageType (MessageClass.wrap a : Instance) = MessageClass.handle Instance α)
    (ht : IsPlainType (MessageClass.handle Instance α)) : (sampleRegistry o).Reencodes α :=
  Registry.reencodes_of_faithfulOn sampleRegistry_reachable.distinctFields faithfulOn_plain htype ht

end Closed

/-- Under faithful factories a decoded value is encoded to the canonical form of its tree. The
    plain factories are faithful, so this holds of the messages of these types. -/
theorem reencode_decoded :
    (∀ (μ : Type) [Message μ] (R : Registry (Factory (Except Error) μ)), R.Reachable →
      R.Faithful → ∀ t d v, R.decode t d = .ok v → R.encode v.view d = .ok (R.canon d t)) ∧
    (∀ d ∈ plainDefinitions, (entryOf d).Faithful d.type) ∧
    ∀ o : Options, (sampleRegistry o).Reencodes Bar ∧ (sampleRegistry o).Reencodes Foo ∧
      (sampleRegistry o).Reencodes TreeNode ∧ (sampleRegistry o).Reencodes Team ∧
      (sampleRegistry o).Reencodes Person ∧ (sampleRegistry o).Reencodes Task := by
  refine ⟨?_, faithful_plain, fun o => ?_⟩
  · intro μ _ R hR hf t d v h
    exact Registry.encodeAt_of_decodeAt hR.distinctFields hf.faithfulOn h
      (fun _ _ _ _ => trivial) .root
  · refine ⟨?_, ?_, ?_, ?_, ?_, ?_⟩
    all_goals exact reencodes_plain (fun _ => rfl) (by decide)

/-- The registry of the plain definitions alone. -/
def plainRegistry : Registry (Factory (Except Error) Instance) :=
  ((plainDefinitions.forM Registry.register).run.run {}).2

theorem plainRegistry_reachable : plainRegistry.Reachable :=
  Registry.Reaches.forM (fun d => .run (.register d)) _ _ (.empty {})

theorem plainRegistry_faithful : plainRegistry.Faithful := by
  have htypes : plainRegistry.types = plainDefinitions.map fun d => (d.type, entryOf d) := rfl
  intro type entry he
  rw [Registry.entry, htypes] at he
  split at he
  · next hl =>
    cases he
    obtain ⟨before, after, hsplit, _⟩ := List.lookup_eq_some_iff.1 hl
    have hmem : (type, entry) ∈ plainDefinitions.map fun d => (d.type, entryOf d) :=
      hsplit ▸ List.mem_append_right _ List.mem_cons_self
    obtain ⟨d, hd, heq⟩ := List.mem_map.1 hmem
    cases heq
    exact faithful_plain d hd
  · cases he

/-- A row of one message, with keys that are out of order, absent or not declared. -/
def Foo.looseTree : Tree :=
  .object [("bar", .array [.array [.object [("note", .bool true), ("y", .number (.natural 7))]]]),
    ("extra", .null)]

/-- What it is a spelling of. -/
def Foo.loose : Foo := ⟨none, [[⟨⟨7, by decide, by decide⟩⟩]]⟩

/-- The tree of the message. -/
def Foo.looseCanon : Tree :=
  .object [("x", .null), ("bar", .array [.array [.object [("y", .number (.natural 7))]]])]

/-- A loosely spelled message is decoded, and encoded to its canonical form. -/
theorem reencode_decoded_loose :
    plainRegistry.decode Foo.looseTree (.message (.named "Foo")) =
      .ok (.message (.foo Foo.loose)) ∧
    plainRegistry.encode (.message (Instance.foo Foo.loose)) (.message (.named "Foo")) =
      .ok Foo.looseCanon ∧
    (sampleRegistry {}).ofTree Foo.looseTree = .ok Foo.loose ∧
    (sampleRegistry {}).toTree (Instance.foo Foo.loose) = .ok Foo.looseCanon := by
  have hdecode : plainRegistry.decode Foo.looseTree (.message (.named "Foo")) =
      .ok (.message (.foo Foo.loose)) := by cbv
  have hread : (sampleRegistry {}).ofTree Foo.looseTree = .ok Foo.loose := by cbv
  have hcanon : plainRegistry.canon (.message (.named "Foo")) Foo.looseTree = Foo.looseCanon := by
    cbv
  have hcanon' : (sampleRegistry {}).canon (.message (.handle (Kind.type .foo))) Foo.looseTree =
      Foo.looseCanon := by cbv
  have hencode := reencode_decoded.1 Instance plainRegistry plainRegistry_reachable
    plainRegistry_faithful _ _ _ hdecode
  have hwrite := (reencode_decoded.2.2 {}).2.1 _ _ hread
  exact ⟨hdecode, hencode.trans (congrArg _ hcanon), hread, hwrite.trans (congrArg _ hcanon')⟩

end Missive.Sample
