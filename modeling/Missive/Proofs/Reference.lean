import Mathlib
import Missive.Proofs.Failure
import Missive.Proofs.RoundTrip
import Missive.Proofs.Sample.Factories

/-!
# References by name and by handle

A reference by a bound name leads to the type that the name is bound to, and so does the handle of
that type. A registry in whose tables some bound names are replaced by such handles decodes every
tree to the same outcome, however deep the references stand.

* `Registry.Settles`: one descriptor is another one in which bound names may be replaced.
* `Registry.SettledBy`: one registry is another one in whose tables bound names may be replaced,
  each reference for itself. `Registry.settle` replaces them all.
* `Registry.SettledBy.decodeAt`: the two registries decode alike.
* `Registry.unpackNamed_eq`: what a text holds as the type of a name, it holds as that type.
-/

namespace Missive

open List (Forall₂)
open Outcome

/-- The factory builds instances of `α` and no others. -/
def TypeEntry.BuildsOwn {μ : Type} (α : Type) [MessageClass μ α]
    (entry : TypeEntry (Factory (Except Error) μ)) : Prop :=
  ∃ create : Fields μ → Except Error α, ∀ fields,
    entry.factory fields = MessageClass.wrap <$> create fields

namespace Registry

open Sample (Kind entryOf foo sampleRegistry)

section Settling

variable {φ : Type} {R R' : Registry φ}

/-- The second reference is the first one, or the handle of the type that its name is bound to. -/
inductive SettlesRef (R : Registry φ) : TypeRef → TypeRef → Prop
  | refl (target : TypeRef) : SettlesRef R target target
  | bound {name : String} {type : MessageType} (hn : R.lookupByName name = .ok type) :
      SettlesRef R (.named name) (.handle type)

/-- The second descriptor is the first one, in which a bound name may be replaced. -/
inductive Settles (R : Registry φ) : Descriptor → Descriptor → Prop
  | primitive : Settles R .primitive .primitive
  | message {target target' : TypeRef} (h : R.SettlesRef target target') :
      Settles R (.message target) (.message target')
  | array {element element' : Descriptor} (h : Settles R element element') :
      Settles R (.array element) (.array element')

theorem Settles.refl (d : Descriptor) : R.Settles d d := by
  induction d with
  | primitive => exact .primitive
  | message target => exact .message (.refl target)
  | array element ih => exact .array ih

/-- The second field is the first one, in whose type a bound name may be replaced. -/
structure SettlesField (R : Registry φ) (spec spec' : FieldSpec) : Prop where
  name : spec'.name = spec.name
  type : R.Settles spec.type spec'.type
  nullable : spec'.nullable = spec.nullable

/-- The second entry is the first one, in whose table bound names may be replaced. -/
structure SettlesEntry (R : Registry φ) (entry entry' : TypeEntry φ) : Prop where
  specs : Forall₂ R.SettlesField entry.fields.specs entry'.fields.specs
  factory : entry'.factory = entry.factory

/-- The second registry is the first one, in whose tables bound names may be replaced. -/
structure SettledBy (R R' : Registry φ) : Prop where
  types : Forall₂ (fun x x' => x'.1 = x.1 ∧ R.SettlesEntry x.2 x'.2) R.types R'.types
  names : R'.names = R.names
  options : R'.options = R.options

theorem SettledBy.refl (R : Registry φ) : R.SettledBy R where
  types := by
    refine List.forall₂_same.2 fun x _ => ⟨rfl, ?_, rfl⟩
    exact List.forall₂_same.2 fun spec _ => ⟨rfl, .refl spec.type, rfl⟩
  names := rfl
  options := rfl

/-! ## What is looked up -/

theorem SettlesEntry.names {entry entry' : TypeEntry φ} (h : R.SettlesEntry entry entry') :
    entry'.fields.names = entry.fields.names :=
  map_eq_map_of_forall₂ (h.specs.imp fun _ _ hs => hs.name)

theorem SettledBy.resolve (h : R.SettledBy R') {target target' : TypeRef}
    (ht : R.SettlesRef target target') : R'.resolve target' = R.resolve target := by
  cases ht with
  | refl =>
    cases target with
    | named name => simp only [Registry.resolve, lookupByName, h.names]
    | handle type => rfl
  | bound hn => exact hn.symm

/-- A reference leads to an entry in both registries, or fails in both in the same way. -/
theorem SettledBy.follow (h : R.SettledBy R') {target target' : TypeRef}
    (ht : R.SettlesRef target target') :
    (∃ e, R.follow target = .error e ∧ R'.follow target' = .error e) ∨
    ∃ entry entry', R.follow target = .ok entry ∧ R'.follow target' = .ok entry' ∧
      R.SettlesEntry entry entry' := by
  simp only [Registry.follow, h.resolve ht]
  rcases R.resolve target with e | type
  · exact .inl ⟨e, rfl, rfl⟩
  · simp only [ok_bind, Registry.entry]
    rcases Tree.lookup_forall₂ h.types type with ⟨hl, hl'⟩ | ⟨entry, entry', hl, hl', he⟩
    · exact .inl ⟨.unknownType type, by rw [hl], by rw [hl']⟩
    · exact .inr ⟨entry, entry', by rw [hl], by rw [hl'], he⟩

/-! ## Replacing them all -/

/-- The handle of the type that the name is bound to, if it is bound. -/
def settleRef (R : Registry φ) : TypeRef → TypeRef
  | .named name =>
    match R.lookupByName name with
    | .ok type => .handle type
    | .error _ => .named name
  | .handle type => .handle type

/-- The descriptor with a handle in place of a bound name. -/
def settleType (R : Registry φ) : Descriptor → Descriptor
  | .primitive => .primitive
  | .message target => .message (R.settleRef target)
  | .array element => .array (R.settleType element)

/-- The table with handles in place of all bound names. -/
def settleTable (R : Registry φ) (table : FieldTable) : FieldTable where
  specs := table.specs.map fun spec => { spec with type := R.settleType spec.type }

/-- The registry with handles in place of all bound names. -/
def settle (R : Registry φ) : Registry φ :=
  { R with types := R.types.map fun (type, entry) =>
      (type, { entry with fields := R.settleTable entry.fields }) }

theorem settlesRef_settleRef (R : Registry φ) (target : TypeRef) :
    R.SettlesRef target (R.settleRef target) := by
  cases target with
  | named name =>
    rw [settleRef]
    split
    · next hn => exact .bound hn
    · exact .refl _
  | handle type => exact .refl _

theorem settles_settleType (R : Registry φ) (d : Descriptor) : R.Settles d (R.settleType d) := by
  induction d with
  | primitive => exact .primitive
  | message target => exact .message (R.settlesRef_settleRef target)
  | array element ih => exact .array ih

theorem settledBy_settle (R : Registry φ) : R.SettledBy R.settle where
  types := by
    refine List.forall₂_map_right_iff.2 (List.forall₂_same.2 fun x _ => ⟨rfl, ?_, rfl⟩)
    refine List.forall₂_map_right_iff.2 (List.forall₂_same.2 fun spec _ => ⟨rfl, ?_, rfl⟩)
    exact R.settles_settleType spec.type
  names := rfl
  options := rfl

end Settling

/-! ## Decoding -/

section Decoding

variable {μ : Type} {R R' : Registry (Factory (Except Error) μ)} {path : Path} {depth : UInt32}

/-- Which key is denied depends on the declared names only. -/
theorem SettledBy.deniedKey? (h : R.SettledBy R')
    {entry entry' : TypeEntry (Factory (Except Error) μ)} (he : R.SettlesEntry entry entry')
    (members : List (String × Tree)) :
    R'.deniedKey? entry'.fields members = R.deniedKey? entry.fields members := by
  have hdeclared (key : String) :
      (entry'.fields.get? key).isNone = (entry.fields.get? key).isNone := by
    rw [Bool.eq_iff_iff, Option.isNone_iff_eq_none, Option.isNone_iff_eq_none,
      FieldTable.get?_eq_none_iff, FieldTable.get?_eq_none_iff, he.names]
  simp only [Registry.deniedKey?, unknownKey?, h.options, hdeclared]

/-- One level further down, the two registries decode alike. -/
def DecodesAlikeBelow (R R' : Registry (Factory (Except Error) μ)) (depth : UInt32) : Prop :=
  ∀ path t d d', R.Settles d d' →
    R'.decodeAt path (depth + 1) t d' = R.decodeAt path (depth + 1) t d

theorem SettledBy.decodeField (h : R.SettledBy R') (hbelow : R.DecodesAlikeBelow R' depth)
    {spec spec' : FieldSpec} (hs : R.SettlesField spec spec') (members : List (String × Tree)) :
    R'.decodeField path depth members spec' = R.decodeField path depth members spec := by
  have habsent : allowsAbsent R'.options spec' = allowsAbsent R.options spec := by
    rw [allowsAbsent, hs.nullable, h.options, allowsAbsent]
  simp only [Registry.decodeField, hs.name, habsent, hbelow _ _ _ _ hs.type]

theorem SettledBy.decodeObject (h : R.SettledBy R') (hbelow : R.DecodesAlikeBelow R' depth)
    {entry entry' : TypeEntry (Factory (Except Error) μ)} (he : R.SettlesEntry entry entry')
    (members : List (String × Tree)) :
    R'.decodeObject path depth entry' members = R.decodeObject path depth entry members := by
  have hfields : entry'.fields.specs.mapM (R'.decodeField path depth members) =
      entry.fields.specs.mapM (R.decodeField path depth members) :=
    mapM_eq_mapM_of_forall₂ (he.specs.imp fun _ _ hs => h.decodeField hbelow hs members)
  simp only [Registry.decodeObject, h.deniedKey? he, hfields, he.factory]

theorem SettledBy.decodeTarget (h : R.SettledBy R') (hbelow : R.DecodesAlikeBelow R' depth)
    {target target' : TypeRef} (ht : R.SettlesRef target target') (t : Tree) :
    R'.decodeTarget path depth t target' = R.decodeTarget path depth t target := by
  unfold Registry.decodeTarget
  rw [← bind_assoc, ← bind_assoc]
  change R'.follow target' >>= _ = R.follow target >>= _
  rcases h.follow ht with ⟨e, hf, hf'⟩ | ⟨entry, entry', hf, hf', he⟩
  · rw [hf, hf']
    rfl
  · rw [hf, hf', ok_bind, ok_bind]
    cases t with
    | object members => exact h.decodeObject hbelow he members
    | _ => rfl

/-- Wherever bound names are replaced by the handles that they are bound to, decoding has the same
    outcome. -/
theorem SettledBy.decodeAt (h : R.SettledBy R') {d d' : Descriptor} (hd : R.Settles d d')
    (path : Path) (depth : UInt32) (t : Tree) :
    R'.decodeAt path depth t d' = R.decodeAt path depth t d := by
  by_cases ht : t = .null
  · rw [ht, decodeAt_null, decodeAt_null]
  have ht : t.isNull = false := isNull_eq_false_iff.2 ht
  have hdeep : R'.tooDeep = R.tooDeep := by rw [tooDeep, h.options, tooDeep]
  cases hd with
  | primitive =>
    rw [decodeAt_primitive ht, decodeAt_primitive ht, allowsLeaf, h.options, hdeep, allowsLeaf]
  | message htarget =>
    rw [decodeAt_message ht, decodeAt_message ht, h.options, hdeep]
    split
    · next hlt =>
      exact h.decodeTarget (fun path t d d' hd => h.decodeAt hd path (depth + 1) t) htarget t
    · rfl
  | @array element element' helement =>
    rw [decodeAt_array ht, decodeAt_array ht, h.options, hdeep]
    split
    · next hlt =>
      have hitem (path : Path) (t : Tree) := h.decodeAt helement path (depth + 1) t
      simp only [decodeItems, hitem]
    · rfl
termination_by R.options.maxDepth.toNat - depth.toNat
decreasing_by all_goals exact depth_decreasing (by assumption)

/-- A name that is bound to a type leads where the handle of the type leads. -/
theorem decode_named {name : String} {type : MessageType} (hn : R.lookupByName name = .ok type)
    (t : Tree) : R.decode t (.message (.named name)) = R.decode t (.message (.handle type)) :=
  ((SettledBy.refl R).decodeAt (.message (.bound hn)) .root 0 t).symm

end Decoding

/-! ## Unpacking -/

section Unpacking

variable {μ α : Type} [Message μ] [MessageClass μ α] {R : Registry (Factory (Except Error) μ)}
  {entry : TypeEntry (Factory (Except Error) μ)} {t : Tree}

omit [Message μ] in
/-- A factory of a type of its own builds instances of that type. -/
theorem exists_of_decode (he : R.entry (MessageClass.handle μ α) = .ok entry)
    (hf : entry.BuildsOwn α) (ht : t ≠ .null) {v : Value μ}
    (h : R.decode t (.message (.handle (MessageClass.handle μ α))) = .ok v) :
    ∃ a : α, v = .message (MessageClass.wrap a) := by
  have ht : t.isNull = false := isNull_eq_false_iff.2 ht
  obtain ⟨_, members, type, entry', entries, m, _, rfl, hr, he', _, _, hm⟩ :=
    decodeAt_message_eq_ok ht h
  cases hr
  cases he.symm.trans he'
  obtain ⟨create, hcreate⟩ := hf
  rw [hcreate] at hm
  rcases hc : create { path := .root, entries } with e | a
  · rw [hc] at hm
    cases hm
  · rw [hc] at hm
    cases hm
    exact ⟨a, rfl⟩

/-- What a text holds as the type of a name, it holds as that type. -/
theorem unpackNamed_eq [LawfulMessageClass μ α] {name text : String}
    (hn : R.lookupByName name = .ok (MessageClass.handle μ α))
    (he : R.entry (MessageClass.handle μ α) = .ok entry) (hf : entry.BuildsOwn α)
    (ht : Tree.parse text ≠ .ok .null) :
    R.unpackNamed name text = MessageClass.wrap <$> (R.unpack text : Except Error α) := by
  simp only [unpackNamed, unpack, ofTree, ofExcept_eq, decode_named hn]
  rcases hp : Tree.parse text with e | t
  · rfl
  · rw [hp] at ht
    simp only [ok_bind]
    rcases hv : R.decode t (.message (.handle (MessageClass.handle μ α))) with e | v
    · rfl
    · obtain ⟨a, rfl⟩ := exists_of_decode he hf (fun h => ht (h ▸ rfl)) hv
      have ha : convertRoot (.message (MessageClass.wrap a : μ)) = .ok a :=
        convertRoot_of_converts (converts_of_view rfl)
      simp only [ok_bind, ha]
      rfl

end Unpacking

/-- A bound name may be replaced, wherever it is referred to, by the handle of the type that it is
    bound to: in any of the tables of a registry, and in the descriptor, decoding has the same
    outcome. So if that type is registered with a factory of its own, a text holds under the name
    the same instance as under the type, or the error is the same; but a null, which is no message,
    is refused as no message under the name and as none of the type under the type. -/
theorem references_interchangeable {μ : Type} [Message μ]
    (R : Registry (Factory (Except Error) μ)) :
    (∀ R', R.SettledBy R' → ∀ t d d', R.Settles d d' → R'.decode t d' = R.decode t d) ∧
    ∀ (α : Type) [MessageClass μ α] [LawfulMessageClass μ α] name entry,
      R.lookupByName name = .ok (MessageClass.handle μ α) →
      R.entry (MessageClass.handle μ α) = .ok entry → entry.BuildsOwn α → ∀ text,
      (Tree.parse text ≠ .ok .null →
        R.unpackNamed name text = MessageClass.wrap <$> (R.unpack text : Except Error α)) ∧
      (Tree.parse text = .ok .null →
        R.unpackNamed name text = .error (.typeMismatch .root "message" "null") ∧
        (R.unpack text : Except Error α) =
          .error (.typeMismatch .root (MessageClass.handle μ α).name "null")) := by
  refine ⟨fun R' h t d d' hd => h.decodeAt hd .root 0 t, ?_⟩
  intro α _ _ name entry hn he hf text
  refine ⟨unpackNamed_eq hn he hf, fun ht => ⟨?_, ?_⟩⟩
  · rw [unpackNamed, ht, ofExcept_eq, ok_bind, decode, decodeAt_null]
    rfl
  · rw [unpack, ht, ofExcept_eq, ok_bind, ofTree, decode, decodeAt_null]
    rfl

/-- With handles in place of the names, the rows of a foo are found as before; and a foo is unpacked
    under its name as under its type, unless the text is null. -/
theorem references_interchangeable_foo :
    (sampleRegistry {}).settle.decode (.object [("bar", .array [.array []])])
      (.message (.handle (Kind.type .foo))) = .ok (.message (.foo ⟨none, [[]]⟩)) ∧
    (sampleRegistry {}).unpackNamed "Foo" "\x7b\"bar\":[]\x7d" = .ok (.foo ⟨none, []⟩) ∧
    (sampleRegistry {}).unpackNamed "Foo" "null" =
      .error (.typeMismatch .root "message" "null") := by
  have hvalue : (sampleRegistry {}).decode (.object [("bar", .array [.array []])])
      (.message (.named "Foo")) = .ok (.message (.foo ⟨none, [[]]⟩)) := by cbv
  have htext : (Tree.object [("bar", .array [])]).text .compact = "\x7b\"bar\":[]\x7d" := by cbv
  have hnull : Tree.null.text .compact = "null" := by cbv
  have hexact : (Tree.object [("bar", .array [])]).Exact := ⟨by decide, trivial, trivial⟩
  have hfoo : (sampleRegistry {}).ofTree (.object [("bar", .array [])]) =
      .ok (⟨none, []⟩ : Sample.Foo) := by cbv
  have hown : (entryOf foo).BuildsOwn Sample.Foo :=
    ⟨fun fields => (Sample.Foo.create.run.run fields).1, fun fields => ofExcept_eq _⟩
  obtain ⟨hdecode, hunpack⟩ := references_interchangeable (sampleRegistry {})
  have hnamed := hunpack Sample.Foo "Foo" (entryOf foo) rfl rfl hown
  refine ⟨?_, ?_, ?_⟩
  · exact (hdecode _ (settledBy_settle _) _ _ _ (.message (.bound rfl))).trans hvalue
  · rw [← htext, (hnamed _).1, unpack_text _ _ hexact, if_pos (by decide), hfoo]
    · rfl
    · rw [parse_text _ hexact, if_pos (by decide)]
      simp
  · refine ((hnamed "null").2 ?_).1
    rw [← hnull, parse_text _ (by trivial), if_pos (by decide)]

end Registry

end Missive
