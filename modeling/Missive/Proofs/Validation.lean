import Mathlib
import Missive.Proofs.Depth
import Missive.Proofs.Failure

/-!
# Dangling references

A reference dangles if it leads to no registered type. Validation finds out whether there is one:
if it succeeds, decoding meets none, however deep it goes; and if it fails, there is a tree that
leads decoding to one.

* `Registry.Closed`: no table and no bound name has a dangling reference. This is what validation
  checks (`Registry.validate_eq_ok_iff`).
* `Registry.Dangles`: the errors of dangling references, one of which validation reports if it fails
  (`Registry.dangles_of_validate`).
* `Registry.Closed.not_isDangling`: under such a registry no decoding fails by a reference.
* `Registry.decode_probeTable`: the tree that leads to a dangling reference of a table.
-/

namespace Missive

open Outcome

/-- The error of a dangling reference. -/
def Error.IsDangling : Error → Prop
  | unknownType _ | unknownTypeName _ => True
  | _ => False

namespace Descriptor

/-- How many arrays stand around what is innermost. -/
def arrays : Descriptor → Nat
  | primitive | message _ => 0
  | array element => element.arrays + 1

/-- A tree that leads decoding to what is innermost. -/
def probe : Descriptor → Tree
  | primitive | message _ => .object []
  | array element => .array [element.probe]

end Descriptor

namespace FieldTable

/-- The members of an object that leads decoding to one of the declared fields, past all others. -/
def probe (table : FieldTable) (name : String) : List (String × Tree) :=
  table.sole name fun spec => spec.type.probe

end FieldTable

namespace Registry

section References

variable {φ : Type} {R : Registry φ} {target : TypeRef}

/-- The name is bound, or the handle is that of a registered type. -/
def Knows (R : Registry φ) : TypeRef → Prop
  | .named name => (R.names.lookup name).isSome = true
  | .handle type => R.contains type = true

/-- Each reference of a table, and each type that a name is bound to, is registered. -/
structure Closed (R : Registry φ) : Prop where
  tables : ∀ x ∈ R.types, ∀ spec ∈ x.2.fields.specs, ∀ target,
    spec.type.reference? = some target → ∃ entry, R.follow target = .ok entry
  names : ∀ x ∈ R.names, ∃ entry, R.entry x.2 = .ok entry

theorem isDangling_of_entry {type : MessageType} {e : Error} (h : R.entry type = .error e) :
    e.IsDangling := by
  unfold entry at h
  split at h <;> cases h
  trivial

theorem isDangling_of_follow {e : Error} (h : R.follow target = .error e) : e.IsDangling := by
  rcases bind_eq_error_iff.1 h with hr | ⟨type, _, he⟩
  · cases target with
    | named name =>
      change R.lookupByName name = .error e at hr
      unfold lookupByName at hr
      split at hr <;> cases hr
      trivial
    | handle type => cases hr
  · exact isDangling_of_entry he

/-! ## What validation checks -/

theorem discard_eq_ok_iff {α : Type} {x : Except Error α} :
    discard x = .ok () ↔ ∃ a, x = .ok a := by
  cases x with
  | error e =>
    constructor
    · intro h; cases h
    · rintro ⟨_, h⟩; cases h
  | ok a => exact ⟨fun _ => ⟨a, rfl⟩, fun _ => rfl⟩

theorem checkReference_eq_ok_iff :
    R.checkReference target = .ok () ↔ ∃ entry, R.follow target = .ok entry := by
  unfold checkReference
  rw [bind_eq_ok_iff]
  constructor
  · rintro ⟨type, hr, he⟩
    obtain ⟨entry, he⟩ := discard_eq_ok_iff.1 he
    exact ⟨entry, follow_eq_ok_iff.2 ⟨type, hr, he⟩⟩
  · rintro ⟨entry, h⟩
    obtain ⟨type, hr, he⟩ := follow_eq_ok_iff.1 h
    exact ⟨type, hr, discard_eq_ok_iff.2 ⟨entry, he⟩⟩

theorem checkTable_eq_ok_iff {table : FieldTable} :
    R.checkTable table = .ok () ↔ ∀ spec ∈ table.specs, ∀ target,
      spec.type.reference? = some target → ∃ entry, R.follow target = .ok entry := by
  unfold checkTable
  rw [forM_eq_ok_iff]
  refine forall₂_congr fun spec _ => ?_
  cases spec.type.reference? with
  | none => exact ⟨fun _ _ h => (by cases h), fun _ => rfl⟩
  | some target =>
    change R.checkReference target = .ok () ↔ _
    rw [checkReference_eq_ok_iff]
    constructor
    · rintro h _ ⟨⟩
      exact h
    · exact fun h => h target rfl

/-- Validation succeeds iff no reference dangles. -/
theorem validate_eq_ok_iff : R.validate = .ok () ↔ R.Closed := by
  unfold validate
  rw [bind_eq_ok_iff]
  constructor
  · rintro ⟨_, htypes, hnames⟩
    rw [forM_eq_ok_iff] at htypes hnames
    exact ⟨fun x hx => checkTable_eq_ok_iff.1 (htypes x hx),
      fun x hx => discard_eq_ok_iff.1 (hnames x hx)⟩
  · intro h
    exact ⟨(), forM_eq_ok_iff.2 fun x hx => checkTable_eq_ok_iff.2 (h.tables x hx),
      forM_eq_ok_iff.2 fun x hx => discard_eq_ok_iff.2 (h.names x hx)⟩

/-- The error of a reference of a table, or of a bound name, that leads to no registered type. -/
inductive Dangles (R : Registry φ) : Error → Prop
  | table {x : MessageType × TypeEntry φ} {spec : FieldSpec} {target : TypeRef} {e : Error}
      (hx : x ∈ R.types) (hs : spec ∈ x.2.fields.specs) (ht : spec.type.reference? = some target)
      (he : R.follow target = .error e) : Dangles R e
  | name {x : String × MessageType} {e : Error} (hx : x ∈ R.names) (he : R.entry x.2 = .error e) :
      Dangles R e

theorem discard_eq_error {α : Type} {x : Except Error α} {e : Error} (h : discard x = .error e) :
    x = .error e := by
  cases x with
  | error e' => cases h; rfl
  | ok a => cases h

/-- If validation fails, it names a reference that dangles. -/
theorem dangles_of_validate {e : Error} (h : R.validate = .error e) : R.Dangles e := by
  rcases bind_eq_error_iff.1 h with htypes | ⟨_, _, hnames⟩
  · obtain ⟨x, hx, htable⟩ := forM_eq_error htypes
    obtain ⟨spec, hs, hspec⟩ := forM_eq_error htable
    cases ht : spec.type.reference? with
    | none =>
      rw [ht] at hspec
      cases hspec
    | some target =>
      rw [ht] at hspec
      refine .table hx hs ht ?_
      rcases bind_eq_error_iff.1 hspec with hr | ⟨type, hr, he⟩
      · exact bind_eq_error_iff.2 (.inl hr)
      · exact bind_eq_error_iff.2 (.inr ⟨type, hr, discard_eq_error he⟩)
  · obtain ⟨x, hx, he⟩ := forM_eq_error hnames
    exact .name hx (discard_eq_error he)

end References

variable {μ : Type} {R : Registry (Factory (Except Error) μ)}

/-! ## Soundness -/

/-- The factories do not report dangling references of their own. -/
def FactoriesResolve (R : Registry (Factory (Except Error) μ)) : Prop :=
  ∀ x ∈ R.types, ∀ fields e, x.2.factory fields = .error e → ¬ e.IsDangling

theorem mem_types_of_follow {φ : Type} {R : Registry φ} {target : TypeRef} {entry : TypeEntry φ}
    (h : R.follow target = .ok entry) : ∃ type, (type, entry) ∈ R.types := by
  obtain ⟨type, _, he⟩ := follow_eq_ok_iff.1 h
  exact ⟨type, Tree.mem_of_lookup (entry_eq_ok_iff.1 he)⟩

theorem Closed.follow_of_knows {φ : Type} {R : Registry φ} (h : R.Closed) {target : TypeRef}
    (hk : R.Knows target) : ∃ entry, R.follow target = .ok entry := by
  cases target with
  | named name =>
    obtain ⟨type, hl⟩ := Option.isSome_iff_exists.1 hk
    obtain ⟨entry, he⟩ := h.names _ (Tree.mem_of_lookup hl)
    exact ⟨entry, follow_eq_ok_iff.2 ⟨type, lookupByName_eq_ok_iff.2 hl, he⟩⟩
  | handle type =>
    obtain ⟨entry, hl⟩ := Option.isSome_iff_exists.1 hk
    exact ⟨entry, follow_eq_ok_iff.2 ⟨type, rfl, entry_eq_ok_iff.2 hl⟩⟩

/-- Where no reference dangles, no decoding fails by one. -/
theorem Closed.not_isDangling (hc : R.Closed) (hf : R.FactoriesResolve) {path : Path}
    {depth : UInt32} {t : Tree} {d : Descriptor} {e : Error} (h : R.Fails path depth t d e)
    (hd : ∀ target, d.reference? = some target → ∃ entry, R.follow target = .ok entry) :
    ¬ e.IsDangling := by
  induction h with
  | reference hr =>
    obtain ⟨entry, he⟩ := hd _ rfl
    cases hr.symm.trans he
  | field _ hr hs _ _ ih =>
    obtain ⟨type, hmem⟩ := mem_types_of_follow hr
    exact ih (hc.tables _ hmem _ hs)
  | factory hr _ he =>
    obtain ⟨type, hmem⟩ := mem_types_of_follow hr
    exact hf _ hmem _ _ he
  | item _ _ _ ih => exact ih hd
  | _ => exact id

/-! ## Completeness -/

/-- Through the arrays of a descriptor, decoding gets to the reference that dangles. -/
theorem decodeAt_probe {d : Descriptor} {target : TypeRef} {e : Error}
    (ht : d.reference? = some target) (hf : R.follow target = .error e) {path : Path}
    {depth : UInt32} (hd : depth.toNat + d.arrays < R.options.maxDepth.toNat) :
    R.decodeAt path depth d.probe d = .error e := by
  induction d generalizing path depth with
  | primitive => cases ht
  | message target =>
    cases ht
    rw [Descriptor.probe, decodeAt_message rfl, if_pos (UInt32.lt_iff_toNat_lt.2 hd), decodeTarget,
      ← bind_assoc]
    exact bind_eq_error_iff.2 (.inl hf)
  | array element ih =>
    rw [Descriptor.arrays] at hd
    have hlt : depth < R.options.maxDepth := UInt32.lt_iff_toNat_lt.2 (by omega)
    rw [Descriptor.probe, decodeAt_array rfl, if_pos hlt]
    exact decodeItems_singleton (ih ht (by rw [toNat_next hlt]; omega))

/-- Past the other fields, decoding gets to the field whose reference dangles. -/
theorem decode_probeTable {type : MessageType} {entry : TypeEntry (Factory (Except Error) μ)}
    (he : R.entry type = .ok entry) (hn : entry.fields.names.Nodup) {spec : FieldSpec}
    (hs : spec ∈ entry.fields.specs) {target : TypeRef} {e : Error}
    (ht : spec.type.reference? = some target) (hf : R.follow target = .error e)
    (hd : spec.type.arrays + 2 ≤ R.options.maxDepth.toNat) :
    R.decode (.object (entry.fields.probe spec.name)) (.message (.handle type)) = .error e := by
  have hlt : (0 : UInt32) < R.options.maxDepth :=
    UInt32.lt_iff_toNat_lt.2 (by change 0 < _; omega)
  have hnext : (0 + 1 : UInt32).toNat + spec.type.arrays < R.options.maxDepth.toNat := by
    change 1 + _ < _
    omega
  rw [decode, decodeAt_message rfl, if_pos hlt, decodeTarget_object rfl he]
  exact decodeObject_sole hn hs (decodeAt_probe ht hf hnext)

/-- A bound name whose type is not registered is a dangling reference of its own. -/
theorem decode_probeName {name : String} {type : MessageType} {e : Error}
    (hl : R.names.lookup name = some type) (he : R.entry type = .error e)
    (hd : 0 < R.options.maxDepth.toNat) :
    R.decode (.object []) (.message (.named name)) = .error e := by
  have hf : R.follow (.named name) = .error e := by
    refine bind_eq_error_iff.2 (.inr ⟨type, ?_, he⟩)
    rw [resolve, lookupByName, hl]
  exact decodeAt_probe (d := .message (.named name)) rfl hf (by simpa [Descriptor.arrays] using hd)

/-- If a reference dangles, there is a tree that leads decoding to one, from a type that is
    registered or named. -/
theorem exists_dangling (hR : R.Reachable) (hc : ¬ R.Closed)
    (hd : 2 ≤ R.options.maxDepth.toNat) (ha : ∀ x ∈ R.types, ∀ spec ∈ x.2.fields.specs,
      spec.type.arrays + 2 ≤ R.options.maxDepth.toNat) :
    ∃ target t e, R.Knows target ∧ R.decode t (.message target) = .error e ∧ e.IsDangling := by
  -- Were there no such tree, each reference would lead somewhere.
  by_contra hnone
  refine hc ⟨fun x hx spec hs target ht => ?_, fun x hx => ?_⟩
  · cases hf : R.follow target with
    | ok entry => exact ⟨entry, rfl⟩
    | error e =>
      have hknows : R.Knows (.handle x.1) := by
        rw [Knows, contains, Tree.lookup_of_mem hR.distinctTypes hx]
        rfl
      have hdecode := decode_probeTable (hR.distinctTypes.entry hx) (hR.distinctFields x hx) hs ht
        hf (ha x hx spec hs)
      exact absurd ⟨_, _, e, hknows, hdecode, isDangling_of_follow hf⟩ hnone
  · cases he : R.entry x.2 with
    | ok entry => exact ⟨entry, rfl⟩
    | error e =>
      have hl : R.names.lookup x.1 = some x.2 := Tree.lookup_of_mem hR.distinctNames hx
      have hknows : R.Knows (.named x.1) := by
        rw [Knows, hl]
        rfl
      have hdecode := decode_probeName hl he (by omega)
      exact absurd ⟨_, _, e, hknows, hdecode, isDangling_of_entry he⟩ hnone

/-! ## Validation -/

/-- Validation tells whether decoding can meet a dangling reference. If it succeeds, no decoding
    that starts from a bound name or a registered type fails by one, at whatever path and depth; if
    it fails, there is such a decoding, provided that the limit on the nesting lets it get to the
    innermost references of the declared fields. -/
theorem validate_detects_dangling (R : Registry (Factory (Except Error) μ)) (hR : R.Reachable)
    (hf : R.FactoriesResolve) :
    (R.validate = .ok () → ∀ t d, (∀ target, d.reference? = some target → R.Knows target) →
      (∀ e, R.decode t d = .error e → ¬ e.IsDangling) ∧
      ∀ path depth e, R.decodeAt path depth t d = .error e → ¬ e.IsDangling) ∧
    (∀ e, R.validate = .error e → 2 ≤ R.options.maxDepth.toNat →
      (∀ x ∈ R.types, ∀ spec ∈ x.2.fields.specs,
        spec.type.arrays + 2 ≤ R.options.maxDepth.toNat) →
      ∃ target t e', R.Knows target ∧ R.decode t (.message target) = .error e' ∧
        e'.IsDangling) := by
  constructor
  · intro hv t d hd
    have hc := validate_eq_ok_iff.1 hv
    have hsound : ∀ path depth e, R.decodeAt path depth t d = .error e → ¬ e.IsDangling :=
      fun path depth e h => hc.not_isDangling hf (fails_of_decodeAt h) fun target ht =>
        hc.follow_of_knows (hd target ht)
    exact ⟨hsound .root 0, hsound⟩
  · intro e hv
    refine exists_dangling hR fun hc => ?_
    cases hv.symm.trans (validate_eq_ok_iff.2 hc)

/-- One type whose nodes have rows of nodes of a name. -/
def rowsRegistry (name : String) : Registry (Factory (Except Error) Unit) :=
  ((register {
    name := "Node"
    type := ⟨0, "Node"⟩
    fields := ⟨[{ name := "label", type := .primitive },
      { name := "rows", type := .array (.array (.message (.named name))) }]⟩
    factory := fun _ => .ok () }).run.run {}).2

theorem rowsRegistry_reachable (name : String) : (rowsRegistry name).Reachable :=
  .call (.register _) (.empty {})

theorem rowsRegistry_factoriesResolve (name : String) : (rowsRegistry name).FactoriesResolve :=
  List.forall_mem_singleton.2 fun _ _ h => by cases h

/-- Rows of nodes of the type itself are validated and do not dangle; rows of nodes that no type
    is named after are refused, and dangle. -/
theorem validate_detects_dangling_rows :
    (rowsRegistry "Node").validate = .ok () ∧
    (∀ t e, (rowsRegistry "Node").decode t (.message (.named "Node")) = .error e →
      ¬ e.IsDangling) ∧
    (rowsRegistry "Edge").validate = .error (.unknownTypeName "Edge") ∧
    ∃ target t e, (rowsRegistry "Edge").Knows target ∧
      (rowsRegistry "Edge").decode t (.message target) = .error e ∧ e.IsDangling := by
  have hvalid : (rowsRegistry "Node").validate = .ok () := by decide
  have hinvalid : (rowsRegistry "Edge").validate = .error (.unknownTypeName "Edge") := by decide
  obtain ⟨hsound, _⟩ := validate_detects_dangling _ (rowsRegistry_reachable "Node")
    (rowsRegistry_factoriesResolve "Node")
  obtain ⟨_, hcomplete⟩ := validate_detects_dangling _ (rowsRegistry_reachable "Edge")
    (rowsRegistry_factoriesResolve "Edge")
  refine ⟨hvalid, fun t => ?_, hinvalid, hcomplete _ hinvalid (by decide) (by decide)⟩
  refine (hsound hvalid t _ fun target ht => ?_).1
  cases ht
  rfl

end Registry

end Missive
