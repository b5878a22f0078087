import Missive.Proofs.Failure
import Missive.Proofs.Outline

/-!
# Two registries in step

Decoding the same tree under two registries. If each thing that the first registry is asked on the
way is answered alike by the second one, unless the answer is an error of a given kind, then the
same holds of the outcome: it is the same value or the same error, unless the first outcome is an
error of that kind. Encoding asks a registry less, and the same holds there.

* `Registry.InStep`: what the two registries are asked.
* `Registry.InStep.decodeAt`: decoding, at any path and depth.
* `Registry.decodeAt_congr`: decoding under registries that always answer alike, with factories of
  any effects.
* `Registry.encodeAt_agrees`: encoding.
-/

namespace Missive.Registry

open Outcome

variable {spared : Error → Prop}

/-! ## Decoding -/

section Decoding

variable {μ : Type} {R R' : Registry (Factory (Except Error) μ)}

/-- The second registry has the limit of the first one, and answers as it does: where a reference
    leads, which key is denied, and whether a field may be absent; unless the answer of the first
    one is an error that is spared. -/
structure InStep (spared : Error → Prop) (R R' : Registry (Factory (Except Error) μ)) : Prop where
  maxDepth : R'.options.maxDepth = R.options.maxDepth
  follow : ∀ target, AgreesUnless spared (R.follow target) (R'.follow target)
  denied : ∀ table members, R'.deniedKey? table members = R.deniedKey? table members ∨
    ∃ key, R.deniedKey? table members = some key ∧ ∀ path, spared (.unknownField path key)
  absent : ∀ spec, allowsAbsent R'.options spec = allowsAbsent R.options spec ∨
    (allowsAbsent R.options spec = false ∧ ∀ path, spared (.missingField path spec.name))

variable {path : Path} {depth : UInt32}

/-- One level further down, the two registries are in step. -/
def AgreesBelow (spared : Error → Prop) (R R' : Registry (Factory (Except Error) μ))
    (depth : UInt32) : Prop :=
  ∀ path t d, AgreesUnless spared (R.decodeAt path (depth + 1) t d)
    (R'.decodeAt path (depth + 1) t d)

theorem InStep.decodeField (h : InStep spared R R') (hbelow : AgreesBelow spared R R' depth)
    (members : List (String × Tree)) (spec : FieldSpec) :
    AgreesUnless spared (R.decodeField path depth members spec)
      (R'.decodeField path depth members spec) := by
  unfold Registry.decodeField
  split
  · exact (hbelow _ _ _).bind fun _ => .refl _
  · rcases h.absent spec with heq | ⟨hrefused, hspared⟩
    · rw [heq]
      exact .refl _
    · rw [hrefused]
      exact .inr ⟨_, rfl, hspared path⟩

theorem InStep.decodeObject (h : InStep spared R R') (hbelow : AgreesBelow spared R R' depth)
    (entry : TypeEntry (Factory (Except Error) μ)) (members : List (String × Tree)) :
    AgreesUnless spared (R.decodeObject path depth entry members)
      (R'.decodeObject path depth entry members) := by
  unfold Registry.decodeObject
  rcases h.denied entry.fields members with heq | ⟨key, hkey, hspared⟩
  · rw [heq]
    split
    · exact .refl _
    · -- The factory is the same, and is given the same values.
      exact (AgreesUnless.mapM fun spec _ => h.decodeField hbelow members spec).bind
        fun _ => .refl _
  · rw [hkey]
    exact .inr ⟨_, rfl, hspared path⟩

theorem InStep.decodeTarget (h : InStep spared R R') (hbelow : AgreesBelow spared R R' depth)
    (t : Tree) (target : TypeRef) :
    AgreesUnless spared (R.decodeTarget path depth t target)
      (R'.decodeTarget path depth t target) := by
  unfold Registry.decodeTarget
  rw [← bind_assoc, ← bind_assoc]
  refine AgreesUnless.bind (h.follow target) fun entry => ?_
  cases t with
  | object members => exact h.decodeObject hbelow entry members
  | _ => exact .refl _

theorem decodeItems_agrees (hbelow : AgreesBelow spared R R' depth) (t : Tree)
    (element : Descriptor) :
    AgreesUnless spared (R.decodeItems path depth t element)
      (R'.decodeItems path depth t element) := by
  unfold decodeItems
  split
  · exact (AgreesUnless.mapM fun _ _ => hbelow _ _ _).bind fun _ => .refl _
  · exact .refl _

/-- Registries that are in step decode alike. -/
theorem InStep.decodeAt (h : InStep spared R R') (path : Path) (depth : UInt32) (t : Tree)
    (d : Descriptor) :
    AgreesUnless spared (R.decodeAt path depth t d) (R'.decodeAt path depth t d) := by
  have hdeep : R'.tooDeep = R.tooDeep := by rw [tooDeep, h.maxDepth, tooDeep]
  by_cases ht : t = .null
  · rw [ht, decodeAt_null, decodeAt_null]
    exact .refl _
  have ht : t.isNull = false := isNull_eq_false_iff.2 ht
  cases d with
  | primitive =>
    have hleaf : R'.allowsLeaf t depth = R.allowsLeaf t depth := by
      rw [allowsLeaf, h.maxDepth, allowsLeaf]
    rw [decodeAt_primitive ht, decodeAt_primitive ht, hleaf, hdeep]
    exact .refl _
  | message target =>
    rw [decodeAt_message ht, decodeAt_message ht, h.maxDepth, hdeep]
    split
    · next hd => exact h.decodeTarget (fun path t d => h.decodeAt path (depth + 1) t d) t target
    · exact .refl _
  | array element =>
    rw [decodeAt_array ht, decodeAt_array ht, h.maxDepth, hdeep]
    split
    · next hd =>
      exact decodeItems_agrees (fun path t d => h.decodeAt path (depth + 1) t d) t element
    · exact .refl _
termination_by R.options.maxDepth.toNat - depth.toNat
decreasing_by all_goals exact depth_decreasing (by assumption)

end Decoding

section Effects

variable {m : Type → Type} [Monad m] [MonadExceptOf Error m] {μ : Type}
  {R R' : Registry (Factory m μ)}

/-- Registries of the same options that always answer alike decode alike: the factories are called
    in the same order with the same values, whatever effects they have. -/
theorem decodeAt_congr (ho : R'.options = R.options)
    (hr : ∀ target, R'.resolve target = R.resolve target)
    (he : ∀ type, R'.entry type = R.entry type) (path : Path) (depth : UInt32) (t : Tree)
    (d : Descriptor) : R'.decodeAt path depth t d = R.decodeAt path depth t d := by
  have hbelow (_ : depth < R.options.maxDepth) (path : Path) (t : Tree) (d : Descriptor) :
      R'.decodeAt path (depth + 1) t d = R.decodeAt path (depth + 1) t d :=
    decodeAt_congr ho hr he path (depth + 1) t d
  unfold decodeAt
  by_cases hd : depth < R.options.maxDepth
  · simp only [ho, hr, he, hbelow hd, allowsLeaf, tooDeep]
    rfl
  · simp only [ho, hd, dite_false, allowsLeaf, tooDeep]
    rfl
termination_by R.options.maxDepth.toNat - depth.toNat
decreasing_by all_goals exact depth_decreasing (by assumption)

end Effects

/-! ## Encoding -/

/-- Registries of one limit, whose tables are found alike, encode alike. -/
theorem encodeAt_agrees {φ μ : Type} [Message μ] {R R' : Registry φ}
    (hdepth : R'.options.maxDepth = R.options.maxDepth)
    (hfields : ∀ type, AgreesUnless spared (R.lookupFields type) (R'.lookupFields type))
    (path : Path) (depth : UInt32) (view : View μ) (d : Descriptor) :
    AgreesUnless spared (R.encodeAt path depth view d) (R'.encodeAt path depth view d) := by
  refine encodeAt_outline hdepth (fun type => ?_) path depth view d d rfl
  rw [map_eq_pure_bind, map_eq_pure_bind]
  exact (hfields type).bind fun _ => .refl _

end Missive.Registry
