import Missive.Proofs.Lockstep
import Missive.Proofs.Validation

/-!
# Field policies

Two of the options are policies: what is done about a declared field that is absent, and what is
done about a key that is not declared. Under a stricter policy decoding accepts less, and what it
still accepts has the same value. What it no longer accepts is refused for an absent field or for
a key, and for nothing else: the two decodings go in step up to there.

* `Options.AtLeastAsStrict`: one policy is at least as strict as another.
* `Registry.inStep_setOptions`: a registry under the two.
-/

namespace Missive

/-- The first options have the limit of the second ones, and whatever field or key they let pass,
    the second ones let pass too. -/
structure Options.AtLeastAsStrict (o₁ o₂ : Options) : Prop where
  maxDepth : o₁.maxDepth = o₂.maxDepth
  unknown : o₂.denyUnknownFields = true → o₁.denyUnknownFields = true
  missing : o₁.missingFields = .treatAsNull → o₂.missingFields = .treatAsNull

/-- The errors of a policy: a field is missing, or a key is unknown. -/
def Error.IsFieldFault : Error → Prop
  | missingField .. | unknownField .. => True
  | _ => False

theorem Error.isFieldFault_iff {e : Error} :
    e.IsFieldFault ↔ (∃ path field, e = .missingField path field) ∨
      ∃ path field, e = .unknownField path field := by
  cases e <;> simp [IsFieldFault]

theorem Options.strict_default : strict.AtLeastAsStrict {} :=
  ⟨rfl, by decide, by decide⟩

theorem Options.default_lenient : ({} : Options).AtLeastAsStrict lenient :=
  ⟨rfl, by decide, by decide⟩

namespace Registry

open Outcome

variable {μ : Type} {o₁ o₂ : Options}

/-- Under a stricter policy decoding goes on as under a weaker one, unless a field or a key is
    refused. -/
theorem inStep_setOptions (R : Registry (Factory (Except Error) μ)) (h : o₁.AtLeastAsStrict o₂) :
    InStep Error.IsFieldFault (R.perform (.setOptions o₁)) (R.perform (.setOptions o₂)) where
  maxDepth := h.maxDepth.symm
  follow _ := .refl _
  denied table members := by
    change (if o₂.denyUnknownFields then _ else _) = (if o₁.denyUnknownFields then _ else _) ∨
      ∃ key, (if o₁.denyUnknownFields then _ else _) = _ ∧ _
    cases hdeny : o₁.denyUnknownFields with
    | false =>
      have hweak : o₂.denyUnknownFields = false :=
        Bool.eq_false_iff.2 fun hd => Bool.false_ne_true (hdeny.symm.trans (h.unknown hd))
      rw [hweak]
      exact .inl rfl
    | true =>
      cases hkey : unknownKey? table members with
      | none => exact .inl (ite_self none)
      | some key => exact .inr ⟨key, rfl, fun _ => trivial⟩
  absent spec := by
    change (spec.nullable || decide (o₂.missingFields = .treatAsNull)) =
      (spec.nullable || decide (o₁.missingFields = .treatAsNull)) ∨
      (spec.nullable || decide (o₁.missingFields = .treatAsNull)) = false ∧ _
    cases spec.nullable with
    | true => exact .inl rfl
    | false =>
      by_cases hmissing : o₁.missingFields = .treatAsNull
      · rw [hmissing, h.missing hmissing]
        exact .inl rfl
      · exact .inr ⟨decide_eq_false hmissing, fun _ => trivial⟩

/-- What decoding accepts under a policy, it accepts under a weaker one, with the same value. What
    it accepts under the weaker policy, it accepts under the stricter one with the same value or
    refuses for a field that is missing or a key that is unknown. So what is accepted under the
    strict options is accepted under the default ones, and what is accepted under these is accepted
    under the lenient ones. -/
theorem decode_policies (R : Registry (Factory (Except Error) μ)) (t : Tree) (d : Descriptor)
    (v : Value μ) :
    (∀ o₁ o₂ : Options, o₁.AtLeastAsStrict o₂ →
      ((R.perform (.setOptions o₁)).decode t d = .ok v →
        (R.perform (.setOptions o₂)).decode t d = .ok v) ∧
      ((R.perform (.setOptions o₂)).decode t d = .ok v →
        (R.perform (.setOptions o₁)).decode t d = .ok v ∨
        (∃ path field, (R.perform (.setOptions o₁)).decode t d =
          .error (.missingField path field)) ∨
        ∃ path field, (R.perform (.setOptions o₁)).decode t d =
          .error (.unknownField path field))) ∧
    ((R.perform (.setOptions .strict)).decode t d = .ok v →
      (R.perform (.setOptions {})).decode t d = .ok v) ∧
    ((R.perform (.setOptions {})).decode t d = .ok v →
      (R.perform (.setOptions .lenient)).decode t d = .ok v) := by
  have hagrees : ∀ o₁ o₂ : Options, o₁.AtLeastAsStrict o₂ → AgreesUnless Error.IsFieldFault
      ((R.perform (.setOptions o₁)).decode t d) ((R.perform (.setOptions o₂)).decode t d) :=
    fun o₁ o₂ h => (inStep_setOptions R h).decodeAt .root 0 t d
  have haccepts : ∀ o₁ o₂ : Options, o₁.AtLeastAsStrict o₂ →
      (R.perform (.setOptions o₁)).decode t d = .ok v →
      (R.perform (.setOptions o₂)).decode t d = .ok v := by
    intro o₁ o₂ h hv
    rcases hagrees o₁ o₂ h with heq | ⟨e, he, _⟩
    · exact heq.trans hv
    · cases hv.symm.trans he
  refine ⟨fun o₁ o₂ h => ⟨haccepts o₁ o₂ h, fun hv => ?_⟩, haccepts _ _ Options.strict_default,
    haccepts _ _ Options.default_lenient⟩
  rcases hagrees o₁ o₂ h with heq | ⟨e, he, hfault⟩
  · exact .inl (heq.symm.trans hv)
  · rcases Error.isFieldFault_iff.1 hfault with ⟨path, field, rfl⟩ | ⟨path, field, rfl⟩
    · exact .inr (.inl ⟨path, field, he⟩)
    · exact .inr (.inr ⟨path, field, he⟩)

/-- Under the lenient options a node may lack its rows and have a note; under the strict ones it
    is refused, and this can only be for the rows or for the note. -/
theorem decode_policies_rows :
    Options.strict.AtLeastAsStrict .lenient ∧
    ((rowsRegistry "Node").perform (.setOptions .lenient)).decode
      (.object [("label", .bool true), ("note", .null)]) (.message (.named "Node")) =
        .ok (.message ()) ∧
    ∃ e, ((rowsRegistry "Node").perform (.setOptions .strict)).decode
      (.object [("label", .bool true), ("note", .null)]) (.message (.named "Node")) = .error e ∧
      e.IsFieldFault := by
  have hstrict : Options.strict.AtLeastAsStrict .lenient :=
    ⟨rfl, by decide, by decide⟩
  have hlenient : ((rowsRegistry "Node").perform (.setOptions .lenient)).decode
      (.object [("label", .bool true), ("note", .null)]) (.message (.named "Node")) =
        .ok (.message ()) := by cbv
  refine ⟨hstrict, hlenient, ?_⟩
  rcases ((decode_policies (rowsRegistry "Node") _ _ _).1 _ _ hstrict).2 hlenient with
    h | ⟨path, field, h⟩ | ⟨path, field, h⟩
  · have hrefused : ((rowsRegistry "Node").perform (.setOptions .strict)).decode
        (.object [("label", .bool true), ("note", .null)]) (.message (.named "Node")) =
          .error (.unknownField .root "note") := by cbv
    cases hrefused.symm.trans h
  · exact ⟨_, h, trivial⟩
  · exact ⟨_, h, trivial⟩

end Registry

end Missive
