import Mathlib
import Missive.Proofs.Lockstep
import Missive.Proofs.Runs
import Missive.Proofs.Sample.Factories
import Missive.Proofs.Validation

/-!
# Registering more

A registry that registers more gives the same answers, except where the answer was that a reference
leads nowhere. So decoding and encoding, which ask it again and again, come out as before, unless
they failed by a reference: their values and all their other errors are settled.

* `Registry.Extends.inStep`: an extended registry is in step with the registry, if it has the same
  options.
* `Registry.options_performAll`: registrations leave the options as they are.
-/

namespace Missive.Registry

open Outcome
open Sample (Instance Kind sampleRegistry)

variable {φ : Type} {R R' : Registry φ}

/-! ## Extended registries -/

theorem Extends.follow (h : R.Extends R') {target : TypeRef} {entry : TypeEntry φ}
    (hf : R.follow target = .ok entry) : R'.follow target = .ok entry := by
  obtain ⟨type, hr, he⟩ := follow_eq_ok_iff.1 hf
  refine follow_eq_ok_iff.2 ⟨type, ?_, h.entry type entry he⟩
  cases target with
  | named name => exact h.name name type hr
  | handle type => exact hr

theorem Extends.agrees_follow (h : R.Extends R') (target : TypeRef) :
    AgreesUnless Error.IsDangling (R.follow target) (R'.follow target) := by
  cases hf : R.follow target with
  | ok entry => exact .inl (h.follow hf)
  | error e => exact .inr ⟨e, rfl, isDangling_of_follow hf⟩

theorem Extends.agrees_lookupFields (h : R.Extends R') (type : MessageType) :
    AgreesUnless Error.IsDangling (R.lookupFields type) (R'.lookupFields type) := by
  unfold lookupFields
  cases he : R.entry type with
  | ok entry =>
    rw [h.entry type entry he]
    exact .refl _
  | error e => exact .inr ⟨e, rfl, isDangling_of_entry he⟩

/-- What a reference leads to in the registry, it leads to in the extended one as well. -/
theorem Extends.inStep {μ : Type} {R R' : Registry (Factory (Except Error) μ)} (h : R.Extends R')
    (ho : R'.options = R.options) : InStep Error.IsDangling R R' where
  maxDepth := by rw [ho]
  follow := h.agrees_follow
  denied table members := .inl (by rw [deniedKey?, ho, deniedKey?])
  absent spec := .inl (by rw [ho])

/-! ## Runs of registrations -/

theorem options_perform (R : Registry φ) {c : Call φ} (hc : ∀ o, c ≠ .setOptions o) :
    (R.perform c).options = R.options := by
  unfold perform
  cases c with
  | register d =>
    rw [Call.run]
    rcases register_run R d with ⟨e, hrun⟩ | ⟨_, _, _, hrun⟩ <;> rw [hrun]
  | registerType type fields factory =>
    rw [Call.run, registerType_run]
    split
    · rfl
    · split <;> rfl
  | registerName name type =>
    rw [Call.run, registerName_run]
    split <;> rfl
  | setOptions o => exact absurd rfl (hc o)

/-- A run of registrations leaves the options as they are. -/
theorem options_performAll (R : Registry φ) {calls : List (Call φ)}
    (hc : ∀ c ∈ calls, ∀ o, c ≠ .setOptions o) : (R.performAll calls).options = R.options := by
  induction calls generalizing R with
  | nil => rfl
  | cons c calls ih =>
    rw [List.forall_mem_cons] at hc
    exact (ih (R.perform c) hc.2).trans (options_perform R hc.1)

/-- Registering more, with or without success, leaves each outcome of decoding and of encoding as
    it is, be it a value or an error, unless it is the error of a reference that leads nowhere. -/
theorem registering_keeps_outcomes {μ : Type} [Message μ]
    (R : Registry (Factory (Except Error) μ)) (calls : List (Call (Factory (Except Error) μ)))
    (hc : ∀ c ∈ calls, ∀ o, c ≠ .setOptions o) :
    (∀ t d, (∀ e, R.decode t d = .error e → ¬ e.IsDangling) →
      (R.performAll calls).decode t d = R.decode t d) ∧
    (∀ (v : View μ) d, (∀ e, R.encode v d = .error e → ¬ e.IsDangling) →
      (R.performAll calls).encode v d = R.encode v d) := by
  have hextends := extends_performAll R calls
  have hoptions := options_performAll R hc
  refine ⟨fun t d h => ?_, fun v d h => ?_⟩
  · rcases (hextends.inStep hoptions).decodeAt .root 0 t d with heq | ⟨e, he, hdangling⟩
    · exact heq
    · exact absurd hdangling (h e he)
  · have hagrees := encodeAt_agrees (by rw [hoptions]) hextends.agrees_lookupFields .root 0 v d
    rcases hagrees with heq | ⟨e, he, hdangling⟩
    · exact heq
    · exact absurd hdangling (h e he)

/-- Another name for a sample type, and a registration that fails, change neither the message that
    is decoded nor the mismatch, nor the tree that is encoded. -/
theorem registering_keeps_outcomes_foo :
    let R := (sampleRegistry {}).performAll
      [.registerName "Row" (Kind.type .bar), .register Sample.bar]
    R.decode (.object [("bar", .array [])]) (.message (.named "Foo")) =
      .ok (.message (.foo ⟨none, []⟩)) ∧
    R.decode (.bool true) (.message (.named "Foo")) =
      .error (.typeMismatch .root "object" "bool") ∧
    R.encode (.message (Instance.foo ⟨none, []⟩)) (.message (.named "Foo")) =
      .ok (.object [("x", .null), ("bar", .array [])]) := by
  have hvalue : (sampleRegistry {}).decode (.object [("bar", .array [])])
      (.message (.named "Foo")) = .ok (.message (.foo ⟨none, []⟩)) := by cbv
  have hmismatch : (sampleRegistry {}).decode (.bool true) (.message (.named "Foo")) =
      .error (.typeMismatch .root "object" "bool") := by cbv
  have htree : (sampleRegistry {}).encode (.message (Instance.foo ⟨none, []⟩))
      (.message (.named "Foo")) = .ok (.object [("x", .null), ("bar", .array [])]) := by cbv
  obtain ⟨hdecode, hencode⟩ := registering_keeps_outcomes (sampleRegistry {})
    [.registerName "Row" (Kind.type .bar), .register Sample.bar] (by simp)
  refine ⟨(hdecode _ _ ?_).trans hvalue, (hdecode _ _ ?_).trans hmismatch,
    (hencode _ _ ?_).trans htree⟩
  · intro e he
    cases hvalue.symm.trans he
  · intro e he
    cases hmismatch.symm.trans he
    exact id
  · intro e he
    cases htree.symm.trans he

end Missive.Registry
