import Mathlib
import Missive.Proofs.Extension
import Missive.Proofs.Rearrangement

/-!
# Registrations in any order

A call records a type, a name, or both. Whether it succeeds depends on what is recorded already, and
so on the calls before it. But that a whole run succeeds is said without any order: no table repeats
a field, and among all that the calls record no type and no name is there twice
(`Registry.acceptsAll_iff`). So if the calls of a run succeed in one order they do so in every
order, and record the same.

* `Call.types`, `Call.names`: what a call records.
* `Registry.Accepts`, `Registry.AcceptsAll`: a call succeeds; each call of a run does.
* `Registry.addAll`: the registry with all that calls record, which is where a run leads whose calls
  succeed (`Registry.performAll_of_acceptsAll`).
* `Registry.AcceptsAll.perm`: the calls of such a run in another order.
-/

namespace Missive

/-! ## What calls record -/

namespace Call

variable {φ : Type}

/-- The types that a call records. -/
def types : Call φ → List (MessageType × TypeEntry φ)
  | register d => [(d.type, { fields := d.fields, factory := d.factory })]
  | registerType type fields factory => [(type, { fields, factory })]
  | registerName .. | setOptions _ => []

/-- The names that a call binds. -/
def names : Call φ → List (String × MessageType)
  | register d => [(d.name, d.type)]
  | registerName name type => [(name, type)]
  | registerType .. | setOptions _ => []

end Call

namespace Registry

open Sample (Instance Kind)

variable {φ : Type} {R : Registry φ} {c : Call φ} {calls calls' : List (Call φ)}

/-- The call succeeds. -/
def Accepts (R : Registry φ) (c : Call φ) : Prop := (c.run.run.run R).1 = .ok ()

/-- Each call of the run succeeds. -/
def AcceptsAll : Registry φ → List (Call φ) → Prop
  | _, [] => True
  | R, c :: calls => R.Accepts c ∧ (R.perform c).AcceptsAll calls

/-- The registry with all that calls record. -/
def addAll (R : Registry φ) (calls : List (Call φ)) : Registry φ where
  types := R.types ++ calls.flatMap Call.types
  names := R.names ++ calls.flatMap Call.names
  options := R.options

/-- What every run keeps: no table repeats a field, no type is there twice, and no name is. -/
structure WellFormed (R : Registry φ) : Prop where
  fields : R.DistinctFields
  types : R.DistinctTypes
  names : R.DistinctNames

theorem Reachable.wellFormed (h : R.Reachable) : R.WellFormed :=
  ⟨h.distinctFields, h.distinctTypes, h.distinctNames⟩

/-! ## Single calls -/

/-- A registration succeeds iff what it records is new, and the table does not repeat a field. -/
theorem accepts_iff (hc : ∀ o, c ≠ .setOptions o) :
    R.Accepts c ↔ (∀ x ∈ c.types, R.types.lookup x.1 = none ∧ x.2.fields.names.Nodup) ∧
      ∀ x ∈ c.names, R.names.lookup x.1 = none := by
  have hcontains (type : MessageType) : R.contains type = false ↔ R.types.lookup type = none := by
    rw [contains, Option.isSome_eq_false_iff, Option.isNone_iff_eq_none]
  cases c with
  | register d =>
    simp only [Accepts, Call.run, register_run_eq, Call.types, Call.names,
      List.forall_mem_singleton, ← hcontains, ← FieldTable.firstDuplicate?_eq_none_iff]
    cases R.names.lookup d.name <;> cases R.contains d.type <;> cases d.fields.firstDuplicate? <;>
      simp
  | registerType type fields factory =>
    simp only [Accepts, Call.run, registerType_run, Call.types, Call.names,
      List.forall_mem_singleton, ← hcontains, ← FieldTable.firstDuplicate?_eq_none_iff]
    cases R.contains type <;> cases fields.firstDuplicate? <;> simp
  | registerName name type =>
    simp only [Accepts, Call.run, registerName_run, Call.types, Call.names,
      List.forall_mem_singleton]
    cases R.names.lookup name <;> simp
  | setOptions o => exact absurd rfl (hc o)

/-- A registration that succeeds adds what it records. -/
theorem perform_of_accepts (hc : ∀ o, c ≠ .setOptions o) (h : R.Accepts c) :
    R.perform c = R.addAll [c] := by
  cases c with
  | register d =>
    rcases register_run R d with ⟨e, hrun⟩ | ⟨_, _, _, hrun⟩
    · simp [Accepts, Call.run, hrun] at h
    · simp [perform, Call.run, hrun, addAll, Call.types, Call.names]
  | registerType type fields factory =>
    rw [Accepts, Call.run, registerType_run] at h
    rw [perform, Call.run, registerType_run]
    split at h
    · cases h
    · next hn =>
      rw [if_neg hn]
      split at h
      · cases h
      · simp [addAll, Call.types, Call.names]
  | registerName name type =>
    rw [Accepts, Call.run, registerName_run] at h
    rw [perform, Call.run, registerName_run]
    split at h
    · cases h
    · simp [addAll, Call.types, Call.names]
  | setOptions o => exact absurd rfl (hc o)

theorem wellFormed_addAll_iff (hR : R.WellFormed) :
    (R.addAll calls).WellFormed ↔ (∀ c ∈ calls, ∀ x ∈ c.types, x.2.fields.names.Nodup) ∧
      ((R.types ++ calls.flatMap Call.types).map (·.1)).Nodup ∧
      ((R.names ++ calls.flatMap Call.names).map (·.1)).Nodup := by
  have hfields : (R.addAll calls).DistinctFields ↔
      ∀ c ∈ calls, ∀ x ∈ c.types, x.2.fields.names.Nodup := by
    simp only [DistinctFields, addAll, List.forall_mem_append, List.forall_mem_flatMap]
    exact and_iff_right hR.fields
  rw [← hfields]
  exact ⟨fun h => ⟨h.fields, h.types, h.names⟩, fun h => ⟨h.1, h.2.1, h.2.2⟩⟩

/-- A registration succeeds iff the registry stays well-formed with what it records. -/
theorem accepts_iff_wellFormed (hR : R.WellFormed) (hc : ∀ o, c ≠ .setOptions o) :
    R.Accepts c ↔ (R.addAll [c]).WellFormed := by
  have htypes : (R.types.map (·.1)).Nodup := hR.types
  have hnames : (R.names.map (·.1)).Nodup := hR.names
  rw [accepts_iff hc, wellFormed_addAll_iff hR]
  cases c with
  | register d =>
    simp only [Call.types, Call.names, List.flatMap_singleton, List.forall_mem_singleton,
      Tree.nodup_keys_append_iff, htypes, hnames, true_and]
    exact ⟨fun h => ⟨h.1.2, h.1.1, h.2⟩, fun h => ⟨⟨h.2.1, h.1⟩, h.2.2⟩⟩
  | registerType type fields factory =>
    simp only [Call.types, Call.names, List.flatMap_singleton, List.forall_mem_singleton,
      List.append_nil, Tree.nodup_keys_append_iff, htypes, hnames, true_and, and_true,
      List.not_mem_nil, false_imp_iff, implies_true]
    exact and_comm
  | registerName name type =>
    simp only [Call.types, Call.names, List.flatMap_singleton, List.forall_mem_singleton,
      List.append_nil, Tree.nodup_keys_append_iff, htypes, hnames, true_and, List.not_mem_nil,
      false_imp_iff, implies_true]
  | setOptions o => exact absurd rfl (hc o)

/-! ## Runs -/

theorem addAll_nil : R.addAll [] = R := by simp [addAll]

theorem addAll_cons : R.addAll (c :: calls) = (R.addAll [c]).addAll calls := by simp [addAll]

/-- Taking back what calls record leaves a registry well-formed. -/
theorem WellFormed.of_addAll (h : (R.addAll calls).WellFormed) : R.WellFormed where
  fields x hx := h.fields x (List.mem_append_left _ hx)
  types := h.types.sublist ((List.sublist_append_left _ _).map _)
  names := h.names.sublist ((List.sublist_append_left _ _).map _)

/-- The calls of a run all succeed iff the registry stays well-formed with all that they record. -/
theorem acceptsAll_iff (hR : R.WellFormed) (hc : ∀ c ∈ calls, ∀ o, c ≠ .setOptions o) :
    R.AcceptsAll calls ↔ (R.addAll calls).WellFormed := by
  induction calls generalizing R with
  | nil =>
    rw [addAll_nil]
    exact iff_of_true trivial hR
  | cons c calls ih =>
    rw [List.forall_mem_cons] at hc
    rw [AcceptsAll, addAll_cons]
    constructor
    · rintro ⟨hfirst, hrest⟩
      have hnext := (accepts_iff_wellFormed hR hc.1).1 hfirst
      rw [perform_of_accepts hc.1 hfirst] at hrest
      exact (ih hnext hc.2).1 hrest
    · intro h
      have hfirst := (accepts_iff_wellFormed hR hc.1).2 h.of_addAll
      refine ⟨hfirst, ?_⟩
      rw [perform_of_accepts hc.1 hfirst]
      exact (ih h.of_addAll hc.2).2 h

/-- A run whose calls all succeed adds what they record. -/
theorem performAll_of_acceptsAll (hc : ∀ c ∈ calls, ∀ o, c ≠ .setOptions o)
    (h : R.AcceptsAll calls) : R.performAll calls = R.addAll calls := by
  induction calls generalizing R with
  | nil => exact addAll_nil.symm
  | cons c calls ih =>
    rw [List.forall_mem_cons] at hc
    have hfirst := perform_of_accepts hc.1 h.1
    rw [addAll_cons, ← hfirst]
    exact ih hc.2 h.2

/-! ## Another order -/

theorem rearranges_addAll (R : Registry φ) (hp : calls'.Perm calls) :
    (R.addAll calls).Rearranges (R.addAll calls') where
  types := (hp.flatMap_right _).append_left _
  names := (hp.flatMap_right _).append_left _
  options := rfl

theorem Rearranges.wellFormed {R' : Registry φ} (h : R.Rearranges R') (hR : R.WellFormed) :
    R'.WellFormed where
  fields x hx := hR.fields x (h.types.subset hx)
  types := (h.types.map _).nodup_iff.2 hR.types
  names := (h.names.map _).nodup_iff.2 hR.names

/-- Calls that all succeed in one order succeed in every order, and record the same. -/
theorem AcceptsAll.perm (hR : R.WellFormed) (hc : ∀ c ∈ calls, ∀ o, c ≠ .setOptions o)
    (h : R.AcceptsAll calls) (hp : calls'.Perm calls) :
    R.AcceptsAll calls' ∧ (R.performAll calls).Rearranges (R.performAll calls') := by
  have hc' : ∀ c ∈ calls', ∀ o, c ≠ .setOptions o := fun c hmem => hc c (hp.subset hmem)
  have hadd := rearranges_addAll R hp
  have h' : R.AcceptsAll calls' :=
    (acceptsAll_iff hR hc').2 (hadd.wellFormed ((acceptsAll_iff hR hc).1 h))
  rw [performAll_of_acceptsAll hc h, performAll_of_acceptsAll hc' h']
  exact ⟨h', hadd⟩

/-- If registrations all succeed, from an empty registry, then they do so in every order, and the
    registry holds the same types, with their tables and factories, and the same names. So it gives
    the same answers: what is found for a type or a name, the names of a type, the number of tables,
    the listing (if distinct types have distinct names), and every outcome of encoding and decoding;
    and validation succeeds in both or fails in both, by one of the references that dangle. -/
theorem registration_order_irrelevant {m : Type → Type} [Monad m] [MonadExceptOf Error m] {μ : Type}
    [Message μ] (options : Options) (calls calls' : List (Call (Factory m μ)))
    (hc : ∀ c ∈ calls, ∀ o, c ≠ .setOptions o)
    (h : ({ options } : Registry (Factory m μ)).AcceptsAll calls) (hp : calls'.Perm calls) :
    let R := ({ options } : Registry (Factory m μ)).performAll calls
    let R' := ({ options } : Registry (Factory m μ)).performAll calls'
    ({ options } : Registry (Factory m μ)).AcceptsAll calls' ∧ R.Rearranges R' ∧
    (∀ type, R'.entry type = R.entry type) ∧
    (∀ type, R'.lookupFields type = R.lookupFields type) ∧
    (∀ name, R'.lookupByName name = R.lookupByName name) ∧
    (∀ type, R'.namesOf type = R.namesOf type) ∧ R'.size = R.size ∧
    (R.validate = .ok () → R'.validate = .ok ()) ∧
    (∀ e, R.validate = .error e → R.Dangles e ∧ ∃ e', R'.validate = .error e' ∧ R.Dangles e') ∧
    (R.DistinctTypeNames → R'.describe = R.describe) ∧
    (∀ (v : View μ) d, R'.encode v d = R.encode v d) ∧
    ∀ t d, R'.decode t d = R.decode t d := by
  intro R R'
  have hempty : ({ options } : Registry (Factory m μ)).Reachable := .empty options
  have hR : R.Reachable := hempty.performAll calls
  obtain ⟨haccepts, hsame⟩ := h.perm hempty.wellFormed hc hp
  refine ⟨haccepts, hsame, hsame.entry hR.distinctTypes, hsame.lookupFields hR.distinctTypes,
    hsame.lookupByName hR.distinctNames, hsame.namesOf, hsame.size, fun hv => ?_,
    fun e => hsame.validate hR, hsame.describe hR.distinctTypes, fun v d => ?_, fun t d => ?_⟩
  · exact validate_eq_ok_iff.2 ((hsame.closed hR).2 (validate_eq_ok_iff.1 hv))
  · exact hsame.encodeAt hR.distinctTypes .root 0 v d
  · exact hsame.decodeAt hR .root 0 t d

/-- A name may be bound before its type is registered, and a type may be registered before those
    that its fields refer to. -/
theorem registration_order_irrelevant_foo :
    let calls : List (Call (Factory (Except Error) Instance)) :=
      [.register Sample.bar, .register Sample.foo, .registerName "Row" (Kind.type .bar)]
    let R := ({} : Registry (Factory (Except Error) Instance)).performAll calls
    let R' := ({} : Registry (Factory (Except Error) Instance)).performAll calls.reverse
    ({} : Registry (Factory (Except Error) Instance)).AcceptsAll calls.reverse ∧
    R'.namesOf (Kind.type .bar) = R.namesOf (Kind.type .bar) ∧ R'.validate = .ok () ∧
    R'.describe = R.describe ∧
    R'.decode (.object [("bar", .array [])]) (.message (.named "Foo")) =
      .ok (.message (.foo ⟨none, []⟩)) := by
  intro calls R R'
  have hvalid : R.validate = .ok () := by decide
  have hvalue : R.decode (.object [("bar", .array [])]) (.message (.named "Foo")) =
      .ok (.message (.foo ⟨none, []⟩)) := by cbv
  obtain ⟨haccepts, _, _, _, _, hnames, _, hvalidate, _, hdescribe, _, hdecode⟩ :=
    registration_order_irrelevant {} calls calls.reverse (by simp [calls]) ⟨rfl, rfl, rfl, trivial⟩
      calls.reverse_perm
  exact ⟨haccepts, hnames _, hvalidate hvalid, hdescribe (by decide), (hdecode _ _).trans hvalue⟩

end Registry

end Missive
