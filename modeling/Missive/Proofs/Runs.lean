import Missive.Proofs.Registrations

/-!
# What runs keep

A run of calls records types and names, and what it has recorded does not change later on. A call
that fails leaves the registry as it was, also where it is made of several steps each of which can
fail.

* `Registry.performAll`: the registry after a run.
* `Registry.perform_of_error`: a failed call changes nothing.
* `Registry.Refuses`: why a registration fails (`Registry.register_eq_error_iff`).
* `Registry.Extends`: what is recorded stays as it is, in one call (`Registry.extends_perform`) and
  in a run (`Registry.extends_performAll`).
-/

namespace Missive

/-! ## Repeated names -/

namespace FieldTable

variable {seen : List String} {specs : List FieldSpec} {name : String}

/-- The first name that is declared a second time: the names in front of it are distinct, and it
    is one of them. -/
def FirstRepeats (table : FieldTable) (name : String) : Prop :=
  ∃ before after, table.names = before ++ name :: after ∧ before.Nodup ∧ name ∈ before

theorem firstRepeated?_eq_some_iff (hseen : seen.Nodup) :
    firstRepeated? seen specs = some name ↔ ∃ before after,
      specs.map (·.name) = before ++ name :: after ∧ (seen ++ before).Nodup ∧
        name ∈ seen ++ before := by
  induction specs generalizing seen with
  | nil =>
    constructor
    · intro h; cases h
    · rintro ⟨before, after, h, _⟩
      exact absurd h.symm (List.append_ne_nil_of_right_ne_nil _ (List.cons_ne_nil _ _))
  | cons spec specs ih =>
    rw [firstRepeated?, List.map_cons]
    split
    · next hmem =>
      constructor
      · intro h
        cases h
        exact ⟨[], _, rfl, by rwa [List.append_nil], by rwa [List.append_nil]⟩
      · rintro ⟨before, after, h, hnodup, _⟩
        cases before with
        | nil => cases h; rfl
        | cons first before =>
          -- The repeated name would stand among the names in front of it, which are distinct.
          obtain ⟨rfl, _⟩ := List.cons.inj h
          exact absurd rfl ((List.nodup_append.1 hnodup).2.2 _ hmem _ List.mem_cons_self)
    · next hmem =>
      have hnext : (seen ++ [spec.name]).Nodup :=
        List.nodup_append_comm.1 (List.nodup_cons.2 ⟨hmem, hseen⟩)
      rw [ih hnext]
      constructor
      · rintro ⟨before, after, h, hnodup, hname⟩
        rw [← List.append_cons] at hnodup hname
        exact ⟨spec.name :: before, after, by rw [h]; rfl, hnodup, hname⟩
      · rintro ⟨before, after, h, hnodup, hname⟩
        cases before with
        | nil =>
          cases h
          rw [List.append_nil] at hname
          exact absurd hname hmem
        | cons first before =>
          obtain ⟨rfl, hrest⟩ := List.cons.inj h
          rw [List.append_cons] at hnodup hname
          exact ⟨before, after, hrest, hnodup, hname⟩

theorem firstDuplicate?_eq_some_iff {table : FieldTable} :
    table.firstDuplicate? = some name ↔ table.FirstRepeats name :=
  firstRepeated?_eq_some_iff List.nodup_nil

end FieldTable

namespace Registry

variable {φ : Type} {R R' R'' : Registry φ}

/-- The registry after a run of calls, each of them successful or not. -/
def performAll (R : Registry φ) (calls : List (Call φ)) : Registry φ := calls.foldl perform R

theorem Reachable.performAll (h : R.Reachable) (calls : List (Call φ)) :
    (R.performAll calls).Reachable := by
  induction calls generalizing R with
  | nil => exact h
  | cons c calls ih => exact ih (.call c h)

/-! ## Failed calls -/

/-- A call that fails leaves the registry as it was. -/
theorem perform_of_error {c : Call φ} {e : Error} (h : c.run.run.run R = (.error e, R')) :
    R' = R := by
  cases c with
  | register d =>
    rw [Call.run] at h
    rcases register_run R d with ⟨e', hrun⟩ | ⟨_, _, _, hrun⟩
    · cases hrun.symm.trans h
      rfl
    · cases hrun.symm.trans h
  | registerType type fields factory =>
    rw [Call.run, registerType_run] at h
    split at h
    · cases h; rfl
    · split at h <;> cases h
      rfl
  | registerName name type =>
    rw [Call.run, registerName_run] at h
    split at h <;> cases h
    rfl
  | setOptions options => cases h

/-- Why the registration of a definition fails. -/
inductive Refuses (R : Registry φ) (d : Definition φ) : Error → Prop
  | nameBound {existing : MessageType} (hn : R.names.lookup d.name = some existing) :
      Refuses R d (.duplicateName d.name existing)
  | typeRegistered (hn : R.names.lookup d.name = none) (ht : R.contains d.type = true) :
      Refuses R d (.duplicateType d.type)
  | fieldRepeated {field : String} (hn : R.names.lookup d.name = none)
      (ht : R.contains d.type = false) (hf : d.fields.FirstRepeats field) :
      Refuses R d (.duplicateField d.type field)

theorem register_eq_error_iff {d : Definition φ} {e : Error} :
    (register d).run.run R = (.error e, R') ↔ R.Refuses d e ∧ R' = R := by
  rw [register_run_eq]
  constructor
  · intro h
    split at h
    · next hn =>
      cases h
      exact ⟨.nameBound hn, rfl⟩
    · next hn =>
      split at h
      · next ht =>
        cases h
        exact ⟨.typeRegistered hn ht, rfl⟩
      · next ht =>
        split at h
        · next hd =>
          cases h
          have hf := FieldTable.firstDuplicate?_eq_some_iff.1 hd
          exact ⟨.fieldRepeated hn (Bool.eq_false_iff.2 ht) hf, rfl⟩
        · cases h
  · rintro ⟨hrefuses, rfl⟩
    cases hrefuses with
    | nameBound hn => rw [hn]
    | typeRegistered hn ht => rw [hn, ht]; rfl
    | fieldRepeated hn ht hf => rw [hn, ht, FieldTable.firstDuplicate?_eq_some_iff.2 hf]; rfl

/-- The registry with one more type and one more name. -/
def record (R : Registry φ) (d : Definition φ) : Registry φ :=
  { R with
    types := R.types ++ [(d.type, { fields := d.fields, factory := d.factory })]
    names := R.names ++ [(d.name, d.type)] }

/-- A registration that nothing speaks against adds the type and the name. -/
theorem register_of_not_refuses {d : Definition φ} (h : ∀ e, ¬ R.Refuses d e) :
    (register d).run.run R = (.ok (), R.record d) := by
  rcases register_run R d with ⟨e, hrun⟩ | ⟨_, _, _, hrun⟩
  · exact absurd (register_eq_error_iff.1 hrun).1 (h e)
  · exact hrun

/-! ## What stays -/

/-- What the first registry records is recorded by the second one too: each type with its table and
    its factory, and each name with its type. -/
structure Extends (R R' : Registry φ) : Prop where
  entry : ∀ type entry, R.entry type = .ok entry → R'.entry type = .ok entry
  name : ∀ name type, R.lookupByName name = .ok type → R'.lookupByName name = .ok type

theorem Extends.refl (R : Registry φ) : R.Extends R := ⟨fun _ _ h => h, fun _ _ h => h⟩

theorem Extends.trans (h : R.Extends R') (h' : R'.Extends R'') : R.Extends R'' :=
  ⟨fun type entry he => h'.entry type entry (h.entry type entry he),
    fun name type hn => h'.name name type (h.name name type hn)⟩

/-- No call changes or removes what is recorded. -/
theorem extends_perform (R : Registry φ) (c : Call φ) : R.Extends (R.perform c) := by
  constructor
  · intro type entry he
    rw [entry_eq_ok_iff] at he ⊢
    rcases types_perform R c with htypes | ⟨_, _, _, _, htypes⟩
    · rw [htypes, he]
    · rw [htypes, List.lookup_append, he, Option.some_or]
  · intro name type hn
    rw [lookupByName_eq_ok_iff] at hn ⊢
    rcases names_perform R c with hnames | ⟨_, _, _, hnames⟩
    · rw [hnames, hn]
    · rw [hnames, List.lookup_append, hn, Option.some_or]

/-- No run changes or removes what is recorded. -/
theorem extends_performAll (R : Registry φ) (calls : List (Call φ)) :
    R.Extends (R.performAll calls) := by
  induction calls generalizing R with
  | nil => exact .refl R
  | cons c calls ih => exact (extends_perform R c).trans (ih (R.perform c))

/-- After any run of calls, from an empty registry: no table declares a field twice; a call that
    fails leaves the registry as it is; a registration fails if its name is bound, else if its type
    is registered, else if its table repeats a field, and adds one table and one name if none of
    this is so; and whatever calls follow, what is recorded stays as it is. -/
theorem run_atomic (options : Options) (calls : List (Call φ)) :
    let R := ({ options } : Registry φ).performAll calls
    R.DistinctFields ∧
    (∀ (c : Call φ) e R', c.run.run.run R = (.error e, R') → R' = R) ∧
    (∀ d : Definition φ,
      (∀ e R', (register d).run.run R = (.error e, R') ↔ R.Refuses d e ∧ R' = R) ∧
      ((∀ e, ¬ R.Refuses d e) → (register d).run.run R = (.ok (), R.record d))) ∧
    ∀ later, R.Extends (R.performAll later) := by
  intro R
  have hR : R.Reachable := (Reachable.empty options).performAll calls
  refine ⟨hR.distinctFields, fun c e R' => perform_of_error, fun d => ?_, extends_performAll R⟩
  exact ⟨fun e R' => register_eq_error_iff, register_of_not_refuses⟩

end Registry

end Missive
