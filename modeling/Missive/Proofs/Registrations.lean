import Mathlib.Data.List.Nodup
import Missive.Proofs.Outcome
import Missive.Proofs.Tree
import Missive.Registry.Basic

/-!
# Runs of registrations

A registry comes about by a run of *calls*: registrations and changes of options, in any order,
some of which may fail. The run goes on after a failure, with what the failed call has left.

* `Registry.Reachable`: the registries that runs lead to.
* `Registry.registerType_run`, `Registry.registerName_run`, `Registry.register_run`: the outcome
  of a call and the registry after it; `Registry.register_run_eq` has the checks in their order.
* `Registry.Reaches`: the programs that keep to such runs.
* `Registry.Reachable.distinctFields`: no registered table declares a field twice.
* `Registry.Reachable.distinctTypes`, `Registry.Reachable.distinctNames`: no type is registered
  twice, and no name is bound twice.
* `Registry.OneName`: a number has one name. Then types are told apart by their numbers alone
  (`Registry.OneName.lookup_types`, `Registry.OneName.filter_names`).
-/

namespace Missive

/-- A call that changes a registry. -/
inductive Call (φ : Type) where
  | register (d : Definition φ)
  | registerType (type : MessageType) (fields : FieldTable) (factory : φ)
  | registerName (name : String) (type : MessageType)
  | setOptions (options : Options)

/-- The program of a call. -/
def Call.run {φ : Type} : Call φ → RegistryM φ Unit
  | register d => Registry.register d
  | registerType type fields factory => Registry.registerType type fields factory
  | registerName name type => Registry.registerName name type
  | setOptions options => Registry.setOptions options

namespace FieldTable

variable {seen : List String} {specs : List FieldSpec}

theorem firstRepeated?_eq_none_iff :
    firstRepeated? seen specs = none ↔
      (specs.map (·.name)).Nodup ∧ ∀ name ∈ specs.map (·.name), name ∉ seen := by
  induction specs generalizing seen with
  | nil => simp [firstRepeated?]
  | cons spec specs ih =>
    rw [firstRepeated?, List.map_cons, List.nodup_cons, List.forall_mem_cons]
    split
    · next h =>
      constructor
      · intro hn; cases hn
      · intro hs; exact absurd h hs.2.1
    · next h =>
      rw [ih]
      -- The name has moved from the names ahead to the names seen.
      constructor
      · rintro ⟨hnodup, hseen⟩
        refine ⟨⟨fun hmem => hseen _ hmem (by simp), hnodup⟩, h, fun name hname hmem => ?_⟩
        exact hseen name hname (List.mem_append_left _ hmem)
      · rintro ⟨⟨hspec, hnodup⟩, _, hseen⟩
        refine ⟨hnodup, fun name hname hmem => ?_⟩
        rcases List.mem_append.1 hmem with hmem | hmem
        · exact hseen name hname hmem
        · rw [List.mem_singleton] at hmem
          exact hspec (hmem ▸ hname)

theorem firstDuplicate?_eq_none_iff {table : FieldTable} :
    table.firstDuplicate? = none ↔ table.names.Nodup := by
  rw [firstDuplicate?, firstRepeated?_eq_none_iff]
  simp [names]

end FieldTable

namespace Registry

open Outcome

variable {φ : Type} {R : Registry φ}

/-- The registry after a call, be it successful or not. -/
def perform (R : Registry φ) (c : Call φ) : Registry φ := (c.run.run.run R).2

/-- The registries that runs of calls lead to, from an empty one with any options. -/
inductive Reachable : Registry φ → Prop
  | empty (options : Options) : Reachable { options }
  | call {R : Registry φ} (c : Call φ) : Reachable R → Reachable (R.perform c)

/-! ## Single calls -/

theorem get_run : (get : RegistryM φ (Registry φ)).run.run R = (.ok R, R) := rfl

theorem registerType_run (R : Registry φ) (type : MessageType) (fields : FieldTable) (factory : φ) :
    (registerType type fields factory).run.run R =
      if R.contains type then (.error (.duplicateType type), R)
      else
        match fields.firstDuplicate? with
        | some field => (.error (.duplicateField type field), R)
        | none => (.ok (), { R with types := R.types ++ [(type, { fields, factory })] }) := by
  unfold registerType
  rw [run_bind_of_ok get_run]
  cases R.contains type with
  | true => rfl
  | false => cases fields.firstDuplicate? <;> rfl

theorem ensureNameFree_run (R : Registry φ) (name : String) :
    (ensureNameFree name).run.run R =
      match R.names.lookup name with
      | some existing => (.error (.duplicateName name existing), R)
      | none => (.ok (), R) := by
  unfold ensureNameFree
  rw [run_bind_of_ok get_run]
  cases R.names.lookup name <;> rfl

theorem registerName_run (R : Registry φ) (name : String) (type : MessageType) :
    (registerName name type).run.run R =
      match R.names.lookup name with
      | some existing => (.error (.duplicateName name existing), R)
      | none => (.ok (), { R with names := R.names ++ [(name, type)] }) := by
  unfold registerName
  have h := ensureNameFree_run R name
  cases hn : R.names.lookup name with
  | none => rw [hn] at h; rw [run_bind_of_ok h]; rfl
  | some existing => rw [hn] at h; rw [run_bind_of_error h]

/-- What a registration does. -/
theorem register_run_eq (R : Registry φ) (d : Definition φ) :
    (register d).run.run R =
      match R.names.lookup d.name with
      | some existing => (.error (.duplicateName d.name existing), R)
      | none =>
        if R.contains d.type then (.error (.duplicateType d.type), R)
        else
          match d.fields.firstDuplicate? with
          | some field => (.error (.duplicateField d.type field), R)
          | none => (.ok (), { R with
              types := R.types ++ [(d.type, { fields := d.fields, factory := d.factory })]
              names := R.names ++ [(d.name, d.type)] }) := by
  unfold register
  -- The name is looked up before the type is recorded, so that a name in use leaves no type behind.
  have hname := ensureNameFree_run R d.name
  cases hn : R.names.lookup d.name with
  | some existing => rw [hn] at hname; exact run_bind_of_error hname
  | none =>
    rw [hn] at hname
    rw [run_bind_of_ok hname]
    have htype := registerType_run R d.type d.fields d.factory
    cases hc : R.contains d.type with
    | true => rw [hc] at htype; exact run_bind_of_error htype
    | false =>
      cases hd : d.fields.firstDuplicate? with
      | some field => rw [hc, hd] at htype; exact run_bind_of_error htype
      | none =>
        rw [hc, hd] at htype
        -- The type that is recorded by now has not changed the names, so the name is still free.
        rw [run_bind_of_ok htype, registerName_run]
        dsimp only
        rw [hn]
        rfl

/-- A registration either fails and records nothing, or records both the type and the name. -/
theorem register_run (R : Registry φ) (d : Definition φ) :
    (∃ e, (register d).run.run R = (.error e, R)) ∨
      (R.names.lookup d.name = none ∧ R.contains d.type = false ∧ d.fields.names.Nodup ∧
        (register d).run.run R = (.ok (), { R with
          types := R.types ++ [(d.type, { fields := d.fields, factory := d.factory })]
          names := R.names ++ [(d.name, d.type)] })) := by
  rw [register_run_eq]
  split
  · exact .inl ⟨_, rfl⟩
  · next hn =>
    split
    · exact .inl ⟨_, rfl⟩
    · next hc =>
      split
      · exact .inl ⟨_, rfl⟩
      · next hd =>
        exact .inr ⟨hn, Bool.eq_false_iff.2 hc, FieldTable.firstDuplicate?_eq_none_iff.1 hd, rfl⟩

/-! ## Runs -/

/-- No registered table declares a field twice. -/
def DistinctFields (R : Registry φ) : Prop := ∀ entry ∈ R.types, entry.2.fields.names.Nodup

/-- No type is registered twice. -/
def DistinctTypes (R : Registry φ) : Prop := (R.types.map (·.1)).Nodup

/-- A call leaves the registered types as they are, or adds a new one whose fields are distinct. -/
theorem types_perform (R : Registry φ) (c : Call φ) :
    (R.perform c).types = R.types ∨ ∃ type entry, R.contains type = false ∧
      entry.fields.names.Nodup ∧ (R.perform c).types = R.types ++ [(type, entry)] := by
  unfold perform
  cases c with
  | register d =>
    rcases register_run R d with ⟨e, h⟩ | ⟨_, hc, hd, h⟩
    · exact .inl (by rw [Call.run, h])
    · exact .inr ⟨_, _, hc, hd, by rw [Call.run, h]⟩
  | registerType type fields factory =>
    rw [Call.run, registerType_run]
    split
    · exact .inl rfl
    · next hc =>
      split
      · exact .inl rfl
      · next hd =>
        exact .inr ⟨_, _, Bool.eq_false_iff.2 hc, FieldTable.firstDuplicate?_eq_none_iff.1 hd, rfl⟩
  | registerName name type =>
    rw [Call.run, registerName_run]
    split <;> exact .inl rfl
  | setOptions options => exact .inl rfl

theorem DistinctFields.perform (h : R.DistinctFields) (c : Call φ) :
    (R.perform c).DistinctFields := by
  intro entry hentry
  rcases types_perform R c with htypes | ⟨type, added, _, hadded, htypes⟩
  · exact h entry (htypes ▸ hentry)
  · rw [htypes, List.mem_append, List.mem_singleton] at hentry
    rcases hentry with hentry | rfl
    · exact h entry hentry
    · exact hadded

/-- No table that a run has registered declares a field twice. -/
theorem Reachable.distinctFields (h : R.Reachable) : R.DistinctFields := by
  induction h with
  | empty options => exact fun _ h => absurd h List.not_mem_nil
  | call c _ ih => exact ih.perform c

theorem DistinctTypes.perform (h : R.DistinctTypes) (c : Call φ) :
    (R.perform c).DistinctTypes := by
  unfold DistinctTypes
  rcases types_perform R c with htypes | ⟨type, added, hnew, _, htypes⟩
  · rw [htypes]
    exact h
  · rw [contains, Option.isSome_eq_false_iff, Option.isNone_iff_eq_none] at hnew
    rw [htypes]
    exact Tree.nodup_keys_append_iff.2 ⟨h, hnew⟩

/-- No run registers a type twice. -/
theorem Reachable.distinctTypes (h : R.Reachable) : R.DistinctTypes := by
  induction h with
  | empty options => exact List.nodup_nil
  | call c _ ih => exact ih.perform c

/-- No name is bound twice. -/
def DistinctNames (R : Registry φ) : Prop := (R.names.map (·.1)).Nodup

/-- A call leaves the bound names as they are, or binds a new one. -/
theorem names_perform (R : Registry φ) (c : Call φ) :
    (R.perform c).names = R.names ∨ ∃ name type, R.names.lookup name = none ∧
      (R.perform c).names = R.names ++ [(name, type)] := by
  unfold perform
  cases c with
  | register d =>
    rcases register_run R d with ⟨e, h⟩ | ⟨hn, _, _, h⟩
    · exact .inl (by rw [Call.run, h])
    · exact .inr ⟨_, _, hn, by rw [Call.run, h]⟩
  | registerType type fields factory =>
    rw [Call.run, registerType_run]
    split
    · exact .inl rfl
    · split <;> exact .inl rfl
  | registerName name type =>
    rw [Call.run, registerName_run]
    split
    · exact .inl rfl
    · next hn => exact .inr ⟨_, _, hn, rfl⟩
  | setOptions options => exact .inl rfl

theorem DistinctNames.perform (h : R.DistinctNames) (c : Call φ) :
    (R.perform c).DistinctNames := by
  unfold DistinctNames
  rcases names_perform R c with hnames | ⟨name, type, hnew, hnames⟩
  · rw [hnames]
    exact h
  · rw [hnames]
    exact Tree.nodup_keys_append_iff.2 ⟨h, hnew⟩

/-- No run binds a name twice. -/
theorem Reachable.distinctNames (h : R.Reachable) : R.DistinctNames := by
  induction h with
  | empty options => exact List.nodup_nil
  | call c _ ih => exact ih.perform c

/-- A program of registrations leads from reachable registries to reachable ones, also where it
    fails. -/
def Reaches {α : Type} (x : RegistryM φ α) : Prop :=
  ∀ R : Registry φ, R.Reachable → (x.run.run R).2.Reachable

theorem Reaches.run (c : Call φ) : Reaches c.run := fun _ h => .call c h

theorem Reaches.bind {α β : Type} {x : RegistryM φ α} {f : α → RegistryM φ β} (hx : Reaches x)
    (hf : ∀ a, Reaches (f a)) : Reaches (x >>= f) := by
  intro R h
  have hR := hx R h
  rcases hrun : x.run.run R with ⟨e | a, R'⟩
  · rw [hrun] at hR
    rw [run_bind_of_error hrun]
    exact hR
  · rw [hrun] at hR
    rw [run_bind_of_ok hrun]
    exact hf a R' hR

theorem Reaches.forM {δ : Type} {f : δ → RegistryM φ Unit} (hf : ∀ d, Reaches (f d))
    (ds : List δ) : Reaches (ds.forM f) := by
  induction ds with
  | nil => exact fun R h => h
  | cons d ds ih => exact (hf d).bind fun _ => ih

/-! ## Lookups -/

theorem entry_eq_ok_iff {type : MessageType} {entry : TypeEntry φ} :
    R.entry type = .ok entry ↔ R.types.lookup type = some entry := by
  unfold Registry.entry
  cases R.types.lookup type <;> simp

theorem lookupByName_eq_ok_iff {name : String} {type : MessageType} :
    R.lookupByName name = .ok type ↔ R.names.lookup name = some type := by
  unfold lookupByName
  cases R.names.lookup name <;> simp

theorem lookupFields_of_entry {type : MessageType} {entry : TypeEntry φ}
    (h : R.entry type = .ok entry) : R.lookupFields type = .ok entry.fields := by
  rw [lookupFields, h]
  rfl

theorem lookupFields_eq_ok_iff {type : MessageType} {table : FieldTable} :
    R.lookupFields type = .ok table ↔
      ∃ entry, R.entry type = .ok entry ∧ entry.fields = table := by
  constructor
  · intro h
    unfold lookupFields at h
    cases he : R.entry type with
    | error e => rw [he] at h; cases h
    | ok entry => rw [he] at h; cases h; exact ⟨entry, rfl, rfl⟩
  · rintro ⟨entry, he, rfl⟩
    exact lookupFields_of_entry he

/-- A type has a table if it is registered, and is unknown otherwise. -/
theorem lookupFields_cases (R : Registry φ) (type : MessageType) :
    (R.contains type = true ∧ ∃ table, R.lookupFields type = .ok table) ∨
      (R.contains type = false ∧ R.lookupFields type = .error (.unknownType type)) := by
  unfold contains lookupFields Registry.entry
  cases R.types.lookup type with
  | some entry => exact .inl ⟨rfl, entry.fields, rfl⟩
  | none => exact .inr ⟨rfl, rfl⟩

theorem DistinctFields.entry (h : R.DistinctFields) {type : MessageType} {entry : TypeEntry φ}
    (he : R.entry type = .ok entry) : entry.fields.names.Nodup :=
  h (type, entry) (Tree.mem_of_lookup (entry_eq_ok_iff.1 he))

theorem DistinctFields.lookupFields (h : R.DistinctFields) {type : MessageType}
    {table : FieldTable} (ht : R.lookupFields type = .ok table) : table.names.Nodup := by
  obtain ⟨entry, he, rfl⟩ := lookupFields_eq_ok_iff.1 ht
  exact h.entry he

/-- What is recorded for a type is what is found for it. -/
theorem DistinctTypes.entry (h : R.DistinctTypes) {type : MessageType} {entry : TypeEntry φ}
    (he : (type, entry) ∈ R.types) : R.entry type = .ok entry :=
  entry_eq_ok_iff.2 (Tree.lookup_of_mem h he)

/-! ## Numbers of types -/

/-- Wherever the number of the type stands in the registry, it has the name of the type. -/
structure OneName (R : Registry φ) (type : MessageType) : Prop where
  types : ∀ x ∈ R.types, x.1.id = type.id → x.1.name = type.name
  names : ∀ x ∈ R.names, x.2.id = type.id → x.2.name = type.name

theorem eq_iff_id_eq {type other : MessageType} (h : other.id = type.id → other.name = type.name) :
    other = type ↔ other.id = type.id := by
  refine ⟨congrArg MessageType.id, fun hid => ?_⟩
  obtain ⟨id, name⟩ := other
  cases hid
  cases h rfl
  rfl

theorem lookup_eq_find?_id {α : Type} {entries : List (MessageType × α)} {type : MessageType}
    (h : ∀ x ∈ entries, x.1.id = type.id → x.1.name = type.name) :
    entries.lookup type = (entries.find? (·.1.id = type.id)).map (·.2) := by
  induction entries with
  | nil => rfl
  | cons x entries ih =>
    rw [List.forall_mem_cons] at h
    rw [List.lookup_cons, List.find?_cons, ih h.2]
    by_cases hid : x.1.id = type.id
    · rw [(eq_iff_id_eq h.1).2 hid, beq_self_eq_true, decide_eq_true rfl]
      rfl
    · have hne : type ≠ x.1 := fun heq => hid (congrArg MessageType.id heq.symm)
      rw [beq_false_of_ne hne, decide_eq_false hid]

/-- What is registered for a type is found by its number. -/
theorem OneName.lookup_types {type : MessageType} (h : R.OneName type) :
    R.types.lookup type = (R.types.find? (·.1.id = type.id)).map (·.2) :=
  lookup_eq_find?_id h.types

/-- The names of a type are those that are bound to its number. -/
theorem OneName.filter_names {type : MessageType} (h : R.OneName type) :
    R.names.filter (·.2 = type) = R.names.filter (·.2.id = type.id) :=
  List.filter_congr fun x hx => decide_eq_decide.2 (eq_iff_id_eq (h.names x hx))

end Registry

end Missive
