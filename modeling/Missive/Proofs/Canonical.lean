import Mathlib.Logic.Relation
import Missive.Decode
import Missive.Proofs.Registrations
import Missive.Proofs.Tree

/-!
# Canonical trees

The *canonical form* of a tree is what a registry declares of it. Wherever a message is referred
to, an object keeps the declared fields, in the order of the table; a field that is absent and may
be is null, and a key that is not declared is gone. Opaque leaves, nodes of another shape and
nodes under references that lead nowhere stay as they are.

* `Registry.canon`: the canonical form under a descriptor.
* `Registry.canon_object`: it looks at the members only under the declared names.
* `Registry.lookup_canon`: what a canonical object has under a declared name.
-/

namespace Missive.Registry

open Outcome

variable {φ : Type} {R : Registry φ}

/-- The table of the type that is referred to, if it is registered. -/
def tableOf? (R : Registry φ) (target : TypeRef) : Option FieldTable :=
  (R.resolve target >>= R.lookupFields).toOption

/-- The canonical form of a tree under a descriptor. -/
def canon (R : Registry φ) (d : Descriptor) (t : Tree) : Tree :=
  match d, t with
  | .array element, .array items => .array (items.map fun t => R.canon element t)
  | .message target, .object members =>
    match R.tableOf? target with
    | some table =>
      .object (table.specs.filterMap fun spec =>
        match _ : members.lookup spec.name with
        | some node => some (spec.name, R.canon spec.type node)
        | none => if allowsAbsent R.options spec then some (spec.name, .null) else none)
    | none => .object members
  | _, t => t
termination_by sizeOf t
decreasing_by
  · exact Tree.sizeOf_item_lt ‹_›
  · exact Tree.sizeOf_member_lt (Tree.mem_of_lookup ‹_›)

/-- What the canonical form of an object has for a declared field. -/
def canonField (R : Registry φ) (members : List (String × Tree)) (spec : FieldSpec) :
    Option (String × Tree) :=
  match (members.lookup spec.name).map (R.canon spec.type) with
  | some node => some (spec.name, node)
  | none => if allowsAbsent R.options spec then some (spec.name, .null) else none

/-! ## Equations -/

theorem canon_object {target : TypeRef} {table : FieldTable} (h : R.tableOf? target = some table)
    (members : List (String × Tree)) :
    R.canon (.message target) (.object members) =
      .object (table.specs.filterMap (R.canonField members)) := by
  rw [canon, h]
  dsimp only
  congr 2
  funext spec
  unfold canonField
  split
  · next hl => rw [hl]; rfl
  · next hl => rw [hl]; rfl

theorem canon_array (element : Descriptor) (items : List Tree) :
    R.canon (.array element) (.array items) = .array (items.map (R.canon element)) := by
  rw [canon]

/-- A node that is no container is canonical. -/
theorem canon_of_nesting_eq_zero {t : Tree} (h : t.nesting = 0) (d : Descriptor) :
    R.canon d t = t := by
  cases t with
  | array items => cases h
  | object members => cases h
  | _ => rw [canon] <;> nofun

theorem canon_primitive (t : Tree) : R.canon .primitive t = t := by
  rw [canon] <;> nofun

theorem canon_message_array (target : TypeRef) (items : List Tree) :
    R.canon (.message target) (.array items) = .array items := by
  rw [canon] <;> nofun

theorem canon_array_object (element : Descriptor) (members : List (String × Tree)) :
    R.canon (.array element) (.object members) = .object members := by
  rw [canon] <;> nofun

theorem canon_of_tableOf?_eq_none {target : TypeRef} (h : R.tableOf? target = none) (t : Tree) :
    R.canon (.message target) t = t := by
  cases t with
  | object members => rw [canon, h]
  | _ => rw [canon] <;> nofun

theorem tableOf?_eq_some_iff {target : TypeRef} {table : FieldTable} :
    R.tableOf? target = some table ↔ ∃ type entry, R.resolve target = .ok type ∧
      R.entry type = .ok entry ∧ entry.fields = table := by
  rw [tableOf?, toOption_eq_some_iff, bind_eq_ok_iff]
  simp only [lookupFields_eq_ok_iff, exists_and_left]

/-! ## Canonical members -/

theorem canonField_name {members : List (String × Tree)} {spec : FieldSpec}
    {member : String × Tree} (h : R.canonField members spec = some member) :
    member.1 = spec.name := by
  unfold canonField at h
  split at h
  · cases h; rfl
  · split at h <;> cases h
    rfl

/-- The keys of a canonical object are declared. -/
theorem mem_names_of_mem_canon (table : FieldTable) {members : List (String × Tree)}
    {key : String}
    (h : key ∈ (table.specs.filterMap (R.canonField members)).map (·.1)) : key ∈ table.names := by
  obtain ⟨member, hm, rfl⟩ := List.mem_map.1 h
  obtain ⟨spec, hs, hf⟩ := List.mem_filterMap.1 hm
  exact List.mem_map.2 ⟨spec, hs, (canonField_name hf).symm⟩

/-- Under a declared name a canonical object has the canonical field of that name. -/
theorem lookup_canon {table : FieldTable} (hn : table.names.Nodup)
    (members : List (String × Tree)) {spec : FieldSpec} (hs : spec ∈ table.specs) :
    (table.specs.filterMap (R.canonField members)).lookup spec.name =
      (R.canonField members spec).map (·.2) := by
  obtain ⟨specs⟩ := table
  induction specs with
  | nil => exact absurd hs List.not_mem_nil
  | cons first specs ih =>
    obtain ⟨hfirst, hn⟩ := List.nodup_cons.1 hn
    cases hf : R.canonField members first with
    | none =>
      rw [List.filterMap_cons_none hf]
      rcases List.mem_cons.1 hs with rfl | hs
      · -- No other field has this name.
        rw [hf, Option.map_none, List.lookup_eq_none_iff]
        intro member hm
        refine bne_iff_ne.2 fun heq => hfirst ?_
        exact mem_names_of_mem_canon ⟨specs⟩ (List.mem_map.2 ⟨member, hm, heq.symm⟩)
      · exact ih hn hs
    | some member =>
      have hname := canonField_name hf
      rw [List.filterMap_cons_some hf, List.lookup_cons]
      rcases List.mem_cons.1 hs with rfl | hs
      · rw [hname, beq_self_eq_true, hf]
        rfl
      · have hne : spec.name ≠ member.1 := by
          rw [hname]
          exact fun heq => hfirst (List.mem_map.2 ⟨spec, hs, heq⟩)
        rw [beq_false_of_ne hne]
        exact ih hn hs

/-! ## Edits -/

/-- A change of a tree that a registry does not look at: of the order of an object's keys, or by
    the removal of a key that is not declared; or such a change further down, in an item or in a
    declared field. -/
inductive Edit (R : Registry φ) : Descriptor → Tree → Tree → Prop
  | permute {target : TypeRef} {table : FieldTable} {members members' : List (String × Tree)}
      (hr : R.tableOf? target = some table) (hn : (members.map (·.1)).Nodup)
      (hp : members.Perm members') : Edit R (.message target) (.object members) (.object members')
  | remove {target : TypeRef} {table : FieldTable} {before after : List (String × Tree)}
      {key : String} {node : Tree} (hr : R.tableOf? target = some table)
      (hk : key ∉ table.names) : Edit R (.message target)
        (.object (before ++ (key, node) :: after)) (.object (before ++ after))
  | field {target : TypeRef} {table : FieldTable} {before after : List (String × Tree)}
      {spec : FieldSpec} {node node' : Tree} (hr : R.tableOf? target = some table)
      (hs : spec ∈ table.specs) (h : Edit R spec.type node node') : Edit R (.message target)
        (.object (before ++ (spec.name, node) :: after))
        (.object (before ++ (spec.name, node') :: after))
  | item {element : Descriptor} {before after : List Tree} {t t' : Tree}
      (h : Edit R element t t') : Edit R (.array element)
        (.array (before ++ t :: after)) (.array (before ++ t' :: after))

/-- Objects that have the same canonical nodes under the declared names have the same canonical
    form. -/
theorem canon_object_congr {target : TypeRef} {table : FieldTable}
    {members members' : List (String × Tree)} (hr : R.tableOf? target = some table)
    (h : ∀ spec ∈ table.specs, (members.lookup spec.name).map (R.canon spec.type) =
      (members'.lookup spec.name).map (R.canon spec.type)) :
    R.canon (.message target) (.object members) = R.canon (.message target) (.object members') := by
  rw [canon_object hr, canon_object hr]
  refine congrArg Tree.object (List.filterMap_congr fun spec hs => ?_)
  rw [canonField, canonField, h spec hs]

/-- A key that is not declared hides none that is. -/
theorem lookup_remove {table : FieldTable} {before after : List (String × Tree)} {key : String}
    {node : Tree} (hk : key ∉ table.names) {spec : FieldSpec} (hs : spec ∈ table.specs) :
    (before ++ (key, node) :: after).lookup spec.name = (before ++ after).lookup spec.name := by
  have hne : spec.name ≠ key := fun heq => hk (List.mem_map.2 ⟨spec, hs, heq⟩)
  rw [List.lookup_append, List.lookup_append, List.lookup_cons, beq_false_of_ne hne]

/-- Edits leave the canonical form unchanged. -/
theorem Edit.canon_eq (hR : R.DistinctFields) {d : Descriptor} {t t' : Tree} (h : R.Edit d t t') :
    R.canon d t = R.canon d t' := by
  induction h with
  | permute hr hn hp => exact canon_object_congr hr fun spec _ => by rw [Tree.lookup_perm hn hp]
  | remove hr hk => exact canon_object_congr hr fun spec hs => by rw [lookup_remove hk hs]
  | @field target table before after spec node node' hr hs _ ih =>
    obtain ⟨type, entry, _, he, rfl⟩ := tableOf?_eq_some_iff.1 hr
    refine canon_object_congr hr fun spec' hs' => ?_
    rcases Tree.lookup_replace spec.name node node' spec'.name with heq | ⟨hname, hl, hl'⟩
    · rw [heq]
    · -- Only the edited field has this name.
      obtain rfl := List.inj_on_of_nodup_map (hR.entry he) hs' hs hname
      rw [hl, hl']
      exact congrArg some ih
  | item _ ih =>
    rw [canon_array, canon_array, List.map_append, List.map_append, List.map_cons, List.map_cons,
      ih]

end Missive.Registry
