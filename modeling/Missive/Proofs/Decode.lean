import Mathlib.Data.List.Nodup
import Missive.Decode
import Missive.Proofs.Outcome

/-!
# Decoding step by step

The steps of decoding, and what they amount to where factories do nothing but build or fail. A node
under a reference is checked for its depth, its reference and its shape, in this order
(`Registry.decodeAt_node`, and `Registry.decodeAt_message` for such factories); what follows is a
step of its own, the reading of an object with a given table (`Registry.decodeObject`).

* `Registry.decodeField`: the value of a declared field.
* `Registry.decodeObject`: the message of an object.
* `Registry.decodeAt_path_induction`: what a successful decoding is made of, as an induction
  principle; and `Registry.decodeAt_induction`, where the paths do not matter.
-/

namespace Missive

/-! ## Declared fields -/

namespace FieldTable

variable {table : FieldTable} {name : String} {spec : FieldSpec}

theorem mem_of_get? (h : table.get? name = some spec) : spec ∈ table.specs ∧ spec.name = name := by
  unfold get? at h
  exact ⟨List.mem_of_find?_eq_some h, by simpa using List.find?_some h⟩

theorem get?_of_mem (hn : table.names.Nodup) (hs : spec ∈ table.specs) :
    table.get? spec.name = some spec := by
  cases h : table.get? spec.name with
  | none =>
    unfold get? at h
    exact absurd (List.find?_eq_none.1 h spec hs) (by simp)
  | some spec' =>
    obtain ⟨hs', hname⟩ := mem_of_get? h
    rw [List.inj_on_of_nodup_map hn hs' hs hname]

theorem get?_eq_none_iff : table.get? name = none ↔ name ∉ table.names := by
  rw [get?, List.find?_eq_none, names, List.mem_map]
  constructor
  · rintro h ⟨spec, hs, hname⟩
    exact h spec hs (decide_eq_true hname)
  · intro h spec hs hname
    exact h ⟨spec, hs, of_decide_eq_true hname⟩

end FieldTable

namespace Registry

open List (Forall₂)
open Outcome

section Steps

variable {m : Type → Type} [Monad m] [MonadExceptOf Error m] {μ : Type}

/-- The value of a declared field of an object. -/
def decodeField (R : Registry (Factory m μ)) (path : Path) (depth : UInt32)
    (members : List (String × Tree)) (spec : FieldSpec) : m (String × Value μ) :=
  match members.lookup spec.name with
  | some node => do
    let value ← R.decodeAt (path.field spec.name) (depth + 1) node spec.type
    return (spec.name, value)
  | none =>
    if allowsAbsent R.options spec then return (spec.name, .null)
    else throw (.missingField path spec.name)

/-- The first key that is not declared, if such keys are denied. -/
def deniedKey? {φ : Type} (R : Registry φ) (table : FieldTable) (members : List (String × Tree)) :
    Option String :=
  if R.options.denyUnknownFields then unknownKey? table members else none

/-- The message of an object, whose type is registered with the given entry. -/
def decodeObject (R : Registry (Factory m μ)) (path : Path) (depth : UInt32)
    (entry : TypeEntry (Factory m μ)) (members : List (String × Tree)) : m (Value μ) :=
  match R.deniedKey? entry.fields members with
  | some key => throw (.unknownField path key)
  | none => do
    let entries ← entry.fields.specs.mapM (R.decodeField path depth members)
    let message ← entry.factory { path, entries }
    return .message message

/-- The message of a node, whose type is registered with the given entry. -/
def decodeNode (R : Registry (Factory m μ)) (path : Path) (depth : UInt32) (t : Tree)
    (entry : TypeEntry (Factory m μ)) : m (Value μ) :=
  match t with
  | .object members => R.decodeObject path depth entry members
  | t => throw (.typeMismatch path "object" t.kind)

/-- The values of the items of a node, within the depth. -/
def decodeItems (R : Registry (Factory m μ)) (path : Path) (depth : UInt32) (t : Tree)
    (element : Descriptor) : m (Value μ) :=
  match t with
  | .array items => do
    let values ← items.zipIdx.mapM fun (node, i) =>
      R.decodeAt (path.index i) (depth + 1) node element
    return .array values
  | t => throw (.typeMismatch path "array" t.kind)

variable {R : Registry (Factory m μ)} {path : Path} {depth : UInt32} {t : Tree}

theorem decodeAt_leaf (ht : t.isNull = false) : R.decodeAt path depth t .primitive =
    if R.allowsLeaf t depth then pure (.leaf t) else throw R.tooDeep := by
  unfold decodeAt
  rw [ht]
  rfl

/-- A node under a reference is checked for its depth, its reference and its shape, in this
    order. -/
theorem decodeAt_node [LawfulThrow Error m] {target : TypeRef} (ht : t.isNull = false) :
    R.decodeAt path depth t (.message target) =
      if depth < R.options.maxDepth then do
        let type ← ofExcept (R.resolve target)
        let entry ← ofExcept (R.entry type)
        R.decodeNode path depth t entry
      else throw R.tooDeep := by
  unfold decodeAt decodeNode
  rw [ht, if_neg Bool.false_ne_true]
  dsimp only
  split
  · refine bind_congr fun type => bind_congr fun entry => ?_
    cases t with
    | object members =>
      dsimp only
      -- The keys are looked at only where some may be denied.
      unfold decodeObject deniedKey?
      split
      · cases unknownKey? entry.fields members with
        | some key => exact LawfulThrow.throw_bind _ _
        | none => rfl
      · rfl
    | _ => rfl
  · rfl

theorem decodeAt_elements {element : Descriptor} (ht : t.isNull = false) :
    R.decodeAt path depth t (.array element) =
      if depth < R.options.maxDepth then R.decodeItems path depth t element
      else throw R.tooDeep := by
  unfold decodeAt
  rw [ht, if_neg Bool.false_ne_true]
  dsimp only
  split
  · cases t <;> rfl
  · rfl

end Steps

variable {μ : Type} {R : Registry (Factory (Except Error) μ)}

/-- The message of a node under a reference, within the depth. -/
def decodeTarget (R : Registry (Factory (Except Error) μ)) (path : Path) (depth : UInt32)
    (t : Tree) (target : TypeRef) : Except Error (Value μ) := do
  let type ← R.resolve target
  let entry ← R.entry type
  match t with
  | .object members => R.decodeObject path depth entry members
  | t => .error (.typeMismatch path "object" t.kind)

/-! ## One step -/

theorem isNull_iff {t : Tree} : t.isNull = true ↔ t = .null := by
  cases t <;> simp [Tree.isNull]

theorem isNull_eq_false_iff {t : Tree} : t.isNull = false ↔ t ≠ .null := by
  rw [← Bool.not_eq_true, isNull_iff]

variable {path : Path} {depth : UInt32} {t : Tree}

@[simp] theorem decodeAt_null {d : Descriptor} : R.decodeAt path depth .null d = .ok .null := by
  unfold decodeAt
  rfl

theorem decodeAt_primitive (ht : t.isNull = false) :
    R.decodeAt path depth t .primitive =
      if R.allowsLeaf t depth then .ok (.leaf t) else .error R.tooDeep :=
  decodeAt_leaf ht

theorem decodeAt_message {target : TypeRef} (ht : t.isNull = false) :
    R.decodeAt path depth t (.message target) =
      if depth < R.options.maxDepth then R.decodeTarget path depth t target
      else .error R.tooDeep := by
  rw [decodeAt_node ht, ofExcept_eq]
  simp only [ofExcept_eq]
  rfl

theorem decodeAt_array {element : Descriptor} (ht : t.isNull = false) :
    R.decodeAt path depth t (.array element) =
      if depth < R.options.maxDepth then R.decodeItems path depth t element
      else .error R.tooDeep :=
  decodeAt_elements ht

theorem decodeTarget_object {members : List (String × Tree)} {target : TypeRef}
    {type : MessageType} {entry : TypeEntry (Factory (Except Error) μ)}
    (hr : R.resolve target = .ok type) (he : R.entry type = .ok entry) :
    R.decodeTarget path depth (.object members) target =
      R.decodeObject path depth entry members := by
  rw [decodeTarget, hr, ok_bind, he, ok_bind]

/-! ## Denied keys -/

/-- No key is denied if all are declared. -/
theorem deniedKey?_eq_none {table : FieldTable} {members : List (String × Tree)}
    (h : ∀ key ∈ members.map (·.1), key ∈ table.names) : R.deniedKey? table members = none := by
  unfold deniedKey? unknownKey?
  split
  · rw [List.find?_eq_none]
    intro key hkey
    rw [Option.isNone_iff_eq_none, FieldTable.get?_eq_none_iff, not_not]
    exact h key hkey
  · rfl

theorem deniedKey?_eq_some {table : FieldTable} {members : List (String × Tree)} {key : String}
    (h : R.deniedKey? table members = some key) : R.options.denyUnknownFields = true ∧
      key ∈ members.map (·.1) ∧ table.get? key = none := by
  unfold deniedKey? unknownKey? at h
  split at h
  · next hd =>
    exact ⟨hd, List.mem_of_find?_eq_some h, by simpa using List.find?_some h⟩
  · cases h

/-- If keys may be denied and none is, all are declared. -/
theorem mem_names_of_deniedKey? {table : FieldTable} {members : List (String × Tree)}
    (hd : R.options.denyUnknownFields = true) (h : R.deniedKey? table members = none) {key : String}
    (hk : key ∈ members.map (·.1)) : key ∈ table.names := by
  rw [deniedKey?, if_pos hd, unknownKey?, List.find?_eq_none] at h
  have hkey := h key hk
  rwa [Option.isNone_iff_eq_none, FieldTable.get?_eq_none_iff, not_not] at hkey

/-- No key is denied among keys of which none is. -/
theorem deniedKey?_eq_none_of_subset {table : FieldTable} {members members' : List (String × Tree)}
    (hsub : ∀ key ∈ members'.map (·.1), key ∈ members.map (·.1))
    (h : R.deniedKey? table members = none) : R.deniedKey? table members' = none := by
  by_cases hd : R.options.denyUnknownFields = true
  · exact deniedKey?_eq_none fun key hkey => mem_names_of_deniedKey? hd h (hsub key hkey)
  · rw [deniedKey?, if_neg hd]

/-! ## Success -/

/-- The entry of a message that is decoded from the members of an object: what the node of the
    field gives, or null if the field is absent and may be. -/
structure DecodesField (decodes : Tree → Descriptor → Value μ → Prop) (options : Options)
    (members : List (String × Tree)) (spec : FieldSpec) (entry : String × Value μ) : Prop where
  name : entry.1 = spec.name
  value : (∃ node, members.lookup spec.name = some node ∧ decodes node spec.type entry.2) ∨
    (members.lookup spec.name = none ∧ allowsAbsent options spec = true ∧ entry.2 = .null)

/-- The names of the decoded entries are the declared ones. -/
theorem DecodesField.names {decodes : Tree → Descriptor → Value μ → Prop} {options : Options}
    {members : List (String × Tree)} {specs : List FieldSpec} {entries : List (String × Value μ)}
    (h : Forall₂ (DecodesField decodes options members) specs entries) :
    entries.map (·.1) = specs.map (·.name) :=
  map_eq_map_of_forall₂ (h.imp fun _ _ hf => hf.name)

theorem decodeField_eq_ok {members : List (String × Tree)} {spec : FieldSpec}
    {entry : String × Value μ} (h : R.decodeField path depth members spec = .ok entry) :
    DecodesField (fun node d v => R.decodeAt (path.field spec.name) (depth + 1) node d = .ok v)
      R.options members spec entry := by
  unfold decodeField at h
  split at h
  · next node hn =>
    obtain ⟨v, hv, h⟩ := bind_eq_ok_iff.1 h
    cases h
    exact ⟨rfl, .inl ⟨node, hn, hv⟩⟩
  · next hn =>
    split at h
    · next ha =>
      cases h
      exact ⟨rfl, .inr ⟨hn, ha, rfl⟩⟩
    · cases h

theorem decodeObject_ok {entry : TypeEntry (Factory (Except Error) μ)}
    {members : List (String × Tree)} {entries : List (String × Value μ)} {m : μ}
    (hk : R.deniedKey? entry.fields members = none)
    (h : Forall₂ (fun spec e => R.decodeField path depth members spec = .ok e)
      entry.fields.specs entries)
    (hm : entry.factory { path, entries } = .ok m) :
    R.decodeObject path depth entry members = .ok (.message m) := by
  rw [decodeObject, hk]
  dsimp only
  rw [mapM_eq_ok_iff.2 h, ok_bind, hm]
  rfl

theorem decodeField_ok {members : List (String × Tree)} {spec : FieldSpec}
    {entry : String × Value μ}
    (h : DecodesField (fun node d v => R.decodeAt (path.field spec.name) (depth + 1) node d = .ok v)
      R.options members spec entry) : R.decodeField path depth members spec = .ok entry := by
  obtain ⟨name, value⟩ := entry
  obtain ⟨rfl, ⟨node, hl, hv⟩ | ⟨hl, ha, rfl⟩⟩ := h
  · rw [decodeField, hl]
    exact bind_eq_ok_iff.2 ⟨value, hv, rfl⟩
  · rw [decodeField, hl]
    exact if_pos ha

/-- A leaf is decoded to itself. -/
theorem decodeAt_primitive_eq_ok {v : Value μ} (ht : t.isNull = false)
    (h : R.decodeAt path depth t .primitive = .ok v) :
    R.allowsLeaf t depth = true ∧ v = .leaf t := by
  rw [decodeAt_primitive ht] at h
  split at h
  · next ha =>
    cases h
    exact ⟨ha, rfl⟩
  · cases h

/-- A node under a reference is decoded if it is an object whose fields are, and the factory builds
    a message of them. -/
theorem decodeAt_message_eq_ok {target : TypeRef} {v : Value μ} (ht : t.isNull = false)
    (h : R.decodeAt path depth t (.message target) = .ok v) :
    depth < R.options.maxDepth ∧ ∃ members type entry entries m, t = .object members ∧
      v = .message m ∧ R.resolve target = .ok type ∧ R.entry type = .ok entry ∧
      R.deniedKey? entry.fields members = none ∧
      Forall₂ (fun spec e => R.decodeField path depth members spec = .ok e)
        entry.fields.specs entries ∧
      entry.factory { path, entries } = .ok m := by
  rw [decodeAt_message ht] at h
  split at h
  · next hd =>
    obtain ⟨type, hr, h⟩ := bind_eq_ok_iff.1 h
    obtain ⟨entry, he, h⟩ := bind_eq_ok_iff.1 h
    cases t with
    | object members =>
      change R.decodeObject path depth entry members = _ at h
      unfold decodeObject at h
      split at h
      · cases h
      · next hk =>
        obtain ⟨entries, hs, h⟩ := bind_eq_ok_iff.1 h
        obtain ⟨m, hm, h⟩ := bind_eq_ok_iff.1 h
        cases h
        exact ⟨hd, members, type, entry, entries, m, rfl, rfl, hr, he, hk, mapM_eq_ok_iff.1 hs, hm⟩
    | _ => cases h
  · cases h

/-- A node under an array is decoded if it is an array whose items are. -/
theorem decodeAt_array_eq_ok {element : Descriptor} {v : Value μ} (ht : t.isNull = false)
    (h : R.decodeAt path depth t (.array element) = .ok v) :
    depth < R.options.maxDepth ∧ ∃ items values, t = .array items ∧ v = .array values ∧
      Forall₂ (fun x v => R.decodeAt (path.index x.2) (depth + 1) x.1 element = .ok v)
        items.zipIdx values := by
  rw [decodeAt_array ht] at h
  split at h
  · next hd =>
    cases t with
    | array items =>
      obtain ⟨values, hv, h⟩ := bind_eq_ok_iff.1 h
      cases h
      exact ⟨hd, items, values, rfl, rfl, mapM_eq_ok_iff.1 hv⟩
    | _ => cases h
  · cases h

/-- Induction over a successful decoding. -/
theorem decodeAt_path_induction {motive : Path → UInt32 → Tree → Descriptor → Value μ → Prop}
    (null : ∀ path depth d, motive path depth .null d .null)
    (leaf : ∀ path depth t, t.isNull = false → R.allowsLeaf t depth = true →
      motive path depth t .primitive (.leaf t))
    (message : ∀ path depth members target type entry entries m, depth < R.options.maxDepth →
      R.resolve target = .ok type → R.entry type = .ok entry →
      R.deniedKey? entry.fields members = none →
      Forall₂ (fun spec e => DecodesField (motive (path.field spec.name) (depth + 1)) R.options
        members spec e) entry.fields.specs entries →
      entry.factory { path, entries } = .ok m →
      motive path depth (.object members) (.message target) (.message m))
    (array : ∀ path depth items element values, depth < R.options.maxDepth →
      Forall₂ (fun x v => motive (path.index x.2) (depth + 1) x.1 element v) items.zipIdx values →
      motive path depth (.array items) (.array element) (.array values))
    {path : Path} {depth : UInt32} {t : Tree} {d : Descriptor} {v : Value μ}
    (h : R.decodeAt path depth t d = .ok v) : motive path depth t d v := by
  -- A null is decoded before the descriptor is looked at, and is set apart here as well.
  by_cases ht : t = .null
  · subst ht
    rw [decodeAt_null] at h
    cases h
    exact null path depth d
  have ht : t.isNull = false := isNull_eq_false_iff.2 ht
  cases d with
  | primitive =>
    obtain ⟨ha, rfl⟩ := decodeAt_primitive_eq_ok ht h
    exact leaf path depth t ht ha
  | message target =>
    obtain ⟨hd, members, type, entry, entries, m, rfl, rfl, hr, he, hk, hs, hm⟩ :=
      decodeAt_message_eq_ok ht h
    refine message path depth members target type entry entries m hd hr he hk
      (hs.imp fun spec e hf => ?_) hm
    obtain ⟨hname, ⟨node, hn, hv⟩ | habsent⟩ := decodeField_eq_ok hf
    · exact ⟨hname, .inl ⟨node, hn, decodeAt_path_induction null leaf message array hv⟩⟩
    · exact ⟨hname, .inr habsent⟩
  | array element =>
    obtain ⟨hd, items, values, rfl, rfl, hv⟩ := decodeAt_array_eq_ok ht h
    refine array path depth items element values hd (hv.imp fun x v hn => ?_)
    exact decodeAt_path_induction null leaf message array hn
termination_by R.options.maxDepth.toNat - depth.toNat
decreasing_by all_goals exact depth_decreasing (by assumption)

/-- Induction over a successful decoding. Of the paths only the one that a factory is given is
    mentioned. -/
theorem decodeAt_induction {motive : UInt32 → Tree → Descriptor → Value μ → Prop}
    (null : ∀ depth d, motive depth .null d .null)
    (leaf : ∀ depth t, t.isNull = false → R.allowsLeaf t depth = true →
      motive depth t .primitive (.leaf t))
    (message : ∀ path depth members target type entry entries m, depth < R.options.maxDepth →
      R.resolve target = .ok type → R.entry type = .ok entry →
      R.deniedKey? entry.fields members = none →
      Forall₂ (DecodesField (motive (depth + 1)) R.options members) entry.fields.specs entries →
      entry.factory { path, entries } = .ok m →
      motive depth (.object members) (.message target) (.message m))
    (array : ∀ depth items element values, depth < R.options.maxDepth →
      Forall₂ (fun node v => motive (depth + 1) node element v) items values →
      motive depth (.array items) (.array element) (.array values))
    {path : Path} {depth : UInt32} {t : Tree} {d : Descriptor} {v : Value μ}
    (h : R.decodeAt path depth t d = .ok v) : motive depth t d v := by
  refine decodeAt_path_induction (motive := fun _ => motive) (fun _ => null) (fun _ => leaf)
    message ?_ h
  intro _ depth items element values hd hv
  have hitems := List.forall₂_map_left_iff (f := Prod.fst)
    (R := fun node v => motive (depth + 1) node element v).2 hv
  rw [List.zipIdx_map_fst] at hitems
  exact array depth items element values hd hitems

end Registry

end Missive
