import Missive.Proofs.Canonical
import Missive.Proofs.Decode

/-!
# Failed decodings

What a failed decoding is made of. Either the node itself is at fault: it is nested too deep, its
reference leads nowhere, it has another shape than the descriptor asks for, it has a key that is
denied or lacks one that is needed, or the factory refuses its values. Or one of its fields or
items is at fault, one step further down.

* `Registry.follow`: what is registered for the type that is referred to.
* `Registry.Fails`: the ways to fail, with the path of the node.
* `Registry.fails_of_decodeAt`: each failed decoding is one of them.
* `Registry.decodeObject_sole`: an object that leads decoding to one of the declared fields.
-/

namespace Missive

open List (Forall₂)
open Outcome

namespace Registry

section Follow

variable {φ : Type} {R : Registry φ} {target : TypeRef}

/-- What is registered for the type that is referred to. -/
def follow (R : Registry φ) (target : TypeRef) : Except Error (TypeEntry φ) := do
  let type ← R.resolve target
  R.entry type

theorem follow_eq_ok_iff {entry : TypeEntry φ} :
    R.follow target = .ok entry ↔ ∃ type, R.resolve target = .ok type ∧ R.entry type = .ok entry :=
  bind_eq_ok_iff

theorem tableOf?_of_follow {entry : TypeEntry φ} (h : R.follow target = .ok entry) :
    R.tableOf? target = some entry.fields := by
  obtain ⟨type, hr, he⟩ := follow_eq_ok_iff.1 h
  exact tableOf?_eq_some_iff.2 ⟨type, entry, hr, he, rfl⟩

theorem DistinctFields.follow (h : R.DistinctFields) {entry : TypeEntry φ}
    (hf : R.follow target = .ok entry) : entry.fields.names.Nodup := by
  obtain ⟨type, _, he⟩ := follow_eq_ok_iff.1 hf
  exact h.entry he

end Follow

variable {μ : Type} {R : Registry (Factory (Except Error) μ)}

/-- How decoding fails that starts at a path and a depth. -/
inductive Fails (R : Registry (Factory (Except Error) μ)) :
    Path → UInt32 → Tree → Descriptor → Error → Prop
  | leafTooDeep {path : Path} {depth : UInt32} {t : Tree} (ha : R.allowsLeaf t depth = false) :
      Fails R path depth t .primitive R.tooDeep
  | tooDeep {path : Path} {depth : UInt32} {t : Tree} {d : Descriptor} (ht : t.isNull = false)
      (hp : d ≠ .primitive) (hd : ¬ depth < R.options.maxDepth) : Fails R path depth t d R.tooDeep
  | reference {path : Path} {depth : UInt32} {t : Tree} {target : TypeRef} {e : Error}
      (hf : R.follow target = .error e) : Fails R path depth t (.message target) e
  | notObject {path : Path} {depth : UInt32} {t : Tree} {target : TypeRef}
      (ht : ∀ members, t ≠ .object members) :
      Fails R path depth t (.message target) (.typeMismatch path "object" t.kind)
  | denied {path : Path} {depth : UInt32} {members : List (String × Tree)} {target : TypeRef}
      {entry : TypeEntry (Factory (Except Error) μ)} {key : String}
      (hf : R.follow target = .ok entry) (hk : R.deniedKey? entry.fields members = some key) :
      Fails R path depth (.object members) (.message target) (.unknownField path key)
  | absent {path : Path} {depth : UInt32} {members : List (String × Tree)} {target : TypeRef}
      {entry : TypeEntry (Factory (Except Error) μ)} {spec : FieldSpec}
      (hf : R.follow target = .ok entry) (hs : spec ∈ entry.fields.specs)
      (hl : members.lookup spec.name = none) (ha : allowsAbsent R.options spec = false) :
      Fails R path depth (.object members) (.message target) (.missingField path spec.name)
  | field {path : Path} {depth : UInt32} {members : List (String × Tree)} {target : TypeRef}
      {entry : TypeEntry (Factory (Except Error) μ)} {spec : FieldSpec} {node : Tree} {e : Error}
      (hd : depth < R.options.maxDepth) (hf : R.follow target = .ok entry)
      (hs : spec ∈ entry.fields.specs) (hl : members.lookup spec.name = some node)
      (h : Fails R (path.field spec.name) (depth + 1) node spec.type e) :
      Fails R path depth (.object members) (.message target) e
  | factory {path : Path} {depth : UInt32} {members : List (String × Tree)} {target : TypeRef}
      {entry : TypeEntry (Factory (Except Error) μ)} {entries : List (String × Value μ)}
      {e : Error} (hf : R.follow target = .ok entry)
      (hs : Forall₂ (fun spec e => R.decodeField path depth members spec = .ok e)
        entry.fields.specs entries)
      (he : entry.factory { path, entries } = .error e) :
      Fails R path depth (.object members) (.message target) e
  | notArray {path : Path} {depth : UInt32} {t : Tree} {element : Descriptor}
      (ht : ∀ items, t ≠ .array items) :
      Fails R path depth t (.array element) (.typeMismatch path "array" t.kind)
  | item {path : Path} {depth : UInt32} {items : List Tree} {element : Descriptor} {i : Nat}
      {node : Tree} {e : Error} (hd : depth < R.options.maxDepth) (hi : items[i]? = some node)
      (h : Fails R (path.index i) (depth + 1) node element e) :
      Fails R path depth (.array items) (.array element) e

variable {path : Path} {depth : UInt32} {t : Tree} {e : Error}

/-- A declared field fails if it is absent and may not be, or if its node fails. -/
theorem decodeField_eq_error {members : List (String × Tree)} {spec : FieldSpec}
    (h : R.decodeField path depth members spec = .error e) :
    (members.lookup spec.name = none ∧ allowsAbsent R.options spec = false ∧
      e = .missingField path spec.name) ∨
    ∃ node, members.lookup spec.name = some node ∧
      R.decodeAt (path.field spec.name) (depth + 1) node spec.type = .error e := by
  unfold decodeField at h
  split at h
  · next node hl =>
    rcases bind_eq_error_iff.1 h with hn | ⟨v, _, h⟩
    · exact .inr ⟨node, hl, hn⟩
    · cases h
  · next hl =>
    split at h
    · cases h
    · next ha =>
      cases h
      exact .inl ⟨hl, Bool.eq_false_iff.2 ha, rfl⟩

/-- An object fails by a denied key, by a declared field, or in the factory. -/
theorem decodeObject_eq_error {entry : TypeEntry (Factory (Except Error) μ)}
    {members : List (String × Tree)} (h : R.decodeObject path depth entry members = .error e) :
    (∃ key, R.deniedKey? entry.fields members = some key ∧ e = .unknownField path key) ∨
    (∃ spec ∈ entry.fields.specs, R.decodeField path depth members spec = .error e) ∨
    ∃ entries, Forall₂ (fun spec e => R.decodeField path depth members spec = .ok e)
      entry.fields.specs entries ∧ entry.factory { path, entries } = .error e := by
  unfold decodeObject at h
  split at h
  · next key hk =>
    cases h
    exact .inl ⟨key, hk, rfl⟩
  · rcases bind_eq_error_iff.1 h with hs | ⟨entries, hs, h⟩
    · exact .inr (.inl (mapM_eq_error hs))
    · rcases bind_eq_error_iff.1 h with he | ⟨m, _, h⟩
      · exact .inr (.inr ⟨entries, mapM_eq_ok_iff.1 hs, he⟩)
      · cases h

/-- A node under a reference fails by the reference, or by its shape, or as an object does. -/
theorem decodeTarget_eq_error {target : TypeRef}
    (h : R.decodeTarget path depth t target = .error e) :
    R.follow target = .error e ∨
    ((∀ members, t ≠ .object members) ∧ e = .typeMismatch path "object" t.kind) ∨
    ∃ entry members, R.follow target = .ok entry ∧ t = .object members ∧
      R.decodeObject path depth entry members = .error e := by
  unfold decodeTarget at h
  rw [← bind_assoc] at h
  rcases bind_eq_error_iff.1 h with hf | ⟨entry, hf, h⟩
  · exact .inl hf
  · cases t with
    | object members => exact .inr (.inr ⟨entry, members, hf, rfl, h⟩)
    | _ =>
      cases h
      exact .inr (.inl ⟨nofun, rfl⟩)

/-- Decoding fails in one of the given ways. -/
theorem fails_of_decodeAt {path : Path} {depth : UInt32} {t : Tree} {d : Descriptor} {e : Error}
    (h : R.decodeAt path depth t d = .error e) : R.Fails path depth t d e := by
  have ht : t.isNull = false := by
    rw [isNull_eq_false_iff]
    rintro rfl
    rw [decodeAt_null] at h
    cases h
  cases d with
  | primitive =>
    rw [decodeAt_primitive ht] at h
    split at h
    · cases h
    · next ha =>
      cases h
      exact .leafTooDeep (Bool.eq_false_iff.2 ha)
  | message target =>
    rw [decodeAt_message ht] at h
    split at h
    · next hd =>
      rcases decodeTarget_eq_error h with hf | ⟨ht, rfl⟩ | ⟨entry, members, hf, rfl, ho⟩
      · exact .reference hf
      · exact .notObject ht
      · rcases decodeObject_eq_error ho with ⟨key, hk, rfl⟩ | ⟨spec, hs, hfield⟩ | ⟨entries, hs, he⟩
        · exact .denied hf hk
        · rcases decodeField_eq_error hfield with ⟨hl, ha, rfl⟩ | ⟨node, hl, hn⟩
          · exact .absent hf hs hl ha
          · exact .field hd hf hs hl (fails_of_decodeAt hn)
        · exact .factory hf hs he
    · next hd =>
      cases h
      exact .tooDeep ht (by simp) hd
  | array element =>
    rw [decodeAt_array ht] at h
    split at h
    · next hd =>
      cases t with
      | array items =>
        rcases bind_eq_error_iff.1 h with hi | ⟨values, _, h⟩
        · obtain ⟨⟨node, i⟩, hmem, hn⟩ := mapM_eq_error hi
          exact .item hd (List.mem_zipIdx_iff_getElem?.1 hmem) (fails_of_decodeAt hn)
        · cases h
      | _ =>
        cases h
        exact .notArray nofun
    · next hd =>
      cases h
      exact .tooDeep ht (by simp) hd
termination_by R.options.maxDepth.toNat - depth.toNat
decreasing_by all_goals exact depth_decreasing (by assumption)

end Registry

/-! ## Getting to a part -/

namespace FieldTable

variable {table : FieldTable} {name : String} {node : FieldSpec → Tree}

/-- The members of an object in which all declared fields but one are null. -/
def sole (table : FieldTable) (name : String) (node : FieldSpec → Tree) : List (String × Tree) :=
  table.specs.map fun spec => (spec.name, if spec.name = name then node spec else .null)

theorem keys_sole : (table.sole name node).map (·.1) = table.names := by
  rw [sole, List.map_map]
  rfl

theorem lookup_sole (hn : table.names.Nodup) {spec : FieldSpec} (hs : spec ∈ table.specs) :
    (table.sole name node).lookup spec.name =
      some (if spec.name = name then node spec else .null) :=
  Tree.lookup_of_mem (keys_sole.symm ▸ hn) (List.mem_map.2 ⟨spec, hs, rfl⟩)

end FieldTable

namespace Registry

variable {μ : Type} {R : Registry (Factory (Except Error) μ)} {path : Path} {depth : UInt32}

/-- Past the other fields, which are null, decoding gets to the one that fails. -/
theorem decodeObject_sole {entry : TypeEntry (Factory (Except Error) μ)}
    (hn : entry.fields.names.Nodup) {spec : FieldSpec} (hs : spec ∈ entry.fields.specs)
    {node : FieldSpec → Tree} {e : Error}
    (h : R.decodeAt (path.field spec.name) (depth + 1) (node spec) spec.type = .error e) :
    R.decodeObject path depth entry (entry.fields.sole spec.name node) = .error e := by
  rw [decodeObject, deniedKey?_eq_none (FieldTable.keys_sole ▸ fun _ hk => hk)]
  refine bind_eq_error_iff.2 (.inl ?_)
  obtain ⟨before, after, hsplit⟩ := List.append_of_mem hs
  have hfront : ∀ s ∈ before, ∃ b,
      R.decodeField path depth (entry.fields.sole spec.name node) s = .ok b := by
    intro s hsb
    -- The names are distinct, so a field in front has another name.
    have hne : s.name ≠ spec.name := by
      intro heq
      rw [FieldTable.names, hsplit, List.map_append, List.map_cons, List.nodup_append] at hn
      exact hn.2.2 _ (List.mem_map.2 ⟨s, hsb, heq⟩) _ List.mem_cons_self rfl
    refine ⟨(s.name, .null), ?_⟩
    rw [decodeField, FieldTable.lookup_sole hn (hsplit ▸ List.mem_append_left _ hsb), if_neg hne]
    exact congrArg (· >>= fun value => pure (s.name, value)) decodeAt_null
  have hspec : R.decodeField path depth (entry.fields.sole spec.name node) spec = .error e := by
    rw [decodeField, FieldTable.lookup_sole hn hs, if_pos rfl]
    exact bind_eq_error_iff.2 (.inl h)
  conv => lhs; arg 2; rw [hsplit]
  exact mapM_append_cons_eq_error hfront hspec

theorem decodeItems_singleton {node : Tree} {element : Descriptor} {e : Error}
    (h : R.decodeAt (path.index 0) (depth + 1) node element = .error e) :
    R.decodeItems path depth (.array [node]) element = .error e := by
  rw [decodeItems, List.zipIdx_singleton, List.mapM_cons]
  exact bind_eq_error_iff.2 (.inl (bind_eq_error_iff.2 (.inl h)))

end Registry

end Missive
