import Mathlib
import Missive.Proofs.Decode
import Missive.Proofs.Depth
import Missive.Proofs.Outline

/-!
# Failed encodings

What a failed encoding is made of. Either the view itself is at fault: it is a float that is not
finite, it has another shape than the descriptor asks for, it is nested too deep, or it is a message
whose type is not registered or that lacks a declared field. Or one of its fields or items is at
fault, one step further down. So the error tells where to look for its cause, and what it is.

* `Registry.partAt?`: the part of a view that steps lead to, with the descriptor that is declared
  for it.
* `Registry.EncodeFails`: the ways to fail, with the path of the part at fault;
  `Registry.encodeFails_of_encodeAt`: each failed encoding is one of them.
* `Registry.Nests`: how many containers are nested in a view.
* `Registry.Explains`: the part at fault is what the error tells of.
-/

namespace Missive.Registry

open Outcome

variable {φ μ : Type} [Message μ] {R : Registry φ}

/-! ## Parts of views -/

/-- The part of a view one step further, with its descriptor: an item, or a field that is declared
    for the type that the message tells. -/
def part? (R : Registry φ) : View μ × Descriptor → Step → Option (View μ × Descriptor)
  | (.message m, .message _), .field name => do
    let table ← (R.lookupFields (messageType m)).toOption
    let spec ← table.get? name
    let v ← Message.field m name
    return (v, spec.type)
  | (.array items, .array element), .index i => items[i]?.map fun v => (v, element)
  | _, _ => none

/-- The part of a view that the steps lead to, with its descriptor. -/
def partAt? (R : Registry φ) (v : View μ) (d : Descriptor) (steps : List Step) :
    Option (View μ × Descriptor) :=
  steps.foldlM R.part? (v, d)

/-- One step leads to a declared field of a message, or to an item of an array. -/
theorem part?_eq_some {v v' : View μ} {d d' : Descriptor} {s : Step}
    (h : R.part? (v, d) s = some (v', d')) :
    (∃ m table spec, v = .message m ∧ R.lookupFields (messageType m) = .ok table ∧
      spec ∈ table.specs ∧ Message.field m spec.name = some v') ∨
    ∃ items, v = .array items ∧ v' ∈ items := by
  unfold part? at h
  split at h
  · next m _ name heq =>
    cases heq
    simp only [Option.bind_eq_bind, Option.bind_eq_some_iff, toOption_eq_some_iff] at h
    obtain ⟨table, ht, spec, hget, v, hv, heq⟩ := h
    cases heq
    obtain ⟨hs, rfl⟩ := FieldTable.mem_of_get? hget
    exact .inl ⟨m, table, spec, rfl, ht, hs, hv⟩
  · next items _ i heq =>
    cases heq
    obtain ⟨v, hi, heq⟩ := Option.map_eq_some_iff.1 h
    cases heq
    exact .inr ⟨items, rfl, List.mem_of_getElem? hi⟩
  · cases h

section Parts

variable {root : View μ} {declared : Descriptor} {path : Path}

theorem partAt?_push {part : View μ × Descriptor}
    (h : R.partAt? root declared path.steps = some part) (s : Step) :
    R.partAt? root declared (path.push s).steps = R.part? part s := by
  simp only [partAt?, Path.push, List.foldlM_append, List.foldlM_cons, List.foldlM_nil] at h ⊢
  simp [h]

theorem partAt?_field (hR : R.DistinctFields) {m : μ} {target : TypeRef} {table : FieldTable}
    {spec : FieldSpec} {v : View μ}
    (h : R.partAt? root declared path.steps = some (.message m, .message target))
    (ht : R.lookupFields (messageType m) = .ok table) (hs : spec ∈ table.specs)
    (hv : Message.field m spec.name = some v) :
    R.partAt? root declared (path.field spec.name).steps = some (v, spec.type) := by
  have hget := FieldTable.get?_of_mem (hR.lookupFields ht) hs
  rw [Path.field, partAt?_push h, part?, toOption_eq_some_iff.2 ht]
  simp [hget, hv]

theorem partAt?_index {items : List (View μ)} {element : Descriptor} {i : Nat} {v : View μ}
    (h : R.partAt? root declared path.steps = some (.array items, .array element))
    (hi : items[i]? = some v) :
    R.partAt? root declared (path.index i).steps = some (v, element) := by
  rw [Path.index, partAt?_push h, part?, hi, Option.map_some]

end Parts

/-! ## Ways to fail -/

/-- How encoding fails that starts at a path and a depth. -/
inductive EncodeFails (R : Registry φ) : Path → UInt32 → View μ → Descriptor → Error → Prop
  | nonFinite {path : Path} {depth : UInt32} {x : NonFinite} {d : Descriptor} :
      EncodeFails R path depth (.nonFinite x) d (.typeMismatch path "finite number" x.text)
  | mismatch {path : Path} {depth : UInt32} {v : View μ} {d : Descriptor} (hnull : v ≠ .null)
      (hfinite : ∀ x, v ≠ .nonFinite x) (hs : ¬v.HasShape d) :
      EncodeFails R path depth v d (.typeMismatch path d.kind v.describe)
  | leafTooDeep {path : Path} {depth : UInt32} {t : Tree} (ha : R.allowsLeaf t depth = false) :
      EncodeFails R path depth (.leaf t) .primitive R.tooDeep
  | messageTooDeep {path : Path} {depth : UInt32} {m : μ} {target : TypeRef}
      (hd : ¬depth < R.options.maxDepth) :
      EncodeFails R path depth (.message m) (.message target) R.tooDeep
  | arrayTooDeep {path : Path} {depth : UInt32} {items : List (View μ)} {element : Descriptor}
      (hd : ¬depth < R.options.maxDepth) :
      EncodeFails R path depth (.array items) (.array element) R.tooDeep
  | unregistered {path : Path} {depth : UInt32} {m : μ} {target : TypeRef}
      (hc : R.contains (messageType m) = false) :
      EncodeFails R path depth (.message m) (.message target) (.unknownType (messageType m))
  | absent {path : Path} {depth : UInt32} {m : μ} {target : TypeRef} {table : FieldTable}
      {spec : FieldSpec} (ht : R.lookupFields (messageType m) = .ok table)
      (hs : spec ∈ table.specs) (hv : Message.field m spec.name = none) :
      EncodeFails R path depth (.message m) (.message target) (.missingField path spec.name)
  | field {path : Path} {depth : UInt32} {m : μ} {target : TypeRef} {table : FieldTable}
      {spec : FieldSpec} {v : View μ} {e : Error} (hd : depth < R.options.maxDepth)
      (ht : R.lookupFields (messageType m) = .ok table) (hs : spec ∈ table.specs)
      (hv : Message.field m spec.name = some v)
      (h : EncodeFails R (path.field spec.name) (depth + 1) v spec.type e) :
      EncodeFails R path depth (.message m) (.message target) e
  | item {path : Path} {depth : UInt32} {items : List (View μ)} {element : Descriptor} {i : Nat}
      {v : View μ} {e : Error} (hd : depth < R.options.maxDepth) (hi : items[i]? = some v)
      (h : EncodeFails R (path.index i) (depth + 1) v element e) :
      EncodeFails R path depth (.array items) (.array element) e

section Failure

variable {path : Path} {depth : UInt32} {e : Error}

/-- A declared field fails if the message does not have it, or if what it holds fails. -/
theorem encodeField_eq_error {m : μ} {spec : FieldSpec}
    (h : R.encodeField path depth m spec = .error e) :
    (Message.field m spec.name = none ∧ e = .missingField path spec.name) ∨
    ∃ v, Message.field m spec.name = some v ∧
      R.encodeAt (path.field spec.name) (depth + 1) v spec.type = .error e := by
  unfold encodeField at h
  split at h
  · next hv =>
    cases h
    exact .inl ⟨hv, rfl⟩
  · next v hv =>
    rcases bind_eq_error_iff.1 h with hn | ⟨node, _, h⟩
    · exact .inr ⟨v, hv, hn⟩
    · cases h

/-- A message fails by its type, or by a declared field. -/
theorem encodeFields_eq_error {m : μ} (h : R.encodeFields path depth m = .error e) :
    (R.contains (messageType m) = false ∧ e = .unknownType (messageType m)) ∨
    ∃ table spec, R.lookupFields (messageType m) = .ok table ∧ spec ∈ table.specs ∧
      R.encodeField path depth m spec = .error e := by
  rcases R.lookupFields_cases (messageType m) with ⟨_, table, ht⟩ | ⟨hc, ht⟩
  · rw [encodeFields, ht, ok_bind] at h
    rcases bind_eq_error_iff.1 h with hf | ⟨members, _, h⟩
    · obtain ⟨spec, hs, hf⟩ := mapM_eq_error hf
      exact .inr ⟨table, spec, ht, hs, hf⟩
    · cases h
  · rw [encodeFields, ht] at h
    cases h
    exact .inl ⟨hc, rfl⟩

/-- An array fails by one of its items. -/
theorem encodeItems_eq_error {items : List (View μ)} {element : Descriptor}
    (h : R.encodeItems path depth items element = .error e) :
    ∃ (i : Nat) (v : View μ), items[i]? = some v ∧
      R.encodeAt (path.index i) (depth + 1) v element = .error e := by
  rcases bind_eq_error_iff.1 h with hi | ⟨nodes, _, h⟩
  · obtain ⟨⟨v, i⟩, hmem, hv⟩ := mapM_eq_error hi
    exact ⟨i, v, List.mem_zipIdx_iff_getElem?.1 hmem, hv⟩
  · cases h

end Failure

/-- Encoding fails in one of the given ways. -/
theorem encodeFails_of_encodeAt {path : Path} {depth : UInt32} {v : View μ} {d : Descriptor}
    {e : Error} (h : R.encodeAt path depth v d = .error e) : R.EncodeFails path depth v d e := by
  by_cases hs : v.HasShape d
  · cases hs with
    | leaf t =>
      rw [encodeAt_leaf] at h
      split at h
      · cases h
      · next ha =>
        cases h
        exact .leafTooDeep (Bool.eq_false_iff.2 ha)
    | message m target =>
      rw [encodeAt_fields] at h
      split at h
      · next hd =>
        rcases encodeFields_eq_error h with ⟨hc, rfl⟩ | ⟨table, spec, ht, hs, hf⟩
        · exact .unregistered hc
        · rcases encodeField_eq_error hf with ⟨hv, rfl⟩ | ⟨v, hv, hv'⟩
          · exact .absent ht hs hv
          · exact .field hd ht hs hv (encodeFails_of_encodeAt hv')
      · next hd =>
        cases h
        exact .messageTooDeep hd
    | array items element =>
      rw [encodeAt_items] at h
      split at h
      · next hd =>
        obtain ⟨i, v, hi, hv⟩ := encodeItems_eq_error h
        exact .item hd hi (encodeFails_of_encodeAt hv)
      · next hd =>
        cases h
        exact .arrayTooDeep hd
  · cases v with
    | null =>
      rw [encodeAt_null] at h
      cases h
    | nonFinite x =>
      rw [encodeAt_nonFinite] at h
      cases h
      exact .nonFinite
    | _ =>
      rw [encodeAt_mismatch (by simp) (by simp) hs] at h
      cases h
      exact .mismatch (by simp) (by simp) hs
termination_by R.options.maxDepth.toNat - depth.toNat
decreasing_by all_goals exact depth_decreasing (by assumption)

/-! ## Nesting -/

/-- On some way down from the view, through items and declared fields and into a leaf, there are
    `n` containers. -/
inductive Nests (R : Registry φ) : View μ → Nat → Prop
  | leaf (t : Tree) : Nests R (.leaf t) t.nesting
  | message (m : μ) : Nests R (.message m) 1
  | array (items : List (View μ)) : Nests R (.array items) 1
  | field {m : μ} {table : FieldTable} {spec : FieldSpec} {v : View μ} {n : Nat}
      (ht : R.lookupFields (messageType m) = .ok table) (hs : spec ∈ table.specs)
      (hv : Message.field m spec.name = some v) (h : Nests R v n) : Nests R (.message m) (n + 1)
  | item {items : List (View μ)} {v : View μ} {n : Nat} (hv : v ∈ items) (h : Nests R v n) :
      Nests R (.array items) (n + 1)

/-- With a part of it, a view nests what the part nests, below the containers on the way there. -/
theorem Nests.of_partAt? {v w : View μ} {d e : Descriptor} {steps : List Step} {n : Nat}
    (h : R.Nests w n) (hpart : R.partAt? v d steps = some (w, e)) :
    R.Nests v (steps.length + n) := by
  induction steps generalizing v d with
  | nil =>
    cases hpart
    rwa [List.length_nil, Nat.zero_add]
  | cons s steps ih =>
    obtain ⟨⟨v', d'⟩, hstep, hrest⟩ := Option.bind_eq_some_iff.1 hpart
    rw [List.length_cons, Nat.add_right_comm]
    rcases part?_eq_some hstep with ⟨m, table, spec, rfl, ht, hs, hv⟩ | ⟨items, rfl, hv⟩
    · exact .field ht hs hv (ih hrest)
    · exact .item hv (ih hrest)

/-! ## Causes -/

/-- The part `w` of the view, which stands at the steps under the descriptor `e`, is the cause that
    the error tells of:

    * a mismatch has the path of the part, which is a float that is not finite, or is neither that
      nor null and has not the shape that is asked for;
    * a missing field has the path of the part, which is a message for whose type the field is
      declared and that does not have it;
    * an unknown type is that of the part, and is not registered;
    * a limit that is exceeded is the one that is set, and the view nests more containers on the way
      to the part and further down in it.

    Encoding has no other errors. -/
def Explains (R : Registry φ) (view : View μ) (steps : List Step) (w : View μ) (e : Descriptor) :
    Error → Prop
  | .typeMismatch path expected got => path = ⟨steps⟩ ∧
    ((∃ x, w = .nonFinite x ∧ expected = "finite number" ∧ got = x.text) ∨
      (w ≠ .null ∧ (∀ x, w ≠ .nonFinite x) ∧ ¬w.HasShape e ∧ expected = e.kind ∧
        got = w.describe))
  | .missingField path field => path = ⟨steps⟩ ∧
    ∃ m table, w = .message m ∧ R.lookupFields (messageType m) = .ok table ∧
      field ∈ table.names ∧ Message.field m field = none
  | .unknownType type => ∃ m, w = .message m ∧ messageType m = type ∧ R.contains type = false
  | .depthExceeded maxDepth => maxDepth = R.options.maxDepth ∧
    ∃ n, R.Nests w n ∧ R.Nests view (steps.length + n) ∧ maxDepth.toNat < steps.length + n
  | _ => False

/-- Each failed encoding inside of a view has an error that a part of the view explains. The depth
    is the length of the path, since each step leads one level further down. -/
theorem explains_of_encodeFails (hR : R.DistinctFields) {root v : View μ}
    {declared d : Descriptor} {path : Path} {depth : UInt32} {e : Error}
    (h : R.EncodeFails path depth v d e) (hdepth : depth.toNat = path.steps.length)
    (hpart : R.partAt? root declared path.steps = some (v, d)) :
    ∃ steps w e', R.partAt? root declared steps = some (w, e') ∧
      R.Explains root steps w e' e := by
  induction h with
  | nonFinite => exact ⟨_, _, _, hpart, rfl, .inl ⟨_, rfl, rfl, rfl⟩⟩
  | mismatch hnull hfinite hs =>
    exact ⟨_, _, _, hpart, rfl, .inr ⟨hnull, hfinite, hs, rfl, rfl⟩⟩
  | @leafTooDeep _ _ t ha =>
    have hlt := lt_of_allowsLeaf_eq_false ha
    exact ⟨_, _, _, hpart, rfl, _, .leaf t, (Nests.leaf t).of_partAt? hpart, hdepth ▸ hlt⟩
  | @messageTooDeep _ _ m _ hd =>
    rw [UInt32.lt_iff_toNat_lt] at hd
    exact ⟨_, _, _, hpart, rfl, 1, .message m, (Nests.message m).of_partAt? hpart, by omega⟩
  | @arrayTooDeep _ _ items _ hd =>
    rw [UInt32.lt_iff_toNat_lt] at hd
    exact ⟨_, _, _, hpart, rfl, 1, .array items, (Nests.array items).of_partAt? hpart, by omega⟩
  | unregistered hc => exact ⟨_, _, _, hpart, _, rfl, rfl, hc⟩
  | absent ht hs hv =>
    exact ⟨_, _, _, hpart, rfl, _, _, rfl, ht, List.mem_map.2 ⟨_, hs, rfl⟩, hv⟩
  | field hd ht hs hv _ ih =>
    refine ih ?_ (partAt?_field hR hpart ht hs hv)
    rw [toNat_next hd, hdepth, Path.field, Path.length_push]
  | item hd hi _ ih =>
    refine ih ?_ (partAt?_index hpart hi)
    rw [toNat_next hd, hdepth, Path.index, Path.length_push]

/-- If a view cannot be encoded, steps through items and declared fields lead from it to a part that
    explains the error. -/
theorem encode_errors_explained (hR : R.Reachable) (v : View μ) (d : Descriptor) {error : Error}
    (h : R.encode v d = .error error) :
    ∃ steps w e, R.partAt? v d steps = some (w, e) ∧ R.Explains v steps w e error :=
  explains_of_encodeFails hR.distinctFields (encodeFails_of_encodeAt h) rfl rfl

section Shelves

open Sample (Instance)

theorem namedShelves_reachable : namedShelves.Reachable := (Reachable.empty {}).performAll _

/-- Behind a book with its title, a book has a float in place of one, and this is at fault. -/
theorem encode_errors_explained_shelves :
    let v : View Instance := shelfOf [[("title", .leaf (.string "Emma"))],
      [("title", .nonFinite .nan)]]
    let d := Descriptor.message (.handle shelvesType)
    let steps : List Step := [.field "books", .index 1, .field "title"]
    namedShelves.encode v d = .error (.typeMismatch ⟨steps⟩ "finite number" "NaN") ∧
    ∃ w e, namedShelves.partAt? v d steps = some (w, e) ∧
      namedShelves.Explains v steps w e (.typeMismatch ⟨steps⟩ "finite number" "NaN") := by
  intro v d steps
  have h : namedShelves.encode v d = .error (.typeMismatch ⟨steps⟩ "finite number" "NaN") := by cbv
  obtain ⟨steps', w, e, hpart, hexplains⟩ := encode_errors_explained namedShelves_reachable v d h
  cases hexplains.1
  exact ⟨h, w, e, hpart, hexplains⟩

end Shelves

end Missive.Registry
