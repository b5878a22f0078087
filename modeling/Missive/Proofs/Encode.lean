import Missive.Encode
import Missive.Proofs.Outcome

/-!
# Encoding step by step

The steps of encoding. A view that is neither null nor a float that is not finite has to have the
shape that the descriptor asks for; after that its depth is checked, and what follows is a step of
its own, the reading of a message by the table of its type or of an array item by item.

A successful encoding is made of successful ones. The tree of a message lists the nodes of its
fields, as the table of its own type tells; the tree of an array lists the nodes of its items; each
of them is itself a successful encoding, one level further down.

* `View.HasShape`: the view has the shape that the descriptor asks for.
* `Registry.encodeFields`, `Registry.encodeItems`: the tree of a message and of an array.
* `Registry.encodeAt_message`, `Registry.encodeAt_array`: from the parts to the whole.
* `Registry.encodeAt_induction`: from the whole to the parts, as an induction principle.
-/

namespace Missive

/-- The view has the shape that the descriptor asks for. -/
inductive View.HasShape {μ : Type} : View μ → Descriptor → Prop
  | leaf (t : Tree) : HasShape (.leaf t) .primitive
  | message (m : μ) (target : TypeRef) : HasShape (.message m) (.message target)
  | array (items : List (View μ)) (element : Descriptor) : HasShape (.array items) (.array element)

namespace Registry

open List (Forall₂)
open Outcome

variable {φ μ : Type} [Message μ] {R : Registry φ}

/-! ## One step -/

/-- The member that a declared field of a message gives. -/
def encodeField (R : Registry φ) (path : Path) (depth : UInt32) (m : μ) (spec : FieldSpec) :
    Except Error (String × Tree) :=
  match Message.field m spec.name with
  | none => .error (.missingField path spec.name)
  | some v => do
    let node ← R.encodeAt (path.field spec.name) (depth + 1) v spec.type
    return (spec.name, node)

/-- The object of a message, within the depth. -/
def encodeFields (R : Registry φ) (path : Path) (depth : UInt32) (m : μ) : Except Error Tree := do
  let table ← R.lookupFields (messageType m)
  let members ← table.specs.mapM (R.encodeField path depth m)
  return .ofMembers members

/-- The array of the given items, within the depth. -/
def encodeItems (R : Registry φ) (path : Path) (depth : UInt32) (items : List (View μ))
    (element : Descriptor) : Except Error Tree := do
  let nodes ← items.zipIdx.mapM fun (v, i) => R.encodeAt (path.index i) (depth + 1) v element
  return .array nodes

section Steps

variable {path : Path} {depth : UInt32} {d : Descriptor}

@[simp] theorem encodeAt_null : R.encodeAt path depth (.null : View μ) d = .ok .null := by
  rw [encodeAt]

@[simp] theorem encodeAt_nonFinite {x : NonFinite} :
    R.encodeAt path depth (.nonFinite x : View μ) d =
      .error (.typeMismatch path "finite number" x.text) := by
  rw [encodeAt]

theorem encodeAt_leaf {t : Tree} : R.encodeAt path depth (.leaf t : View μ) .primitive =
    if R.allowsLeaf t depth then .ok t else .error R.tooDeep := by
  rw [encodeAt]

theorem encodeAt_fields {m : μ} {target : TypeRef} :
    R.encodeAt path depth (.message m) (.message target) =
      if depth < R.options.maxDepth then R.encodeFields path depth m else .error R.tooDeep := by
  rw [encodeAt]
  rfl

theorem encodeAt_items {items : List (View μ)} {element : Descriptor} :
    R.encodeAt path depth (.array items) (.array element) =
      if depth < R.options.maxDepth then R.encodeItems path depth items element
      else .error R.tooDeep := by
  rw [encodeAt]
  rfl

/-- A view of another shape than the descriptor asks for is a mismatch. -/
theorem encodeAt_mismatch {v : View μ} (hnull : v ≠ .null) (hfinite : ∀ x, v ≠ .nonFinite x)
    (h : ¬v.HasShape d) :
    R.encodeAt path depth v d = .error (.typeMismatch path d.kind v.describe) := by
  rw [encodeAt]
  · exact fun hv => hnull hv
  · exact fun x hv => hfinite x hv
  · rintro t rfl rfl
    exact h (.leaf t)
  · rintro m target rfl rfl
    exact h (.message m target)
  · rintro items element rfl rfl
    exact h (.array items element)

end Steps

/-! ## Success -/

/-- The member of an object that is encoded from the field of a message. -/
structure EncodesField (encodes : View μ → Descriptor → Tree → Prop) (m : μ) (spec : FieldSpec)
    (member : String × Tree) : Prop where
  name : member.1 = spec.name
  node : ∃ v, Message.field m spec.name = some v ∧ encodes v spec.type member.2

/-- The keys of an encoded message are the declared names. -/
theorem EncodesField.keys {encodes : View μ → Descriptor → Tree → Prop} {m : μ}
    {specs : List FieldSpec} {members : List (String × Tree)}
    (h : Forall₂ (EncodesField encodes m) specs members) :
    members.map (·.1) = specs.map (·.name) :=
  map_eq_map_of_forall₂ (h.imp fun _ _ hf => hf.name)

/-- What holds of the node that is encoded may be weakened. -/
theorem EncodesField.imp {p q : View μ → Descriptor → Tree → Prop} {m : μ} {spec : FieldSpec}
    {member : String × Tree} (h : ∀ v d t, p v d t → q v d t)
    (hf : EncodesField p m spec member) : EncodesField q m spec member := by
  obtain ⟨v, hv, hn⟩ := hf.node
  exact ⟨hf.name, v, hv, h _ _ _ hn⟩

/-- A declared field is encoded iff the message has it and what it holds is. -/
theorem encodeField_eq_ok_iff {path : Path} {depth : UInt32} {m : μ} {spec : FieldSpec}
    {member : String × Tree} : R.encodeField path depth m spec = .ok member ↔
      EncodesField (fun v d t => R.encodeAt (path.field spec.name) (depth + 1) v d = .ok t) m spec
        member := by
  constructor
  · intro h
    unfold encodeField at h
    split at h
    · -- A field that the message does not have is an error.
      cases h
    · next v hv =>
      obtain ⟨node, hn, h⟩ := bind_eq_ok_iff.1 h
      cases h
      exact ⟨rfl, v, hv, hn⟩
  · rintro ⟨hname, v, hv, hn⟩
    rw [encodeField, hv]
    exact bind_eq_ok_iff.2 ⟨member.2, hn, by rw [← hname]; rfl⟩

theorem encodeAt_message {path : Path} {depth : UInt32} {m : μ} {target : TypeRef}
    {table : FieldTable} {members : List (String × Tree)} (hd : depth < R.options.maxDepth)
    (ht : R.lookupFields (messageType m) = .ok table)
    (h : Forall₂ (EncodesField (fun v d t => ∀ p, R.encodeAt p (depth + 1) v d = .ok t) m)
      table.specs members) :
    R.encodeAt path depth (.message m) (.message target) = .ok (.ofMembers members) := by
  rw [encodeAt_fields, if_pos hd, encodeFields, ht, ok_bind]
  -- The path is another for each field, but what succeeds does so under any path.
  have hmembers : table.specs.mapM (R.encodeField path depth m) = .ok members :=
    mapM_eq_ok_iff.2 (h.imp fun _ _ hf => encodeField_eq_ok_iff.2 (hf.imp fun _ _ _ hn => hn _))
  exact bind_eq_ok_iff.2 ⟨members, hmembers, rfl⟩

theorem encodeAt_array {path : Path} {depth : UInt32} {items : List (View μ)}
    {element : Descriptor} {nodes : List Tree} (hd : depth < R.options.maxDepth)
    (h : Forall₂ (fun v t => ∀ p, R.encodeAt p (depth + 1) v element = .ok t) items nodes) :
    R.encodeAt path depth (.array items) (.array element) = .ok (.array nodes) := by
  rw [encodeAt_items, if_pos hd]
  exact bind_eq_ok_iff.2 ⟨nodes, mapM_zipIdx_ok (h.imp fun _ _ hn i => hn _), rfl⟩

/-- Induction over a successful encoding. The paths, which only errors report, are left out. -/
theorem encodeAt_induction {motive : UInt32 → View μ → Descriptor → Tree → Prop}
    (null : ∀ depth d, motive depth .null d .null)
    (leaf : ∀ depth t, R.allowsLeaf t depth = true → motive depth (.leaf t) .primitive t)
    (message : ∀ depth m target table members, depth < R.options.maxDepth →
      R.lookupFields (messageType m) = .ok table →
      Forall₂ (EncodesField (motive (depth + 1)) m) table.specs members →
      motive depth (.message m) (.message target) (.ofMembers members))
    (array : ∀ depth items element nodes, depth < R.options.maxDepth →
      Forall₂ (fun v t => motive (depth + 1) v element t) items nodes →
      motive depth (.array items) (.array element) (.array nodes))
    {path : Path} {depth : UInt32} {view : View μ} {d : Descriptor} {t : Tree}
    (h : R.encodeAt path depth view d = .ok t) : motive depth view d t := by
  -- The depth comes nearer to its limit with each level, as in the encoding itself.
  by_cases hs : view.HasShape d
  · cases hs with
    | leaf t =>
      rw [encodeAt_leaf] at h
      split at h
      · next ha =>
        cases h
        exact leaf depth t ha
      · cases h
    | message m target =>
      rw [encodeAt_fields] at h
      split at h
      · next hd =>
        obtain ⟨table, ht, h⟩ := bind_eq_ok_iff.1 h
        obtain ⟨members, hm, h⟩ := bind_eq_ok_iff.1 h
        cases h
        refine message depth m target table members hd ht
          ((mapM_eq_ok_iff.1 hm).imp fun spec member hf => ?_)
        exact (encodeField_eq_ok_iff.1 hf).imp fun v d t hv =>
          encodeAt_induction null leaf message array hv
      · cases h
    | array items element =>
      rw [encodeAt_items] at h
      split at h
      · next hd =>
        obtain ⟨nodes, hn, h⟩ := bind_eq_ok_iff.1 h
        cases h
        refine array depth items element nodes hd ((mapM_zipIdx_eq_ok hn).imp fun v t hv => ?_)
        obtain ⟨i, hv⟩ := hv
        exact encodeAt_induction null leaf message array hv
      · cases h
  · cases view with
    | null =>
      rw [encodeAt_null] at h
      cases h
      exact null depth d
    | nonFinite x =>
      rw [encodeAt_nonFinite] at h
      cases h
    | _ =>
      rw [encodeAt_mismatch (by simp) (by simp) hs] at h
      cases h
termination_by R.options.maxDepth.toNat - depth.toNat
decreasing_by all_goals exact depth_decreasing (by assumption)

end Registry

end Missive
