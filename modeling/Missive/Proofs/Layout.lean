import Mathlib
import Missive.Proofs.Depth
import Missive.Proofs.Encode
import Missive.Proofs.Sample.Factories

/-!
# The layout of encoded views

What a tree that was encoded looks like, told from the view alone: the descriptors that led the
encoding do not show in it. A message is an object with the fields of the type that it tells, each
once and in the order of their table, and they are laid out in turn.

* `Registry.LaidOut`: a tree is laid out as a view is.
* `Registry.HasPart`: what is seen of a view, through items and declared fields.
* `Registry.EncodesAbove`: what is encoded at a depth is encoded alike nearer to the root. So the
  node of a field is what the field would be encoded to alone.
-/

namespace Missive.Registry

open List (Forall₂)
open Outcome

variable {φ μ : Type} [Message μ] {R : Registry φ}

/-! ## Layouts -/

/-- The tree is laid out as the view is. The object of a message has the names that the table of its
    type declares as its keys, each once and in this order, and under each of them the encoding of
    the field. -/
inductive LaidOut (R : Registry φ) : View μ → Tree → Prop
  | null : LaidOut R .null .null
  | leaf (t : Tree) : LaidOut R (.leaf t) t
  | array {items : List (View μ)} {nodes : List Tree} (h : Forall₂ (LaidOut R) items nodes) :
      LaidOut R (.array items) (.array nodes)
  | message {m : μ} {table : FieldTable} {members : List (String × Tree)}
      (ht : R.lookupFields (messageType m) = .ok table)
      (hkeys : members.map (·.1) = table.names) (hnodup : table.names.Nodup)
      (hencoded : ∀ spec ∈ table.specs, ∃ v node, Message.field m spec.name = some v ∧
        members.lookup spec.name = some node ∧ R.encode v spec.type = .ok node)
      (hlaid : ∀ spec ∈ table.specs, ∀ v node, Message.field m spec.name = some v →
        members.lookup spec.name = some node → LaidOut R v node) :
      LaidOut R (.message m) (.object members)

/-- The second view is the first or a part of it: of one of its items, or of a field of it that is
    declared. -/
inductive HasPart (R : Registry φ) : View μ → View μ → Prop
  | refl (v : View μ) : HasPart R v v
  | item {items : List (View μ)} {v w : View μ} (hv : v ∈ items) (h : HasPart R v w) :
      HasPart R (.array items) w
  | field {m : μ} {table : FieldTable} {spec : FieldSpec} {v w : View μ}
      (ht : R.lookupFields (messageType m) = .ok table) (hs : spec ∈ table.specs)
      (hv : Message.field m spec.name = some v) (h : HasPart R v w) : HasPart R (.message m) w

/-- With a view, all its parts are laid out. -/
theorem LaidOut.part {v w : View μ} {t : Tree} (h : R.LaidOut v t) (hw : R.HasPart v w) :
    ∃ node, R.LaidOut w node := by
  induction hw generalizing t with
  | refl v => exact ⟨t, h⟩
  | item hv _ ih =>
    rcases h with _ | _ | hitems | _
    obtain ⟨node, _, hnode⟩ := exists_of_mem_left hitems hv
    exact ih hnode
  | field ht hs hv _ ih =>
    rcases h with _ | _ | _ | ⟨ht', _, _, hencoded, hlaid⟩
    cases ht.symm.trans ht'
    obtain ⟨v', node, hv', hnode, _⟩ := hencoded _ hs
    cases hv.symm.trans hv'
    exact ih (hlaid _ hs _ node hv hnode)

/-! ## Nearer to the root -/

theorem allowsLeaf_of_le {t : Tree} {depth depth' : UInt32} (h : R.allowsLeaf t depth = true)
    (hle : depth' ≤ depth) : R.allowsLeaf t depth' = true := by
  rw [UInt32.le_iff_toNat_le] at hle
  simp only [allowsLeaf, Bool.or_eq_true, decide_eq_true_eq, UInt32.lt_iff_toNat_lt,
    toNat_addSaturating] at h ⊢
  exact h.imp_right (lt_of_le_of_lt (min_le_min_right _ (Nat.add_le_add_right hle _)))

/-- The view is encoded to the tree at the depth and at those nearer to the root, under any path. -/
def EncodesAbove (R : Registry φ) (depth : UInt32) (v : View μ) (d : Descriptor) (t : Tree) :
    Prop :=
  ∀ depth' ≤ depth, ∀ p, R.encodeAt p depth' v d = .ok t

theorem EncodesAbove.encode {depth : UInt32} {v : View μ} {d : Descriptor} {t : Tree}
    (h : R.EncodesAbove depth v d t) : R.encode v d = .ok t :=
  h 0 (UInt32.le_iff_toNat_le.2 (Nat.zero_le _)) .root

section Containers

variable {depth : UInt32} (hd : depth < R.options.maxDepth)
include hd

/-- What is one level below a depth that is nearer to the root is itself nearer to it. -/
theorem below_of_le {depth' : UInt32} (hle : depth' ≤ depth) :
    depth' < R.options.maxDepth ∧ depth' + 1 ≤ depth + 1 := by
  have hd' : depth' < R.options.maxDepth := UInt32.lt_of_le_of_lt hle hd
  refine ⟨hd', ?_⟩
  rw [UInt32.le_iff_toNat_le] at hle ⊢
  rw [toNat_next hd, toNat_next hd']
  omega

theorem encodesAbove_message {m : μ} {table : FieldTable} {members : List (String × Tree)}
    (ht : R.lookupFields (messageType m) = .ok table)
    (hf : Forall₂ (EncodesField (R.EncodesAbove (depth + 1)) m) table.specs members)
    (target : TypeRef) :
    R.EncodesAbove depth (.message m) (.message target) (.ofMembers members) := by
  intro depth' hle p
  obtain ⟨hd', hnext⟩ := below_of_le hd hle
  exact encodeAt_message hd' ht (hf.imp fun _ _ => .imp fun v d t hn => hn _ hnext)

theorem encodesAbove_array {items : List (View μ)} {element : Descriptor} {nodes : List Tree}
    (hn : Forall₂ (fun v t => R.EncodesAbove (depth + 1) v element t) items nodes) :
    R.EncodesAbove depth (.array items) (.array element) (.array nodes) := by
  intro depth' hle p
  obtain ⟨hd', hnext⟩ := below_of_le hd hle
  exact encodeAt_array hd' (hn.imp fun _ _ hv => hv _ hnext)

end Containers

/-! ## What is encoded is laid out -/

/-- A message is laid out if its fields are encoded and laid out one by one. -/
theorem laidOut_message {m : μ} {table : FieldTable} (hnodup : table.names.Nodup)
    (ht : R.lookupFields (messageType m) = .ok table) {members : List (String × Tree)}
    (hf : Forall₂ (EncodesField (fun v d t => R.encode v d = .ok t ∧ R.LaidOut v t) m)
      table.specs members) : R.LaidOut (.message m) (.ofMembers members) := by
  have hkeys : members.map (·.1) = table.names := EncodesField.keys hf
  have hkeysNodup : (members.map (·.1)).Nodup := hkeys ▸ hnodup
  have hfield : ∀ spec ∈ table.specs, ∃ v node, Message.field m spec.name = some v ∧
      members.lookup spec.name = some node ∧ R.encode v spec.type = .ok node ∧
      R.LaidOut v node := by
    intro spec hs
    obtain ⟨member, hmem, hname, v, hv, hnode⟩ := exists_of_mem_left hf hs
    have hlookup : members.lookup spec.name = some member.2 :=
      Tree.lookup_of_mem hkeysNodup (by rw [← hname]; exact hmem)
    exact ⟨v, member.2, hv, hlookup, hnode⟩
  -- Had two fields one name, the later one would stand in the place of the earlier one.
  rw [Tree.ofMembers_of_nodup hkeysNodup]
  refine .message ht hkeys hnodup (fun spec hs => ?_) (fun spec hs v node hv hn => ?_)
  · obtain ⟨v, node, hv, hn, hencoded, _⟩ := hfield spec hs
    exact ⟨v, node, hv, hn, hencoded⟩
  · obtain ⟨v', node', hv', hn', _, hlaid⟩ := hfield spec hs
    cases hv.symm.trans hv'
    cases hn.symm.trans hn'
    exact hlaid

/-- What is encoded at a depth is encoded alike nearer to the root, and is laid out. -/
theorem laidOut_of_encodeAt (hR : R.DistinctFields) {path : Path} {depth : UInt32} {v : View μ}
    {d : Descriptor} {t : Tree} (h : R.encodeAt path depth v d = .ok t) :
    R.EncodesAbove depth v d t ∧ R.LaidOut v t := by
  refine encodeAt_induction (motive := fun depth v d t => R.EncodesAbove depth v d t ∧
    R.LaidOut v t) ?null ?leaf ?message ?array h
  case null =>
    intro depth d
    refine ⟨fun depth' _ p => ?_, .null⟩
    rw [encodeAt_null]
  case leaf =>
    intro depth t ha
    refine ⟨fun depth' hle p => ?_, .leaf t⟩
    rw [encodeAt_leaf, if_pos (allowsLeaf_of_le ha hle)]
  case message =>
    intro depth m target table members hd ht hf
    constructor
    · exact encodesAbove_message hd ht (hf.imp fun _ _ => .imp fun v d t hn => hn.1) target
    · exact laidOut_message (hR.lookupFields ht) ht
        (hf.imp fun _ _ => .imp fun v d t hn => ⟨hn.1.encode, hn.2⟩)
  case array =>
    intro depth items element nodes hd hn
    exact ⟨encodesAbove_array hd (hn.imp fun _ _ hv => hv.1), .array (hn.imp fun _ _ hv => hv.2)⟩

/-- What is encoded is laid out as the view is, whatever the descriptor; and no part of the view, as
    far as fields are declared, is a float that is not finite. -/
theorem encode_layout (hR : R.Reachable) (v : View μ) (d : Descriptor) {t : Tree}
    (h : R.encode v d = .ok t) :
    R.LaidOut v t ∧ ∀ x, ¬R.HasPart v (.nonFinite x) := by
  have hlaid : R.LaidOut v t := (laidOut_of_encodeAt hR.distinctFields h).2
  refine ⟨hlaid, fun x hx => ?_⟩
  obtain ⟨node, hnode⟩ := hlaid.part hx
  cases hnode

section Mixed

open Sample

/-- A foo and a node, where shapes are declared. -/
def mixedDrawing : View Instance :=
  .message (.drawing ⟨[.foo ⟨none, [[]]⟩, .treeNode ⟨"leaf", []⟩]⟩)

/-- What they are encoded to. -/
def mixedTree : Tree :=
  .object [("shapes", .array [.object [("x", .null), ("bar", .array [.array []])],
    .object [("label", .string "leaf"), ("children", .array [])]])]

/-- A foo and a node are each laid out with their own fields, although shapes are declared. -/
theorem encode_layout_mixed :
    (sampleRegistry {}).encode mixedDrawing (.message (.named "Drawing")) = .ok mixedTree ∧
    (sampleRegistry {}).LaidOut mixedDrawing mixedTree ∧
    ¬(sampleRegistry {}).HasPart mixedDrawing (.nonFinite .nan) := by
  have h : (sampleRegistry {}).encode mixedDrawing (.message (.named "Drawing")) =
      .ok mixedTree := by cbv
  obtain ⟨hlaid, hpart⟩ := encode_layout sampleRegistry_reachable mixedDrawing _ h
  exact ⟨h, hlaid, hpart .nan⟩

end Mixed

end Missive.Registry
