import Missive.Packing
import Missive.Proofs.Decode
import Missive.Proofs.Encode
import Missive.Proofs.Factory
import Missive.Proofs.Registrations
import Missive.Proofs.Text.Tree

/-!
# From messages to trees and text, and back

Encoding does not look at the type that a descriptor refers to, and decoding does. So a tree is
decoded to what it was encoded from if each message in it stands where its own type is referred
to, and is rebuilt by the factory of that type. A family of messages of which this can be said
has with each message also those in its fields (`Registry.Covers`).

* `Registry.decodeAt_of_encodeAt`: the tree of a view that fits the family is decoded to a value
  of that view, at the same depth and wherever it stands.
* `Registry.exact_of_encodeAt`: it is exact, and its nesting is what the limit leaves.
* `Registry.roundTrips_of_covers`: a message of the family is read back from its tree.
* `Registry.textRoundTrips_of_covers`: and from its text, if the limit is one that text allows.
-/

namespace Missive

open List (Forall₂)
open Outcome

variable {μ : Type} [Message μ]

/-- The leaves and the messages of a view are of the given kinds, and each message stands where
    its own type is referred to. -/
def View.Fits {φ : Type} (R : Registry φ) (leaf : Tree → Prop) (family : μ → Prop) :
    Descriptor → View μ → Prop
  | .primitive, .leaf t => leaf t
  | .message target, .message m => R.resolve target = .ok (messageType m) ∧ family m
  | .array element, .array items => ∀ v ∈ items, v.Fits R leaf family element
  | _, _ => True

namespace Registry

/-- Each message of the family is rebuilt by the factory of its type, and its declared fields fit
    the family. -/
def Covers (R : Registry (Factory (Except Error) μ)) (leaf : Tree → Prop) (family : μ → Prop) :
    Prop :=
  ∀ m, family m → ∃ entry, R.entry (messageType m) = .ok entry ∧ entry.Rebuilds m ∧
    ∀ spec ∈ entry.fields.specs, ∃ v, Message.field m spec.name = some v ∧
      v.Fits R leaf family spec.type

variable {R : Registry (Factory (Except Error) μ)} {leaf : Tree → Prop} {family : μ → Prop}

/-- The declared fields of a message of the family fit it, so what holds of the fields that fit
    holds of all of them. -/
theorem Covers.encodesField (hc : R.Covers leaf family) {m : μ} (hm : family m)
    {table : FieldTable} {members : List (String × Tree)} {p : View μ → Descriptor → Tree → Prop}
    (ht : R.lookupFields (messageType m) = .ok table)
    (hf : Forall₂ (EncodesField (fun v d t => v.Fits R leaf family d → p v d t) m) table.specs
      members) :
    ∃ entry, R.entry (messageType m) = .ok entry ∧ entry.fields = table ∧ entry.Rebuilds m ∧
      Forall₂ (EncodesField p m) table.specs members := by
  obtain ⟨entry, he, hbuild, hfits⟩ := hc m hm
  cases ht.symm.trans (lookupFields_of_entry he)
  refine ⟨entry, he, rfl, hbuild, ?_⟩
  refine ((List.forall₂_and_left _ _).2 ⟨hfits, hf⟩).imp fun spec member hs => ?_
  obtain ⟨⟨v, hv, hfit⟩, hname, v', hv', hn⟩ := hs
  cases hv.symm.trans hv'
  exact ⟨hname, v, hv, hn hfit⟩

/-- What is encoded is decoded again, at the same depth and wherever it stands. -/
theorem decodeAt_of_encodeAt (hR : R.DistinctFields) (hc : R.Covers leaf family)
    (hleaf : ∀ t, leaf t → t.isNull = false)
    {path : Path} {depth : UInt32} {view : View μ} {d : Descriptor} {t : Tree}
    (h : R.encodeAt path depth view d = .ok t) (hv : view.Fits R leaf family d) :
    ∀ p, ∃ v, R.decodeAt p depth t d = .ok v ∧ v.view = view := by
  refine encodeAt_induction (motive := fun depth view d t => view.Fits R leaf family d →
    ∀ p, ∃ v, R.decodeAt p depth t d = .ok v ∧ v.view = view) ?null ?leaf ?message ?array h hv
  case null =>
    intro depth d _ p
    exact ⟨.null, decodeAt_null, rfl⟩
  case leaf =>
    intro depth t ha ht p
    exact ⟨.leaf t, by rw [decodeAt_primitive (hleaf t ht), if_pos ha], rfl⟩
  case message =>
    intro depth m target table members hd ht hf ⟨hresolve, hm⟩ p
    obtain ⟨entry, he, rfl, hbuild, hf⟩ := hc.encodesField hm ht hf
    have hkeys : members.map (·.1) = entry.fields.names := EncodesField.keys hf
    have hnodup : (members.map (·.1)).Nodup := hkeys ▸ hR.entry he
    -- Each declared field is found under its key, and is decoded to what it is seen as.
    have hfield : ∀ spec ∈ entry.fields.specs, ∃ e, R.decodeField p depth members spec = .ok e ∧
        e.1 = spec.name ∧ Message.field m spec.name = some e.2.view := by
      intro spec hs
      obtain ⟨member, hmem, hf⟩ := exists_of_mem_left hf hs
      obtain ⟨v, hv, hn⟩ := hf.node
      obtain ⟨value, hvalue, rfl⟩ := hn (p.field spec.name)
      have hl : members.lookup spec.name = some member.2 :=
        Tree.lookup_of_mem hnodup (by rw [← hf.name]; exact hmem)
      refine ⟨(spec.name, value), ?_, rfl, hv⟩
      rw [decodeField, hl]
      dsimp only
      rw [hvalue]
      rfl
    obtain ⟨entries, hentries, hshow⟩ := exists_mapM_eq_ok (List.forall₂_same.2 hfield)
    have hnames : entries.map (·.1) = entry.fields.names :=
      map_eq_map_of_forall₂ (hshow.imp fun _ _ hs => hs.1)
    have hshown : Fields.ShownBy ⟨p, entries⟩ m := by
      intro e hmem
      obtain ⟨spec, _, hs⟩ := exists_of_mem_right hshow hmem
      rw [hs.1]
      exact hs.2
    refine ⟨.message m, ?_, rfl⟩
    rw [Tree.ofMembers_of_nodup hnodup, decodeAt_message rfl, if_pos hd,
      decodeTarget_object hresolve he]
    exact decodeObject_ok (deniedKey?_eq_none (hkeys ▸ fun _ hkey => hkey))
      (mapM_eq_ok_iff.1 hentries) (hbuild _ hnames hshown)
  case array =>
    intro depth items element nodes hd hn hfits p
    have hitems := ((List.forall₂_and_left _ _).2 ⟨hfits, hn⟩).imp fun v t hv i =>
      hv.2 hv.1 (p.index i)
    obtain ⟨values, hvalues, hviews⟩ := exists_mapM_zipIdx_eq_ok (n := 0)
      (f := fun x => R.decodeAt (p.index x.2) (depth + 1) x.1 element) hitems
    refine ⟨.array values, ?_, ?_⟩
    · rw [decodeAt_array rfl, if_pos hd, decodeItems, hvalues]
      rfl
    · rw [Value.view, Value.viewItems_eq_map, map_eq_map_of_forall₂ (f := id) hviews, List.map_id]

/-- What is encoded from exact leaves that nest nothing is exact, and is nested no deeper than
    the limit leaves. -/
theorem exact_of_encodeAt (hR : R.DistinctFields) (hc : R.Covers leaf family)
    (hleaf : ∀ t, leaf t → t.Exact ∧ t.nesting = 0)
    {path : Path} {depth : UInt32} {view : View μ} {d : Descriptor} {t : Tree}
    (h : R.encodeAt path depth view d = .ok t) (hv : view.Fits R leaf family d) :
    t.Exact ∧ t.nesting ≤ R.options.maxDepth.toNat - depth.toNat := by
  refine encodeAt_induction (motive := fun depth view d t => view.Fits R leaf family d →
    t.Exact ∧ t.nesting ≤ R.options.maxDepth.toNat - depth.toNat) ?null ?leaf ?message ?array h hv
  case null =>
    intro depth d _
    exact ⟨trivial, Nat.zero_le _⟩
  case leaf =>
    intro depth t _ ht
    exact ⟨(hleaf t ht).1, (hleaf t ht).2 ▸ Nat.zero_le _⟩
  case message =>
    intro depth m target table members hd ht hf ⟨_, hm⟩
    obtain ⟨entry, he, rfl, _, hf⟩ := hc.encodesField hm ht hf
    have hkeys : members.map (·.1) = entry.fields.names := EncodesField.keys hf
    have hnodup : (members.map (·.1)).Nodup := hkeys ▸ hR.entry he
    have hmembers : ∀ member ∈ members, member.2.Exact ∧
        member.2.nesting ≤ R.options.maxDepth.toNat - (depth + 1).toNat := by
      intro member hmem
      obtain ⟨_, _, hf⟩ := exists_of_mem_right hf hmem
      obtain ⟨_, _, hn⟩ := hf.node
      exact hn
    rw [Tree.ofMembers_of_nodup hnodup]
    refine ⟨⟨hnodup, Tree.exactMembers_iff.2 fun member hmem => (hmembers member hmem).1⟩, ?_⟩
    -- The container itself takes one of the levels that are left.
    have hnest := Tree.nestingOfMembers_le_iff.2 fun member hmem => (hmembers member hmem).2
    have hdec := depth_decreasing hd
    rw [Tree.nesting]
    omega
  case array =>
    intro depth items element nodes hd hn hfits
    have hnodes : ∀ node ∈ nodes, node.Exact ∧
        node.nesting ≤ R.options.maxDepth.toNat - (depth + 1).toNat := by
      intro node hmem
      obtain ⟨v, hv, hnode⟩ := exists_of_mem_right hn hmem
      exact hnode (hfits v hv)
    refine ⟨Tree.exactItems_iff.2 fun node hmem => (hnodes node hmem).1, ?_⟩
    have hnest := Tree.nestingOfItems_le_iff.2 fun node hmem => (hnodes node hmem).2
    have hdec := depth_decreasing hd
    rw [Tree.nesting]
    omega

/-! ## Whole messages -/

omit [Message μ] in
theorem convertRoot_of_converts {α : Type} [OfValue μ α] {v : Value μ} {a : α}
    (h : Converts v a) : convertRoot v = .ok a := by
  rw [convertRoot, h]

section Whole

variable {α : Type} [MessageClass μ α] {a : α} {t : Tree}

/-- If a tree is made of the message at all, it holds that message. -/
def RoundTrips (R : Registry (Factory (Except Error) μ)) (a : α) : Prop :=
  ∀ t, R.toTree (MessageClass.wrap a : μ) = .ok t → R.ofTree t = .ok a

theorem roundTrips_of_covers [LawfulMessageClass μ α] (hR : R.DistinctFields)
    (hc : R.Covers leaf family) (hleaf : ∀ t, leaf t → t.isNull = false)
    (ha : family (MessageClass.wrap a))
    (htype : messageType (MessageClass.wrap a : μ) = MessageClass.handle μ α) :
    R.RoundTrips a := by
  intro t h
  obtain ⟨v, hv, hview⟩ := decodeAt_of_encodeAt hR hc hleaf h ⟨rfl, ha⟩ .root
  rw [ofTree, decode, ← htype, hv, ok_bind, ofExcept_eq,
    convertRoot_of_converts (converts_of_view hview)]

theorem exact_of_toTree (hR : R.DistinctFields) (hc : R.Covers leaf family)
    (hleaf : ∀ t, leaf t → t.Exact ∧ t.nesting = 0) {m : μ} (hm : family m)
    (h : R.toTree m = .ok t) : t.Exact ∧ t.nesting ≤ R.options.maxDepth.toNat :=
  exact_of_encodeAt hR hc hleaf h ⟨rfl, hm⟩

/-- If a text is made of the message at all, it holds that message. -/
def TextRoundTrips (R : Registry (Factory (Except Error) μ)) (layout : Layout) (a : α) : Prop :=
  ∀ text, R.pack layout (MessageClass.wrap a : μ) = .ok text → R.unpack text = .ok a

theorem pack_of_toTree {m : μ} (layout : Layout) (h : R.toTree m = .ok t) :
    R.pack layout m = .ok (t.text layout) := by
  rw [pack, h]
  rfl

theorem toTree_of_pack {m : μ} {layout : Layout} {text : String}
    (h : R.pack layout m = .ok text) : ∃ t, R.toTree m = .ok t ∧ t.text layout = text := by
  unfold pack at h
  cases ht : R.toTree m with
  | error e => rw [ht] at h; cases h
  | ok t => rw [ht] at h; cases h; exact ⟨t, rfl, rfl⟩

omit [MessageClass μ α] [Message μ] in
theorem parse_text (layout : Layout) (ht : t.Exact) : Tree.parse (t.text layout) =
    if t.nesting ≤ maxTextDepth then .ok t else .error (.malformedText .unexpected) := by
  rw [Tree.parse, Tree.ofText_text layout ht]
  split <;> rfl

/-- Unpacking a text is reading its tree, unless that is nested deeper than text may be. -/
theorem unpack_text (R : Registry (Factory (Except Error) μ)) (layout : Layout) (ht : t.Exact) :
    (R.unpack (t.text layout) : Except Error α) =
      if t.nesting ≤ maxTextDepth then R.ofTree t else .error (.malformedText .unexpected) := by
  rw [unpack, parse_text layout ht]
  split <;> rfl

theorem textRoundTrips_of_covers [LawfulMessageClass μ α] (hR : R.DistinctFields)
    (hc : R.Covers leaf family) (hleaf : ∀ t, leaf t → t.Scalar)
    (hdepth : R.options.maxDepth.toNat ≤ maxTextDepth) (ha : family (MessageClass.wrap a))
    (htype : messageType (MessageClass.wrap a : μ) = MessageClass.handle μ α) (layout : Layout) :
    R.TextRoundTrips layout a := by
  intro text h
  obtain ⟨t, ht, rfl⟩ := toTree_of_pack h
  obtain ⟨hexact, hnest⟩ := exact_of_toTree hR hc (fun t h => (hleaf t h).exact) ha ht
  rw [unpack_text R layout hexact, if_pos (hnest.trans hdepth)]
  exact roundTrips_of_covers hR hc (fun t h => (hleaf t h).isNull) ha htype t ht

end Whole

end Registry

end Missive
