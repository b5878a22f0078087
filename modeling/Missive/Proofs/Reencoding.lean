import Missive.Packing
import Missive.Proofs.Canonical
import Missive.Proofs.Decode
import Missive.Proofs.Encode
import Missive.Proofs.Factory

/-!
# Encoding what was decoded

If the factories are faithful, a decoded value is encoded to the canonical form of the tree that it
was decoded from. Only the factories of the types that decoding can meet matter: a set of types
that is closed under the references of its tables (`Registry.FaithfulOn`).

* `Registry.encodeAt_of_decodeAt`: at the same depth, and wherever it stands.
* `Registry.reencodes_of_faithfulOn`: for whole messages.
-/

namespace Missive.Registry

open List (Forall₂)
open Outcome

variable {μ : Type} [Message μ] {R : Registry (Factory (Except Error) μ)}
  {types : MessageType → Prop}

omit [Message μ] in
/-- Every message under the descriptor is of one of the types. -/
def Refers (R : Registry (Factory (Except Error) μ)) (types : MessageType → Prop)
    (d : Descriptor) : Prop :=
  ∀ target type, d.reference? = some target → R.resolve target = .ok type → types type

/-- The factories of the types are faithful, and their tables refer to these types only. -/
def FaithfulOn (R : Registry (Factory (Except Error) μ)) (types : MessageType → Prop) : Prop :=
  ∀ type entry, types type → R.entry type = .ok entry →
    entry.Faithful type ∧ ∀ spec ∈ entry.fields.specs, R.Refers types spec.type

/-- All registered factories are faithful. -/
def Faithful (R : Registry (Factory (Except Error) μ)) : Prop :=
  ∀ type entry, R.entry type = .ok entry → entry.Faithful type

theorem Faithful.faithfulOn (h : R.Faithful) : R.FaithfulOn fun _ => True :=
  fun type entry _ he => ⟨h type entry he, fun _ _ _ _ _ _ => trivial⟩

/-- What was decoded is encoded to the canonical form, at the same depth and wherever it stands. -/
theorem encodeAt_of_decodeAt (hR : R.DistinctFields) (hf : R.FaithfulOn types) {path : Path}
    {depth : UInt32} {t : Tree} {d : Descriptor} {v : Value μ}
    (h : R.decodeAt path depth t d = .ok v) (hd : R.Refers types d) :
    ∀ p, R.encodeAt p depth v.view d = .ok (R.canon d t) := by
  refine decodeAt_induction (motive := fun depth t d v => R.Refers types d →
    ∀ p, R.encodeAt p depth v.view d = .ok (R.canon d t)) ?null ?leaf ?message ?array h hd
  case null =>
    intro depth d _ p
    rw [canon_of_nesting_eq_zero rfl, Value.view, encodeAt]
  case leaf =>
    intro depth t _ ha _ p
    rw [canon_primitive, Value.view, encodeAt, if_pos ha]
  case message =>
    intro path depth members target type entry entries m hd hr he _ hfields hm hrefers p
    obtain ⟨hfaithful, hspecs⟩ := hf type entry (hrefers target type rfl hr) he
    obtain ⟨htype, hshown⟩ := hfaithful _ m (DecodesField.names hfields) hm
    -- Each declared field has a canonical member, which the field of the message is encoded to.
    have hmembers : ∀ spec ∈ entry.fields.specs, ∃ member, R.canonField members spec = some member ∧
        EncodesField (fun v d t => ∀ p, R.encodeAt p (depth + 1) v d = .ok t) m spec member := by
      intro spec hs
      obtain ⟨e, hmem, hname, hvalue⟩ := exists_of_mem_left hfields hs
      have hfield : Message.field m spec.name = some e.2.view := hname ▸ hshown e hmem
      unfold canonField
      rcases hvalue with ⟨node, hl, hnode⟩ | ⟨hl, habsent, hnull⟩
      · exact ⟨_, by rw [hl]; rfl, rfl, _, hfield, hnode (hspecs spec hs)⟩
      · -- The field was absent and has become null on either side.
        rw [hnull] at hfield
        refine ⟨_, by rw [hl, Option.map_none, if_pos habsent], rfl, _, hfield, fun p => ?_⟩
        rw [Value.view, encodeAt]
    have hforall := forall₂_filterMap hmembers
    have hkeys := EncodesField.keys hforall
    rw [canon_object (tableOf?_eq_some_iff.2 ⟨type, entry, hr, he, rfl⟩),
      ← Tree.ofMembers_of_nodup (hkeys ▸ hR.entry he)]
    exact encodeAt_message hd (by rw [htype, lookupFields, he]; rfl) hforall
  case array =>
    intro depth items element values hd hvalues hrefers p
    rw [canon_array, Value.view, Value.viewItems_eq_map]
    refine encodeAt_array hd (List.forall₂_map_left_iff.2 (List.forall₂_map_right_iff.2 ?_))
    exact hvalues.flip.imp fun v t hv => hv hrefers

/-- A message that is read from a tree is encoded to the canonical form of that tree. -/
def Reencodes (R : Registry (Factory (Except Error) μ)) (α : Type) [MessageClass μ α] : Prop :=
  ∀ t (a : α), R.ofTree t = .ok a → R.toTree (MessageClass.wrap a : μ) =
    .ok (R.canon (.message (.handle (MessageClass.handle μ α))) t)

theorem reencodes_of_faithfulOn {α : Type} [MessageClass μ α] [LawfulMessageClass μ α]
    (hR : R.DistinctFields) (hf : R.FaithfulOn types)
    (htype : ∀ a : α, messageType (MessageClass.wrap a : μ) = MessageClass.handle μ α)
    (ht : types (MessageClass.handle μ α)) : R.Reencodes α := by
  intro t a h
  obtain ⟨v, hv, hroot⟩ := bind_eq_ok_iff.1 h
  rw [ofExcept_eq, convertRoot] at hroot
  have hview : View.message (MessageClass.wrap a) = v.view :=
    view_of_converted (Prod.ext hroot rfl)
  rw [toTree, encode, htype, hview]
  refine encodeAt_of_decodeAt hR hf hv ?_ .root
  intro target type href hres
  cases href
  cases hres
  exact ht

end Missive.Registry
