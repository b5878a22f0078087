import Missive.LeafEnum
import Missive.Proofs.Number
import Missive.Proofs.Outcome

/-!
# Laws of field types

Of a field type one may ask that encoding and decoding it fit together:

* `Restorable`: a value that is seen as a field is converted to that field;
* `Faithful`: the field that a value is converted to is seen as that value;
* `NeverNull`: no field is seen as null, so that an option of it can be told from an absent one.

Integers, booleans, strings, messages and enumerations are all of these; lists and options are if
their elements are. Floats are restorable but not faithful, for an integer node converts to a
float too. Of the field types with laws, only options and trees may be null.
-/

namespace Missive

open Outcome

/-! ## Values and their views -/

namespace Value

variable {μ : Type} {v : Value μ}

theorem viewItems_eq_map (items : List (Value μ)) : viewItems items = items.map view := by
  induction items with
  | nil => rfl
  | cons v vs ih => rw [viewItems, ih, List.map_cons]

theorem eq_null_of_view (h : v.view = .null) : v = .null := by
  cases v <;> first | rfl | cases h

theorem eq_leaf_of_view {t : Tree} (h : v.view = .leaf t) : v = .leaf t := by
  cases v <;> first | (cases h; rfl) | cases h

theorem eq_message_of_view {m : μ} (h : v.view = .message m) : v = .message m := by
  cases v <;> first | (cases h; rfl) | cases h

theorem eq_array_of_view {views : List (View μ)} (h : v.view = .array views) :
    ∃ items, v = .array items ∧ items.map view = views := by
  cases v with
  | array items =>
    rw [view, viewItems_eq_map, View.array.injEq] at h
    exact ⟨items, rfl, h⟩
  | _ => cases h

end Value

/-! ## The laws -/

section Laws

variable (μ α : Type) [Message μ] [ToView μ α] [OfValue μ α]

/-- The value is converted to `a` wherever it stands, and the path stays what it was. -/
def Converts {μ α : Type} [OfValue μ α] (v : Value μ) (a : α) : Prop :=
  ∀ p : Path, (ofValue v : ConvertM α).run.run p = (.ok a, p)

/-- A value that is seen as a field is converted to that field. -/
class Restorable : Prop where
  converts_of_view : ∀ {v : Value μ} {a : α}, v.view = toView a → Converts v a

/-- The field that a value is converted to is seen as that value. -/
class Faithful : Prop where
  view_of_converted : ∀ {v : Value μ} {a : α} {p q : Path},
    (ofValue v : ConvertM α).run.run p = (.ok a, q) → toView a = v.view

/-- No field is seen as null. -/
class NeverNull (μ α : Type) [ToView μ α] : Prop where
  view_ne_null : ∀ a : α, (toView a : View μ) ≠ .null

end Laws

export Restorable (converts_of_view)
export Faithful (view_of_converted)
export NeverNull (view_ne_null)

/-- An instance of a message type is found again among all instances, and is found only as
    itself. -/
class LawfulMessageClass (μ α : Type) [MessageClass μ α] : Prop where
  unwrap?_wrap : ∀ a : α, MessageClass.unwrap? (MessageClass.wrap a : μ) = some a
  wrap_of_unwrap? : ∀ {m : μ} {a : α}, MessageClass.unwrap? m = some a → MessageClass.wrap a = m

export LawfulMessageClass (unwrap?_wrap wrap_of_unwrap?)

variable {μ : Type} [Message μ]

theorem mismatch_ne_ok {α : Type} {expected got : String} {p q : Path} {a : α} :
    (ConvertM.mismatch expected got : ConvertM α).run.run p ≠ (.ok a, q) := by
  intro h
  cases h

/-- An element that is converted leaves the path of the array. -/
theorem element_of_ok {α : Type} {c : ConvertM α} {a : α} {n : Nat} {p : Path}
    (h : c.run.run (p.index n) = (.ok a, p.index n)) :
    (ConvertM.element n c).run.run p = (.ok a, p) := by
  have hp : (p.index n).pop = p := p.pop_push (.index n)
  change (modify (·.index n) >>= fun _ => c >>= _).run.run p = _
  rw [run_bind_of_ok (rfl : (modify (·.index n) : ConvertM Unit).run.run p = _), run_bind_of_ok h]
  change (Except.ok a, (p.index n).pop) = _
  rw [hp]

/-- An element that is not converted leaves the path where its conversion has ended. -/
theorem element_of_error {α : Type} {c : ConvertM α} {e : Error} {n : Nat} {p q : Path}
    (h : c.run.run (p.index n) = (.error e, q)) :
    (ConvertM.element n c).run.run p = (.error e, q) := by
  change (modify (·.index n) >>= fun _ => c >>= _).run.run p = _
  rw [run_bind_of_ok (rfl : (modify (·.index n) : ConvertM Unit).run.run p = _)]
  exact run_bind_of_error h

theorem ok_of_element {α : Type} {c : ConvertM α} {a : α} {n : Nat} {p q : Path}
    (h : (ConvertM.element n c).run.run p = (.ok a, q)) :
    ∃ r, c.run.run (p.index n) = (.ok a, r) := by
  obtain ⟨_, _, hm, h⟩ := run_bind_eq_ok h
  cases hm
  obtain ⟨b, r, hb, h⟩ := run_bind_eq_ok h
  cases h
  exact ⟨r, hb⟩

/-! ## Leaves -/

section Int

variable {k : IntKind}

instance : NeverNull μ (BoundedInt k) where
  view_ne_null _ h := by cases h

instance : Restorable μ (BoundedInt k) where
  converts_of_view {v a} h p := by
    cases Value.eq_leaf_of_view h
    simp only [ofValue, BoundedInt.ofNumber?_toNumber]
    rfl

instance : Faithful μ (BoundedInt k) where
  view_of_converted {v a p q} h := by
    simp only [ofValue] at h
    split at h
    · next n =>
      split at h
      · next i hi =>
        cases h
        change View.leaf (.number a.toNumber) = .leaf (.number n)
        rw [BoundedInt.toNumber_of_ofNumber? hi]
      · exact absurd h mismatch_ne_ok
    · exact absurd h mismatch_ne_ok

end Int

/-- A float that is encoded at all is finite, and its node holds it as it is. -/
instance : Restorable μ Float where
  converts_of_view {v x} h p := by
    change v.view = View.ofFloat x at h
    unfold View.ofFloat Number.ofFloat? at h
    by_cases hx : x.isFinite = true
    · rw [dif_pos hx] at h
      cases Value.eq_leaf_of_view h
      rfl
    · -- What is seen in place of any other float is not seen of a value.
      rw [dif_neg hx] at h
      cases v <;> cases h

instance : NeverNull μ Bool where
  view_ne_null _ h := by cases h

instance : Restorable μ Bool where
  converts_of_view h p := by
    cases Value.eq_leaf_of_view h
    rfl

instance : Faithful μ Bool where
  view_of_converted {v a p q} h := by
    simp only [ofValue] at h
    split at h
    · cases h; rfl
    · exact absurd h mismatch_ne_ok

instance : NeverNull μ String where
  view_ne_null _ h := by cases h

instance : Restorable μ String where
  converts_of_view h p := by
    cases Value.eq_leaf_of_view h
    rfl

instance : Faithful μ String where
  view_of_converted {v a p q} h := by
    simp only [ofValue] at h
    split at h
    · cases h; rfl
    · exact absurd h mismatch_ne_ok

/-- A tree is restored, the null one from the null value. -/
instance : Restorable μ Tree where
  converts_of_view {v t} h p := by
    change v.view = View.ofTree t at h
    unfold View.ofTree at h
    split at h
    · cases Value.eq_null_of_view h
      rfl
    · cases Value.eq_leaf_of_view h
      rfl

/-! ## Messages -/

section Message

variable {α : Type} [MessageClass μ α]

instance (priority := low) : NeverNull μ α where
  view_ne_null _ h := by cases h

instance (priority := low) [LawfulMessageClass μ α] : Restorable μ α where
  converts_of_view {v a} h p := by
    cases Value.eq_message_of_view h
    simp only [ofValue, unwrap?_wrap]
    rfl

instance (priority := low) [LawfulMessageClass μ α] : Faithful μ α where
  view_of_converted {v a p q} h := by
    simp only [ofValue] at h
    split at h
    · next m =>
      split at h
      · next hm =>
        cases h
        change View.message (MessageClass.wrap a) = .message m
        rw [wrap_of_unwrap? hm]
      · exact absurd h mismatch_ne_ok
    · exact absurd h mismatch_ne_ok

end Message

/-- Messages of any type are converted as they are. -/
instance : Restorable μ μ where
  converts_of_view h p := by
    cases Value.eq_message_of_view h
    rfl

/-! ## Options and lists -/

theorem ofValue_option {μ α : Type} [OfValue μ α] {v : Value μ} (h : v ≠ .null) :
    (ofValue v : ConvertM (Option α)) = some <$> ofValue v := by
  cases v with
  | null => exact absurd rfl h
  | _ => rfl

/-- The conversion of the items of an array, which are numbered from `n` on. -/
def convertItems {μ α : Type} [OfValue μ α] (items : List (Value μ)) (n : Nat) :
    ConvertM (List α) :=
  (items.zipIdx n).mapM fun (v, i) => ConvertM.element i (ofValue v)

theorem convertItems_cons {μ α : Type} [OfValue μ α] (v : Value μ) (items : List (Value μ))
    (n : Nat) : (convertItems (v :: items) n : ConvertM (List α)) = do
      let a ← ConvertM.element n (ofValue v)
      let as ← convertItems items (n + 1)
      return a :: as := by
  rw [convertItems, List.zipIdx_cons, List.mapM_cons]
  rfl

/-- The items of an array are converted one by one, the path coming back from each. -/
theorem convert_items {μ α : Type} [OfValue μ α] {items : List (Value μ)} {as : List α}
    (h : List.Forall₂ Converts items as) (n : Nat) (p : Path) :
    (convertItems items n : ConvertM (List α)).run.run p = (.ok as, p) := by
  induction h generalizing n with
  | nil => rfl
  | cons ha _ ih =>
    rw [convertItems_cons, run_bind_of_ok (element_of_ok (ha _)), run_bind_of_ok (ih _)]
    rfl

section Containers

variable {α : Type} [ToView μ α] [OfValue μ α]

instance [NeverNull μ α] [Restorable μ α] : Restorable μ (Option α) where
  converts_of_view {v a?} h p := by
    cases a? with
    | none =>
      cases Value.eq_null_of_view h
      rfl
    | some a =>
      change v.view = toView a at h
      -- Were it null, it would be converted to the absent field.
      have hv : v ≠ .null := by
        rintro rfl
        exact view_ne_null a h.symm
      rw [ofValue_option hv, map_eq_pure_bind, run_bind_of_ok (converts_of_view h p)]
      rfl

instance [Faithful μ α] : Faithful μ (Option α) where
  view_of_converted {v a? p q} h := by
    by_cases hv : v = .null
    · cases hv
      cases h
      rfl
    · rw [ofValue_option hv, map_eq_pure_bind] at h
      obtain ⟨a, r, ha, h⟩ := run_bind_eq_ok h
      cases h
      exact (view_of_converted ha : toView a = v.view)

instance : NeverNull μ (List α) where
  view_ne_null _ h := by cases h

omit [Message μ] in
theorem views_of_items [Faithful μ α] {items : List (Value μ)} {as : List α} {n : Nat}
    {p q : Path} (h : (convertItems items n : ConvertM (List α)).run.run p = (.ok as, q)) :
    as.map toView = items.map Value.view := by
  induction items generalizing as n p with
  | nil =>
    cases h
    rfl
  | cons v items ih =>
    rw [convertItems_cons] at h
    obtain ⟨a, r, ha, h⟩ := run_bind_eq_ok h
    obtain ⟨as, r', has, h⟩ := run_bind_eq_ok h
    cases h
    obtain ⟨_, ha⟩ := ok_of_element ha
    rw [List.map_cons, List.map_cons, view_of_converted ha, ih has]

instance [Restorable μ α] : Restorable μ (List α) where
  converts_of_view {v as} h p := by
    obtain ⟨items, rfl, hi⟩ := Value.eq_array_of_view h
    have hitems : List.Forall₂ Converts items as :=
      (forall₂_of_map_eq_map hi.symm).imp fun _ _ ha => converts_of_view ha.symm
    exact convert_items hitems 0 p

instance [Faithful μ α] : Faithful μ (List α) where
  view_of_converted {v as p q} h := by
    cases v with
    | array items =>
      change View.array (as.map toView) = .array (Value.viewItems items)
      rw [views_of_items h, Value.viewItems_eq_map]
    | _ => exact absurd h mismatch_ne_ok

end Containers

/-! ## Enumerations -/

/-- The signed types lie within the signed words, and the others have no negative integer. -/
theorem IntKind.isSigned_bounds (k : IntKind) :
    if k.isSigned then k.max ≤ 9223372036854775807 else 0 ≤ k.min := by
  cases k <;> decide

/-- A node is a tag iff it is the leaf that carries it. -/
theorem Tag.isNode_iff {tag : Tag} {node : Tree} : tag.isNode node = true ↔ node = tag.toTree := by
  cases tag with
  | text s =>
    cases node with
    | string s' =>
      simp only [isNode, toTree, decide_eq_true_eq, Tree.string.injEq]
      exact eq_comm
    | _ => simp [isNode, toTree]
  | @int k n =>
    cases node with
    | number x =>
      have lower := n.min_le
      have upper := n.le_max
      obtain ⟨hmin, hmax⟩ := BoundedInt.bounds k
      have hk := k.isSigned_bounds
      rw [toTree, Tree.number.injEq, isNode]
      -- The word that the node is compared as holds every integer of the type.
      split
      · next hs =>
        rw [if_pos hs] at hk
        rw [decide_eq_true_eq, Number.signed?_eq_some_iff,
          Int64.toInt_ofInt_of_le (by omega) (by omega)]
        exact n.integer?_eq_some_iff
      · next hs =>
        rw [if_neg hs] at hk
        rw [decide_eq_true_eq, Number.unsigned?_eq_some_iff,
          UInt64.toNat_ofNat_of_lt' (by change _ < 18446744073709551616; omega),
          Int.toNat_of_nonneg (by omega)]
        exact n.integer?_eq_some_iff
    | _ => simp [isNode, toTree]

namespace LeafEnum

variable {e : LeafEnum}

/-- No two variants have the same tag. -/
def DistinctTags (e : LeafEnum) : Prop := e.tags.Pairwise fun a b => a.toTree ≠ b.toTree

/-- A node is read as a variant iff it is the leaf that carries its tag, and carries that of no
    variant before it. -/
theorem ofNode?_eq_some_iff {node : Tree} {v : e.Variant} :
    e.ofNode? node = some v ↔
      node = v.tag.toTree ∧ ∀ w : e.Variant, w.index < v.index → node ≠ w.tag.toTree := by
  rw [ofNode?, Option.map_eq_some_iff]
  constructor
  · rintro ⟨i, hi, rfl⟩
    obtain ⟨hi, hbefore⟩ := List.findFinIdx?_eq_some_iff.1 hi
    exact ⟨Tag.isNode_iff.1 hi, fun w hw heq => hbefore w.index hw (Tag.isNode_iff.2 heq)⟩
  · rintro ⟨hnode, hbefore⟩
    refine ⟨v.index, List.findFinIdx?_eq_some_iff.2 ⟨Tag.isNode_iff.2 hnode, ?_⟩, rfl⟩
    exact fun j hj hmatch => hbefore ⟨j⟩ hj (Tag.isNode_iff.1 hmatch)

theorem tag_of_ofNode? {node : Tree} {v : e.Variant} (h : e.ofNode? node = some v) :
    v.tag.toTree = node :=
  (ofNode?_eq_some_iff.1 h).1.symm

/-- Under distinct tags each variant is read from its own. -/
theorem ofNode?_tag (he : e.DistinctTags) (v : e.Variant) : e.ofNode? v.tag.toTree = some v := by
  refine ofNode?_eq_some_iff.2 ⟨rfl, fun w hw => ?_⟩
  exact (List.pairwise_iff_getElem.1 he w.index v.index w.index.2 v.index.2 hw).symm

instance : NeverNull μ e.Variant where
  view_ne_null v h := by
    change View.leaf v.tag.toTree = .null at h
    cases h

theorem restorable (he : e.DistinctTags) : Restorable μ e.Variant where
  converts_of_view {value v} h p := by
    cases Value.eq_leaf_of_view h
    simp only [ofValue, ofNode?_tag he]
    rfl

/-- A value that is converted to a variant is a leaf that is read as it. -/
theorem leaf_of_converted {value : Value μ} {v : e.Variant} {p q : Path}
    (h : (ofValue value : ConvertM e.Variant).run.run p = (.ok v, q)) :
    ∃ node, value = .leaf node ∧ e.ofNode? node = some v := by
  simp only [ofValue] at h
  split at h
  · next hv =>
    cases h
    split at hv
    · next node => exact ⟨node, rfl, hv⟩
    · cases hv
  · exact absurd h mismatch_ne_ok

instance : Faithful μ e.Variant where
  view_of_converted {value v p q} h := by
    obtain ⟨node, rfl, hv⟩ := leaf_of_converted h
    change View.leaf v.tag.toTree = .leaf node
    rw [tag_of_ofNode? hv]

end LeafEnum

end Missive
