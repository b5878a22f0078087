import Mathlib
import Missive.Proofs.Sample.Families
import Missive.Sample.FieldKind

/-!
# Round trips of typed fields

An absent option, a null tree and an option of either are all seen as null, and a null is read as
the absent option. So a field comes back from the tree that is made of it with its nulls
*collapsed*: each option of something that is seen as null, at any depth, has become absent.

* `FieldKind.Described`: the field types of which this is said, each with its descriptor.
* `FieldKind.collapse`: what becomes of a field; it stays what it is iff it is
  `FieldKind.Unambiguous`.
* `FieldKind.Described.converts`: a value that is seen as a field is converted to its collapse.
-/

namespace Missive.Sample

open List (Forall₂)
open Outcome
open View (fits_list fits_option fits_tree)

namespace Kind

/-- The types of the plain messages. -/
inductive Plain : Kind → Prop
  | bar : Plain .bar
  | foo : Plain .foo
  | treeNode : Plain .treeNode
  | team : Plain .team
  | person : Plain .person
  | task : Plain .task

variable {k : Kind}

theorem Plain.wrap (h : k.Plain) (m : k.Carrier) : (k.messageClass.wrap m).Plain := by
  cases h <;> trivial

theorem Plain.messageType_wrap (h : k.Plain) (m : k.Carrier) :
    messageType (k.messageClass.wrap m) = k.type := by
  cases h <;> rfl

theorem Plain.lawful (h : k.Plain) :
    letI := k.messageClass
    LawfulMessageClass Instance k.Carrier := by
  cases h <;> infer_instance

end Kind

namespace FieldKind

/-- The descriptors of field types: integers, booleans, strings, trees and enumerations are leaves,
    and options are described as what they may hold. -/
inductive Described : FieldKind → Descriptor → Prop
  | int {k : IntKind} : Described (.int k) .primitive
  | bool : Described .bool .primitive
  | string : Described .string .primitive
  | tree : Described .tree .primitive
  | variant {e : LeafEnum} (he : e.DistinctTags) : Described (.variant e) .primitive
  | message {k : Kind} (hk : k.Plain) : Described (.message k) (.message (.handle k.type))
  | option {t : FieldKind} {d : Descriptor} (h : Described t d) : Described (.option t) d
  | list {t : FieldKind} {d : Descriptor} (h : Described t d) : Described (.list t) (.array d)

/-! ## Collapsing nulls -/

/-- The field with each option of something that is seen as null made absent. -/
def collapse : (t : FieldKind) → t.Carrier → t.Carrier
  | option t, some a =>
    match t.view a with
    | .null => none
    | _ => some (t.collapse a)
  | option _, none => none
  | list t, as => as.map t.collapse
  | _, a => a

/-- No option in the field is one of something that is seen as null. -/
def Unambiguous : (t : FieldKind) → t.Carrier → Prop
  | option t, some a => t.view a ≠ .null ∧ t.Unambiguous a
  | option _, none => True
  | list t, as => ∀ a ∈ as, t.Unambiguous a
  | _, _ => True

variable {t : FieldKind}

theorem collapse_some_of_null {a : t.Carrier} (h : t.view a = .null) :
    (option t).collapse (some a) = none := by
  rw [collapse, h]

theorem collapse_some {a : t.Carrier} (h : t.view a ≠ .null) :
    (option t).collapse (some a) = some (t.collapse a) := by
  rw [collapse]
  split
  · next hnull => exact absurd hnull h
  · rfl

theorem collapse_eq_self_iff (a : t.Carrier) : t.collapse a = a ↔ t.Unambiguous a := by
  induction t with
  | option t ih =>
    rcases a with _ | a
    · exact ⟨fun _ => trivial, fun _ => rfl⟩
    · by_cases h : t.view a = .null
      · simp [collapse_some_of_null h, Unambiguous, h]
      · simp [collapse_some h, Unambiguous, h, ih]
  | list t ih =>
    calc a.map t.collapse = a ↔ a.map t.collapse = a.map id := by rw [List.map_id]
      _ ↔ ∀ x ∈ a, t.Unambiguous x := by simp only [List.map_inj_left, id, ih]
  | _ => exact ⟨fun _ => trivial, fun _ => rfl⟩

/-! ## Encoding and conversion -/

variable {d : Descriptor}

theorem Described.fits {o : Options} (h : t.Described d) (a : t.Carrier) :
    (t.view a).Fits (sampleRegistry o) (·.isNull = false) Instance.Regular d := by
  induction h with
  | int => exact a.scalar_toNumber.isNull
  | bool | string => rfl
  | tree => exact fits_tree a
  | variant => exact a.tag.scalar_toTree.isNull
  | message hk =>
    refine ⟨?_, (hk.wrap a).regular⟩
    rw [hk.messageType_wrap]
    rfl
  | @option t d _ ih =>
    let : ToView Instance t.Carrier := ⟨t.view⟩
    exact fits_option fun a _ => ih a
  | @list t d _ ih =>
    let : ToView Instance t.Carrier := ⟨t.view⟩
    exact fits_list fun a _ => ih a

/-- A value that is seen as a field is converted to the collapse of the field, wherever it
    stands. -/
theorem Described.converts (h : t.Described d) {v : Value Instance} {a : t.Carrier}
    (hv : v.view = t.view a) (p : Path) : (t.convert v).run.run p = (.ok (t.collapse a), p) := by
  induction h generalizing v p with
  | int | bool | string | tree => exact converts_of_view hv p
  | variant he => exact (LeafEnum.restorable he).converts_of_view hv p
  | @message k hk =>
    let := k.messageClass
    have := hk.lawful
    exact (converts_of_view hv : Converts v a) p
  | @option t d _ ih =>
    let : OfValue Instance t.Carrier := ⟨t.convert⟩
    rcases a with _ | a
    · cases Value.eq_null_of_view hv
      rfl
    · by_cases hnull : t.view a = .null
      · cases Value.eq_null_of_view (hv.trans hnull)
        rw [collapse_some_of_null hnull]
        rfl
      · have hne : v ≠ .null := by
          rintro rfl
          exact hnull hv.symm
        have hoption : (FieldKind.option t).convert v = some <$> t.convert v := ofValue_option hne
        rw [collapse_some hnull, hoption, map_eq_pure_bind, run_bind_of_ok (ih hv p)]
        rfl
  | @list t d _ ih =>
    let : OfValue Instance t.Carrier := ⟨t.convert⟩
    obtain ⟨items, rfl, hi⟩ := Value.eq_array_of_view hv
    have hitems : Forall₂ Converts items (a.map t.collapse) :=
      List.forall₂_map_right_iff.2
        ((forall₂_of_map_eq_map hi.symm).imp fun _ _ ha => ih ha.symm)
    exact convert_items hitems 0 p

end FieldKind

/-- If a tree is made of a field, it is decoded under the same descriptor, and what it is decoded to
    is converted to the collapse of the field: to the field itself iff no option in it is one of
    something that is seen as null. -/
theorem field_round_trip (o : Options) {t : FieldKind} {d : Descriptor} (ht : t.Described d)
    (a : t.Carrier) {node : Tree} (h : (sampleRegistry o).encode (t.view a) d = .ok node) :
    ∃ v, (sampleRegistry o).decode node d = .ok v ∧ ∀ p,
      (t.convert v).run.run p = (.ok (t.collapse a), p) ∧
      (((t.convert v).run.run p).1 = .ok a ↔ t.Unambiguous a) := by
  obtain ⟨v, hv, hview⟩ := Registry.decodeAt_of_encodeAt sampleRegistry_reachable.distinctFields
    covers_regular (fun _ h => h) h (ht.fits a) .root
  refine ⟨v, hv, fun p => ⟨ht.converts hview p, ?_⟩⟩
  rw [ht.converts hview p, ← FieldKind.collapse_eq_self_iff, Except.ok.injEq]

/-- Of four options of options of trees, the absent one and the null one are lost. -/
theorem field_round_trip_nulls :
    (sampleRegistry {}).encode ((FieldKind.list (.option (.option .tree))).view
      [none, some none, some (some .null), some (some (.bool true))]) (.array .primitive) =
        .ok (.array [.null, .null, .null, .bool true]) ∧
    ∃ v, (sampleRegistry {}).decode (.array [.null, .null, .null, .bool true])
        (.array .primitive) = .ok v ∧ ∀ p,
      ((FieldKind.list (.option (.option .tree))).convert v).run.run p =
        (.ok [none, none, none, some (some (.bool true))], p) := by
  have h : (sampleRegistry {}).encode ((FieldKind.list (.option (.option .tree))).view
      [none, some none, some (some .null), some (some (.bool true))]) (.array .primitive) =
        .ok (.array [.null, .null, .null, .bool true]) := by cbv
  obtain ⟨v, hv, hp⟩ := field_round_trip {} (.list (.option (.option .tree))) _ h
  exact ⟨h, v, hv, fun p => (hp p).1⟩

end Missive.Sample
