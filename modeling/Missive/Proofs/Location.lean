import Missive.Proofs.Conversion
import Missive.Proofs.Factory
import Missive.Sample.Instance

/-!
# Where fields are located

Fields have the path of their message, and a builder that takes them one by one reports its errors
from there. A conversion that succeeds comes back to where it has started. One that fails stays
where it has failed, and only one step is taken back from there: this leads to the message again if
the field as a whole is refused, but not if one of its elements is.

* `FieldType`: the field types, with how deep lists are nested in them.
* `EndsWithin`: where conversions may end that fail; `FieldType.ends` says that they all do.
* `FieldType.take_cases`: what becomes of a field that is taken, and of the path.
-/

namespace Missive

open Outcome

/-! ## Elements of elements -/

namespace Path

variable {p : Path} {name : String} {i : Nat} {indexes : List Nat}

/-- The path of an element of the node, of an element of that one, and so on. -/
def into (p : Path) (indexes : List Nat) : Path := ⟨p.steps ++ indexes.map .index⟩

@[simp] theorem into_nil : p.into [] = p := by simp [into]

theorem into_cons : p.into (i :: indexes) = (p.index i).into indexes := by
  simp [into, index, push]

theorem into_append : p.into (indexes ++ [i]) = (p.into indexes).index i := by
  simp [into, index, push]

/-- One step back from a field, or from inside of it, is the message only for the field itself. -/
theorem pop_into_field_eq_iff : ((p.field name).into indexes).pop = p ↔ indexes = [] := by
  constructor
  · intro h
    have hlength := congrArg (·.steps.length) h
    simp only [pop, into, field, push, List.length_dropLast, List.length_append, List.length_map,
      List.length_singleton] at hlength
    exact List.eq_nil_of_length_eq_zero (by omega)
  · rintro rfl
    simp [field]

end Path

variable {μ : Type} [Message μ]

/-! ## Field types -/

/-- The field types, each with the number of lists that are nested in it. -/
inductive FieldType (μ : Type) [Message μ] : (α : Type) → [OfValue μ α] → Nat → Prop
  | int (k : IntKind) : FieldType μ (BoundedInt k) 0
  | float : FieldType μ Float 0
  | single : FieldType μ Float32 0
  | bool : FieldType μ Bool 0
  | string : FieldType μ String 0
  | tree : FieldType μ Tree 0
  | variant (e : LeafEnum) : FieldType μ e.Variant 0
  | message (α : Type) [MessageClass μ α] : FieldType μ α 0
  | anyMessage : FieldType μ μ 0
  | option {α : Type} [OfValue μ α] {n : Nat} (h : FieldType μ α n) : FieldType μ (Option α) n
  | list {α : Type} [OfValue μ α] {n : Nat} (h : FieldType μ α n) : FieldType μ (List α) (n + 1)

/-- Where conversion of a value to a type with `n` nested lists ends if it fails: it ends where the
    mismatch is. This is at an element if a list is wanted and the value is an array, and else at
    the value itself. -/
def EndsWithin (n : Nat) (v : Value μ) (p : Path) (e : Error) (q : Path) : Prop :=
  ∃ indexes expected got, indexes.length ≤ n ∧
    (indexes = [] ↔ n = 0 ∨ ∀ items, v ≠ .array items) ∧
    e = .typeMismatch (p.into indexes) expected got ∧ q = p.into indexes

omit [Message μ] in
theorem endsWithin_self {n : Nat} {v : Value μ} (h : n = 0 ∨ ∀ items, v ≠ .array items) (p : Path)
    (expected got : String) : EndsWithin n v p (.typeMismatch p expected got) p :=
  ⟨[], expected, got, Nat.zero_le n, iff_of_true rfl h, by simp, by simp⟩

namespace FieldType

variable {α : Type} [OfValue μ α] {n : Nat}

/-- All conversions to field types that fail end where the mismatch is. -/
theorem ends (h : FieldType μ α n) (v : Value μ) :
    (ofValue v : ConvertM α).Ends (EndsWithin n v) := by
  induction h generalizing v with
  | int => exact convertsWhole_int.ends fun p => endsWithin_self (.inl rfl) p _ _
  | float => exact convertsWhole_float.ends fun p => endsWithin_self (.inl rfl) p _ _
  | single => exact convertsWhole_single.ends fun p => endsWithin_self (.inl rfl) p _ _
  | bool => exact convertsWhole_bool.ends fun p => endsWithin_self (.inl rfl) p _ _
  | string => exact convertsWhole_string.ends fun p => endsWithin_self (.inl rfl) p _ _
  | tree => exact convertsWhole_tree.ends fun p => endsWithin_self (.inl rfl) p _ _
  | variant => exact convertsWhole_variant.ends fun p => endsWithin_self (.inl rfl) p _ _
  | message => exact convertsWhole_message.ends fun p => endsWithin_self (.inl rfl) p _ _
  | anyMessage => exact convertsWhole_anyMessage.ends fun p => endsWithin_self (.inl rfl) p _ _
  | option _ ih =>
    by_cases hn : v = .null
    · subst hn
      exact .pure
    · rw [ofValue_option hn, map_eq_pure_bind]
      exact (ih v).bind fun _ => .pure
  | list _ ih =>
    cases v with
    | array items =>
      refine .mapM fun ⟨v, i⟩ _ => (ih v).element ?_
      rintro p _ _ ⟨indexes, expected, got, hn, _, rfl, rfl⟩
      rw [← Path.into_cons]
      exact ⟨i :: indexes, expected, got, Nat.succ_le_succ hn, by simp, rfl, rfl⟩
    | _ => exact .mismatch fun p => endsWithin_self (.inr (by simp)) p _ _

/-- Of each field type there is an array that it refuses. -/
theorem exists_refused (h : FieldType μ α n) : ∃ items : List (Value μ), ∀ p, ∃ e q,
    (ofValue (.array items) : ConvertM α).run.run p = (.error e, q) := by
  induction h with
  | option _ ih =>
    obtain ⟨items, hitems⟩ := ih
    refine ⟨items, fun p => ?_⟩
    obtain ⟨e, q, he⟩ := hitems p
    rw [ofValue_option (by simp), map_eq_pure_bind]
    exact ⟨e, q, run_bind_of_error he⟩
  | list _ ih =>
    obtain ⟨items, hitems⟩ := ih
    refine ⟨[.array items], fun p => ?_⟩
    obtain ⟨e, q, he⟩ := hitems (p.index 0)
    refine ⟨e, q, ?_⟩
    change (convertItems [.array items] 0 : ConvertM (List _)).run.run p = _
    rw [convertItems_cons]
    exact run_bind_of_error (element_of_error he)
  | _ => exact ⟨[], fun p => ⟨_, p, rfl⟩⟩

/-- What becomes of a field that is taken: there is none, and nothing changes; or it is converted,
    and the path is that of the message again; or it is refused, and the path ends one step above
    the place where it is. -/
theorem take_cases (h : FieldType μ α n) (fields : Fields μ) (name : String) :
    (fields.get? name = none ∧ (Fields.take name : FieldsM μ α).run.run fields =
      (.error (.missingField fields.path name), fields)) ∨
    ∃ v, fields.get? name = some v ∧
      ((∃ a, (Fields.take name : FieldsM μ α).run.run fields = (.ok a, fields.erase name)) ∨
        ∃ e q, EndsWithin n v (fields.path.field name) e q ∧
          (Fields.take name : FieldsM μ α).run.run fields =
            (.error e, { fields.erase name with path := q.pop })) := by
  cases hv : fields.get? name with
  | none => exact .inl ⟨rfl, Fields.take_of_none hv⟩
  | some v =>
    refine .inr ⟨v, rfl, ?_⟩
    rcases h.ends v (fields.path.field name) with ⟨a, ha⟩ | ⟨e, q, hends, he⟩
    · exact .inl ⟨a, Fields.take_of_ok hv ha⟩
    · exact .inr ⟨e, q, hends, Fields.take_of_error hv he⟩

/-- The path is that of the message again iff the field is taken, or is no array, or there is no
    list in the type. -/
theorem path_take_eq_iff (h : FieldType μ α n) (fields : Fields μ) (name : String) :
    ((Fields.take name : FieldsM μ α).run.run fields).2.path = fields.path ↔
      n = 0 ∨ (∃ a, ((Fields.take name : FieldsM μ α).run.run fields).1 = .ok a) ∨
        ∀ items, fields.get? name ≠ some (.array items) := by
  rcases h.take_cases fields name with ⟨hv, hrun⟩ | ⟨v, hv, ⟨a, hrun⟩ | ⟨_, _, hends, hrun⟩⟩
  · simp [hrun, hv]
  · simp [hrun, Fields.erase]
  · obtain ⟨indexes, _, _, _, hiff, _, rfl⟩ := hends
    simp [hrun, hv, Path.pop_into_field_eq_iff, hiff]

/-- If the path is not that of the message again, an element is refused, and the path is still that
    of the array that the element is in. -/
theorem path_take_of_ne (h : FieldType μ α n) {fields : Fields μ} {name : String}
    (hne : ((Fields.take name : FieldsM μ α).run.run fields).2.path ≠ fields.path) :
    ∃ indexes i expected got, indexes.length < n ∧
      ((Fields.take name : FieldsM μ α).run.run fields).1 =
        .error (.typeMismatch (((fields.path.field name).into indexes).index i) expected got) ∧
      ((Fields.take name : FieldsM μ α).run.run fields).2.path =
        (fields.path.field name).into indexes := by
  rcases h.take_cases fields name with ⟨_, hrun⟩ | ⟨_, _, ⟨a, hrun⟩ | ⟨_, _, hends, hrun⟩⟩
  · exact absurd (by rw [hrun]) hne
  · exact absurd (by rw [hrun]; rfl) hne
  · obtain ⟨indexes, expected, got, hn, _, rfl, rfl⟩ := hends
    rw [hrun] at hne ⊢
    rcases indexes.eq_nil_or_concat' with rfl | ⟨indexes, i, rfl⟩
    · exact absurd (Path.pop_into_field_eq_iff.2 rfl) hne
    · rw [List.length_append] at hn
      rw [Path.into_append]
      exact ⟨indexes, i, expected, got, hn, rfl, Path.pop_push _ _⟩

end FieldType

/-- Taking fields of a type leaves the path as it is, whatever the fields are, iff there is no list
    in the type. Else this depends on the fields: the path stays as it is iff the field is taken, or
    is no array. If it does not, it is the path of the array that the refused element is in. -/
theorem take_keeps_path_iff {α : Type} [OfValue μ α] {n : Nat} (h : FieldType μ α n) :
    ((∀ (fields : Fields μ) (name : String),
      ((Fields.take name : FieldsM μ α).run.run fields).2.path = fields.path) ↔ n = 0) ∧
    ∀ (fields : Fields μ) (name : String),
      let r := (Fields.take name : FieldsM μ α).run.run fields
      (r.2.path = fields.path ↔
        n = 0 ∨ (∃ a, r.1 = .ok a) ∨ ∀ items, fields.get? name ≠ some (.array items)) ∧
      (r.2.path ≠ fields.path → ∃ indexes i expected got, indexes.length < n ∧
        r.1 = .error
          (.typeMismatch (((fields.path.field name).into indexes).index i) expected got) ∧
        r.2.path = (fields.path.field name).into indexes) := by
  refine ⟨⟨fun hkeeps => ?_, fun hn fields name => (h.path_take_eq_iff fields name).2 (.inl hn)⟩,
    fun fields name => ⟨h.path_take_eq_iff fields name, h.path_take_of_ne⟩⟩
  -- An array that is refused is taken from a message that has no other field.
  obtain ⟨items, hitems⟩ := h.exists_refused
  let fields : Fields μ := { entries := [("", .array items)] }
  have hv : fields.get? "" = some (.array items) := rfl
  obtain ⟨e, q, he⟩ := hitems (fields.path.field "")
  rcases (h.path_take_eq_iff fields "").1 (hkeeps fields "") with hn | ⟨a, ha⟩ | hno
  · exact hn
  · rw [Fields.take_of_error hv he] at ha
    cases ha
  · exact absurd hv (hno items)

section Rows

open Sample (Instance)

/-- The fields of a message with rows of truth values, of which one is a string. -/
def mixedRows : Fields Instance where
  path := ⟨[.index 3]⟩
  entries := [("rows", .array [.array [.leaf (.bool true)],
    .array [.leaf (.bool true), .leaf (.string "no")]])]

/-- Rows of truth values do not leave the path as it is in general. After the mixed ones are refused
    it is that of the second row. -/
theorem take_keeps_path_iff_mixedRows :
    (¬∀ (fields : Fields Instance) (name : String),
      ((Fields.take name : FieldsM Instance (Option (List (List Bool)))).run.run fields).2.path =
        fields.path) ∧
    ((Fields.take "rows" : FieldsM Instance (Option (List (List Bool)))).run.run mixedRows).2.path =
      ⟨[.index 3, .field "rows", .index 1]⟩ ∧
    ∃ indexes i expected got, indexes.length < 2 ∧
      ((Fields.take "rows" : FieldsM Instance (Option (List (List Bool)))).run.run mixedRows).1 =
        .error (.typeMismatch (((mixedRows.path.field "rows").into indexes).index i)
          expected got) := by
  obtain ⟨hall, hsome⟩ := take_keeps_path_iff
    (.option (.list (.list .bool)) : FieldType Instance (Option (List (List Bool))) 2)
  have hpath : ((Fields.take "rows" : FieldsM Instance (Option (List (List Bool)))).run.run
      mixedRows).2.path = ⟨[.index 3, .field "rows", .index 1]⟩ := by rfl
  refine ⟨fun hkeeps => absurd (hall.1 hkeeps) (by decide), hpath, ?_⟩
  obtain ⟨indexes, i, expected, got, hn, herror, _⟩ :=
    (hsome mixedRows "rows").2 (by rw [hpath]; decide)
  exact ⟨indexes, i, expected, got, hn, herror⟩

/-- Truth values of which one is null are refused, and then a field that there is none of is missed
    at the path of the refused one, not at that of the message. -/
theorem take_null_element_moves_path :
    let fields : Fields Instance := { entries := [("a", .array [.null])] }
    let after := ((Fields.take "a" : FieldsM Instance (List Bool)).run.run fields).2
    fields.path = .root ∧ after.path = Path.root.field "a" ∧
    ((Fields.take "b" : FieldsM Instance Bool).run.run after).1 =
      .error (.missingField (Path.root.field "a") "b") := by
  refine ⟨?_, ?_, ?_⟩ <;> rfl

end Rows

end Missive
