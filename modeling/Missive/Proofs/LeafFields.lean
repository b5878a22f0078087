import Mathlib
import Missive.Proofs.Conversion
import Missive.Sample.Instance

/-!
# Integers and enumerations as fields

Of a leaf there is a value that it carries: an integer, if the node is one, or a string. A float
carries none, whatever it is. Which of the words a number is read as, and which of the ten integer
types it is read for, makes no difference to this value.

* `IntKind.Holds`: the integers of a type, by its width; each of them is a bounded integer of that
  type (`IntKind.holds_iff`).
* `ofValue_int_eq_ok_iff`: the integer that a value is converted to is the one that it carries.
* `Tree.carried?`, `Tag.carried`: what a leaf carries, and what a tag is.
* `LeafEnum.Variant.IsFirst`: no variant before it has the same tag.
* `LeafEnum.ofNode?_eq_some_iff_isFirst`: a leaf is read as the first variant whose tag it carries.
-/

namespace Missive

variable {μ : Type} [Message μ]

/-! ## Integers -/

namespace IntKind

/-- The number of bits of the type. -/
def width : IntKind → Nat
  | i8 | u8 => 8
  | i16 | u16 => 16
  | i32 | u32 => 32
  | i64 | isize | u64 | usize => 64

/-- The type has the integer: a signed type has as many below zero as from zero on. -/
def Holds (k : IntKind) (n : Int) : Prop :=
  if k.isSigned then -2 ^ (k.width - 1) ≤ n ∧ n < 2 ^ (k.width - 1) else 0 ≤ n ∧ n < 2 ^ k.width

theorem holds_iff {k : IntKind} {n : Int} : k.Holds n ↔ ∃ i : BoundedInt k, i.val = n := by
  have hrange : k.Holds n ↔ k.min ≤ n ∧ n ≤ k.max := by
    cases k <;> simp only [Holds, isSigned, width, min, max] <;> norm_num <;> omega
  rw [hrange]
  constructor
  · intro h
    exact ⟨⟨n, h.1, h.2⟩, rfl⟩
  · rintro ⟨i, rfl⟩
    exact ⟨i.min_le, i.le_max⟩

end IntKind

/-- The integers that nodes hold are those of the signed and of the unsigned words. -/
theorem Number.exists_integer?_iff {n : Int} :
    (∃ x : Number, x.integer? = some n) ↔ -2 ^ 63 ≤ n ∧ n < 2 ^ 64 := by
  constructor
  · rintro ⟨x, hx⟩
    cases x with
    | natural u =>
      cases hx
      have := u.toNat_lt
      omega
    | negative i hi =>
      cases hx
      have := i.le_toInt
      have := Number.toInt_neg hi
      omega
    | real => cases hx
  · rintro ⟨hlower, hupper⟩
    -- The node of an integer of the widest type of its sign.
    rcases lt_or_ge n 0 with hn | hn
    · obtain ⟨i, rfl⟩ := (IntKind.holds_iff (k := .i64)).1 ⟨hlower, hn.trans (by positivity)⟩
      exact ⟨i.toNumber, i.integer?_toNumber⟩
    · obtain ⟨i, rfl⟩ := (IntKind.holds_iff (k := .u64)).1 ⟨hn, hupper⟩
      exact ⟨i.toNumber, i.integer?_toNumber⟩

/-- A value is converted to an integer iff it is a node of that integer. -/
theorem ofValue_int_eq_ok_iff {k : IntKind} {v : Value μ} {p : Path} {i : BoundedInt k} :
    (ofValue v : ConvertM (BoundedInt k)).run.run p = (.ok i, p) ↔
      ∃ x, v = .leaf (.number x) ∧ x.integer? = some i.val := by
  constructor
  · intro h
    exact ⟨i.toNumber, Value.eq_leaf_of_view (view_of_converted h).symm, i.integer?_toNumber⟩
  · rintro ⟨x, rfl, hx⟩
    rw [i.integer?_eq_some_iff.1 hx]
    exact converts_of_view (a := i) rfl p

/-- A value is converted to an integer type iff it is an integer node whose value the type has; then
    it is converted to this value, and else it is a mismatch. Every integer of the type is seen as
    such a node, and is converted back from it. Integer nodes there are of each integer from
    `-2 ^ 63` to `2 ^ 64 - 1`. -/
theorem int_conversion_exact (k : IntKind) (p : Path) :
    (∀ (v : Value μ) (n : Int),
      (∃ i : BoundedInt k, i.val = n ∧
        (ofValue v : ConvertM (BoundedInt k)).run.run p = (.ok i, p)) ↔
      ∃ x, v = .leaf (.number x) ∧ x.integer? = some n ∧ k.Holds n) ∧
    (∀ v : Value μ, (¬∃ x n, v = .leaf (.number x) ∧ x.integer? = some n ∧ k.Holds n) →
      (ofValue v : ConvertM (BoundedInt k)).run.run p =
        (.error (.typeMismatch p k.name v.describe), p)) ∧
    (∀ i : BoundedInt k, ∃ x, (toView i : View μ) = .leaf (.number x) ∧
      x.integer? = some i.val ∧
      (ofValue (.leaf (.number x) : Value μ) : ConvertM (BoundedInt k)).run.run p = (.ok i, p)) ∧
    ∀ n : Int, (∃ x : Number, x.integer? = some n) ↔ -2 ^ 63 ≤ n ∧ n < 2 ^ 64 := by
  refine ⟨fun v n => ⟨?_, ?_⟩, fun v hv => ?_, fun i => ?_, fun n => Number.exists_integer?_iff⟩
  · rintro ⟨i, rfl, h⟩
    obtain ⟨x, hv, hx⟩ := ofValue_int_eq_ok_iff.1 h
    exact ⟨x, hv, hx, IntKind.holds_iff.2 ⟨i, rfl⟩⟩
  · rintro ⟨x, hv, hx, hn⟩
    obtain ⟨i, rfl⟩ := IntKind.holds_iff.1 hn
    exact ⟨i, rfl, ofValue_int_eq_ok_iff.2 ⟨x, hv, hx⟩⟩
  · rcases convertsWhole_int.run_cases v p with ⟨i, hi⟩ | he
    · obtain ⟨x, hx⟩ := ofValue_int_eq_ok_iff.1 hi
      exact absurd ⟨x, i.val, hx.1, hx.2, IntKind.holds_iff.2 ⟨i, rfl⟩⟩ hv
    · exact he
  · have hx := i.integer?_toNumber
    exact ⟨i.toNumber, rfl, hx, ofValue_int_eq_ok_iff.2 ⟨i.toNumber, rfl, hx⟩⟩

/-- The first integer beyond the signed words is not converted to one, but to an unsigned word. -/
theorem int_conversion_exact_beyond :
    let v : Value Sample.Instance := .leaf (.number (.natural 9223372036854775808))
    (ofValue v : ConvertM (BoundedInt .i64)).run.run .root =
      (.error (.typeMismatch .root "i64" "number"), .root) ∧
    ∃ i : BoundedInt .u64, i.val = 9223372036854775808 ∧
      (ofValue v : ConvertM (BoundedInt .u64)).run.run .root = (.ok i, .root) := by
  intro v
  obtain ⟨_, hrefused, _⟩ := int_conversion_exact (μ := Sample.Instance) .i64 .root
  obtain ⟨hexact, _⟩ := int_conversion_exact (μ := Sample.Instance) .u64 .root
  refine ⟨hrefused v ?_, (hexact v _).2 ⟨_, rfl, rfl, ?_⟩⟩
  · rintro ⟨x, n, hv, hx, hn⟩
    cases Value.leaf.inj hv
    cases hx
    exact absurd hn.2 (by decide)
  · norm_num [IntKind.Holds, IntKind.isSigned, IntKind.width]

/-! ## Enumerations -/

/-- What a leaf carries: its integer or its string. -/
def Tree.carried? : Tree → Option (Int ⊕ String)
  | .number x => x.integer?.map .inl
  | .string s => some (.inr s)
  | _ => none

/-- The integer or the string that a tag is, whatever type the integer has. -/
def Tag.carried : Tag → Int ⊕ String
  | .int n => .inl n.val
  | .text s => .inr s

/-- A leaf is that of a tag iff it carries the tag. -/
theorem Tag.eq_toTree_iff {tag : Tag} {node : Tree} :
    node = tag.toTree ↔ node.carried? = some tag.carried := by
  cases tag with
  | int n =>
    cases node with
    | number x => simp [toTree, Tree.carried?, carried, n.integer?_eq_some_iff]
    | _ => simp [toTree, Tree.carried?, carried]
  | text s => cases node <;> simp [toTree, Tree.carried?, carried]

theorem Tag.carried?_toTree (tag : Tag) : tag.toTree.carried? = some tag.carried :=
  eq_toTree_iff.1 rfl

namespace LeafEnum

variable {e : LeafEnum} {v : e.Variant}

/-- No variant before it has the same tag. -/
def Variant.IsFirst (v : e.Variant) : Prop :=
  ∀ w : e.Variant, w.index < v.index → w.tag.carried ≠ v.tag.carried

/-- A leaf is read as the first variant whose tag it carries. -/
theorem ofNode?_eq_some_iff_isFirst {node : Tree} :
    e.ofNode? node = some v ↔ node.carried? = some v.tag.carried ∧ v.IsFirst := by
  rw [ofNode?_eq_some_iff, Tag.eq_toTree_iff]
  refine and_congr_right fun hnode => forall₂_congr fun w _ => ?_
  rw [ne_eq, Tag.eq_toTree_iff, hnode, Option.some.injEq]
  exact not_congr eq_comm

/-- The tag of a variant is read as the first variant that has it. -/
theorem exists_ofNode?_tag (v : e.Variant) :
    ∃ w : e.Variant, w.IsFirst ∧ w.tag.carried = v.tag.carried ∧ w.index ≤ v.index ∧
      e.ofNode? v.tag.toTree = some w := by
  cases h : e.ofNode? v.tag.toTree with
  | none =>
    rw [ofNode?, Option.map_eq_none_iff, List.findFinIdx?_eq_none_iff] at h
    exact absurd (Tag.isNode_iff.2 rfl) (h v.tag (List.get_mem _ _))
  | some w =>
    obtain ⟨hw, hfirst⟩ := ofNode?_eq_some_iff_isFirst.1 h
    have hsame : w.tag.carried = v.tag.carried :=
      Option.some.inj (hw.symm.trans v.tag.carried?_toTree)
    exact ⟨w, hfirst, hsame, not_lt.1 fun hlt => hfirst v hlt hsame.symm, rfl⟩

/-- All variants are the first with their tags iff no two share one. -/
theorem nodup_iff_isFirst : (e.tags.map Tag.carried).Nodup ↔ ∀ v : e.Variant, v.IsFirst := by
  rw [List.Nodup, List.pairwise_map, List.pairwise_iff_get]
  exact ⟨fun h v w hw => h w.index v.index hw, fun h i j hij => h ⟨j⟩ ⟨i⟩ hij⟩

/-- A value is converted to a variant iff it is a leaf that is read as it. -/
theorem ofValue_variant_eq_ok_iff {value : Value μ} {p : Path} :
    (ofValue value : ConvertM e.Variant).run.run p = (.ok v, p) ↔
      ∃ node, value = .leaf node ∧ e.ofNode? node = some v := by
  constructor
  · exact leaf_of_converted
  · rintro ⟨node, rfl, hv⟩
    simp only [ofValue, hv]
    rfl

/-- A value is converted to a variant iff it is a leaf that carries the tag of the variant, and no
    variant before it has this tag; if there is no such variant it is a mismatch, in which a leaf is
    told by its text. So what is seen of a variant is converted back to it iff it is the first with
    its tag, and otherwise to that one, which stands before it. This does not happen iff no two
    variants share a tag. -/
theorem variant_conversion_exact (e : LeafEnum) (p : Path) :
    (∀ (value : Value μ) (v : e.Variant),
      (ofValue value : ConvertM e.Variant).run.run p = (.ok v, p) ↔
        ∃ node, value = .leaf node ∧ node.carried? = some v.tag.carried ∧ v.IsFirst) ∧
    (∀ value : Value μ, (¬∃ (v : e.Variant) (node : Tree), value = .leaf node ∧
        node.carried? = some v.tag.carried ∧ v.IsFirst) →
      ∃ got, (ofValue value : ConvertM e.Variant).run.run p =
          (.error (.typeMismatch p e.name got), p) ∧
        (∀ node, value = .leaf node → got = node.compact) ∧
        ((∀ node, value ≠ .leaf node) → got = value.describe)) ∧
    (∀ v : e.Variant, ∃ node, (toView v : View μ) = .leaf node ∧
      ((ofValue (.leaf node : Value μ) : ConvertM e.Variant).run.run p = (.ok v, p) ↔ v.IsFirst) ∧
      ∃ w : e.Variant, w.IsFirst ∧ w.tag.carried = v.tag.carried ∧ w.index ≤ v.index ∧
        (ofValue (.leaf node : Value μ) : ConvertM e.Variant).run.run p = (.ok w, p)) ∧
    ((e.tags.map Tag.carried).Nodup ↔ ∀ v : e.Variant, v.IsFirst) := by
  have hok (value : Value μ) (v : e.Variant) :
      (ofValue value : ConvertM e.Variant).run.run p = (.ok v, p) ↔
        ∃ node, value = .leaf node ∧ node.carried? = some v.tag.carried ∧ v.IsFirst := by
    simp only [ofValue_variant_eq_ok_iff, ofNode?_eq_some_iff_isFirst]
  refine ⟨hok, fun value hno => ?_, fun v => ⟨v.tag.toTree, rfl, ?_, ?_⟩, nodup_iff_isFirst⟩
  · rcases convertsWhole_variant.run_cases value p with ⟨v, hv⟩ | he
    · exact absurd ⟨v, (hok value v).1 hv⟩ hno
    · refine ⟨LeafEnum.describe value, he, fun node hnode => by rw [hnode]; rfl, fun hnone => ?_⟩
      cases value with
      | leaf node => exact absurd rfl (hnone node)
      | _ => rfl
  · rw [hok]
    constructor
    · rintro ⟨_, _, _, hfirst⟩
      exact hfirst
    · exact fun hfirst => ⟨v.tag.toTree, rfl, v.tag.carried?_toTree, hfirst⟩
  · obtain ⟨w, hfirst, hsame, hle, hw⟩ := exists_ofNode?_tag v
    exact ⟨w, hfirst, hsame, hle, ofValue_variant_eq_ok_iff.2 ⟨_, rfl, hw⟩⟩

/-- Of tags that are all there twice, the second one in the middle is converted to a variant before
    it. -/
theorem variant_conversion_exact_repeated :
    let e : LeafEnum := ⟨"Level", Sample.level.tags ++ Sample.level.tags⟩
    let v : e.Variant := ⟨⟨4, by decide⟩⟩
    (ofValue (.leaf v.tag.toTree : Value Sample.Instance) : ConvertM e.Variant).run.run .root ≠
      (.ok v, .root) ∧
    ∃ w : e.Variant, w.index < v.index ∧
      (ofValue (.leaf v.tag.toTree : Value Sample.Instance) : ConvertM e.Variant).run.run .root =
        (.ok w, .root) := by
  intro e v
  obtain ⟨_, _, hback, _⟩ := variant_conversion_exact (μ := Sample.Instance) e .root
  obtain ⟨_, hview, hfirst, w, hw, _, hle, hrun⟩ := hback v
  cases hview
  have hlater : ¬v.IsFirst := fun h => h ⟨⟨1, by decide⟩⟩ (by decide) rfl
  have hne : w ≠ v := fun heq => hlater (heq ▸ hw)
  refine ⟨fun h => hlater (hfirst.1 h), w, lt_of_le_of_ne hle fun heq => hne ?_, hrun⟩
  exact congrArg Variant.mk heq

end LeafEnum

end Missive
