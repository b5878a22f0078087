import Missive.Proofs.Registrations
import Missive.Proofs.Tree

/-!
# Depth as a number

Depth is counted in machine words. The words agree with the numbers that they stand for as long as
nothing is nested `UInt32.size` deep, and a leaf is allowed exactly where its nesting fits between
the depth and the limit.

* `Tree.toNat_levels`: the levels of a tree are its nesting.
* `Registry.allowsLeaf_iff`: where a leaf may stand.
* `Registry.withMaxDepth`: the registry with another limit and otherwise the same options.
-/

namespace Missive

/-! ## Levels -/

theorem toNat_max (a b : UInt32) : (max a b).toNat = max a.toNat b.toNat := by
  change (if a ≤ b then b else a).toNat = _
  split
  · next h => exact (Nat.max_eq_right (UInt32.le_iff_toNat_le.1 h)).symm
  · next h =>
    rw [UInt32.le_iff_toNat_le] at h
    exact (Nat.max_eq_left (by omega)).symm

theorem toNat_add_one {a : UInt32} (h : a.toNat + 1 < UInt32.size) :
    (a + 1).toNat = a.toNat + 1 := by
  rw [UInt32.toNat_add]
  exact Nat.mod_eq_of_lt h

namespace Tree

theorem toNat_levelsOfItems {items : List Tree}
    (ih : ∀ t ∈ items, t.nesting < UInt32.size → t.levels.toNat = t.nesting)
    (h : nestingOfItems items < UInt32.size) :
    (levelsOfItems items).toNat = nestingOfItems items := by
  induction items with
  | nil => rfl
  | cons t items ihs =>
    rw [List.forall_mem_cons] at ih
    rw [nestingOfItems, Nat.max_lt] at h
    rw [levelsOfItems, nestingOfItems, toNat_max, ih.1 h.1, ihs ih.2 h.2]

theorem toNat_levelsOfMembers {members : List (String × Tree)}
    (ih : ∀ member ∈ members, member.2.nesting < UInt32.size →
      member.2.levels.toNat = member.2.nesting)
    (h : nestingOfMembers members < UInt32.size) :
    (levelsOfMembers members).toNat = nestingOfMembers members := by
  induction members with
  | nil => rfl
  | cons member members ihs =>
    rw [List.forall_mem_cons] at ih
    rw [nestingOfMembers, Nat.max_lt] at h
    rw [levelsOfMembers, nestingOfMembers, toNat_max, ih.1 h.1, ihs ih.2 h.2]

/-- The word that counts the levels of a tree is its nesting, unless that is too great for a
    word. -/
theorem toNat_levels {t : Tree} (h : t.nesting < UInt32.size) : t.levels.toNat = t.nesting := by
  induction t using Tree.induction with
  | array items ih =>
    rw [nesting] at h
    have hitems := toNat_levelsOfItems ih (by omega)
    rw [levels, nesting, toNat_add_one (by omega), hitems]
  | object members ih =>
    rw [nesting] at h
    have hmembers := toNat_levelsOfMembers ih (by omega)
    rw [levels, nesting, toNat_add_one (by omega), hmembers]
  | _ => rfl

/-- However deep a tree is nested, the word does not count more. -/
theorem toNat_levels_le (t : Tree) : t.levels.toNat ≤ t.nesting := by
  by_cases h : t.nesting < UInt32.size
  · exact Nat.le_of_eq (toNat_levels h)
  · have hword : t.levels.toNat < UInt32.size := t.levels.toNat_lt
    omega

end Tree

/-! ## Limits -/

namespace Registry

variable {φ : Type} {R : Registry φ}

/-- Below the limit the depth is counted without wrapping. -/
theorem toNat_next {depth maxDepth : UInt32} (h : depth < maxDepth) :
    (depth + 1).toNat = depth.toNat + 1 := by
  have hlt : depth.toNat < maxDepth.toNat := h
  have hmax : maxDepth.toNat < UInt32.size := maxDepth.toNat_lt
  exact toNat_add_one (by omega)

theorem toNat_next_le {depth maxDepth : UInt32} (h : depth < maxDepth) :
    (depth + 1).toNat ≤ maxDepth.toNat := by
  rw [toNat_next h]
  exact h

theorem toNat_addSaturating (a b : UInt32) :
    (addSaturating a b).toNat = min (a.toNat + b.toNat) (UInt32.size - 1) := by
  have ha : a.toNat < 4294967296 := a.toNat_lt
  have hb : b.toNat < 4294967296 := b.toNat_lt
  have hsum : (a + b).toNat = (a.toNat + b.toNat) % 4294967296 := UInt32.toNat_add a b
  unfold addSaturating
  split
  · next h =>
    -- The sum has wrapped, for it would not be less than `a` otherwise.
    rw [UInt32.lt_iff_toNat_lt] at h
    change 4294967295 = min _ 4294967295
    omega
  · next h =>
    rw [UInt32.lt_iff_toNat_lt] at h
    change _ = min _ 4294967295
    omega

/-- A leaf may stand where its nesting fits between the depth and the limit. -/
theorem allowsLeaf_iff {t : Tree} {depth : UInt32} (ht : t.nesting < UInt32.size)
    (hd : depth.toNat ≤ R.options.maxDepth.toNat) :
    R.allowsLeaf t depth = true ↔ depth.toNat + t.nesting ≤ R.options.maxDepth.toNat := by
  have hlevels := Tree.toNat_levels ht
  have hmax : R.options.maxDepth.toNat < UInt32.size := R.options.maxDepth.toNat_lt
  rw [allowsLeaf, Bool.or_eq_true, decide_eq_true_eq, decide_eq_true_eq, ← UInt32.toNat_inj,
    hlevels, UInt32.lt_iff_toNat_lt, toNat_addSaturating]
  by_cases hzero : t.nesting = 0
  · exact iff_of_true (.inl hzero) (by omega)
  · have hone : (1 : UInt32) ≤ t.levels := by
      rw [UInt32.le_iff_toNat_le, hlevels]
      exact Nat.one_le_iff_ne_zero.2 hzero
    rw [UInt32.toNat_sub_of_le _ _ hone, hlevels]
    change t.nesting = 0 ∨ min (depth.toNat + (t.nesting - 1)) (UInt32.size - 1) < _ ↔ _
    omega

/-- A leaf that may not stand at a depth is nested beyond the limit there, even where its levels are
    too many to be counted. -/
theorem lt_of_allowsLeaf_eq_false {t : Tree} {depth : UInt32} (h : R.allowsLeaf t depth = false) :
    R.options.maxDepth.toNat < depth.toNat + t.nesting := by
  have hlevels := t.toNat_levels_le
  have hmax : R.options.maxDepth.toNat < UInt32.size := R.options.maxDepth.toNat_lt
  rw [allowsLeaf, Bool.or_eq_false_iff, decide_eq_false_iff_not, decide_eq_false_iff_not,
    UInt32.lt_iff_toNat_lt, toNat_addSaturating] at h
  have hone : (1 : UInt32) ≤ t.levels := by
    rw [UInt32.le_iff_toNat_le]
    exact Nat.one_le_iff_ne_zero.2 fun hzero => h.1 (UInt32.toNat_inj.1 hzero)
  have hsub : (t.levels - 1).toNat = t.levels.toNat - 1 := UInt32.toNat_sub_of_le _ _ hone
  rw [UInt32.le_iff_toNat_le] at hone
  change 1 ≤ t.levels.toNat at hone
  omega

/-- The registry with another limit, and otherwise the same options. -/
def withMaxDepth (R : Registry φ) (maxDepth : UInt32) : Registry φ :=
  { R with options := { R.options with maxDepth } }

end Registry

end Missive
