import Missive.Number.Bounded

/-!
# Integer nodes and bounded integers

An integer node is determined by its value (`Number.eq_of_integer?`), and a bounded integer is
read from exactly the nodes of its value (`BoundedInt.ofNumber?_eq_some_iff`), whichever of the
two words it is read as.
-/

namespace Missive

namespace Number

variable {x y : Number}

theorem toInt_of_lt {n : UInt64} (h : n < 0x8000000000000000) : n.toInt64.toInt = n.toNat := by
  have lt : n.toNat < 0x8000000000000000 := h
  exact BitVec.toInt_eq_toNat_of_lt (by change 2 * n.toNat < 2 ^ 64; omega)

theorem toInt_neg {n : Int64} (h : n < 0) : n.toInt < 0 := Int64.lt_iff_toInt_lt.1 h

/-- The signed reading gives the value, if it is that of a signed word. -/
theorem signed?_eq_some_iff {i : Int64} : x.signed? = some i ↔ x.integer? = some i.toInt := by
  cases x with
  | natural n =>
    rw [signed?, Option.ite_none_right_eq_some, integer?, Option.some.injEq, Option.some.injEq]
    constructor
    · rintro ⟨hn, rfl⟩
      exact (toInt_of_lt hn).symm
    · intro hi
      -- The value of a signed word is less than half of what an unsigned one holds.
      have hn : n < 0x8000000000000000 := by
        have : i.toInt < 2 ^ 63 := i.toInt_lt
        exact UInt64.lt_iff_toNat_lt.2 (by change n.toNat < 9223372036854775808; omega)
      exact ⟨hn, Int64.toInt_inj.1 ((toInt_of_lt hn).trans hi)⟩
  | negative n _ => rw [signed?, integer?, Option.some.injEq, Option.some.injEq, Int64.toInt_inj]
  | real => simp [signed?, integer?]

/-- The unsigned reading gives the value, if it is not negative. -/
theorem unsigned?_eq_some_iff {u : UInt64} :
    x.unsigned? = some u ↔ x.integer? = some (u.toNat : Int) := by
  cases x with
  | natural n =>
    rw [unsigned?, integer?, Option.some.injEq, Option.some.injEq, Int.ofNat_inj, UInt64.toNat_inj]
  | negative n hn =>
    have := toInt_neg hn
    rw [unsigned?, integer?, Option.some.injEq]
    constructor
    · intro h; cases h
    · intro h; omega
  | real => simp [unsigned?, integer?]

/-- One of the two readings gives the value, if there is one. -/
theorem signed?_or_unsigned? {i : Int} (h : x.integer? = some i) :
    (∃ n, x.signed? = some n ∧ n.toInt = i) ∨
      (∃ u, x.unsigned? = some u ∧ (u.toNat : Int) = i) := by
  cases x with
  | natural n => cases h; exact .inr ⟨n, rfl, rfl⟩
  | negative n _ => cases h; exact .inl ⟨n, rfl, rfl⟩
  | real => cases h

/-- No integer is held by two nodes. -/
theorem eq_of_integer? {i : Int} (hx : x.integer? = some i) (hy : y.integer? = some i) : x = y := by
  cases x with
  | natural n =>
    cases hx
    cases y with
    | natural m =>
      have hm : (m.toNat : Int) = n.toNat := Option.some.inj hy
      rw [UInt64.toNat_inj.1 (Int.ofNat_inj.1 hm)]
    | negative m hm =>
      -- The signs differ.
      have := toInt_neg hm
      have : m.toInt = n.toNat := Option.some.inj hy
      omega
    | real => cases hy
  | negative n hn =>
    cases hx
    cases y with
    | natural m =>
      have := toInt_neg hn
      have : (m.toNat : Int) = n.toInt := Option.some.inj hy
      omega
    | negative m hm =>
      have hm : m.toInt = n.toInt := Option.some.inj hy
      cases Int64.toInt_inj.1 hm
      rfl
    | real => cases hy
  | real => cases hx

end Number

namespace BoundedInt

variable {k : IntKind}

theorem ofInt?_eq_some_iff {i : Int} {n : BoundedInt k} : ofInt? k i = some n ↔ i = n.val := by
  unfold ofInt?
  split
  · rw [Option.some.injEq]
    exact ⟨fun h => h ▸ rfl, fun h => by cases n; subst h; rfl⟩
  · next h =>
    constructor
    · intro hn; cases hn
    · rintro rfl; exact absurd ⟨n.min_le, n.le_max⟩ h

/-- A node is read as an integer iff that is its value. -/
theorem ofNumber?_eq_some_iff {x : Number} {n : BoundedInt k} :
    ofNumber? k x = some n ↔ x.integer? = some n.val := by
  unfold ofNumber?
  rw [Option.orElse_eq_orElse, Option.orElse_eq_or, Option.or_eq_some_iff, Option.bind_eq_some_iff,
    Option.bind_eq_some_iff, Option.bind_eq_none_iff]
  constructor
  · rintro (⟨i, hi, h⟩ | ⟨_, u, hu, h⟩)
    · rw [Number.signed?_eq_some_iff.1 hi, ofInt?_eq_some_iff.1 h]
    · rw [Number.unsigned?_eq_some_iff.1 hu, ofInt?_eq_some_iff.1 h]
  · intro h
    rcases Number.signed?_or_unsigned? h with ⟨i, hi, hn⟩ | ⟨u, hu, hn⟩
    · exact .inl ⟨i, hi, ofInt?_eq_some_iff.2 hn⟩
    · -- The signed reading, if there is one, has the same value.
      cases hs : x.signed? with
      | none => exact .inr ⟨by rintro _ ⟨⟩, u, hu, ofInt?_eq_some_iff.2 hn⟩
      | some i =>
        rw [Number.signed?_eq_some_iff.1 hs, Option.some.injEq] at h
        exact .inl ⟨i, rfl, ofInt?_eq_some_iff.2 h⟩

/-- Every integer type lies within the words. -/
theorem bounds (k : IntKind) :
    -9223372036854775808 ≤ k.min ∧ k.max ≤ 18446744073709551615 := by
  cases k <;> decide

/-- The node of an integer has its value. -/
theorem integer?_toNumber (n : BoundedInt k) : n.toNumber.integer? = some n.val := by
  have lower := n.min_le
  have upper := n.le_max
  obtain ⟨hmin, hmax⟩ := bounds k
  unfold toNumber Number.ofSigned
  split
  · next h =>
    have hn : (Int64.ofInt n.val).toInt = n.val := Int64.toInt_ofInt_of_le (by omega) (by omega)
    have hneg : Int64.ofInt n.val < 0 := Int64.lt_iff_toInt_lt.2 (by rw [hn]; exact h)
    rw [dif_pos hneg, Number.integer?, hn]
  · have hn : (UInt64.ofNat n.val.toNat).toNat = n.val.toNat :=
      UInt64.toNat_ofNat_of_lt' (by change _ < 18446744073709551616; omega)
    rw [Number.integer?, hn, Int.toNat_of_nonneg (by omega)]

/-- The node of an integer is the only one of its value. -/
theorem integer?_eq_some_iff {x : Number} (n : BoundedInt k) :
    x.integer? = some n.val ↔ x = n.toNumber :=
  ⟨fun h => Number.eq_of_integer? h n.integer?_toNumber, fun h => h ▸ n.integer?_toNumber⟩

/-- An integer is read from its own node. -/
theorem ofNumber?_toNumber (n : BoundedInt k) : ofNumber? k n.toNumber = some n :=
  ofNumber?_eq_some_iff.2 n.integer?_toNumber

/-- An integer is read from its own node only. -/
theorem toNumber_of_ofNumber? {x : Number} {n : BoundedInt k} (h : ofNumber? k x = some n) :
    n.toNumber = x :=
  (n.integer?_eq_some_iff.1 (ofNumber?_eq_some_iff.1 h)).symm

end BoundedInt

end Missive
