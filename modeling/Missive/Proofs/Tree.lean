import Mathlib.Data.List.Nodup
import Missive.Tree

/-!
# Trees: members and nesting

* `Tree.ofMembers_of_nodup`: setting distinct keys one after the other keeps them all, in order.
* `Tree.lookup_of_mem`: under distinct keys, each key leads to its own node.
* `Tree.nesting`: how many containers are nested in a tree, as a natural number. Unlike
  `Tree.levels` it never wraps.
* `Tree.DistinctKeys`: the trees of whose objects none repeats a key.
* `Tree.Exact`: the trees that text holds without loss. They have no float, which text spells
  only approximately, and no object with a repeated key, of which text keeps one.
-/

namespace Missive.Tree

/-! ## Members -/

theorem setMember_of_notMem {key : String} {value : Tree} {members : List (String × Tree)}
    (h : key ∉ members.map (·.1)) :
    setMember key value members = members ++ [(key, value)] := by
  induction members with
  | nil => rfl
  | cons member members ih =>
    obtain ⟨k, v⟩ := member
    rw [List.map_cons, List.mem_cons, not_or] at h
    rw [setMember, if_neg (Ne.symm h.1), ih h.2]
    rfl

/-- Distinct keys are all kept, in their order. -/
theorem ofMembers_of_nodup {members : List (String × Tree)} (h : (members.map (·.1)).Nodup) :
    ofMembers members = .object members := by
  -- The keys set so far are `before`, none of which is set again.
  suffices hs : ∀ after before : List (String × Tree), ((before ++ after).map (·.1)).Nodup →
      after.foldl (fun acc member => setMember member.1 member.2 acc) before = before ++ after by
    rw [ofMembers, hs members [] h]
    rfl
  intro after
  induction after with
  | nil => intro before _; rw [List.append_nil]; rfl
  | cons member after ih =>
    obtain ⟨key, value⟩ := member
    intro before h
    have hkey : key ∉ before.map (·.1) := by
      rw [List.map_append, List.map_cons, List.nodup_append] at h
      exact fun hk => h.2.2 key hk key List.mem_cons_self rfl
    rw [List.append_cons] at h ⊢
    change after.foldl _ (setMember key value before) = _
    rw [setMember_of_notMem hkey, ih _ h]

theorem lookup_of_mem {κ α : Type} [BEq κ] [LawfulBEq κ] {members : List (κ × α)} {key : κ}
    {node : α} (h : (members.map (·.1)).Nodup) (hm : (key, node) ∈ members) :
    members.lookup key = some node := by
  induction members with
  | nil => exact absurd hm List.not_mem_nil
  | cons member members ih =>
    rw [List.map_cons, List.nodup_cons] at h
    rcases List.mem_cons.1 hm with rfl | hm
    · exact List.lookup_cons_self
    · -- A key of the rest is not the first one.
      have hne : key ≠ member.1 := by
        rintro rfl
        exact h.1 (List.mem_map.2 ⟨_, hm, rfl⟩)
      rw [List.lookup_cons, beq_false_of_ne hne]
      exact ih h.2 hm

theorem mem_of_lookup {κ α : Type} [BEq κ] [LawfulBEq κ] {members : List (κ × α)} {key : κ}
    {node : α} (h : members.lookup key = some node) : (key, node) ∈ members := by
  obtain ⟨before, after, rfl, _⟩ := List.lookup_eq_some_iff.1 h
  exact List.mem_append_right _ List.mem_cons_self

/-- Under distinct keys, their order does not matter to what they lead to. -/
theorem lookup_perm {κ α : Type} [BEq κ] [LawfulBEq κ] {members members' : List (κ × α)}
    (hn : (members.map (·.1)).Nodup) (hp : members.Perm members') (key : κ) :
    members.lookup key = members'.lookup key := by
  cases h : members'.lookup key with
  | some node => exact lookup_of_mem hn (hp.symm.subset (mem_of_lookup h))
  | none =>
    rw [List.lookup_eq_none_iff] at h ⊢
    exact fun member hm => h member (hp.subset hm)

/-- Taking a member out leaves what is found under other keys. -/
theorem lookup_eraseP {members : List (String × Tree)} {key name : String} (h : name ≠ key) :
    (members.eraseP (·.1 = key)).lookup name = members.lookup name := by
  induction members with
  | nil => rfl
  | cons member members ih =>
    by_cases hkey : member.1 = key
    · have hne : name ≠ member.1 := fun heq => h (heq.trans hkey)
      rw [List.eraseP_cons_of_pos (by simpa using hkey), List.lookup_cons, beq_false_of_ne hne]
    · rw [List.eraseP_cons_of_neg (by simpa using hkey), List.lookup_cons, List.lookup_cons, ih]

/-- Replacing the node of a member makes a difference only under its own key, and there only if the
    member is the one that is found. -/
theorem lookup_replace {before after : List (String × Tree)} (key : String) (node node' : Tree)
    (name : String) :
    (before ++ (key, node) :: after).lookup name = (before ++ (key, node') :: after).lookup name ∨
      name = key ∧ (before ++ (key, node) :: after).lookup name = some node ∧
        (before ++ (key, node') :: after).lookup name = some node' := by
  simp only [List.lookup_append, List.lookup_cons]
  cases before.lookup name with
  | some _ => exact .inl rfl
  | none =>
    by_cases hname : name = key
    · rw [hname, beq_self_eq_true]
      exact .inr ⟨rfl, rfl, rfl⟩
    · rw [beq_false_of_ne hname]
      exact .inl rfl

/-- Under the same keys in the same order, a key leads in both lists to related nodes, or in neither
    to any. -/
theorem lookup_forall₂ {κ α β : Type} [BEq κ] {r : α → β → Prop} {xs : List (κ × α)}
    {ys : List (κ × β)} (h : List.Forall₂ (fun x y => y.1 = x.1 ∧ r x.2 y.2) xs ys) (key : κ) :
    (xs.lookup key = none ∧ ys.lookup key = none) ∨
    ∃ a b, xs.lookup key = some a ∧ ys.lookup key = some b ∧ r a b := by
  induction h with
  | nil => exact .inl ⟨rfl, rfl⟩
  | cons hx _ ih =>
    rw [List.lookup_cons, List.lookup_cons, hx.1]
    split
    · exact .inr ⟨_, _, rfl, rfl, hx.2⟩
    · exact ih

/-- Keys stay distinct with one more iff it leads nowhere so far. -/
theorem nodup_keys_append_iff {κ α : Type} [BEq κ] [LawfulBEq κ] {members : List (κ × α)} {key : κ}
    {node : α} : ((members ++ [(key, node)]).map (·.1)).Nodup ↔
      (members.map (·.1)).Nodup ∧ members.lookup key = none := by
  have hfresh : key ∉ members.map (·.1) ↔ members.lookup key = none := by
    rw [List.lookup_eq_none_iff, List.mem_map]
    constructor
    · intro h member hm
      exact bne_iff_ne.2 fun heq => h ⟨member, hm, heq.symm⟩
    · rintro h ⟨member, hm, rfl⟩
      simpa using h member hm
  rw [List.map_append, List.map_singleton, List.nodup_append_comm, ← hfresh, and_comm]
  exact List.nodup_cons

/-! ## Induction -/

theorem sizeOf_item_lt {t : Tree} {items : List Tree} (h : t ∈ items) :
    sizeOf t < sizeOf (array items) := by
  have := List.sizeOf_lt_of_mem h
  simp only [array.sizeOf_spec]
  omega

theorem sizeOf_member_lt {member : String × Tree} {members : List (String × Tree)}
    (h : member ∈ members) : sizeOf member.2 < sizeOf (object members) := by
  have := List.sizeOf_lt_of_mem h
  have : sizeOf member.2 < sizeOf member := by cases member; simp +arith
  simp only [object.sizeOf_spec]
  omega

/-- Induction over a tree: a container has a property if what it contains has. -/
@[elab_as_elim]
theorem induction {motive : Tree → Prop} (null : motive .null) (bool : ∀ b, motive (.bool b))
    (number : ∀ n, motive (.number n)) (string : ∀ s, motive (.string s))
    (array : ∀ items, (∀ t ∈ items, motive t) → motive (.array items))
    (object : ∀ members, (∀ member ∈ members, motive member.2) → motive (.object members))
    (t : Tree) : motive t :=
  match t with
  | .null => null
  | .bool b => bool b
  | .number n => number n
  | .string s => string s
  | .array items => array items fun t _ =>
    induction null bool number string array object t
  | .object members => object members fun member _ =>
    induction null bool number string array object member.2
termination_by sizeOf t
decreasing_by
  · exact sizeOf_item_lt ‹_›
  · exact sizeOf_member_lt ‹_›

/-! ## Nesting -/

mutual

/-- The greatest number of containers on a way down from the node. -/
def nesting : Tree → Nat
  | array items => nestingOfItems items + 1
  | object members => nestingOfMembers members + 1
  | _ => 0

/-- The deepest nesting of an item, `0` if there is none. -/
def nestingOfItems : List Tree → Nat
  | [] => 0
  | t :: ts => max t.nesting (nestingOfItems ts)

/-- The deepest nesting of a member, `0` if there is none. -/
def nestingOfMembers : List (String × Tree) → Nat
  | [] => 0
  | (_, t) :: ts => max t.nesting (nestingOfMembers ts)

end

theorem nestingOfItems_le_iff {items : List Tree} {n : Nat} :
    nestingOfItems items ≤ n ↔ ∀ t ∈ items, t.nesting ≤ n := by
  induction items with
  | nil => simp [nestingOfItems]
  | cons t ts ih => rw [nestingOfItems, Nat.max_le, ih, List.forall_mem_cons]

theorem nestingOfMembers_le_iff {members : List (String × Tree)} {n : Nat} :
    nestingOfMembers members ≤ n ↔ ∀ member ∈ members, member.2.nesting ≤ n := by
  induction members with
  | nil => simp [nestingOfMembers]
  | cons member members ih => rw [nestingOfMembers, Nat.max_le, ih, List.forall_mem_cons]

theorem nesting_lt_of_mem {member : String × Tree} {members : List (String × Tree)}
    (h : member ∈ members) : member.2.nesting < (object members).nesting := by
  rw [nesting]
  exact Nat.lt_succ_of_le (nestingOfMembers_le_iff.1 (Nat.le_refl _) member h)

theorem nesting_lt_of_item {t : Tree} {items : List Tree} (h : t ∈ items) :
    t.nesting < (array items).nesting := by
  rw [nesting]
  exact Nat.lt_succ_of_le (nestingOfItems_le_iff.1 (Nat.le_refl _) t h)

/-! ## Distinct keys -/

/-- No object of the tree repeats a key. -/
inductive DistinctKeys : Tree → Prop
  | scalar {t : Tree} : t.nesting = 0 → DistinctKeys t
  | array {items : List Tree} : (∀ t ∈ items, t.DistinctKeys) → DistinctKeys (.array items)
  | object {members : List (String × Tree)} : (members.map (·.1)).Nodup →
      (∀ member ∈ members, member.2.DistinctKeys) → DistinctKeys (.object members)

/-! ## Exactness -/

mutual

/-- No node of the tree is a float, and no object of it repeats a key. -/
def Exact : Tree → Prop
  | number (.real ..) => False
  | array items => ExactItems items
  | object members => (members.map (·.1)).Nodup ∧ ExactMembers members
  | _ => True

/-- Each item is exact. -/
def ExactItems : List Tree → Prop
  | [] => True
  | t :: ts => t.Exact ∧ ExactItems ts

/-- The node of each member is exact. -/
def ExactMembers : List (String × Tree) → Prop
  | [] => True
  | (_, t) :: ts => t.Exact ∧ ExactMembers ts

end

theorem exactItems_iff {items : List Tree} : ExactItems items ↔ ∀ t ∈ items, t.Exact := by
  induction items with
  | nil => simp [ExactItems]
  | cons t ts ih => simp [ExactItems, ih]

theorem exactMembers_iff {members : List (String × Tree)} :
    ExactMembers members ↔ ∀ member ∈ members, member.2.Exact := by
  induction members with
  | nil => simp [ExactMembers]
  | cons member members ih => simp [ExactMembers, ih]

/-- A leaf that text holds without loss: a boolean, an integer or a string. -/
def Scalar : Tree → Prop
  | bool _ | number (.natural _) | number (.negative ..) | string _ => True
  | _ => False

theorem Scalar.isNull {t : Tree} (h : t.Scalar) : t.isNull = false := by
  cases t with
  | null => exact h.elim
  | _ => rfl

theorem Scalar.exact {t : Tree} (h : t.Scalar) : t.Exact ∧ t.nesting = 0 := by
  cases t with
  | number n =>
    cases n with
    | real x hx => exact h.elim
    | _ => exact ⟨trivial, rfl⟩
  | null | array _ | object _ => exact h.elim
  | _ => exact ⟨trivial, rfl⟩

end Missive.Tree
