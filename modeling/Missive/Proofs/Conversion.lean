import Missive.Proofs.Failure
import Missive.Proofs.FieldType
import Missive.Proofs.Position

/-!
# Failed conversions

A decoded value that is converted to a field type either gives a field, the path of the conversion
being again what it was, or it fails by a mismatch. Then the mismatch tells of a node of the tree
that the value was decoded from: its path leads there, and its text is that of the node.

* `ConvertM.Ends`: how one conversion may end; `ConvertM.Tells`: what is asked of it.
* `ConvertsWhole`: the field types whose conversions do not go further down.
* `Registry.Candid`: what is decoded under a descriptor is converted in this way. Leaves, messages
  and enumerations are, and so are options and lists of them.
-/

namespace Missive

open Outcome

/-- How a mismatch tells of a node: by its text where a variant of one of the enumerations is
    expected, and by its kind otherwise. -/
def Tree.told (enums : List String) (expected : String) (node : Tree) : String :=
  if expected ∈ enums then node.compact else node.kind

theorem Tree.told_null {enums : List String} {expected : String} :
    Tree.null.told enums expected = "null" := by
  unfold told
  split <;> rfl

/-! ## One conversion -/

namespace ConvertM

variable {α β : Type} {P P' : Path → Error → Path → Prop}

/-- From any path the conversion comes back to that path, or it fails, and then the predicate holds
    of the path, of the error and of the path where the conversion has ended. -/
def Ends (P : Path → Error → Path → Prop) (c : ConvertM α) : Prop :=
  ∀ p, (∃ a, c.run.run p = (.ok a, p)) ∨ ∃ e q, P p e q ∧ c.run.run p = (.error e, q)

theorem Ends.pure {a : α} : Ends P (pure a) := fun _ => .inl ⟨a, rfl⟩

theorem Ends.mismatch {expected got : String} (h : ∀ p, P p (.typeMismatch p expected got) p) :
    Ends P (mismatch expected got : ConvertM α) :=
  fun p => .inr ⟨_, p, h p, rfl⟩

/-- Two conversions in a row end in a way in which each of them does. -/
theorem Ends.bind {c : ConvertM α} {f : α → ConvertM β} (h : c.Ends P) (hf : ∀ a, (f a).Ends P) :
    (c >>= f).Ends P := by
  intro p
  rcases h p with ⟨a, ha⟩ | ⟨e, q, hP, he⟩
  · rw [run_bind_of_ok ha]
    exact hf a p
  · exact .inr ⟨e, q, hP, run_bind_of_error he⟩

theorem Ends.mapM {f : α → ConvertM β} {as : List α} (h : ∀ a ∈ as, (f a).Ends P) :
    (as.mapM f).Ends P := by
  induction as with
  | nil => exact .pure
  | cons a as ih =>
    rw [List.forall_mem_cons] at h
    rw [List.mapM_cons]
    exact h.1.bind fun _ => (ih h.2).bind fun _ => .pure

/-- An element that fails leaves the step into it behind. -/
theorem Ends.element {c : ConvertM α} {n : Nat} (h : c.Ends P)
    (hP : ∀ {p e q}, P (p.index n) e q → P' p e q) : (element n c).Ends P' := by
  intro p
  rcases h (p.index n) with ⟨a, ha⟩ | ⟨e, q, hPe, he⟩
  · exact .inl ⟨a, element_of_ok ha⟩
  · exact .inr ⟨e, q, hP hPe, element_of_error he⟩

variable {enums : List String} {t : Tree}

/-- From any path the conversion comes back to that path, or it fails by a mismatch that tells of
    a node of the tree. -/
def Tells (enums : List String) (t : Tree) (c : ConvertM α) : Prop :=
  ∀ p, (∃ a, c.run.run p = (.ok a, p)) ∨
    ∃ steps expected node q, t.at? steps = some node ∧ c.run.run p =
      (.error (.typeMismatch ⟨p.steps ++ steps⟩ expected (node.told enums expected)), q)

/-- Telling of a tree is a way to end, so the rules above are rules for it. -/
theorem tells_iff {c : ConvertM α} : c.Tells enums t ↔ c.Ends fun p e _ =>
    ∃ steps expected node, t.at? steps = some node ∧
      e = .typeMismatch ⟨p.steps ++ steps⟩ expected (node.told enums expected) := by
  constructor
  · intro h p
    rcases h p with ha | ⟨steps, expected, node, q, hn, he⟩
    · exact .inl ha
    · exact .inr ⟨_, q, ⟨steps, expected, node, hn, rfl⟩, he⟩
  · intro h p
    rcases h p with ha | ⟨_, q, ⟨steps, expected, node, hn, rfl⟩, he⟩
    · exact .inl ha
    · exact .inr ⟨steps, expected, node, q, hn, he⟩

theorem Tells.pure {a : α} : Tells enums t (pure a) := tells_iff.2 .pure

theorem Tells.mismatch {expected got : String} (h : got = t.told enums expected) :
    Tells enums t (mismatch expected got : ConvertM α) := by
  refine tells_iff.2 (.mismatch fun p => ⟨[], expected, t, rfl, ?_⟩)
  rw [List.append_nil, ← h]

theorem Tells.bind {c : ConvertM α} {f : α → ConvertM β} (h : c.Tells enums t)
    (hf : ∀ a, (f a).Tells enums t) : (c >>= f).Tells enums t :=
  tells_iff.2 ((tells_iff.1 h).bind fun a => tells_iff.1 (hf a))

theorem Tells.mapM {f : α → ConvertM β} {as : List α} (h : ∀ a ∈ as, (f a).Tells enums t) :
    (as.mapM f).Tells enums t :=
  tells_iff.2 (.mapM fun a ha => tells_iff.1 (h a ha))

/-- What an element tells of is a node of the array that it is in. -/
theorem Tells.element {c : ConvertM α} {items : List Tree} {n : Nat} {node : Tree}
    (hn : items[n]? = some node) (h : c.Tells enums node) :
    (element n c).Tells enums (.array items) := by
  refine tells_iff.2 ((tells_iff.1 h).element ?_)
  rintro p _ q ⟨steps, expected, node', hat, rfl⟩
  have hchild : (Tree.array items).child? (.index n) = some node := hn
  refine ⟨.index n :: steps, expected, node', (Tree.at?_cons hchild).trans hat, ?_⟩
  rw [List.append_cons]
  rfl

end ConvertM

/-! ## Values as a whole -/

variable {μ : Type} [Message μ]

/-- A value as a whole gives a field, or is described as a mismatch with what is expected. -/
def ConvertsWhole (μ α : Type) [OfValue μ α] (expected : String) (got : Value μ → String) : Prop :=
  ∀ v : Value μ, (∃ a : α, ofValue v = (pure a : ConvertM α)) ∨
    (ofValue v : ConvertM α) = .mismatch expected (got v)

theorem convertsWhole_int {k : IntKind} :
    ConvertsWhole μ (BoundedInt k) k.name Value.describe := by
  intro v
  simp only [ofValue]
  split
  · split
    · exact .inl ⟨_, rfl⟩
    · exact .inr rfl
  · exact .inr rfl

theorem convertsWhole_float : ConvertsWhole μ Float "f64" Value.describe := by
  intro v
  simp only [ofValue]
  split
  · exact .inl ⟨_, rfl⟩
  · exact .inr rfl

theorem convertsWhole_single : ConvertsWhole μ Float32 "f32" fun
    | .leaf (.number n) => "number " ++ n.text ++ " out of f32 range"
    | v => v.describe := by
  rintro (_ | (_ | _ | n | _ | _ | _) | _ | _)
  case leaf.number =>
    simp only [ofValue]
    split
    · exact .inl ⟨_, rfl⟩
    · exact .inr rfl
  all_goals exact .inr rfl

theorem convertsWhole_bool : ConvertsWhole μ Bool "bool" Value.describe := by
  intro v
  simp only [ofValue]
  split
  · exact .inl ⟨_, rfl⟩
  · exact .inr rfl

theorem convertsWhole_string : ConvertsWhole μ String "string" Value.describe := by
  intro v
  simp only [ofValue]
  split
  · exact .inl ⟨_, rfl⟩
  · exact .inr rfl

theorem convertsWhole_tree : ConvertsWhole μ Tree "primitive" Value.describe := by
  intro v
  simp only [ofValue]
  split
  · exact .inl ⟨_, rfl⟩
  · exact .inl ⟨_, rfl⟩
  · exact .inr rfl

theorem convertsWhole_variant {e : LeafEnum} :
    ConvertsWhole μ e.Variant e.name LeafEnum.describe := by
  intro v
  simp only [ofValue]
  split
  · exact .inl ⟨_, rfl⟩
  · exact .inr rfl

theorem convertsWhole_message {α : Type} [MessageClass μ α] :
    ConvertsWhole μ α (MessageClass.handle μ α).name Value.describe := by
  intro v
  simp only [ofValue]
  split
  · split
    · exact .inl ⟨_, rfl⟩
    · exact .inr rfl
  · exact .inr rfl

theorem convertsWhole_anyMessage : ConvertsWhole μ μ "message" Value.describe := by
  intro v
  simp only [ofValue]
  split
  · exact .inl ⟨_, rfl⟩
  · exact .inr rfl

section Whole

variable {α : Type} [OfValue μ α] {expected : String} {got : Value μ → String}

omit [Message μ] in
/-- Either way the path stays what it was. -/
theorem ConvertsWhole.run_cases (h : ConvertsWhole μ α expected got) (v : Value μ) (p : Path) :
    (∃ a, (ofValue v : ConvertM α).run.run p = (.ok a, p)) ∨
      (ofValue v : ConvertM α).run.run p = (.error (.typeMismatch p expected (got v)), p) := by
  rcases h v with ⟨a, ha⟩ | hm
  · rw [ha]
    exact .inl ⟨a, rfl⟩
  · rw [hm]
    exact .inr rfl

omit [Message μ] in
/-- A value that does not give a field is refused where it stands. -/
theorem ConvertsWhole.ends (h : ConvertsWhole μ α expected got) {P : Path → Error → Path → Prop}
    {v : Value μ} (hv : ∀ p, P p (.typeMismatch p expected (got v)) p) :
    (ofValue v : ConvertM α).Ends P := by
  intro p
  rcases h.run_cases v p with ha | he
  · exact .inl ha
  · exact .inr ⟨_, p, hv p, he⟩

omit [Message μ] in
/-- A value that does not give a field tells of the tree if its description is what the tree is
    told by. -/
theorem ConvertsWhole.tells (h : ConvertsWhole μ α expected got) {enums : List String} {t : Tree}
    {v : Value μ} (hv : got v = t.told enums expected) :
    (ofValue v : ConvertM α).Tells enums t := by
  refine ConvertM.tells_iff.2 (h.ends fun p => ⟨[], expected, t, rfl, ?_⟩)
  rw [List.append_nil, ← hv]

end Whole

/-! ## Decoded values -/

namespace Registry

variable {R : Registry (Factory (Except Error) μ)} {enums : List String} {α : Type}

/-- What is decoded under the descriptor is converted to a field, or fails by a mismatch that tells
    of a node of the tree that it was decoded from. -/
def Candid (R : Registry (Factory (Except Error) μ)) (enums : List String) (d : Descriptor)
    (α : Type) [OfValue μ α] : Prop :=
  ∀ ⦃path depth t v⦄, R.decodeAt path depth t d = .ok v → (ofValue v : ConvertM α).Tells enums t

omit [Message μ] in
/-- It is enough to look at a null and at what other trees are decoded to. -/
theorem candid_of_not_null [OfValue μ α] {d : Descriptor}
    (hnull : (ofValue (.null : Value μ) : ConvertM α).Tells enums .null)
    (h : ∀ {path depth t v}, t.isNull = false → R.decodeAt path depth t d = .ok v →
      (ofValue v : ConvertM α).Tells enums t) : R.Candid enums d α := by
  intro path depth t v hv
  cases ht : t.isNull with
  | true =>
    cases isNull_iff.1 ht
    rw [decodeAt_null] at hv
    cases hv
    exact hnull
  | false => exact h ht hv

omit [Message μ] in
theorem candid_primitive [OfValue μ α] {expected : String} {got : Value μ → String}
    (h : ConvertsWhole μ α expected got) (hnull : got .null = "null")
    (hleaf : ∀ t, got (.leaf t) = t.told enums expected) : R.Candid enums .primitive α := by
  refine candid_of_not_null (h.tells (hnull.trans Tree.told_null.symm)) ?_
  intro path depth t v ht hv
  obtain ⟨_, rfl⟩ := decodeAt_primitive_eq_ok ht hv
  exact h.tells (hleaf t)

theorem candid_leaf [OfValue μ α] {expected : String}
    (h : ConvertsWhole μ α expected Value.describe) (he : expected ∉ enums) :
    R.Candid enums .primitive α := by
  refine candid_primitive h rfl fun t => ?_
  rw [Tree.told, if_neg he]
  rfl

theorem candid_variant {e : LeafEnum} (he : e.name ∈ enums) :
    R.Candid enums .primitive e.Variant := by
  refine candid_primitive convertsWhole_variant rfl fun t => ?_
  rw [Tree.told, if_pos he]
  rfl

/-- Only a null is no message of the type, if this is what the factory builds. -/
theorem candid_message [OfValue μ α] {expected : String} {target : TypeRef}
    (h : ConvertsWhole μ α expected Value.describe)
    (hm : ∀ entry fields m, R.follow target = .ok entry → entry.factory fields = .ok m →
      ∃ a : α, ofValue (.message m) = (pure a : ConvertM α)) :
    R.Candid enums (.message target) α := by
  refine candid_of_not_null (h.tells Tree.told_null.symm) ?_
  intro path depth t v ht hv
  obtain ⟨_, _, type, entry, _, m, rfl, rfl, hr, he, _, _, hbuilt⟩ := decodeAt_message_eq_ok ht hv
  obtain ⟨a, ha⟩ := hm entry _ m (follow_eq_ok_iff.2 ⟨type, hr, he⟩) hbuilt
  rw [ha]
  exact .pure

omit [Message μ] in
/-- An option is converted as what it may hold, or from a null. -/
theorem Candid.option [OfValue μ α] {d : Descriptor} (h : R.Candid enums d α) :
    R.Candid enums d (Option α) := by
  intro path depth t v hv
  by_cases hn : v = .null
  · subst hn
    exact .pure
  · rw [ofValue_option hn, map_eq_pure_bind]
    exact (h hv).bind fun _ => .pure

/-- A list tells of the item that is not converted, one step further down. -/
theorem Candid.list [OfValue μ α] {element : Descriptor} (h : R.Candid enums element α) :
    R.Candid enums (.array element) (List α) := by
  refine candid_of_not_null (.mismatch Tree.told_null.symm) ?_
  intro path depth t v ht hv
  obtain ⟨_, items, values, rfl, rfl, hitems⟩ := decodeAt_array_eq_ok ht hv
  refine .mapM ?_
  rintro ⟨v, i⟩ hmem
  -- The value of a number was decoded from the item of the same number.
  obtain ⟨⟨node, j⟩, hx, hnode⟩ := exists_getElem?_left hitems (List.mem_zipIdx_iff_getElem?.1 hmem)
  rw [List.getElem?_zipIdx, Option.map_eq_some_iff] at hx
  obtain ⟨node', hi, heq⟩ := hx
  cases heq
  exact .element hi (h hnode)

end Registry

end Missive
