import Mathlib
import Missive.Proofs.Lockstep
import Missive.Proofs.Validation
import Missive.Registry.Listing

/-!
# Rearranged registries

A registry finds types and names by their keys, and no key is there twice. So the order in which it
holds them does not matter: two registries that hold the same in different orders find the same,
and whatever is made of it is the same as well.

* `Registry.Rearranges`: one registry holds what the other holds, in any order.
* `Rearranges.entry`, `Rearranges.lookupByName`: looking up.
* `Rearranges.namesOf`, `Rearranges.describe`: the listing, which has an order of its own. Two types
  that share their name and have none bound to them would stand in the order of the registry; so the
  listing is the same if distinct types have distinct names.
* `Rearranges.validate`: validation, up to which of the dangling references it names.
* `Rearranges.encodeAt`, `Rearranges.decodeAt`: encoding and decoding.
-/

namespace Missive

/-! ## Sorting -/

/-- The order of types in a listing is that of their keys: the first name, if there is one, and then
    the name of the type. -/
def TypeSummary.key (s : TypeSummary) : WithBot String ×ₗ String :=
  toLex (s.names.head?, s.typeName)

/-- The order of a listing is that of the keys. -/
theorem TypeSummary.le_iff (a b : TypeSummary) : a.le b = true ↔ a.key ≤ b.key := by
  rw [le, key, key, Prod.Lex.toLex_le_toLex]
  rcases a.names.head? with _ | x <;> rcases b.names.head? with _ | y
  · change _ ↔ (⊥ : WithBot String) < ⊥ ∨ (⊥ : WithBot String) = ⊥ ∧ _
    simp
  · exact iff_of_true rfl (.inl (WithBot.bot_lt_coe y))
  · change _ ↔ (x : WithBot String) < ⊥ ∨ (x : WithBot String) = ⊥ ∧ _
    simp
  · change (if x = y then _ else _) = true ↔ (x : WithBot String) < y ∨ (x : WithBot String) = y ∧ _
    rw [WithBot.coe_lt_coe, WithBot.coe_inj]
    split
    · next h => simp [h]
    · next h => simp [h, le_iff_lt_or_eq]

section Keys

variable {α β : Type} [LinearOrder β] (key : α → β) {le : α → α → Bool}

/-- Sorting by keys puts them in order. -/
theorem pairwise_mergeSort_le (hle : ∀ a b, le a b = true ↔ key a ≤ key b) (l : List α) :
    (l.mergeSort le).Pairwise fun a b => key a ≤ key b := by
  have htrans : ∀ a b c, le a b = true → le b c = true → le a c = true := by
    simp only [hle]
    exact fun a b c => le_trans
  have htotal : ∀ a b, (le a b || le b a) = true := by
    simp only [Bool.or_eq_true, hle]
    exact fun a b => le_total (key a) (key b)
  simpa only [hle] using List.pairwise_mergeSort htrans htotal l

/-- Sorting by keys that are distinct leaves nothing of the order that the list had before. -/
theorem mergeSort_perm_eq (hle : ∀ a b, le a b = true ↔ key a ≤ key b) {l l' : List α}
    (hkey : ∀ a ∈ l, ∀ b ∈ l, key a = key b → a = b) (hp : l'.Perm l) :
    l'.mergeSort le = l.mergeSort le := by
  refine List.Perm.eq_of_pairwise ?_ (pairwise_mergeSort_le key hle l')
    (pairwise_mergeSort_le key hle l)
    ((List.mergeSort_perm l' le).trans (hp.trans (List.mergeSort_perm l le).symm))
  intro a b ha hb hab hba
  rw [List.mem_mergeSort] at ha hb
  exact hkey a (hp.subset ha) b hb (le_antisymm hab hba)

end Keys

namespace Registry

open Outcome

variable {φ : Type} {R R' : Registry φ}

/-- The second registry holds the types of the first one, with their tables and their factories, its
    names and its options, be it in another order. -/
structure Rearranges (R R' : Registry φ) : Prop where
  types : R'.types.Perm R.types
  names : R'.names.Perm R.names
  options : R'.options = R.options

namespace Rearranges

/-! ## Looking up -/

theorem entry (h : R.Rearranges R') (hR : R.DistinctTypes) (type : MessageType) :
    R'.entry type = R.entry type := by
  simp only [Registry.entry, Tree.lookup_perm hR h.types.symm type]

theorem lookupByName (h : R.Rearranges R') (hR : R.DistinctNames) (name : String) :
    R'.lookupByName name = R.lookupByName name := by
  simp only [Registry.lookupByName, Tree.lookup_perm hR h.names.symm name]

theorem lookupFields (h : R.Rearranges R') (hR : R.DistinctTypes) (type : MessageType) :
    R'.lookupFields type = R.lookupFields type := by
  rw [Registry.lookupFields, h.entry hR, Registry.lookupFields]

theorem resolve (h : R.Rearranges R') (hR : R.DistinctNames) (target : TypeRef) :
    R'.resolve target = R.resolve target := by
  cases target with
  | named name => exact h.lookupByName hR name
  | handle type => rfl

theorem follow (h : R.Rearranges R') (hR : R.Reachable) (target : TypeRef) :
    R'.follow target = R.follow target := by
  simp only [Registry.follow, h.resolve hR.distinctNames, h.entry hR.distinctTypes]

theorem size (h : R.Rearranges R') : R'.size = R.size := h.types.length_eq

/-! ## Listing -/

theorem namesOf (h : R.Rearranges R') (type : MessageType) : R'.namesOf type = R.namesOf type :=
  mergeSort_perm_eq id (by simp) (fun _ _ _ _ => id) ((h.names.filter _).map _)

end Rearranges

/-- Distinct types of the registry have distinct names. -/
def DistinctTypeNames (R : Registry φ) : Prop :=
  ∀ x ∈ R.types, ∀ y ∈ R.types, x.1.name = y.1.name → x.1 = y.1

instance (R : Registry φ) : Decidable R.DistinctTypeNames :=
  inferInstanceAs (Decidable (∀ x ∈ R.types, ∀ y ∈ R.types, x.1.name = y.1.name → x.1 = y.1))

namespace Rearranges

/-- The listing is the same, as it is sorted and no two types in it have the same key. -/
theorem describe (h : R.Rearranges R') (hR : R.DistinctTypes) (ht : R.DistinctTypeNames) :
    R'.describe = R.describe := by
  have hsummary : R'.summary = R.summary := by
    funext type entry
    simp only [summary, h.namesOf]
  simp only [Registry.describe, hsummary, Listing.mk.injEq]
  refine mergeSort_perm_eq TypeSummary.key TypeSummary.le_iff ?_ (h.types.map _)
  simp only [List.mem_map]
  rintro _ ⟨x, hx, rfl⟩ _ ⟨y, hy, rfl⟩ hkey
  have hname : x.1.name = y.1.name := congrArg (fun key => (ofLex key).2) hkey
  rw [List.inj_on_of_nodup_map hR hx hy (ht x hx y hy hname)]

/-! ## Validation -/

/-- What the first registry is asked in validation is asked of the second one, and the other way
    round. -/
theorem closed (h : R.Rearranges R') (hR : R.Reachable) : R'.Closed ↔ R.Closed := by
  have hentry : R'.entry = R.entry := funext (h.entry hR.distinctTypes)
  have hfollow : R'.follow = R.follow := funext (h.follow hR)
  constructor
  · intro hc
    exact ⟨fun x hx => hfollow ▸ hc.tables x (h.types.symm.subset hx),
      fun x hx => hentry ▸ hc.names x (h.names.symm.subset hx)⟩
  · intro hc
    exact ⟨fun x hx => hfollow ▸ hc.tables x (h.types.subset hx),
      fun x hx => hentry ▸ hc.names x (h.names.subset hx)⟩

theorem dangles (h : R.Rearranges R') (hR : R.Reachable) {e : Error} (he : R'.Dangles e) :
    R.Dangles e := by
  rcases he with ⟨hx, hs, ht, he⟩ | ⟨hx, he⟩
  · exact .table (h.types.subset hx) hs ht (h.follow hR _ ▸ he)
  · exact .name (h.names.subset hx) (h.entry hR.distinctTypes _ ▸ he)

/-- If validation fails, it fails in the second registry too, and each of the two names a reference
    that dangles. -/
theorem validate (h : R.Rearranges R') (hR : R.Reachable) {e : Error} (he : R.validate = .error e) :
    R.Dangles e ∧ ∃ e', R'.validate = .error e' ∧ R.Dangles e' := by
  refine ⟨dangles_of_validate he, ?_⟩
  cases he' : R'.validate with
  | ok _ =>
    have hc := (h.closed hR).1 (validate_eq_ok_iff.1 he')
    cases he.symm.trans (validate_eq_ok_iff.2 hc)
  | error e' => exact ⟨e', rfl, h.dangles hR (dangles_of_validate he')⟩

/-! ## Encoding and decoding -/

theorem encodeAt {μ : Type} [Message μ] (h : R.Rearranges R') (hR : R.DistinctTypes) (path : Path)
    (depth : UInt32) (view : View μ) (d : Descriptor) :
    R'.encodeAt path depth view d = R.encodeAt path depth view d := by
  -- The tables are found alike, without exception.
  have hagrees : AgreesUnless (fun _ => False) (R.encodeAt path depth view d)
      (R'.encodeAt path depth view d) :=
    encodeAt_agrees (by rw [h.options]) (fun type => .inl (h.lookupFields hR type)) _ _ _ _
  rcases hagrees with heq | ⟨_, _, hf⟩
  · exact heq
  · exact hf.elim

theorem decodeAt {m : Type → Type} [Monad m] [MonadExceptOf Error m] {μ : Type}
    {R R' : Registry (Factory m μ)} (h : R.Rearranges R') (hR : R.Reachable) (path : Path)
    (depth : UInt32) (t : Tree) (d : Descriptor) :
    R'.decodeAt path depth t d = R.decodeAt path depth t d :=
  decodeAt_congr h.options (h.resolve hR.distinctNames) (h.entry hR.distinctTypes) path depth t d

end Rearranges

end Registry

end Missive
