import Mathlib
import Missive.Proofs.RegistrationOrder
import Missive.Proofs.Text.ByteOrder

/-!
# What listings say

A registry is listed from what it holds, and this it may give out in any order. Sorting takes that
order away, but only where no two things compare equal: names do not, for none is bound twice, and
types do not if no two of them share their own name, since a first name cannot be shared.

* `Registry.mem_namesOf_iff`, `Registry.namesOf_sorted`: the names of a type.
* `Registry.Summarizes`: what a listing has to say of a type.
* `Registry.describe_summarizes`: it says this once of each registered type, and of no other.
* `Registry.describe_sorted`: in which order it does.
-/

namespace Missive

open List (Forall₂)

/-- The list that is sorted by distinct keys increases strictly. -/
theorem pairwise_mergeSort_lt {α β : Type} [LinearOrder β] (key : α → β) {le : α → α → Bool}
    (hle : ∀ a b, le a b = true ↔ key a ≤ key b) {l : List α} (hn : (l.map key).Nodup) :
    (l.mergeSort le).Pairwise fun a b => key a < key b := by
  have hdistinct : ((l.mergeSort le).map key).Nodup :=
    ((List.mergeSort_perm l le).map key).nodup_iff.2 hn
  have hne : (l.mergeSort le).Pairwise fun a b => key a ≠ key b := List.pairwise_map.1 hdistinct
  exact ((pairwise_mergeSort_le key hle l).and hne).imp fun h => lt_of_le_of_ne h.1 h.2

/-- The place of a type in a listing, by bytes: those of its first name, where a type without one
    comes before all others, and then those of its own name. -/
def TypeSummary.byteKey (s : TypeSummary) : WithBot (List Nat) ×ₗ List Nat :=
  toLex (s.names.head?.map utf8Bytes, utf8Bytes s.typeName)

theorem TypeSummary.byteKey_lt_iff {a b : TypeSummary} : a.byteKey < b.byteKey ↔ a.key < b.key := by
  have hbytes := utf8Bytes_strictMono
  have hfirst : StrictMono (WithBot.map utf8Bytes) := hbytes.withBot_map
  change toLex (WithBot.map utf8Bytes a.names.head?, _) <
    toLex (WithBot.map utf8Bytes b.names.head?, _) ↔ _
  rw [key, key, Prod.Lex.toLex_lt_toLex, Prod.Lex.toLex_lt_toLex]
  exact or_congr hfirst.lt_iff_lt (and_congr hfirst.injective.eq_iff hbytes.lt_iff_lt)

namespace Registry

variable {φ : Type} {R R' : Registry φ}

/-! ## Names -/

/-- The names of a type are those that are bound to it. -/
theorem mem_namesOf_iff (hR : R.DistinctNames) {name : String} {type : MessageType} :
    name ∈ R.namesOf type ↔ R.lookupByName name = .ok type := by
  rw [lookupByName_eq_ok_iff, namesOf, List.mem_mergeSort]
  simp only [List.mem_map, List.mem_filter, decide_eq_true_eq]
  constructor
  · rintro ⟨⟨_, _⟩, ⟨hmem, rfl⟩, rfl⟩
    exact Tree.lookup_of_mem hR hmem
  · intro h
    exact ⟨(name, type), ⟨Tree.mem_of_lookup h, rfl⟩, rfl⟩

/-- The names of a type increase strictly. -/
theorem namesOf_sorted (hR : R.DistinctNames) (type : MessageType) :
    (R.namesOf type).Pairwise (· < ·) := by
  refine pairwise_mergeSort_lt id (by simp) ?_
  rw [List.map_id]
  exact hR.sublist (List.filter_sublist.map _)

/-! ## Types -/

/-- What a listing has to say of a type: the names that are bound to it, its own name, and its field
    table. -/
structure Summarizes (R : Registry φ) (type : MessageType) (s : TypeSummary) : Prop where
  names : s.names = R.namesOf type
  typeName : s.typeName = type.name
  fields : R.lookupFields type = .ok s.fields

theorem contains_iff (hR : R.DistinctTypes) {type : MessageType} :
    R.contains type = true ↔ type ∈ R.types.map (·.1) := by
  rw [contains, Option.isSome_iff_exists, List.mem_map]
  constructor
  · rintro ⟨entry, h⟩
    exact ⟨(type, entry), Tree.mem_of_lookup h, rfl⟩
  · rintro ⟨⟨_, entry⟩, hmem, rfl⟩
    exact ⟨entry, Tree.lookup_of_mem hR hmem⟩

/-- The listing has a summary of each registered type, and no other one. -/
theorem describe_summarizes (hR : R.DistinctTypes) :
    ∃ types : List MessageType, types.Nodup ∧ (∀ type, type ∈ types ↔ R.contains type = true) ∧
      Forall₂ R.Summarizes types R.describe.types := by
  have hsummary : Forall₂ R.Summarizes (R.types.map (·.1))
      (R.types.map fun x => R.summary x.1 x.2) := by
    rw [List.forall₂_map_left_iff, List.forall₂_map_right_iff, List.forall₂_same]
    exact fun x hx => ⟨rfl, rfl, lookupFields_of_entry (hR.entry hx)⟩
  -- As the summaries are sorted, the types are rearranged with them.
  have hsorted : Relation.Comp (Forall₂ R.Summarizes) List.Perm (R.types.map (·.1))
      R.describe.types := ⟨_, hsummary, (List.mergeSort_perm _ _).symm⟩
  rw [List.forall₂_comp_perm_eq_perm_comp_forall₂] at hsorted
  obtain ⟨types, hperm, htypes⟩ := hsorted
  refine ⟨types, hperm.nodup_iff.1 hR, fun type => ?_, htypes⟩
  rw [contains_iff hR, hperm.mem_iff]

/-- The summaries increase strictly, by first names and then by the names of the types. -/
theorem describe_sorted (hR : R.DistinctTypes) (ht : R.DistinctTypeNames) :
    R.describe.types.Pairwise fun a b => a.key < b.key := by
  refine pairwise_mergeSort_lt TypeSummary.key TypeSummary.le_iff ?_
  have hnames : ((R.types.map (·.1)).map (·.name)).Nodup := by
    refine List.Nodup.map_on ?_ hR
    simp only [List.mem_map]
    rintro _ ⟨x, hx, rfl⟩ _ ⟨y, hy, rfl⟩ hname
    exact ht x hx y hy hname
  -- The name of the type is the second part of the key.
  refine List.Nodup.of_map (fun key => (ofLex key).2) ?_
  rw [List.map_map] at hnames
  rw [List.map_map, List.map_map]
  exact hnames

/-- In whatever order a registry gives out what it holds, the names of a type are those that are
    bound to it, in strict order of their bytes; and the listing is the same: it summarizes each
    registered type once, in strict order of the first names, types without one coming first, and
    then of the names of the types. -/
theorem listing_complete (hR : R.Reachable) (ht : R.DistinctTypeNames) (h : R.Rearranges R') :
    (∀ type, R'.namesOf type = R.namesOf type ∧
      (R'.namesOf type).Pairwise (fun a b => utf8Bytes a < utf8Bytes b) ∧
      ∀ name, name ∈ R'.namesOf type ↔ R.lookupByName name = .ok type) ∧
    (∃ types : List MessageType, types.Nodup ∧ (∀ type, type ∈ types ↔ R.contains type = true) ∧
      Forall₂ R.Summarizes types R'.describe.types) ∧
    R'.describe.types.Pairwise (fun a b => a.byteKey < b.byteKey) ∧
    R'.describe = R.describe := by
  rw [h.describe hR.distinctTypes ht]
  refine ⟨fun type => ?_, describe_summarizes hR.distinctTypes, ?_, rfl⟩
  · rw [h.namesOf]
    refine ⟨rfl, ?_, fun name => mem_namesOf_iff hR.distinctNames⟩
    exact (namesOf_sorted hR.distinctNames type).imp fun hlt => utf8Bytes_strictMono hlt
  · exact (describe_sorted hR.distinctTypes ht).imp TypeSummary.byteKey_lt_iff.2

section Letters

/-- Two types without a name, one with two, and a name of a type that is not registered. -/
def lettersRegistry : Registry Unit :=
  ({} : Registry Unit).performAll
    [.registerType ⟨2, "Tag"⟩ ⟨[]⟩ (), .registerType ⟨1, "Box"⟩ ⟨[]⟩ (),
      .registerName "𝐀" ⟨3, "Letter"⟩, .registerName "Ａ" ⟨3, "Letter"⟩,
      .registerName "Old" ⟨4, "Lost"⟩,
      .registerType ⟨3, "Letter"⟩ ⟨[⟨"code", .primitive, false⟩]⟩ ()]

/-- The order of the letters is that of their bytes, which is not that of their UTF-16 units. -/
theorem listing_complete_letters :
    let R' : Registry Unit := { lettersRegistry with
      types := lettersRegistry.types.reverse, names := lettersRegistry.names.reverse }
    R'.namesOf ⟨3, "Letter"⟩ = ["Ａ", "𝐀"] ∧ utf8Bytes "Ａ" < utf8Bytes "𝐀" ∧
    "Old" ∈ R'.namesOf ⟨4, "Lost"⟩ ∧
    R'.describe.types = [⟨[], "Box", ⟨[]⟩⟩, ⟨[], "Tag", ⟨[]⟩⟩,
      ⟨["Ａ", "𝐀"], "Letter", ⟨[⟨"code", .primitive, false⟩]⟩⟩] := by
  intro R'
  have hR : lettersRegistry.Reachable := (Reachable.empty {}).performAll _
  have h : lettersRegistry.Rearranges R' := ⟨List.reverse_perm _, List.reverse_perm _, rfl⟩
  obtain ⟨hnames, _, _, hsame⟩ := listing_complete hR (by decide) h
  obtain ⟨hletter, hsorted, _⟩ := hnames ⟨3, "Letter"⟩
  have hnamed : lettersRegistry.namesOf ⟨3, "Letter"⟩ = ["Ａ", "𝐀"] := by cbv
  have hlisted : lettersRegistry.describe.types = [⟨[], "Box", ⟨[]⟩⟩, ⟨[], "Tag", ⟨[]⟩⟩,
      ⟨["Ａ", "𝐀"], "Letter", ⟨[⟨"code", .primitive, false⟩]⟩⟩] := by cbv
  rw [hletter, hnamed] at hsorted
  rw [hletter, hsame]
  exact ⟨hnamed, List.rel_of_pairwise_cons hsorted List.mem_cons_self,
    ((hnames ⟨4, "Lost"⟩).2.2 "Old").2 rfl, hlisted⟩

end Letters

end Registry

end Missive
