import Mathlib
import Missive.Proofs.Canonical
import Missive.Proofs.Decode
import Missive.Proofs.Depth
import Missive.Proofs.Sample.Factories

/-!
# The limit of decoding

Decoding charges the limit on the nesting for what it reads, and this is the canonical form of the
tree: what stands under a key that is not declared may be nested as deep as it likes. A value that
is decoded under one limit is decoded under exactly those limits that the nesting of the canonical
form does not exceed. Where such keys are denied, decoding reads the whole tree.

* `Registry.DecodesUpTo`: what one limit tells about all others.
* `Registry.decodesUpTo_of_decodeAt`: a successful decoding tells this.
* `Registry.nesting_of_decodeAt`: where keys that are not declared are denied, the tree itself fits.
-/

namespace Missive.Registry

open List (Forall₂)
open Outcome

variable {μ : Type} {R : Registry (Factory (Except Error) μ)}

/-- The canonical form of an object is nested as its declared fields are. -/
theorem nestingOfMembers_canon_le_iff {φ : Type} {R : Registry φ} {table : FieldTable}
    {members : List (String × Tree)} {n : Nat} :
    Tree.nestingOfMembers (table.specs.filterMap (R.canonField members)) ≤ n ↔
      ∀ spec ∈ table.specs, ∀ node, members.lookup spec.name = some node →
        (R.canon spec.type node).nesting ≤ n := by
  rw [Tree.nestingOfMembers_le_iff]
  constructor
  · intro h spec hs node hl
    refine h (spec.name, R.canon spec.type node) (List.mem_filterMap.2 ⟨spec, hs, ?_⟩)
    rw [canonField, hl]
    rfl
  · intro h member hmem
    obtain ⟨spec, hs, hf⟩ := List.mem_filterMap.1 hmem
    unfold canonField at hf
    cases hl : members.lookup spec.name with
    | some node =>
      rw [hl] at hf
      cases hf
      exact h spec hs node hl
    | none =>
      -- What stands for an absent field is null, and nests nothing.
      rw [hl, Option.map_none] at hf
      dsimp only at hf
      split at hf <;> cases hf
      exact Nat.zero_le n

/-! ## One limit and all others -/

/-- The canonical form fits between the depth and the limit `m`, and the tree is decoded to the
    value under every limit that the canonical form fits below. -/
structure DecodesUpTo (R : Registry (Factory (Except Error) μ)) (m : UInt32) (path : Path)
    (depth : UInt32) (t : Tree) (d : Descriptor) (v : Value μ) : Prop where
  fits : depth.toNat + (R.canon d t).nesting ≤ m.toNat
  decodes : ∀ m' : UInt32, depth.toNat + (R.canon d t).nesting ≤ m'.toNat →
    (R.withMaxDepth m').decodeAt path depth t d = .ok v

section Containers

variable {m depth : UInt32} {path : Path}

theorem decodesUpTo_message (hd : depth < m) {target : TypeRef} {type : MessageType}
    {entry : TypeEntry (Factory (Except Error) μ)} (hr : R.resolve target = .ok type)
    (he : R.entry type = .ok entry) {members : List (String × Tree)}
    (hk : R.deniedKey? entry.fields members = none) {entries : List (String × Value μ)}
    (hf : Forall₂ (fun spec e => DecodesField (R.DecodesUpTo m (path.field spec.name) (depth + 1))
      R.options members spec e) entry.fields.specs entries)
    {a : μ} (ha : entry.factory { path, entries } = .ok a) :
    R.DecodesUpTo m path depth (.object members) (.message target) (.message a) := by
  have hnext := toNat_next hd
  have hcanon := canon_object (tableOf?_eq_some_iff.2 ⟨type, entry, hr, he, rfl⟩) members
  constructor
  · have hmembers : Tree.nestingOfMembers (entry.fields.specs.filterMap (R.canonField members)) ≤
        m.toNat - (depth + 1).toNat := by
      refine nestingOfMembers_canon_le_iff.2 fun spec hs node hl => ?_
      obtain ⟨e, _, _, ⟨node', hl', hup⟩ | ⟨hl', _⟩⟩ := exists_of_mem_left hf hs
      · cases hl.symm.trans hl'
        have hfits := hup.fits
        omega
      · cases hl.symm.trans hl'
    have hlt : depth.toNat < m.toNat := hd
    rw [hcanon, Tree.nesting]
    omega
  · intro m' hm'
    rw [hcanon, Tree.nesting] at hm'
    have hd' : depth < (R.withMaxDepth m').options.maxDepth :=
      UInt32.lt_iff_toNat_lt.2 (by change _ < m'.toNat; omega)
    have hnest := nestingOfMembers_canon_le_iff.1 (le_refl (Tree.nestingOfMembers
      (entry.fields.specs.filterMap (R.canonField members))))
    have hfields : Forall₂ (fun spec e =>
        (R.withMaxDepth m').decodeField path depth members spec = .ok e)
        entry.fields.specs entries := by
      refine forall₂_imp_mem hf fun spec hs e _ hfield => decodeField_ok ?_
      obtain ⟨hname, ⟨node, hl, hup⟩ | habsent⟩ := hfield
      · have hnode := hnest spec hs node hl
        exact ⟨hname, .inl ⟨node, hl, hup.decodes m' (by omega)⟩⟩
      · exact ⟨hname, .inr habsent⟩
    rw [decodeAt_message rfl, if_pos hd',
      decodeTarget_object (R := R.withMaxDepth m') hr he]
    exact decodeObject_ok hk hfields ha

theorem decodesUpTo_array (hd : depth < m) {items : List Tree} {element : Descriptor}
    {values : List (Value μ)}
    (hv : Forall₂ (fun x v => R.DecodesUpTo m (path.index x.2) (depth + 1) x.1 element v)
      items.zipIdx values) :
    R.DecodesUpTo m path depth (.array items) (.array element) (.array values) := by
  have hnext := toNat_next hd
  constructor
  · have hitems : Tree.nestingOfItems (items.map (R.canon element)) ≤
        m.toNat - (depth + 1).toNat := by
      refine Tree.nestingOfItems_le_iff.2 (List.forall_mem_map.2 fun t ht => ?_)
      obtain ⟨i, hi⟩ := List.mem_iff_getElem?.1 ht
      obtain ⟨v, _, hup⟩ := exists_of_mem_left hv (List.mk_mem_zipIdx_iff_getElem?.2 hi)
      have hfits : (depth + 1).toNat + (R.canon element t).nesting ≤ m.toNat := hup.fits
      omega
    have hlt : depth.toNat < m.toNat := hd
    rw [canon_array, Tree.nesting]
    omega
  · intro m' hm'
    rw [canon_array, Tree.nesting] at hm'
    have hd' : depth < (R.withMaxDepth m').options.maxDepth :=
      UInt32.lt_iff_toNat_lt.2 (by change _ < m'.toNat; omega)
    rw [decodeAt_array rfl, if_pos hd', decodeItems]
    refine bind_eq_ok_iff.2 ⟨values, mapM_eq_ok_iff.2 ?_, rfl⟩
    refine forall₂_imp_mem hv fun x hx v _ hup => hup.decodes m' ?_
    have hmem : R.canon element x.1 ∈ items.map (R.canon element) :=
      List.mem_map.2 ⟨x.1, List.fst_mem_of_mem_zipIdx hx, rfl⟩
    have hnode := Tree.nestingOfItems_le_iff.1 le_rfl _ hmem
    omega

end Containers

/-- What is decoded under one limit is decoded up to it. -/
theorem decodesUpTo_of_decodeAt {m : UInt32} {path : Path} {depth : UInt32} {t : Tree}
    {d : Descriptor} {v : Value μ} (h : (R.withMaxDepth m).decodeAt path depth t d = .ok v)
    (ht : t.nesting < UInt32.size) (hd : depth.toNat ≤ m.toNat) :
    R.DecodesUpTo m path depth t d v := by
  refine decodeAt_path_induction (motive := fun path depth t d v => t.nesting < UInt32.size →
    depth.toNat ≤ m.toNat → R.DecodesUpTo m path depth t d v) ?null ?leaf ?message ?array h ht hd
  case null =>
    intro path depth d _ hd
    have hcanon : R.canon d .null = .null := canon_of_nesting_eq_zero rfl d
    exact ⟨by rw [hcanon]; exact hd, fun m' _ => decodeAt_null⟩
  case leaf =>
    intro path depth t hnull ha ht hd
    constructor
    · rw [canon_primitive]
      exact (allowsLeaf_iff ht hd).1 ha
    · intro m' hm'
      rw [canon_primitive] at hm'
      have hd' : depth.toNat ≤ (R.withMaxDepth m').options.maxDepth.toNat :=
        (Nat.le_add_right _ _).trans hm'
      rw [decodeAt_primitive hnull, if_pos ((allowsLeaf_iff ht hd').2 hm')]
  case message =>
    intro path depth members target type entry entries a (hlt : depth < m) hr he hk hf ha ht _
    refine decodesUpTo_message (R := R) hlt hr he hk (hf.imp fun spec e hfield => ?_) ha
    obtain ⟨hname, ⟨node, hl, hup⟩ | habsent⟩ := hfield
    · have hnode := Tree.nesting_lt_of_mem (Tree.mem_of_lookup hl)
      exact ⟨hname, .inl ⟨node, hl, hup (hnode.trans ht) (toNat_next_le hlt)⟩⟩
    · exact ⟨hname, .inr habsent⟩
  case array =>
    intro path depth items element values (hlt : depth < m) hv ht _
    refine decodesUpTo_array hlt (forall₂_imp_mem hv fun x hx v _ hup => ?_)
    have hnode := Tree.nesting_lt_of_item (List.fst_mem_of_mem_zipIdx hx)
    exact hup (hnode.trans ht) (toNat_next_le hlt)

/-! ## Whole trees -/

/-- Where keys that are not declared are denied, the limit holds for the tree itself. -/
theorem nesting_of_decodeAt (hdeny : R.options.denyUnknownFields = true) {path : Path}
    {depth : UInt32} {t : Tree} {d : Descriptor} {v : Value μ}
    (h : R.decodeAt path depth t d = .ok v) (hk : t.DistinctKeys) (ht : t.nesting < UInt32.size)
    (hd : depth.toNat ≤ R.options.maxDepth.toNat) :
    depth.toNat + t.nesting ≤ R.options.maxDepth.toNat := by
  refine decodeAt_induction (motive := fun depth t _ _ => t.DistinctKeys →
    t.nesting < UInt32.size → depth.toNat ≤ R.options.maxDepth.toNat →
    depth.toNat + t.nesting ≤ R.options.maxDepth.toNat) ?null ?leaf ?message ?array h hk ht hd
  case null => exact fun _ _ _ _ hd => hd
  case leaf => exact fun depth t _ ha _ ht hd => (allowsLeaf_iff ht hd).1 ha
  case message =>
    intro path depth members target type entry entries a hlt hr he hdenied hf ha hk ht _
    obtain ⟨⟨⟩⟩ | _ | ⟨hnodup, hkeys⟩ := hk
    have hnext := toNat_next hlt
    have hmembers : Tree.nestingOfMembers members ≤
        R.options.maxDepth.toNat - (depth + 1).toNat := by
      refine Tree.nestingOfMembers_le_iff.2 fun member hmem => ?_
      -- The key is declared, and the node that stands under it is the one that was decoded.
      obtain ⟨spec, hs, hname⟩ := List.mem_map.1
        (mem_names_of_deniedKey? hdeny hdenied (List.mem_map.2 ⟨member, hmem, rfl⟩))
      have hl : members.lookup spec.name = some member.2 :=
        Tree.lookup_of_mem hnodup (by rw [hname]; exact hmem)
      obtain ⟨e, _, _, ⟨node, hl', hnode⟩ | ⟨hl', _⟩⟩ := exists_of_mem_left hf hs
      · cases hl.symm.trans hl'
        have hfits := hnode (hkeys member hmem) ((Tree.nesting_lt_of_mem hmem).trans ht)
          (toNat_next_le hlt)
        omega
      · cases hl.symm.trans hl'
    have hlt' : depth.toNat < R.options.maxDepth.toNat := hlt
    rw [Tree.nesting]
    omega
  case array =>
    intro depth items element values hlt hv hk ht _
    obtain ⟨⟨⟩⟩ | hkeys | _ := hk
    have hnext := toNat_next hlt
    have hitems : Tree.nestingOfItems items ≤ R.options.maxDepth.toNat - (depth + 1).toNat := by
      refine Tree.nestingOfItems_le_iff.2 fun node hmem => ?_
      obtain ⟨v, _, hnode⟩ := exists_of_mem_left hv hmem
      have hfits := hnode (hkeys node hmem) ((Tree.nesting_lt_of_item hmem).trans ht)
        (toNat_next_le hlt)
      omega
    have hlt' : depth.toNat < R.options.maxDepth.toNat := hlt
    rw [Tree.nesting]
    omega

/-- The limit is exact for what is read: a tree is decoded to a value under the limits that the
    nesting of its canonical form does not exceed, provided that there is one under which it is.
    Where keys that are not declared are denied, no tree is nested deeper than the limit; this is
    said of trees whose objects do not repeat a key, for of a repeated key only one is read. -/
theorem decode_limit_exact (R : Registry (Factory (Except Error) μ)) (t : Tree)
    (ht : t.nesting < UInt32.size) (d : Descriptor) (v : Value μ) :
    (∀ m : UInt32, (R.withMaxDepth m).decode t d = .ok v ↔
      (∃ m', (R.withMaxDepth m').decode t d = .ok v) ∧ (R.canon d t).nesting ≤ m.toNat) ∧
    (R.options.denyUnknownFields = true → t.DistinctKeys → R.decode t d = .ok v →
      t.nesting ≤ R.options.maxDepth.toNat) := by
  have hupTo : ∀ m, (R.withMaxDepth m).decode t d = .ok v → R.DecodesUpTo m .root 0 t d v :=
    fun m h => decodesUpTo_of_decodeAt h ht (Nat.zero_le _)
  have hzero : (0 : UInt32).toNat + (R.canon d t).nesting = (R.canon d t).nesting := Nat.zero_add _
  refine ⟨fun m => ⟨fun h => ⟨⟨m, h⟩, hzero ▸ (hupTo m h).fits⟩, ?_⟩, fun hdeny hk h => ?_⟩
  · rintro ⟨⟨m', h⟩, hm⟩
    exact (hupTo m' h).decodes m (hzero.symm ▸ hm)
  · have hfits := nesting_of_decodeAt hdeny h hk ht (Nat.zero_le _)
    rwa [show (0 : UInt32).toNat = 0 from rfl, Nat.zero_add] at hfits

section Foo

open Sample (Bar Foo Instance sampleRegistry)

/-- Rows of one message. -/
def rowTree : Tree := .array [.array [.object [("y", .number (.natural 5))]]]

/-- A message of rows, with a key that is not declared and nests more than the rows. -/
def notedTree : Tree :=
  .object [("note", .array [.array [.array [.array [.array [.array []]]]]]), ("bar", rowTree)]

/-- The message of the rows. -/
def rowFoo : Foo := ⟨none, [[⟨⟨5, by decide, by decide⟩⟩]]⟩

/-- What is not declared is nested deeper than the limit and is not charged for, what is declared is
    just within the limit; if the former is denied, what is accepted is within it as a whole. -/
theorem decode_limit_exact_foo :
    ((sampleRegistry {}).withMaxDepth 4).decode notedTree (.message (.named "Foo")) =
      .ok (.message (.foo rowFoo)) ∧
    ((sampleRegistry {}).withMaxDepth 3).decode notedTree (.message (.named "Foo")) ≠
      .ok (.message (.foo rowFoo)) ∧
    (sampleRegistry { maxDepth := 4, denyUnknownFields := true }).decode
      (.object [("bar", rowTree)]) (.message (.named "Foo")) = .ok (.message (.foo rowFoo)) ∧
    (Tree.object [("bar", rowTree)]).nesting ≤ 4 := by
  have hdeep : ((sampleRegistry {}).withMaxDepth 64).decode notedTree (.message (.named "Foo")) =
      .ok (.message (.foo rowFoo)) := by cbv
  have hstrict : (sampleRegistry { maxDepth := 4, denyUnknownFields := true }).decode
      (.object [("bar", rowTree)]) (.message (.named "Foo")) = .ok (.message (.foo rowFoo)) := by
    cbv
  have hcanon : ((sampleRegistry {}).canon (.message (.named "Foo")) notedTree).nesting = 4 := by
    cbv
  have hkeys : (Tree.object [("bar", rowTree)]).DistinctKeys := by
    refine .object (by decide) (List.forall_mem_singleton.2 ?_)
    refine .array (List.forall_mem_singleton.2 (.array (List.forall_mem_singleton.2 ?_)))
    exact .object (by decide) (List.forall_mem_singleton.2 (.scalar rfl))
  obtain ⟨hexact, _⟩ := decode_limit_exact (sampleRegistry {}) notedTree (by decide)
    (.message (.named "Foo")) (.message (.foo rowFoo))
  obtain ⟨_, hwhole⟩ := decode_limit_exact
    (sampleRegistry { maxDepth := 4, denyUnknownFields := true }) (.object [("bar", rowTree)])
    (by decide) (.message (.named "Foo")) (.message (.foo rowFoo))
  refine ⟨(hexact 4).2 ⟨⟨64, hdeep⟩, hcanon.le⟩, fun h => ?_, hstrict, hwhole rfl hkeys hstrict⟩
  have hle := ((hexact 3).1 h).2
  rw [hcanon] at hle
  exact absurd hle (by decide)

end Foo

end Missive.Registry
