import Mathlib
import Missive.Proofs.Depth
import Missive.Proofs.Encode
import Missive.Sample.Instance

/-!
# The limit of encoding

The limit on the nesting refuses what is nested deeper, and nothing else: a tree that is encoded
under one limit is encoded under exactly those limits that its nesting does not exceed. The limit
is counted against in machine words, and none of them wraps.

* `View.HasLeaf`: the opaque leaves of a view, those in the fields of its messages included.
* `Registry.EncodesUpTo`: what one limit tells about all others.
* `Registry.encodeChecked`: encoding that stops where the count would wrap; it never does.
-/

namespace Missive

open List (Forall₂)
open Outcome

variable {μ : Type} [Message μ]

/-- The leaf stands in the view, or in a field of a message of it. -/
inductive View.HasLeaf : View μ → Tree → Prop
  | leaf (t : Tree) : HasLeaf (.leaf t) t
  | item {items : List (View μ)} {v : View μ} {t : Tree} :
      v ∈ items → v.HasLeaf t → HasLeaf (.array items) t
  | field {m : μ} {name : String} {v : View μ} {t : Tree} :
      Message.field m name = some v → v.HasLeaf t → HasLeaf (.message m) t

/-- No leaf of the view is nested too deep for a machine word to count. -/
def View.Countable (view : View μ) : Prop := ∀ leaf, view.HasLeaf leaf → leaf.nesting < UInt32.size

namespace Registry

variable {φ : Type} {R : Registry φ}

/-! ## One limit and all others -/

/-- The tree fits between the depth and the limit `m`, and is what the view is encoded to under
    every limit that it fits below. -/
structure EncodesUpTo (R : Registry φ) (m depth : UInt32) (view : View μ) (d : Descriptor)
    (t : Tree) : Prop where
  fits : depth.toNat + t.nesting ≤ m.toNat
  encodes : ∀ m' : UInt32, depth.toNat + t.nesting ≤ m'.toNat →
    ∀ p, (R.withMaxDepth m').encodeAt p depth view d = .ok t

section Containers

variable {m depth : UInt32}

theorem encodesUpTo_message (hd : depth < m) {a : μ} {table : FieldTable} (hn : table.names.Nodup)
    (ht : R.lookupFields (messageType a) = .ok table) {members : List (String × Tree)}
    (hf : Forall₂ (EncodesField (R.EncodesUpTo m (depth + 1)) a) table.specs members)
    (target : TypeRef) :
    R.EncodesUpTo m depth (.message a) (.message target) (.ofMembers members) := by
  have hkeys : members.map (·.1) = table.names := EncodesField.keys hf
  have hnext := toNat_next hd
  rw [Tree.ofMembers_of_nodup (hkeys ▸ hn)]
  constructor
  · have hmembers : Tree.nestingOfMembers members ≤ m.toNat - (depth + 1).toNat := by
      refine Tree.nestingOfMembers_le_iff.2 fun member hmem => ?_
      obtain ⟨spec, _, _, v, _, hv⟩ := exists_of_mem_right hf hmem
      have := hv.fits
      omega
    have hlt : depth.toNat < m.toNat := hd
    rw [Tree.nesting]
    omega
  · intro m' hm' p
    rw [Tree.nesting] at hm'
    have hd' : depth < m' := UInt32.lt_iff_toNat_lt.2 (by omega)
    rw [← Tree.ofMembers_of_nodup (hkeys ▸ hn)]
    refine encodeAt_message hd' ht (forall₂_imp_mem hf fun spec _ member hmem hs => ?_)
    obtain ⟨hname, v, hv, hup⟩ := hs
    have hnest := Tree.nestingOfMembers_le_iff.1 le_rfl member hmem
    exact ⟨hname, v, hv, hup.encodes m' (by omega)⟩

theorem encodesUpTo_array (hd : depth < m) {items : List (View μ)} {element : Descriptor}
    {nodes : List Tree}
    (hn : Forall₂ (fun v t => R.EncodesUpTo m (depth + 1) v element t) items nodes) :
    R.EncodesUpTo m depth (.array items) (.array element) (.array nodes) := by
  have hnext := toNat_next hd
  constructor
  · have hnodes : Tree.nestingOfItems nodes ≤ m.toNat - (depth + 1).toNat := by
      refine Tree.nestingOfItems_le_iff.2 fun node hmem => ?_
      obtain ⟨v, _, hv⟩ := exists_of_mem_right hn hmem
      have := hv.fits
      omega
    have hlt : depth.toNat < m.toNat := hd
    rw [Tree.nesting]
    omega
  · intro m' hm' p
    rw [Tree.nesting] at hm'
    have hd' : depth < m' := UInt32.lt_iff_toNat_lt.2 (by omega)
    refine encodeAt_array hd' (forall₂_imp_mem hn fun v _ node hmem hup => ?_)
    have hnest := Tree.nestingOfItems_le_iff.1 le_rfl node hmem
    exact hup.encodes m' (by omega)

end Containers

/-- What is encoded under one limit is encoded up to it. -/
theorem encodesUpTo_of_encodeAt (hR : R.DistinctFields) {m : UInt32} {path : Path} {depth : UInt32}
    {view : View μ} {d : Descriptor} {t : Tree}
    (h : (R.withMaxDepth m).encodeAt path depth view d = .ok t) (hv : view.Countable)
    (hd : depth.toNat ≤ m.toNat) : R.EncodesUpTo m depth view d t := by
  refine encodeAt_induction (motive := fun depth view d t => view.Countable →
    depth.toNat ≤ m.toNat → R.EncodesUpTo m depth view d t) ?null ?leaf ?message ?array h hv hd
  case null =>
    intro depth d _ hd
    refine ⟨hd, fun m' _ p => ?_⟩
    rw [encodeAt_null]
  case leaf =>
    intro depth t ha hv hd
    have ht := hv t (.leaf t)
    refine ⟨(allowsLeaf_iff ht hd).1 ha, fun m' hm' p => ?_⟩
    have hd' : depth.toNat ≤ m'.toNat := by omega
    rw [encodeAt_leaf, if_pos ((allowsLeaf_iff ht hd').2 hm')]
  case message =>
    intro depth a target table members (hlt : depth < m)
      (ht : R.lookupFields (messageType a) = .ok table) hf hv _
    refine encodesUpTo_message hlt (hR.lookupFields ht) ht (hf.imp fun spec member hs => ?_) target
    obtain ⟨hname, v, hfield, hup⟩ := hs
    exact ⟨hname, v, hfield, hup (fun leaf hl => hv leaf (.field hfield hl)) (toNat_next_le hlt)⟩
  case array =>
    intro depth items element nodes (hlt : depth < m) hn hv _
    refine encodesUpTo_array hlt (forall₂_imp_mem hn fun v hmem node _ hup => ?_)
    exact hup (fun leaf hl => hv leaf (.item hmem hl)) (toNat_next_le hlt)

/-! ## Checked counting -/

/-- The next depth, unless the word that counts it would wrap. -/
def nextDepth? (depth : UInt32) : Option UInt32 :=
  if depth + 1 < depth then none else some (depth + 1)

theorem nextDepth?_of_lt {depth maxDepth : UInt32} (h : depth < maxDepth) :
    nextDepth? depth = some (depth + 1) := by
  have hnext := toNat_next h
  unfold nextDepth?
  rw [if_neg]
  rw [UInt32.lt_iff_toNat_lt]
  omega

/-- Encodes as `encodeAt` does, but is cut off, with no outcome at all, where the depth of what is
    contained would wrap. -/
def encodeChecked (R : Registry φ) (path : Path) (depth : UInt32) (view : View μ)
    (d : Descriptor) : ExceptT Error Option Tree :=
  match view, d with
  | .null, _ => pure .null
  | .nonFinite x, _ => throw (.typeMismatch path "finite number" x.text)
  | .leaf t, .primitive => if R.allowsLeaf t depth then pure t else throw R.tooDeep
  | .message m, .message _ =>
    if _ : depth < R.options.maxDepth then
      match _ : nextDepth? depth with
      | none => .mk none
      | some next => do
        let table ← ofExcept (R.lookupFields (messageType m))
        let members ← table.specs.mapM fun spec =>
          match Message.field m spec.name with
          | none => throw (.missingField path spec.name)
          | some v => do
            let node ← R.encodeChecked (path.field spec.name) next v spec.type
            return (spec.name, node)
        return .ofMembers members
    else throw R.tooDeep
  | .array items, .array element =>
    if _ : depth < R.options.maxDepth then
      match _ : nextDepth? depth with
      | none => .mk none
      | some next => do
        let nodes ← items.zipIdx.mapM fun (v, i) =>
          R.encodeChecked (path.index i) next v element
        return .array nodes
    else throw R.tooDeep
  | view, d => throw (.typeMismatch path d.kind view.describe)
termination_by R.options.maxDepth.toNat - depth.toNat
decreasing_by
  all_goals
    cases (nextDepth?_of_lt ‹_›).symm.trans ‹nextDepth? depth = some next›
    exact depth_decreasing (by assumption)

section Uncut

variable {ε α β : Type}

theorem run_bind_of_some {x : ExceptT ε Option α} {y : Except ε α} {f : α → ExceptT ε Option β}
    {g : α → Except ε β} (hx : x.run = some y) (hf : ∀ a, (f a).run = some (g a)) :
    (x >>= f).run = some (y >>= g) := by
  change x.run >>= ExceptT.bindCont f = _
  rw [hx]
  cases y with
  | error e => rfl
  | ok a => exact hf a

theorem run_mapM_of_some {f : α → ExceptT ε Option β} {g : α → Except ε β} {as : List α}
    (h : ∀ a ∈ as, (f a).run = some (g a)) : (as.mapM f).run = some (as.mapM g) := by
  induction as with
  | nil => rfl
  | cons a as ih =>
    rw [List.forall_mem_cons] at h
    rw [List.mapM_cons, List.mapM_cons]
    exact run_bind_of_some h.1 fun b => run_bind_of_some (ih h.2) fun bs => rfl

theorem run_ofExcept (x : Except ε α) : (ofExcept x : ExceptT ε Option α).run = some x := by
  cases x <;> rfl

end Uncut

/-- Checked encoding is never cut off, and its outcome is that of encoding. -/
theorem run_encodeChecked (R : Registry φ) (path : Path) (depth : UInt32) (view : View μ)
    (d : Descriptor) :
    (R.encodeChecked path depth view d).run = some (R.encodeAt path depth view d) := by
  cases view with
  | null => rw [encodeChecked, encodeAt]; rfl
  | nonFinite x => rw [encodeChecked, encodeAt]; rfl
  | leaf t =>
    cases d with
    | primitive =>
      rw [encodeChecked, encodeAt]
      split <;> rfl
    | _ =>
      rw [encodeChecked, encodeAt]
      · rfl
      all_goals simp
  | message m =>
    cases d with
    | message target =>
      rw [encodeChecked, encodeAt]
      split
      · next hd =>
        split
        · next hn => cases (nextDepth?_of_lt hd).symm.trans hn
        · next next hn =>
          cases (nextDepth?_of_lt hd).symm.trans hn
          refine run_bind_of_some (run_ofExcept _) fun table => ?_
          refine run_bind_of_some (run_mapM_of_some fun spec _ => ?_) fun members => rfl
          cases Message.field m spec.name with
          | none => rfl
          | some v => exact run_bind_of_some (run_encodeChecked ..) fun node => rfl
      · rfl
    | _ =>
      rw [encodeChecked, encodeAt]
      · rfl
      all_goals simp
  | array items =>
    cases d with
    | array element =>
      rw [encodeChecked, encodeAt]
      split
      · next hd =>
        split
        · next hn => cases (nextDepth?_of_lt hd).symm.trans hn
        · next next hn =>
          cases (nextDepth?_of_lt hd).symm.trans hn
          refine run_bind_of_some (run_mapM_of_some fun x _ => ?_) fun nodes => rfl
          exact run_encodeChecked ..
      · rfl
    | _ =>
      rw [encodeChecked, encodeAt]
      · rfl
      all_goals simp
termination_by R.options.maxDepth.toNat - depth.toNat
decreasing_by all_goals exact depth_decreasing (by assumption)

/-! ## Whole views -/

/-- The limit is exact: a view is encoded to a tree under the limits that the nesting of the tree
    does not exceed, provided that there is one under which it is. So no tree is nested deeper than
    the limit; and under no limit does the count of the depth wrap. -/
theorem encode_limit_exact (R : Registry φ) (hR : R.Reachable) (v : View μ) (hv : v.Countable)
    (d : Descriptor) :
    (∀ (t : Tree) (m : UInt32), (R.withMaxDepth m).encode v d = .ok t ↔
      t.nesting ≤ m.toNat ∧ ∃ m', (R.withMaxDepth m').encode v d = .ok t) ∧
    (∀ t, R.encode v d = .ok t → t.nesting ≤ R.options.maxDepth.toNat) ∧
    ∀ m, ((R.withMaxDepth m).encodeChecked .root 0 v d).run =
      some ((R.withMaxDepth m).encode v d) := by
  have hupTo : ∀ m t, (R.withMaxDepth m).encode v d = .ok t → R.EncodesUpTo m 0 v d t :=
    fun m t h => encodesUpTo_of_encodeAt hR.distinctFields h hv (Nat.zero_le _)
  have hfits : ∀ m t, (R.withMaxDepth m).encode v d = .ok t → t.nesting ≤ m.toNat := by
    intro m t h
    have hle : 0 + t.nesting ≤ m.toNat := (hupTo m t h).fits
    rwa [Nat.zero_add] at hle
  refine ⟨fun t m => ⟨fun h => ⟨hfits m t h, m, h⟩, ?_⟩, fun t h => hfits _ t h, fun m => ?_⟩
  · rintro ⟨hm, m', h⟩
    refine (hupTo m' t h).encodes m ?_ .root
    change 0 + t.nesting ≤ m.toNat
    rwa [Nat.zero_add]
  · exact run_encodeChecked (R.withMaxDepth m) .root 0 v d

section Shelf

open Sample (Instance)

/-- A type of records. -/
def shelfType : MessageType where
  id := 20
  name := "Shelf"

/-- Records of rows of leaves. -/
def shelfRegistry : Registry Unit :=
  ((registerType shelfType ⟨[{ name := "rows", type := .array .primitive }]⟩ ()).run.run {}).2

/-- A record of one row, a leaf that nests two arrays. -/
def shelf : View Instance :=
  .message (.record shelfType ⟨shelfType, [("rows", .array [.leaf (.array [.array []])])]⟩)

/-- What it is encoded to. -/
def shelfTree : Tree := .object [("rows", .array [.array [.array []]])]

theorem shelf_countable : shelf.Countable := by
  intro leaf h
  obtain _ | _ | ⟨hfield, h⟩ := h
  cases List.mem_singleton.1 (Tree.mem_of_lookup hfield)
  obtain _ | ⟨hitem, h⟩ := h
  cases List.mem_singleton.1 hitem
  cases h
  decide

/-- A record with a message, an array and a leaf of two levels is encoded with a limit of four
    levels, but not with one of three. -/
theorem encode_limit_exact_shelf :
    (shelfRegistry.withMaxDepth 4).encode shelf (.message (.handle shelfType)) = .ok shelfTree ∧
    (shelfRegistry.withMaxDepth 3).encode shelf (.message (.handle shelfType)) ≠ .ok shelfTree := by
  have hR : shelfRegistry.Reachable := .call (.registerType _ _ _) (.empty {})
  have h : (shelfRegistry.withMaxDepth 64).encode shelf (.message (.handle shelfType)) =
      .ok shelfTree := by cbv
  obtain ⟨hexact, _, _⟩ :=
    encode_limit_exact shelfRegistry hR shelf shelf_countable (.message (.handle shelfType))
  have hnesting : shelfTree.nesting = 4 := by decide
  refine ⟨(hexact _ _).2 ⟨hnesting.le, 64, h⟩, fun h' => ?_⟩
  have hle := ((hexact _ _).1 h').1
  rw [hnesting] at hle
  exact absurd hle (by decide)

end Shelf

end Registry

end Missive
