import Mathlib
import Missive.Proofs.Encode
import Missive.Proofs.Runs
import Missive.Sample.Instance

/-!
# What encoding looks at

Encoding looks at few things of a registry: at the limit on the nesting, and at the names and the
*outlines* of the declared fields. The outline of a descriptor is what is left of it when it is
forgotten which type is referred to. Bound names, factories and the ends of references do not
matter, nor do the policies on absent and on unknown fields.

* `Descriptor.outline`, `FieldTable.outline`: what is left of a descriptor and of a table.
* `Registry.encodeAt_outline`: encoding under two registries whose tables have the same outlines,
  unless the first one fails to find a table by an error of a given kind.
* `Registry.SameOutline`: two registries of which encoding sees the same.
-/

namespace Missive

open List (Forall₂)
open Outcome

/-- A descriptor that leaves open which type is referred to. -/
inductive Outline where
  | primitive
  | message
  | array (element : Outline)
deriving DecidableEq

/-- The descriptor without the type that it refers to. -/
def Descriptor.outline : Descriptor → Outline
  | primitive => .primitive
  | message _ => .message
  | array element => .array element.outline

/-- The declared names in order, each with the outline of its field. -/
def FieldTable.outline (table : FieldTable) : List (String × Outline) :=
  table.specs.map fun spec => (spec.name, spec.type.outline)

section Outlines

variable {d d' : Descriptor}

theorem Descriptor.kind_of_outline (h : d'.outline = d.outline) : d'.kind = d.kind := by
  cases d <;> cases d' <;> first | rfl | cases h

/-- Which shape a descriptor asks for does not depend on what it refers to. -/
theorem View.HasShape.of_outline {μ : Type} {v : View μ} (hv : v.HasShape d)
    (h : d'.outline = d.outline) : v.HasShape d' := by
  cases hv <;> cases d' <;> first | constructor | cases h

end Outlines

namespace Registry

variable {φ φ' μ : Type} [Message μ] {R : Registry φ} {R' : Registry φ'} {spared : Error → Prop}

/-! ## Two registries -/

section Levels

variable {path : Path} {depth : UInt32}

/-- One level further down, views are encoded alike under descriptors of one outline. -/
def EncodesAlikeBelow (μ : Type) [Message μ] (spared : Error → Prop) (R : Registry φ)
    (R' : Registry φ') (depth : UInt32) : Prop :=
  ∀ path (v : View μ) d d', d'.outline = d.outline →
    AgreesUnless spared (R.encodeAt path (depth + 1) v d) (R'.encodeAt path (depth + 1) v d')

theorem encodeField_outline (hbelow : EncodesAlikeBelow μ spared R R' depth) (m : μ)
    {spec spec' : FieldSpec}
    (h : (spec'.name, spec'.type.outline) = (spec.name, spec.type.outline)) :
    AgreesUnless spared (R.encodeField path depth m spec) (R'.encodeField path depth m spec') := by
  obtain ⟨hname, htype⟩ := Prod.mk.inj h
  simp only [encodeField, hname]
  split
  · exact .refl _
  · exact (hbelow _ _ _ _ htype).bind fun _ => .refl _

theorem encodeFields_outline (hbelow : EncodesAlikeBelow μ spared R R' depth) (m : μ)
    (htable : AgreesUnless spared (FieldTable.outline <$> R.lookupFields (messageType m))
      (FieldTable.outline <$> R'.lookupFields (messageType m))) :
    AgreesUnless spared (R.encodeFields path depth m) (R'.encodeFields path depth m) := by
  unfold encodeFields
  rcases htable.of_map with ⟨e, hl, hl' | hspared⟩ | ⟨table, table', hl, hl', houtline⟩
  · rw [hl, hl']
    exact .refl _
  · rw [hl]
    exact .inr ⟨e, rfl, hspared⟩
  · rw [hl, hl', ok_bind, ok_bind]
    refine AgreesUnless.bind (AgreesUnless.mapM_forall₂ ?_) fun _ => .refl _
    exact (forall₂_of_map_eq_map houtline).imp fun _ _ => encodeField_outline hbelow m

theorem encodeItems_outline (hbelow : EncodesAlikeBelow μ spared R R' depth)
    (items : List (View μ)) {element element' : Descriptor}
    (h : element'.outline = element.outline) :
    AgreesUnless spared (R.encodeItems path depth items element)
      (R'.encodeItems path depth items element') :=
  (AgreesUnless.mapM fun _ _ => hbelow _ _ _ _ h).bind fun _ => .refl _

end Levels

/-- Registries of one limit, whose tables have the same outlines, encode alike under descriptors of
    one outline. -/
theorem encodeAt_outline (hdepth : R'.options.maxDepth = R.options.maxDepth)
    (htables : ∀ type, AgreesUnless spared (FieldTable.outline <$> R.lookupFields type)
      (FieldTable.outline <$> R'.lookupFields type))
    (path : Path) (depth : UInt32) (v : View μ) (d d' : Descriptor)
    (hd : d'.outline = d.outline) :
    AgreesUnless spared (R.encodeAt path depth v d) (R'.encodeAt path depth v d') := by
  have hdeep : R'.tooDeep = R.tooDeep := by rw [tooDeep, hdepth, tooDeep]
  by_cases hs : v.HasShape d
  · have hbelow (_ : depth < R.options.maxDepth) : EncodesAlikeBelow μ spared R R' depth :=
      fun path v d d' => encodeAt_outline hdepth htables path (depth + 1) v d d'
    cases hs.of_outline hd with
    | leaf t =>
      cases hs
      have hleaf : R'.allowsLeaf t depth = R.allowsLeaf t depth := by
        rw [allowsLeaf, hdepth, allowsLeaf]
      rw [encodeAt_leaf, encodeAt_leaf, hleaf, hdeep]
      exact .refl _
    | message m target' =>
      cases hs
      rw [encodeAt_fields, encodeAt_fields, hdepth, hdeep]
      split
      · next hlt => exact encodeFields_outline (hbelow hlt) m (htables _)
      · exact .refl _
    | array items element' =>
      cases hs
      rw [encodeAt_items, encodeAt_items, hdepth, hdeep]
      split
      · next hlt => exact encodeItems_outline (hbelow hlt) items (Outline.array.inj hd)
      · exact .refl _
  · have hs' : ¬v.HasShape d' := fun h => hs (h.of_outline hd.symm)
    cases v with
    | null => simpa using .refl _
    | nonFinite x => simpa using .refl _
    | _ =>
      rw [encodeAt_mismatch (by simp) (by simp) hs, encodeAt_mismatch (by simp) (by simp) hs',
        Descriptor.kind_of_outline hd]
      exact .refl _
termination_by R.options.maxDepth.toNat - depth.toNat
decreasing_by exact depth_decreasing (by assumption)

/-! ## Registries that look the same -/

/-- The registries have the same limit and the same registered types, and their tables have the same
    outlines. -/
structure SameOutline (R : Registry φ) (R' : Registry φ') : Prop where
  maxDepth : R'.options.maxDepth = R.options.maxDepth
  contains : ∀ type, R'.contains type = R.contains type
  outline : ∀ type table table', R.lookupFields type = .ok table →
    R'.lookupFields type = .ok table' → table'.outline = table.outline

theorem SameOutline.lookupFields (h : R.SameOutline R') (type : MessageType) :
    FieldTable.outline <$> R'.lookupFields type = FieldTable.outline <$> R.lookupFields type := by
  rcases R.lookupFields_cases type with ⟨hc, table, hl⟩ | ⟨hc, hl⟩ <;>
    rcases R'.lookupFields_cases type with ⟨hc', table', hl'⟩ | ⟨hc', hl'⟩ <;>
    rw [← h.contains type, hc'] at hc <;> rw [hl, hl']
  · exact congrArg Except.ok (h.outline type table table' hl hl')
  · cases hc
  · cases hc

/-- Registries of one limit look the same if they list the same types, with tables of the same
    outlines. -/
theorem sameOutline_of_types (hdepth : R'.options.maxDepth = R.options.maxDepth)
    (h : R'.types.map (fun x => (x.1, x.2.fields.outline)) =
      R.types.map fun x => (x.1, x.2.fields.outline)) : R.SameOutline R' := by
  have htypes (type : MessageType) := Tree.lookup_forall₂
    (r := fun entry entry' : TypeEntry _ => entry'.fields.outline = entry.fields.outline)
    ((forall₂_of_map_eq_map h).imp fun _ _ hx => Prod.mk.inj hx) type
  refine ⟨hdepth, fun type => ?_, fun type table table' hl hl' => ?_⟩
  · rcases htypes type with ⟨hn, hn'⟩ | ⟨_, _, hs, hs', _⟩
    · simp [contains, hn, hn']
    · simp [contains, hs, hs']
  · obtain ⟨entry, he, rfl⟩ := lookupFields_eq_ok_iff.1 hl
    obtain ⟨entry', he', rfl⟩ := lookupFields_eq_ok_iff.1 hl'
    rw [entry_eq_ok_iff] at he he'
    rcases htypes type with ⟨hn, _⟩ | ⟨_, _, hs, hs', houtline⟩
    · cases hn.symm.trans he
    · cases hs.symm.trans he
      cases hs'.symm.trans he'
      exact houtline

/-- Encoding has the same outcome, be it a tree or an error, under all registries of one limit in
    which the same types are registered, the tables have the same outlines, and so have the
    descriptors. -/
theorem encode_eq_of_sameOutline (R : Registry φ) (R' : Registry φ') (h : R.SameOutline R')
    (v : View μ) (d d' : Descriptor) (hd : d'.outline = d.outline) :
    R'.encode v d' = R.encode v d := by
  have hagrees : AgreesUnless (fun _ => False) (R.encode v d) (R'.encode v d') :=
    encodeAt_outline h.maxDepth (fun type => .inl (h.lookupFields type)) .root 0 v d d' hd
  rcases hagrees with heq | ⟨_, _, hfalse⟩
  · exact heq
  · exact hfalse.elim

section Shelves

open Sample (Instance Kind)

/-- The type of the records that are shelves. -/
def shelvesType : MessageType where
  id := 21
  name := "Shelf"

/-- The type of the records that are books. -/
def bookType : MessageType where
  id := 22
  name := "Book"

/-- Shelves of books, which are referred to by a name. -/
def namedShelves : Registry Unit :=
  performAll {} [
    .registerType shelvesType ⟨[{
      name := "books", type := .array (.message (.named "Book")) }]⟩ (),
    .registerType bookType ⟨[{ name := "title", type := .primitive }]⟩ (),
    .registerName "Book" bookType]

/-- The same shelves, but the books are referred to by the handle of another type, all fields may be
    absent, no name is bound, and the factories and the policies are other ones. -/
def looseShelves : Registry Bool :=
  performAll { options := { missingFields := .treatAsNull, denyUnknownFields := true } } [
    .registerType shelvesType ⟨[{
      name := "books", type := .array (.message (.handle (Kind.type .bar)))
      nullable := true }]⟩ true,
    .registerType bookType ⟨[{
      name := "title", type := .primitive, nullable := true }]⟩ false]

/-- A shelf of books with the given fields. -/
def shelfOf (books : List (List (String × View Instance))) : View Instance :=
  .message (.record shelvesType ⟨shelvesType, [("books",
    .array (books.map fun fields => .message (.record bookType ⟨bookType, fields⟩)))]⟩)

/-- Books are encoded on the loose shelves as they are on the named ones, and so is the second book
    without a title refused, although there is no reference to books and no name. -/
theorem encode_eq_of_sameOutline_shelves :
    looseShelves.encode (shelfOf [[("title", .leaf (.string "Emma"))]])
      (.message (.named "Shelf")) =
        .ok (.object [("books", .array [.object [("title", .string "Emma")]])]) ∧
    looseShelves.encode (shelfOf [[("title", .null)], []]) (.message (.named "Shelf")) =
      .error (.missingField ⟨[.field "books", .index 1]⟩ "title") := by
  have hR : namedShelves.SameOutline looseShelves := sameOutline_of_types rfl (by decide)
  have hsame (v : View Instance) : looseShelves.encode v (.message (.named "Shelf")) =
      namedShelves.encode v (.message (.handle shelvesType)) :=
    encode_eq_of_sameOutline namedShelves looseShelves hR v _ _ rfl
  refine ⟨(hsame _).trans ?_, (hsame _).trans ?_⟩ <;> cbv

end Shelves

end Registry

end Missive
