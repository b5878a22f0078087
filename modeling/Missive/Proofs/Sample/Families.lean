import Missive.Proofs.RoundTrip
import Missive.Proofs.Sample.Factories

/-!
# Families of sample messages

Two families of instances that the sample registry covers, each with the leaves that may stand in
them:

* the *plain* messages, whose leaves are scalars;
* the *regular* messages, which may also have floats and trees as leaves, and drawings if all
  their shapes are circles: this is what the name `Shape` is bound to.
-/

namespace Missive

/-! ## Fields that fit -/

namespace View

variable {φ μ : Type} [Message μ] {R : Registry φ} {leaf : Tree → Prop} {family : μ → Prop}

/-- What fits still does if more leaves and more messages may stand in it. -/
theorem Fits.mono {leaf' : Tree → Prop} {family' : μ → Prop} (hl : ∀ t, leaf t → leaf' t)
    (hf : ∀ m, family m → family' m) {d : Descriptor} {view : View μ}
    (h : view.Fits R leaf family d) : view.Fits R leaf' family' d := by
  induction d generalizing view with
  | primitive =>
    cases view with
    | leaf t => exact hl t h
    | _ => trivial
  | message target =>
    cases view with
    | message m => exact ⟨h.1, hf m h.2⟩
    | _ => trivial
  | array element ih =>
    cases view with
    | array items => exact fun v hv => ih (h v hv)
    | _ => trivial

theorem fits_list {α : Type} [ToView μ α] {as : List α} {element : Descriptor}
    (h : ∀ a ∈ as, (toView a : View μ).Fits R leaf family element) :
    (toView as : View μ).Fits R leaf family (.array element) := by
  intro v hv
  obtain ⟨a, ha, rfl⟩ := List.mem_map.1 hv
  exact h a ha

/-- An absent field fits whatever is declared, being seen as null. -/
theorem fits_option {α : Type} [ToView μ α] {a? : Option α} {d : Descriptor}
    (h : ∀ a, a? = some a → (toView a : View μ).Fits R leaf family d) :
    (toView a? : View μ).Fits R leaf family d := by
  cases a? with
  | none => cases d <;> trivial
  | some a => exact h a rfl

/-- Of a float that is not finite nothing is asked, there being no leaf. -/
theorem fits_float (x : Float) :
    (toView x : View μ).Fits R (·.isNull = false) family .primitive := by
  change (View.ofFloat x).Fits R _ family _
  unfold View.ofFloat
  cases Number.ofFloat? x <;> trivial

theorem fits_tree (t : Tree) :
    (toView t : View μ).Fits R (·.isNull = false) family .primitive := by
  cases t <;> trivial

end View

theorem BoundedInt.scalar_toNumber {k : IntKind} (n : BoundedInt k) :
    (Tree.number n.toNumber).Scalar := by
  unfold BoundedInt.toNumber Number.ofSigned
  split
  · split <;> trivial
  · trivial

theorem Tag.scalar_toTree (tag : Tag) : tag.toTree.Scalar := by
  cases tag with
  | int n => exact n.scalar_toNumber
  | text s => trivial

namespace Sample

open View (fits_float fits_list fits_option fits_tree)

namespace Instance

/-- The messages whose leaves are scalars. -/
def Plain : Instance → Prop
  | bar _ | foo _ | treeNode _ | team _ | person _ | task _ => True
  | _ => False

/-- The messages of the registered types. Of the drawings, those that show circles only. -/
def Regular : Instance → Prop
  | reading _ | circle _ | square _ => True
  | drawing m => ∀ shape ∈ m.shapes, ∃ c, shape = circle c
  | m => m.Plain

theorem Plain.regular {m : Instance} (h : m.Plain) : m.Regular := by
  cases m with
  | drawing m => exact h.elim
  | reading m | circle m | square m => trivial
  | _ => exact h

end Instance

variable {o : Options}

/-- The sample registry covers the plain messages: each is rebuilt by the factory of its type, and
    the fields are what the table declares. -/
theorem covers_plain : (sampleRegistry o).Covers Tree.Scalar Instance.Plain := by
  intro m hm
  cases m with
  | bar m =>
    refine ⟨entryOf bar, sampleRegistry_entry rfl, rebuilds_bar m, ?_⟩
    exact List.forall_mem_singleton.2 ⟨_, rfl, m.y.scalar_toNumber⟩
  | foo m =>
    refine ⟨entryOf foo, sampleRegistry_entry rfl, rebuilds_foo m, ?_⟩
    refine List.forall_mem_cons.2 ⟨⟨_, rfl, fits_option fun x _ => x.scalar_toNumber⟩, ?_⟩
    refine List.forall_mem_singleton.2 ⟨_, rfl, fits_list fun row _ => fits_list fun bar _ => ?_⟩
    exact ⟨sampleRegistry_resolve rfl, trivial⟩
  | treeNode m =>
    refine ⟨entryOf treeNode, sampleRegistry_entry rfl, rebuilds_treeNode m, ?_⟩
    refine List.forall_mem_cons.2 ⟨⟨_, rfl, trivial⟩, ?_⟩
    refine List.forall_mem_singleton.2 ⟨_, rfl, fits_list fun child _ => ?_⟩
    exact ⟨sampleRegistry_resolve rfl, trivial⟩
  | team m =>
    refine ⟨entryOf team, sampleRegistry_entry rfl, rebuilds_team m, ?_⟩
    refine List.forall_mem_cons.2 ⟨⟨_, rfl, trivial⟩, ?_⟩
    refine List.forall_mem_cons.2 ⟨⟨_, rfl, fits_option fun lead _ => ?_⟩, ?_⟩
    · exact ⟨sampleRegistry_resolve rfl, trivial⟩
    refine List.forall_mem_singleton.2 ⟨_, rfl, fits_list fun member _ => ?_⟩
    exact ⟨sampleRegistry_resolve rfl, trivial⟩
  | person m =>
    refine ⟨entryOf person, sampleRegistry_entry rfl, rebuilds_person m, ?_⟩
    refine List.forall_mem_cons.2 ⟨⟨_, rfl, trivial⟩, ?_⟩
    refine List.forall_mem_cons.2 ⟨⟨_, rfl, m.age.scalar_toNumber⟩, ?_⟩
    refine List.forall_mem_singleton.2 ⟨_, rfl, fits_option fun team _ => ?_⟩
    exact ⟨sampleRegistry_resolve rfl, trivial⟩
  | task m =>
    refine ⟨entryOf task, sampleRegistry_entry rfl, rebuilds_task m, ?_⟩
    refine List.forall_mem_cons.2 ⟨⟨_, rfl, trivial⟩, ?_⟩
    refine List.forall_mem_cons.2 ⟨⟨_, rfl, m.priority.tag.scalar_toTree⟩, ?_⟩
    refine List.forall_mem_cons.2 ⟨⟨_, rfl, fits_option fun s _ => s.tag.scalar_toTree⟩, ?_⟩
    exact List.forall_mem_singleton.2 ⟨_, rfl, fits_list fun s _ => s.tag.scalar_toTree⟩
  | _ => exact hm.elim

/-- The sample registry covers the regular messages, with any leaf but null in them. -/
theorem covers_regular : (sampleRegistry o).Covers (·.isNull = false) Instance.Regular := by
  intro m hm
  by_cases hp : m.Plain
  · obtain ⟨entry, he, hbuild, hfits⟩ := covers_plain m hp
    refine ⟨entry, he, hbuild, fun spec hs => ?_⟩
    obtain ⟨v, hv, hfit⟩ := hfits spec hs
    exact ⟨v, hv, hfit.mono (fun _ => Tree.Scalar.isNull) fun _ => Instance.Plain.regular⟩
  cases m with
  | reading m =>
    refine ⟨entryOf reading, sampleRegistry_entry rfl, rebuilds_reading m, ?_⟩
    refine List.forall_mem_cons.2 ⟨⟨_, rfl, rfl⟩, ?_⟩
    refine List.forall_mem_cons.2 ⟨⟨_, rfl, fits_float m.value⟩, ?_⟩
    refine List.forall_mem_cons.2 ⟨⟨_, rfl, rfl⟩, ?_⟩
    refine List.forall_mem_cons.2 ⟨⟨_, rfl, rfl⟩, ?_⟩
    exact List.forall_mem_singleton.2 ⟨_, rfl, fits_tree m.attrs⟩
  | circle m =>
    refine ⟨entryOf circle, sampleRegistry_entry rfl, rebuilds_circle m, ?_⟩
    exact List.forall_mem_singleton.2 ⟨_, rfl, fits_float m.radius⟩
  | square m =>
    refine ⟨entryOf square, sampleRegistry_entry rfl, rebuilds_square m, ?_⟩
    refine List.forall_mem_cons.2 ⟨⟨_, rfl, fits_float m.side⟩, ?_⟩
    exact List.forall_mem_singleton.2 ⟨_, rfl, fits_float m.angle⟩
  | drawing m =>
    refine ⟨entryOf drawing, sampleRegistry_entry rfl, rebuilds_drawing m, ?_⟩
    refine List.forall_mem_singleton.2 ⟨_, rfl, fits_list fun shape hshape => ?_⟩
    -- The reference is to `Shape`, whatever the shape is.
    obtain ⟨c, rfl⟩ := hm shape hshape
    exact ⟨sampleRegistry_resolve rfl, trivial⟩
  | _ => exact absurd hm hp

end Sample

end Missive
