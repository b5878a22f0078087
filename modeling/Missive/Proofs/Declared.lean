import Mathlib
import Missive.Proofs.Canonical
import Missive.Proofs.Decode
import Missive.Proofs.Sample.Factories

/-!
# What decoding looks at

Decoding looks at the declared part of a tree only. A tree and its canonical form are decoded to
the same value or fail with the same error, unless keys that are not declared are denied and the
tree has one: this is the one thing that its canonical form cannot tell.

* `Registry.decodeObject_agrees`: two objects are decoded alike if their declared fields are.
* `Registry.decodeAt_canon`: a tree and its canonical form, by induction over the tree.
* `Registry.Edit.decodeAt_agrees`: a tree and what an edit makes of it, by induction over the edit.
  The edited tree has no keys that the tree does not have, so none is denied that was not.
-/

namespace Missive.Registry

open Outcome
open Relation (ReflTransGen)
open Sample (Foo.fields sampleRegistry sampleRegistry_entry sampleRegistry_reachable
  sampleRegistry_resolve)

variable {μ : Type} {R : Registry (Factory (Except Error) μ)}

/-- The error of a denied key. -/
def IsDenial (R : Registry (Factory (Except Error) μ)) (e : Error) : Prop :=
  R.options.denyUnknownFields = true ∧ ∃ path key, e = .unknownField path key

/-- The tree and its canonical form are decoded with the same outcome, unless the tree has a
    denied key. -/
def CanonAgrees (R : Registry (Factory (Except Error) μ)) (t : Tree) : Prop :=
  ∀ d path depth, AgreesUnless R.IsDenial (R.decodeAt path depth t d)
    (R.decodeAt path depth (R.canon d t) d)

theorem agrees_of_canon_eq {t : Tree} {d : Descriptor} (h : R.canon d t = t) (path : Path)
    (depth : UInt32) : AgreesUnless R.IsDenial (R.decodeAt path depth t d)
      (R.decodeAt path depth (R.canon d t) d) := by
  rw [h]
  exact .refl _

variable {path : Path} {depth : UInt32} {members members' : List (String × Tree)}

/-- Two objects are decoded alike if their declared fields are and the second one has a denied key
    only if the first one does. -/
theorem decodeObject_agrees {entry : TypeEntry (Factory (Except Error) μ)}
    (hkeys : R.deniedKey? entry.fields members = none →
      R.deniedKey? entry.fields members' = none)
    (h : ∀ spec ∈ entry.fields.specs, AgreesUnless R.IsDenial
      (R.decodeField path depth members spec) (R.decodeField path depth members' spec)) :
    AgreesUnless R.IsDenial (R.decodeObject path depth entry members)
      (R.decodeObject path depth entry members') := by
  unfold decodeObject
  cases hk : R.deniedKey? entry.fields members with
  | some key =>
    -- The second object may have lost the key, so this is where the outcomes may differ.
    exact .inr ⟨_, rfl, (deniedKey?_eq_some hk).1, path, key, rfl⟩
  | none =>
    rw [hkeys hk]
    exact (AgreesUnless.mapM h).bind fun _ => .refl _

/-- Under a reference, nodes are decoded alike if they are objects that are. -/
theorem decodeAt_object_agrees {target : TypeRef} {type : MessageType}
    {entry : TypeEntry (Factory (Except Error) μ)} (hr : R.resolve target = .ok type)
    (he : R.entry type = .ok entry)
    (h : AgreesUnless R.IsDenial (R.decodeObject path depth entry members)
      (R.decodeObject path depth entry members')) :
    AgreesUnless R.IsDenial (R.decodeAt path depth (.object members) (.message target))
      (R.decodeAt path depth (.object members') (.message target)) := by
  rw [decodeAt_message rfl, decodeAt_message rfl]
  split
  · rw [decodeTarget_object hr he, decodeTarget_object hr he]
    exact h
  · exact .refl _

/-! ## Canonical forms -/

/-- A declared field is read alike from an object and from its canonical form. -/
theorem decodeField_canon {table : FieldTable} (hn : table.names.Nodup)
    (h : ∀ member ∈ members, R.CanonAgrees member.2) {spec : FieldSpec} (hs : spec ∈ table.specs) :
    AgreesUnless R.IsDenial (R.decodeField path depth members spec)
      (R.decodeField path depth (table.specs.filterMap (R.canonField members)) spec) := by
  unfold decodeField
  rw [lookup_canon hn members hs]
  unfold canonField
  cases hl : members.lookup spec.name with
  | some node => exact (h _ (Tree.mem_of_lookup hl) _ _ _).bind fun _ => .refl _
  | none =>
    rw [Option.map_none]
    dsimp only
    split
    · -- The null that stands for the absent field is decoded to what the absent field is.
      exact .inl (congrArg (· >>= fun value => pure (spec.name, value)) decodeAt_null)
    · exact .refl _

theorem decodeItems_canon {items : List Tree} (h : ∀ t ∈ items, R.CanonAgrees t)
    (element : Descriptor) :
    AgreesUnless R.IsDenial (R.decodeItems path depth (.array items) element)
      (R.decodeItems path depth (.array (items.map (R.canon element))) element) := by
  unfold decodeItems
  dsimp only
  rw [List.zipIdx_map, List.mapM_map]
  refine AgreesUnless.bind (AgreesUnless.mapM ?_) fun values => .refl _
  rintro ⟨t, i⟩ hmem
  exact h t (List.fst_mem_of_mem_zipIdx hmem) _ _ _

/-- A tree and its canonical form are decoded alike. -/
theorem decodeAt_canon (hR : R.DistinctFields) (t : Tree) : R.CanonAgrees t := by
  induction t using Tree.induction with
  | array items ih =>
    intro d path depth
    cases d with
    | array element =>
      rw [canon_array, decodeAt_array rfl, decodeAt_array rfl]
      split
      · exact decodeItems_canon ih element
      · exact .refl _
    | primitive => exact agrees_of_canon_eq (canon_primitive _) path depth
    | message target => exact agrees_of_canon_eq (canon_message_array _ _) path depth
  | object members ih =>
    intro d path depth
    cases d with
    | message target =>
      cases ht : R.tableOf? target with
      | none => exact agrees_of_canon_eq (canon_of_tableOf?_eq_none ht _) path depth
      | some table =>
        obtain ⟨type, entry, hr, he, rfl⟩ := tableOf?_eq_some_iff.1 ht
        rw [canon_object ht]
        refine decodeAt_object_agrees hr he (decodeObject_agrees (fun _ => ?_) fun spec hs => ?_)
        · exact deniedKey?_eq_none fun _ => mem_names_of_mem_canon entry.fields
        · exact decodeField_canon (hR.entry he) ih hs
    | primitive => exact agrees_of_canon_eq (canon_primitive _) path depth
    | array element => exact agrees_of_canon_eq (canon_array_object _ _) path depth
  | _ => exact fun d => agrees_of_canon_eq (canon_of_nesting_eq_zero rfl d)

/-! ## Edits -/

theorem decodeField_congr {spec : FieldSpec}
    (h : members.lookup spec.name = members'.lookup spec.name) :
    R.decodeField path depth members' spec = R.decodeField path depth members spec := by
  rw [decodeField, decodeField, h]

/-- A tree is decoded as what an edit makes of it is, unless the tree has a denied key. -/
theorem Edit.decodeAt_agrees (hR : R.DistinctFields) {d : Descriptor} {t t' : Tree}
    (h : R.Edit d t t') (path : Path) (depth : UInt32) :
    AgreesUnless R.IsDenial (R.decodeAt path depth t d) (R.decodeAt path depth t' d) := by
  induction h generalizing path depth with
  | permute ht hn hp =>
    obtain ⟨type, entry, hr, he, rfl⟩ := tableOf?_eq_some_iff.1 ht
    refine decodeAt_object_agrees hr he (decodeObject_agrees ?_ fun spec _ => .inl ?_)
    · exact deniedKey?_eq_none_of_subset fun key hkey => (hp.map _).symm.subset hkey
    · exact decodeField_congr (Tree.lookup_perm hn hp spec.name)
  | @remove target table before after key node ht hk =>
    obtain ⟨type, entry, hr, he, rfl⟩ := tableOf?_eq_some_iff.1 ht
    refine decodeAt_object_agrees hr he (decodeObject_agrees ?_ fun spec hs => .inl ?_)
    · refine deniedKey?_eq_none_of_subset fun other hother => ?_
      have hsub : (before ++ after).Sublist (before ++ (key, node) :: after) :=
        .append_left (List.sublist_cons_self _ _) before
      exact (hsub.map _).subset hother
    · exact decodeField_congr (lookup_remove hk hs)
  | @field target table before after spec node node' ht hs _ ih =>
    obtain ⟨type, entry, hr, he, rfl⟩ := tableOf?_eq_some_iff.1 ht
    refine decodeAt_object_agrees hr he (decodeObject_agrees ?_ fun spec' hs' => ?_)
    · exact deniedKey?_eq_none_of_subset fun key hkey => by simpa using hkey
    rcases Tree.lookup_replace spec.name node node' spec'.name with heq | ⟨hname, hl, hl'⟩
    · exact .inl (decodeField_congr heq)
    · -- Only the edited field has this name.
      obtain rfl := List.inj_on_of_nodup_map (hR.entry he) hs' hs hname
      rw [decodeField, decodeField, hl, hl']
      exact (ih _ _).bind fun _ => .refl _
  | @item element before after t t' _ ih =>
    rw [decodeAt_array rfl, decodeAt_array rfl]
    split
    · unfold decodeItems
      refine AgreesUnless.bind ?_ fun values => .refl _
      rw [List.zipIdx_append, List.zipIdx_append, List.zipIdx_cons, List.zipIdx_cons,
        List.mapM_append, List.mapM_append, List.mapM_cons, List.mapM_cons]
      refine (AgreesUnless.refl _).bind fun _ => ?_
      exact ((ih _ _).bind fun _ => .refl _).bind fun _ => .refl _
    · exact .refl _

/-! ## The declared part -/

theorem decode_canon_of_not_denial (hR : R.DistinctFields) {t : Tree} {d : Descriptor}
    (h : ∀ e, R.decode t d = .error e → ¬ R.IsDenial e) :
    R.decode (R.canon d t) d = R.decode t d := by
  rcases decodeAt_canon hR t d .root 0 with heq | ⟨e, he, hdenial⟩
  · exact heq
  · exact absurd hdenial (h e he)

theorem canon_eq_of_edits (hR : R.DistinctFields) {d : Descriptor} {t t' : Tree}
    (h : Relation.EqvGen (R.Edit d) t t') : R.canon d t = R.canon d t' := by
  induction h with
  | rel _ _ h => exact h.canon_eq hR
  | refl _ => rfl
  | symm _ _ _ ih => exact ih.symm
  | trans _ _ _ _ _ ih ih' => exact ih.trans ih'

/-- A tree that is not refused for a denied key is decoded as what edits make of it. -/
theorem decode_eq_of_edits (hR : R.DistinctFields) {d : Descriptor} {t t' : Tree}
    (h : ReflTransGen (R.Edit d) t t') (ht : ∀ e, R.decode t d = .error e → ¬R.IsDenial e) :
    R.decode t d = R.decode t' d := by
  induction h with
  | refl => rfl
  | tail _ hedit ih =>
    -- The trees so far have the same outcome, so the last of them is not refused either.
    rcases hedit.decodeAt_agrees hR .root 0 with heq | ⟨e, he, hdenial⟩
    · exact ih.trans heq.symm
    · exact absurd hdenial (ht e (ih.trans he))

/-- A tree is decoded as its canonical form is, and edits of the tree change nothing: neither the
    value nor, if there is none, the error. Where keys that are not declared are denied, this is
    said of the trees that are not refused for such a key. If keys are only permuted and removed, it
    is enough that the tree is not before that. -/
theorem decode_declared_part (R : Registry (Factory (Except Error) μ)) (hR : R.Reachable)
    (d : Descriptor) :
    (R.options.denyUnknownFields = false →
      (∀ t, R.decode (R.canon d t) d = R.decode t d) ∧
      ∀ t t', Relation.EqvGen (R.Edit d) t t' → R.decode t d = R.decode t' d) ∧
    (R.options.denyUnknownFields = true →
      (∀ t, (∀ path key, R.decode t d ≠ .error (.unknownField path key)) →
        R.decode (R.canon d t) d = R.decode t d) ∧
      (∀ t t', ReflTransGen (R.Edit d) t t' →
        (∀ path key, R.decode t d ≠ .error (.unknownField path key)) →
        R.decode t d = R.decode t' d) ∧
      ∀ t t', Relation.EqvGen (R.Edit d) t t' →
        (∀ path key, R.decode t d ≠ .error (.unknownField path key)) →
        (∀ path key, R.decode t' d ≠ .error (.unknownField path key)) →
        R.decode t d = R.decode t' d) := by
  -- Nothing is asked of the tree where no key is denied.
  have hcanon : ∀ t, (R.options.denyUnknownFields = true → ∀ path key,
      R.decode t d ≠ .error (.unknownField path key)) →
      R.decode (R.canon d t) d = R.decode t d := by
    intro t ht
    refine decode_canon_of_not_denial hR.distinctFields ?_
    rintro _ he ⟨hdeny, path, key, rfl⟩
    exact ht hdeny path key he
  have hedits : ∀ t t', Relation.EqvGen (R.Edit d) t t' →
      R.decode (R.canon d t) d = R.decode (R.canon d t') d :=
    fun t t' h => by rw [canon_eq_of_edits hR.distinctFields h]
  constructor
  · intro hdeny
    have hfree : ∀ t, R.decode (R.canon d t) d = R.decode t d := fun t =>
      hcanon t fun h => absurd (hdeny.symm.trans h) Bool.false_ne_true
    exact ⟨hfree, fun t t' h => (hfree t).symm.trans ((hedits t t' h).trans (hfree t'))⟩
  · intro _
    refine ⟨fun t ht => hcanon t fun _ => ht, fun t t' h ht => ?_, fun t t' h ht ht' => ?_⟩
    · refine decode_eq_of_edits hR.distinctFields h ?_
      rintro _ he ⟨_, path, key, rfl⟩
      exact ht path key he
    · exact (hcanon t fun _ => ht).symm.trans ((hedits t t' h).trans (hcanon t' fun _ => ht'))

/-- A key that is not declared makes no difference unless it is denied, and the order of the
    declared keys makes none either way. -/
theorem decode_declared_part_foo :
    let foo : Value Sample.Instance := .message (.foo ⟨none, []⟩)
    (sampleRegistry {}).decode (.object [("bar", .array []), ("extra", .null)])
        (.message (.named "Foo")) = .ok foo ∧
    (sampleRegistry {}).decode (.object [("bar", .array [])]) (.message (.named "Foo")) =
      .ok foo ∧
    (sampleRegistry .strict).decode (.object [("bar", .array []), ("x", .null)])
        (.message (.named "Foo")) = .ok foo ∧
    (sampleRegistry .strict).decode (.object [("x", .null), ("bar", .array [])])
        (.message (.named "Foo")) = .ok foo := by
  intro foo
  have htable : ∀ o, (sampleRegistry o).tableOf? (.named "Foo") = some Foo.fields := fun o =>
    tableOf?_eq_some_iff.2 ⟨_, _, sampleRegistry_resolve rfl, sampleRegistry_entry rfl, rfl⟩
  have hremove : (sampleRegistry {}).Edit (.message (.named "Foo"))
      (.object ([("bar", .array [])] ++ ("extra", .null) :: []))
      (.object ([("bar", .array [])] ++ [])) := .remove (htable {}) (by decide)
  have hpermute : (sampleRegistry .strict).Edit (.message (.named "Foo"))
      (.object [("bar", .array []), ("x", .null)]) (.object [("x", .null), ("bar", .array [])]) :=
    .permute (htable .strict) (by decide) (.swap ..)
  have hplain : (sampleRegistry {}).decode (.object [("bar", .array [])])
      (.message (.named "Foo")) = .ok foo := by cbv
  have hstrict : (sampleRegistry .strict).decode (.object [("bar", .array []), ("x", .null)])
      (.message (.named "Foo")) = .ok foo := by cbv
  obtain ⟨hloose, _⟩ := decode_declared_part (sampleRegistry {}) sampleRegistry_reachable
    (.message (.named "Foo"))
  obtain ⟨_, hdenying⟩ := decode_declared_part (sampleRegistry .strict) sampleRegistry_reachable
    (.message (.named "Foo"))
  refine ⟨((hloose rfl).2 _ _ (.rel _ _ hremove)).trans hplain, hplain, hstrict, ?_⟩
  refine ((hdenying rfl).2.1 _ _ (.single hpermute) ?_).symm.trans hstrict
  intro path key h
  cases hstrict.symm.trans h

end Missive.Registry
