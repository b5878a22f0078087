import Mathlib
import Missive.Proofs.Position
import Missive.Proofs.Validation

/-!
# Errors of the limit

Decoding looks at the limit before it looks at the shape of a node. So a node that is no container
is refused as too deep, although it nests nothing, where a message or an array is declared for it
and as many containers as the limit allows stand around it. There is no other such case: all other
trees that are refused as too deep are nested beyond the limit.

* `Tree.length_add_nesting_le`: a node is nested less than the tree by the steps that lead to it.
* `Registry.LacksContainerAtLimit`: the trees that are refused although they keep to the limit;
  `Registry.nesting_of_depthExceeded` says that there are no others.
* `Registry.exists_depthExceeded`: the tree that leads to a container that is declared at the limit,
  but has none there.
-/

namespace Missive

open Outcome

namespace Tree

/-- A node is nested less than the tree by the steps that lead to it. -/
theorem length_add_nesting_le {t node : Tree} {steps : List Step} (h : t.at? steps = some node) :
    steps.length + node.nesting ≤ t.nesting := by
  induction steps generalizing t with
  | nil =>
    cases h
    simp
  | cons s steps ih =>
    obtain ⟨child, hchild, hrest⟩ := Option.bind_eq_some_iff.1 h
    have hle := ih hrest
    have hlt : child.nesting < t.nesting := by
      unfold child? at hchild
      split at hchild
      · exact nesting_lt_of_mem (mem_of_lookup hchild)
      · exact nesting_lt_of_item (List.mem_of_getElem? hchild)
      · cases hchild
    rw [List.length_cons]
    omega

end Tree

theorem FieldTable.nesting_sole {table : FieldTable} {spec : FieldSpec} (hs : spec ∈ table.specs)
    (node : Tree) :
    (Tree.object (table.sole spec.name fun _ => node)).nesting = node.nesting + 1 := by
  have hmem : (spec.name, node) ∈ table.sole spec.name fun _ => node :=
    List.mem_map.2 ⟨spec, hs, by simp⟩
  have hle : Tree.nestingOfMembers (table.sole spec.name fun _ => node) ≤ node.nesting := by
    rw [Tree.nestingOfMembers_le_iff, sole, List.forall_mem_map]
    intro spec' _
    dsimp only
    split
    · exact Nat.le_refl _
    · exact Nat.zero_le _
  have hlt := Tree.nesting_lt_of_mem hmem
  rw [Tree.nesting] at hlt ⊢
  dsimp only at hlt
  omega

namespace Registry

variable {μ : Type} {R : Registry (Factory (Except Error) μ)}

/-- The factories do not report limits of their own. -/
def FactoriesUnlimited (R : Registry (Factory (Except Error) μ)) : Prop :=
  ∀ x ∈ R.types, ∀ fields m, x.2.factory fields ≠ .error (.depthExceeded m)

/-- As many steps as the limit allows lead to a node that is no container, but is declared to be
    one. -/
def LacksContainerAtLimit (R : Registry (Factory (Except Error) μ)) (d : Descriptor) (t : Tree) :
    Prop :=
  ∃ steps node e, t.at? steps = some node ∧ R.descriptorAt? d steps = some e ∧
    steps.length = R.options.maxDepth.toNat ∧ node.isNull = false ∧ node.nesting = 0 ∧
    e ≠ .primitive

/-! ## What is refused -/

/-- If decoding inside of a tree reports the limit, it is the limit of the registry. Some steps lead
    to a node that is nested beyond it, or to one that stands at it and for which no leaf is
    declared. -/
theorem depthExceeded_of_fails (hR : R.DistinctFields) (hf : R.FactoriesUnlimited) {root t : Tree}
    {declared d : Descriptor} {path : Path} {depth : UInt32} {error : Error}
    (h : R.Fails path depth t d error) (hdepth : depth.toNat = path.steps.length)
    (ht : root.at? path.steps = some t) (hd : R.descriptorAt? declared path.steps = some d)
    {m : UInt32} (herror : error = .depthExceeded m) :
    m = R.options.maxDepth ∧ ∃ steps node e, root.at? steps = some node ∧
      R.descriptorAt? declared steps = some e ∧
      (R.options.maxDepth.toNat < steps.length + node.nesting ∨
        (steps.length = R.options.maxDepth.toNat ∧ node.isNull = false ∧ e ≠ .primitive)) := by
  induction h with
  | leafTooDeep ha =>
    cases herror
    exact ⟨rfl, _, _, _, ht, hd, .inl (hdepth ▸ lt_of_allowsLeaf_eq_false ha)⟩
  | tooDeep hnull hp hlimit =>
    cases herror
    refine ⟨rfl, _, _, _, ht, hd, ?_⟩
    rw [UInt32.lt_iff_toNat_lt] at hlimit
    rcases Nat.eq_or_lt_of_le (Nat.not_lt.1 hlimit) with heq | hlt
    · exact .inr ⟨by omega, hnull, hp⟩
    · exact .inl (by omega)
  | reference hr =>
    subst herror
    exact (isDangling_of_follow hr).elim
  | field hlimit hr hs hl _ ih =>
    refine ih ?_ (Tree.at?_field ht hl) (descriptorAt?_field hd (tableOf?_of_follow hr)
      (FieldTable.get?_of_mem (hR.follow hr) hs)) herror
    rw [toNat_next hlimit, hdepth, Path.field, Path.length_push]
  | factory hr _ he =>
    subst herror
    obtain ⟨type, hmem⟩ := mem_types_of_follow hr
    exact absurd he (hf _ hmem _ _)
  | item hlimit hi _ ih =>
    refine ih ?_ (Tree.at?_index ht hi) (descriptorAt?_index hd _) herror
    rw [toNat_next hlimit, hdepth, Path.index, Path.length_push]
  | _ => cases herror

/-- A tree that is refused as too deep is nested beyond the limit, or just up to it and lacks a
    container there. -/
theorem nesting_of_depthExceeded (hR : R.DistinctFields) (hf : R.FactoriesUnlimited) {t : Tree}
    {d : Descriptor} {m : UInt32} (h : R.decode t d = .error (.depthExceeded m)) :
    m = R.options.maxDepth ∧ (R.options.maxDepth.toNat < t.nesting ∨
      (t.nesting = R.options.maxDepth.toNat ∧ R.LacksContainerAtLimit d t)) := by
  obtain ⟨hm, steps, node, e, hnode, he, hcase⟩ :=
    depthExceeded_of_fails hR hf (fails_of_decodeAt h) rfl rfl rfl rfl
  refine ⟨hm, ?_⟩
  have hle := Tree.length_add_nesting_le hnode
  rcases hcase with hlt | ⟨hlength, hnull, hp⟩
  · exact .inl (by omega)
  · by_cases hbeyond : R.options.maxDepth.toNat < t.nesting
    · exact .inl hbeyond
    · exact .inr ⟨by omega, steps, node, e, hnode, he, hlength, hnull, by omega, hp⟩

/-! ## False alarms -/

/-- If steps lead to a message or an array that is declared at the limit, there is a tree that
    follows them, has no container there, and is refused as too deep. -/
theorem exists_depthExceeded (hR : R.DistinctFields) {d e : Descriptor} {steps : List Step}
    (h : R.descriptorAt? d steps = some e) (he : e ≠ .primitive) {depth : UInt32}
    (hdepth : depth.toNat + steps.length = R.options.maxDepth.toNat) :
    ∃ t : Tree, t.nesting = steps.length ∧
      ∀ path, R.decodeAt path depth t d = .error R.tooDeep := by
  induction steps generalizing d depth with
  | nil =>
    cases h
    have hlimit : ¬depth < R.options.maxDepth := by
      rw [UInt32.lt_iff_toNat_lt]
      simp only [List.length_nil] at hdepth
      omega
    refine ⟨.bool true, rfl, fun path => ?_⟩
    cases e with
    | primitive => exact absurd rfl he
    | message target => rw [decodeAt_message rfl, if_neg hlimit]
    | array element => rw [decodeAt_array rfl, if_neg hlimit]
  | cons s steps ih =>
    obtain ⟨d', hchild, hrest⟩ := Option.bind_eq_some_iff.1 h
    rw [List.length_cons] at hdepth
    have hlimit : depth < R.options.maxDepth := UInt32.lt_iff_toNat_lt.2 (by omega)
    have hnext : (depth + 1).toNat + steps.length = R.options.maxDepth.toNat := by
      rw [toNat_next hlimit]
      omega
    obtain ⟨t, hnesting, ht⟩ := ih hrest hnext
    unfold childType? at hchild
    split at hchild
    · next target name =>
      -- All fields but the one that the step leads to are null.
      simp only [Option.bind_eq_bind, Option.bind_eq_some_iff] at hchild
      obtain ⟨table, htable, spec, hspec, heq⟩ := hchild
      cases heq
      obtain ⟨hs, rfl⟩ := FieldTable.mem_of_get? hspec
      obtain ⟨type, entry, hr, hentry, rfl⟩ := tableOf?_eq_some_iff.1 htable
      refine ⟨.object (entry.fields.sole spec.name fun _ => t), ?_, fun path => ?_⟩
      · rw [FieldTable.nesting_sole hs, hnesting, List.length_cons]
      · rw [decodeAt_message rfl, if_pos hlimit, decodeTarget_object hr hentry]
        exact decodeObject_sole (hR.entry hentry) hs (ht _)
    · cases hchild
      refine ⟨.array [t], ?_, fun path => ?_⟩
      · rw [List.length_cons, ← hnesting]
        simp [Tree.nesting, Tree.nestingOfItems]
      · rw [decodeAt_array rfl, if_pos hlimit]
        exact decodeItems_singleton (ht _)
    · cases hchild

/-- Under a descriptor, only trees that are nested beyond the limit are refused as too deep iff the
    descriptor and the declared fields do not lead, in as many steps as the limit allows, to a
    message or an array. In general, a tree that is refused is nested beyond the limit, or just up
    to it and lacks a container there. -/
theorem depthExceeded_only_beyond_iff (R : Registry (Factory (Except Error) μ)) (hR : R.Reachable)
    (hf : R.FactoriesUnlimited) (d : Descriptor) :
    ((∀ t m, t.nesting < UInt32.size → R.decode t d = .error (.depthExceeded m) →
        R.options.maxDepth.toNat < t.nesting) ↔
      ∀ steps e, R.descriptorAt? d steps = some e →
        steps.length = R.options.maxDepth.toNat → e = .primitive) ∧
    ∀ t m, R.decode t d = .error (.depthExceeded m) → m = R.options.maxDepth ∧
      (R.options.maxDepth.toNat < t.nesting ∨
        (t.nesting = R.options.maxDepth.toNat ∧ R.LacksContainerAtLimit d t)) := by
  have hbeyond := fun t m =>
    nesting_of_depthExceeded (t := t) (d := d) (m := m) hR.distinctFields hf
  refine ⟨⟨fun honly steps e he hlength => ?_, fun hleaf t m _ h => ?_⟩, hbeyond⟩
  · by_contra hp
    have hdepth : (0 : UInt32).toNat + steps.length = R.options.maxDepth.toNat := by
      simpa using hlength
    obtain ⟨t, hnesting, ht⟩ := exists_depthExceeded hR.distinctFields he hp hdepth
    have hsize : R.options.maxDepth.toNat < UInt32.size := R.options.maxDepth.toNat_lt
    have hlt := honly t R.options.maxDepth (by omega) (ht .root)
    omega
  · rcases (hbeyond t m h).2 with hlt | ⟨_, steps, node, e, _, he, hlength, _, _, hp⟩
    · exact hlt
    · exact absurd (hleaf steps e he hlength) hp

/-- Rows of nodes that may be nested twice. -/
def shallowRows : Registry (Factory (Except Error) Unit) :=
  (rowsRegistry "Node").perform (.setOptions { maxDepth := 2 })

/-- Under an array of leaves, only trees that are nested more than twice are refused as too deep.
    Under a node this is not so: an array is declared for its rows, two levels down. -/
theorem depthExceeded_only_beyond_iff_rows :
    (∀ t m, t.nesting < UInt32.size →
      shallowRows.decode t (.array .primitive) = .error (.depthExceeded m) → 2 < t.nesting) ∧
    ¬∀ t m, t.nesting < UInt32.size →
      shallowRows.decode t (.message (.named "Node")) = .error (.depthExceeded m) →
        2 < t.nesting := by
  have hR : shallowRows.Reachable := .call _ (rowsRegistry_reachable "Node")
  have hf : shallowRows.FactoriesUnlimited := List.forall_mem_singleton.2 fun _ _ h => by cases h
  refine ⟨(depthExceeded_only_beyond_iff shallowRows hR hf (.array .primitive)).1.2 ?_, ?_⟩
  · rintro (_ | ⟨s, _ | ⟨s', _ | ⟨s'', steps⟩⟩⟩) e he hlength
    · cases hlength
    · cases hlength
    · cases s <;> cases he
    · cases hlength
  · intro honly
    have hleaf := (depthExceeded_only_beyond_iff shallowRows hR hf
      (.message (.named "Node"))).1.1 honly [.field "rows", .index 0]
    cases hleaf _ rfl rfl

/-- A truth value in place of a row is refused as too deep, although the limit is one level and the
    tree has no more. -/
theorem depthExceeded_within_limit :
    let R : Registry (Factory (Except Error) Unit) := { options := { maxDepth := 1 } }
    let t : Tree := .array [.bool true]
    R.FactoriesUnlimited ∧ t.nesting = 1 ∧
    R.decode t (.array (.array .primitive)) = .error (.depthExceeded 1) := by
  refine ⟨by simp [FactoriesUnlimited], rfl, ?_⟩
  cbv

end Registry

end Missive
