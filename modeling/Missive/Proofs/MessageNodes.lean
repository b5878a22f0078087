import Mathlib.Data.List.Nodup
import Missive.Proofs.Failure
import Missive.Proofs.Position

/-!
# Message nodes

The nodes of a tree that messages are built from: the objects to which declared fields and array
elements lead, where the declared reference leads to a registered type. They are listed bottom-up:
the elements of an array by their index, the fields of an object in the order of its table, and an
object after all that it contains.

* `Registry.messageNodes`: the list.
* `Registry.mem_messageNodes_iff`: it has the message nodes of the tree, and no others.
* `Registry.messageNodes_ordered`: it is in the order that is said above (`Registry.Precedes`); so
  it has each of them once (`Registry.messageNodes_nodup`).
-/

namespace Missive

/-- A node that a message is built from: where it is, and of which type the message is. -/
structure MessageNode where
  path : Path
  type : MessageType

/-! ## Steps from one node -/

namespace Path

/-- What lies beyond two steps from the same node lies beyond one step. -/
theorem step_eq_of_prefix {p q : Path} {s s' : Step} (h : (p.push s).steps <+: q.steps)
    (h' : (p.push s').steps <+: q.steps) : s = s' := by
  have hlength : (p.push s).steps.length = (p.push s').steps.length := by simp [push]
  have heq := (List.prefix_of_prefix_length_le h h' (Nat.le_of_eq hlength)).eq_of_length hlength
  exact (List.cons.inj (List.append_cancel_left heq)).1

end Path

namespace Registry

open Outcome

variable {φ : Type} {R : Registry φ}

/-- The type that is referred to, with its table, if it is registered. -/
def targetOf? (R : Registry φ) (target : TypeRef) : Option (MessageType × FieldTable) := do
  let type ← (R.resolve target).toOption
  let table ← (R.lookupFields type).toOption
  return (type, table)

theorem targetOf?_eq_some_iff {target : TypeRef} {type : MessageType} {table : FieldTable} :
    R.targetOf? target = some (type, table) ↔
      R.resolve target = .ok type ∧ R.lookupFields type = .ok table := by
  simp only [targetOf?, Option.bind_eq_bind, Option.bind_eq_some_iff, toOption_eq_some_iff,
    Option.pure_def, Option.some.injEq, Prod.mk.injEq]
  constructor
  · rintro ⟨_, hr, _, hl, rfl, rfl⟩
    exact ⟨hr, hl⟩
  · rintro ⟨hr, hl⟩
    exact ⟨type, hr, table, hl, rfl, rfl⟩

/-- The message nodes of a tree that stands at a path, bottom-up. -/
def messageNodes (R : Registry φ) (path : Path) (d : Descriptor) (t : Tree) : List MessageNode :=
  match d, t with
  | .array element, .array items =>
    items.zipIdx.attach.flatMap fun ⟨(t, i), _⟩ => R.messageNodes (path.index i) element t
  | .message target, .object members =>
    match R.targetOf? target with
    | some (type, table) =>
      (table.specs.flatMap fun spec =>
        match _ : members.lookup spec.name with
        | some node => R.messageNodes (path.field spec.name) spec.type node
        | none => []) ++ [⟨path, type⟩]
    | none => []
  | _, _ => []
termination_by sizeOf t
decreasing_by
  · exact Tree.sizeOf_item_lt (List.fst_mem_of_mem_zipIdx ‹_›)
  · exact Tree.sizeOf_member_lt (Tree.mem_of_lookup ‹_›)

/-- The message nodes of a declared field. -/
def fieldNodes (R : Registry φ) (path : Path) (members : List (String × Tree)) (spec : FieldSpec) :
    List MessageNode :=
  match members.lookup spec.name with
  | some node => R.messageNodes (path.field spec.name) spec.type node
  | none => []

/-! ## Equations -/

theorem messageNodes_array (path : Path) (element : Descriptor) (items : List Tree) :
    R.messageNodes path (.array element) (.array items) =
      items.zipIdx.flatMap fun x => R.messageNodes (path.index x.2) element x.1 := by
  rw [messageNodes]
  simp only [List.flatMap_subtype, List.unattach_attach]

theorem messageNodes_object {target : TypeRef} {type : MessageType} {table : FieldTable}
    (h : R.targetOf? target = some (type, table)) (path : Path) (members : List (String × Tree)) :
    R.messageNodes path (.message target) (.object members) =
      table.specs.flatMap (R.fieldNodes path members) ++ [⟨path, type⟩] := by
  rw [messageNodes, h]
  dsimp only
  congr 2
  funext spec
  unfold fieldNodes
  split <;> rename_i hl <;> rw [hl]

theorem messageNodes_of_targetOf?_eq_none {target : TypeRef} (h : R.targetOf? target = none)
    (path : Path) (members : List (String × Tree)) :
    R.messageNodes path (.message target) (.object members) = [] := by
  rw [messageNodes, h]

theorem messageNodes_of_other {path : Path} {d : Descriptor} {t : Tree}
    (ha : ∀ element items, d = .array element → t = .array items → False)
    (hm : ∀ target members, d = .message target → t = .object members → False) :
    R.messageNodes path d t = [] := by
  rw [messageNodes] <;> assumption

/-! ## Where they are -/

/-- The steps lead in the tree to an object, and in the declarations to a reference that leads to
    the type, which is registered. -/
def IsMessageAt (R : Registry φ) (d : Descriptor) (t : Tree) (steps : List Step)
    (type : MessageType) : Prop :=
  ∃ members target table, t.at? steps = some (.object members) ∧
    R.descriptorAt? d steps = some (.message target) ∧ R.resolve target = .ok type ∧
    R.lookupFields type = .ok table

theorem isMessageAt_cons_iff {d : Descriptor} {t : Tree} {s : Step} {steps : List Step}
    {type : MessageType} : R.IsMessageAt d t (s :: steps) type ↔
      ∃ child d', t.child? s = some child ∧ R.childType? d s = some d' ∧
        R.IsMessageAt d' child steps type := by
  unfold IsMessageAt Tree.at? descriptorAt?
  simp only [List.foldlM_cons, Option.bind_eq_bind, Option.bind_eq_some_iff]
  constructor
  · rintro ⟨members, target, table, ⟨child, hc, ht⟩, ⟨d', hd, hdt⟩, hr⟩
    exact ⟨child, d', hc, hd, members, target, table, ht, hdt, hr⟩
  · rintro ⟨child, d', hc, hd, members, target, table, ht, hdt, hr⟩
    exact ⟨members, target, table, ⟨child, hc, ht⟩, ⟨d', hd, hdt⟩, hr⟩

theorem tableOf?_of_targetOf? {target : TypeRef} {type : MessageType} {table : FieldTable}
    (h : R.targetOf? target = some (type, table)) : R.tableOf? target = some table :=
  toOption_eq_some_iff.2 (bind_eq_ok_iff.2 ⟨type, targetOf?_eq_some_iff.1 h⟩)

theorem childType?_field (hR : R.DistinctFields) {target : TypeRef} {type : MessageType}
    {table : FieldTable} (ht : R.targetOf? target = some (type, table)) {spec : FieldSpec}
    (hs : spec ∈ table.specs) :
    R.childType? (.message target) (.field spec.name) = some spec.type := by
  have hnodup := hR.lookupFields (targetOf?_eq_some_iff.1 ht).2
  refine Option.bind_eq_some_iff.2 ⟨table, tableOf?_of_targetOf? ht, ?_⟩
  exact Option.bind_eq_some_iff.2 ⟨spec, FieldTable.get?_of_mem hnodup hs, rfl⟩

/-- A listed node is a message node, and lies beyond the path. -/
theorem isMessageAt_of_mem (hR : R.DistinctFields) {path : Path} {d : Descriptor} {t : Tree}
    {node : MessageNode} (h : node ∈ R.messageNodes path d t) :
    ∃ steps, node.path.steps = path.steps ++ steps ∧ R.IsMessageAt d t steps node.type := by
  induction path, d, t using messageNodes.induct (R := R) with
  | case1 path element items ih =>
    rw [messageNodes_array, List.mem_flatMap] at h
    obtain ⟨⟨t, i⟩, hmem, h⟩ := h
    obtain ⟨steps, hsteps, hnode⟩ := ih t i hmem h
    refine ⟨.index i :: steps, ?_, ?_⟩
    · rw [hsteps, Path.index, Path.push, List.append_assoc]
      rfl
    · exact isMessageAt_cons_iff.2 ⟨t, element, List.mem_zipIdx_iff_getElem?.1 hmem, rfl, hnode⟩
  | case2 path target members type table ht ih =>
    rw [messageNodes_object ht, List.mem_append, List.mem_singleton, List.mem_flatMap] at h
    obtain ⟨hr, hl⟩ := targetOf?_eq_some_iff.1 ht
    rcases h with ⟨spec, hs, h⟩ | rfl
    · unfold fieldNodes at h
      split at h
      · next child hchild =>
        obtain ⟨steps, hsteps, hnode⟩ := ih spec child hchild h
        refine ⟨.field spec.name :: steps, ?_, ?_⟩
        · rw [hsteps, Path.field, Path.push, List.append_assoc]
          rfl
        · exact isMessageAt_cons_iff.2 ⟨child, spec.type, hchild, childType?_field hR ht hs, hnode⟩
      · exact absurd h List.not_mem_nil
    · exact ⟨[], (List.append_nil _).symm, members, target, table, rfl, rfl, hr, hl⟩
  | case3 path target members ht =>
    rw [messageNodes_of_targetOf?_eq_none ht] at h
    exact absurd h List.not_mem_nil
  | case4 path d t ha hm =>
    rw [messageNodes_of_other ha hm] at h
    exact absurd h List.not_mem_nil

/-- Each message node is listed. -/
theorem mem_of_isMessageAt {path : Path} {d : Descriptor} {t : Tree} {steps : List Step}
    {type : MessageType} (h : R.IsMessageAt d t steps type) :
    ⟨⟨path.steps ++ steps⟩, type⟩ ∈ R.messageNodes path d t := by
  induction steps generalizing path d t with
  | nil =>
    obtain ⟨members, target, table, ht, hd, hr, hl⟩ := h
    cases ht
    cases hd
    rw [messageNodes_object (targetOf?_eq_some_iff.2 ⟨hr, hl⟩), List.append_nil]
    exact List.mem_append_right _ (List.mem_singleton.2 rfl)
  | cons s steps ih =>
    obtain ⟨child, d', hchild, hd, hnode⟩ := isMessageAt_cons_iff.1 h
    have hmem : ⟨⟨path.steps ++ s :: steps⟩, type⟩ ∈ R.messageNodes (path.push s) d' child := by
      rw [List.append_cons]
      exact ih hnode
    cases s with
    | field name =>
      cases t with
      | object members =>
        cases d with
        | message target =>
          obtain ⟨table, ht, hd⟩ := Option.bind_eq_some_iff.1 hd
          obtain ⟨spec, hget, hd⟩ := Option.bind_eq_some_iff.1 hd
          cases hd
          obtain ⟨type', hr, hl⟩ := bind_eq_ok_iff.1 (toOption_eq_some_iff.1 ht)
          obtain ⟨hs, rfl⟩ := FieldTable.mem_of_get? hget
          rw [messageNodes_object (targetOf?_eq_some_iff.2 ⟨hr, hl⟩)]
          refine List.mem_append_left _ (List.mem_flatMap.2 ⟨spec, hs, ?_⟩)
          rw [fieldNodes, show members.lookup spec.name = some child from hchild]
          exact hmem
        | _ => cases hd
      | _ => cases hchild
    | index i =>
      cases t with
      | array items =>
        cases d with
        | array element =>
          cases hd
          rw [messageNodes_array]
          exact List.mem_flatMap.2 ⟨(child, i), List.mem_zipIdx_iff_getElem?.2 hchild, hmem⟩
        | _ => cases hd
      | _ => cases hchild

/-- The listed nodes of a tree are its message nodes. -/
theorem mem_messageNodes_iff (hR : R.DistinctFields) {d : Descriptor} {t : Tree}
    {node : MessageNode} :
    node ∈ R.messageNodes .root d t ↔ R.IsMessageAt d t node.path.steps node.type := by
  constructor
  · intro h
    obtain ⟨steps, hsteps, hnode⟩ := isMessageAt_of_mem hR h
    rw [hsteps]
    exact hnode
  · intro h
    have hmem : ⟨⟨[] ++ node.path.steps⟩, node.type⟩ ∈ R.messageNodes .root d t :=
      mem_of_isMessageAt h
    exact hmem

/-- The listed nodes lie beyond the path. -/
theorem prefix_of_mem_messageNodes (hR : R.DistinctFields) {path : Path} {d : Descriptor} {t : Tree}
    {node : MessageNode} (h : node ∈ R.messageNodes path d t) :
    path.steps <+: node.path.steps := by
  obtain ⟨steps, hsteps, _⟩ := isMessageAt_of_mem hR h
  exact ⟨steps, hsteps.symm⟩

theorem prefix_of_mem_fieldNodes (hR : R.DistinctFields) {path : Path}
    {members : List (String × Tree)} {spec : FieldSpec} {node : MessageNode}
    (h : node ∈ R.fieldNodes path members spec) :
    (path.field spec.name).steps <+: node.path.steps := by
  unfold fieldNodes at h
  split at h
  · exact prefix_of_mem_messageNodes hR h
  · exact absurd h List.not_mem_nil

/-! ## Their order -/

/-- The order of what steps lead to. What is below a node comes before it; below a node, the items
    of an array come by their index, and the fields of a message in the order of the table. -/
inductive Precedes (R : Registry φ) : Descriptor → List Step → List Step → Prop
  | child {d : Descriptor} {s : Step} {a : List Step} : Precedes R d (s :: a) []
  | items {element : Descriptor} {i j : Nat} {a b : List Step} (h : i < j) :
      Precedes R (.array element) (.index i :: a) (.index j :: b)
  | fields {target : TypeRef} {table : FieldTable} {spec spec' : FieldSpec} {a b : List Step}
      (ht : R.tableOf? target = some table) (h : [spec, spec'].Sublist table.specs) :
      Precedes R (.message target) (.field spec.name :: a) (.field spec'.name :: b)
  | step {d d' : Descriptor} {s : Step} {a b : List Step} (hd : R.childType? d s = some d')
      (h : Precedes R d' a b) : Precedes R d (s :: a) (s :: b)

/-- The first node comes before the second one, both being beyond the path. -/
def PrecedesFrom (R : Registry φ) (path : Path) (d : Descriptor) (x y : MessageNode) : Prop :=
  ∃ a b, x.path.steps = path.steps ++ a ∧ y.path.steps = path.steps ++ b ∧ R.Precedes d a b

theorem PrecedesFrom.step {path : Path} {d d' : Descriptor} {s : Step}
    (hd : R.childType? d s = some d') {x y : MessageNode}
    (h : R.PrecedesFrom (path.push s) d' x y) : R.PrecedesFrom path d x y := by
  obtain ⟨a, b, hx, hy, hab⟩ := h
  refine ⟨s :: a, s :: b, ?_, ?_, .step hd hab⟩
  · rw [hx, List.append_cons]
    rfl
  · rw [hy, List.append_cons]
    rfl

/-- The steps beyond a path, the first of which is known. -/
theorem exists_steps_of_prefix {path q : Path} {s : Step} (h : (path.push s).steps <+: q.steps) :
    ∃ a, q.steps = path.steps ++ s :: a := by
  obtain ⟨a, ha⟩ := h
  exact ⟨a, ha.symm.trans (List.append_cons _ _ _).symm⟩

/-- The message nodes are listed in their order. -/
theorem messageNodes_ordered (hR : R.DistinctFields) (path : Path) (d : Descriptor) (t : Tree) :
    (R.messageNodes path d t).Pairwise (R.PrecedesFrom path d) := by
  induction path, d, t using messageNodes.induct (R := R) with
  | case1 path element items ih =>
    rw [messageNodes_array, List.pairwise_flatMap]
    refine ⟨fun x hx => (ih x.1 x.2 hx).imp (.step rfl), ?_⟩
    have hindices : items.zipIdx.Pairwise fun x y => x.2 < y.2 := by
      rw [← List.pairwise_map (f := Prod.snd) (R := (· < ·)), List.zipIdx_map_snd]
      exact List.pairwise_lt_range'
    refine hindices.imp fun hlt x hx y hy => ?_
    obtain ⟨a, ha⟩ := exists_steps_of_prefix (prefix_of_mem_messageNodes hR hx)
    obtain ⟨b, hb⟩ := exists_steps_of_prefix (prefix_of_mem_messageNodes hR hy)
    exact ⟨_, _, ha, hb, .items hlt⟩
  | case2 path target members type table ht ih =>
    rw [messageNodes_object ht, List.pairwise_append, List.pairwise_flatMap]
    refine ⟨⟨fun spec hs => ?_, ?_⟩, List.pairwise_singleton _ _, fun x hx y hy => ?_⟩
    · unfold fieldNodes
      split
      · next child hchild => exact (ih spec child hchild).imp (.step (childType?_field hR ht hs))
      · exact .nil
    · refine List.pairwise_iff_forall_sublist.2 fun hsub x hx y hy => ?_
      obtain ⟨a, ha⟩ := exists_steps_of_prefix (prefix_of_mem_fieldNodes hR hx)
      obtain ⟨b, hb⟩ := exists_steps_of_prefix (prefix_of_mem_fieldNodes hR hy)
      exact ⟨_, _, ha, hb, .fields (tableOf?_of_targetOf? ht) hsub⟩
    · obtain ⟨spec, _, hx⟩ := List.mem_flatMap.1 hx
      cases List.mem_singleton.1 hy
      obtain ⟨a, ha⟩ := exists_steps_of_prefix (prefix_of_mem_fieldNodes hR hx)
      exact ⟨_, [], ha, (List.append_nil _).symm, .child⟩
  | case3 path target members ht =>
    rw [messageNodes_of_targetOf?_eq_none ht]
    exact .nil
  | case4 path d t ha hm =>
    rw [messageNodes_of_other ha hm]
    exact .nil

/-- Nothing comes before itself. -/
theorem Precedes.ne (hR : R.DistinctFields) {d : Descriptor} {a b : List Step}
    (h : R.Precedes d a b) : a ≠ b := by
  induction h with
  | child => exact List.cons_ne_nil _ _
  | items hlt =>
    intro heq
    exact absurd (Step.index.inj (List.cons.inj heq).1) (Nat.ne_of_lt hlt)
  | fields ht hsub =>
    -- Two fields of a table do not have the same name.
    obtain ⟨type, entry, _, he, rfl⟩ := tableOf?_eq_some_iff.1 ht
    have hnames := List.pairwise_iff_forall_sublist.1 (List.pairwise_map.1 (hR.entry he)) hsub
    intro heq
    exact absurd (Step.field.inj (List.cons.inj heq).1) hnames
  | step _ _ ih =>
    intro heq
    exact ih (List.cons.inj heq).2

/-- Each message node is listed once. -/
theorem messageNodes_nodup (hR : R.DistinctFields) (d : Descriptor) (t : Tree) :
    ((R.messageNodes .root d t).map (·.path)).Nodup := by
  rw [List.Nodup, List.pairwise_map]
  refine (messageNodes_ordered hR .root d t).imp ?_
  rintro x y ⟨a, b, hx, hy, hab⟩ heq
  rw [heq, hy] at hx
  exact hab.ne hR (List.append_cancel_left hx).symm

end Registry

end Missive
