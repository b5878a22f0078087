import Mathlib
import Missive.Proofs.Registrations
import Missive.Proofs.Tracing

/-!
# Calls of factories

Which factories a decoding calls, in which order, and with which fields; where factories may have
a state that they share.

The nodes that decoding comes to are its *visits*: a node is entered from the one that contains it
when all nodes before it there have been decoded (`Registry.Enters`). If a visit fails, so do all
that it was entered from, with the same error (`Registry.Enters.outcome_of_error`); the factories
called until then are at the visit or beside the way to it, and never on the way.

* `Registry.callsOf`: the calls of a visit.
* `Registry.decode_factory_calls`: the calls of a decoding.
-/

namespace Missive

open Outcome
open Relation (ReflTransGen)

variable {σ μ : Type}

/-- The first path is that of a node that contains the node of the second one. -/
def Path.Encloses (p q : Path) : Prop := ∃ s rest, q.steps = p.steps ++ s :: rest

theorem Path.Encloses.isPrefix {p q : Path} (h : p.Encloses q) : p.steps <+: q.steps := by
  obtain ⟨s, rest, hq⟩ := h
  exact ⟨s :: rest, hq.symm⟩

/-- No node contains one that contains it. -/
theorem Path.Encloses.not_isPrefix {p q : Path} (h : p.Encloses q) : ¬ q.steps <+: p.steps := by
  obtain ⟨s, rest, hq⟩ := h
  intro hle
  have hlength := hle.length_le
  rw [hq, List.length_append, List.length_cons] at hlength
  omega

/-- The decoding of a node, from a state of the factories. -/
structure Visit (σ : Type) where
  state : σ
  path : Path
  depth : UInt32
  tree : Tree
  type : Descriptor

/-- The visit where calls have been recorded before. -/
def Visit.traced (visit : Visit σ) (earlier : List (FactoryCall μ)) :
    Visit (σ × List (FactoryCall μ)) where
  state := (visit.state, earlier)
  path := visit.path
  depth := visit.depth
  tree := visit.tree
  type := visit.type

namespace Registry

variable {R : Registry (Factory (FactoryM σ) μ)} {v w : Visit σ}

/-- What a visit gives, and the state in which it leaves the factories. -/
def outcome (R : Registry (Factory (FactoryM σ) μ)) (visit : Visit σ) :
    Except Error (Value μ) × σ :=
  (R.decodeAt visit.path visit.depth visit.tree visit.type).run.run visit.state

/-- The calls of factories in a visit. -/
def callsOf (R : Registry (Factory (FactoryM σ) μ)) (visit : Visit σ) : List (FactoryCall μ) :=
  (R.traced.outcome (visit.traced [])).2.2

/-- What the calls of a visit are. -/
theorem callsOf_spec (R : Registry (Factory (FactoryM σ) μ)) (visit : Visit σ) :
    (∀ earlier, R.traced.outcome (visit.traced earlier) =
      ((R.outcome visit).1, (R.outcome visit).2, earlier ++ R.callsOf visit)) ∧
    (∀ call ∈ R.callsOf visit, R.IsComplete call) ∧
    (R.callsOf visit).map FactoryCall.node <+:
      R.messageNodes visit.path visit.type visit.tree ∧
    ∀ value, (R.outcome visit).1 = .ok value → (R.callsOf visit).map FactoryCall.node =
      R.messageNodes visit.path visit.type visit.tree := by
  obtain ⟨calls, hrun, hvalid, hnodes, hok⟩ :=
    R.traces_decodeAt visit.depth visit.path visit.tree visit.type visit.state
  have hcalls : R.callsOf visit = calls := congrArg (·.2.2) (hrun [])
  rw [hcalls]
  exact ⟨hrun, hvalid, hnodes, fun value hvalue => (hok value hvalue).1⟩

/-- The calls of a visit are for nodes that are there. -/
theorem prefix_of_mem_callsOf (hR : R.DistinctFields) {call : FactoryCall μ}
    (h : call ∈ R.callsOf v) : v.path.steps <+: call.fields.path.steps := by
  obtain ⟨_, _, hnodes, _⟩ := R.callsOf_spec v
  exact prefix_of_mem_messageNodes hR (hnodes.subset (List.mem_map_of_mem h))

/-! ## Visits -/

/-- A visit goes on to a node that the visited one contains, when those before it have been
    decoded. -/
inductive Enters (R : Registry (Factory (FactoryM σ) μ)) : Visit σ → Visit σ → Prop
  | field {s s' : σ} {path : Path} {depth : UInt32} {members : List (String × Tree)}
      {target : TypeRef} {entry : TypeEntry (Factory (FactoryM σ) μ)}
      {before after : List FieldSpec} {spec : FieldSpec} {entries : List (String × Value μ)}
      {node : Tree} (hd : depth < R.options.maxDepth) (hf : R.follow target = .ok entry)
      (hk : R.deniedKey? entry.fields members = none)
      (hs : entry.fields.specs = before ++ spec :: after)
      (hb : (before.mapM (R.decodeField path depth members)).run.run s = (.ok entries, s'))
      (hl : members.lookup spec.name = some node) :
      Enters R ⟨s, path, depth, .object members, .message target⟩
        ⟨s', path.field spec.name, depth + 1, node, spec.type⟩
  | item {s s' : σ} {path : Path} {depth : UInt32} {element : Descriptor}
      {before after : List Tree} {node : Tree} {values : List (Value μ)}
      (hd : depth < R.options.maxDepth)
      (hb : (before.zipIdx.mapM fun x =>
        R.decodeAt (path.index x.2) (depth + 1) x.1 element).run.run s = (.ok values, s')) :
      Enters R ⟨s, path, depth, .array (before ++ node :: after), .array element⟩
        ⟨s', path.index before.length, depth + 1, node, element⟩

/-- If what a visit goes on to fails, the visit fails at once and in the same way. -/
theorem Enters.outcome_of_error (h : R.Enters v w) {e : Error} {s : σ}
    (hw : R.outcome w = (.error e, s)) : R.outcome v = (.error e, s) := by
  cases h with
  | field hd hf hk hs hb hl =>
    unfold outcome
    rw [decodeAt_reference rfl, if_pos hd, hf]
    dsimp only [decodeNode, decodeObject]
    rw [hk, hs]
    refine run_bind_of_error (run_mapM_of_error hb ?_)
    rw [decodeField, hl]
    exact run_bind_of_error hw
  | item hd hb =>
    unfold outcome
    rw [decodeAt_elements rfl, if_pos hd]
    dsimp only [decodeItems]
    rw [List.zipIdx_append, List.zipIdx_cons, Nat.zero_add]
    exact run_bind_of_error (run_mapM_of_error hb hw)

/-- The path of what a visit goes on to is one step longer. The calls before it are for nodes that
    other steps lead to. -/
theorem Enters.traced (hR : R.DistinctFields) (h : R.Enters v w) :
    ∃ step, w.path = v.path.push step ∧ ∃ calls,
      R.traced.Enters (v.traced []) (w.traced calls) ∧
      ∀ call ∈ calls, ∃ other, other ≠ step ∧
        (v.path.push other).steps <+: call.fields.path.steps := by
  cases h with
  | @field s s' path depth members target entry before after spec entries node hd hf hk hs hb hl =>
    obtain ⟨type, hr, he⟩ := follow_eq_ok_iff.1 hf
    have hbefore (spec : FieldSpec) (_ : spec ∈ before) :=
      traces_decodeField (R.traces_decodeAt (depth + 1)) path members spec
    obtain ⟨calls, hrun, _, _, hok⟩ := Traces.mapM hbefore s
    rw [hb] at hrun hok
    refine ⟨.field spec.name, rfl, calls,
      .field hd (follow_traced_of_ok hr he) hk hs (hrun []) hl, fun call hcall => ?_⟩
    have hnode := List.mem_map_of_mem (f := FactoryCall.node) hcall
    rw [(hok _ rfl).1, List.mem_flatMap] at hnode
    obtain ⟨spec', hs', hnode⟩ := hnode
    refine ⟨.field spec'.name, ?_, prefix_of_mem_fieldNodes hR hnode⟩
    -- The table does not declare a field twice.
    have hnodup := hR.entry he
    rw [FieldTable.names, hs, List.map_append, List.map_cons, List.nodup_append] at hnodup
    intro heq
    exact hnodup.2.2 _ (List.mem_map_of_mem hs') _ List.mem_cons_self (Step.field.inj heq)
  | @item s s' path depth element before after node values hd hb =>
    have hbefore (x : Tree × Nat) (_ : x ∈ before.zipIdx) :=
      R.traces_decodeAt (depth + 1) (path.index x.2) x.1 element
    obtain ⟨calls, hrun, _, _, hok⟩ := Traces.mapM hbefore s
    rw [hb] at hrun hok
    refine ⟨.index before.length, rfl, calls, .item hd (hrun []), fun call hcall => ?_⟩
    have hnode := List.mem_map_of_mem (f := FactoryCall.node) hcall
    rw [(hok _ rfl).1, List.mem_flatMap] at hnode
    obtain ⟨x, hx, hnode⟩ := hnode
    refine ⟨.index x.2, ?_, prefix_of_mem_messageNodes hR hnode⟩
    intro heq
    exact absurd (Step.index.inj heq) (Nat.ne_of_lt (List.snd_lt_of_mem_zipIdx hx))

/-- If what a visit goes on to fails, the calls of the visit end with the calls there. -/
theorem Enters.callsOf_of_error (hR : R.DistinctFields) (h : R.Enters v w) {e : Error} {s : σ}
    (hw : R.outcome w = (.error e, s)) :
    ∃ step, w.path = v.path.push step ∧ ∃ earlier, R.callsOf v = earlier ++ R.callsOf w ∧
      ∀ call ∈ earlier, ∃ other, other ≠ step ∧
        (v.path.push other).steps <+: call.fields.path.steps := by
  obtain ⟨step, hpath, calls, htraced, hcalls⟩ := h.traced hR
  refine ⟨step, hpath, calls, ?_, hcalls⟩
  have hfails := (R.callsOf_spec w).1 calls
  rw [hw] at hfails
  exact congrArg (·.2.2) (htraced.outcome_of_error hfails)

/-- Visits go deeper and deeper. -/
theorem prefix_of_enters (hR : R.DistinctFields) (h : ReflTransGen R.Enters v w) :
    v.path.steps <+: w.path.steps := by
  induction h with
  | refl => exact List.prefix_refl _
  | tail _ h ih =>
    obtain ⟨step, hpath, _⟩ := h.traced hR
    rw [hpath]
    exact ih.trans (List.prefix_append _ _)

/-- If a visit fails, so does each visit from which it was come to, and no factory is called there
    for a node that contains the visited one. -/
theorem not_encloses_of_error (hR : R.DistinctFields) (h : ReflTransGen R.Enters v w) {e : Error}
    {s : σ} (hw : R.outcome w = (.error e, s)) :
    R.outcome v = (.error e, s) ∧
      ∀ call ∈ R.callsOf v, ¬ call.fields.path.Encloses w.path := by
  induction h using ReflTransGen.head_induction_on with
  | refl =>
    refine ⟨hw, fun call hcall hencloses => ?_⟩
    exact hencloses.not_isPrefix (prefix_of_mem_callsOf hR hcall)
  | head hvx hxw ih =>
    obtain ⟨hx, hcalls⟩ := ih
    obtain ⟨step, hpath, earlier, heq, hearlier⟩ := hvx.callsOf_of_error hR hx
    refine ⟨hvx.outcome_of_error hx, fun call hcall hencloses => ?_⟩
    rw [heq, List.mem_append] at hcall
    rcases hcall with hcall | hcall
    · -- The call was made for a node beside the way, so that it is not on the way.
      obtain ⟨other, hne, hother⟩ := hearlier call hcall
      have hstep := prefix_of_enters hR hxw
      rw [hpath] at hstep
      exact hne (Path.step_eq_of_prefix (hother.trans hencloses.isPrefix) hstep)
    · exact hcalls call hcall hencloses

/-! ## The calls of a decoding -/

/-- The message nodes of a tree are listed once each, bottom-up: the items of an array by their
    index, the fields of a message in the order of its table, and what a node contains before it.

    Decoding calls the factories of the first of these nodes, and of all of them if it succeeds; to
    trace the calls changes neither the outcome nor the state. Each call is given the declared
    fields of the type, each once and in their order, and the path of its node. If a visited node
    fails, so does the decoding, and no factory is called for a node that contains it. -/
theorem decode_factory_calls (R : Registry (Factory (FactoryM σ) μ)) (hR : R.Reachable)
    (d : Descriptor) (t : Tree) (s : σ) :
    ((R.messageNodes .root d t).map (·.path)).Nodup ∧
    (∀ node, node ∈ R.messageNodes .root d t ↔ R.IsMessageAt d t node.path.steps node.type) ∧
    ((R.messageNodes .root d t).Pairwise fun a b => R.Precedes d a.path.steps b.path.steps) ∧
    ∃ r s' calls, (R.traced.decode t d).run.run (s, []) = (r, s', calls) ∧
      (R.decode t d).run.run s = (r, s') ∧
      calls.map FactoryCall.node <+: R.messageNodes .root d t ∧
      (∀ value, r = .ok value → calls.map FactoryCall.node = R.messageNodes .root d t) ∧
      (∀ call ∈ calls, ∃ table, R.lookupFields call.type = .ok table ∧
        call.fields.names = table.names ∧ call.fields.names.Nodup) ∧
      ∀ visit e, ReflTransGen R.Enters ⟨s, .root, 0, t, d⟩ visit →
        (R.outcome visit).1 = .error e →
        r = .error e ∧ ∀ call ∈ calls, ¬ call.fields.path.Encloses visit.path := by
  have hfields := hR.distinctFields
  obtain ⟨hrun, hcomplete, hnodes, hok⟩ := R.callsOf_spec ⟨s, .root, 0, t, d⟩
  refine ⟨messageNodes_nodup hfields d t, fun node => mem_messageNodes_iff hfields, ?_,
    _, _, _, hrun [], rfl, hnodes, hok, fun call hcall => ?_, fun visit e hvisit he => ?_⟩
  · refine (messageNodes_ordered hfields .root d t).imp ?_
    rintro x y ⟨a, b, hx, hy, hab⟩
    rw [hx, hy]
    exact hab
  · obtain ⟨table, htable, hnames⟩ := hcomplete call hcall
    exact ⟨table, htable, hnames, hnames ▸ hfields.lookupFields htable⟩
  · obtain ⟨hroot, hcalls⟩ := not_encloses_of_error hfields hvisit (Prod.ext he rfl)
    exact ⟨congrArg Prod.fst hroot, hcalls⟩

/-- Nodes with further nodes in a row. Their factory numbers the nodes downwards, and refuses a node
    if no number is left. -/
def numberedNode : TypeEntry (Factory (FactoryM Nat) Nat) where
  fields := ⟨[{ name := "label", type := .primitive },
    { name := "row", type := .array (.message (.named "Node")) }]⟩
  factory := fun fields => do
    let left ← get
    if left = 0 then throw (.typeMismatch fields.path "no node" "node")
    set (left - 1)
    return left

/-- The registry of numbered nodes. -/
def numberingRegistry : Registry (Factory (FactoryM Nat) Nat) :=
  ((register {
    name := "Node"
    type := ⟨0, "Node"⟩
    fields := numberedNode.fields
    factory := numberedNode.factory }).run.run {}).2

theorem numberingRegistry_reachable : numberingRegistry.Reachable :=
  .call (.register _) (.empty {})

/-- With numbers for all, the two nodes of a row are built in their order and the node that contains
    them after both; with a single number, the second node of the row fails, and the node that
    contains it is not built. -/
theorem decode_factory_calls_row :
    let leaf : Tree := .object [("label", .bool true), ("row", .array [])]
    let t : Tree := .object [("row", .array [leaf, leaf]), ("label", .bool false)]
    let d : Descriptor := .message (.named "Node")
    let second : Path := ⟨[.field "row", .index 1]⟩
    numberingRegistry.Reachable ∧
    (∃ calls, (numberingRegistry.traced.decode t d).run.run (3, []) =
        (.ok (.message 1), 0, calls) ∧
      calls.map FactoryCall.node = [⟨⟨[.field "row", .index 0]⟩, ⟨0, "Node"⟩⟩,
        ⟨second, ⟨0, "Node"⟩⟩, ⟨.root, ⟨0, "Node"⟩⟩]) ∧
    ∃ calls, (numberingRegistry.traced.decode t d).run.run (1, []) =
        (.error (.typeMismatch second "no node" "node"), 0, calls) ∧
      ∀ call ∈ calls, ¬ call.fields.path.Encloses second := by
  intro leaf t d second
  refine ⟨numberingRegistry_reachable, ?_, ?_⟩
  · obtain ⟨_, _, _, r, s', calls, htraced, hrun, _, hall, _⟩ :=
      decode_factory_calls numberingRegistry numberingRegistry_reachable d t 3
    have hvalue : (numberingRegistry.decode t d).run.run 3 = (.ok (.message 1), 0) := by cbv
    have hnodes : numberingRegistry.messageNodes .root d t =
        [⟨⟨[.field "row", .index 0]⟩, ⟨0, "Node"⟩⟩, ⟨second, ⟨0, "Node"⟩⟩,
          ⟨.root, ⟨0, "Node"⟩⟩] := by cbv
    cases hrun.symm.trans hvalue
    exact ⟨calls, htraced, (hall _ rfl).trans hnodes⟩
  · obtain ⟨_, _, _, r, s', calls, htraced, hrun, _, _, _, hfailed⟩ :=
      decode_factory_calls numberingRegistry numberingRegistry_reachable d t 1
    have herror : (numberingRegistry.decode t d).run.run 1 =
        (.error (.typeMismatch second "no node" "node"), 0) := by cbv
    cases hrun.symm.trans herror
    have hentry : numberingRegistry.follow (.named "Node") = .ok numberedNode := rfl
    have hspecs : numberedNode.fields.specs =
        [⟨"label", .primitive, false⟩] ++ ⟨"row", .array d, false⟩ :: [] := rfl
    have hlabel : ([⟨"label", .primitive, false⟩].mapM (numberingRegistry.decodeField .root 0
        [("row", .array [leaf, leaf]), ("label", .bool false)])).run.run 1 =
        (.ok [("label", .leaf (.bool false))], 1) := by cbv
    have hrow : numberingRegistry.Enters ⟨1, .root, 0, t, d⟩
        ⟨1, ⟨[.field "row"]⟩, 1, .array [leaf, leaf], .array d⟩ :=
      .field (by decide) hentry rfl hspecs hlabel rfl
    have hfirst : ([leaf].zipIdx.mapM fun x => numberingRegistry.decodeAt
        (Path.index ⟨[.field "row"]⟩ x.2) 2 x.1 d).run.run 1 = (.ok [.message 1], 0) := by cbv
    have hdepth : 1 < numberingRegistry.options.maxDepth := by decide
    have hsecond : numberingRegistry.Enters
        ⟨1, ⟨[.field "row"]⟩, 1, .array [leaf, leaf], .array d⟩ ⟨0, second, 2, leaf, d⟩ :=
      .item hdepth hfirst
    have hrefused : (numberingRegistry.outcome ⟨0, second, 2, leaf, d⟩).1 =
        .error (.typeMismatch second "no node" "node") := by cbv
    exact ⟨calls, htraced, (hfailed _ _ (.head hrow (.single hsecond)) hrefused).2⟩

end Registry

end Missive
