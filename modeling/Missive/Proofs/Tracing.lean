import Missive.Proofs.MessageNodes

/-!
# Tracing the calls of factories

Factories may have a state that they share, so that a call can depend on all calls before it. A
registry of such factories is *traced* by a record of their calls, which they do not see: the traced
registry decodes as the registry does, and the record tells which factories were called, in which
order, and with which fields.

* `Registry.traced`: the registry whose factories keep the record.
* `Traces`: one program runs as another does, and records calls for the given nodes: for all of
  them in order if it succeeds, and for the first of them if it fails. There is a rule for each way
  to build a program.
* `Registry.traces_decodeAt`: decoding calls factories for the message nodes of the tree.
-/

namespace Missive

open List (Forall₂)
open Outcome

variable {σ μ α β : Type}

/-- Programs of factories that share a state. -/
abbrev FactoryM (σ : Type) := ExceptT Error (StateM σ)

/-- A call of a factory: the type whose factory it is, and the fields that it is given. -/
structure FactoryCall (μ : Type) where
  type : MessageType
  fields : Fields μ

/-- The node that the call is to build a message from. -/
def FactoryCall.node (call : FactoryCall μ) : MessageNode where
  path := call.fields.path
  type := call.type

/-- Programs that record the calls of factories beside the state. -/
abbrev TracedM (σ μ : Type) := FactoryM (σ × List (FactoryCall μ))

/-- The factory of a type, whose calls are recorded. -/
def traceFactory (type : MessageType) (factory : Factory (FactoryM σ) μ) :
    Factory (TracedM σ μ) μ := fun fields => do
  let (s, calls) ← get
  let (result, s) := (factory fields).run.run s
  set (s, calls ++ [{ type, fields }])
  ofExcept result

/-- What is registered for a type, with its factory traced. -/
def TypeEntry.traced (entry : TypeEntry (Factory (FactoryM σ) μ)) (type : MessageType) :
    TypeEntry (Factory (TracedM σ μ) μ) where
  fields := entry.fields
  factory := traceFactory type entry.factory

/-- The registry with all factories traced. -/
def Registry.traced (R : Registry (Factory (FactoryM σ) μ)) :
    Registry (Factory (TracedM σ μ) μ) where
  types := R.types.map fun (type, entry) => (type, entry.traced type)
  names := R.names
  options := R.options

/-! ## Programs that record calls -/

/-- From any state, the first program has the outcome of the second one, and records calls that have
    the given property. Their nodes are the first of the given nodes; if the program succeeds, they
    are all of them, and the result has the given property. -/
def Traces (valid : FactoryCall μ → Prop) (nodes : List MessageNode) (result : α → Prop)
    (x : TracedM σ μ α) (y : FactoryM σ α) : Prop :=
  ∀ s, ∃ calls,
    (∀ earlier, x.run.run (s, earlier) =
      ((y.run.run s).1, (y.run.run s).2, earlier ++ calls)) ∧
    (∀ call ∈ calls, valid call) ∧ calls.map FactoryCall.node <+: nodes ∧
    ∀ a, (y.run.run s).1 = .ok a → calls.map FactoryCall.node = nodes ∧ result a

namespace Traces

variable {valid : FactoryCall μ → Prop} {nodes nodes' : List MessageNode} {result : α → Prop}

protected theorem pure {a : α} (h : result a) :
    Traces valid [] result (pure a : TracedM σ μ α) (pure a) := by
  intro s
  refine ⟨[], fun earlier => ?_, List.forall_mem_nil _, List.nil_prefix, fun a' ha => ?_⟩
  · rw [List.append_nil]
    rfl
  · cases ha
    exact ⟨rfl, h⟩

protected theorem throw {e : Error} :
    Traces valid nodes result (throw e : TracedM σ μ α) (throw e) := by
  intro s
  refine ⟨[], fun earlier => ?_, List.forall_mem_nil _, List.nil_prefix, fun a ha => ?_⟩
  · rw [List.append_nil]
    rfl
  · cases ha

/-- Of two programs in a row, the second one adds its calls to those of the first. -/
protected theorem bind {result' : β → Prop} {x : TracedM σ μ α} {y : FactoryM σ α}
    {f : α → TracedM σ μ β} {g : α → FactoryM σ β} (h : Traces valid nodes result x y)
    (hf : ∀ a, result a → Traces valid nodes' result' (f a) (g a)) :
    Traces valid (nodes ++ nodes') result' (x >>= f) (y >>= g) := by
  intro s
  obtain ⟨calls, hx, hvalid, hnodes, hok⟩ := h s
  rcases hy : y.run.run s with ⟨e | a, s'⟩
  · rw [hy] at hx
    refine ⟨calls, fun earlier => ?_, hvalid, hnodes.trans (List.prefix_append _ _), ?_⟩
    · rw [run_bind_of_error (hx earlier), run_bind_of_error hy]
    · rw [run_bind_of_error hy]
      intro b hb
      cases hb
  · rw [hy] at hx hok
    obtain ⟨hall, ha⟩ := hok a rfl
    obtain ⟨calls', hx', hvalid', hnodes', hok'⟩ := hf a ha s'
    refine ⟨calls ++ calls', fun earlier => ?_, List.forall_mem_append.2 ⟨hvalid, hvalid'⟩, ?_, ?_⟩
    · rw [run_bind_of_ok (hx earlier), run_bind_of_ok hy, hx', List.append_assoc]
    · rw [List.map_append, hall, List.prefix_append_right_inj]
      exact hnodes'
    · rw [run_bind_of_ok hy]
      intro b hb
      obtain ⟨hall', hb⟩ := hok' b hb
      exact ⟨by rw [List.map_append, hall, hall'], hb⟩

/-- A traversal records the calls of its elements, in their order. -/
protected theorem mapM {as : List α} {nodesOf : α → List MessageNode} {related : α → β → Prop}
    {f : α → TracedM σ μ β} {g : α → FactoryM σ β}
    (h : ∀ a ∈ as, Traces valid (nodesOf a) (related a) (f a) (g a)) :
    Traces valid (as.flatMap nodesOf) (Forall₂ related as) (as.mapM f) (as.mapM g) := by
  induction as with
  | nil =>
    rw [List.mapM_nil, List.mapM_nil]
    exact .pure .nil
  | cons a as ih =>
    rw [List.forall_mem_cons] at h
    rw [List.mapM_cons, List.mapM_cons, List.flatMap_cons]
    refine h.1.bind fun b hb => ?_
    rw [← List.append_nil (as.flatMap nodesOf)]
    exact (ih h.2).bind fun bs hbs => .pure (.cons hb hbs)

/-- A factory is called for the node of its fields. -/
theorem traceFactory {type : MessageType} {factory : Factory (FactoryM σ) μ} {fields : Fields μ}
    (h : valid ⟨type, fields⟩) :
    Traces valid [⟨fields.path, type⟩] (fun _ => True) (traceFactory type factory fields)
      (factory fields) := by
  intro s
  refine ⟨[⟨type, fields⟩], fun earlier => ?_, List.forall_mem_singleton.2 h,
    List.prefix_refl _, fun _ _ => ⟨rfl, trivial⟩⟩
  have hget : (get : TracedM σ μ _).run.run (s, earlier) = (.ok (s, earlier), (s, earlier)) := rfl
  unfold Missive.traceFactory
  rw [run_bind_of_ok hget]
  dsimp only
  rcases (factory fields).run.run s with ⟨e | m, s'⟩ <;> rfl

end Traces

/-! ## Decoding step by step -/

namespace Registry

variable {R : Registry (Factory (FactoryM σ) μ)} {path : Path} {depth : UInt32} {t : Tree}

/-- Below the limit, a node is decoded as one of the entry that its reference leads to. -/
theorem decodeAt_reference {target : TypeRef} (ht : t.isNull = false) :
    R.decodeAt path depth t (.message target) =
      if depth < R.options.maxDepth then
        match R.follow target with
        | .error e => throw e
        | .ok entry => R.decodeNode path depth t entry
      else throw R.tooDeep := by
  rw [decodeAt_node ht, follow]
  cases R.resolve target with
  | error e => rw [ofExcept_error_bind]; rfl
  | ok type =>
    rw [ofExcept_ok_bind, ok_bind]
    cases R.entry type with
    | error e => rw [ofExcept_error_bind]
    | ok entry => rw [ofExcept_ok_bind]

/-! ## The traced registry -/

theorem lookup_traced (types : List (MessageType × TypeEntry (Factory (FactoryM σ) μ)))
    (type : MessageType) :
    (types.map fun (type, entry) => (type, entry.traced type)).lookup type =
      (types.lookup type).map (·.traced type) := by
  induction types with
  | nil => rfl
  | cons first types ih =>
    rw [List.map_cons, List.lookup_cons, List.lookup_cons]
    by_cases h : type = first.1
    · subst h
      simp
    · rw [beq_false_of_ne h]
      exact ih

theorem entry_traced (type : MessageType) :
    R.traced.entry type = (R.entry type).map (·.traced type) := by
  unfold entry
  rw [show R.traced.types.lookup type = _ from lookup_traced R.types type]
  cases R.types.lookup type <;> rfl

theorem follow_traced_of_error {target : TypeRef} {e : Error} (h : R.follow target = .error e) :
    R.traced.follow target = .error e := by
  rcases bind_eq_error_iff.1 h with hr | ⟨type, hr, he⟩
  · exact bind_eq_error_iff.2 (.inl hr)
  · refine bind_eq_error_iff.2 (.inr ⟨type, hr, ?_⟩)
    rw [entry_traced, he]
    rfl

theorem follow_traced_of_ok {target : TypeRef} {type : MessageType}
    {entry : TypeEntry (Factory (FactoryM σ) μ)} (hr : R.resolve target = .ok type)
    (he : R.entry type = .ok entry) : R.traced.follow target = .ok (entry.traced type) := by
  refine bind_eq_ok_iff.2 ⟨type, hr, ?_⟩
  rw [entry_traced, he]
  rfl

/-! ## The calls of decoding -/

/-- The call is given the declared fields of its type, in their order. -/
def IsComplete (R : Registry (Factory (FactoryM σ) μ)) (call : FactoryCall μ) : Prop :=
  ∃ table, R.lookupFields call.type = .ok table ∧ call.fields.names = table.names

/-- Decoding a tree calls factories for its message nodes, at the given depth. -/
def TracesAt (R : Registry (Factory (FactoryM σ) μ)) (depth : UInt32) : Prop :=
  ∀ path t d, Traces R.IsComplete (R.messageNodes path d t) (fun _ => True)
    (R.traced.decodeAt path depth t d) (R.decodeAt path depth t d)

theorem traces_decodeField (h : R.TracesAt (depth + 1)) (path : Path)
    (members : List (String × Tree)) (spec : FieldSpec) :
    Traces R.IsComplete (R.fieldNodes path members spec) (fun entry => entry.1 = spec.name)
      (R.traced.decodeField path depth members spec) (R.decodeField path depth members spec) := by
  unfold decodeField fieldNodes
  cases members.lookup spec.name with
  | some node =>
    dsimp only
    rw [← List.append_nil (R.messageNodes _ _ _)]
    exact (h _ _ _).bind fun _ _ => .pure rfl
  | none =>
    change Traces _ _ _ (if allowsAbsent R.options spec then _ else _) _
    dsimp only
    split
    · exact .pure rfl
    · exact .throw

/-- An object calls factories for the message nodes of its fields, and then the factory of its own
    type. -/
theorem traces_decodeObject (h : R.TracesAt (depth + 1)) {type : MessageType}
    {entry : TypeEntry (Factory (FactoryM σ) μ)} (he : R.entry type = .ok entry)
    (members : List (String × Tree)) :
    Traces R.IsComplete (entry.fields.specs.flatMap (R.fieldNodes path members) ++ [⟨path, type⟩])
      (fun _ => True) (R.traced.decodeObject path depth (entry.traced type) members)
      (R.decodeObject path depth entry members) := by
  have hdenied : R.traced.deniedKey? (entry.traced type).fields members =
    R.deniedKey? entry.fields members := rfl
  unfold decodeObject
  rw [hdenied]
  cases R.deniedKey? entry.fields members with
  | some key => exact .throw
  | none =>
    have hfield (spec : FieldSpec) (_ : spec ∈ entry.fields.specs) :=
      traces_decodeField h path members spec
    refine (Traces.mapM hfield).bind fun entries hnames => ?_
    have hcomplete : R.IsComplete ⟨type, { path, entries }⟩ :=
      ⟨entry.fields, lookupFields_of_entry he, map_eq_map_of_forall₂ hnames⟩
    rw [← List.append_nil [_]]
    exact (Traces.traceFactory hcomplete).bind fun _ _ => .pure trivial

theorem traces_decodeItems (h : R.TracesAt (depth + 1)) (items : List Tree)
    (element : Descriptor) :
    Traces R.IsComplete (R.messageNodes path (.array element) (.array items)) (fun _ => True)
      (R.traced.decodeItems path depth (.array items) element)
      (R.decodeItems path depth (.array items) element) := by
  rw [messageNodes_array, ← List.append_nil (List.flatMap _ _)]
  have hitem (x : Tree × Nat) (_ : x ∈ items.zipIdx) := h (path.index x.2) x.1 element
  exact (Traces.mapM hitem).bind fun _ _ => .pure trivial

/-- Decoding calls factories for the message nodes of the tree. -/
theorem traces_decodeAt (R : Registry (Factory (FactoryM σ) μ)) (depth : UInt32) :
    R.TracesAt depth := by
  intro path t d
  by_cases ht : t = .null
  · subst ht
    have hnodes : R.messageNodes path d .null = [] := messageNodes_of_other nofun nofun
    unfold decodeAt
    rw [hnodes]
    exact .pure trivial
  have ht : t.isNull = false := isNull_eq_false_iff.2 ht
  cases d with
  | primitive =>
    have hnodes : R.messageNodes path .primitive t = [] := messageNodes_of_other nofun nofun
    rw [decodeAt_leaf ht, decodeAt_leaf ht, hnodes]
    change Traces _ _ _ (if R.allowsLeaf t depth then _ else _) _
    split
    · exact .pure trivial
    · exact .throw
  | message target =>
    rw [decodeAt_reference ht, decodeAt_reference ht]
    by_cases hd : depth < R.options.maxDepth
    · rw [if_pos hd, if_pos (show depth < R.traced.options.maxDepth from hd)]
      cases hf : R.follow target with
      | error e =>
        rw [follow_traced_of_error hf]
        exact .throw
      | ok entry =>
        obtain ⟨type, hr, he⟩ := follow_eq_ok_iff.1 hf
        rw [follow_traced_of_ok hr he]
        cases t with
        | object members =>
          rw [messageNodes_object (targetOf?_eq_some_iff.2 ⟨hr, lookupFields_of_entry he⟩)]
          exact traces_decodeObject (traces_decodeAt R (depth + 1)) he members
        | _ => exact .throw
    · rw [if_neg hd, if_neg (show ¬ depth < R.traced.options.maxDepth from hd)]
      exact .throw
  | array element =>
    rw [decodeAt_elements ht, decodeAt_elements ht]
    by_cases hd : depth < R.options.maxDepth
    · rw [if_pos hd, if_pos (show depth < R.traced.options.maxDepth from hd)]
      cases t with
      | array items => exact traces_decodeItems (traces_decodeAt R (depth + 1)) items element
      | _ => exact .throw
    · rw [if_neg hd, if_neg (show ¬ depth < R.traced.options.maxDepth from hd)]
      exact .throw
termination_by R.options.maxDepth.toNat - depth.toNat
decreasing_by all_goals exact depth_decreasing (by assumption)

end Registry

end Missive
