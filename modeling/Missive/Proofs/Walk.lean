import Missive.Proofs.Decode
import Missive.Proofs.Encode
import Missive.Proofs.Registrations

/-!
# Walks

Encoding and decoding are given the path of each node that they come to. They can as well move one
path along as a state: one step further before a child, and one step back after it. In the same way
the members of an object can be taken out of it one by one, and be set one by one. Traversals that
do so are *walks*.

A walk that succeeds ends where it started. So a child finds the path that it would be given, and
errors report the same paths.

* `Walks`: a walk has the outcome of a program that is given its path, and ends where it started.
  There is a rule for each way to build a walk.
* `Registry.encodeWalk`, `Registry.decodeWalk`: the walks.
* `Registry.encode_eq_walk`, `Registry.decode_eq_walk`: encoding and decoding are the walks from
  the root, as they are from every other node (`Registry.walks_encodeAt`,
  `Registry.walks_decodeAt`).
-/

namespace Missive

open Outcome

/-- Programs that move a path along with them. -/
abbrev WalkM (m : Type → Type) := StateT Path m

variable {m : Type → Type} [Monad m] {α β : Type}

/-- Goes one step further, and back after what is done there. -/
def WalkM.into (s : Step) (x : WalkM m α) : WalkM m α := do
  modify (·.push s)
  let a ← x
  modify (·.pop)
  return a

/-- From the path, the walk has the outcome of the program, and comes back to the path. -/
def Walks (path : Path) (x : WalkM m α) (y : m α) : Prop := x.run path = (·, path) <$> y

namespace Walks

variable [LawfulMonad m] {path : Path} {x : WalkM m α} {y : m α}

protected theorem pure (a : α) : Walks path (pure a : WalkM m α) (pure a) := by
  rw [Walks, map_pure]
  rfl

protected theorem lift (y : m α) : Walks path (StateT.lift y) y := bind_pure_comp _ y

protected theorem throw [MonadExceptOf Error m] (e : Error) :
    Walks path (throw e : WalkM m α) (throw e) := .lift _

protected theorem bind {f : α → WalkM m β} {g : α → m β} (hx : Walks path x y)
    (hf : ∀ a, Walks path (f a) (g a)) : Walks path (x >>= f) (y >>= g) := by
  rw [Walks] at hx ⊢
  rw [StateT.run_bind, hx, bind_map_left, map_bind]
  exact bind_congr hf

/-- What comes after an error is not walked. -/
theorem throw_bind [MonadExceptOf Error m] [LawfulThrow Error m] (e : Error)
    (f : α → WalkM m β) : Walks path (throw e >>= f) (throw e) := by
  have hthrow : Walks path (throw e : WalkM m α) (throw e) := .throw e
  rw [Walks] at hthrow ⊢
  rw [StateT.run_bind, hthrow, bind_map_left, LawfulThrow.throw_bind, ← bind_pure_comp,
    LawfulThrow.throw_bind]

theorem ofExcept_bind [MonadExceptOf Error m] [LawfulThrow Error m] {r : Except Error α}
    {f : α → WalkM m β} {g : α → m β} (h : ∀ a, r = .ok a → Walks path (f a) (g a)) :
    Walks path (ofExcept r >>= f) (ofExcept r >>= g) := by
  cases r with
  | error e =>
    have hg : ofExcept (.error e) >>= g = throw e := ofExcept_error_bind e g
    rw [hg]
    exact throw_bind e f
  | ok a =>
    rw [ofExcept_ok_bind, ofExcept_ok_bind]
    exact h a rfl

/-- What is done with the path is done with the one that is given. -/
theorem get_bind {f : Path → WalkM m α} (h : Walks path (f path) y) :
    Walks path (get >>= f) y := by
  rw [Walks] at h ⊢
  rw [StateT.run_bind, StateT.run_get, pure_bind, h]

/-- What is done one step further is done with the path of that. -/
protected theorem into {s : Step} (h : Walks (path.push s) x y) : Walks path (x.into s) y := by
  rw [Walks] at h ⊢
  simp [WalkM.into, h]

/-- A traversal walks if it does so for each element. -/
protected theorem mapM {f : α → WalkM m β} {g : α → m β} (h : ∀ a, Walks path (f a) (g a))
    (as : List α) : Walks path (as.mapM f) (as.mapM g) := by
  induction as with
  | nil =>
    rw [List.mapM_nil, List.mapM_nil]
    exact .pure []
  | cons a as ih =>
    rw [List.mapM_cons, List.mapM_cons]
    exact (h a).bind fun b => ih.bind fun bs => .pure (b :: bs)

/-- The outcome of a walk alone is that of the program. -/
theorem outcome (h : Walks path x y) : x.run' path = y := by
  rw [StateT.run'_eq, h, Functor.map_map]
  exact id_map y

end Walks

namespace Registry

/-! ## Encoding -/

section Encode

variable {φ μ : Type} [Message μ]

/-- Sets the key of each declared field of a message in turn, beside the given members. -/
def setFields (encode : View μ → Descriptor → WalkM (Except Error) Tree) (a : μ) :
    List FieldSpec → List (String × Tree) → WalkM (Except Error) (List (String × Tree))
  | [], members => return members
  | spec :: specs, members => do
    match Message.field a spec.name with
    | none => throw (.missingField (← get) spec.name)
    | some v =>
      let node ← (encode v spec.type).into (.field spec.name)
      setFields encode a specs (Tree.setMember spec.name node members)

/-- Encodes what stands where the path is, at a depth. -/
def encodeWalk (R : Registry φ) (depth : UInt32) (view : View μ) (d : Descriptor) :
    WalkM (Except Error) Tree :=
  match view, d with
  | .null, _ => return .null
  | .nonFinite x, _ => do throw (.typeMismatch (← get) "finite number" x.text)
  | .leaf t, .primitive => if R.allowsLeaf t depth then return t else throw R.tooDeep
  | .message a, .message _ =>
    if _ : depth < R.options.maxDepth then do
      let table ← ofExcept (R.lookupFields (messageType a))
      let members ← setFields (fun v d => R.encodeWalk (depth + 1) v d) a table.specs []
      return .object members
    else throw R.tooDeep
  | .array items, .array element =>
    if _ : depth < R.options.maxDepth then do
      let nodes ← items.zipIdx.mapM fun (v, i) =>
        (R.encodeWalk (depth + 1) v element).into (.index i)
      return .array nodes
    else throw R.tooDeep
  | view, d => do throw (.typeMismatch (← get) d.kind view.describe)
termination_by R.options.maxDepth.toNat - depth.toNat
decreasing_by all_goals exact depth_decreasing (by assumption)

variable {R : Registry φ} {path : Path} {depth : UInt32}

/-- The members that are set for the declared fields are those that the fields are encoded to. -/
theorem walks_setFields {encode : View μ → Descriptor → WalkM (Except Error) Tree}
    (h : ∀ p v d, Walks p (encode v d) (R.encodeAt p (depth + 1) v d)) (a : μ)
    (specs : List FieldSpec) (members : List (String × Tree)) :
    Walks path (setFields encode a specs members)
      ((·.foldl (fun acc member => Tree.setMember member.1 member.2 acc) members) <$>
        specs.mapM (R.encodeField path depth a)) := by
  induction specs generalizing members with
  | nil => exact .pure members
  | cons spec specs ih =>
    rw [setFields, List.mapM_cons, map_bind, encodeField]
    cases Message.field a spec.name with
    | none => exact .get_bind (.throw _)
    | some v =>
      rw [bind_assoc]
      refine (h _ v spec.type).into.bind fun node => ?_
      rw [pure_bind, bind_pure_comp, Functor.map_map]
      exact ih (Tree.setMember spec.name node members)

/-- A view of another shape is a mismatch at the path that has been come to. -/
theorem walks_mismatch {v : View μ} {d : Descriptor} (hnull : v ≠ .null)
    (hfinite : ∀ x, v ≠ .nonFinite x) (h : ¬v.HasShape d) :
    Walks path (R.encodeWalk depth v d) (R.encodeAt path depth v d) := by
  rw [encodeAt_mismatch hnull hfinite h, encodeWalk]
  · exact .get_bind (.throw _)
  · exact hnull
  · exact hfinite
  · rintro t rfl rfl
    exact h (.leaf t)
  · rintro a target rfl rfl
    exact h (.message a target)
  · rintro items element rfl rfl
    exact h (.array items element)

/-- Encoding is a walk. -/
theorem walks_encodeAt (R : Registry φ) (path : Path) (depth : UInt32) (view : View μ)
    (d : Descriptor) : Walks path (R.encodeWalk depth view d) (R.encodeAt path depth view d) := by
  by_cases hs : view.HasShape d
  · cases hs with
    | leaf t =>
      rw [encodeWalk, encodeAt_leaf]
      split
      · exact .pure t
      · exact .throw _
    | message a target =>
      rw [encodeWalk, encodeAt_fields]
      split
      · rw [encodeFields]
        cases R.lookupFields (messageType a) with
        | error e => exact Walks.throw_bind e _
        | ok table =>
          rw [ofExcept_ok_bind, ok_bind]
          have hmembers : Walks path (setFields _ a table.specs []) _ :=
            walks_setFields (fun p v d => walks_encodeAt R p (depth + 1) v d) a table.specs []
          have hobject := hmembers.bind fun members => Walks.pure (Tree.object members)
          rwa [bind_map_left] at hobject
      · exact .throw _
    | array items element =>
      rw [encodeWalk, encodeAt_items]
      split
      · refine (Walks.mapM (fun x => ?_) _).bind fun nodes => .pure _
        exact (walks_encodeAt R _ (depth + 1) x.1 element).into
      · exact .throw _
  · cases view with
    | null =>
      rw [encodeWalk, encodeAt_null]
      exact .pure Tree.null
    | nonFinite x =>
      rw [encodeWalk, encodeAt_nonFinite]
      exact .get_bind (.throw _)
    | _ => exact walks_mismatch (by simp) (by simp) hs
termination_by R.options.maxDepth.toNat - depth.toNat
decreasing_by all_goals exact depth_decreasing (by assumption)

/-- A view is encoded by the walk from the root. -/
theorem encode_eq_walk (R : Registry φ) (view : View μ) (d : Descriptor) :
    R.encode view d = (R.encodeWalk 0 view d).run' .root :=
  (walks_encodeAt R .root 0 view d).outcome.symm

end Encode

/-! ## Decoding -/

section Decode

variable [MonadExceptOf Error m] {μ : Type}

/-- Takes the member of each declared field out of an object in turn, and adds to the fields what
    it is decoded to. -/
def takeFields (options : Options) (decode : Tree → Descriptor → WalkM m (Value μ)) :
    List FieldSpec → List (String × Tree) → Fields μ → WalkM m (Fields μ)
  | [], _, fields => return fields
  | spec :: specs, members, fields => do
    let value ←
      match members.lookup spec.name with
      | some node => (decode node spec.type).into (.field spec.name)
      | none =>
        if allowsAbsent options spec then pure .null
        else throw (.missingField (← get) spec.name)
    takeFields options decode specs (members.eraseP (·.1 = spec.name))
      (fields.insert spec.name value)

/-- Builds the message of an object, whose type is registered with the given entry. -/
def objectWalk (R : Registry (Factory m μ)) (decode : Tree → Descriptor → WalkM m (Value μ))
    (entry : TypeEntry (Factory m μ)) (members : List (String × Tree)) : WalkM m (Value μ) := do
  match R.deniedKey? entry.fields members with
  | some key => throw (.unknownField (← get) key)
  | none =>
    let fields ← takeFields R.options decode entry.fields.specs members { path := ← get }
    let message ← entry.factory fields
    return .message message

/-- Decodes what stands where the path is, at a depth. -/
def decodeWalk (R : Registry (Factory m μ)) (depth : UInt32) (tree : Tree) (d : Descriptor) :
    WalkM m (Value μ) :=
  if tree.isNull then return .null
  else
    match d with
    | .primitive => if R.allowsLeaf tree depth then return .leaf tree else throw R.tooDeep
    | .message target =>
      if _ : depth < R.options.maxDepth then do
        let type ← ofExcept (R.resolve target)
        let entry ← ofExcept (R.entry type)
        match tree with
        | .object members =>
          R.objectWalk (fun node d => R.decodeWalk (depth + 1) node d) entry members
        | _ => throw (.typeMismatch (← get) "object" tree.kind)
      else throw R.tooDeep
    | .array element =>
      if _ : depth < R.options.maxDepth then
        match tree with
        | .array items => do
          let values ← items.zipIdx.mapM fun (node, i) =>
            (R.decodeWalk (depth + 1) node element).into (.index i)
          return .array values
        | _ => do throw (.typeMismatch (← get) "array" tree.kind)
      else throw R.tooDeep
termination_by R.options.maxDepth.toNat - depth.toNat
decreasing_by all_goals exact depth_decreasing (by assumption)

variable [LawfulMonad m] [LawfulThrow Error m] {R : Registry (Factory m μ)} {path : Path}
  {depth : UInt32}

/-- The fields that are taken out of an object are those that are looked up in it, if none is
    declared twice. What is left of the object has the members of the fields to come. -/
theorem walks_takeFields {decode : Tree → Descriptor → WalkM m (Value μ)}
    (h : ∀ p t d, Walks p (decode t d) (R.decodeAt p (depth + 1) t d))
    {members : List (String × Tree)} {specs : List FieldSpec} (hn : (specs.map (·.name)).Nodup)
    {left : List (String × Tree)}
    (hleft : ∀ spec ∈ specs, left.lookup spec.name = members.lookup spec.name)
    (fields : Fields μ) :
    Walks path (takeFields R.options decode specs left fields)
      ((fun entries => { fields with entries := fields.entries ++ entries }) <$>
        specs.mapM (R.decodeField path depth members)) := by
  induction specs generalizing left fields with
  | nil =>
    rw [takeFields, List.mapM_nil, map_pure, List.append_nil]
    exact .pure fields
  | cons spec specs ih =>
    rw [List.map_cons, List.nodup_cons] at hn
    rw [List.forall_mem_cons] at hleft
    -- What is left does not have the field any more, but still all others.
    have hothers : ∀ other ∈ specs, (left.eraseP (·.1 = spec.name)).lookup other.name =
        members.lookup other.name := by
      intro other hother
      have hne : other.name ≠ spec.name := fun heq => hn.1 (List.mem_map.2 ⟨other, hother, heq⟩)
      rw [Tree.lookup_eraseP hne, hleft.2 other hother]
    have hrest (value : Value μ) : Walks path (takeFields R.options decode specs
        (left.eraseP (·.1 = spec.name)) (fields.insert spec.name value))
        ((fun entries => { fields with entries := fields.entries ++ entries }) <$> do
          let entries ← specs.mapM (R.decodeField path depth members)
          return (spec.name, value) :: entries) := by
      rw [bind_pure_comp, Functor.map_map]
      simpa only [Fields.insert, List.append_assoc, List.singleton_append] using
        ih hn.2 hothers (fields.insert spec.name value)
    rw [takeFields, List.mapM_cons, map_bind, decodeField, hleft.1]
    cases members.lookup spec.name with
    | some node =>
      rw [bind_assoc]
      refine (h _ node spec.type).into.bind fun value => ?_
      rw [pure_bind]
      exact hrest value
    | none =>
      dsimp only
      split
      · rw [pure_bind, pure_bind]
        exact hrest .null
      · rw [LawfulThrow.throw_bind]
        exact .get_bind (.throw_bind _ _)

theorem walks_decodeObject {decode : Tree → Descriptor → WalkM m (Value μ)}
    (h : ∀ p t d, Walks p (decode t d) (R.decodeAt p (depth + 1) t d))
    {entry : TypeEntry (Factory m μ)} (hn : entry.fields.names.Nodup)
    (members : List (String × Tree)) :
    Walks path (R.objectWalk decode entry members) (R.decodeObject path depth entry members) := by
  rw [objectWalk, decodeObject]
  cases R.deniedKey? entry.fields members with
  | some key => exact .get_bind (.throw _)
  | none =>
    have hfields : Walks path (takeFields R.options decode entry.fields.specs members { path }) _ :=
      walks_takeFields h hn (fun _ _ => rfl) { path }
    have hmessage := hfields.bind fun fields =>
      (Walks.lift (entry.factory fields)).bind fun message => .pure (Value.message message)
    rw [bind_map_left] at hmessage
    exact .get_bind hmessage

/-- Decoding is a walk. -/
theorem walks_decodeAt (hR : R.DistinctFields) (path : Path) (depth : UInt32) (t : Tree)
    (d : Descriptor) : Walks path (R.decodeWalk depth t d) (R.decodeAt path depth t d) := by
  by_cases ht : t = .null
  · subst ht
    unfold decodeWalk decodeAt
    exact .pure Value.null
  have ht : t.isNull = false := isNull_eq_false_iff.2 ht
  unfold decodeWalk
  rw [ht, if_neg Bool.false_ne_true]
  cases d with
  | primitive =>
    rw [decodeAt_leaf ht]
    dsimp only
    split
    · exact .pure (Value.leaf t)
    · exact .throw _
  | message target =>
    rw [decodeAt_node ht]
    dsimp only
    split
    · refine Walks.ofExcept_bind fun type _ => Walks.ofExcept_bind fun entry he => ?_
      cases t with
      | object members =>
        exact walks_decodeObject (fun p t d => walks_decodeAt hR p (depth + 1) t d) (hR.entry he)
          members
      | _ => exact .get_bind (.throw _)
    · exact .throw _
  | array element =>
    rw [decodeAt_elements ht]
    dsimp only
    split
    · cases t with
      | array items =>
        rw [decodeItems]
        refine Walks.bind (.mapM (fun x => ?_) _) fun values => .pure _
        exact (walks_decodeAt hR _ (depth + 1) x.1 element).into
      | _ => exact .get_bind (.throw _)
    · exact .throw _
termination_by R.options.maxDepth.toNat - depth.toNat
decreasing_by all_goals exact depth_decreasing (by assumption)

/-- A tree is decoded by the walk from the root, whatever else factories do. -/
theorem decode_eq_walk (hR : R.Reachable) (t : Tree) (d : Descriptor) :
    R.decode t d = (R.decodeWalk 0 t d).run' .root :=
  (walks_decodeAt hR.distinctFields .root 0 t d).outcome.symm

end Decode

end Registry

end Missive
