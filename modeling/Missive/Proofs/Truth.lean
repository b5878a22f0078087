import Missive.Packing
import Missive.Proofs.Conversion
import Missive.Proofs.Factory
import Missive.Proofs.Validation

/-!
# Errors that tell the truth

What the error of a failed decoding says about the tree can be seen in the tree: the path leads to
the node at fault, through what is declared for it, and the fault is there.

Errors arise in two places: decoding itself, and the factories. Of a factory it is asked that its
errors are true of each object that it may be given the values of (`Registry.TruthfulFactory`).
Factories run programs that take fields one by one, and there is a rule for these programs
(`Registry.Truthfully`).

* `Registry.Truthful`: the error is true of the tree.
* `Registry.Site`: an object inside of a tree, with the table that is declared for it.
* `Registry.truthful_of_fails`: under truthful factories each failed decoding is truthful.
* `Registry.Honest.readsTruthfully`: so is each failed reading of a message.
-/

namespace Missive.Registry

open List (Forall₂)
open Outcome

section Truthful

variable {φ : Type}

/-- What the error says is true of the tree, as the descriptor declares it:

    * a missing field is declared for the object at the path, where it may not be absent, and the
      object does not have it;
    * an unknown field is one that the object at the path has, and that is not declared for it;
    * a mismatch tells of the node at its path; or its path leads to a field that is declared and
      absent, and that was to be taken as null;
    * a limit that is exceeded is the one that is set.

    No other error is true of a tree. -/
def Truthful (R : Registry φ) (enums : List String) (d : Descriptor) (t : Tree) : Error → Prop
  | .missingField path field =>
    R.options.missingFields = .error ∧ ∃ members table spec,
      t.at? path.steps = some (.object members) ∧ members.lookup field = none ∧
      R.tableAt? d path.steps = some table ∧ table.get? field = some spec ∧ spec.nullable = false
  | .unknownField path field =>
    R.options.denyUnknownFields = true ∧ ∃ members table,
      t.at? path.steps = some (.object members) ∧ field ∈ members.map (·.1) ∧
      R.tableAt? d path.steps = some table ∧ table.get? field = none
  | .typeMismatch path expected got =>
    (∃ node, t.at? path.steps = some node ∧ got = node.told enums expected) ∨
    (R.options.missingFields = .treatAsNull ∧ got = "null" ∧ ∃ parent field members table,
      path = Path.field parent field ∧ t.at? parent.steps = some (.object members) ∧
      members.lookup field = none ∧ R.tableAt? d parent.steps = some table ∧
      (table.get? field).isSome = true)
  | .depthExceeded maxDepth => maxDepth = R.options.maxDepth
  | _ => False

/-- An object inside of a tree, with the table that is declared for it. -/
structure Site (R : Registry φ) (table : FieldTable) where
  descriptor : Descriptor
  tree : Tree
  path : Path
  members : List (String × Tree)
  at_path : tree.at? path.steps = some (.object members)
  declared : R.tableAt? descriptor path.steps = some table

namespace Site

variable {R : Registry φ} {table : FieldTable} {enums : List String} {name : String}

theorem at_field (s : Site R table) {node : Tree} (h : s.members.lookup name = some node)
    (steps : List Step) : s.tree.at? ((s.path.field name).steps ++ steps) = node.at? steps :=
  Tree.at?_append (Tree.at?_field s.at_path h)

theorem truthful_absent (s : Site R table) {spec : FieldSpec} {expected : String}
    (h : s.members.lookup name = none) (hs : table.get? name = some spec)
    (ho : R.options.missingFields = .treatAsNull) :
    R.Truthful enums s.descriptor s.tree (.typeMismatch (s.path.field name) expected "null") :=
  .inr ⟨ho, rfl, s.path, name, s.members, table, rfl, s.at_path, h, s.declared, by rw [hs]; rfl⟩

end Site

end Truthful

variable {μ : Type} [Message μ] {R : Registry (Factory (Except Error) μ)} {enums : List String}
  {table : FieldTable}

/-! ## Programs -/

/-- The values of the given names are left to be taken, each of which was decoded from the object
    of the site. -/
structure Site.Reads (s : Site R table) (depth : UInt32) (names : List String)
    (fields : Fields μ) : Prop where
  path_eq : fields.path = s.path
  names_eq : fields.names = names
  decoded : ∀ e ∈ fields.entries, ∃ spec, table.get? e.1 = some spec ∧
    R.decodeField s.path depth s.members spec = .ok e

/-- If the program fails on the values of the given names, its error is true of the tree that they
    were decoded from. -/
def Truthfully (R : Registry (Factory (Except Error) μ)) (enums : List String) (table : FieldTable)
    {α : Type} (names : List String) (create : FieldsM μ α) : Prop :=
  ∀ (s : Site R table) depth fields e, s.Reads depth names fields →
    (create.run.run fields).1 = .error e → R.Truthful enums s.descriptor s.tree e

section Programs

open Fields (take)

variable {α β : Type} {names : List String} {name : String}

omit [Message μ] in
theorem Truthfully.pure {a : α} : R.Truthfully enums table names (pure a) := by
  intro s depth fields e _ h
  cases h

omit [Message μ] in
/-- A value that was decoded for a declared field is converted, or fails truthfully. If the field
    may be null, a null has to be converted. -/
theorem Site.convert (s : Site R table) [OfValue μ β] {spec : FieldSpec} {depth : UInt32}
    {e : String × Value μ} (hs : table.get? spec.name = some spec)
    (hc : R.Candid enums spec.type β)
    (hnull : spec.nullable = false ∨ ∃ b : β, Converts (.null : Value μ) b)
    (he : R.decodeField s.path depth s.members spec = .ok e) :
    (∃ b, (ofValue e.2 : ConvertM β).run.run (s.path.field spec.name) =
      (.ok b, s.path.field spec.name)) ∨
    ∃ error q, (ofValue e.2 : ConvertM β).run.run (s.path.field spec.name) = (.error error, q) ∧
      R.Truthful enums s.descriptor s.tree error := by
  obtain ⟨_, ⟨node, hl, hv⟩ | ⟨hl, ha, hv⟩⟩ := decodeField_eq_ok he
  · rcases hc hv (s.path.field spec.name) with hok | ⟨steps, expected, node', q, hat, hrun⟩
    · exact .inl hok
    · exact .inr ⟨_, q, hrun, .inl ⟨node', (s.at_field hl steps).trans hat, rfl⟩⟩
  · rw [hv]
    rcases hnull with hn | ⟨b, hb⟩
    · have ho : R.options.missingFields = .treatAsNull := by simpa [allowsAbsent, hn] using ha
      have hnone : R.decodeAt s.path depth .null spec.type = .ok .null := decodeAt_null
      -- Nothing lies below a null, so the mismatch is at the field itself.
      rcases hc hnone (s.path.field spec.name) with hok | ⟨steps, expected, node, q, hat, hrun⟩
      · exact .inl hok
      · cases steps with
        | nil =>
          cases hat
          rw [List.append_nil, Tree.told_null] at hrun
          exact .inr ⟨_, q, hrun, s.truthful_absent hl hs ho⟩
        | cons step steps => cases hat
    · exact .inl ⟨b, hb _⟩

omit [Message μ] in
theorem Site.Reads.erase {s : Site R table} {depth : UInt32} {fields : Fields μ}
    (h : s.Reads depth names fields) (name : String) :
    s.Reads depth (names.erase name) (fields.erase name) where
  path_eq := h.path_eq
  names_eq := by rw [Fields.names_erase, h.names_eq]
  decoded e he := h.decoded e (List.mem_of_mem_eraseP he)

omit [Message μ] in
/-- A builder that takes a field is truthful if the type of the field is converted candidly, a null
    that the table allows is converted, and the rest of the builder is truthful. -/
theorem Truthfully.take [OfValue μ β] {f : β → FieldsM μ α} {spec : FieldSpec}
    (hn : name ∈ names) (hs : table.get? name = some spec) (hc : R.Candid enums spec.type β)
    (hnull : spec.nullable = false ∨ ∃ b : β, Converts (.null : Value μ) b)
    (h : ∀ b, R.Truthfully enums table (names.erase name) (f b)) :
    R.Truthfully enums table names (take name >>= f) := by
  obtain ⟨_, rfl⟩ := FieldTable.mem_of_get? hs
  intro s depth fields e hr he
  obtain ⟨v, hv⟩ := Fields.exists_get? (hr.names_eq ▸ hn)
  obtain ⟨spec', hs', hdecoded⟩ := hr.decoded _ (Tree.mem_of_lookup hv)
  cases hs.symm.trans hs'
  rcases s.convert hs hc hnull hdecoded with ⟨b, hb⟩ | ⟨error, q, herror, htrue⟩
  · rw [← hr.path_eq] at hb
    rw [run_bind_of_ok (Fields.take_of_ok hv hb)] at he
    exact h b s depth _ e (hr.erase _) he
  · rw [← hr.path_eq] at herror
    rw [run_bind_of_error (Fields.take_of_error hv herror)] at he
    cases he
    exact htrue

end Programs

/-! ## Registries -/

/-- If the factory fails on the values of an object, its error is true of the tree that the object
    stands in. -/
def TruthfulFactory (R : Registry (Factory (Except Error) μ)) (enums : List String)
    (entry : TypeEntry (Factory (Except Error) μ)) : Prop :=
  ∀ (s : Site R entry.fields) depth entries e,
    Forall₂ (fun spec e => R.decodeField s.path depth s.members spec = .ok e)
      entry.fields.specs entries →
    entry.factory { path := s.path, entries } = .error e →
    R.Truthful enums s.descriptor s.tree e

omit [Message μ] in
/-- At first all values of the declared fields are left to be taken. -/
theorem Site.reads_of_decoded (s : Site R table) (hn : table.names.Nodup) {depth : UInt32}
    {entries : List (String × Value μ)}
    (h : Forall₂ (fun spec e => R.decodeField s.path depth s.members spec = .ok e)
      table.specs entries) :
    s.Reads depth table.names { path := s.path, entries } where
  path_eq := rfl
  names_eq := map_eq_map_of_forall₂ (h.imp fun _ _ he => (decodeField_eq_ok he).name)
  decoded e he := by
    obtain ⟨spec, hs, hdecoded⟩ := exists_of_mem_right h he
    refine ⟨spec, ?_, hdecoded⟩
    rw [(decodeField_eq_ok hdecoded).name]
    exact FieldTable.get?_of_mem hn hs

/-- The registry has no dangling references and its factories are truthful. No enumeration has the
    name of a container. -/
structure Honest (R : Registry (Factory (Except Error) μ)) (enums : List String) : Prop where
  distinctFields : R.DistinctFields
  closed : R.Closed
  factories : ∀ x ∈ R.types, R.TruthfulFactory enums x.2
  object_notMem : "object" ∉ enums
  array_notMem : "array" ∉ enums

theorem tableAt?_of_follow {φ : Type} {R : Registry φ} {declared : Descriptor} {steps : List Step}
    {target : TypeRef} {entry : TypeEntry φ}
    (hd : R.descriptorAt? declared steps = some (.message target))
    (h : R.follow target = .ok entry) : R.tableAt? declared steps = some entry.fields :=
  (tableAt?_of_descriptorAt? hd).trans (tableOf?_of_follow h)

theorem allowsAbsent_eq_false {o : Options} {spec : FieldSpec} (h : allowsAbsent o spec = false) :
    o.missingFields = .error ∧ spec.nullable = false := by
  obtain ⟨hn, ho⟩ := Bool.or_eq_false_iff.1 h
  refine ⟨?_, hn⟩
  cases hm : o.missingFields with
  | error => rfl
  | treatAsNull => exact absurd hm (of_decide_eq_false ho)

omit [Message μ] in
/-- Each failed decoding inside of a tree has an error that is true of the tree. -/
theorem truthful_of_fails (hR : R.Honest enums) {root t : Tree} {declared d : Descriptor}
    {path : Path} {depth : UInt32} {e : Error} (h : R.Fails path depth t d e)
    (ht : root.at? path.steps = some t) (hd : R.descriptorAt? declared path.steps = some d)
    (hknown : ∀ target, d.reference? = some target → ∃ entry, R.follow target = .ok entry) :
    R.Truthful enums declared root e := by
  induction h with
  | leafTooDeep _ => rfl
  | tooDeep _ _ _ => rfl
  | reference hr =>
    obtain ⟨entry, he⟩ := hknown _ rfl
    cases hr.symm.trans he
  | notObject _ => exact .inl ⟨_, ht, by rw [Tree.told, if_neg hR.object_notMem]⟩
  | notArray _ => exact .inl ⟨_, ht, by rw [Tree.told, if_neg hR.array_notMem]⟩
  | denied hr hk =>
    obtain ⟨hdeny, hkey, hget⟩ := deniedKey?_eq_some hk
    exact ⟨hdeny, _, _, ht, hkey, tableAt?_of_follow hd hr, hget⟩
  | absent hr hs hl ha =>
    obtain ⟨ho, hnullable⟩ := allowsAbsent_eq_false ha
    exact ⟨ho, _, _, _, ht, hl, tableAt?_of_follow hd hr,
      FieldTable.get?_of_mem (hR.distinctFields.follow hr) hs, hnullable⟩
  | field _ hr hs hl _ ih =>
    obtain ⟨_, hmem⟩ := mem_types_of_follow hr
    exact ih (Tree.at?_field ht hl) (descriptorAt?_field hd (tableOf?_of_follow hr)
      (FieldTable.get?_of_mem (hR.distinctFields.follow hr) hs)) (hR.closed.tables _ hmem _ hs)
  | factory hr hs he =>
    obtain ⟨type, hmem⟩ := mem_types_of_follow hr
    exact hR.factories _ hmem ⟨declared, root, _, _, ht, tableAt?_of_follow hd hr⟩ _ _ _ hs he
  | item _ hi _ ih => exact ih (Tree.at?_index ht hi) (descriptorAt?_index hd _) hknown

/-- If a message of type `α` cannot be read from a tree, the error is true of the tree. -/
def ReadsTruthfully (R : Registry (Factory (Except Error) μ)) (enums : List String) (α : Type)
    [MessageClass μ α] : Prop :=
  ∀ t e, (R.ofTree t : Except Error α) = .error e →
    R.Truthful enums (.message (.handle (MessageClass.handle μ α))) t e

theorem Honest.readsTruthfully (hR : R.Honest enums) {α : Type} [MessageClass μ α]
    (hk : R.contains (MessageClass.handle μ α) = true)
    (hα : R.Candid enums (.message (.handle (MessageClass.handle μ α))) α) :
    R.ReadsTruthfully enums α := by
  intro t e h
  rcases bind_eq_error_iff.1 h with hdecode | ⟨v, hv, hroot⟩
  · refine truthful_of_fails hR (fails_of_decodeAt hdecode) rfl rfl ?_
    rintro _ ⟨⟩
    exact hR.closed.follow_of_knows hk
  · rw [ofExcept_eq, convertRoot] at hroot
    rcases hα hv .root with ⟨a, ha⟩ | ⟨steps, expected, node, q, hat, he⟩
    · rw [ha] at hroot
      cases hroot
    · rw [he] at hroot
      cases hroot
      exact .inl ⟨node, hat, rfl⟩

end Missive.Registry
