import Missive.Decode
import Missive.Proofs.FieldType

/-!
# Factories

A factory is given the values of the declared fields. Two things may be asked of it, each being
the converse of the other:

* that it is *faithful* (`TypeEntry.Faithful`): a message that it builds shows the values that it
  was built from;
* that it *rebuilds* a message (`TypeEntry.Rebuilds`): from values that a message shows it builds
  that very message.

Factories run programs that take fields one by one. What one step does is said by
`Fields.take_of_ok` and `Fields.take_of_error` if the field is there, and by `Fields.take_eq_ok` if
the step succeeds. From the steps come rules for whole programs, one in each direction: `Makes` for
rebuilding and `Shows` for faithfulness.
-/

namespace Missive

open Outcome

variable {μ : Type} [Message μ]

/-- Under each name the message has a field, and it is seen as the value of that name. -/
def Fields.ShownBy (fields : Fields μ) (m : μ) : Prop :=
  ∀ e ∈ fields.entries, Message.field m e.1 = some e.2.view

namespace TypeEntry

/-- The messages that the factory builds of the declared fields have the given type, and show
    the values that they were built from. -/
def Faithful (entry : TypeEntry (Factory (Except Error) μ)) (type : MessageType) : Prop :=
  ∀ fields m, fields.names = entry.fields.names → entry.factory fields = .ok m →
    messageType m = type ∧ fields.ShownBy m

/-- The factory builds the message of all values of the declared fields that it shows. -/
def Rebuilds (entry : TypeEntry (Factory (Except Error) μ)) (m : μ) : Prop :=
  ∀ fields, fields.names = entry.fields.names → fields.ShownBy m → entry.factory fields = .ok m

end TypeEntry

/-! ## Taking a field -/

namespace Fields

variable {α : Type} [OfValue μ α] {fields fields' : Fields μ} {name : String} {a : α}

omit [Message μ] in
theorem perm_erase {v : Value μ} (h : fields.get? name = some v) :
    fields.entries.Perm ((name, v) :: (fields.erase name).entries) := by
  obtain ⟨before, after, he, hb⟩ := List.lookup_eq_some_iff.1 h
  have hne : ∀ e ∈ before, ¬ decide (e.1 = name) = true := by
    intro e hmem
    rw [decide_eq_true_eq]
    exact fun heq => absurd heq.symm (by simpa using hb e hmem)
  rw [erase, he, List.eraseP_append_right _ hne, List.eraseP_cons_of_pos (by simp)]
  exact List.perm_middle

omit [Message μ] in
theorem names_erase (fields : Fields μ) (name : String) :
    (fields.erase name).names = fields.names.erase name := by
  obtain ⟨path, entries⟩ := fields
  change (entries.eraseP (·.1 = name)).map (·.1) = (entries.map (·.1)).erase name
  induction entries with
  | nil => rfl
  | cons e entries ih =>
    rw [List.map_cons]
    by_cases h : e.1 = name
    · rw [List.eraseP_cons_of_pos (by simpa using h), h, List.erase_cons_head]
    · rw [List.eraseP_cons_of_neg (by simpa using h), List.map_cons, ih,
        List.erase_cons_tail (by simpa using h)]

omit [Message μ] [OfValue μ α] in
theorem run_get : (get : FieldsM μ (Fields μ)).run.run fields = (.ok fields, fields) := rfl

omit [Message μ] [OfValue μ α] in
theorem exists_get? (h : name ∈ fields.names) : ∃ v, fields.get? name = some v := by
  obtain ⟨e, he, rfl⟩ := List.mem_map.1 h
  cases hv : fields.get? e.1 with
  | none => exact absurd (List.lookup_eq_none_iff.1 hv e he) (by simp)
  | some v => exact ⟨v, rfl⟩

omit [Message μ] in
/-- Taking a field that is not there fails, and leaves the fields as they are. -/
theorem take_of_none (h : fields.get? name = none) :
    (take name : FieldsM μ α).run.run fields =
      (.error (.missingField fields.path name), fields) := by
  unfold take
  rw [run_bind_of_ok run_get, h]
  rfl

omit [Message μ] in
/-- Taking a field that is converted removes it, and leaves the path where it was. -/
theorem take_of_ok {v : Value μ} (h : fields.get? name = some v)
    (hv : (ofValue v : ConvertM α).run.run (fields.path.field name) =
      (.ok a, fields.path.field name)) :
    (take name : FieldsM μ α).run.run fields = (.ok a, fields.erase name) := by
  have hp : (fields.path.field name).pop = fields.path := fields.path.pop_push (.field name)
  unfold take
  rw [run_bind_of_ok run_get, h]
  dsimp only
  rw [hv]
  change (Except.ok a, { fields.erase name with path := (fields.path.field name).pop }) = _
  rw [hp]
  rfl

omit [Message μ] in
/-- Taking a field that is not converted removes it as well. The path is one step back from where the
    conversion has left it. -/
theorem take_of_error {v : Value μ} {e : Error} {q : Path} (h : fields.get? name = some v)
    (hv : (ofValue v : ConvertM α).run.run (fields.path.field name) = (.error e, q)) :
    (take name : FieldsM μ α).run.run fields =
      (.error e, { fields.erase name with path := q.pop }) := by
  unfold take
  rw [run_bind_of_ok run_get, h]
  dsimp only
  rw [hv]
  rfl

omit [Message μ] in
/-- A field that is taken is seen as one of the values, and the others are left. -/
theorem take_eq_ok [ToView μ α] [Faithful μ α]
    (h : (take name : FieldsM μ α).run.run fields = (.ok a, fields')) :
    ∃ v, fields.entries.Perm ((name, v) :: fields'.entries) ∧ toView a = v.view := by
  unfold take at h
  rw [run_bind_of_ok run_get] at h
  cases hv : fields.get? name with
  | none =>
    rw [hv] at h
    cases h
  | some v =>
    rw [hv] at h
    rcases hc : (ofValue v : ConvertM α).run.run (fields.path.field name) with ⟨e | a', q⟩
    · dsimp only at h
      rw [hc] at h
      cases h
    · dsimp only at h
      rw [hc] at h
      cases h
      exact ⟨v, perm_erase hv, view_of_converted hc⟩

/-! ## Taking field after field -/

/-- The values of the given names are left, and the message shows them. -/
structure Holds (fields : Fields μ) (m : μ) (names : List String) : Prop where
  names_eq : fields.names = names
  shownBy : fields.ShownBy m

/-- A field that the message shows can be taken, and the others are left. -/
theorem Holds.take [ToView μ α] [Restorable μ α] {m : μ} {names : List String}
    (h : fields.Holds m names) (hn : name ∈ names) (ha : Message.field m name = some (toView a)) :
    ∃ fields', (take name : FieldsM μ α).run.run fields = (.ok a, fields') ∧
      fields'.Holds m (names.erase name) := by
  obtain ⟨v, hv⟩ := exists_get? (h.names_eq ▸ hn)
  have hperm := perm_erase hv
  have hmem : (name, v) ∈ fields.entries := hperm.symm.subset List.mem_cons_self
  have hview : v.view = toView a := Option.some.inj ((h.shownBy _ hmem).symm.trans ha)
  refine ⟨_, take_of_ok hv (converts_of_view hview _), ?_, ?_⟩
  · rw [names_erase, h.names_eq]
  · exact fun e he => h.shownBy e (hperm.symm.subset (List.mem_cons_of_mem _ he))

end Fields

section Programs

open Fields (take)

variable {α β : Type} {m : μ} {names : List String} {name : String} {a : α}

/-- The program makes `a` of all fields of the given names that the message shows. -/
def Makes (m : μ) (names : List String) (create : FieldsM μ α) (a : α) : Prop :=
  ∀ fields, fields.Holds m names → (create.run.run fields).1 = .ok a

theorem Makes.pure : Makes m names (pure a) a := fun _ _ => rfl

/-- A builder that takes a field makes the instance if the instance shows the field under that name,
    and the rest of the builder makes it of the other fields. -/
theorem Makes.take [ToView μ β] [OfValue μ β] [Restorable μ β] {f : β → FieldsM μ α} {b : β}
    (hn : name ∈ names) (hb : Message.field m name = some (toView b))
    (h : Makes m (names.erase name) (f b) a) : Makes m names (take name >>= f) a := by
  intro fields hf
  obtain ⟨fields', hrun, hf'⟩ := hf.take hn hb
  rw [run_bind_of_ok hrun]
  exact h fields' hf'

/-- Whatever the program makes of `n` fields shows them, and shows under the given names what was
    taken before. -/
def Shows (wrap : α → μ) (taken : List (String × View μ)) (n : Nat) (create : FieldsM μ α) : Prop :=
  ∀ fields a fields', create.run.run fields = (.ok a, fields') → fields.size = n →
    fields.ShownBy (wrap a) ∧ ∀ e ∈ taken, Message.field (wrap a) e.1 = some e.2

variable {wrap : α → μ} {taken : List (String × View μ)}

theorem Shows.pure (h : ∀ e ∈ taken, Message.field (wrap a) e.1 = some e.2) :
    Shows wrap taken 0 (pure a) := by
  intro fields a' fields' hrun hn
  cases hrun
  refine ⟨fun e he => ?_, h⟩
  rw [List.eq_nil_of_length_eq_zero hn] at he
  exact absurd he List.not_mem_nil

/-- What a builder takes is shown if the rest of the builder shows it. -/
theorem Shows.take [ToView μ β] [OfValue μ β] [Faithful μ β] {f : β → FieldsM μ α} {n : Nat}
    (h : ∀ b, Shows wrap ((name, toView b) :: taken) n (f b)) :
    Shows wrap taken (n + 1) (take name >>= f) := by
  intro fields a fields' hrun hn
  obtain ⟨b, rest, hb, hrun⟩ := run_bind_eq_ok hrun
  obtain ⟨v, hp, hv⟩ := Fields.take_eq_ok hb
  have hrest : rest.size = n := by
    have hlength : fields.size = rest.size + 1 := hp.length_eq
    omega
  obtain ⟨hshown, htaken⟩ := h b rest a fields' hrun hrest
  rw [List.forall_mem_cons] at htaken
  refine ⟨fun e he => ?_, htaken.2⟩
  -- The value taken here is shown because it stands in the list by now, the others by the rest.
  rcases List.mem_cons.1 (hp.subset he) with rfl | he
  · rw [htaken.1, hv]
  · exact hshown e he

end Programs

end Missive
