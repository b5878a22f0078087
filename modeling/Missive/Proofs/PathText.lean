import Mathlib
import Missive.Proofs.EncodeFailure
import Missive.Proofs.Failure
import Missive.Proofs.Location
import Missive.Proofs.Runs
import Missive.Proofs.Sample.Factories
import Missive.Proofs.Text.Numeral
import Missive.Proofs.Validation

/-!
# Paths told from their texts

The text of a path does not escape the names in it, so a name with a dot can be taken for two. If
no name has a dot or a bracket that opens, these two are *marks*: behind the first step each step
starts with one, and goes on until the next. What stands in front of the first mark is a dollar
sign for the root, nothing if the first step is an index, and else the name of the first field.

* `PlainName`, `Path.Plain`: the names and the paths of which this is so.
* `Path.text_inj`: plain paths with the same text are the same.
* `Registry.Plain`: the registries whose errors tell of plain paths.
* `KeepsPlain`: what factories are to satisfy for that, shown for taking a field.
-/

namespace Missive

/-- A field name that can be told from what stands around it in the text of a path. -/
structure PlainName (name : String) : Prop where
  ne_empty : name ≠ ""
  no_dot : '.' ∉ name.toList
  no_bracket : '[' ∉ name.toList
  ne_root : name ≠ "$"

instance (name : String) : Decidable (PlainName name) :=
  decidable_of_iff (name ≠ "" ∧ '.' ∉ name.toList ∧ '[' ∉ name.toList ∧ name ≠ "$")
    ⟨fun h => ⟨h.1, h.2.1, h.2.2.1, h.2.2.2⟩, fun h => ⟨h.1, h.2, h.3, h.4⟩⟩

namespace Path

/-- The fields on the path have plain names. -/
def Plain (p : Path) : Prop := ∀ name, .field name ∈ p.steps → PlainName name

/-! ## Marks -/

/-- The characters that a step starts with behind another one. -/
def IsMark (c : Char) : Prop := c = '.' ∨ c = '['

/-- What stands in front of the first mark is told from what comes with it. -/
theorem append_inj_of_mark (mark : Char → Prop) {front front' rest rest' : List Char}
    (hfront : ∀ c ∈ front, ¬mark c) (hfront' : ∀ c ∈ front', ¬mark c)
    (hrest : ∀ c ∈ rest.head?, mark c) (hrest' : ∀ c ∈ rest'.head?, mark c)
    (h : front ++ rest = front' ++ rest') : front = front' ∧ rest = rest' := by
  induction front generalizing front' with
  | nil =>
    cases front' with
    | nil => exact ⟨rfl, h⟩
    | cons c front' =>
      rw [List.nil_append] at h
      exact absurd (hrest c (by simp [h])) (hfront' c List.mem_cons_self)
  | cons c front ih =>
    cases front' with
    | nil =>
      rw [List.nil_append] at h
      exact absurd (hrest' c (by simp [← h])) (hfront c List.mem_cons_self)
    | cons c' front' =>
      rw [List.forall_mem_cons] at hfront hfront'
      obtain ⟨rfl, hnext⟩ := List.cons.inj h
      obtain ⟨rfl, hsame⟩ := ih hfront.2 hfront'.2 hnext
      exact ⟨rfl, hsame⟩

/-! ## Steps behind another one -/

/-- The characters of steps behind another one. -/
def tailChars (steps : List Step) : List Char := steps.flatMap fun s => (stepText s).toList

theorem tailChars_field (name : String) (steps : List Step) :
    tailChars (.field name :: steps) = '.' :: (name.toList ++ tailChars steps) := by
  simp [tailChars, stepText]

theorem tailChars_index (n : Nat) (steps : List Step) :
    tailChars (.index n :: steps) = '[' :: (digitsOf n ++ ']' :: tailChars steps) := by
  simp [tailChars, stepText, digitsOf]

theorem isMark_head_tailChars (steps : List Step) : ∀ c ∈ (tailChars steps).head?, IsMark c := by
  rcases steps with _ | ⟨name | n, steps⟩
  · simp [tailChars]
  · simp [tailChars_field, IsMark]
  · simp [tailChars_index, IsMark]

theorem not_isMark_of_plain {name : String} (h : PlainName name) :
    ∀ c ∈ name.toList, ¬IsMark c := by
  rintro c hc (rfl | rfl)
  · exact h.no_dot hc
  · exact h.no_bracket hc

theorem not_bracket_of_digits (n : Nat) : ∀ c ∈ digitsOf n, ¬c = ']' := by
  rintro c hc rfl
  cases isDigit_of_mem_digitsOf hc

theorem digitsOf_inj {n m : Nat} (h : digitsOf n = digitsOf m) : n = m := by
  rw [← valueOf_digitsOf n, h, valueOf_digitsOf]

/-- A step is told from its characters, and so is what follows it. -/
theorem tailChars_cons_inj {s s' : Step} {steps steps' : List Step} (hp : Plain ⟨s :: steps⟩)
    (hp' : Plain ⟨s' :: steps'⟩) (h : tailChars (s :: steps) = tailChars (s' :: steps')) :
    s = s' ∧ tailChars steps = tailChars steps' := by
  cases s with
  | field name =>
    cases s' with
    | field name' =>
      rw [tailChars_field, tailChars_field] at h
      have hplain := not_isMark_of_plain (hp name List.mem_cons_self)
      have hplain' := not_isMark_of_plain (hp' name' List.mem_cons_self)
      obtain ⟨hname, hrest⟩ := append_inj_of_mark IsMark hplain hplain'
        (isMark_head_tailChars steps) (isMark_head_tailChars steps') (List.cons.inj h).2
      exact ⟨congrArg Step.field (String.toList_injective hname), hrest⟩
    | index n =>
      rw [tailChars_field, tailChars_index] at h
      cases (List.cons.inj h).1
  | index n =>
    cases s' with
    | field name =>
      rw [tailChars_field, tailChars_index] at h
      cases (List.cons.inj h).1
    | index n' =>
      rw [tailChars_index, tailChars_index] at h
      -- The digits end with the bracket that closes.
      obtain ⟨hdigits, hrest⟩ := append_inj_of_mark (· = ']') (not_bracket_of_digits n)
        (not_bracket_of_digits n') (by simp) (by simp) (List.cons.inj h).2
      exact ⟨congrArg Step.index (digitsOf_inj hdigits), (List.cons.inj hrest).2⟩

theorem tailChars_cons_ne_nil (s : Step) (steps : List Step) : tailChars (s :: steps) ≠ [] := by
  cases s with
  | field name => simp [tailChars_field]
  | index n => simp [tailChars_index]

/-- Plain steps behind another one are told from their characters. -/
theorem tailChars_inj {steps steps' : List Step} (hp : Plain ⟨steps⟩) (hp' : Plain ⟨steps'⟩)
    (h : tailChars steps = tailChars steps') : steps = steps' := by
  induction steps generalizing steps' with
  | nil =>
    cases steps' with
    | nil => rfl
    | cons s' steps' => exact absurd h.symm (tailChars_cons_ne_nil s' steps')
  | cons s steps ih =>
    cases steps' with
    | nil => exact absurd h (tailChars_cons_ne_nil s steps)
    | cons s' steps' =>
      obtain ⟨rfl, hrest⟩ := tailChars_cons_inj hp hp' h
      rw [ih (fun name hname => hp name (List.mem_cons_of_mem _ hname))
        (fun name hname => hp' name (List.mem_cons_of_mem _ hname)) hrest]

/-! ## The first step -/

/-- What stands in front of the first mark, and the steps that come with it. -/
def lead : List Step → String × List Step
  | [] => ("$", [])
  | .field name :: rest => (name, rest)
  | .index n :: rest => ("", .index n :: rest)

theorem toList_text (p : Path) :
    p.text.toList = (lead p.steps).1.toList ++ tailChars (lead p.steps).2 := by
  obtain ⟨_ | ⟨name | n, rest⟩⟩ := p
  · rfl
  · simp [text, lead, firstText, tailChars, List.flatMap_map]
  · simp [text, lead, firstText, tailChars, stepText, List.flatMap_map]

theorem lead_inj {steps steps' : List Step} (hp : Plain ⟨steps⟩) (hp' : Plain ⟨steps'⟩)
    (h : lead steps = lead steps') : steps = steps' := by
  rcases steps with _ | ⟨name | n, rest⟩ <;> rcases steps' with _ | ⟨name' | n', rest'⟩
  all_goals simp only [lead, Prod.mk.injEq] at h
  · rfl
  · exact absurd h.1.symm (hp' name' List.mem_cons_self).ne_root
  · exact absurd h.1 (by decide)
  · exact absurd h.1 (hp name List.mem_cons_self).ne_root
  · rw [h.1, h.2]
  · exact absurd h.1 (hp name List.mem_cons_self).ne_empty
  · exact absurd h.1 (by decide)
  · exact absurd h.1.symm (hp' name' List.mem_cons_self).ne_empty
  · exact h.2

theorem plain_lead {steps : List Step} (hp : Plain ⟨steps⟩) : Plain ⟨(lead steps).2⟩ := by
  rcases steps with _ | ⟨name | n, rest⟩
  · exact hp
  · exact fun name hname => hp name (List.mem_cons_of_mem _ hname)
  · exact hp

/-- Nothing that stands in front of the first mark is one. -/
theorem not_isMark_lead {steps : List Step} (hp : Plain ⟨steps⟩) :
    ∀ c ∈ (lead steps).1.toList, ¬IsMark c := by
  rcases steps with _ | ⟨name | n, rest⟩
  · simp [lead, IsMark]
  · exact not_isMark_of_plain (hp name List.mem_cons_self)
  · simp [lead]

/-- Plain paths with the same text are the same. -/
theorem text_inj {p q : Path} (hp : p.Plain) (hq : q.Plain) (h : p.text = q.text) : p = q := by
  have hchars := congrArg String.toList h
  rw [toList_text, toList_text] at hchars
  obtain ⟨hfirst, hrest⟩ := append_inj_of_mark IsMark (not_isMark_lead hp) (not_isMark_lead hq)
    (isMark_head_tailChars _) (isMark_head_tailChars _) hchars
  have hlead : lead p.steps = lead q.steps :=
    Prod.ext (String.toList_injective hfirst) (tailChars_inj (plain_lead hp) (plain_lead hq) hrest)
  exact congrArg Path.mk (lead_inj hp hq hlead)

-- None of the four things that are asked of names can be left out.
example :
    (⟨[.field "a.b"]⟩ : Path).text = (⟨[.field "a", .field "b"]⟩ : Path).text ∧
    (⟨[.field "a[0]"]⟩ : Path).text = (⟨[.field "a", .index 0]⟩ : Path).text ∧
    (⟨[.field "", .index 0]⟩ : Path).text = (⟨[.index 0]⟩ : Path).text ∧
    (⟨[.field "$"]⟩ : Path).text = root.text := by decide

/-! ## Plain paths -/

variable {p : Path} {name : String}

theorem plain_root : root.Plain := fun _ h => absurd h List.not_mem_nil

theorem Plain.field (hp : p.Plain) (hname : PlainName name) : (p.field name).Plain := by
  intro name' hmem
  rcases List.mem_append.1 hmem with hmem | hmem
  · exact hp name' hmem
  · cases List.mem_singleton.1 hmem
    exact hname

theorem Plain.into (hp : p.Plain) (indexes : List Nat) : (p.into indexes).Plain := by
  intro name hmem
  rcases List.mem_append.1 hmem with hmem | hmem
  · exact hp name hmem
  · simp at hmem

theorem Plain.index (hp : p.Plain) (n : Nat) : (p.index n).Plain := hp.into [n]

theorem Plain.pop (hp : p.Plain) : p.pop.Plain :=
  fun name hmem => hp name (List.dropLast_subset _ hmem)

end Path

/-! ## Errors -/

/-- The path that an error tells of. -/
def Error.path? : Error → Option Path
  | missingField path _ | unknownField path _ | typeMismatch path _ _ => some path
  | _ => none

/-- The path that the error tells of is plain, if there is one. -/
def Error.Plain (e : Error) : Prop := ∀ path, e.path? = some path → path.Plain

theorem Error.IsDangling.plain {e : Error} (h : e.IsDangling) : e.Plain := by
  intro path hpath
  cases e with
  | unknownType | unknownTypeName => cases hpath
  | _ => cases h

variable {μ : Type} [Message μ]

namespace Registry

/-- The declared fields have plain names, and factories report plain paths if they are given one. -/
structure Plain (R : Registry (Factory (Except Error) μ)) : Prop where
  fields : ∀ x ∈ R.types, ∀ spec ∈ x.2.fields.specs, PlainName spec.name
  factories : ∀ x ∈ R.types, ∀ fields e, fields.path.Plain → x.2.factory fields = .error e → e.Plain

variable {R : Registry (Factory (Except Error) μ)} {path : Path} {depth : UInt32} {d : Descriptor}
  {e : Error}

theorem Plain.of_encodeFails (hR : R.Plain) {v : View μ} (h : R.EncodeFails path depth v d e)
    (hp : path.Plain) : e.Plain := by
  induction h with
  | nonFinite | mismatch | absent =>
    rintro _ ⟨⟩
    exact hp
  | leafTooDeep | messageTooDeep | arrayTooDeep | unregistered => rintro _ ⟨⟩
  | field _ ht hs _ _ ih =>
    obtain ⟨entry, he, rfl⟩ := lookupFields_eq_ok_iff.1 ht
    exact ih (hp.field (hR.fields _ (Tree.mem_of_lookup (entry_eq_ok_iff.1 he)) _ hs))
  | item _ _ _ ih => exact ih (hp.index _)

omit [Message μ] in
theorem Plain.of_fails (hR : R.Plain) {t : Tree} (h : R.Fails path depth t d e) (hp : path.Plain) :
    e.Plain := by
  induction h with
  | notObject | denied | absent | notArray =>
    rintro _ ⟨⟩
    exact hp
  | leafTooDeep | tooDeep => rintro _ ⟨⟩
  | reference hf => exact (isDangling_of_follow hf).plain
  | field _ hf hs _ _ ih =>
    obtain ⟨type, hmem⟩ := mem_types_of_follow hf
    exact ih (hp.field (hR.fields _ hmem _ hs))
  | factory hf _ he =>
    obtain ⟨type, hmem⟩ := mem_types_of_follow hf
    exact hR.factories _ hmem _ _ hp he
  | item _ _ _ ih => exact ih (hp.index _)

/-- Encoding or decoding by the registry fails with the error. -/
def Raises (R : Registry (Factory (Except Error) μ)) (e : Error) : Prop :=
  (∃ (v : View μ) (d : Descriptor), R.encode v d = .error e) ∨
    ∃ (t : Tree) (d : Descriptor), R.decode t d = .error e

theorem Plain.of_raises (hR : R.Plain) (h : R.Raises e) : e.Plain := by
  rcases h with ⟨v, d, h⟩ | ⟨t, d, h⟩
  · exact hR.of_encodeFails (encodeFails_of_encodeAt h) Path.plain_root
  · exact hR.of_fails (fails_of_decodeAt h) Path.plain_root

end Registry

/-! ## Taking fields -/

/-- From fields at a plain path the program leads to fields at a plain path, and if it fails it
    reports a plain path. -/
def KeepsPlain {α : Type} (x : FieldsM μ α) : Prop :=
  ∀ fields : Fields μ, fields.path.Plain →
    (x.run.run fields).2.path.Plain ∧ ∀ e, (x.run.run fields).1 = .error e → e.Plain

namespace KeepsPlain

variable {α β : Type}

omit [Message μ] in
theorem pure {a : α} : KeepsPlain (pure a : FieldsM μ α) := fun _ h => ⟨h, by rintro _ ⟨⟩⟩

omit [Message μ] in
theorem bind {x : FieldsM μ α} {f : α → FieldsM μ β} (hx : KeepsPlain x)
    (hf : ∀ a, KeepsPlain (f a)) : KeepsPlain (x >>= f) := by
  intro fields h
  obtain ⟨hpath, herror⟩ := hx fields h
  rcases hrun : x.run.run fields with ⟨e | a, fields'⟩
  · rw [hrun] at hpath herror
    rw [Outcome.run_bind_of_error hrun]
    exact ⟨hpath, fun e' he => herror e' (by cases he; rfl)⟩
  · rw [hrun] at hpath
    rw [Outcome.run_bind_of_ok hrun]
    exact hf a fields' hpath

theorem take [OfValue μ α] {n : Nat} (h : FieldType μ α n) {name : String}
    (hname : PlainName name) : KeepsPlain (Fields.take name : FieldsM μ α) := by
  intro fields hp
  rcases h.take_cases fields name with ⟨_, hrun⟩ | ⟨v, _, ⟨a, hrun⟩ | ⟨_, _, hends, hrun⟩⟩
  · rw [hrun]
    refine ⟨hp, ?_⟩
    rintro _ ⟨⟩ _ ⟨⟩
    exact hp
  · rw [hrun]
    exact ⟨hp, by rintro _ ⟨⟩⟩
  · obtain ⟨indexes, expected, got, _, _, rfl, rfl⟩ := hends
    have hfield := (hp.field hname).into indexes
    rw [hrun]
    refine ⟨hfield.pop, ?_⟩
    rintro _ ⟨⟩ _ ⟨⟩
    exact hfield

end KeepsPlain

/-- Paths whose fields have plain names have the same text only if they are the same. So the text of
    a path in an error, of encoding or of decoding by a registry in which all names are plain, tells
    each step of the path. -/
theorem path_text_identifies (R : Registry (Factory (Except Error) μ)) :
    (∀ p q : Path, p.Plain → q.Plain → (p.text = q.text ↔ p = q)) ∧
    (R.Plain → ∀ e e' p q, R.Raises e → R.Raises e' → e.path? = some p → e'.path? = some q →
      (p.text = q.text ↔ p = q)) := by
  have hplain (p q : Path) (hp : p.Plain) (hq : q.Plain) : p.text = q.text ↔ p = q :=
    ⟨Path.text_inj hp hq, congrArg Path.text⟩
  refine ⟨hplain, fun hR e e' p q he he' hp hq => ?_⟩
  exact hplain p q (hR.of_raises he p hp) (hR.of_raises he' q hq)

section Foos

open Sample (Instance Kind)

/-- Foos, and the bars in their rows. -/
def foosRegistry : Registry (Factory (Except Error) Instance) :=
  ({} : Registry (Factory (Except Error) Instance)).performAll
    [.register Sample.bar, .register Sample.foo]

theorem foosRegistry_plain : foosRegistry.Plain where
  fields := by decide
  factories := by
    have hbar : KeepsPlain Sample.Bar.create :=
      (KeepsPlain.take (.int _) (by decide)).bind fun _ => .pure
    have hfoo : KeepsPlain Sample.Foo.create :=
      (KeepsPlain.take (.option (.int _)) (by decide)).bind fun _ =>
        (KeepsPlain.take (.list (.list (.message _))) (by decide)).bind fun _ => .pure
    have htypes : foosRegistry.types = [(Kind.type .bar, Sample.entryOf Sample.bar),
      (Kind.type .foo, Sample.entryOf Sample.foo)] := rfl
    rw [htypes, List.forall_mem_cons, List.forall_mem_singleton]
    exact ⟨fun fields e hp he => (hbar fields hp).2 e (Sample.factory_eq_error he),
      fun fields e hp he => (hfoo fields hp).2 e (Sample.factory_eq_error he)⟩

/-- A bar whose number is a truth value is told from a truth value in place of the bar. -/
theorem path_text_identifies_foos :
    let p : Path := ⟨[.field "bar", .index 1, .index 0, .field "y"]⟩
    let q : Path := ⟨[.field "bar", .index 1, .index 0]⟩
    let rows (node : Tree) : Tree := .object [("bar", .array [.array [], .array [node]])]
    foosRegistry.decode (rows (.object [("y", .bool true)])) (.message (.named "Foo")) =
      .error (.typeMismatch p "i64" "bool") ∧
    foosRegistry.decode (rows (.bool true)) (.message (.named "Foo")) =
      .error (.typeMismatch q "object" "bool") ∧
    p.text ≠ q.text := by
  intro p q rows
  have hp : foosRegistry.decode (rows (.object [("y", .bool true)])) (.message (.named "Foo")) =
      .error (.typeMismatch p "i64" "bool") := by cbv
  have hq : foosRegistry.decode (rows (.bool true)) (.message (.named "Foo")) =
      .error (.typeMismatch q "object" "bool") := by cbv
  obtain ⟨_, herrors⟩ := path_text_identifies foosRegistry
  refine ⟨hp, hq, fun h => ?_⟩
  have hsame : p = q :=
    (herrors foosRegistry_plain _ _ p q (.inr ⟨_, _, hp⟩) (.inr ⟨_, _, hq⟩) rfl rfl).1 h
  exact absurd hsame (by decide)

end Foos

end Missive
