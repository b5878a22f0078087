import Mathlib.Data.List.Forall2

/-!
# Outcomes in sequence

Computations that may fail, one after the other. A sequence of them succeeds iff each of them
does, and then its results are theirs, in order; so the success of a traversal is a relation
between two lists (`mapM_eq_ok_iff`). If it fails, one of them fails in that way (`mapM_eq_error`).

Two traversals agree if they do so on each element; this holds as well if errors of some kind are
left out of account (`AgreesUnless`).

A traversal that numbers the elements it visits passes the numbers on. Where the result of an
element does not depend on its number, the numbers can be forgotten (`mapM_zipIdx_eq_ok`), and
chosen at will (`mapM_zipIdx_ok`).

Where computations have further effects, all that is known of errors is that nothing is done after
one (`LawfulThrow`).
-/

namespace Missive.Outcome

open List (Forall₂)

variable {ε α β γ : Type}

theorem bind_eq_ok_iff {x : Except ε α} {f : α → Except ε β} {b : β} :
    x >>= f = .ok b ↔ ∃ a, x = .ok a ∧ f a = .ok b := by
  cases x with
  | error e =>
    constructor
    · intro h; cases h
    · rintro ⟨a, ha, _⟩; cases ha
  | ok a =>
    constructor
    · intro h; exact ⟨a, rfl, h⟩
    · rintro ⟨_, ha, h⟩; cases ha; exact h

theorem bind_eq_error_iff {x : Except ε α} {f : α → Except ε β} {e : ε} :
    x >>= f = .error e ↔ x = .error e ∨ ∃ a, x = .ok a ∧ f a = .error e := by
  cases x with
  | error e' =>
    constructor
    · intro h; cases h; exact .inl rfl
    · rintro (h | ⟨a, ha, _⟩)
      · cases h; rfl
      · cases ha
  | ok a =>
    constructor
    · intro h; exact .inr ⟨a, rfl, h⟩
    · rintro (h | ⟨_, ha, h⟩)
      · cases h
      · cases ha; exact h

@[simp] theorem ok_bind (a : α) (f : α → Except ε β) : (Except.ok a >>= f) = f a := rfl

@[simp] theorem pure_eq (a : α) : (pure a : Except ε α) = .ok a := rfl

@[simp] theorem ofExcept_eq (x : Except ε α) : (ofExcept x : Except ε α) = x := by
  cases x <;> rfl

theorem toOption_eq_some_iff {x : Except ε α} {a : α} : x.toOption = some a ↔ x = .ok a := by
  cases x <;> simp [Except.toOption]

/-! ## Lists -/

/-- A sequence succeeds iff each of its computations does. -/
theorem mapM_eq_ok_iff {f : α → Except ε β} {as : List α} {bs : List β} :
    as.mapM f = .ok bs ↔ Forall₂ (fun a b => f a = .ok b) as bs := by
  induction as generalizing bs with
  | nil =>
    rw [List.mapM_nil, List.forall₂_nil_left_iff, pure_eq, Except.ok.injEq]
    exact eq_comm
  | cons a as ih =>
    rw [List.mapM_cons, List.forall₂_cons_left_iff, bind_eq_ok_iff]
    constructor
    · rintro ⟨b, hb, h⟩
      obtain ⟨bs, hbs, h⟩ := bind_eq_ok_iff.1 h
      cases h
      exact ⟨b, bs, hb, ih.1 hbs, rfl⟩
    · rintro ⟨b, bs, hb, hbs, rfl⟩
      exact ⟨b, hb, by rw [ih.2 hbs]; rfl⟩

/-- A sequence fails as one of its computations does. -/
theorem mapM_eq_error {f : α → Except ε β} {as : List α} {e : ε} (h : as.mapM f = .error e) :
    ∃ a ∈ as, f a = .error e := by
  induction as with
  | nil => cases h
  | cons a as ih =>
    rw [List.mapM_cons] at h
    rcases bind_eq_error_iff.1 h with ha | ⟨b, _, h⟩
    · exact ⟨a, List.mem_cons_self, ha⟩
    · rcases bind_eq_error_iff.1 h with has | ⟨bs, _, h⟩
      · obtain ⟨a', ha', he⟩ := ih has
        exact ⟨a', List.mem_cons_of_mem _ ha', he⟩
      · cases h

/-- A sequence fails with the first of its computations that does. -/
theorem mapM_append_cons_eq_error {f : α → Except ε β} {before after : List α} {a : α} {e : ε}
    (hb : ∀ a' ∈ before, ∃ b, f a' = .ok b) (ha : f a = .error e) :
    (before ++ a :: after).mapM f = .error e := by
  induction before with
  | nil => rw [List.nil_append, List.mapM_cons, ha]; rfl
  | cons a' before ih =>
    rw [List.forall_mem_cons] at hb
    obtain ⟨⟨b, hb'⟩, hb⟩ := hb
    rw [List.cons_append, List.mapM_cons, hb', ok_bind, ih hb]
    rfl

/-- A sequence of checks passes iff each of them does. -/
theorem forM_eq_ok_iff {f : α → Except ε Unit} {as : List α} :
    as.forM f = .ok () ↔ ∀ a ∈ as, f a = .ok () := by
  induction as with
  | nil => exact ⟨fun _ _ ha => absurd ha List.not_mem_nil, fun _ => rfl⟩
  | cons a as ih =>
    change (f a >>= fun _ => as.forM f) = .ok () ↔ _
    rw [bind_eq_ok_iff, List.forall_mem_cons, ← ih]
    constructor
    · rintro ⟨_, ha, has⟩
      exact ⟨ha, has⟩
    · rintro ⟨ha, has⟩
      exact ⟨(), ha, has⟩

/-- A sequence of checks fails as one of them does. -/
theorem forM_eq_error {f : α → Except ε Unit} {as : List α} {e : ε} (h : as.forM f = .error e) :
    ∃ a ∈ as, f a = .error e := by
  induction as with
  | nil => cases h
  | cons a as ih =>
    change (f a >>= fun _ => as.forM f) = .error e at h
    rcases bind_eq_error_iff.1 h with ha | ⟨_, _, has⟩
    · exact ⟨a, List.mem_cons_self, ha⟩
    · obtain ⟨a', ha', he⟩ := ih has
      exact ⟨a', List.mem_cons_of_mem _ ha', he⟩

/-- What a numbered sequence gives for its elements, whatever their numbers were. -/
theorem mapM_zipIdx_eq_ok {f : α × Nat → Except ε β} {as : List α} {bs : List β} {n : Nat}
    (h : (as.zipIdx n).mapM f = .ok bs) : Forall₂ (fun a b => ∃ i, f (a, i) = .ok b) as bs := by
  rw [mapM_eq_ok_iff] at h
  induction as generalizing bs n with
  | nil => cases h; exact .nil
  | cons a as ih =>
    rw [List.zipIdx_cons, List.forall₂_cons_left_iff] at h
    obtain ⟨b, bs, hb, hbs, rfl⟩ := h
    exact .cons ⟨n, hb⟩ (ih hbs)

/-- A numbered sequence succeeds if its elements give the results under any numbers. -/
theorem mapM_zipIdx_ok {f : α × Nat → Except ε β} {as : List α} {bs : List β} {n : Nat}
    (h : Forall₂ (fun a b => ∀ i, f (a, i) = .ok b) as bs) : (as.zipIdx n).mapM f = .ok bs := by
  rw [mapM_eq_ok_iff]
  induction h generalizing n with
  | nil => exact .nil
  | cons hb _ ih => exact .cons (hb n) ih

/-- A sequence whose computations succeed with what is wanted of them succeeds, and its results
    are what is wanted. -/
theorem exists_mapM_eq_ok {f : α → Except ε β} {wanted : γ → β → Prop} {cs : List γ}
    {as : List α} (h : Forall₂ (fun c a => ∃ b, f a = .ok b ∧ wanted c b) cs as) :
    ∃ bs, as.mapM f = .ok bs ∧ Forall₂ wanted cs bs := by
  induction h with
  | nil => exact ⟨[], rfl, .nil⟩
  | cons hb _ ih =>
    obtain ⟨b, hb, hw⟩ := hb
    obtain ⟨bs, hbs, hws⟩ := ih
    exact ⟨b :: bs, by rw [List.mapM_cons, hb, ok_bind, hbs]; rfl, .cons hw hws⟩

theorem exists_mapM_zipIdx_eq_ok {f : α × Nat → Except ε β} {wanted : γ → β → Prop}
    {cs : List γ} {as : List α} {n : Nat}
    (h : Forall₂ (fun c a => ∀ i, ∃ b, f (a, i) = .ok b ∧ wanted c b) cs as) :
    ∃ bs, (as.zipIdx n).mapM f = .ok bs ∧ Forall₂ wanted cs bs := by
  refine exists_mapM_eq_ok ?_
  induction h generalizing n with
  | nil => exact .nil
  | cons hb _ ih => exact .cons (hb n) ih

theorem map_eq_map_of_forall₂ {f : α → γ} {g : β → γ} {as : List α} {bs : List β}
    (h : Forall₂ (fun a b => g b = f a) as bs) : bs.map g = as.map f := by
  induction h with
  | nil => rfl
  | cons hb _ ih => rw [List.map_cons, List.map_cons, hb, ih]

theorem forall₂_of_map_eq_map {f : α → γ} {g : β → γ} {as : List α} {bs : List β}
    (h : bs.map g = as.map f) : Forall₂ (fun a b => g b = f a) as bs := by
  rw [← List.forall₂_eq_eq_eq, List.forall₂_map_left_iff, List.forall₂_map_right_iff] at h
  exact h.flip

/-- Sequences whose computations have the same outcomes in order have the same outcome. -/
theorem mapM_eq_mapM_of_forall₂ {f : α → Except ε γ} {g : β → Except ε γ} {as : List α}
    {bs : List β} (h : Forall₂ (fun a b => g b = f a) as bs) : bs.mapM g = as.mapM f := by
  induction h with
  | nil => rfl
  | cons hb _ ih => rw [List.mapM_cons, List.mapM_cons, hb, ih]

theorem forall₂_filterMap {f : α → Option β} {r : α → β → Prop} {as : List α}
    (h : ∀ a ∈ as, ∃ b, f a = some b ∧ r a b) : Forall₂ r as (as.filterMap f) := by
  induction as with
  | nil => exact .nil
  | cons a as ih =>
    rw [List.forall_mem_cons] at h
    obtain ⟨⟨b, hb, hr⟩, h⟩ := h
    rw [List.filterMap_cons_some hb]
    exact .cons hr (ih h)

theorem exists_of_mem_left {r : α → β → Prop} {as : List α} {bs : List β} (h : Forall₂ r as bs)
    {a : α} (ha : a ∈ as) : ∃ b ∈ bs, r a b := by
  induction h with
  | nil => exact absurd ha List.not_mem_nil
  | cons hr _ ih =>
    rcases List.mem_cons.1 ha with rfl | ha
    · exact ⟨_, List.mem_cons_self, hr⟩
    · obtain ⟨b, hb, hr⟩ := ih ha
      exact ⟨b, List.mem_cons_of_mem _ hb, hr⟩

theorem exists_of_mem_right {r : α → β → Prop} {as : List α} {bs : List β} (h : Forall₂ r as bs)
    {b : β} (hb : b ∈ bs) : ∃ a ∈ as, r a b :=
  exists_of_mem_left (r := fun b a => r a b) h.flip hb

theorem exists_getElem?_left {r : α → β → Prop} {as : List α} {bs : List β} (h : Forall₂ r as bs)
    {i : Nat} {b : β} (hb : bs[i]? = some b) : ∃ a, as[i]? = some a ∧ r a b := by
  induction h generalizing i with
  | nil => cases hb
  | cons hr _ ih =>
    cases i with
    | zero => cases hb; exact ⟨_, rfl, hr⟩
    | succ i => exact ih hb

/-- What relates two lists may be replaced by what follows from it for their members. -/
theorem forall₂_imp_mem {r s : α → β → Prop} {as : List α} {bs : List β} (h : Forall₂ r as bs)
    (hi : ∀ a ∈ as, ∀ b ∈ bs, r a b → s a b) : Forall₂ s as bs := by
  induction h with
  | nil => exact .nil
  | cons hr _ ih =>
    refine .cons (hi _ List.mem_cons_self _ List.mem_cons_self hr) (ih fun a ha b hb => ?_)
    exact hi a (List.mem_cons_of_mem _ ha) b (List.mem_cons_of_mem _ hb)

/-! ## Outcomes that agree -/

/-- The second outcome is the first one, unless that is an error of the given kind. -/
def AgreesUnless (spared : ε → Prop) (x y : Except ε α) : Prop :=
  y = x ∨ ∃ e, x = .error e ∧ spared e

section Agrees

variable {spared : ε → Prop}

theorem AgreesUnless.refl (x : Except ε α) : AgreesUnless spared x x := .inl rfl

theorem AgreesUnless.bind {x y : Except ε α} {f g : α → Except ε β}
    (h : AgreesUnless spared x y) (hf : ∀ a, AgreesUnless spared (f a) (g a)) :
    AgreesUnless spared (x >>= f) (y >>= g) := by
  rcases h with rfl | ⟨e, rfl, he⟩
  · cases y with
    | error e => exact .inl rfl
    | ok a => exact hf a
  · -- The sequence stops with the error that is left out of account.
    exact .inr ⟨e, rfl, he⟩

/-- Outcomes that agree in what is seen of their results are the same error, or results of which the
    same is seen, unless the first one is an error that is left out of account. -/
theorem AgreesUnless.of_map {x : Except ε α} {y : Except ε β} {f : α → γ} {g : β → γ}
    (h : AgreesUnless spared (f <$> x) (g <$> y)) :
    (∃ e, x = .error e ∧ (y = .error e ∨ spared e)) ∨ ∃ a b, x = .ok a ∧ y = .ok b ∧ g b = f a := by
  rcases x with e | a
  · refine .inl ⟨e, rfl, ?_⟩
    rcases h with heq | ⟨_, he, hspared⟩
    · rcases y with e' | b <;> cases heq
      exact .inl rfl
    · cases he
      exact .inr hspared
  · rcases h with heq | ⟨_, he, _⟩
    · rcases y with e' | b
      · cases heq
      · exact .inr ⟨a, b, rfl, rfl, Except.ok.inj heq⟩
    · cases he

theorem AgreesUnless.mapM_forall₂ {f : α → Except ε γ} {g : β → Except ε γ} {as : List α}
    {bs : List β} (h : Forall₂ (fun a b => AgreesUnless spared (f a) (g b)) as bs) :
    AgreesUnless spared (as.mapM f) (bs.mapM g) := by
  induction h with
  | nil => exact .refl _
  | cons hb _ ih =>
    rw [List.mapM_cons, List.mapM_cons]
    exact hb.bind fun _ => ih.bind fun _ => .refl _

theorem AgreesUnless.mapM {f g : α → Except ε β} {as : List α}
    (h : ∀ a ∈ as, AgreesUnless spared (f a) (g a)) :
    AgreesUnless spared (as.mapM f) (as.mapM g) :=
  .mapM_forall₂ (List.forall₂_same.2 h)

end Agrees

/-! ## Errors beside other effects -/

/-- Nothing is done after an error is thrown. -/
class LawfulThrow (ε : outParam Type) (m : Type → Type) [Monad m] [MonadExceptOf ε m] : Prop where
  throw_bind {α β : Type} (e : ε) (f : α → m β) : (throw e : m α) >>= f = throw e

instance : LawfulThrow ε (Except ε) where
  throw_bind _ _ := rfl

instance {n : Type → Type} [Monad n] [LawfulMonad n] : LawfulThrow ε (ExceptT ε n) where
  throw_bind {α β} e f := by
    change (pure (Except.error e) >>= ExceptT.bindCont f : n (Except ε β)) = pure (.error e)
    rw [pure_bind]
    rfl

section Throw

variable {m : Type → Type} [Monad m] [MonadExceptOf ε m]

theorem ofExcept_ok_bind [LawfulMonad m] (a : α) (f : α → m β) : ofExcept (.ok a) >>= f = f a :=
  pure_bind a f

theorem ofExcept_error_bind [LawfulThrow ε m] (e : ε) (f : α → m β) :
    ofExcept (.error e) >>= f = throw e :=
  LawfulThrow.throw_bind e f

end Throw

/-! ## Outcomes with a state -/

section State

variable {σ : Type} {x : ExceptT ε (StateM σ) α} {f : α → ExceptT ε (StateM σ) β} {s : σ}

theorem run_bind_of_ok {a : α} {s' : σ} (h : x.run.run s = (.ok a, s')) :
    (x >>= f).run.run s = (f a).run.run s' := by
  change (ExceptT.bindCont f (x.run.run s).1).run (x.run.run s).2 = _
  rw [h]
  rfl

theorem run_bind_of_error {e : ε} {s' : σ} (h : x.run.run s = (.error e, s')) :
    (x >>= f).run.run s = (.error e, s') := by
  change (ExceptT.bindCont f (x.run.run s).1).run (x.run.run s).2 = _
  rw [h]
  rfl

/-- A sequence of two that succeeds: both do, the second from where the first has left off. -/
theorem run_bind_eq_ok {b : β} {s' : σ} (h : (x >>= f).run.run s = (.ok b, s')) :
    ∃ a r, x.run.run s = (.ok a, r) ∧ (f a).run.run r = (.ok b, s') := by
  change (ExceptT.bindCont f (x.run.run s).1).run (x.run.run s).2 = _ at h
  rcases hx : x.run.run s with ⟨e | a, r⟩
  · rw [hx] at h
    cases h
  · rw [hx] at h
    exact ⟨a, r, rfl, h⟩

/-- A traversal fails with the first element that does, and leaves the state as it is there. -/
theorem run_mapM_of_error {f : α → ExceptT ε (StateM σ) β} {before after : List α} {a : α}
    {bs : List β} {e : ε} {s' s'' : σ} (hb : (before.mapM f).run.run s = (.ok bs, s'))
    (ha : (f a).run.run s' = (.error e, s'')) :
    ((before ++ a :: after).mapM f).run.run s = (.error e, s'') := by
  rw [List.mapM_append, List.mapM_cons, run_bind_of_ok hb]
  exact run_bind_of_error (run_bind_of_error ha)

end State

end Missive.Outcome
