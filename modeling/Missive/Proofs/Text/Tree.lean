import Missive.Proofs.Text.Numeral
import Missive.Proofs.Text.Quoted
import Missive.Proofs.Tree
import Missive.Text.Printer
import Missive.Text.Value

/-!
# Reading the trees that were written

A reader that has room for a number of nested containers reads an exact tree back from its text, in
either layout, if the room is enough, and refuses the text otherwise. Which of the two happens
depends on the nesting alone: the reader meets the container that is too much before anything
else could stop it.

* `Reader.tree_write`: the tree in front of any text that does not continue a numeral.
* `Tree.ofText_text`: a tree as a whole text.
-/

namespace Missive

open Outcome

namespace Reader

variable {layout : Layout}

/-! ## Blanks -/

theorem skipBlanks_append {b : List Char} (hb : ∀ c ∈ b, isBlank c = true) (s : List Char) :
    skipBlanks (b ++ s) = skipBlanks s :=
  List.dropWhile_append_of_pos hb

theorem skipBlanks_of_not {c : Char} (hc : isBlank c = false) (s : List Char) :
    skipBlanks (c :: s) = c :: s :=
  List.dropWhile_cons_of_neg (by simp [hc])

theorem isBlank_lineBreak (layout : Layout) (level : Nat) :
    ∀ c ∈ layout.lineBreak level, isBlank c = true := by
  intro c hc
  cases layout with
  | compact => cases hc
  | indented =>
    rcases List.mem_cons.1 hc with rfl | hc
    · rfl
    · rw [List.eq_of_mem_replicate hc]
      rfl

theorem tree_append_blanks {b : List Char} (hb : ∀ c ∈ b, isBlank c = true) (room : Nat)
    (s : List Char) : tree room (b ++ s) = tree room s := by
  cases room <;> rw [tree, treeWith, value, skipBlanks_append hb] <;> rfl

theorem quoted_append_blanks {b : List Char} (hb : ∀ c ∈ b, isBlank c = true) (s : List Char) :
    quoted (b ++ s) = quoted s := by
  rw [quoted, mark, skipBlanks_append hb]
  rfl

theorem mark_colon (layout : Layout) (s : List Char) :
    ∃ b, (∀ c ∈ b, isBlank c = true) ∧ mark ':' (layout.colon ++ s) = .ok ((), b ++ s) := by
  cases layout with
  | compact => exact ⟨[], nofun, rfl⟩
  | indented => exact ⟨[' '], List.forall_mem_singleton.2 rfl, rfl⟩

/-! ## What follows a value -/

theorem endsNumeral_lineBreak {c : Char} {s : List Char} (h : EndsNumeral (c :: s)) (level : Nat) :
    EndsNumeral (layout.lineBreak level ++ c :: s) := by
  cases layout with
  | compact => exact h
  | indented => exact ⟨by decide, by decide, by decide, by decide⟩

theorem endsNumeral_writeItems (level : Nat) (ts : List Tree) (rest : List Char) :
    EndsNumeral (Tree.writeItems layout level ts rest) := by
  cases ts with
  | nil => exact endsNumeral_lineBreak ⟨by decide, by decide, by decide, by decide⟩ level
  | cons t ts => exact ⟨by decide, by decide, by decide, by decide⟩

theorem endsNumeral_writeMembers (level : Nat) (ts : List (String × Tree)) (rest : List Char) :
    EndsNumeral (Tree.writeMembers layout level ts rest) := by
  cases ts with
  | nil => exact endsNumeral_lineBreak ⟨by decide, by decide, by decide, by decide⟩ level
  | cons t ts => exact ⟨by decide, by decide, by decide, by decide⟩

/-! ## Containers -/

/-- What a reader gives that has room for a number of nested containers: the result, if `n` of
    them are nested in it, or a refusal. -/
def withRoom {α : Type} (room n : Nat) (a : α) (rest : List Char) :
    Except TextFault (α × List Char) :=
  if n ≤ room then .ok (a, rest) else .error .unexpected

theorem withRoom_bind {α β : Type} {room n : Nat} {a : α} {rest : List Char}
    {f : α × List Char → Except TextFault β} :
    withRoom room n a rest >>= f = if n ≤ room then f (a, rest) else .error .unexpected := by
  unfold withRoom
  split <;> rfl

theorem withRoom_max {α : Type} {room m n : Nat} {a : α} {rest : List Char} :
    withRoom room (max m n) a rest =
      if m ≤ room then withRoom room n a rest else .error .unexpected := by
  unfold withRoom
  by_cases hm : m ≤ room
  · rw [if_pos hm]
    exact if_congr (by omega) rfl rfl
  · rw [if_neg hm, if_neg (by omega)]

/-- The tree is read back from its text, or refused for lack of room. -/
def ReadsBack (layout : Layout) (room : Nat) (t : Tree) : Prop :=
  ∀ level rest, EndsNumeral rest →
    tree room (t.write layout level rest) = withRoom room t.nesting t rest

/-- The items of an array are read one by one, up to the first that needs too much room. -/
theorem itemsLoop_write {room level : Nat} {t : Tree} {ts : List Tree}
    (h : ∀ x ∈ t :: ts, ReadsBack layout room x) {fuel : Nat} (hfuel : ts.length < fuel)
    {b : List Char} (hb : ∀ c ∈ b, isBlank c = true) (rest : List Char) :
    itemsLoop (tree room) fuel
        (b ++ t.write layout (level + 1) (Tree.writeItems layout level ts rest)) =
      withRoom room (Tree.nestingOfItems (t :: ts)) (t :: ts) rest := by
  induction fuel generalizing t ts b with
  | zero => exact absurd hfuel (Nat.not_lt_zero _)
  | succ fuel ih =>
    rw [List.forall_mem_cons] at h
    -- The first item takes part in the maximum, and the rest is read only if it does not exceed.
    rw [itemsLoop, tree_append_blanks hb, h.1 _ _ (endsNumeral_writeItems level ts rest),
      withRoom_bind, Tree.nestingOfItems, withRoom_max]
    refine if_congr Iff.rfl ?_ rfl
    dsimp only
    cases ts with
    | nil =>
      rw [Tree.writeItems, skipBlanks_append (isBlank_lineBreak layout level),
        skipBlanks_of_not rfl]
      rfl
    | cons t' ts =>
      have hrest := ih h.2 (Nat.lt_of_succ_lt_succ hfuel) (isBlank_lineBreak layout (level + 1))
      rw [Tree.writeItems, skipBlanks_of_not rfl]
      exact (congrArg (· >>= fun x => pure (t :: x.1, x.2)) hrest).trans withRoom_bind

/-- The members of an object are read one by one, up to the first whose value needs too much
    room. -/
theorem membersLoop_write {room level : Nat} {key : String} {t : Tree}
    {ts : List (String × Tree)} (h : ∀ x ∈ (key, t) :: ts, ReadsBack layout room x.2) {fuel : Nat}
    (hfuel : ts.length < fuel) {b : List Char} (hb : ∀ c ∈ b, isBlank c = true)
    (rest : List Char) :
    membersLoop quoted (fun _ => tree room) fuel (b ++ (Text.quoted key ++ (layout.colon ++
        t.write layout (level + 1) (Tree.writeMembers layout level ts rest)))) =
      withRoom room (Tree.nestingOfMembers ((key, t) :: ts)) ((key, t) :: ts) rest := by
  induction fuel generalizing key t ts b with
  | zero => exact absurd hfuel (Nat.not_lt_zero _)
  | succ fuel ih =>
    rw [List.forall_mem_cons] at h
    obtain ⟨colon, hcolon, hmark⟩ := mark_colon layout
      (t.write layout (level + 1) (Tree.writeMembers layout level ts rest))
    rw [membersLoop, quoted_append_blanks hb, quoted_append, ok_bind]
    dsimp only
    rw [hmark, ok_bind]
    dsimp only
    rw [tree_append_blanks hcolon, h.1 _ _ (endsNumeral_writeMembers level ts rest),
      withRoom_bind, Tree.nestingOfMembers, withRoom_max]
    refine if_congr Iff.rfl ?_ rfl
    dsimp only
    cases ts with
    | nil =>
      rw [Tree.writeMembers, skipBlanks_append (isBlank_lineBreak layout level),
        skipBlanks_of_not rfl]
      rfl
    | cons member ts =>
      have hrest := ih h.2 (Nat.lt_of_succ_lt_succ hfuel) (isBlank_lineBreak layout (level + 1))
      rw [Tree.writeMembers, skipBlanks_of_not rfl]
      exact (congrArg (· >>= fun x => pure ((key, t) :: x.1, x.2)) hrest).trans withRoom_bind

theorem items_append_blanks {α : Type} (item : Reader α) {b : List Char}
    (hb : ∀ c ∈ b, isBlank c = true) (s : List Char) : items item (b ++ s) = items item s := by
  rw [items, skipBlanks_append hb]
  rfl

theorem items_of_first {α : Type} (item : Reader α) {c : Char} (hb : isBlank c = false)
    (hc : c ≠ ']') (s : List Char) :
    items item (c :: s) = itemsLoop item ((c :: s).length + 1) (c :: s) := by
  rw [items, skipBlanks_of_not hb]
  split
  · next heq =>
    cases heq
    exact absurd rfl hc
  · rfl

/-! ## The text of a tree -/

theorem isBlank_of_isDigit {c : Char} (h : c.isDigit = true) : isBlank c = false := by
  by_contra hb
  simp only [isBlank, Bool.not_eq_false, Bool.or_eq_true, decide_eq_true_eq] at hb
  rcases hb with ((rfl | rfl) | rfl) | rfl <;> cases h

theorem value_number {α : Type} (parts : Parts α) {c : Char} (hc : c = '-' ∨ c.isDigit = true)
    (s : List Char) : value parts (c :: s) = parts.number (c :: s) := by
  rcases hc with rfl | hc
  · rfl
  · unfold value
    rw [skipBlanks_of_not (isBlank_of_isDigit hc)]
    -- None of the characters that tell another value is a digit.
    split
    · next heq => cases heq
    · next heq => cases heq; cases hc
    · next heq => cases heq; cases hc
    · next heq => cases heq; cases hc
    · next heq => cases heq; cases hc
    · next heq => cases heq; cases hc
    · next heq =>
      cases heq
      rw [if_neg (by rintro rfl; cases hc), if_pos (.inr hc)]

theorem exists_chars {n : Number} (hn : n.integer?.isSome) (rest : List Char) :
    ∃ c s, n.chars ++ rest = c :: s ∧ (c = '-' ∨ c.isDigit = true) := by
  cases n with
  | natural n =>
    obtain ⟨c, s, hs, hc⟩ := exists_digitsOf_append n.toNat rest
    exact ⟨c, s, hs, .inr hc⟩
  | negative n _ => exact ⟨'-', _, rfl, .inl rfl⟩
  | real x hx => cases hn

theorem isSome_integer? {n : Number} (h : (Tree.number n).Exact) : n.integer?.isSome := by
  cases n with
  | real x hx => exact h.elim
  | _ => rfl

/-- The text of a tree starts with a character that is neither a blank nor a closing bracket. -/
theorem exists_write (layout : Layout) {t : Tree} (ht : t.Exact) (level : Nat)
    (rest : List Char) :
    ∃ c s, t.write layout level rest = c :: s ∧ isBlank c = false ∧ c ≠ ']' := by
  cases t with
  | null => exact ⟨_, _, rfl, rfl, by decide⟩
  | bool b => cases b <;> exact ⟨_, _, rfl, rfl, by decide⟩
  | number n =>
    obtain ⟨c, s, hs, rfl | hc⟩ := exists_chars (isSome_integer? ht) rest
    · exact ⟨_, s, hs, rfl, by decide⟩
    · exact ⟨c, s, hs, isBlank_of_isDigit hc, by rintro rfl; cases hc⟩
  | string s => exact ⟨_, _, rfl, rfl, by decide⟩
  | array items => cases items <;> exact ⟨_, _, rfl, rfl, by decide⟩
  | object members => cases members <;> exact ⟨_, _, rfl, rfl, by decide⟩

/-! ## The length of a text -/

mutual

theorem length_le_write (layout : Layout) : ∀ (t : Tree) (level : Nat) (rest : List Char),
    rest.length ≤ (t.write layout level rest).length
  | .null, _, _ | .bool true, _, _ | .bool false, _, _ | .array [], _, _ | .object [], _, _ => by
    simp only [Tree.write, List.length_cons]
    omega
  | .number n, _, _ => by simp [Tree.write]
  | .string s, _, _ => by simp [Tree.write]
  | .array (t :: ts), level, rest => by
    have ht := length_le_write layout t (level + 1) (Tree.writeItems layout level ts rest)
    have hts := length_writeItems layout ts level rest
    simp only [Tree.write, List.length_cons, List.length_append]
    omega
  | .object ((key, t) :: ts), level, rest => by
    have ht := length_le_write layout t (level + 1) (Tree.writeMembers layout level ts rest)
    have hts := length_writeMembers layout ts level rest
    simp only [Tree.write, List.length_cons, List.length_append]
    omega

/-- Each item takes at least its comma. -/
theorem length_writeItems (layout : Layout) : ∀ (ts : List Tree) (level : Nat) (rest : List Char),
    ts.length + rest.length ≤ (Tree.writeItems layout level ts rest).length
  | [], _, _ => by
    simp only [Tree.writeItems, List.length_append, List.length_cons, List.length_nil]
    omega
  | t :: ts, level, rest => by
    have ht := length_le_write layout t (level + 1) (Tree.writeItems layout level ts rest)
    have hts := length_writeItems layout ts level rest
    simp only [Tree.writeItems, List.length_cons, List.length_append]
    omega

/-- Each member takes at least its comma. -/
theorem length_writeMembers (layout : Layout) :
    ∀ (ts : List (String × Tree)) (level : Nat) (rest : List Char),
      ts.length + rest.length ≤ (Tree.writeMembers layout level ts rest).length
  | [], _, _ => by
    simp only [Tree.writeMembers, List.length_append, List.length_cons, List.length_nil]
    omega
  | (key, t) :: ts, level, rest => by
    have ht := length_le_write layout t (level + 1) (Tree.writeMembers layout level ts rest)
    have hts := length_writeMembers layout ts level rest
    simp only [Tree.writeMembers, List.length_cons, List.length_append]
    omega

end

/-! ## Reading back -/

theorem withRoom_succ {α : Type} {room n : Nat} {a : α} {rest : List Char} :
    withRoom (room + 1) (n + 1) a rest = withRoom room n a rest :=
  if_congr Nat.succ_le_succ_iff rfl rfl

theorem map_withRoom {α β : Type} {f : α → β} {r : Reader α} {s : List Char} {room n : Nat} {a : α}
    {rest : List Char} (h : r s = withRoom room n a rest) :
    map f r s = withRoom room n (f a) rest := by
  rw [map, h, withRoom_bind]
  rfl

theorem tree_number (room : Nat) {n : Number} (hn : n.integer?.isSome) {rest : List Char}
    (h : EndsNumeral rest) : tree room (n.chars ++ rest) = .ok (.number n, rest) := by
  obtain ⟨c, s, hs, hc⟩ := exists_chars hn rest
  have hnumber : number.map Tree.number (n.chars ++ rest) = .ok (.number n, rest) := by
    rw [map, number_chars hn h]
    rfl
  rw [hs] at hnumber ⊢
  cases room <;> exact (value_number _ hc s).trans hnumber

theorem tree_string (room : Nat) (s : String) (rest : List Char) :
    tree room (Text.quoted s ++ rest) = .ok (.string s, rest) := by
  have hstring : quoted.map Tree.string (Text.quoted s ++ rest) = .ok (.string s, rest) := by
    rw [map, quoted_append]
    rfl
  cases room <;> exact hstring

/-- The items of an array are read back, or refused for lack of room. -/
theorem items_write {room : Nat} {t : Tree} {ts : List Tree} (ht : t.Exact)
    (h : ∀ x ∈ t :: ts, ReadsBack layout room x) (level : Nat) (rest : List Char) :
    items (tree room) (layout.lineBreak (level + 1) ++
        t.write layout (level + 1) (Tree.writeItems layout level ts rest)) =
      withRoom room (Tree.nestingOfItems (t :: ts)) (t :: ts) rest := by
  obtain ⟨c, s, hs, hb, hc⟩ :=
    exists_write layout ht (level + 1) (Tree.writeItems layout level ts rest)
  -- The fuel is the length of the text, which is enough as each item takes at least a comma.
  have hlength : ts.length < (c :: s).length + 1 := by
    have hts := length_writeItems layout ts level rest
    have ht := length_le_write layout t (level + 1) (Tree.writeItems layout level ts rest)
    rw [hs] at ht
    omega
  rw [items_append_blanks _ (isBlank_lineBreak layout (level + 1)), hs, items_of_first _ hb hc]
  rw [← hs] at hlength ⊢
  exact itemsLoop_write h hlength (b := []) nofun rest

/-- The members of an object are read back, or refused for lack of room. -/
theorem members_write {room : Nat} {key : String} {t : Tree} {ts : List (String × Tree)}
    (h : ∀ x ∈ (key, t) :: ts, ReadsBack layout room x.2) (level : Nat) (rest : List Char) :
    members quoted (fun _ => tree room) (layout.lineBreak (level + 1) ++ (Text.quoted key ++
        (layout.colon ++ t.write layout (level + 1) (Tree.writeMembers layout level ts rest)))) =
      withRoom room (Tree.nestingOfMembers ((key, t) :: ts)) ((key, t) :: ts) rest := by
  obtain ⟨s, hs⟩ : ∃ s, Text.quoted key ++ (layout.colon ++
      t.write layout (level + 1) (Tree.writeMembers layout level ts rest)) = '"' :: s := ⟨_, rfl⟩
  have hlength : ts.length < ('"' :: s).length + 1 := by
    have hts := length_writeMembers layout ts level rest
    have ht := length_le_write layout t (level + 1) (Tree.writeMembers layout level ts rest)
    have hlen := congrArg List.length hs
    rw [List.length_append, List.length_append] at hlen
    omega
  rw [members, skipBlanks_append (isBlank_lineBreak layout (level + 1)), hs, skipBlanks_of_not rfl]
  change membersLoop quoted (fun _ => tree room) (('"' :: s).length + 1) ('"' :: s) = _
  rw [← hs] at hlength ⊢
  exact membersLoop_write h hlength (b := []) nofun rest

/-- A tree is read back from its text if there is room for its nesting, and is refused
    otherwise. -/
theorem tree_write (layout : Layout) {t : Tree} (ht : t.Exact) (room : Nat) :
    ReadsBack layout room t := by
  induction t using Tree.induction generalizing room with
  | null =>
    intro level rest _
    cases room <;> rfl
  | bool b =>
    intro level rest _
    cases b <;> cases room <;> rfl
  | number n =>
    intro level rest h
    exact tree_number room (isSome_integer? ht) h
  | string s =>
    intro level rest _
    exact tree_string room s rest
  | array items ih =>
    intro level rest _
    have hitems := Tree.exactItems_iff.1 ht
    -- A container takes one of the room and adds one to the nesting; without room it is refused
    -- at its bracket.
    cases room with
    | zero => cases items <;> rfl
    | succ room =>
      rw [Tree.nesting, withRoom_succ]
      cases items with
      | nil => rfl
      | cons t ts =>
        exact map_withRoom (items_write (hitems t List.mem_cons_self)
          (fun x hx => ih x hx (hitems x hx) room) level rest)
  | object members ih =>
    intro level rest _
    have hmembers := Tree.exactMembers_iff.1 ht.2
    cases room with
    | zero => cases members <;> rfl
    | succ room =>
      rw [Tree.nesting, withRoom_succ]
      cases members with
      | nil => rfl
      | cons member ts =>
        have hread := map_withRoom (f := Tree.ofMembers)
          (members_write (fun x hx => ih x hx (hmembers x hx) room) level rest)
        rw [Tree.ofMembers_of_nodup ht.1] at hread
        exact hread

end Reader

/-- An exact tree is read back from its text unless more than the allowed number of containers
    are nested in it. -/
theorem Tree.ofText_text (layout : Layout) {t : Tree} (ht : t.Exact) :
    Tree.ofText (t.text layout) =
      if t.nesting ≤ maxTextDepth then .ok t else .error .unexpected := by
  rw [ofText, Reader.whole, text, String.toList_ofList, Reader.tree_write layout ht,
    Reader.withRoom_bind]
  · rfl
  · trivial

end Missive
