/-!
Texts and byte sequences, and the ways in which the library cuts a list.

* `breakAt p` stops at the first place whose remaining list satisfies `p`; `breakAt_append`
  says that nothing is lost.
* `chop f` reads a list from left to right in steps, each step giving a value and the number of
  items it used; `chop_append` is the law by which written forms are read back.
* `after? p` removes the leading items `p`, and `dropEnd p` the trailing items that satisfy
  `p`.
-/

namespace DocImage

/-- A text: its characters in order. -/
abbrev Text := List Char

/-- A byte sequence. -/
abbrev Bytes := List UInt8

universe u v

variable {α : Type u} {β : Type v}

/-! ### Stopping at a place -/

/-- `breakAt` with the items already passed, the last one first. -/
def breakOnto (p : List α → Bool) (passed : List α) : List α → List α × List α
  | [] => (passed.reverse, [])
  | a :: l => if p (a :: l) then (passed.reverse, a :: l) else breakOnto p (a :: passed) l

/-- The items before the first place at which the remaining list satisfies `p`, and that
remaining list; everything and nothing when there is no such place. -/
def breakAt (p : List α → Bool) (l : List α) : List α × List α :=
  breakOnto p [] l

theorem breakOnto_eq (p : List α → Bool) (passed l : List α) :
    breakOnto p passed l = (passed.reverse ++ (breakAt p l).1, (breakAt p l).2) := by
  have key : ∀ (l passed : List α), breakOnto p passed l =
      (passed.reverse ++ (breakOnto p [] l).1, (breakOnto p [] l).2) := by
    intro l
    induction l with
    | nil => intro passed; simp [breakOnto]
    | cons a l ih =>
        intro passed
        by_cases h : p (a :: l)
        · simp [breakOnto, h]
        · simp only [breakOnto, h, Bool.false_eq_true, if_false]
          rw [ih (a :: passed), ih [a]]
          simp
  exact key l passed

@[simp] theorem breakAt_nil (p : List α → Bool) : breakAt p [] = ([], []) := rfl

theorem breakAt_cons (p : List α → Bool) (a : α) (l : List α) :
    breakAt p (a :: l) =
      if p (a :: l) then ([], a :: l) else (a :: (breakAt p l).1, (breakAt p l).2) := by
  rw [breakAt, breakOnto]
  split
  · rfl
  · rw [breakOnto_eq]; rfl

/-- Nothing is lost at a break. -/
theorem breakAt_append (p : List α → Bool) (l : List α) :
    (breakAt p l).1 ++ (breakAt p l).2 = l := by
  induction l with
  | nil => rfl
  | cons a l ih =>
      rw [breakAt_cons]
      split
      · rfl
      · simp [ih]

/-! ### Removing a beginning or an end -/

/-- The list without its leading items `p`, when it begins with them. -/
def after? [DecidableEq α] : (p : List α) → List α → Option (List α)
  | [], l => some l
  | _ :: _, [] => none
  | a :: p, b :: l => if a = b then after? p l else none

theorem after?_eq_some_iff [DecidableEq α] {p l r : List α} : after? p l = some r ↔ l = p ++ r := by
  induction p generalizing l with
  | nil => simp [after?, eq_comm]
  | cons a p ih =>
      cases l with
      | nil => simp [after?]
      | cons b l =>
          by_cases h : a = b
          · subst h; simp [after?, ih]
          · simp only [after?, if_neg h, List.cons_append, List.cons.injEq]
            exact ⟨fun hn => by simp at hn, fun hb => absurd hb.1.symm h⟩

/-- What follows the first occurrence of `p`, with what precedes it. -/
def splitAtFirst? [DecidableEq α] (p l : List α) : Option (List α × List α) :=
  let (before, rest) := breakAt (fun l => (after? p l).isSome) l
  (after? p rest).map fun r => (before, r)

theorem eq_of_splitAtFirst? [DecidableEq α] {p l before r : List α}
    (h : splitAtFirst? p l = some (before, r)) : l = before ++ (p ++ r) := by
  rw [splitAtFirst?] at h
  obtain ⟨r', hr, he⟩ := Option.map_eq_some_iff.1 h
  obtain ⟨h1, rfl⟩ := Prod.mk.injEq .. ▸ he
  rw [← after?_eq_some_iff.1 hr, ← h1]
  exact (breakAt_append _ l).symm

theorem isSome_after?_append [DecidableEq α] {p x : List α} (h : p.length ≤ x.length)
    (r r' : List α) : (after? p (x ++ r)).isSome = (after? p (x ++ r')).isSome := by
  induction p generalizing x with
  | nil => rfl
  | cons a p ih =>
      cases x with
      | nil => simp at h
      | cons b x =>
          simp only [List.cons_append, after?]
          split
          · exact ih (by simpa using h)
          · rfl

theorem isSome_after?_append_of_mem [DecidableEq α] {c : α} {p x : List α} (hx : c ∈ x) (hp : c ∉ p)
    (r r' : List α) : (after? p (x ++ r)).isSome = (after? p (x ++ r')).isSome := by
  induction p generalizing x with
  | nil => rfl
  | cons a p ih =>
      cases x with
      | nil => simp at hx
      | cons b x =>
          simp only [List.cons_append, after?]
          split
          · next hab =>
            simp only [List.mem_cons, not_or] at hx hp
            exact ih (hx.resolve_left fun h => hp.1 (h.trans hab.symm)) hp.2
          · rfl

/-- Where an occurrence stands does not depend on what follows it. -/
theorem splitAtFirst?_append [DecidableEq α] {p s before r : List α}
    (h : splitAtFirst? p s = some (before, r)) (r' : List α) :
    splitAtFirst? p (before ++ (p ++ r')) = some (before, r') := by
  have hs := eq_of_splitAtFirst? h
  have key : breakAt (fun l => (after? p l).isSome) (before ++ (p ++ r')) = (before, p ++ r') := by
    have hb : (breakAt (fun l => (after? p l).isSome) s).1 = before := by
      rw [splitAtFirst?] at h
      obtain ⟨_, -, he⟩ := Option.map_eq_some_iff.1 h
      exact congrArg Prod.fst he
    clear h
    induction before generalizing s with
    | nil =>
        cases hl : p ++ r' with
        | nil => simp
        | cons a l =>
            rw [List.nil_append, breakAt_cons, if_pos]
            rw [after?_eq_some_iff.2 hl.symm]; rfl
    | cons a before ih =>
        subst hs
        rw [List.cons_append, breakAt_cons] at hb
        split at hb
        · simp at hb
        · next hn =>
          rw [List.cons_append, breakAt_cons, if_neg, ih rfl (List.cons.inj hb).2]
          rw [← List.append_assoc, ← List.cons_append] at hn ⊢
          rwa [isSome_after?_append (by simp; omega) r' r]
  rw [splitAtFirst?, key]
  simp [after?_eq_some_iff.2 rfl]

/-- The list without its longest end of items that satisfy `p`. -/
def dropEnd (p : α → Bool) (l : List α) : List α :=
  (l.reverse.dropWhile p).reverse

theorem dropEnd_append {p : α → Bool} {t : List α} (h : ∀ a ∈ t, p a = true) (s : List α) :
    dropEnd p (s ++ t) = dropEnd p s := by
  rw [dropEnd, List.reverse_append,
    List.dropWhile_append_of_pos fun a ha => h a (List.mem_reverse.1 ha), dropEnd]

theorem dropEnd_eq_self {p : α → Bool} {s : List α} (h : ∀ a ∈ s.getLast?, p a = false) :
    dropEnd p s = s := by
  rw [← List.head?_reverse] at h
  rw [dropEnd]
  cases hs : s.reverse with
  | nil => rw [List.reverse_eq_nil_iff.1 hs]; rfl
  | cons a r =>
      rw [hs] at h
      rw [List.dropWhile_cons_of_neg (by simp [h a rfl]), ← hs, List.reverse_reverse]

/-- An end that satisfies `p` is dropped, behind a list of which nothing does. -/
theorem dropEnd_append_of_forall {p : α → Bool} {s t : List α} (h : ∀ a ∈ s, p a = false)
    (ht : ∀ a ∈ t, p a = true) : dropEnd p (s ++ t) = s := by
  rw [dropEnd_append ht, dropEnd_eq_self fun a ha => h a (List.mem_of_getLast? ha)]

theorem dropEnd_cons_of_neg {p : α → Bool} {a : α} (h : p a = false) (l : List α) :
    dropEnd p (a :: l) = a :: dropEnd p l := by
  rw [dropEnd, List.reverse_cons, List.dropWhile_append, dropEnd]
  split
  · next hnil =>
      rw [List.isEmpty_iff.1 hnil, List.dropWhile_cons_of_neg (by simp [h])]
      rfl
  · rw [List.reverse_append]
    rfl

/-- What is dropped at the end satisfies `p`. -/
theorem exists_dropEnd (p : α → Bool) (l : List α) :
    ∃ t, l = dropEnd p l ++ t ∧ ∀ a ∈ t, p a = true := by
  refine ⟨(l.reverse.takeWhile p).reverse, ?_, fun a ha => ?_⟩
  · rw [dropEnd, ← List.reverse_append, List.takeWhile_append_dropWhile, List.reverse_reverse]
  · exact List.all_eq_true.1 List.all_takeWhile a (List.mem_reverse.1 ha)

theorem length_dropWhile_le (p : α → Bool) (l : List α) : (l.dropWhile p).length ≤ l.length :=
  (List.dropWhile_suffix p).length_le

/-! ### Local functions -/

/-- A function that finds the rest of a text is local if it stops at the same place whatever the
rest is. -/
def IsLocal (f : Text → Option Text) : Prop :=
  ∀ ⦃s rest : Text⦄, f s = some rest →
    ∃ passed, s = passed ++ rest ∧ ∀ rest', f (passed ++ rest') = some rest'

/-- The rest that is found is an end of the text. -/
theorem IsLocal.suffix {f : Text → Option Text} (hf : IsLocal f) {s rest : Text}
    (h : f s = some rest) : rest <:+ s :=
  let ⟨passed, hs, _⟩ := hf h
  ⟨passed, hs.symm⟩

/-! ### Reading in steps -/

/-- `chop` with the values already read, the last one first. -/
def chopOnto (f : List α → β × Nat) (values : List β) : List α → List β
  | [] => values.reverse
  | a :: l => chopOnto f ((f (a :: l)).1 :: values) (l.drop ((f (a :: l)).2 - 1))
termination_by l => l.length
decreasing_by
  rw [List.length_drop, List.length_cons]
  omega

/-- Reads the list from left to right. Each step looks at all that remains, gives a value and
the number of items it used up; at least one item is used up in every step. -/
def chop (f : List α → β × Nat) (l : List α) : List β :=
  chopOnto f [] l

theorem chopOnto_eq (f : List α → β × Nat) (values : List β) (l : List α) :
    chopOnto f values l = values.reverse ++ chop f l := by
  have key : ∀ (n : Nat) (l : List α), l.length ≤ n → ∀ values : List β,
      chopOnto f values l = values.reverse ++ chopOnto f [] l := by
    intro n
    induction n with
    | zero =>
        intro l hl values
        cases l with
        | nil => simp [chopOnto]
        | cons a l => simp at hl
    | succ n ih =>
        intro l hl values
        cases l with
        | nil => simp [chopOnto]
        | cons a l =>
            have hd : (l.drop ((f (a :: l)).2 - 1)).length ≤ n := by
              rw [List.length_drop]; rw [List.length_cons] at hl; omega
            rw [chopOnto, chopOnto, ih _ hd (_ :: values), ih _ hd [_]]
            simp
  exact key l.length l (Nat.le_refl _) values

@[simp] theorem chop_nil (f : List α → β × Nat) : chop f [] = [] := by
  rw [chop, chopOnto]; rfl

theorem chop_cons (f : List α → β × Nat) (a : α) (l : List α) :
    chop f (a :: l) = (f (a :: l)).1 :: chop f (l.drop ((f (a :: l)).2 - 1)) := by
  rw [chop, chopOnto, chopOnto_eq]; rfl

/-- A step that uses up exactly the leading items `p` gives one value and leaves the rest. -/
theorem chop_append (f : List α → β × Nat) {p l : List α} {b : β} (hp : p ≠ [])
    (h : f (p ++ l) = (b, p.length)) : chop f (p ++ l) = b :: chop f l := by
  cases p with
  | nil => exact absurd rfl hp
  | cons a p =>
      rw [List.cons_append] at h ⊢
      rw [chop_cons, h]
      simp

end DocImage
