import Mathlib.Tactic
import DocImage.Text.Basic

/-!
The first place in a list.

* `breakAt_eq_iff`: a list is broken at the first place that satisfies the condition, or nowhere.
* `breakAt_of_first`: so it is broken where a word stands first. A word stands first where no
  occurrence ends before it does.
* `splitAtFirst?_concat`: a word whose last item stands nowhere else in it is first where it stands
  if it is not in what precedes it.
* `induction_on_separator`: a list is taken apart at its separators, from the first one on.
-/

namespace DocImage

variable {α : Type}

/-- What holds of every list without separators, and of such a list with a separator and a rest
behind it if it holds of that rest, holds of all lists. -/
lemma induction_on_separator (a : α) {P : List α → Prop} (piece : ∀ l, a ∉ l → P l)
    (separated : ∀ l rest, a ∉ l → P rest → P (l ++ a :: rest)) (l : List α) : P l := by
  induction hn : l.length using Nat.strong_induction_on generalizing l with
  | _ n ih =>
      by_cases hmem : a ∈ l
      · obtain ⟨first, rest, rfl, hfirst⟩ := List.eq_append_cons_of_mem hmem
        have hshort : rest.length < n := by
          rw [← hn, List.length_append, List.length_cons]
          omega
        exact separated first rest hfirst (ih _ hshort rest rfl)
      · exact piece l hmem

/-- **A list is broken at the first place** at which what remains satisfies the condition. -/
lemma breakAt_eq_iff {p : List α → Bool} {l before rest : List α} :
    breakAt p l = (before, rest) ↔ before ++ rest = l ∧ (rest = [] ∨ p rest = true) ∧
      ∀ t, t <:+ before → t ≠ [] → p (t ++ rest) = false := by
  induction l generalizing before with
  | nil =>
      rw [breakAt_nil, Prod.mk.injEq, List.append_eq_nil_iff]
      constructor
      · rintro ⟨rfl, rfl⟩
        simp
      · rintro ⟨⟨rfl, rfl⟩, -⟩
        exact ⟨rfl, rfl⟩
  | cons a l ih =>
      rw [breakAt_cons]
      by_cases hp : p (a :: l) = true
      · -- it stops at once, and nothing can stand in front of the place
        rw [if_pos hp, Prod.mk.injEq]
        constructor
        · rintro ⟨rfl, rfl⟩
          simp [hp]
        · rintro ⟨h, -, hno⟩
          cases before with
          | nil => exact ⟨rfl, h.symm⟩
          | cons b before =>
              have hfirst := hno _ (List.suffix_refl _) (List.cons_ne_nil _ _)
              rw [h, hp] at hfirst
              cases hfirst
      · rw [if_neg hp]
        cases before with
        | nil =>
            constructor
            · intro h
              cases h
            · rintro ⟨h, hrest, -⟩
              rw [List.nil_append] at h
              subst h
              simp [hp] at hrest
        | cons b before =>
            have hcons : (a :: (breakAt p l).1, (breakAt p l).2) = (b :: before, rest) ↔
                a = b ∧ breakAt p l = (before, rest) := by
              rw [Prod.mk.injEq, List.cons.injEq, and_assoc, ← Prod.mk.injEq]
            rw [hcons, ih, List.cons_append, List.cons.injEq]
            constructor
            · rintro ⟨rfl, rfl, hrest, hno⟩
              refine ⟨⟨rfl, rfl⟩, hrest, fun t ht hne => ?_⟩
              rcases List.suffix_cons_iff.mp ht with rfl | ht
              · exact Bool.eq_false_iff.mpr hp
              · exact hno t ht hne
            · rintro ⟨⟨rfl, h⟩, hrest, hno⟩
              exact ⟨rfl, h, hrest, fun t ht => hno t (ht.trans (List.suffix_cons _ _))⟩

/-- Nothing is left behind a break exactly if there is no place to stop at. -/
lemma breakAt_snd_eq_nil_iff {p : List α → Bool} {l : List α} :
    (breakAt p l).2 = [] ↔ ∀ t, t <:+ l → t ≠ [] → p t = false := by
  have hall : (breakAt p l).2 = [] ↔ breakAt p l = (l, []) := by
    refine ⟨fun h => ?_, fun h => congrArg Prod.snd h⟩
    have happ := breakAt_append p l
    rw [h, List.append_nil] at happ
    exact Prod.ext happ h
  rw [hall, breakAt_eq_iff]
  simp

section Words

variable [DecidableEq α] {word before : List α}

lemma isSome_after?_iff {l : List α} : (after? word l).isSome = true ↔ word <+: l := by
  rw [Option.isSome_iff_exists]
  simp only [after?_eq_some_iff, List.IsPrefix, eq_comm]

/-- **A list is broken where a word stands first.** -/
lemma breakAt_of_first (h : ¬ word <:+: before ++ word.dropLast) (tail : List α) :
    breakAt (fun l => (after? word l).isSome) (before ++ (word ++ tail)) =
      (before, word ++ tail) := by
  refine breakAt_eq_iff.mpr ⟨rfl, .inr (isSome_after?_iff.mpr (List.prefix_append _ _)), ?_⟩
  intro t ht htne
  refine Bool.eq_false_iff.mpr fun hs => h ?_
  -- an occurrence further in front has its end before the last item of this one
  have hlast : word.dropLast <+: word ++ tail :=
    (List.dropLast_prefix word).trans (List.prefix_append _ _)
  have hend : t ++ word.dropLast <+: t ++ (word ++ tail) :=
    (List.prefix_append_right_inj t).mpr hlast
  have hlen : word.length ≤ (t ++ word.dropLast).length := by
    have := List.length_pos_of_ne_nil htne
    rw [List.length_append, List.length_dropLast]
    omega
  have hword := List.prefix_of_prefix_length_le (isSome_after?_iff.mp hs) hend hlen
  obtain ⟨front, rfl⟩ := ht
  rw [List.append_assoc]
  exact hword.isInfix.trans (List.suffix_append _ _).isInfix

/-- A word is found at the place where it was put, unless it stands before that place. -/
lemma splitAtFirst?_concat {q : List α} {z : α} (hz : z ∉ q) (h : ¬ q ++ [z] <:+: before)
    (rest : List α) :
    splitAtFirst? (q ++ [z]) (before ++ (q ++ [z] ++ rest)) = some (before, rest) := by
  have hfirst : ¬ q ++ [z] <:+: before ++ (q ++ [z]).dropLast := by
    rw [List.dropLast_concat]
    rintro ⟨x, y, hxy⟩
    rcases List.append_eq_append_iff.mp hxy with ⟨c, hbefore, -⟩ | ⟨c, hx, hq⟩
    · exact h ⟨x, c, hbefore.symm⟩
    · rcases c.eq_nil_or_concat' with rfl | ⟨c, d, rfl⟩
      · exact h ⟨x, [], by simpa using hx⟩
      · -- its last item would be among the others
        rw [← List.append_assoc, ← List.append_assoc] at hx
        have hd : z = d := List.singleton_inj.mp (List.append_inj_right' hx rfl)
        exact hz (by simp [hq, hd])
  have hafter : after? (q ++ [z]) (q ++ [z] ++ rest) = some rest := after?_eq_some_iff.mpr rfl
  simp only [splitAtFirst?, breakAt_of_first hfirst, hafter, Option.map_some]

end Words

end DocImage
