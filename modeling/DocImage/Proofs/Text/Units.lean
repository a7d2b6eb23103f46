import Mathlib.Tactic
import DocImage.Drawing.Size

/-!
Numbers with units, in whatever way they are written.

* `UnitText` is a number as it may be written: digits, a plus sign before them or none, any units
  behind them, and blanks around both.
* `UnitText.withoutUnits_write`: blanks and units are taken off a written number.
  `exists_withoutUnits`: nothing else is taken off a text.
* `readPositive?_withoutUnits_eq_some_iff`: so what is read as a positive number is exactly what is
  written so. `pixels?_eq_iff_written` says it of numbers of pixels, and which texts are refused.
-/

namespace DocImage

/-- A number as it may be written with some units behind it. -/
structure UnitText (units : List Char) where
  left : Text
  plus : Bool
  digits : Text
  gap : Text
  run : Text
  right : Text
  digits_ne_nil : digits ≠ []
  isDigit_of_mem : ∀ c ∈ digits, c.isDigit = true
  isBlank_of_mem : ∀ c ∈ left ++ (gap ++ right), isBlank c = true
  mem_of_mem_run : ∀ c ∈ run, c ∈ units

/-- The characters can be told from blanks and digits. -/
def IsUnits (units : List Char) : Prop :=
  ∀ c ∈ units, isBlank c = false ∧ c.isDigit = false

instance (units : List Char) : Decidable (IsUnits units) :=
  decidable_of_iff (units.all fun c => !isBlank c && !c.isDigit) (by simp [IsUnits])

lemma isBlank_eq_false_of_isDigit {c : Char} (h : c.isDigit = true) : isBlank c = false := by
  have hc : 48 ≤ c.toNat ∧ c.toNat ≤ 57 := by
    simpa [Char.isDigit, UInt32.le_iff_toNat_le] using h
  simp only [isBlank, Bool.or_eq_false_iff, Bool.and_eq_false_iff, beq_eq_false_iff_ne,
    decide_eq_false_iff_not]
  omega

namespace UnitText

variable {units : List Char} (t : UnitText units)

/-- The digits with their sign. -/
def number : Text :=
  (if t.plus then ['+'] else []) ++ t.digits

/-- The text itself. -/
def write : Text :=
  t.left ++ (t.number ++ (t.gap ++ (t.run ++ t.right)))

/-- The number that is written. -/
def count : Nat :=
  Numeral.value 10 (t.digits.map Numeral.digitValue)

/-! ### Taking blanks and units off -/

lemma isBlank_of_mem_left : ∀ c ∈ t.left, isBlank c = true :=
  (List.forall_mem_append.mp t.isBlank_of_mem).1

lemma isBlank_of_mem_gap : ∀ c ∈ t.gap, isBlank c = true :=
  (List.forall_mem_append.mp (List.forall_mem_append.mp t.isBlank_of_mem).2).1

lemma isBlank_of_mem_right : ∀ c ∈ t.right, isBlank c = true :=
  (List.forall_mem_append.mp (List.forall_mem_append.mp t.isBlank_of_mem).2).2

lemma isBlank_of_mem_head? {s : Text} : ∀ c ∈ (t.number ++ s).head?, isBlank c = false := by
  obtain ⟨d, digits, hd⟩ := List.exists_cons_of_ne_nil t.digits_ne_nil
  have hdigit := isBlank_eq_false_of_isDigit (t.isDigit_of_mem d (by rw [hd]; exact .head _))
  rw [number, hd]
  cases t.plus with
  | true => simp [isBlank]
  | false => simpa using hdigit

lemma isDigit_of_mem_getLast? : ∀ c ∈ t.number.getLast?, c.isDigit = true := by
  intro c hc
  rw [number, List.getLast?_append_of_ne_nil _ t.digits_ne_nil] at hc
  exact t.isDigit_of_mem c (List.mem_of_getLast? hc)

lemma trimEnd_number {gap : Text} (h : ∀ c ∈ gap, isBlank c = true) :
    trimEnd (t.number ++ gap) = t.number := by
  rw [trimEnd, dropEnd_append h]
  exact dropEnd_eq_self fun c hc => isBlank_eq_false_of_isDigit (t.isDigit_of_mem_getLast? c hc)

lemma trim_write : trim t.write = trimEnd (t.number ++ (t.gap ++ t.run)) := by
  have hstart : trimStart t.write = t.number ++ (t.gap ++ t.run) ++ t.right := by
    rw [write, trimStart, List.dropWhile_append_of_pos t.isBlank_of_mem_left, ← trimStart,
      trimStart_eq_self t.isBlank_of_mem_head?]
    simp
  rw [trim, hstart, trimEnd, dropEnd_append t.isBlank_of_mem_right, trimEnd]

/-- Blanks and units are taken off, whichever of them there are. -/
lemma withoutUnits_write (hu : IsUnits units) : withoutUnits units t.write = t.number := by
  have hother : ∀ c, isBlank c = true ∨ c.isDigit = true → units.contains c = false := by
    intro c hc
    rw [List.contains_eq_mem, decide_eq_false_iff_not]
    intro hmem
    rw [(hu c hmem).1, (hu c hmem).2] at hc
    simp at hc
  have hnumber : ∀ c ∈ t.number.getLast?, units.contains c = false := fun c hc =>
    hother c (.inr (t.isDigit_of_mem_getLast? c hc))
  have hlast : ∀ c ∈ (t.number ++ t.gap).getLast?, units.contains c = false := by
    intro c hc
    rcases t.gap.eq_nil_or_concat with hg | ⟨gap, d, hg⟩
    · rw [hg, List.append_nil] at hc
      exact hnumber c hc
    · rw [List.getLast?_append_of_ne_nil _ (by simp [hg])] at hc
      exact hother c (.inl (t.isBlank_of_mem_gap c (List.mem_of_getLast? hc)))
  have hrun : ∀ c ∈ t.run, units.contains c = true := fun c hc => by
    rw [List.contains_eq_mem, decide_eq_true_eq]
    exact t.mem_of_mem_run c hc
  rw [withoutUnits, trim_write]
  by_cases hr : t.run = []
  · -- without units the trimming has taken the gap as well
    have hnil := t.trimEnd_number (List.forall_mem_nil _)
    rw [List.append_nil] at hnil
    rw [hr, List.append_nil, t.trimEnd_number t.isBlank_of_mem_gap, dropEnd_eq_self hnumber, hnil]
  · have hunit : ∀ c ∈ (t.number ++ (t.gap ++ t.run)).getLast?, isBlank c = false := by
      intro c hc
      rw [← List.append_assoc, List.getLast?_append_of_ne_nil _ hr] at hc
      exact (hu c (t.mem_of_mem_run c (List.mem_of_getLast? hc))).1
    have hend : trimEnd (t.number ++ (t.gap ++ t.run)) = t.number ++ t.gap ++ t.run := by
      rw [trimEnd, dropEnd_eq_self hunit, List.append_assoc]
    rw [hend, dropEnd_append hrun, dropEnd_eq_self hlast, t.trimEnd_number t.isBlank_of_mem_gap]

/-- A character that is no blank, sign, digit or unit is in no written number. -/
lemma notMem_write {c : Char} (hblank : isBlank c = false) (hsign : c ≠ '+')
    (hdigit : c.isDigit = false) (hunit : c ∉ units) : c ∉ t.write := by
  have hspace : ∀ {s : Text}, (∀ d ∈ s, isBlank d = true) → c ∉ s := fun hs hc => by
    rw [hs c hc] at hblank
    cases hblank
  have hdigits : c ∉ t.digits := fun hc => by
    rw [t.isDigit_of_mem c hc] at hdigit
    cases hdigit
  have hplus : c ∉ (if t.plus then ['+'] else []) := by
    cases t.plus with
    | true => simpa using hsign
    | false => exact List.not_mem_nil
  simp only [write, number, List.mem_append, not_or]
  exact ⟨hspace t.isBlank_of_mem_left, ⟨hplus, hdigits⟩, hspace t.isBlank_of_mem_gap,
    fun hc => hunit (t.mem_of_mem_run c hc), hspace t.isBlank_of_mem_right⟩

/-! ### Reading the digits -/

lemma readNat?_number (limit : Nat) :
    Numeral.readNat? limit t.number = Numeral.readDigits? limit t.digits := by
  rw [number]
  cases t.plus with
  | true => rfl
  | false =>
      refine Numeral.readNat?.eq_2 _ _ fun s hd => ?_
      have hdigits : t.digits = '+' :: s := hd
      have hplus := t.isDigit_of_mem '+' (by rw [hdigits]; exact .head s)
      revert hplus
      decide

/-- The number is read if it is positive and below `2 ^ 31`. -/
lemma readPositive?_number :
    Numeral.readPositive? t.number =
      if 0 < t.count ∧ t.count < 2 ^ 31 then some t.count else none := by
  have hall : t.digits ≠ [] ∧ t.digits.all Char.isDigit = true :=
    ⟨t.digits_ne_nil, List.all_eq_true.mpr t.isDigit_of_mem⟩
  have hread : Numeral.readNat? 0x80000000 t.number =
      if t.count < 2 ^ 31 then some t.count else none := by
    rw [readNat?_number, Numeral.readDigits?, if_pos hall,
      Numeral.valueBelow?_eq (by decide) (by decide), count]
    rfl
  rw [Numeral.readPositive?, hread]
  by_cases hlt : t.count < 2 ^ 31
  · by_cases hpos : 0 < t.count
    · rw [if_pos hlt, if_pos ⟨hpos, hlt⟩, Option.filter_some, if_pos (by simpa using hpos)]
    · rw [if_pos hlt, if_neg fun h => hpos h.1, Option.filter_some, if_neg (by simpa using hpos)]
  · rw [if_neg hlt, if_neg fun h => hlt h.2, Option.filter_none]

end UnitText

/-! ### Every number that is read -/

/-- What is taken off a text are blanks, units and blanks between and behind them. -/
lemma exists_withoutUnits (units : List Char) (s : Text) :
    ∃ left gap run right, s = left ++ (withoutUnits units s ++ (gap ++ (run ++ right))) ∧
      (∀ c ∈ left ++ (gap ++ right), isBlank c = true) ∧ ∀ c ∈ run, c ∈ units := by
  obtain ⟨right, hright, hblank⟩ := exists_dropEnd isBlank (trimStart s)
  obtain ⟨run, hrun, hunit⟩ := exists_dropEnd (fun c => units.contains c) (trim s)
  obtain ⟨gap, hgap, hblank'⟩ :=
    exists_dropEnd isBlank (dropEnd (fun c => units.contains c) (trim s))
  refine ⟨s.takeWhile isBlank, gap, run, right, ?_, ?_, fun c hc => ?_⟩
  · calc s = s.takeWhile isBlank ++ trimStart s := List.takeWhile_append_dropWhile.symm
      _ = s.takeWhile isBlank ++ (trim s ++ right) := congrArg _ hright
      _ = s.takeWhile isBlank ++ (withoutUnits units s ++ gap ++ run ++ right) := by
          rw [withoutUnits, trimEnd, ← hgap, ← hrun]
      _ = _ := by simp only [List.append_assoc]
  · simp only [List.forall_mem_append]
    exact ⟨List.all_eq_true.mp List.all_takeWhile, hblank', hblank⟩
  · simpa using hunit c hc

lemma Numeral.exists_of_readNat? {limit n : Nat} {s : Text} (h : readNat? limit s = some n) :
    ∃ (plus : Bool) (digits : Text), s = (if plus then ['+'] else []) ++ digits ∧ digits ≠ [] ∧
      ∀ c ∈ digits, c.isDigit = true := by
  have hdigits : ∀ {s : Text}, readDigits? limit s = some n →
      s ≠ [] ∧ ∀ c ∈ s, c.isDigit = true := by
    intro s h
    rw [readDigits?] at h
    split at h
    · next hs => exact ⟨hs.1, List.all_eq_true.mp hs.2⟩
    · cases h
  rw [readNat?.eq_def] at h
  split at h
  · exact ⟨true, _, rfl, hdigits h⟩
  · exact ⟨false, _, rfl, hdigits h⟩

/-- **What is read as a positive number with units is exactly what is written so.** -/
lemma readPositive?_withoutUnits_eq_some_iff {units : List Char} (hu : IsUnits units) {s : Text}
    {n : Nat} :
    Numeral.readPositive? (withoutUnits units s) = some n ↔
      (0 < n ∧ n < 2 ^ 31) ∧ ∃ t : UnitText units, t.write = s ∧ t.count = n := by
  constructor
  · intro h
    obtain ⟨hread, -⟩ := Option.filter_eq_some_iff.mp h
    obtain ⟨left, gap, run, right, hs, hblank, hrun⟩ := exists_withoutUnits units s
    obtain ⟨plus, digits, hnumber, hne, hdigit⟩ := Numeral.exists_of_readNat? hread
    let t : UnitText units := ⟨left, plus, digits, gap, run, right, hne, hdigit, hblank, hrun⟩
    have hwrite : t.write = s := by rw [hs, hnumber]; rfl
    have hcount := t.readPositive?_number
    rw [← t.withoutUnits_write hu, hwrite, h] at hcount
    obtain ⟨hrange, hn⟩ := Option.ite_none_right_eq_some.mp hcount.symm
    obtain rfl := Option.some.inj hn
    exact ⟨hrange, t, hwrite, rfl⟩
  · rintro ⟨hrange, t, rfl, rfl⟩
    rw [t.withoutUnits_write hu, t.readPositive?_number, if_pos hrange]

/-! ### Numbers of pixels -/

/-- The letters that may stand behind a number of pixels. -/
def pixelUnits : List Char :=
  ['p', 'x', 'P', 'X']

/-- **Numbers of pixels are read exactly as they may be written.** What is read are digits, with
blanks around them, a plus sign before them or none, and any run of the letters of `px` behind them,
if their value is from `1` to `2 ^ 31 - 1`. Every other text is refused: one that is not so written,
and one whose value is zero or too large, however many digits it has. -/
theorem pixels?_eq_iff_written (s : Text) :
    (∀ n, pixels? s = some n ↔
      (1 ≤ n ∧ n < 2 ^ 31) ∧ ∃ t : UnitText pixelUnits, t.write = s ∧ t.count = n) ∧
    (pixels? s = none ↔
      ∀ t : UnitText pixelUnits, t.write = s → t.count = 0 ∨ 2 ^ 31 ≤ t.count) := by
  have hunits : IsUnits pixelUnits := by decide
  have hsome : ∀ n, pixels? s = some n ↔
      (1 ≤ n ∧ n < 2 ^ 31) ∧ ∃ t : UnitText pixelUnits, t.write = s ∧ t.count = n :=
    fun _ => readPositive?_withoutUnits_eq_some_iff hunits
  refine ⟨hsome, fun hnone t ht => ?_, fun hrange => ?_⟩
  · by_contra hcount
    have hread := (hsome t.count).mpr ⟨by omega, t, ht, rfl⟩
    rw [hnone] at hread
    cases hread
  · refine Option.eq_none_iff_forall_ne_some.mpr fun n hn => ?_
    obtain ⟨hn, t, ht, rfl⟩ := (hsome n).mp hn
    have := hrange t ht
    omega

/-- Blanks are those of Unicode, and zeros may stand in front. -/
example : pixels? "\u3000+0096 pXx\u2003".toList = some 96 := by decide

example : pixels? "9 6".toList = none := by decide

end DocImage
