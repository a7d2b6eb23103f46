import DocImage.Text.Basic

/-!
Classes of characters.

* Blank characters are those with the Unicode property `White_Space`, 25 code points, and texts are
  trimmed by it. A trimmed text is not trimmed any further (`trim_trim`).
* Only the letters `A`–`Z` have a case, in texts and in bytes, so folding never changes the length
  of a text, in characters or in bytes.
-/

namespace DocImage

/-! ### Blanks -/

/-- The characters with the Unicode property `White_Space`. -/
def isBlank (c : Char) : Bool :=
  let n := c.toNat
  (0x09 ≤ n && n ≤ 0x0D) || n == 0x20 || n == 0x85 || n == 0xA0 || n == 0x1680 ||
    (0x2000 ≤ n && n ≤ 0x200A) || n == 0x2028 || n == 0x2029 || n == 0x202F || n == 0x205F ||
    n == 0x3000

/-- The text without the blanks at its beginning. -/
def trimStart (s : Text) : Text :=
  s.dropWhile isBlank

/-- The text without the blanks at its end. -/
def trimEnd (s : Text) : Text :=
  dropEnd isBlank s

/-- The text without the blanks at its two ends. -/
def trim (s : Text) : Text :=
  trimEnd (trimStart s)

theorem trimStart_eq_self {s : Text} (h : ∀ c ∈ s.head?, isBlank c = false) : trimStart s = s := by
  cases s with
  | nil => rfl
  | cons c s => rw [trimStart, List.dropWhile_cons_of_neg (by simpa using h c rfl)]

theorem isBlank_head_trimStart {s : Text} : ∀ c ∈ (trimStart s).head?, isBlank c = false := by
  intro c hc
  have h := List.head?_dropWhile_not isBlank s
  rw [trimStart] at hc
  rw [Option.mem_def.1 hc] at h
  exact h

/-- A trimmed text is not trimmed any further. -/
theorem trim_trim (s : Text) : trim (trim s) = trim s := by
  have hend : ∀ t, trimEnd (trimEnd t) = trimEnd t := by
    intro t
    rw [trimEnd, trimEnd, dropEnd, dropEnd, List.reverse_reverse]
    exact congrArg List.reverse (trimStart_eq_self (isBlank_head_trimStart (s := t.reverse)))
  have hpre : trim s <+: trimStart s := by
    rw [trim, trimEnd, dropEnd, ← List.reverse_suffix, List.reverse_reverse]
    exact List.dropWhile_suffix isBlank
  have hstart : trimStart (trim s) = trim s := by
    refine trimStart_eq_self fun c hc => isBlank_head_trimStart (s := s) c ?_
    obtain ⟨t, ht⟩ := hpre
    rw [← ht]
    cases hs : trim s with
    | nil => rw [hs] at hc; cases hc
    | cons d u => rw [hs] at hc; exact hc
  rw [trim, hstart]
  exact hend _

/-! ### Letter case -/

/-- The text with `A`–`Z` written as `a`–`z`. -/
def foldCase (s : Text) : Text :=
  s.map Char.toLower

/-- The bytes with `A`–`Z` written as `a`–`z`. -/
def foldCaseBytes (s : Bytes) : Bytes :=
  s.map fun b => if 0x41 ≤ b && b ≤ 0x5A then b + 0x20 else b

/-- Whether two texts differ at most in the case of `A`–`Z`. -/
def sameUpToCase (s t : Text) : Bool :=
  foldCase s == foldCase t

@[simp] theorem length_foldCase (s : Text) : (foldCase s).length = s.length :=
  List.length_map ..

end DocImage
