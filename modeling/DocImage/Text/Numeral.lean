import DocImage.Text.Basic

/-!
Numerals: reading natural numbers below a limit, and writing them in decimal. Leading zeros are
allowed, and a numeral whose value reaches the limit is refused, however many digits it has. The
reading stops where the limit is reached, which is right because more digits never make a value
smaller (`valueBelow?_eq`). Hexadecimal digits are written in upper case and read in either case
(`Hexadecimal.digitValue?_digit`).
-/

namespace DocImage

namespace Numeral

/-- The value of a row of digits, the most significant one first. -/
def value (base : Nat) (digits : List Nat) : Nat :=
  digits.foldl (fun n d => base * n + d) 0

/-- The value of a row of digits, if it is below the limit. -/
def valueBelow? (base limit : Nat) (digits : List Nat) : Option Nat :=
  digits.foldlM (fun n d => if base * n + d < limit then some (base * n + d) else none) 0

theorem le_foldl_digits {base : Nat} (hb : 0 < base) (digits : List Nat) (n : Nat) :
    n ≤ digits.foldl (fun n d => base * n + d) n := by
  induction digits generalizing n with
  | nil => exact Nat.le_refl n
  | cons d digits ih =>
      have h : n ≤ base * n := Nat.le_mul_of_pos_left n hb
      exact Nat.le_trans (by omega) (ih (base * n + d))

theorem valueBelow?_eq {base limit : Nat} (hb : 0 < base) (hl : 0 < limit) (digits : List Nat) :
    valueBelow? base limit digits =
      if value base digits < limit then some (value base digits) else none := by
  have key : ∀ n < limit,
      digits.foldlM (fun n d => if base * n + d < limit then some (base * n + d) else none) n =
        if digits.foldl (fun n d => base * n + d) n < limit then
          some (digits.foldl (fun n d => base * n + d) n) else none := by
    induction digits with
    | nil => intro n hn; simp [hn]
    | cons d digits ih =>
        intro n hn
        rw [List.foldlM_cons, List.foldl_cons]
        by_cases h : base * n + d < limit
        · rw [if_pos h]
          exact ih _ h
        · have := le_foldl_digits hb digits (base * n + d)
          rw [if_neg h, if_neg (by omega)]
          rfl
  exact key 0 hl

/-! ### Reading -/

/-- The value of a decimal digit. -/
def digitValue (c : Char) : Nat :=
  c.toNat - '0'.toNat

/-- A non-empty row of the digits `0`–`9`. -/
def readDigits? (limit : Nat) (s : Text) : Option Nat :=
  if s ≠ [] ∧ s.all Char.isDigit then valueBelow? 10 limit (s.map digitValue) else none

/-- A row of digits, possibly with a plus sign before it. -/
def readNat? (limit : Nat) : Text → Option Nat
  | '+' :: s => readDigits? limit s
  | s => readDigits? limit s

/-- A numeral with a value from `1` to `2 ^ 31 - 1`. -/
def readPositive? (s : Text) : Option Nat :=
  (readNat? 0x80000000 s).filter fun n => 0 < n

/-! ### Writing -/

/-- The decimal digits of a number. -/
def write (n : Nat) : Text :=
  Nat.toDigits 10 n

end Numeral

/-! ### Hexadecimal digits -/

namespace Hexadecimal

/-- The digit for a number below 16. -/
def digit (n : Nat) : Char :=
  if n < 10 then Char.ofNat ('0'.toNat + n) else Char.ofNat ('A'.toNat + (n - 10))

/-- The value of a digit. -/
def digitValue? (c : Char) : Option Nat :=
  if c.isDigit then some (c.toNat - '0'.toNat)
  else if 'a' ≤ c ∧ c ≤ 'f' then some (c.toNat - 'a'.toNat + 10)
  else if 'A' ≤ c ∧ c ≤ 'F' then some (c.toNat - 'A'.toNat + 10)
  else none

/-- The value of a non-empty row of digits, if it is below the limit. -/
def read? (limit : Nat) (s : Text) : Option Nat :=
  if s = [] then none else (s.mapM digitValue?).bind (Numeral.valueBelow? 16 limit)

theorem digitValue?_digit {n : Nat} (h : n < 16) : digitValue? (digit n) = some n :=
  (by decide : ∀ n, n < 16 → digitValue? (digit n) = some n) n h

end Hexadecimal

end DocImage
