import DocImage.Text.Basic

/-!
Base64 with the alphabet `A`–`Z`, `a`–`z`, `0`–`9`, `+`, `/` and padding by `=`: three bytes
make four characters, and a last group of one or two bytes is filled up. `decode?_encode` says
that the bytes are read back.
-/

namespace DocImage.Base64

/-- The character for a six-bit number. -/
def digit (n : Nat) : Char :=
  if n < 26 then Char.ofNat ('A'.toNat + n)
  else if n < 52 then Char.ofNat ('a'.toNat + (n - 26))
  else if n < 62 then Char.ofNat ('0'.toNat + (n - 52))
  else if n = 62 then '+'
  else '/'

/-- The six-bit number that a character stands for. -/
def digitValue? (c : Char) : Option Nat :=
  if 'A' ≤ c ∧ c ≤ 'Z' then some (c.toNat - 'A'.toNat)
  else if 'a' ≤ c ∧ c ≤ 'z' then some (c.toNat - 'a'.toNat + 26)
  else if '0' ≤ c ∧ c ≤ '9' then some (c.toNat - '0'.toNat + 52)
  else if c = '+' then some 62
  else if c = '/' then some 63
  else none

/-- The four characters for the first three bytes, or for as many as there are: their bits, six
by six. -/
def group : Bytes → Text
  | a :: b :: c :: _ =>
    [digit (a.toNat / 4), digit (a.toNat % 4 * 16 + b.toNat / 16),
      digit (b.toNat % 16 * 4 + c.toNat / 64), digit (c.toNat % 64)]
  | [a, b] =>
    [digit (a.toNat / 4), digit (a.toNat % 4 * 16 + b.toNat / 16), digit (b.toNat % 16 * 4), '=']
  | [a] => [digit (a.toNat / 4), digit (a.toNat % 4 * 16), '=', '=']
  | [] => []

/-- The bytes in groups of three. -/
def encode (bytes : Bytes) : Text :=
  (chop (fun l => (group l, 3)) bytes).flatten

/-- The bytes of a text of whole groups, of which only the last one may be filled up, and with
nothing but zero bits. -/
def decode? : Text → Option Bytes
  | [] => some []
  | w :: x :: y :: z :: s => do
    let m ← digitValue? w
    let n ← digitValue? x
    let first := UInt8.ofNat (m * 4 + n / 16)
    if y = '=' then
      if z = '=' ∧ s = [] ∧ n % 16 = 0 then some [first] else none
    else
      let p ← digitValue? y
      let second := UInt8.ofNat (n % 16 * 16 + p / 4)
      if z = '=' then
        if s = [] ∧ p % 4 = 0 then some [first, second] else none
      else
        let q ← digitValue? z
        return first :: second :: UInt8.ofNat (p % 4 * 64 + q) :: (← decode? s)
  | _ => none

/-! ### Reading back -/

theorem digitValue?_digit {n : Nat} (h : n < 64) : digitValue? (digit n) = some n :=
  (by decide +kernel : ∀ n, n < 64 → digitValue? (digit n) = some n) n h

/-- No digit looks like padding. -/
theorem digit_ne (n : Nat) : digit n ≠ '=' := by
  by_cases h : n < 64
  · exact (by decide +kernel : ∀ n, n < 64 → digit n ≠ '=') n h
  · rw [digit, if_neg (by omega), if_neg (by omega), if_neg (by omega), if_neg (by omega)]
    decide

theorem ofNat_eq {b : UInt8} {n : Nat} (h : n = b.toNat) : UInt8.ofNat n = b := by
  rw [h, UInt8.ofNat_toNat]

@[simp] theorem encode_nil : encode [] = [] := by
  simp [encode]

/-- Each group is written by itself. -/
theorem encode_cons_cons_cons (a b c : UInt8) (l : Bytes) :
    encode (a :: b :: c :: l) = group [a, b, c] ++ encode l := by
  rw [encode, chop_cons]; rfl

theorem encode_of_length_le {l : Bytes} (hl : l.length ≤ 3) : encode l = group l := by
  cases l with
  | nil => simp [group]
  | cons a l =>
      rw [List.length_cons] at hl
      rw [encode, chop_cons, List.drop_of_length_le (by omega)]
      simp

/-- Bytes are read back from their groups. -/
theorem decode?_encode : ∀ bytes : Bytes, decode? (encode bytes) = some bytes
  | [] => by rw [encode_nil, decode?]
  | [a] => by
      have ha := a.toNat_lt
      rw [encode_of_length_le (by simp), group, decode?, digitValue?_digit (by omega),
        digitValue?_digit (by omega)]
      simp only [Option.bind_eq_bind, Option.bind_some, if_true]
      rw [if_pos ⟨trivial, trivial, by omega⟩, ofNat_eq (b := a) (by omega)]
  | [a, b] => by
      have ha := a.toNat_lt
      have hb := b.toNat_lt
      rw [encode_of_length_le (by simp), group, decode?, digitValue?_digit (by omega),
        digitValue?_digit (by omega), digitValue?_digit (by omega)]
      simp only [Option.bind_eq_bind, Option.bind_some, if_neg (digit_ne _), if_true]
      rw [if_pos ⟨trivial, by omega⟩, ofNat_eq (b := a) (by omega),
        ofNat_eq (b := b) (by omega)]
  | a :: b :: c :: l => by
      have ha := a.toNat_lt
      have hb := b.toNat_lt
      have hc := c.toNat_lt
      rw [encode_cons_cons_cons]
      simp only [group, List.cons_append, List.nil_append, decode?]
      rw [digitValue?_digit (by omega), digitValue?_digit (by omega),
        digitValue?_digit (by omega), digitValue?_digit (by omega), decode?_encode l]
      simp only [Option.bind_eq_bind, Option.bind_some, Option.pure_def, if_neg (digit_ne _)]
      rw [ofNat_eq (b := a) (by omega), ofNat_eq (b := b) (by omega),
        ofNat_eq (b := c) (by omega)]

end DocImage.Base64
