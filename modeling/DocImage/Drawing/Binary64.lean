/-!
Arithmetic of 64-bit binary floating point, as far as sizes need it: quotients of natural
numbers, the smaller and the larger of two numbers, and products with a natural number. A
number is its exact rational value; every operation rounds once, to 53 significant binary
digits, and a value half-way between two neighbours goes to the even one.

Quotients and products of numbers below `2 ^ 32` stay far inside the exponents of the format,
so no operation here overflows or loses digits near zero.
-/

namespace DocImage

/-- The integer next to a rational number; half-way between two, the even one. -/
def roundHalfEven (q : Rat) : Int :=
  let below := q.floor
  let rest := q - below
  if rest < 1 / 2 then below
  else if 1 / 2 < rest then below + 1
  else if below % 2 = 0 then below
  else below + 1

/-- A number that is not negative, infinity, or the result of an operation that has none. -/
inductive Binary64 where
  | nan
  | infinite
  | finite (q : Rat)
deriving DecidableEq

namespace Binary64

/-- The exponent of the largest power of two that is not above a positive number. -/
def exponent (q : Rat) : Int :=
  let e : Int := Nat.log2 q.num.toNat - Nat.log2 q.den
  if (2 : Rat) ^ e ≤ q then e else e - 1

/-- The distance between neighbours with 53 significant binary digits, near a positive number.
-/
def spacing (q : Rat) : Rat :=
  (2 : Rat) ^ (exponent q - 52)

/-- The number with 53 significant binary digits next to a number that is not negative. -/
def round (q : Rat) : Rat :=
  if q ≤ 0 then 0 else roundHalfEven (q / spacing q) * spacing q

/-- The quotient of two natural numbers. -/
def quotient (a b : Nat) : Binary64 :=
  if b ≠ 0 then finite (round ((a : Rat) / b))
  else if a ≠ 0 then infinite
  else nan

/-- The product of a natural number and a number. -/
def product (a : Nat) (q : Rat) : Rat :=
  round (a * q)

/-- The larger of two numbers; of a number and none, the number. -/
def max : Binary64 → Binary64 → Binary64
  | nan, y => y
  | x, nan => x
  | infinite, _ => infinite
  | _, infinite => infinite
  | finite p, finite q => finite (if p < q then q else p)

/-- The smaller of two numbers; of a number and none, the number. -/
def min : Binary64 → Binary64 → Binary64
  | nan, y => y
  | x, nan => x
  | infinite, y => y
  | x, infinite => x
  | finite p, finite q => finite (if q < p then q else p)

end Binary64

end DocImage
