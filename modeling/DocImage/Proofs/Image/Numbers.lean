import Mathlib.Tactic
import DocImage.Image.Header

/-!
The numbers in the headers of images.

* `littleBytes` and `bigBytes` write a number with a fixed number of bytes, and `unsigned32` is the
  number that is written for a signed one.
* `littleEndian_eq_iff`, `bigEndian_eq_iff` and `signed32_eq_iff`: what is read is what was written,
  so it is bounded by the number of its bytes.
-/

namespace DocImage

/-- The `n` bytes that write a number, the least significant one first. -/
def littleBytes : Nat → Nat → Bytes
  | 0, _ => []
  | n + 1, v => UInt8.ofNat v :: littleBytes n (v / 256)

/-- The `n` bytes that write a number, the most significant one first. -/
def bigBytes (n v : Nat) : Bytes :=
  (littleBytes n v).reverse

/-- The number below `2 ^ 32` that is written for a signed number of 32 bits. -/
def unsigned32 (v : Int) : Nat :=
  (v % 0x100000000).toNat

@[simp] lemma length_littleBytes (n v : Nat) : (littleBytes n v).length = n := by
  induction n generalizing v with
  | zero => rfl
  | succ n ih => rw [littleBytes, List.length_cons, ih]

@[simp] lemma length_bigBytes (n v : Nat) : (bigBytes n v).length = n := by
  rw [bigBytes, List.length_reverse, length_littleBytes]

lemma littleEndian_cons (b : UInt8) (bytes : Bytes) :
    littleEndian (b :: bytes) = 256 * littleEndian bytes + b.toNat := by
  rw [littleEndian, List.reverse_cons, bigEndian, List.foldl_append]
  rfl

/-- A number is read from exactly the bytes that write it. -/
lemma littleEndian_eq_iff {bytes : Bytes} {n v : Nat} (hn : bytes.length = n) :
    littleEndian bytes = v ↔ v < 256 ^ n ∧ bytes = littleBytes n v := by
  subst hn
  induction bytes generalizing v with
  | nil => simp [littleEndian, bigEndian, littleBytes, eq_comm]
  | cons b bytes ih =>
      have hb := b.toNat_lt
      rw [littleEndian_cons, List.length_cons, littleBytes, List.cons.injEq, ← UInt8.toNat_inj,
        UInt8.toNat_ofNat', pow_succ]
      have hdiv : v / 256 < 256 ^ bytes.length ↔ v < 256 ^ bytes.length * 256 :=
        Nat.div_lt_iff_lt_mul (by decide)
      have hrest := ih (v := v / 256)
      rw [hdiv] at hrest
      constructor
      · intro h
        obtain ⟨hlt, hbytes⟩ := hrest.mp (by omega)
        exact ⟨hlt, by omega, hbytes⟩
      · rintro ⟨hlt, hbyte, hbytes⟩
        have := hrest.mpr ⟨hlt, hbytes⟩
        omega

lemma bigEndian_eq_iff {bytes : Bytes} {n v : Nat} (hn : bytes.length = n) :
    bigEndian bytes = v ↔ v < 256 ^ n ∧ bytes = bigBytes n v := by
  have hlittle := littleEndian_eq_iff (v := v) (bytes.length_reverse.trans hn)
  rw [littleEndian, List.reverse_reverse] at hlittle
  rw [hlittle, bigBytes, List.reverse_eq_iff]

lemma signed32_eq_iff {n : Nat} (hn : n < 0x100000000) {v : Int} :
    signed32 n = v ↔ (-0x80000000 ≤ v ∧ v < 0x80000000) ∧ n = unsigned32 v := by
  rw [signed32, unsigned32]
  split <;> omega

lemma bigEndian_lt {bytes : Bytes} {n : Nat} (hn : bytes.length = n) :
    bigEndian bytes < 256 ^ n :=
  ((bigEndian_eq_iff hn).mp rfl).1

lemma littleEndian_lt {bytes : Bytes} {n : Nat} (hn : bytes.length = n) :
    littleEndian bytes < 256 ^ n :=
  ((littleEndian_eq_iff hn).mp rfl).1

lemma signed32_bounds {n : Nat} (h : n < 0x100000000) :
    -0x80000000 ≤ signed32 n ∧ signed32 n ≤ 0x7FFFFFFF := by
  have := ((signed32_eq_iff h).mp rfl).1
  omega

/-- A positive number is written like one without a sign. -/
lemma signed32_eq_natCast_iff {n : Nat} (hn : n < 256 ^ 4) {w : Nat} :
    signed32 n = w ∧ 0 < w ↔ (1 ≤ w ∧ w < 2 ^ 31) ∧ n = w := by
  rw [signed32]
  split <;> omega

lemma Size.ofEdges?_eq_some_iff {width height : Int} {size : Size} :
    Size.ofEdges? width height = some size ↔
      (width = size.width ∧ 0 < size.width) ∧ height = size.height ∧ 0 < size.height := by
  obtain ⟨w, h⟩ := size
  simp only [Size.ofEdges?, Option.ite_none_right_eq_some, Option.some.injEq, Size.mk.injEq]
  omega

end DocImage
