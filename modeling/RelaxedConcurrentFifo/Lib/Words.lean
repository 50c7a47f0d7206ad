/-
# RelaxedConcurrentFifo.Lib.Words — fixed-width machine words as natural numbers

A word of `n` bits is a natural number below `2 ^ n`; its bits are read with `Nat.testBit`. The
module gives the handful of word operations a packed concurrent data structure is written with
(rotation, trailing counts, setting and clearing one bit, packing two fields into one word), each
with the lemma that says what it does BIT BY BIT or FIELD BY FIELD. Proofs about packed words use
these lemmas and never unfold the operations.
-/
import Mathlib.Data.Nat.Bitwise
import Mathlib.Data.Nat.Log
import Mathlib.Tactic.Ring

namespace RelaxedConcurrentFifo.Lib.Words

/-! ## §1 — rotation and trailing counts -/

/-- Rotation of an `n`-bit word to the right by `r` places (`std::rotr`). -/
def rotr (n x r : Nat) : Nat := ((x >>> r) ||| (x <<< (n - r))) % 2 ^ n

/-- The number of consecutive zero bits from the least significant one on (`std::countr_zero`). -/
def countrZero (n x : Nat) : Nat := ((List.range n).find? fun i => x.testBit i).getD n

/-- The number of consecutive one bits from the least significant one on (`std::countr_one`). -/
def countrOne (n x : Nat) : Nat := ((List.range n).find? fun i => !x.testBit i).getD n

/-- Bit `i` of the rotated word is bit `(r + i) mod n` of the original one. -/
theorem testBit_rotr {n x r i : Nat} (hx : x < 2 ^ n) (hr : r < n) (hi : i < n) :
    (rotr n x r).testBit i = x.testBit ((r + i) % n) := by
  have hhigh : ∀ j, n ≤ j → x.testBit j = false := fun j hj =>
    Nat.testBit_lt_two_pow (lt_of_lt_of_le hx (Nat.pow_le_pow_right (by omega) hj))
  simp only [rotr, Nat.testBit_mod_two_pow, Nat.testBit_or, Nat.testBit_shiftRight,
    Nat.testBit_shiftLeft, hi, decide_true, Bool.true_and]
  by_cases h : r + i < n
  · have hlow : ¬ (n - r ≤ i) := by omega
    rw [Nat.mod_eq_of_lt h]
    simp [hlow]
  · have hup : n - r ≤ i := by omega
    have hmod : (r + i) % n = i - (n - r) := by
      rw [Nat.mod_eq_sub_mod (by omega), Nat.mod_eq_of_lt (by omega)]
      omega
    rw [hmod, hhigh (r + i) (by omega)]
    simp [hup]

/-- The shared shape of the two trailing counts: the first index with property `p`, else `n`. -/
theorem find_range_getD {n : Nat} (p : Nat → Bool) :
    let k := ((List.range n).find? p).getD n
    k ≤ n ∧ (∀ j < k, p j = false) ∧ (k < n → p k = true) := by
  cases h : (List.range n).find? p with
  | none =>
      have hall := List.find?_eq_none.mp h
      refine ⟨le_refl n, fun j hj => ?_, fun hk => absurd hk (lt_irrefl n)⟩
      simpa using hall j (List.mem_range.mpr hj)
  | some k =>
      obtain ⟨hp, hmem, hbefore⟩ := List.find?_range_eq_some.mp h
      refine ⟨(List.mem_range.mp hmem).le, fun j hj => ?_, fun _ => hp⟩
      simpa using hbefore j hj

theorem countrZero_spec (n x : Nat) :
    countrZero n x ≤ n ∧ (∀ j < countrZero n x, x.testBit j = false) ∧
      (countrZero n x < n → x.testBit (countrZero n x) = true) :=
  find_range_getD _

theorem countrOne_spec (n x : Nat) :
    countrOne n x ≤ n ∧ (∀ j < countrOne n x, x.testBit j = true) ∧
      (countrOne n x < n → x.testBit (countrOne n x) = false) := by
  obtain ⟨hle, hbefore, hat⟩ := find_range_getD (n := n) (fun i => !x.testBit i)
  refine ⟨hle, fun j hj => ?_, fun hk => ?_⟩
  · simpa using hbefore j hj
  · simpa [countrOne] using hat hk

/-! ## §2 — one bit of a word -/

/-- Bitwise complement of a 64-bit word. -/
def compl64 (x : Nat) : Nat := (2 ^ 64 - 1) ^^^ x

theorem testBit_or_bit (x i j : Nat) :
    (x ||| 1 <<< i).testBit j = (x.testBit j || decide (i = j)) := by
  rw [Nat.testBit_or, Nat.one_shiftLeft, Nat.testBit_two_pow]

theorem testBit_and_compl_bit {x j : Nat} (i : Nat) (hj : j < 64) :
    (x &&& compl64 (1 <<< i)).testBit j = (x.testBit j && !decide (i = j)) := by
  rw [compl64, Nat.testBit_and, Nat.testBit_xor, Nat.testBit_two_pow_sub_one, Nat.one_shiftLeft,
    Nat.testBit_two_pow]
  simp [hj]

/-- A word is zero exactly when none of its `n` bits is set. -/
theorem eq_zero_iff_testBit {n x : Nat} (hx : x < 2 ^ n) :
    x = 0 ↔ ∀ i < n, x.testBit i = false := by
  constructor
  · rintro rfl i _
    exact Nat.zero_testBit i
  · intro h
    apply Nat.zero_of_testBit_eq_false
    intro i
    by_cases hi : i < n
    · exact h i hi
    · exact Nat.testBit_lt_two_pow (lt_of_lt_of_le hx (Nat.pow_le_pow_right (by omega) (by omega)))

theorem or_bit_lt {n x i : Nat} (hx : x < 2 ^ n) (hi : i < n) : x ||| 1 <<< i < 2 ^ n := by
  apply Nat.or_lt_two_pow hx
  rw [Nat.one_shiftLeft]
  exact Nat.pow_lt_pow_right (by omega) hi

/-! ## §3 — arithmetic of 64-bit words -/

/-- Subtraction of 64-bit words. -/
def sub64 (x y : Nat) : Nat := (x + 2 ^ 64 - y) % 2 ^ 64

/-- `std::bit_ceil`: the least power of two that is not less. -/
def bitCeil (n : Nat) : Nat := 2 ^ Nat.clog 2 n

theorem le_bitCeil (n : Nat) : n ≤ bitCeil n := Nat.le_pow_clog (by decide) n

/-! ## §4 — two fields in one word: `hi` above bit `k`, `lo` below it -/

theorem shiftLeft_or_div {k hi lo : Nat} (h : lo < 2 ^ k) : (hi <<< k ||| lo) >>> k = hi := by
  rw [← Nat.shiftLeft_add_eq_or_of_lt h, Nat.shiftLeft_eq, Nat.shiftRight_eq_div_pow,
    Nat.mul_comm, Nat.mul_add_div (Nat.two_pow_pos k), Nat.div_eq_of_lt h, Nat.add_zero]

theorem shiftLeft_or_mod {k hi lo : Nat} (h : lo < 2 ^ k) : (hi <<< k ||| lo) % 2 ^ k = lo := by
  rw [← Nat.shiftLeft_add_eq_or_of_lt h, Nat.shiftLeft_eq, Nat.mul_comm, Nat.mul_add_mod,
    Nat.mod_eq_of_lt h]

/-- A word is determined by its two fields. -/
theorem eq_of_fields {k x y : Nat} (hhi : x >>> k = y >>> k) (hlo : x % 2 ^ k = y % 2 ^ k) :
    x = y := by
  rw [Nat.shiftRight_eq_div_pow, Nat.shiftRight_eq_div_pow] at hhi
  rw [← Nat.div_add_mod x (2 ^ k), ← Nat.div_add_mod y (2 ^ k), hhi, hlo]

end RelaxedConcurrentFifo.Lib.Words
