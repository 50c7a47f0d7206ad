/-
# RelaxedConcurrentFifo.Lib.Sums — finite sums that change in one place

Conservation arguments (nothing is lost, nothing is counted twice) keep a sum over all places where
something can be, and a step changes the summand in ONE of them. The lemmas here exchange that one
summand without subtraction, so that they apply to multisets and natural numbers alike. Capacity
arguments bound a sum from below when all but a few summands are known.
-/
import Mathlib.Algebra.BigOperators.Group.Finset.Basic
import Mathlib.Algebra.Order.BigOperators.Group.Finset

namespace RelaxedConcurrentFifo.Lib.Sums

variable {ι M : Type*} [DecidableEq ι] [AddCommMonoid M]

/-- Two sums that agree outside `k` differ by the summands at `k`. -/
theorem sum_exchange (s : Finset ι) {f g : ι → M} {k : ι} (hk : k ∈ s)
    (h : ∀ j ∈ s, j ≠ k → f j = g j) : ∑ j ∈ s, f j + g k = ∑ j ∈ s, g j + f k := by
  have hrest : ∑ j ∈ s.erase k, f j = ∑ j ∈ s.erase k, g j :=
    Finset.sum_congr rfl fun j hj => h j (Finset.mem_of_mem_erase hj) (Finset.ne_of_mem_erase hj)
  rw [← Finset.add_sum_erase s f hk, ← Finset.add_sum_erase s g hk, hrest]
  ac_rfl

/-- The same for a sum over all threads, one of which moves on. -/
theorem sum_update {n : Nat} {α : Type*} (F : α → M) (x : Fin n → α) (k : Fin n) (y : α) :
    ∑ j, F (Function.update x k y j) + F (x k) = ∑ j, F (x j) + F y := by
  have h := sum_exchange (Finset.univ) (f := fun j => F (Function.update x k y j))
    (g := fun j => F (x j)) (Finset.mem_univ k) fun j _ hj => by rw [Function.update_of_ne hj]
  simpa using h

/-- A summand that changes by as much as something outside of the sum, the other way. -/
theorem sum_balance {N : Type*} [AddCancelCommMonoid N] (s : Finset ι) {f g : ι → N} {k : ι} {x y : N}
    (hk : k ∈ s) (h : ∀ j ∈ s, j ≠ k → f j = g j) (hmove : f k + x = g k + y) :
    ∑ j ∈ s, f j + x = ∑ j ∈ s, g j + y := by
  -- both sides with the old summand added
  refine add_right_cancel (b := g k) ?_
  calc ∑ j ∈ s, f j + x + g k
      = ∑ j ∈ s, f j + g k + x := add_right_comm _ _ _
    _ = ∑ j ∈ s, g j + (f k + x) := by rw [sum_exchange s hk h, add_assoc]
    _ = ∑ j ∈ s, g j + y + g k := by rw [hmove, add_comm (g k), add_assoc]

/-- What one side gives up the other side gets. -/
theorem add_eq_of_exchange {N : Type*} [AddCancelCommMonoid N] {a a' b b' x x' : N}
    (ha : a' + x' = a + x) (hb : b' + x = b + x') : a' + b' = a + b := by
  refine add_right_cancel (b := x' + x) ?_
  calc a' + b' + (x' + x)
      = a' + x' + (b' + x) := add_add_add_comm _ _ _ _
    _ = a + x + (b + x') := by rw [ha, hb]
    _ = a + b + (x' + x) := by rw [add_add_add_comm, add_comm x x']

omit [DecidableEq ι] in
/-- A sum of summands that are all `C`, but for some that are at least 1. -/
theorem card_mul_le_sum_add (s : Finset ι) {f : ι → Nat} {p : ι → Prop} [DecidablePred p] {C : Nat}
    (h : ∀ x ∈ s, f x = C ∨ p x ∧ 1 ≤ f x) :
    s.card * C ≤ ∑ x ∈ s, f x + (s.filter p).card * (C - 1) := by
  calc s.card * C
      = ∑ _x ∈ s, C := (Finset.sum_const_nat fun _ _ => rfl).symm
    _ ≤ ∑ x ∈ s, (f x + if p x then C - 1 else 0) := by
        refine Finset.sum_le_sum fun x hx => ?_
        rcases h x hx with heq | ⟨hp, hpos⟩
        · omega
        · rw [if_pos hp]
          omega
    _ = ∑ x ∈ s, f x + (s.filter p).card * (C - 1) := by
        rw [Finset.sum_add_distrib, ← Finset.sum_filter, Finset.sum_const_nat fun _ _ => rfl]

end RelaxedConcurrentFifo.Lib.Sums
