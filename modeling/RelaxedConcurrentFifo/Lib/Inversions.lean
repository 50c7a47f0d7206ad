/-
# RelaxedConcurrentFifo.Lib.Inversions — pairs of a list in the wrong order, counted from either end

An inversion of a list is a pair of elements, one behind the other, that stand in a relation `r`. Each
element has as many inversions with later elements as `behind` says, and as many with earlier ones as
`ahead` says. Both count every inversion once, so their sums are the same.
-/
import Mathlib.Algebra.GroupWithZero.Nat
import Mathlib.Algebra.BigOperators.Group.List.Basic

namespace RelaxedConcurrentFifo.Lib.Inversions

variable {A : Type} (r : A → A → Bool)

/-- For each element, the later ones with which it is inverted. -/
def behind : List A → List Nat
  | [] => []
  | x :: l => l.countP (fun y => r x y) :: behind l

/-- For each element of a list behind `earlier`, the earlier ones with which it is inverted. -/
def ahead : List A → List A → List Nat
  | _, [] => []
  | earlier, x :: l => earlier.countP (fun y => r y x) :: ahead (earlier ++ [x]) l

@[simp] theorem length_behind (l : List A) : (behind r l).length = l.length := by
  induction l with
  | nil => rfl
  | cons x l ih => simp [behind, ih]

@[simp] theorem length_ahead (earlier l : List A) : (ahead r earlier l).length = l.length := by
  induction l generalizing earlier with
  | nil => rfl
  | cons x l ih => simp [ahead, ih]

/-- The count at a place is taken over the places behind it. -/
theorem getElem?_behind {l : List A} {i : Nat} {x : A} (h : l[i]? = some x) :
    (behind r l)[i]? = some ((l.drop (i + 1)).countP fun y => r x y) := by
  induction l generalizing i with
  | nil => cases h
  | cons y l ih =>
      cases i with
      | zero =>
          obtain rfl : y = x := Option.some.inj h
          rfl
      | succ i => exact ih h

/-- The count at a place is taken over the places before it. -/
theorem getElem?_ahead {earlier l : List A} {i : Nat} {x : A} (h : l[i]? = some x) :
    (ahead r earlier l)[i]? = some ((earlier ++ l.take i).countP fun y => r y x) := by
  induction l generalizing i earlier with
  | nil => cases h
  | cons y l ih =>
      cases i with
      | zero =>
          obtain rfl : y = x := Option.some.inj h
          rw [List.take_zero, List.append_nil]
          rfl
      | succ i =>
          show (ahead r (earlier ++ [y]) l)[i]? = _
          rw [ih h, List.append_assoc]
          rfl

/-- One more element that comes earlier. -/
theorem sum_countP_concat (earlier : List A) (x : A) (l : List A) :
    (l.map fun y => (earlier ++ [x]).countP fun z => r z y).sum =
      (l.map fun y => earlier.countP fun z => r z y).sum + l.countP fun y => r x y := by
  induction l with
  | nil => rfl
  | cons y l ih =>
      rw [List.map_cons, List.sum_cons, ih, List.map_cons, List.sum_cons, List.countP_append, List.countP_singleton,
        List.countP_cons]
      omega

theorem sum_ahead (earlier l : List A) :
    (ahead r earlier l).sum = (l.map fun y => earlier.countP fun z => r z y).sum + (behind r l).sum := by
  induction l generalizing earlier with
  | nil => rfl
  | cons x l ih =>
      rw [ahead, behind, List.sum_cons, List.sum_cons, ih, sum_countP_concat, List.map_cons, List.sum_cons]
      omega

/-- **Both counts have the same sum.** -/
theorem sum_ahead_eq_sum_behind (l : List A) : (ahead r [] l).sum = (behind r l).sum := by
  have hzero : (l.map fun y => ([] : List A).countP fun z => r z y).sum = 0 := by simp
  rw [sum_ahead, hzero, Nat.zero_add]

end RelaxedConcurrentFifo.Lib.Inversions
