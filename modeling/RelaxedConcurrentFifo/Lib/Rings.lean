/-
# RelaxedConcurrentFifo.Lib.Rings — lists that stand in a ring of slots

A ring of `cap` slots is used by position: position `p` is slot `p % cap`. A list stands in it from a
first position on when each of its elements is in the slot of its position. As long as the list is
not longer than the ring, no two of its elements share a slot, so that it can be changed in one place,
taken from at the front and added to at the end.
-/
import Mathlib.Data.Nat.ModEq
import Mathlib.Data.List.Basic
import Mathlib.Logic.Function.Basic

namespace RelaxedConcurrentFifo.Lib.Rings

variable {α : Type*} {cap first first' i j : Nat} {slots : Nat → α} {l : List α} {x : α}

/-- Positions less than a lap apart have different slots. -/
theorem eq_of_slot_eq (hi : i < cap) (hj : j < cap) (h : (first + i) % cap = (first + j) % cap) :
    i = j :=
  Nat.ModEq.eq_of_lt_of_lt (Nat.ModEq.add_left_cancel' first h) hi hj

/-- `l` stands in the ring from position `first` on. -/
structure InRing (cap : Nat) (slots : Nat → α) (first : Nat) (l : List α) : Prop where
  fits : l.length ≤ cap
  slot : ∀ j (hj : j < l.length), slots ((first + j) % cap) = l[j]

namespace InRing

theorem nil : InRing cap slots first [] := ⟨Nat.zero_le _, fun _ hj => absurd hj (Nat.not_lt_zero _)⟩

/-- Only the slot of the first position matters. -/
theorem congr_first (h : InRing cap slots first l) (heq : first' % cap = first % cap) :
    InRing cap slots first' l := by
  refine ⟨h.fits, fun j hj => ?_⟩
  rw [Nat.add_mod, heq, ← Nat.add_mod]
  exact h.slot j hj

theorem head (h : InRing cap slots first (x :: l)) : slots (first % cap) = x :=
  h.slot 0 (Nat.succ_pos _)

theorem tail (h : InRing cap slots first l) : InRing cap slots (first + 1) l.tail := by
  refine ⟨by rw [List.length_tail]; exact (Nat.sub_le _ _).trans h.fits, fun j hj => ?_⟩
  rw [List.length_tail] at hj
  rw [List.getElem_tail, Nat.add_assoc, Nat.add_comm 1 j]
  exact h.slot (j + 1) (by omega)

theorem set (h : InRing cap slots first l) (hi : i < cap) (x : α) :
    InRing cap (Function.update slots ((first + i) % cap) x) first (l.set i x) := by
  refine ⟨by rw [List.length_set]; exact h.fits, fun j hj => ?_⟩
  rw [List.length_set] at hj
  rw [List.getElem_set]
  by_cases hij : i = j
  · rw [if_pos hij, hij, Function.update_self]
  · have hne : (first + j) % cap ≠ (first + i) % cap := fun heq =>
      hij (eq_of_slot_eq hi (hj.trans_le h.fits) heq.symm)
    rw [if_neg hij, Function.update_of_ne hne]
    exact h.slot j hj

theorem push (h : InRing cap slots first l) (hroom : l.length < cap) (x : α) :
    InRing cap (Function.update slots ((first + l.length) % cap) x) first (l ++ [x]) := by
  refine ⟨by rw [List.length_append, List.length_singleton]; exact hroom, fun j hj => ?_⟩
  rw [List.length_append, List.length_singleton] at hj
  rcases Nat.lt_or_eq_of_le (Nat.le_of_lt_succ hj) with hlt | rfl
  · have hne : (first + j) % cap ≠ (first + l.length) % cap := fun heq =>
      absurd (eq_of_slot_eq (hlt.trans hroom) hroom heq) (Nat.ne_of_lt hlt)
    rw [Function.update_of_ne hne, List.getElem_append_left hlt]
    exact h.slot j hlt
  · rw [Function.update_self, List.getElem_concat_length rfl]

/-- In a full ring, what is taken at the front makes room for one element at the end. -/
theorem rotate (h : InRing cap slots first l) (hcap : 0 < cap) (hfull : l.length = cap) (x : α) :
    InRing cap (Function.update slots (first % cap) x) (first + 1) (l.tail ++ [x]) := by
  have hlength : l.tail.length + 1 = cap := by
    rw [List.length_tail]
    omega
  have hpush := h.tail.push (Nat.lt_of_succ_le hlength.le) x
  rwa [Nat.add_assoc, Nat.add_comm 1, hlength, Nat.add_mod_right] at hpush

end InRing

end RelaxedConcurrentFifo.Lib.Rings
