/-
# RelaxedConcurrentFifo.Bfs.RingBuffer — `ring_buffer.hpp`

The queue of the sequential search: an array whose capacity is a power of two, and two 64-bit
counters that are masked when they index it. `Holds` says which list the buffer stands for; with it,
the rest of the development never looks at a slot.
-/
import RelaxedConcurrentFifo.Lib.Rings

namespace RelaxedConcurrentFifo.Bfs

open RelaxedConcurrentFifo.Lib.Rings

variable {α : Type} [Inhabited α]

/-- `RingBuffer`. -/
structure RingBuffer (α : Type) where
  c : Array α
  head : Nat
  tail : Nat
  mask : Nat

namespace RingBuffer

/-- The constructor. -/
def make (capacity : Nat) : RingBuffer α := ⟨Array.replicate capacity default, 0, 0, capacity - 1⟩

def size (b : RingBuffer α) : Nat := (b.head + 2 ^ 64 - b.tail) % 2 ^ 64

def empty (b : RingBuffer α) : Bool := b.size == 0

def top (b : RingBuffer α) : α := b.c.getD (b.tail &&& b.mask) default

def pop (b : RingBuffer α) : RingBuffer α := { b with tail := (b.tail + 1) % 2 ^ 64 }

def push (b : RingBuffer α) (value : α) : RingBuffer α :=
  { b with c := b.c.setIfInBounds (b.head &&& b.mask) value, head := (b.head + 1) % 2 ^ 64 }

/-- The buffer holds `l`, oldest first. -/
structure Holds (b : RingBuffer α) (l : List α) : Prop where
  capacity : ∃ k, b.c.size = 2 ^ k
  mask : b.mask = b.c.size - 1
  length : b.tail + l.length = b.head
  head_lt : b.head < 2 ^ 64
  fits : l.length ≤ b.c.size
  slots : ∀ j (hj : j < l.length), b.c[(b.tail + j) % b.c.size]? = some l[j]

namespace Holds

variable {b : RingBuffer α} {l : List α} {x : α}

theorem make (k : Nat) : Holds (make (α := α) (2 ^ k)) [] where
  capacity := ⟨k, by simp [RingBuffer.make]⟩
  mask := by simp [RingBuffer.make]
  length := rfl
  head_lt := by simp [RingBuffer.make]
  fits := Nat.zero_le _
  slots j hj := absurd hj (Nat.not_lt_zero j)

omit [Inhabited α] in
theorem and_mask (h : Holds b l) (i : Nat) : i &&& b.mask = i % b.c.size := by
  obtain ⟨k, hk⟩ := h.capacity
  rw [h.mask, hk, Nat.and_two_pow_sub_one_eq_mod]

omit [Inhabited α] in
theorem size_eq (h : Holds b l) : b.size = l.length := by
  have := h.length
  have := h.head_lt
  unfold size
  omega

omit [Inhabited α] in
theorem empty_iff (h : Holds b l) : b.empty = true ↔ l = [] := by
  unfold empty
  rw [h.size_eq, beq_iff_eq, List.length_eq_zero_iff]

theorem top_eq (h : Holds b (x :: l)) : b.top = x := by
  have h0 := h.slots 0 (Nat.succ_pos _)
  rw [Nat.add_zero] at h0
  rw [top, h.and_mask, Array.getD_eq_getD_getElem?, h0]
  rfl

omit [Inhabited α] in
theorem pop (h : Holds b (x :: l)) : Holds b.pop l := by
  have hlen := h.length
  have hhead := h.head_lt
  rw [List.length_cons] at hlen
  have htail : b.pop.tail = b.tail + 1 := Nat.mod_eq_of_lt (by omega)
  refine ⟨h.capacity, h.mask, ?_, h.head_lt, (Nat.le_succ _).trans h.fits, fun j hj => ?_⟩
  · rw [htail]
    show b.tail + 1 + l.length = b.head
    omega
  · have hslot := h.slots (j + 1) (Nat.succ_lt_succ hj)
    rw [htail, Nat.add_assoc, Nat.add_comm 1 j]
    exact hslot

omit [Inhabited α] in
/-- Pushing into a buffer with room overwrites no slot in use. -/
theorem push (h : Holds b l) (hroom : l.length < b.c.size) (hhead : b.head + 1 < 2 ^ 64) (v : α) :
    Holds (b.push v) (l ++ [v]) := by
  have hlen := h.length
  have hpos : 0 < b.c.size := by omega
  have hhead' : (b.push v).head = b.head + 1 := Nat.mod_eq_of_lt hhead
  have hsize : (b.push v).c.size = b.c.size := Array.size_setIfInBounds
  refine ⟨hsize ▸ h.capacity, hsize ▸ h.mask, ?_, by omega, ?_, fun j hj => ?_⟩
  · rw [hhead', List.length_append, List.length_singleton]
    show b.tail + (l.length + 1) = b.head + 1
    omega
  · rw [hsize, List.length_append, List.length_singleton]
    omega
  · rw [List.length_append, List.length_singleton] at hj
    rw [hsize]
    show (b.c.setIfInBounds (b.head &&& b.mask) v)[(b.tail + j) % b.c.size]? = _
    rw [h.and_mask, Array.getElem?_setIfInBounds, ← hlen]
    by_cases hlast : j = l.length
    · subst hlast
      rw [if_pos rfl, if_pos (Nat.mod_lt _ hpos), List.getElem_append_right (Nat.le_refl _)]
      simp
    · have hj' : j < l.length := by omega
      -- two positions of the buffer less than a capacity apart are different slots
      have hne : (b.tail + l.length) % b.c.size ≠ (b.tail + j) % b.c.size := fun heq =>
        hlast (eq_of_slot_eq hroom (hj'.trans hroom) heq).symm
      rw [if_neg hne, h.slots j hj', List.getElem_append_left hj']

end Holds

end RingBuffer

end RelaxedConcurrentFifo.Bfs
