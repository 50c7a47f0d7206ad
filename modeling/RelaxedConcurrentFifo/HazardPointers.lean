/-
# RelaxedConcurrentFifo.HazardPointers — the scan of `HazardPointers.hpp`

Every thread has a row of slots in which it names the objects that it is about to read. `retire` puts
an object on a list of its own thread and goes through that list: for each object it loads the slots of
all threads, one after another, and deletes the object if it has found it in none of them.

Why that is safe is a matter of order. A slot that has named an object since before the object was
retired, and has not been written since, still names it when the scan comes there. So the scan never
leaves such a slot behind and goes on (`Scan.passed_next`), and it does not come to its end
(`Scan.passed_canDelete`).
-/
import Mathlib.Init

namespace RelaxedConcurrentFifo.HazardPointers

/-- The address of an object. -/
abbrev Addr := Nat

/-- `HP_MAX_THREADS`, the number of rows. The constructor takes any `maxThreads`, and no access looks
whether its row is there. -/
def hpMaxThreads : Nat := 192

/-- `retire` before the load of `hp[tid][ihp]` for the object at `iret` in the list of the thread. -/
structure Scan where
  iret : Nat
  tid : Nat
  ihp : Nat
  deriving DecidableEq, Repr

/-- What comes after a load: the object stays in the list, the scan goes on, or the object goes. -/
inductive Verdict where
  | keep
  | next (s : Scan)
  | canDelete
  deriving DecidableEq, Repr

namespace Scan

/-- The loops over `tid` and `ihp` begin; `ihp` counts down. -/
def start (maxHPs iret : Nat) : Scan := ⟨iret, 0, maxHPs - 1⟩

/-- One load of the loops over `tid` and `ihp`, which has given `slot`. -/
def load (maxThreads maxHPs : Nat) (s : Scan) (obj : Addr) (slot : Option Addr) : Verdict :=
  if slot = some obj then .keep
  else if 0 < s.ihp then .next ⟨s.iret, s.tid, s.ihp - 1⟩
  else if s.tid + 1 < maxThreads then .next ⟨s.iret, s.tid + 1, maxHPs - 1⟩
  else .canDelete

/-- Slot `i` of thread `t` was loaded already. -/
def Passed (s : Scan) (t i : Nat) : Prop := t < s.tid ∨ t = s.tid ∧ s.ihp < i

variable {maxThreads maxHPs t i : Nat} {s s' : Scan} {obj : Addr} {slot : Option Addr}

theorem not_passed_start (iret : Nat) (hi : i < maxHPs) : ¬ (start maxHPs iret).Passed t i := by
  rintro (h | ⟨-, h⟩)
  · exact Nat.not_lt_zero t h
  · have h : maxHPs - 1 < i := h
    omega

theorem load_next (h : s.load maxThreads maxHPs obj slot = .next s') :
    slot ≠ some obj ∧ s'.iret = s.iret ∧
      (s' = ⟨s.iret, s.tid, s.ihp - 1⟩ ∧ 0 < s.ihp ∨
        s' = ⟨s.iret, s.tid + 1, maxHPs - 1⟩ ∧ s.ihp = 0) := by
  unfold load at h
  split at h
  · cases h
  · rename_i hslot
    split at h
    · rename_i hpos
      obtain rfl := Verdict.next.inj h
      exact ⟨hslot, rfl, .inl ⟨rfl, hpos⟩⟩
    · rename_i hzero
      split at h
      · obtain rfl := Verdict.next.inj h
        exact ⟨hslot, rfl, .inr ⟨rfl, Nat.eq_zero_of_not_pos hzero⟩⟩
      · cases h

theorem load_canDelete (h : s.load maxThreads maxHPs obj slot = .canDelete) :
    slot ≠ some obj ∧ s.ihp = 0 ∧ maxThreads ≤ s.tid + 1 := by
  unfold load at h
  split at h
  · cases h
  · rename_i hslot
    split at h
    · cases h
    · rename_i hzero
      split at h
      · cases h
      · rename_i hlast
        exact ⟨hslot, Nat.eq_zero_of_not_pos hzero, Nat.le_of_not_lt hlast⟩

/-- The scan stays in the rows of the threads. -/
theorem next_tid_lt (h : s.load maxThreads maxHPs obj slot = .next s') (hs : s.tid < maxThreads) :
    s'.tid < maxThreads := by
  unfold load at h
  split at h
  · cases h
  · split at h
    · obtain rfl := Verdict.next.inj h
      exact hs
    · split at h
      · rename_i hlt
        obtain rfl := Verdict.next.inj h
        exact hlt
      · cases h

/-- **A slot that the scan has left behind did not name the object.** -/
theorem passed_next (h : s.load maxThreads maxHPs obj slot = .next s') (hi : i < maxHPs)
    (hpassed : s'.Passed t i) : s.Passed t i ∨ t = s.tid ∧ i = s.ihp ∧ slot ≠ some obj := by
  obtain ⟨hslot, -, ⟨rfl, hpos⟩ | ⟨rfl, hzero⟩⟩ := load_next h
  · rcases hpassed with hlt | ⟨rfl, hlt⟩
    · exact .inl (.inl hlt)
    · have hlt : s.ihp - 1 < i := hlt
      rcases Nat.lt_or_eq_of_le (Nat.le_of_pred_lt hlt) with hlt | rfl
      · exact .inl (.inr ⟨rfl, hlt⟩)
      · exact .inr ⟨rfl, rfl, hslot⟩
  · rcases hpassed with hlt | ⟨-, hlt⟩
    · rcases Nat.lt_succ_iff_lt_or_eq.mp hlt with hlt | rfl
      · exact .inl (.inl hlt)
      · rcases Nat.eq_zero_or_pos i with rfl | hpos
        · exact .inr ⟨rfl, hzero.symm, hslot⟩
        · exact .inl (.inr ⟨rfl, hzero ▸ hpos⟩)
    · have hlt : maxHPs - 1 < i := hlt
      omega

/-- **An object that is deleted was in no slot.** -/
theorem passed_canDelete (h : s.load maxThreads maxHPs obj slot = .canDelete)
    (ht : t < maxThreads) : s.Passed t i ∨ t = s.tid ∧ i = s.ihp ∧ slot ≠ some obj := by
  obtain ⟨hslot, hzero, hlast⟩ := load_canDelete h
  rcases Nat.lt_or_eq_of_le (Nat.lt_succ_iff.mp (Nat.lt_of_lt_of_le ht hlast)) with hlt | rfl
  · exact .inl (.inl hlt)
  · rcases Nat.eq_zero_or_pos i with rfl | hpos
    · exact .inr ⟨rfl, hzero.symm, hslot⟩
    · exact .inl (.inr ⟨rfl, hzero ▸ hpos⟩)

end Scan

end RelaxedConcurrentFifo.HazardPointers
