/-
# RelaxedConcurrentFifo.Lib.Interleaving — threads that share a memory, and their proof outlines

A program for `n` threads is a function that does ONE atomic step of one thread: it takes what the
outside chooses, the shared memory and the thread's own state. A run interleaves such steps in any
order.

`Outline` is the shape of most invariants of such programs: one assertion about the memory, one about
each thread, and one about each pair of threads. The rule `Outline.Holds.run` asks for one step of one
thread at a time: that it keeps the assertion about the memory and its own, and does not break those
of any other thread (`StepOk`).
-/
import Mathlib.Data.List.Induction
import Mathlib.Logic.Function.Basic

namespace RelaxedConcurrentFifo.Lib.Interleaving

variable {A M P : Type*} {n : Nat}

/-! ## §1 — interleaved steps -/

/-- A shared memory and the own state of each thread. -/
structure Threads (M P : Type*) (n : Nat) where
  shared : M
  locals : Fin n → P

namespace Threads

/-- Thread `l.1` takes a step for which the outside chooses `l.2`. -/
def step (f : A → M → P → M × P) (s : Threads M P n) (l : Fin n × A) : Threads M P n :=
  ⟨(f l.2 s.shared (s.locals l.1)).1,
    Function.update s.locals l.1 (f l.2 s.shared (s.locals l.1)).2⟩

def run (f : A → M → P → M × P) (s : Threads M P n) (ls : List (Fin n × A)) : Threads M P n :=
  ls.foldl (step f) s

variable {f : A → M → P → M × P} {s : Threads M P n}

theorem step_shared (l : Fin n × A) :
    (s.step f l).shared = (f l.2 s.shared (s.locals l.1)).1 := rfl

theorem step_locals_self (l : Fin n × A) :
    (s.step f l).locals l.1 = (f l.2 s.shared (s.locals l.1)).2 := Function.update_self _ _ _

theorem step_locals_ne (l : Fin n × A) {t : Fin n} (h : t ≠ l.1) :
    (s.step f l).locals t = s.locals t := Function.update_of_ne h _ _

@[simp] theorem run_nil : s.run f [] = s := rfl

theorem run_concat (ls : List (Fin n × A)) (l : Fin n × A) :
    s.run f (ls ++ [l]) = (s.run f ls).step f l := by
  unfold run
  rw [List.foldl_append]
  rfl

/-- One step more of a run. -/
theorem run_take_succ (ls : List (Fin n × A)) {k : Nat} (hk : k < ls.length) :
    s.run f (ls.take (k + 1)) = (s.run f (ls.take k)).step f ls[k] := by
  rw [List.take_succ_eq_append_getElem hk, run_concat]

theorem run_append (ls ls' : List (Fin n × A)) : s.run f (ls ++ ls') = (s.run f ls).run f ls' :=
  List.foldl_append ..

end Threads

/-! ## §2 — proof outlines -/

/-- Assertions about the memory, about one thread, and about two different threads. -/
structure Outline (M P : Type*) where
  shared : M → Prop
  thread : M → P → Prop
  pair : P → P → Prop

namespace Outline

variable (o : Outline M P)

/-- All assertions hold. -/
structure Holds (s : Threads M P n) : Prop where
  shared : o.shared s.shared
  thread : ∀ t, o.thread s.shared (s.locals t)
  pair : ∀ t u, t ≠ u → o.pair (s.locals t) (s.locals u)

/-- What a step of one thread, from `m` and `p` to `m'` and `p'`, has to show. -/
structure StepOk (m : M) (p : P) (m' : M) (p' : P) : Prop where
  shared : o.shared m'
  thread : o.thread m' p'
  others : ∀ q, o.thread m q → o.pair p q → o.pair q p → o.thread m' q
  pairs : ∀ q, o.thread m q → o.pair p q → o.pair q p → o.pair p' q ∧ o.pair q p'

variable {o} {f : A → M → P → M × P}

/-- A step that leaves the memory as it is. -/
theorem StepOk.of_memory {m : M} {p p' : P} (hshared : o.shared m) (hthread : o.thread m p')
    (hpairs : ∀ q, o.thread m q → o.pair p q → o.pair q p → o.pair p' q ∧ o.pair q p') :
    o.StepOk m p m p' :=
  ⟨hshared, hthread, fun _ hq _ _ => hq, hpairs⟩

theorem Holds.step {s : Threads M P n} (h : o.Holds s) (l : Fin n × A)
    (hstep : o.StepOk s.shared (s.locals l.1) (f l.2 s.shared (s.locals l.1)).1
      (f l.2 s.shared (s.locals l.1)).2) : o.Holds (s.step f l) := by
  have hself := Threads.step_locals_self (f := f) (s := s) l
  have hother : ∀ t, t ≠ l.1 → (s.step f l).locals t = s.locals t :=
    fun t ht => Threads.step_locals_ne l ht
  refine ⟨hstep.shared, fun t => ?_, fun t u htu => ?_⟩
  · by_cases ht : t = l.1
    · rw [ht, hself]
      exact hstep.thread
    · rw [hother t ht]
      exact hstep.others _ (h.thread t) (h.pair _ _ (Ne.symm ht)) (h.pair _ _ ht)
  · -- only the pairs with the thread that moves can have changed
    by_cases ht : t = l.1
    · have hu : u ≠ l.1 := fun hu => htu (ht.trans hu.symm)
      rw [ht, hself, hother u hu]
      exact (hstep.pairs _ (h.thread u) (h.pair _ _ (Ne.symm hu)) (h.pair _ _ hu)).1
    · rw [hother t ht]
      by_cases hu : u = l.1
      · rw [hu, hself]
        exact (hstep.pairs _ (h.thread t) (h.pair _ _ (Ne.symm ht)) (h.pair _ _ ht)).2
      · rw [hother u hu]
        exact h.pair t u htu

/-- **If every step of every thread is fine, all assertions hold after every run.** The steps need
to be fine only while `ok`, a bound on what the run may use up, is not passed. -/
theorem Holds.run (ok : M → Prop) {s : Threads M P n} (h0 : o.Holds s)
    (hmono : ∀ a m p, ok (f a m p).1 → ok m)
    (hstep : ∀ a m p, o.shared m → o.thread m p → ok (f a m p).1 →
      o.StepOk m p (f a m p).1 (f a m p).2)
    (ls : List (Fin n × A)) (hok : ok (s.run f ls).shared) : o.Holds (s.run f ls) := by
  induction ls using List.reverseRecOn with
  | nil => exact h0
  | append_singleton ls l ih =>
      rw [Threads.run_concat] at hok ⊢
      have hprev := ih (hmono _ _ _ hok)
      exact hprev.step l (hstep _ _ _ hprev.shared (hprev.thread l.1) hok)

/-- **The same for a bound that every state of the run has to keep**, also if a later state could keep
it by chance: what is counted modulo a power of two comes round again. -/
theorem Holds.run_of_states (ok : M → Prop) {s : Threads M P n} (h0 : o.Holds s)
    (hstep : ∀ a m p, o.shared m → o.thread m p → ok m → o.StepOk m p (f a m p).1 (f a m p).2)
    (ls : List (Fin n × A)) (hok : ∀ k < ls.length, ok (s.run f (ls.take k)).shared) :
    o.Holds (s.run f ls) := by
  induction ls using List.reverseRecOn with
  | nil => exact h0
  | append_singleton ls l ih =>
      rw [Threads.run_concat]
      have hprev : o.Holds (s.run f ls) := by
        refine ih fun k hk => ?_
        have hk' := hok k (by rw [List.length_append]; exact Nat.lt_add_right _ hk)
        rwa [List.take_append_of_le_length (Nat.le_of_lt hk)] at hk'
      have hlast := hok ls.length (by rw [List.length_append]; exact Nat.lt_succ_self _)
      rw [List.take_append_of_le_length (Nat.le_refl _), List.take_length] at hlast
      exact hprev.step l (hstep _ _ _ hprev.shared (hprev.thread l.1) hlast)

end Outline

end RelaxedConcurrentFifo.Lib.Interleaving
