/-
# RelaxedConcurrentFifo.TerminationDetection — `termination_detection.hpp`

`n` threads share a `TerminationDetection` and a bag of work. Each of them runs
`while (repeat(pop)) process(item)`. `repeat` counts the threads that have found no work,
`should_terminate` those of them that are waiting for the others; both counters are raised and
lowered one atomic access at a time, and a thread may be counted although it holds an item already
(`subNoWork`) or is about to leave (`subIdle`).

What makes a `true` of `should_terminate` final is not in the counters alone: a thread stops looking
for work only after it has found the bag empty. So as long as the bag is not empty some thread holds
an item or is about to look (`Seeks`), and such a thread is never counted as idle.
-/
import RelaxedConcurrentFifo.Lib.Runs
import RelaxedConcurrentFifo.Lib.Sums
import Mathlib.Data.Fintype.BigOperators
import Mathlib.Algebra.Order.BigOperators.Group.Finset
import Mathlib.Tactic.Linarith

namespace RelaxedConcurrentFifo.TerminationDetection

open RelaxedConcurrentFifo.Lib.Runs
open RelaxedConcurrentFifo.Lib.Sums

variable {α : Type}

/-! ## §1 — the program of a thread -/

/-- The counters and the bag. -/
structure Shared (α : Type) where
  idleCount : Int
  noWorkCount : Int
  bag : List α
  deriving DecidableEq, Repr

/-- The point before each atomic access of `repeat` and `should_terminate`, and the two points
outside of them. -/
inductive Pc (α : Type) where
  /-- `repeat`: before its first call of `f`. -/
  | tryFirst
  | addNoWork
  /-- `repeat`: before a call of `f` in its loop. -/
  | tryAgain
  | loadNoWork
  | addIdle
  | checkNoWork
  | checkIdle
  | subIdle
  /-- `f` has returned an item, but the thread is still counted as one without work. -/
  | subNoWork (item : α)
  /-- `repeat` has returned true; `process(item)` is running. -/
  | working (item : α)
  /-- `should_terminate` has returned true, and `repeat` false. -/
  | done
  deriving DecidableEq, Repr

/-- What a thread may do next: go on (taking the item at `pick` if it pops), or, inside `process`,
add an item or return. -/
inductive Action (α : Type) where
  | run (pick : Nat)
  | add (item : α)
  | finish
  deriving DecidableEq, Repr

/-- `pop`: some item of the bag, or nothing exactly when the bag is empty. -/
def pop (pick : Nat) (bag : List α) : Option (α × List α) :=
  match bag[pick % bag.length]? with
  | some item => some (item, bag.eraseIdx (pick % bag.length))
  | none => none

/-- One step of one thread. -/
def stepThread (n : Nat) (a : Action α) (m : Shared α) (pc : Pc α) : Shared α × Pc α :=
  match a, pc with
  | .run pick, .tryFirst =>
      match pop pick m.bag with
      | some (item, bag) => ({ m with bag := bag }, .working item)
      | none => (m, .addNoWork)
  | .run _, .addNoWork => ({ m with noWorkCount := m.noWorkCount + 1 }, .tryAgain)
  | .run pick, .tryAgain =>
      match pop pick m.bag with
      | some (item, bag) => ({ m with bag := bag }, .subNoWork item)
      | none => (m, .loadNoWork)
  | .run _, .loadNoWork => if m.noWorkCount ≥ n then (m, .addIdle) else (m, .tryAgain)
  | .run _, .addIdle => ({ m with idleCount := m.idleCount + 1 }, .checkNoWork)
  | .run _, .checkNoWork => if m.noWorkCount ≥ n then (m, .checkIdle) else (m, .subIdle)
  | .run _, .checkIdle => if m.idleCount ≥ n then (m, .done) else (m, .checkNoWork)
  | .run _, .subIdle => ({ m with idleCount := m.idleCount - 1 }, .tryAgain)
  | .run _, .subNoWork item => ({ m with noWorkCount := m.noWorkCount - 1 }, .working item)
  | .add item, .working current => ({ m with bag := item :: m.bag }, .working current)
  | .finish, .working _ => (m, .tryFirst)
  | _, pc => (m, pc)

/-- `n` threads on one detector. -/
structure State (α : Type) (n : Nat) where
  shared : Shared α
  threads : Fin n → Pc α

/-- The detector as its constructor leaves it, all threads before their first `repeat`. -/
def State.init (n : Nat) (bag : List α) : State α n := ⟨⟨0, 0, bag⟩, fun _ => .tryFirst⟩

def State.step {n : Nat} (s : State α n) (l : Fin n × Action α) : State α n :=
  ⟨(stepThread n l.2 s.shared (s.threads l.1)).1,
    Function.update s.threads l.1 (stepThread n l.2 s.shared (s.threads l.1)).2⟩

def State.run {n : Nat} (s : State α n) (ls : List (Fin n × Action α)) : State α n :=
  ls.foldl State.step s

/-! ## §2 — what a thread contributes -/

/-- The thread is counted in `no_work_count_`. -/
def inNoWork : Pc α → Int
  | .tryFirst | .addNoWork | .working _ => 0
  | _ => 1

/-- The thread is counted in `idle_count_`. -/
def inIdle : Pc α → Int
  | .checkNoWork | .checkIdle | .subIdle | .done => 1
  | _ => 0

/-- The thread holds an item that it has not finished processing. -/
def Holds : Pc α → Prop
  | .subNoWork _ | .working _ => True
  | _ => False

/-- The thread holds an item, or its next access looks for one. -/
def Seeks : Pc α → Prop
  | .tryFirst | .tryAgain | .subNoWork _ | .working _ => True
  | _ => False

theorem seeks_of_holds {pc : Pc α} (h : Holds pc) : Seeks pc := by
  cases pc <;> first | exact h | exact h.elim

theorem inIdle_le_one (pc : Pc α) : inIdle pc ≤ 1 := by
  cases pc <;> simp [inIdle]

/-- A thread that is counted as idle neither holds an item nor looks for one. -/
theorem not_seeks_of_inIdle {pc : Pc α} (h : inIdle pc = 1) : ¬ Seeks pc := by
  cases pc <;> first | exact id | cases h

theorem pop_eq_none_iff (pick : Nat) (bag : List α) : pop pick bag = none ↔ bag = [] := by
  unfold pop
  cases bag with
  | nil => simp
  | cons x xs =>
      have hlt : pick % (x :: xs).length < (x :: xs).length := Nat.mod_lt _ (by simp)
      rw [List.getElem?_eq_getElem hlt]
      simp

/-- Everything a step of a thread can do. -/
inductive ThreadStep (n : Nat) (m : Shared α) : Pc α → Shared α → Pc α → Prop where
  /-- A step that neither finds the bag empty nor touches it. -/
  | move {pc pc' : Pc α} {m' : Shared α} (hbag : m'.bag = m.bag)
      (hnoWork : m'.noWorkCount + inNoWork pc = m.noWorkCount + inNoWork pc')
      (hidle : m'.idleCount + inIdle pc = m.idleCount + inIdle pc')
      (hseeks : Seeks pc → Seeks pc') (hholds : Holds pc' → Holds pc) : ThreadStep n m pc m' pc'
  /-- `f` takes an item. -/
  | take {pc pc' : Pc α} {m' : Shared α} (hbag : m.bag ≠ [])
      (hnoWork : m'.noWorkCount + inNoWork pc = m.noWorkCount + inNoWork pc')
      (hidle : m'.idleCount + inIdle pc = m.idleCount + inIdle pc')
      (hseeks : Seeks pc') : ThreadStep n m pc m' pc'
  /-- `f` finds the bag empty. -/
  | fail {pc pc' : Pc α} (hbag : m.bag = []) (hnoWork : inNoWork pc' = inNoWork pc)
      (hidle : inIdle pc' = inIdle pc) (hholds : ¬ Holds pc') : ThreadStep n m pc m pc'
  /-- `process` adds an item. -/
  | add {item current : α} :
      ThreadStep n m (.working current) { m with bag := item :: m.bag } (.working current)
  /-- `should_terminate` returns true. -/
  | terminate (hall : m.idleCount ≥ n) : ThreadStep n m .checkIdle m .done

theorem stepThread_spec (n : Nat) (a : Action α) (m : Shared α) (pc : Pc α) :
    ThreadStep n m pc (stepThread n a m pc).1 (stepThread n a m pc).2 := by
  unfold stepThread
  split
  · split
    · rename_i hpop
      have hbag : m.bag ≠ [] := fun h => by simp [(pop_eq_none_iff _ _).mpr h] at hpop
      exact .take hbag rfl rfl trivial
    · rename_i hpop
      exact .fail ((pop_eq_none_iff _ _).mp hpop) rfl rfl id
  · exact .move rfl (by simp [inNoWork]) rfl (fun h => h.elim) (fun h => h.elim)
  · split
    · rename_i hpop
      have hbag : m.bag ≠ [] := fun h => by simp [(pop_eq_none_iff _ _).mpr h] at hpop
      exact .take hbag rfl rfl trivial
    · rename_i hpop
      exact .fail ((pop_eq_none_iff _ _).mp hpop) rfl rfl id
  · split
    · exact .move rfl rfl rfl (fun h => h.elim) (fun h => h.elim)
    · exact .move rfl rfl rfl (fun h => h.elim) (fun h => h.elim)
  · exact .move rfl rfl (by simp [inIdle]) (fun h => h.elim) (fun h => h.elim)
  · split
    · exact .move rfl rfl rfl (fun h => h.elim) (fun h => h.elim)
    · exact .move rfl rfl rfl (fun h => h.elim) (fun h => h.elim)
  · split
    · rename_i hall
      exact .terminate hall
    · exact .move rfl rfl rfl (fun h => h.elim) (fun h => h.elim)
  · exact .move rfl rfl (by simp [inIdle]) (fun h => h.elim) (fun h => h.elim)
  · exact .move rfl (by simp [inNoWork]) rfl (fun _ => trivial) (fun _ => trivial)
  · exact .add
  · exact .move rfl rfl rfl (fun _ => trivial) (fun h => h.elim)
  · exact .move rfl rfl rfl id id

/-- Every step changes the counters by what the thread's own contribution changes. -/
theorem ThreadStep.counts {n : Nat} {m m' : Shared α} {pc pc' : Pc α}
    (h : ThreadStep n m pc m' pc') :
    m'.noWorkCount + inNoWork pc = m.noWorkCount + inNoWork pc' ∧
      m'.idleCount + inIdle pc = m.idleCount + inIdle pc' := by
  cases h with
  | move hbag hnoWork hidle => exact ⟨hnoWork, hidle⟩
  | take hbag hnoWork hidle => exact ⟨hnoWork, hidle⟩
  | fail hbag hnoWork hidle => exact ⟨by rw [hnoWork], by rw [hidle]⟩
  | add => exact ⟨rfl, rfl⟩
  | terminate => exact ⟨rfl, rfl⟩

/-! ## §3 — the invariant -/

section Invariant

variable {n : Nat}

/-- The counters count what they should, a non-empty bag has a thread that will look at it, and once
a thread is done there is no work left anywhere. -/
structure Inv (s : State α n) : Prop where
  noWork : s.shared.noWorkCount = ∑ t, inNoWork (s.threads t)
  idle : s.shared.idleCount = ∑ t, inIdle (s.threads t)
  seeks : s.shared.bag ≠ [] → ∃ t, Seeks (s.threads t)

/-- No work is left: the bag is empty and no thread holds an item. -/
structure NoWork (s : State α n) : Prop where
  bag : s.shared.bag = []
  threads : ∀ t, ¬ Holds (s.threads t)

theorem Inv.init (n : Nat) (bag : List α) (hn : bag ≠ [] → 0 < n) : Inv (State.init n bag) where
  noWork := by simp [State.init, inNoWork]
  idle := by simp [State.init, inIdle]
  seeks h := ⟨⟨0, hn h⟩, trivial⟩

theorem State.step_threads_self (s : State α n) (l : Fin n × Action α) :
    (s.step l).threads l.1 = (stepThread n l.2 s.shared (s.threads l.1)).2 :=
  Function.update_self _ _ _

theorem State.step_threads_ne (s : State α n) (l : Fin n × Action α) {t : Fin n} (h : t ≠ l.1) :
    (s.step l).threads t = s.threads t := Function.update_of_ne h _ _

/-- When all `n` threads are counted as idle, none of them seeks. -/
theorem Inv.not_seeks {s : State α n} (inv : Inv s) (hall : s.shared.idleCount ≥ n) :
    ∀ t, ¬ Seeks (s.threads t) := by
  intro t
  apply not_seeks_of_inIdle
  by_contra hne
  have hlt : inIdle (s.threads t) < 1 := lt_of_le_of_ne (inIdle_le_one _) hne
  have hsum : ∑ u, inIdle (s.threads u) < ∑ _u : Fin n, (1 : Int) :=
    Finset.sum_lt_sum (fun u _ => inIdle_le_one _) ⟨t, Finset.mem_univ t, hlt⟩
  rw [← inv.idle] at hsum
  simp at hsum
  omega

/-- **When `should_terminate` returns true, no work is left.** -/
theorem Inv.noWork_of_all_idle {s : State α n} (inv : Inv s) (hall : s.shared.idleCount ≥ n) :
    NoWork s where
  bag := by
    by_contra hbag
    obtain ⟨t, ht⟩ := inv.seeks hbag
    exact inv.not_seeks hall t ht
  threads t ht := inv.not_seeks hall t (seeks_of_holds ht)

theorem Inv.step {s : State α n} (inv : Inv s) (l : Fin n × Action α) : Inv (s.step l) := by
  have hstep := stepThread_spec n l.2 s.shared (s.threads l.1)
  have hself := s.step_threads_self l
  have hnoWork := sum_update inNoWork s.threads l.1 (stepThread n l.2 s.shared (s.threads l.1)).2
  have hidle := sum_update inIdle s.threads l.1 (stepThread n l.2 s.shared (s.threads l.1)).2
  obtain ⟨hcountNoWork, hcountIdle⟩ := hstep.counts
  have h1 := inv.noWork
  have h2 := inv.idle
  refine ⟨?_, ?_, fun hbag => ?_⟩
  · show (stepThread n l.2 s.shared (s.threads l.1)).1.noWorkCount =
      ∑ t, inNoWork (Function.update s.threads l.1 _ t)
    omega
  · show (stepThread n l.2 s.shared (s.threads l.1)).1.idleCount =
      ∑ t, inIdle (Function.update s.threads l.1 _ t)
    omega
  · change (stepThread n l.2 s.shared (s.threads l.1)).1.bag ≠ [] at hbag
    -- a seeking thread that is not the one that moves goes on seeking
    have hothers : ∀ t, Seeks (s.threads t) → t ≠ l.1 → ∃ t, Seeks ((s.step l).threads t) :=
      fun t ht hne => ⟨t, by rw [s.step_threads_ne l hne]; exact ht⟩
    generalize (stepThread n l.2 s.shared (s.threads l.1)).1 = m' at hstep hbag
    generalize (stepThread n l.2 s.shared (s.threads l.1)).2 = pc' at hstep hself
    generalize hpc : s.threads l.1 = pc at hstep
    cases hstep with
    | move hsame _ _ hseeks =>
        rw [hsame] at hbag
        obtain ⟨t, ht⟩ := inv.seeks hbag
        by_cases hne : t = l.1
        · subst hne
          rw [hpc] at ht
          exact ⟨l.1, by rw [hself]; exact hseeks ht⟩
        · exact hothers t ht hne
    | take _ _ _ hseeks => exact ⟨l.1, by rw [hself]; exact hseeks⟩
    | fail hempty => exact absurd hempty hbag
    | add => exact ⟨l.1, by rw [hself]; trivial⟩
    | terminate hall =>
        obtain ⟨t, ht⟩ := inv.seeks hbag
        exact absurd ht (inv.not_seeks hall t)

/-- Without work left, no step finds or makes any. -/
theorem NoWork.step {s : State α n} (h : NoWork s) (l : Fin n × Action α) : NoWork (s.step l) := by
  have hstep := stepThread_spec n l.2 s.shared (s.threads l.1)
  have hself := s.step_threads_self l
  have hheld := h.threads l.1
  generalize hm : (stepThread n l.2 s.shared (s.threads l.1)).1 = m' at hstep
  generalize hpc : (stepThread n l.2 s.shared (s.threads l.1)).2 = pc' at hstep hself
  have hshared : (s.step l).shared = m' := hm
  generalize hpc0 : s.threads l.1 = pc at hstep hheld
  have hboth : m'.bag = [] ∧ ¬ Holds pc' := by
    cases hstep with
    | move hsame _ _ _ hholds => exact ⟨hsame.trans h.bag, fun hp => hheld (hholds hp)⟩
    | take hbag => exact absurd h.bag hbag
    | fail _ _ _ hholds => exact ⟨h.bag, hholds⟩
    | add => exact absurd trivial hheld
    | terminate => exact ⟨h.bag, id⟩
  refine ⟨by rw [hshared]; exact hboth.1, fun t => ?_⟩
  by_cases hne : t = l.1
  · subst hne
    rw [hself]
    exact hboth.2
  · rw [s.step_threads_ne l hne]
    exact h.threads t

end Invariant

/-! ## §4 — whole runs -/

section Runs

variable {n : Nat}

/-- The `k`-th step of the run is a `should_terminate` that returns true. -/
def TerminatesAt (bag : List α) (ls : List (Fin n × Action α)) (k : Nat) : Prop :=
  ∃ hk : k < ls.length,
    ((State.init n bag).run (ls.take k)).threads (ls[k]).1 = .checkIdle ∧
      ((State.init n bag).run (ls.take (k + 1))).threads (ls[k]).1 = .done

theorem inv_run (bag : List α) (ls : List (Fin n × Action α)) (hn : 0 < n) :
    ∀ k ≤ ls.length, Inv ((State.init n bag).run (ls.take k)) :=
  invariant_take State.step (P := fun _ s => Inv s) (Inv.init n bag fun _ => hn)
    fun _ _ ih => ih.step _

theorem TerminatesAt.all_idle {bag : List α} {ls : List (Fin n × Action α)} {k : Nat}
    (h : TerminatesAt bag ls k) :
    ((State.init n bag).run (ls.take k)).shared.idleCount ≥ n := by
  obtain ⟨hk, hbefore, hafter⟩ := h
  rw [State.run, foldl_take_succ _ ls hk, State.step_threads_self] at hafter
  change (stepThread n _ _ (((State.init n bag).run (ls.take k)).threads (ls[k]).1)).2 = _ at hafter
  rw [hbefore] at hafter
  cases ha : (ls[k]).2 with
  | run pick =>
      rw [ha] at hafter
      simp only [stepThread] at hafter
      split at hafter
      · rename_i hall
        exact hall
      · cases hafter
  | add item => rw [ha] at hafter; cases hafter
  | finish => rw [ha] at hafter; cases hafter

/-- The `k`-th step of the run is the last one of a `repeat` that returns true. -/
def RepeatTrueAt (bag : List α) (ls : List (Fin n × Action α)) (k : Nat) : Prop :=
  ∃ (hk : k < ls.length) (item : α),
    ((State.init n bag).run (ls.take k)).threads (ls[k]).1 ≠ .working item ∧
      ((State.init n bag).run (ls.take (k + 1))).threads (ls[k]).1 = .working item

/-- The `k`-th step of the run adds an item to the bag. -/
def AddsAt (bag : List α) (ls : List (Fin n × Action α)) (k : Nat) : Prop :=
  ∃ (_ : k < ls.length) (item : α), ((State.init n bag).run (ls.take (k + 1))).shared.bag =
    item :: ((State.init n bag).run (ls.take k)).shared.bag

/-- **From the moment any `should_terminate` returns true, the bag is empty and no thread holds an
item, in every later state: no `repeat` returns true any more and no item is added.** -/
theorem terminates_without_work (bag : List α) (ls : List (Fin n × Action α)) (k : Nat)
    (h : TerminatesAt bag ls k) :
    (∀ j, k ≤ j → j ≤ ls.length →
      ((State.init n bag).run (ls.take j)).shared.bag = [] ∧
        ∀ t, ¬ Holds (((State.init n bag).run (ls.take j)).threads t)) ∧
      ∀ j, k ≤ j → ¬ RepeatTrueAt bag ls j ∧ ¬ AddsAt bag ls j := by
  have hk := h.1
  have hn : 0 < n := Fin.pos (ls[k]).1
  have hnow := (inv_run bag ls hn k (Nat.le_of_lt hk)).noWork_of_all_idle h.all_idle
  have hlater : ∀ j, k ≤ j → j ≤ ls.length → NoWork ((State.init n bag).run (ls.take j)) :=
    invariant_from State.step (P := NoWork) hnow fun _ _ _ ih => ih.step _
  refine ⟨fun j hkj hj => ⟨(hlater j hkj hj).bag, (hlater j hkj hj).threads⟩,
    fun j hkj => ⟨?_, ?_⟩⟩
  · rintro ⟨hj, item, -, hworking⟩
    have := (hlater (j + 1) (Nat.le_succ_of_le hkj) hj).threads (ls[j]).1
    rw [hworking] at this
    exact this trivial
  · rintro ⟨hj, item, hadd⟩
    have := (hlater (j + 1) (Nat.le_succ_of_le hkj) hj).bag
    rw [hadd] at this
    cases this

/-- Two threads and one item; processing it adds another one. -/
def twoThreads : List (Fin 2 × Action Nat) :=
  [(0, .run 0), (1, .run 0), (1, .run 0), (0, .add 8), (0, .finish), (0, .run 0), (0, .finish),
    (0, .run 0), (0, .run 0), (0, .run 0), (0, .run 0), (0, .run 0), (1, .run 0), (1, .run 0),
    (1, .run 0), (1, .run 0), (1, .run 0)]

theorem terminates_without_work_twoThreads :
    TerminatesAt [7] twoThreads 16 ∧
      ((State.init 2 [7]).run (twoThreads.take 17)).shared.bag = [] := by
  have h : TerminatesAt [7] twoThreads 16 := ⟨by decide, by decide +kernel, by decide +kernel⟩
  exact ⟨h, ((terminates_without_work [7] twoThreads 16 h).1 17 (by decide) (by decide)).1⟩

end Runs

end RelaxedConcurrentFifo.TerminationDetection
