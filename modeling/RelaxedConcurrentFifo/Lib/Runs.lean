/-
# RelaxedConcurrentFifo.Lib.Runs — runs of a machine, and what holds along them

A machine is a function `step : S → L → S`; a run is a list of labels, folded over a first state. The
states of the run are those after its first `k` labels. Two rules are all that proofs about runs
need here: an invariant that every step keeps holds in every state (`invariant_take`), and a check
of every state and every step can be evaluated in one pass (`checkRun_spec`).

`Ends` is for the part of a run that is one call: whatever is chosen at each step, and however a
bounded number of failures is placed, it comes to an end, and what it ends in is known. `responses` is
for systems seen from outside, of which only the answers to requests are compared.
-/
import Mathlib.Data.List.Basic
import Mathlib.Algebra.GroupWithZero.Nat
import Mathlib.Data.Nat.Init

namespace RelaxedConcurrentFifo.Lib.Runs

variable {S L : Type*} {step : S → L → S}

/-! ## §1 — runs of a machine -/

/-- The state after one more step. -/
theorem foldl_take_succ (s : S) (ls : List L) {k : Nat} (hk : k < ls.length) :
    (ls.take (k + 1)).foldl step s = step ((ls.take k).foldl step s) ls[k] := by
  rw [List.take_succ_eq_append_getElem hk, List.foldl_append]
  rfl

/-- **An invariant that holds at first and is kept by every step holds all along the run.** The
invariant may speak of the number of steps taken. -/
theorem invariant_take (step : S → L → S) {P : Nat → S → Prop} {s : S} {ls : List L} (h0 : P 0 s)
    (hstep : ∀ k (hk : k < ls.length), P k ((ls.take k).foldl step s) →
      P (k + 1) (step ((ls.take k).foldl step s) ls[k])) :
    ∀ k ≤ ls.length, P k ((ls.take k).foldl step s) := by
  intro k hk
  induction k with
  | zero => exact h0
  | succ k ih =>
      rw [foldl_take_succ s ls hk]
      exact hstep k hk (ih (Nat.le_of_lt hk))

/-- What holds from some state of the run on. -/
theorem invariant_from (step : S → L → S) {P : S → Prop} {s : S} {ls : List L} {k : Nat}
    (hk : P ((ls.take k).foldl step s))
    (hstep : ∀ j (hj : j < ls.length), k ≤ j → P ((ls.take j).foldl step s) →
      P (step ((ls.take j).foldl step s) ls[j])) :
    ∀ j, k ≤ j → j ≤ ls.length → P ((ls.take j).foldl step s) := by
  intro j hkj hj
  induction j, hkj using Nat.le_induction with
  | base => exact hk
  | succ j hkj ih =>
      rw [foldl_take_succ s ls hj]
      exact hstep j hj hkj (ih (Nat.le_of_lt hj))

/-- What holds at one moment and not at a later one stops holding at some step between. -/
theorem exists_last_step {P : Nat → Prop} {j k : Nat} (hjk : j ≤ k) (hj : P j) (hk : ¬ P k) :
    ∃ m, j ≤ m ∧ m < k ∧ P m ∧ ¬ P (m + 1) := by
  induction k, hjk using Nat.le_induction with
  | base => exact absurd hj hk
  | succ k hjk ih =>
      by_cases h : P k
      · exact ⟨k, hjk, Nat.lt_succ_self k, h, hk⟩
      · obtain ⟨m, hjm, hmk, hm⟩ := ih h
        exact ⟨m, hjm, Nat.lt_succ_of_lt hmk, hm⟩

/-- The steps of a run that is one step longer. -/
theorem forall_steps_concat {P : List L → L → Prop} (ls : List L) (l : L) :
    (∀ k (hk : k < (ls ++ [l]).length), P ((ls ++ [l]).take k) (ls ++ [l])[k]) ↔
      (∀ k (hk : k < ls.length), P (ls.take k) ls[k]) ∧ P ls l := by
  constructor
  · intro h
    refine ⟨fun k hk => ?_, ?_⟩
    · have := h k (by rw [List.length_append]; omega)
      rwa [List.take_append_of_le_length (Nat.le_of_lt hk), List.getElem_append_left hk] at this
    · simpa using h ls.length (by simp)
  · rintro ⟨hprev, hlast⟩ k hk
    by_cases hkl : k < ls.length
    · rw [List.take_append_of_le_length (Nat.le_of_lt hkl), List.getElem_append_left hkl]
      exact hprev k hkl
    · obtain rfl : k = ls.length := by
        rw [List.length_append, List.length_singleton] at hk
        omega
      simpa using hlast

/-- The steps of the first part of a run. -/
theorem forall_steps_take (P : List L → L → Prop) {ls : List L}
    (h : ∀ k (hk : k < ls.length), P (ls.take k) ls[k]) (j : Nat) :
    ∀ k (hk : k < (ls.take j).length), P ((ls.take j).take k) (ls.take j)[k] := by
  intro k hk
  have hkj : k < j ∧ k < ls.length := by rwa [List.length_take, Nat.lt_min] at hk
  rw [List.take_take, Nat.min_eq_left (Nat.le_of_lt hkj.1), List.getElem_take]
  exact h k hkj.2

/-- A check `p` of every state of a run and a check `q` of every step taken in it. -/
def checkRun (step : S → L → S) (p : S → Bool) (q : S → L → Bool) (s : S) : List L → Bool
  | [] => p s
  | l :: ls => p s && q s l && checkRun step p q (step s l) ls

theorem checkRun_spec {p : S → Bool} {q : S → L → Bool} {s : S} {ls : List L}
    (h : checkRun step p q s ls = true) :
    (∀ k, p ((ls.take k).foldl step s) = true) ∧
      ∀ k (hk : k < ls.length), q ((ls.take k).foldl step s) ls[k] = true := by
  induction ls generalizing s with
  | nil => exact ⟨fun k => by rw [List.take_nil]; exact h, fun k hk => absurd hk (Nat.not_lt_zero k)⟩
  | cons l ls ih =>
      rw [checkRun, Bool.and_eq_true, Bool.and_eq_true] at h
      obtain ⟨ihp, ihq⟩ := ih h.2
      refine ⟨fun k => ?_, fun k hk => ?_⟩
      · cases k with
        | zero => exact h.1.1
        | succ k => exact ihp k
      · cases k with
        | zero => exact h.1.2
        | succ k => exact ihq k (Nat.lt_of_succ_lt_succ hk)

/-- Whatever is chosen at each step, and wherever up to `n` of the choices are failures, the run comes
to a state with `P`, unless it leaves `ok` first. -/
inductive Ends (step : S → L → S) (fails : L → Bool) (ok P : S → Prop) : Nat → S → Prop
  | done {n : Nat} {s : S} (h : P s) : Ends step fails ok P n s
  | out {n : Nat} {s : S} (h : ¬ ok s) : Ends step fails ok P n s
  | next {n : Nat} {s : S} (h : ∀ l, fails l = false → Ends step fails ok P n (step s l))
      (hfails : ∀ k < n, ∀ l, fails l = true → Ends step fails ok P k (step s l)) :
      Ends step fails ok P n s

namespace Ends

variable {fails : L → Bool} {ok P : S → Prop} {n : Nat} {s : S}

/-- The fewer failures there may be, the better. -/
theorem mono (h : Ends step fails ok P n s) {k : Nat} (hk : k ≤ n) : Ends step fails ok P k s := by
  induction h generalizing k with
  | done h => exact .done h
  | out h => exact .out h
  | next _ _ ih ihfails =>
      exact .next (fun l hl => ih l hl hk)
        fun j hj l hl => ihfails j (Nat.lt_of_lt_of_le hj hk) l hl (Nat.le_refl j)

/-- If failures come to an end, only finitely many choices are failures. -/
theorem countP_le {f : Nat → L} {bound : Nat} (h : ∀ k ≥ bound, fails (f k) = false) (k : Nat) :
    ((List.range k).map f).countP fails ≤ bound := by
  have hmin : ((List.range k).map f).countP fails ≤ min k bound := by
    induction k with
    | zero => exact Nat.zero_le _
    | succ k ih =>
        rw [List.range_succ, List.map_append, List.countP_append, List.map_singleton,
          List.countP_singleton]
        split
        · rename_i hfails
          have hlt : k < bound := by
            by_contra hge
            rw [h k (Nat.not_lt.mp hge)] at hfails
            cases hfails
          omega
        · omega
  omega

/-- A run that goes on for ever comes to the end, if it has no more failures than that. -/
theorem exists_done (h : Ends step fails ok P n s) (f : Nat → L)
    (hcount : ∀ k, ((List.range k).map f).countP fails ≤ n)
    (hok : ∀ k, ok (((List.range k).map f).foldl step s)) :
    ∃ k, P (((List.range k).map f).foldl step s) := by
  have hshift : ∀ (f : Nat → L) k, (List.range (k + 1)).map f =
      f 0 :: (List.range k).map fun i => f (i + 1) := by
    intro f k
    rw [List.range_succ_eq_map, List.map_cons, List.map_map]
    rfl
  induction h generalizing f with
  | done h => exact ⟨0, h⟩
  | out h => exact absurd (hok 0) h
  | @next n s _ _ ih ihfails =>
      have hok' : ∀ k, ok (((List.range k).map fun i => f (i + 1)).foldl step (step s (f 0))) :=
        fun k => by have := hok (k + 1); rwa [hshift] at this
      have hdone : ∃ k, P (((List.range k).map fun i => f (i + 1)).foldl step (step s (f 0))) := by
        cases hfirst : fails (f 0) with
        | false =>
            refine ih (f 0) hfirst _ (fun k => ?_) hok'
            have := hcount (k + 1)
            rwa [hshift, List.countP_cons_of_neg (by rw [hfirst]; decide)] at this
        | true =>
            have hrest : ∀ k, ((List.range k).map fun i => f (i + 1)).countP fails + 1 ≤ n := by
              intro k
              have := hcount (k + 1)
              rwa [hshift, List.countP_cons_of_pos hfirst] at this
            have := hrest 0
            exact ihfails (n - 1) (by omega) (f 0) hfirst _ (fun k => Nat.le_pred_of_lt (hrest k)) hok'
      obtain ⟨k, hk⟩ := hdone
      exact ⟨k + 1, by rw [hshift]; exact hk⟩

/-- A run that has stopped is at the end. -/
theorem of_stopped (stop : S → Prop) (h : Ends step fails ok P n s) (hP : ∀ s, P s → stop s)
    (hstop : ∀ s l, stop s → step s l = s) (hl : ∃ l, fails l = false) (ls : List L)
    (hcount : ls.countP fails ≤ n) (hok : ∀ k ≤ ls.length, ok ((ls.take k).foldl step s))
    (hs : stop (ls.foldl step s)) : P (ls.foldl step s) := by
  induction h generalizing ls with
  | @done n s h =>
      have hfix : ∀ ls : List L, ls.foldl step s = s := by
        intro ls
        induction ls with
        | nil => rfl
        | cons l ls ih => rw [List.foldl_cons, hstop s l (hP s h), ih]
      rwa [hfix]
  | out h => exact absurd (hok 0 (Nat.zero_le _)) h
  | @next n s _ _ ih ihfails =>
      cases ls with
      | nil =>
          obtain ⟨l, hl⟩ := hl
          have hfix : step s l = s := hstop s l hs
          have := ih l hl [] hcount (fun k _ => by rw [List.take_nil, hfix]; exact hok 0 (Nat.le_refl 0))
            (by rw [hfix]; exact hs)
          rwa [hfix] at this
      | cons l ls =>
          have hok' : ∀ k ≤ ls.length, ok ((ls.take k).foldl step (step s l)) :=
            fun k hk => hok (k + 1) (Nat.succ_le_succ hk)
          cases hfirst : fails l with
          | false =>
              rw [List.countP_cons_of_neg (by rw [hfirst]; decide)] at hcount
              exact ih l hfirst ls hcount hok' hs
          | true =>
              rw [List.countP_cons_of_pos hfirst] at hcount
              exact ihfails _ (Nat.lt_of_succ_le hcount) l hfirst ls (Nat.le_refl _) hok' hs

end Ends

/-! ## §2 — systems that answer requests -/

section Responses

variable {Q Q' R R' S' : Type*}

/-- The answers of a system `f` to the requests `qs`, one after the other. -/
def responses (f : S → Q → S × R) (s : S) : List Q → List R
  | [] => []
  | q :: qs => (f s q).2 :: responses f (f s q).1 qs

/-- **Two systems give the same answers when related states give the same answer and are related
again.** The relation has to go on only while the answers are `ok`. -/
theorem responses_eq (Rel : S → S' → Prop) (ok : R → Prop) (toRequest : Q → Q') (toAnswer : R' → R)
    {f : S → Q → S × R} {g : S' → Q' → S' × R'}
    (hstep : ∀ s s' q, Rel s s' → ok (f s q).2 →
      (f s q).2 = toAnswer (g s' (toRequest q)).2 ∧ Rel (f s q).1 (g s' (toRequest q)).1)
    {s : S} {s' : S'} (hrel : Rel s s') (qs : List Q) (hok : ∀ r ∈ responses f s qs, ok r) :
    responses f s qs = (responses g s' (qs.map toRequest)).map toAnswer := by
  induction qs generalizing s s' with
  | nil => rfl
  | cons q qs ih =>
      obtain ⟨hanswer, hnext⟩ := hstep s s' q hrel (hok _ List.mem_cons_self)
      have hrest := ih hnext fun r hr => hok r (List.mem_cons_of_mem _ hr)
      rw [List.map_cons, responses, responses, List.map_cons, ← hanswer, ← hrest]

end Responses

/-! ## §3 — runs of a few threads -/

/-- The threads of a run of one, two or three are written as numerals. -/
instance neZero_one : NeZero 1 := ⟨Nat.one_ne_zero⟩

instance neZero_two : NeZero 2 := ⟨Nat.succ_ne_zero 1⟩

instance neZero_three : NeZero 3 := ⟨Nat.succ_ne_zero 2⟩

end RelaxedConcurrentFifo.Lib.Runs
