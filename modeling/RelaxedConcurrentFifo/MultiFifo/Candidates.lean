/-
# RelaxedConcurrentFifo.MultiFifo.Candidates — `refresh_pop_index`

`StickRandom` and `StickRandomSymmetric` draw their candidates one by one, and draw again while the
queue stands among the candidates before. Draws are given as a list; when it is used up before the loop
ends, there is no result. The loop can end exactly if there are enough queues for so many different
candidates, which is checked nowhere: the number of candidates is a template parameter, that of queues
a product of two arguments of the constructor.
-/
import RelaxedConcurrentFifo.MultiFifo.Machine
import Mathlib.Data.Finset.Card
import Mathlib.Data.List.FinRange

namespace RelaxedConcurrentFifo.MultiFifo

variable {T : Type}

/-! ## §1 — the loops -/

/-- The loop that draws entry `i`; a draw is a queue, and the entries before it are searched for it. -/
def drawEntry {numQueues : Nat} (popIndex : Nat → Nat) (i : Nat) :
    List (Fin numQueues) → Option ((Nat → Nat) × List (Fin numQueues))
  | [] => none
  | draw :: draws =>
      let popIndex := Function.update popIndex i draw.val
      if (List.range i).any fun j => popIndex j == popIndex i then drawEntry popIndex i draws
      else some (popIndex, draws)

/-- The loop over the entries from `i` on. -/
def refreshLoop {numQueues : Nat} (popIndex : Nat → Nat) (i : Nat) :
    (entries : Nat) → List (Fin numQueues) → Option ((Nat → Nat) × List (Fin numQueues))
  | 0, draws => some (popIndex, draws)
  | entries + 1, draws => do
      let (popIndex, draws) ← drawEntry popIndex i draws
      refreshLoop popIndex (i + 1) entries draws

/-- `StickRandom::refresh_pop_index`; the result is `pop_index_` and the draws that are left. -/
def StickRandom.refreshPopIndex (numPopCandidates : Nat) {numQueues : Nat} (popIndex : Nat → Nat)
    (draws : List (Fin numQueues)) : Option ((Nat → Nat) × List (Fin numQueues)) :=
  refreshLoop popIndex 0 numPopCandidates draws

/-- `StickRandomSymmetric::refresh_pop_index`. -/
def StickRandomSymmetric.refreshPopIndex (numPopCandidates : Nat) {numQueues : Nat}
    (popIndex : Nat → Nat) (draws : List (Fin numQueues)) :
    Option ((Nat → Nat) × List (Fin numQueues)) :=
  refreshLoop popIndex 0 numPopCandidates draws

/-- The arguments of the constructor of `MultiFifo` that the number of queues comes from. A product
that is no `int` is undefined. -/
structure ThreadArgs where
  numThreads : Nat
  threadMultiplier : Nat
  numThreads_pos : 0 < numThreads
  threadMultiplier_pos : 0 < threadMultiplier
  product_lt : numThreads * threadMultiplier < 2 ^ 31

def ThreadArgs.numQueues (a : ThreadArgs) : Nat := a.numThreads * a.threadMultiplier

/-! ## §2 — different candidates -/

/-- The entries before `i` are different queues. -/
structure Distinct (numQueues : Nat) (popIndex : Nat → Nat) (i : Nat) : Prop where
  lt : ∀ j < i, popIndex j < numQueues
  inj : ∀ j < i, ∀ k < i, popIndex j = popIndex k → j = k

namespace Distinct

variable {numQueues i draw : Nat} {popIndex : Nat → Nat}

theorem zero : Distinct numQueues popIndex 0 :=
  ⟨fun _ hj => absurd hj (Nat.not_lt_zero _), fun _ hj => absurd hj (Nat.not_lt_zero _)⟩

/-- There are no more different candidates than queues. -/
theorem le (h : Distinct numQueues popIndex i) : i ≤ numQueues := by
  have hcard := Finset.card_le_card_of_injOn (s := Finset.range i) (t := Finset.range numQueues)
    popIndex (fun j hj => Finset.mem_coe.mpr (Finset.mem_range.mpr
      (h.lt j (Finset.mem_range.mp (Finset.mem_coe.mp hj)))))
    (fun j hj k hk heq => h.inj j (Finset.mem_range.mp (Finset.mem_coe.mp hj)) k
      (Finset.mem_range.mp (Finset.mem_coe.mp hk)) heq)
  rwa [Finset.card_range, Finset.card_range] at hcard

/-- One entry more, which is none of those before. -/
theorem update (h : Distinct numQueues popIndex i) (hlt : draw < numQueues)
    (hnew : ∀ j < i, popIndex j ≠ draw) :
    Distinct numQueues (Function.update popIndex i draw) (i + 1) := by
  have hcases : ∀ j < i + 1, j < i ∨ j = i := fun j hj => by omega
  have hold : ∀ j < i, Function.update popIndex i draw j = popIndex j :=
    fun j hj => Function.update_of_ne hj.ne _ _
  refine ⟨fun j hj => ?_, fun j hj k hk heq => ?_⟩
  · rcases hcases j hj with hlow | rfl
    · rw [hold j hlow]
      exact h.lt j hlow
    · rw [Function.update_self]
      exact hlt
  · rcases hcases j hj with hlow | rfl <;> rcases hcases k hk with hlow' | rfl
    · rw [hold j hlow, hold k hlow'] at heq
      exact h.inj j hlow k hlow' heq
    · rw [hold j hlow, Function.update_self] at heq
      exact absurd heq (hnew j hlow)
    · rw [hold k hlow', Function.update_self] at heq
      exact absurd heq.symm (hnew k hlow')
    · rfl

end Distinct

/-! ## §3 — when the loops end -/

section Loops

variable {numQueues i : Nat} {popIndex popIndex' : Nat → Nat} {draw : Fin numQueues}
  {draws rest : List (Fin numQueues)}

/-- The search finds the draw among the entries before. -/
theorem any_update_iff :
    ((List.range i).any fun j =>
      Function.update popIndex i draw.val j == Function.update popIndex i draw.val i) = true ↔
      ∃ j < i, popIndex j = draw.val := by
  rw [List.any_eq_true]
  constructor
  · rintro ⟨j, hj, heq⟩
    rw [List.mem_range] at hj
    rw [beq_iff_eq, Function.update_self, Function.update_of_ne hj.ne] at heq
    exact ⟨j, hj, heq⟩
  · rintro ⟨j, hj, heq⟩
    refine ⟨j, List.mem_range.mpr hj, ?_⟩
    rw [beq_iff_eq, Function.update_self, Function.update_of_ne hj.ne]
    exact heq

theorem drawEntry_repeat (h : ∃ j < i, popIndex j = draw.val) :
    drawEntry popIndex i (draw :: draws) =
      drawEntry (Function.update popIndex i draw.val) i draws :=
  if_pos (any_update_iff.mpr h)

theorem drawEntry_new (h : ¬ ∃ j < i, popIndex j = draw.val) :
    drawEntry popIndex i (draw :: draws) = some (Function.update popIndex i draw.val, draws) :=
  if_neg (mt any_update_iff.mp h)

/-- Entry `i` becomes a queue that is none of the entries before, which stay. -/
theorem drawEntry_spec (h : drawEntry popIndex i draws = some (popIndex', rest)) :
    ∃ draw : Fin numQueues, popIndex' = Function.update popIndex i draw.val ∧
      ∀ j < i, popIndex j ≠ draw.val := by
  induction draws generalizing popIndex with
  | nil => cases h
  | cons draw draws ih =>
      by_cases hold : ∃ j < i, popIndex j = draw.val
      · rw [drawEntry_repeat hold] at h
        obtain ⟨draw', rfl, hnew⟩ := ih h
        refine ⟨draw', Function.update_idem .., fun j hj => ?_⟩
        rw [← Function.update_of_ne hj.ne draw.val popIndex]
        exact hnew j hj
      · rw [drawEntry_new hold] at h
        obtain ⟨rfl, -⟩ := Prod.mk.inj (Option.some.inj h)
        exact ⟨draw, rfl, fun j hj heq => hold ⟨j, hj, heq⟩⟩

/-- **When the loop ends, all entries are different queues.** -/
theorem refreshLoop_distinct {entries : Nat} (hbefore : Distinct numQueues popIndex i)
    (h : refreshLoop popIndex i entries draws = some (popIndex', rest)) :
    Distinct numQueues popIndex' (i + entries) := by
  induction entries generalizing popIndex i draws with
  | zero =>
      obtain ⟨rfl, -⟩ := Prod.mk.inj (Option.some.inj h)
      exact hbefore
  | succ entries ih =>
      obtain ⟨⟨popIndex₁, draws₁⟩, hentry, hloop⟩ := Option.bind_eq_some_iff.mp h
      obtain ⟨draw, rfl, hnew⟩ := drawEntry_spec hentry
      have hdone := ih (hbefore.update draw.isLt hnew) hloop
      rwa [Nat.add_assoc, Nat.add_comm 1] at hdone

/-- With enough queues, the draws 0, 1, 2, … end the loop. -/
theorem exists_draws {entries : Nat} (hle : i + entries ≤ numQueues)
    (hbefore : ∀ j < i, popIndex j = j) :
    ∃ (draws : List (Fin numQueues)) (popIndex' : Nat → Nat),
      refreshLoop popIndex i entries draws = some (popIndex', []) := by
  induction entries generalizing popIndex i with
  | zero => exact ⟨[], popIndex, rfl⟩
  | succ entries ih =>
      let draw : Fin numQueues := ⟨i, by omega⟩
      have hnew : ¬ ∃ j < i, popIndex j = draw.val := by
        rintro ⟨j, hj, heq⟩
        rw [hbefore j hj] at heq
        exact absurd heq hj.ne
      have hafter : ∀ j < i + 1, Function.update popIndex i draw.val j = j := by
        intro j hj
        rcases Nat.lt_or_eq_of_le (Nat.le_of_lt_succ hj) with hlt | rfl
        · rw [Function.update_of_ne hlt.ne]
          exact hbefore j hlt
        · rw [Function.update_self]
      obtain ⟨draws, popIndex', hloop⟩ := ih (by omega) hafter
      refine ⟨draw :: draws, popIndex', ?_⟩
      rw [refreshLoop, drawEntry_new hnew]
      exact hloop

end Loops

/-- Selecting candidates can always finish, and selects different queues. -/
structure SelectionFinishes (numPopCandidates numQueues : Nat)
    (refresh : (Nat → Nat) → List (Fin numQueues) → Option ((Nat → Nat) × List (Fin numQueues))) :
    Prop where
  finishes : ∀ popIndex, ∃ draws popIndex', refresh popIndex draws = some (popIndex', [])
  distinct : ∀ popIndex draws popIndex' rest, refresh popIndex draws = some (popIndex', rest) →
    (∀ i < numPopCandidates, popIndex' i < numQueues) ∧
      ∀ i < numPopCandidates, ∀ j < numPopCandidates, popIndex' i = popIndex' j → i = j

/-- Where it can finish, there are enough queues. -/
theorem SelectionFinishes.le {numPopCandidates numQueues : Nat}
    {refresh : (Nat → Nat) → List (Fin numQueues) → Option ((Nat → Nat) × List (Fin numQueues))}
    (h : SelectionFinishes numPopCandidates numQueues refresh) : numPopCandidates ≤ numQueues := by
  obtain ⟨draws, popIndex', hrefresh⟩ := h.finishes fun _ => 0
  obtain ⟨hlt, hinj⟩ := h.distinct _ _ _ _ hrefresh
  exact Distinct.le ⟨hlt, hinj⟩

theorem selectionFinishes_of_le {numPopCandidates numQueues : Nat}
    (hle : numPopCandidates ≤ numQueues) :
    SelectionFinishes numPopCandidates numQueues
      fun popIndex draws => refreshLoop popIndex 0 numPopCandidates draws := by
  refine ⟨fun popIndex => ?_, fun popIndex draws popIndex' rest hrefresh => ?_⟩
  · exact exists_draws (by omega) fun j hj => absurd hj (Nat.not_lt_zero j)
  · have hdistinct := refreshLoop_distinct Distinct.zero hrefresh
    rw [Nat.zero_add] at hdistinct
    exact ⟨hdistinct.lt, hdistinct.inj⟩

/-- **In both modes, selecting candidates can finish exactly if there are no more of them than
queues.** -/
theorem selection_finishes_iff (a : ThreadArgs) (numPopCandidates : Nat) :
    (SelectionFinishes numPopCandidates a.numQueues
        (StickRandom.refreshPopIndex numPopCandidates) ↔ numPopCandidates ≤ a.numQueues) ∧
      (SelectionFinishes numPopCandidates a.numQueues
        (StickRandomSymmetric.refreshPopIndex numPopCandidates) ↔
          numPopCandidates ≤ a.numQueues) :=
  ⟨⟨SelectionFinishes.le, selectionFinishes_of_le⟩, ⟨SelectionFinishes.le, selectionFinishes_of_le⟩⟩

/-- One thread and one queue for it. -/
def oneQueue : ThreadArgs := ⟨1, 1, Nat.one_pos, Nat.one_pos, by decide⟩

/-- With the default of two candidates, one thread with one queue never gets its candidates. -/
theorem not_selection_finishes_oneQueue :
    ¬ SelectionFinishes 2 oneQueue.numQueues (StickRandom.refreshPopIndex 2) := by
  intro h
  exact absurd h.le (by decide)

/-! ## §4 — the steps of a handle -/

section Steps

variable {c : Config} {m : Shared T} {h : Handle T} {op : Op T} {pick : Option Nat} {i : Nat}
  {popIndex popIndex' : Nat → Nat} {draws rest : List (Fin c.numQueues)}

/-- The steps of a handle that draws. -/
def drawSteps (c : Config) (m : Shared T) (h : Handle T) (draws : List (Fin c.numQueues)) :
    Shared T × Handle T :=
  draws.foldl (fun s draw => go c draw.val 0 false s.1 s.2) (m, h)

theorem drawSteps_append (draws draws' : List (Fin c.numQueues)) :
    drawSteps c m h (draws ++ draws') =
      drawSteps c (drawSteps c m h draws).1 (drawSteps c m h draws).2 draws' :=
  List.foldl_append ..

/-- A draw that stands among the entries before changes nothing. -/
theorem go_repeat (hpc : h.pc = .refresh op pick i) (hi : i < c.numPopCandidates)
    {draw : Fin c.numQueues} (hold : ∃ j < i, h.popIndex j = draw.val) :
    go c draw.val 0 false m h = (m, h) := by
  obtain ⟨j, hj, heq⟩ := hold
  have hany : ((List.range i).any fun j => h.popIndex j == draw.val) = true :=
    List.any_eq_true.mpr ⟨j, List.mem_range.mpr hj, beq_iff_eq.mpr heq⟩
  simp only [go, hpc, if_pos hi, Nat.mod_eq_of_lt draw.isLt, if_pos hany]

/-- Any other draw is the entry. -/
theorem go_new (hpc : h.pc = .refresh op pick i) (hi : i < c.numPopCandidates)
    {draw : Fin c.numQueues} (hnew : ¬ ∃ j < i, h.popIndex j = draw.val) :
    go c draw.val 0 false m h =
      (m, { h with
        popIndex := Function.update h.popIndex i draw.val
        pc := .refresh op pick (i + 1) }) := by
  have hany : ¬ ((List.range i).any fun j => h.popIndex j == draw.val) = true := by
    intro hany
    obtain ⟨j, hj, heq⟩ := List.any_eq_true.mp hany
    exact hnew ⟨j, List.mem_range.mp hj, beq_iff_eq.mp heq⟩
  simp only [go, hpc, if_pos hi, Nat.mod_eq_of_lt draw.isLt, if_neg hany]

theorem drawSteps_entry (hpc : h.pc = .refresh op pick i) (hi : i < c.numPopCandidates)
    (hsame : ∀ j < i, h.popIndex j = popIndex j)
    (hentry : drawEntry popIndex i draws = some (popIndex', rest)) :
    ∃ used h', draws = used ++ rest ∧ drawSteps c m h used = (m, h') ∧
      h'.pc = .refresh op pick (i + 1) ∧ ∀ j < i + 1, h'.popIndex j = popIndex' j := by
  induction draws generalizing popIndex with
  | nil => cases hentry
  | cons draw draws ih =>
      have hiff : (∃ j < i, h.popIndex j = draw.val) ↔ ∃ j < i, popIndex j = draw.val :=
        exists_congr fun j => and_congr_right fun hj => by rw [hsame j hj]
      by_cases hold : ∃ j < i, popIndex j = draw.val
      · rw [drawEntry_repeat hold] at hentry
        have hsame' : ∀ j < i, h.popIndex j = Function.update popIndex i draw.val j :=
          fun j hj => by rw [Function.update_of_ne hj.ne, hsame j hj]
        obtain ⟨used, h', rfl, hsteps, hdone⟩ := ih hsame' hentry
        refine ⟨draw :: used, h', rfl, ?_, hdone⟩
        show drawSteps c (go c draw.val 0 false m h).1 (go c draw.val 0 false m h).2 used = (m, h')
        rw [go_repeat hpc hi (hiff.mpr hold)]
        exact hsteps
      · rw [drawEntry_new hold] at hentry
        obtain ⟨rfl, rfl⟩ := Prod.mk.inj (Option.some.inj hentry)
        refine ⟨[draw], _, rfl, go_new hpc hi (mt hiff.mp hold), rfl, fun j hj => ?_⟩
        rcases Nat.lt_or_eq_of_le (Nat.le_of_lt_succ hj) with hlt | rfl
        · dsimp only
          rw [Function.update_of_ne hlt.ne, Function.update_of_ne hlt.ne, hsame j hlt]
        · dsimp only
          rw [Function.update_self, Function.update_self]

theorem drawSteps_loop {entries : Nat} (hpc : h.pc = .refresh op pick i)
    (hi : i + entries = c.numPopCandidates) (hsame : ∀ j < i, h.popIndex j = popIndex j)
    (hloop : refreshLoop popIndex i entries draws = some (popIndex', rest)) :
    ∃ used h', draws = used ++ rest ∧ drawSteps c m h used = (m, h') ∧
      h'.pc = .refresh op pick c.numPopCandidates ∧
      ∀ j < c.numPopCandidates, h'.popIndex j = popIndex' j := by
  induction entries generalizing popIndex i h draws with
  | zero =>
      obtain ⟨rfl, rfl⟩ := Prod.mk.inj (Option.some.inj hloop)
      obtain rfl : i = c.numPopCandidates := hi
      exact ⟨[], h, rfl, rfl, hpc, hsame⟩
  | succ entries ih =>
      obtain ⟨⟨popIndex₁, draws₁⟩, hentry, hrest⟩ := Option.bind_eq_some_iff.mp hloop
      obtain ⟨used, h₁, rfl, hsteps, hpc₁, hsame₁⟩ :=
        drawSteps_entry (m := m) hpc (by omega) hsame hentry
      obtain ⟨used', h', rfl, hsteps', hdone⟩ := ih hpc₁ (by omega) hsame₁ hrest
      refine ⟨used ++ used', h', (List.append_assoc ..).symm, ?_, hdone⟩
      rw [drawSteps_append, hsteps]
      exact hsteps'

/-- **The steps of a handle that assigns its candidates do what `refresh_pop_index` does.** -/
theorem drawSteps_refresh (hpc : h.pc = .refresh op pick 0)
    (hrefresh : StickRandom.refreshPopIndex c.numPopCandidates h.popIndex draws =
      some (popIndex', rest)) :
    ∃ used h', draws = used ++ rest ∧ drawSteps c m h used = (m, h') ∧
      h'.pc = .refresh op pick c.numPopCandidates ∧
      ∀ j < c.numPopCandidates, h'.popIndex j = popIndex' j :=
  drawSteps_loop hpc (Nat.zero_add _) (fun _ _ => rfl) hrefresh

end Steps

end RelaxedConcurrentFifo.MultiFifo
