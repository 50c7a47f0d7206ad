/-
# RelaxedConcurrentFifo.MultiFifo.Quality — pops of the quality benchmark

`benchmark_quality::per_thread` repeats `push(v); pop()` on every handle and takes it for granted that
the pop returns a value. There is always one to return: a handle between its push and the end of its
pop has put more into the queues than it has taken out. But a scan looks at the queues one after the
other, skips those that are locked, and does not look back. It comes out empty when the elements are
where it has been, or where it has skipped.

The result is about runs: as long as no step leaves a scan without an element in the queues AHEAD of
it, every pop returns a value.
-/
import RelaxedConcurrentFifo.MultiFifo.Ticks
import RelaxedConcurrentFifo.MultiFifo.Conservation
import RelaxedConcurrentFifo.Lib.Runs

namespace RelaxedConcurrentFifo.MultiFifo

open RelaxedConcurrentFifo.Lib.Interleaving
open RelaxedConcurrentFifo.Lib.Words

variable {T : Type} {c : Config} {m : Shared T} {h : Handle T} {op : Op T}

/-! ## §1 — a running call keeps its operation -/

/-- The operation of the call that is running. -/
def Pc.running : Pc T → Option (Op T)
  | .idle | .pushReturned _ | .popReturned _ => none
  | .begin op | .refresh op _ _ | .swapExchange op _ _ | .swapLoad op _ _ _
  | .swapCas op _ _ _ _ _ | .swapStore op _ _ _ | .choose op | .readSlot op _ _ _
  | .readTick op _ _ _ | .lockLoad op _ _ | .lockExchange op _ _ | .inside op _ _ _ => some op

theorem running_resume (pick : Option Nat) : (resume c h op pick).running = some op := by
  unfold resume
  split <;> rfl

theorem running_assign (pick : Option Nat) : (assign c op pick).running = some op := by
  unfold assign
  split <;> rfl

/-- The call goes on with `op`, or has failed. -/
def GoesOn (op : Op T) (pc : Pc T) : Prop := pc.running = some op ∨ pc = exhausted op

theorem goesOn_scanNext (q : Nat) : GoesOn op (scanNext c op q) := by
  unfold scanNext
  split
  · exact .inl rfl
  · exact .inr rfl

theorem goesOn_lockFailed (site : Site) (q : Nat) : GoesOn op (lockFailed c op site q) := by
  cases site with
  | fast pick => exact .inl (running_assign pick)
  | scan => exact goesOn_scanNext q

theorem goesOn_compared (i : Nat) (best : Nat × Nat) : GoesOn op (compared c h op i best).pc := by
  unfold compared
  split
  · dsimp only
    split <;> exact .inl rfl
  · split <;> exact .inl rfl

/-- A step outside of critical sections, and the exchange of a lock. -/
theorem go_goesOn (random time : Nat) (spurious : Bool) (hrunning : h.pc.running = some op)
    (hinside : insideOf h.pc = none) : GoesOn op (go c random time spurious m h).2.pc := by
  cases hpc : h.pc with
  | idle => rw [hpc] at hrunning; cases hrunning
  | pushReturned result => rw [hpc] at hrunning; cases hrunning
  | popReturned result => rw [hpc] at hrunning; cases hrunning
  | inside op' site q stage => rw [hpc] at hinside; cases hinside
  | begin op' =>
      rw [hpc] at hrunning
      cases hrunning
      simp only [go, hpc]
      split
      · exact .inl (running_assign none)
      · exact .inl (running_resume none)
  | refresh op' pick i =>
      rw [hpc] at hrunning
      cases hrunning
      simp only [go, hpc]
      split
      · split
        · exact .inl (by rw [hpc]; rfl)
        · exact .inl rfl
      · exact .inl (running_resume pick)
  | swapExchange op' pick i => rw [hpc] at hrunning; simp only [go, hpc]; exact .inl hrunning
  | swapLoad op' pick i oldTarget =>
      rw [hpc] at hrunning
      simp only [go, hpc]
      split
      · exact .inl (by rw [hpc]; exact hrunning)
      · exact .inl hrunning
  | swapCas op' pick i oldTarget permIndex newTarget =>
      rw [hpc] at hrunning
      simp only [go, hpc]
      split <;> exact .inl hrunning
  | swapStore op' pick i newTarget =>
      rw [hpc] at hrunning
      cases hrunning
      simp only [go, hpc]
      cases pick with
      | some p => exact .inl (running_resume (some p))
      | none =>
          dsimp only
          split
          · exact .inl rfl
          · exact .inl (running_resume none)
  | choose op' =>
      rw [hpc] at hrunning
      cases hrunning
      simp only [go, hpc]
      exact .inl (running_resume _)
  | readSlot op' pick i best =>
      rw [hpc] at hrunning
      simp only [go, hpc]
      cases pick <;> exact .inl hrunning
  | readTick op' i q best =>
      rw [hpc] at hrunning
      cases hrunning
      simp only [go, hpc]
      exact goesOn_compared i _
  | lockLoad op' site q =>
      rw [hpc] at hrunning
      cases hrunning
      simp only [go, hpc]
      split
      · exact .inl rfl
      · exact goesOn_lockFailed site q
  | lockExchange op' site q =>
      rw [hpc] at hrunning
      cases hrunning
      simp only [go, hpc]
      split
      · exact .inl rfl
      · exact goesOn_lockFailed site q

/-- Outside of a call there is no step to take. -/
theorem go_of_resting (random time : Nat) (spurious : Bool) (hrunning : h.pc.running = none) :
    go c random time spurious m h = (m, h) := by
  cases hpc : h.pc with
  | idle => simp only [go, hpc]
  | pushReturned result => simp only [go, hpc]
  | popReturned result => simp only [go, hpc]
  | _ => rw [hpc] at hrunning; cases hrunning

/-- A stage belongs to a push or to a pop. -/
def StageOf (op : Op T) : Stage T → Prop
  | .checkHead | .checkTail _ | .unlockRejected => True
  | .pushRead | .pushWrite _ _ | .pushLoad | .pushStore _ | .pushedOldest | .pushedTail
  | .pushedTick _ | .bottomHead | .bottomTick _ | .storeNewest _ | .sizeHead _ | .sizeTail _ _
  | .storeOldest _ | .unlockPushed => op.isPop = false
  | .topTail | .topValue _ | .popLoad _ | .popStore _ _ | .emptyHead _ | .emptyTail _ _
  | .frontTail _ | .frontTick _ _ | .poppedOldest _ _ _ | .poppedNewest _ | .unlockPopped _ =>
      op = .pop

theorem access_stageOf {time : Nat} {q : Queue T} {stage stage' : Stage T} (h : StageOf op stage)
    (hstay : (q.access c op time stage).2 = .stay stage') : StageOf op stage' := by
  cases stage with
  | checkTail head =>
      cases hstay
      unfold checked
      cases op with
      | push v => dsimp only; split <;> trivial
      | pop => dsimp only; split <;> trivial
  | pushWrite tick head => cases op <;> cases hstay <;> exact h
  | pushStore head =>
      cases op with
      | pop => cases hstay; exact h
      | push v => dsimp only [Queue.access] at hstay; split at hstay <;> cases hstay <;> exact h
  | pushedOldest => dsimp only [Queue.access] at hstay; split at hstay <;> cases hstay <;> exact h
  | sizeTail tick head => dsimp only [Queue.access] at hstay; split at hstay <;> cases hstay <;> exact h
  | emptyTail v head => dsimp only [Queue.access] at hstay; split at hstay <;> cases hstay <;> exact h
  | poppedOldest v tick empty =>
      dsimp only [Queue.access] at hstay
      split at hstay <;> cases hstay <;> exact h
  | unlockRejected => cases hstay
  | unlockPushed => cases hstay
  | unlockPopped v => cases hstay
  | _ => cases hstay; exact h

theorem guarded_stageOf (c : Config) :
    Guarded (T := T) c (fun _ _ => True) (fun _ _ => True) (fun _ op _ stage => StageOf op stage) where
  later _ h := h
  laterInside _ h := h
  enter _ := trivial
  stay _ _ _ h hstay := access_stageOf h hstay
  left _ _ _ _ _ := trivial

theorem stageOf_run [Inhabited T] {n : Nat} (ls : List (Fin n × Action T)) {t : Fin n} {op : Op T}
    {site : Site} {q : Nat} {stage : Stage T}
    (hpc : ((run c ls).locals t).pc = .inside op site q stage) : StageOf op stage :=
  ((guarded_stageOf c).run trivial ls (isChain_of_forall fun _ _ => trivial)).inside t op site q stage
    hpc

/-! ## §2 — every handle has put in what it takes out -/

/-- `per_thread` calls `push` at first and after each pop, and `pop` after each successful push. -/
def follows : Action T → Pc T → Bool
  | .push _, .idle | .push _, .popReturned _ => true
  | .pop, .pushReturned result => result
  | .go _ _ _, _ => true
  | _, _ => false

theorem follows_pop {pc : Pc T} (hfollows : follows .pop pc = true) : pc = .pushReturned true := by
  cases pc with
  | pushReturned result => exact congrArg _ hfollows
  | _ => cases hfollows

/-- Every handle runs `per_thread`. -/
def PerThread [Inhabited T] {n : Nat} (c : Config) (ls : List (Fin n × Action T)) : Prop :=
  ∀ k (hk : k < ls.length), follows ls[k].2 ((run c (ls.take k)).locals ls[k].1).pc = true

/-- The handle has pushed an element for the pop that comes next, or is running. -/
def Pc.ahead (pc : Pc T) : Prop := pc = .pushReturned true ∨ pc.running = some .pop

/-- A handle has not taken out more than it has put in, and one less while it is to pop. -/
structure Balanced (h : Handle T) : Prop where
  le : h.returned.length ≤ h.accepted.length
  pop : h.pc.ahead → h.returned.length + 1 ≤ h.accepted.length

/-- A call that goes on and is to pop was to pop before. -/
theorem GoesOn.ahead {pc : Pc T} (hgoes : GoesOn op pc) (hahead : pc.ahead) : op = .pop := by
  rcases hgoes with hrunning | rfl
  · rcases hahead with rfl | hpop
    · cases hrunning
    · exact Option.some.inj (hrunning.symm.trans hpop)
  · cases op with
    | push v => rcases hahead with heq | heq <;> cases heq
    | pop => rfl

theorem Balanced.of_goesOn {h' : Handle T} (hbalanced : Balanced h)
    (hrunning : h.pc.running = some op) (hgoes : GoesOn op h'.pc)
    (haccepted : h'.accepted = h.accepted) (hreturned : h'.returned = h.returned) : Balanced h' := by
  refine ⟨?_, fun hahead => ?_⟩
  · rw [haccepted, hreturned]
    exact hbalanced.le
  · obtain rfl := hgoes.ahead hahead
    rw [haccepted, hreturned]
    exact hbalanced.pop (.inr hrunning)

theorem balanced_inside {site : Site} {q : Nat} {stage : Stage T} (time : Nat) {queue : Queue T}
    (hpc : h.pc = .inside op site q stage) (hstage : StageOf op stage) (hbalanced : Balanced h) :
    Balanced (leave c h op site q (queue.access c op time stage).2) := by
  have hrunning : h.pc.running = some op := by rw [hpc]; rfl
  by_cases hstay : ∃ stage', (queue.access c op time stage).2 = .stay stage'
  · obtain ⟨stage', hstay⟩ := hstay
    rw [hstay]
    exact hbalanced.of_goesOn hrunning (.inl rfl) rfl rfl
  · obtain ⟨hunlock, -⟩ := access_left fun stage' heq => hstay ⟨stage', heq⟩
    obtain rfl | rfl | ⟨v, rfl⟩ := hunlock
    · cases site with
      | fast pick => exact hbalanced.of_goesOn hrunning (.inl rfl) rfl rfl
      | scan => exact hbalanced.of_goesOn hrunning (goesOn_scanNext q) rfl rfl
    · cases op with
      | push v => exact ⟨Nat.le_succ_of_le hbalanced.le, fun _ => Nat.succ_le_succ hbalanced.le⟩
      | pop => cases hstage
    · obtain rfl : op = .pop := hstage
      refine ⟨hbalanced.pop (.inr hrunning), fun hahead => ?_⟩
      rcases hahead with heq | heq <;> cases heq

/-- One step of a handle that runs `per_thread`. -/
theorem balanced_step (a : Action T) (hfollows : follows a h.pc = true)
    (hstage : ∀ op site q stage, h.pc = .inside op site q stage → StageOf op stage)
    (hbalanced : Balanced h) : Balanced (stepHandle c a m h).2 := by
  cases a with
  | push v =>
      dsimp only [stepHandle]
      split
      · refine ⟨hbalanced.le, fun hahead => ?_⟩
        rcases hahead with heq | heq <;> cases heq
      · exact hbalanced
  | pop =>
      dsimp only [stepHandle]
      split
      · exact ⟨hbalanced.le, fun _ => hbalanced.pop (.inl (follows_pop hfollows))⟩
      · exact hbalanced
  | go random time spurious =>
      show Balanced (go c random time spurious m h).2
      cases hrunning : h.pc.running with
      | none =>
          rw [go_of_resting random time spurious hrunning]
          exact hbalanced
      | some op =>
          by_cases hexchange : ∃ op site q, h.pc = .lockExchange op site q
          · obtain ⟨op', site, q, hpc⟩ := hexchange
            have hgoes := go_goesOn (c := c) (m := m) random time spurious hrunning (by rw [hpc]; rfl)
            refine hbalanced.of_goesOn hrunning hgoes ?_ ?_
            · simp only [go, hpc]
            · simp only [go, hpc]
          · by_cases hinside : insideOf h.pc = none
            · have hout := go_outside (c := c) (m := m) random time spurious
                (fun op site q heq => hexchange ⟨op, site, q, heq⟩) hinside
              exact hbalanced.of_goesOn hrunning (go_goesOn random time spurious hrunning hinside)
                hout.accepted hout.returned
            · cases hpc : h.pc with
              | inside op' site q stage =>
                  simp only [go, hpc]
                  exact balanced_inside time hpc (hstage op' site q stage hpc) hbalanced
              | _ => exact absurd (by rw [hpc]; rfl) hinside

/-- What a handle carries, it is about to return from a pop. -/
theorem Pc.taken_card {pc : Pc T} (hstage : ∀ op site q stage, pc = .inside op site q stage →
    StageOf op stage) : pc.taken = 0 ∨ pc.taken.card = 1 ∧ pc.ahead := by
  cases pc with
  | inside op site q stage =>
      have hof := hstage op site q stage rfl
      cases stage with
      | emptyHead v => exact .inr ⟨rfl, .inr (congrArg some hof)⟩
      | emptyTail v head => exact .inr ⟨rfl, .inr (congrArg some hof)⟩
      | frontTail v => exact .inr ⟨rfl, .inr (congrArg some hof)⟩
      | frontTick v tail => exact .inr ⟨rfl, .inr (congrArg some hof)⟩
      | poppedOldest v tick empty => exact .inr ⟨rfl, .inr (congrArg some hof)⟩
      | poppedNewest v => exact .inr ⟨rfl, .inr (congrArg some hof)⟩
      | unlockPopped v => exact .inr ⟨rfl, .inr (congrArg some hof)⟩
      | _ => exact .inl rfl
  | _ => exact .inl rfl

section Runs

variable [Inhabited T] {n : Nat}

theorem perThread_concat {ls : List (Fin n × Action T)} {l : Fin n × Action T}
    (h : PerThread c (ls ++ [l])) : PerThread c ls ∧ follows l.2 ((run c ls).locals l.1).pc = true :=
  (Lib.Runs.forall_steps_concat
    (P := fun (before : List (Fin n × Action T)) (l : Fin n × Action T) =>
      follows l.2 ((run c before).locals l.1).pc = true) ls l).mp h

/-- **In runs of the benchmark every handle has put in what it takes out.** -/
theorem balanced_run {ls : List (Fin n × Action T)} (hbench : PerThread c ls) (t : Fin n) :
    Balanced ((run c ls).locals t) := by
  induction ls using List.reverseRecOn with
  | nil =>
      refine ⟨Nat.le_refl _, fun hahead => ?_⟩
      rcases hahead with heq | heq <;> cases heq
  | append_singleton ls l ih =>
      obtain ⟨hbefore, hfollows⟩ := perThread_concat hbench
      have hstep : run c (ls ++ [l]) = (run c ls).step (stepHandle c) l := Threads.run_concat ls l
      rw [hstep]
      by_cases ht : t = l.1
      · rw [ht, Threads.step_locals_self]
        exact balanced_step l.2 hfollows (fun op site q stage hpc => stageOf_run ls hpc)
          (ht ▸ ih hbefore)
      · rw [Threads.step_locals_ne l ht]
        exact ih hbefore

/-- A handle that is inside a pop and has not taken its element yet. -/
def Pc.searching (pc : Pc T) : Prop := pc.running = some .pop ∧ pc.taken = 0

/-- **While a pop is searching, there is an element.** -/
theorem exists_element (hslots : EnoughSlots c n) {ls : List (Fin n × Action T)}
    (hbench : PerThread c ls) {t : Fin n} (ht : ((run c ls).locals t).pc.searching) :
    ∃ q < c.numQueues, ((run c ls).shared.queues q).Nonempty := by
  have hconserved := congrArg Multiset.card (conserves c hslots ls).conserved
  have hbalanced := fun t => balanced_run hbench t
  -- what a handle has taken out, it has put in before
  have hle : ∀ u, ((run c ls).locals u).returned.length + ((run c ls).locals u).pc.taken.card ≤
      ((run c ls).locals u).accepted.length + ((run c ls).locals u).pc.given.card := by
    intro u
    rcases Pc.taken_card fun op site q stage hpc => stageOf_run ls (t := u) hpc with hnone | ⟨hone, hahead⟩
    · rw [hnone, Multiset.card_zero]
      exact (hbalanced u).le.trans (Nat.le_add_right _ _)
    · rw [hone]
      exact ((hbalanced u).pop hahead).trans (Nat.le_add_right _ _)
  have hlt : ((run c ls).locals t).returned.length + ((run c ls).locals t).pc.taken.card <
      ((run c ls).locals t).accepted.length + ((run c ls).locals t).pc.given.card := by
    rw [ht.2, Multiset.card_zero]
    exact ((hbalanced t).pop (.inr ht.1)).trans (Nat.le_add_right _ _)
  have hsum := Finset.sum_lt_sum (fun u _ => hle u) ⟨t, Finset.mem_univ t, hlt⟩
  by_contra hnone
  have hempty : ∀ q ∈ Finset.range c.numQueues, ((run c ls).shared.queues q).contents c = [] := by
    intro q hq
    have hok := (lockOutline_run c ls).shared.queue q
    rw [← Queue.elements_value, List.map_eq_nil_iff, ← List.map_eq_nil_iff (f := Element.tick),
      hok.elements_tick, Queue.ticks_eq_nil_iff]
    exact fun hne => hnone ⟨q, Finset.mem_range.mp hq, hne⟩
  have hzero : ∑ q ∈ Finset.range c.numQueues,
      Multiset.card (((run c ls).shared.queues q).contents c : Multiset T) = 0 :=
    Finset.sum_eq_zero fun q hq => by rw [hempty q hq]; rfl
  rw [Multiset.card_add, Multiset.card_sum, Multiset.card_sum, Multiset.card_sum, hzero] at hconserved
  simp only [Multiset.card_add, Multiset.coe_card, add_zero] at hconserved
  exact hsum.ne hconserved.symm

end Runs

/-! ## §3 — scans and the elements ahead of them -/

/-- `unsafe_size`. -/
def Queue.unsafeSize (q : Queue T) : Nat := sub64 q.head q.tail

/-- The first queue that the scan of a pop has still to look into. -/
def Pc.scanFrom : Pc T → Option Nat
  | .lockLoad .pop .scan q | .lockExchange .pop .scan q => some q
  | .inside .pop .scan q .checkHead | .inside .pop .scan q (.checkTail _) => some q
  | .inside .pop .scan q .unlockRejected => some (q + 1)
  | _ => none

/-- The queue that a pop tries to lock in its scan. -/
def Pc.tries : Pc T → Option Nat
  | .lockLoad .pop .scan q | .lockExchange .pop .scan q => some q
  | _ => none

/-- The queue that the next step takes an element out of. -/
def Pc.takes : Pc T → Option Nat
  | .inside _ _ q (.popStore _ _) => some q
  | _ => none

/-- One of the queues from `p` on holds an element. -/
def ElementFrom (c : Config) (m : Shared T) (p : Nat) : Prop :=
  ∃ q, p ≤ q ∧ q < c.numQueues ∧ 0 < (m.queues q).unsafeSize

/-- One of the queues from `p` on holds an element besides the one that is taken from `taken`. -/
def ElementBeside (c : Config) (m : Shared T) (taken p : Nat) : Prop :=
  ∃ q, p ≤ q ∧ q < c.numQueues ∧ (if q = taken then 1 else 0) < (m.queues q).unsafeSize

theorem QueueOk.unsafeSize_eq {q : Queue T} (hq : QueueOk c q) :
    q.unsafeSize = q.pushed.length - q.popped.length := hq.sub64_eq

theorem QueueOk.unsafeSize_pos {q : Queue T} (hq : QueueOk c q) : 0 < q.unsafeSize ↔ q.Nonempty := by
  rw [hq.unsafeSize_eq]
  exact Nat.sub_pos_iff_lt

/-- Only `++tail` takes an element out of a queue, and it takes one. -/
theorem access_history (c : Config) (op : Op T) (time : Nat) (q : Queue T) (stage : Stage T) :
    q.pushed.length ≤ (q.access c op time stage).1.pushed.length ∧
      (q.access c op time stage).1.popped.length ≤ q.popped.length + 1 ∧
      ((∀ v tail, stage ≠ .popStore v tail) →
        (q.access c op time stage).1.popped = q.popped) := by
  have hsame : ∀ q' : Queue T, q'.pushed = q.pushed → q'.popped = q.popped →
      q.pushed.length ≤ q'.pushed.length ∧ q'.popped.length ≤ q.popped.length + 1 ∧
        ((∀ v tail, stage ≠ .popStore v tail) → q'.popped = q.popped) := by
    intro q' hpushed hpopped
    rw [hpushed, hpopped]
    exact ⟨Nat.le_refl _, Nat.le_succ _, fun _ => rfl⟩
  cases stage with
  | pushWrite tick head => cases op <;> exact hsame _ rfl rfl
  | pushStore head =>
      cases op with
      | pop => exact hsame _ rfl rfl
      | push v =>
          refine ⟨?_, Nat.le_succ _, fun _ => rfl⟩
          show q.pushed.length ≤ (q.pushed ++ [v]).length
          rw [List.length_append]
          exact Nat.le_add_right _ _
  | popStore v tail =>
      refine ⟨Nat.le_refl _, ?_, fun hne => absurd rfl (hne v tail)⟩
      show (q.popped ++ [v]).length ≤ q.popped.length + 1
      rw [List.length_append, List.length_singleton]
  | _ => exact hsame _ rfl rfl

/-- What a step of a handle leaves of the queues. -/
theorem step_history (a : Action T) (m : Shared T) (h : Handle T) (i : Nat) :
    (m.queues i).pushed.length ≤ ((stepHandle c a m h).1.queues i).pushed.length ∧
      ((stepHandle c a m h).1.queues i).popped.length ≤ (m.queues i).popped.length + 1 ∧
      ((∀ op site v tail, h.pc ≠ .inside op site i (.popStore v tail)) →
        ((stepHandle c a m h).1.queues i).popped = (m.queues i).popped) := by
  have hsame : ∀ q' : Queue T, q'.pushed = (m.queues i).pushed → q'.popped = (m.queues i).popped →
      (m.queues i).pushed.length ≤ q'.pushed.length ∧
        q'.popped.length ≤ (m.queues i).popped.length + 1 ∧
        ((∀ op site v tail, h.pc ≠ .inside op site i (.popStore v tail)) →
          q'.popped = (m.queues i).popped) := by
    intro q' hpushed hpopped
    rw [hpushed, hpopped]
    exact ⟨Nat.le_refl _, Nat.le_succ _, fun _ => rfl⟩
  cases a with
  | push v => exact hsame _ rfl rfl
  | pop => exact hsame _ rfl rfl
  | go random time spurious =>
      -- only accesses under the lock write to a queue, and the exchange writes to its lock
      by_cases hexchange : ∃ op site q, h.pc = .lockExchange op site q
      · obtain ⟨op, site, q, hpc⟩ := hexchange
        have hqueue : (stepHandle c (.go random time spurious) m h).1.queues i =
            Function.update m.queues q { m.queues q with lock := 1 } i := by
          simp only [stepHandle, go, hpc]
          rfl
        by_cases hi : i = q
        · rw [hqueue, hi, Function.update_self, ← hi]
          exact hsame _ rfl rfl
        · rw [hqueue, Function.update_of_ne hi]
          exact hsame _ rfl rfl
      · by_cases hinside : insideOf h.pc = none
        · have hout := go_outside (c := c) (m := m) random time spurious
            (fun op site q heq => hexchange ⟨op, site, q, heq⟩) hinside
          rw [show (stepHandle c (.go random time spurious) m h).1.queues = m.queues from hout.queues]
          exact hsame _ rfl rfl
        · cases hpc : h.pc with
          | inside op site q stage =>
              have hqueue : (stepHandle c (.go random time spurious) m h).1.queues i =
                  Function.update m.queues q ((m.queues q).access c op time stage).1 i := by
                simp only [stepHandle, go, hpc]
                rfl
              by_cases hi : i = q
              · subst hi
                rw [hqueue, Function.update_self]
                obtain ⟨hpushed, hle, hpopped⟩ := access_history c op time (m.queues i) stage
                refine ⟨hpushed, hle, fun hne => hpopped fun v tail heq => ?_⟩
                exact hne op site v tail (by rw [heq])
              · rw [hqueue, Function.update_of_ne hi]
                exact ⟨Nat.le_refl _, Nat.le_succ _, fun _ => rfl⟩
          | _ => exact absurd (by rw [hpc]; rfl) hinside

/-- No element is taken in the step, so those ahead of a scan stay there. -/
theorem ElementFrom.step {a : Action T} {m : Shared T} {h : Handle T} {p : Nat} (hm : LocksOk c m)
    (hm' : LocksOk c (stepHandle c a m h).1) (helement : ElementFrom c m p)
    (hkeeps : ∀ op site q v tail, h.pc ≠ .inside op site q (.popStore v tail)) :
    ElementFrom c (stepHandle c a m h).1 p := by
  obtain ⟨q, hpq, hq, hsize⟩ := helement
  obtain ⟨hpushed, -, hpopped⟩ := step_history (c := c) a m h q
  have hpopped := hpopped fun op site v tail => hkeeps op site q v tail
  refine ⟨q, hpq, hq, ?_⟩
  rw [(hm.queue q).unsafeSize_eq] at hsize
  rw [(hm'.queue q).unsafeSize_eq, hpopped]
  omega

/-- One element is taken, and another one is left ahead of the scan. -/
theorem ElementBeside.step {a : Action T} {m : Shared T} {h : Handle T} {p taken : Nat} {op : Op T}
    {site : Site} {v : T} {tail : Nat} (hm : LocksOk c m) (hm' : LocksOk c (stepHandle c a m h).1)
    (hpc : h.pc = .inside op site taken (.popStore v tail)) (helement : ElementBeside c m taken p) :
    ElementFrom c (stepHandle c a m h).1 p := by
  obtain ⟨q, hpq, hq, hsize⟩ := helement
  obtain ⟨hpushed, hle, hpopped⟩ := step_history (c := c) a m h q
  refine ⟨q, hpq, hq, ?_⟩
  rw [(hm.queue q).unsafeSize_eq] at hsize
  rw [(hm'.queue q).unsafeSize_eq]
  split at hsize
  · omega
  · rename_i hne
    have := hpopped fun op' site' v' tail' heq => by
      rw [hpc] at heq
      cases heq
      exact hne rfl
    rw [this]
    omega

/-- A pop has not come out empty, and if it scans, there is an element ahead of it. -/
structure Sees (c : Config) (m : Shared T) (pc : Pc T) : Prop where
  returns : pc ≠ .popReturned none
  scans : ∀ p, pc.scanFrom = some p → ElementFrom c m p

theorem sees_of_none {pc : Pc T} (hreturns : pc ≠ .popReturned none) (hscan : pc.scanFrom = none) :
    Sees c m pc :=
  ⟨hreturns, fun p hp => by rw [hscan] at hp; cases hp⟩

/-- Calls of which no scan is running. -/
theorem sees_resume (pick : Option Nat) : Sees c m (resume c h op pick) := by
  unfold resume
  split <;> exact sees_of_none nofun rfl

theorem sees_assign (pick : Option Nat) : Sees c m (assign c op pick) := by
  unfold assign
  split <;> exact sees_of_none nofun rfl

/-- Only pops have a scan to look after. -/
theorem running_of_scanFrom {pc : Pc T} {p : Nat} (hscan : pc.scanFrom = some p) :
    pc.running = some .pop := by
  unfold Pc.scanFrom at hscan
  split at hscan <;> first | rfl | cases hscan

theorem sees_push {pc : Pc T} {v : T} (hgoes : GoesOn (.push v) pc) : Sees c m pc := by
  rcases hgoes with hrunning | rfl
  · refine ⟨fun heq => ?_, fun p hp => ?_⟩
    · rw [heq] at hrunning
      cases hrunning
    · rw [running_of_scanFrom hp] at hrunning
      cases hrunning
  · exact sees_of_none nofun rfl

/-- The scan of a pop goes on to the next queue. -/
theorem sees_scanNext {q : Nat} (helement : ElementFrom c m (q + 1)) :
    Sees c m (scanNext c .pop q) := by
  obtain ⟨q', hq', hlt, hsize⟩ := helement
  unfold scanNext
  rw [if_pos (by omega)]
  refine ⟨nofun, fun p hp => ?_⟩
  cases hp
  exact ⟨q', hq', hlt, hsize⟩

/-- A scan that skips a locked queue has an element ahead of it. -/
def Skips (c : Config) (m : Shared T) (pc : Pc T) : Prop :=
  ∀ q ∈ pc.tries, (m.queues q).lock &&& 1 ≠ 0 →
    (m.queues q).unsafeSize = 0 ∨ ElementFrom c m (q + 1)

/-- What is ahead of a queue without elements is behind it. -/
theorem ElementFrom.succ {q : Nat} (helement : ElementFrom c m q)
    (hnot : (m.queues q).unsafeSize = 0 ∨ ElementFrom c m (q + 1)) : ElementFrom c m (q + 1) := by
  rcases hnot with hempty | hnext
  · obtain ⟨q', hle, hlt, hsize⟩ := helement
    refine ⟨q', Nat.lt_of_le_of_ne hle fun heq => ?_, hlt, hsize⟩
    rw [← heq] at hsize
    omega
  · exact hnext

/-- A failed `try_lock` of a pop. -/
theorem sees_lockFailed {site : Site} {q : Nat}
    (helement : site = .scan → ElementFrom c m (q + 1)) : Sees c m (lockFailed c .pop site q) := by
  cases site with
  | fast pick => exact sees_assign pick
  | scan => exact sees_scanNext (helement rfl)

/-- The steps of a pop outside of critical sections that do not touch a lock. -/
theorem go_sees_outside (random time : Nat) (spurious : Bool) (hrunning : h.pc.running = some .pop)
    (hload : ∀ site q, h.pc ≠ .lockLoad .pop site q)
    (hexchange : ∀ site q, h.pc ≠ .lockExchange .pop site q) (hinside : insideOf h.pc = none)
    (helement : ElementFrom c m 0) :
    Sees c (go c random time spurious m h).1 (go c random time spurious m h).2.pc := by
  cases hpc : h.pc with
  | idle => rw [hpc] at hrunning; cases hrunning
  | pushReturned result => rw [hpc] at hrunning; cases hrunning
  | popReturned result => rw [hpc] at hrunning; cases hrunning
  | inside op' site q stage => rw [hpc] at hinside; cases hinside
  | lockLoad op' site q =>
      rw [hpc] at hrunning
      cases hrunning
      exact absurd hpc (hload site q)
  | lockExchange op' site q =>
      rw [hpc] at hrunning
      cases hrunning
      exact absurd hpc (hexchange site q)
  | begin op' =>
      simp only [go, hpc]
      split
      · exact sees_assign none
      · exact sees_resume none
  | refresh op' pick i =>
      simp only [go, hpc]
      split
      · split
        · rw [hpc]
          exact sees_of_none (fun heq => by cases heq) rfl
        · exact sees_of_none (fun heq => by cases heq) rfl
      · exact sees_resume pick
  | swapExchange op' pick i => simp only [go, hpc]; exact sees_of_none (fun heq => by cases heq) rfl
  | swapLoad op' pick i oldTarget =>
      simp only [go, hpc]
      split
      · rw [hpc]
        exact sees_of_none (fun heq => by cases heq) rfl
      · exact sees_of_none (fun heq => by cases heq) rfl
  | swapCas op' pick i oldTarget permIndex newTarget =>
      simp only [go, hpc]
      split <;> exact sees_of_none (fun heq => by cases heq) rfl
  | swapStore op' pick i newTarget =>
      simp only [go, hpc]
      cases pick with
      | some p => exact sees_resume (some p)
      | none =>
          dsimp only
          split
          · exact sees_of_none (fun heq => by cases heq) rfl
          · exact sees_resume none
  | choose op' => simp only [go, hpc]; exact sees_resume _
  | readSlot op' pick i best =>
      rw [hpc] at hrunning
      cases hrunning
      simp only [go, hpc]
      cases pick <;> exact sees_of_none (fun heq => by cases heq) rfl
  | readTick op' i q best =>
      rw [hpc] at hrunning
      cases hrunning
      simp only [go, hpc]
      unfold compared
      split
      · dsimp only
        split <;> exact sees_of_none (fun heq => by cases heq) rfl
      · split
        · -- all candidates look empty, and a scan starts
          refine ⟨(fun heq => by cases heq), fun p hp => ?_⟩
          cases hp
          exact helement
        · exact sees_of_none (fun heq => by cases heq) rfl

/-- The steps of a pop inside a critical section. -/
theorem go_sees_inside {site : Site} {q : Nat} {stage : Stage T} {time : Nat} {m' : Shared T}
    (hq : QueueOk c (m.queues q)) (hstage : StageOk c .pop (m.queues q) stage)
    (hsees : Sees c m (.inside .pop site q stage)) (helement : stage = .unlockRejected → ElementFrom c m 0)
    (hkeeps : (∀ v tail, stage ≠ .popStore v tail) → ∀ p, ElementFrom c m p → ElementFrom c m' p) :
    Sees c m' (leave c h .pop site q ((m.queues q).access c .pop time stage).2).pc := by
  have hnone : ∀ stage' : Stage T, Pc.scanFrom (.inside .pop site q stage') = none →
      Sees c m' (leave c h .pop site q (.stay stage')).pc :=
    fun stage' hscan => sees_of_none nofun hscan
  cases stage with
  | checkHead =>
      refine ⟨nofun, fun p hp => hkeeps nofun p ?_⟩
      cases site with
      | fast pick => cases hp
      | scan => cases hp; exact hsees.scans q rfl
  | checkTail head =>
      obtain rfl : head = (m.queues q).head := hstage
      dsimp only [Queue.access, checked]
      split
      · rename_i hempty
        refine ⟨nofun, fun p hp => hkeeps nofun p ?_⟩
        cases site with
        | fast pick => cases hp
        | scan =>
            cases hp
            refine (hsees.scans q rfl).succ (.inl ?_)
            -- the queue is empty, so the element the scan may still find is behind it
            have hsame := hq.head_eq_tail_iff.mp hempty
            rw [hq.unsafeSize_eq]
            omega
      · exact hnone _ (by cases site <;> rfl)
  | unlockRejected =>
      cases site with
      | fast pick =>
          refine ⟨nofun, fun p hp => hkeeps nofun p ?_⟩
          cases hp
          exact helement rfl
      | scan => exact sees_scanNext (hkeeps nofun _ (hsees.scans (q + 1) rfl))
  | unlockPushed => exact sees_of_none nofun rfl
  | unlockPopped v => exact sees_of_none nofun rfl
  | pushedOldest => dsimp only [Queue.access]; split <;> exact hnone _ (by cases site <;> rfl)
  | sizeTail tick head => dsimp only [Queue.access]; split <;> exact hnone _ (by cases site <;> rfl)
  | emptyTail v head => dsimp only [Queue.access]; split <;> exact hnone _ (by cases site <;> rfl)
  | poppedOldest v tick empty =>
      dsimp only [Queue.access]
      split <;> exact hnone _ (by cases site <;> rfl)
  | _ => exact hnone _ (by cases site <;> rfl)

/-- One step of a handle that is inside a pop. -/
theorem go_sees (random time : Nat) (spurious : Bool) (hm : LocksOk c m) (hin : InsideOk c m h)
    (hm' : LocksOk c (go c random time spurious m h).1) (hrunning : h.pc.running = some .pop)
    (helement : h.pc.taken = 0 → ElementFrom c m 0) (hskips : Skips c m h.pc)
    (hsees : Sees c m h.pc) :
    Sees c (go c random time spurious m h).1 (go c random time spurious m h).2.pc := by
  have hkeeps : (∀ op site q v tail, h.pc ≠ .inside op site q (.popStore v tail)) →
      ∀ p, ElementFrom c m p → ElementFrom c (go c random time spurious m h).1 p :=
    fun hpc p helement => ElementFrom.step (a := .go random time spurious) hm hm' helement hpc
  by_cases hload : ∃ site q, h.pc = .lockLoad .pop site q
  · obtain ⟨site, q, hpc⟩ := hload
    rw [hpc] at hsees hskips
    simp only [go, hpc]
    split
    · refine ⟨(fun heq => by cases heq), fun p hp => ?_⟩
      cases site with
      | fast pick => cases hp
      | scan => cases hp; exact hsees.scans q rfl
    · -- a scan passes over a locked queue: it is empty, or an element lies behind it
      rename_i hlocked
      refine sees_lockFailed fun hscan => ?_
      subst hscan
      exact (hsees.scans q rfl).succ (hskips q rfl hlocked)
  · by_cases hexchange : ∃ site q, h.pc = .lockExchange .pop site q
    · obtain ⟨site, q, hpc⟩ := hexchange
      rw [hpc] at hsees hskips
      have hkeeps := hkeeps (by rw [hpc]; exact fun _ _ _ _ _ heq => by cases heq)
      have hpc' : (go c random time spurious m h).2.pc =
          if (m.queues q).lock &&& 1 = 0 then .inside .pop site q .checkHead
          else lockFailed c .pop site q := by
        simp only [go, hpc]
      rw [hpc']
      split
      · refine ⟨(fun heq => by cases heq), fun p hp => hkeeps p ?_⟩
        cases site with
        | fast pick => cases hp
        | scan => cases hp; exact hsees.scans q rfl
      · rename_i hlocked
        refine sees_lockFailed fun hscan => hkeeps _ ?_
        subst hscan
        exact (hsees.scans q rfl).succ (hskips q rfl hlocked)
    · by_cases hinside : insideOf h.pc = none
      · refine go_sees_outside random time spurious hrunning (fun site q heq => hload ⟨site, q, heq⟩)
          (fun site q heq => hexchange ⟨site, q, heq⟩) hinside (helement ?_)
        exact (emptyHanded_of_none hinside).carried.1
      · cases hpc : h.pc with
        | inside op' site q stage =>
            rw [hpc] at hrunning hsees helement
            cases hrunning
            have hpc' : (go c random time spurious m h).2 =
                leave c h .pop site q ((m.queues q).access c .pop time stage).2 := by
              simp only [go, hpc]
            rw [hpc']
            refine go_sees_inside (hm.queue q) (hin .pop site q stage hpc).2 hsees ?_ ?_
            · rintro rfl
              exact helement rfl
            · intro hstage
              refine hkeeps fun op' site' q' v tail heq => ?_
              rw [hpc] at heq
              cases heq
              exact hstage v tail rfl
        | _ => exact absurd (by rw [hpc]; rfl) hinside

/-- One step of a handle that is inside a push. -/
theorem go_sees_push (random time : Nat) (spurious : Bool) {v : T}
    (hrunning : h.pc.running = some (.push v)) :
    Sees c (go c random time spurious m h).1 (go c random time spurious m h).2.pc := by
  by_cases hinside : insideOf h.pc = none
  · exact sees_push (go_goesOn random time spurious hrunning hinside)
  · cases hpc : h.pc with
    | inside op' site q stage =>
        rw [hpc] at hrunning
        cases hrunning
        simp only [go, hpc]
        cases ((m.queues q).access c (.push v) time stage).2 with
        | stay stage' => exact sees_push (v := v) (.inl rfl)
        | rejected =>
            cases site with
            | fast pick => exact sees_push (v := v) (.inl rfl)
            | scan => exact sees_push (goesOn_scanNext q)
        | pushed => exact sees_of_none (fun heq => by cases heq) rfl
        | popped w => exact sees_of_none (fun heq => by cases heq) rfl
    | _ => exact absurd (by rw [hpc]; rfl) hinside

/-- A call starts, or a step of `per_thread` is taken. -/
theorem stepHandle_sees (a : Action T) (hm : LocksOk c m) (hin : InsideOk c m h)
    (hm' : LocksOk c (stepHandle c a m h).1) (hfollows : follows a h.pc = true)
    (helement : h.pc.searching → ElementFrom c m 0) (hskips : Skips c m h.pc)
    (hsees : Sees c m h.pc) : Sees c (stepHandle c a m h).1 (stepHandle c a m h).2.pc := by
  cases a with
  | push v =>
      dsimp only [stepHandle]
      split
      · exact sees_of_none (fun heq => by cases heq) rfl
      · exact hsees
  | pop =>
      dsimp only [stepHandle]
      split
      · exact sees_of_none (fun heq => by cases heq) rfl
      · exact hsees
  | go random time spurious =>
      show Sees c (go c random time spurious m h).1 (go c random time spurious m h).2.pc
      cases hrunning : h.pc.running with
      | none =>
          rw [go_of_resting random time spurious hrunning]
          exact hsees
      | some op =>
          cases op with
          | push v => exact go_sees_push random time spurious hrunning
          | pop =>
              exact go_sees random time spurious hm hin hm' hrunning
                (fun htaken => helement ⟨hrunning, htaken⟩) hskips hsees

/-- The scan of another thread keeps an element ahead of it. -/
theorem Sees.other {a : Action T} {pc : Pc T} (hm : LocksOk c m)
    (hm' : LocksOk c (stepHandle c a m h).1) (hsees : Sees c m pc)
    (htakes : ∀ q ∈ h.pc.takes, ∀ p ∈ pc.scanFrom, p ≤ q → ElementBeside c m q p) :
    Sees c (stepHandle c a m h).1 pc := by
  refine ⟨hsees.returns, fun p hp => ?_⟩
  by_cases htake : ∃ op site q v tail, h.pc = .inside op site q (.popStore v tail)
  · obtain ⟨op, site, q, v, tail, hpc⟩ := htake
    by_cases hle : p ≤ q
    · exact (htakes q (by rw [hpc]; rfl) p hp hle).step hm hm' hpc
    · -- the element is taken from a queue that the scan has left behind
      obtain ⟨q', hpq, hq', hsize⟩ := hsees.scans p hp
      refine ElementBeside.step hm hm' hpc ⟨q', hpq, hq', ?_⟩
      rw [if_neg (by omega)]
      exact hsize
  · refine (hsees.scans p hp).step hm hm' fun op site q v tail hpc => ?_
    exact htake ⟨op, site, q, v, tail, hpc⟩

/-! ## §4 — the benchmark -/

section Benchmark

variable [Inhabited T] {n : Nat}

/-- The step of thread `t` does not leave a scan without an element: its own scan does not skip the
last one that was ahead, and its pop does not take the last one that is ahead of the scan of another
thread. -/
structure LeavesElement (c : Config) (s : Threads (Shared T) (Handle T) n) (t : Fin n) : Prop where
  skips : Skips c s.shared (s.locals t).pc
  takes : ∀ q ∈ (s.locals t).pc.takes, ∀ u ≠ t, ∀ p ∈ (s.locals u).pc.scanFrom, p ≤ q →
    ElementBeside c s.shared q p

instance (m : Shared T) (p : Nat) : Decidable (ElementFrom c m p) :=
  decidable_of_iff (∃ q < c.numQueues, p ≤ q ∧ 0 < (m.queues q).unsafeSize)
    ⟨fun ⟨q, hlt, hle, h⟩ => ⟨q, hle, hlt, h⟩, fun ⟨q, hle, hlt, h⟩ => ⟨q, hlt, hle, h⟩⟩

instance (m : Shared T) (taken p : Nat) : Decidable (ElementBeside c m taken p) :=
  decidable_of_iff
    (∃ q < c.numQueues, p ≤ q ∧ (if q = taken then 1 else 0) < (m.queues q).unsafeSize)
    ⟨fun ⟨q, hlt, hle, h⟩ => ⟨q, hle, hlt, h⟩, fun ⟨q, hle, hlt, h⟩ => ⟨q, hlt, hle, h⟩⟩

instance (m : Shared T) (pc : Pc T) : Decidable (Skips c m pc) :=
  inferInstanceAs (Decidable (∀ q ∈ pc.tries, (m.queues q).lock &&& 1 ≠ 0 →
    (m.queues q).unsafeSize = 0 ∨ ElementFrom c m (q + 1)))

instance (s : Threads (Shared T) (Handle T) n) (t : Fin n) : Decidable (LeavesElement c s t) :=
  decidable_of_iff (Skips c s.shared (s.locals t).pc ∧ ∀ q ∈ (s.locals t).pc.takes, ∀ u ≠ t,
    ∀ p ∈ (s.locals u).pc.scanFrom, p ≤ q → ElementBeside c s.shared q p)
    ⟨fun h => ⟨h.1, h.2⟩, fun h => ⟨h.skips, h.takes⟩⟩

/-- Along a run of the benchmark every pop sees an element. -/
theorem sees_run (hmode : c.mode ≠ .stickSwap) {ls : List (Fin n × Action T)}
    (hbench : PerThread c ls)
    (hleaves : ∀ k (hk : k < ls.length), LeavesElement c (run c (ls.take k)) ls[k].1) (t : Fin n) :
    Sees c (run c ls).shared ((run c ls).locals t).pc := by
  have hslots : EnoughSlots c n := fun h => absurd h hmode
  induction ls using List.reverseRecOn generalizing t with
  | nil => exact sees_of_none nofun rfl
  | append_singleton ls l ih =>
      obtain ⟨hbefore, hfollows⟩ := perThread_concat hbench
      obtain ⟨hprevious, hlast⟩ := (Lib.Runs.forall_steps_concat
        (P := fun before l => LeavesElement c (run c before) l.1) ls l).mp hleaves
      have ih := ih hbefore hprevious
      have hstep : run c (ls ++ [l]) = (run c ls).step (stepHandle c) l := Threads.run_concat ls l
      have hholds := lockOutline_run c ls
      have hm' : LocksOk c (stepHandle c l.2 (run c ls).shared ((run c ls).locals l.1)).1 := by
        have := (lockOutline_run c (ls ++ [l])).shared
        rwa [hstep, Threads.step_shared] at this
      rw [hstep, Threads.step_shared]
      by_cases ht : t = l.1
      · rw [ht, Threads.step_locals_self]
        refine stepHandle_sees l.2 hholds.shared (hholds.thread l.1) hm' hfollows ?_ hlast.skips
          (ih l.1)
        intro hsearching
        obtain ⟨q, hq, hnonempty⟩ := exists_element hslots hbefore hsearching
        exact ⟨q, Nat.zero_le q, hq, (hholds.shared.queue q).unsafeSize_pos.mpr hnonempty⟩
      · rw [Threads.step_locals_ne l ht]
        exact (ih t).other hholds.shared hm' fun q hq => hlast.takes q hq t ht

/-- **In every run of the benchmark whose steps leave the scans an element, every pop returns a
value.** -/
theorem pop_returns_some (c : Config) (hmode : c.mode = .stickRandom) (ls : List (Fin n × Action T))
    (hbench : PerThread c ls)
    (hleaves : ∀ k (hk : k < ls.length), LeavesElement c (run c (ls.take k)) ls[k].1) (k : Nat)
    (t : Fin n) : ((run c (ls.take k)).locals t).pc ≠ .popReturned none := by
  have hswap : c.mode ≠ .stickSwap := by rw [hmode]; exact nofun
  have hbench' : PerThread c (ls.take k) := Lib.Runs.forall_steps_take
    (fun before (l : Fin n × Action T) => follows l.2 ((run c before).locals l.1).pc = true) hbench k
  have hleaves' := Lib.Runs.forall_steps_take
    (fun before (l : Fin n × Action T) => LeavesElement c (run c before) l.1) hleaves k
  exact (sees_run hswap hbench' hleaves' t).returns

/-- The run is one of the benchmark and leaves the scans an element, checked in one pass. -/
def checkLeaves (c : Config) (ls : List (Fin n × Action T)) : Bool :=
  Lib.Runs.checkRun (Threads.step (stepHandle c)) (fun _ => true)
    (fun s l => follows l.2 (s.locals l.1).pc && decide (LeavesElement c s l.1)) (init c n) ls

theorem checkLeaves_spec {ls : List (Fin n × Action T)} (hcheck : checkLeaves c ls = true) :
    PerThread c ls ∧ ∀ k (hk : k < ls.length), LeavesElement c (run c (ls.take k)) ls[k].1 := by
  have hsteps := (Lib.Runs.checkRun_spec hcheck).2
  refine ⟨fun k hk => ?_, fun k hk => ?_⟩
  · exact (Bool.and_eq_true_iff.mp (hsteps k hk)).1
  · exact of_decide_eq_true (Bool.and_eq_true_iff.mp (hsteps k hk)).2

end Benchmark

/-- Four queues, of which two are candidates. -/
def randomFour : Config where
  mode := .stickRandom
  numQueues := 4
  numPopCandidates := 2
  size := 16
  stickiness := 1
  guardSize := 128
  elementSize := 16
  numQueues_pos := four_pos
  numQueues_lt := four_lt_int
  numPopCandidates_pos := Nat.two_pos
  size_lt := by decide
  share_le := by decide

/-- Steps of thread `t` with the random numbers `randoms`. -/
def goes (t : Fin 2) (randoms : List Nat) : List (Fin 2 × Action Nat) :=
  randoms.map fun random => (t, .go random 5 false)

/-- Thread 0 pushes 7 into queue 3; the candidates of its pop are queues 0 and 1, and its scan has
come to queue 3. -/
def scanning : List (Fin 2 × Action Nat) :=
  [(0, .push 7)] ++ goes 0 ([0, 3, 2] ++ List.replicate 15 0) ++ [(0, .pop)] ++
    goes 0 ([0, 0, 1] ++ List.replicate 18 0)

/-- Thread 1 pushes 8 into queue 2 and pops it while thread 0 is scanning. -/
def popBeside : List (Fin 2 × Action Nat) :=
  scanning ++ [(1, .push 8)] ++ goes 1 ([0, 2, 1] ++ List.replicate 15 0) ++ [(1, .pop)] ++
    goes 1 ([0, 2, 1] ++ List.replicate 16 0) ++ goes 0 (List.replicate 16 0)

/-- The element in queue 3 is left for the scan. -/
theorem pop_returns_some_popBeside :
    PerThread randomFour popBeside ∧
      ((run randomFour popBeside).locals 0).pc = .popReturned (some 7) ∧
      ((run randomFour popBeside).locals 1).pc = .popReturned (some 8) ∧
      ∀ k t, ((run randomFour (popBeside.take k)).locals t).pc ≠ .popReturned none := by
  have hcheck : checkLeaves randomFour popBeside = true := by decide +kernel
  obtain ⟨hbench, hleaves⟩ := checkLeaves_spec hcheck
  exact ⟨hbench, by decide +kernel, by decide +kernel,
    pop_returns_some randomFour rfl popBeside hbench hleaves⟩

/-- Thread 1 is pushing into queue 3 while thread 0 tries to lock it. -/
def pushBeside : List (Fin 2 × Action Nat) :=
  scanning ++ [(1, .push 8)] ++ goes 1 ([0, 3, 2] ++ List.replicate 4 0) ++ goes 0 [0] ++
    goes 1 (List.replicate 11 0)

/-- The pop of thread 0 returns nothing, although no push fails. -/
theorem not_pop_returns_some :
    ¬ ∀ (c : Config), c.mode = .stickRandom → 2 ≤ c.numQueues →
      ∀ (n : Nat) (ls : List (Fin n × Action Nat)), PerThread c ls →
        (∀ k t, ((run c (ls.take k)).locals t).pc ≠ .pushReturned false) →
        ∀ k t, ((run c (ls.take k)).locals t).pc ≠ .popReturned none := by
  intro h
  have hcheck : Lib.Runs.checkRun (Threads.step (stepHandle randomFour))
      (fun s => decide (∀ t, (s.locals t).pc ≠ .pushReturned false))
      (fun s l => follows l.2 (s.locals l.1).pc) (init randomFour 2) pushBeside = true := by
    decide +kernel
  obtain ⟨hpushes, hbench⟩ := Lib.Runs.checkRun_spec hcheck
  refine h randomFour rfl (by decide) 2 pushBeside hbench ?_ pushBeside.length 0 ?_
  · intro k t
    exact of_decide_eq_true (hpushes k) t
  · rw [List.take_length]
    decide +kernel

end RelaxedConcurrentFifo.MultiFifo
