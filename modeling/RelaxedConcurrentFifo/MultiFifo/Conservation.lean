/-
# RelaxedConcurrentFifo.MultiFifo.Conservation — no element is lost or returned twice

A handle that has counted a value out of a queue returns it a few steps later, and one that has
counted a value in returns `true` a few steps later. So at any moment the values that ever left the
queues are those the handles have returned and those they CARRY, and likewise for the values that ever
entered. Both are one ledger: queues on one side, handles on the other, and a step that changes a
queue changes the handle inside it by the same amount.

The main result puts this beside the proof outlines of the locks and the indices: in every
interleaving, of all three modes, every queue is a bounded FIFO queue that no element vanishes from.
-/
import RelaxedConcurrentFifo.MultiFifo.Handles
import RelaxedConcurrentFifo.Lib.Sums

namespace RelaxedConcurrentFifo.MultiFifo

open RelaxedConcurrentFifo.Lib.Interleaving
open RelaxedConcurrentFifo.Lib.Sums
open RelaxedConcurrentFifo.Lib.Words

variable {T : Type} {c : Config} {m : Shared T} {h : Handle T}

/-! ## §1 — ledgers -/

/-- The handle carries nothing: it is outside of critical sections, or has just come in. -/
def EmptyHanded (pc : Pc T) : Prop := ∀ op site q stage, pc = .inside op site q stage → stage = .checkHead

theorem emptyHanded_of_none {pc : Pc T} (hpc : insideOf pc = none) : EmptyHanded pc := by
  intro op site q stage heq
  rw [heq] at hpc
  cases hpc

/-- An amount `F` of each queue and an amount `G` of each handle that only change together. -/
structure Ledger (c : Config) (F : Queue T → Multiset T) (G : Handle T → Multiset T) : Prop where
  locked : ∀ q, F { q with lock := 1 } = F q
  outside : ∀ h h', EmptyHanded h.pc → EmptyHanded h'.pc →
    h'.accepted = h.accepted → h'.returned = h.returned → G h' = G h
  access : ∀ h op site q stage time queue, h.pc = .inside op site q stage →
    F (queue.access c op time stage).1 + G h =
      F queue + G (leave c h op site q (queue.access c op time stage).2)

variable {F : Queue T → Multiset T} {G : Handle T → Multiset T}

/-- Replacing one queue and the handle inside it by as much. -/
theorem balance_setQueue {q : Nat} (hq : q < c.numQueues) {queue : Queue T} {h' : Handle T}
    (hmove : F queue + G h = F (m.queues q) + G h') :
    ∑ i ∈ Finset.range c.numQueues, F ((m.setQueue q queue).queues i) + G h =
      ∑ i ∈ Finset.range c.numQueues, F (m.queues i) + G h' := by
  refine sum_balance _ (Finset.mem_range.mpr hq) (fun j _ hj => ?_) ?_
  · exact congrArg F (Function.update_of_ne hj _ _)
  · rw [show (m.setQueue q queue).queues q = queue from Function.update_self _ _ _]
    exact hmove

/-- One step of one handle. -/
theorem Ledger.step (hledger : Ledger c F G) (a : Action T) (hpc : PcOk c h.pc) :
    ∑ i ∈ Finset.range c.numQueues, F ((stepHandle c a m h).1.queues i) + G h =
      ∑ i ∈ Finset.range c.numQueues, F (m.queues i) + G (stepHandle c a m h).2 := by
  have hcall : ∀ op, G (if h.pc.resting then { h with pc := .begin op } else h) = G h := by
    intro op
    split
    · rename_i hresting
      refine hledger.outside h _ (emptyHanded_of_none ?_) (emptyHanded_of_none rfl) rfl rfl
      cases hp : h.pc <;> first | rfl | (rw [hp] at hresting; cases hresting)
    · rfl
  cases a with
  | push v => exact congrArg _ (hcall (.push v)).symm
  | pop => exact congrArg _ (hcall .pop).symm
  | go random time spurious =>
      show ∑ i ∈ Finset.range c.numQueues, F ((go c random time spurious m h).1.queues i) + G h =
        ∑ i ∈ Finset.range c.numQueues, F (m.queues i) + G (go c random time spurious m h).2
      -- the exchange that takes a lock, an access outside of critical sections, an access inside one
      by_cases hexchange : ∃ op site q, h.pc = .lockExchange op site q
      · obtain ⟨op, site, q, hp⟩ := hexchange
        rw [hp] at hpc
        simp only [go, hp]
        refine balance_setQueue hpc.2 ?_
        rw [hledger.locked]
        refine congrArg _ (Eq.symm ?_)
        refine hledger.outside h _ (emptyHanded_of_none (by rw [hp]; rfl)) ?_ rfl rfl
        dsimp only
        split
        · intro op' site' q' stage heq
          cases heq
          rfl
        · exact emptyHanded_of_none (insideOf_lockFailed op site q)
      · by_cases hinside : insideOf h.pc = none
        · have hout := go_outside (c := c) (m := m) random time spurious
            (fun op site q heq => hexchange ⟨op, site, q, heq⟩) hinside
          rw [hout.queues, hledger.outside h _ (emptyHanded_of_none hinside)
            (emptyHanded_of_none hout.inside) hout.accepted hout.returned]
        · cases hp : h.pc with
          | inside op site q stage =>
              rw [hp] at hpc
              simp only [go, hp]
              exact balance_setQueue hpc.2 (hledger.access h op site q stage time _ hp)
          | _ => exact absurd (by rw [hp]; rfl) hinside

/-- **Queues and handles balance after every run.** -/
theorem Ledger.run [Inhabited T] {n : Nat} (hledger : Ledger c F G) (hqueue : F Queue.fresh = 0)
    (hhandle : ∀ id, G (Handle.fresh c id) = 0) (hslots : EnoughSlots c n)
    (ls : List (Fin n × Action T)) :
    ∑ i ∈ Finset.range c.numQueues, F ((MultiFifo.run c ls).shared.queues i) =
      ∑ t, G ((MultiFifo.run c ls).locals t) := by
  induction ls using List.reverseRecOn with
  | nil =>
      have hqueues : ∑ i ∈ Finset.range c.numQueues, F ((init c n).shared.queues i) = 0 :=
        Finset.sum_eq_zero fun _ _ => hqueue
      have hhandles : ∑ t, G ((init c n).locals t) = 0 := Finset.sum_eq_zero fun t _ => hhandle t.val
      exact hqueues.trans hhandles.symm
  | append_singleton ls l ih =>
      have hpc := ((indexOutline_run c hslots ls).thread l.1).pc
      unfold MultiFifo.run at ih hpc ⊢
      rw [Threads.run_concat]
      generalize (init c n).run (stepHandle c) ls = s at ih hpc
      have hstep := hledger.step (m := s.shared) l.2 hpc
      have hupdate := sum_update G s.locals l.1 (stepHandle c l.2 s.shared (s.locals l.1)).2
      refine add_right_cancel (b := G (s.locals l.1)) ?_
      rw [← ih, ← hstep] at hupdate
      exact hupdate.symm

/-! ## §2 — what handles carry -/

/-- The value a handle has counted out of a queue and not returned yet. -/
def Pc.taken : Pc T → Multiset T
  | .inside _ _ _ stage => stage.taken
  | _ => 0

/-- The value a handle has counted into a queue without having returned yet. -/
def Pc.given : Pc T → Multiset T
  | .inside op _ _ stage => stage.given op
  | _ => 0

theorem EmptyHanded.carried {pc : Pc T} (hpc : EmptyHanded pc) : pc.taken = 0 ∧ pc.given = 0 := by
  cases pc with
  | inside op site q stage =>
      cases hpc op site q stage rfl
      exact ⟨rfl, rfl⟩
  | _ => exact ⟨rfl, rfl⟩

theorem scanNext_carried (op : Op T) (q : Nat) :
    (scanNext c op q).taken = 0 ∧ (scanNext c op q).given = 0 :=
  (emptyHanded_of_none (insideOf_scanNext op q)).carried

/-- What an outcome says is taken, the handle has returned or carries. -/
theorem leave_taken (op : Op T) (site : Site) (q : Nat) (outcome : Outcome T) :
    ((leave c h op site q outcome).returned : Multiset T) + (leave c h op site q outcome).pc.taken =
      outcome.taken + h.returned := by
  cases outcome with
  | stay stage => exact add_comm _ _
  | rejected =>
      cases site with
      | fast pick => exact add_comm _ _
      | scan =>
          show (h.returned : Multiset T) + (scanNext c op q).taken = 0 + h.returned
          rw [(scanNext_carried op q).1, add_comm]
  | pushed => exact add_comm _ _
  | popped v =>
      show ((v :: h.returned : List T) : Multiset T) + 0 = {v} + (h.returned : Multiset T)
      rw [add_zero, ← Multiset.cons_coe, Multiset.singleton_add]

theorem leave_given (op : Op T) (site : Site) (q : Nat) (outcome : Outcome T) :
    ((leave c h op site q outcome).accepted : Multiset T) + (leave c h op site q outcome).pc.given =
      outcome.given op + h.accepted := by
  cases outcome with
  | stay stage => exact add_comm _ _
  | rejected =>
      cases site with
      | fast pick => exact add_comm _ _
      | scan =>
          show (h.accepted : Multiset T) + (scanNext c op q).given = 0 + h.accepted
          rw [(scanNext_carried op q).2, add_comm]
  | pushed =>
      show ((op.values ++ h.accepted : List T) : Multiset T) + 0 = op.values + (h.accepted : Multiset T)
      rw [add_zero, Multiset.coe_add]
  | popped v => exact add_comm _ _

/-- What the queues were popped of, and what the pops have taken. -/
theorem ledger_popped (c : Config) :
    Ledger c (fun q : Queue T => (q.popped : Multiset T)) fun h => h.returned + h.pc.taken where
  locked _ := rfl
  outside h h' hpc hpc' _ hreturned := by rw [hreturned, hpc.carried.1, hpc'.carried.1]
  access h op site q stage time queue hpc := by
    have haccess := access_taken c op time queue stage
    rw [leave_taken, hpc]
    show _ + (_ + stage.taken) = _
    rw [add_left_comm, haccess]
    ac_rfl

/-- What was pushed to the queues, and what the pushes have given. -/
theorem ledger_pushed (c : Config) :
    Ledger c (fun q : Queue T => (q.pushed : Multiset T)) fun h => h.accepted + h.pc.given where
  locked _ := rfl
  outside h h' hpc hpc' haccepted _ := by rw [haccepted, hpc.carried.2, hpc'.carried.2]
  access h op site q stage time queue hpc := by
    have haccess := access_given c op time queue stage
    rw [leave_given, hpc]
    show _ + (_ + stage.given op) = _
    rw [add_left_comm, haccess]
    ac_rfl

/-! ## §3 — every interleaving -/

/-- What a `MultiFifo` keeps of its elements. -/
structure Conserves {n : Nat} (c : Config) (s : Threads (Shared T) (Handle T) n) : Prop where
  /-- At most one handle is inside the critical section of a queue, and it is one of the queues. -/
  exclusive : ∀ t u q, insideOf (s.locals t).pc = some q → insideOf (s.locals u).pc = some q → t = u
  indices : ∀ t q, insideOf (s.locals t).pc = some q → q < c.numQueues
  /-- `head` and `tail` count pushes and pops, and lie at most `size_per_queue` apart. -/
  counters : ∀ q, (s.shared.queues q).head = (s.shared.queues q).pushed.length % 2 ^ 64 ∧
    (s.shared.queues q).tail = (s.shared.queues q).popped.length % 2 ^ 64
  bounded : ∀ q, (s.shared.queues q).popped.length ≤ (s.shared.queues q).pushed.length ∧
    (s.shared.queues q).pushed.length ≤ (s.shared.queues q).popped.length + c.sizePerQueue ∧
    sub64 (s.shared.queues q).head (s.shared.queues q).tail ≤ c.sizePerQueue
  /-- A queue gives its values away in the order they came in, and the rest stands in its slots. -/
  order : ∀ q, (s.shared.queues q).popped ++ (s.shared.queues q).contents c = (s.shared.queues q).pushed
  /-- The values that entered the queues are those of successful pushes, and of pushes about to
  succeed; the values that left are those pops have returned, or are about to return. -/
  pushes : ∑ q ∈ Finset.range c.numQueues, ((s.shared.queues q).pushed : Multiset T) =
    ∑ t, (((s.locals t).accepted : Multiset T) + (s.locals t).pc.given)
  pops : ∑ q ∈ Finset.range c.numQueues, ((s.shared.queues q).popped : Multiset T) =
    ∑ t, (((s.locals t).returned : Multiset T) + (s.locals t).pc.taken)
  /-- So what was pushed is what was popped and what still stands in the queues. -/
  conserved : ∑ t, (((s.locals t).accepted : Multiset T) + (s.locals t).pc.given) =
    ∑ t, (((s.locals t).returned : Multiset T) + (s.locals t).pc.taken) +
      ∑ q ∈ Finset.range c.numQueues, ((s.shared.queues q).contents c : Multiset T)

/-- **A `MultiFifo` conserves its elements under every interleaving**, in each mode, with any number
of handles (in `StickSwap`, as many as the permutation has parts for), whatever the random numbers and
the clock. -/
theorem conserves [Inhabited T] {n : Nat} (c : Config) (hslots : EnoughSlots c n)
    (ls : List (Fin n × Action T)) : Conserves c (run c ls) := by
  have hlock := lockOutline_run c ls
  have hindex := indexOutline_run c hslots ls
  have hpushes := (ledger_pushed c).run rfl (fun _ => rfl) hslots ls
  have hpops := (ledger_popped c).run rfl (fun _ => rfl) hslots ls
  have horder : ∀ q, _ := fun q => (hlock.shared.queue q).popped_append_contents
  refine ⟨fun t u q ht hu => ?_, fun t q ht => ?_, fun q => ?_, fun q => ?_, horder, hpushes, hpops, ?_⟩
  · by_contra hne
    exact hlock.pair t u hne q ht hu
  · have hpc := (hindex.thread t).pc
    cases hp : ((run c ls).locals t).pc with
    | inside op site q' stage =>
        rw [hp] at ht hpc
        cases ht
        exact hpc.2
    | _ => rw [hp] at ht; cases ht
  · exact ⟨(hlock.shared.queue q).head, (hlock.shared.queue q).tail⟩
  · have hq := hlock.shared.queue q
    refine ⟨hq.le, hq.room, ?_⟩
    have hroom := hq.room
    rw [hq.sub64_eq]
    omega
  · rw [← hpushes, ← hpops, ← Finset.sum_add_distrib]
    refine Finset.sum_congr rfl fun q _ => ?_
    rw [← horder q, Multiset.coe_add]

/-- Two queues, one candidate, room for two elements, and swaps before every call. -/
def swapPair : Config where
  mode := .stickSwap
  numQueues := 2
  numPopCandidates := 1
  size := 2
  stickiness := 1
  guardSize := 128
  elementSize := 16
  numQueues_pos := Nat.two_pos
  numQueues_lt := two_lt_int
  numPopCandidates_pos := Nat.one_pos
  size_lt := by decide
  share_le := by decide

/-- Handle 0 pushes 7 to queue 1 while handle 1 starts a pop. Then it pushes 8 to queue 0, and
handle 1's pop, at the same time, returns 7. -/
def pushThenPop : List (Fin 2 × Action Nat) :=
  (0, .push 7) :: (1, .pop) :: List.replicate 20 (0, .go 1 5 false) ++ (0, .push 8) ::
    (List.replicate 10 (List.replicate 4 (0, .go 1 5 false) ++
      List.replicate 3 (1, .go 0 6 false))).flatten

theorem conserves_pushThenPop :
    EnoughSlots swapPair 2 ∧ ((run swapPair pushThenPop).locals 0).accepted = [8, 7] ∧
      ((run swapPair pushThenPop).locals 1).returned = [7] ∧
      ((run swapPair pushThenPop).shared.queues 0).contents swapPair = [8] ∧
      Conserves swapPair (run swapPair pushThenPop) :=
  have hslots : EnoughSlots swapPair 2 := fun _ => by decide
  ⟨hslots, by decide +kernel, by decide +kernel, by decide +kernel,
    conserves swapPair hslots pushThenPop⟩

end RelaxedConcurrentFifo.MultiFifo
