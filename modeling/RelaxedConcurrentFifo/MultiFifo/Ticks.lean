/-
# RelaxedConcurrentFifo.MultiFifo.Ticks — the cached tick of a queue

Each queue caches the tick of its oldest element, so that a pop can compare its candidates without
taking a lock. The cache is written under the lock, by `popped` after every pop and by `pushed` when
it is marked empty, and it is read by anyone at any time. It is exact whenever the lock is free.

That is an invariant about a queue that its critical sections break and restore. `Guarded` is the
rule for such invariants: one assertion about a queue that nobody is inside of, one about the queue
of a handle at each stage, and what a single access has to show.
-/
import RelaxedConcurrentFifo.MultiFifo.Sequential

namespace RelaxedConcurrentFifo.MultiFifo

open RelaxedConcurrentFifo.Lib.Interleaving
open RelaxedConcurrentFifo.Lib.Words

variable {T : Type} {c : Config} {m : Shared T} {h : Handle T} {op : Op T}

/-! ## §1 — invariants that a lock guards -/

/-- What the clock showed in a step. -/
def Action.time : Action T → Option Nat
  | .go _ time _ => some time
  | _ => none

/-- What the clock showed in the steps of a run. -/
def times {n : Nat} (ls : List (Fin n × Action T)) : List Nat := ls.filterMap (·.2.time)

/-- `I` holds of a queue that is not locked, `J` of the queue that a handle is inside of, at each
stage; `ok now time` says that the clock may show `time` after `now`. -/
structure Guarded (c : Config) (ok : Nat → Nat → Prop) (I : Nat → Queue T → Prop)
    (J : Nat → Op T → Queue T → Stage T → Prop) : Prop where
  later : ∀ {now time q}, ok now time → I now q → I time q
  laterInside : ∀ {now time op q stage}, ok now time → J now op q stage → J time op q stage
  enter : ∀ {now op q}, I now q → J now op { q with lock := 1 } .checkHead
  stay : ∀ {now time op q stage stage'}, ok now time → QueueOk c q → StageOk c op q stage →
    J now op q stage → (q.access c op time stage).2 = .stay stage' →
    J time op (q.access c op time stage).1 stage'
  left : ∀ {now time op q stage}, ok now time → QueueOk c q → StageOk c op q stage →
    J now op q stage → (∀ stage', (q.access c op time stage).2 ≠ .stay stage') →
    I time (q.access c op time stage).1

/-- All assertions hold, at the time `now`. -/
structure Watched {n : Nat} (c : Config) (I : Nat → Queue T → Prop)
    (J : Nat → Op T → Queue T → Stage T → Prop) (now : Nat)
    (s : Threads (Shared T) (Handle T) n) : Prop where
  locks : (lockOutline c).Holds s
  free : ∀ i, (s.shared.queues i).lock = 0 → I now (s.shared.queues i)
  inside : ∀ t op site q stage, (s.locals t).pc = .inside op site q stage →
    J now op (s.shared.queues q) stage

namespace Guarded

variable {n : Nat} {ok : Nat → Nat → Prop} {I : Nat → Queue T → Prop}
  {J : Nat → Op T → Queue T → Stage T → Prop} {s : Threads (Shared T) (Handle T) n} {now : Nat}

/-- A step that leaves the queues alone and does not lead into a critical section. -/
theorem step_outside (h : Watched c I J now s) {l : Fin n × Action T}
    (hlocks : (lockOutline c).Holds (s.step (stepHandle c) l))
    (hqueues : (s.step (stepHandle c) l).shared.queues = s.shared.queues)
    (hinside : ∀ op site q stage, ((s.step (stepHandle c) l).locals l.1).pc =
      .inside op site q stage → (s.locals l.1).pc = .inside op site q stage) :
    Watched c I J now (s.step (stepHandle c) l) := by
  refine ⟨hlocks, fun i hi => ?_, fun t op site q stage hpc => ?_⟩
  · rw [hqueues] at hi ⊢
    exact h.free i hi
  · rw [hqueues]
    by_cases ht : t = l.1
    · rw [ht] at hpc
      exact h.inside l.1 op site q stage (hinside op site q stage hpc)
    · rw [Threads.step_locals_ne l ht] at hpc
      exact h.inside t op site q stage hpc

/-- A step of the handle inside `q`, or into it, that leaves `queue` behind. -/
theorem step_setQueue (h : Watched c I J now s) {l : Fin n × Action T}
    (hlocks : (lockOutline c).Holds (s.step (stepHandle c) l)) (q : Nat) (queue : Queue T)
    (hqueues : (s.step (stepHandle c) l).shared.queues = Function.update s.shared.queues q queue)
    (hfree : queue.lock = 0 → I now queue)
    (hself : ∀ op site q' stage, ((s.step (stepHandle c) l).locals l.1).pc =
      .inside op site q' stage → q' = q ∧ J now op queue stage)
    (hothers : ∀ t, t ≠ l.1 → ∀ op site stage, (s.locals t).pc = .inside op site q stage →
      J now op queue stage) :
    Watched c I J now (s.step (stepHandle c) l) := by
  refine ⟨hlocks, fun i hi => ?_, fun t op site q' stage hpc => ?_⟩
  · rw [hqueues] at hi ⊢
    by_cases hiq : i = q
    · rw [hiq, Function.update_self] at hi ⊢
      exact hfree hi
    · rw [Function.update_of_ne hiq] at hi ⊢
      exact h.free i hi
  · rw [hqueues]
    by_cases ht : t = l.1
    · rw [ht] at hpc
      obtain ⟨rfl, hJ⟩ := hself op site q' stage hpc
      rw [Function.update_self]
      exact hJ
    · rw [Threads.step_locals_ne l ht] at hpc
      by_cases hq' : q' = q
      · rw [hq', Function.update_self]
        exact hothers t ht op site stage (hq' ▸ hpc)
      · rw [Function.update_of_ne hq']
        exact h.inside t op site q' stage hpc

/-- A queue that is locked already stays as it is when it is locked again. -/
theorem lock_again {q : Queue T} (hlock : q.lock = 1) : { q with lock := 1 } = q := by
  rw [← hlock]

theorem step_exchange (hg : Guarded c ok I J) (h : Watched c I J now s) {t : Fin n}
    {random time : Nat} {spurious : Bool} {op : Op T} {site : Site} {q : Nat}
    (hlocks : (lockOutline c).Holds (s.step (stepHandle c) (t, .go random time spurious)))
    (hpc : (s.locals t).pc = .lockExchange op site q) :
    Watched c I J now (s.step (stepHandle c) (t, .go random time spurious)) := by
  have hgo : stepHandle c (.go random time spurious) s.shared (s.locals t) =
      (s.shared.setQueue q { s.shared.queues q with lock := 1 },
        { s.locals t with
          pc := if (s.shared.queues q).lock &&& 1 = 0 then .inside op site q .checkHead
            else lockFailed c op site q }) := by
    simp only [stepHandle, go, hpc]
  refine step_setQueue h hlocks q { s.shared.queues q with lock := 1 } ?_
    (fun heq => by cases heq) ?_ ?_
  · rw [Threads.step_shared, hgo]
    rfl
  · intro op' site' q' stage hin
    rw [Threads.step_locals_self, hgo] at hin
    dsimp only at hin
    split at hin
    · rename_i hzero
      cases hin
      exact ⟨rfl, hg.enter (h.free q ((lock_cases (h.locks.shared.lock q)).mp hzero))⟩
    · have hnone := insideOf_lockFailed (c := c) op site q
      rw [hin] at hnone
      cases hnone
  · intro u _ op' site' stage hin
    rw [lock_again (h.locks.thread u op' site' q stage hin).1]
    exact h.inside u op' site' q stage hin

theorem step_inside (hg : Guarded c ok I J) (h : Watched c I J now s) {t : Fin n}
    {random time : Nat} {spurious : Bool} {op : Op T} {site : Site} {q : Nat} {stage : Stage T}
    (hok : ok now time)
    (hlocks : (lockOutline c).Holds (s.step (stepHandle c) (t, .go random time spurious)))
    (hpc : (s.locals t).pc = .inside op site q stage) :
    Watched c I J time (s.step (stepHandle c) (t, .go random time spurious)) := by
  -- the clock goes on before the access
  have hlater : Watched c I J time s :=
    ⟨h.locks, fun i hi => hg.later hok (h.free i hi),
      fun t op site q stage hpc => hg.laterInside hok (h.inside t op site q stage hpc)⟩
  have hgo : stepHandle c (.go random time spurious) s.shared (s.locals t) =
      (s.shared.setQueue q ((s.shared.queues q).access c op time stage).1,
        leave c (s.locals t) op site q ((s.shared.queues q).access c op time stage).2) := by
    simp only [stepHandle, go, hpc]
  obtain ⟨hlock, hstage⟩ := h.locks.thread t op site q stage hpc
  have hqueue := h.locks.shared.queue q
  have hJ := h.inside t op site q stage hpc
  have haccess := access_ok time hqueue hstage
  refine step_setQueue hlater hlocks q ((s.shared.queues q).access c op time stage).1 ?_ ?_ ?_ ?_
  · rw [Threads.step_shared, hgo]
    rfl
  · intro hzero
    refine hg.left hok hqueue hstage hJ fun stage' hstay => ?_
    have := (haccess.stay stage' hstay).2
    omega
  · intro op' site' q' stage' hin
    rw [Threads.step_locals_self, hgo] at hin
    by_cases hstay : ∃ stage'', ((s.shared.queues q).access c op time stage).2 = .stay stage''
    · obtain ⟨stage'', hstay⟩ := hstay
      have hJ' := hg.stay hok hqueue hstage hJ hstay
      rw [hstay] at hin
      cases hin
      exact ⟨rfl, hJ'⟩
    · have hnone : insideOf (Pc.inside op' site' q' stage') = none := by
        rw [← hin]
        exact insideOf_leave fun stage'' heq => hstay ⟨stage'', heq⟩
      cases hnone
  · -- nobody else is inside this queue
    intro u hu op' site' stage' hin
    exact absurd (by rw [hin]; rfl) (h.locks.pair t u (Ne.symm hu) q (by rw [hpc]; rfl))

/-- One step, with the time after it. -/
theorem step (hg : Guarded c ok I J) (h : Watched c I J now s) (l : Fin n × Action T)
    (hok : ∀ time ∈ l.2.time, ok now time) :
    Watched c I J (l.2.time.getD now) (s.step (stepHandle c) l) := by
  have hlocks : (lockOutline c).Holds (s.step (stepHandle c) l) :=
    h.locks.step l (lockOutline_step l.2 h.locks.shared (h.locks.thread l.1))
  have hcall : ∀ op, s.step (stepHandle c) l = ⟨s.shared, Function.update s.locals l.1
      (if (s.locals l.1).pc.resting then { s.locals l.1 with pc := .begin op } else s.locals l.1)⟩ →
      Watched c I J now (s.step (stepHandle c) l) := by
    intro op heq
    refine step_outside h hlocks (by rw [heq]) fun op' site q stage hin => ?_
    rw [heq] at hin
    dsimp only at hin
    rw [Function.update_self] at hin
    split at hin
    · cases hin
    · exact hin
  obtain ⟨t, a⟩ := l
  cases a with
  | push v => exact hcall (.push v) rfl
  | pop => exact hcall .pop rfl
  | go random time spurious =>
      have hok : ok now time := hok time rfl
      show Watched c I J time _
      -- the exchange enters a critical section; an access goes on inside one or leaves it
      by_cases hexchange : ∃ op site q, (s.locals t).pc = .lockExchange op site q
      · obtain ⟨op, site, q, hpc⟩ := hexchange
        have hstep := step_exchange hg h hlocks hpc
        exact ⟨hlocks, fun i hi => hg.later hok (hstep.free i hi),
          fun t op site q stage hpc => hg.laterInside hok (hstep.inside t op site q stage hpc)⟩
      · by_cases hinside : insideOf (s.locals t).pc = none
        · have hout := go_outside (c := c) (m := s.shared) random time spurious
            (fun op site q heq => hexchange ⟨op, site, q, heq⟩) hinside
          have hstep := step_outside h hlocks hout.queues fun op site q stage hin => by
            rw [Threads.step_locals_self] at hin
            have hnone := hout.inside
            rw [show (go c random time spurious s.shared (s.locals t)).2.pc = _ from hin] at hnone
            cases hnone
          exact ⟨hlocks, fun i hi => hg.later hok (hstep.free i hi),
            fun t op site q stage hpc => hg.laterInside hok (hstep.inside t op site q stage hpc)⟩
        · cases hpc : (s.locals t).pc with
          | inside op site q stage => exact step_inside hg h hok hlocks hpc
          | _ => exact absurd (by rw [hpc]; rfl) hinside

theorem run_from (hg : Guarded c ok I J) (h : Watched c I J now s) (ls : List (Fin n × Action T))
    (hok : (now :: times ls).IsChain ok) :
    Watched c I J ((times ls).getLastD now) (s.run (stepHandle c) ls) := by
  induction ls generalizing s now with
  | nil => exact h
  | cons l ls ih =>
      show Watched c I J _ ((s.step (stepHandle c) l).run (stepHandle c) ls)
      cases htime : l.2.time with
      | none =>
          have htimes : times (l :: ls) = times ls := List.filterMap_cons_none htime
          rw [htimes] at hok ⊢
          have hstep := step hg h l (by rw [htime]; exact nofun)
          rw [htime] at hstep
          exact ih hstep hok
      | some time =>
          have htimes : times (l :: ls) = time :: times ls := List.filterMap_cons_some htime
          rw [htimes] at hok ⊢
          obtain ⟨hfirst, hrest⟩ := List.isChain_cons_cons.mp hok
          have hstep := step hg h l (by
            rw [htime]
            intro time' hmem
            obtain rfl := Option.mem_some_iff.mp hmem
            exact hfirst)
          rw [htime] at hstep
          rw [List.getLastD_cons]
          exact ih hstep hrest

/-- **Guarded assertions hold after every run** whose clock goes on as `ok` says. -/
theorem run [Inhabited T] (hg : Guarded c ok I J) (hfresh : I 0 Queue.fresh)
    (ls : List (Fin n × Action T)) (hok : (0 :: times ls).IsChain ok) :
    Watched c I J ((times ls).getLastD 0) (MultiFifo.run c ls) := by
  refine run_from hg ⟨lockOutline_run c [], fun _ _ => hfresh, ?_⟩ ls hok
  intro t op site q stage hpc
  cases hpc

end Guarded

/-! ## §2 — the ticks of a queue -/

/-- The tick of the `i`-th element pushed to a queue, while it stands there. -/
def Queue.tickAt (c : Config) (q : Queue T) (i : Nat) : Nat := (q.buffer (i % c.sizePerQueue)).tick

/-- The ticks of the elements that stand in a queue, oldest first. -/
def Queue.ticks (c : Config) (q : Queue T) : List Nat :=
  (List.range' q.popped.length (q.pushed.length - q.popped.length)).map (q.tickAt c)

/-- There is an element in the queue. -/
def Queue.Nonempty (q : Queue T) : Prop := q.popped.length < q.pushed.length

section Queue

variable {q : Queue T}

theorem QueueOk.nonempty_iff (hq : QueueOk c q) : q.Nonempty ↔ q.head ≠ q.tail := by
  have hle := hq.le
  rw [Ne, hq.head_eq_tail_iff]
  unfold Queue.Nonempty
  omega

theorem Queue.length_ticks : (q.ticks c).length = q.pushed.length - q.popped.length := by
  rw [Queue.ticks, List.length_map, List.length_range']

theorem Queue.ticks_eq_nil_iff : q.ticks c = [] ↔ ¬ q.Nonempty := by
  unfold Queue.ticks Queue.Nonempty
  rw [List.map_eq_nil_iff, List.range'_eq_nil_iff]
  omega

/-- The oldest element comes first. -/
theorem Queue.ticks_of_nonempty (hne : q.Nonempty) :
    ∃ rest, q.ticks c = q.tickAt c q.popped.length :: rest := by
  unfold Queue.Nonempty at hne
  obtain ⟨k, hk⟩ := Nat.exists_eq_add_of_lt hne
  refine ⟨(List.range' (q.popped.length + 1) k).map (q.tickAt c), ?_⟩
  unfold Queue.ticks
  rw [hk, show q.popped.length + k + 1 - q.popped.length = k + 1 by omega, List.range'_succ]
  rfl

/-- What `top_elem` reads. -/
theorem QueueOk.tickAt_tail (hq : QueueOk c q) :
    (q.buffer (q.tail &&& c.mask)).tick = q.tickAt c q.popped.length := by
  rw [hq.tail, and_mask]
  rfl

/-- Writing the free slot leaves the elements alone. -/
theorem QueueOk.ticks_write (hq : QueueOk c q) (hroom : HasRoom c q) (e : Element T) :
    Queue.ticks c { q with buffer := Function.update q.buffer (q.head &&& c.mask) e } =
      q.ticks c := by
  unfold HasRoom at hroom
  refine List.map_congr_left fun i hi => ?_
  obtain ⟨hlow, hhigh⟩ := List.mem_range'_1.mp hi
  dsimp only at hlow hhigh
  have hne : i % c.sizePerQueue ≠ q.pushed.length % c.sizePerQueue := slot_ne (by omega) (by omega)
  unfold Queue.tickAt
  dsimp only
  rw [hq.head, and_mask, Function.update_of_ne hne]

theorem QueueOk.tickAt_written (hq : QueueOk c q) (e : Element T) :
    Queue.tickAt c { q with buffer := Function.update q.buffer (q.head &&& c.mask) e }
      q.pushed.length = e.tick := by
  unfold Queue.tickAt
  dsimp only
  rw [hq.head, and_mask, Function.update_self]

/-- Counting a written slot in. -/
theorem QueueOk.ticks_push (hq : QueueOk c q) (v : T) (head : Nat) :
    Queue.ticks c { q with head := head, pushed := q.pushed ++ [v] } =
      q.ticks c ++ [q.tickAt c q.pushed.length] := by
  have hle := hq.le
  have hlen : (q.pushed ++ [v]).length - q.popped.length =
      q.pushed.length - q.popped.length + 1 := by
    rw [List.length_append, List.length_singleton]
    omega
  unfold Queue.ticks
  dsimp only
  rw [hlen, List.range'_1_concat, List.map_append, Nat.add_sub_cancel' hle]
  rfl

/-- Counting the oldest element out. -/
theorem Queue.ticks_pop (hne : q.Nonempty) (v : T) (tail : Nat) :
    q.ticks c = q.tickAt c q.popped.length ::
      Queue.ticks c { q with tail := tail, popped := q.popped ++ [v] } := by
  unfold Queue.Nonempty at hne
  have hlen : q.pushed.length - q.popped.length =
      q.pushed.length - (q.popped ++ [v]).length + 1 := by
    rw [List.length_append, List.length_singleton]
    omega
  unfold Queue.ticks
  rw [hlen, List.range'_succ, List.length_append, List.length_singleton]
  rfl

end Queue

/-- A critical section is left by an `unlock`. -/
theorem access_left {time : Nat} {q : Queue T} {stage : Stage T}
    (hleft : ∀ stage', (q.access c op time stage).2 ≠ .stay stage') :
    (stage = .unlockRejected ∨ stage = .unlockPushed ∨ ∃ v, stage = .unlockPopped v) ∧
      (q.access c op time stage).1 = { q with lock := 0 } := by
  cases stage with
  | unlockRejected => exact ⟨.inl rfl, rfl⟩
  | unlockPushed => exact ⟨.inr (.inl rfl), rfl⟩
  | unlockPopped v => exact ⟨.inr (.inr ⟨v, rfl⟩), rfl⟩
  | pushWrite tick head => cases op <;> exact absurd rfl (hleft _)
  | pushStore head => cases op <;> exact absurd rfl (hleft _)
  | _ => exact absurd rfl (hleft _)

/-- A property of the ticks of a queue that lasts: it may gain the clock's time at its end and lose
its first tick. -/
structure Lasting (ok : Nat → Nat → Prop) (L : Nat → List Nat → Prop) : Prop where
  later : ∀ {now time ticks}, ok now time → L now ticks → L time ticks
  push : ∀ {now time ticks}, ok now time → L now ticks → L time (ticks ++ [time])
  pop : ∀ {now tick ticks}, L now (tick :: ticks) → L now ticks

/-- The property at each stage: a push that has looked at the clock has its tick counted in. -/
def LastingAt (c : Config) (L : Nat → List Nat → Prop) (now : Nat) (op : Op T) (q : Queue T) :
    Stage T → Prop
  | .pushWrite tick _ => L now (q.ticks c ++ [tick])
  | .pushLoad | .pushStore _ =>
      ∀ v, op = .push v → L now (q.ticks c ++ [q.tickAt c q.pushed.length])
  | _ => L now (q.ticks c)

section Lasting

variable {ok : Nat → Nat → Prop} {L : Nat → List Nat → Prop}

theorem LastingAt.later (hL : Lasting ok L) {now time : Nat} (hok : ok now time) {q : Queue T}
    {stage : Stage T} (h : LastingAt c L now op q stage) : LastingAt c L time op q stage := by
  cases stage with
  | pushWrite tick head => exact hL.later hok h
  | pushLoad => exact fun v hv => hL.later hok (h v hv)
  | pushStore head => exact fun v hv => hL.later hok (h v hv)
  | _ => exact hL.later hok h

theorem access_lasting (hL : Lasting ok L) {now time : Nat} (hok : ok now time) {q : Queue T}
    {stage stage' : Stage T} (hq : QueueOk c q) (hstage : StageOk c op q stage)
    (h : LastingAt c L now op q stage) (hstay : (q.access c op time stage).2 = .stay stage') :
    LastingAt c L time op (q.access c op time stage).1 stage' := by
  have hlater := h.later hL hok
  cases stage with
  | checkTail head =>
      cases hstay
      show LastingAt c L time op q (checked c op head q.tail)
      unfold checked
      cases op with
      | push v => dsimp only; split <;> exact hlater
      | pop => dsimp only; split <;> exact hlater
  | pushRead => cases hstay; exact hL.push hok h
  | pushWrite tick head =>
      cases op with
      | pop => cases hstay; exact hlater
      | push v =>
          obtain ⟨rfl, hroom⟩ := hstage
          cases hstay
          intro _ _
          -- the slot behind the newest element is written: no element changes its tick
          have hticks := hq.ticks_write hroom ⟨tick, v⟩
          have hnew := hq.tickAt_written ⟨tick, v⟩
          dsimp only [Queue.access]
          rw [hticks, hnew]
          exact hlater
  | pushStore head =>
      cases op with
      | pop => cases hstay; exact hlater
      | push v =>
          have hpushed : L time (Queue.ticks c
              { q with head := (head + 1) % 2 ^ 64, pushed := q.pushed ++ [v] }) := by
            rw [hq.ticks_push]
            exact hlater v rfl
          dsimp only [Queue.access] at hstay ⊢
          split at hstay <;> cases hstay <;> exact hpushed
  | popStore v tail =>
      obtain ⟨-, hv⟩ := hstage
      have hne : q.Nonempty := (List.getElem?_eq_some_iff.mp hv).1
      cases hstay
      have hticks := Queue.ticks_pop (c := c) hne v ((tail + 1) % 2 ^ 64)
      change L time (q.ticks c) at hlater
      rw [hticks] at hlater
      exact hL.pop hlater
  | pushedOldest => dsimp only [Queue.access] at hstay; split at hstay <;> cases hstay <;> exact hlater
  | sizeTail tick head =>
      dsimp only [Queue.access] at hstay
      split at hstay <;> cases hstay <;> exact hlater
  | emptyTail v head => dsimp only [Queue.access] at hstay; split at hstay <;> cases hstay <;> exact hlater
  | poppedOldest v tick empty =>
      dsimp only [Queue.access] at hstay
      split at hstay <;> cases hstay <;> exact hlater
  | unlockRejected => cases hstay
  | unlockPushed => cases hstay
  | unlockPopped v => cases hstay
  | _ => cases hstay; exact hlater

/-- Lasting properties of ticks last, in all modes. -/
theorem guarded_lasting (hL : Lasting ok L) (c : Config) :
    Guarded (T := T) c ok (fun now q => L now (q.ticks c)) (LastingAt c L) where
  later hok h := hL.later hok h
  laterInside hok h := h.later hL hok
  enter h := h
  stay hok hq hstage h hstay := access_lasting hL hok hq hstage h hstay
  left hok hq hstage h hleft := by
    have hlater := h.later hL hok
    obtain ⟨hunlock, heq⟩ := access_left hleft
    rw [heq]
    obtain rfl | rfl | ⟨v, rfl⟩ := hunlock
    · exact hlater
    · exact hlater
    · exact hlater

/-- Every tick is one the clock has shown. -/
theorem lasting_forall (P : Nat → Prop) :
    Lasting (fun _ time => P time) (fun _ ticks => ∀ tick ∈ ticks, P tick) where
  later _ h := h
  push htime h := by
    intro tick hmem
    rcases List.mem_append.mp hmem with hold | hnew
    · exact h tick hold
    · obtain rfl := List.mem_singleton.mp hnew
      exact htime
  pop h := fun tick hmem => h tick (List.mem_cons_of_mem _ hmem)

/-- While the clock does not go backwards, ticks are in order, and none is from the future. -/
theorem lasting_sorted :
    Lasting (fun now time => now ≤ time)
      (fun now ticks => ticks.Pairwise (· ≤ ·) ∧ ∀ tick ∈ ticks, tick ≤ now) where
  later hle h := ⟨h.1, fun tick hmem => (h.2 tick hmem).trans hle⟩
  push {now time ticks} hle h := by
    have hpast : ∀ tick ∈ ticks, tick ≤ time := fun tick hmem => (h.2 tick hmem).trans hle
    refine ⟨List.pairwise_append.mpr ⟨h.1, List.pairwise_singleton _ _, ?_⟩, fun tick hmem => ?_⟩
    · intro tick hmem tick' hmem'
      obtain rfl := List.mem_singleton.mp hmem'
      exact hpast tick hmem
    · rcases List.mem_append.mp hmem with hold | hnew
      · exact hpast tick hold
      · exact (List.mem_singleton.mp hnew).le
  pop h := ⟨(List.pairwise_cons.mp h.1).2, fun tick hmem => h.2 tick (List.mem_cons_of_mem _ hmem)⟩

end Lasting

/-! ## §3 — the cached tick -/

/-- The cache is exact. -/
def Cached (c : Config) (q : Queue T) : Prop := q.oldestTick = (q.ticks c).headD maxWord

/-- What holds of the cache at each stage, except in the symmetric mode. -/
def CachedAt (c : Config) (q : Queue T) : Stage T → Prop
  | .pushedOldest => q.Nonempty ∧ (q.oldestTick = maxWord ∨ Cached c q)
  | .pushedTail | .frontTail _ => q.Nonempty
  | .pushedTick tail | .frontTick _ tail => q.Nonempty ∧ tail = q.tail
  | .storeOldest tick | .poppedOldest _ tick _ => tick = (q.ticks c).headD maxWord
  | .emptyHead _ => True
  | .emptyTail _ head => head = q.head
  | .bottomHead | .bottomTick _ | .storeNewest _ | .sizeHead _ | .sizeTail _ _
  | .poppedNewest _ => False
  | _ => Cached c q

/-- What `top_elem` reads is the tick to cache. -/
theorem QueueOk.top_tick {q : Queue T} (hq : QueueOk c q) (hne : q.Nonempty) :
    (q.buffer (q.tail &&& c.mask)).tick = (q.ticks c).headD maxWord := by
  obtain ⟨rest, hticks⟩ := Queue.ticks_of_nonempty (c := c) hne
  rw [hq.tickAt_tail, hticks]
  rfl

/-- What an access makes of the cache. -/
theorem access_cached (hmode : c.mode ≠ .stickRandomSymmetric) {time : Nat} {q : Queue T}
    {stage stage' : Stage T} (hq : QueueOk c q) (hstage : StageOk c op q stage)
    (h : CachedAt c q stage) (hstay : (q.access c op time stage).2 = .stay stage') :
    CachedAt c (q.access c op time stage).1 stage' := by
  cases stage with
  | checkTail head =>
      cases hstay
      show CachedAt c q (checked c op head q.tail)
      unfold checked
      cases op with
      | push v => dsimp only; split <;> exact h
      | pop => dsimp only; split <;> exact h
  | pushWrite tick head =>
      cases op with
      | pop => cases hstay; exact h
      | push v =>
          obtain ⟨rfl, hroom⟩ := hstage
          cases hstay
          refine h.trans ?_
          dsimp only [Queue.access]
          rw [hq.ticks_write hroom]
  | pushStore head =>
      cases op with
      | pop => cases hstay; exact h
      | push v =>
          have hticks := hq.ticks_push (c := c) v ((head + 1) % 2 ^ 64)
          dsimp only [Queue.access] at hstay ⊢
          -- only the symmetric mode goes on to the newest tick
          rw [if_neg hmode] at hstay
          cases hstay
          refine ⟨?_, ?_⟩
          · by_contra hempty
            rw [Queue.ticks_eq_nil_iff.mpr hempty] at hticks
            exact List.append_ne_nil_of_right_ne_nil _ (List.cons_ne_nil _ _) hticks.symm
          · -- the oldest element is the old one, or the queue was marked empty
            by_cases hne : q.Nonempty
            · obtain ⟨rest, hrest⟩ := Queue.ticks_of_nonempty (c := c) hne
              refine .inr (h.trans ?_)
              rw [hticks, hrest]
              rfl
            · exact .inl (h.trans (by rw [Queue.ticks_eq_nil_iff.mpr hne]; rfl))
  | pushedOldest =>
      dsimp only [Queue.access] at hstay ⊢
      split at hstay
      · cases hstay
        exact h.1
      · rename_i hne
        cases hstay
        exact h.2.resolve_left hne
  | pushedTail => cases hstay; exact ⟨h, rfl⟩
  | pushedTick tail =>
      obtain ⟨hne, rfl⟩ := h
      cases hstay
      exact hq.top_tick hne
  | popStore v tail => cases hstay; trivial
  | emptyHead v => cases hstay; rfl
  | emptyTail v head =>
      obtain rfl : head = q.head := h
      dsimp only [Queue.access] at hstay ⊢
      split at hstay
      · rename_i heq
        have hempty : ¬ q.Nonempty := fun hne => hq.nonempty_iff.mp hne heq
        cases hstay
        show maxWord = (q.ticks c).headD maxWord
        rw [Queue.ticks_eq_nil_iff.mpr hempty]
        rfl
      · rename_i hne
        cases hstay
        exact hq.nonempty_iff.mpr hne
  | frontTail v => cases hstay; exact ⟨h, rfl⟩
  | frontTick v tail =>
      obtain ⟨hne, rfl⟩ := h
      cases hstay
      exact hq.top_tick hne
  | poppedOldest v tick empty =>
      dsimp only [Queue.access] at hstay ⊢
      rw [if_neg fun hboth => hmode hboth.1] at hstay
      cases hstay
      exact h
  | unlockRejected => cases hstay
  | unlockPushed => cases hstay
  | unlockPopped v => cases hstay
  | bottomHead => exact h.elim
  | bottomTick head => exact h.elim
  | storeNewest tick => exact h.elim
  | sizeHead tick => exact h.elim
  | sizeTail tick head => exact h.elim
  | poppedNewest v => exact h.elim
  | _ => cases hstay; exact h

/-- The cache is exact while the lock is free. -/
theorem guarded_cached (hmode : c.mode ≠ .stickRandomSymmetric) :
    Guarded (T := T) c (fun _ _ => True) (fun _ => Cached c) (fun _ _ => CachedAt c) where
  later _ h := h
  laterInside _ h := h
  enter h := h
  stay _ hq hstage h hstay := access_cached hmode hq hstage h hstay
  left _ _ _ h hleft := by
    obtain ⟨hunlock, heq⟩ := access_left hleft
    rw [heq]
    obtain rfl | rfl | ⟨v, rfl⟩ := hunlock
    · exact h
    · exact h
    · exact h

/-! ## §4 — the candidate a call takes -/

/-- The queue that is candidate `i` of a handle. -/
def candidate (c : Config) (m : Shared T) (h : Handle T) (i : Nat) : Nat :=
  if c.mode = .stickSwap then m.permutation (h.offset + i) else h.popIndex i

/-- `q` is one of the candidates `cand`, and no other has a smaller tick. -/
structure Chosen (c : Config) (op : Op T) (qs : Nat → Queue T) (cand : Nat → Nat) (q : Nat) :
    Prop where
  candidate : ∃ i < c.numPopCandidates, q = cand i
  least : ∀ i < c.numPopCandidates, (qs q).tickFor op ≤ (qs (cand i)).tickFor op
  marked : op.isPop = true → (qs q).tickFor op ≠ maxWord

/-- The best of the first `i` candidates. -/
structure BestOf (op : Op T) (qs : Nat → Queue T) (cand : Nat → Nat) (i : Nat) (best : Nat × Nat) :
    Prop where
  tick : best.2 = (qs best.1).tickFor op
  candidate : ∃ j < i, best.1 = cand j
  least : ∀ j < i, best.2 ≤ (qs (cand j)).tickFor op

/-- The best candidate so far; before the first one there is none. -/
def BestSoFar (op : Op T) (qs : Nat → Queue T) (cand : Nat → Nat) (i : Nat) :
    Option (Nat × Nat) → Prop
  | none => i = 0
  | some best => BestOf op qs cand i best

/-- The call draws its candidate at random: a push, except in the symmetric mode. -/
def Draws (c : Config) (op : Op T) : Prop := op.isPop = false ∧ c.mode ≠ .stickRandomSymmetric

/-- Only calls that draw have a `push_index`. -/
def Drawn (c : Config) (op : Op T) (pick : Option Nat) : Prop := ∀ p, pick = some p → Draws c op

/-- What a call that runs alone knows of its candidates. -/
def Choosing (c : Config) (op : Op T) (qs : Nat → Queue T) (cand : Nat → Nat) : Pc T → Prop
  | .refresh _ pick _ | .swapExchange _ pick _ | .swapLoad _ pick _ _ | .swapCas _ pick _ _ _ _
  | .swapStore _ pick _ _ => Drawn c op pick
  | .choose _ => Draws c op
  | .readSlot _ (some _) _ _ => Draws c op
  | .readSlot _ none i best =>
      c.mode = .stickSwap ∧ i < c.numPopCandidates ∧ BestSoFar op qs cand i best
  | .readTick _ i q best => i < c.numPopCandidates ∧ q = cand i ∧ BestSoFar op qs cand i best
  | .lockLoad _ (.fast none) q | .lockExchange _ (.fast none) q | .inside _ (.fast none) q _ =>
      Chosen c op qs cand q
  | .lockLoad _ (.fast (some _)) _ | .lockExchange _ (.fast (some _)) _
  | .inside _ (.fast (some _)) _ _ => Draws c op
  | _ => True

variable {qs : Nat → Queue T} {cand : Nat → Nat}

theorem drawn_none : Drawn c op none := nofun

theorem choosing_resume {pick : Option Nat} (hpick : Drawn c op pick) :
    Choosing c op qs (candidate c m h) (resume c h op pick) := by
  have hfirst : c.mode ≠ .stickSwap → h.popIndex 0 = candidate c m h 0 :=
    fun hmode => (if_neg hmode).symm
  unfold resume
  split
  · rename_i hmode
    exact ⟨hmode, c.numPopCandidates_pos, rfl⟩
  · rename_i hmode
    exact ⟨c.numPopCandidates_pos, hfirst hmode, rfl⟩
  · rename_i hmode
    exact ⟨c.numPopCandidates_pos, hfirst (by rw [hmode]; exact nofun), rfl⟩
  · rename_i hmode
    exact ⟨rfl, hmode⟩
  · exact hpick _ rfl
  · exact hpick _ rfl

theorem choosing_assign {pick : Option Nat} (hpick : Drawn c op pick) :
    Choosing c op qs cand (assign c op pick) := by
  unfold assign
  split
  · exact hpick
  · exact drawn_none
  · exact hpick

/-- One candidate more. -/
theorem BestSoFar.better {i : Nat} {best : Option (Nat × Nat)} (hbest : BestSoFar op qs cand i best) :
    BestOf op qs cand (i + 1) (better best (cand i) ((qs (cand i)).tickFor op)) := by
  cases best with
  | none =>
      obtain rfl : i = 0 := hbest
      refine ⟨rfl, ⟨0, Nat.zero_lt_one, rfl⟩, fun j hj => ?_⟩
      obtain rfl : j = 0 := by omega
      exact Nat.le_refl _
  | some best =>
      obtain ⟨htick, ⟨j, hj, hcand⟩, hleast⟩ := hbest
      have hcases : ∀ j < i + 1, j < i ∨ j = i := fun j hj => by omega
      dsimp only [MultiFifo.better]
      split
      · rename_i hlt
        refine ⟨rfl, ⟨i, Nat.lt_succ_self i, rfl⟩, fun j hj => ?_⟩
        obtain hji | rfl := hcases j hj
        · exact (Nat.le_of_lt hlt).trans (hleast j hji)
        · exact Nat.le_refl _
      · rename_i hge
        refine ⟨htick, ⟨j, Nat.lt_succ_of_lt hj, hcand⟩, fun j hj => ?_⟩
        obtain hji | rfl := hcases j hj
        · exact hleast j hji
        · exact Nat.le_of_not_lt hge

theorem choosing_compared {i : Nat} (hi : i < c.numPopCandidates) {best : Nat × Nat}
    (hbest : BestOf op qs (candidate c m h) (i + 1) best) :
    Choosing c op qs (candidate c m h) (compared c h op i best).pc := by
  unfold compared
  split
  · rename_i hnext
    dsimp only
    split
    · rename_i hmode
      exact ⟨hmode, hnext, hbest⟩
    · rename_i hmode
      exact ⟨hnext, (if_neg hmode).symm, hbest⟩
  · rename_i hlast
    obtain hall : i + 1 = c.numPopCandidates := by omega
    split
    · trivial
    · rename_i hscan
      obtain ⟨htick, hcand, hleast⟩ := hbest
      rw [htick, hall] at hleast
      rw [hall] at hcand
      exact ⟨hcand, hleast, fun hpop hmax => hscan ⟨hpop, htick.trans hmax⟩⟩

theorem candidate_compared (i : Nat) (best : Nat × Nat) :
    candidate c m (compared c h op i best) = candidate c m h := by
  unfold compared
  split
  · rfl
  · split <;> rfl

theorem candidate_leave {queue : Queue T} (op : Op T) (site : Site) (q : Nat) (outcome : Outcome T) :
    candidate c (m.setQueue q queue) (leave c h op site q outcome) = candidate c m h := by
  cases outcome with
  | rejected => cases site <;> rfl
  | _ => rfl

theorem choosing_leave {site : Site} {q : Nat} {stage : Stage T}
    (h' : Choosing c op qs cand (.inside op site q stage)) (outcome : Outcome T) :
    Choosing c op qs cand (leave c h op site q outcome).pc := by
  cases outcome with
  | stay stage' =>
      cases site with
      | fast pick => cases pick <;> exact h'
      | scan => trivial
  | rejected =>
      cases site with
      | fast pick => trivial
      | scan =>
          dsimp only [leave, scanNext]
          split
          · trivial
          · cases op <;> trivial
  | pushed => trivial
  | popped v => trivial

/-- One step of a call that runs alone. -/
theorem choosing_go (random time : Nat) (spurious : Bool) (hfree : ∀ i, (qs i).lock = 0)
    (hcalled : Called c op qs m h.pc) (hchoosing : Choosing c op qs (candidate c m h) h.pc) :
    Choosing c op qs
      (candidate c (go c random time spurious m h).1 (go c random time spurious m h).2)
      (go c random time spurious m h).2.pc := by
  cases hpc : h.pc with
  | idle => simp only [go, hpc]; trivial
  | pushReturned result => simp only [go, hpc]; trivial
  | popReturned result => simp only [go, hpc]; trivial
  | begin op' =>
      rw [hpc] at hcalled
      obtain ⟨rfl, -⟩ := hcalled
      simp only [go, hpc]
      split
      · exact choosing_assign drawn_none
      · exact choosing_resume (h := h) drawn_none
  | refresh op' pick i =>
      rw [hpc] at hcalled hchoosing
      obtain ⟨rfl, -⟩ := hcalled
      simp only [go, hpc]
      split
      · split
        · rw [hpc]
          exact hchoosing
        · exact hchoosing
      · exact choosing_resume (h := h) hchoosing
  | swapExchange op' pick i => rw [hpc] at hchoosing; simp only [go, hpc]; exact hchoosing
  | swapLoad op' pick i oldTarget =>
      rw [hpc] at hchoosing
      simp only [go, hpc]
      split
      · rw [hpc]
        exact hchoosing
      · exact hchoosing
  | swapCas op' pick i oldTarget permIndex newTarget =>
      rw [hpc] at hchoosing
      simp only [go, hpc]
      split <;> exact hchoosing
  | swapStore op' pick i newTarget =>
      rw [hpc] at hcalled hchoosing
      obtain ⟨rfl, -⟩ := hcalled
      simp only [go, hpc]
      cases pick with
      | some p => exact choosing_resume (h := h) hchoosing
      | none =>
          dsimp only
          split
          · exact drawn_none
          · exact choosing_resume (h := h) drawn_none
  | choose op' =>
      rw [hpc] at hcalled hchoosing
      obtain ⟨rfl, -⟩ := hcalled
      simp only [go, hpc]
      exact choosing_resume (h := h) fun _ _ => hchoosing
  | readSlot op' pick i best =>
      rw [hpc] at hchoosing
      simp only [go, hpc]
      cases pick with
      | some p => exact hchoosing
      | none => exact ⟨hchoosing.2.1, (if_pos hchoosing.1).symm, hchoosing.2.2⟩
  -- the comparison of a candidate; all other steps leave the best one alone
  | readTick op' i q best =>
      rw [hpc] at hcalled hchoosing
      obtain ⟨rfl, hqs⟩ := hcalled
      obtain ⟨hi, rfl, hbest⟩ := hchoosing
      simp only [go, hpc]
      rw [hqs, candidate_compared]
      exact choosing_compared hi hbest.better
  | lockLoad op' site q =>
      rw [hpc] at hcalled hchoosing
      obtain ⟨rfl, hqs, -⟩ := hcalled
      have hzero : (m.queues q).lock &&& 1 = 0 := by rw [hqs, hfree q]; rfl
      simp only [go, hpc, if_pos hzero]
      cases site with
      | fast pick => cases pick <;> exact hchoosing
      | scan => trivial
  | lockExchange op' site q =>
      rw [hpc] at hcalled hchoosing
      obtain ⟨rfl, hqs, -⟩ := hcalled
      have hzero : (m.queues q).lock &&& 1 = 0 := by rw [hqs, hfree q]; rfl
      simp only [go, hpc, if_pos hzero]
      cases site with
      | fast pick => cases pick <;> exact hchoosing
      | scan => trivial
  | inside op' site q stage =>
      rw [hpc] at hcalled hchoosing
      simp only [go, hpc]
      obtain rfl := hcalled.1
      rw [candidate_leave]
      exact choosing_leave hchoosing _

/-- **What a call that runs alone knows of its candidates, after any number of its steps.** -/
theorem Quiet.choosing [Inhabited T] {n : Nat} (hslots : EnoughSlots c n) {calls : List (Call T n)}
    (hquiet : Quiet (after c calls)) (t : Fin n) (op : Op T) (choices : List (Nat × Nat × Bool)) :
    Choosing c op (after c calls).shared.queues
      (candidate c (after c (calls ++ [⟨t, op, choices⟩])).shared
        ((after c (calls ++ [⟨t, op, choices⟩])).locals t))
      (resultOf c calls ⟨t, op, choices⟩) := by
  induction choices using List.reverseRecOn with
  | nil =>
      unfold resultOf
      rw [hquiet.call t op]
      dsimp only
      rw [Function.update_self]
      trivial
  | append_singleton choices x ih =>
      obtain ⟨hcalled, -⟩ := hquiet.called hslots t op choices
      unfold resultOf at ih ⊢
      rw [after_choice, Threads.step_locals_self]
      exact choosing_go x.1 x.2.1 x.2.2 hquiet.free hcalled ih

/-! ## §5 — the cache is exact, and pops take the smallest tick -/

/-- The elements between `tail` and `head`, oldest first. -/
def Queue.elements (c : Config) (q : Queue T) : List (Element T) :=
  (List.range (sub64 q.head q.tail)).map fun i => q.buffer ((q.tail + i) % 2 ^ 64 &&& c.mask)

theorem Queue.elements_value (q : Queue T) : (q.elements c).map Element.value = q.contents c := by
  unfold Queue.elements Queue.contents
  rw [List.map_map]
  rfl

theorem QueueOk.elements_tick {q : Queue T} (hq : QueueOk c q) :
    (q.elements c).map Element.tick = q.ticks c := by
  unfold Queue.elements Queue.ticks
  rw [hq.sub64_eq, List.range'_eq_map_range, List.map_map, List.map_map]
  refine List.map_congr_left fun i _ => ?_
  show (q.buffer ((q.tail + i) % 2 ^ 64 &&& c.mask)).tick = q.tickAt c (q.popped.length + i)
  rw [hq.tail, Nat.mod_add_mod, and_mask]
  rfl

/-- What the cache says of a queue. -/
structure CacheExact (c : Config) (q : Queue T) : Prop where
  front : ∀ e rest, q.elements c = e :: rest → q.oldestTick = e.tick
  empty : q.oldestTick = maxWord ↔ q.elements c = []

theorem Cached.exact {q : Queue T} (hq : QueueOk c q) (h : Cached c q)
    (hstamped : ∀ tick ∈ q.ticks c, tick < maxWord) : CacheExact c q := by
  have hticks := hq.elements_tick
  unfold Cached at h
  cases helements : q.elements c with
  | nil =>
      rw [helements] at hticks
      rw [← hticks] at h
      refine ⟨fun e rest heq => ?_, iff_of_true h helements⟩
      rw [helements] at heq
      cases heq
  | cons e rest =>
      rw [helements] at hticks
      rw [← hticks] at h hstamped
      have hlt := hstamped e.tick List.mem_cons_self
      refine ⟨fun e' rest' heq => ?_, iff_of_false (h.trans_ne hlt.ne) ?_⟩
      · rw [helements] at heq
        cases heq
        exact h
      · rw [helements]
        exact List.cons_ne_nil _ _

/-- A pop is about to return `v` from `try_pop`: only the unlock of queue `q` is left to do. -/
def ServedByTryPop [Inhabited T] {n : Nat} (c : Config) (calls : List (Call T n)) (t : Fin n)
    (choices : List (Nat × Nat × Bool)) (q : Nat) (v : T) : Prop :=
  ∃ pick, resultOf c calls ⟨t, .pop, choices⟩ = .inside .pop (.fast pick) q (.unlockPopped v)

/-- `v` is the oldest element of candidate `q`, and no element of any candidate has a smaller tick. -/
structure TakesSmallest (c : Config) (qs : Nat → Queue T) (cand : Nat → Nat) (q : Nat) (v : T) :
    Prop where
  candidate : ∃ i < c.numPopCandidates, q = cand i
  smallest : ∃ tick rest, (qs q).elements c = ⟨tick, v⟩ :: rest ∧
    ∀ i < c.numPopCandidates, ∀ e ∈ (qs (cand i)).elements c, tick ≤ e.tick

/-- The cached tick is a lower bound for the elements of a queue in order. -/
theorem oldest_le {q : Queue T} (hq : QueueOk c q) (hcached : Cached c q)
    (hsorted : (q.ticks c).Pairwise (· ≤ ·)) {e : Element T} (hmem : e ∈ q.elements c) :
    q.oldestTick ≤ e.tick := by
  have htick : e.tick ∈ q.ticks c := hq.elements_tick ▸ List.mem_map_of_mem hmem
  unfold Cached at hcached
  cases hticks : q.ticks c with
  | nil => rw [hticks] at htick; cases htick
  | cons first rest =>
      rw [hticks] at hcached hsorted htick
      rw [hcached]
      rcases List.mem_cons.mp htick with heq | hrest
      · exact heq.ge
      · exact (List.pairwise_cons.mp hsorted).1 _ hrest

/-- What the cache of a `MultiFifo` is good for. -/
structure TickCache (T : Type) [Inhabited T] (c : Config) (n : Nat) : Prop where
  /-- In every interleaving, the cached tick of a queue that is not locked is exact. -/
  exact : ∀ ls : List (Fin n × Action T), (∀ time ∈ times ls, time < maxWord) →
    ∀ q, ((run c ls).shared.queues q).lock = 0 → CacheExact c ((run c ls).shared.queues q)
  /-- When calls do not overlap and the clock does not go backwards, a pop that `try_pop` serves
  returns an element with the smallest tick of all elements of its candidates. -/
  smallest : EnoughSlots c n → ∀ (calls : List (Call T n)) t choices q v, Complete c calls →
    (∀ time ∈ times (steps calls), time < maxWord) → (times (steps calls)).Pairwise (· ≤ ·) →
    ServedByTryPop c calls t choices q v →
    TakesSmallest c (after c calls).shared.queues
      (candidate c (after c (calls ++ [⟨t, .pop, choices⟩])).shared
        ((after c (calls ++ [⟨t, .pop, choices⟩])).locals t)) q v

theorem isChain_of_forall {ok : Nat → Prop} {now : Nat} {times : List Nat}
    (h : ∀ time ∈ times, ok time) : (now :: times).IsChain fun _ time => ok time := by
  induction times generalizing now with
  | nil => exact List.isChain_singleton _
  | cons time times ih =>
      refine List.isChain_cons_cons.mpr ⟨h time List.mem_cons_self, ih fun t ht => ?_⟩
      exact h t (List.mem_cons_of_mem _ ht)

theorem isChain_zero_of_pairwise {times : List Nat} (h : times.Pairwise (· ≤ ·)) :
    (0 :: times).IsChain fun now time => now ≤ time :=
  (List.pairwise_cons.mpr ⟨fun _ _ => Nat.zero_le _, h⟩).isChain

section Free

variable [Inhabited T] {n : Nat} (ls : List (Fin n × Action T)) (q : Nat)

theorem cached_run (hmode : c.mode ≠ .stickRandomSymmetric)
    (hlock : ((run c ls).shared.queues q).lock = 0) : Cached c ((run c ls).shared.queues q) :=
  ((guarded_cached hmode).run rfl ls (isChain_of_forall fun _ _ => trivial)).free q hlock

theorem stamped_run (c : Config) (P : Nat → Prop) (hclock : ∀ time ∈ times ls, P time)
    (hlock : ((run c ls).shared.queues q).lock = 0) :
    ∀ tick ∈ ((run c ls).shared.queues q).ticks c, P tick :=
  ((guarded_lasting (lasting_forall P) c).run nofun ls (isChain_of_forall hclock)).free q hlock

theorem sorted_run (c : Config) (hclock : (times ls).Pairwise (· ≤ ·))
    (hlock : ((run c ls).shared.queues q).lock = 0) :
    (((run c ls).shared.queues q).ticks c).Pairwise (· ≤ ·) :=
  (((guarded_lasting lasting_sorted c).run ⟨List.Pairwise.nil, nofun⟩ ls
    (isChain_zero_of_pairwise hclock)).free q hlock).1

end Free

/-- **In `StickRandom` and `StickSwap` the cached tick is exact whenever the lock is free**, and so
pops take the smallest tick of their candidates. -/
theorem tickCache [Inhabited T] (c : Config) (hmode : c.mode ≠ .stickRandomSymmetric) (n : Nat) :
    TickCache T c n where
  exact ls hclock q hlock :=
    (cached_run ls q hmode hlock).exact ((lockOutline_run c ls).shared.queue q)
      (stamped_run ls q c (· < maxWord) hclock hlock)
  smallest hslots calls t choices q v hcalls hclock hsorted hserved := by
    obtain ⟨pick, hserved⟩ := hserved
    have hquiet := quiet_after hslots hcalls
    have hlocks := lockOutline_run c (steps calls)
    have hchoosing := hquiet.choosing hslots t .pop choices
    obtain ⟨hcalled, -⟩ := hquiet.called hslots t .pop choices
    rw [hserved] at hchoosing
    rw [show ((after c (calls ++ [⟨t, .pop, choices⟩])).locals t).pc = _ from hserved] at hcalled
    -- a pop does not draw
    have hchosen : Chosen c .pop (after c calls).shared.queues
        (candidate c (after c (calls ++ [⟨t, .pop, choices⟩])).shared
          ((after c (calls ++ [⟨t, .pop, choices⟩])).locals t)) q := by
      cases pick with
      | none => exact hchoosing
      | some p => exact absurd hchoosing.1 nofun
    obtain ⟨-, -, queue, hqs, -, -, hpushed, hpopped⟩ := hcalled
    refine ⟨hchosen.candidate, ?_⟩
    -- the value is the oldest one of the queue
    have hqueue : QueueOk c queue := by
      have hafter := (lockOutline_run c (steps (calls ++ [⟨t, .pop, choices⟩]))).shared.queue q
      change QueueOk c ((after c (calls ++ [⟨t, .pop, choices⟩])).shared.queues q) at hafter
      rwa [hqs, Function.update_self] at hafter
    have htop : ((after c calls).shared.queues q).contents c = v :: queue.contents c :=
      (hlocks.shared.queue q).contents_pop hqueue hpushed hpopped
    rw [← Queue.elements_value] at htop
    cases helements : ((after c calls).shared.queues q).elements c with
    | nil => rw [helements] at htop; cases htop
    | cons e rest =>
        rw [helements] at htop
        obtain ⟨tick, value⟩ := e
        obtain rfl : value = v := (List.cons.inj htop).1
        refine ⟨tick, rest, rfl, fun i hi e he => ?_⟩
        have hcached := fun q => cached_run (steps calls) q hmode (hquiet.free q)
        have hexact := (hcached q).exact (hlocks.shared.queue q)
          (stamped_run (steps calls) q c (· < maxWord) hclock (hquiet.free q))
        have hfront := hexact.front _ _ helements
        calc tick = ((after c calls).shared.queues q).oldestTick := hfront.symm
          _ ≤ _ := hchosen.least i hi
          _ ≤ e.tick := oldest_le (hlocks.shared.queue _) (hcached _)
              (sorted_run (steps calls) _ c hsorted (hquiet.free _)) he

/-- Two queues that are both candidates. -/
def randomBoth : Config where
  mode := .stickRandom
  numQueues := 2
  numPopCandidates := 2
  size := 4
  stickiness := 3
  guardSize := 128
  elementSize := 16
  numQueues_pos := Nat.two_pos
  numQueues_lt := two_lt_int
  numPopCandidates_pos := Nat.two_pos
  size_lt := four_lt_word
  share_le := by decide

/-- 7 goes to queue 1 at the time 5, then 8 to queue 0 at the time 6. -/
def pushBoth : List (Call Nat 1) :=
  [⟨0, .push 7, (0, 5, false) :: (0, 5, false) :: List.replicate 16 (1, 5, false)⟩] ++
    [⟨0, .push 8, List.replicate 15 (0, 6, false)⟩]

/-- The pop after them is served with the 7. -/
theorem tickCache_pushBoth :
    Complete randomBoth pushBoth ∧
      ServedByTryPop randomBoth pushBoth 0 (List.replicate 14 (0, 6, false)) 1 7 ∧
      TakesSmallest randomBoth (after randomBoth pushBoth).shared.queues
        (candidate randomBoth
          (after randomBoth (pushBoth ++ [⟨0, .pop, List.replicate 14 (0, 6, false)⟩])).shared
          ((after randomBoth (pushBoth ++ [⟨0, .pop, List.replicate 14 (0, 6, false)⟩])).locals 0))
        1 7 := by
  have hcomplete : Complete randomBoth pushBoth :=
    .concat (.concat .nil (by decide +kernel : (resultOf randomBoth [] _).resting = true))
      (by decide +kernel)
  have hserved : ServedByTryPop randomBoth pushBoth 0 (List.replicate 14 (0, 6, false)) 1 7 :=
    ⟨none, by decide +kernel⟩
  refine ⟨hcomplete, hserved, ?_⟩
  exact (tickCache randomBoth (by decide) 1).smallest nofun pushBoth 0 _ 1 7 hcomplete
    (by decide +kernel) (by decide +kernel) hserved

end RelaxedConcurrentFifo.MultiFifo
