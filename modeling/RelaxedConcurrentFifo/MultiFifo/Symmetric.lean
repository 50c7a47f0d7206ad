/-
# RelaxedConcurrentFifo.MultiFifo.Symmetric — the two cached ticks of `StickRandomSymmetric`

The symmetric mode caches two ticks of a queue: that of its oldest element, which pops compare, and
that of its newest one, which pushes compare. `pushed` reads the newest element with `bottom_elem`,
through `head`, AFTER `head` has been counted up; so it reads the slot behind the element that was
just pushed. With one slot per queue that is the same slot. With more it is the next one, which after
the very first push holds a zero tick.

So the caches are exact in every sequence of calls exactly if queues have one slot (or if no call ever
returns, because there are more candidates than queues).
-/
import RelaxedConcurrentFifo.MultiFifo.Candidates
import RelaxedConcurrentFifo.MultiFifo.Ticks

namespace RelaxedConcurrentFifo.MultiFifo

open RelaxedConcurrentFifo.Lib.Interleaving
open RelaxedConcurrentFifo.Lib.Words

variable {T : Type} {c : Config} {m : Shared T} {h : Handle T} {op : Op T}

/-! ## §1 — queues with one slot -/

/-- Both caches are exact. -/
structure BothCached (c : Config) (q : Queue T) : Prop where
  oldest : q.oldestTick = (q.ticks c).headD maxWord
  newest : q.newestTick = (q.ticks c).getLastD 0

/-- What holds of the caches of a queue with one slot, at each stage of the symmetric mode. -/
def BothCachedAt (c : Config) (q : Queue T) : Stage T → Prop
  | .bottomHead | .bottomTick _ => q.Nonempty
  | .storeNewest tick => q.ticks c = [tick]
  | .sizeHead tick => q.ticks c = [tick] ∧ q.newestTick = tick
  | .sizeTail tick head => q.ticks c = [tick] ∧ q.newestTick = tick ∧ head = q.head
  | .storeOldest tick => q.ticks c = [tick] ∧ q.newestTick = tick
  | .emptyHead _ => ¬ q.Nonempty
  | .emptyTail _ head => ¬ q.Nonempty ∧ head = q.head
  | .poppedOldest _ tick empty => ¬ q.Nonempty ∧ tick = maxWord ∧ empty = true
  | .poppedNewest _ => ¬ q.Nonempty ∧ q.oldestTick = maxWord
  | .pushedOldest | .pushedTail | .pushedTick _ | .frontTail _ | .frontTick _ _ => False
  | _ => BothCached c q

section OneSlot

variable {q : Queue T} (hone : c.sizePerQueue = 1)

include hone

/-- The element of a queue with one slot stands in slot 0. -/
theorem ticks_oneSlot (hq : QueueOk c q) (hne : q.Nonempty) : q.ticks c = [(q.buffer 0).tick] := by
  have hroom := hq.room
  unfold Queue.Nonempty at hne
  have hlen : q.pushed.length - q.popped.length = 1 := by omega
  unfold Queue.ticks Queue.tickAt
  rw [hlen, hone]
  simp only [List.range'_one, List.map_cons, List.map_nil, Nat.mod_one]

/-- What has one element too many for a pop to leave something behind. -/
theorem empty_pop_oneSlot (hq : QueueOk c q) (v : T) (tail : Nat) :
    ¬ Queue.Nonempty { q with tail := tail, popped := q.popped ++ [v] } := by
  have hroom := hq.room
  unfold Queue.Nonempty
  dsimp only
  rw [List.length_append, List.length_singleton]
  omega

theorem access_bothCached (hmode : c.mode = .stickRandomSymmetric) {time : Nat}
    {stage stage' : Stage T} (hq : QueueOk c q) (hstage : StageOk c op q stage)
    (h : BothCachedAt c q stage) (hstay : (q.access c op time stage).2 = .stay stage') :
    BothCachedAt c (q.access c op time stage).1 stage' := by
  have hempty : ∀ {q' : Queue T}, ¬ q'.Nonempty → q'.ticks c = [] := Queue.ticks_eq_nil_iff.mpr
  cases stage with
  | checkTail head =>
      cases hstay
      show BothCachedAt c q (checked c op head q.tail)
      unfold checked
      cases op with
      | push v => dsimp only; split <;> exact h
      | pop => dsimp only; split <;> exact h
  | pushWrite tick head =>
      cases op with
      | pop => cases hstay; exact h
      | push v =>
          obtain ⟨rfl, hroom⟩ := hstage
          cases hstay
          have hticks := hq.ticks_write hroom ⟨tick, v⟩
          exact ⟨h.oldest.trans (by rw [← hticks]; rfl), h.newest.trans (by rw [← hticks]; rfl)⟩
  | pushStore head =>
      cases op with
      | pop => cases hstay; exact h
      | push v =>
          have hle := hq.le
          dsimp only [Queue.access] at hstay ⊢
          rw [if_pos hmode] at hstay
          cases hstay
          show q.popped.length < (q.pushed ++ [v]).length
          rw [List.length_append, List.length_singleton]
          omega
  | bottomHead => cases hstay; exact h
  | bottomTick head =>
      cases hstay
      show q.ticks c = [(q.buffer (head &&& c.mask)).tick]
      rw [ticks_oneSlot hone hq h, Config.mask, hone, Nat.sub_self, Nat.and_zero]
  | storeNewest tick => cases hstay; exact ⟨h, rfl⟩
  | sizeHead tick => cases hstay; exact ⟨h.1, h.2, rfl⟩
  -- with one slot the element just pushed is the only one
  | sizeTail tick head =>
      obtain ⟨hticks, hnewest, rfl⟩ := h
      have hsize : sub64 q.head q.tail = 1 := by
        rw [hq.sub64_eq, ← Queue.length_ticks (c := c), hticks, List.length_singleton]
      dsimp only [Queue.access] at hstay ⊢
      rw [if_pos hsize] at hstay
      cases hstay
      exact ⟨hticks, hnewest⟩
  | storeOldest tick =>
      obtain ⟨hticks, hnewest⟩ := h
      have hticks' : Queue.ticks c { q with oldestTick := tick } = [tick] := hticks
      cases hstay
      refine ⟨?_, ?_⟩
      · dsimp only [Queue.access]
        rw [hticks']
        rfl
      · dsimp only [Queue.access]
        rw [hticks', hnewest]
        rfl
  | popStore v tail => cases hstay; exact empty_pop_oneSlot hone hq v _
  | emptyHead v => cases hstay; exact ⟨h, rfl⟩
  | emptyTail v head =>
      obtain ⟨hnone, rfl⟩ := h
      have heq : q.head = q.tail := by
        by_contra hne
        exact hnone (hq.nonempty_iff.mpr hne)
      dsimp only [Queue.access] at hstay ⊢
      rw [if_pos heq] at hstay
      cases hstay
      exact ⟨hnone, rfl, rfl⟩
  | poppedOldest v tick empty =>
      obtain ⟨hnone, rfl, rfl⟩ := h
      dsimp only [Queue.access] at hstay ⊢
      -- with one slot a pop leaves the queue empty, so the newest tick is written too
      rw [if_pos ⟨hmode, rfl⟩] at hstay
      cases hstay
      exact ⟨hnone, rfl⟩
  | poppedNewest v =>
      obtain ⟨hnone, holdest⟩ := h
      have hticks : Queue.ticks c { q with newestTick := 0 } = [] := hempty hnone
      cases hstay
      refine ⟨?_, ?_⟩
      · dsimp only [Queue.access]
        rw [hticks, holdest]
        rfl
      · dsimp only [Queue.access]
        rw [hticks]
        rfl
  | pushedOldest => exact h.elim
  | pushedTail => exact h.elim
  | pushedTick tail => exact h.elim
  | frontTail v => exact h.elim
  | frontTick v tail => exact h.elim
  | unlockRejected => cases hstay
  | unlockPushed => cases hstay
  | unlockPopped v => cases hstay
  | _ => cases hstay; exact h

/-- With one slot per queue, both caches are exact while the lock is free. -/
theorem guarded_bothCached (hmode : c.mode = .stickRandomSymmetric) :
    Guarded (T := T) c (fun _ _ => True) (fun _ => BothCached c) (fun _ _ => BothCachedAt c) where
  later _ h := h
  laterInside _ h := h
  enter h := ⟨h.oldest, h.newest⟩
  stay _ hq hstage h hstay := access_bothCached hone hmode hq hstage h hstay
  left _ _ _ h hleft := by
    obtain ⟨hunlock, heq⟩ := access_left hleft
    rw [heq]
    obtain rfl | rfl | ⟨v, rfl⟩ := hunlock
    · exact ⟨h.oldest, h.newest⟩
    · exact ⟨h.oldest, h.newest⟩
    · exact ⟨h.oldest, h.newest⟩

end OneSlot

/-! ## §2 — the first push to a queue with more slots -/

/-- A queue that was never used has zero ticks in its slots. -/
def Untouched (q : Queue T) : Prop := q.popped = [] → q.pushed = [] → ∀ i, (q.buffer i).tick = 0

/-- After the first push the newest tick is zero. -/
def Missed (q : Queue T) : Prop := q.popped = [] → q.pushed.length = 1 → q.newestTick = 0

/-- What the first push makes of a queue, at each stage. -/
def MissedAt (q : Queue T) : Stage T → Prop
  | .pushLoad | .pushStore _ =>
      Missed q ∧ (q.popped = [] → q.pushed = [] → ∀ i, i ≠ 0 → (q.buffer i).tick = 0)
  | .bottomHead => q.pushed ≠ [] ∧ (q.popped = [] → q.pushed.length = 1 → (q.buffer 1).tick = 0)
  | .bottomTick head => head = q.head ∧ q.pushed ≠ [] ∧
      (q.popped = [] → q.pushed.length = 1 → (q.buffer 1).tick = 0)
  | .storeNewest tick => q.pushed ≠ [] ∧ (q.popped = [] → q.pushed.length = 1 → tick = 0)
  | .sizeHead _ | .sizeTail _ _ | .storeOldest _ | .unlockPushed => q.pushed ≠ [] ∧ Missed q
  | .emptyHead _ | .emptyTail _ _ | .frontTail _ | .frontTick _ _ | .poppedOldest _ _ _
  | .poppedNewest _ | .unlockPopped _ => q.popped ≠ []
  | .pushedOldest | .pushedTail | .pushedTick _ => False
  | _ => Untouched q ∧ Missed q

section MoreSlots

variable {q : Queue T} (hmore : c.sizePerQueue ≠ 1)

include hmore

theorem access_missed (hmode : c.mode = .stickRandomSymmetric) {time : Nat}
    {stage stage' : Stage T} (hq : QueueOk c q) (hstage : StageOk c op q stage)
    (h : MissedAt q stage) (hstay : (q.access c op time stage).2 = .stay stage') :
    MissedAt (q.access c op time stage).1 stage' := by
  cases stage with
  | checkTail head =>
      cases hstay
      show MissedAt q (checked c op head q.tail)
      unfold checked
      cases op with
      | push v => dsimp only; split <;> exact h
      | pop => dsimp only; split <;> exact h
  | pushWrite tick head =>
      cases op with
      | pop => cases hstay; exact h
      | push v =>
          obtain ⟨rfl, -⟩ := hstage
          cases hstay
          refine ⟨h.2, fun hpopped hpushed i hi => ?_⟩
          change q.pushed = [] at hpushed
          -- the first slot is the one that is written
          have hslot : q.head &&& c.mask = 0 := by
            rw [hq.head, hpushed, and_mask]
            exact Nat.zero_mod _
          dsimp only [Queue.access]
          rw [hslot, Function.update_of_ne hi]
          exact h.1 hpopped hpushed i
  | pushLoad => cases hstay; exact h
  | pushStore head =>
      cases op with
      | pop => cases hstay; exact h
      | push v =>
          dsimp only [Queue.access] at hstay ⊢
          rw [if_pos hmode] at hstay
          cases hstay
          refine ⟨List.append_ne_nil_of_right_ne_nil _ (List.cons_ne_nil _ _), ?_⟩
          intro hpopped hlength
          dsimp only at hlength
          rw [List.length_append, List.length_singleton] at hlength
          exact h.2 hpopped (List.length_eq_zero_iff.mp (by omega)) 1 (by decide)
  | bottomHead => cases hstay; exact ⟨rfl, h⟩
  | bottomTick head =>
      obtain ⟨rfl, hpushed, hslot⟩ := h
      cases hstay
      refine ⟨hpushed, fun hpopped hlength => ?_⟩
      change q.pushed.length = 1 at hlength
      have hpos := c.sizePerQueue_pos
      -- `bottom_elem` reads at `head`, the slot behind the element: the second one
      have hsecond : q.head &&& c.mask = 1 := by
        rw [hq.head, hlength, and_mask]
        exact Nat.mod_eq_of_lt (by omega)
      rw [hsecond]
      exact hslot hpopped hlength
  | storeNewest tick => cases hstay; exact ⟨h.1, h.2⟩
  | sizeHead tick => cases hstay; exact h
  | sizeTail tick head =>
      dsimp only [Queue.access] at hstay
      split at hstay <;> cases hstay <;> exact h
  | storeOldest tick => cases hstay; exact ⟨h.1, h.2⟩
  | popStore v tail => cases hstay; exact List.append_ne_nil_of_right_ne_nil _ (List.cons_ne_nil _ _)
  | emptyHead v => cases hstay; exact h
  | emptyTail v head =>
      dsimp only [Queue.access] at hstay
      split at hstay <;> cases hstay <;> exact h
  | frontTail v => cases hstay; exact h
  | frontTick v tail => cases hstay; exact h
  | poppedOldest v tick empty =>
      dsimp only [Queue.access] at hstay
      split at hstay <;> cases hstay <;> exact h
  | poppedNewest v => cases hstay; exact h
  | pushedOldest => exact h.elim
  | pushedTail => exact h.elim
  | pushedTick tail => exact h.elim
  | unlockRejected => cases hstay
  | unlockPushed => cases hstay
  | unlockPopped v => cases hstay
  | _ => cases hstay; exact h

/-- With more slots per queue, the first push leaves a zero as the newest tick. -/
theorem guarded_missed (hmode : c.mode = .stickRandomSymmetric) :
    Guarded (T := T) c (fun _ _ => True) (fun _ q => Untouched q ∧ Missed q)
      (fun _ _ => MissedAt) where
  later _ h := h
  laterInside _ h := h
  enter h := h
  stay _ hq hstage h hstay := access_missed hmore hmode hq hstage h hstay
  left _ _ _ h hleft := by
    obtain ⟨hunlock, heq⟩ := access_left hleft
    rw [heq]
    obtain rfl | rfl | ⟨v, rfl⟩ := hunlock
    · exact h
    · exact ⟨fun _ hpushed => absurd hpushed h.1, h.2⟩
    · exact ⟨fun hpopped => absurd hpopped h, fun hpopped => absurd hpopped h⟩

end MoreSlots

/-! ## §3 — more candidates than queues -/

/-- A handle that draws its first candidates: they are different queues. -/
def Drawing (c : Config) (h : Handle T) : Prop :=
  (h.count = 0 ∧ ∃ op, h.pc = .begin op) ∨
    ∃ op pick i, h.pc = .refresh op pick i ∧ (∀ j < i, h.popIndex j < c.numQueues) ∧
      ∀ j < i, ∀ k < i, h.popIndex j = h.popIndex k → j = k

theorem drawing_go (hmode : c.mode ≠ .stickSwap) (hmany : c.numQueues < c.numPopCandidates)
    (random time : Nat) (spurious : Bool) (hdrawing : Drawing c h) :
    Drawing c (go c random time spurious m h).2 := by
  rcases hdrawing with ⟨hcount, op, hpc⟩ | ⟨op, pick, i, hpc, hlt, hinj⟩
  · refine .inr ⟨op, none, 0, ?_, fun j hj => absurd hj (Nat.not_lt_zero j),
      fun j hj => absurd hj (Nat.not_lt_zero j)⟩
    simp only [go, hpc, hcount, if_true]
    exact assign_eq hmode op none
  · have hdistinct : Distinct c.numQueues h.popIndex i := ⟨hlt, hinj⟩
    have hi : i < c.numPopCandidates := hdistinct.le.trans_lt hmany
    simp only [go, hpc, if_pos hi]
    split
    · exact .inr ⟨op, pick, i, hpc, hlt, hinj⟩
    · rename_i hnew
      have hfresh : ∀ j < i, h.popIndex j ≠ random % c.numQueues := by
        intro j hj heq
        exact hnew (List.any_eq_true.mpr ⟨j, List.mem_range.mpr hj, beq_iff_eq.mpr heq⟩)
      have hnext := hdistinct.update (Nat.mod_lt _ c.numQueues_pos) hfresh
      exact .inr ⟨op, pick, i + 1, rfl, hnext.lt, hnext.inj⟩

/-- **With more candidates than queues no call ever returns.** -/
theorem complete_eq_nil [Inhabited T] {n : Nat} (hmode : c.mode ≠ .stickSwap)
    (hmany : c.numQueues < c.numPopCandidates) {calls : List (Call T n)}
    (hcomplete : Complete c calls) : calls = [] := by
  induction hcomplete with
  | nil => rfl
  | @concat calls call hcalls hreturned ih =>
      subst ih
      obtain ⟨t, op, choices⟩ := call
      have hquiet : Quiet (after c ([] : List (Call T n))) := ⟨fun _ => rfl, fun _ => rfl⟩
      have hdrawing : Drawing c ((after c ([] ++ [⟨t, op, choices⟩])).locals t) := by
        clear hreturned
        induction choices using List.reverseRecOn with
        | nil =>
            rw [hquiet.call t op]
            dsimp only
            rw [Function.update_self]
            exact .inl ⟨rfl, op, rfl⟩
        | append_singleton choices x ih =>
            rw [after_choice, Threads.step_locals_self]
            exact drawing_go hmode hmany x.1 x.2.1 x.2.2 ih
      unfold resultOf at hreturned
      rcases hdrawing with ⟨-, op', hpc⟩ | ⟨op', pick, i, hpc, -⟩
      · rw [hpc] at hreturned
        cases hreturned
      · rw [hpc] at hreturned
        cases hreturned

/-! ## §4 — when the caches are exact -/

/-- What the two caches say of a queue. -/
structure TicksExact (c : Config) (q : Queue T) : Prop where
  oldest : ∀ e rest, q.elements c = e :: rest → q.oldestTick = e.tick
  newest : ∀ rest e, q.elements c = rest ++ [e] → q.newestTick = e.tick
  empty : q.elements c = [] → q.oldestTick = maxWord ∧ q.newestTick = 0

/-- Queue `q` is a candidate, and no candidate has an older front. -/
structure OldestFront (c : Config) (qs : Nat → Queue T) (cand : Nat → Nat) (q : Nat) : Prop where
  candidate : ∃ i < c.numPopCandidates, q = cand i
  oldest : ∃ e rest, (qs q).elements c = e :: rest ∧ ∀ i < c.numPopCandidates, ∀ e' rest',
    (qs (cand i)).elements c = e' :: rest' → e.tick ≤ e'.tick

/-- Queue `q` is a candidate; it is empty, or no candidate has an older newest element. -/
structure OldestNewest (c : Config) (qs : Nat → Queue T) (cand : Nat → Nat) (q : Nat) : Prop where
  candidate : ∃ i < c.numPopCandidates, q = cand i
  oldest : ∀ rest e, (qs q).elements c = rest ++ [e] → ∀ i < c.numPopCandidates, ∃ rest' e',
    (qs (cand i)).elements c = rest' ++ [e'] ∧ e.tick ≤ e'.tick

/-- The clock shows neither of the two ticks that stand for an empty queue. -/
def ClockOk (times : List Nat) : Prop := ∀ time ∈ times, 0 < time ∧ time < maxWord

/-- What the two caches are meant for: they are exact after every sequence of complete calls, so a pop
locks the candidate with the oldest front and a push the one whose newest element is oldest. -/
structure SymmetricCache (T : Type) [Inhabited T] (c : Config) : Prop where
  exact : ∀ n (calls : List (Call T n)), Complete c calls → ClockOk (times (steps calls)) →
    ∀ q < c.numQueues, TicksExact c ((after c calls).shared.queues q)
  pop : ∀ n (calls : List (Call T n)), Complete c calls → ClockOk (times (steps calls)) →
    ∀ t choices pick q stage,
    resultOf c calls ⟨t, .pop, choices⟩ = .inside .pop (.fast pick) q stage →
    OldestFront c (after c calls).shared.queues
      (candidate c (after c (calls ++ [⟨t, .pop, choices⟩])).shared
        ((after c (calls ++ [⟨t, .pop, choices⟩])).locals t)) q
  push : ∀ n (calls : List (Call T n)), Complete c calls → ClockOk (times (steps calls)) →
    ∀ t v choices pick q stage,
    resultOf c calls ⟨t, .push v, choices⟩ = .inside (.push v) (.fast pick) q stage →
    OldestNewest c (after c calls).shared.queues
      (candidate c (after c (calls ++ [⟨t, .push v, choices⟩])).shared
        ((after c (calls ++ [⟨t, .push v, choices⟩])).locals t)) q

theorem BothCached.exact {q : Queue T} (hq : QueueOk c q) (h : BothCached c q) : TicksExact c q := by
  have hticks := hq.elements_tick
  refine ⟨fun e rest helements => ?_, fun rest e helements => ?_, fun helements => ?_⟩
  · rw [h.oldest, ← hticks, helements]
    rfl
  · rw [h.newest, ← hticks, helements, List.map_append]
    exact List.getLastD_concat ..
  · rw [h.oldest, h.newest, ← hticks, helements]
    exact ⟨rfl, rfl⟩

section Picks

variable {qs : Nat → Queue T} {cand : Nat → Nat} {q : Nat}

theorem Chosen.oldestFront (hexact : ∀ q, TicksExact c (qs q)) (h : Chosen c .pop qs cand q) :
    OldestFront c qs cand q := by
  refine ⟨h.candidate, ?_⟩
  cases helements : (qs q).elements c with
  | nil => exact absurd ((hexact q).empty helements).1 (h.marked rfl)
  | cons e rest =>
      refine ⟨e, rest, rfl, fun i hi e' rest' helements' => ?_⟩
      have hle : (qs q).oldestTick ≤ (qs (cand i)).oldestTick := h.least i hi
      rwa [(hexact q).oldest e rest helements, (hexact _).oldest e' rest' helements'] at hle

theorem Chosen.oldestNewest {v : T} (hexact : ∀ q, TicksExact c (qs q))
    (hstamped : ∀ q, ∀ e ∈ (qs q).elements c, 0 < e.tick) (h : Chosen c (.push v) qs cand q) :
    OldestNewest c qs cand q := by
  refine ⟨h.candidate, fun rest e helements i hi => ?_⟩
  have hle : (qs q).newestTick ≤ (qs (cand i)).newestTick := h.least i hi
  rw [(hexact q).newest rest e helements] at hle
  have hpos := hstamped q e (by rw [helements]; exact List.mem_append_right _ List.mem_cons_self)
  rcases List.eq_nil_or_concat ((qs (cand i)).elements c) with hnil | ⟨rest', e', hlast⟩
  · -- an empty candidate would have been taken
    rw [((hexact _).empty hnil).2] at hle
    omega
  · rw [List.concat_eq_append] at hlast
    rw [(hexact _).newest rest' e' hlast] at hle
    exact ⟨rest', e', hlast, hle⟩

end Picks

theorem times_call {n : Nat} (t : Fin n) (op : Op T) (choices : List (Nat × Nat × Bool)) :
    times (steps [⟨t, op, choices⟩]) = choices.map fun x => x.2.1 := by
  unfold times steps Call.actions
  rw [List.flatMap_singleton, List.map_cons, List.filterMap_cons_none (by cases op <;> rfl),
    List.map_map, List.filterMap_map]
  exact congrFun List.filterMap_eq_map choices

section Exact

variable [Inhabited T] {n : Nat}

/-- What a call in the symmetric mode has chosen once it is inside. -/
theorem chosen_inside (hmode : c.mode = .stickRandomSymmetric) {calls : List (Call T n)}
    (hquiet : Quiet (after c calls)) {t : Fin n} {op : Op T} {choices : List (Nat × Nat × Bool)}
    {pick : Option Nat} {q : Nat} {stage : Stage T}
    (hinside : resultOf c calls ⟨t, op, choices⟩ = .inside op (.fast pick) q stage) :
    Chosen c op (after c calls).shared.queues
      (candidate c (after c (calls ++ [⟨t, op, choices⟩])).shared
        ((after c (calls ++ [⟨t, op, choices⟩])).locals t)) q := by
  have hslots : EnoughSlots c n := fun hswap => absurd (hmode.symm.trans hswap) nofun
  have hchoosing := hquiet.choosing hslots t op choices
  rw [hinside] at hchoosing
  cases pick with
  | none => exact hchoosing
  | some p => exact absurd hmode hchoosing.2

theorem bothCached_fresh : BothCached c (Queue.fresh : Queue T) := ⟨rfl, rfl⟩

/-- The caches are exact where queues have one slot, and where no call returns. -/
theorem bothCached_after (hmode : c.mode = .stickRandomSymmetric)
    (hcondition : c.sizePerQueue = 1 ∨ c.numQueues < c.numPopCandidates) {calls : List (Call T n)}
    (hcomplete : Complete c calls) (q : Nat) : BothCached c ((after c calls).shared.queues q) := by
  have hswap : c.mode ≠ .stickSwap := by rw [hmode]; exact nofun
  rcases hcondition with hone | hmany
  · have hquiet := quiet_after (fun h => absurd h hswap) hcomplete
    exact ((guarded_bothCached hone hmode).run bothCached_fresh (steps calls)
      (isChain_of_forall fun _ _ => trivial)).free q (hquiet.free q)
  · obtain rfl := complete_eq_nil hswap hmany hcomplete
    exact bothCached_fresh

/-- In a fresh queue there is room, so the first push is successful. -/
theorem first_push_accepted (hslots : EnoughSlots c n) {t : Fin n} {v : T}
    {choices : List (Nat × Nat × Bool)}
    (hreturned : (resultOf c [] ⟨t, .push v, choices⟩).resting = true) :
    ∃ q < c.numQueues, ∃ queue, (after c ([] ++ [⟨t, .push v, choices⟩])).shared.queues q = queue ∧
      queue.lock = 0 ∧ queue.pushed = [v] ∧ queue.popped = [] := by
  have hquiet : Quiet (after c ([] : List (Call T n))) := ⟨fun _ => rfl, fun _ => rfl⟩
  obtain ⟨hcalled, -⟩ := hquiet.called hslots t (.push v) choices
  unfold resultOf at hreturned
  cases hpc : ((after c ([] ++ [⟨t, .push v, choices⟩])).locals t).pc with
  | pushReturned result =>
      rw [hpc] at hcalled
      cases result with
      | true =>
          obtain ⟨w, q, queue, hop, hq, hqs, hlock, hpushed, hpopped⟩ := hcalled
          cases hop
          exact ⟨q, hq, queue, by rw [hqs, Function.update_self], hlock, hpushed, hpopped⟩
      | false =>
          obtain ⟨-, -, hreject⟩ := hcalled
          have hfull : sub64 0 0 = c.sizePerQueue := hreject 0 c.numQueues_pos
          rw [show sub64 0 0 = 0 by decide] at hfull
          exact absurd hfull c.sizePerQueue_pos.ne
  | popReturned result =>
      rw [hpc] at hcalled
      cases result with
      | none => exact absurd hcalled.1 nofun
      | some w =>
          obtain ⟨q, queue, hop, -⟩ := hcalled
          exact absurd hop nofun
  | idle => rw [hpc] at hcalled; exact hcalled.elim
  | _ => rw [hpc] at hreturned; cases hreturned

/-- With more slots, a single push gives a newest tick that is not that of the newest element. -/
theorem exists_not_exact (hmode : c.mode = .stickRandomSymmetric) (hmore : c.sizePerQueue ≠ 1)
    (hcandidates : c.numPopCandidates ≤ c.numQueues) :
    ∃ calls : List (Call T 1), Complete c calls ∧ ClockOk (times (steps calls)) ∧
      ∃ q < c.numQueues, ¬ TicksExact c ((after c calls).shared.queues q) := by
  have hswap : c.mode ≠ .stickSwap := by rw [hmode]; exact nofun
  have hslots : EnoughSlots c 1 := fun h => absurd h hswap
  have hquiet : Quiet (after c ([] : List (Call T 1))) := ⟨fun _ => rfl, fun _ => rfl⟩
  obtain ⟨choices, htimes, hreturned⟩ :=
    exists_complete hswap hcandidates hquiet 0 (.push default) 1 []
  rw [List.nil_append] at hreturned
  have hcomplete : Complete c ([] ++ [⟨0, .push default, choices⟩]) := .concat .nil hreturned
  have hclock : ClockOk (times (steps ([] ++ [⟨0, .push (default : T), choices⟩] : List (Call T 1)))) := by
    intro time hmem
    rw [List.nil_append, times_call] at hmem
    obtain ⟨x, hx, rfl⟩ := List.mem_map.mp hmem
    rw [htimes x hx]
    decide
  obtain ⟨q, hq, queue, hqueue, hlock, hpushed, hpopped⟩ := first_push_accepted hslots hreturned
  refine ⟨_, hcomplete, hclock, q, hq, fun hexact => ?_⟩
  generalize ([] ++ [⟨0, .push default, choices⟩] : List (Call T 1)) = calls at *
  unfold after at hqueue hexact
  have hfree : ((run c (steps calls)).shared.queues q).lock = 0 := by rw [hqueue, hlock]
  -- the newest tick is that of the slot behind the element
  have hmissed := ((guarded_missed hmore hmode).run
    ⟨fun _ _ _ => rfl, fun _ hlength => absurd hlength Nat.zero_ne_one⟩ (steps calls)
    (isChain_of_forall fun _ _ => trivial)).free q hfree
  have hstamped := stamped_run (steps calls) q c (fun time => 0 < time)
    (fun time hmem => (hclock time hmem).1) hfree
  have hok := (lockOutline_run c (steps calls)).shared.queue q
  rw [hqueue] at hexact hmissed hstamped hok
  have hzero : queue.newestTick = 0 := hmissed.2 hpopped (by rw [hpushed]; rfl)
  have hlength : (queue.elements c).length = 1 := by
    rw [← List.length_map (f := Element.tick), hok.elements_tick, Queue.length_ticks, hpushed, hpopped]
    rfl
  obtain ⟨e, helements⟩ := List.length_eq_one_iff.mp hlength
  have htick := hexact.newest [] e helements
  -- the clock has never been `0`
  have hpos : 0 < e.tick := by
    apply hstamped
    rw [← hok.elements_tick, helements]
    exact List.mem_cons_self
  omega

end Exact

/-- **In the symmetric mode the two caches are exact after every sequence of complete calls exactly if
a queue has one slot**, or if there are more candidates than queues, so that no call returns. -/
theorem symmetricCache_iff [Inhabited T] (c : Config) (hmode : c.mode = .stickRandomSymmetric) :
    SymmetricCache T c ↔ c.sizePerQueue = 1 ∨ c.numQueues < c.numPopCandidates := by
  constructor
  · intro h
    by_contra hnot
    obtain ⟨hmore, hcandidates⟩ := not_or.mp hnot
    obtain ⟨calls, hcomplete, hclock, q, hq, hwrong⟩ :=
      exists_not_exact (T := T) hmode hmore (Nat.le_of_not_lt hcandidates)
    exact hwrong (h.exact 1 calls hcomplete hclock q hq)
  · intro hcondition
    have hswap : c.mode ≠ .stickSwap := by rw [hmode]; exact nofun
    have hexact : ∀ n (calls : List (Call T n)), Complete c calls →
        ∀ q, TicksExact c ((after c calls).shared.queues q) := by
      intro n calls hcomplete q
      exact (bothCached_after hmode hcondition hcomplete q).exact
        ((lockOutline_run c (steps calls)).shared.queue q)
    refine ⟨fun n calls hcomplete _ q _ => hexact n calls hcomplete q, ?_, ?_⟩
    · intro n calls hcomplete hclock t choices pick q stage hinside
      have hquiet := quiet_after (fun h => absurd h hswap) hcomplete
      exact (chosen_inside hmode hquiet hinside).oldestFront (hexact n calls hcomplete)
    · intro n calls hcomplete hclock t v choices pick q stage hinside
      have hquiet := quiet_after (fun h => absurd h hswap) hcomplete
      refine (chosen_inside hmode hquiet hinside).oldestNewest (hexact n calls hcomplete) ?_
      intro q e hmem
      apply stamped_run (steps calls) q c (fun time => 0 < time) (fun time h => (hclock time h).1)
        (hquiet.free q)
      rw [← ((lockOutline_run c (steps calls)).shared.queue q).elements_tick]
      exact List.mem_map_of_mem hmem

/-- Two queues and one candidate, in the symmetric mode. -/
def symmetricPair (size : Nat) (hsize : size < 2 ^ 64)
    (hshare : (size + 2 - 1) % 2 ^ 64 / 2 ≤ 2 ^ 63) : Config where
  mode := .stickRandomSymmetric
  numQueues := 2
  numPopCandidates := 1
  size := size
  stickiness := 1
  guardSize := 128
  elementSize := 16
  numQueues_pos := Nat.two_pos
  numQueues_lt := two_lt_int
  numPopCandidates_pos := Nat.one_pos
  size_lt := hsize
  share_le := hshare

/-- Room for two elements: one slot per queue. -/
theorem symmetricCache_two :
    (symmetricPair 2 (by decide) (by decide)).sizePerQueue = 1 ∧
      SymmetricCache Nat (symmetricPair 2 (by decide) (by decide)) := by
  have hone : (symmetricPair 2 (by decide) (by decide)).sizePerQueue = 1 := by decide +kernel
  exact ⟨hone, (symmetricCache_iff _ rfl).mpr (.inl hone)⟩

/-- 7 is pushed to queue 0 at the time 5. -/
def pushSeven : List (Call Nat 1) := [] ++ [⟨0, .push 7, List.replicate 20 (0, 5, false)⟩]

/-- Room for four elements: after the push of 7 at the time 5, the newest tick of queue 0 is 0. -/
theorem not_symmetricCache_four :
    ¬ SymmetricCache Nat (symmetricPair 4 (by decide) (by decide)) := by
  intro h
  have hcomplete : Complete (symmetricPair 4 (by decide) (by decide)) pushSeven :=
    .concat .nil (by decide +kernel)
  have hclock : ClockOk (times (steps pushSeven)) := by
    unfold ClockOk
    decide +kernel
  have hexact := h.exact 1 pushSeven hcomplete hclock 0 (by decide)
  have hnewest := hexact.newest [] ⟨5, 7⟩ (by decide +kernel)
  exact absurd hnewest (by decide +kernel)

end RelaxedConcurrentFifo.MultiFifo
