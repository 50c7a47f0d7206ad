/-
# RelaxedConcurrentFifo.ConcurrentFifo — `concurrent_fifo.h`

A ring of slots and two counters. A push draws a ticket from `head`, a pop one from `tail`; the slot
of a ticket is its remainder modulo the capacity, and the slot's epoch says whose turn it is: first
the push of ticket `k`, then the pop of ticket `k`, then the push of ticket `k + capacity`.

The turn-taking (`Phase`) is what makes the queue a strict FIFO although tickets are drawn long
before slots are touched: of all threads that wait at a slot, at most one push and one pop hold the
ticket whose turn it is. Whether a push is turned away is decided by an unsigned difference of a
`head` read earlier and a `tail` read now, which is the wrong way round once `tail` has passed the
former.
-/
import RelaxedConcurrentFifo.Lib.Interleaving
import RelaxedConcurrentFifo.Lib.Runs
import RelaxedConcurrentFifo.Lib.Words
import Mathlib.Data.List.Nodup
import Mathlib.Data.Nat.ModEq

namespace RelaxedConcurrentFifo.ConcurrentFifo

open RelaxedConcurrentFifo.Lib.Interleaving
open RelaxedConcurrentFifo.Lib.Runs
open RelaxedConcurrentFifo.Lib.Words

variable {T : Type} [Inhabited T]

/-! ## §1 — the program -/

/-- The loop of `is_po2`; 64 rounds are all that a 64-bit `it` has. -/
def isPo2Loop (size : Nat) : Nat → Nat → Bool
  | 0, it => it == size
  | fuel + 1, it => if it < size then isPo2Loop size fuel (it * 2 % 2 ^ 64) else it == size

def isPo2 (size : Nat) : Bool := isPo2Loop size 64 1

def moduloPo2 (dividend divisor : Nat) : Nat := dividend &&& (divisor - 1)

/-- A capacity that the constructor accepts. -/
structure Config where
  capacity : Nat
  po2 : isPo2 capacity = true

def slotToEpoch (index : Nat) (written : Bool) : Nat :=
  (index &&& compl64 (1 <<< 63)) ||| written.toNat <<< 63

/-- The last thing that happened in a slot. -/
inductive Phase where
  /-- It was handed over to the push of the ticket. -/
  | free (ticket : Nat)
  /-- That push has stored its value, but not the epoch. -/
  | stored (ticket : Nat)
  /-- It was handed over to the pop of the ticket. -/
  | full (ticket : Nat)
  /-- That pop has loaded the value, but not stored the epoch. -/
  | loaded (ticket : Nat)
  deriving DecidableEq, Repr

/-- The queue. The last three fields are history: which ticket pushed what, which pop returned what,
and the last event in each slot. No step reads them. -/
structure Shared (T : Type) where
  value : Nat → T
  epoch : Nat → Nat
  head : Nat
  tail : Nat
  pushed : List (Nat × T)
  popped : List (Nat × T)
  phase : Nat → Phase

/-- The point before each access to the queue; the first three are outside of a call. -/
inductive Pc (T : Type) where
  | start
  | pushReturned (result : Bool)
  | popReturned (result : Option T)
  | pushHead (t : T)
  | pushTail (t : T) (slot : Nat)
  | pushCas (t : T) (slot : Nat)
  | pushWait (t : T) (slot : Nat)
  | pushStore (t : T) (slot : Nat)
  | pushPublish (t : T) (slot : Nat)
  | popTail
  | popHead (slot : Nat)
  | popCas (slot : Nat)
  | popWait (slot : Nat)
  | popLoad (slot : Nat)
  | popRelease (slot : Nat) (ret : T)
  deriving DecidableEq, Repr

/-- A call, or the next access of the call that is running; a weak compare-exchange may fail for no
reason. -/
inductive Action (T : Type) where
  | push (t : T)
  | pop
  | go (spurious : Bool)
  deriving DecidableEq, Repr

def call : Action T → Pc T → Pc T
  | .push t, _ => .pushHead t
  | .pop, _ => .popTail
  | .go _, pc => pc

/-- The next access of a running call. -/
def access (c : Config) (spurious : Bool) (m : Shared T) : Pc T → Shared T × Pc T
  | .pushHead t => (m, .pushTail t m.head)
  | .pushTail t slot =>
      if sub64 slot m.tail ≥ c.capacity then (m, .pushReturned false) else (m, .pushCas t slot)
  | .pushCas t slot =>
      if m.head = slot ∧ spurious = false then
        ({ m with head := (slot + 1) % 2 ^ 64, pushed := m.pushed ++ [(slot, t)] }, .pushWait t slot)
      else (m, .pushTail t m.head)
  | .pushWait t slot =>
      if m.epoch (moduloPo2 slot c.capacity) ≠ slotToEpoch slot false then (m, .pushWait t slot)
      else (m, .pushStore t slot)
  | .pushStore t slot =>
      let index := moduloPo2 slot c.capacity
      ({ m with
          value := Function.update m.value index t
          phase := Function.update m.phase index (.stored slot) }, .pushPublish t slot)
  | .pushPublish _ slot =>
      let index := moduloPo2 slot c.capacity
      ({ m with
          epoch := Function.update m.epoch index (slotToEpoch slot true)
          phase := Function.update m.phase index (.full slot) }, .pushReturned true)
  | .popTail => (m, .popHead m.tail)
  | .popHead slot => if slot = m.head then (m, .popReturned none) else (m, .popCas slot)
  | .popCas slot =>
      if m.tail = slot ∧ spurious = false then
        ({ m with tail := (slot + 1) % 2 ^ 64 }, .popWait slot)
      else (m, .popHead m.tail)
  | .popWait slot =>
      if m.epoch (moduloPo2 slot c.capacity) ≠ slotToEpoch slot true then (m, .popWait slot)
      else (m, .popLoad slot)
  | .popLoad slot =>
      let index := moduloPo2 slot c.capacity
      ({ m with phase := Function.update m.phase index (.loaded slot) },
        .popRelease slot (m.value index))
  | .popRelease slot ret =>
      let index := moduloPo2 slot c.capacity
      ({ m with
          epoch := Function.update m.epoch index (slotToEpoch ((slot + c.capacity) % 2 ^ 64) false)
          popped := m.popped ++ [(slot, ret)]
          phase := Function.update m.phase index (.free (slot + c.capacity)) },
        .popReturned (some ret))
  | pc => (m, pc)

/-- One step of one thread: a call outside of calls, an access inside of one. -/
def stepThread (c : Config) (a : Action T) (m : Shared T) (pc : Pc T) : Shared T × Pc T :=
  match a, pc with
  | a, .start => (m, call a .start)
  | a, .pushReturned result => (m, call a (.pushReturned result))
  | a, .popReturned result => (m, call a (.popReturned result))
  | .go spurious, pc => access c spurious m pc
  | _, pc => (m, pc)

/-- The queue as its constructor leaves it. -/
def Shared.init (c : Config) : Shared T where
  value _ := default
  epoch i := if i < c.capacity then slotToEpoch i false else 0
  head := 0
  tail := 0
  pushed := []
  popped := []
  phase := .free

/-- A fresh queue and `n` threads. -/
def init (c : Config) (n : Nat) : Threads (Shared T) (Pc T) n := ⟨Shared.init c, fun _ => .start⟩

/-- The state after the steps `ls` on a fresh queue. -/
def run (c : Config) {n : Nat} (ls : List (Fin n × Action T)) : Threads (Shared T) (Pc T) n :=
  (init c n).run (stepThread c) ls

/-! ## §2 — capacities and epochs -/

theorem isPo2Loop_spec {size fuel j : Nat} (hsize : 0 < size) (hfuel : j + fuel = 64)
    (h : isPo2Loop size fuel (2 ^ j % 2 ^ 64) = true) : ∃ k ≤ 63, size = 2 ^ k := by
  induction fuel generalizing j with
  | zero =>
      rw [isPo2Loop, show j = 64 by omega, Nat.mod_self, beq_iff_eq] at h
      omega
  | succ fuel ih =>
      have hlt : 2 ^ j < 2 ^ 64 := Nat.pow_lt_pow_right (by norm_num) (by omega)
      rw [isPo2Loop, Nat.mod_eq_of_lt hlt] at h
      split at h
      · rw [← Nat.pow_succ] at h
        exact ih (by omega) h
      · exact ⟨j, by omega, (beq_iff_eq.mp h).symm⟩

/-- The constructor accepts the powers of two that fit into a word. -/
theorem Config.capacity_eq (c : Config) : ∃ k ≤ 63, c.capacity = 2 ^ k := by
  have hsize : 0 < c.capacity := by
    rw [Nat.pos_iff_ne_zero]
    intro h0
    have h := c.po2
    rw [h0] at h
    revert h
    decide
  exact isPo2Loop_spec (j := 0) hsize rfl c.po2

theorem Config.capacity_pos (c : Config) : 0 < c.capacity := by
  obtain ⟨k, -, hk⟩ := c.capacity_eq
  rw [hk]
  exact Nat.two_pow_pos k

theorem Config.capacity_le (c : Config) : c.capacity ≤ 2 ^ 63 := by
  obtain ⟨k, hle, hk⟩ := c.capacity_eq
  rw [hk]
  exact Nat.pow_le_pow_right (by norm_num) hle

/-- The slot of a ticket, as the proofs speak of it. -/
def slotOf (c : Config) (slot : Nat) : Nat := slot % c.capacity

theorem moduloPo2_eq (c : Config) (slot : Nat) : moduloPo2 slot c.capacity = slotOf c slot := by
  obtain ⟨k, -, hk⟩ := c.capacity_eq
  rw [moduloPo2, slotOf, hk, Nat.and_two_pow_sub_one_eq_mod]

/-- The index without its top bit, and the flag in its place. -/
theorem slotToEpoch_eq {index : Nat} (h : index < 2 ^ 64) (written : Bool) :
    slotToEpoch index written = index % 2 ^ 63 + written.toNat * 2 ^ 63 := by
  have hmask : index &&& compl64 (1 <<< 63) = index % 2 ^ 63 := by
    apply Nat.eq_of_testBit_eq
    intro i
    rw [Nat.testBit_mod_two_pow]
    by_cases hi : i < 64
    · rw [testBit_and_compl_bit 63 hi]
      by_cases h63 : i = 63
      · simp [h63]
      · have : i < 63 := by omega
        simp [this, Ne.symm h63]
    · have hbit : index.testBit i = false :=
        Nat.testBit_lt_two_pow (lt_of_lt_of_le h (Nat.pow_le_pow_right (by norm_num) (by omega)))
      rw [Nat.testBit_and, hbit]
      simp
  have hlow : index % 2 ^ 63 < 2 ^ 63 := Nat.mod_lt _ (by norm_num)
  rw [slotToEpoch, hmask, Nat.or_comm, ← Nat.shiftLeft_add_eq_or_of_lt hlow, Nat.shiftLeft_eq,
    Nat.add_comm]

/-- Below `2 ^ 63`, an epoch that reads as `slot` belongs to a ticket that is not later. -/
theorem eq_of_slotToEpoch_eq {ticket slot : Nat} {written written' : Bool} (hle : ticket ≤ slot)
    (hslot : slot < 2 ^ 63) (h : slotToEpoch ticket written = slotToEpoch slot written') :
    ticket = slot ∧ written = written' := by
  rw [slotToEpoch_eq (by omega), slotToEpoch_eq (by omega), Nat.mod_eq_of_lt (by omega),
    Nat.mod_eq_of_lt hslot] at h
  cases written <;> cases written' <;> simp only [Bool.toNat_true, Bool.toNat_false] at h <;>
    first | exact ⟨by omega, rfl⟩ | omega

/-! ## §3 — taking turns at a slot -/

/-- The ticket whose turn it is. -/
def Phase.ticket : Phase → Nat
  | .free k | .stored k | .full k | .loaded k => k

/-- The flag in the slot's epoch. -/
def Phase.written : Phase → Bool
  | .free _ | .stored _ => false
  | .full _ | .loaded _ => true

/-- What the push (`byPush`) or the pop that holds ticket `slot` does to its slot. -/
inductive Handover (c : Config) (slot : Nat) : Bool → Phase → Phase → Prop where
  | store : Handover c slot true (.free slot) (.stored slot)
  | publish : Handover c slot true (.stored slot) (.full slot)
  | load : Handover c slot false (.full slot) (.loaded slot)
  | release : Handover c slot false (.loaded slot) (.free (slot + c.capacity))

/-- The push that holds ticket `slot` has not had its turn yet. -/
def PushWaits (p : Phase) (slot : Nat) : Prop := p.ticket < slot ∨ p = .free slot

/-- The pop that holds ticket `slot` has not had its turn yet. -/
def PopWaits (p : Phase) (slot : Nat) : Prop :=
  p.ticket < slot ∨ (p.ticket = slot ∧ p ≠ .loaded slot)

/-- Two different tickets of one slot are at least a capacity apart. -/
theorem add_le_of_mod_eq {n i j : Nat} (hlt : i < j) (hmod : j % n = i % n) : i + n ≤ j := by
  have hdvd := (Nat.modEq_iff_dvd' (Nat.le_of_lt hlt)).mp (show Nat.ModEq n i j from hmod.symm)
  have := Nat.le_of_dvd (by omega) hdvd
  omega

section Turns

variable {c : Config} {slot slot' : Nat} {byPush : Bool} {p p' : Phase}

theorem PushWaits.handover (hw : PushWaits p slot') (h : Handover c slot byPush p p')
    (hmod : slot' % c.capacity = slot % c.capacity) (hne : byPush = true → slot' ≠ slot) :
    PushWaits p' slot' := by
  cases h with
  | store =>
      rcases hw with hlt | heq
      · exact Or.inl hlt
      · exact absurd (Phase.free.inj heq).symm (hne rfl)
  | publish =>
      rcases hw with hlt | heq
      · exact Or.inl hlt
      · cases heq
  | load =>
      rcases hw with hlt | heq
      · exact Or.inl hlt
      · cases heq
  | release =>
      rcases hw with hlt | heq
      · rcases Nat.lt_or_eq_of_le (add_le_of_mod_eq hlt hmod) with hlt' | heq'
        · exact Or.inl hlt'
        · exact Or.inr (congrArg Phase.free heq')
      · cases heq

theorem PopWaits.handover (hw : PopWaits p slot') (h : Handover c slot byPush p p')
    (hmod : slot' % c.capacity = slot % c.capacity) (hne : byPush = false → slot' ≠ slot) :
    PopWaits p' slot' := by
  cases h with
  | store => exact hw.imp id fun h => ⟨h.1, nofun⟩
  | publish => exact hw.imp id fun h => ⟨h.1, nofun⟩
  | load =>
      rcases hw with hlt | ⟨heq, -⟩
      · exact Or.inl hlt
      · exact absurd heq.symm (hne rfl)
  | release =>
      rcases hw with hlt | ⟨heq, -⟩
      · rcases Nat.lt_or_eq_of_le (add_le_of_mod_eq hlt hmod) with hlt' | heq'
        · exact Or.inl hlt'
        · exact Or.inr ⟨heq', nofun⟩
      · exact absurd heq.symm (hne rfl)

theorem Handover.ticket_le (h : Handover c slot byPush p p') : p.ticket ≤ p'.ticket := by
  cases h with
  | release => exact Nat.le_add_right _ _
  | _ => exact Nat.le_refl _

theorem Handover.ticket_mod (h : Handover c slot byPush p p') :
    p'.ticket % c.capacity = p.ticket % c.capacity := by
  cases h with
  | release => exact Nat.add_mod_right _ _
  | _ => rfl

end Turns

/-! ## §4 — the proof outline -/

section OutlineDefs

variable (c : Config)

/-- What holds of the queue. -/
structure MemOk (m : Shared T) : Prop where
  tail_le : m.tail ≤ m.head
  head_le : m.head ≤ m.tail + c.capacity
  tickets : m.pushed.map Prod.fst = List.range m.head
  phase_mod : ∀ i < c.capacity, (m.phase i).ticket % c.capacity = i
  phase_lt : ∀ i < c.capacity, (m.phase i).ticket < m.tail + c.capacity
  epoch : ∀ i < c.capacity, m.epoch i = slotToEpoch (m.phase i).ticket (m.phase i).written
  stored : ∀ i < c.capacity, ∀ k, m.phase i = .stored k → k < m.head
  full : ∀ i < c.capacity, ∀ k, m.phase i = .full k → (k, m.value i) ∈ m.pushed
  loaded : ∀ i < c.capacity, ∀ k, m.phase i = .loaded k → k < m.tail
  popped : ∀ k v, (k, v) ∈ m.popped → (k, v) ∈ m.pushed ∧ k < (m.phase (slotOf c k)).ticket
  nodup : (m.popped.map Prod.fst).Nodup

/-- What holds of a thread. -/
def PcOk (m : Shared T) : Pc T → Prop
  | .pushTail _ slot => slot ≤ m.head
  | .pushCas _ slot => slot ≤ m.head ∧ slot < m.tail + c.capacity
  | .pushWait t slot => (slot, t) ∈ m.pushed ∧ PushWaits (m.phase (slotOf c slot)) slot
  | .pushStore t slot => (slot, t) ∈ m.pushed ∧ m.phase (slotOf c slot) = .free slot
  | .pushPublish t slot =>
      (slot, t) ∈ m.pushed ∧ m.phase (slotOf c slot) = .stored slot ∧ m.value (slotOf c slot) = t
  | .popHead slot => slot ≤ m.tail
  | .popCas slot => slot ≤ m.tail ∧ slot < m.head
  | .popWait slot => slot < m.tail ∧ PopWaits (m.phase (slotOf c slot)) slot
  | .popLoad slot => slot < m.tail ∧ m.phase (slotOf c slot) = .full slot
  | .popRelease slot ret =>
      slot < m.tail ∧ m.phase (slotOf c slot) = .loaded slot ∧ (slot, ret) ∈ m.pushed
  | _ => True

/-- The ticket of a push that is not finished. -/
def pushTicket : Pc T → Option Nat
  | .pushWait _ slot | .pushStore _ slot | .pushPublish _ slot => some slot
  | _ => none

/-- The ticket of a pop that is not finished. -/
def popTicket : Pc T → Option Nat
  | .popWait slot | .popLoad slot | .popRelease slot _ => some slot
  | _ => none

/-- Two threads hold different tickets. -/
structure Apart (p q : Pc T) : Prop where
  push : ∀ k, pushTicket p = some k → pushTicket q ≠ some k
  pop : ∀ k, popTicket p = some k → popTicket q ≠ some k

def outline : Outline (Shared T) (Pc T) := ⟨MemOk c, PcOk c, Apart⟩

end OutlineDefs

section Steps

variable {c : Config} {m m' : Shared T} {pc pc' q : Pc T} {slot : Nat} {t : T}

omit [Inhabited T] in
theorem Apart.symm (h : Apart pc q) : Apart q pc where
  push k hq hp := h.push k hp hq
  pop k hq hp := h.pop k hp hq

omit [Inhabited T] in
theorem MemOk.ticket_lt (h : MemOk c m) (hmem : (slot, t) ∈ m.pushed) : slot < m.head := by
  have hfst : slot ∈ m.pushed.map Prod.fst := List.mem_map_of_mem hmem
  rwa [h.tickets, List.mem_range] at hfst

omit [Inhabited T] in
theorem MemOk.length_eq (h : MemOk c m) : m.pushed.length = m.head := by
  rw [← List.length_map Prod.fst, h.tickets, List.length_range]

theorem slotOf_lt (c : Config) (slot : Nat) : slotOf c slot < c.capacity :=
  Nat.mod_lt _ c.capacity_pos

omit [Inhabited T] in
theorem MemOk.pushTicket_lt (h : MemOk c m) (hq : PcOk c m q) {k : Nat}
    (hk : pushTicket q = some k) : k < m.head := by
  cases q with
  | pushWait t s => exact Option.some.inj hk ▸ h.ticket_lt hq.1
  | pushStore t s => exact Option.some.inj hk ▸ h.ticket_lt hq.1
  | pushPublish t s => exact Option.some.inj hk ▸ h.ticket_lt hq.1
  | _ => cases hk

omit [Inhabited T] in
theorem popTicket_lt (hq : PcOk c m q) {k : Nat} (hk : popTicket q = some k) : k < m.tail := by
  cases q with
  | popWait s => exact Option.some.inj hk ▸ hq.1
  | popLoad s => exact Option.some.inj hk ▸ hq.1
  | popRelease s ret => exact Option.some.inj hk ▸ hq.1
  | _ => cases hk

omit [Inhabited T] in
/-- A ticket drawn now comes after the one whose turn it is. -/
theorem MemOk.ticket_le (h : MemOk c m) (hslot : m.tail ≤ slot) :
    (m.phase (slotOf c slot)).ticket ≤ slot := by
  by_contra hlt
  have hmod := h.phase_mod _ (slotOf_lt c slot)
  have hle := add_le_of_mod_eq (Nat.lt_of_not_le hlt) hmod
  have := h.phase_lt _ (slotOf_lt c slot)
  omega

omit [Inhabited T] in
/-- Counters that go up break no assertion about a thread. -/
theorem PcOk.counters (h : PcOk c m q) (hhead : m.head ≤ m'.head) (htail : m.tail ≤ m'.tail)
    (hpushed : m.pushed ⊆ m'.pushed) (hvalue : m'.value = m.value) (hphase : m'.phase = m.phase) :
    PcOk c m' q := by
  cases q with
  | pushTail t slot => exact Nat.le_trans h hhead
  | pushCas t slot => exact ⟨h.1.trans hhead, by have := h.2; omega⟩
  | pushWait t slot => exact ⟨hpushed h.1, hphase ▸ h.2⟩
  | pushStore t slot => exact ⟨hpushed h.1, hphase ▸ h.2⟩
  | pushPublish t slot => exact ⟨hpushed h.1, hphase ▸ h.2.1, hvalue ▸ h.2.2⟩
  | popHead slot => exact Nat.le_trans h htail
  | popCas slot => exact ⟨h.1.trans htail, h.2.trans_le hhead⟩
  | popWait slot => exact ⟨h.1.trans_le htail, hphase ▸ h.2⟩
  | popLoad slot => exact ⟨h.1.trans_le htail, hphase ▸ h.2⟩
  | popRelease slot ret => exact ⟨h.1.trans_le htail, hphase ▸ h.2.1, hpushed h.2.2⟩
  | _ => trivial

/-- One slot moves on: everything else of the queue that an assertion speaks of stays. -/
structure SlotStep (c : Config) (slot : Nat) (byPush : Bool) (p' : Phase) (m m' : Shared T) :
    Prop where
  hand : Handover c slot byPush (m.phase (slotOf c slot)) p'
  phase : m'.phase = Function.update m.phase (slotOf c slot) p'
  value : ∀ i, m.phase i ≠ .free slot → m'.value i = m.value i
  head : m'.head = m.head
  tail : m'.tail = m.tail
  pushed : m'.pushed = m.pushed

variable {byPush : Bool} {p' : Phase}

omit [Inhabited T] in
theorem SlotStep.phase_self (h : SlotStep c slot byPush p' m m') {slot' : Nat}
    (heq : slotOf c slot' = slotOf c slot) : m'.phase (slotOf c slot') = p' := by
  rw [h.phase, heq, Function.update_self]

omit [Inhabited T] in
theorem SlotStep.phase_ne (h : SlotStep c slot byPush p' m m') {i : Nat}
    (hne : i ≠ slotOf c slot) : m'.phase i = m.phase i := by
  rw [h.phase, Function.update_of_ne hne]

omit [Inhabited T] in
/-- Nobody else waits at the slot in this phase. -/
theorem SlotStep.others (h : SlotStep c slot byPush p' m m') (hq : PcOk c m q)
    (hpush : byPush = true → pushTicket q ≠ some slot)
    (hpop : byPush = false → popTicket q ≠ some slot) : PcOk c m' q := by
  have hhand := h.hand
  -- at other slots nothing changes; at this one the phase moves on for those that wait, and a handle that
  -- is writing would be the one that steps
  cases q with
  | pushTail t s => exact (show s ≤ m'.head from h.head ▸ hq)
  | pushCas t s => exact ⟨h.head ▸ hq.1, h.tail ▸ hq.2⟩
  | popHead s => exact (show s ≤ m'.tail from h.tail ▸ hq)
  | popCas s => exact ⟨h.tail ▸ hq.1, h.head ▸ hq.2⟩
  | pushWait t s =>
      refine ⟨h.pushed ▸ hq.1, ?_⟩
      by_cases hs : slotOf c s = slotOf c slot
      · rw [h.phase_self hs]
        have hw := hq.2
        rw [hs] at hw
        exact hw.handover hhand hs fun hb heq => hpush hb (congrArg some heq)
      · rw [h.phase_ne hs]
        exact hq.2
  | popWait s =>
      refine ⟨h.tail ▸ hq.1, ?_⟩
      by_cases hs : slotOf c s = slotOf c slot
      · rw [h.phase_self hs]
        have hw := hq.2
        rw [hs] at hw
        exact hw.handover hhand hs fun hb heq => hpop hb (congrArg some heq)
      · rw [h.phase_ne hs]
        exact hq.2
  | pushStore t s =>
      by_cases hs : slotOf c s = slotOf c slot
      · rw [← hs, hq.2] at hhand
        cases hhand
        exact absurd rfl (hpush rfl)
      · exact ⟨h.pushed ▸ hq.1, (h.phase_ne hs).trans hq.2⟩
  | pushPublish t s =>
      by_cases hs : slotOf c s = slotOf c slot
      · rw [← hs, hq.2.1] at hhand
        cases hhand
        exact absurd rfl (hpush rfl)
      · refine ⟨h.pushed ▸ hq.1, (h.phase_ne hs).trans hq.2.1, (h.value _ ?_).trans hq.2.2⟩
        rw [hq.2.1]
        exact nofun
  | popLoad s =>
      by_cases hs : slotOf c s = slotOf c slot
      · rw [← hs, hq.2] at hhand
        cases hhand
        exact absurd rfl (hpop rfl)
      · exact ⟨h.tail ▸ hq.1, (h.phase_ne hs).trans hq.2⟩
  | popRelease s ret =>
      by_cases hs : slotOf c s = slotOf c slot
      · rw [← hs, hq.2.1] at hhand
        cases hhand
        exact absurd rfl (hpop rfl)
      · exact ⟨h.tail ▸ hq.1, (h.phase_ne hs).trans hq.2.1, h.pushed ▸ hq.2.2⟩
  | _ => trivial

omit [Inhabited T] in
theorem SlotStep.memOk (h : SlotStep c slot byPush p' m m') (hm : MemOk c m)
    (hepoch : ∀ i < c.capacity, m'.epoch i =
      if i = slotOf c slot then slotToEpoch p'.ticket p'.written else m.epoch i)
    (hlt : p'.ticket < m.tail + c.capacity)
    (hstored : ∀ k, p' = .stored k → k < m.head)
    (hfull : ∀ k, p' = .full k → (k, m'.value (slotOf c slot)) ∈ m.pushed)
    (hloaded : ∀ k, p' = .loaded k → k < m.tail)
    (hpopped : ∀ k v, (k, v) ∈ m'.popped → (k, v) ∈ m.popped ∨
      (k, v) ∈ m.pushed ∧ k = slot ∧ slot < p'.ticket)
    (hnodup : (m'.popped.map Prod.fst).Nodup) : MemOk c m' := by
  -- only the phase of this slot changes, by its hand-over
  have hself : m'.phase (slotOf c slot) = p' := h.phase_self rfl
  have hmod := hm.phase_mod _ (slotOf_lt c slot)
  refine ⟨by rw [h.head, h.tail]; exact hm.tail_le, by rw [h.head, h.tail]; exact hm.head_le,
    by rw [h.pushed, h.head]; exact hm.tickets, fun i hi => ?_, fun i hi => ?_, fun i hi => ?_,
    fun i hi k hk => ?_, fun i hi k hk => ?_, fun i hi k hk => ?_, fun k v hkv => ?_, hnodup⟩
  · by_cases hs : i = slotOf c slot
    · rw [hs, hself, h.hand.ticket_mod]
      exact hmod
    · rw [h.phase_ne hs]
      exact hm.phase_mod i hi
  · rw [h.tail]
    by_cases hs : i = slotOf c slot
    · rw [hs, hself]
      exact hlt
    · rw [h.phase_ne hs]
      exact hm.phase_lt i hi
  · rw [hepoch i hi]
    split
    · rename_i hs
      rw [hs, hself]
    · rename_i hs
      rw [h.phase_ne hs]
      exact hm.epoch i hi
  · rw [h.head]
    by_cases hs : i = slotOf c slot
    · rw [hs, hself] at hk
      exact hstored k hk
    · rw [h.phase_ne hs] at hk
      exact hm.stored i hi k hk
  · rw [h.pushed]
    by_cases hs : i = slotOf c slot
    · rw [hs, hself] at hk
      rw [hs]
      exact hfull k hk
    · rw [h.phase_ne hs] at hk
      rw [h.value i (by rw [hk]; exact nofun)]
      exact hm.full i hi k hk
  · rw [h.tail]
    by_cases hs : i = slotOf c slot
    · rw [hs, hself] at hk
      exact hloaded k hk
    · rw [h.phase_ne hs] at hk
      exact hm.loaded i hi k hk
  · rw [h.pushed]
    rcases hpopped k v hkv with hold | ⟨hmem, hk, hgt⟩
    · obtain ⟨hmem, hgt⟩ := hm.popped k v hold
      refine ⟨hmem, ?_⟩
      by_cases hs : slotOf c k = slotOf c slot
      · rw [h.phase_self hs]
        rw [hs] at hgt
        exact hgt.trans_le h.hand.ticket_le
      · rw [h.phase_ne hs]
        exact hgt
    · rw [hk, hself]
      exact ⟨hk ▸ hmem, hgt⟩

omit [Inhabited T] in
/-- A thread that goes on with the ticket it has, or without one. -/
theorem Apart.keep (h : Apart pc q) (hpush : ∀ k, pushTicket pc' = some k → pushTicket pc = some k)
    (hpop : ∀ k, popTicket pc' = some k → popTicket pc = some k) : Apart pc' q ∧ Apart q pc' := by
  have h' : Apart pc' q := ⟨fun k hk => h.push k (hpush k hk), fun k hk => h.pop k (hpop k hk)⟩
  exact ⟨h', h'.symm⟩

omit [Inhabited T] in
/-- A step that touches nothing of the queue and draws no ticket. -/
theorem stepOk_of_memory (hm : MemOk c m) (hpc : PcOk c m pc')
    (hpush : ∀ k, pushTicket pc' = some k → pushTicket pc = some k)
    (hpop : ∀ k, popTicket pc' = some k → popTicket pc = some k) :
    (outline (T := T) c).StepOk m pc m pc' :=
  .of_memory hm hpc fun _ _ h _ => h.keep hpush hpop

omit [Inhabited T] in
/-- A step of a thread at its slot. -/
theorem SlotStep.stepOk (h : SlotStep c slot byPush p' m m') (hm : MemOk c m') (hpc : PcOk c m' pc')
    (hticket : if byPush then pushTicket pc = some slot else popTicket pc = some slot)
    (hpush : ∀ k, pushTicket pc' = some k → pushTicket pc = some k)
    (hpop : ∀ k, popTicket pc' = some k → popTicket pc = some k) :
    (outline (T := T) c).StepOk m pc m' pc' := by
  refine ⟨hm, hpc, fun q hq hapart _ => ?_, fun _ _ hapart _ => hapart.keep hpush hpop⟩
  refine h.others hq (fun hb => ?_) fun hb => ?_
  · rw [hb, if_pos rfl] at hticket
    exact hapart.push slot hticket
  · rw [hb, if_neg Bool.false_ne_true] at hticket
    exact hapart.pop slot hticket

end Steps

/-! ## §5 — the steps -/

section Accesses

variable {c : Config} {m : Shared T} {slot : Nat} {t ret : T}

omit [Inhabited T] in
/-- `head` gives out a ticket: it was looked at while there was room. -/
theorem stepOk_pushCas (hm : MemOk c m) (hpc : PcOk c m (.pushCas t slot)) (heq : m.head = slot)
    (hfew : slot + 1 < 2 ^ 63) :
    (outline (T := T) c).StepOk m (.pushCas t slot)
      { m with head := (slot + 1) % 2 ^ 64, pushed := m.pushed ++ [(slot, t)] }
      (.pushWait t slot) := by
  have hhead : (slot + 1) % 2 ^ 64 = slot + 1 := Nat.mod_eq_of_lt (by omega)
  have hroom := hpc.2
  have htail := hm.tail_le
  have hsub : m.pushed ⊆ m.pushed ++ [(slot, t)] := List.subset_append_left _ _
  have hnew : (slot, t) ∈ m.pushed ++ [(slot, t)] :=
    List.mem_append_right _ (List.mem_singleton.mpr rfl)
  have hup : m.head ≤ slot + 1 := by omega
  -- an earlier ticket of the slot, or this very one, which no push has used yet
  have hwaits : PushWaits (m.phase (slotOf c slot)) slot := by
    have hi := slotOf_lt c slot
    rcases Nat.lt_or_eq_of_le (hm.ticket_le (htail.trans_eq heq)) with hlt | hturn
    · exact Or.inl hlt
    · right
      cases hphase : m.phase (slotOf c slot) with
      | free k =>
          rw [hphase] at hturn
          exact congrArg Phase.free hturn
      | stored k =>
          rw [hphase] at hturn
          have hlt := hm.stored _ hi k hphase
          have hk : k = slot := hturn
          omega
      | full k =>
          rw [hphase] at hturn
          have hlt := hm.ticket_lt (hm.full _ hi k hphase)
          have hk : k = slot := hturn
          omega
      | loaded k =>
          rw [hphase] at hturn
          have hlt := hm.loaded _ hi k hphase
          have hk : k = slot := hturn
          omega
  rw [hhead]
  refine ⟨⟨?_, ?_, ?_, hm.phase_mod, hm.phase_lt, hm.epoch, ?_, ?_, hm.loaded, ?_, hm.nodup⟩,
    ⟨hnew, hwaits⟩, fun q hq _ _ => hq.counters hup (Nat.le_refl _) hsub rfl rfl,
    fun q hq _ _ => ?_⟩
  · show m.tail ≤ slot + 1
    omega
  · show slot + 1 ≤ m.tail + c.capacity
    omega
  · show (m.pushed ++ [(slot, t)]).map Prod.fst = List.range (slot + 1)
    rw [List.map_append, hm.tickets, heq, List.range_succ]
    rfl
  · exact fun i hi k hk => (hm.stored i hi k hk).trans_le hup
  · exact fun i hi k hk => hsub (hm.full i hi k hk)
  · exact fun k v hkv => ⟨hsub (hm.popped k v hkv).1, (hm.popped k v hkv).2⟩
  · have hapart : Apart (.pushWait t slot) q := by
      refine ⟨fun k hk hqk => ?_, fun k hk => nomatch hk⟩
      have hlt := hm.pushTicket_lt hq hqk
      have : slot = k := Option.some.inj hk
      omega
    exact ⟨hapart, hapart.symm⟩

omit [Inhabited T] in
/-- `tail` gives out a ticket: it was behind `head`. -/
theorem stepOk_popCas (hm : MemOk c m) (hpc : PcOk c m (.popCas slot)) (heq : m.tail = slot)
    (hfew : slot + 1 < 2 ^ 63) :
    (outline (T := T) c).StepOk m (.popCas slot) { m with tail := (slot + 1) % 2 ^ 64 }
      (.popWait slot) := by
  have htail : (slot + 1) % 2 ^ 64 = slot + 1 := Nat.mod_eq_of_lt (by omega)
  have hbehind := hpc.2
  have hroom := hm.head_le
  have hup : m.tail ≤ slot + 1 := by omega
  have hwaits : PopWaits (m.phase (slotOf c slot)) slot := by
    rcases Nat.lt_or_eq_of_le (hm.ticket_le (Nat.le_of_eq heq)) with hlt | hturn
    · exact Or.inl hlt
    · refine Or.inr ⟨hturn, fun hphase => ?_⟩
      have := hm.loaded _ (slotOf_lt c slot) slot hphase
      omega
  rw [htail]
  refine ⟨⟨?_, ?_, hm.tickets, hm.phase_mod, ?_, hm.epoch, hm.stored, hm.full, ?_, hm.popped,
    hm.nodup⟩, ⟨Nat.lt_succ_self _, hwaits⟩,
    fun q hq _ _ => hq.counters (Nat.le_refl _) hup (List.Subset.refl _) rfl rfl,
    fun q hq _ _ => ?_⟩
  · show slot + 1 ≤ m.head
    omega
  · show m.head ≤ slot + 1 + c.capacity
    omega
  · intro i hi
    have := hm.phase_lt i hi
    show (m.phase i).ticket < slot + 1 + c.capacity
    omega
  · exact fun i hi k hk => (hm.loaded i hi k hk).trans_le hup
  · have hapart : Apart (.popWait slot : Pc T) q := by
      refine ⟨fun k hk => (nomatch hk), fun k hk hqk => ?_⟩
      have hlt := popTicket_lt hq hqk
      have : slot = k := Option.some.inj hk
      omega
    exact ⟨hapart, hapart.symm⟩

omit [Inhabited T] in
theorem stepOk_pushStore (hm : MemOk c m) (hpc : PcOk c m (.pushStore t slot)) :
    (outline (T := T) c).StepOk m (.pushStore t slot)
      { m with
          value := Function.update m.value (slotOf c slot) t
          phase := Function.update m.phase (slotOf c slot) (.stored slot) }
      (.pushPublish t slot) := by
  obtain ⟨hmem, hphase⟩ := hpc
  have hi := slotOf_lt c slot
  have hlt := hm.phase_lt _ hi
  have hepoch := hm.epoch _ hi
  rw [hphase] at hlt hepoch
  have hslot : SlotStep c slot true (.stored slot) m
      { m with
          value := Function.update m.value (slotOf c slot) t
          phase := Function.update m.phase (slotOf c slot) (.stored slot) } := by
    refine ⟨by rw [hphase]; exact .store, rfl, fun i hne => ?_, rfl, rfl, rfl⟩
    exact Function.update_of_ne (fun heq => hne (by rw [heq, hphase])) _ _
  refine hslot.stepOk (hslot.memOk hm (fun i _ => ?_) hlt ?_ nofun nofun
    (fun k v h => Or.inl h) hm.nodup) ⟨hmem, hslot.phase_self rfl, Function.update_self _ _ _⟩ rfl
    (fun _ => id) (fun _ => id)
  · show m.epoch i = _
    split
    · rename_i hs
      rw [hs]
      exact hepoch
    · rfl
  · intro k hk
    cases hk
    exact hm.ticket_lt hmem

omit [Inhabited T] in
theorem stepOk_pushPublish (hm : MemOk c m) (hpc : PcOk c m (.pushPublish t slot)) :
    (outline (T := T) c).StepOk m (.pushPublish t slot)
      { m with
          epoch := Function.update m.epoch (slotOf c slot) (slotToEpoch slot true)
          phase := Function.update m.phase (slotOf c slot) (.full slot) }
      (.pushReturned true) := by
  obtain ⟨hmem, hphase, hvalue⟩ := hpc
  have hlt := hm.phase_lt _ (slotOf_lt c slot)
  rw [hphase] at hlt
  have hslot : SlotStep c slot true (.full slot) m
      { m with
          epoch := Function.update m.epoch (slotOf c slot) (slotToEpoch slot true)
          phase := Function.update m.phase (slotOf c slot) (.full slot) } :=
    ⟨by rw [hphase]; exact .publish, rfl, fun _ _ => rfl, rfl, rfl, rfl⟩
  refine hslot.stepOk (hslot.memOk hm (fun i _ => ?_) hlt nofun ?_ nofun
    (fun k v h => Or.inl h) hm.nodup) trivial rfl nofun nofun
  · exact Function.update_apply _ _ _ _
  · intro k hk
    cases hk
    show (slot, m.value (slotOf c slot)) ∈ m.pushed
    rw [hvalue]
    exact hmem

omit [Inhabited T] in
theorem stepOk_popLoad (hm : MemOk c m) (hpc : PcOk c m (.popLoad slot)) :
    (outline (T := T) c).StepOk m (.popLoad slot)
      { m with phase := Function.update m.phase (slotOf c slot) (.loaded slot) }
      (.popRelease slot (m.value (slotOf c slot))) := by
  obtain ⟨htail, hphase⟩ := hpc
  have hi := slotOf_lt c slot
  have hlt := hm.phase_lt _ hi
  have hepoch := hm.epoch _ hi
  rw [hphase] at hlt hepoch
  have hslot : SlotStep c slot false (.loaded slot) m
      { m with phase := Function.update m.phase (slotOf c slot) (.loaded slot) } :=
    ⟨by rw [hphase]; exact .load, rfl, fun _ _ => rfl, rfl, rfl, rfl⟩
  refine hslot.stepOk (hslot.memOk hm (fun i _ => ?_) hlt nofun nofun ?_
    (fun k v h => Or.inl h) hm.nodup) ⟨htail, hslot.phase_self rfl, hm.full _ hi slot hphase⟩ rfl
    (fun _ => id) (fun _ => id)
  · show m.epoch i = _
    split
    · rename_i hs
      rw [hs]
      exact hepoch
    · rfl
  · intro k hk
    cases hk
    exact htail

omit [Inhabited T] in
theorem stepOk_popRelease (hm : MemOk c m) (hpc : PcOk c m (.popRelease slot ret))
    (hfew : m.head < 2 ^ 63) :
    (outline (T := T) c).StepOk m (.popRelease slot ret)
      { m with
          epoch := Function.update m.epoch (slotOf c slot)
            (slotToEpoch ((slot + c.capacity) % 2 ^ 64) false)
          popped := m.popped ++ [(slot, ret)]
          phase := Function.update m.phase (slotOf c slot) (.free (slot + c.capacity)) }
      (.popReturned (some ret)) := by
  obtain ⟨htail, hphase, hmem⟩ := hpc
  have hhead := hm.ticket_lt hmem
  have hcapacity := c.capacity_le
  rw [Nat.mod_eq_of_lt (show slot + c.capacity < 2 ^ 64 by omega)]
  have hslot : SlotStep c slot false (.free (slot + c.capacity)) m
      { m with
          epoch := Function.update m.epoch (slotOf c slot) (slotToEpoch (slot + c.capacity) false)
          popped := m.popped ++ [(slot, ret)]
          phase := Function.update m.phase (slotOf c slot) (.free (slot + c.capacity)) } :=
    ⟨by rw [hphase]; exact .release, rfl, fun _ _ => rfl, rfl, rfl, rfl⟩
  refine hslot.stepOk (hslot.memOk hm (fun i _ => ?_) ?_ nofun nofun nofun (fun k v hkv => ?_) ?_)
    trivial rfl nofun nofun
  · exact Function.update_apply _ _ _ _
  · show slot + c.capacity < m.tail + c.capacity
    omega
  · rcases List.mem_append.mp hkv with hold | hnew
    · exact Or.inl hold
    · cases List.mem_singleton.mp hnew
      exact Or.inr ⟨hmem, rfl, Nat.lt_add_of_pos_right c.capacity_pos⟩
  · -- the slot has passed all tickets that were popped from it before
    show ((m.popped ++ [(slot, ret)]).map Prod.fst).Nodup
    rw [List.map_append, List.nodup_append]
    refine ⟨hm.nodup, List.nodup_singleton _, fun k hk k' hk' => ?_⟩
    obtain ⟨⟨k, v⟩, hkv, rfl⟩ := List.mem_map.mp hk
    have hlt := (hm.popped k v hkv).2
    intro heq
    have hks : k = slot := heq.trans (List.mem_singleton.mp hk')
    rw [hks, hphase] at hlt
    exact Nat.lt_irrefl _ hlt

omit [Inhabited T] in
/-- A tail that is not too far behind the ticket when it is looked at stays so. -/
theorem room_of_sub64_lt (hslot : slot < 2 ^ 63) (htail : m.tail < 2 ^ 63)
    (h : ¬ sub64 slot m.tail ≥ c.capacity) : slot < m.tail + c.capacity := by
  have hcapacity := c.capacity_le
  unfold sub64 at h
  omega

omit [Inhabited T] in
theorem MemOk.ready (hm : MemOk c m) {written : Bool} (hslot : slot < 2 ^ 63)
    (hle : (m.phase (slotOf c slot)).ticket ≤ slot)
    (hepoch : m.epoch (slotOf c slot) = slotToEpoch slot written) :
    (m.phase (slotOf c slot)).ticket = slot ∧ (m.phase (slotOf c slot)).written = written := by
  rw [hm.epoch _ (slotOf_lt c slot)] at hepoch
  exact eq_of_slotToEpoch_eq hle hslot hepoch

omit [Inhabited T] in
/-- The tickets of pushes are only ever added to. -/
theorem length_le_access (c : Config) (spurious : Bool) (m : Shared T) (pc : Pc T) :
    m.pushed.length ≤ (access c spurious m pc).1.pushed.length := by
  cases pc with
  | pushCas t slot =>
      simp only [access]
      split
      · exact (List.sublist_append_left _ _).length_le
      · exact Nat.le_refl _
  | pushTail t slot => simp only [access]; split <;> exact Nat.le_refl _
  | pushWait t slot => simp only [access]; split <;> exact Nat.le_refl _
  | popHead slot => simp only [access]; split <;> exact Nat.le_refl _
  | popCas slot => simp only [access]; split <;> exact Nat.le_refl _
  | popWait slot => simp only [access]; split <;> exact Nat.le_refl _
  | _ => exact Nat.le_refl _

omit [Inhabited T] in
theorem access_stepOk {spurious : Bool} {pc : Pc T} (hm : MemOk c m) (hpc : PcOk c m pc)
    (hfew : (access c spurious m pc).1.pushed.length < 2 ^ 63) :
    (outline (T := T) c).StepOk m pc (access c spurious m pc).1 (access c spurious m pc).2 := by
  have hlength := hm.length_eq
  have htail := hm.tail_le
  have hhead : m.head < 2 ^ 63 := hlength ▸ (length_le_access c spurious m pc).trans_lt hfew
  cases pc with
  | start => exact stepOk_of_memory hm trivial nofun nofun
  | pushReturned result => exact stepOk_of_memory hm trivial nofun nofun
  | popReturned result => exact stepOk_of_memory hm trivial nofun nofun
  | pushHead t => exact stepOk_of_memory hm (Nat.le_refl _) nofun nofun
  | pushTail t slot =>
      simp only [access]
      split
      · exact stepOk_of_memory hm trivial nofun nofun
      · rename_i hroom
        have hle : slot ≤ m.head := hpc
        have hlt := room_of_sub64_lt (by omega) (by omega) hroom
        exact stepOk_of_memory hm ⟨hle, hlt⟩ nofun nofun
  | pushCas t slot =>
      simp only [access] at hfew ⊢
      split
      · rename_i heq
        rw [if_pos heq] at hfew
        simp only [List.length_append, List.length_singleton] at hfew
        exact stepOk_pushCas hm hpc heq.1 (by omega)
      · exact stepOk_of_memory hm (Nat.le_refl _) nofun nofun
  | pushWait t slot =>
      have hslot := hm.ticket_lt hpc.1
      simp only [access, moduloPo2_eq]
      split
      · exact stepOk_of_memory hm hpc (fun _ => id) (fun _ => id)
      · rename_i hepoch
        refine stepOk_of_memory hm ⟨hpc.1, ?_⟩ (fun _ => id) (fun _ => id)
        have hlt : slot < 2 ^ 63 := by omega
        -- the epoch read is that of the ticket, so the slot has come to its turn
        have hready := hm.ready hlt (hpc.2.elim Nat.le_of_lt fun h => by
          rw [h]; exact Nat.le_refl _) (not_not.mp hepoch)
        rcases hpc.2 with hlt | hfree
        · omega
        · exact hfree
  | pushStore t slot =>
      simp only [access, moduloPo2_eq]
      exact stepOk_pushStore hm hpc
  | pushPublish t slot =>
      simp only [access, moduloPo2_eq]
      exact stepOk_pushPublish hm hpc
  | popTail => exact stepOk_of_memory hm (Nat.le_refl _) nofun nofun
  | popHead slot =>
      simp only [access]
      split
      · exact stepOk_of_memory hm trivial nofun nofun
      · rename_i hne
        have hle : slot ≤ m.tail := hpc
        exact stepOk_of_memory hm ⟨hle, by omega⟩ nofun nofun
  | popCas slot =>
      simp only [access]
      split
      · rename_i heq
        have hbehind := hpc.2
        exact stepOk_popCas hm hpc heq.1 (by omega)
      · exact stepOk_of_memory hm (Nat.le_refl _) nofun nofun
  | popWait slot =>
      have hslot := hpc.1
      simp only [access, moduloPo2_eq]
      split
      · exact stepOk_of_memory hm hpc (fun _ => id) (fun _ => id)
      · rename_i hepoch
        refine stepOk_of_memory hm ⟨hpc.1, ?_⟩ (fun _ => id) (fun _ => id)
        have hlt : slot < 2 ^ 63 := by omega
        obtain ⟨hturn, hwritten⟩ := hm.ready hlt
          (hpc.2.elim Nat.le_of_lt fun h => Nat.le_of_eq h.1) (not_not.mp hepoch)
        have hnot : m.phase (slotOf c slot) ≠ .loaded slot :=
          hpc.2.elim (fun h => by omega) fun h => h.2
        cases hphase : m.phase (slotOf c slot) with
        -- the epoch says that the slot is written, which leaves `full`
        | free k => rw [hphase] at hwritten; cases hwritten
        | stored k => rw [hphase] at hwritten; cases hwritten
        | full k => rw [hphase] at hturn; exact congrArg Phase.full hturn
        | loaded k =>
            rw [hphase] at hturn hnot
            exact absurd (congrArg Phase.loaded hturn) hnot
  | popLoad slot =>
      simp only [access, moduloPo2_eq]
      exact stepOk_popLoad hm hpc
  | popRelease slot ret =>
      simp only [access, moduloPo2_eq]
      exact stepOk_popRelease hm hpc hhead

omit [Inhabited T] in
/-- Outside of a call, a thread at most starts one. -/
theorem stepOk_call {a : Action T} {pc : Pc T} (hm : MemOk c m) (hpc : PcOk c m pc) :
    (outline (T := T) c).StepOk m pc m (call a pc) := by
  cases a with
  | push t => exact stepOk_of_memory hm trivial nofun nofun
  | pop => exact stepOk_of_memory hm trivial nofun nofun
  | go spurious => exact stepOk_of_memory hm hpc (fun _ => id) (fun _ => id)

omit [Inhabited T] in
/-- A step is a call, an access, or nothing. -/
theorem stepThread_cases (c : Config) (a : Action T) (m : Shared T) (pc : Pc T) :
    stepThread c a m pc = (m, call a pc) ∨ stepThread c a m pc = (m, pc) ∨
      ∃ spurious, stepThread c a m pc = access c spurious m pc := by
  unfold stepThread
  split
  · exact Or.inl rfl
  · exact Or.inl rfl
  · exact Or.inl rfl
  · exact Or.inr (Or.inr ⟨_, rfl⟩)
  · exact Or.inr (Or.inl rfl)

omit [Inhabited T] in
theorem length_le_stepThread (c : Config) (a : Action T) (m : Shared T) (pc : Pc T) :
    m.pushed.length ≤ (stepThread c a m pc).1.pushed.length := by
  rcases stepThread_cases c a m pc with h | h | ⟨spurious, h⟩
  · rw [h]
  · rw [h]
  · rw [h]
    exact length_le_access c spurious m pc

omit [Inhabited T] in
theorem stepThread_stepOk {a : Action T} {pc : Pc T} (hm : MemOk c m) (hpc : PcOk c m pc)
    (hfew : (stepThread c a m pc).1.pushed.length < 2 ^ 63) :
    (outline (T := T) c).StepOk m pc (stepThread c a m pc).1 (stepThread c a m pc).2 := by
  rcases stepThread_cases c a m pc with h | h | ⟨spurious, h⟩
  · rw [h]
    exact stepOk_call hm hpc
  · rw [h]
    exact stepOk_of_memory hm hpc (fun _ => id) (fun _ => id)
  · rw [h] at hfew ⊢
    exact access_stepOk hm hpc hfew

end Accesses

/-! ## §6 — whole runs -/

section Runs

variable {n : Nat}

theorem outline_init (c : Config) (n : Nat) :
    (outline (T := T) c).Holds (init (T := T) c n) where
  shared := by
    refine ⟨Nat.le_refl _, Nat.zero_le _, rfl, fun i hi => Nat.mod_eq_of_lt hi, fun i hi => ?_,
      fun i hi => if_pos hi, nofun, nofun, nofun, nofun, List.nodup_nil⟩
    show i < 0 + c.capacity
    omega
  thread _ := trivial
  pair _ _ _ := ⟨nofun, nofun⟩

theorem outline_run (c : Config) (ls : List (Fin n × Action T))
    (hfew : (run c ls).shared.pushed.length < 2 ^ 63) : (outline (T := T) c).Holds (run c ls) :=
  (outline_init c n).run (fun m => m.pushed.length < 2 ^ 63)
    (fun a m pc h => (length_le_stepThread c a m pc).trans_lt h)
    (fun _ _ _ hm hpc h => stepThread_stepOk hm hpc h) ls hfew

/-- The ticket whose value stands in the slot and has not been read. -/
def Phase.unread : Phase → Option Nat
  | .stored k | .full k => some k
  | .free _ | .loaded _ => none

/-- A strict FIFO: tickets are drawn once, the pop of a ticket returns what the push of that ticket
was called with, no unread value is overwritten, none is read that was not written, and the counters
are never further apart than the capacity. -/
structure StrictFifo (c : Config) (s : Threads (Shared T) (Pc T) n) : Prop where
  pushed_once : (s.shared.pushed.map Prod.fst).Nodup
  popped_once : (s.shared.popped.map Prod.fst).Nodup
  returns : ∀ k v, (k, v) ∈ s.shared.popped → (k, v) ∈ s.shared.pushed
  writes : ∀ i t slot, s.locals i = .pushStore t slot →
    (s.shared.phase (slotOf c slot)).unread = none
  reads : ∀ i slot, s.locals i = .popLoad slot →
    (s.shared.phase (slotOf c slot)).unread = some slot
  tail_le : s.shared.tail ≤ s.shared.head
  head_le : s.shared.head ≤ s.shared.tail + c.capacity

/-- **Every run with fewer than `2 ^ 63` tickets leaves the queue a strict FIFO.** -/
theorem strict_fifo (c : Config) (ls : List (Fin n × Action T))
    (hfew : (run c ls).shared.pushed.length < 2 ^ 63) : StrictFifo c (run c ls) := by
  have hholds := outline_run c ls hfew
  have hm : MemOk c (run c ls).shared := hholds.shared
  refine ⟨?_, hm.nodup, fun k v h => (hm.popped k v h).1, fun i t slot hpc => ?_,
    fun i slot hpc => ?_, hm.tail_le, hm.head_le⟩
  · rw [hm.tickets]
    exact List.nodup_range
  · have hthread : PcOk c (run c ls).shared ((run c ls).locals i) := hholds.thread i
    rw [hpc] at hthread
    rw [hthread.2]
    rfl
  · have hthread : PcOk c (run c ls).shared ((run c ls).locals i) := hholds.thread i
    rw [hpc] at hthread
    rw [hthread.2]
    rfl

/-- Two slots. -/
def two : Config := ⟨2, by decide⟩

/-- A call of thread `t`, run to its end. -/
def calling {n : Nat} (t : Fin n) (a : Action Nat) (accesses : Nat) : List (Fin n × Action Nat) :=
  (t, a) :: List.replicate accesses (t, .go false)

/-- `k` accesses of each of two threads, in turns. -/
def turns (k : Nat) : List (Fin 2 × Action Nat) :=
  (List.replicate k [(0, .go false), (1, .go false)]).flatten

/-- Two threads push at the same time. Thread 0 then draws the ticket of the first element, and before
it has read it thread 1 draws a ticket of the same slot for a push, and waits. -/
def pushPop : List (Fin 2 × Action Nat) :=
  [(0, .push 7), (1, .push 8)] ++ turns 9 ++ calling 0 .pop 3 ++ [(1, .push 9)] ++ turns 10 ++
    [(0, .pop), (1, .pop)] ++ turns 9

theorem strict_fifo_pushPop :
    (run two pushPop).shared.pushed = [(0, 7), (1, 8), (2, 9)] ∧
      (run two pushPop).shared.popped = [(0, 7), (1, 8), (2, 9)] ∧
      slotOf two 2 = slotOf two 0 ∧ StrictFifo two (run two pushPop) :=
  ⟨by decide +kernel, by decide +kernel, rfl, strict_fifo two pushPop (by decide +kernel)⟩

/-! ## §7 — a push that is turned away -/

/-- The thread is inside `push`. -/
def InPush : Pc T → Prop
  | .pushHead _ | .pushTail _ _ | .pushCas _ _ | .pushWait _ _ | .pushStore _ _
  | .pushPublish _ _ => True
  | _ => False

/-- `head - tail >= capacity`, both read at once. -/
def Full (c : Config) (m : Shared T) : Prop := sub64 m.head m.tail ≥ c.capacity

/-- The state after `k` steps. -/
def stateAt (c : Config) (ls : List (Fin n × Action T)) (k : Nat) :
    Threads (Shared T) (Pc T) n := run c (ls.take k)

/-- Step `k` is the test of a push that returns false. -/
def RejectedAt (c : Config) (ls : List (Fin n × Action T)) (k : Nat) : Prop :=
  ∃ (hk : k < ls.length) (t : T) (slot : Nat),
    (stateAt c ls k).locals (ls[k]).1 = .pushTail t slot ∧
      (stateAt c ls (k + 1)).locals (ls[k]).1 = .pushReturned false

/-- At step `k`, the push that tests has a `slot` that `tail` has passed: it does not lie between
`tail` and `head`. -/
def OvertakenAt (c : Config) (ls : List (Fin n × Action T)) (k : Nat) : Prop :=
  ∃ (hk : k < ls.length) (t : T) (slot : Nat),
    (stateAt c ls k).locals (ls[k]).1 = .pushTail t slot ∧
      sub64 (stateAt c ls k).shared.head (stateAt c ls k).shared.tail <
        sub64 slot (stateAt c ls k).shared.tail

/-- At some moment since the call that ends with step `k` was made, the queue was full. -/
def FullDuring (c : Config) (ls : List (Fin n × Action T)) (k : Nat) : Prop :=
  ∃ (hk : k < ls.length) (j : Nat), j ≤ k ∧
    (∀ i, j ≤ i → i ≤ k → InPush ((stateAt c ls i).locals (ls[k]).1)) ∧
      Full c (stateAt c ls j).shared

theorem stateAt_succ (c : Config) (ls : List (Fin n × Action T)) {k : Nat} (hk : k < ls.length) :
    stateAt c ls (k + 1) = (stateAt c ls k).step (stepThread c) ls[k] :=
  Threads.run_take_succ ls hk

omit [Inhabited T] in
/-- A push is turned away by its test only. -/
theorem sub64_of_rejected {c : Config} {a : Action T} {m : Shared T} {t : T} {slot : Nat}
    (h : (stepThread c a m (.pushTail t slot)).2 = .pushReturned false) :
    sub64 slot m.tail ≥ c.capacity := by
  cases a with
  | push t' => cases h
  | pop => cases h
  | go spurious =>
      simp only [stepThread, access] at h
      split at h
      · assumption
      · cases h

/-- A push that is turned away and is not overtaken saw the queue full. -/
theorem RejectedAt.fullDuring {c : Config} {ls : List (Fin n × Action T)} {k : Nat}
    (h : RejectedAt c ls k) (hnot : ¬ OvertakenAt c ls k) : FullDuring c ls k := by
  obtain ⟨hk, t, slot, hbefore, hafter⟩ := h
  rw [stateAt_succ c ls hk, Threads.step_locals_self, hbefore] at hafter
  have hfar := sub64_of_rejected hafter
  refine ⟨hk, k, Nat.le_refl k, fun i hki hik => ?_, ?_⟩
  · rw [Nat.le_antisymm hik hki, hbefore]
    trivial
  · by_contra hroom
    refine hnot ⟨hk, t, slot, hbefore, ?_⟩
    unfold Full at hroom
    omega

/-- At step `k`, the push that tests has a `slot` that is less than `tail`. -/
def BehindTailAt (c : Config) (ls : List (Fin n × Action T)) (k : Nat) : Prop :=
  ∃ (hk : k < ls.length) (t : T) (slot : Nat),
    (stateAt c ls k).locals (ls[k]).1 = .pushTail t slot ∧ slot < (stateAt c ls k).shared.tail

theorem length_le_of_take (c : Config) (ls : List (Fin n × Action T)) (k : Nat) :
    (stateAt c ls k).shared.pushed.length ≤ (run c ls).shared.pushed.length := by
  have hmono : ∀ (s : Threads (Shared T) (Pc T) n) (ls : List (Fin n × Action T)),
      s.shared.pushed.length ≤ (s.run (stepThread c) ls).shared.pushed.length := by
    intro s ls
    induction ls generalizing s with
    | nil => exact Nat.le_refl _
    | cons l ls ih =>
        exact (length_le_stepThread c l.2 s.shared (s.locals l.1)).trans (ih (s.step (stepThread c) l))
  have hsplit : run c ls = (stateAt c ls k).run (stepThread c) (ls.drop k) := by
    rw [stateAt, run, run, ← Threads.run_append, List.take_append_drop]
  rw [hsplit]
  exact hmono _ _

/-- With fewer than `2 ^ 63` tickets a loaded `slot` is never beyond `head`, and `tail` has passed it
when it is greater. -/
theorem overtakenAt_iff (c : Config) (ls : List (Fin n × Action T)) (k : Nat)
    (hfew : (run c ls).shared.pushed.length < 2 ^ 63) :
    OvertakenAt c ls k ↔ BehindTailAt c ls k := by
  have hholds := outline_run c (ls.take k) ((length_le_of_take c ls k).trans_lt hfew)
  have hm : MemOk c (stateAt c ls k).shared := hholds.shared
  have hlength := hm.length_eq
  have htail := hm.tail_le
  have hlt := (length_le_of_take c ls k).trans_lt hfew
  have hslot : ∀ (hk : k < ls.length) (t : T) (slot : Nat),
      (stateAt c ls k).locals (ls[k]).1 = .pushTail t slot →
      slot ≤ (stateAt c ls k).shared.head := by
    intro hk t slot hpc
    have hthread : PcOk c (stateAt c ls k).shared ((stateAt c ls k).locals (ls[k]).1) :=
      hholds.thread _
    rw [hpc] at hthread
    exact hthread
  constructor
  · rintro ⟨hk, t, slot, hpc, hover⟩
    have hle := hslot hk t slot hpc
    refine ⟨hk, t, slot, hpc, ?_⟩
    unfold sub64 at hover
    omega
  · rintro ⟨hk, t, slot, hpc, hbehind⟩
    refine ⟨hk, t, slot, hpc, ?_⟩
    unfold sub64
    omega

/-- **In a run in which no push is turned away with a `slot` that `tail` has passed, every push that
is turned away saw the queue full.** With fewer than `2 ^ 63` tickets, that is a run in which none is
turned away with a `slot` less than `tail`. -/
theorem rejected_only_when_full (c : Config) (ls : List (Fin n × Action T)) :
    ((∀ k, RejectedAt c ls k → ¬ OvertakenAt c ls k) →
      ∀ k, RejectedAt c ls k → FullDuring c ls k) ∧
    ((run c ls).shared.pushed.length < 2 ^ 63 →
      (∀ k, RejectedAt c ls k → ¬ BehindTailAt c ls k) →
        ∀ k, RejectedAt c ls k → FullDuring c ls k) := by
  refine ⟨fun hnone k h => h.fullDuring (hnone k h), fun hfew hnone k h => h.fullDuring ?_⟩
  rw [overtakenAt_iff c ls k hfew]
  exact hnone k h

/-- A push that the queue has no room for. -/
def fullQueue : List (Fin 1 × Action Nat) :=
  calling 0 (.push 1) 6 ++ calling 0 (.push 2) 6 ++ calling 0 (.push 3) 2

/-- The next step does not test a `slot` that is less than `tail`. -/
def notBehind (s : Threads (Shared T) (Pc T) n) (l : Fin n × Action T) : Bool :=
  match s.locals l.1 with
  | .pushTail _ slot => s.shared.tail ≤ slot
  | _ => true

theorem rejected_only_when_full_fullQueue :
    RejectedAt two fullQueue 16 ∧ FullDuring two fullQueue 16 := by
  have hrejected : RejectedAt two fullQueue 16 :=
    ⟨by decide, 3, 2, by decide +kernel, by decide +kernel⟩
  have hcheck : checkRun (Threads.step (stepThread two)) (fun _ => true) notBehind
      (init two 1) fullQueue = true := by decide +kernel
  refine ⟨hrejected, (rejected_only_when_full two fullQueue).2 (by decide +kernel) (fun k _ => ?_) 16
    hrejected⟩
  rintro ⟨hk, t, slot, hpc, hlt⟩
  have hstep : notBehind (stateAt two fullQueue k) fullQueue[k] = true :=
    (checkRun_spec hcheck).2 k hk
  rw [notBehind, hpc] at hstep
  exact absurd hlt (Nat.not_lt.mpr (of_decide_eq_true hstep))

/-- Thread 0 reads `head`; then thread 1 pushes and pops, and thread 0 goes on. -/
def staleHead : List (Fin 2 × Action Nat) :=
  calling 0 (.push 1) 1 ++ calling 1 (.push 2) 6 ++ calling 1 .pop 6 ++ [(0, .go false)]

/-- A push is turned away from an EMPTY queue that was never full. -/
theorem staleHead_rejected : RejectedAt two staleHead 16 ∧ ¬ FullDuring two staleHead 16 := by
  refine ⟨⟨by decide, 1, 0, by decide +kernel, by decide +kernel⟩, ?_⟩
  have hcheck : checkRun (Threads.step (stepThread two))
      (fun s => sub64 s.shared.head s.shared.tail < 2) (fun _ _ => true) (init two 2) staleHead =
        true := by decide +kernel
  rintro ⟨hk, j, hj, -, hfull⟩
  have hroom := of_decide_eq_true ((checkRun_spec hcheck).1 j)
  exact absurd hfull (Nat.not_le_of_lt hroom)

end Runs

end RelaxedConcurrentFifo.ConcurrentFifo
