/-
# RelaxedConcurrentFifo.LockFifo — `lock_fifo.h`, and that `concurrent_fifo.h` does the same

`lock_fifo` is a ring behind a mutex. Like `concurrent_fifo` it counts pushes and pops with 64-bit
counters that wrap around, but a push uses the counter after it has gone up, and whether the ring is
full or empty is decided from the counters alone. Both queues answer complete calls like a list of at
most `capacity` elements: the state is related to the list by what stands in the ring (`InRing`), and
both counters are known modulo `2 ^ 64` only.

For `concurrent_fifo` a call is a run of accesses of one thread. `During` says what holds before each
of them; it also says that the epoch a spin loop waits for is there already.
-/
import RelaxedConcurrentFifo.ConcurrentFifo
import RelaxedConcurrentFifo.Lib.Rings

namespace RelaxedConcurrentFifo.LockFifo

open RelaxedConcurrentFifo.ConcurrentFifo
open RelaxedConcurrentFifo.Lib.Interleaving
open RelaxedConcurrentFifo.Lib.Rings
open RelaxedConcurrentFifo.Lib.Runs
open RelaxedConcurrentFifo.Lib.Words

variable {T : Type}

/-! ## §1 — the program -/

/-- What the mutex of a `lock_fifo` guards. -/
structure State (T : Type) where
  buffer : Nat → T
  head : Nat
  tail : Nat

/-- The queue as its constructor leaves it. -/
def State.init [Inhabited T] : State T := ⟨fun _ => default, 0, 0⟩

def push (c : Config) (s : State T) (t : T) : State T × Bool :=
  if sub64 s.head s.tail = c.capacity then (s, false)
  else
    let head := (s.head + 1) % 2 ^ 64
    ({ s with
        head := head
        buffer := Function.update s.buffer (moduloPo2 head c.capacity) t }, true)

def pop (c : Config) (s : State T) : State T × Option T :=
  if s.head = s.tail then (s, none)
  else
    let tail := (s.tail + 1) % 2 ^ 64
    ({ s with tail := tail }, some (s.buffer (moduloPo2 tail c.capacity)))

/-- A call of a queue. -/
inductive Op (T : Type) where
  | push (t : T)
  | pop
  deriving DecidableEq, Repr

/-- What a call returns. -/
inductive Result (T : Type) where
  | pushed (result : Bool)
  | popped (result : Option T)
  deriving DecidableEq, Repr

/-- A call of a `lock_fifo`. -/
def lockStep (c : Config) (s : State T) : Op T → State T × Result T
  | .push t => ((push c s t).1, .pushed (push c s t).2)
  | .pop => ((pop c s).1, .popped (pop c s).2)

theorem lockStep_push (c : Config) (s : State T) (t : T) :
    lockStep c s (.push t) = ((push c s t).1, .pushed (push c s t).2) := rfl

theorem lockStep_pop (c : Config) (s : State T) :
    lockStep c s .pop = ((pop c s).1, .popped (pop c s).2) := rfl

/-- A call of a `concurrent_fifo`: its thread, and which of the accesses of the call are
compare-exchanges that fail for no reason. -/
structure Call (T : Type) (n : Nat) where
  thread : Fin n
  op : Op T
  spurious : List Bool

def Op.action : Op T → Action T
  | .push t => .push t
  | .pop => .pop

/-- Accesses of thread `i`. -/
def accesses {n : Nat} (i : Fin n) (spurious : List Bool) : List (Fin n × Action T) :=
  spurious.map fun b => (i, .go b)

/-- The steps of a call. -/
def Call.steps {n : Nat} (a : Call T n) : List (Fin n × Action T) :=
  (a.thread, a.op.action) :: accesses a.thread a.spurious

/-- The result of a call that has returned. -/
def Pc.result : Pc T → Option (Result T)
  | .pushReturned result => some (.pushed result)
  | .popReturned result => some (.popped result)
  | _ => none

/-- A call of a `concurrent_fifo`; there is no result if the call has not returned. -/
def callStep (c : Config) {n : Nat} (s : Threads (Shared T) (Pc T) n) (a : Call T n) :
    Threads (Shared T) (Pc T) n × Option (Result T) :=
  let s' := s.run (stepThread c) a.steps
  (s', Pc.result (s'.locals a.thread))

/-- What both queues are for: a list of at most `capacity` elements, oldest first. -/
def fifoStep (capacity : Nat) (l : List T) : Op T → List T × Result T
  | .push t => if l.length < capacity then (l ++ [t], .pushed true) else (l, .pushed false)
  | .pop => (l.tail, .popped l.head?)

theorem fifoStep_room {capacity : Nat} {l : List T} {t : T} (h : l.length < capacity) :
    fifoStep capacity l (.push t) = (l ++ [t], .pushed true) := if_pos h

theorem fifoStep_full {capacity : Nat} {l : List T} {t : T} (h : ¬ l.length < capacity) :
    fifoStep capacity l (.push t) = (l, .pushed false) := if_neg h

/-! ## §2 — the counters -/

/-- The constructor accepts every power of two that fits into a word. -/
theorem exists_config {k : Nat} (hk : k ≤ 63) : ∃ c : Config, c.capacity = 2 ^ k := by
  have hpo2 : ∀ k ≤ 63, isPo2 (2 ^ k) = true := by decide +kernel
  exact ⟨⟨2 ^ k, hpo2 k hk⟩, rfl⟩

/-- A counter that wraps around still has the right slot. -/
theorem wrap_mod (c : Config) (i : Nat) : i % 2 ^ 64 % c.capacity = i % c.capacity := by
  obtain ⟨k, hk, hcap⟩ := c.capacity_eq
  exact Nat.mod_mod_of_dvd i (hcap ▸ Nat.pow_dvd_pow 2 (by omega))

/-- The difference of two counters is the number of elements. -/
theorem sub64_counters {first length : Nat} (hfirst : first < 2 ^ 64) (hlength : length < 2 ^ 64) :
    sub64 ((first + length) % 2 ^ 64) first = length := by
  unfold sub64
  omega

theorem length_lt_word (c : Config) {l : List T} (h : l.length ≤ c.capacity) :
    l.length < 2 ^ 64 :=
  lt_of_le_of_lt (h.trans c.capacity_le) (Nat.pow_lt_pow_right (by norm_num) (by norm_num))

/-! ## §3 — `lock_fifo` -/

/-- The queue holds `l`, oldest first. A counter is one behind the position it stands for. -/
structure Holds (c : Config) (s : State T) (l : List T) : Prop where
  tail_lt : s.tail < 2 ^ 64
  head : s.head = (s.tail + l.length) % 2 ^ 64
  ring : InRing c.capacity s.buffer (s.tail + 1) l

namespace Holds

variable {c : Config} {s : State T} {l : List T} {x : T}

theorem init [Inhabited T] : Holds c (State.init : State T) [] := ⟨Nat.two_pow_pos 64, rfl, InRing.nil⟩

theorem full_iff (h : Holds c s l) : sub64 s.head s.tail = c.capacity ↔ ¬ l.length < c.capacity := by
  have hfits := h.ring.fits
  rw [h.head, sub64_counters h.tail_lt (length_lt_word c hfits)]
  omega

theorem empty_iff (h : Holds c s l) : s.head = s.tail ↔ l = [] := by
  have hlength := length_lt_word c h.ring.fits
  have htail := h.tail_lt
  have hhead := h.head
  rw [← List.length_eq_zero_iff]
  omega

theorem push_full (h : Holds c s l) (hfull : ¬ l.length < c.capacity) (t : T) :
    push c s t = (s, false) := if_pos (h.full_iff.mpr hfull)

theorem push (h : Holds c s l) (hroom : l.length < c.capacity) (t : T) :
    ∃ s', push c s t = (s', true) ∧ Holds c s' (l ++ [t]) := by
  have hnot : ¬ sub64 s.head s.tail = c.capacity := fun hfull => h.full_iff.mp hfull hroom
  have hhead : (s.head + 1) % 2 ^ 64 = (s.tail + l.length + 1) % 2 ^ 64 := by
    rw [h.head, Nat.mod_add_mod]
  have hslot : moduloPo2 ((s.head + 1) % 2 ^ 64) c.capacity =
      (s.tail + 1 + l.length) % c.capacity := by
    rw [moduloPo2_eq, slotOf, hhead, wrap_mod]
    congr 1
    omega
  refine ⟨_, if_neg hnot, h.tail_lt, ?_, ?_⟩
  · rw [List.length_append, List.length_singleton]
    exact hhead
  · show InRing c.capacity (Function.update s.buffer (moduloPo2 ((s.head + 1) % 2 ^ 64) c.capacity) t)
      (s.tail + 1) (l ++ [t])
    rw [hslot]
    exact h.ring.push hroom t

theorem pop_empty (h : Holds c s []) : pop c s = (s, none) := if_pos (h.empty_iff.mpr rfl)

theorem pop (h : Holds c s (x :: l)) : ∃ s', pop c s = (s', some x) ∧ Holds c s' l := by
  have hnot : ¬ s.head = s.tail := fun hempty => List.cons_ne_nil x l (h.empty_iff.mp hempty)
  have hslot : s.buffer (moduloPo2 ((s.tail + 1) % 2 ^ 64) c.capacity) = x := by
    rw [moduloPo2_eq, slotOf, wrap_mod, h.ring.head]
  refine ⟨{ s with tail := (s.tail + 1) % 2 ^ 64 }, ?_, Nat.mod_lt _ (Nat.two_pow_pos 64), ?_, ?_⟩
  · rw [← hslot]
    exact if_neg hnot
  · show s.head = ((s.tail + 1) % 2 ^ 64 + l.length) % 2 ^ 64
    rw [h.head, List.length_cons, Nat.mod_add_mod]
    congr 1
    omega
  · refine h.ring.tail.congr_first ?_
    show ((s.tail + 1) % 2 ^ 64 + 1) % c.capacity = (s.tail + 1 + 1) % c.capacity
    rw [Nat.add_mod, wrap_mod, ← Nat.add_mod]

/-- A call answers as the list does, and the queue holds the list after it. -/
theorem answers (h : Holds c s l) (op : Op T) :
    (lockStep c s op).2 = (fifoStep c.capacity l op).2 ∧
      Holds c (lockStep c s op).1 (fifoStep c.capacity l op).1 := by
  cases op with
  | push t =>
      rw [lockStep_push]
      by_cases hroom : l.length < c.capacity
      · obtain ⟨s', hpush, hholds⟩ := h.push hroom t
        rw [fifoStep_room hroom, hpush]
        exact ⟨rfl, hholds⟩
      · rw [fifoStep_full hroom, h.push_full hroom]
        exact ⟨rfl, h⟩
  | pop =>
      rw [lockStep_pop]
      cases l with
      | nil =>
          rw [h.pop_empty]
          exact ⟨rfl, h⟩
      | cons x l =>
          obtain ⟨s', hpop, hholds⟩ := h.pop
          rw [hpop]
          exact ⟨rfl, hholds⟩

end Holds

/-! ## §4 — a call of `concurrent_fifo` -/

/-- The epochs of the slots from position `first` on, when the first `n` of them are to be popped. -/
def slotEpochs (c : Config) (first n : Nat) : List Nat :=
  (List.range c.capacity).map fun j => slotToEpoch ((first + j) % 2 ^ 64) (decide (j < n))

/-- From position `first` on, the values of `l` and `n` epochs of elements stand in the slots. -/
structure Slots (c : Config) (m : Shared T) (first : Nat) (l : List T) (n : Nat) : Prop where
  first_lt : first < 2 ^ 64
  values : InRing c.capacity m.value first l
  epochs : InRing c.capacity m.epoch first (slotEpochs c first n)

/-- No call is running, and the queue holds `l`. -/
structure Quiet (c : Config) (m : Shared T) (l : List T) : Prop where
  slots : Slots c m m.tail l l.length
  head : m.head = (m.tail + l.length) % 2 ^ 64

/-- A push has drawn ticket `slot`. -/
structure PushTicket (c : Config) (m : Shared T) (l : List T) (slot : Nat) : Prop where
  room : l.length < c.capacity
  ticket : slot = (m.tail + l.length) % 2 ^ 64
  head : m.head = (slot + 1) % 2 ^ 64

/-- A pop has drawn ticket `slot`. -/
structure PopTicket (m : Shared T) (l : List T) (slot : Nat) : Prop where
  nonempty : l ≠ []
  tail : m.tail = (slot + 1) % 2 ^ 64
  head : m.head = (slot + l.length) % 2 ^ 64

/-- What holds before each access of the call `op` on a queue that held `l`; when the call has
returned, what the list says. -/
def During (c : Config) (op : Op T) (l : List T) (m : Shared T) : Pc T → Prop
  | .start => False
  | .pushReturned result => ∃ l', fifoStep c.capacity l op = (l', .pushed result) ∧ Quiet c m l'
  | .popReturned result => ∃ l', fifoStep c.capacity l op = (l', .popped result) ∧ Quiet c m l'
  | .pushHead t => op = .push t ∧ Quiet c m l
  | .pushTail t slot => op = .push t ∧ Quiet c m l ∧ slot = m.head
  | .pushCas t slot => op = .push t ∧ Quiet c m l ∧ slot = m.head ∧ l.length < c.capacity
  | .pushWait t slot | .pushStore t slot =>
      op = .push t ∧ PushTicket c m l slot ∧ Slots c m m.tail l l.length
  | .pushPublish t slot => op = .push t ∧ PushTicket c m l slot ∧ Slots c m m.tail (l ++ [t]) l.length
  | .popTail => op = .pop ∧ Quiet c m l
  | .popHead slot => op = .pop ∧ Quiet c m l ∧ slot = m.tail
  | .popCas slot => op = .pop ∧ Quiet c m l ∧ slot = m.tail ∧ l ≠ []
  | .popWait slot | .popLoad slot => op = .pop ∧ PopTicket m l slot ∧ Slots c m slot l l.length
  | .popRelease slot ret =>
      op = .pop ∧ PopTicket m l slot ∧ Slots c m slot l l.length ∧ l.head? = some ret

/-- A thread that is at a spin loop finds the epoch there that it waits for. -/
def SpinExits (c : Config) (m : Shared T) : Pc T → Prop
  | .pushWait _ slot => m.epoch (moduloPo2 slot c.capacity) = slotToEpoch slot false
  | .popWait slot => m.epoch (moduloPo2 slot c.capacity) = slotToEpoch slot true
  | _ => True

/-- The thread is outside of a call. -/
def Outside : Pc T → Prop
  | .start | .pushReturned _ | .popReturned _ => True
  | _ => False

section Epochs

variable {c : Config} {first n : Nat}

theorem length_slotEpochs : (slotEpochs c first n).length = c.capacity := by
  rw [slotEpochs, List.length_map, List.length_range]

theorem getElem_slotEpochs {j : Nat} (hj : j < (slotEpochs c first n).length) :
    (slotEpochs c first n)[j] = slotToEpoch ((first + j) % 2 ^ 64) (decide (j < n)) := by
  simp only [slotEpochs, List.getElem_map, List.getElem_range]

/-- One more element. -/
theorem slotEpochs_succ :
    slotEpochs c first (n + 1) =
      (slotEpochs c first n).set n (slotToEpoch ((first + n) % 2 ^ 64) true) := by
  refine List.ext_getElem (by rw [List.length_set, length_slotEpochs, length_slotEpochs])
    fun j hj hj' => ?_
  rw [List.getElem_set, getElem_slotEpochs, getElem_slotEpochs]
  by_cases hjn : n = j
  · rw [if_pos hjn, hjn, decide_eq_true (Nat.lt_succ_self j)]
  · rw [if_neg hjn, show decide (j < n + 1) = decide (j < n) from decide_eq_decide.mpr (by omega)]

/-- The first element is taken away: its slot is the one of the last position now. -/
theorem slotEpochs_shift (hn : n < c.capacity) :
    slotEpochs c ((first + 1) % 2 ^ 64) n =
      (slotEpochs c first (n + 1)).tail ++ [slotToEpoch ((first + c.capacity) % 2 ^ 64) false] := by
  have hlength : ∀ f k, (slotEpochs c f k).length = c.capacity := fun _ _ => length_slotEpochs
  have htail : (slotEpochs c first (n + 1)).tail.length = c.capacity - 1 := by
    rw [List.length_tail, hlength]
  refine List.ext_getElem ?_ fun j hj hj' => ?_
  · rw [List.length_append, htail, hlength, List.length_singleton]
    omega
  · rw [hlength] at hj
    rw [getElem_slotEpochs, Nat.mod_add_mod]
    by_cases hlast : j < c.capacity - 1
    · rw [List.getElem_append_left (htail ▸ hlast), List.getElem_tail, getElem_slotEpochs]
      rw [Nat.add_right_comm, Nat.add_assoc,
        show decide (j + 1 < n + 1) = decide (j < n) from decide_eq_decide.mpr (by omega)]
    · obtain rfl : j = c.capacity - 1 := by omega
      rw [List.getElem_append_right htail.le, List.getElem_singleton,
        decide_eq_false (by omega : ¬ c.capacity - 1 < n)]
      congr 2
      omega

end Epochs

section Accesses

variable {c : Config} {m : Shared T} {op : Op T} {l : List T} {t ret : T} {first n slot : Nat}

/-- The epoch of a position. -/
theorem Slots.epoch (h : Slots c m first l n) {j : Nat} (hj : j < c.capacity) :
    m.epoch (moduloPo2 ((first + j) % 2 ^ 64) c.capacity) =
      slotToEpoch ((first + j) % 2 ^ 64) (decide (j < n)) := by
  rw [moduloPo2_eq, slotOf, wrap_mod, h.epochs.slot j (length_slotEpochs ▸ hj), getElem_slotEpochs]

theorem PushTicket.exits (h : PushTicket c m l slot) (hslots : Slots c m m.tail l l.length) :
    m.epoch (moduloPo2 slot c.capacity) = slotToEpoch slot false := by
  have hepoch := hslots.epoch h.room
  rwa [← h.ticket, decide_eq_false (Nat.lt_irrefl _)] at hepoch

theorem PopTicket.exits (h : PopTicket m l slot) (hslots : Slots c m slot l l.length) :
    m.epoch (moduloPo2 slot c.capacity) = slotToEpoch slot true := by
  have hepoch := hslots.epoch c.capacity_pos
  rwa [Nat.add_zero, Nat.mod_eq_of_lt hslots.first_lt,
    decide_eq_true (List.length_pos_iff.mpr h.nonempty)] at hepoch

/-- **No call ever waits in a spin loop.** -/
theorem During.spinExits {pc : Pc T} (h : During c op l m pc) : SpinExits c m pc := by
  cases pc with
  | pushWait t slot => exact h.2.1.exits h.2.2
  | popWait slot => exact h.2.1.exits h.2.2
  | _ => trivial

theorem Quiet.full_iff (h : Quiet c m l) : sub64 m.head m.tail ≥ c.capacity ↔
    ¬ l.length < c.capacity := by
  rw [h.head, sub64_counters h.slots.first_lt (length_lt_word c h.slots.values.fits), Nat.not_lt]

theorem Quiet.empty_iff (h : Quiet c m l) : m.tail = m.head ↔ l = [] := by
  have hlength := length_lt_word c h.slots.values.fits
  have htail := h.slots.first_lt
  have hhead := h.head
  rw [← List.length_eq_zero_iff]
  omega

theorem Slots.congr {m' : Shared T} (h : Slots c m first l n) (hvalue : m'.value = m.value)
    (hepoch : m'.epoch = m.epoch) : Slots c m' first l n :=
  ⟨h.first_lt, hvalue ▸ h.values, hepoch ▸ h.epochs⟩

/-- The store of a push puts the value behind the others. -/
theorem Slots.store {m' : Shared T} (h : Slots c m first l n) (hroom : l.length < c.capacity)
    (hvalue : m'.value = Function.update m.value
      (moduloPo2 ((first + l.length) % 2 ^ 64) c.capacity) t)
    (hepoch : m'.epoch = m.epoch) : Slots c m' first (l ++ [t]) n := by
  rw [moduloPo2_eq, slotOf, wrap_mod] at hvalue
  exact ⟨h.first_lt, hvalue ▸ h.values.push hroom t, hepoch ▸ h.epochs⟩

/-- The epoch that a push stores counts one element more. -/
theorem Slots.publish {m' : Shared T} (h : Slots c m first l n) (hroom : n < c.capacity)
    (hvalue : m'.value = m.value)
    (hepoch : m'.epoch = Function.update m.epoch (moduloPo2 ((first + n) % 2 ^ 64) c.capacity)
      (slotToEpoch ((first + n) % 2 ^ 64) true)) : Slots c m' first l (n + 1) := by
  rw [moduloPo2_eq, slotOf, wrap_mod] at hepoch
  refine ⟨h.first_lt, hvalue ▸ h.values, ?_⟩
  rw [hepoch, slotEpochs_succ]
  exact h.epochs.set hroom _

/-- The epoch that a pop stores is that of the last position of the next lap. -/
theorem Slots.release {m' : Shared T} (h : Slots c m first l (n + 1)) (hn : n < c.capacity)
    (hvalue : m'.value = m.value)
    (hepoch : m'.epoch = Function.update m.epoch (moduloPo2 first c.capacity)
      (slotToEpoch ((first + c.capacity) % 2 ^ 64) false)) :
    Slots c m' ((first + 1) % 2 ^ 64) l.tail n := by
  have hslot : (first + 1) % 2 ^ 64 % c.capacity = (first + 1) % c.capacity := wrap_mod c _
  rw [moduloPo2_eq, slotOf] at hepoch
  refine ⟨Nat.mod_lt _ (Nat.two_pow_pos 64), ?_, ?_⟩
  · rw [hvalue]
    exact h.values.tail.congr_first hslot
  · rw [hepoch, slotEpochs_shift hn]
    exact (h.epochs.rotate c.capacity_pos length_slotEpochs _).congr_first hslot

theorem PushTicket.of_quiet {m' : Shared T} (h : Quiet c m l) (hroom : l.length < c.capacity)
    (hhead : m'.head = (m.head + 1) % 2 ^ 64) (htail : m'.tail = m.tail) :
    PushTicket c m' l m.head := ⟨hroom, htail ▸ h.head, hhead⟩

/-- A push that has stored its epoch is done. -/
theorem PushTicket.done {m' : Shared T} (h : PushTicket c m l slot)
    (hslots : Slots c m' m.tail (l ++ [t]) (l.length + 1)) (hhead : m'.head = m.head)
    (htail : m'.tail = m.tail) : Quiet c m' (l ++ [t]) := by
  refine ⟨?_, ?_⟩
  · rw [htail, List.length_append, List.length_singleton]
    exact hslots
  · rw [hhead, htail, h.head, h.ticket, List.length_append, List.length_singleton, Nat.mod_add_mod,
      Nat.add_assoc]

/-- A pop that has stored its epoch is done. -/
theorem PopTicket.done {m' : Shared T} (h : PopTicket m (ret :: l) slot)
    (hslots : Slots c m' ((slot + 1) % 2 ^ 64) l l.length) (hhead : m'.head = m.head)
    (htail : m'.tail = m.tail) : Quiet c m' l := by
  refine ⟨?_, ?_⟩
  · rw [htail, h.tail]
    exact hslots
  · rw [hhead, htail, h.tail, h.head, List.length_cons, Nat.mod_add_mod, Nat.add_assoc,
      Nat.add_comm 1]

/-- **Every access of a call does its part of it.** -/
theorem during_access {pc : Pc T} (h : During c op l m pc) (spurious : Bool) :
    During c op l (access c spurious m pc).1 (access c spurious m pc).2 := by
  cases pc with
  | start => exact h
  | pushReturned result => exact h
  | popReturned result => exact h
  | pushHead t => exact ⟨h.1, h.2, rfl⟩
  | pushTail t slot =>
      obtain ⟨rfl, hquiet, rfl⟩ := h
      rw [ConcurrentFifo.access]
      split
      · rename_i hfull
        exact ⟨l, fifoStep_full (hquiet.full_iff.mp hfull), hquiet⟩
      · rename_i hnot
        exact ⟨rfl, hquiet, rfl, not_not.mp (mt hquiet.full_iff.mpr hnot)⟩
  | pushCas t slot =>
      obtain ⟨rfl, hquiet, rfl, hroom⟩ := h
      rw [ConcurrentFifo.access]
      split
      · exact ⟨rfl, PushTicket.of_quiet hquiet hroom rfl rfl, hquiet.slots.congr rfl rfl⟩
      · exact ⟨rfl, hquiet, rfl⟩
  -- under the lock the slot of a ticket is always ready, so the wait ends at once
  | pushWait t slot =>
      obtain ⟨hop, hticket, hslots⟩ := h
      rw [ConcurrentFifo.access, if_neg (not_not.mpr (hticket.exits hslots))]
      exact ⟨hop, hticket, hslots⟩
  | pushStore t slot =>
      obtain ⟨hop, hticket, hslots⟩ := h
      refine ⟨hop, ⟨hticket.room, hticket.ticket, hticket.head⟩, hslots.store hticket.room ?_ rfl⟩
      rw [← hticket.ticket]
      rfl
  | pushPublish t slot =>
      obtain ⟨rfl, hticket, hslots⟩ := h
      refine ⟨l ++ [t], fifoStep_room hticket.room, hticket.done (hslots.publish hticket.room rfl ?_)
        rfl rfl⟩
      rw [← hticket.ticket]
      rfl
  | popTail => exact ⟨h.1, h.2, rfl⟩
  | popHead slot =>
      obtain ⟨rfl, hquiet, rfl⟩ := h
      rw [ConcurrentFifo.access]
      split
      · rename_i hempty
        obtain rfl := hquiet.empty_iff.mp hempty
        exact ⟨[], rfl, hquiet⟩
      · rename_i hnot
        exact ⟨rfl, hquiet, rfl, mt hquiet.empty_iff.mpr hnot⟩
  | popCas slot =>
      obtain ⟨rfl, hquiet, rfl, hne⟩ := h
      rw [ConcurrentFifo.access]
      split
      · exact ⟨rfl, ⟨hne, rfl, hquiet.head⟩, hquiet.slots.congr rfl rfl⟩
      · exact ⟨rfl, hquiet, rfl⟩
  | popWait slot =>
      obtain ⟨hop, hticket, hslots⟩ := h
      rw [ConcurrentFifo.access, if_neg (not_not.mpr (hticket.exits hslots))]
      exact ⟨hop, hticket, hslots⟩
  | popLoad slot =>
      obtain ⟨hop, hticket, hslots⟩ := h
      refine ⟨hop, ⟨hticket.nonempty, hticket.tail, hticket.head⟩, hslots.congr rfl rfl, ?_⟩
      cases l with
      | nil => exact absurd rfl hticket.nonempty
      | cons x l =>
          have hvalue := hslots.values.head
          rw [List.head?_cons, moduloPo2_eq, slotOf, hvalue]
  | popRelease slot ret =>
      obtain ⟨rfl, hticket, hslots, hret⟩ := h
      obtain ⟨l', rfl⟩ := List.head?_eq_some_iff.mp hret
      have hroom : l'.length < c.capacity := hslots.values.fits
      exact ⟨l', rfl, hticket.done (hslots.release hroom rfl rfl) rfl rfl⟩

end Accesses

/-! ## §5 — complete calls -/

/-- How many accesses a call still makes if no compare-exchange fails. -/
def todo : Pc T → Nat
  | .pushHead _ | .popTail => 6
  | .pushTail _ _ | .popHead _ => 5
  | .pushCas _ _ | .popCas _ => 4
  | .pushWait _ _ | .popWait _ => 3
  | .pushStore _ _ | .popLoad _ => 2
  | .pushPublish _ _ | .popRelease _ _ => 1
  | .start | .pushReturned _ | .popReturned _ => 0

section Calls

variable {c : Config} {n : Nat} {s : Threads (Shared T) (Pc T) n} {op : Op T} {l : List T} {i : Fin n}

/-- Outside of a call, an access does nothing. -/
theorem stepThread_go (c : Config) (b : Bool) (m : Shared T) (pc : Pc T) :
    stepThread c (.go b) m pc = access c b m pc := by
  cases pc <;> rfl

theorem access_of_todo {b : Bool} {m : Shared T} {pc : Pc T} (h : todo pc = 0) :
    access c b m pc = (m, pc) := by
  cases pc with
  | start => rfl
  | pushReturned result => rfl
  | popReturned result => rfl
  | _ => cases h

theorem stepThread_op (c : Config) (op : Op T) (m : Shared T) {pc : Pc T} (h : Outside pc) :
    stepThread c op.action m pc = (m, call op.action pc) := by
  cases pc with
  | start => cases op <;> rfl
  | pushReturned result => cases op <;> rfl
  | popReturned result => cases op <;> rfl
  | _ => exact h.elim

/-- An access brings the call closer to its end, unless its compare-exchange fails. -/
theorem During.todo_access {m : Shared T} {pc : Pc T} (h : During c op l m pc) (b : Bool) :
    todo (access c b m pc).2 = 0 ∨ todo (access c b m pc).2 + 1 ≤ todo pc + 2 * b.toNat := by
  cases pc with
  | start => exact Or.inl rfl
  | pushReturned result => exact Or.inl rfl
  | popReturned result => exact Or.inl rfl
  | pushTail t slot =>
      rw [ConcurrentFifo.access]
      split
      · exact Or.inl rfl
      · exact Or.inr (Nat.le_add_right 5 _)
  | popHead slot =>
      rw [ConcurrentFifo.access]
      split
      · exact Or.inl rfl
      · exact Or.inr (Nat.le_add_right 5 _)
  | pushCas t slot =>
      obtain ⟨-, -, rfl, -⟩ := h
      cases b with
      | false =>
          rw [ConcurrentFifo.access, if_pos ⟨rfl, rfl⟩]
          exact Or.inr (Nat.le_refl 4)
      -- a spurious failure sends the call back to the check before it
      | true =>
          rw [ConcurrentFifo.access, if_neg (fun hcas => absurd hcas.2 Bool.noConfusion)]
          exact Or.inr (Nat.le_refl 6)
  | popCas slot =>
      obtain ⟨-, -, rfl, -⟩ := h
      cases b with
      | false =>
          rw [ConcurrentFifo.access, if_pos ⟨rfl, rfl⟩]
          exact Or.inr (Nat.le_refl 4)
      | true =>
          rw [ConcurrentFifo.access, if_neg (fun hcas => absurd hcas.2 Bool.noConfusion)]
          exact Or.inr (Nat.le_refl 6)
  | pushWait t slot =>
      rw [ConcurrentFifo.access, if_neg (not_not.mpr (h.2.1.exits h.2.2))]
      exact Or.inr (Nat.le_add_right 3 _)
  | popWait slot =>
      rw [ConcurrentFifo.access, if_neg (not_not.mpr (h.2.1.exits h.2.2))]
      exact Or.inr (Nat.le_add_right 3 _)
  | _ => exact Or.inr (Nat.le_add_right _ _)

theorem step_go (c : Config) (s : Threads (Shared T) (Pc T) n) (i : Fin n) (b : Bool) :
    (s.step (stepThread c) (i, .go b)).shared = (access c b s.shared (s.locals i)).1 ∧
      (s.step (stepThread c) (i, .go b)).locals i = (access c b s.shared (s.locals i)).2 := by
  rw [← stepThread_go]
  exact ⟨rfl, Threads.step_locals_self (i, Action.go b)⟩

/-- What holds during a call holds after any number of its accesses, and the other threads stay
where they are. -/
theorem During.run (h : During c op l s.shared (s.locals i)) (flags : List Bool) :
    During c op l (s.run (stepThread c) (accesses i flags)).shared
        ((s.run (stepThread c) (accesses i flags)).locals i) ∧
      ∀ j ≠ i, (s.run (stepThread c) (accesses i flags)).locals j = s.locals j := by
  induction flags generalizing s with
  | nil => exact ⟨h, fun _ _ => rfl⟩
  | cons b flags ih =>
      obtain ⟨hshared, hlocal⟩ := step_go c s i b
      have hnext : During c op l (s.step (stepThread c) (i, .go b)).shared
          ((s.step (stepThread c) (i, .go b)).locals i) := by
        rw [hshared, hlocal]
        exact during_access h b
      obtain ⟨hduring, hothers⟩ := ih hnext
      exact ⟨hduring, fun j hj => (hothers j hj).trans (Threads.step_locals_ne (i, Action.go b) hj)⟩

/-- A call that makes enough accesses comes to its end. -/
theorem During.todo_run (h : During c op l s.shared (s.locals i)) (flags : List Bool)
    (henough : todo (s.locals i) = 0 ∨ todo (s.locals i) + 2 * flags.count true ≤ flags.length) :
    todo ((s.run (stepThread c) (accesses i flags)).locals i) = 0 := by
  induction flags generalizing s with
  | nil => exact henough.elim id fun hle => Nat.le_zero.mp ((Nat.le_add_right _ _).trans hle)
  | cons b flags ih =>
      obtain ⟨hshared, hlocal⟩ := step_go c s i b
      have hnext : During c op l (s.step (stepThread c) (i, .go b)).shared
          ((s.step (stepThread c) (i, .go b)).locals i) := by
        rw [hshared, hlocal]
        exact during_access h b
      refine ih hnext ?_
      rw [hlocal]
      rcases henough with hzero | hle
      · left
        rw [access_of_todo hzero]
        exact hzero
      · refine (h.todo_access b).imp id fun hless => ?_
        rw [List.count_cons, List.length_cons] at hle
        cases b with
        | false =>
            rw [Bool.toNat_false] at hless
            rw [if_neg (by decide)] at hle
            omega
        | true =>
            rw [Bool.toNat_true] at hless
            rw [if_pos (by decide)] at hle
            omega

/-- No call is running. -/
structure Idle (c : Config) (s : Threads (Shared T) (Pc T) n) (l : List T) : Prop where
  quiet : Quiet c s.shared l
  outside : ∀ i, Outside (s.locals i)

/-- A call begins. -/
theorem Idle.begin (h : Idle c s l) (i : Fin n) (op : Op T) :
    let s' := s.step (stepThread c) (i, op.action)
    During c op l s'.shared (s'.locals i) ∧ todo (s'.locals i) = 6 ∧
      ∀ j ≠ i, s'.locals j = s.locals j := by
  have hstep := stepThread_op c op s.shared (h.outside i)
  have hlocal : (s.step (stepThread c) (i, op.action)).locals i = call op.action (s.locals i) := by
    rw [Threads.step_locals_self (i, op.action), hstep]
  have hshared : (s.step (stepThread c) (i, op.action)).shared = s.shared := by
    rw [Threads.step_shared, hstep]
  intro s'
  rw [hlocal, hshared]
  refine ⟨?_, ?_, fun j hj => Threads.step_locals_ne (i, op.action) hj⟩
  · cases op with
    | push t => exact ⟨rfl, h.quiet⟩
    | pop => exact ⟨rfl, h.quiet⟩
  · cases op <;> rfl

/-- A call that has returned answers as the list does, and leaves the queue with the list after
it. -/
theorem Idle.answers (h : Idle c s l) (a : Call T n) (hreturned : (callStep c s a).2 ≠ none) :
    (callStep c s a).2 = some (fifoStep c.capacity l a.op).2 ∧
      Idle c (callStep c s a).1 (fifoStep c.capacity l a.op).1 := by
  obtain ⟨hbegin, -, hbefore⟩ := h.begin a.thread a.op
  obtain ⟨hduring, hothers⟩ := hbegin.run a.spurious
  let s' := (callStep c s a).1
  change During c a.op l s'.shared (s'.locals a.thread) at hduring
  have hresult : (callStep c s a).2 = Pc.result (s'.locals a.thread) := rfl
  have houtside : Outside (s'.locals a.thread) → ∀ i, Outside (s'.locals i) := by
    intro hself i
    by_cases hi : i = a.thread
    · rw [hi]
      exact hself
    · have hsame : s'.locals i = s.locals i := (hothers i hi).trans (hbefore i hi)
      rw [hsame]
      exact h.outside i
  rw [hresult] at hreturned ⊢
  -- only a returned call has a result, and there the invariant names the list
  cases hpc : s'.locals a.thread with
  | pushReturned result =>
      rw [hpc] at hduring houtside
      obtain ⟨l', hfifo, hquiet⟩ := hduring
      rw [hfifo]
      exact ⟨rfl, hquiet, houtside trivial⟩
  | popReturned result =>
      rw [hpc] at hduring houtside
      obtain ⟨l', hfifo, hquiet⟩ := hduring
      rw [hfifo]
      exact ⟨rfl, hquiet, houtside trivial⟩
  | _ =>
      rw [hpc] at hreturned
      exact absurd rfl hreturned

/-- A call that makes enough accesses returns. -/
theorem Idle.returns (h : Idle c s l) (a : Call T n)
    (henough : 6 + 2 * a.spurious.count true ≤ a.spurious.length) :
    (callStep c s a).2 ≠ none := by
  obtain ⟨hbegin, htodo, -⟩ := h.begin a.thread a.op
  have hduring := (hbegin.run a.spurious).1
  have hdone := hbegin.todo_run a.spurious (Or.inr (by rw [htodo]; exact henough))
  let s' := (callStep c s a).1
  change During c a.op l s'.shared (s'.locals a.thread) at hduring
  change todo (s'.locals a.thread) = 0 at hdone
  show Pc.result (s'.locals a.thread) ≠ none
  cases hpc : s'.locals a.thread with
  | start =>
      rw [hpc] at hduring
      exact hduring.elim
  | pushReturned result => exact Option.some_ne_none _
  | popReturned result => exact Option.some_ne_none _
  | _ =>
      rw [hpc] at hdone
      cases hdone

/-- In no state of a call does a thread wait in a spin loop. -/
theorem Idle.spinExits (h : Idle c s l) (a : Call T n) (k : Nat) (i : Fin n) :
    SpinExits c (s.run (stepThread c) (a.steps.take k)).shared
      ((s.run (stepThread c) (a.steps.take k)).locals i) := by
  have hidle : ∀ (m : Shared T) (pc : Pc T), Outside pc → SpinExits c m pc := by
    intro m pc hpc
    cases pc with
    | pushWait t slot => exact hpc.elim
    | popWait slot => exact hpc.elim
    | _ => trivial
  cases k with
  | zero => exact hidle _ _ (h.outside i)
  | succ k =>
      obtain ⟨hbegin, -, hbefore⟩ := h.begin a.thread a.op
      obtain ⟨hduring, hothers⟩ := hbegin.run (a.spurious.take k)
      have htake : a.steps.take (k + 1) =
          (a.thread, a.op.action) :: accesses a.thread (a.spurious.take k) := by
        rw [Call.steps, List.take_succ_cons, accesses, accesses, List.map_take]
      rw [htake]
      by_cases hi : i = a.thread
      · rw [hi]
        exact hduring.spinExits
      · refine hidle _ _ ?_
        have hsame := (hothers i hi).trans (hbefore i hi)
        exact hsame ▸ h.outside i

end Calls

/-! ## §6 — both queues are the same bounded FIFO -/

section Main

variable [Inhabited T] {n : Nat}

/-- Every call returns before the next one begins. -/
def Complete (c : Config) (calls : List (Call T n)) : Prop :=
  ∀ r ∈ responses (callStep c) (ConcurrentFifo.init c n) calls, r ≠ none

/-- The state after the first `k` steps of the calls. -/
def stateAfter (c : Config) (calls : List (Call T n)) (k : Nat) : Threads (Shared T) (Pc T) n :=
  (ConcurrentFifo.init c n).run (stepThread c) ((calls.flatMap Call.steps).take k)

theorem idle_init (c : Config) : Idle c (ConcurrentFifo.init c n : Threads (Shared T) (Pc T) n) [] := by
  refine ⟨⟨⟨Nat.two_pow_pos 64, InRing.nil, length_slotEpochs.le, fun j hj => ?_⟩, rfl⟩,
    fun _ => trivial⟩
  rw [length_slotEpochs] at hj
  have hword : j < 2 ^ 64 := by
    have hcap := c.capacity_le
    omega
  rw [getElem_slotEpochs]
  show (if (0 + j) % c.capacity < c.capacity then slotToEpoch ((0 + j) % c.capacity) false else 0) =
    slotToEpoch ((0 + j) % 2 ^ 64) (decide (j < 0))
  rw [if_pos (Nat.mod_lt _ c.capacity_pos), Nat.zero_add, Nat.mod_eq_of_lt hj,
    Nat.mod_eq_of_lt hword, decide_eq_false (Nat.not_lt_zero j)]

omit [Inhabited T] in
/-- After complete calls, no thread waits in a spin loop of the next one either. -/
theorem Idle.spinExits_calls {c : Config} {s : Threads (Shared T) (Pc T) n} {l : List T}
    (h : Idle c s l) {calls : List (Call T n)}
    (hcomplete : ∀ r ∈ responses (callStep c) s calls, r ≠ none) (k : Nat) (i : Fin n) :
    SpinExits c (s.run (stepThread c) ((calls.flatMap Call.steps).take k)).shared
      ((s.run (stepThread c) ((calls.flatMap Call.steps).take k)).locals i) := by
  induction calls generalizing s l k with
  | nil =>
      rw [List.flatMap_nil, List.take_nil]
      cases hpc : s.locals i with
      | pushWait t slot =>
          have hout := h.outside i
          rw [hpc] at hout
          exact hout.elim
      | popWait slot =>
          have hout := h.outside i
          rw [hpc] at hout
          exact hout.elim
      | _ =>
          rw [Threads.run_nil, hpc]
          trivial
  | cons a calls ih =>
      rw [List.flatMap_cons, List.take_append, Threads.run_append]
      by_cases hk : k ≤ a.steps.length
      · rw [Nat.sub_eq_zero_of_le hk, List.take_zero, Threads.run_nil]
        exact h.spinExits a k i
      · rw [List.take_of_length_le (Nat.le_of_not_le hk)]
        obtain ⟨-, hnext⟩ := h.answers a (hcomplete _ List.mem_cons_self)
        exact ih hnext (fun r hr => hcomplete r (List.mem_cons_of_mem _ hr)) _

variable (T) in
/-- What the two queues have in common, for every capacity and any number of threads. -/
structure SameFifo (c : Config) (n : Nat) : Prop where
  /-- `lock_fifo` answers as the list does. -/
  lock : ∀ ops : List (Op T),
    responses (lockStep c) State.init ops = responses (fifoStep c.capacity) [] ops
  /-- `concurrent_fifo` does, if each call returns before the next begins. -/
  concurrent : ∀ calls : List (Call T n), Complete c calls →
    responses (callStep c) (ConcurrentFifo.init c n) calls =
      (responses (fifoStep c.capacity) [] (calls.map Call.op)).map some
  /-- The condition of a spin loop is false whenever a thread is there. -/
  spins : ∀ calls : List (Call T n), Complete c calls → ∀ k i,
    SpinExits c (stateAfter c calls k).shared ((stateAfter c calls k).locals i)
  /-- A call returns after six accesses, and two more for each spurious failure. -/
  returns : ∀ calls : List (Call T n),
    (∀ a ∈ calls, 6 + 2 * a.spurious.count true ≤ a.spurious.length) → Complete c calls

omit [Inhabited T] in
theorem Idle.complete {c : Config} {s : Threads (Shared T) (Pc T) n} {l : List T} (h : Idle c s l)
    {calls : List (Call T n)}
    (henough : ∀ a ∈ calls, 6 + 2 * a.spurious.count true ≤ a.spurious.length) :
    ∀ r ∈ responses (callStep c) s calls, r ≠ none := by
  induction calls generalizing s l with
  | nil => exact fun r hr => absurd hr List.not_mem_nil
  | cons a calls ih =>
      have hreturned := h.returns a (henough a List.mem_cons_self)
      obtain ⟨-, hnext⟩ := h.answers a hreturned
      intro r hr
      rcases List.mem_cons.mp hr with rfl | hr
      · exact hreturned
      · exact ih hnext (fun a ha => henough a (List.mem_cons_of_mem _ ha)) r hr

/-- **`lock_fifo` and `concurrent_fifo` are the same bounded FIFO**, for any number of calls. -/
theorem same_fifo (c : Config) (n : Nat) : SameFifo T c n where
  lock ops := by
    have hsame := responses_eq (Holds c) (fun _ => True) id id (fun _ _ op h _ => h.answers op)
      (Holds.init : Holds c (State.init : State T) []) ops (fun _ _ => trivial)
    rwa [List.map_id, List.map_id] at hsame
  concurrent calls hcomplete :=
    responses_eq (Idle c) (fun r => r ≠ none) Call.op some (fun _ _ a h hr => h.answers a hr)
      (idle_init c) calls hcomplete
  spins _ hcomplete k i := (idle_init c).spinExits_calls hcomplete k i
  returns _ henough := (idle_init c).complete henough

/-- Three pushes and three pops of a queue for two; the first compare-exchange fails once. -/
def sixCalls : List (Call Nat 1) :=
  [⟨0, .push 4, [false, false, true, false, false, false, false, false]⟩,
    ⟨0, .push 5, List.replicate 6 false⟩, ⟨0, .push 6, List.replicate 6 false⟩,
    ⟨0, .pop, List.replicate 6 false⟩, ⟨0, .pop, List.replicate 6 false⟩,
    ⟨0, .pop, List.replicate 6 false⟩]

theorem same_fifo_sixCalls :
    responses (callStep two) (ConcurrentFifo.init two 1) sixCalls =
        [.pushed true, .pushed true, .pushed false, .popped (some 4), .popped (some 5),
          .popped none].map some ∧
      responses (callStep two) (ConcurrentFifo.init two 1) sixCalls =
        (responses (lockStep two) State.init (sixCalls.map Call.op)).map some := by
  have hsame := same_fifo (T := Nat) two 1
  have hcomplete := hsame.returns sixCalls (by decide)
  have hconcurrent := hsame.concurrent sixCalls hcomplete
  rw [hsame.lock]
  exact ⟨hconcurrent, hconcurrent⟩

end Main

end RelaxedConcurrentFifo.LockFifo
