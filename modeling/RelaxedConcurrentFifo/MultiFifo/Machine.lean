/-
# RelaxedConcurrentFifo.MultiFifo.Machine — `multififo.hpp`, `handle.hpp` and the three modes

A `MultiFifo` is an array of small ring buffers, each with a test-and-test-and-set lock and a cached
tick (two in the symmetric mode). `push` and `pop` first try one of a few candidate queues that the
handle sticks to, and scan all queues when that fails. The modes differ in how candidates are drawn
(at random, or from the handle's part of a shared permutation) and in which candidate a call takes.

One step of a handle is one access to shared memory: the load and the exchange of `try_lock`, the
store of `unlock`, each access to `head`, `tail`, a slot, a tick or the permutation. What the code
does without such an access (drawing random numbers, comparing, counting) belongs to the step before
or stands alone where it loops. Inside a critical section a step touches ONE queue and nothing else,
so those steps are a function of that queue (`Queue.access`).
-/
import RelaxedConcurrentFifo.Lib.Interleaving
import RelaxedConcurrentFifo.Lib.Runs
import RelaxedConcurrentFifo.Lib.Words

namespace RelaxedConcurrentFifo.MultiFifo

open RelaxedConcurrentFifo.Lib.Interleaving
open RelaxedConcurrentFifo.Lib.Words

variable {T : Type}

/-! ## §1 — the data -/

inductive Mode where
  | stickRandom
  | stickSwap
  | stickRandomSymmetric
  deriving DecidableEq, Repr

/-- What a `MultiFifo` is made with: `num_queues` is an `int`, `size` a `std::size_t`; beyond `bit_ceil`'s
domain the constructor is undefined. `guardSize` and `elementSize` are `sizeof(guard_type)` and
`sizeof(Element)`. -/
structure Config where
  mode : Mode
  numQueues : Nat
  numPopCandidates : Nat
  size : Nat
  stickiness : Int
  guardSize : Nat
  elementSize : Nat
  numQueues_pos : 0 < numQueues
  numQueues_lt : numQueues < 2 ^ 31
  numPopCandidates_pos : 0 < numPopCandidates
  size_lt : size < 2 ^ 64
  share_le : (size + numQueues - 1) % 2 ^ 64 / numQueues ≤ 2 ^ 63

theorem four_pos : 0 < 4 := Nat.succ_pos 3

theorem two_lt_int : 2 < 2 ^ 31 := by decide

theorem four_lt_int : 4 < 2 ^ 31 := by decide

theorem four_lt_word : 4 < 2 ^ 64 := by decide

namespace Config

variable (c : Config)

/-- `size_per_queue_`. -/
def sizePerQueue : Nat := bitCeil ((c.size + c.numQueues - 1) % 2 ^ 64 / c.numQueues)

/-- `mask_`. -/
def mask : Nat := c.sizePerQueue - 1

/-- `sizeof(guard_type) + size_per_queue_ * sizeof(Element)`. -/
def stride : Nat := (c.guardSize + c.sizePerQueue * c.elementSize) % 2 ^ 64

/-- How many bytes the constructor allocates. -/
def bytes : Nat := c.stride * c.numQueues % 2 ^ 64

/-- `queue_storage(i)`: where the guard of a queue stands in the buffer. -/
def queueStorage (i : Nat) : Nat := i * c.stride % 2 ^ 64

/-- Where slot `j` of a queue stands. -/
def slotStorage (i j : Nat) : Nat :=
  c.queueStorage i + c.guardSize + j * c.elementSize % 2 ^ 64

end Config

/-- `std::numeric_limits<std::uint64_t>::max()`: the tick of an empty queue, and the marker
`swapping`. -/
def maxWord : Nat := 2 ^ 64 - 1

structure Element (T : Type) where
  tick : Nat
  value : T
  deriving DecidableEq, Repr

/-- `QueueGuard` and the slots behind it. The last two fields are history: the values that were
pushed and popped here, oldest first. -/
structure Queue (T : Type) where
  lock : Nat
  head : Nat
  tail : Nat
  buffer : Nat → Element T
  oldestTick : Nat
  newestTick : Nat
  pushed : List T
  popped : List T

structure Shared (T : Type) where
  queues : Nat → Queue T
  permutation : Nat → Nat

/-- Which call is running. -/
inductive Op (T : Type) where
  | push (v : T)
  | pop
  deriving DecidableEq, Repr

def Op.isPop : Op T → Bool
  | .push _ => false
  | .pop => true

/-! ## §2 — the critical sections -/

/-- The point before each access inside a critical section. -/
inductive Stage (T : Type) where
  /-- `unsafe_size` or `unsafe_empty` reads `head`, then `tail`. -/
  | checkHead
  | checkTail (head : Nat)
  /-- `unlock` of a queue that is full or empty. -/
  | unlockRejected
  /-- `Context::push`: the address, the slot, and `++head`. -/
  | pushRead
  | pushWrite (tick head : Nat)
  | pushLoad
  | pushStore (head : Nat)
  /-- `pushed`: the cached tick of an empty queue. -/
  | pushedOldest
  | pushedTail
  | pushedTick (tail : Nat)
  /-- `pushed` of the symmetric mode: `bottom_elem`, the newest tick, `unsafe_size`. -/
  | bottomHead
  | bottomTick (head : Nat)
  | storeNewest (tick : Nat)
  | sizeHead (tick : Nat)
  | sizeTail (tick head : Nat)
  | storeOldest (tick : Nat)
  /-- `top`: the address and the slot; `Context::pop`: `++tail`. -/
  | topTail
  | topValue (tail : Nat)
  | popLoad (v : T)
  | popStore (v : T) (tail : Nat)
  /-- `popped`: `unsafe_empty`, `top_elem`, the cached ticks. -/
  | emptyHead (v : T)
  | emptyTail (v : T) (head : Nat)
  | frontTail (v : T)
  | frontTick (v : T) (tail : Nat)
  | poppedOldest (v : T) (tick : Nat) (empty : Bool)
  | poppedNewest (v : T)
  /-- `unlock` after the work is done; a pop returns its value. -/
  | unlockPushed
  | unlockPopped (v : T)
  deriving DecidableEq, Repr

/-- Where a step leads: on, or out of the critical section. -/
inductive Outcome (T : Type) where
  | stay (stage : Stage T)
  | rejected
  | pushed
  | popped (v : T)
  deriving DecidableEq, Repr

/-- After the check: full and empty queues are left again. -/
def checked (c : Config) (op : Op T) (head tail : Nat) : Stage T :=
  match op with
  | .push _ => if sub64 head tail = c.sizePerQueue then .unlockRejected else .pushRead
  | .pop => if head = tail then .unlockRejected else .topTail

/-- One access inside the critical section of a queue; `time` is what `get_timestamp` returns. -/
def Queue.access (c : Config) (op : Op T) (time : Nat) (q : Queue T) :
    Stage T → Queue T × Outcome T
  | .checkHead => (q, .stay (.checkTail q.head))
  | .checkTail head => (q, .stay (checked c op head q.tail))
  | .unlockRejected => ({ q with lock := 0 }, .rejected)
  | .pushRead => (q, .stay (.pushWrite time q.head))
  | .pushWrite tick head =>
      match op with
      | .push v =>
          ({ q with buffer := Function.update q.buffer (head &&& c.mask) ⟨tick, v⟩ },
            .stay .pushLoad)
      | .pop => (q, .stay (.pushWrite tick head))
  | .pushLoad => (q, .stay (.pushStore q.head))
  | .pushStore head =>
      match op with
      | .push v =>
          ({ q with head := (head + 1) % 2 ^ 64, pushed := q.pushed ++ [v] },
            .stay (if c.mode = .stickRandomSymmetric then .bottomHead else .pushedOldest))
      | .pop => (q, .stay (.pushStore head))
  | .pushedOldest => (q, .stay (if q.oldestTick = maxWord then .pushedTail else .unlockPushed))
  | .pushedTail => (q, .stay (.pushedTick q.tail))
  | .pushedTick tail => (q, .stay (.storeOldest (q.buffer (tail &&& c.mask)).tick))
  | .bottomHead => (q, .stay (.bottomTick q.head))
  | .bottomTick head => (q, .stay (.storeNewest (q.buffer (head &&& c.mask)).tick))
  | .storeNewest tick => ({ q with newestTick := tick }, .stay (.sizeHead tick))
  | .sizeHead tick => (q, .stay (.sizeTail tick q.head))
  | .sizeTail tick head =>
      (q, .stay (if sub64 head q.tail = 1 then .storeOldest tick else .unlockPushed))
  | .storeOldest tick => ({ q with oldestTick := tick }, .stay .unlockPushed)
  | .topTail => (q, .stay (.topValue q.tail))
  | .topValue tail => (q, .stay (.popLoad (q.buffer (tail &&& c.mask)).value))
  | .popLoad v => (q, .stay (.popStore v q.tail))
  | .popStore v tail =>
      ({ q with tail := (tail + 1) % 2 ^ 64, popped := q.popped ++ [v] }, .stay (.emptyHead v))
  | .emptyHead v => (q, .stay (.emptyTail v q.head))
  | .emptyTail v head =>
      (q, .stay (if head = q.tail then .poppedOldest v maxWord true else .frontTail v))
  | .frontTail v => (q, .stay (.frontTick v q.tail))
  | .frontTick v tail => (q, .stay (.poppedOldest v (q.buffer (tail &&& c.mask)).tick false))
  | .poppedOldest v tick empty =>
      ({ q with oldestTick := tick },
        .stay (if c.mode = .stickRandomSymmetric ∧ empty = true then .poppedNewest v
          else .unlockPopped v))
  | .poppedNewest v => ({ q with newestTick := 0 }, .stay (.unlockPopped v))
  | .unlockPushed => ({ q with lock := 0 }, .pushed)
  | .unlockPopped v => ({ q with lock := 0 }, .popped v)

/-! ## §3 — the handle -/

/-- Who takes the lock: `try_push` or `try_pop`, with the `push_index` if one was drawn, or a scan. -/
inductive Site where
  | fast (pick : Option Nat)
  | scan
  deriving DecidableEq, Repr

/-- The point before each access of a handle; the first three are outside of a call. -/
inductive Pc (T : Type) where
  | idle
  | pushReturned (result : Bool)
  | popReturned (result : Option T)
  /-- `try_push` or `try_pop`, before the test of `count_`. -/
  | begin (op : Op T)
  /-- `refresh_pop_index`, before a draw for entry `i`. -/
  | refresh (op : Op T) (pick : Option Nat) (i : Nat)
  /-- `swap_assignment` for entry `i`; with a `pick` it is the only one. -/
  | swapExchange (op : Op T) (pick : Option Nat) (i : Nat)
  | swapLoad (op : Op T) (pick : Option Nat) (i oldTarget : Nat)
  | swapCas (op : Op T) (pick : Option Nat) (i oldTarget permIndex newTarget : Nat)
  | swapStore (op : Op T) (pick : Option Nat) (i newTarget : Nat)
  /-- Before the draw of `push_index`. -/
  | choose (op : Op T)
  /-- Before a load from the handle's part of the permutation. -/
  | readSlot (op : Op T) (pick : Option Nat) (i : Nat) (best : Option (Nat × Nat))
  /-- Before the load of a candidate's tick; `best` is the best queue so far and its tick. -/
  | readTick (op : Op T) (i q : Nat) (best : Option (Nat × Nat))
  | lockLoad (op : Op T) (site : Site) (q : Nat)
  | lockExchange (op : Op T) (site : Site) (q : Nat)
  | inside (op : Op T) (site : Site) (q : Nat) (stage : Stage T)
  deriving DecidableEq, Repr

/-- A handle: `offset_` is used by `StickSwap`, `pop_index_` by the other modes. The last two fields
are history: the values its pushes were successful with, and those its pops returned. -/
structure Handle (T : Type) where
  offset : Nat
  popIndex : Nat → Nat
  count : Int
  pc : Pc T
  accepted : List T
  returned : List T

/-- A call, or the next step of the call that is running, with what random numbers, the clock and a
weak compare-exchange decide. -/
inductive Action (T : Type) where
  | push (v : T)
  | pop
  | go (random time : Nat) (spurious : Bool)
  deriving DecidableEq, Repr

/-- The candidates are assigned; what comes next. -/
def resume (c : Config) (h : Handle T) (op : Op T) (pick : Option Nat) : Pc T :=
  match op, c.mode, pick with
  | .pop, .stickSwap, _ => .readSlot .pop none 0 none
  | .pop, _, _ => .readTick .pop 0 (h.popIndex 0) none
  | .push v, .stickRandomSymmetric, _ => .readTick (.push v) 0 (h.popIndex 0) none
  | .push v, _, none => .choose (.push v)
  | .push v, .stickSwap, some p => .readSlot (.push v) (some p) p none
  | .push v, .stickRandom, some p => .lockLoad (.push v) (.fast (some p)) (h.popIndex p)

/-- Assigning new candidates; after a failed `try_lock`, `StickSwap`'s push changes only the one it
tried. -/
def assign (c : Config) (op : Op T) (pick : Option Nat) : Pc T :=
  match c.mode, pick with
  | .stickSwap, some p => .swapExchange op (some p) p
  | .stickSwap, none => .swapExchange op none 0
  | _, _ => .refresh op pick 0

/-- What a call returns when a scan has found nothing. -/
def exhausted : Op T → Pc T
  | .push _ => .pushReturned false
  | .pop => .popReturned none

/-- The next queue of a scan. -/
def scanNext (c : Config) (op : Op T) (q : Nat) : Pc T :=
  if q + 1 < c.numQueues then .lockLoad op .scan (q + 1) else exhausted op

/-- After a failed `try_lock`. -/
def lockFailed (c : Config) (op : Op T) (site : Site) (q : Nat) : Pc T :=
  match site with
  | .fast pick => assign c op pick
  | .scan => scanNext c op q

/-- After a candidate's tick was read. -/
def better (best : Option (Nat × Nat)) (q tick : Nat) : Nat × Nat :=
  match best with
  | none => (q, tick)
  | some (bestQ, bestTick) => if tick < bestTick then (q, tick) else (bestQ, bestTick)

/-- The tick a call compares: pops look for the oldest element, pushes for the queue that was pushed
to least recently. -/
def Queue.tickFor (q : Queue T) : Op T → Nat
  | .pop => q.oldestTick
  | .push _ => q.newestTick

/-- After a candidate's tick was read: the next candidate, the lock of the best one, or, for a pop
that has seen only empty queues, the scan. -/
def compared (c : Config) (h : Handle T) (op : Op T) (i : Nat) (best : Nat × Nat) : Handle T :=
  if i + 1 < c.numPopCandidates then
    { h with
      pc := if c.mode = .stickSwap then .readSlot op none (i + 1) (some best)
        else .readTick op (i + 1) (h.popIndex (i + 1)) (some best) }
  else if op.isPop = true ∧ best.2 = maxWord then { h with count := 0, pc := .lockLoad op .scan 0 }
  else { h with pc := .lockLoad op (.fast none) best.1 }

def Op.values : Op T → List T
  | .push v => [v]
  | .pop => []

/-- A handle leaves a critical section. -/
def leave (c : Config) (h : Handle T) (op : Op T) (site : Site) (q : Nat) :
    Outcome T → Handle T
  | .stay stage => { h with pc := .inside op site q stage }
  | .rejected =>
      match site with
      | .fast _ => { h with count := 0, pc := .lockLoad op .scan 0 }
      | .scan => { h with pc := scanNext c op q }
  | .pushed =>
      { h with
        count := if site = .scan then h.count else h.count - 1
        pc := .pushReturned true
        accepted := op.values ++ h.accepted }
  | .popped v =>
      { h with
        count := if site = .scan then h.count else h.count - 1
        pc := .popReturned (some v)
        returned := v :: h.returned }

def Shared.setQueue (m : Shared T) (i : Nat) (q : Queue T) : Shared T :=
  { m with queues := Function.update m.queues i q }

def Shared.setSlot (m : Shared T) (i target : Nat) : Shared T :=
  { m with permutation := Function.update m.permutation i target }

/-- The next step of a running call. -/
def go (c : Config) (random time : Nat) (spurious : Bool) (m : Shared T) (h : Handle T) :
    Shared T × Handle T :=
  match h.pc with
  | .begin op =>
      (m, { h with pc := if h.count = 0 then assign c op none else resume c h op none })
  | .refresh op pick i =>
      -- a draw that stands among the entries before is repeated
      if i < c.numPopCandidates then
        if (List.range i).any fun j => h.popIndex j == random % c.numQueues then (m, h)
        else
          (m, { h with
                popIndex := Function.update h.popIndex i (random % c.numQueues)
                pc := .refresh op pick (i + 1) })
      else (m, { h with count := c.stickiness, pc := resume c h op pick })
  | .swapExchange op pick i =>
      (m.setSlot (h.offset + i) maxWord,
        { h with pc := .swapLoad op pick i (m.permutation (h.offset + i)) })
  | .swapLoad op pick i oldTarget =>
      let permIndex := random &&& (c.numQueues - 1)
      let newTarget := m.permutation permIndex
      if newTarget = maxWord then (m, h)
      else (m, { h with pc := .swapCas op pick i oldTarget permIndex newTarget })
  | .swapCas op pick i oldTarget permIndex newTarget =>
      if m.permutation permIndex = newTarget ∧ spurious = false then
        (m.setSlot permIndex oldTarget, { h with pc := .swapStore op pick i newTarget })
      else (m, { h with pc := .swapLoad op pick i oldTarget })
  | .swapStore op pick i newTarget =>
      (m.setSlot (h.offset + i) newTarget,
        match pick with
        | some p => { h with pc := resume c h op (some p) }
        | none =>
            if i + 1 < c.numPopCandidates then { h with pc := .swapExchange op none (i + 1) }
            else { h with count := c.stickiness, pc := resume c h op none })
  | .choose op => (m, { h with pc := resume c h op (some (random % c.numPopCandidates)) })
  | .readSlot op pick i best =>
      let q := m.permutation (h.offset + i)
      match pick with
      | some p => (m, { h with pc := .lockLoad op (.fast (some p)) q })
      | none => (m, { h with pc := .readTick op i q best })
  | .readTick op i q best => (m, compared c h op i (better best q ((m.queues q).tickFor op)))
  | .lockLoad op site q =>
      if (m.queues q).lock &&& 1 = 0 then (m, { h with pc := .lockExchange op site q })
      else (m, { h with pc := lockFailed c op site q })
  | .lockExchange op site q =>
      (m.setQueue q { m.queues q with lock := 1 },
        { h with
          pc := if (m.queues q).lock &&& 1 = 0 then .inside op site q .checkHead
            else lockFailed c op site q })
  | .inside op site q stage =>
      (m.setQueue q ((m.queues q).access c op time stage).1,
        leave c h op site q ((m.queues q).access c op time stage).2)
  | _ => (m, h)

/-- The handle is outside of a call. -/
def Pc.resting : Pc T → Bool
  | .idle | .pushReturned _ | .popReturned _ => true
  | _ => false

/-- One step of one handle: a call outside of calls, a step of the running one inside. -/
def stepHandle (c : Config) (a : Action T) (m : Shared T) (h : Handle T) : Shared T × Handle T :=
  match a with
  | .push v => (m, if h.pc.resting then { h with pc := .begin (.push v) } else h)
  | .pop => (m, if h.pc.resting then { h with pc := .begin .pop } else h)
  | .go random time spurious => go c random time spurious m h

/-! ## §4 — fresh queues -/

/-- A queue as the constructor of `Context` leaves it. -/
def Queue.fresh [Inhabited T] : Queue T where
  lock := 0
  head := 0
  tail := 0
  buffer _ := ⟨0, default⟩
  oldestTick := maxWord
  newestTick := 0
  pushed := []
  popped := []

/-- The identity, and fresh queues. -/
def Shared.fresh [Inhabited T] : Shared T := ⟨fun _ => Queue.fresh, id⟩

/-- The handle that `new_id` gave `id`. -/
def Handle.fresh (c : Config) (id : Nat) : Handle T where
  offset := id * c.numPopCandidates
  popIndex _ := 0
  count := 0
  pc := .idle
  accepted := []
  returned := []

/-- A fresh `MultiFifo` with `n` handles. -/
def init [Inhabited T] (c : Config) (n : Nat) : Threads (Shared T) (Handle T) n :=
  ⟨Shared.fresh, fun t => Handle.fresh c t.val⟩

/-- The state after the steps `ls`. -/
def run [Inhabited T] (c : Config) {n : Nat} (ls : List (Fin n × Action T)) :
    Threads (Shared T) (Handle T) n := (init c n).run (stepHandle c) ls

end RelaxedConcurrentFifo.MultiFifo
