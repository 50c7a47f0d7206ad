/-
# RelaxedConcurrentFifo.LCRQueue.Machine — `LinkedRingQueue.hpp` with the rings of `LCRQueue.hpp`

A linked list of rings. In a ring (`CRQueue`) the two counters hand out tickets without end, and a
ticket's cell is found modulo the size of the ring, so a cell serves many tickets. A cell has a value
and an index: the ticket that has filled it, or the next one that may. An enqueue fills its cell with
one double-word compare-and-swap if the index has not passed its ticket; a dequeue empties its cell and
moves the index on by one round, or, when its item is not there yet, spoils the cell for it: by moving
the index on, or, when the cell is still full from a round before, by marking it unsafe. A ring that is
full or starved is closed, and a new one is linked behind it.

Two kinds of 64-bit words carry a flag in their top bit: a cell's index (unsafe) and the tail of a
ring (closed). They are kept as pairs, and what is computed with them wraps as in the source: the ticket
`2 ^ 63` is taken for a closed ring. `RunFits` is what a run may use up before that. A ring's address is
its number in the order of linking, and a ring that is not linked yet belongs to one thread, which makes
it in the step that links it. Retired rings are kept, so hazard pointers have nothing to protect; there
are rows of them for `HP_MAX_THREADS` threads.
-/
import RelaxedConcurrentFifo.HazardPointers
import RelaxedConcurrentFifo.Lib.Interleaving
import RelaxedConcurrentFifo.Lib.TicketQueue
import Mathlib.Data.Prod.Lex

namespace RelaxedConcurrentFifo.LCRQueue

open RelaxedConcurrentFifo.HazardPointers
open RelaxedConcurrentFifo.Lib.Interleaving
open RelaxedConcurrentFifo.Lib.Linearizability
open RelaxedConcurrentFifo.Lib.TicketQueue

variable {T : Type}

/-! ## §1 — rings -/

/-- The template arguments of a ring. A cell has 16 bytes, or 128 with padding; the assertions of
`CacheRemap` hold where it is used. -/
structure Config where
  ringSize : Nat
  paddedCells : Bool
  cacheRemap : Bool
  ringSize_pos : 0 < ringSize
  aligned : cacheRemap = true → 128 ≤ ringSize * (if paddedCells then 128 else 16) →
    ringSize * (if paddedCells then 128 else 16) % 128 = 0

namespace Config

variable (c : Config)

def cellSize : Nat := if c.paddedCells then 128 else 16

def cellsPerCacheLine : Nat := 128 / c.cellSize

def numCacheLines : Nat := c.ringSize * c.cellSize / 128

/-- `ConditionalCacheRemap`. -/
def remap (i : Nat) : Nat :=
  if c.cacheRemap = true ∧ 128 ≤ c.ringSize * c.cellSize then
    i % c.numCacheLines * c.cellsPerCacheLine + i / c.numCacheLines
  else i

/-- The cell of a ticket. -/
def slot (ticket : Nat) : Nat := c.remap (ticket % c.ringSize)

end Config

/-- The value of a sum in a `uint64_t`. -/
def u64 (n : Nat) : Nat := n % 2 ^ 64

/-- A 64-bit word with a flag in its top bit. -/
structure Word where
  flag : Bool
  index : Nat
  deriving DecidableEq, Repr

namespace Word

def toNat (w : Word) : Nat := if w.flag then 2 ^ 63 + w.index else w.index

def ofNat (n : Nat) : Word := ⟨decide (2 ^ 63 ≤ u64 n), n % 2 ^ 63⟩

/-- What `fetch_add(1)` leaves. -/
def succ (w : Word) : Word := .ofNat (w.toNat + 1)

/-- `flag | n`. -/
def mark (flag : Bool) (n : Nat) : Word := ⟨flag || (ofNat n).flag, (ofNat n).index⟩

end Word

/-- `CRQCell`; the flag of `idx` says that the cell is unsafe. -/
structure Cell (T : Type) where
  val : Option T
  idx : Word
  deriving DecidableEq, Repr

/-- `CRQueue`; the flag of `tail` says that the ring is closed. -/
structure Segment (T : Type) where
  head : Nat
  tail : Word
  next : Option Nat
  array : Nat → Cell T

namespace Segment

variable (c : Config) (s : Segment T)

/-- The cell of a ticket. -/
def cell (ticket : Nat) : Cell T := s.array (c.slot ticket)

def setCell (ticket : Nat) (x : Cell T) : Segment T :=
  { s with array := Function.update s.array (c.slot ticket) x }

/-- `CRQueue(start)`. The loop goes from `start` up to `start + RING_SIZE`, which is a `uint64_t`. -/
def new (start : Nat) : Segment T where
  head := start
  tail := .ofNat start
  next := none
  array := (List.range (u64 (start + c.ringSize) - start)).foldl
    (fun (array : Nat → Cell T) k =>
      Function.update array (c.slot (start + k)) ⟨none, .ofNat (start + k)⟩)
    fun _ => ⟨none, false, 0⟩

/-- One round of `CRQueue::enqueue` on a ring that no other thread sees. -/
def enqueueAlone (item : T) : Segment T :=
  let ticket := s.tail.index
  let s' := { s with tail := s.tail.succ }
  let cell := s.cell c ticket
  if s.tail.flag = false ∧ cell.val = none ∧ cell.idx.index ≤ ticket ∧
      (cell.idx.flag = false ∨ s.head < ticket) then
    s'.setCell c ticket ⟨some item, false, ticket⟩
  else s'

end Segment

/-! ## §2 — the queue -/

/-- A ticket of a ring. -/
abbrev Place := Nat ×ₗ Nat

def place (segment ticket : Nat) : Place := toLex (segment, ticket)

/-- The queue. `log` is history: no access depends on it. -/
structure Shared (T : Type) where
  segment : Nat → Segment T
  count : Nat
  head : Nat
  tail : Nat
  log : List (Entry Place T)

namespace Shared

variable (m : Shared T)

def push (e : Entry Place T) : Shared T := { m with log := m.log ++ [e] }

def setSegment (p : Nat) (s : Segment T) : Shared T :=
  { m with segment := Function.update m.segment p s }

/-- The compare-exchange on `tail`. -/
def casTail (cmp val : Nat) : Shared T := { m with tail := if m.tail = cmp then val else m.tail }

/-- A store to the tail of ring `p`. -/
def setTail (p : Nat) (w : Word) : Shared T := m.setSegment p { m.segment p with tail := w }

/-- `head.fetch_add(1)` on ring `p`. -/
def addHead (p : Nat) : Shared T :=
  m.setSegment p { m.segment p with head := u64 ((m.segment p).head + 1) }

/-- A store to the cell of `ticket` in ring `p`. -/
def setCell (c : Config) (p ticket : Nat) (x : Cell T) : Shared T :=
  m.setSegment p ((m.segment p).setCell c ticket x)

/-- `ltail->next.compare_exchange_strong(nullNode, newTail)` where it succeeds. -/
def link (ltail : Nat) (newTail : Segment T) : Shared T :=
  { m with
    segment := Function.update (Function.update m.segment ltail
      { m.segment ltail with next := some m.count }) m.count newTail
    count := m.count + 1 }

variable [DecidableEq T]

/-- History: a ticket of a ring that is still the head of the list was drawn. -/
def logClaimed (d p ticket : Nat) : Shared T :=
  if m.head = p then m.push (.claimed d (place p ticket)) else m

/-- History: what a ticket that is in the log was good for. -/
def logTaken (d p ticket : Nat) (r : Option T) : Shared T :=
  if .claimed d (place p ticket) ∈ m.log then m.push (.taken d (place p ticket) r) else m

end Shared

/-- The point before each access. Every call carries its name, which no access depends on. -/
inductive Pc (T : Type) where
  | idle
  -- `LinkedRingQueue::enqueue`
  | enqLoad (call : Nat) (item : T)
  | enqCheck (call : Nat) (item : T) (ltail : Nat)
  | enqNext (call : Nat) (item : T) (ltail : Nat)
  | enqHelp (call : Nat) (item : T) (ltail lnext : Nat)
  | enqCreate (call : Nat) (item : T) (ltail : Nat)
  | enqLink (call : Nat) (item : T) (ltail start : Nat)
  | enqSwing (call : Nat) (ltail newTail : Nat)
  | enqReturn (call : Nat)
  -- `CRQueue::enqueue` on ring `s`
  | ringTicket (call : Nat) (item : T) (s tryClose : Nat)
  | ringIdx (call : Nat) (item : T) (s tryClose tailticket : Nat)
  | ringVal (call : Nat) (item : T) (s tryClose tailticket : Nat) (idx : Word)
  | ringSafe (call : Nat) (item : T) (s tryClose tailticket : Nat) (idx : Word)
  | ringPut (call : Nat) (item : T) (s tryClose tailticket : Nat) (idx : Word)
  | ringFull (call : Nat) (item : T) (s tryClose tailticket : Nat)
  | ringClose (call : Nat) (item : T) (s tryClose tailticket : Nat)
  -- `LinkedRingQueue::dequeue`
  | deqLoad (call : Nat)
  | deqCheck (call lhead : Nat)
  | deqNext (call lhead : Nat)
  | deqSwing (call lhead lnext : Nat)
  | deqReturn (call : Nat) (ret : Option T)
  -- `CRQueue::dequeue` on ring `s`; `lnext` is there when it is the second one
  | takeTicket (call s : Nat) (lnext : Option Nat)
  | takeIdx (call s : Nat) (lnext : Option Nat) (headticket r : Nat) (tt : Word)
  | takeVal (call s : Nat) (lnext : Option Nat) (headticket r : Nat) (tt idx : Word)
  | takeTail (call s : Nat) (lnext : Option Nat) (headticket r : Nat) (idx : Word)
  | takeItem (call s : Nat) (lnext : Option Nat) (headticket r : Nat) (tt : Word) (val : T)
      (idx : Word)
  | takeMark (call s : Nat) (lnext : Option Nat) (headticket r : Nat) (tt : Word) (val : T)
      (idx : Word)
  | takeSkip (call s : Nat) (lnext : Option Nat) (headticket r : Nat) (tt idx : Word)
  | takeRest (call s : Nat) (lnext : Option Nat) (headticket : Nat)
  -- `fixState` on ring `s`
  | fixTail (call s : Nat) (lnext : Option Nat)
  | fixHead (call s : Nat) (lnext : Option Nat) (t : Word)
  | fixCheck (call s : Nat) (lnext : Option Nat) (t : Word) (h : Nat)
  | fixCas (call s : Nat) (lnext : Option Nat) (t : Word) (h : Nat)
  deriving DecidableEq, Repr

/-- A call, or the next access of the call that is running. -/
inductive Action (T : Type) where
  | enqueue (item : T)
  | dequeue
  | go
  deriving DecidableEq, Repr

/-! ## §3 — the program -/

/-- A call begins. -/
def call (m : Shared T) : Action T → Shared T × Pc T
  | .enqueue item => (m.push (.enqueue m.log.length item), .enqLoad m.log.length item)
  | .dequeue => (m.push (.dequeue m.log.length), .deqLoad m.log.length)
  | .go => (m, .idle)

/-- Where `LinkedRingQueue::dequeue` goes on when the ring had nothing. -/
def afterNull (d s : Nat) : Option Nat → Pc T
  | none => .deqNext d s
  | some lnext => .deqSwing d s lnext

/-- Where `CRQueue::dequeue` goes on after it has found its cell empty: to the compare-and-swap that
moves the index on, or round the loop. -/
def skipOrLoop (d s : Nat) (lnext : Option Nat) (headticket r : Nat) (tt idx : Word) : Pc T :=
  if idx.flag = true ∨ tt.index < u64 (headticket + 1) ∨ tt.flag = true ∨ r > 4 * 1024 then
    .takeSkip d s lnext headticket r tt idx
  else .takeIdx d s lnext headticket (r + 1) tt

variable [DecidableEq T]

/-- The next access of a running `enqueue`. -/
def accessEnqueue (c : Config) (m : Shared T) : Pc T → Shared T × Pc T
  | .enqLoad e item => (m, .enqCheck e item m.tail)
  | .enqCheck e item ltail =>
      if m.tail ≠ ltail then (m, .enqCheck e item m.tail) else (m, .enqNext e item ltail)
  | .enqNext e item ltail =>
      match (m.segment ltail).next with
      | some lnext => (m, .enqHelp e item ltail lnext)
      | none => (m, .ringTicket e item ltail 0)
  | .enqHelp e item ltail lnext =>
      (m.casTail ltail lnext,
        if m.tail = ltail then .enqCheck e item lnext else .enqLoad e item)
  | .ringTicket e item s tryClose =>
      let tailticket := (m.segment s).tail
      let m' := m.setTail s tailticket.succ
      if tailticket.flag = true then (m', .enqCreate e item s)
      else (m'.push (.drawn e (place s tailticket.index)),
        .ringIdx e item s tryClose tailticket.index)
  | .ringIdx e item s tryClose tailticket =>
      (m, .ringVal e item s tryClose tailticket ((m.segment s).cell c tailticket).idx)
  | .ringVal e item s tryClose tailticket idx =>
      if ((m.segment s).cell c tailticket).val = none ∧ idx.index ≤ tailticket then
        (m, if idx.flag = true then .ringSafe e item s tryClose tailticket idx
          else .ringPut e item s tryClose tailticket idx)
      else (m, .ringFull e item s tryClose tailticket)
  | .ringSafe e item s tryClose tailticket idx =>
      if (m.segment s).head < tailticket then (m, .ringPut e item s tryClose tailticket idx)
      else (m, .ringFull e item s tryClose tailticket)
  | .ringPut e item s tryClose tailticket idx =>
      if (m.segment s).cell c tailticket = ⟨none, idx⟩ then
        ((m.setCell c s tailticket ⟨some item, false, tailticket⟩).push
          (.put e (place s tailticket)), .enqReturn e)
      else (m, .ringFull e item s tryClose tailticket)
  | .ringFull e item s tryClose tailticket =>
      if tailticket ≥ u64 ((m.segment s).head + c.ringSize) then
        (m, .ringClose e item s (tryClose + 1) tailticket)
      else (m, .ringTicket e item s tryClose)
  | .ringClose e item s tryClose tailticket =>
      let tail := (m.segment s).tail
      if tryClose > 10 then
        -- `BIT_TEST_AND_SET63`, which says whether the bit was clear
        (m.setTail s ⟨true, tail.index⟩,
          if tail.flag = true then .ringTicket e item s tryClose else .enqCreate e item s)
      else if tail = .ofNat (tailticket + 1) then
        (m.setTail s (.mark true (tailticket + 1)), .enqCreate e item s)
      else (m, .ringTicket e item s tryClose)
  | .enqCreate e item ltail =>
      (m, .enqLink e item ltail (u64 ((m.segment ltail).tail.index + (2 ^ 64 - 1))))
  | .enqLink e item ltail start =>
      match (m.segment ltail).next with
      | none =>
          (((m.link ltail ((Segment.new c start).enqueueAlone c item)).push
            (.drawn e (place m.count start))).push (.put e (place m.count start)),
            .enqSwing e ltail m.count)
      | some lnext => (m, .enqCheck e item lnext)
  | .enqSwing e ltail newTail => (m.casTail ltail newTail, .enqReturn e)
  | .enqReturn e => (m.push (.enqueued e), .idle)
  | pc => (m, pc)

/-- The next access of a running `dequeue`. -/
def accessDequeue (c : Config) (m : Shared T) : Pc T → Shared T × Pc T
  | .deqLoad d => (m, .deqCheck d m.head)
  | .deqCheck d lhead =>
      if m.head ≠ lhead then (m, .deqCheck d m.head) else (m, .takeTicket d lhead none)
  | .takeTicket d s lnext =>
      let headticket := (m.segment s).head
      ((m.addHead s).logClaimed d s headticket, .takeIdx d s lnext headticket 0 ⟨false, 0⟩)
  | .takeIdx d s lnext headticket r tt =>
      (m, .takeVal d s lnext headticket r tt ((m.segment s).cell c headticket).idx)
  | .takeVal d s lnext headticket r tt idx =>
      if idx.index > headticket then
        (m.logTaken d s headticket none, .takeRest d s lnext headticket)
      else
        match ((m.segment s).cell c headticket).val with
        | some val =>
            (m, if idx.index = headticket then .takeItem d s lnext headticket r tt val idx
              else .takeMark d s lnext headticket r tt val idx)
        | none =>
            (m, if r % 256 = 0 then .takeTail d s lnext headticket r idx
              else skipOrLoop d s lnext headticket r tt idx)
  | .takeTail d s lnext headticket r idx =>
      (m, skipOrLoop d s lnext headticket r (m.segment s).tail idx)
  | .takeItem d s lnext headticket r tt val idx =>
      if (m.segment s).cell c headticket = ⟨some val, idx⟩ then
        ((m.setCell c s headticket ⟨none, .mark idx.flag (headticket + c.ringSize)⟩).logTaken d s
          headticket (some val), .deqReturn d (some val))
      else (m, .takeIdx d s lnext headticket r tt)
  | .takeMark d s lnext headticket r tt val idx =>
      if (m.segment s).cell c headticket = ⟨some val, idx⟩ then
        ((m.setCell c s headticket ⟨some val, true, idx.index⟩).logTaken d s headticket none,
          .takeRest d s lnext headticket)
      else (m, .takeIdx d s lnext headticket r tt)
  | .takeSkip d s lnext headticket r tt idx =>
      if (m.segment s).cell c headticket = ⟨none, idx⟩ then
        ((m.setCell c s headticket ⟨none, .mark idx.flag (headticket + c.ringSize)⟩).logTaken d s
          headticket none, .takeRest d s lnext headticket)
      else (m, .takeIdx d s lnext headticket (r + 1) tt)
  | .takeRest d s lnext headticket =>
      if (m.segment s).tail.index ≤ u64 (headticket + 1) then (m, .fixTail d s lnext)
      else (m, .takeTicket d s lnext)
  | .fixTail d s lnext => (m, .fixHead d s lnext (m.segment s).tail)
  | .fixHead d s lnext t => (m, .fixCheck d s lnext t (m.segment s).head)
  | .fixCheck d s lnext t h =>
      if (m.segment s).tail ≠ t then (m, .fixTail d s lnext)
      else if h > t.toNat then (m, .fixCas d s lnext t h)
      else (m, afterNull d s lnext)
  | .fixCas d s lnext t h =>
      if (m.segment s).tail = t then (m.setTail s (.ofNat h), afterNull d s lnext)
      else (m, .fixTail d s lnext)
  | .deqNext d lhead =>
      match (m.segment lhead).next with
      | some lnext => (m, .takeTicket d lhead (some lnext))
      | none => (m, .deqReturn d none)
  | .deqSwing d lhead lnext =>
      if m.head = lhead then ({ m with head := lnext }, .deqCheck d lnext)
      else (m, .deqCheck d m.head)
  | .deqReturn d ret => (m.push (.dequeued d ret), .idle)
  | pc => (m, pc)

/-- The thread is inside `enqueue`. -/
def Pc.inEnqueue : Pc T → Bool
  | .enqLoad .. | .enqCheck .. | .enqNext .. | .enqHelp .. | .enqCreate .. | .enqLink ..
  | .enqSwing .. | .enqReturn .. | .ringTicket .. | .ringIdx .. | .ringVal .. | .ringSafe ..
  | .ringPut .. | .ringFull .. | .ringClose .. => true
  | _ => false

/-- One step of one thread: a call outside of calls, an access inside of one. -/
def stepThread (c : Config) (a : Action T) (m : Shared T) (pc : Pc T) : Shared T × Pc T :=
  match a, pc with
  | a, .idle => call m a
  | .go, pc => if pc.inEnqueue then accessEnqueue c m pc else accessDequeue c m pc
  | _, pc => (m, pc)

/-- The queue as its constructor leaves it: one ring, which starts at 0. -/
def Shared.init (c : Config) : Shared T := ⟨fun _ => Segment.new c 0, 1, 0, 0, []⟩

/-- A fresh queue and `n` threads. -/
def init (c : Config) (n : Nat) : Threads (Shared T) (Pc T) n := ⟨Shared.init c, fun _ => .idle⟩

/-- The state after the steps `ls` on a fresh queue. -/
def run (c : Config) {n : Nat} (ls : List (Fin n × Action T)) : Threads (Shared T) (Pc T) n :=
  (init c n).run (stepThread c) ls

/-- The next round of each ring stays below the flags. -/
def Shared.Fits (c : Config) (m : Shared T) : Prop :=
  ∀ p < m.count, (m.segment p).head + c.ringSize < 2 ^ 63 ∧
    (m.segment p).tail.index + c.ringSize < 2 ^ 63

instance (c : Config) (m : Shared T) : Decidable (m.Fits c) :=
  inferInstanceAs (Decidable (∀ p < m.count, _))

/-- What a run may use up: rows of hazard pointers, and tickets in each of its states. -/
structure RunFits (c : Config) {n : Nat} (ls : List (Fin n × Action T)) : Prop where
  threads : n ≤ hpMaxThreads
  tickets : ∀ k ≤ ls.length, (run c (ls.take k)).shared.Fits c

/-- The calls and returns of a run, in the order in which they happen. -/
def history (c : Config) {n : Nat} (ls : List (Fin n × Action T)) :
    List (Event (QueueOp T) (Option T)) :=
  (run c ls).shared.log.filterMap view

end RelaxedConcurrentFifo.LCRQueue
