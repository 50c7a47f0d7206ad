/-
# RelaxedConcurrentFifo.FAAArrayQueue — `FAAArrayQueue.hpp`

A linked list of nodes, each with an array of `BUFFER_SIZE` items and two counters. An enqueue draws an
index of the tail node by `fetch_add` and tries to change the cell there from `nullptr` to its item; a
dequeue draws an index of the head node and exchanges the cell for `taken`. Whoever draws an index
behind the end of the array moves on to the next node, or links one.

Each access to `head`, `tail` or a node is one step. The array of a node is a function, and a node's
address is its number in the order in which nodes were linked; a node that a thread has made and not
yet linked is seen by that thread only, so it is made in the step that links it. Retired nodes are
kept, so the hazard pointers have nothing to protect: `hp.protect` is its loop of loads. There are rows
of hazard pointers for `HP_MAX_THREADS` threads, and a queue for more of them is not modelled. A thread
draws from a node that is used up a few times at most before it sees the next one, so that the counters
stay far below the bound of `int`.

The queue follows the rules of `Lib.TicketQueue`, with the places ordered by node and index, which is
what makes it linearizable although items are not put in the order of their places. This depends on
the order of two loads in one expression of `dequeue`, which the language leaves to the compiler: with
the other order a dequeue can miss an element that is there all the time (`not_linearizable_overtaken`).
-/
import RelaxedConcurrentFifo.HazardPointers
import RelaxedConcurrentFifo.Lib.Interleaving
import RelaxedConcurrentFifo.Lib.TicketQueue
import Mathlib.Data.List.Permutation
import Mathlib.Data.Prod.Lex

namespace RelaxedConcurrentFifo.FAAArrayQueue

open RelaxedConcurrentFifo.HazardPointers
open RelaxedConcurrentFifo.Lib.Interleaving
open RelaxedConcurrentFifo.Lib.Linearizability
open RelaxedConcurrentFifo.Lib.Runs
open RelaxedConcurrentFifo.Lib.TicketQueue
open scoped List

variable {T : Type}

/-! ## §1 — the program -/

/-- `BUFFER_SIZE`. -/
def bufferSize : Nat := 1024

/-- The two loads of `lhead->deqidx.load() >= lhead->enqidx.load()` are made in an order that the
compiler chooses. -/
inductive LoadOrder where
  | deqidxFirst
  | enqidxFirst
  deriving DecidableEq, Repr

/-- A queue for `maxThreads` threads, each with its row of hazard pointers, as it was compiled. -/
structure Config where
  maxThreads : Nat
  rows : maxThreads ≤ hpMaxThreads
  order : LoadOrder

/-- `Node`; a `T*` is `none` when it is `nullptr`. -/
structure Node (T : Type) where
  deqidx : Nat
  items : Nat → Option T
  enqidx : Nat
  next : Option Nat

/-- `Node(item)`: the first entry is filled. -/
def Node.new (item : T) : Node T := ⟨0, fun i => if i = 0 then some item else none, 1, none⟩

/-- The node that the constructor of the queue makes. -/
def Node.sentinel : Node T := ⟨0, fun _ => none, 0, none⟩

/-- An index of a node. -/
abbrev Place := Nat ×ₗ Nat

def place (node idx : Nat) : Place := toLex (node, idx)

/-- The queue. `log` is history: no step reads it. -/
structure Shared (T : Type) where
  node : Nat → Node T
  count : Nat
  head : Nat
  tail : Nat
  log : List (Entry Place T)

namespace Shared

variable (m : Shared T)

def push (e : Entry Place T) : Shared T := { m with log := m.log ++ [e] }

def setNode (p : Nat) (n : Node T) : Shared T := { m with node := Function.update m.node p n }

/-- `enqidx.fetch_add(1)` on the node `p`. -/
def addEnqidx (p : Nat) : Shared T :=
  m.setNode p { m.node p with enqidx := (m.node p).enqidx + 1 }

/-- `deqidx.fetch_add(1)` on the node `p`. -/
def addDeqidx (p : Nat) : Shared T :=
  m.setNode p { m.node p with deqidx := (m.node p).deqidx + 1 }

/-- A store to `items[idx]` of the node `p`. -/
def setItem (p idx : Nat) (item : Option T) : Shared T :=
  m.setNode p { m.node p with items := Function.update (m.node p).items idx item }

/-- `casTail(cmp, val)`. -/
def casTail (cmp val : Nat) : Shared T := { m with tail := if m.tail = cmp then val else m.tail }

/-- `casHead(cmp, val)`. -/
def casHead (cmp val : Nat) : Shared T := { m with head := if m.head = cmp then val else m.head }

/-- `ltail->casNext(nullptr, newNode)` where it succeeds. -/
def link (ltail : Nat) (newNode : Node T) : Shared T :=
  { m with
    node := Function.update (Function.update m.node ltail
      { m.node ltail with next := some m.count }) m.count newNode
    count := m.count + 1 }

end Shared

/-- The point before each access. Every call carries its name, which no access depends on. -/
inductive Pc (T : Type) where
  | idle
  -- `enqueue`
  | enqProtect (call : Nat) (item : T) (n : Option Nat)
  | enqTicket (call : Nat) (item : T) (ltail : Nat)
  | enqRecheck (call : Nat) (item : T) (ltail : Nat)
  | enqNext (call : Nat) (item : T) (ltail : Nat)
  | enqLink (call : Nat) (item : T) (ltail : Nat)
  | enqSwing (call : Nat) (ltail newNode : Nat)
  | enqHelp (call : Nat) (item : T) (ltail lnext : Nat)
  | enqCell (call : Nat) (item : T) (ltail idx : Nat)
  | enqReturn (call : Nat)
  -- `dequeue`
  | deqProtect (call : Nat) (n : Option Nat)
  | deqIdx (call lhead : Nat)
  | deqCompare (call lhead first : Nat)
  | deqEmpty (call lhead : Nat)
  | deqTicket (call lhead : Nat)
  | deqNext (call lhead : Nat)
  | deqSwing (call lhead lnext : Nat)
  | deqCell (call lhead idx : Nat)
  | deqReturn (call : Nat) (ret : Option T)
  deriving DecidableEq, Repr

/-- A call, or the next access of the call that is running. -/
inductive Action (T : Type) where
  | enqueue (item : Option T)
  | dequeue
  | go
  deriving DecidableEq, Repr

/-- A call begins. `enqueue(nullptr)` throws before any access. -/
def call (m : Shared T) : Action T → Shared T × Pc T
  | .enqueue (some item) => (m.push (.enqueue m.log.length item), .enqProtect m.log.length item none)
  | .dequeue => (m.push (.dequeue m.log.length), .deqProtect m.log.length none)
  | _ => (m, .idle)

/-- The next access of a running call. -/
def access (order : LoadOrder) (taken : T) (m : Shared T) : Pc T → Shared T × Pc T
  | .idle => (m, .idle)
  | .enqProtect c item n =>
      if n = some m.tail then (m, .enqTicket c item m.tail)
      else (m, .enqProtect c item (some m.tail))
  | .enqTicket c item ltail =>
      let idx := (m.node ltail).enqidx
      if bufferSize - 1 < idx then (m.addEnqidx ltail, .enqRecheck c item ltail)
      else ((m.addEnqidx ltail).push (.drawn c (place ltail idx)), .enqCell c item ltail idx)
  | .enqRecheck c item ltail =>
      if ltail ≠ m.tail then (m, .enqProtect c item none) else (m, .enqNext c item ltail)
  | .enqNext c item ltail =>
      match (m.node ltail).next with
      | none => (m, .enqLink c item ltail)
      | some lnext => (m, .enqHelp c item ltail lnext)
  | .enqLink c item ltail =>
      match (m.node ltail).next with
      | none =>
          (((m.link ltail (Node.new item)).push (.drawn c (place m.count 0))).push
            (.put c (place m.count 0)), .enqSwing c ltail m.count)
      | some _ => (m, .enqProtect c item none)
  | .enqSwing c ltail newNode => (m.casTail ltail newNode, .enqReturn c)
  | .enqHelp c item ltail lnext => (m.casTail ltail lnext, .enqProtect c item none)
  | .enqCell c item ltail idx =>
      match (m.node ltail).items idx with
      | none =>
          ((m.setItem ltail idx (some item)).push (.put c (place ltail idx)), .enqReturn c)
      | some _ => (m, .enqProtect c item none)
  | .enqReturn c => (m.push (.enqueued c), .idle)
  | .deqProtect d n =>
      if n = some m.head then (m, .deqIdx d m.head) else (m, .deqProtect d (some m.head))
  | .deqIdx d lhead =>
      match order with
      | .deqidxFirst => (m, .deqCompare d lhead (m.node lhead).deqidx)
      | .enqidxFirst => (m, .deqCompare d lhead (m.node lhead).enqidx)
  | .deqCompare d lhead first =>
      match order with
      | .deqidxFirst =>
          if first ≥ (m.node lhead).enqidx then (m, .deqEmpty d lhead) else (m, .deqTicket d lhead)
      | .enqidxFirst =>
          if (m.node lhead).deqidx ≥ first then (m, .deqEmpty d lhead) else (m, .deqTicket d lhead)
  | .deqEmpty d lhead =>
      if (m.node lhead).next = none then (m, .deqReturn d none) else (m, .deqTicket d lhead)
  | .deqTicket d lhead =>
      let idx := (m.node lhead).deqidx
      if bufferSize - 1 < idx then (m.addDeqidx lhead, .deqNext d lhead)
      else ((m.addDeqidx lhead).push (.claimed d (place lhead idx)), .deqCell d lhead idx)
  | .deqNext d lhead =>
      match (m.node lhead).next with
      | none => (m, .deqReturn d none)
      | some lnext => (m, .deqSwing d lhead lnext)
  | .deqSwing d lhead lnext => (m.casHead lhead lnext, .deqProtect d none)
  | .deqCell d lhead idx =>
      let item := (m.node lhead).items idx
      let m' := (m.setItem lhead idx (some taken)).push (.taken d (place lhead idx) item)
      match item with
      | none => (m', .deqProtect d none)
      | some item => (m', .deqReturn d (some item))
  | .deqReturn d ret => (m.push (.dequeued d ret), .idle)

/-- One step of one thread: a call outside of calls, an access inside of one. -/
def stepThread (order : LoadOrder) (taken : T) (a : Action T) (m : Shared T) (pc : Pc T) : Shared T × Pc T :=
  match a, pc with
  | a, .idle => call m a
  | .go, pc => access order taken m pc
  | _, pc => (m, pc)

/-- The queue as its constructor leaves it. -/
def Shared.init : Shared T := ⟨fun _ => Node.sentinel, 1, 0, 0, []⟩

/-- A fresh queue and `n` threads. -/
def init (n : Nat) : Threads (Shared T) (Pc T) n := ⟨Shared.init, fun _ => .idle⟩

/-- The state after the steps `ls` on a fresh queue. -/
def run (c : Config) (taken : T) (ls : List (Fin c.maxThreads × Action T)) :
    Threads (Shared T) (Pc T) c.maxThreads :=
  (init c.maxThreads).run (stepThread c.order taken) ls

/-- The calls and returns of a run, in the order in which they happen. -/
def history (c : Config) (taken : T) (ls : List (Fin c.maxThreads × Action T)) :
    List (Event (QueueOp T) (Option T)) :=
  (run c taken ls).shared.log.filterMap view

/-! ## §2 — what holds of the queue and of the threads -/

theorem place_inj {i j i' j' : Nat} : place i j = place i' j' ↔ i = i' ∧ j = j' := by
  rw [place, place, toLex_inj, Prod.mk.injEq]

theorem place_lt {i j i' j' : Nat} : place i j < place i' j' ↔ i < i' ∨ i = i' ∧ j < j' :=
  Prod.Lex.toLex_lt_toLex

/-- A place is a node and an index. -/
theorem exists_place (q : Place) : ∃ i j, q = place i j := ⟨(ofLex q).1, (ofLex q).2, rfl⟩

/-- The nodes are linked in the order of their addresses. All nodes but the last are full of tickets,
all before the head are drained, and no one has looked at those behind it. The counters are what was
drawn and claimed, and the cells what was put and taken. -/
structure MemOk (taken : T) (m : Shared T) : Prop where
  legal : Legal m.log
  head_lt : m.head < m.count
  tail_lt : m.tail < m.count
  next : ∀ i, i + 1 < m.count → (m.node i).next = some (i + 1)
  last : ∀ i, i + 1 = m.count → (m.node i).next = none
  enq_full : ∀ i, i + 1 < m.count → bufferSize ≤ (m.node i).enqidx
  deq_full : ∀ i < m.head, bufferSize ≤ (m.node i).deqidx
  deq_zero : ∀ i < m.count, m.head < i → (m.node i).deqidx = 0
  drawn : ∀ i j, (∃ c, .drawn c (place i j) ∈ m.log) ↔
    i < m.count ∧ j < bufferSize ∧ j < (m.node i).enqidx
  claimed : ∀ i j, (∃ d, .claimed d (place i j) ∈ m.log) ↔
    i < m.count ∧ j < bufferSize ∧ j < (m.node i).deqidx
  filled : ∀ i j c a, .put c (place i j) ∈ m.log → .enqueue c a ∈ m.log →
    (∀ d r, .taken d (place i j) r ∉ m.log) → (m.node i).items j = some a
  spoiled : ∀ i j d r, .taken d (place i j) r ∈ m.log → (m.node i).items j = some taken
  free : ∀ i < m.count, ∀ j, (∀ c, .put c (place i j) ∉ m.log) →
    (∀ d r, .taken d (place i j) r ∉ m.log) → (m.node i).items j = none

/-- What each thread knows at the point where it is, if `deqidx` is loaded first. -/
def PcOk (m : Shared T) : Pc T → Prop
  | .idle => True
  | .enqProtect c item _ => EnqOpen m.log c item
  | .enqTicket c item ltail => EnqOpen m.log c item ∧ ltail < m.count
  | .enqRecheck c item ltail | .enqNext c item ltail | .enqLink c item ltail =>
      EnqOpen m.log c item ∧ ltail < m.count ∧ bufferSize ≤ (m.node ltail).enqidx
  | .enqSwing c _ newNode => (∃ p, .put c p ∈ m.log) ∧ newNode < m.count
  | .enqHelp c item _ lnext => EnqOpen m.log c item ∧ lnext < m.count
  | .enqCell c item ltail idx => EnqOpen m.log c item ∧ .drawn c (place ltail idx) ∈ m.log
  | .enqReturn c => ∃ p, .put c p ∈ m.log
  | .deqProtect d _ => DeqOpen m.log d
  | .deqIdx d lhead | .deqTicket d lhead => DeqOpen m.log d ∧ lhead ≤ m.head
  | .deqCompare d lhead deqidx =>
      DeqOpen m.log d ∧ lhead ≤ m.head ∧ deqidx ≤ (m.node lhead).deqidx
  | .deqEmpty d lhead =>
      DeqOpen m.log d ∧ lhead ≤ m.head ∧ ((m.node lhead).next = none → SawEmpty m.log d)
  | .deqNext d lhead => DeqOpen m.log d ∧ lhead ≤ m.head ∧ bufferSize ≤ (m.node lhead).deqidx
  | .deqSwing d lhead lnext =>
      DeqOpen m.log d ∧ lhead ≤ m.head ∧ bufferSize ≤ (m.node lhead).deqidx ∧
        lnext = lhead + 1 ∧ lnext < m.count
  | .deqCell d lhead idx => Holding m.log d (place lhead idx)
  | .deqReturn d none => DeqOpen m.log d ∧ SawEmpty m.log d
  | .deqReturn d (some a) => Found m.log d a

/-- The call that the thread is in. -/
def Pc.call : Pc T → Option Nat
  | .idle => none
  | .enqProtect c _ _ | .enqTicket c _ _ | .enqRecheck c _ _ | .enqNext c _ _ | .enqLink c _ _
  | .enqSwing c _ _ | .enqHelp c _ _ _ | .enqCell c _ _ _ | .enqReturn c
  | .deqProtect c _ | .deqIdx c _ | .deqCompare c _ _ | .deqEmpty c _ | .deqTicket c _
  | .deqNext c _ | .deqSwing c _ _ | .deqCell c _ _ | .deqReturn c _ => some c

/-- The proof outline: no two threads are in one call. -/
def outline (taken : T) : Outline (Shared T) (Pc T) where
  shared := MemOk taken
  thread := PcOk
  pair pc pc' := ∀ c, pc.call = some c → pc'.call ≠ some c

/-! ## §3 — what the others keep -/

/-- How the queue changes in a step of call `c`, as far as other threads depend on it. -/
structure Later (m m' : Shared T) (c : Nat) : Prop where
  log : Extends m.log m'.log c
  count : m.count ≤ m'.count
  head : m.head ≤ m'.head
  enqidx : ∀ i < m.count, (m.node i).enqidx ≤ (m'.node i).enqidx
  deqidx : ∀ i < m.count, (m.node i).deqidx ≤ (m'.node i).deqidx
  next : ∀ i < m.count, (m'.node i).next = none → (m.node i).next = none

theorem Later.refl (m : Shared T) (c : Nat) : Later m m c :=
  ⟨.refl _ c, Nat.le_refl _, Nat.le_refl _, fun _ _ => Nat.le_refl _, fun _ _ => Nat.le_refl _,
    fun _ _ h => h⟩

theorem Later.push {m m' : Shared T} {c : Nat} (h : Later m m' c) {e : Entry Place T}
    (he : e.id = c) : Later m (m'.push e) c :=
  ⟨h.log.concat he, h.count, h.head, h.enqidx, h.deqidx, h.next⟩

theorem PcOk.other {taken : T} {m m' : Shared T} {c : Nat} (hm : MemOk taken m)
    (h : Later m m' c) {pc : Pc T} (hpc : PcOk m pc) (hne : pc.call ≠ some c) : PcOk m' pc := by
  have hid : ∀ {d : Nat}, pc.call = some d → d ≠ c := fun hd hdc => hne (hdc ▸ hd)
  have hhead : ∀ {i : Nat}, i ≤ m.head → i < m.count := fun hi => Nat.lt_of_le_of_lt hi hm.head_lt
  cases pc with
  | idle => trivial
  | enqProtect d item n => exact EnqOpen.other h.log hpc (hid rfl)
  | enqTicket d item ltail => exact ⟨hpc.1.other h.log (hid rfl), hpc.2.trans_le h.count⟩
  | enqRecheck d item ltail | enqNext d item ltail | enqLink d item ltail =>
      exact ⟨hpc.1.other h.log (hid rfl), hpc.2.1.trans_le h.count,
        hpc.2.2.trans (h.enqidx ltail hpc.2.1)⟩
  | enqSwing d ltail newNode =>
      obtain ⟨⟨p, hp⟩, hnew⟩ := hpc
      exact ⟨⟨p, h.log.mem hp⟩, hnew.trans_le h.count⟩
  | enqHelp d item ltail lnext => exact ⟨hpc.1.other h.log (hid rfl), hpc.2.trans_le h.count⟩
  | enqCell d item ltail idx => exact ⟨hpc.1.other h.log (hid rfl), h.log.mem hpc.2⟩
  | enqReturn d =>
      obtain ⟨p, hp⟩ := hpc
      exact ⟨p, h.log.mem hp⟩
  | deqProtect d n => exact DeqOpen.other h.log hpc (hid rfl)
  | deqIdx d lhead | deqTicket d lhead =>
      exact ⟨hpc.1.other h.log (hid rfl), hpc.2.trans h.head⟩
  | deqCompare d lhead deqidx =>
      exact ⟨hpc.1.other h.log (hid rfl), hpc.2.1.trans h.head,
        hpc.2.2.trans (h.deqidx lhead (hhead hpc.2.1))⟩
  | deqEmpty d lhead =>
      exact ⟨hpc.1.other h.log (hid rfl), hpc.2.1.trans h.head,
        fun hnext => (hpc.2.2 (h.next lhead (hhead hpc.2.1) hnext)).mono h.log⟩
  | deqNext d lhead =>
      exact ⟨hpc.1.other h.log (hid rfl), hpc.2.1.trans h.head,
        hpc.2.2.trans (h.deqidx lhead (hhead hpc.2.1))⟩
  | deqSwing d lhead lnext =>
      exact ⟨hpc.1.other h.log (hid rfl), hpc.2.1.trans h.head,
        hpc.2.2.1.trans (h.deqidx lhead (hhead hpc.2.1)), hpc.2.2.2.1,
        hpc.2.2.2.2.trans_le h.count⟩
  | deqCell d lhead idx => exact Holding.other h.log hpc (hid rfl)
  | deqReturn d ret =>
      cases ret with
      | none => exact ⟨hpc.1.other h.log (hid rfl), hpc.2.mono h.log⟩
      | some a => exact Found.other h.log hpc (hid rfl)

/-- Calls in progress have their names from the log. -/
theorem PcOk.call_lt {taken : T} {m : Shared T} (hm : MemOk taken m) {pc : Pc T} (hpc : PcOk m pc)
    {c : Nat} (hc : pc.call = some c) : c < m.log.length := by
  have hmem : ∃ e ∈ m.log, e.id = c := by
    cases pc with
    | idle => cases hc
    | enqProtect d item n => exact ⟨_, hpc.called, Option.some.inj hc⟩
    | enqTicket d item ltail | enqRecheck d item ltail | enqNext d item ltail
    | enqLink d item ltail | enqHelp d item ltail lnext | enqCell d item ltail idx =>
        exact ⟨_, hpc.1.called, Option.some.inj hc⟩
    | enqSwing d ltail newNode =>
        obtain ⟨⟨p, hp⟩, -⟩ := hpc
        exact ⟨_, hp, Option.some.inj hc⟩
    | enqReturn d =>
        obtain ⟨p, hp⟩ := hpc
        exact ⟨_, hp, Option.some.inj hc⟩
    | deqProtect d n => exact ⟨_, hpc.called, Option.some.inj hc⟩
    | deqIdx d lhead | deqTicket d lhead | deqCompare d lhead deqidx | deqEmpty d lhead
    | deqNext d lhead | deqSwing d lhead lnext => exact ⟨_, hpc.1.called, Option.some.inj hc⟩
    | deqCell d lhead idx => exact ⟨_, hpc.called, Option.some.inj hc⟩
    | deqReturn d ret =>
        cases ret with
        | none => exact ⟨_, hpc.1.called, Option.some.inj hc⟩
        | some a =>
            obtain ⟨-, p, hp⟩ := hpc
            exact ⟨_, hp, Option.some.inj hc⟩
  obtain ⟨e, he, rfl⟩ := hmem
  exact id_lt hm.legal he

/-- A step inside of call `c`, or one that begins it. -/
theorem stepOk_of_later {taken : T} {m m' : Shared T} {pc pc' : Pc T} {c : Nat}
    (hm : MemOk taken m) (hm' : MemOk taken m') (hpc' : PcOk m' pc') (hlater : Later m m' c)
    (hcall : pc.call = some c ∨ m.log.length = c) (hcall' : ∀ c', pc'.call = some c' → c' = c) :
    (outline taken).StepOk m pc m' pc' := by
  have hne : ∀ q, PcOk m q → (∀ d, pc.call = some d → q.call ≠ some d) → q.call ≠ some c := by
    intro q hq hpair hqc
    rcases hcall with hcall | rfl
    · exact hpair c hcall hqc
    · exact Nat.lt_irrefl _ (hq.call_lt hm hqc)
  refine ⟨hm', hpc', fun q hq hpair _ => hq.other hm hlater (hne q hq hpair),
    fun q hq hpair _ => ⟨fun d hd hqd => ?_, fun d hd hqd => ?_⟩⟩
  · obtain rfl := hcall' d hd
    exact hne q hq hpair hqd
  · obtain rfl := hcall' d hqd
    exact hne q hq hpair hd

/-! ## §4 — what each access does -/

section Accesses

variable {taken : T} {m : Shared T}

theorem mem_push {e x : Entry Place T} : x ∈ (m.push e).log ↔ x ∈ m.log ∨ x = e := by
  rw [Shared.push, List.mem_append, List.mem_singleton]

theorem mem_push_self {e : Entry Place T} : e ∈ (m.push e).log := mem_push.mpr (.inr rfl)

@[simp] theorem push_node (e : Entry Place T) : (m.push e).node = m.node := rfl
@[simp] theorem push_count (e : Entry Place T) : (m.push e).count = m.count := rfl
@[simp] theorem push_head (e : Entry Place T) : (m.push e).head = m.head := rfl
@[simp] theorem push_tail (e : Entry Place T) : (m.push e).tail = m.tail := rfl

@[simp] theorem addEnqidx_log (p : Nat) : (m.addEnqidx p).log = m.log := rfl
@[simp] theorem addEnqidx_count (p : Nat) : (m.addEnqidx p).count = m.count := rfl
@[simp] theorem addEnqidx_head (p : Nat) : (m.addEnqidx p).head = m.head := rfl
@[simp] theorem addEnqidx_tail (p : Nat) : (m.addEnqidx p).tail = m.tail := rfl
@[simp] theorem addDeqidx_log (p : Nat) : (m.addDeqidx p).log = m.log := rfl
@[simp] theorem addDeqidx_count (p : Nat) : (m.addDeqidx p).count = m.count := rfl
@[simp] theorem addDeqidx_head (p : Nat) : (m.addDeqidx p).head = m.head := rfl
@[simp] theorem addDeqidx_tail (p : Nat) : (m.addDeqidx p).tail = m.tail := rfl
@[simp] theorem setItem_log (p j : Nat) (x : Option T) : (m.setItem p j x).log = m.log := rfl
@[simp] theorem setItem_count (p j : Nat) (x : Option T) : (m.setItem p j x).count = m.count := rfl
@[simp] theorem setItem_head (p j : Nat) (x : Option T) : (m.setItem p j x).head = m.head := rfl
@[simp] theorem setItem_tail (p j : Nat) (x : Option T) : (m.setItem p j x).tail = m.tail := rfl

/-- The fields of a node after one of them was changed. -/
theorem setNode_node (p i : Nat) (n : Node T) :
    (m.setNode p n).node i = if i = p then n else m.node i := Function.update_apply m.node p n i

@[simp] theorem addEnqidx_enqidx (p i : Nat) :
    ((m.addEnqidx p).node i).enqidx = (m.node i).enqidx + if i = p then 1 else 0 := by
  rw [Shared.addEnqidx, setNode_node]
  split <;> simp_all

@[simp] theorem addEnqidx_deqidx (p i : Nat) :
    ((m.addEnqidx p).node i).deqidx = (m.node i).deqidx := by
  rw [Shared.addEnqidx, setNode_node]
  split <;> simp_all

@[simp] theorem addEnqidx_next (p i : Nat) :
    ((m.addEnqidx p).node i).next = (m.node i).next := by
  rw [Shared.addEnqidx, setNode_node]
  split <;> simp_all

@[simp] theorem addEnqidx_items (p i : Nat) :
    ((m.addEnqidx p).node i).items = (m.node i).items := by
  rw [Shared.addEnqidx, setNode_node]
  split <;> simp_all

@[simp] theorem addDeqidx_deqidx (p i : Nat) :
    ((m.addDeqidx p).node i).deqidx = (m.node i).deqidx + if i = p then 1 else 0 := by
  rw [Shared.addDeqidx, setNode_node]
  split <;> simp_all

@[simp] theorem addDeqidx_enqidx (p i : Nat) :
    ((m.addDeqidx p).node i).enqidx = (m.node i).enqidx := by
  rw [Shared.addDeqidx, setNode_node]
  split <;> simp_all

@[simp] theorem addDeqidx_next (p i : Nat) :
    ((m.addDeqidx p).node i).next = (m.node i).next := by
  rw [Shared.addDeqidx, setNode_node]
  split <;> simp_all

@[simp] theorem addDeqidx_items (p i : Nat) :
    ((m.addDeqidx p).node i).items = (m.node i).items := by
  rw [Shared.addDeqidx, setNode_node]
  split <;> simp_all

@[simp] theorem setItem_enqidx (p j i : Nat) (x : Option T) :
    ((m.setItem p j x).node i).enqidx = (m.node i).enqidx := by
  rw [Shared.setItem, setNode_node]
  split <;> simp_all

@[simp] theorem setItem_deqidx (p j i : Nat) (x : Option T) :
    ((m.setItem p j x).node i).deqidx = (m.node i).deqidx := by
  rw [Shared.setItem, setNode_node]
  split <;> simp_all

@[simp] theorem setItem_next (p j i : Nat) (x : Option T) :
    ((m.setItem p j x).node i).next = (m.node i).next := by
  rw [Shared.setItem, setNode_node]
  split <;> simp_all

@[simp] theorem setItem_items (p j i k : Nat) (x : Option T) :
    ((m.setItem p j x).node i).items k = if i = p ∧ k = j then x else (m.node i).items k := by
  rw [Shared.setItem, setNode_node]
  by_cases hi : i = p
  · subst hi
    simp [Function.update_apply]
  · simp [hi]

/-- The beginning or the end of a call. -/
theorem MemOk.pushVisible (hm : MemOk taken m) {e : Entry Place T}
    {ev : Event (QueueOp T) (Option T)} (he : view e = some ev) (hlegal : Legal (m.log ++ [e])) :
    MemOk taken (m.push e) := by
  have hmem : ∀ x, view x = none → (x ∈ (m.push e).log ↔ x ∈ m.log) := by
    intro x hx
    rw [mem_push]
    refine or_iff_left fun h => ?_
    rw [h, he] at hx
    cases hx
  refine ⟨hlegal, hm.head_lt, hm.tail_lt, hm.next, hm.last, hm.enq_full, hm.deq_full, hm.deq_zero,
    fun i j => (exists_congr fun c => hmem _ rfl).trans (hm.drawn i j),
    fun i j => (exists_congr fun d => hmem _ rfl).trans (hm.claimed i j),
    fun i j c a hput hcall htaken => ?_, fun i j d r h => hm.spoiled i j d r ((hmem _ rfl).mp h),
    fun i hi j hput htaken => hm.free i hi j (fun c h => hput c ((hmem _ rfl).mpr h))
      fun d r h => htaken d r ((hmem _ rfl).mpr h)⟩
  have hput := (hmem _ rfl).mp hput
  obtain ⟨b, hb, -⟩ := exists_enqueue hm.legal hput
  obtain rfl := enqueue_item hlegal hcall (List.mem_append_left [e] hb)
  exact hm.filled i j c a hput hb fun d r h => htaken d r ((hmem _ rfl).mpr h)

/-- Everything is claimed where the last node is drained. -/
theorem MemOk.allClaimed (hm : MemOk taken m) {lhead : Nat} (hle : lhead ≤ m.head)
    (hnext : (m.node lhead).next = none)
    (hdrained : ∀ j < bufferSize, j < (m.node lhead).enqidx → j < (m.node lhead).deqidx) :
    AllClaimed m.log := by
  have hlt := hm.head_lt
  have hlast : ¬ lhead + 1 < m.count := by
    intro h
    rw [hm.next lhead h] at hnext
    cases hnext
  intro c q hq
  obtain ⟨i, j, rfl⟩ := exists_place q
  obtain ⟨hi, hj, hidx⟩ := (hm.drawn i j).mp ⟨c, hq⟩
  refine (hm.claimed i j).mpr ⟨hi, hj, ?_⟩
  rcases Nat.lt_or_ge i m.head with h | h
  · exact Nat.lt_of_lt_of_le hj (hm.deq_full i h)
  · obtain rfl : i = lhead := by omega
    exact hdrained j hj hidx

/-- `enqidx.fetch_add(1)` behind the end. -/
theorem MemOk.bumpEnq (hm : MemOk taken m) {p : Nat} (hfull : bufferSize ≤ (m.node p).enqidx) :
    MemOk taken (m.addEnqidx p) := by
  refine ⟨hm.legal, hm.head_lt, hm.tail_lt, fun i hi => ?_, fun i hi => ?_, fun i hi => ?_,
    fun i hi => ?_, fun i hi hhead => ?_, fun i j => ?_, fun i j => ?_,
    fun i j c a hput hcall htaken => ?_, fun i j d r h => ?_, fun i hi j hput htaken => ?_⟩
  · simpa using hm.next i hi
  · simpa using hm.last i hi
  · have := hm.enq_full i hi
    simp only [addEnqidx_enqidx]
    omega
  · simpa using hm.deq_full i hi
  · simpa using hm.deq_zero i hi hhead
  · have := hm.drawn i j
    simp only [addEnqidx_log, addEnqidx_count, addEnqidx_enqidx]
    grind
  · simpa using hm.claimed i j
  · simpa using hm.filled i j c a hput hcall htaken
  · simpa using hm.spoiled i j d r h
  · simpa using hm.free i hi j hput htaken

/-- A ticket of the last node is behind all that were drawn. -/
theorem MemOk.drawn_lt_ticket (hm : MemOk taken m) {p : Nat}
    (hlt : (m.node p).enqidx < bufferSize) :
    ∀ c q, .drawn c q ∈ m.log → q < place p (m.node p).enqidx := by
  intro c q hq
  obtain ⟨i, j, rfl⟩ := exists_place q
  obtain ⟨hi, -, hj⟩ := (hm.drawn i j).mp ⟨c, hq⟩
  have hlast : ¬ p + 1 < m.count := fun h => Nat.not_le_of_lt hlt (hm.enq_full p h)
  rw [place_lt]
  rcases Nat.lt_or_ge i p with h | h
  · exact .inl h
  · obtain rfl : i = p := by omega
    exact .inr ⟨rfl, hj⟩

/-- `enqidx.fetch_add(1)` inside of the array. -/
theorem MemOk.draw (hm : MemOk taken m) {p c : Nat} {item : T} (hp : p < m.count)
    (hlt : (m.node p).enqidx < bufferSize) (ho : EnqOpen m.log c item) :
    MemOk taken ((m.addEnqidx p).push (.drawn c (place p (m.node p).enqidx))) := by
  have hbehind := hm.drawn_lt_ticket hlt
  refine ⟨hm.legal.drawn ho hbehind, hm.head_lt, hm.tail_lt, fun i hi => ?_, fun i hi => ?_,
    fun i hi => ?_, fun i hi => ?_, fun i hi hhead => ?_, fun i j => ?_, fun i j => ?_,
    fun i j c' a hput hcall htaken => ?_, fun i j d r h => ?_, fun i hi j hput htaken => ?_⟩
  · simpa using hm.next i hi
  · simpa using hm.last i hi
  · have := hm.enq_full i hi
    simp only [push_node, addEnqidx_enqidx]
    omega
  · simpa using hm.deq_full i hi
  · simpa using hm.deq_zero i hi hhead
  · have := hm.drawn i j
    simp only [mem_push, addEnqidx_log, push_count, addEnqidx_count, push_node, addEnqidx_enqidx,
      Entry.drawn.injEq, place_inj, exists_or]
    grind
  · have := hm.claimed i j
    simpa [mem_push] using this
  · simp only [mem_push, addEnqidx_log, reduceCtorEq, or_false] at hput hcall htaken
    simpa using hm.filled i j c' a hput hcall htaken
  · simp only [mem_push, addEnqidx_log, reduceCtorEq, or_false] at h
    simpa using hm.spoiled i j d r h
  · simp only [mem_push, addEnqidx_log, reduceCtorEq, or_false] at hput htaken
    simpa using hm.free i hi j hput htaken

/-- `deqidx.fetch_add(1)` behind the end. -/
theorem MemOk.bumpDeq (hm : MemOk taken m) {p : Nat} (hp : p ≤ m.head)
    (hfull : bufferSize ≤ (m.node p).deqidx) : MemOk taken (m.addDeqidx p) := by
  refine ⟨hm.legal, hm.head_lt, hm.tail_lt, fun i hi => ?_, fun i hi => ?_, fun i hi => ?_,
    fun i hi => ?_, fun i hi hhead => ?_, fun i j => ?_, fun i j => ?_,
    fun i j c a hput hcall htaken => ?_, fun i j d r h => ?_, fun i hi j hput htaken => ?_⟩
  · simpa using hm.next i hi
  · simpa using hm.last i hi
  · simpa using hm.enq_full i hi
  · have := hm.deq_full i hi
    simp only [addDeqidx_deqidx]
    omega
  · have hne : i ≠ p := by
      rintro rfl
      exact Nat.not_lt_of_le hp hhead
    simpa [hne] using hm.deq_zero i hi hhead
  · simpa using hm.drawn i j
  · have := hm.claimed i j
    simp only [addDeqidx_log, addDeqidx_count, addDeqidx_deqidx]
    grind
  · simpa using hm.filled i j c a hput hcall htaken
  · simpa using hm.spoiled i j d r h
  · simpa using hm.free i hi j hput htaken

/-- A ticket that is not behind the end is one of the head node, behind all that were claimed, and in
front of everything that is not. -/
theorem MemOk.claimed_lt_ticket (hm : MemOk taken m) {p : Nat} (hp : p ≤ m.head)
    (hlt : (m.node p).deqidx < bufferSize) :
    p = m.head ∧ (∀ d q, .claimed d q ∈ m.log → q < place p (m.node p).deqidx) ∧
      ∀ c q, .put c q ∈ m.log → q < place p (m.node p).deqidx → ∃ d, .claimed d q ∈ m.log := by
  have hhead : p = m.head := by
    rcases Nat.lt_or_eq_of_le hp with h | h
    · exact absurd (hm.deq_full p h) (Nat.not_le_of_lt hlt)
    · exact h
  refine ⟨hhead, fun d q hq => ?_, fun c q hq hlt' => ?_⟩
  · obtain ⟨i, j, rfl⟩ := exists_place q
    obtain ⟨hi, -, hj⟩ := (hm.claimed i j).mp ⟨d, hq⟩
    rw [place_lt]
    rcases Nat.lt_trichotomy i p with h | rfl | h
    · exact .inl h
    · exact .inr ⟨rfl, hj⟩
    · rw [hm.deq_zero i hi (hhead ▸ h)] at hj
      exact absurd hj (Nat.not_lt_zero j)
  · obtain ⟨i, j, rfl⟩ := exists_place q
    obtain ⟨a, -, hdrawn⟩ := exists_enqueue hm.legal hq
    obtain ⟨hi, hj, -⟩ := (hm.drawn i j).mp ⟨c, hdrawn⟩
    refine (hm.claimed i j).mpr ⟨hi, hj, ?_⟩
    rcases place_lt.mp hlt' with h | ⟨rfl, h⟩
    · exact Nat.lt_of_lt_of_le hj (hm.deq_full i (hhead ▸ h))
    · exact h

/-- `deqidx.fetch_add(1)` inside of the array. -/
theorem MemOk.claim (hm : MemOk taken m) {p d : Nat} (hp : p ≤ m.head)
    (hlt : (m.node p).deqidx < bufferSize) (ho : DeqOpen m.log d) :
    MemOk taken ((m.addDeqidx p).push (.claimed d (place p (m.node p).deqidx))) := by
  obtain ⟨rfl, hbehind, hbelow⟩ := hm.claimed_lt_ticket hp hlt
  refine ⟨hm.legal.claimed ho hbehind hbelow, hm.head_lt, hm.tail_lt, fun i hi => ?_,
    fun i hi => ?_, fun i hi => ?_, fun i hi => ?_, fun i hi hhead => ?_, fun i j => ?_,
    fun i j => ?_, fun i j c a hput hcall htaken => ?_, fun i j d r h => ?_,
    fun i hi j hput htaken => ?_⟩
  · simpa using hm.next i hi
  · simpa using hm.last i hi
  · simpa using hm.enq_full i hi
  · have := hm.deq_full i hi
    simp only [push_node, addDeqidx_deqidx]
    omega
  · have hne : i ≠ m.head := Nat.ne_of_gt hhead
    simpa [hne] using hm.deq_zero i hi hhead
  · have := hm.drawn i j
    simpa [mem_push] using this
  · have := hm.claimed i j
    have := hm.head_lt
    simp only [mem_push, addDeqidx_log, push_count, addDeqidx_count, push_node, addDeqidx_deqidx,
      Entry.claimed.injEq, place_inj, exists_or]
    grind
  · simp only [mem_push, addDeqidx_log, reduceCtorEq, or_false] at hput hcall htaken
    simpa using hm.filled i j c a hput hcall htaken
  · simp only [mem_push, addDeqidx_log, reduceCtorEq, or_false] at h
    simpa using hm.spoiled i j d r h
  · simp only [mem_push, addDeqidx_log, reduceCtorEq, or_false] at hput htaken
    simpa using hm.free i hi j hput htaken

/-- Where a claim is open, no one has taken. -/
theorem MemOk.not_taken (hm : MemOk taken m) {d : Nat} {q : Place} (h : Holding m.log d q) :
    ∀ d' r, .taken d' q r ∉ m.log := by
  intro d' r hr
  obtain rfl := claimed_call hm.legal h.claimed (taken_claimed hm.legal hr)
  exact h.notTaken r hr

/-- `items[idx].compare_exchange_strong(nullptr, item)` where it succeeds. -/
theorem MemOk.fill (hm : MemOk taken m) {p j c : Nat} {item : T} (ho : EnqOpen m.log c item)
    (hdrawn : .drawn c (place p j) ∈ m.log) (hnull : (m.node p).items j = none) :
    MemOk taken ((m.setItem p j (some item)).push (.put c (place p j))) := by
  have htaken : ∀ d r, .taken d (place p j) r ∉ m.log := by
    intro d r h
    rw [hm.spoiled p j d r h] at hnull
    cases hnull
  have hfirst : ∀ c', .put c' (place p j) ∉ m.log := by
    intro c' h
    obtain ⟨a, ha, -⟩ := exists_enqueue hm.legal h
    rw [hm.filled p j c' a h ha htaken] at hnull
    cases hnull
  obtain ⟨-, hj, -⟩ := (hm.drawn p j).mp ⟨c, hdrawn⟩
  have hlegal : Legal (m.log ++ [.put c (place p j)]) := by
    refine hm.legal.put ho hdrawn htaken fun d q hq hlt => ?_
    obtain ⟨i, j', rfl⟩ := exists_place q
    obtain ⟨hi, -, hj'⟩ := (hm.claimed i j').mp ⟨d, hq⟩
    rcases place_lt.mp hlt with h | ⟨rfl, h⟩
    · have hhead : p < m.head := by
        by_contra hp
        rw [hm.deq_zero i hi (by omega)] at hj'
        exact Nat.not_lt_zero _ hj'
      exact (hm.claimed p j).mpr ⟨by omega, hj, Nat.lt_of_lt_of_le hj (hm.deq_full p hhead)⟩
    · exact (hm.claimed p j).mpr ⟨hi, hj, by omega⟩
  refine ⟨hlegal, hm.head_lt, hm.tail_lt, fun i hi => ?_, fun i hi => ?_, fun i hi => ?_,
    fun i hi => ?_, fun i hi hhead => ?_, fun i k => ?_, fun i k => ?_,
    fun i k c' a hput hcall htaken' => ?_, fun i k d r h => ?_, fun i hi k hput htaken' => ?_⟩
  · simpa using hm.next i hi
  · simpa using hm.last i hi
  · simpa using hm.enq_full i hi
  · simpa using hm.deq_full i hi
  · simpa using hm.deq_zero i hi hhead
  · simpa [mem_push] using hm.drawn i k
  · simpa [mem_push] using hm.claimed i k
  · simp only [mem_push, setItem_log, reduceCtorEq, or_false, Entry.put.injEq, place_inj]
      at hput hcall htaken'
    rw [push_node, setItem_items]
    rcases hput with hput | ⟨rfl, rfl, rfl⟩
    · have hne : ¬ (i = p ∧ k = j) := by
        rintro ⟨rfl, rfl⟩
        exact hfirst c' hput
      rw [if_neg hne]
      exact hm.filled i k c' a hput hcall htaken'
    · rw [if_pos ⟨rfl, rfl⟩, enqueue_item hm.legal hcall ho.called]
  · simp only [mem_push, setItem_log, reduceCtorEq, or_false] at h
    have hne : ¬ (i = p ∧ k = j) := by
      rintro ⟨rfl, rfl⟩
      exact htaken d r h
    rw [push_node, setItem_items, if_neg hne]
    exact hm.spoiled i k d r h
  · simp only [mem_push, setItem_log, reduceCtorEq, or_false, Entry.put.injEq, place_inj]
      at hput htaken'
    have hne : ¬ (i = p ∧ k = j) := fun h => hput c (.inr ⟨rfl, h⟩)
    rw [push_node, setItem_items, if_neg hne]
    exact hm.free i hi k (fun c' h => hput c' (.inl h)) htaken'

/-- `items[idx].exchange(taken)`. -/
theorem MemOk.take (hm : MemOk taken m) {p j d : Nat} (ho : Holding m.log d (place p j)) :
    MemOk taken ((m.setItem p j (some taken)).push
      (.taken d (place p j) ((m.node p).items j))) := by
  have hfirst := hm.not_taken ho
  have hcell : ∀ a, (m.node p).items j = some a ↔
      ∃ c, .put c (place p j) ∈ m.log ∧ .enqueue c a ∈ m.log := by
    by_cases hput : ∃ c, .put c (place p j) ∈ m.log
    · obtain ⟨c, hc⟩ := hput
      obtain ⟨a, ha, -⟩ := exists_enqueue hm.legal hc
      rw [hm.filled p j c a hc ha hfirst]
      exact put_found hm.legal hc ha
    · have hnone : ∀ c, .put c (place p j) ∉ m.log := fun c hc => hput ⟨c, hc⟩
      obtain ⟨hp, -, -⟩ := (hm.claimed p j).mp ⟨d, ho.claimed⟩
      rw [hm.free p hp j hnone hfirst]
      intro a
      constructor
      · intro h
        cases h
      · rintro ⟨c, hc, -⟩
        exact absurd hc (hnone c)
  refine ⟨hm.legal.taken ho hcell, hm.head_lt, hm.tail_lt, fun i hi => ?_, fun i hi => ?_,
    fun i hi => ?_, fun i hi => ?_, fun i hi hhead => ?_, fun i k => ?_, fun i k => ?_,
    fun i k c' a hput hcall htaken' => ?_, fun i k d' r h => ?_, fun i hi k hput htaken' => ?_⟩
  · simpa using hm.next i hi
  · simpa using hm.last i hi
  · simpa using hm.enq_full i hi
  · simpa using hm.deq_full i hi
  · simpa using hm.deq_zero i hi hhead
  · simpa [mem_push] using hm.drawn i k
  · simpa [mem_push] using hm.claimed i k
  · simp only [mem_push, setItem_log, reduceCtorEq, or_false, Entry.taken.injEq, place_inj]
      at hput hcall htaken'
    have hne : ¬ (i = p ∧ k = j) := fun h => htaken' d _ (.inr ⟨rfl, h, rfl⟩)
    rw [push_node, setItem_items, if_neg hne]
    exact hm.filled i k c' a hput hcall fun d' r h => htaken' d' r (.inl h)
  · simp only [mem_push, setItem_log, Entry.taken.injEq, place_inj] at h
    rw [push_node, setItem_items]
    rcases h with h | ⟨-, h, -⟩
    · have hne : ¬ (i = p ∧ k = j) := by
        rintro ⟨rfl, rfl⟩
        exact hfirst d' r h
      rw [if_neg hne]
      exact hm.spoiled i k d' r h
    · rw [if_pos h]
  · simp only [mem_push, setItem_log, reduceCtorEq, or_false, Entry.taken.injEq, place_inj]
      at hput htaken'
    have hne : ¬ (i = p ∧ k = j) := fun h => htaken' d _ (.inr ⟨rfl, h, rfl⟩)
    rw [push_node, setItem_items, if_neg hne]
    exact hm.free i hi k hput fun d' r h => htaken' d' r (.inl h)

theorem MemOk.casTail (hm : MemOk taken m) (cmp : Nat) {val : Nat} (hval : val < m.count) :
    MemOk taken (m.casTail cmp val) := by
  refine ⟨hm.legal, hm.head_lt, ?_, hm.next, hm.last, hm.enq_full, hm.deq_full, hm.deq_zero,
    hm.drawn, hm.claimed, hm.filled, hm.spoiled, hm.free⟩
  unfold Shared.casTail
  split
  · exact hval
  · exact hm.tail_lt

/-- The head moves on to the next node when its own is drained. -/
theorem MemOk.casHead (hm : MemOk taken m) {lhead : Nat}
    (hfull : bufferSize ≤ (m.node lhead).deqidx) (hlt : lhead + 1 < m.count) :
    MemOk taken (m.casHead lhead (lhead + 1)) := by
  by_cases hhead : m.head = lhead
  · rw [show m.casHead lhead (lhead + 1) = { m with head := lhead + 1 } by
      rw [Shared.casHead, if_pos hhead]]
    refine ⟨hm.legal, hlt, hm.tail_lt, hm.next, hm.last, hm.enq_full, fun i hi => ?_,
      fun i hi h => hm.deq_zero i hi (show m.head < i by rw [hhead]; exact Nat.lt_of_succ_lt h),
      hm.drawn, hm.claimed, hm.filled, hm.spoiled, hm.free⟩
    rcases Nat.lt_succ_iff_lt_or_eq.mp hi with h | rfl
    · exact hm.deq_full i (hhead ▸ h)
    · exact hfull
  · rwa [show m.casHead lhead (lhead + 1) = m by rw [Shared.casHead, if_neg hhead]]

/-- The nodes after a new one was linked. -/
theorem link_node (p i : Nat) (n : Node T) : (m.link p n).node i = if i = m.count then n else
    if i = p then { m.node p with next := some m.count } else m.node i := by
  simp only [Shared.link, Function.update_apply]

theorem link_node_of_lt (p : Nat) {i : Nat} (n : Node T) (h : i < m.count) :
    ((m.link p n).node i).enqidx = (m.node i).enqidx ∧
      ((m.link p n).node i).deqidx = (m.node i).deqidx ∧
      ((m.link p n).node i).items = (m.node i).items ∧
      ((m.link p n).node i).next = if i = p then some m.count else (m.node i).next := by
  rw [link_node, if_neg (Nat.ne_of_lt h)]
  split <;> simp_all

/-- `ltail->casNext(nullptr, newNode)` where it succeeds. -/
theorem MemOk.link (hm : MemOk taken m) {p c : Nat} {item : T} (hlast : p + 1 = m.count)
    (hfull : bufferSize ≤ (m.node p).enqidx) (ho : EnqOpen m.log c item) :
    MemOk taken (((m.link p (Node.new item)).push (.drawn c (place m.count 0))).push
      (.put c (place m.count 0))) := by
  have hnode : ∀ i, i = m.count → (m.link p (Node.new item)).node i = Node.new item := by
    intro i hi
    rw [link_node, if_pos hi]
  have hold : ∀ {i j : Nat}, i < m.count → place i j ≠ place m.count 0 := by
    intro i j hi h
    exact Nat.ne_of_lt hi (place_inj.mp h).1
  -- nothing is known of the places of the new node
  have hdrawn : ∀ c' j, .drawn c' (place m.count j) ∉ m.log :=
    fun c' j h => Nat.lt_irrefl _ ((hm.drawn m.count j).mp ⟨c', h⟩).1
  have hclaimed : ∀ d j, .claimed d (place m.count j) ∉ m.log :=
    fun d j h => Nat.lt_irrefl _ ((hm.claimed m.count j).mp ⟨d, h⟩).1
  have hput : ∀ c' j, .put c' (place m.count j) ∉ m.log := by
    intro c' j h
    obtain ⟨a, -, h⟩ := exists_enqueue hm.legal h
    exact hdrawn c' j h
  have htaken : ∀ d j r, .taken d (place m.count j) r ∉ m.log :=
    fun d j r h => hclaimed d j (taken_claimed hm.legal h)
  have hlegal : Legal (m.log ++ [.drawn c (place m.count 0)] ++ [.put c (place m.count 0)]) := by
    refine (hm.legal.drawn ho fun c' q hq => ?_).put ho.drawn
      (List.mem_append_right _ List.mem_cons_self) (fun d r h => ?_) fun d q hq hlt => ?_
    · obtain ⟨i, j, rfl⟩ := exists_place q
      exact place_lt.mpr (.inl ((hm.drawn i j).mp ⟨c', hq⟩).1)
    · rw [List.mem_append, List.mem_singleton, or_iff_left (by simp)] at h
      exact htaken d 0 r h
    · obtain ⟨i, j, rfl⟩ := exists_place q
      rw [List.mem_append, List.mem_singleton, or_iff_left (by simp)] at hq
      have hi := ((hm.claimed i j).mp ⟨d, hq⟩).1
      rcases place_lt.mp hlt with h | ⟨h, -⟩ <;> omega
  have hlog : ∀ x, x ∈ (((m.link p (Node.new item)).push (.drawn c (place m.count 0))).push
      (.put c (place m.count 0))).log ↔
      (x ∈ m.log ∨ x = .drawn c (place m.count 0)) ∨ x = .put c (place m.count 0) := by
    intro x
    rw [mem_push, mem_push]
    exact Iff.rfl
  have hlt := hm.head_lt
  have hcount : ∀ i, i < (m.link p (Node.new item)).count ↔ i < m.count ∨ i = m.count :=
    fun i => Nat.lt_succ_iff_lt_or_eq
  refine ⟨hlegal, Nat.lt_succ_of_lt hm.head_lt, Nat.lt_succ_of_lt hm.tail_lt, fun i hi => ?_,
    fun i hi => ?_, fun i hi => ?_, fun i hi => ?_, fun i hi hhead => ?_, fun i j => ?_,
    fun i j => ?_, fun i j c' a hput' hcall htaken' => ?_, fun i j d r h => ?_,
    fun i hi j hput' htaken' => ?_⟩
  · simp only [push_node, push_count] at hi ⊢
    have hi : i < m.count := Nat.lt_of_succ_lt_succ hi
    rw [(link_node_of_lt p _ hi).2.2.2]
    by_cases hip : i = p
    · rw [if_pos hip, ← hlast, hip]
    · rw [if_neg hip]
      exact hm.next i (by omega)
  · simp only [push_node, push_count] at hi ⊢
    rw [hnode i (Nat.succ.inj hi)]
    rfl
  · simp only [push_node, push_count] at hi ⊢
    have hi : i < m.count := Nat.lt_of_succ_lt_succ hi
    rw [(link_node_of_lt p _ hi).1]
    by_cases hip : i = p
    · rwa [hip]
    · exact hm.enq_full i (by omega)
  · have hi : i < m.head := hi
    rw [push_node, push_node, (link_node_of_lt p _ (hi.trans hlt)).2.1]
    exact hm.deq_full i hi
  · rw [push_node, push_node]
    rcases (hcount i).mp hi with h | h
    · rw [(link_node_of_lt p _ h).2.1]
      exact hm.deq_zero i h hhead
    · rw [hnode i h]
      rfl
  · simp only [hlog, push_node, push_count, hcount, reduceCtorEq, or_false, Entry.drawn.injEq,
      exists_or]
    by_cases hi : i = m.count
    · subst hi
      rw [hnode _ rfl]
      simp only [hdrawn, place_inj, Node.new, Nat.lt_one_iff, exists_const, false_or, true_and,
        or_true, exists_eq_left]
      have := Nat.lt_of_lt_of_le (by decide : 0 < bufferSize) (Nat.le_refl _)
      constructor
      · rintro rfl
        exact ⟨this, rfl⟩
      · exact fun h => h.2
    · rcases Nat.lt_or_ge i m.count with h | h
      · rw [(link_node_of_lt p _ h).1, hm.drawn i j]
        simp [hold h, hi]
      · have hnone : ¬ ∃ c, .drawn c (place i j) ∈ m.log :=
          fun hex => Nat.not_lt_of_le h ((hm.drawn i j).mp hex).1
        have hplace : place i j ≠ place m.count 0 := fun heq => hi (place_inj.mp heq).1
        simp [hnone, hplace, hi, Nat.not_lt_of_le h]
  · simp only [hlog, push_node, push_count, hcount, reduceCtorEq, or_false]
    by_cases hi : i = m.count
    · subst hi
      rw [hnode _ rfl]
      simp [hclaimed, Node.new]
    · rcases Nat.lt_or_ge i m.count with h | h
      · rw [(link_node_of_lt p _ h).2.1, hm.claimed i j]
        simp [hi]
      · have hnone : ¬ ∃ d, .claimed d (place i j) ∈ m.log :=
          fun hex => Nat.not_lt_of_le h ((hm.claimed i j).mp hex).1
        simp [hnone, hi, Nat.not_lt_of_le h]
  · simp only [hlog, reduceCtorEq, or_false, Entry.put.injEq] at hput' hcall htaken'
    rw [push_node, push_node]
    rcases hput' with hput' | ⟨rfl, heq⟩
    · have hi : i < m.count := by
        obtain ⟨b, -, h⟩ := exists_enqueue hm.legal hput'
        exact ((hm.drawn i j).mp ⟨c', h⟩).1
      rw [(link_node_of_lt p _ hi).2.2.1]
      exact hm.filled i j c' a hput' hcall htaken'
    · obtain ⟨rfl, rfl⟩ := place_inj.mp heq
      rw [hnode _ rfl, enqueue_item hm.legal hcall ho.called]
      rfl
  · simp only [hlog, reduceCtorEq, or_false] at h
    have hi := ((hm.claimed i j).mp ⟨d, taken_claimed hm.legal h⟩).1
    rw [push_node, push_node, (link_node_of_lt p _ hi).2.2.1]
    exact hm.spoiled i j d r h
  · simp only [hlog, reduceCtorEq, or_false, Entry.put.injEq] at hput' htaken'
    rw [push_node, push_node]
    rcases (hcount i).mp hi with h | rfl
    · rw [(link_node_of_lt p _ h).2.2.1]
      exact hm.free i h j (fun c' hc => hput' c' (.inl hc)) htaken'
    · rw [hnode _ rfl]
      have hj : j ≠ 0 := by
        rintro rfl
        exact hput' c (.inr ⟨rfl, rfl⟩)
      exact if_neg hj

/-! ## §5 — steps and runs -/

theorem later_addEnqidx (p c : Nat) : Later m (m.addEnqidx p) c :=
  ⟨.refl _ c, Nat.le_refl _, Nat.le_refl _, fun i _ => by rw [addEnqidx_enqidx]; omega,
    fun i _ => by rw [addEnqidx_deqidx], fun i _ h => by rwa [addEnqidx_next] at h⟩

theorem later_addDeqidx (p c : Nat) : Later m (m.addDeqidx p) c :=
  ⟨.refl _ c, Nat.le_refl _, Nat.le_refl _, fun i _ => by rw [addDeqidx_enqidx],
    fun i _ => by rw [addDeqidx_deqidx]; omega, fun i _ h => by rwa [addDeqidx_next] at h⟩

theorem later_setItem (p j c : Nat) (x : Option T) : Later m (m.setItem p j x) c :=
  ⟨.refl _ c, Nat.le_refl _, Nat.le_refl _, fun i _ => by rw [setItem_enqidx],
    fun i _ => by rw [setItem_deqidx], fun i _ h => by rwa [setItem_next] at h⟩

theorem later_casTail (cmp val c : Nat) : Later m (m.casTail cmp val) c :=
  ⟨.refl _ c, Nat.le_refl _, Nat.le_refl _, fun _ _ => Nat.le_refl _, fun _ _ => Nat.le_refl _,
    fun _ _ h => h⟩

theorem later_casHead (lhead c : Nat) : Later m (m.casHead lhead (lhead + 1)) c := by
  refine ⟨.refl _ c, Nat.le_refl _, ?_, fun _ _ => Nat.le_refl _, fun _ _ => Nat.le_refl _,
    fun _ _ h => h⟩
  unfold Shared.casHead
  dsimp only
  split <;> omega

theorem later_link (p c : Nat) (n : Node T) : Later m (m.link p n) c := by
  refine ⟨.refl _ c, Nat.le_succ _, Nat.le_refl _, fun i hi => ?_, fun i hi => ?_,
    fun i hi h => ?_⟩
  · rw [(link_node_of_lt p n hi).1]
  · rw [(link_node_of_lt p n hi).2.1]
  · rw [(link_node_of_lt p n hi).2.2.2] at h
    split at h
    · cases h
    · exact h

theorem MemOk.count_of_last (hm : MemOk taken m) {p : Nat} (hp : p < m.count)
    (hnext : (m.node p).next = none) : p + 1 = m.count := by
  by_contra hne
  rw [hm.next p (by omega)] at hnext
  cases hnext

theorem MemOk.next_eq (hm : MemOk taken m) {p q : Nat} (hp : p < m.count)
    (hnext : (m.node p).next = some q) : q = p + 1 ∧ q < m.count := by
  by_cases hlt : p + 1 < m.count
  · rw [hm.next p hlt] at hnext
    obtain rfl := Option.some.inj hnext
    exact ⟨rfl, hlt⟩
  · rw [hm.last p (by omega)] at hnext
    cases hnext

/-- A call begins. -/
theorem call_stepOk (hm : MemOk taken m) (a : Action T) :
    (outline taken).StepOk m .idle (call m a).1 (call m a).2 := by
  have hidle : (outline taken).StepOk m .idle m .idle :=
    stepOk_of_later hm hm trivial (Later.refl m m.log.length) (.inr rfl) fun c h => by cases h
  cases a with
  | go => exact hidle
  | enqueue item =>
      cases item with
      | none => exact hidle
      | some item =>
          exact stepOk_of_later hm (hm.pushVisible rfl (hm.legal.enqueue item))
            (EnqOpen.new hm.legal item) ((Later.refl m m.log.length).push rfl) (.inr rfl)
            fun c h => (Option.some.inj h).symm
  | dequeue =>
      exact stepOk_of_later hm (hm.pushVisible rfl hm.legal.dequeue) (DeqOpen.new hm.legal)
        ((Later.refl m m.log.length).push rfl) (.inr rfl) fun c h => (Option.some.inj h).symm

/-- A step of a call that does not change the queue. -/
theorem stepOk_of_local (hm : MemOk taken m) {pc pc' : Pc T} {c : Nat} (hc : pc.call = some c)
    (hc' : pc'.call = some c) (hpc' : PcOk m pc') : (outline taken).StepOk m pc m pc' :=
  stepOk_of_later hm hm hpc' (Later.refl m c) (.inl hc) fun c' h => by
    rw [hc'] at h
    exact (Option.some.inj h).symm

/-- **Every access keeps what holds of the queue and of the threads.** -/
theorem access_stepOk (hm : MemOk taken m) {pc : Pc T} (hpc : PcOk m pc) :
    (outline taken).StepOk m pc (access .deqidxFirst taken m pc).1 (access .deqidxFirst taken m pc).2 := by
  have hhead := hm.head_lt
  cases pc with
  | idle => exact call_stepOk hm .go
  | enqProtect c item n =>
      rw [access]
      split
      · exact stepOk_of_local hm rfl rfl ⟨hpc, hm.tail_lt⟩
      · exact stepOk_of_local hm rfl rfl hpc
  | enqTicket c item ltail =>
      obtain ⟨ho, hlt⟩ := hpc
      have hcall : ∀ c', some c = some c' → c' = c := fun c' h => (Option.some.inj h).symm
      rw [access]
      split
      · rename_i hidx
        have hfull : bufferSize ≤ (m.node ltail).enqidx := Nat.le_of_pred_lt hidx
        refine stepOk_of_later hm (hm.bumpEnq hfull) ⟨ho, hlt, ?_⟩ (later_addEnqidx ltail c)
          (.inl rfl) hcall
        rw [addEnqidx_enqidx]
        omega
      · rename_i hidx
        have hpos : 0 < bufferSize := by decide
        have hidx : (m.node ltail).enqidx < bufferSize := by omega
        exact stepOk_of_later hm (hm.draw hlt hidx ho) ⟨ho.drawn, mem_push_self⟩
          ((later_addEnqidx ltail c).push rfl) (.inl rfl) hcall
  | enqRecheck c item ltail =>
      rw [access]
      split
      · exact stepOk_of_local hm rfl rfl hpc.1
      · exact stepOk_of_local hm rfl rfl hpc
  | enqNext c item ltail =>
      rw [access]
      split
      · exact stepOk_of_local hm rfl rfl hpc
      · rename_i lnext hnext
        exact stepOk_of_local hm rfl rfl ⟨hpc.1, (hm.next_eq hpc.2.1 hnext).2⟩
  | enqLink c item ltail =>
      obtain ⟨ho, hlt, hfull⟩ := hpc
      rw [access]
      split
      · rename_i hnext
        refine stepOk_of_later hm (hm.link (hm.count_of_last hlt hnext) hfull ho)
          ⟨⟨_, mem_push_self⟩, Nat.lt_succ_self _⟩
          (((later_link ltail c _).push rfl).push rfl) (.inl rfl)
          fun c' h => (Option.some.inj h).symm
      · exact stepOk_of_local hm rfl rfl ho
  | enqSwing c ltail newNode =>
      exact stepOk_of_later hm (hm.casTail ltail hpc.2) hpc.1 (later_casTail ltail newNode c)
        (.inl rfl) fun c' h => (Option.some.inj h).symm
  | enqHelp c item ltail lnext =>
      exact stepOk_of_later hm (hm.casTail ltail hpc.2) hpc.1 (later_casTail ltail lnext c)
        (.inl rfl) fun c' h => (Option.some.inj h).symm
  | enqCell c item ltail idx =>
      rw [access]
      split
      · rename_i hnull
        exact stepOk_of_later hm (hm.fill hpc.1 hpc.2 hnull) ⟨_, mem_push_self⟩
          ((later_setItem ltail idx c _).push rfl) (.inl rfl) fun c' h => (Option.some.inj h).symm
      · exact stepOk_of_local hm rfl rfl hpc.1
  | enqReturn c =>
      exact stepOk_of_later hm (hm.pushVisible rfl (hm.legal.enqueued hpc)) trivial
        ((Later.refl m c).push rfl) (.inl rfl) fun c' h => by cases h
  | deqProtect d n =>
      rw [access]
      split
      · exact stepOk_of_local hm rfl rfl ⟨hpc, Nat.le_refl _⟩
      · exact stepOk_of_local hm rfl rfl hpc
  | deqIdx d lhead => exact stepOk_of_local hm rfl rfl ⟨hpc.1, hpc.2, Nat.le_refl _⟩
  | deqCompare d lhead deqidx =>
      obtain ⟨ho, hle, hidx⟩ := hpc
      rw [access]
      split
      · rename_i hge
        refine stepOk_of_local hm rfl rfl ⟨ho, hle, fun hnext => ?_⟩
        exact SawEmpty.now hm.legal ho.called (hm.allClaimed hle hnext fun j _ hj => by omega)
      · exact stepOk_of_local hm rfl rfl ⟨ho, hle⟩
  | deqEmpty d lhead =>
      obtain ⟨ho, hle, hempty⟩ := hpc
      rw [access]
      split
      · rename_i hnext
        exact stepOk_of_local hm rfl rfl ⟨ho, hempty hnext⟩
      · exact stepOk_of_local hm rfl rfl ⟨ho, hle⟩
  | deqTicket d lhead =>
      obtain ⟨ho, hle⟩ := hpc
      have hcall : ∀ c', some d = some c' → c' = d := fun c' h => (Option.some.inj h).symm
      rw [access]
      split
      · rename_i hidx
        have hfull : bufferSize ≤ (m.node lhead).deqidx := Nat.le_of_pred_lt hidx
        refine stepOk_of_later hm (hm.bumpDeq hle hfull) ⟨ho, hle, ?_⟩ (later_addDeqidx lhead d)
          (.inl rfl) hcall
        rw [addDeqidx_deqidx]
        omega
      · rename_i hidx
        have hpos : 0 < bufferSize := by decide
        have hidx : (m.node lhead).deqidx < bufferSize := by omega
        exact stepOk_of_later hm (hm.claim hle hidx ho)
          (ho.claimed hm.legal (hm.claimed_lt_ticket hle hidx).2.1)
          ((later_addDeqidx lhead d).push rfl) (.inl rfl) hcall
  | deqNext d lhead =>
      obtain ⟨ho, hle, hfull⟩ := hpc
      rw [access]
      split
      · rename_i hnext
        refine stepOk_of_local hm rfl rfl ⟨ho, ?_⟩
        exact SawEmpty.now hm.legal ho.called
          (hm.allClaimed hle hnext fun j hj _ => Nat.lt_of_lt_of_le hj hfull)
      · rename_i lnext hnext
        obtain ⟨rfl, hlt⟩ := hm.next_eq (by omega) hnext
        exact stepOk_of_local hm rfl rfl ⟨ho, hle, hfull, rfl, hlt⟩
  | deqSwing d lhead lnext =>
      obtain ⟨ho, -, hfull, rfl, hlt⟩ := hpc
      exact stepOk_of_later hm (hm.casHead hfull hlt) ho (later_casHead lhead d) (.inl rfl)
        fun c' h => (Option.some.inj h).symm
  | deqCell d lhead idx =>
      have hcall : ∀ c', some d = some c' → c' = d := fun c' h => (Option.some.inj h).symm
      have hm' := hm.take hpc
      have hlater : Later m ((m.setItem lhead idx (some taken)).push
          (.taken d (place lhead idx) ((m.node lhead).items idx))) d :=
        (later_setItem lhead idx d _).push rfl
      rw [access]
      split
      · rename_i hnull
        rw [hnull] at hm' hlater ⊢
        exact stepOk_of_later hm hm' (Holding.nothing hpc) hlater (.inl rfl) hcall
      · rename_i item hitem
        rw [hitem] at hm' hlater ⊢
        exact stepOk_of_later hm hm' (Holding.found hpc item) hlater (.inl rfl) hcall
  | deqReturn d ret =>
      have hlegal : Legal (m.log ++ [.dequeued d ret]) := by
        cases ret with
        | none => exact hm.legal.dequeuedNone hpc.1 hpc.2
        | some a => exact hm.legal.dequeuedSome hpc
      exact stepOk_of_later hm (hm.pushVisible rfl hlegal) trivial ((Later.refl m d).push rfl)
        (.inl rfl) fun c' h => by cases h

theorem stepThread_stepOk (hm : MemOk taken m) {pc : Pc T} (hpc : PcOk m pc) (a : Action T) :
    (outline taken).StepOk m pc (stepThread .deqidxFirst taken a m pc).1
      (stepThread .deqidxFirst taken a m pc).2 := by
  unfold stepThread
  split
  · exact call_stepOk hm a
  · exact access_stepOk hm hpc
  · -- an action that does not fit is ignored
    exact .of_memory hm hpc fun q _ h h' => ⟨h, h'⟩

end Accesses

theorem outline_init (taken : T) (n : Nat) : (outline taken).Holds (init n) where
  shared := by
    refine ⟨legal_nil, Nat.one_pos, Nat.one_pos, fun i hi => ?_, fun _ _ => rfl, fun i hi => ?_,
      fun i hi => absurd hi (Nat.not_lt_zero i), fun _ _ _ => rfl, fun i j => ?_, fun i j => ?_,
      fun i j c a h => absurd h List.not_mem_nil, fun i j d r h => absurd h List.not_mem_nil,
      fun _ _ _ _ _ => rfl⟩
    · exact absurd hi (by simp [init, Shared.init])
    · exact absurd hi (by simp [init, Shared.init])
    · simp [init, Shared.init, Node.sentinel]
    · simp [init, Shared.init, Node.sentinel]
  thread _ := trivial
  pair _ _ _ := fun _ h => by cases h

theorem outline_run (c : Config) (hc : c.order = .deqidxFirst) (taken : T)
    (ls : List (Fin c.maxThreads × Action T)) : (outline taken).Holds (run c taken ls) := by
  unfold run
  rw [hc]
  exact (outline_init taken c.maxThreads).run (fun _ => True) (fun _ _ _ _ => trivial)
    (fun a _ _ hm hpc _ => stepThread_stepOk hm hpc a) ls trivial

/-- **`FAAArrayQueue` is linearizable where `deqidx` is loaded first**: whatever the threads do, there
is an order of the calls that respects which call ended before which began, and in which a FIFO queue
gives the same answers. -/
theorem faa_linearizable (c : Config) (hc : c.order = .deqidxFirst) (taken : T)
    (ls : List (Fin c.maxThreads × Action T)) : Linearizable fifo [] (history c taken ls) :=
  Legal.linearizable (outline_run c hc taken ls).shared.legal

/-- Thread 0 has put 5 and looks for an element: it has done the first of the two loads when thread 1
puts 7 and takes 5. Then thread 0 goes on. -/
def overtaken : List (Fin 2 × Action Nat) :=
  ((0, .enqueue (some 5)) :: List.replicate 5 (0, .go)) ++
    ((0, .dequeue) :: List.replicate 3 (0, .go)) ++
    ((1, .enqueue (some 7)) :: List.replicate 5 (1, .go)) ++
    ((1, .dequeue) :: List.replicate 7 (1, .go)) ++ List.replicate 6 (0, .go)

theorem faa_linearizable_overtaken :
    Linearizable fifo [] (history ⟨2, by decide, .deqidxFirst⟩ 0 overtaken) ∧
      history ⟨2, by decide, .deqidxFirst⟩ 0 overtaken =
        [.call 0 (.enqueue 5), .ret 0 none, .call 4 .dequeue, .call 5 (.enqueue 7), .ret 5 none,
          .call 9 .dequeue, .ret 9 (some 5), .ret 4 (some 7)] :=
  ⟨faa_linearizable ⟨2, by decide, .deqidxFirst⟩ rfl 0 overtaken, by decide +kernel⟩

/-- The calls of the same run where `enqidx` is loaded first, and what they return: the first dequeue
finds nothing. -/
def missed : List (Effect (QueueOp Nat) (Option Nat)) :=
  [⟨0, .enqueue 5, none⟩, ⟨4, .dequeue, none⟩, ⟨5, .enqueue 7, none⟩, ⟨9, .dequeue, some 5⟩]

/-- No order of these calls fits. -/
theorem missed_not_sequential : ∀ effects ∈ missed.permutations',
    responses fifo [] (effects.map Effect.op) = effects.map Effect.res →
      [⟨0, .enqueue 5, none⟩, ⟨4, .dequeue, none⟩] <+ effects →
        ¬ [⟨5, .enqueue 7, none⟩, ⟨9, .dequeue, some 5⟩] <+ effects := by decide +kernel

/-- **With the other order of the loads the queue is not linearizable**: the dequeue returns nothing
although there was an element all the time. -/
theorem not_linearizable_overtaken :
    ¬ Linearizable fifo [] (history ⟨2, by decide, .enqidxFirst⟩ 0 overtaken) := by
  rintro ⟨effects, h⟩
  have hhistory : history ⟨2, by decide, .enqidxFirst⟩ 0 overtaken =
      [.call 0 (.enqueue 5), .ret 0 none, .call 4 .dequeue, .call 5 (.enqueue 7), .ret 5 none,
        .call 9 .dequeue, .ret 9 (some 5), .ret 4 none] := by decide +kernel
  rw [hhistory] at h
  have hmem : ∀ e, e ∈ effects ↔ e ∈ missed := by
    rintro ⟨id, op, res⟩
    rw [h.mem_iff (by simp; grind) (by simp; grind)]
    simp only [missed, List.mem_cons, List.not_mem_nil, Event.call.injEq, Event.ret.injEq,
      Effect.mk.injEq, reduceCtorEq]
    grind
  have hperm : effects ∈ missed.permutations' :=
    List.mem_permutations'.mpr ((List.perm_ext_iff_of_nodup h.once.of_map (by decide)).mpr hmem)
  refine missed_not_sequential effects hperm h.sequential ?_ ?_
  · exact h.realTime _ ((hmem _).mpr (by decide)) _ ((hmem _).mpr (by decide)) none (by decide)
  · exact h.realTime _ ((hmem _).mpr (by decide)) _ ((hmem _).mpr (by decide)) none (by decide)

end RelaxedConcurrentFifo.FAAArrayQueue
