/-
# RelaxedConcurrentFifo.MichaelScottQueue.Machine — `MichaelScottQueue.hpp` with hazard pointers

A linked list whose first node is a sentinel: `enqueue` links a node behind the last one and swings
`tail` to it, `dequeue` moves `head` to the second node and takes the item from there. The old sentinel
is retired, and deleted once no thread names it in a hazard pointer.

Nodes live at addresses that come back: `new` gives any address that no node has at the moment, and
`delete` makes an address free again, so a pointer that a thread still holds may by then lead to nothing,
or to another node. An access to a node that is not there sets `fault`, and so does one to a row of
hazard pointers that is not there: there are rows for `HP_MAX_THREADS` threads, and nothing stops a queue
from being made for more. Each access to `head`, `tail`, a hazard pointer or a field of a node is one
step, in the order of the source; what no step depends on (how many nodes were linked, the number of a
node, the log) is history.
-/
import RelaxedConcurrentFifo.HazardPointers
import RelaxedConcurrentFifo.Lib.Interleaving
import RelaxedConcurrentFifo.Lib.TicketQueue

namespace RelaxedConcurrentFifo.MichaelScottQueue

open RelaxedConcurrentFifo.HazardPointers
open RelaxedConcurrentFifo.Lib.Interleaving
open RelaxedConcurrentFifo.Lib.Linearizability
open RelaxedConcurrentFifo.Lib.TicketQueue

variable {T : Type}

/-! ## §1 — the queue -/

/-- `Node`; a `T*` is `none` when it is `nullptr`. `place` is history: its number in the order of
linking. -/
structure Node (T : Type) where
  item : Option T
  seqId : Nat
  next : Option Addr
  place : Option Nat

/-- `Node(userItem)`. -/
def Node.new (userItem : Option T) : Node T := ⟨userItem, 0, none, none⟩

/-- `ltail->seqId + 1` in a `uint64_t`. -/
def seqIdAfter (seqId : Nat) : Nat := (seqId + 1) % 2 ^ 64

/-- `hp {3, maxThreads}` and its slots. -/
def maxHPs : Nat := 3

def kHpTail : Nat := 0
def kHpHead : Nat := 1
def kHpNext : Nat := 2

/-- The queue and the memory of its nodes. The last four fields are history. -/
structure Shared (T : Type) where
  heap : Addr → Option (Node T)
  hp : Nat → Nat → Option Addr
  head : Addr
  tail : Addr
  fault : Bool
  count : Nat
  headPlace : Nat
  tailPlace : Nat
  log : List (Entry Nat T)

namespace Shared

variable (m : Shared T)

def push (e : Entry Nat T) : Shared T := { m with log := m.log ++ [e] }

/-- A store to the whole node at `a`, or its deletion. -/
def setNode (a : Addr) (x : Option (Node T)) : Shared T :=
  { m with heap := Function.update m.heap a x }

/-- `hp[tid][index].store(ptr)`. -/
def setHp (tid index : Nat) (ptr : Option Addr) : Shared T :=
  { m with hp := Function.update m.hp tid (Function.update (m.hp tid) index ptr) }

/-- `ltail->casNext(nullptr, newNode)` where it succeeds; `nd` is what `ltail` points to. -/
def link (ltail : Addr) (nd : Node T) (newNode : Addr) (new : Node T) : Shared T :=
  { m with
    heap := Function.update (Function.update m.heap ltail (some { nd with next := some newNode }))
      newNode (some { new with place := some m.count })
    count := m.count + 1 }

/-- `casTail(cmp, val)`. -/
def casTail (cmp val : Addr) : Shared T :=
  if m.tail = cmp then { m with tail := val, tailPlace := m.tailPlace + 1 } else m

/-- `casHead(cmp, val)` where it succeeds. -/
def moveHead (val : Addr) : Shared T := { m with head := val, headPlace := m.headPlace + 1 }

end Shared

/-- The point before each access. Every call of `enqueue` and `dequeue` carries its name, which no
access depends on. -/
inductive Pc (T : Type) where
  | idle
  -- `enqueue`
  | enqLoad (call : Nat) (newNode : Addr)
  | enqProtect (call : Nat) (newNode ltail : Addr)
  | enqCheck (call : Nat) (newNode ltail : Addr)
  | enqNext (call : Nat) (newNode ltail : Addr)
  | enqSeqId (call : Nat) (newNode ltail : Addr)
  | enqLink (call : Nat) (newNode ltail : Addr)
  | enqSwing (call : Nat) (newNode ltail : Addr)
  | enqHelp (call : Nat) (newNode ltail lnext : Addr)
  | enqClear (call ihp : Nat)
  | enqReturn (call : Nat)
  -- `dequeue`
  | deqHead (call : Nat) (n : Option Addr)
  | deqHeadStore (call : Nat) (ret : Addr)
  | deqNext (call : Nat) (node : Addr) (n : Option Addr)
  | deqNextStore (call : Nat) (node : Addr) (ret : Option Addr)
  | deqTail (call : Nat) (node lnext : Addr)
  | deqHelp (call : Nat) (node lnext : Addr)
  | deqCas (call : Nat) (node lnext : Addr)
  | deqItem (call : Nat) (node lnext : Addr)
  | deqClear (call ihp : Nat) (item : Option T) (node : Option Addr)
  | deqReturn (call : Nat) (item : Option T)
  -- `hp.retire`
  | retirePush (call : Nat) (item : Option T) (ptr : Addr)
  | retireScan (call : Nat) (item : Option T) (s : Scan)
  | retireDelete (call : Nat) (item : Option T) (iret : Nat)
  -- `estimateSize`
  | sizeHead (n : Option Addr)
  | sizeHeadStore (ret : Addr)
  | sizeTail (lhead : Addr) (n : Option Addr)
  | sizeTailStore (lhead ret : Addr)
  | sizeTailId (lhead ltail : Addr)
  | sizeHeadId (lhead : Addr) (t : Nat)
  | sizeClear (ihp t h : Nat)
  | sizeReturn (t h : Nat)
  deriving DecidableEq, Repr

/-- A thread: its number, its `retiredList`, and where it is. -/
structure Local (T : Type) where
  tid : Nat
  retiredList : List Addr
  pc : Pc T

def Local.goto (l : Local T) (pc : Pc T) : Local T := { l with pc := pc }

/-- A call, or the next access of the call that is running. `newNode` is the address that `new` gives,
if it is free. -/
inductive Action (T : Type) where
  | enqueue (item : Option T) (newNode : Addr)
  | dequeue
  | estimateSize
  | go
  deriving DecidableEq, Repr

/-! ## §2 — the program -/

/-- An access to the node at `a`. -/
def Shared.deref (m : Shared T) (l : Local T) (a : Addr)
    (f : Node T → Shared T × Local T) : Shared T × Local T :=
  match m.heap a with
  | some nd => f nd
  | none => ({ m with fault := true }, l)

/-- An access to row `tid` of `hp`. -/
def Shared.inRow (m : Shared T) (l : Local T) (tid : Nat) (next : Shared T × Local T) :
    Shared T × Local T :=
  if tid < hpMaxThreads then next else ({ m with fault := true }, l)

/-- A call begins. `enqueue(nullptr)` throws. -/
def call (m : Shared T) (l : Local T) : Action T → Shared T × Local T
  | .enqueue (some item) newNode =>
      match m.heap newNode with
      | some _ => (m, l)
      | none =>
          ((m.setNode newNode (some (.new (some item)))).push (.enqueue m.log.length item),
            l.goto (.enqLoad m.log.length newNode))
  | .enqueue none _ => (m, l)
  | .dequeue => (m.push (.dequeue m.log.length), l.goto (.deqHead m.log.length none))
  | .estimateSize => (m, l.goto (.sizeHead none))
  | .go => (m, l)

/-- The next access of a running `enqueue`. -/
def accessEnqueue (m : Shared T) (l : Local T) : Shared T × Local T :=
  match l.pc with
  | .enqLoad e newNode => (m, l.goto (.enqProtect e newNode m.tail))
  | .enqProtect e newNode ltail =>
      m.inRow l l.tid (m.setHp l.tid kHpTail (some ltail), l.goto (.enqCheck e newNode ltail))
  | .enqCheck e newNode ltail =>
      (m, l.goto (if ltail ≠ m.tail then .enqLoad e newNode else .enqNext e newNode ltail))
  | .enqNext e newNode ltail =>
      m.deref l ltail fun nd =>
        match nd.next with
        | none => (m, l.goto (.enqSeqId e newNode ltail))
        | some lnext => (m, l.goto (.enqHelp e newNode ltail lnext))
  | .enqSeqId e newNode ltail =>
      m.deref l ltail fun nd =>
        m.deref l newNode fun new =>
          (m.setNode newNode (some { new with seqId := seqIdAfter nd.seqId }),
            l.goto (.enqLink e newNode ltail))
  | .enqLink e newNode ltail =>
      m.deref l ltail fun nd =>
        match nd.next with
        | none =>
            m.deref l newNode fun new =>
              (((m.link ltail nd newNode new).push (.drawn e m.count)).push (.put e m.count),
                l.goto (.enqSwing e newNode ltail))
        | some _ => (m, l.goto (.enqLoad e newNode))
  | .enqSwing e newNode ltail => (m.casTail ltail newNode, l.goto (.enqClear e 0))
  | .enqHelp e newNode ltail lnext => (m.casTail ltail lnext, l.goto (.enqLoad e newNode))
  | .enqClear e ihp =>
      m.inRow l l.tid (m.setHp l.tid ihp none,
        l.goto (if ihp + 1 < maxHPs then .enqClear e (ihp + 1) else .enqReturn e))
  | .enqReturn e => (m.push (.enqueued e), l.goto .idle)
  | _ => (m, l)

/-- The next access of a running `dequeue`. -/
def accessDequeue (m : Shared T) (l : Local T) : Shared T × Local T :=
  match l.pc with
  | .deqHead d n =>
      (m, l.goto (if some m.head = n then .deqNext d m.head none else .deqHeadStore d m.head))
  | .deqHeadStore d ret =>
      m.inRow l l.tid (m.setHp l.tid kHpHead (some ret), l.goto (.deqHead d (some ret)))
  | .deqNext d node n =>
      m.deref l node fun nd =>
        if nd.next = n then
          match nd.next with
          | none => (m, l.goto (.deqClear d 0 none none))
          | some lnext => (m, l.goto (.deqTail d node lnext))
        else (m, l.goto (.deqNextStore d node nd.next))
  | .deqNextStore d node ret =>
      m.inRow l l.tid (m.setHp l.tid kHpNext ret, l.goto (.deqNext d node ret))
  | .deqTail d node lnext =>
      (m, l.goto (if node = m.tail then .deqHelp d node lnext else .deqCas d node lnext))
  | .deqHelp d node lnext => (m.casTail node lnext, l.goto (.deqCas d node lnext))
  | .deqCas d node lnext =>
      if m.head = node then
        ((m.moveHead lnext).push (.claimed d (m.headPlace + 1)), l.goto (.deqItem d node lnext))
      else (m, l.goto (.deqHead d none))
  | .deqItem d node lnext =>
      m.deref l lnext fun nd =>
        (m.push (.taken d (nd.place.getD 0) nd.item), l.goto (.deqClear d 0 nd.item (some node)))
  | .deqClear d ihp item node =>
      m.inRow l l.tid (m.setHp l.tid ihp none,
        l.goto (if ihp + 1 < maxHPs then .deqClear d (ihp + 1) item node
          else match node with
            | none => .deqReturn d item
            | some node => .retirePush d item node))
  | .deqReturn d item => (m.push (.dequeued d item), l.goto .idle)
  | _ => (m, l)

/-- The next access of a running `retire`. -/
def accessRetire (maxThreads : Nat) (m : Shared T) (l : Local T) : Shared T × Local T :=
  match l.pc with
  | .retirePush d item ptr =>
      (m, ⟨l.tid, l.retiredList ++ [ptr], .retireScan d item (.start maxHPs 0)⟩)
  | .retireScan d item s =>
      match l.retiredList[s.iret]? with
      | none => (m, l.goto (.deqReturn d item))
      | some obj =>
          m.inRow l s.tid
            (match s.load maxThreads maxHPs obj (m.hp s.tid s.ihp) with
            | .keep => (m, l.goto (.retireScan d item (.start maxHPs (s.iret + 1))))
            | .next s' => (m, l.goto (.retireScan d item s'))
            | .canDelete => (m, l.goto (.retireDelete d item s.iret)))
  | .retireDelete d item iret =>
      match l.retiredList[iret]? with
      | none => (m, l)
      | some obj =>
          m.deref l obj fun _ =>
            (m.setNode obj none,
              ⟨l.tid, l.retiredList.eraseIdx iret, .retireScan d item (.start maxHPs iret)⟩)
  | _ => (m, l)

/-- The next access of a running `estimateSize`. -/
def accessSize (m : Shared T) (l : Local T) : Shared T × Local T :=
  match l.pc with
  | .sizeHead n =>
      (m, l.goto (if some m.head = n then .sizeTail m.head none else .sizeHeadStore m.head))
  | .sizeHeadStore ret =>
      m.inRow l l.tid (m.setHp l.tid kHpHead (some ret), l.goto (.sizeHead (some ret)))
  | .sizeTail lhead n =>
      (m, l.goto (if some m.tail = n then .sizeTailId lhead m.tail
        else .sizeTailStore lhead m.tail))
  | .sizeTailStore lhead ret =>
      m.inRow l l.tid (m.setHp l.tid kHpTail (some ret), l.goto (.sizeTail lhead (some ret)))
  | .sizeTailId lhead ltail => m.deref l ltail fun nd => (m, l.goto (.sizeHeadId lhead nd.seqId))
  | .sizeHeadId lhead t => m.deref l lhead fun nd => (m, l.goto (.sizeClear 0 t nd.seqId))
  | .sizeClear ihp t h =>
      m.inRow l l.tid (m.setHp l.tid ihp none,
        l.goto (if ihp + 1 < maxHPs then .sizeClear (ihp + 1) t h else .sizeReturn t h))
  -- `t - h` is returned
  | .sizeReturn _ _ => (m, l.goto .idle)
  | _ => (m, l)

/-- The member function that a thread is in. -/
inductive Method where
  | none
  | enqueue
  | dequeue
  | retire
  | estimateSize
  deriving DecidableEq, Repr

def Pc.method : Pc T → Method
  | .idle => .none
  | .enqLoad .. | .enqProtect .. | .enqCheck .. | .enqNext .. | .enqSeqId .. | .enqLink ..
  | .enqSwing .. | .enqHelp .. | .enqClear .. | .enqReturn .. => .enqueue
  | .deqHead .. | .deqHeadStore .. | .deqNext .. | .deqNextStore .. | .deqTail .. | .deqHelp ..
  | .deqCas .. | .deqItem .. | .deqClear .. | .deqReturn .. => .dequeue
  | .retirePush .. | .retireScan .. | .retireDelete .. => .retire
  | .sizeHead .. | .sizeHeadStore .. | .sizeTail .. | .sizeTailStore .. | .sizeTailId ..
  | .sizeHeadId .. | .sizeClear .. | .sizeReturn .. => .estimateSize

/-- One step of one thread: a call outside of calls, an access inside of one. -/
def stepThread (maxThreads : Nat) (a : Action T) (m : Shared T) (l : Local T) :
    Shared T × Local T :=
  match l.pc.method, a with
  | .none, a => call m l a
  | .enqueue, .go => accessEnqueue m l
  | .dequeue, .go => accessDequeue m l
  | .retire, .go => accessRetire maxThreads m l
  | .estimateSize, .go => accessSize m l
  | _, _ => (m, l)

/-- The queue as its constructor leaves it, with the sentinel at address 0. -/
def Shared.init : Shared T where
  heap := fun a => if a = 0 then some ⟨none, 0, none, some 0⟩ else none
  hp := fun _ _ => none
  head := 0
  tail := 0
  fault := false
  count := 1
  headPlace := 0
  tailPlace := 0
  log := []

/-- `MichaelScottQueue(n)` and `n` threads. -/
def init (n : Nat) : Threads (Shared T) (Local T) n := ⟨.init, fun t => ⟨t, [], .idle⟩⟩

/-- The state after the steps `ls` on a fresh queue. -/
def run {n : Nat} (ls : List (Fin n × Action T)) : Threads (Shared T) (Local T) n :=
  (init n).run (stepThread n) ls

/-- The calls and returns of `enqueue` and `dequeue` in a run, in the order in which they happen. -/
def history {n : Nat} (ls : List (Fin n × Action T)) : List (Event (QueueOp T) (Option T)) :=
  (run ls).shared.log.filterMap view

end RelaxedConcurrentFifo.MichaelScottQueue
