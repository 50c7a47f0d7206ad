/-
# RelaxedConcurrentFifo.TwoDdQueue.Machine — the 2Dd queue

The queue has `width` linked lists, each with a descriptor at either end: a node, and how many elements
have been put or got there. Two windows say how far the counts may go; a thread goes from list to list
until it finds one that its window lets it use, and moves the window on when there is none.

Calls do not overlap here, so each is a function of the queue and of the thread's own variables. The
loops `while (1)` take fuel. A call that accesses memory which is not allocated, that is given memory
behind the end of its thread's arena by `ssalloc`, or that fails an assertion, has no result; whether
there is a result is part of what is proved. Counts and windows, which have 64 bits, are numbers
without a bound, and how far they get is part of what is proved too.
-/
import Mathlib.Logic.Function.Basic
import Mathlib.Algebra.Order.Ring.Nat

namespace RelaxedConcurrentFifo.TwoDdQueue

/-! ## §1 — sizes -/

/-- The width and the depth that `create_queue` computes in mode 3, the one that `wrapper_2Dd_queue`
uses. `width_t` and `depth_t` have 16 bits. -/
def createSizes (numThreads width relaxationBound : Nat) : Nat × Nat :=
  let width := numThreads * width % 2 ^ 16
  if width < 2 then
    (1, relaxationBound % 2 ^ 16)
  else
    let depth := relaxationBound / (width - 1) % 2 ^ 16
    if depth < 1 then ((relaxationBound / 1 + 1) % 2 ^ 16, 1) else (width, depth)

/-- `set->width` and `set->depth`. -/
structure Config where
  width : Nat
  depth : Nat
  width_pos : 0 < width
  depth_pos : 0 < depth

section Sizes

variable (numThreads width relaxationBound : Nat)

/-- There is a list, also when the sum is cut off at 16 bits. -/
theorem createSizes_width_pos : 0 < (createSizes numThreads width relaxationBound).1 := by
  unfold createSizes
  dsimp only
  split
  · exact Nat.one_pos
  · rename_i hwidth
    split
    · rename_i hdepth
      -- a depth that is cut off to 0 leaves a remainder below the width
      generalize hw : numThreads * width % 2 ^ 16 - 1 = w at hdepth
      have hlt : w < 2 ^ 16 - 1 := by omega
      have hrest : relaxationBound % w < w := Nat.mod_lt _ (by omega)
      have hdiv := Nat.div_add_mod relaxationBound w
      obtain ⟨m, hm⟩ : 2 ^ 16 ∣ relaxationBound / w := Nat.dvd_of_mod_eq_zero (by omega)
      rw [hm, ← Nat.mul_assoc, Nat.mul_comm w, Nat.mul_assoc] at hdiv
      rw [Nat.div_one]
      omega
    · omega

/-- **The sizes keep to the bound that was asked for.** -/
theorem createSizes_bound :
    (createSizes numThreads width relaxationBound).2 *
      ((createSizes numThreads width relaxationBound).1 - 1) ≤ relaxationBound := by
  unfold createSizes
  dsimp only
  split
  · rw [Nat.sub_self, Nat.mul_zero]
    exact Nat.zero_le _
  · split
    · have hle := Nat.mod_le (relaxationBound / 1 + 1) (2 ^ 16)
      rw [Nat.div_one] at hle ⊢
      omega
    · exact (Nat.mul_le_mul_right _ (Nat.mod_le _ _)).trans (Nat.div_mul_le_self _ _)

/-- A depth has 16 bits. -/
theorem createSizes_depth_lt : (createSizes numThreads width relaxationBound).2 < 2 ^ 16 := by
  unfold createSizes
  dsimp only
  split
  · exact Nat.mod_lt _ (by decide)
  · split
    · show 1 < 2 ^ 16
      decide
    · exact Nat.mod_lt _ (by decide)

/-- `create_queue`, with the assertion of `initialize_global_window`. -/
def Config.create (hdepth : 0 < (createSizes numThreads width relaxationBound).2) : Config where
  width := (createSizes numThreads width relaxationBound).1
  depth := (createSizes numThreads width relaxationBound).2
  width_pos := createSizes_width_pos numThreads width relaxationBound
  depth_pos := hdepth

end Sizes

/-! ## §2 — the queue -/

/-- The address of a node. -/
abbrev Addr := Nat

/-- `node_t`. -/
structure Node where
  key : Nat
  val : Nat
  next : Option Addr

/-- `descriptor_t`; `put_count` and `get_count` are the same word. -/
structure Descriptor where
  node : Addr
  count : Nat
  deriving DecidableEq

/-- `sizeof(node_t)`. -/
def nodeSize : Nat := 56

/-- `SSALLOC_SIZE`: the bytes that a thread has for nodes. -/
def ssallocSize : Nat := 2 ^ 32

/-- `mqueue_t` with the global windows, and the memory of the nodes of all threads. No node was ever at
`fresh` or behind it. -/
structure Shared where
  memory : Addr → Option Node
  fresh : Addr
  getArray : Nat → Descriptor
  putArray : Nat → Descriptor
  pWindow : Nat
  gWindow : Nat

/-- The variables of a thread: `thread_PWindow.max`, `thread_GWindow.max`, the indices, and the
`alloc_next` of `ssalloc`, which is how much of its arena it has taken. -/
structure Thread where
  pWindow : Nat
  gWindow : Nat
  putIndex : Nat
  getIndex : Nat
  allocNext : Nat

/-- `queue_register`, in a thread that has taken `allocNext` bytes before. -/
def Thread.register (allocNext : Nat) : Thread := ⟨0, 0, 0, 0, allocNext⟩

variable (c : Config)

/-- The queue as `create_queue` leaves it, with a dummy node in each list. -/
def Shared.init : Shared where
  memory a := if a < c.width then some ⟨0, 0, none⟩ else none
  fresh := c.width
  getArray i := ⟨i, 0⟩
  putArray i := ⟨i, 0⟩
  pWindow := c.depth
  gWindow := c.depth

namespace Shared

/-- A store to the whole node at `a`. -/
def setNode (s : Shared) (a : Addr) (nd : Node) : Shared :=
  { s with memory := Function.update s.memory a (some nd) }

/-- `create_node`: the memory of a node that was freed, if there is one at `hint`, or else new memory,
unless `ssalloc` goes out of the bounds of the thread's arena. -/
def createNode (s : Shared) (l : Thread) (hint : Addr) (nd : Node) : Option (Addr × Shared × Thread) :=
  if hint < s.fresh ∧ (s.memory hint).isNone then
    some (hint, s.setNode hint nd, l)
  else if l.allocNext + nodeSize ≤ ssallocSize then
    some (s.fresh, { s.setNode s.fresh nd with fresh := s.fresh + 1 },
      { l with allocNext := l.allocNext + nodeSize })
  else
    none

/-- `free_node`. -/
def freeNode (s : Shared) (a : Addr) : Shared :=
  { s with memory := Function.update s.memory a none }

/-- `CAE(&set->put_array[i].descriptor, &expected, &desired)`. -/
def casPut (s : Shared) (i : Nat) (expected desired : Descriptor) : Bool × Shared :=
  if s.putArray i = expected then
    (true, { s with putArray := Function.update s.putArray i desired })
  else
    (false, s)

/-- `deq_cae(&set->get_array[i].descriptor, &expected, &desired)`. -/
def casGet (s : Shared) (i : Nat) (expected desired : Descriptor) : Bool × Shared :=
  if s.getArray i = expected then
    (true, { s with getArray := Function.update s.getArray i desired })
  else
    (false, s)

end Shared

/-! ## §3 — the windows -/

/-- `set->random_hops`. -/
def randomHops : Nat := 2

/-- `hops` and `random`. -/
structure Hops where
  hops : Nat
  random : Nat

/-- `hop`; `draw` is what `my_random` returns. -/
def hop (draw index : Nat) (h : Hops) : Nat × Hops :=
  if h.random < randomHops then
    (draw % c.width, { h with random := h.random + 1 })
  else
    (if index + 1 ≥ c.width then 0 else index + 1, { h with hops := h.hops + 1 })

/-- `while (1)`, for as many passes as there is fuel; `draws` are the random numbers, one for each
pass. -/
def loop {X R : Type} (pass : Nat → X → Option R × X) : Nat → (Nat → Nat) → X → Option (R × X)
  | 0, _, _ => none
  | fuel + 1, draws, x =>
      match pass (draws 0) x with
      | (some r, x) => some (r, x)
      | (none, x) => loop pass fuel (fun i => draws (i + 1)) x

/-- `CAE(&global_PWindow.content, &thread_PWindow, &new_window)`, which writes the thread's window in any
case. -/
def casPWindow (s : Shared) (l : Thread) (desired : Nat) : Shared × Thread :=
  if s.pWindow = l.pWindow then
    ({ s with pWindow := desired }, { l with pWindow := desired })
  else
    (s, { l with pWindow := s.pWindow })

/-- The same for `global_GWindow`. -/
def casGWindow (s : Shared) (l : Thread) (desired : Nat) : Shared × Thread :=
  if s.gWindow = l.gWindow then
    ({ s with gWindow := desired }, { l with gWindow := desired })
  else
    (s, { l with gWindow := s.gWindow })

/-- One pass of the loop of `put_window`, with the descriptor it returns if it does. -/
def putWindowPass (draw : Nat) : Shared × Thread × Hops → Option Descriptor × Shared × Thread × Hops
  | (s, l, h) =>
      let descriptor := s.putArray l.putIndex
      let gmax := s.pWindow
      if l.pWindow ≠ gmax then
        (none, s, { l with pWindow := gmax }, { h with hops := 0 })
      else if descriptor.count < l.pWindow then
        (some descriptor, s, { l with getIndex := l.putIndex }, h)
      else if h.hops < c.width then
        let (index, h) := hop c draw l.putIndex h
        (none, s, { l with putIndex := index }, h)
      else if l.pWindow = s.pWindow then
        let (s, l) := casPWindow s l (l.pWindow + c.depth)
        (none, s, l, { h with hops := 0 })
      else
        (none, s, l, { h with hops := 0 })

/-- `put_window`. -/
def putWindow (fuel : Nat) (contention : Bool) (draws : Nat → Nat) (s : Shared) (l : Thread) :
    Option (Descriptor × Shared × Thread) :=
  let l := if contention then { l with putIndex := draws 0 % c.width } else l
  let l := { l with pWindow := s.pWindow }
  (loop (putWindowPass c) fuel (fun i => draws (i + 1)) (s, l, ⟨0, 0⟩)).map
    fun (descriptor, s, l, _) => (descriptor, s, l)

/-- `put_count`, which is read from the other descriptor only if it matters. -/
def putCount (s : Shared) (l : Thread) : Nat :=
  if l.gWindow < l.pWindow then l.pWindow - c.depth else (s.putArray l.getIndex).count

/-- One pass of the loop of `get_window`; the last variable is `notempty`. -/
def getWindowPass (draw : Nat) :
    Shared × Thread × Hops × Bool → Option Descriptor × Shared × Thread × Hops × Bool
  | (s, l, h, notempty) =>
      let descriptor := s.getArray l.getIndex
      let putCount := putCount c s l
      let gmax := s.gWindow
      if l.gWindow ≠ gmax then
        (none, s, { l with gWindow := gmax }, { h with hops := 0 }, false)
      else if descriptor.count < l.gWindow ∧ descriptor.count < putCount then
        (some descriptor, s, l, h, notempty)
      else if h.hops ≠ c.width then
        let (index, h) := hop c draw l.getIndex h
        (none, s, { l with getIndex := index }, h, notempty || descriptor.count < putCount)
      else if notempty ∨ l.gWindow ≠ s.pWindow then
        let (s, l) := if l.gWindow = s.gWindow then casGWindow s l (l.gWindow + c.depth) else (s, l)
        (none, s, l, { h with hops := 0 }, false)
      else
        (some descriptor, s, l, h, notempty)

/-- `get_window`. -/
def getWindow (fuel : Nat) (contention : Bool) (draws : Nat → Nat) (s : Shared) (l : Thread) :
    Option (Descriptor × Shared × Thread) :=
  let l := if contention then { l with getIndex := draws 0 % c.width } else l
  let l := { l with gWindow := s.gWindow }
  (loop (getWindowPass c) fuel (fun i => draws (i + 1)) (s, l, ⟨0, 0⟩, false)).map
    fun (descriptor, s, l, _) => (descriptor, s, { l with putIndex := l.getIndex })

/-! ## §4 — the operations -/

/-- The loop of `enqueue`, once the new node is at `new`; `fuel` is for the loop of `put_window`, and
`draws` are the random numbers of each pass. -/
def enqueueLoop (fuel : Nat) (new : Addr) :
    Nat → (Nat → Nat → Nat) → Bool → Shared → Thread → Option (Shared × Thread)
  | 0, _, _, _, _ => none
  | passes + 1, draws, contention, s, l => do
      let (descriptor, s, l) ← putWindow c fuel contention (draws 0) s l
      -- the two assertions
      if ¬ (l.pWindow ≥ l.gWindow ∧ descriptor.count < l.pWindow) then none
      else if (s.putArray l.putIndex).count ≥ l.pWindow then
        enqueueLoop fuel new passes (fun i => draws (i + 1)) contention s l
      else
        let tail ← s.memory descriptor.node
        match tail.next with
        | none =>
            -- `enq_cae` finds what was read
            let s := s.setNode descriptor.node { tail with next := some new }
            some ((s.casPut l.putIndex descriptor ⟨new, descriptor.count + 1⟩).2, l)
        | some next =>
            let (swapped, s) := s.casPut l.putIndex descriptor ⟨next, descriptor.count + 1⟩
            enqueueLoop fuel new passes (fun i => draws (i + 1)) (contention || !swapped) s l

/-- `enqueue`. -/
def enqueue (fuel : Nat) (hint : Addr) (draws : Nat → Nat → Nat) (key val : Nat) (s : Shared)
    (l : Thread) : Option (Shared × Thread) := do
  let (new, s, l) ← s.createNode l hint ⟨key, val, none⟩
  enqueueLoop c fuel new fuel draws false s l

/-- The loop of `dequeue`. It returns 0 if it finds nothing. -/
def dequeueLoop (fuel : Nat) :
    Nat → (Nat → Nat → Nat) → Bool → Shared → Thread → Option (Nat × Shared × Thread)
  | 0, _, _, _, _ => none
  | passes + 1, draws, contention, s, l => do
      let (deqDescriptor, s, l) ← getWindow c fuel contention (draws 0) s l
      let enqDescriptor := s.putArray l.getIndex
      let head ← s.memory deqDescriptor.node
      if ¬ l.pWindow > l.gWindow ∧ deqDescriptor.node = enqDescriptor.node then
        match head.next with
        | none => some (0, s, l)
        | some next =>
            -- `tail->next`, as `head == tail`
            let (swapped, s) := s.casPut l.getIndex enqDescriptor ⟨next, enqDescriptor.count + 1⟩
            dequeueLoop fuel passes (fun i => draws (i + 1)) (contention || !swapped) s l
      else
        -- the pointer is followed once the descriptor is swapped
        let next ← head.next
        let (swapped, s) := s.casGet l.getIndex deqDescriptor ⟨next, deqDescriptor.count + 1⟩
        if swapped then
          let s := s.freeNode deqDescriptor.node
          let node ← s.memory next
          some (node.val, s, l)
        else
          dequeueLoop fuel passes (fun i => draws (i + 1)) true s l

/-- `dequeue`. -/
def dequeue (fuel : Nat) (draws : Nat → Nat → Nat) (s : Shared) (l : Thread) :
    Option (Nat × Shared × Thread) :=
  dequeueLoop c fuel fuel draws false s { l with pWindow := s.pWindow }

/-- `handle::push`. -/
def push (fuel : Nat) (hint : Addr) (draws : Nat → Nat → Nat) (value : Nat) (s : Shared) (l : Thread) :
    Option (Bool × Shared × Thread) :=
  (enqueue c fuel hint draws value value s l).map fun (s, l) => (true, s, l)

/-- `handle::pop`. -/
def pop (fuel : Nat) (draws : Nat → Nat → Nat) (s : Shared) (l : Thread) :
    Option (Option Nat × Shared × Thread) :=
  (dequeue c fuel draws s l).map fun (ret, s, l) => (if ret = 0 then none else some ret, s, l)

end RelaxedConcurrentFifo.TwoDdQueue
