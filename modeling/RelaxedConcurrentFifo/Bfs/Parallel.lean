/-
# RelaxedConcurrentFifo.Bfs.Parallel — `benchmark_bfs`

Any number of threads lower labels and push what they have lowered into one relaxed queue, which may
hand items out in any order. An item may be stale when it comes out, several threads may race for
one label, and a node may be expanded many times; still every run ends with the labels of
`sequential_bfs`.

Three things carry the argument. A path without repetition stands behind every label, item and node
being expanded, so no sum wraps. An edge that can still lower a label is on some thread's or some
item's account (`Owes`). And a push follows a lowered label, so the sum of all labels pays for it.
-/
import RelaxedConcurrentFifo.Bfs.Sequential
import RelaxedConcurrentFifo.Lib.Runs
import RelaxedConcurrentFifo.Lib.Sums
import RelaxedConcurrentFifo.Lib.Words
import Mathlib.Algebra.BigOperators.Fin
import Mathlib.Algebra.Order.BigOperators.Group.Finset

namespace RelaxedConcurrentFifo.Bfs

open RelaxedConcurrentFifo.Lib.ShortestPaths
open RelaxedConcurrentFifo.Lib.Runs
open RelaxedConcurrentFifo.Lib.Sums
open RelaxedConcurrentFifo.Lib.Words

/-! ## §1 — the program of a thread -/

/-- `Counter`. -/
structure Counter where
  pushedNodes : Nat
  ignoredNodes : Nat
  processedNodes : Nat
  err : Bool
  deriving DecidableEq, Repr

/-- The labels and the queue. -/
structure Shared where
  distances : Nat → Nat
  queue : List Nat

/-- The point before each access to a label or the queue. -/
inductive Pc where
  /-- `per_thread`: before a call of `pop`. -/
  | idle
  /-- `process_node`: before its first load. -/
  | load (node : Nat)
  /-- At the head of the loop over the edges, before the load of `old_d`. -/
  | edge (nodeId nodeDist i : Nat)
  | cas (nodeId nodeDist i oldD : Nat)
  | push (nodeId nodeDist i : Nat)
  deriving DecidableEq, Repr

/-- What the outside decides of a step: which item a `pop` gets, if any, and whether a weak
compare-exchange fails for no reason. -/
structure Choice where
  pick : Option Nat
  spurious : Bool
  deriving DecidableEq, Repr

structure Thread where
  pc : Pc
  counter : Counter
  deriving DecidableEq, Repr

/-- `(static_cast<std::uint64_t>(d) << 32) | target`. -/
def makeNode (d target : Nat) : Nat := d <<< 32 ||| target

/-- `node & 0xffff'ffff`. -/
def nodeId (node : Nat) : Nat := node % 2 ^ 32

/-- `node >> 32`, in 32 bits. -/
def nodeDist (node : Nat) : Nat := node >>> 32 % 2 ^ 32

/-- `handle.push` on a queue that never rejects. -/
def push (queue : List Nat) (node : Nat) : Bool × List Nat := (true, node :: queue)

/-- `handle.pop`: the item that was picked. -/
def pop (queue : List Nat) (pick : Option Nat) : Option (Nat × List Nat) :=
  match pick with
  | none => none
  | some k =>
      match queue[k]? with
      | some node => some (node, queue.eraseIdx k)
      | none => none

theorem pop_perm {queue queue' : List Nat} {pick : Option Nat} {node : Nat}
    (h : pop queue pick = some (node, queue')) : (node :: queue').Perm queue := by
  unfold pop at h
  split at h
  · cases h
  · rename_i k
    split at h
    · rename_i x hx
      cases h
      obtain ⟨hk, hget⟩ := List.getElem?_eq_some_iff.mp hx
      have hperm := List.getElem_cons_eraseIdx_perm hk
      rwa [hget] at hperm
    · cases h

/-- The test of `while (d < old_d)`. -/
def tryLower (id dist i oldD : Nat) : Pc :=
  if addOne dist < oldD then .cas id dist i oldD else .edge id dist (i + 1)

/-- One step of one thread. -/
def stepThread (g : Graph) (a : Choice) (m : Shared) (th : Thread) : Shared × Thread :=
  match th.pc with
  | .idle =>
      match pop m.queue a.pick with
      | some (node, queue) => ({ m with queue := queue }, { th with pc := .load node })
      | none => (m, th)
  | .load node =>
      if nodeDist node > m.distances (nodeId node) then
        (m, { pc := .idle,
              counter := { th.counter with ignoredNodes := th.counter.ignoredNodes + 1 } })
      else
        (m, { th with pc := .edge (nodeId node) (nodeDist node) (g.firstEdge (nodeId node)) })
  | .edge id dist i =>
      if i < g.lastEdge id then
        (m, { th with pc := tryLower id dist i (m.distances (g.target i)) })
      else
        (m, { pc := .idle,
              counter := { th.counter with processedNodes := th.counter.processedNodes + 1 } })
  | .cas id dist i oldD =>
      if m.distances (g.target i) = oldD ∧ a.spurious = false then
        ({ m with distances := Function.update m.distances (g.target i) (addOne dist) },
          { th with pc := .push id dist i })
      else
        (m, { th with pc := tryLower id dist i (m.distances (g.target i)) })
  | .push id dist i =>
      let (pushed, queue) := push m.queue (makeNode (addOne dist) (g.target i))
      ({ m with queue := queue },
        { pc := .edge id dist (i + 1),
          counter := { th.counter with
            pushedNodes := th.counter.pushedNodes + 1
            err := th.counter.err || !pushed } })

/-- All threads of one run. -/
structure State (p : Nat) where
  shared : Shared
  threads : Fin p → Thread

/-- After the barrier: thread 0 has labelled and pushed the start node. -/
def State.init (p : Nat) : State p where
  shared := ⟨Function.update (fun _ => unreached) 0 1, [makeNode 1 0]⟩
  threads t := ⟨.idle, ⟨if t.val = 0 then 1 else 0, 0, 0, false⟩⟩

def State.step {p : Nat} (g : Graph) (s : State p) (l : Fin p × Choice) : State p :=
  ⟨(stepThread g l.2 s.shared (s.threads l.1)).1,
    Function.update s.threads l.1 (stepThread g l.2 s.shared (s.threads l.1)).2⟩

def State.run {p : Nat} (g : Graph) (ls : List (Fin p × Choice)) : State p :=
  ls.foldl (State.step g) (State.init p)

/-! ## §2 — what is behind a thread, and what it owes -/

theorem nodeId_makeNode {d target : Nat} (h : target < 2 ^ 32) :
    nodeId (makeNode d target) = target := shiftLeft_or_mod h

theorem nodeDist_makeNode {d target : Nat} (h : target < 2 ^ 32) (hd : d < 2 ^ 32) :
    nodeDist (makeNode d target) = d := by
  rw [nodeDist, makeNode, shiftLeft_or_div h, Nat.mod_eq_of_lt hd]

/-- The item is a node at the end of a path as long as the item says. -/
def ItemOk (g : Graph) (distances : Nat → Nat) (node : Nat) : Prop :=
  Behind g 0 distances (nodeId node) (nodeDist node)

/-- The same for what a thread is at. -/
def PcOk (g : Graph) (distances : Nat → Nat) : Pc → Prop
  | .idle => True
  | .load node => ItemOk g distances node
  | .edge id dist i => Behind g 0 distances id dist ∧ g.firstEdge id ≤ i
  | .cas id dist i oldD =>
      (Behind g 0 distances id dist ∧ g.firstEdge id ≤ i) ∧ i < g.lastEdge id ∧ dist + 1 < oldD
  | .push id dist i =>
      (Behind g 0 distances id dist ∧ g.firstEdge id ≤ i) ∧ i < g.lastEdge id ∧
        Behind g 0 distances (g.target i) (dist + 1)

/-- Entry `e` of the edges of `u`, at label `d`, is still to be looked at by the thread. -/
def Owes (g : Graph) (u d e : Nat) : Pc → Prop
  | .idle => False
  | .load node => nodeId node = u ∧ nodeDist node = d
  | .edge id dist i => id = u ∧ dist = d ∧ i ≤ e
  | .cas id dist i _ => id = u ∧ dist = d ∧ i ≤ e
  | .push id dist i => (id = u ∧ dist = d ∧ i < e) ∨ (g.target i = u ∧ dist + 1 = d)

/-- The node waits in the queue with label `d`. -/
def Waits (queue : List Nat) (u d : Nat) : Prop :=
  ∃ node ∈ queue, nodeId node = u ∧ nodeDist node = d

/-- The thread is inside `process_node`. -/
def busy : Pc → Nat
  | .idle => 0
  | _ => 1

/-- The thread has lowered a label and not pushed the node yet. -/
def atPush : Pc → Nat
  | .push _ _ _ => 1
  | _ => 0

theorem PcOk.mono {g : Graph} {distances distances' : Nat → Nat} {pc : Pc}
    (h : PcOk g distances pc) (hle : ∀ x, distances' x ≤ distances x) : PcOk g distances' pc := by
  cases pc with
  | idle => trivial
  | load node => exact Behind.mono h hle
  | edge id dist i => exact ⟨h.1.mono hle, h.2⟩
  | cas id dist i oldD => exact ⟨⟨h.1.1.mono hle, h.1.2⟩, h.2⟩
  | push id dist i => exact ⟨⟨h.1.1.mono hle, h.1.2⟩, h.2.1, h.2.2.mono hle⟩

/-- The labels of all nodes, added up. -/
def labelSum (g : Graph) (distances : Nat → Nat) : Nat := ∑ v ∈ Finset.range g.numNodes, distances v

/-- Everything the invariant needs to know of a step of one thread. -/
structure StepFacts (g : Graph) (m : Shared) (th : Thread) (m' : Shared) (th' : Thread) : Prop where
  le : ∀ v, m'.distances v ≤ m.distances v
  labels : ∀ v, m'.distances v ≠ m.distances v →
    1 < m'.distances v ∧ Behind g 0 m'.distances v (m'.distances v)
  items : ∀ node ∈ m'.queue, node ∈ m.queue ∨ ItemOk g m'.distances node
  pcOk : PcOk g m'.distances th'.pc
  /-- A node whose label goes down is on the thread's account. -/
  lowered : ∀ u e, m'.distances u ≠ m.distances u → Owes g u (m'.distances u) e th'.pc
  /-- Nothing else leaves the accounts before it is settled. -/
  kept : ∀ e u v, g.EdgeAt e u v →
    Waits m.queue u (m.distances u) ∨ Owes g u (m.distances u) e th.pc →
    m'.distances v ≤ m.distances u + 1 ∨
      Waits m'.queue u (m.distances u) ∨ Owes g u (m.distances u) e th'.pc
  counted : th'.counter.pushedNodes + (m.queue.length + busy th.pc +
      th.counter.processedNodes + th.counter.ignoredNodes) =
    th.counter.pushedNodes + (m'.queue.length + busy th'.pc +
      th'.counter.processedNodes + th'.counter.ignoredNodes)
  paid : labelSum g m'.distances + th'.counter.pushedNodes + atPush th'.pc ≤
    labelSum g m.distances + th.counter.pushedNodes + atPush th.pc

/-- A step that touches neither a label nor the queue. -/
theorem StepFacts.local_step {g : Graph} {m : Shared} {th th' : Thread}
    (pcOk : PcOk g m.distances th'.pc)
    (kept : ∀ e u v, g.EdgeAt e u v → Owes g u (m.distances u) e th.pc →
      m.distances v ≤ m.distances u + 1 ∨ Owes g u (m.distances u) e th'.pc)
    (hpushed : th'.counter.pushedNodes = th.counter.pushedNodes)
    (hcount : busy th.pc + th.counter.processedNodes + th.counter.ignoredNodes =
      busy th'.pc + th'.counter.processedNodes + th'.counter.ignoredNodes)
    (hpush : atPush th'.pc ≤ atPush th.pc) : StepFacts g m th m th' where
  le _ := Nat.le_refl _
  labels v hv := absurd rfl hv
  items node hnode := Or.inl hnode
  pcOk := pcOk
  lowered u e hu := absurd rfl hu
  kept e u v he := by
    rintro (hwaits | howes)
    · exact Or.inr (Or.inl hwaits)
    · exact (kept e u v he howes).imp_right Or.inr
  counted := by omega
  paid := by omega

/-! ## §3 — the steps -/

section Steps

variable {g : Graph} (hg : g.Fits) {m : Shared} {th : Thread}

theorem stepFacts_pop {node : Nat} {queue : List Nat} {pick : Option Nat} (hpc : th.pc = .idle)
    (hitems : ∀ node ∈ m.queue, ItemOk g m.distances node)
    (hpop : pop m.queue pick = some (node, queue)) :
    StepFacts g m th { m with queue := queue } { th with pc := .load node } := by
  have hperm := pop_perm hpop
  have hlen := hperm.length_eq
  refine ⟨fun _ => Nat.le_refl _, fun v hv => absurd rfl hv, ?_, ?_, fun u e hu => absurd rfl hu,
    ?_, ?_, ?_⟩
  · exact fun y hy => Or.inl (hperm.subset (List.mem_cons_of_mem _ hy))
  · exact hitems _ (hperm.subset List.mem_cons_self)
  · rintro e u v - (⟨y, hy, hid, hdist⟩ | howes)
    · rcases List.mem_cons.mp (hperm.symm.subset hy) with rfl | hy
      · exact Or.inr (Or.inr ⟨hid, hdist⟩)
      · exact Or.inr (Or.inl ⟨y, hy, hid, hdist⟩)
    · rw [hpc] at howes
      exact howes.elim
  · rw [hpc]
    simp only [busy]
    rw [List.length_cons] at hlen
    omega
  · rw [hpc]
    simp only [atPush]
    omega

/-- A stale item is dropped: its label is not the node's any more. -/
theorem stepFacts_ignore {node : Nat} (hpc : th.pc = .load node)
    (hstale : nodeDist node > m.distances (nodeId node)) :
    StepFacts g m th m
      { pc := .idle, counter := { th.counter with ignoredNodes := th.counter.ignoredNodes + 1 } } := by
  refine .local_step trivial ?_ rfl ?_ ?_
  · rw [hpc]
    rintro e u v - ⟨rfl, hdist⟩
    omega
  · rw [hpc]
    simp only [busy]
    omega
  · exact Nat.zero_le _

theorem stepFacts_enter {node : Nat} (hpc : th.pc = .load node) (hok : PcOk g m.distances th.pc) :
    StepFacts g m th m
      { th with pc := .edge (nodeId node) (nodeDist node) (g.firstEdge (nodeId node)) } := by
  rw [hpc] at hok
  refine .local_step ⟨hok, Nat.le_refl _⟩ ?_ rfl ?_ (Nat.zero_le _)
  · rw [hpc]
    rintro e u v he ⟨rfl, hdist⟩
    exact Or.inr ⟨rfl, hdist, he.first⟩
  · rw [hpc]
    rfl

theorem stepFacts_finish {id dist i : Nat} (hpc : th.pc = .edge id dist i)
    (hdone : ¬ i < g.lastEdge id) :
    StepFacts g m th m
      { pc := .idle,
        counter := { th.counter with processedNodes := th.counter.processedNodes + 1 } } := by
  refine .local_step trivial ?_ rfl ?_ (Nat.zero_le _)
  · rw [hpc]
    rintro e u v he ⟨rfl, -, hle⟩
    have := he.last
    omega
  · rw [hpc]
    simp only [busy]
    omega

include hg in
/-- Looking at an edge: it is on the account of the compare-exchange, or it cannot lower a label. -/
theorem stepFacts_tryLower {id dist i : Nat}
    (hok : Behind g 0 m.distances id dist ∧ g.firstEdge id ≤ i) (hlast : i < g.lastEdge id)
    (howes : ∀ u d e, Owes g u d e th.pc → id = u ∧ dist = d ∧ i ≤ e) (hbusy : busy th.pc = 1) :
    StepFacts g m th m { th with pc := tryLower id dist i (m.distances (g.target i)) } := by
  have hd := hok.1.addOne_eq hg hg.pos
  unfold tryLower
  rw [hd]
  split
  · rename_i hlt
    refine .local_step ⟨hok, hlast, hlt⟩ ?_ rfl ?_ (Nat.zero_le _)
    · intro e u v _ h
      exact Or.inr (howes _ _ _ h)
    · rw [hbusy]
      rfl
  · rename_i hge
    refine .local_step ⟨hok.1, Nat.le_succ_of_le hok.2⟩ ?_ rfl ?_ (Nat.zero_le _)
    · intro e u v he h
      obtain ⟨rfl, hdist, hle⟩ := howes _ _ _ h
      by_cases hei : e = i
      · left
        rw [← he.target, hei, ← hdist]
        exact Nat.le_of_not_lt hge
      · exact Or.inr ⟨rfl, hdist, by omega⟩
    · rw [hbusy]
      rfl

include hg in
/-- A label goes down: the node comes on the thread's account, and the sum of the labels pays for
the push to come. -/
theorem stepFacts_lower {id dist i : Nat} (hpc : th.pc = .cas id dist i (m.distances (g.target i)))
    (hok : PcOk g m.distances th.pc) :
    StepFacts g m th
      { m with distances := Function.update m.distances (g.target i) (addOne dist) }
      { th with pc := .push id dist i } := by
  rw [hpc] at hok
  obtain ⟨⟨hb, hfirst⟩, hlast, hlt⟩ := hok
  rw [hb.addOne_eq hg hg.pos]
  have hself : Function.update m.distances (g.target i) (dist + 1) (g.target i) = dist + 1 :=
    Function.update_self _ _ _
  have hle : ∀ v, Function.update m.distances (g.target i) (dist + 1) v ≤ m.distances v := by
    intro v
    by_cases hv : v = g.target i
    · rw [hv, hself]
      exact Nat.le_of_lt hlt
    · rw [Function.update_of_ne hv]
  have hchanged : ∀ v, Function.update m.distances (g.target i) (dist + 1) v ≠ m.distances v →
      v = g.target i := by
    intro v hv
    by_contra hne
    exact hv (Function.update_of_ne hne _ _)
  have hnew := hb.extend ⟨i, hfirst, hlast, rfl⟩ hlt hle hself
  refine ⟨hle, fun v hv => ?_, fun node hnode => Or.inl hnode,
    ⟨⟨hb.mono hle, hfirst⟩, hlast, hnew⟩, fun u e hu => ?_, fun e u v he => ?_, ?_, ?_⟩
  · dsimp only at hv ⊢
    rw [hchanged v hv, hself]
    obtain ⟨k, hk, -⟩ := hb.walk
    exact ⟨by omega, hnew⟩
  · dsimp only at hu ⊢
    rw [hchanged u hu, hself]
    exact Or.inr ⟨rfl, rfl⟩
  · rintro (hwaits | howes)
    · exact Or.inr (Or.inl hwaits)
    · rw [hpc] at howes
      obtain ⟨rfl, hdist, hle⟩ := howes
      by_cases hei : e = i
      · left
        dsimp only
        rw [← he.target, hei, hself, hdist]
      · exact Or.inr (Or.inr (Or.inl ⟨rfl, hdist, by omega⟩))
  · rw [hpc]
    simp only [busy]
  · rw [hpc]
    simp only [atPush, labelSum]
    have hsum := sum_exchange (Finset.range g.numNodes)
      (f := Function.update m.distances (g.target i) (dist + 1)) (g := m.distances)
      (Finset.mem_range.mpr (hg.target_lt hlast)) fun j _ hj => Function.update_of_ne hj _ _
    rw [hself] at hsum
    omega

include hg in
theorem stepFacts_push {id dist i : Nat} (hpc : th.pc = .push id dist i)
    (hok : PcOk g m.distances th.pc) :
    StepFacts g m th { m with queue := makeNode (addOne dist) (g.target i) :: m.queue }
      { pc := .edge id dist (i + 1),
        counter := { th.counter with
          pushedNodes := th.counter.pushedNodes + 1
          err := th.counter.err || !true } } := by
  rw [hpc] at hok
  obtain ⟨⟨hb, hfirst⟩, hlast, hnew⟩ := hok
  have hn := hg.le
  have hdist := hnew.le_numNodes hg hg.pos
  have hid := nodeId_makeNode (d := dist + 1)
    (show g.target i < 2 ^ 32 from by have := hg.target_lt hlast; omega)
  have hdist' := nodeDist_makeNode (d := dist + 1)
    (show g.target i < 2 ^ 32 from by have := hg.target_lt hlast; omega) (by omega)
  rw [hb.addOne_eq hg hg.pos]
  refine ⟨fun _ => Nat.le_refl _, fun v hv => absurd rfl hv, fun node hnode => ?_,
    ⟨hb, Nat.le_succ_of_le hfirst⟩, fun u e hu => absurd rfl hu, fun e u v he => ?_, ?_, ?_⟩
  · rcases List.mem_cons.mp hnode with rfl | hnode
    · right
      unfold ItemOk
      rw [hid, hdist']
      exact hnew
    · exact Or.inl hnode
  · rintro (⟨node, hnode, hitem⟩ | howes)
    · exact Or.inr (Or.inl ⟨node, List.mem_cons_of_mem _ hnode, hitem⟩)
    · rw [hpc] at howes
      rcases howes with ⟨hu, hd, hlt⟩ | ⟨hu, hd⟩
      · exact Or.inr (Or.inr ⟨hu, hd, hlt⟩)
      · exact Or.inr (Or.inl ⟨_, List.mem_cons_self, hid.trans hu, hdist'.trans hd⟩)
  · rw [hpc]
    simp only [busy, List.length_cons]
    omega
  · rw [hpc]
    simp only [atPush]
    omega

include hg in
theorem stepThread_facts (a : Choice) (hitems : ∀ node ∈ m.queue, ItemOk g m.distances node)
    (hok : PcOk g m.distances th.pc) :
    StepFacts g m th (stepThread g a m th).1 (stepThread g a m th).2 := by
  unfold stepThread
  split
  · rename_i hpc
    split
    · rename_i hpop
      exact stepFacts_pop hpc hitems hpop
    · exact .local_step hok (fun _ _ _ _ h => Or.inr h) rfl rfl (Nat.le_refl _)
  · rename_i hpc
    split
    · exact stepFacts_ignore hpc ‹_›
    · exact stepFacts_enter hpc hok
  · rename_i hpc
    split
    · rename_i hlast
      rw [hpc] at hok
      refine stepFacts_tryLower hg hok hlast (fun u d e h => ?_) (by rw [hpc]; rfl)
      rw [hpc] at h
      exact h
    · exact stepFacts_finish hpc ‹_›
  · rename_i hpc
    split
    · rename_i heq
      obtain ⟨rfl, -⟩ := heq
      exact stepFacts_lower hg hpc hok
    · rw [hpc] at hok
      refine stepFacts_tryLower hg hok.1 hok.2.1 (fun u d e h => ?_) (by rw [hpc]; rfl)
      rw [hpc] at h
      exact h
  · rename_i hpc
    exact stepFacts_push hg hpc hok

end Steps

/-! ## §4 — whole runs -/

section Runs

variable {g : Graph} {p : Nat}

/-- The sum of one of the threads' counters. -/
def State.total (s : State p) (count : Thread → Nat) : Nat := ∑ t, count (s.threads t)

/-- What holds after every step of every run. -/
structure Inv (g : Graph) (s : State p) : Prop where
  startLabel : s.shared.distances 0 = 1
  labels : ∀ v, s.shared.distances v ≠ unreached →
    Behind g 0 s.shared.distances v (s.shared.distances v)
  items : ∀ node ∈ s.shared.queue, ItemOk g s.shared.distances node
  pcOk : ∀ t, PcOk g s.shared.distances (s.threads t).pc
  covered : ∀ e u v, g.EdgeAt e u v → s.shared.distances u ≠ unreached →
    s.shared.distances v ≤ s.shared.distances u + 1 ∨
      Waits s.shared.queue u (s.shared.distances u) ∨
      ∃ t, Owes g u (s.shared.distances u) e (s.threads t).pc
  counted : s.total (·.counter.pushedNodes) = s.shared.queue.length + s.total (busy ·.pc) +
    s.total (·.counter.processedNodes) + s.total (·.counter.ignoredNodes)
  paid : labelSum g s.shared.distances + s.total (·.counter.pushedNodes) + s.total (atPush ·.pc) ≤
    g.numNodes * unreached + 1

theorem Inv.init (p : Nat) : Inv g (State.init (p + 1)) := by
  have hone : Function.update (fun _ => unreached) 0 1 0 = 1 := Function.update_self _ _ _
  have hreached : ∀ v, Function.update (fun _ => unreached) 0 1 v ≠ unreached → v = 0 := by
    intro v hv
    by_contra hne
    exact hv (Function.update_of_ne hne _ _)
  have hitem : nodeId (makeNode 1 0) = 0 ∧ nodeDist (makeNode 1 0) = 1 := by decide
  have hpushed : (State.init (p + 1)).total (·.counter.pushedNodes) = 1 := by
    simp [State.total, State.init]
  have hzero : ∀ count : Thread → Nat, (∀ t, count ((State.init (p + 1)).threads t) = 0) →
      (State.init (p + 1)).total count = 0 := fun count h => Finset.sum_eq_zero fun t _ => h t
  refine ⟨hone, fun v hv => ?_, fun node hnode => ?_, fun t => trivial, fun e u v he hu => ?_,
    ?_, ?_⟩
  · change Function.update (fun _ => unreached) 0 1 v ≠ unreached at hv
    rw [hreached v hv]
    exact Behind.single (Nat.le_of_eq hone)
  · rw [List.mem_singleton.mp hnode]
    unfold ItemOk
    rw [hitem.1, hitem.2]
    exact Behind.single (Nat.le_of_eq hone)
  · change Function.update (fun _ => unreached) 0 1 u ≠ unreached at hu
    rw [hreached u hu]
    exact Or.inr (Or.inl ⟨_, List.mem_singleton.mpr rfl, hitem.1, hitem.2.trans hone.symm⟩)
  · rw [hpushed, hzero _ fun _ => rfl, hzero _ fun _ => rfl, hzero _ fun _ => rfl]
    rfl
  · rw [hpushed, hzero _ fun _ => rfl]
    have hsum : labelSum g (State.init (p + 1)).shared.distances ≤
        ∑ _v ∈ Finset.range g.numNodes, unreached := by
      refine Finset.sum_le_sum fun v _ => ?_
      show Function.update (fun _ => unreached) 0 1 v ≤ unreached
      by_cases hv : v = 0
      · rw [hv, hone]
        decide
      · rw [Function.update_of_ne hv]
    rw [Finset.sum_const, Finset.card_range, smul_eq_mul] at hsum
    omega

theorem State.total_step (s : State p) (l : Fin p × Choice) (count : Thread → Nat) :
    (s.step g l).total count + count (s.threads l.1) =
      s.total count + count (stepThread g l.2 s.shared (s.threads l.1)).2 :=
  sum_update count s.threads l.1 _

theorem State.step_thread_self (s : State p) (l : Fin p × Choice) :
    (s.step g l).threads l.1 = (stepThread g l.2 s.shared (s.threads l.1)).2 :=
  Function.update_self _ _ _

theorem State.step_thread_ne (s : State p) (l : Fin p × Choice) {t : Fin p} (h : t ≠ l.1) :
    (s.step g l).threads t = s.threads t := Function.update_of_ne h _ _

theorem Inv.step (hg : g.Fits) {s : State p} (inv : Inv g s) (l : Fin p × Choice) :
    Inv g (s.step g l) := by
  have hfacts := stepThread_facts hg l.2 inv.items (inv.pcOk l.1)
  have hself := s.step_thread_self (g := g) l
  have htotal := s.total_step (g := g) l
  have hshared : (s.step g l).shared = (stepThread g l.2 s.shared (s.threads l.1)).1 := rfl
  generalize (stepThread g l.2 s.shared (s.threads l.1)).1 = m' at hfacts hshared
  generalize (stepThread g l.2 s.shared (s.threads l.1)).2 = th' at hfacts hself htotal
  refine ⟨?_, ?_, ?_, fun t => ?_, fun e u v he hu => ?_, ?_, ?_⟩
  · rw [hshared]
    by_contra hne
    have hchanged : m'.distances 0 ≠ s.shared.distances 0 := by
      rw [inv.startLabel]
      exact hne
    have := (hfacts.labels 0 hchanged).1
    have := hfacts.le 0
    have := inv.startLabel
    omega
  · rw [hshared]
    intro v hv
    by_cases hsame : m'.distances v = s.shared.distances v
    · rw [hsame] at hv ⊢
      exact (inv.labels v hv).mono hfacts.le
    · exact (hfacts.labels v hsame).2
  · rw [hshared]
    intro node hnode
    rcases hfacts.items node hnode with hold | hok
    · exact (inv.items node hold).mono hfacts.le
    · exact hok
  · rw [hshared]
    by_cases ht : t = l.1
    · rw [ht, hself]
      exact hfacts.pcOk
    · rw [s.step_thread_ne l ht]
      exact (inv.pcOk t).mono hfacts.le
  · rw [hshared] at hu ⊢
    by_cases hsame : m'.distances u = s.shared.distances u
    · rw [hsame] at hu ⊢
      have hown := hfacts.kept e u v he
      -- what was on the account of the thread that moves is on one of the new accounts
      have hmoved : m'.distances v ≤ s.shared.distances u + 1 ∨
          Waits m'.queue u (s.shared.distances u) ∨
          Owes g u (s.shared.distances u) e th'.pc →
          m'.distances v ≤ s.shared.distances u + 1 ∨
            Waits m'.queue u (s.shared.distances u) ∨
            ∃ t, Owes g u (s.shared.distances u) e ((s.step g l).threads t).pc := by
        rintro (hle | hwaits | howes)
        · exact Or.inl hle
        · exact Or.inr (Or.inl hwaits)
        · exact Or.inr (Or.inr ⟨l.1, by rw [hself]; exact howes⟩)
      rcases inv.covered e u v he hu with hle | hwaits | ⟨t, howes⟩
      · exact Or.inl ((hfacts.le v).trans hle)
      · exact hmoved (hown (Or.inl hwaits))
      · by_cases ht : t = l.1
        · rw [ht] at howes
          exact hmoved (hown (Or.inr howes))
        · exact Or.inr (Or.inr ⟨t, by rw [s.step_thread_ne l ht]; exact howes⟩)
    · exact Or.inr (Or.inr ⟨l.1, by rw [hself]; exact hfacts.lowered u e hsame⟩)
  · rw [hshared]
    have := inv.counted
    have := hfacts.counted
    have := htotal (·.counter.pushedNodes)
    have := htotal (busy ·.pc)
    have := htotal (·.counter.processedNodes)
    have := htotal (·.counter.ignoredNodes)
    omega
  · rw [hshared]
    have := inv.paid
    have := hfacts.paid
    have := htotal (·.counter.pushedNodes)
    have := htotal (atPush ·.pc)
    omega

theorem inv_run (hg : g.Fits) (ls : List (Fin (p + 1) × Choice)) : Inv g (State.run g ls) := by
  have h := invariant_take (State.step g) (P := fun _ s => Inv g s) (Inv.init p)
    (fun k (hk : k < ls.length) ih => ih.step hg ls[k]) ls.length (Nat.le_refl _)
  rwa [List.take_length] at h

/-- The queue is empty and no thread is inside `process_node`. -/
structure Quiet (s : State p) : Prop where
  queue : s.shared.queue = []
  threads : ∀ t, (s.threads t).pc = .idle

/-- With nothing on any account, no edge can lower a label. -/
theorem Inv.settled (hg : g.Fits) {s : State p} (inv : Inv g s) (hquiet : Quiet s) :
    Settled g 0 s.shared.distances := by
  refine ⟨inv.startLabel, inv.labels, fun u v huv hu => ?_⟩
  obtain ⟨e, he⟩ := huv
  have hle : s.shared.distances v ≤ s.shared.distances u + 1 := by
    rcases inv.covered e u v he hu with hle | ⟨node, hnode, -⟩ | ⟨t, howes⟩
    · exact hle
    · rw [hquiet.queue] at hnode
      exact absurd hnode List.not_mem_nil
    · rw [hquiet.threads t] at howes
      exact howes.elim
  refine ⟨fun hv => ?_, hle⟩
  have := (inv.labels u hu).lt_unreached hg hg.pos (hg.adj_lt ⟨e, he⟩) hv
  omega

/-- **Every run pushes a bounded number of nodes; and whatever the order of events, when it comes to
rest the labels are those of a breadth-first search, the very vector `sequential_bfs` returns, and
every node pushed was processed or ignored.** -/
theorem bfs_order_independent (hg : g.Fits) (ls : List (Fin (p + 1) × Choice)) :
    (State.run g ls).total (·.counter.pushedNodes) ≤ g.numNodes * unreached + 1 ∧
      (Quiet (State.run g ls) →
        IsBfs g 0 (State.run g ls).shared.distances ∧
        (∃ longest, sequentialBfs g 0 = some (longest,
          (List.range g.numNodes).map (State.run g ls).shared.distances)) ∧
        (State.run g ls).total (·.counter.pushedNodes) =
          (State.run g ls).total (·.counter.processedNodes) +
            (State.run g ls).total (·.counter.ignoredNodes)) := by
  have inv := inv_run hg ls
  refine ⟨by have := inv.paid; omega, fun hquiet => ⟨(inv.settled hg hquiet).isBfs, ?_, ?_⟩⟩
  · obtain ⟨distances, hsettled, hresult⟩ := sequentialBfs_spec hg hg.pos
    rw [(inv.settled hg hquiet).unique hsettled]
    exact ⟨_, hresult⟩
  · have hbusy : (State.run g ls).total (busy ·.pc) = 0 :=
      Finset.sum_eq_zero fun t _ => by simp only [hquiet.threads t, busy]
    have hcounted := inv.counted
    rw [hquiet.queue, hbusy, List.length_nil] at hcounted
    omega

/-- Two ways of two edges from node 0 to node 3. -/
def diamond : Graph where
  nodes := #[0, 2, 3, 4, 4]
  edges := #[⟨1, 5⟩, ⟨2, 5⟩, ⟨3, 5⟩, ⟨3, 5⟩]
  offsets := by decide

/-- A step of thread `t` that takes the first item if it pops. -/
def go (t : Fin 2) : Fin 2 × Choice := (t, ⟨some 0, false⟩)

/-- Two threads expand nodes 1 and 2 at the same time. -/
def twoThreads : List (Fin 2 × Choice) :=
  List.replicate 10 (go 0) ++ [go 1, go 1, go 0, go 0, go 1, go 1, go 0, go 0, go 1, go 1, go 0, go 0] ++
    List.replicate 10 (go 1) ++ List.replicate 8 (go 0)

theorem bfs_order_independent_diamond :
    diamond.Fits ∧ Quiet (State.run diamond twoThreads) ∧
      ∃ longest, sequentialBfs diamond 0 = some (longest,
        (List.range diamond.numNodes).map (State.run diamond twoThreads).shared.distances) := by
  have hfits : diamond.Fits := ⟨by decide, by decide, by decide⟩
  have hquiet : Quiet (State.run diamond twoThreads) := ⟨by decide, by decide⟩
  exact ⟨hfits, hquiet, ((bfs_order_independent hfits twoThreads).2 hquiet).2.1⟩

end Runs

end RelaxedConcurrentFifo.Bfs
