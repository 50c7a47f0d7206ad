/-
# RelaxedConcurrentFifo.Bfs.Multistart — `benchmark_bfs_multistart`

Several searches of one graph share one queue. Each has its own array of labels, and an item of work
names the array too: 8 bits for the array, 24 for the label, 32 for the node. The constructor checks
the number of threads against the 8 bits; the number of arrays is another option, and nothing checks
the labels against the 24.

`Work` is what a push is for, and `Work.DecodedFrom` that the decoding of `process_node` gets it back
from the word that was pushed. On a graph of fewer than `2 ^ 24` nodes no label outgrows its field:
behind every label stands a path without repetition, as in `benchmark_bfs`.
-/
import RelaxedConcurrentFifo.Bfs.Parallel
import RelaxedConcurrentFifo.Lib.Interleaving
import RelaxedConcurrentFifo.Lib.Runs

namespace RelaxedConcurrentFifo.Bfs.Multistart

open RelaxedConcurrentFifo.Lib.Interleaving
open RelaxedConcurrentFifo.Lib.Runs
open RelaxedConcurrentFifo.Lib.Words

/-! ## §1 — items of work -/

/-- `(static_cast<std::uint64_t>(d) << 32) | target | (idx << 56)`. -/
def makeItem (d target idx : Nat) : Nat := d <<< 32 ||| target ||| (idx <<< 56) % 2 ^ 64

/-- `node & 0xffff'ffff`. -/
def itemNode (item : Nat) : Nat := item % 2 ^ 32

/-- `(node >> 32) & 0xff'ffff`. -/
def itemDist (item : Nat) : Nat := item >>> 32 % 2 ^ 24

/-- `node >> 56`. -/
def itemArray (item : Nat) : Nat := item >>> 56

/-- What a push is for: a node, its label, and the array the label is in. -/
structure Work where
  node : Nat
  dist : Nat
  array : Nat
  deriving DecidableEq, Repr

/-- `process_node` decodes the item to what it was pushed for. -/
def Work.DecodedFrom (w : Work) (item : Nat) : Prop :=
  itemNode item = w.node ∧ itemDist item = w.dist ∧ itemArray item = w.array

instance (w : Work) (item : Nat) : Decidable (w.DecodedFrom item) :=
  inferInstanceAs (Decidable (_ ∧ _ ∧ _))

/-- The array goes above bit 56, and what does not fit falls out of the word. -/
theorem array_bits (idx : Nat) : (idx <<< 56) % 2 ^ 64 = (idx % 2 ^ 8) <<< 56 := by
  rw [Nat.shiftLeft_eq, Nat.shiftLeft_eq]
  omega

theorem makeItem_eq (d target idx : Nat) :
    makeItem d target idx = (d ||| (idx % 2 ^ 8) <<< 24) <<< 32 ||| target := by
  rw [makeItem, array_bits, Nat.shiftLeft_or_distrib, ← Nat.shiftLeft_add, Nat.or_assoc,
    Nat.or_comm target, ← Nat.or_assoc]

theorem itemNode_makeItem {target : Nat} (d idx : Nat) (h : target < 2 ^ 32) :
    itemNode (makeItem d target idx) = target := by
  rw [makeItem_eq d target idx]
  exact shiftLeft_or_mod h

theorem itemDist_makeItem {target : Nat} (d idx : Nat) (h : target < 2 ^ 32) :
    itemDist (makeItem d target idx) = d % 2 ^ 24 := by
  rw [makeItem_eq d target idx, itemDist, shiftLeft_or_div h, Nat.or_mod_two_pow, Nat.shiftLeft_eq,
    Nat.mul_mod_left, Nat.or_zero]

/-- A label of more than 24 bits spills into the array's bits. -/
theorem itemArray_makeItem {target : Nat} (d idx : Nat) (h : target < 2 ^ 32) :
    itemArray (makeItem d target idx) = d >>> 24 ||| idx % 2 ^ 8 := by
  rw [makeItem_eq d target idx, itemArray, show 56 = 32 + 24 from rfl, Nat.shiftRight_add,
    shiftLeft_or_div h, Nat.shiftRight_or_distrib, Nat.shiftLeft_shiftRight]

/-- **An item comes back as it was pushed exactly if its label and its array fit their fields.** -/
theorem decodedFrom_makeItem_iff {d target : Nat} (idx : Nat) (h : target < 2 ^ 32) :
    Work.DecodedFrom ⟨target, d, idx⟩ (makeItem d target idx) ↔ idx < 2 ^ 8 ∧ d < 2 ^ 24 := by
  rw [Work.DecodedFrom, itemNode_makeItem _ _ h, itemDist_makeItem _ _ h, itemArray_makeItem _ _ h]
  dsimp only
  constructor
  · rintro ⟨-, hdist, harray⟩
    have hlt : d < 2 ^ 24 := by omega
    rw [Nat.shiftRight_eq_div_pow, Nat.div_eq_of_lt hlt, Nat.zero_or] at harray
    exact ⟨by omega, hlt⟩
  · rintro ⟨harray, hdist⟩
    rw [Nat.shiftRight_eq_div_pow, Nat.div_eq_of_lt hdist, Nat.zero_or,
      Nat.mod_eq_of_lt hdist, Nat.mod_eq_of_lt harray]
    exact ⟨rfl, rfl, rfl⟩

theorem makeItem_lt {d target : Nat} (idx : Nat) (hd : d < 2 ^ 32) (ht : target < 2 ^ 32) :
    makeItem d target idx < 2 ^ 64 := by
  refine Nat.or_lt_two_pow (Nat.or_lt_two_pow ?_ ?_) (Nat.mod_lt _ (by decide))
  · rw [Nat.shiftLeft_eq]
    omega
  · omega

theorem itemArray_lt {item : Nat} (h : item < 2 ^ 64) : itemArray item < 2 ^ 8 := by
  rw [itemArray, Nat.shiftRight_eq_div_pow]
  omega

/-! ## §2 — the program of a thread -/

/-- What the constructor accepts. -/
structure Config where
  graph : Graph
  targets : ∀ e ∈ graph.edges, e.target < graph.numNodes
  nodesFit : graph.numNodes ≤ 2 ^ 32
  numThreads : Nat
  /-- The constructor throws for more threads. -/
  threadsFit : numThreads ≤ 255
  fixedMultistart : Int
  /-- Any other negative number, as a size, is more than a vector can have. -/
  multistartFits : -1 ≤ fixedMultistart ∧ fixedMultistart < 2 ^ 31

namespace Config

/-- `distances.size()`. -/
def numArrays (c : Config) : Nat :=
  if c.fixedMultistart = -1 then c.numThreads else c.fixedMultistart.toNat

/-- `get_start_node(i, distances.size(), graph.num_nodes())`. -/
def startNode (c : Config) (i : Nat) : Nat :=
  (i * sub64 c.graph.numNodes 1) % 2 ^ 64 / max 1 (sub64 c.numArrays 1)

/-- `(1ull << 32) | (i << 56) | node`. -/
def startItem (c : Config) (i : Nat) : Nat :=
  1 <<< 32 ||| (i <<< 56) % 2 ^ 64 ||| c.startNode i

/-- `vec = std::vector<AtomicDistance>(graph.num_nodes())` and `vec[node].value = 1`, with `vec` the
labels of array `i`. -/
def startLabels (c : Config) (distances : Nat → Nat → Nat) (i : Nat) : Nat → Nat → Nat :=
  Function.update distances i (Function.update (fun _ => unreached) (c.startNode i) 1)

end Config

/-- The labels, the queue, and whether the barrier is open. `pushed` is no variable of the program: it
remembers every call of `push`: the word, and what it is for. -/
structure Shared where
  distances : Nat → Nat → Nat
  queue : List Nat
  started : Bool
  pushed : List (Nat × Work)

/-- The point before each access to a label or the queue. -/
inductive Pc where
  /-- `per_thread` of thread 0: at the head of the loop over the arrays. -/
  | start (i : Nat)
  | barrier
  /-- Before a call of `pop`. -/
  | idle
  /-- `process_node`: before its first load. -/
  | load (node : Nat)
  /-- At the head of the loop over the edges, before the load of `old_d`. -/
  | edge (idx nodeId nodeDist i : Nat)
  | cas (idx nodeId nodeDist i oldD : Nat)
  | push (idx nodeId nodeDist i : Nat)
  deriving DecidableEq, Repr

/-- What the outside decides of a step: which item a `pop` gets, if any, whether a `push` finds room,
and whether a weak compare-exchange fails for no reason. -/
structure Choice where
  pick : Option Nat
  accepted : Bool
  spurious : Bool
  deriving DecidableEq, Repr

structure Thread where
  pc : Pc
  counter : Counter
  deriving DecidableEq, Repr

/-- `handle.push`. -/
def Shared.push (m : Shared) (accepted : Bool) (item : Nat) (w : Work) : Shared :=
  { m with queue := if accepted then item :: m.queue else m.queue, pushed := (item, w) :: m.pushed }

/-- The loop over the edges of the node of an item. -/
def expand (c : Config) (node : Nat) : Pc :=
  .edge (itemArray node) (itemNode node) (itemDist node) (c.graph.firstEdge (itemNode node))

/-- The test of `while (d < old_d)`. -/
def tryLower (idx id dist i oldD : Nat) : Pc :=
  if addOne dist < oldD then .cas idx id dist i oldD else .edge idx id dist (i + 1)

/-- `vec[target].value = d`, with `vec` the labels of array `idx`. -/
def setLabel (distances : Nat → Nat → Nat) (idx v d : Nat) : Nat → Nat → Nat :=
  Function.update distances idx (Function.update (distances idx) v d)

/-- One step of one thread. A pass of the loop over the arrays is one step: the other threads are
behind the barrier. -/
def stepThread (c : Config) (a : Choice) (m : Shared) (th : Thread) : Shared × Thread :=
  match th.pc with
  | .start i =>
      if i < c.numArrays then
        ({ m with distances := c.startLabels m.distances i }.push a.accepted (c.startItem i)
            ⟨c.startNode i, 1, i⟩,
          { pc := .start (i + 1),
            counter := { th.counter with pushedNodes := th.counter.pushedNodes + 1 } })
      else
        ({ m with started := true }, { th with pc := .idle })
  | .barrier => (m, if m.started then { th with pc := .idle } else th)
  | .idle =>
      match pop m.queue a.pick with
      | some (node, queue) => ({ m with queue := queue }, { th with pc := .load node })
      | none => (m, th)
  | .load node =>
      if itemDist node > m.distances (itemArray node) (itemNode node) then
        (m, { pc := .idle,
              counter := { th.counter with ignoredNodes := th.counter.ignoredNodes + 1 } })
      else
        (m, { th with pc := expand c node })
  | .edge idx id dist i =>
      if i < c.graph.lastEdge id then
        (m, { th with pc := tryLower idx id dist i (m.distances idx (c.graph.target i)) })
      else
        (m, { pc := .idle,
              counter := { th.counter with processedNodes := th.counter.processedNodes + 1 } })
  | .cas idx id dist i oldD =>
      if m.distances idx (c.graph.target i) = oldD ∧ a.spurious = false then
        ({ m with distances := setLabel m.distances idx (c.graph.target i) (addOne dist) },
          { th with pc := .push idx id dist i })
      else
        (m, { th with pc := tryLower idx id dist i (m.distances idx (c.graph.target i)) })
  | .push idx id dist i =>
      (m.push a.accepted (makeItem (addOne dist) (c.graph.target i) idx)
          ⟨c.graph.target i, addOne dist, idx⟩,
        { pc := .edge idx id dist (i + 1),
          counter := { th.counter with
            pushedNodes := th.counter.pushedNodes + 1
            err := th.counter.err || !a.accepted } })

/-- Before the first step: no label, no item, and all threads but thread 0 at the barrier. -/
def init (c : Config) : Threads Shared Thread c.numThreads where
  shared := ⟨fun _ _ => unreached, [], false, []⟩
  locals t := ⟨if t.val = 0 then .start 0 else .barrier, ⟨0, 0, 0, false⟩⟩

def run (c : Config) (ls : List (Fin c.numThreads × Choice)) : Threads Shared Thread c.numThreads :=
  (init c).run (stepThread c) ls

/-! ## §3 — what is pushed -/

/-- What the next step of a thread pushes. -/
def works (c : Config) : Pc → List (Nat × Work)
  | .start i => if i < c.numArrays then [(c.startItem i, ⟨c.startNode i, 1, i⟩)] else []
  | .push idx _ dist i =>
      [(makeItem (addOne dist) (c.graph.target i) idx, ⟨c.graph.target i, addOne dist, idx⟩)]
  | _ => []

theorem stepThread_pushed (c : Config) (a : Choice) (m : Shared) (th : Thread) :
    (stepThread c a m th).1.pushed = works c th.pc ++ m.pushed := by
  unfold stepThread
  cases th.pc with
  | start i =>
      dsimp only [works]
      split <;> rfl
  | barrier => rfl
  | idle =>
      dsimp only
      split <;> rfl
  | load node =>
      dsimp only
      split <;> rfl
  | edge idx id dist i =>
      dsimp only
      split <;> rfl
  | cas idx id dist i oldD =>
      dsimp only
      split <;> rfl
  | push idx id dist i => rfl

/-- The array and the label of a thread that is in `process_node` come from 8 and 24 bits, and its
edges are edges of the graph. -/
def PcOk (c : Config) : Pc → Prop
  | .start _ => True
  | .barrier => True
  | .idle => True
  | .load node => node < 2 ^ 64
  | .edge idx _ dist _ => idx < 2 ^ 8 ∧ dist < 2 ^ 24
  | .cas idx id dist i _ => (idx < 2 ^ 8 ∧ dist < 2 ^ 24) ∧ i < c.graph.lastEdge id
  | .push idx id dist i => (idx < 2 ^ 8 ∧ dist < 2 ^ 24) ∧ i < c.graph.lastEdge id

theorem PcOk.tryLower {c : Config} {idx id dist i : Nat} (h : idx < 2 ^ 8 ∧ dist < 2 ^ 24)
    (hi : i < c.graph.lastEdge id) (oldD : Nat) :
    PcOk c (Multistart.tryLower idx id dist i oldD) := by
  unfold Multistart.tryLower
  split
  · exact ⟨h, hi⟩
  · exact h

/-- Items are words of 64 bits. -/
def words (c : Config) : Outline Shared Thread where
  shared m := ∀ item ∈ m.queue, item < 2 ^ 64
  thread _ th := PcOk c th.pc
  pair _ _ := True

namespace Config

variable (c : Config)

theorem numArrays_lt : c.numArrays < 2 ^ 31 := by
  have hthreads := c.threadsFit
  have hfixed := c.multistartFits
  unfold numArrays
  split <;> omega

variable {c} {i : Nat}

theorem startNode_le (hi : i < c.numArrays) (hpos : 0 < c.graph.numNodes) :
    c.startNode i ≤ c.graph.numNodes - 1 := by
  have hn := c.nodesFit
  have harrays := c.numArrays_lt
  have hnodes : sub64 c.graph.numNodes 1 = c.graph.numNodes - 1 := by
    unfold sub64
    omega
  have hlast : sub64 c.numArrays 1 = c.numArrays - 1 := by
    unfold sub64
    omega
  have hmul : i * (c.graph.numNodes - 1) < 2 ^ 64 := by
    have := Nat.mul_le_mul (show i ≤ 2 ^ 31 by omega) (show c.graph.numNodes - 1 ≤ 2 ^ 32 by omega)
    omega
  rw [startNode, hnodes, hlast, Nat.mod_eq_of_lt hmul]
  apply Nat.div_le_of_le_mul
  exact Nat.mul_le_mul_right _ (by omega)

theorem startNode_lt (hi : i < c.numArrays) (hpos : 0 < c.graph.numNodes) :
    c.startNode i < c.graph.numNodes := by
  have := startNode_le hi hpos
  omega

theorem startItem_eq (c : Config) (i : Nat) : c.startItem i = makeItem 1 (c.startNode i) i :=
  Nat.or_right_comm ..

theorem startItem_lt (c : Config) (i : Nat) : c.startItem i < 2 ^ 64 := by
  refine Nat.or_lt_two_pow (Nat.or_lt_two_pow (by decide) (Nat.mod_lt _ (by decide))) ?_
  exact lt_of_le_of_lt (Nat.div_le_self _ _) (Nat.mod_lt _ (by decide))

end Config

/-- A push of a word, and a step that only takes from the queue. -/
theorem words_push {c : Config} {m m' : Shared} {th th' : Thread} {item : Nat} {accepted : Bool}
    {w : Work} (hm : (words c).shared m) (hqueue : m'.queue = m.queue) (hitem : item < 2 ^ 64)
    (hpc : PcOk c th'.pc) : (words c).StepOk m th (m'.push accepted item w) th' := by
  refine ⟨fun x hx => ?_, hpc, fun q hq _ _ => hq, fun q _ _ _ => ⟨trivial, trivial⟩⟩
  simp only [Shared.push, hqueue] at hx
  split at hx
  · rcases List.mem_cons.mp hx with rfl | hx
    · exact hitem
    · exact hm x hx
  · exact hm x hx

theorem words_take {c : Config} {m m' : Shared} {th th' : Thread} (hm : (words c).shared m)
    (hqueue : ∀ item ∈ m'.queue, item ∈ m.queue) (hpc : PcOk c th'.pc) :
    (words c).StepOk m th m' th' :=
  ⟨fun item hitem => hm item (hqueue item hitem), hpc, fun _ hq _ _ => hq,
    fun _ _ _ _ => ⟨trivial, trivial⟩⟩

theorem stepThread_words (c : Config) (a : Choice) (m : Shared) (th : Thread)
    (hm : (words c).shared m) (hth : (words c).thread m th) :
    (words c).StepOk m th (stepThread c a m th).1 (stepThread c a m th).2 := by
  change PcOk c th.pc at hth
  unfold stepThread
  split
  · split
    · exact words_push hm rfl (c.startItem_lt _) trivial
    · exact words_take hm (fun _ h => h) trivial
  · rename_i hpc
    refine words_take hm (fun _ h => h) ?_
    split
    · trivial
    · exact hth
  · split
    · rename_i hpop
      have hperm := pop_perm hpop
      refine words_take hm (fun item hitem => hperm.subset (List.mem_cons_of_mem _ hitem)) ?_
      exact hm _ (hperm.subset List.mem_cons_self)
    · exact words_take hm (fun _ h => h) hth
  · rename_i hpc
    rw [hpc] at hth
    split
    · exact words_take hm (fun _ h => h) trivial
    · exact words_take hm (fun _ h => h) ⟨itemArray_lt hth, Nat.mod_lt _ (by decide)⟩
  · rename_i hpc
    rw [hpc] at hth
    split
    · exact words_take hm (fun _ h => h) (PcOk.tryLower hth ‹_› _)
    · exact words_take hm (fun _ h => h) trivial
  · rename_i hpc
    rw [hpc] at hth
    split
    · exact words_take hm (fun _ h => h) hth
    · exact words_take hm (fun _ h => h) (PcOk.tryLower hth.1 hth.2 _)
  · rename_i idx id dist i hpc
    rw [hpc] at hth
    have htarget := Graph.target_lt c.targets hth.2
    have hn := c.nodesFit
    exact words_push hm rfl
      (makeItem_lt _ (Nat.mod_lt _ (by decide)) (by omega)) hth.1

theorem run_words (c : Config) (ls : List (Fin c.numThreads × Choice)) :
    (words c).Holds (run c ls) := by
  refine Outline.Holds.run (fun _ => True) ?_ (fun _ _ _ _ => trivial)
    (fun a m th hm hth _ => stepThread_words c a m th hm hth) ls trivial
  refine ⟨fun item hitem => absurd hitem List.not_mem_nil, fun t => ?_, fun _ _ _ => trivial⟩
  show PcOk c (if t.val = 0 then .start 0 else .barrier)
  split <;> trivial

/-! ## §4 — which items come back as they were pushed -/

/-- The next step of a thread pushes nothing that is too large for its field: no start of an array
from 256 on, and no node from an item of label `2 ^ 24 - 1`. -/
def StepFits (c : Config) : Pc → Prop
  | .start i => i < c.numArrays → 0 < c.graph.numNodes → i < 2 ^ 8
  | .push _ _ dist _ => dist + 1 ≠ 2 ^ 24
  | _ => True

theorem works_roundTrip_iff {c : Config} {pc : Pc} (hpc : PcOk c pc) :
    (∀ p ∈ works c pc, p.2.node < c.graph.numNodes → p.2.DecodedFrom p.1) ↔ StepFits c pc := by
  have hn := c.nodesFit
  cases pc with
  | start i =>
      dsimp only [works, StepFits]
      constructor
      · intro h hi hpos
        rw [if_pos hi, List.forall_mem_singleton] at h
        have hnode := c.startNode_lt hi hpos
        have hdecoded := h hnode
        rw [c.startItem_eq] at hdecoded
        exact ((decodedFrom_makeItem_iff i (by omega)).mp hdecoded).1
      · intro h p hp hnode
        split at hp
        · rename_i hi
          rw [List.mem_singleton.mp hp] at hnode ⊢
          dsimp only at hnode ⊢
          rw [c.startItem_eq]
          exact (decodedFrom_makeItem_iff i (by omega)).mpr ⟨h hi (by omega), by decide⟩
        · exact absurd hp List.not_mem_nil
  | push idx id dist i =>
      obtain ⟨⟨hidx, hdist⟩, hi⟩ := hpc
      have htarget := Graph.target_lt c.targets hi
      dsimp only [works, StepFits]
      rw [List.forall_mem_singleton, decodedFrom_makeItem_iff idx (lt_of_lt_of_le htarget hn)]
      have hadd : addOne dist = dist + 1 := by
        unfold addOne
        omega
      rw [hadd]
      dsimp only
      constructor
      · intro h
        have := (h htarget).2
        omega
      · intro h _
        exact ⟨hidx, by omega⟩
  | barrier | idle | load _ | edge _ _ _ _ | cas _ _ _ _ _ =>
      exact ⟨fun _ => trivial, fun _ p hp => absurd hp List.not_mem_nil⟩

/-- In one run: every word comes back as it was pushed exactly if every step fits. -/
theorem run_roundTrip_iff (c : Config) (ls : List (Fin c.numThreads × Choice)) :
    (∀ p ∈ (run c ls).shared.pushed, p.2.node < c.graph.numNodes → p.2.DecodedFrom p.1) ↔
      ∀ k (hk : k < ls.length), StepFits c ((run c (ls.take k)).locals ls[k].1).pc := by
  induction ls using List.reverseRecOn with
  | nil =>
      refine ⟨fun _ k hk => absurd hk (Nat.not_lt_zero k), fun _ p hp => ?_⟩
      exact absurd hp List.not_mem_nil
  | append_singleton ls l ih =>
      have hpushed : (run c (ls ++ [l])).shared.pushed =
          works c ((run c ls).locals l.1).pc ++ (run c ls).shared.pushed := by
        unfold run
        rw [Threads.run_concat, Threads.step_shared]
        exact stepThread_pushed ..
      have hlast := works_roundTrip_iff ((run_words c ls).thread l.1)
      rw [hpushed, List.forall_mem_append, hlast, ih, and_comm,
        forall_steps_concat (P := fun ls l => StepFits c ((run c ls).locals l.1).pc)]

/-! ## §5 — labels on a small graph -/

section Small

variable {c : Config}

/-- The item's array is one of the search, and its node is at the end of a path as long as the label. -/
def ItemOk (c : Config) (distances : Nat → Nat → Nat) (item : Nat) : Prop :=
  itemArray item < c.numArrays ∧ Behind c.graph (c.startNode (itemArray item))
    (distances (itemArray item)) (itemNode item) (itemDist item)

/-- What `process_node` has decoded, with the edge it is at. -/
structure AtEdge (c : Config) (distances : Nat → Nat → Nat) (idx id dist i : Nat) : Prop where
  array : idx < c.numArrays
  behind : Behind c.graph (c.startNode idx) (distances idx) id dist
  first : c.graph.firstEdge id ≤ i

/-- While thread 0 starts the arrays there are no items of a later one; afterwards there is a path
behind everything a thread is at. -/
def PcBehind (c : Config) (m : Shared) : Pc → Prop
  | .start i => m.started = false ∧ ∀ item ∈ m.queue, itemArray item < i
  | .barrier => True
  | .idle => m.started = true
  | .load node => m.started = true ∧ ItemOk c m.distances node
  | .edge idx id dist i => m.started = true ∧ AtEdge c m.distances idx id dist i
  | .cas idx id dist i oldD =>
      m.started = true ∧ AtEdge c m.distances idx id dist i ∧ i < c.graph.lastEdge id ∧
        dist + 1 < oldD
  | .push idx id dist i =>
      m.started = true ∧ AtEdge c m.distances idx id dist i ∧ i < c.graph.lastEdge id ∧
        Behind c.graph (c.startNode idx) (m.distances idx) (c.graph.target i) (dist + 1)

def paths (c : Config) : Outline Shared Thread where
  shared m := ∀ item ∈ m.queue, ItemOk c m.distances item
  thread m th := PcBehind c m th.pc
  pair p q := ∀ i j, p.pc = .start i → q.pc ≠ .start j

theorem ItemOk.mono {distances distances' : Nat → Nat → Nat} {item : Nat}
    (h : ItemOk c distances item) (hle : ∀ a v, distances' a v ≤ distances a v) :
    ItemOk c distances' item := ⟨h.1, h.2.mono (hle _)⟩

theorem AtEdge.mono {distances distances' : Nat → Nat → Nat} {idx id dist i : Nat}
    (h : AtEdge c distances idx id dist i) (hle : ∀ a v, distances' a v ≤ distances a v) :
    AtEdge c distances' idx id dist i := ⟨h.array, h.behind.mono (hle _), h.first⟩

theorem AtEdge.next {distances : Nat → Nat → Nat} {idx id dist i : Nat}
    (h : AtEdge c distances idx id dist i) : AtEdge c distances idx id dist (i + 1) :=
  ⟨h.array, h.behind, Nat.le_succ_of_le h.first⟩

/-- What a thread is at survives the steps of other threads behind the barrier. -/
theorem PcBehind.mono {m m' : Shared} {pc : Pc} (h : PcBehind c m pc) (hon : m.started = true)
    (hon' : m'.started = true) (hle : ∀ a v, m'.distances a v ≤ m.distances a v) :
    PcBehind c m' pc := by
  cases pc with
  | start i => exact absurd (hon.symm.trans h.1) Bool.true_eq_false.mp
  | barrier => trivial
  | idle => exact hon'
  | load node => exact ⟨hon', h.2.mono hle⟩
  | edge idx id dist i => exact ⟨hon', h.2.mono hle⟩
  | cas idx id dist i oldD => exact ⟨hon', h.2.1.mono hle, h.2.2⟩
  | push idx id dist i => exact ⟨hon', h.2.1.mono hle, h.2.2.1, h.2.2.2.mono (hle _)⟩

theorem PcBehind.ne_start {m : Shared} {pc : Pc} (h : PcBehind c m pc) (hon : m.started = true)
    (i : Nat) : pc ≠ .start i := by
  rintro rfl
  exact absurd (hon.symm.trans h.1) Bool.true_eq_false.mp

/-- A step behind the barrier: labels go down, and a path stands behind every new item. -/
theorem paths_running {m m' : Shared} {th th' : Thread} (hm : (paths c).shared m)
    (hon : m.started = true) (hon' : m'.started = true)
    (hle : ∀ a v, m'.distances a v ≤ m.distances a v)
    (hqueue : ∀ item ∈ m'.queue, item ∈ m.queue ∨ ItemOk c m'.distances item)
    (hth : PcBehind c m' th'.pc) : (paths c).StepOk m th m' th' := by
  refine ⟨fun item hitem => ?_, hth, fun q hq _ _ => PcBehind.mono hq hon hon' hle,
    fun q hq _ _ => ⟨fun i _ hi => absurd hi (hth.ne_start hon' i), fun _ j _ =>
      hth.ne_start hon' j⟩⟩
  exact (hqueue item hitem).elim (fun h => (hm item h).mono hle) id

/-- Few enough arrays and nodes for the fields of an item, and at least one node. -/
structure Config.Small (c : Config) : Prop where
  arrays : c.numArrays ≤ 2 ^ 8
  nodes : c.graph.numNodes < 2 ^ 24
  pos : 0 < c.graph.numNodes

variable (hc : c.Small)
include hc

theorem Config.Small.fits : c.graph.Fits := ⟨hc.pos, by have := hc.nodes; omega, c.targets⟩

theorem itemOk_makeItem {distances : Nat → Nat → Nat} {idx target d : Nat}
    (hidx : idx < c.numArrays) (htarget : target < c.graph.numNodes)
    (h : Behind c.graph (c.startNode idx) (distances idx) target d) :
    ItemOk c distances (makeItem d target idx) := by
  have hnodes := hc.nodes
  have harrays := hc.arrays
  have hd := h.le_numNodes hc.fits (c.startNode_lt hidx hc.pos)
  obtain ⟨hnode, hdist, harray⟩ :=
    (decodedFrom_makeItem_iff idx (d := d) (show target < 2 ^ 32 by omega)).mpr
      ⟨by omega, by omega⟩
  refine ⟨?_, ?_⟩
  · rwa [harray]
  · rwa [harray, hnode, hdist]

/-- Thread 0 starts an array; the other threads are at the barrier. -/
theorem paths_start {m : Shared} {th th' : Thread} {i : Nat} (hi : i < c.numArrays)
    (hpc : th.pc = .start i) (hpc' : th'.pc = .start (i + 1)) (hm : (paths c).shared m)
    (hth : (paths c).thread m th) (accepted : Bool) (w : Work) :
    (paths c).StepOk m th
      ({ m with distances := c.startLabels m.distances i }.push accepted (c.startItem i) w) th' := by
  have harrays := hc.arrays
  change PcBehind c m th.pc at hth
  rw [hpc] at hth
  obtain ⟨hoff, hbefore⟩ := hth
  have hstart := c.startNode_lt hi hc.pos
  have hself : c.startLabels m.distances i i (c.startNode i) = 1 := by
    rw [Config.startLabels, Function.update_self, Function.update_self]
  have hnew : ItemOk c (c.startLabels m.distances i) (c.startItem i) := by
    rw [c.startItem_eq]
    exact itemOk_makeItem hc hi hstart (.single (Nat.le_of_eq hself))
  have hitems : ∀ item, item ∈ (if accepted then c.startItem i :: m.queue else m.queue) →
      item = c.startItem i ∨ item ∈ m.queue := by
    intro item hitem
    split at hitem
    · exact List.mem_cons.mp hitem
    · exact Or.inr hitem
  refine ⟨fun item hitem => ?_, ?_, fun q hq hpq _ => ?_, fun q hq hpq _ => ⟨?_, ?_⟩⟩
  · rcases hitems item hitem with rfl | hold
    · exact hnew
    · -- the labels of the item's array are not the ones that are made
      have hne : itemArray item ≠ i := Nat.ne_of_lt (hbefore item hold)
      refine ⟨(hm item hold).1, ?_⟩
      dsimp only [Shared.push]
      rw [Config.startLabels, Function.update_of_ne hne]
      exact (hm item hold).2
  · show PcBehind c _ th'.pc
    rw [hpc']
    refine ⟨hoff, fun item hitem => ?_⟩
    rcases hitems item hitem with rfl | hold
    · rw [c.startItem_eq, ((decodedFrom_makeItem_iff i (d := 1)
        (show c.startNode i < 2 ^ 32 by have := hc.nodes; omega)).mpr ⟨by omega, by decide⟩).2.2]
      exact Nat.lt_succ_self i
    · exact Nat.lt_succ_of_lt (hbefore item hold)
  · change PcBehind c m q.pc at hq
    show PcBehind c _ q.pc
    have hne := hpq i
    cases hqc : q.pc with
    | start j => exact absurd hqc (hne j hpc)
    | barrier => trivial
    | idle | load _ | edge _ _ _ _ | cas _ _ _ _ _ | push _ _ _ _ =>
        rw [hqc] at hq
        have hon : m.started = true := by first | exact hq | exact hq.1
        exact absurd (hon.symm.trans hoff) Bool.true_eq_false.mp
  · exact fun a b ha => hpq i b hpc
  · intro a b ha
    exact absurd ha (hpq i a hpc)

/-- At an edge: the label behind it is low enough for the sum, and the compare-exchange is tried only
if it lowers the target's. -/
theorem pcBehind_tryLower {m : Shared} {idx id dist i : Nat} (hon : m.started = true)
    (hat : AtEdge c m.distances idx id dist i) (hlast : i < c.graph.lastEdge id) (oldD : Nat) :
    PcBehind c m (tryLower idx id dist i oldD) := by
  have hadd := hat.behind.addOne_eq hc.fits (c.startNode_lt hat.array hc.pos)
  unfold tryLower
  rw [hadd]
  split
  · exact ⟨hon, hat, hlast, ‹_›⟩
  · exact ⟨hon, hat.next⟩

/-- A label is lowered: the path to it goes over the edge. -/
theorem paths_lower {m : Shared} {th : Thread} {idx id dist i : Nat} (hm : (paths c).shared m)
    (hth : PcBehind c m (.cas idx id dist i (m.distances idx (c.graph.target i)))) :
    (paths c).StepOk m th
      { m with distances := setLabel m.distances idx (c.graph.target i) (addOne dist) }
      { th with pc := .push idx id dist i } := by
  obtain ⟨hon, hat, hlast, hlt⟩ := hth
  rw [hat.behind.addOne_eq hc.fits (c.startNode_lt hat.array hc.pos)]
  have hself : setLabel m.distances idx (c.graph.target i) (dist + 1) idx (c.graph.target i) =
      dist + 1 := by rw [setLabel, Function.update_self, Function.update_self]
  have hle : ∀ a v, setLabel m.distances idx (c.graph.target i) (dist + 1) a v ≤
      m.distances a v := by
    intro a v
    rcases eq_or_ne a idx with rfl | ha
    · rcases eq_or_ne v (c.graph.target i) with rfl | hv
      · rw [hself]
        exact Nat.le_of_lt hlt
      · rw [setLabel, Function.update_self, Function.update_of_ne hv]
    · rw [setLabel, Function.update_of_ne ha]
  have hnew := hat.behind.extend ⟨i, hat.first, hlast, rfl⟩ hlt (hle idx) hself
  exact paths_running hm hon hon hle (fun _ h => Or.inl h) ⟨hon, hat.mono hle, hlast, hnew⟩

theorem stepThread_paths (a : Choice) (m : Shared) (th : Thread) (hm : (paths c).shared m)
    (hth : (paths c).thread m th) :
    (paths c).StepOk m th (stepThread c a m th).1 (stepThread c a m th).2 := by
  have hsame : ∀ idx v, m.distances idx v ≤ m.distances idx v := fun _ _ => Nat.le_refl _
  have hassert := hth
  change PcBehind c m th.pc at hassert
  unfold stepThread
  split
  · rename_i i hpc
    split
    · exact paths_start hc ‹_› hpc rfl hm hth _ _
    · rw [hpc] at hassert
      refine ⟨hm, rfl, fun q hq hpq _ => ?_, fun q hq hpq hqp => ⟨fun i j hi => ?_, fun j _ _ => ?_⟩⟩
      · change PcBehind c m q.pc at hq
        show PcBehind c _ q.pc
        cases hqc : q.pc with
        | start j => exact absurd hqc (hpq i j hpc)
        | barrier => trivial
        | idle => rfl
        | load _ | edge _ _ _ _ | cas _ _ _ _ _ | push _ _ _ _ =>
            rw [hqc] at hq
            exact ⟨rfl, hq.2⟩
      · cases hi
      · exact nofun
  · rename_i hpc
    by_cases hon : m.started = true
    · rw [if_pos hon]
      exact paths_running hm hon hon hsame (fun _ h => Or.inl h) hon
    · rw [if_neg hon]
      exact .of_memory hm hth fun _ _ hpq hqp => ⟨hpq, hqp⟩
  · rename_i hpc
    rw [hpc] at hassert
    split
    · rename_i hpop
      have hperm := pop_perm hpop
      exact paths_running hm hassert hassert hsame
        (fun item hitem => Or.inl (hperm.subset (List.mem_cons_of_mem _ hitem)))
        ⟨hassert, hm _ (hperm.subset List.mem_cons_self)⟩
    · exact .of_memory hm hth fun _ _ hpq hqp => ⟨hpq, hqp⟩
  · rename_i node hpc
    rw [hpc] at hassert
    obtain ⟨hon, hitem⟩ := hassert
    split
    · exact paths_running hm hon hon hsame (fun _ h => Or.inl h) hon
    · exact paths_running hm hon hon hsame (fun _ h => Or.inl h)
        ⟨hon, hitem.1, hitem.2, Nat.le_refl _⟩
  · rename_i idx id dist i hpc
    rw [hpc] at hassert
    obtain ⟨hon, hat⟩ := hassert
    split
    · exact paths_running hm hon hon hsame (fun _ h => Or.inl h)
        (pcBehind_tryLower hc hon hat ‹_› _)
    · exact paths_running hm hon hon hsame (fun _ h => Or.inl h) hon
  · rename_i idx id dist i oldD hpc
    rw [hpc] at hassert
    split
    · rename_i hcas
      rw [← hcas.1] at hassert
      exact paths_lower hc hm hassert
    · exact paths_running hm hassert.1 hassert.1 hsame (fun _ h => Or.inl h)
        (pcBehind_tryLower hc hassert.1 hassert.2.1 hassert.2.2.1 _)
  · rename_i idx id dist i hpc
    rw [hpc] at hassert
    obtain ⟨hon, hat, hlast, hnew⟩ := hassert
    have hstart := c.startNode_lt hat.array hc.pos
    refine paths_running hm hon hon hsame (fun item hitem => ?_) ⟨hon, hat.next⟩
    have hitem' : item ∈ (if a.accepted then
        makeItem (addOne dist) (c.graph.target i) idx :: m.queue else m.queue) := hitem
    rw [hat.behind.addOne_eq hc.fits hstart] at hitem'
    split at hitem'
    · rcases List.mem_cons.mp hitem' with rfl | hold
      · exact Or.inr (itemOk_makeItem hc hat.array (hc.fits.target_lt hlast) hnew)
      · exact Or.inl hold
    · exact Or.inl hitem'

theorem run_paths (ls : List (Fin c.numThreads × Choice)) : (paths c).Holds (run c ls) := by
  refine Outline.Holds.run (fun _ => True) ?_ (fun _ _ _ _ => trivial)
    (fun a m th hm hth _ => stepThread_paths hc a m th hm hth) ls trivial
  refine ⟨fun item hitem => absurd hitem List.not_mem_nil, fun t => ?_, fun t u htu i j hi hj => ?_⟩
  · show PcBehind c _ (if t.val = 0 then .start 0 else .barrier)
    split
    · exact ⟨rfl, fun item hitem => absurd hitem List.not_mem_nil⟩
    · trivial
  · change (if t.val = 0 then Pc.start 0 else .barrier) = .start i at hi
    change (if u.val = 0 then Pc.start 0 else .barrier) = .start j at hj
    split at hi
    · split at hj
      · exact htu (Fin.ext (by omega))
      · cases hj
    · cases hi

end Small

/-- **With at most 256 arrays, and fewer than `2 ^ 24` nodes, every step of every run fits.** -/
theorem stepFits_of_small (c : Config) (harrays : c.numArrays ≤ 2 ^ 8)
    (hnodes : c.graph.numNodes < 2 ^ 24) (ls : List (Fin c.numThreads × Choice))
    (t : Fin c.numThreads) : StepFits c ((run c ls).locals t).pc := by
  have hpcOk : PcOk c ((run c ls).locals t).pc := (run_words c ls).thread t
  cases hpc : ((run c ls).locals t).pc with
  | start i => exact fun hi _ => lt_of_lt_of_le hi harrays
  | push idx id dist i =>
      rw [hpc] at hpcOk
      have hlast := hpcOk.2
      have hpos := (Nat.zero_le _).trans_lt (Graph.target_lt c.targets hlast)
      have hc : c.Small := ⟨harrays, hnodes, hpos⟩
      have hbehind : PcBehind c (run c ls).shared ((run c ls).locals t).pc :=
        (run_paths hc ls).thread t
      rw [hpc] at hbehind
      obtain ⟨-, hat, -, hnew⟩ := hbehind
      have hd := hnew.le_numNodes hc.fits (c.startNode_lt hat.array hpos)
      show dist + 1 ≠ 2 ^ 24
      omega
  | barrier | idle | load _ | edge _ _ _ _ | cas _ _ _ _ _ => trivial

theorem stepThread_start {c : Config} {th : Thread} {i : Nat} (hpc : th.pc = .start i)
    (hi : i < c.numArrays) (a : Choice) (m : Shared) :
    (stepThread c a m th).2.pc = .start (i + 1) := by
  unfold stepThread
  rw [hpc]
  dsimp only
  rw [if_pos hi]

/-- Thread 0 on its own starts array after array. -/
theorem run_starts {c : Config} (t : Fin c.numThreads) (ht : t.val = 0) (a : Choice) {k : Nat}
    (hk : k ≤ c.numArrays) : ((run c (List.replicate k (t, a))).locals t).pc = .start k := by
  induction k with
  | zero => exact if_pos ht
  | succ k ih =>
      unfold run at ih ⊢
      rw [List.replicate_succ', Threads.run_concat, Threads.step_locals_self]
      exact stepThread_start (ih (by omega)) (by omega) a _

/-- A run that starts array `i` fits only if `i` does. -/
theorem lt_of_startFits {c : Config} (t : Fin c.numThreads) (ht : t.val = 0) (a : Choice) {i : Nat}
    (hi : i < c.numArrays) (hpos : 0 < c.graph.numNodes)
    (h : ∀ k (hk : k < (List.replicate (i + 1) (t, a)).length),
      StepFits c ((run c ((List.replicate (i + 1) (t, a)).take k)).locals
        (List.replicate (i + 1) (t, a))[k].1).pc) : i < 2 ^ 8 := by
  have hfits := h i (by rw [List.length_replicate]; exact Nat.lt_succ_self i)
  rw [List.getElem_replicate, List.take_replicate, Nat.min_eq_left (Nat.le_succ i),
    run_starts t ht a (Nat.le_of_lt hi)] at hfits
  exact hfits hi hpos

/-- **In every run, the words pushed are decoded to what they were pushed for exactly if no step
starts an array from 256 on or pushes a node from an item of label `2 ^ 24 - 1`.** The first never
happens exactly if there are no more than 256 arrays (or no node, or no thread), the second never on
a graph of fewer than `2 ^ 24` nodes. -/
theorem itemsRoundTrip_iff (c : Config) :
    (∀ ls : List (Fin c.numThreads × Choice),
      (∀ p ∈ (run c ls).shared.pushed, p.2.node < c.graph.numNodes → p.2.DecodedFrom p.1) ↔
        ∀ k (hk : k < ls.length), StepFits c ((run c (ls.take k)).locals ls[k].1).pc) ∧
    (c.graph.numNodes < 2 ^ 24 →
      ((∀ ls : List (Fin c.numThreads × Choice), ∀ p ∈ (run c ls).shared.pushed,
          p.2.node < c.graph.numNodes → p.2.DecodedFrom p.1) ↔
        c.numArrays ≤ 2 ^ 8 ∨ c.graph.numNodes = 0 ∨ c.numThreads = 0)) := by
  refine ⟨run_roundTrip_iff c, fun hnodes => ⟨fun h => ?_, ?_⟩⟩
  · by_contra hmany
    obtain ⟨harrays, hpos, hthreads⟩ : 2 ^ 8 < c.numArrays ∧ 0 < c.graph.numNodes ∧
        0 < c.numThreads := by omega
    have hfits := lt_of_startFits ⟨0, hthreads⟩ rfl ⟨none, true, false⟩ harrays hpos
      ((run_roundTrip_iff c _).mp (h _))
    exact absurd hfits (Nat.lt_irrefl _)
  · rintro (harrays | hzero | hzero) ls
    · exact (run_roundTrip_iff c ls).mpr fun k _ =>
        stepFits_of_small c harrays hnodes (ls.take k) _
    · intro p _ hnode
      omega
    · cases ls with
      | nil => exact fun p hp => absurd hp List.not_mem_nil
      | cons l ls => exact absurd l.1.isLt (by omega)

/-- An edge from node 0 to node 1, one thread, one array. -/
def oneEdge : Config where
  graph := ⟨#[0, 1, 1], #[⟨1, 1⟩], by decide⟩
  targets := by decide
  nodesFit := by decide
  numThreads := 1
  threadsFit := by decide
  fixedMultistart := -1
  multistartFits := by decide

/-- Start, open the barrier, pop, load the label, look at the edge, lower, push. -/
def oneSearch : List (Fin oneEdge.numThreads × Choice) :=
  List.replicate 7 ((0 : Fin 1), ⟨some 0, true, false⟩)

/-- Both pushes of a search of one edge: the start node, and its neighbour with label 2. -/
theorem itemsRoundTrip_iff_oneSearch :
    (run oneEdge oneSearch).shared.pushed =
      [(2 ^ 33 + 1, ⟨1, 2, 0⟩), (2 ^ 32, ⟨0, 1, 0⟩)] ∧
      ∀ p ∈ (run oneEdge oneSearch).shared.pushed, p.2.node < 2 → p.2.DecodedFrom p.1 :=
  ⟨by decide +kernel,
    ((itemsRoundTrip_iff oneEdge).2 (by decide)).mpr (Or.inl (by decide)) oneSearch⟩

/-- One node without edges, one thread, 257 arrays. -/
def tooManyArrays : Config where
  graph := ⟨#[0, 0], #[], by decide⟩
  targets := by decide
  nodesFit := by decide
  numThreads := 1
  threadsFit := by decide
  fixedMultistart := 257
  multistartFits := by decide

/-- The item of array 256 is decoded as one of array 0. -/
theorem not_itemsRoundTrip_tooManyArrays :
    ¬ ∀ (c : Config) (ls : List (Fin c.numThreads × Choice)),
      ∀ p ∈ (run c ls).shared.pushed, p.2.node < c.graph.numNodes → p.2.DecodedFrom p.1 := by
  intro h
  have := h tooManyArrays (List.replicate 257 ((0 : Fin 1), ⟨none, true, false⟩))
    (tooManyArrays.startItem 256, ⟨0, 1, 256⟩) (by decide +kernel) (by decide)
  revert this
  decide

end RelaxedConcurrentFifo.Bfs.Multistart
