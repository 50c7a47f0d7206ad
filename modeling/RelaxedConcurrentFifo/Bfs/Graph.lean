/-
# RelaxedConcurrentFifo.Bfs.Graph — `graph.hpp`, and the labels both searches put on its nodes

A graph is a compressed adjacency array: the edges out of node `u` are the entries `nodes[u]` up to
`nodes[u + 1]` of `edges`. Both searches of `benchmark_graph.hpp` label nodes with 32-bit numbers,
`1` for the start node and `unreached` for a node not seen yet; an item of work is a node with the label
it had when it was pushed.

`Behind` is the one fact about a label that both searches keep: a path without repetition ends at the
node and is as long as the label says. It is what keeps the 32-bit sums from wrapping.
-/
import RelaxedConcurrentFifo.Lib.ShortestPaths
import Mathlib.Algebra.Group.Nat.Defs

namespace RelaxedConcurrentFifo.Bfs

open RelaxedConcurrentFifo.Lib.ShortestPaths

/-! ## §1 — the graph -/

/-- `Graph::Edge`. -/
structure Edge where
  target : Nat
  weight : Int
  deriving DecidableEq, Inhabited, Repr

/-- `Graph`: no offset points past the edges. -/
structure Graph where
  nodes : Array Nat
  edges : Array Edge
  offsets : ∀ offset ∈ nodes, offset ≤ edges.size

namespace Graph

/-- `num_nodes`. -/
def numNodes (g : Graph) : Nat := if g.nodes.isEmpty then 0 else g.nodes.size - 1

/-- `graph.nodes[node_id]`. -/
def firstEdge (g : Graph) (u : Nat) : Nat := g.nodes.getD u 0

/-- `graph.nodes[node_id + 1]`. -/
def lastEdge (g : Graph) (u : Nat) : Nat := g.nodes.getD (u + 1) 0

/-- `graph.edges[i].target`. -/
def target (g : Graph) (i : Nat) : Nat := (g.edges.getD i default).target

/-- Entry `i` of the edges goes from `u` to `v`. -/
structure EdgeAt (g : Graph) (i u v : Nat) : Prop where
  first : g.firstEdge u ≤ i
  last : i < g.lastEdge u
  target : g.target i = v

def Adj (g : Graph) (u v : Nat) : Prop := ∃ i, g.EdgeAt i u v

/-- There is a node, labels of 32 bits are enough for all of them, and every edge ends at one. -/
structure Fits (g : Graph) : Prop where
  pos : 1 ≤ g.numNodes
  le : g.numNodes ≤ 2 ^ 32 - 2
  targets : ∀ e ∈ g.edges, e.target < g.numNodes

theorem lastEdge_le (g : Graph) (u : Nat) : g.lastEdge u ≤ g.edges.size := by
  unfold lastEdge
  rw [Array.getD_eq_getD_getElem?]
  by_cases h : u + 1 < g.nodes.size
  · rw [Array.getElem?_eq_getElem h]
    exact g.offsets _ (Array.getElem_mem h)
  · rw [Array.getElem?_eq_none (Nat.le_of_not_lt h)]
    exact Nat.zero_le _

theorem target_lt {g : Graph} {n i u : Nat} (htargets : ∀ e ∈ g.edges, e.target < n)
    (h : i < g.lastEdge u) : g.target i < n := by
  have hi := h.trans_le (g.lastEdge_le u)
  unfold target
  rw [Array.getD_eq_getD_getElem?, Array.getElem?_eq_getElem hi]
  exact htargets _ (Array.getElem_mem hi)

theorem Fits.target_lt {g : Graph} (hg : g.Fits) {i u : Nat} (h : i < g.lastEdge u) :
    g.target i < g.numNodes := Graph.target_lt hg.targets h

theorem Fits.adj_lt {g : Graph} (hg : g.Fits) {u v : Nat} (h : g.Adj u v) : v < g.numNodes := by
  obtain ⟨i, hi⟩ := h
  exact hi.target ▸ hg.target_lt hi.last

end Graph

/-! ## §2 — labels -/

/-- `std::numeric_limits<std::uint32_t>::max()`, the label of a node that was not reached. -/
def unreached : Nat := 2 ^ 32 - 1

/-- `d + 1` in 32 bits. -/
def addOne (d : Nat) : Nat := (d + 1) % 2 ^ 32

/-- A path without repetition ends at `v` and is `d` nodes long. -/
def Behind (g : Graph) (start : Nat) (distances : Nat → Nat) (v d : Nat) : Prop :=
  ∃ p, SimplePath g.Adj start distances (v :: p) ∧ (v :: p).length = d

namespace Behind

variable {g : Graph} {start : Nat} {distances distances' : Nat → Nat} {u v d : Nat}

theorem single (h : distances start ≤ 1) : Behind g start distances start 1 := ⟨[], .single h, rfl⟩

theorem mono (h : Behind g start distances v d) (hle : ∀ x, distances' x ≤ distances x) :
    Behind g start distances' v d := by
  obtain ⟨p, hp, hlen⟩ := h
  exact ⟨p, hp.mono hle, hlen⟩

theorem walk (h : Behind g start distances v d) : ∃ k, d = k + 1 ∧ Walk g.Adj start k v := by
  obtain ⟨p, hp, hlen⟩ := h
  exact ⟨p.length, hlen.symm, hp.walk⟩

variable (hg : g.Fits) (hstart : start < g.numNodes)
include hg hstart

theorem le_numNodes (h : Behind g start distances v d) : d ≤ g.numNodes := by
  obtain ⟨p, hp, rfl⟩ := h
  exact hp.length_le hstart fun _ _ he => hg.adj_lt he

/-- No label wraps. -/
theorem addOne_eq (h : Behind g start distances v d) : addOne d = d + 1 := by
  have := h.le_numNodes hg hstart
  have := hg.le
  unfold addOne
  omega

/-- As long as some node is unreached, a label can be counted up without hitting the marker. -/
theorem lt_unreached (h : Behind g start distances u d) {v : Nat} (hv : v < g.numNodes)
    (hun : distances v = unreached) : d + 1 < unreached := by
  have hle := h.le_numNodes hg hstart
  have hn := hg.le
  have hne : d ≠ g.numNodes := by
    intro hfull
    obtain ⟨p, hp, hlen⟩ := h
    have := hp.label_le_of_full hstart (fun _ _ he => hg.adj_lt he) (hlen.trans hfull) hv
    unfold unreached at hun
    omega
  unfold unreached
  omega

omit hg hstart in
/-- Lowering the label of a neighbour to one more than the node's. -/
theorem extend (h : Behind g start distances u d) (he : g.Adj u v) (hlt : d + 1 < distances v)
    (hle : ∀ x, distances' x ≤ distances x) (hv : distances' v = d + 1) :
    Behind g start distances' v (d + 1) := by
  obtain ⟨p, hp, rfl⟩ := h
  refine ⟨u :: p, hp.extend he hlt hle ?_, rfl⟩
  rw [hv]
  rfl

end Behind

/-! ## §3 — what a finished search has -/

/-- Every label has a path behind it, and no edge can lower one. -/
structure Settled (g : Graph) (start : Nat) (distances : Nat → Nat) : Prop where
  startLabel : distances start = 1
  behind : ∀ v, distances v ≠ unreached → Behind g start distances v (distances v)
  closed : ∀ u v, g.Adj u v → distances u ≠ unreached →
    distances v ≠ unreached ∧ distances v ≤ distances u + 1

/-- The labels are what a breadth-first search is for: one more than the least number of edges from
the start, and the marker where there is no way. -/
structure IsBfs (g : Graph) (start : Nat) (distances : Nat → Nat) : Prop where
  reachable : ∀ v k, Distance g.Adj start v k → distances v = k + 1
  unreachable : ∀ v, (∀ k, ¬ Walk g.Adj start k v) → distances v = unreached

theorem Settled.isBfs {g : Graph} {start : Nat} {distances : Nat → Nat}
    (h : Settled g start distances) : IsBfs g start distances := by
  have hexact := fun v => labels_exact h.startLabel (by decide) (fun v hv => (h.behind v hv).walk)
    h.closed v
  exact ⟨fun v => (hexact v).1, fun v => (hexact v).2⟩

theorem Settled.unique {g : Graph} {start : Nat} {distances distances' : Nat → Nat}
    (h : Settled g start distances) (h' : Settled g start distances') : distances = distances' := by
  funext v
  exact labels_unique h.startLabel h'.startLabel (by decide) (fun v hv => (h.behind v hv).walk)
    (fun v hv => (h'.behind v hv).walk) h.closed h'.closed v

end RelaxedConcurrentFifo.Bfs
