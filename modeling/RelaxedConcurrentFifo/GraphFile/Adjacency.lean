/-
# RelaxedConcurrentFifo.GraphFile.Adjacency — `graph.hpp`, and the end of both constructors

The two constructors of `Graph` (`graph.unix.cpp`, `graph.portable.cpp`) read the file in their own ways
into `edge_list`, and count the edges of each node in `nodes` as they go. What follows is the same in
both: the counts are scanned, and each edge is put to its place.

What a vector can hold is bounded by `max_size()` and by the memory there is; a request beyond that
throws. `num_nodes + 1` is a 64-bit sum, and it is 0 for the largest number of nodes.
-/
import RelaxedConcurrentFifo.Bfs.Graph
import RelaxedConcurrentFifo.Lib.CountingSort
import RelaxedConcurrentFifo.Lib.Words

namespace RelaxedConcurrentFifo.GraphFile

open RelaxedConcurrentFifo.Bfs (Edge)
open RelaxedConcurrentFifo.Lib.CountingSort

/-! ## §1 — graphs, and how a constructor ends -/

/-- `Graph`, as a constructor fills it. -/
structure Graph where
  nodes : List Nat
  edges : List Edge
  deriving DecidableEq, Repr

/-- The exceptions of both constructors. -/
inductive Error where
  | mmapFailed
  | graphFormat
  | numberOfNodes
  | numberOfEdges
  /-- `std::length_error` or `std::bad_alloc` of a vector. -/
  | allocation
  | edgeFormat
  | parseSource
  | source
  | parseTarget
  | target
  deriving DecidableEq, Repr

/-- The text of a `std::runtime_error`. -/
def Error.what : Error → Option String
  | .mmapFailed => some "mmap failed"
  | .graphFormat => some "Invalid graph format"
  | .numberOfNodes => some "Failed to parse number of nodes"
  | .numberOfEdges => some "Failed to parse number of edges"
  | .allocation => none
  | .edgeFormat => some "Invalid edge format"
  | .parseSource => some "Failed to parse edge source"
  | .source => some "Invalid edge source"
  | .parseTarget => some "Failed to parse edge target"
  | .target => some "Invalid edge target"

/-- How a constructor ends. The behaviour is undefined once it has read or written out of bounds, or
read a variable that was not set. -/
inductive Outcome where
  | returned (g : Graph)
  | throws (e : Error)
  | undefined
  deriving DecidableEq, Repr

/-- How many entries `nodes`, and `edge_list` and `edges`, can have: `max_size()` at most. -/
structure Memory where
  maxNodes : Nat
  maxEdges : Nat
  maxNodes_lt : maxNodes < 2 ^ 60
  maxEdges_lt : maxEdges < 2 ^ 59

/-- The argument of `nodes.resize`. -/
def nodesSize (numNodes : Nat) : Nat := (numNodes + 1) % 2 ^ 64

/-- `nodes.resize` and `edge_list.reserve` do not throw. -/
def Memory.Fits (mem : Memory) (numNodes numEdges : Nat) : Prop :=
  nodesSize numNodes ≤ mem.maxNodes ∧ numEdges ≤ mem.maxEdges

instance (mem : Memory) (numNodes numEdges : Nat) : Decidable (mem.Fits numNodes numEdges) :=
  inferInstanceAs (Decidable (_ ∧ _))

/-- From the counts and the list of edges to the graph, unless a vector is left. -/
def build (nodes : List Nat) (edgeList : List (Nat × Edge)) : Option Graph :=
  match nodes with
  -- `nodes.begin() + 1` is behind `nodes.end()`
  | [] => none
  | first :: counts =>
      (placeAll (first :: exclusiveScan 0 counts) (List.replicate edgeList.length default)
        (edgeList.map (Prod.map (· + 1) id))).map fun s => ⟨s.1, s.2⟩

/-! ## §2 — the compressed adjacency of a list of edges -/

/-- The counts, after all edges have been read. -/
def countNodes (size : Nat) (edgeList : List (Nat × Edge)) : List Nat :=
  (edgeList.map fun edge => edge.1 + 1).foldl bump (List.replicate size 0)

theorem countNodes_succ (n : Nat) (edgeList : List (Nat × Edge)) :
    countNodes (n + 1) edgeList = 0 :: (edgeList.map Prod.fst).foldl bump (List.replicate n 0) := by
  unfold countNodes
  rw [List.replicate_succ]
  generalize List.replicate n 0 = counts
  induction edgeList generalizing counts with
  | nil => rfl
  | cons edge edgeList ih => exact ih (bump counts edge.1)

/-- The edges out of each node stand together, in the order of the list, and `nodes` has their
bounds. -/
structure Adjacency (n : Nat) (edgeList : List (Nat × Edge)) (g : Graph) : Prop where
  length_nodes : g.nodes.length = n + 1
  offset : ∀ x ≤ n, g.nodes[x]? = some (start edgeList x)
  length_edges : g.edges.length = edgeList.length
  slice : ∀ x < n, (g.edges.drop (start edgeList x)).take (count edgeList x) = ofKey edgeList x

/-- **From the counts of a list of edges, the constructors build its adjacency, inside the bounds.** -/
theorem build_countNodes {n : Nat} {edgeList : List (Nat × Edge)}
    (hsources : ∀ edge ∈ edgeList, edge.1 < n) :
    ∃ g, build (countNodes (n + 1) edgeList) edgeList = some g ∧ Adjacency n edgeList g := by
  have hout : (List.replicate edgeList.length (default : Edge)).length = edgeList.length :=
    List.length_replicate
  obtain ⟨s, hs, hsorted⟩ := placeAll_sorted edgeList hsources hout
  refine ⟨⟨0 :: s.1, s.2⟩, ?_, ?_, ?_, hsorted.length_out, fun x _ => hsorted.slice x⟩
  · rw [countNodes_succ, build, placeAll_cons, hs]
    rfl
  · exact congrArg Nat.succ hsorted.length_cursors
  · intro x hx
    cases x with
    | zero => exact congrArg some (start_zero edgeList).symm
    | succ x => exact hsorted.cursor x hx

namespace Adjacency

variable {n : Nat} {edgeList : List (Nat × Edge)} {g : Graph}

/-- No offset points past the edges. -/
theorem offset_le (h : Adjacency n edgeList g) {offset : Nat} (hmem : offset ∈ g.nodes) :
    offset ≤ g.edges.length := by
  obtain ⟨x, hx⟩ := List.mem_iff_getElem?.mp hmem
  have hlt := (List.getElem?_eq_some_iff.mp hx).1
  rw [h.length_nodes] at hlt
  rw [h.offset x (Nat.le_of_lt_succ hlt)] at hx
  cases hx
  rw [h.length_edges]
  exact start_le_length edgeList x

/-- Every edge of the graph is one of the list. -/
theorem exists_source (h : Adjacency n edgeList g) (hsources : ∀ edge ∈ edgeList, edge.1 < n) {e : Edge}
    (hmem : e ∈ g.edges) : ∃ x, (x, e) ∈ edgeList := by
  obtain ⟨i, hi⟩ := List.mem_iff_getElem?.mp hmem
  have hlt := (List.getElem?_eq_some_iff.mp hi).1
  rw [h.length_edges, ← start_eq_length hsources] at hlt
  obtain ⟨x, hx, hfirst, hlast⟩ := exists_key_of_lt_start hlt
  obtain ⟨j, rfl⟩ := Nat.exists_eq_add_of_le hfirst
  have hj : (ofKey edgeList x)[j]? = some e := by
    rw [← h.slice x hx, List.getElem?_take_of_lt (by omega), List.getElem?_drop, hi]
  obtain ⟨edge, hedge, rfl⟩ := List.mem_map.mp (List.mem_of_getElem? hj)
  exact ⟨edge.1, List.mem_of_mem_filter hedge⟩

end Adjacency

/-- Where the edges go does not depend on their weights. -/
theorem build_map (f : Edge → Edge) (hdefault : f default = default) (nodes : List Nat)
    (edgeList : List (Nat × Edge)) : build nodes (edgeList.map (Prod.map id f)) =
      (build nodes edgeList).map fun g => ⟨g.nodes, g.edges.map f⟩ := by
  cases nodes with
  | nil => rfl
  | cons first counts =>
      have hitems : (edgeList.map (Prod.map id f)).map (Prod.map (· + 1) id) =
          (edgeList.map (Prod.map (· + 1) id)).map (Prod.map id f) := by
        rw [List.map_map, List.map_map]
        rfl
      have hout : List.replicate (edgeList.map (Prod.map id f)).length (default : Edge) =
          (List.replicate edgeList.length default).map f := by
        rw [List.length_map, List.map_replicate, hdefault]
      rw [build, build, hitems, hout, placeAll_map, Option.map_map, Option.map_map]
      rfl

end RelaxedConcurrentFifo.GraphFile
