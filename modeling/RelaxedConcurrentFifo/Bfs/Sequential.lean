/-
# RelaxedConcurrentFifo.Bfs.Sequential — `sequential_bfs`

The reference search: nodes are expanded in the order in which they were reached. While node `u` is
expanded, all labels are at most one more than `u`'s and the waiting nodes are sorted by theirs
(`Frontier`), so a label is right when it is first given and no edge needs to be looked at twice.
Every node waits at most once; this bounds the loop and the ring buffer.
-/
import RelaxedConcurrentFifo.Bfs.Graph
import RelaxedConcurrentFifo.Bfs.RingBuffer
import RelaxedConcurrentFifo.Lib.Words

namespace RelaxedConcurrentFifo.Bfs

open RelaxedConcurrentFifo.Lib.ShortestPaths
open RelaxedConcurrentFifo.Lib.Words (bitCeil le_bitCeil)

/-! ## §1 — the program -/

/-- The variables of the search. -/
structure Search where
  nodes : RingBuffer Nat
  distances : Nat → Nat

/-- One round of the inner loop. -/
def visit (g : Graph) (d : Nat) (s : Search) (i : Nat) : Search :=
  if s.distances (g.target i) = unreached then
    { nodes := s.nodes.push (g.target i % 2 ^ 32)
      distances := Function.update s.distances (g.target i) d }
  else s

/-- One round of the outer loop. -/
def expand (g : Graph) (s : Search) : Search :=
  let node := s.nodes.top
  let d := addOne (s.distances node)
  (List.range' (g.firstEdge node) (g.lastEdge node - g.firstEdge node)).foldl (visit g d)
    { s with nodes := s.nodes.pop }

/-- The outer loop, for at most `fuel` rounds. -/
def searchLoop (g : Graph) : Nat → Search → Option Search
  | 0, s => if s.nodes.empty then some s else none
  | fuel + 1, s => if s.nodes.empty then some s else searchLoop g fuel (expand g s)

/-- The search before its loop. -/
def Search.init (g : Graph) (startNode : Nat) : Search where
  nodes := (RingBuffer.make (bitCeil g.numNodes)).push (startNode % 2 ^ 32)
  distances := Function.update (fun _ => unreached) startNode 1

/-- `sequential_bfs`, less the time it takes: the longest label and all of them. -/
def sequentialBfs (g : Graph) (startNode : Nat) : Option (Nat × List Nat) :=
  (searchLoop g g.numNodes (Search.init g startNode)).map fun s =>
    (((List.range g.numNodes).map s.distances).foldl max 0, (List.range g.numNodes).map s.distances)

/-! ## §2 — the frontier -/

section Frontier

variable {g : Graph} {start : Nat}

/-- The nodes that are still unreached. -/
def unreachedNodes (g : Graph) (distances : Nat → Nat) : Finset Nat :=
  (Finset.range g.numNodes).filter fun v => distances v = unreached

/-- What holds of the labels and the waiting nodes `q` while labels of `low` are expanded. -/
structure Frontier (g : Graph) (start : Nat) (distances : Nat → Nat) (q : List Nat) (low : Nat) :
    Prop where
  startLabel : distances start = 1
  behind : ∀ v, distances v ≠ unreached → Behind g start distances v (distances v)
  reached : ∀ x ∈ q, distances x ≠ unreached
  sorted : q.Pairwise fun a b => distances a ≤ distances b
  ge_low : ∀ x ∈ q, low ≤ distances x
  le_high : ∀ v, distances v ≠ unreached → distances v ≤ low + 1

/-- No edge out of a node that `done` allows to look at can lower a label. -/
def Closed (g : Graph) (distances : Nat → Nat) (done : Nat → Nat → Prop) : Prop :=
  ∀ i u v, g.EdgeAt i u v → done i u → distances u ≠ unreached →
    distances v ≠ unreached ∧ distances v ≤ distances u + 1

/-- Reaching a new node. -/
theorem Frontier.reach {distances : Nat → Nat} {q : List Nat} {u v : Nat} (hg : g.Fits)
    (hstart : start < g.numNodes) (h : Frontier g start distances q (distances u))
    (hu : distances u ≠ unreached) (he : g.Adj u v) (hv : distances v = unreached) :
    Frontier g start (Function.update distances v (distances u + 1)) (q ++ [v]) (distances u) := by
  have hb := h.behind u hu
  have hlt := hb.lt_unreached hg hstart (hg.adj_lt he) hv
  have hself : Function.update distances v (distances u + 1) v = distances u + 1 :=
    Function.update_self _ _ _
  have hne : ∀ x, distances x ≠ unreached →
      Function.update distances v (distances u + 1) x = distances x :=
    fun x hx => Function.update_of_ne (fun heq => hx (by rw [heq, hv])) _ _
  have hle : ∀ x, Function.update distances v (distances u + 1) x ≤ distances x := by
    intro x
    by_cases hx : x = v
    · rw [hx, hself, hv]
      exact Nat.le_of_lt hlt
    · rw [Function.update_of_ne hx]
  refine ⟨?_, fun x hx => ?_, fun x hx => ?_, ?_, fun x hx => ?_, fun x hx => ?_⟩
  · rw [hne start (by rw [h.startLabel]; decide)]
    exact h.startLabel
  · by_cases hxv : x = v
    · rw [hxv, hself]
      exact hb.extend he (by rw [hv]; exact hlt) hle hself
    · rw [Function.update_of_ne hxv] at hx ⊢
      exact (h.behind x hx).mono hle
  · rcases List.mem_append.mp hx with hx | hx
    · rw [hne x (h.reached x hx)]
      exact h.reached x hx
    · rw [List.mem_singleton.mp hx, hself]
      exact Nat.ne_of_lt hlt
  · rw [List.pairwise_append]
    refine ⟨h.sorted.imp_of_mem fun ha hb hab => ?_, List.pairwise_singleton _ _,
      fun a ha b hb => ?_⟩
    · rw [hne _ (h.reached _ ha), hne _ (h.reached _ hb)]
      exact hab
    · rw [List.mem_singleton.mp hb, hself, hne a (h.reached a ha)]
      exact h.le_high a (h.reached a ha)
  · rcases List.mem_append.mp hx with hx | hx
    · rw [hne x (h.reached x hx)]
      exact h.ge_low x hx
    · rw [List.mem_singleton.mp hx, hself]
      exact Nat.le_succ _
  · by_cases hxv : x = v
    · rw [hxv, hself]
    · rw [Function.update_of_ne hxv] at hx ⊢
      exact h.le_high x hx

/-- The next waiting node takes over. -/
theorem Frontier.next {distances : Nat → Nat} {q : List Nat} {x low : Nat}
    (h : Frontier g start distances (x :: q) low) :
    Frontier g start distances q (distances x) where
  startLabel := h.startLabel
  behind := h.behind
  reached y hy := h.reached y (List.mem_cons_of_mem _ hy)
  sorted := (List.pairwise_cons.mp h.sorted).2
  ge_low := (List.pairwise_cons.mp h.sorted).1
  le_high v hv := (h.le_high v hv).trans (Nat.succ_le_succ (h.ge_low x List.mem_cons_self))

theorem card_unreachedNodes_update {distances : Nat → Nat} {v d : Nat} (hv : v < g.numNodes)
    (hun : distances v = unreached) (hd : d ≠ unreached) :
    (unreachedNodes g (Function.update distances v d)).card + 1 =
      (unreachedNodes g distances).card := by
  have hmem : v ∈ unreachedNodes g distances :=
    Finset.mem_filter.mpr ⟨Finset.mem_range.mpr hv, hun⟩
  have heq : unreachedNodes g (Function.update distances v d) =
      (unreachedNodes g distances).erase v := by
    ext x
    by_cases hx : x = v
    · simp [unreachedNodes, hx, hd]
    · simp [unreachedNodes, hx]
  rw [heq, Finset.card_erase_add_one hmem]

end Frontier

/-! ## §3 — one round -/

section Rounds

variable {g : Graph} {start : Nat}

/-- Every node waits at most once: those waiting and those unreached are not more than all, and the
counters of the buffer have not come further either. -/
structure Room (g : Graph) (s : Search) (q : List Nat) : Prop where
  holds : s.nodes.Holds q
  capacity : g.numNodes ≤ s.nodes.c.size
  nodes : q.length + (unreachedNodes g s.distances).card ≤ g.numNodes
  head : s.nodes.head + (unreachedNodes g s.distances).card ≤ g.numNodes

theorem Room.reach {s : Search} {q : List Nat} {v d : Nat} (h : Room g s q) (hg : g.Fits)
    (hv : v < g.numNodes) (hun : s.distances v = unreached) (hd : d ≠ unreached) :
    Room g ⟨s.nodes.push v, Function.update s.distances v d⟩ (q ++ [v]) := by
  have hcard := card_unreachedNodes_update hv hun hd
  have hn := hg.le
  have hcapacity := h.capacity
  have hnodes := h.nodes
  have hhead := h.head
  refine ⟨h.holds.push (by omega) (by omega) v, ?_, ?_, ?_⟩
  · show g.numNodes ≤ (s.nodes.c.setIfInBounds _ v).size
    rw [Array.size_setIfInBounds]
    exact hcapacity
  · show (q ++ [v]).length + (unreachedNodes g (Function.update s.distances v d)).card ≤ _
    rw [List.length_append, List.length_singleton]
    omega
  · show (s.nodes.head + 1) % 2 ^ 64 +
      (unreachedNodes g (Function.update s.distances v d)).card ≤ g.numNodes
    rw [Nat.mod_eq_of_lt (by omega)]
    omega

/-- The state of the inner loop for node `u`, before entry `i` of its edges. -/
structure Expanding (g : Graph) (start u i : Nat) (s : Search) (q : List Nat) : Prop where
  frontier : Frontier g start s.distances q (s.distances u)
  room : Room g s q
  reached : s.distances u ≠ unreached
  closed : Closed g s.distances fun j x => x ∉ q ∧ (x = u → j < i)

theorem Expanding.visit {u i d : Nat} {s : Search} {q : List Nat} (hg : g.Fits)
    (hstart : start < g.numNodes) (h : Expanding g start u i s q) (hd : d = s.distances u + 1)
    (hfirst : g.firstEdge u ≤ i) (hlast : i < g.lastEdge u) :
    ∃ q', Expanding g start u (i + 1) (visit g d s i) q' ∧
      (visit g d s i).distances u = s.distances u ∧
      q'.length + (unreachedNodes g (Bfs.visit g d s i).distances).card =
        q.length + (unreachedNodes g s.distances).card := by
  have hedge : g.EdgeAt i u (g.target i) := ⟨hfirst, hlast, rfl⟩
  have hlt := hg.target_lt hlast
  unfold Bfs.visit
  split
  · rename_i hun
    subst hd
    have hwidth : g.target i % 2 ^ 32 = g.target i := by
      have := hg.le
      exact Nat.mod_eq_of_lt (by omega)
    have htop := (h.frontier.behind u h.reached).lt_unreached hg hstart hlt hun
    have hne : ∀ x, s.distances x ≠ unreached →
        Function.update s.distances (g.target i) (s.distances u + 1) x = s.distances x :=
      fun x hx => Function.update_of_ne (fun heq => hx (by rw [heq, hun])) _ _
    have hfrontier := h.frontier.reach hg hstart h.reached ⟨i, hedge⟩ hun
    rw [hwidth]
    refine ⟨q ++ [g.target i], ⟨?_, h.room.reach hg hlt hun (Nat.ne_of_lt htop), ?_, ?_⟩,
      hne u h.reached, ?_⟩
    · simp only [hne u h.reached]
      exact hfrontier
    · simp only [hne u h.reached]
      exact h.reached
    · intro j x v he hdone hx
      dsimp only at hx ⊢
      have hxq : x ∉ q := fun hmem => hdone.1 (List.mem_append_left _ hmem)
      have hxt : x ≠ g.target i := fun heq =>
        hdone.1 (List.mem_append_right _ (List.mem_singleton.mpr heq))
      rw [Function.update_of_ne hxt] at hx ⊢
      by_cases hvt : v = g.target i
      · rw [hvt, Function.update_self]
        -- the edge just looked at, or one that would have reached the node before
        by_cases hxu : x = u
        · rw [hxu]
          exact ⟨Nat.ne_of_lt htop, Nat.le_refl _⟩
        · exact absurd (hvt ▸ hun) (h.closed j x v he ⟨hxq, fun h => absurd h hxu⟩ hx).1
      · rw [Function.update_of_ne hvt]
        by_cases hji : x = u ∧ j = i
        · exact absurd (he.target.symm.trans (by rw [hji.2])) hvt
        · refine h.closed j x v he ⟨hxq, fun hxu => ?_⟩ hx
          have := hdone.2 hxu
          have : j ≠ i := fun hj => hji ⟨hxu, hj⟩
          omega
    · have hcard := card_unreachedNodes_update hlt hun (Nat.ne_of_lt htop)
      rw [List.length_append, List.length_singleton]
      show q.length + 1 +
        (unreachedNodes g (Function.update s.distances (g.target i) (s.distances u + 1))).card = _
      omega
  · rename_i hre
    refine ⟨q, ⟨h.frontier, h.room, h.reached, ?_⟩, rfl, rfl⟩
    intro j x v he hdone hx
    by_cases hji : x = u ∧ j = i
    · obtain ⟨rfl, rfl⟩ := hji
      rw [← he.target]
      exact ⟨hre, h.frontier.le_high _ hre⟩
    · refine h.closed j x v he ⟨hdone.1, fun hxu => ?_⟩ hx
      have := hdone.2 hxu
      have : j ≠ i := fun hj => hji ⟨hxu, hj⟩
      omega

/-- The inner loop. -/
theorem Expanding.foldl {u d : Nat} (hg : g.Fits) (hstart : start < g.numNodes) (k : Nat) :
    ∀ {i : Nat} {s : Search} {q : List Nat}, Expanding g start u i s q → d = s.distances u + 1 →
      g.firstEdge u ≤ i → i + k ≤ g.lastEdge u →
      ∃ q', Expanding g start u (i + k) ((List.range' i k).foldl (Bfs.visit g d) s) q' ∧
        q'.length + (unreachedNodes g ((List.range' i k).foldl (Bfs.visit g d) s).distances).card =
          q.length + (unreachedNodes g s.distances).card := by
  induction k with
  | zero =>
      intro i s q h _ _ _
      exact ⟨q, h, rfl⟩
  | succ k ih =>
      intro i s q h hd hfirst hlast
      obtain ⟨q', h', hkeep, hcount⟩ := h.visit hg hstart hd hfirst (by omega)
      obtain ⟨q'', h'', hcount'⟩ := ih h' (by rw [hkeep]; exact hd) (by omega) (by omega)
      rw [List.range'_succ, List.foldl_cons]
      refine ⟨q'', ?_, hcount'.trans hcount⟩
      rw [show i + (k + 1) = i + 1 + k by omega]
      exact h''

/-- The state between two rounds of the outer loop. -/
structure Between (g : Graph) (start : Nat) (s : Search) (q : List Nat) : Prop where
  frontier : ∃ low, Frontier g start s.distances q low
  room : Room g s q
  closed : Closed g s.distances fun _ x => x ∉ q

/-- A round begins with the oldest waiting node taken out. -/
theorem Between.enter {s : Search} {x : Nat} {q : List Nat} (h : Between g start s (x :: q)) :
    Expanding g start x (g.firstEdge x) { s with nodes := s.nodes.pop } q := by
  obtain ⟨low, hfrontier⟩ := h.frontier
  have hx := hfrontier.reached x List.mem_cons_self
  have hnodes := h.room.nodes
  rw [List.length_cons] at hnodes
  have hroom : Room g { s with nodes := s.nodes.pop } q :=
    ⟨h.room.holds.pop, h.room.capacity,
      (by omega : q.length + (unreachedNodes g s.distances).card ≤ g.numNodes), h.room.head⟩
  refine ⟨hfrontier.next, hroom, hx, fun j y v he hdone hy => ?_⟩
  refine h.closed j y v he (fun hmem => ?_) hy
  rcases List.mem_cons.mp hmem with rfl | hmem
  · have := hdone.2 rfl
    have := he.first
    omega
  · exact hdone.1 hmem

/-- The label the neighbours of the oldest waiting node get. -/
theorem Between.addOne_eq {s : Search} {x : Nat} {q : List Nat} (hg : g.Fits)
    (hstart : start < g.numNodes) (h : Between g start s (x :: q)) :
    addOne (s.distances x) = s.distances x + 1 := by
  obtain ⟨low, hfrontier⟩ := h.frontier
  exact (hfrontier.behind x (hfrontier.reached x List.mem_cons_self)).addOne_eq hg hstart

theorem Between.expand {s : Search} {x : Nat} {q : List Nat} (hg : g.Fits)
    (hstart : start < g.numNodes) (h : Between g start s (x :: q)) :
    ∃ q', Between g start (expand g s) q' ∧
      q'.length + (unreachedNodes g (Bfs.expand g s).distances).card =
        q.length + (unreachedNodes g s.distances).card := by
  have hfirst := h.enter
  unfold Bfs.expand
  simp only [h.room.holds.top_eq, h.addOne_eq hg hstart]
  by_cases hedges : g.firstEdge x ≤ g.lastEdge x
  · obtain ⟨q', h', hcount⟩ := hfirst.foldl hg hstart (g.lastEdge x - g.firstEdge x) rfl
      (Nat.le_refl _) (by omega)
    refine ⟨q', ⟨⟨_, h'.frontier⟩, h'.room, fun j y v he hdone hy => ?_⟩, hcount⟩
    refine h'.closed j y v he ⟨hdone, fun hyx => ?_⟩ hy
    have := he.last
    rw [hyx] at this
    omega
  · rw [Nat.sub_eq_zero_of_le (by omega)]
    refine ⟨q, ⟨⟨_, hfirst.frontier⟩, hfirst.room, fun j y v he hdone hy => ?_⟩, rfl⟩
    refine hfirst.closed j y v he ⟨hdone, fun hyx => ?_⟩ hy
    have := he.first
    have := he.last
    rw [hyx] at *
    omega

/-- The outer loop: every round takes one node from those waiting or unreached. -/
theorem searchLoop_spec (hg : g.Fits) (hstart : start < g.numNodes) (fuel : Nat) :
    ∀ {s : Search} {q : List Nat}, Between g start s q →
      q.length + (unreachedNodes g s.distances).card ≤ fuel →
      ∃ s', searchLoop g fuel s = some s' ∧ Between g start s' [] := by
  induction fuel with
  | zero =>
      intro s q h hfuel
      have hq : q = [] := List.length_eq_zero_iff.mp (by omega)
      refine ⟨s, ?_, hq ▸ h⟩
      rw [searchLoop, if_pos (h.room.holds.empty_iff.mpr hq)]
  | succ fuel ih =>
      intro s q h hfuel
      unfold searchLoop
      cases q with
      | nil => exact ⟨s, by rw [if_pos (h.room.holds.empty_iff.mpr rfl)], h⟩
      | cons x q =>
          rw [if_neg fun hempty => List.cons_ne_nil _ _ (h.room.holds.empty_iff.mp hempty)]
          obtain ⟨q', h', hcount⟩ := h.expand hg hstart
          rw [List.length_cons] at hfuel
          exact ih h' (by omega)

theorem Between.init (hg : g.Fits) (hstart : start < g.numNodes) :
    Between g start (Search.init g start) [start] := by
  have hn := hg.le
  have hone : Function.update (fun _ => unreached) start 1 start = 1 := Function.update_self _ _ _
  have hreached : ∀ v, Function.update (fun _ => unreached) start 1 v ≠ unreached → v = start := by
    intro v hv
    by_contra hne
    exact hv (Function.update_of_ne hne _ _)
  have hcard : (unreachedNodes g (fun _ => unreached)).card = g.numNodes := by
    simp [unreachedNodes]
  have hempty : Room g ⟨RingBuffer.make (bitCeil g.numNodes), fun _ => unreached⟩ [] :=
    ⟨RingBuffer.Holds.make _, by simpa [RingBuffer.make] using le_bitCeil g.numNodes,
      by rw [hcard]; simp, by rw [hcard]; simp [RingBuffer.make]⟩
  have hroom := hempty.reach hg hstart rfl (d := 1) (by decide)
  unfold Search.init
  rw [Nat.mod_eq_of_lt (by omega)]
  refine ⟨⟨1, hone, fun v hv => ?_, ?_, List.pairwise_singleton _ _, ?_, fun v hv => ?_⟩, hroom,
    fun j u v _ hdone hu => absurd (hreached u hu) fun heq => hdone (List.mem_singleton.mpr heq)⟩
  · rw [hreached v hv]
    simp only [hone]
    exact Behind.single (Nat.le_of_eq hone)
  · intro x hx
    rw [List.mem_singleton.mp hx]
    simp only [hone]
    decide
  · intro x hx
    rw [List.mem_singleton.mp hx]
    exact Nat.le_of_eq hone.symm
  · rw [hreached v hv]
    simp only [hone]
    decide

/-- **`sequential_bfs` terminates, and its labels are settled.** -/
theorem sequentialBfs_spec (hg : g.Fits) (hstart : start < g.numNodes) :
    ∃ distances : Nat → Nat, Settled g start distances ∧
      sequentialBfs g start = some (((List.range g.numNodes).map distances).foldl max 0,
        (List.range g.numNodes).map distances) := by
  have hinit := Between.init hg hstart
  obtain ⟨s, hs, hdone⟩ := searchLoop_spec hg hstart g.numNodes hinit hinit.room.nodes
  obtain ⟨low, hfrontier⟩ := hdone.frontier
  refine ⟨s.distances, ⟨hfrontier.startLabel, hfrontier.behind, ?_⟩, ?_⟩
  · rintro u v ⟨i, hi⟩ hu
    exact hdone.closed i u v hi List.not_mem_nil hu
  · rw [sequentialBfs, hs]
    rfl

end Rounds

/-! ## §4 — the whole search -/

section Search

variable {g : Graph} {start : Nat}

/-- The states at the head of the outer loop. -/
inductive AtHead (g : Graph) (startNode : Nat) : Search → Prop where
  | init : AtHead g startNode (Search.init g startNode)
  | round {s : Search} : AtHead g startNode s → s.nodes.empty = false →
      AtHead g startNode (expand g s)

/-- The state inside the round that starts in `s`, after `k` edges of the node it takes. -/
def afterEdges (g : Graph) (s : Search) (k : Nat) : Search :=
  (List.range' (g.firstEdge s.nodes.top) k).foldl (visit g (addOne (s.distances s.nodes.top)))
    { s with nodes := s.nodes.pop }

/-- The states the search goes through, at the head of the outer loop and inside its rounds. -/
inductive Passes (g : Graph) (startNode : Nat) : Search → Prop where
  | head {s : Search} : AtHead g startNode s → Passes g startNode s
  | inRound {s : Search} (k : Nat) : AtHead g startNode s → s.nodes.empty = false →
      k ≤ g.lastEdge s.nodes.top - g.firstEdge s.nodes.top → Passes g startNode (afterEdges g s k)

theorem AtHead.between {s : Search} (hg : g.Fits) (hstart : start < g.numNodes)
    (h : AtHead g start s) : ∃ q, Between g start s q := by
  induction h with
  | init => exact ⟨_, Between.init hg hstart⟩
  | round _ hne ih =>
      obtain ⟨q, hq⟩ := ih
      cases q with
      | nil => rw [hq.room.holds.empty_iff.mpr rfl] at hne; cases hne
      | cons x q =>
          obtain ⟨q', hq', -⟩ := hq.expand hg hstart
          exact ⟨q', hq'⟩

theorem Passes.room {s : Search} (hg : g.Fits) (hstart : start < g.numNodes)
    (h : Passes g start s) : ∃ q, Room g s q := by
  cases h with
  | head h =>
      obtain ⟨q, hq⟩ := h.between hg hstart
      exact ⟨q, hq.room⟩
  | @inRound s k h hne hk =>
      obtain ⟨q, hq⟩ := h.between hg hstart
      cases q with
      | nil => rw [hq.room.holds.empty_iff.mpr rfl] at hne; cases hne
      | cons x q =>
          rw [hq.room.holds.top_eq] at hk
          unfold afterEdges
          rw [hq.room.holds.top_eq, hq.addOne_eq hg hstart]
          by_cases hedges : g.firstEdge x ≤ g.lastEdge x
          · obtain ⟨q', h', -⟩ := hq.enter.foldl hg hstart k rfl (Nat.le_refl _) (by omega)
            exact ⟨q', h'.room⟩
          · rw [show k = 0 by omega]
            exact ⟨q, hq.enter.room⟩

theorem visit_capacity (g : Graph) (d : Nat) (s : Search) (i : Nat) :
    (visit g d s i).nodes.c.size = s.nodes.c.size := by
  unfold visit
  split
  · exact Array.size_setIfInBounds
  · rfl

theorem foldl_visit_capacity (g : Graph) (d : Nat) (l : List Nat) (s : Search) :
    (l.foldl (visit g d) s).nodes.c.size = s.nodes.c.size := by
  induction l generalizing s with
  | nil => rfl
  | cons i l ih =>
      rw [List.foldl_cons, ih]
      exact visit_capacity g d s i

theorem AtHead.capacity {s : Search} (h : AtHead g start s) :
    s.nodes.c.size = bitCeil g.numNodes := by
  induction h with
  | init => simp [Search.init, RingBuffer.push, RingBuffer.make]
  | round _ _ ih => exact (foldl_visit_capacity _ _ _ _).trans ih

theorem Passes.capacity {s : Search} (h : Passes g start s) :
    s.nodes.c.size = bitCeil g.numNodes := by
  cases h with
  | head h => exact h.capacity
  | inRound k h => exact (foldl_visit_capacity _ _ _ _).trans h.capacity

/-- **`sequential_bfs` is a breadth-first search.** In no state it goes through does the ring buffer
hold more than its capacity; it terminates, and the vector it returns holds one more than the least
number of edges from the start node, or the marker where there is no path. -/
theorem sequentialBfs_isBfs (hg : g.Fits) (hstart : start < g.numNodes) :
    (∀ s, Passes g start s →
      s.nodes.c.size = bitCeil g.numNodes ∧ s.nodes.size ≤ s.nodes.c.size) ∧
    ∃ longest distances, sequentialBfs g start = some (longest, distances) ∧
      distances.length = g.numNodes ∧
      ∀ v < g.numNodes,
        (∀ k, Distance g.Adj start v k → distances[v]? = some (1 + k)) ∧
        ((∀ k, ¬ Walk g.Adj start k v) → distances[v]? = some (2 ^ 32 - 1)) := by
  refine ⟨fun s hs => ⟨hs.capacity, ?_⟩, ?_⟩
  · obtain ⟨q, hq⟩ := hs.room hg hstart
    rw [hq.holds.size_eq]
    exact hq.holds.fits
  · obtain ⟨distances, hsettled, hrun⟩ := sequentialBfs_spec hg hstart
    have hbfs := hsettled.isBfs
    have hentry : ∀ v < g.numNodes,
        ((List.range g.numNodes).map distances)[v]? = some (distances v) := by
      intro v hv
      rw [List.getElem?_map, List.getElem?_range hv, Option.map_some]
    refine ⟨_, _, hrun, by simp, fun v hv => ⟨fun k hk => ?_, fun hno => ?_⟩⟩
    · rw [hentry v hv, hbfs.reachable v k hk, Nat.add_comm]
    · rw [hentry v hv, hbfs.unreachable v hno, unreached]

/-- Node 0 has an edge to node 1, node 2 has none to or from it. -/
def edgeAndPoint : Graph where
  nodes := #[0, 1, 1, 1]
  edges := #[⟨1, 5⟩]
  offsets := by decide

theorem sequentialBfs_isBfs_edgeAndPoint :
    edgeAndPoint.Fits ∧ 0 < edgeAndPoint.numNodes ∧
      ∃ longest distances, sequentialBfs edgeAndPoint 0 = some (longest, distances) ∧
        distances.length = 3 ∧ distances[0]? = some 1 := by
  have hfits : edgeAndPoint.Fits := ⟨by decide, by decide, by decide⟩
  have hstart : 0 < edgeAndPoint.numNodes := by decide
  obtain ⟨-, longest, distances, hrun, hlength, hlabels⟩ := sequentialBfs_isBfs hfits hstart
  have hzero : Distance edgeAndPoint.Adj 0 0 0 := ⟨.nil, fun _ _ => Nat.zero_le _⟩
  exact ⟨hfits, hstart, longest, distances, hrun, hlength, (hlabels 0 hstart).1 0 hzero⟩

end Search

end RelaxedConcurrentFifo.Bfs
