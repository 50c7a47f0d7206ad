/-
# RelaxedConcurrentFifo.TwoDdQueue.Sequential — calls to the 2Dd queue are those of a relaxed queue

The lists of the queue are the columns of a queue of windows (`Represents`). `put_window` and
`get_window` go through all columns before they move a window, so that a window is moved only when every
column has come to its end; and they come to an end after a bounded number of passes.

`ssalloc` hands out memory behind the end of a thread's arena after a mere warning, so a thread must not
push more than its arena holds.
-/
import RelaxedConcurrentFifo.TwoDdQueue.Machine
import RelaxedConcurrentFifo.Lib.WindowQueues
import RelaxedConcurrentFifo.Lib.LinkedLists

namespace RelaxedConcurrentFifo.TwoDdQueue

open RelaxedConcurrentFifo.Lib.RelaxedQueues
open RelaxedConcurrentFifo.Lib.WindowQueues
open RelaxedConcurrentFifo.Lib.LinkedLists (Segment segment_append)

/-! ## §1 — the lists -/

/-- The pointer of the node at `a`. -/
def Shared.next (s : Shared) (a : Addr) : Option Addr := (s.memory a).bind Node.next

/-- The nodes of list `i`, with the dummy node at its front, hold `values`. -/
structure IsList (s : Shared) (i : Nat) (nodes : List Addr) (values : List Nat) : Prop where
  nodup : nodes.Nodup
  forward : Segment s.next (some (s.getArray i).node) nodes none
  last : nodes.getLast? = some (s.putArray i).node
  values : nodes.tail.map (fun a => (s.memory a).map Node.val) = values.map some
  allocated : ∀ a ∈ nodes, a < s.fresh ∧ (s.memory a).isSome

namespace IsList

variable {s s' : Shared} {i : Nat} {nodes : List Addr} {values : List Nat} {a : Addr}

/-- Nothing has changed at the list. -/
theorem congr (h : IsList s i nodes values) (hget : s'.getArray i = s.getArray i)
    (hput : s'.putArray i = s.putArray i) (hmemory : ∀ a ∈ nodes, s'.memory a = s.memory a)
    (halloc : s.fresh ≤ s'.fresh) : IsList s' i nodes values := by
  refine ⟨h.nodup, ?_, by rw [hput]; exact h.last, ?_, fun a ha => ?_⟩
  · rw [hget]
    exact h.forward.congr fun a ha => by rw [Shared.next, Shared.next, hmemory a ha]
  · rw [← h.values]
    exact List.map_congr_left fun a ha => by rw [hmemory a (List.mem_of_mem_tail ha)]
  · rw [hmemory a ha]
    exact ⟨(h.allocated a ha).1.trans_le halloc, (h.allocated a ha).2⟩

/-- The first node is the one that the descriptor for getting points to. -/
theorem nodes_eq (h : IsList s i nodes values) :
    ∃ l, nodes = (s.getArray i).node :: l ∧ l.length = values.length := by
  have hforward := h.forward
  cases nodes with
  | nil => cases hforward
  | cons a l =>
      obtain ⟨hfirst, -⟩ := hforward
      have hlength := congrArg List.length h.values
      rw [List.length_map, List.length_map] at hlength
      exact ⟨l, by rw [Option.some.inj hfirst], hlength⟩

/-- The last node has no successor. -/
theorem next_last (h : IsList s i nodes values) :
    ∃ l, nodes = l ++ [(s.putArray i).node] ∧ s.next (s.putArray i).node = none := by
  obtain ⟨l, hnodes⟩ := List.getLast?_eq_some_iff.mp h.last
  have hforward := h.forward
  rw [hnodes] at hforward
  obtain ⟨_, -, hmid, hnext⟩ := segment_append.mp hforward
  exact ⟨l, hnodes, hnext⟩

/-- A new node is linked behind the last one. -/
theorem link (h : IsList s i nodes values) {new : Addr} {tail nd : Node} (count : Nat)
    (hnew : new ∉ nodes) (htail : s.memory (s.putArray i).node = some tail)
    (hnd : s.memory new = some nd) (hnext : nd.next = none) (halloc : new < s.fresh)
    (hget : s'.getArray i = s.getArray i) (hput : s'.putArray i = ⟨new, count⟩)
    (hmemory : s'.memory =
      Function.update s.memory (s.putArray i).node (some { tail with next := some new }))
    (hfresh : s'.fresh = s.fresh) :
    IsList s' i (nodes ++ [new]) (values ++ [nd.val]) := by
  obtain ⟨l, hnodes, hlast⟩ := h.next_last
  have hne : new ≠ (s.putArray i).node := fun heq => hnew (by rw [hnodes, heq]; simp)
  have hother : ∀ a, a ≠ (s.putArray i).node → s'.memory a = s.memory a := by
    intro a ha
    rw [hmemory, Function.update_of_ne ha]
  have hself : s'.memory (s.putArray i).node = some { tail with next := some new } := by
    rw [hmemory, Function.update_self]
  -- only a `next` is written, so all values stay
  have hval : ∀ a, (s'.memory a).map Node.val = (s.memory a).map Node.val := by
    intro a
    by_cases ha : a = (s.putArray i).node
    · rw [ha, hself, htail]
      rfl
    · rw [hother a ha]
  refine ⟨?_, ?_, by rw [List.getLast?_append, hput]; rfl, ?_, fun a ha => ?_⟩
  · exact List.nodup_append.mpr ⟨h.nodup, List.nodup_singleton _, by
      rintro a ha b hb rfl
      exact hnew (List.mem_singleton.mp hb ▸ ha)⟩
  · have hforward := h.forward
    have hnodup := h.nodup
    rw [hnodes] at hforward hnodup
    obtain ⟨mid, hbefore, hmid, -⟩ := segment_append.mp hforward
    rw [hget, hnodes, List.append_assoc]
    refine segment_append.mpr ⟨mid, hbefore.congr fun a ha => ?_, hmid, ?_⟩
    · rw [Shared.next, Shared.next, hother a]
      rintro rfl
      exact (List.nodup_append.mp hnodup).2.2 _ ha _ (List.mem_singleton_self _) rfl
    · show s'.next (s.putArray i).node = some new ∧ s'.next new = none
      rw [Shared.next, Shared.next, hself, hother new hne, hnd]
      exact ⟨rfl, hnext⟩
  · obtain ⟨l', hnodes', -⟩ := h.nodes_eq
    have hvalues := h.values
    rw [hnodes', List.tail_cons] at hvalues
    rw [hnodes', List.cons_append, List.tail_cons, List.map_append, List.map_append, ← hvalues]
    simp only [hval, List.map_cons, List.map_nil, hnd, Option.map_some]
  · rw [hfresh]
    rcases List.mem_append.mp ha with ha | ha
    · refine ⟨(h.allocated a ha).1, ?_⟩
      rw [← Option.isSome_map (f := Node.val), hval, Option.isSome_map]
      exact (h.allocated a ha).2
    · rw [List.mem_singleton.mp ha, hother new hne, hnd]
      exact ⟨halloc, rfl⟩

/-- The node behind the dummy node becomes the dummy node, and the old one is freed. -/
theorem unlink {v : Nat} {x : Addr} {l : List Addr}
    (h : IsList s i ((s.getArray i).node :: x :: l) (v :: values)) (count : Nat)
    (hget : s'.getArray i = ⟨x, count⟩) (hput : s'.putArray i = s.putArray i)
    (hmemory : ∀ a ∈ x :: l, s'.memory a = s.memory a) (hfresh : s'.fresh = s.fresh) :
    IsList s' i (x :: l) values := by
  obtain ⟨-, hforward⟩ := h.forward
  have hvalues := h.values
  rw [List.tail_cons, List.map_cons, List.map_cons] at hvalues
  refine ⟨(List.nodup_cons.mp h.nodup).2, ?_, ?_, ?_, fun a ha => ?_⟩
  · rw [hget]
    refine Segment.congr ⟨rfl, hforward.2⟩ fun a ha => ?_
    rw [Shared.next, Shared.next, hmemory a ha]
  · rw [hput, ← h.last, List.getLast?_cons_cons]
  · rw [List.tail_cons, ← (List.cons.inj hvalues).2]
    exact List.map_congr_left fun a ha => by rw [hmemory a (List.mem_cons_of_mem x ha)]
  · rw [hmemory a ha, hfresh]
    exact h.allocated a (List.mem_cons_of_mem _ ha)

/-- A list without elements has the dummy node only. -/
theorem first_none (h : IsList s i nodes []) :
    (s.getArray i).node = (s.putArray i).node ∧
      ∃ head, s.memory (s.getArray i).node = some head ∧ head.next = none := by
  obtain ⟨l, hnodes, hlength⟩ := h.nodes_eq
  rw [List.length_eq_zero_iff.mp hlength] at hnodes
  have hlast := h.last
  have hforward := h.forward
  rw [hnodes] at hlast hforward
  have hmem : (s.getArray i).node ∈ nodes := by
    rw [hnodes]
    exact List.mem_cons_self
  obtain ⟨head, hhead⟩ := Option.isSome_iff_exists.mp (h.allocated _ hmem).2
  have hnext : s.next (s.getArray i).node = none := hforward.2
  rw [Shared.next, hhead] at hnext
  exact ⟨Option.some.inj hlast, head, hhead, hnext⟩

/-- The node of the first element. -/
theorem first {v : Nat} (h : IsList s i nodes (v :: values)) :
    (s.getArray i).node ≠ (s.putArray i).node ∧
      ∃ a l head node, nodes = (s.getArray i).node :: a :: l ∧
        s.memory (s.getArray i).node = some head ∧ head.next = some a ∧ s.memory a = some node ∧
        node.val = v ∧ a ≠ (s.getArray i).node := by
  obtain ⟨l, hnodes, hlength⟩ := h.nodes_eq
  obtain ⟨a, l, rfl⟩ := List.exists_cons_of_length_eq_add_one hlength
  have hnodup := h.nodup
  have hlast := h.last
  have hforward := h.forward
  have hvalues := h.values
  rw [hnodes] at hnodup hlast hforward hvalues
  rw [List.getLast?_cons_cons] at hlast
  have hnot := (List.nodup_cons.mp hnodup).1
  have hmem : (s.getArray i).node ∈ nodes := by
    rw [hnodes]
    exact List.mem_cons_self
  obtain ⟨head, hhead⟩ := Option.isSome_iff_exists.mp (h.allocated _ hmem).2
  have hnext : s.next (s.getArray i).node = some a := hforward.2.1
  rw [Shared.next, hhead] at hnext
  obtain ⟨node, hnode, hval⟩ := Option.map_eq_some_iff.mp (List.cons.inj hvalues).1
  refine ⟨fun heq => hnot ?_, a, l, head, node, hnodes, hhead, hnext, hnode, hval, fun heq => hnot ?_⟩
  · rw [heq]
    exact List.mem_of_getLast? hlast
  · rw [← heq]
    exact List.mem_cons_self

end IsList

/-! ## §2 — loops that go around the columns -/

section Loops

variable {X R : Type} {pass : Nat → X → Option R × X} {P : R → X → Prop} {x : X} {n m : Nat}

/-- Whatever is drawn, the loop returns after at most `n` passes, with `P`. -/
def Returns (pass : Nat → X → Option R × X) (P : R → X → Prop) (n : Nat) (x : X) : Prop :=
  ∀ draws, ∃ r x', P r x' ∧ ∀ fuel, n ≤ fuel → loop pass fuel draws x = some (r, x')

theorem Returns.done (h : ∀ draw, ∃ r x', pass draw x = (some r, x') ∧ P r x') :
    Returns pass P (n + 1) x := by
  intro draws
  obtain ⟨r, x', hpass, hP⟩ := h (draws 0)
  refine ⟨r, x', hP, fun fuel hfuel => ?_⟩
  obtain ⟨fuel, rfl⟩ := Nat.exists_eq_add_of_le' (Nat.le_of_add_left_le hfuel)
  rw [loop, hpass]

theorem Returns.next (h : ∀ draw, ∃ x', pass draw x = (none, x') ∧ Returns pass P n x') :
    Returns pass P (n + 1) x := by
  intro draws
  obtain ⟨x₁, hpass, hnext⟩ := h (draws 0)
  obtain ⟨r, x', hP, hloop⟩ := hnext fun i => draws (i + 1)
  refine ⟨r, x', hP, fun fuel hfuel => ?_⟩
  obtain ⟨fuel, rfl⟩ := Nat.exists_eq_add_of_le' (Nat.le_of_add_left_le hfuel)
  rw [loop, hpass]
  exact hloop fuel (by omega)

theorem Returns.mono (h : Returns pass P n x) (hle : n ≤ m) : Returns pass P m x := by
  intro draws
  obtain ⟨r, x', hP, hloop⟩ := h draws
  exact ⟨r, x', hP, fun fuel hfuel => hloop fuel (hle.trans hfuel)⟩

end Loops

variable {c : Config}

/-- How many times the thread can still hop before it has been around. -/
def Hops.rest (h : Hops) (c : Config) : Nat := (randomHops - h.random) + (c.width - h.hops)

/-- A thread has come to column `index`, and the columns it has hopped from, one after the other, had
`P`. -/
structure Around (c : Config) (P : Nat → Prop) (index : Nat) (h : Hops) : Prop where
  index_lt : index < c.width
  hops_le : h.hops ≤ c.width
  random : h.random < randomHops → h.hops = 0
  seen : ∀ m < h.hops, P ((index + c.width - 1 - m) % c.width)

namespace Around

variable {P : Nat → Prop} {index : Nat} {h : Hops}

theorem start (hindex : index < c.width) {random : Nat} : Around c P index ⟨0, random⟩ :=
  ⟨hindex, Nat.zero_le _, fun _ => rfl, fun m hm => absurd hm (Nat.not_lt_zero m)⟩

/-- A thread that cannot hop any more has been around. -/
theorem hops_eq (ha : Around c P index h) (hrest : h.rest c = 0) : h.hops = c.width := by
  have hle := ha.hops_le
  unfold Hops.rest at hrest
  omega

theorem hops_lt (ha : Around c P index h) (hrest : 0 < h.rest c) : h.hops < c.width := by
  have hle := ha.hops_le
  have hrandom := ha.random
  have hwidth := c.width_pos
  unfold Hops.rest at hrest
  omega

/-- After `width` hops all columns have been seen. -/
theorem all (ha : Around c P index h) (hhops : h.hops = c.width) : ∀ j < c.width, P j := by
  intro j hj
  have hindex := ha.index_lt
  by_cases hlt : j < index
  · have hseen := ha.seen (index - 1 - j) (by omega)
    rw [show index + c.width - 1 - (index - 1 - j) = j + c.width by omega, Nat.add_mod_right,
      Nat.mod_eq_of_lt hj] at hseen
    exact hseen
  · have hseen := ha.seen (index + c.width - 1 - j) (by omega)
    rw [show index + c.width - 1 - (index + c.width - 1 - j) = j by omega, Nat.mod_eq_of_lt hj] at hseen
    exact hseen

/-- A hop from a column with `P`. -/
theorem hop (ha : Around c P index h) (hP : P index) (hlt : h.hops < c.width) (draw : Nat) :
    Around c P (TwoDdQueue.hop c draw index h).1 (TwoDdQueue.hop c draw index h).2 ∧
      h.rest c = (TwoDdQueue.hop c draw index h).2.rest c + 1 := by
  have hindex := ha.index_lt
  unfold TwoDdQueue.hop
  split
  · rename_i hrandom
    have hzero := ha.random hrandom
    refine ⟨⟨Nat.mod_lt _ c.width_pos, ha.hops_le, fun _ => hzero, fun m hm => ?_⟩, ?_⟩
    · dsimp only at hm
      omega
    · unfold Hops.rest
      dsimp only
      omega
  · rename_i hrandom
    refine ⟨⟨?_, hlt, fun h => absurd h hrandom, fun m hm => ?_⟩, ?_⟩
    · dsimp only
      split
      · exact c.width_pos
      · omega
    · dsimp only at hm ⊢
      cases m with
      | zero =>
          split
          · rw [show 0 + c.width - 1 - 0 = index by omega, Nat.mod_eq_of_lt hindex]
            exact hP
          · rw [show index + 1 + c.width - 1 - 0 = index + c.width by omega, Nat.add_mod_right,
              Nat.mod_eq_of_lt hindex]
            exact hP
      | succ m =>
          have hseen := ha.seen m (by omega)
          split
          · rw [show index + c.width - 1 - m = (0 + c.width - 1 - (m + 1)) + c.width by omega,
              Nat.add_mod_right] at hseen
            exact hseen
          · rw [show index + 1 + c.width - 1 - (m + 1) = index + c.width - 1 - m by omega]
            exact hseen
    · unfold Hops.rest
      dsimp only
      omega

end Around

/-! ## §3 — the queue of windows -/

/-- The values of column `i`. -/
def columnValues (q : Board Nat) (i : Nat) : List Nat := (column q.cells i).map fun x => x.entry.item

/-- The queue stands for a queue of windows, with the nodes `nodes i` in list `i`. -/
structure Represents (c : Config) (s : Shared) (q : Board Nat) (nodes : Nat → List Addr) : Prop where
  ok : q.Ok c.width c.depth
  pWindow : s.pWindow = (q.high + 1) * c.depth
  gWindow : s.gWindow = (q.low + 1) * c.depth
  got : ∀ i < c.width, (s.getArray i).count = q.taken i
  put : ∀ i < c.width, (s.putArray i).count = q.added i
  lists : ∀ i < c.width, IsList s i (nodes i) (columnValues q i)
  apart : ∀ i < c.width, ∀ j < c.width, ∀ a ∈ nodes i, a ∈ nodes j → i = j

/-- What a thread keeps between two calls. -/
structure ThreadOk (c : Config) (s : Shared) (l : Thread) : Prop where
  gWindow : l.gWindow ≤ s.gWindow
  putIndex : l.putIndex < c.width
  getIndex : l.getIndex < c.width

variable {s s' : Shared} {l : Thread} {q : Board Nat} {nodes : Nat → List Addr}

theorem Shared.casPut_gWindow (s : Shared) (i : Nat) (expected desired : Descriptor) :
    (s.casPut i expected desired).2.gWindow = s.gWindow := by
  unfold Shared.casPut
  split
  · rfl
  · rfl

theorem Shared.casGet_self (s : Shared) (i : Nat) (desired : Descriptor) :
    s.casGet i (s.getArray i) desired =
      (true, { s with getArray := Function.update s.getArray i desired }) := if_pos rfl

theorem represents_init : Represents c (Shared.init c) (⟨[], fun _ => 0, 0, 0⟩ : Board Nat) fun i => [i] where
  ok := Board.ok_empty
  pWindow := by rw [Nat.zero_add, Nat.one_mul]; rfl
  gWindow := by rw [Nat.zero_add, Nat.one_mul]; rfl
  got _ _ := rfl
  put _ _ := rfl
  lists i hi := by
    have hmemory : (Shared.init c).memory i = some ⟨0, 0, none⟩ := if_pos hi
    refine ⟨List.nodup_singleton i, ⟨rfl, ?_⟩, rfl, rfl, fun a ha => ?_⟩
    · show (Shared.init c).next i = none
      rw [Shared.next, hmemory]
      rfl
    · rw [List.mem_singleton.mp ha, hmemory]
      exact ⟨hi, rfl⟩
  apart i _ j _ a hi hj := (List.mem_singleton.mp hi).symm.trans (List.mem_singleton.mp hj)

namespace Represents

/-- The window for putting goes on. -/
theorem widen (h : Represents c s q nodes) (hfull : ∀ i < c.width, (q.high + 1) * c.depth ≤ q.added i) :
    Represents c { s with pWindow := s.pWindow + c.depth } { q with high := q.high + 1 } nodes where
  ok := h.ok.widen hfull
  pWindow := by rw [h.pWindow, ← Nat.succ_mul]
  gWindow := h.gWindow
  got := h.got
  put := h.put
  lists i hi := (h.lists i hi).congr rfl rfl (fun _ _ => rfl) (Nat.le_refl _)
  apart := h.apart

/-- The window for getting goes on. -/
theorem advance (h : Represents c s q nodes) (hempty : ∀ i < c.width, (q.low + 1) * c.depth ≤ q.taken i)
    (hlt : q.low < q.high) :
    Represents c { s with gWindow := s.gWindow + c.depth } { q with low := q.low + 1 } nodes where
  ok := h.ok.advance hempty hlt
  pWindow := h.pWindow
  gWindow := by rw [h.gWindow, ← Nat.succ_mul]
  got := h.got
  put := h.put
  lists i hi := (h.lists i hi).congr rfl rfl (fun _ _ => rfl) (Nat.le_refl _)
  apart := h.apart

theorem gWindow_le (h : Represents c s q nodes) : s.gWindow ≤ s.pWindow := by
  rw [h.gWindow, h.pWindow]
  exact Nat.mul_le_mul_right _ (Nat.succ_le_succ h.ok.low_le)

end Represents

/-- What `put_window` returns: a column with room in the window, which it may have moved. -/
structure PutFound (c : Config) (s : Shared) (q : Board Nat) (nodes : Nat → List Addr) (l : Thread)
    (d : Descriptor) (s' : Shared) (l' : Thread) : Prop where
  moved : ∃ high, Represents c s' { q with high := high } nodes ∧
    q.added l'.putIndex < (high + 1) * c.depth
  descriptor : d = s'.putArray l'.putIndex
  memory : s'.memory = s.memory
  fresh : s'.fresh = s.fresh
  pWindow : l'.pWindow = s'.pWindow
  gWindow : l'.gWindow = l.gWindow
  allocNext : l'.allocNext = l.allocNext
  global : s'.gWindow = s.gWindow
  putIndex : l'.putIndex < c.width
  getIndex : l'.getIndex < c.width

/-- A pass of `put_window` at a column with room. -/
theorem putWindowPass_found (high : Nat) (hs : Represents c s' { q with high := high } nodes)
    (hmemory : s'.memory = s.memory) (halloc : s'.fresh = s.fresh)
    (hglobal : s'.gWindow = s.gWindow) {l' : Thread} {hp : Hops} (hpw : l'.pWindow = s'.pWindow)
    (hgw : l'.gWindow = l.gWindow) (harena : l'.allocNext = l.allocNext)
    (hindex : l'.putIndex < c.width) (hroom : q.added l'.putIndex < (high + 1) * c.depth) (draw : Nat) :
    ∃ r x, putWindowPass c draw (s', l', hp) = (some r, x) ∧ PutFound c s q nodes l r x.1 x.2.1 := by
  have hput := hs.put _ hindex
  have hlt : (s'.putArray l'.putIndex).count < l'.pWindow := by
    rw [hput, hpw, hs.pWindow]
    exact hroom
  refine ⟨s'.putArray l'.putIndex, (s', { l' with getIndex := l'.putIndex }, hp), ?_,
    ⟨high, hs, hroom⟩, rfl, hmemory, halloc, hpw, hgw, harena, hglobal, hindex, hindex⟩
  unfold putWindowPass
  dsimp only
  rw [if_neg (not_not_intro hpw), if_pos hlt]

/-- A pass of `put_window` at a column without room, before the thread has been around. -/
theorem putWindowPass_hop (h : Represents c s q nodes) {l' : Thread} {hp : Hops}
    (hpw : l'.pWindow = s.pWindow) (hindex : l'.putIndex < c.width)
    (hfull : (q.high + 1) * c.depth ≤ q.added l'.putIndex) (hlt : hp.hops < c.width) (draw : Nat) :
    putWindowPass c draw (s, l', hp) = (none, s,
      { l' with putIndex := (hop c draw l'.putIndex hp).1 }, (hop c draw l'.putIndex hp).2) := by
  have hput := h.put _ hindex
  unfold putWindowPass
  dsimp only
  rw [if_neg (not_not_intro hpw), if_neg, if_pos hlt]
  rw [hput, hpw, h.pWindow]
  exact Nat.not_lt.mpr hfull

/-- A pass of `put_window` when the thread has been around. -/
theorem putWindowPass_shift (h : Represents c s q nodes) {l' : Thread} {hp : Hops}
    (hpw : l'.pWindow = s.pWindow) (hindex : l'.putIndex < c.width)
    (hfull : (q.high + 1) * c.depth ≤ q.added l'.putIndex) (hhops : hp.hops = c.width) (draw : Nat) :
    putWindowPass c draw (s, l', hp) = (none, { s with pWindow := s.pWindow + c.depth },
      { l' with pWindow := s.pWindow + c.depth }, { hp with hops := 0 }) := by
  have hput := h.put _ hindex
  unfold putWindowPass
  dsimp only
  rw [if_neg (not_not_intro hpw), if_neg, if_neg (Nat.not_lt.mpr hhops.ge), if_pos hpw, casPWindow,
    if_pos hpw.symm, hpw]
  rw [hput, hpw, h.pWindow]
  exact Nat.not_lt.mpr hfull

/-- `put_window` goes around the columns once, at most. -/
theorem putWindow_returns (h : Represents c s q nodes) {hp : Hops} {l' : Thread}
    (hpw : l'.pWindow = s.pWindow) (hgw : l'.gWindow = l.gWindow)
    (harena : l'.allocNext = l.allocNext)
    (haround : Around c (fun j => (q.high + 1) * c.depth ≤ q.added j) l'.putIndex hp) :
    Returns (putWindowPass c) (fun r x => PutFound c s q nodes l r x.1 x.2.1) (hp.rest c + 2)
      (s, l', hp) := by
  have hindex := haround.index_lt
  -- by induction on the columns that are still to be seen
  generalize hrest : hp.rest c = n
  induction n generalizing hp l' with
  | zero =>
      by_cases hroom : q.added l'.putIndex < (q.high + 1) * c.depth
      · exact Returns.done (putWindowPass_found q.high h rfl rfl rfl hpw hgw harena hindex hroom)
      · -- all columns have come to the end of the window
        have hhops := haround.hops_eq hrest
        have hs := h.widen (haround.all hhops)
        refine Returns.next fun draw => ⟨_,
          putWindowPass_shift h hpw hindex (Nat.not_lt.mp hroom) hhops draw, Returns.done fun draw => ?_⟩
        refine putWindowPass_found (q.high + 1) hs ?_ ?_ ?_ ?_ ?_ ?_ ?_ ?_ draw
        · rfl
        · rfl
        · rfl
        · rfl
        · exact hgw
        · exact harena
        · exact hindex
        · have hle := h.ok.added_le _ hindex
          have hdepth := c.depth_pos
          show q.added l'.putIndex < (q.high + 1 + 1) * c.depth
          rw [Nat.add_mul (q.high + 1), Nat.one_mul]
          omega
  | succ n ih =>
      by_cases hroom : q.added l'.putIndex < (q.high + 1) * c.depth
      · exact Returns.done (putWindowPass_found q.high h rfl rfl rfl hpw hgw harena hindex hroom)
      · have hfull := Nat.not_lt.mp hroom
        have hlt := haround.hops_lt (hrest ▸ Nat.succ_pos n)
        refine Returns.next fun draw => ⟨_, putWindowPass_hop h hpw hindex hfull hlt draw, ?_⟩
        obtain ⟨hnext, hless⟩ := haround.hop hfull hlt draw
        exact ih hpw hgw harena hnext hnext.index_lt (by omega)

/-- The window lets an element be got from the column, and there is one. -/
def CanGet (c : Config) (q : Board Nat) (i : Nat) : Prop :=
  q.taken i < (q.low + 1) * c.depth ∧ q.taken i < q.added i

/-- What `get_window` returns: a column that an element can be got from, or any column if there is no
element at all. -/
structure GetFound (c : Config) (q : Board Nat) (nodes : Nat → List Addr) (s : Shared) (l : Thread)
    (d : Descriptor) (s' : Shared) (l' : Thread) : Prop where
  moved : ∃ low, Represents c s' { q with low := low } nodes ∧
    (CanGet c { q with low := low } l'.getIndex ∨ low = q.high ∧ ∀ i < c.width, q.added i ≤ q.taken i)
  descriptor : d = s'.getArray l'.getIndex
  pWindow : l'.pWindow = s'.pWindow
  gWindow : l'.gWindow = s'.gWindow
  allocNext : l'.allocNext = l.allocNext
  global : s.gWindow ≤ s'.gWindow
  getIndex : l'.getIndex < c.width

/-- What `get_window` compares with tells whether there is an element to get. -/
theorem canGet_iff (h : Represents c s q nodes) {l' : Thread} (hpw : l'.pWindow = s.pWindow)
    (hgw : l'.gWindow = s.gWindow) (hindex : l'.getIndex < c.width) :
    ((s.getArray l'.getIndex).count < l'.gWindow ∧
      (s.getArray l'.getIndex).count < putCount c s l') ↔ CanGet c q l'.getIndex := by
  rw [putCount, h.got _ hindex, h.put _ hindex, hgw, hpw, h.gWindow, h.pWindow, CanGet]
  split
  · rename_i hlt
    have hle := Nat.mul_le_mul_right c.depth (Nat.succ_le_of_lt
      (Nat.lt_of_succ_lt_succ (Nat.lt_of_mul_lt_mul_right hlt)))
    have hadded := h.ok.added_ge _ hindex
    rw [Nat.add_mul q.high, Nat.one_mul, Nat.add_sub_cancel]
    rw [Nat.succ_eq_add_one] at hle
    omega
  · rfl

/-- A pass of `get_window` at a column with an element to get. -/
theorem getWindowPass_found (low : Nat) (hs : Represents c s' { q with low := low } nodes)
    (hglobal : s.gWindow ≤ s'.gWindow) {l' : Thread} {hp : Hops} {notempty : Bool}
    (hpw : l'.pWindow = s'.pWindow) (hgw : l'.gWindow = s'.gWindow)
    (harena : l'.allocNext = l.allocNext) (hindex : l'.getIndex < c.width)
    (hcan : CanGet c { q with low := low } l'.getIndex) (draw : Nat) :
    ∃ r x, getWindowPass c draw (s', l', hp, notempty) = (some r, x) ∧
      GetFound c q nodes s l r x.1 x.2.1 := by
  refine ⟨s'.getArray l'.getIndex, (s', l', hp, notempty), ?_, ⟨low, hs, .inl hcan⟩, rfl, hpw, hgw,
    harena, hglobal, hindex⟩
  unfold getWindowPass
  dsimp only
  rw [if_neg (not_not_intro hgw), if_pos ((canGet_iff hs hpw hgw hindex).mpr hcan)]

/-- In the last window, a column where nothing can be got has no element. -/
theorem le_taken_of_cannot (h : Represents c s q nodes) (heq : q.low = q.high) {i : Nat}
    (hi : i < c.width) (hcannot : ¬ CanGet c q i) : q.added i ≤ q.taken i := by
  have hadded := h.ok.added_le i hi
  rw [← heq] at hadded
  by_contra hlt
  exact hcannot ⟨(Nat.not_le.mp hlt).trans_le hadded, Nat.not_le.mp hlt⟩

/-- Before the last window, a column where nothing can be got has come to the end of the window. -/
theorem end_of_cannot (h : Represents c s q nodes) (hlt : q.low < q.high) {i : Nat} (hi : i < c.width)
    (hcannot : ¬ CanGet c q i) : (q.low + 1) * c.depth ≤ q.taken i := by
  have hadded := h.ok.added_ge i hi
  have hle := Nat.mul_le_mul_right c.depth (Nat.succ_le_of_lt hlt)
  rw [Nat.succ_eq_add_one] at hle
  by_contra hless
  exact hcannot ⟨Nat.not_le.mp hless, by omega⟩

/-- A pass of `get_window` at a column without one, before the thread has been around. -/
theorem getWindowPass_hop (h : Represents c s q nodes) {l' : Thread} {hp : Hops} {notempty : Bool}
    (hpw : l'.pWindow = s.pWindow) (hgw : l'.gWindow = s.gWindow) (hindex : l'.getIndex < c.width)
    (hcannot : ¬ CanGet c q l'.getIndex) (hlt : hp.hops < c.width) (draw : Nat) :
    getWindowPass c draw (s, l', hp, notempty) = (none, s,
      { l' with getIndex := (hop c draw l'.getIndex hp).1 }, (hop c draw l'.getIndex hp).2,
      notempty || (s.getArray l'.getIndex).count < putCount c s l') := by
  unfold getWindowPass
  dsimp only
  rw [if_neg (not_not_intro hgw), if_neg fun hcan => hcannot ((canGet_iff h hpw hgw hindex).mp hcan),
    if_pos (Nat.ne_of_lt hlt)]

/-- A pass of `get_window` when the thread has been around, before the last window. -/
theorem getWindowPass_shift (h : Represents c s q nodes) {l' : Thread} {hp : Hops} {notempty : Bool}
    (hpw : l'.pWindow = s.pWindow) (hgw : l'.gWindow = s.gWindow) (hindex : l'.getIndex < c.width)
    (hcannot : ¬ CanGet c q l'.getIndex) (hhops : hp.hops = c.width) (hlt : q.low < q.high) (draw : Nat) :
    getWindowPass c draw (s, l', hp, notempty) = (none, { s with gWindow := s.gWindow + c.depth },
      { l' with gWindow := s.gWindow + c.depth }, { hp with hops := 0 }, false) := by
  have hne : l'.gWindow ≠ s.pWindow := by
    rw [hgw, h.gWindow, h.pWindow]
    exact Nat.ne_of_lt (Nat.mul_lt_mul_of_pos_right (Nat.succ_lt_succ hlt) c.depth_pos)
  unfold getWindowPass
  dsimp only
  rw [if_neg (not_not_intro hgw), if_neg fun hcan => hcannot ((canGet_iff h hpw hgw hindex).mp hcan),
    if_neg (not_not_intro hhops), if_pos (.inr hne), if_pos hgw, casGWindow, if_pos hgw.symm, hgw]

/-- `get_window` goes around the columns once in the last window, and finds an element if there is
one. -/
theorem getWindow_last (h : Represents c s q nodes) (hlow : q.low = q.high) (low₀ : Nat) {s₀ : Shared}
    {q₀ : Board Nat} (hq : q = { q₀ with low := low₀ }) (hglobal : s₀.gWindow ≤ s.gWindow) {hp : Hops}
    {l' : Thread} (hpw : l'.pWindow = s.pWindow) (hgw : l'.gWindow = s.gWindow)
    (harena : l'.allocNext = l.allocNext)
    (haround : Around c (fun j => ¬ CanGet c q j) l'.getIndex hp) :
    Returns (getWindowPass c) (fun r x => GetFound c q₀ nodes s₀ l r x.1 x.2.1) (hp.rest c + 1)
      (s, l', hp, false) := by
  subst hq
  have hindex := haround.index_lt
  generalize hrest : hp.rest c = n
  induction n generalizing hp l' with
  | zero =>
      by_cases hcan : CanGet c { q₀ with low := low₀ } l'.getIndex
      · exact Returns.done (getWindowPass_found low₀ h hglobal hpw hgw harena hindex hcan)
      · have hhops := haround.hops_eq hrest
        have hall := haround.all hhops
        -- there is no further window, so `get_window` gives up
        have heq : l'.gWindow = s.pWindow := by rw [hgw, h.gWindow, h.pWindow, hlow]
        refine Returns.done fun draw => ⟨s.getArray l'.getIndex, (s, l', hp, false), ?_,
          ⟨low₀, h, .inr ⟨hlow, fun i hi => le_taken_of_cannot h hlow hi (hall i hi)⟩⟩, rfl, hpw, hgw,
          harena, hglobal, hindex⟩
        unfold getWindowPass
        dsimp only
        rw [if_neg (not_not_intro hgw), if_neg fun h' => hcan ((canGet_iff h hpw hgw hindex).mp h'),
          if_neg (not_not_intro hhops), if_neg]
        rintro (hfalse | hne)
        · cases hfalse
        · exact hne heq
  | succ n ih =>
      by_cases hcan : CanGet c { q₀ with low := low₀ } l'.getIndex
      · exact Returns.done (getWindowPass_found low₀ h hglobal hpw hgw harena hindex hcan)
      · have hlt := haround.hops_lt (hrest ▸ Nat.succ_pos n)
        -- nothing was seen behind what can be got
        have hnotempty : (false || decide ((s.getArray l'.getIndex).count < putCount c s l')) = false := by
          have hle := le_taken_of_cannot h hlow hindex hcan
          have hnlt : ¬ l'.gWindow < l'.pWindow := by
            rw [hgw, hpw, h.gWindow, h.pWindow, hlow]
            exact Nat.lt_irrefl _
          rw [Bool.false_or, decide_eq_false_iff_not, putCount, if_neg hnlt, h.got _ hindex,
            h.put _ hindex]
          exact Nat.not_lt.mpr hle
        refine Returns.next fun draw => ⟨_, getWindowPass_hop h hpw hgw hindex hcan hlt draw, ?_⟩
        obtain ⟨hnext, hless⟩ := haround.hop hcan hlt draw
        rw [hnotempty]
        exact ih hpw hgw harena hnext hnext.index_lt (by omega)

/-- `get_window` goes around the columns twice, at most. -/
theorem getWindow_returns (h : Represents c s q nodes) {hp : Hops} {l' : Thread}
    {notempty : Bool} (hnotempty : q.low = q.high → notempty = false) (hpw : l'.pWindow = s.pWindow)
    (hgw : l'.gWindow = s.gWindow) (harena : l'.allocNext = l.allocNext)
    (haround : Around c (fun j => ¬ CanGet c q j) l'.getIndex hp) :
    Returns (getWindowPass c) (fun r x => GetFound c q nodes s l r x.1 x.2.1) (hp.rest c + c.width + 2)
      (s, l', hp, notempty) := by
  -- a first time around to the end of the window, a second time in the one behind it
  rcases Nat.lt_or_eq_of_le h.ok.low_le with hlow | hlow
  · clear hnotempty
    have hindex := haround.index_lt
    generalize hrest : hp.rest c = n
    induction n generalizing hp l' notempty with
    | zero =>
        by_cases hcan : CanGet c q l'.getIndex
        · refine Returns.mono (Returns.done (n := 0) ?_) (by omega)
          exact getWindowPass_found q.low h (Nat.le_refl _) hpw hgw harena hindex hcan
        · -- all columns have come to the end of the window
          have hhops := haround.hops_eq hrest
          have hempty := fun i hi => end_of_cannot h hlow hi (haround.all hhops i hi)
          have hs := h.advance hempty hlow
          have hglobal : s.gWindow ≤ s.gWindow + c.depth := Nat.le_add_right _ _
          refine Returns.next fun draw => ⟨_,
            getWindowPass_shift h hpw hgw hindex hcan hhops hlow draw, ?_⟩
          rcases Nat.lt_or_eq_of_le (Nat.succ_le_of_lt hlow) with hnext | hnext
          · -- there is a whole window of elements
            refine Returns.mono (Returns.done (n := 0) fun draw => ?_) (by omega)
            refine getWindowPass_found (q.low + 1) hs hglobal ?_ ?_ ?_ ?_ ?_ draw
            · exact hpw
            · rfl
            · exact harena
            · exact hindex
            · by_contra hcannot
              have hle := end_of_cannot hs hnext hindex hcannot
              have htaken := h.ok.taken_le _ hindex
              have hdepth := c.depth_pos
              have hle' : (q.low + 1 + 1) * c.depth ≤ q.taken l'.getIndex := hle
              rw [Nat.add_mul (q.low + 1), Nat.one_mul] at hle'
              omega
          · refine Returns.mono (getWindow_last hs hnext (q.low + 1) rfl hglobal ?_ ?_ ?_
              (Around.start hindex)) ?_
            · exact hpw
            · rfl
            · exact harena
            · have hrandom : ¬ hp.random < randomHops := fun hlt => by
                have hzero := haround.random hlt
                have hwidth := c.width_pos
                omega
              unfold Hops.rest
              dsimp only
              omega
    | succ n ih =>
        by_cases hcan : CanGet c q l'.getIndex
        · refine Returns.mono (Returns.done (n := 0) ?_) (by omega)
          exact getWindowPass_found q.low h (Nat.le_refl _) hpw hgw harena hindex hcan
        · have hlt := haround.hops_lt (hrest ▸ Nat.succ_pos n)
          refine Returns.mono (n := n + c.width + 2 + 1) (Returns.next fun draw =>
            ⟨_, getWindowPass_hop h hpw hgw hindex hcan hlt draw, ?_⟩) (by omega)
          obtain ⟨hnext, hless⟩ := haround.hop hcan hlt draw
          exact ih hpw hgw harena hnext hnext.index_lt (by omega)
  · rw [hnotempty hlow]
    exact Returns.mono (getWindow_last h hlow q.low rfl (Nat.le_refl _) hpw hgw harena haround)
      (by omega)

/-! ## §4 — calls -/

/-- `put_window` when there is no contention. -/
theorem putWindow_spec (h : Represents c s q nodes) (hl : ThreadOk c s l) (draws : Nat → Nat) :
    ∃ d s' l', PutFound c s q nodes l d s' l' ∧
      ∀ fuel, c.width + 4 ≤ fuel → putWindow c fuel false draws s l = some (d, s', l') := by
  have hreturns : Returns (putWindowPass c) (fun r x => PutFound c s q nodes l r x.1 x.2.1) (c.width + 4)
      (s, { l with pWindow := s.pWindow }, ⟨0, 0⟩) := by
    refine Returns.mono (putWindow_returns h ?_ ?_ ?_ (Around.start hl.putIndex)) ?_
    · rfl
    · rfl
    · rfl
    · unfold Hops.rest randomHops
      dsimp only
      omega
  obtain ⟨d, ⟨s', l', hp⟩, hfound, hloop⟩ := hreturns fun i => draws (i + 1)
  refine ⟨d, s', l', hfound, fun fuel hfuel => ?_⟩
  unfold putWindow
  dsimp only
  rw [if_neg Bool.false_ne_true, hloop fuel hfuel]
  rfl

/-- `get_window` when there is no contention, after `dequeue` has read the window for putting. -/
theorem getWindow_spec (h : Represents c s q nodes) (hl : ThreadOk c s l) (draws : Nat → Nat) :
    ∃ d s' l', GetFound c q nodes s l d s' l' ∧ ∀ fuel, 2 * c.width + 4 ≤ fuel →
      getWindow c fuel false draws s { l with pWindow := s.pWindow } =
        some (d, s', { l' with putIndex := l'.getIndex }) := by
  have hreturns : Returns (getWindowPass c) (fun r x => GetFound c q nodes s l r x.1 x.2.1)
      (2 * c.width + 4) (s, { l with pWindow := s.pWindow, gWindow := s.gWindow }, ⟨0, 0⟩, false) := by
    refine Returns.mono (getWindow_returns h (fun _ => rfl) ?_ ?_ ?_ (Around.start hl.getIndex)) ?_
    · rfl
    · rfl
    · rfl
    · unfold Hops.rest randomHops
      dsimp only
      omega
  obtain ⟨d, ⟨s', l', hp⟩, hfound, hloop⟩ := hreturns fun i => draws (i + 1)
  refine ⟨d, s', l', hfound, fun fuel hfuel => ?_⟩
  unfold getWindow
  dsimp only
  rw [if_neg Bool.false_ne_true, hloop fuel hfuel]
  rfl

/-- What `create_node` returns: a node that is in none of the lists, from what is left of the arena. -/
structure Created (c : Config) (s : Shared) (q : Board Nat) (nodes : Nat → List Addr) (l : Thread)
    (nd : Node) (new : Addr) (s' : Shared) (l' : Thread) : Prop where
  represents : Represents c s' q nodes
  memory : s'.memory new = some nd
  fresh : new < s'.fresh
  apart : ∀ i < c.width, new ∉ nodes i
  global : s'.gWindow = s.gWindow
  thread : l' = { l with allocNext := l'.allocNext }
  arena : l'.allocNext ≤ l.allocNext + nodeSize

theorem createNode_spec (h : Represents c s q nodes) (hint : Addr) (nd : Node)
    (harena : l.allocNext + nodeSize ≤ ssallocSize) :
    ∃ new s' l', s.createNode l hint nd = some (new, s', l') ∧ Created c s q nodes l nd new s' l' := by
  have hkeep : ∀ a fresh, s.fresh ≤ fresh → (∀ i < c.width, a ∉ nodes i) →
      Represents c { s.setNode a nd with fresh := fresh } q nodes := by
    intro a fresh hle hnot
    refine ⟨h.ok, h.pWindow, h.gWindow, h.got, h.put, fun i hi => ?_, h.apart⟩
    refine (h.lists i hi).congr rfl rfl (fun b hb => ?_) hle
    exact Function.update_of_ne (by rintro rfl; exact hnot i hi hb) _ _
  unfold Shared.createNode
  split
  · rename_i hfree
    have hnot : ∀ i < c.width, hint ∉ nodes i := by
      intro i hi hmem
      have hsome := ((h.lists i hi).allocated _ hmem).2
      rw [Option.isSome_iff_ne_none] at hsome
      exact hsome (Option.isNone_iff_eq_none.mp hfree.2)
    exact ⟨_, _, _, rfl, hkeep hint s.fresh (Nat.le_refl _) hnot, Function.update_self .., hfree.1,
      hnot, rfl, rfl, Nat.le_add_right _ _⟩
  · have hnot : ∀ i < c.width, s.fresh ∉ nodes i := fun i hi hmem =>
      Nat.lt_irrefl _ ((h.lists i hi).allocated _ hmem).1
    exact ⟨_, _, _, rfl, hkeep _ _ (Nat.le_succ _) hnot, Function.update_self .., Nat.lt_succ_self _,
      hnot, rfl, rfl, Nat.le_refl _⟩

theorem columnValues_put_self (q : Board Nat) (i v : Nat) :
    columnValues (q.put i v) i = columnValues q i ++ [v] := by
  rw [columnValues, Board.column_put_self, List.map_append]
  rfl

theorem columnValues_put_other (q : Board Nat) {i j : Nat} (v : Nat) (hne : i ≠ j) :
    columnValues (q.put i v) j = columnValues q j := by
  rw [columnValues, Board.column_put_other v hne, columnValues]

/-- A new node is linked to list `i`, and the descriptor follows. -/
theorem Represents.link (h : Represents c s q nodes) {i : Nat} (hi : i < c.width)
    (hroom : q.added i < (q.high + 1) * c.depth) {new : Addr} {tail nd : Node}
    (hnew : ∀ j < c.width, new ∉ nodes j) (htail : s.memory (s.putArray i).node = some tail)
    (hnd : s.memory new = some nd) (hnext : nd.next = none) (halloc : new < s.fresh) :
    Represents c
      (((s.setNode (s.putArray i).node { tail with next := some new }).casPut i (s.putArray i)
        ⟨new, (s.putArray i).count + 1⟩).2)
      (q.put i nd.val) (Function.update nodes i (nodes i ++ [new])) := by
  have hcas : (s.setNode (s.putArray i).node { tail with next := some new }).casPut i (s.putArray i)
      ⟨new, (s.putArray i).count + 1⟩ = (true,
        { s.setNode (s.putArray i).node { tail with next := some new } with
          putArray := Function.update s.putArray i ⟨new, (s.putArray i).count + 1⟩ }) := if_pos rfl
  have hlast : (s.putArray i).node ∈ nodes i := List.mem_of_getLast? (h.lists i hi).last
  rw [hcas]
  refine ⟨h.ok.put hi hroom nd.val, h.pWindow, h.gWindow, h.got, fun j hj => ?_, fun j hj => ?_,
    fun j hj k hk a hja hka => ?_⟩
  · show (Function.update s.putArray i ⟨new, (s.putArray i).count + 1⟩ j).count = _
    by_cases hij : i = j
    · subst hij
      rw [Function.update_self, Board.added_put_self, h.put i hi]
    · rw [Function.update_of_ne (Ne.symm hij), Board.added_put_other _ hij, h.put j hj]
  · by_cases hij : i = j
    · subst hij
      rw [Function.update_self, columnValues_put_self]
      refine (h.lists i hi).link ((s.putArray i).count + 1) (hnew i hi) htail hnd hnext halloc ?_ ?_ ?_ ?_
      · rfl
      · exact Function.update_self ..
      · rfl
      · rfl
    · rw [Function.update_of_ne (Ne.symm hij), columnValues_put_other q _ hij]
      refine (h.lists j hj).congr ?_ ?_ (fun a ha => ?_) ?_
      · rfl
      · exact Function.update_of_ne (Ne.symm hij) ..
      · refine Function.update_of_ne ?_ ..
        rintro rfl
        exact hij (h.apart i hi j hj _ hlast ha)
      · exact Nat.le_refl _
  · -- the new node is in no other list
    have hother : ∀ j < c.width, ∀ a, a ∈ Function.update nodes i (nodes i ++ [new]) j →
        a ∈ nodes j ∨ a = new ∧ j = i := by
      intro j hj a ha
      by_cases hij : i = j
      · subst hij
        rw [Function.update_self] at ha
        exact (List.mem_append.mp ha).imp_right fun ha => ⟨List.mem_singleton.mp ha, rfl⟩
      · rw [Function.update_of_ne (Ne.symm hij)] at ha
        exact .inl ha
    rcases hother j hj a hja with hja | ⟨ha, hji⟩
    · rcases hother k hk a hka with hka | ⟨ha, -⟩
      · exact h.apart j hj k hk a hja hka
      · exact absurd (ha ▸ hja) (hnew j hj)
    · rcases hother k hk a hka with hka | ⟨-, hki⟩
      · exact absurd (ha ▸ hka) (hnew k hk)
      · rw [hji, hki]

section Taking

variable {before after : List (Cell Nat)} {x : Cell Nat}

theorem columnValues_take_self (hcells : q.cells = before ++ x :: after)
    (hfirst : ∀ y ∈ before, y.column ≠ x.column) :
    columnValues q x.column = x.entry.item :: columnValues (q.take before x after) x.column := by
  have hself : column (before ++ x :: after) x.column = x :: column after x.column :=
    (column_taken_self hfirst).1
  have htaken : column (q.take before x after).cells x.column = column after x.column :=
    (column_taken_self hfirst).2
  rw [columnValues, columnValues, hcells, hself, htaken, List.map_cons]

theorem columnValues_take_other (hcells : q.cells = before ++ x :: after) {j : Nat} (hj : j ≠ x.column) :
    columnValues (q.take before x after) j = columnValues q j := by
  have hother : column (before ++ x :: after) j = column before j ++ column after j :=
    (column_taken_other hj).1
  have htaken : column (q.take before x after).cells j =
      (column before j).map Cell.pass ++ column after j := (column_taken_other hj).2
  rw [columnValues, columnValues, hcells, hother, htaken, List.map_append, List.map_append, List.map_map]
  rfl

/-- The first element of a list is taken, and its node becomes the dummy node. -/
theorem Represents.unlink (h : Represents c s q nodes) (hcells : q.cells = before ++ x :: after)
    (hfirst : ∀ y ∈ before, y.column ≠ x.column) (hlow : q.taken x.column < (q.low + 1) * c.depth)
    {a : Addr} {nodes₀ : List Addr}
    (hnodes : nodes x.column = (s.getArray x.column).node :: a :: nodes₀) :
    Represents c
      ((s.casGet x.column (s.getArray x.column) ⟨a, (s.getArray x.column).count + 1⟩).2.freeNode
        (s.getArray x.column).node)
      (q.take before x after) (Function.update nodes x.column (a :: nodes₀)) := by
  have hx : x.column < c.width := h.ok.column_lt x (by rw [hcells]; simp)
  have hhead : (s.getArray x.column).node ∈ nodes x.column := by
    rw [hnodes]
    exact List.mem_cons_self
  have hnodup := (h.lists _ hx).nodup
  rw [hnodes] at hnodup
  rw [Shared.casGet_self]
  refine ⟨h.ok.take hcells hfirst hlow, h.pWindow, h.gWindow, fun j hj => ?_, fun j hj => ?_,
    fun j hj => ?_, fun j hj k hk b hjb hkb => ?_⟩
  · show (Function.update s.getArray x.column _ j).count =
      Function.update q.taken x.column (q.taken x.column + 1) j
    by_cases hjx : j = x.column
    · rw [hjx, Function.update_self, Function.update_self, h.got _ hx]
    · rw [Function.update_of_ne hjx, Function.update_of_ne hjx, h.got j hj]
  · rw [Board.added_take hcells hfirst j]
    exact h.put j hj
  · by_cases hjx : j = x.column
    · subst hjx
      rw [Function.update_self]
      have hlist := h.lists _ hx
      rw [hnodes, columnValues_take_self hcells hfirst] at hlist
      refine hlist.unlink ((s.getArray x.column).count + 1) ?_ ?_ (fun b hb => ?_) ?_
      · exact Function.update_self ..
      · rfl
      · refine Function.update_of_ne ?_ ..
        rintro rfl
        exact (List.nodup_cons.mp hnodup).1 hb
      · rfl
    · rw [Function.update_of_ne hjx, columnValues_take_other hcells hjx]
      refine (h.lists j hj).congr ?_ ?_ (fun b hb => ?_) ?_
      · exact Function.update_of_ne hjx ..
      · rfl
      · refine Function.update_of_ne ?_ ..
        rintro rfl
        exact hjx (h.apart j hj _ hx _ hb hhead)
      · exact Nat.le_refl _
  · have hsub : ∀ j, b ∈ Function.update nodes x.column (a :: nodes₀) j → b ∈ nodes j := by
      intro j hb
      by_cases hjx : j = x.column
      · rw [hjx, Function.update_self] at hb
        rw [hjx, hnodes]
        exact List.mem_cons_of_mem _ hb
      · rwa [Function.update_of_ne hjx] at hb
    exact h.apart j hj k hk b (hsub j hjb) (hsub k hkb)

end Taking

/-- The elements of the queue, from the oldest on, after `k` pushes at most. -/
def Lists (c : Config) (s : Shared) (k : Nat) (es : List (Entry Nat)) : Prop :=
  ∃ q nodes, Represents c s q nodes ∧ (∀ i < c.width, q.added i ≤ k) ∧ q.cells.map Cell.entry = es

/-- Windows and counts fit their 64 bits. -/
structure Shared.Fits (c : Config) (s : Shared) : Prop where
  pWindow : s.pWindow < 2 ^ 64
  gWindow : s.gWindow < 2 ^ 64
  got : ∀ i < c.width, (s.getArray i).count < 2 ^ 64
  put : ∀ i < c.width, (s.putArray i).count < 2 ^ 64

/-- A window is at most one depth ahead of every count. -/
theorem Lists.fits {k : Nat} {es : List (Entry Nat)} (h : Lists c s k es)
    (hk : k + c.depth < 2 ^ 64) : s.Fits c := by
  obtain ⟨q, nodes, h, hadded, -⟩ := h
  have hwindow : s.pWindow < 2 ^ 64 := by
    have hge := h.ok.added_ge 0 c.width_pos
    have hle := hadded 0 c.width_pos
    rw [h.pWindow, Nat.succ_mul]
    omega
  refine ⟨hwindow, h.gWindow_le.trans_lt hwindow, fun i hi => ?_, fun i hi => ?_⟩
  · have hge := h.ok.taken_le i hi
    have hle := h.gWindow_le
    rw [h.got i hi]
    rw [h.gWindow] at hle
    omega
  · have hle := hadded i hi
    rw [h.put i hi]
    omega

theorem Lists.mono {k k' : Nat} {es : List (Entry Nat)} (h : Lists c s k es) (hle : k ≤ k') :
    Lists c s k' es := by
  obtain ⟨q, nodes, h, hk, hes⟩ := h
  exact ⟨q, nodes, h, fun i hi => (hk i hi).trans hle, hes⟩

section Passes

variable {fuel passes i : Nat} {l' : Thread} {draws : Nat → Nat → Nat} {contention : Bool}

/-- A pass of `enqueue` that links the new node. -/
theorem enqueueLoop_link {new : Addr} {tail : Node}
    (hwindow : putWindow c fuel contention (draws 0) s l = some (s'.putArray i, s', l')) (hi : l'.putIndex = i)
    (hge : l'.gWindow ≤ l'.pWindow) (hlt : (s'.putArray i).count < l'.pWindow)
    (htail : s'.memory (s'.putArray i).node = some tail) (hnext : tail.next = none) :
    enqueueLoop c fuel new (passes + 1) draws contention s l =
      some (((s'.setNode (s'.putArray i).node { tail with next := some new }).casPut i (s'.putArray i)
        ⟨new, (s'.putArray i).count + 1⟩).2, l') := by
  subst hi
  rw [enqueueLoop, hwindow]
  dsimp only [Option.bind_eq_bind, Option.bind_some]
  rw [if_neg (not_not_intro ⟨hge, hlt⟩), if_neg (Nat.not_le.mpr hlt), htail]
  dsimp only [Option.bind_some]
  rw [hnext]

/-- A pass of `dequeue` at a column with an element. -/
theorem dequeueLoop_take {a : Addr} {head node : Node}
    (hwindow : getWindow c fuel contention (draws 0) s l = some (s'.getArray i, s', l')) (hi : l'.getIndex = i)
    (hne : (s'.getArray i).node ≠ (s'.putArray i).node) (hhead : s'.memory (s'.getArray i).node = some head)
    (hnext : head.next = some a) (hnode : s'.memory a = some node) (ha : a ≠ (s'.getArray i).node) :
    dequeueLoop c fuel (passes + 1) draws contention s l =
      some (node.val, (s'.casGet i (s'.getArray i) ⟨a, (s'.getArray i).count + 1⟩).2.freeNode
        (s'.getArray i).node, l') := by
  subst hi
  rw [dequeueLoop, hwindow]
  dsimp only [Option.bind_eq_bind, Option.bind_some]
  rw [hhead]
  dsimp only [Option.bind_some]
  rw [if_neg fun h => hne h.2, hnext]
  dsimp only [Option.bind_some]
  rw [Shared.casGet_self]
  dsimp only
  rw [if_pos rfl, Shared.freeNode]
  dsimp only
  rw [Function.update_of_ne ha, hnode]
  rfl

/-- A pass of `dequeue` at a column without elements, in the last window. -/
theorem dequeueLoop_none {head : Node}
    (hwindow : getWindow c fuel contention (draws 0) s l = some (s'.getArray i, s', l')) (hi : l'.getIndex = i)
    (hwindows : ¬ l'.pWindow > l'.gWindow) (hsame : (s'.getArray i).node = (s'.putArray i).node)
    (hhead : s'.memory (s'.getArray i).node = some head) (hnext : head.next = none) :
    dequeueLoop c fuel (passes + 1) draws contention s l = some (0, s', l') := by
  subst hi
  rw [dequeueLoop, hwindow]
  dsimp only [Option.bind_eq_bind, Option.bind_some]
  rw [hhead]
  dsimp only [Option.bind_some]
  rw [if_pos ⟨hwindows, hsame⟩, hnext]

end Passes

/-- A push adds the value, in the first pass of its loop. -/
theorem push_spec {es : List (Entry Nat)} {k : Nat} (hes : Lists c s k es) (hl : ThreadOk c s l)
    (harena : l.allocNext + nodeSize ≤ ssallocSize) (hint : Addr) (draws : Nat → Nat → Nat)
    (value : Nat) :
    ∃ s' l', Lists c s' (k + 1) (es ++ [⟨value, 0⟩]) ∧ ThreadOk c s' l' ∧ s.gWindow ≤ s'.gWindow ∧
      l'.allocNext ≤ l.allocNext + nodeSize ∧
      ∀ fuel, c.width + 4 ≤ fuel → push c fuel hint draws value s l = some (true, s', l') := by
  obtain ⟨q, nodes, h, hk, rfl⟩ := hes
  obtain ⟨new, s₁, l₁, hcreate, h₁, hnew, halloc, hnot, hglobal₁, hthread, htaken⟩ :=
    createNode_spec h hint ⟨value, value, none⟩ harena
  have hgw₁ : l₁.gWindow = l.gWindow := by rw [hthread]
  have hl₁ : ThreadOk c s₁ l₁ := by
    refine ⟨?_, ?_, ?_⟩
    · rw [hgw₁, hglobal₁]
      exact hl.gWindow
    · rw [hthread]
      exact hl.putIndex
    · rw [hthread]
      exact hl.getIndex
  obtain ⟨d, s₂, l', hfound, hwindow⟩ := putWindow_spec h₁ hl₁ (draws 0)
  obtain ⟨⟨high, h₂, hroom⟩, rfl, hmemory, hfresh, hpw, hgw, hsame, hglobal, hput, hget⟩ := hfound
  obtain ⟨nodes₀, hnodes, hnext⟩ := (h₂.lists _ hput).next_last
  have hlast : (s₂.putArray l'.putIndex).node ∈ nodes l'.putIndex := by
    rw [hnodes]
    simp
  obtain ⟨tail, htail⟩ := Option.isSome_iff_exists.mp ((h₂.lists _ hput).allocated _ hlast).2
  rw [Shared.next, htail] at hnext
  have hlink := h₂.link hput hroom hnot htail (hmemory ▸ hnew) rfl (hfresh ▸ halloc)
  have hlt : (s₂.putArray l'.putIndex).count < l'.pWindow := by
    rw [h₂.put _ hput, hpw, h₂.pWindow]
    exact hroom
  have hge : l'.gWindow ≤ l'.pWindow := by
    rw [hgw, hpw]
    exact (hl₁.gWindow.trans hglobal.ge).trans h₂.gWindow_le
  refine ⟨_, l', ⟨_, _, hlink, fun i hi => ?_, ?_⟩, ⟨?_, hput, hget⟩, ?_, hsame ▸ htaken,
    fun fuel hfuel => ?_⟩
  · have hle := hk i hi
    by_cases hij : l'.putIndex = i
    · rw [hij, Board.added_put_self]
      exact Nat.succ_le_succ hle
    · rw [Board.added_put_other _ hij]
      exact Nat.le_succ_of_le hle
  · rw [Board.put, List.map_append]
    rfl
  · rw [Shared.casPut_gWindow, hgw]
    exact hl₁.gWindow.trans hglobal.ge
  · rw [Shared.casPut_gWindow]
    exact (hglobal.trans hglobal₁).ge
  · obtain ⟨fuel, rfl⟩ := Nat.exists_eq_add_of_le' (Nat.le_of_add_left_le hfuel)
    rw [push, enqueue, hcreate]
    dsimp only [Option.bind_eq_bind, Option.bind_some]
    rw [enqueueLoop_link (hwindow _ hfuel) rfl hge hlt htail hnext]
    rfl

/-- A pop takes an element of the window for getting, in the first pass of its loop, or there is no
element. -/
theorem pop_spec {es : List (Entry Nat)} {k : Nat} (hes : Lists c s k es) (hnonzero : ∀ e ∈ es, e.item ≠ 0)
    (hl : ThreadOk c s l) (draws : Nat → Nat → Nat) (room full : Nat → Prop) :
    ∃ ret s' l' es',
      Step (c.depth * (c.width - 1) + 1) room full es (ret.elim .nothing .returned) es' ∧
      Lists c s' k es' ∧ ThreadOk c s' l' ∧ s.gWindow ≤ s'.gWindow ∧ l'.allocNext = l.allocNext ∧
      ∀ fuel, 2 * c.width + 4 ≤ fuel → pop c fuel draws s l = some (ret, s', l') := by
  obtain ⟨q, nodes, h, hk, rfl⟩ := hes
  obtain ⟨d, s₁, l', hfound, hwindow⟩ := getWindow_spec h hl (draws 0)
  obtain ⟨⟨low, hmoved⟩, rfl, hpw, hgw, harena, hglobal, hget⟩ := hfound
  obtain ⟨q₁, hq, hk₁, h₁, hcase⟩ : ∃ q₁ : Board Nat, q.cells = q₁.cells ∧
      (∀ i < c.width, q₁.added i ≤ k) ∧ Represents c s₁ q₁ nodes ∧
      (CanGet c q₁ l'.getIndex ∨ q₁.low = q₁.high ∧ ∀ i < c.width, q₁.added i ≤ q₁.taken i) :=
    ⟨{ q with low := low }, rfl, hk, hmoved⟩
  rw [hq] at hnonzero ⊢
  have hlist := h₁.lists _ hget
  rcases hcase with ⟨hlow, hlt⟩ | ⟨heq, hnone⟩
  · obtain ⟨x, column₀, hcolumn⟩ : ∃ x column₀, column q₁.cells l'.getIndex = x :: column₀ := by
      refine List.exists_cons_of_ne_nil fun hnil => ?_
      rw [Board.added, hnil, List.length_nil] at hlt
      omega
    obtain ⟨before, after, hcells, hfirst, hx⟩ := exists_first hcolumn
    rw [← hx] at hlist hlow
    rw [columnValues_take_self hcells hfirst] at hlist
    obtain ⟨hne, a, nodes₀, head, node, hnodes, hhead, hnext, hnode, hval, ha⟩ := hlist.first
    have hunlink := h₁.unlink hcells hfirst hlow hnodes
    -- a value of `0` would be taken for an empty queue
    have hitem : node.val ≠ 0 := by
      rw [hval]
      exact hnonzero x.entry (List.mem_map_of_mem (by rw [hcells]; simp))
    refine ⟨some x.entry.item, _, { l' with putIndex := l'.getIndex }, _,
      h₁.ok.take_step hcells hfirst hlow room full, ⟨_, _, hunlink, fun i hi => ?_, rfl⟩,
      ⟨?_, hget, hget⟩, ?_, harena, fun fuel hfuel => ?_⟩
    · rw [Board.added_take hcells hfirst i]
      exact hk₁ i hi
    · rw [Shared.casGet_self]
      exact hgw.le
    · rw [Shared.casGet_self]
      exact hglobal
    · obtain ⟨fuel, rfl⟩ := Nat.exists_eq_add_of_le' (Nat.le_of_add_left_le hfuel)
      rw [← hx] at hwindow ⊢
      rw [pop, dequeue, dequeueLoop_take (hwindow _ hfuel) rfl hne hhead hnext hnode ha]
      dsimp only [Option.map_some]
      rw [if_neg hitem, hval]
  · have hcells := h₁.ok.eq_nil hnone
    have hvalues : columnValues q₁ l'.getIndex = [] := by
      rw [columnValues, hcells]
      rfl
    rw [hvalues] at hlist
    obtain ⟨hsame, head, hhead, hnext⟩ := hlist.first_none
    have hwindows : ¬ l'.pWindow > l'.gWindow := by
      rw [hpw, hgw, h₁.pWindow, h₁.gWindow, heq]
      exact Nat.lt_irrefl _
    refine ⟨none, s₁, { l' with putIndex := l'.getIndex }, [], ?_, ⟨q₁, nodes, h₁, hk₁, ?_⟩,
      ⟨hgw.le, hget, hget⟩, hglobal, harena, fun fuel hfuel => ?_⟩
    · rw [hcells]
      exact .nothing
    · rw [hcells]
      rfl
    · obtain ⟨fuel, rfl⟩ := Nat.exists_eq_add_of_le' (Nat.le_of_add_left_le hfuel)
      rw [pop, dequeue, dequeueLoop_none (hwindow _ hfuel) rfl hwindows hsame hhead hnext]
      rfl

/-! ## §5 — runs -/

/-- The operations of a handle. -/
inductive Op
  | push (value : Nat)
  | pop

/-- A call with a handle; `hint` is where memory for a node is looked for, and `draws` are the random
numbers. -/
structure Call where
  handle : Nat
  op : Op
  hint : Addr
  draws : Nat → Nat → Nat

/-- The queue, and the variables of the thread of each handle. -/
structure State where
  shared : Shared
  thread : Nat → Thread

/-- The queue as it was created, with handles that have been registered by threads that had taken
`taken` of their arenas. -/
def State.init (c : Config) (taken : Nat → Nat) : State :=
  ⟨Shared.init c, fun i => Thread.register (taken i)⟩

/-- A call, and what it did. -/
def call (c : Config) (fuel : Nat) (a : Call) (s : State) : Option (Event Nat × State) :=
  match a.op with
  | .push value =>
      (push c fuel a.hint a.draws value s.shared (s.thread a.handle)).map fun (pushed, shared, l) =>
        (if pushed then .accepted value else .rejected, ⟨shared, Function.update s.thread a.handle l⟩)
  | .pop =>
      (pop c fuel a.draws s.shared (s.thread a.handle)).map fun (ret, shared, l) =>
        (ret.elim .nothing .returned, ⟨shared, Function.update s.thread a.handle l⟩)

/-- Calls one after the other. -/
def run (c : Config) (fuel : Nat) : List Call → State → Option (List (Event Nat) × State)
  | [], s => some ([], s)
  | a :: calls, s => do
      let (event, s) ← call c fuel a s
      let (events, s) ← run c fuel calls s
      return (event :: events, s)

/-- How many pushes the handle `i` makes. -/
def pushes (i : Nat) : List Call → Nat
  | [] => 0
  | a :: calls =>
      match a.op with
      | .push _ => if a.handle = i then pushes i calls + 1 else pushes i calls
      | .pop => pushes i calls

theorem pushes_le_length (i : Nat) (calls : List Call) : pushes i calls ≤ calls.length := by
  induction calls with
  | nil => exact Nat.le_refl 0
  | cons a calls ih =>
      rw [pushes, List.length_cons]
      split
      · split <;> omega
      · omega

/-- Every thread has room in its arena for the nodes of its pushes. -/
def Room (calls : List Call) (s : State) : Prop :=
  ∀ i, (s.thread i).allocNext + nodeSize * pushes i calls ≤ ssallocSize

/-- The state of a queue with the elements `es`, after `k` pushes at most. -/
structure Holds (c : Config) (s : State) (k : Nat) (es : List (Entry Nat)) : Prop where
  lists : Lists c s.shared k es
  threads : ∀ i, ThreadOk c s.shared (s.thread i)
  nonzero : ∀ e ∈ es, e.item ≠ 0

theorem holds_init (c : Config) (taken : Nat → Nat) : Holds c (State.init c taken) 0 [] where
  lists := ⟨_, _, represents_init, fun _ _ => Nat.le_refl 0, rfl⟩
  threads _ := ⟨Nat.zero_le _, c.width_pos, c.width_pos⟩
  nonzero _ he := absurd he List.not_mem_nil

namespace Holds

variable {st : State} {k k' : Nat} {es es' : List (Entry Nat)}

/-- What a call leaves, from what it did to the queue and to the thread. -/
theorem after_call (h : Holds c st k es) (i : Nat) (hlists : Lists c s' k' es') (hl : ThreadOk c s' l)
    (hle : st.shared.gWindow ≤ s'.gWindow) (hnonzero : ∀ e ∈ es', e.item ≠ 0) :
    Holds c ⟨s', Function.update st.thread i l⟩ k' es' := by
  refine ⟨hlists, fun j => ?_, hnonzero⟩
  show ThreadOk c s' (Function.update st.thread i l j)
  by_cases hji : j = i
  · rw [hji, Function.update_self]
    exact hl
  · rw [Function.update_of_ne hji]
    exact ⟨(h.threads j).gWindow.trans hle, (h.threads j).putIndex, (h.threads j).getIndex⟩

/-- Every call is one to a relaxed queue, and leaves room for the calls to come. -/
theorem call (h : Holds c st k es) (a : Call) (calls : List Call) (hroom : Room (a :: calls) st)
    (hvalue : ∀ value, a.op = .push value → value ≠ 0) :
    ∃ event st' es', (∀ fuel, 2 * c.width + 4 ≤ fuel → TwoDdQueue.call c fuel a st = some (event, st')) ∧
      Step (c.depth * (c.width - 1) + 1) (fun _ => True) (fun _ => False) es event es' ∧
      Holds c st' (k + 1) es' ∧ Room calls st' := by
  obtain ⟨i, op, hint, draws⟩ := a
  cases op with
  | push value =>
      have hne := hvalue value rfl
      have hself : (st.thread i).allocNext + nodeSize * (pushes i calls + 1) ≤ ssallocSize := by
        simpa [pushes] using hroom i
      rw [Nat.mul_succ] at hself
      obtain ⟨s', l', hlists, hl, hle, htaken, hpush⟩ :=
        push_spec h.lists (h.threads i) (by omega) hint draws value
      have hstep : Step (c.depth * (c.width - 1) + 1) (fun _ => True) (fun _ => False) es
          (.accepted value) (es ++ [⟨value, 0⟩]) := .accepted value trivial
      have hnonzero := hstep.forall_item (· ≠ 0) h.nonzero fun x hx => by
        rw [← Event.accepted.inj hx]
        exact hne
      refine ⟨_, _, _, fun fuel hfuel => ?_, hstep, h.after_call i hlists hl hle hnonzero,
        fun j => ?_⟩
      · rw [TwoDdQueue.call]
        dsimp only
        rw [hpush fuel (by omega)]
        rfl
      · show (Function.update st.thread i l' j).allocNext + nodeSize * pushes j calls ≤ ssallocSize
        by_cases hji : j = i
        · rw [hji, Function.update_self]
          omega
        · rw [Function.update_of_ne hji]
          simpa [pushes, Ne.symm hji] using hroom j
  | pop =>
      obtain ⟨ret, s', l', es', hstep, hlists, hl, hle, htaken, hpop⟩ := pop_spec h.lists h.nonzero
        (h.threads i) draws (fun _ => True) (fun _ => False)
      have hnonzero := hstep.forall_item (· ≠ 0) h.nonzero fun x hx => by
        cases ret with
        | none => cases hx
        | some value => cases hx
      refine ⟨_, _, _, fun fuel hfuel => ?_, hstep,
        h.after_call i (hlists.mono (Nat.le_succ k)) hl hle hnonzero, fun j => ?_⟩
      · rw [TwoDdQueue.call]
        dsimp only
        rw [hpop fuel hfuel]
        rfl
      · show (Function.update st.thread i l' j).allocNext + nodeSize * pushes j calls ≤ ssallocSize
        have hj := hroom j
        by_cases hji : j = i
        · rw [hji] at hj ⊢
          rw [Function.update_self, htaken]
          exact hj
        · rw [Function.update_of_ne hji]
          exact hj

theorem run (h : Holds c st k es) (calls : List Call) (hroom : Room calls st)
    (hvalues : ∀ a ∈ calls, ∀ value, a.op = .push value → value ≠ 0) :
    ∃ events st' es', (∀ fuel, 2 * c.width + 4 ≤ fuel →
        TwoDdQueue.run c fuel calls st = some (events, st')) ∧
      Run (c.depth * (c.width - 1) + 1) (fun _ => True) (fun _ => False) es events es' ∧
      Lists c st'.shared (k + calls.length) es' := by
  induction calls generalizing st k es with
  | nil => exact ⟨[], st, es, fun _ _ => rfl, .nil es, h.lists⟩
  | cons a calls ih =>
      obtain ⟨ha, hcalls⟩ := List.forall_mem_cons.mp hvalues
      obtain ⟨event, st₁, es₁, hcall, hstep, h₁, hroom₁⟩ := h.call a calls hroom ha
      obtain ⟨events, st', es', hrun, hrest, hlists⟩ := ih h₁ hroom₁ hcalls
      refine ⟨event :: events, st', es', fun fuel hfuel => ?_, .cons hstep hrest, ?_⟩
      · rw [TwoDdQueue.run, hcall fuel hfuel]
        show (TwoDdQueue.run c fuel calls st₁).bind _ = _
        rw [hrun fuel hfuel]
        rfl
      · rwa [List.length_cons, Nat.add_comm calls.length, ← Nat.add_assoc]

end Holds

/-- **The 2Dd queue keeps to its relaxation bound when calls do not overlap**, as long as no thread
pushes more than its arena has room for. Whatever the random numbers and whatever memory is used again,
every call returns after a bounded number of passes, no assertion fails and nothing is read that has
been freed. A pop returns one of the `relaxation_bound + 1` oldest elements, no element is passed by
more than `relaxation_bound` younger ones, and only an empty queue has nothing to return. What is pushed
is what is popped and what is left. In fewer than `2 ^ 63` calls no window and no count outgrows its
word. -/
theorem run_twoDd (numThreads width relaxationBound : Nat)
    (hdepth : 0 < (createSizes numThreads width relaxationBound).2) (taken : Nat → Nat)
    (calls : List Call) (hvalues : ∀ a ∈ calls, ∀ value, a.op = .push value → value ≠ 0)
    (hroom : ∀ i, taken i + nodeSize * pushes i calls ≤ ssallocSize)
    (hcalls : calls.length < 2 ^ 63) :
    ∃ events st es, (∀ fuel, 2 * (createSizes numThreads width relaxationBound).1 + 4 ≤ fuel →
        run (Config.create numThreads width relaxationBound hdepth) fuel calls
          (State.init (Config.create numThreads width relaxationBound hdepth) taken) =
            some (events, st)) ∧
      Run (relaxationBound + 1) (fun _ => True) (fun _ => False) [] events es ∧
      (accepted events).Perm (returned events ++ es.map Entry.item) ∧
      st.shared.Fits (Config.create numThreads width relaxationBound hdepth) := by
  obtain ⟨events, st, es, hrun, hsteps, hlists⟩ :=
    (holds_init (Config.create numThreads width relaxationBound hdepth) taken).run calls hroom hvalues
  have hbound := createSizes_bound numThreads width relaxationBound
  have hsmall : (Config.create numThreads width relaxationBound hdepth).depth < 2 ^ 16 :=
    createSizes_depth_lt numThreads width relaxationBound
  exact ⟨events, st, es, hrun, hsteps.mono (Nat.succ_le_succ hbound), by simpa using hsteps.perm,
    hlists.fits (by omega)⟩

/-- Two threads push to two lists until the window for putting has moved, pop from both, and use again
what they have freed. -/
def twoThreads : List Call :=
  [⟨0, .push 5, 0, fun _ _ => 0⟩, ⟨1, .push 7, 0, fun _ _ => 1⟩, ⟨0, .push 6, 0, fun _ _ => 0⟩,
    ⟨1, .push 8, 0, fun _ _ => 1⟩, ⟨0, .push 9, 0, fun _ _ => 1⟩, ⟨1, .pop, 0, fun _ _ => 0⟩,
    ⟨0, .pop, 0, fun _ _ => 1⟩, ⟨1, .push 3, 1, fun _ _ => 0⟩, ⟨1, .pop, 0, fun _ _ => 1⟩]

theorem run_twoDd_twoThreads :
    ∃ events st es, (∀ fuel, 8 ≤ fuel → run (Config.create 2 1 2 (by decide)) fuel twoThreads
        (State.init (Config.create 2 1 2 (by decide)) fun _ => 4096) = some (events, st)) ∧
      Run 3 (fun _ => True) (fun _ => False) [] events es ∧
      (accepted events).Perm (returned events ++ es.map Entry.item) ∧
      st.shared.Fits (Config.create 2 1 2 (by decide)) := by
  refine run_twoDd 2 1 2 (by decide) (fun _ => 4096) twoThreads ?_ (fun i => ?_) (by decide)
  · simp [twoThreads]
  · have hle : pushes i twoThreads ≤ 9 := pushes_le_length i twoThreads
    unfold nodeSize ssallocSize
    omega

end RelaxedConcurrentFifo.TwoDdQueue
