/-
# RelaxedConcurrentFifo.KFifo.Sequential — calls to `ws_k_fifo` are those of a `k`-FIFO queue

Segment `i` of the queue, counted without end, is the one of the ring with number `i` modulo
`num_segments`. What the cells of a segment hold is there in no order: `find_index` starts at random. The
ring stands for a queue of segments (`Represents`), each pass of the two loops does one or two of its
operations, and two passes are enough for every call.
-/
import RelaxedConcurrentFifo.KFifo
import RelaxedConcurrentFifo.Lib.RelaxedQueues
import RelaxedConcurrentFifo.Lib.Rings

namespace RelaxedConcurrentFifo.KFifo

open RelaxedConcurrentFifo.Lib.RelaxedQueues

/-! ## §1 — segments of the ring -/

namespace Config

/-- Where segment `i` starts. -/
def start (c : Config) (i : Nat) : Nat := i % c.numSegments * c.k

variable (c : Config) {i j r r' : Nat}

theorem four_le_numSegments : 4 ≤ c.numSegments := Nat.le_max_left 4 _

theorem start_add_lt (hr : r < c.k) : c.start i + r < c.queueSize := by
  have hn := c.four_le_numSegments
  have hmod : i % c.numSegments + 1 ≤ c.numSegments := Nat.mod_lt _ (by omega)
  have hle := Nat.mul_le_mul_right c.k hmod
  rw [Nat.add_mul, Nat.one_mul, Nat.mul_comm c.numSegments] at hle
  rw [start, queueSize]
  omega

theorem start_inj {a : Nat} (hi : a ≤ i) (hi' : i < a + c.numSegments) (hj : a ≤ j)
    (hj' : j < a + c.numSegments) (hr : r < c.k) (hr' : r' < c.k)
    (h : c.start i + r = c.start j + r') : i = j ∧ r = r' := by
  have hdiv : ∀ m r, r < c.k → (m * c.k + r) / c.k = m ∧ (m * c.k + r) % c.k = r := by
    intro m r hr
    rw [Nat.mul_comm, Nat.mul_add_div c.k_pos, Nat.div_eq_of_lt hr, Nat.mul_add_mod,
      Nat.mod_eq_of_lt hr, Nat.add_zero]
    exact ⟨rfl, rfl⟩
  rw [start, start] at h
  have hmod : i % c.numSegments = j % c.numSegments := by
    rw [← (hdiv (i % c.numSegments) r hr).1, h, (hdiv _ r' hr').1]
  refine ⟨?_, by rw [← (hdiv (i % c.numSegments) r hr).2, h, (hdiv _ r' hr').2]⟩
  obtain ⟨m, rfl⟩ := Nat.exists_eq_add_of_le hi
  obtain ⟨m', rfl⟩ := Nat.exists_eq_add_of_le hj
  rw [Lib.Rings.eq_of_slot_eq (by omega) (by omega) hmod]

variable {c}

/-- A pointer to a segment reads as it was written. -/
theorem value_start (hsize : c.queueSize ≤ 2 ^ 47) : value (c.start i) = c.start i := by
  have hlt : c.start i + 0 < c.queueSize := c.start_add_lt c.k_pos
  rw [value_eq]
  split <;> omega

theorem start_succ (hsize : c.queueSize ≤ 2 ^ 47) :
    (c.start i + c.k) % 2 ^ 64 % c.queueSize = c.start (i + 1) := by
  have hlt : c.start i + 0 < c.queueSize := c.start_add_lt c.k_pos
  have hk := c.four_k_le
  rw [Nat.mod_eq_of_lt (a := c.start i + c.k) (by omega), start, start, queueSize, ← Nat.succ_mul,
    Nat.mul_comm, Nat.mul_mod_mul_left, Nat.mul_comm, Nat.succ_eq_add_one, Nat.mod_add_mod]

theorem next_start (hsize : c.queueSize ≤ 2 ^ 47) : c.next (c.start i) = c.start (i + 1) := by
  rw [next, start_succ hsize, value_start hsize]

/-- The segment a lap further on is the same one. -/
theorem start_lap : c.start (i + c.numSegments) = c.start i := by
  rw [start, start, Nat.add_mod_right]

theorem start_eq_iff {a : Nat} (hi : a ≤ i) (hi' : i < a + c.numSegments) (hj : a ≤ j)
    (hj' : j < a + c.numSegments) : c.start i = c.start j ↔ i = j := by
  constructor
  · exact fun h => (c.start_inj hi hi' hj hj' c.k_pos c.k_pos (congrArg (· + 0) h)).1
  · rintro rfl
    rfl

theorem cellIndex_start (hsize : c.queueSize ≤ 2 ^ 47) (randomIndex m : Nat) :
    cellIndex c (c.start i) randomIndex m = c.start i + (randomIndex + m) % c.k := by
  have hlt := c.start_add_lt (i := i) (Nat.mod_lt (randomIndex + m) c.k_pos)
  rw [cellIndex, Nat.mod_eq_of_lt (a := c.start i + _) (by omega), Nat.mod_eq_of_lt hlt]

end Config

/-- What the cells of segment `i` hold. -/
def stored (c : Config) (s : Fifo) (i : Nat) : List Nat :=
  ((List.range c.k).map fun r => value (s.queue (c.start i + r))).filter (· ≠ 0)

variable {c : Config} {s s' : Fifo} {i j r : Nat}

/-- The cell at one place, and the others. -/
theorem perm_stored (hr : r < c.k) :
    (stored c s i).Perm
      ((value (s.queue (c.start i + r)) ::
        ((List.range c.k).erase r).map fun r => value (s.queue (c.start i + r))).filter (· ≠ 0)) := by
  have hperm := List.perm_cons_erase (List.mem_range.mpr hr)
  exact (hperm.map fun r => value (s.queue (c.start i + r))).filter _

theorem stored_congr (h : ∀ r < c.k, s'.queue (c.start i + r) = s.queue (c.start i + r)) :
    stored c s' i = stored c s i := by
  refine congrArg (List.filter _) (List.map_congr_left fun r hr => ?_)
  exact congrArg value (h r (List.mem_range.mp hr))

/-- The other cells of a segment, when one has changed. -/
theorem others_congr (h : ∀ r' < c.k, r' ≠ r → s'.queue (c.start i + r') = s.queue (c.start i + r')) :
    ((List.range c.k).erase r).map (fun r => value (s'.queue (c.start i + r))) =
      ((List.range c.k).erase r).map fun r => value (s.queue (c.start i + r)) := by
  refine List.map_congr_left fun r' hr' => congrArg value ?_
  obtain ⟨hne, hmem⟩ := List.nodup_range.mem_erase_iff.mp hr'
  exact h r' (List.mem_range.mp hmem) hne

/-- A free cell of a segment has got a value. -/
theorem stored_put (hr : r < c.k) (hfree : value (s.queue (c.start i + r)) = 0)
    (hvalue : value (s'.queue (c.start i + r)) ≠ 0)
    (h : ∀ r' < c.k, r' ≠ r → s'.queue (c.start i + r') = s.queue (c.start i + r')) :
    (stored c s' i).Perm (value (s'.queue (c.start i + r)) :: stored c s i) := by
  refine (perm_stored hr).trans ?_
  rw [List.filter_cons_of_pos (by simpa using hvalue), others_congr h]
  refine List.Perm.cons _ ((perm_stored hr).trans ?_).symm
  rw [List.filter_cons_of_neg (by simpa using hfree)]

/-- The value of a cell has been taken. -/
theorem stored_take (hr : r < c.k) (hvalue : value (s.queue (c.start i + r)) ≠ 0)
    (hfree : value (s'.queue (c.start i + r)) = 0)
    (h : ∀ r' < c.k, r' ≠ r → s'.queue (c.start i + r') = s.queue (c.start i + r')) :
    (stored c s i).Perm (value (s.queue (c.start i + r)) :: stored c s' i) :=
  stored_put hr hfree hvalue fun r' hr' hne => (h r' hr' hne).symm

theorem length_stored_lt (hr : r < c.k) (hfree : value (s.queue (c.start i + r)) = 0) :
    (stored c s i).length < c.k := by
  have hle := List.length_filter_le (· ≠ 0)
    (((List.range c.k).erase r).map fun r => value (s.queue (c.start i + r)))
  rw [List.length_map, List.length_erase_of_mem (List.mem_range.mpr hr), List.length_range] at hle
  rw [(perm_stored hr).length_eq, List.filter_cons_of_neg (by simpa using hfree)]
  omega

theorem length_stored_eq (h : ∀ r < c.k, value (s.queue (c.start i + r)) ≠ 0) :
    (stored c s i).length = c.k := by
  rw [stored, List.filter_eq_self.mpr, List.length_map, List.length_range]
  intro v hv
  obtain ⟨r, hr, rfl⟩ := List.mem_map.mp hv
  simpa using h r (List.mem_range.mp hr)

theorem stored_eq_nil (h : ∀ r < c.k, value (s.queue (c.start i + r)) = 0) : stored c s i = [] := by
  rw [stored, List.filter_eq_nil_iff]
  intro v hv
  obtain ⟨r, hr, rfl⟩ := List.mem_map.mp hv
  simpa using h r (List.mem_range.mp hr)

/-- What `find_index` finds in a segment: a free cell, or one with a value. -/
theorem findIndex_some (hsize : c.queueSize ≤ 2 ^ 47) {empty : Bool} {rand index old : Nat}
    (hfind : findIndex c s (c.start i) empty rand = some (index, old)) :
    ∃ r < c.k, index = c.start i + r ∧ old = s.queue (c.start i + r) ∧
      (empty = true ↔ value (s.queue (c.start i + r)) = 0) := by
  obtain ⟨m, -, hm⟩ := List.exists_of_findSome?_eq_some hfind
  dsimp only at hm
  rw [Config.cellIndex_start hsize] at hm
  split at hm
  · rename_i hcond
    cases hm
    refine ⟨_, Nat.mod_lt _ c.k_pos, rfl, rfl, ?_⟩
    cases empty <;> simpa using hcond
  · cases hm

/-- It looks at every cell of the segment. -/
theorem findIndex_none (hsize : c.queueSize ≤ 2 ^ 47) {empty : Bool} {rand : Nat}
    (hfind : findIndex c s (c.start i) empty rand = none) :
    ∀ r < c.k, (empty = true ↔ value (s.queue (c.start i + r)) ≠ 0) := by
  intro r hr
  have hk := c.k_pos
  have hrand : rand % c.k < c.k := Nat.mod_lt _ hk
  -- the pass at which the random start comes round to the cell
  have hround : (rand % c.k + (r + c.k - rand % c.k) % c.k) % c.k = r := by
    rw [Nat.add_mod_mod, show rand % c.k + (r + c.k - rand % c.k) = r + c.k by omega,
      Nat.add_mod_right, Nat.mod_eq_of_lt hr]
  have hnone := List.findSome?_eq_none_iff.mp hfind _
    (List.mem_range.mpr (Nat.mod_lt (r + c.k - rand % c.k) hk))
  dsimp only at hnone
  rw [Config.cellIndex_start hsize, hround] at hnone
  split at hnone
  · cases hnone
  · rename_i hcond
    cases empty <;> simpa using hcond

/-! ## §2 — the queue of segments -/

/-- The ring stands for a queue of segments. -/
structure Represents (c : Config) (s : Fifo) (q : Segments Nat c.k c.numSegments) : Prop where
  head : value s.head = c.start q.first
  tail : value s.tail = c.start q.last
  cells : ∀ i, q.first ≤ i → i < q.first + c.numSegments → (stored c s i).Perm (q.segment i)

variable {q : Segments Nat c.k c.numSegments} {es : List (Entry Nat)}

theorem represents_init (hn : 0 < c.numSegments) : Represents c Fifo.init (Segments.empty hn) := by
  have hzero : value 0 = 0 := by decide
  have hstart : c.start 0 = 0 := by rw [Config.start, Nat.zero_mod, Nat.zero_mul]
  refine ⟨hzero.trans hstart.symm, hzero.trans hstart.symm, fun i _ _ => ?_⟩
  rw [stored_eq_nil fun r _ => hzero]
  exact List.Perm.refl _

namespace Represents

theorem cells_first (h : Represents c s q) : (stored c s q.first).Perm (q.segment q.first) :=
  h.cells _ (Nat.le_refl _) (by have := c.four_le_numSegments; omega)

theorem cells_last (h : Represents c s q) : (stored c s q.last).Perm (q.segment q.last) :=
  h.cells _ q.first_le q.last_lt

theorem head_eq_tail (h : Represents c s q) : value s.head = value s.tail ↔ q.first = q.last := by
  have hle := q.first_le
  have hlt := q.last_lt
  rw [h.head, h.tail]
  exact Config.start_eq_iff (Nat.le_refl _) (by omega) hle hlt

/-- A cell of one segment has changed. -/
theorem stored_other (h : Represents c s q) {word : Nat} (hr : r < c.k) (hi : q.first ≤ i)
    (hi' : i < q.first + c.numSegments) (hj : q.first ≤ j) (hj' : j < q.first + c.numSegments)
    (hne : i ≠ j) (hqueue : s'.queue = Function.update s.queue (c.start j + r) word) :
    (stored c s' i).Perm (q.segment i) := by
  rw [stored_congr fun r' hr' => ?_]
  · exact h.cells i hi hi'
  · rw [hqueue, Function.update_of_ne]
    exact fun heq => hne (c.start_inj hi hi' hj hj' hr' hr heq).1

theorem put (h : Represents c s q) {word v : Nat} (hr : r < c.k)
    (hfree : value (s.queue (c.start q.last + r)) = 0) (hword : value word = v) (hv : v ≠ 0)
    (hhead : value s'.head = value s.head) (htail : s'.tail = s.tail)
    (hqueue : s'.queue = Function.update s.queue (c.start q.last + r) word)
    (hroom : (q.segment q.last).length < c.k) : Represents c s' (q.put v hroom) := by
  refine ⟨hhead.trans h.head, (congrArg value htail).trans h.tail, fun i hi hi' => ?_⟩
  show (stored c s' i).Perm (Function.update q.segment q.last (q.segment q.last ++ [v]) i)
  have hcell : s'.queue (c.start q.last + r) = word := by rw [hqueue, Function.update_self]
  by_cases hlast : i = q.last
  · rw [hlast, Function.update_self]
    have hperm : (stored c s' q.last).Perm (value (s'.queue (c.start q.last + r)) :: stored c s q.last) :=
      stored_put hr hfree (by rw [hcell, hword]; exact hv) fun r' _ hne => by
        rw [hqueue, Function.update_of_ne (by omega)]
    rw [hcell, hword] at hperm
    exact (hperm.trans (h.cells_last.cons v)).trans (List.perm_append_singleton v _).symm
  · rw [Function.update_of_ne hlast]
    exact h.stored_other hr hi hi' q.first_le q.last_lt hlast hqueue

theorem extend (h : Represents c s q) (hsize : c.queueSize ≤ 2 ^ 47)
    (hfits : q.last + 1 < q.first + c.numSegments)
    (hfull : q.first = q.last ∨ (q.segment q.last).length = c.k) :
    Represents c (advanceTail c s s.tail).2 (q.extend hfits hfull) := by
  obtain ⟨heq, htail⟩ := advanceTail_self (c := c) (s := s)
  refine ⟨?_, ?_, ?_⟩
  · rw [heq]
    exact h.head
  · rw [htail, h.tail, Config.next_start hsize]
    rfl
  · rw [heq]
    exact h.cells

theorem advance (h : Represents c s q) (hsize : c.queueSize ≤ 2 ^ 47) (hne : q.first ≠ q.last)
    (hempty : q.segment q.first = []) :
    Represents c (advanceHead c s s.head).2 (q.advance hne hempty) := by
  obtain ⟨heq, hhead⟩ := advanceHead_self (c := c) (s := s)
  refine ⟨?_, ?_, fun i hi hi' => ?_⟩
  · rw [hhead, h.head, Config.next_start hsize]
    rfl
  · rw [heq]
    exact h.tail
  · have hlow : q.first + 1 ≤ i := hi
    have hhigh : i < q.first + 1 + c.numSegments := hi'
    have hlast := q.last_lt
    rw [heq]
    show (stored c s i).Perm (q.segment i)
    by_cases hlap : i = q.first + c.numSegments
    · have hfirst := h.cells_first
      rw [hempty] at hfirst
      rw [q.outside i (.inr (by omega)), stored, hlap, Config.start_lap]
      exact hfirst
    · exact h.cells i (by omega) (by omega)

theorem take (h : Represents c s q) (hr : r < c.k) (hne : q.first ≠ q.last) {word v : Nat}
    (hvalue : value (s.queue (c.start q.first + r)) = v) (hv : v ≠ 0) (hword : value word = 0)
    (hhead : s'.head = s.head) (htail : s'.tail = s.tail)
    (hqueue : s'.queue = Function.update s.queue (c.start q.first + r) word) :
    ∃ l l', ∃ hx : q.segment q.first = l ++ v :: l', Represents c s' (q.take hne hx) := by
  have hn := c.four_le_numSegments
  have hcell : s'.queue (c.start q.first + r) = word := by rw [hqueue, Function.update_self]
  have hperm : (stored c s q.first).Perm
      (value (s.queue (c.start q.first + r)) :: stored c s' q.first) :=
    stored_take hr (by rw [hvalue]; exact hv) (by rw [hcell, hword]) fun r' _ hr' => by
      rw [hqueue, Function.update_of_ne (by omega)]
  rw [hvalue] at hperm
  have hmem : v ∈ q.segment q.first := (h.cells_first.symm.trans hperm).mem_iff.mpr List.mem_cons_self
  obtain ⟨l, l', hx⟩ := List.append_of_mem hmem
  refine ⟨l, l', hx, (congrArg value hhead).trans h.head, (congrArg value htail).trans h.tail,
    fun i hi hi' => ?_⟩
  show (stored c s' i).Perm (Function.update q.segment q.first (l ++ l') i)
  by_cases hfirst : i = q.first
  · have hrest := h.cells_first.symm.trans hperm
    rw [hx] at hrest
    rw [hfirst, Function.update_self]
    exact (List.perm_middle.symm.trans hrest).cons_inv.symm
  · rw [Function.update_of_ne hfirst]
    exact h.stored_other hr hi hi' (Nat.le_refl _) (by omega) hfirst hqueue

/-! ## §3 — passes of the loops -/

theorem queueFull_iff (h : Represents c s q) (hsize : c.queueSize ≤ 2 ^ 47) :
    queueFull c s s.head s.tail = true ↔ q.last + 1 = q.first + c.numSegments := by
  have hle := q.first_le
  have hlt := q.last_lt
  rw [queueFull, decide_eq_true_iff, h.head, h.tail, Config.start_succ hsize]
  constructor
  · rintro ⟨hstart, -⟩
    by_contra hne
    have heq := (Config.start_eq_iff (a := q.first) (by omega) (by omega) (Nat.le_refl _) (by omega)).mp
      hstart
    omega
  · intro heq
    rw [heq, Config.start_lap]
    exact ⟨rfl, rfl⟩

theorem segmentNotEmpty_iff (h : Represents c s q) (hsize : c.queueSize ≤ 2 ^ 47) :
    segmentNotEmpty c s s.head = true ↔ q.segment q.first ≠ [] := by
  have hcell : ∀ r < c.k, (value s.head + r) % 2 ^ 64 % c.queueSize = c.start q.first + r := by
    intro r hr
    have hlt := c.start_add_lt (i := q.first) hr
    rw [h.head, Nat.mod_eq_of_lt (a := c.start q.first + r) (by omega), Nat.mod_eq_of_lt hlt]
  rw [segmentNotEmpty, List.any_eq_true]
  constructor
  · rintro ⟨r, hr, hvalue⟩ hnil
    have hr := List.mem_range.mp hr
    have hperm := h.cells_first
    rw [hcell r hr] at hvalue
    rw [hnil, List.perm_nil] at hperm
    have hlen := (perm_stored (s := s) (i := q.first) hr).length_eq
    rw [hperm, List.filter_cons_of_pos (by simpa using hvalue)] at hlen
    simp at hlen
  · intro hne
    by_contra hno
    refine hne (List.perm_nil.mp ?_)
    rw [← stored_eq_nil (c := c) (s := s) (i := q.first) fun r hr => ?_]
    · exact h.cells_first.symm
    · by_contra hvalue
      exact hno ⟨r, List.mem_range.mpr hr, by rw [hcell r hr]; exact decide_eq_true hvalue⟩

/-- A pass of `enqueue` adds the item to the last segment or finds the queue full; or it goes on to a
segment without elements. -/
theorem enqueuePass (h : Represents c s q) (hsize : c.queueSize ≤ 2 ^ 47) {item : Nat}
    (hitem : value item ≠ 0) (rand : Nat) :
    (∃ hroom s', KFifo.enqueuePass c item rand s = (some true, s') ∧
      Represents c s' (q.put (value item) hroom)) ∨
    (q.segment q.last).length = c.k ∧
      (KFifo.enqueuePass c item rand s = (some false, s) ∧ q.last + 1 = q.first + c.numSegments ∧
          q.segment q.first ≠ [] ∨
        ∃ s' q', KFifo.enqueuePass c item rand s = (none, s') ∧ Represents c s' q' ∧
          q'.segment q'.last = [] ∧ ∀ es, q.Lists es → q'.Lists es) := by
  have hn := c.four_le_numSegments
  have hlast := q.last_lt
  unfold KFifo.enqueuePass
  dsimp only
  rw [if_pos rfl]
  split
  · rename_i index old hfind
    left
    rw [h.tail] at hfind
    obtain ⟨r, hr, rfl, rfl, hempty⟩ := findIndex_some hsize hfind
    have hfree := hempty.mp rfl
    have hroom : (q.segment q.last).length < c.k := by
      rw [← h.cells_last.length_eq]
      exact length_stored_lt hr hfree
    let newItem := taggedValue item (tag (s.queue (c.start q.last + r)) + 1)
    let s₁ : Fifo := { s with queue := Function.update s.queue (c.start q.last + r) newItem }
    have hnew : s₁.queue (c.start q.last + r) = newItem := Function.update_self ..
    obtain ⟨htail, hhead⟩ := committed_pointers (s := s₁) s.tail newItem (c.start q.last + r)
    obtain ⟨hdone, hqueue⟩ := committed_self (s := s₁) (Eq.refl s.tail) hnew
    refine ⟨hroom, (committed s₁ s.tail newItem (c.start q.last + r)).2, ?_,
      h.put hr hfree (value_taggedValue _ _) hitem hhead htail hqueue hroom⟩
    rw [swapCell_self, if_pos rfl]
    show (if (committed s₁ s.tail newItem (c.start q.last + r)).1 = true then some true else none,
      (committed s₁ s.tail newItem (c.start q.last + r)).2) = _
    rw [if_pos hdone]
  · rename_i hfind
    right
    rw [h.tail] at hfind
    have hfull : (q.segment q.last).length = c.k := by
      rw [← h.cells_last.length_eq]
      exact length_stored_eq fun r hr => (findIndex_none hsize hfind r hr).mp rfl
    refine ⟨hfull, ?_⟩
    split
    · rename_i hall
      have hall := (h.queueFull_iff hsize).mp hall
      split
      · rename_i hne
        exact .inl ⟨rfl, hall, (h.segmentNotEmpty_iff hsize).mp hne.1⟩
      · -- the first segment has been emptied: it is given up, and its cells come back behind the last one
        rename_i hcond
        have hempty : q.segment q.first = [] := by
          by_contra hne
          exact hcond ⟨(h.segmentNotEmpty_iff hsize).mpr hne, rfl⟩
        have hadvance := h.advance hsize (by omega) hempty
        have hfits : q.last + 1 < q.first + 1 + c.numSegments := by omega
        have hextend := hadvance.extend hsize hfits (.inr hfull)
        have htail : (KFifo.advanceHead c s s.head).2.tail = s.tail := by rw [advanceHead_self.1]
        rw [htail] at hextend
        exact .inr ⟨_, _, rfl, hextend, q.outside _ (.inr (Nat.lt_succ_self _)), fun es hes =>
          (hes.advance (by omega) hempty).extend hfits (.inr hfull)⟩
    · -- there is a segment behind the last one to go on to
      rename_i hall
      have hfits : q.last + 1 < q.first + c.numSegments :=
        Nat.lt_of_le_of_ne hlast fun heq => hall ((h.queueFull_iff hsize).mpr heq)
      exact .inr ⟨_, _, rfl, h.extend hsize hfits (.inr hfull), q.outside _ (.inr (Nat.lt_succ_self _)),
        fun es hes => hes.extend hfits (.inr hfull)⟩

/-- An element of the first segment is taken. -/
theorem takes (h : Represents c s q) (hne : q.first ≠ q.last) (hr : r < c.k)
    (hv : value (s.queue (c.start q.first + r)) ≠ 0) {t : Nat} (room full : Nat → Prop) (hes : q.Lists es) :
    ∃ es' q', Step c.k room full es (.returned (value (s.queue (c.start q.first + r)))) es' ∧
      Represents c { s with queue := Function.update s.queue (c.start q.first + r) (taggedValue 0 t) } q' ∧
      q'.Lists es' := by
  have hzero : value (taggedValue 0 t) = 0 := (value_taggedValue _ _).trans (by decide)
  let s₁ : Fifo := { s with queue := Function.update s.queue (c.start q.first + r) (taggedValue 0 t) }
  have htakes : ∃ l l', ∃ hx : q.segment q.first = l ++ value (s.queue (c.start q.first + r)) :: l',
      Represents c s₁ (q.take hne hx) := h.take hr hne rfl hv hzero rfl rfl rfl
  obtain ⟨l, l', hx, htake⟩ := htakes
  obtain ⟨es', hstep, hes'⟩ := hes.take hne hx
  exact ⟨es', _, hstep, htake, hes'⟩

/-- Before an element is taken, the tail goes on if it is still at the first segment: nothing is added to
the segment any more. -/
theorem parted (h : Represents c s q) (hsize : c.queueSize ≤ 2 ^ 47) :
    ∃ q₀, Represents c (if value s.head = value s.tail then (KFifo.advanceTail c s s.tail).2 else s) q₀ ∧
      q₀.first = q.first ∧ q₀.first ≠ q₀.last ∧ ∀ es, q.Lists es → q₀.Lists es := by
  have hn := c.four_le_numSegments
  by_cases heq : q.first = q.last
  · have hfits : q.last + 1 < q.first + c.numSegments := by omega
    rw [if_pos (h.head_eq_tail.mpr heq)]
    exact ⟨_, h.extend hsize hfits (.inl heq), rfl, show q.first ≠ q.last + 1 by omega,
      fun es hes => hes.extend hfits (.inl heq)⟩
  · rw [if_neg fun h' => heq (h.head_eq_tail.mp h')]
    exact ⟨q, h, rfl, heq, fun es hes => hes⟩

/-- A pass of `dequeue` takes an element of the first segment or finds the queue empty; or it goes on from
a segment without elements. -/
theorem dequeuePass (h : Represents c s q) (hsize : c.queueSize ≤ 2 ^ 47) (room full : Nat → Prop) (rand : Nat) :
    (∃ v s', KFifo.dequeuePass c rand s = (some (some v), s') ∧ ∀ es, q.Lists es → ∃ es' q',
      Step c.k room full es (.returned v) es' ∧ Represents c s' q' ∧ q'.Lists es') ∨
    q.segment q.first = [] ∧
      (KFifo.dequeuePass c rand s = (some none, s) ∧ q.first = q.last ∨
        ∃ hne hempty, KFifo.dequeuePass c rand s = (none, (KFifo.advanceHead c s s.head).2) ∧
          Represents c (KFifo.advanceHead c s s.head).2 (q.advance hne hempty)) := by
  unfold KFifo.dequeuePass
  dsimp only
  rw [if_pos rfl]
  split
  · rename_i index old hfind
    left
    rw [h.head] at hfind
    obtain ⟨r, hr, rfl, rfl, hempty⟩ := findIndex_some hsize hfind
    obtain ⟨q₀, hparted, hfirst, hne, hlists⟩ := h.parted hsize
    -- where both ends meet, the tail is moved out of the way first; no cell changes
    have hqueue : (if value s.head = value s.tail then (KFifo.advanceTail c s s.tail).2 else s).queue =
        s.queue := by
      split
      · rw [advanceTail_self.1]
      · rfl
    generalize (if value s.head = value s.tail then (KFifo.advanceTail c s s.tail).2 else s) = s₀ at *
    rw [← hqueue, ← hfirst, swapCell_self, if_pos rfl]
    refine ⟨_, _, rfl, fun es hes => hparted.takes hne hr (fun hzero => ?_) room full (hlists es hes)⟩
    rw [hqueue, hfirst] at hzero
    cases hempty.mpr hzero
  · rename_i hfind
    right
    rw [h.head] at hfind
    have hempty : q.segment q.first = [] := by
      refine List.perm_nil.mp ?_
      rw [← stored_eq_nil (c := c) (s := s) (i := q.first) fun r hr => ?_]
      · exact h.cells_first.symm
      · have hnone := findIndex_none hsize hfind r hr
        by_contra hvalue
        cases hnone.mpr hvalue
    refine ⟨hempty, ?_⟩
    split
    · rename_i heq
      exact .inl ⟨rfl, h.head_eq_tail.mp heq.1⟩
    · rename_i hne
      have hne' : q.first ≠ q.last := fun heq => hne ⟨h.head_eq_tail.mpr heq, rfl⟩
      exact .inr ⟨hne', hempty, rfl, h.advance hsize hne' hempty⟩

end Represents

/-! ## §4 — calls -/

/-- What can be called on a handle. -/
inductive Call
  | push (item : Nat)
  | pop

/-- A call, which draws the random numbers `rand`, and what it did. -/
def call (c : Config) (fuel : Nat) (rand : Nat → Nat) (s : Fifo) : Call → Option (Event Nat × Fifo)
  | .push item =>
      (push c fuel rand item s).map fun (pushed, s) =>
        (if pushed then .accepted item else .rejected, s)
  | .pop =>
      (pop c fuel rand s).map fun (item, s) => (item.elim .nothing .returned, s)

/-- An item that a cell gives back as it was: not 0, which is an empty cell, and with bits 47 to 63
equal. -/
def Storable (item : Nat) : Prop := item ≠ 0 ∧ (item < 2 ^ 47 ∨ 2 ^ 64 - 2 ^ 47 ≤ item ∧ item < 2 ^ 64)

theorem Storable.value_eq {item : Nat} (h : Storable item) : value item = item := by
  rw [KFifo.value_eq]
  rcases h.2 with hlt | ⟨hge, hlt⟩
  · rw [Nat.mod_eq_of_lt (by omega), if_pos hlt]
  · have hmod : item % 2 ^ 48 = item - (2 ^ 64 - 2 ^ 48) := by omega
    rw [hmod, if_neg (by omega)]
    omega

/-- Calls one after the other. -/
def run (c : Config) (fuel : Nat) : List (Call × (Nat → Nat)) → Fifo → Option (List (Event Nat) × Fifo)
  | [], s => some ([], s)
  | (a, rand) :: calls, s => do
      let (event, s) ← call c fuel rand s a
      let (events, s) ← run c fuel calls s
      return (event :: events, s)

section Loop

variable {R : Type} {pass : Nat → Fifo → Option R × Fifo} {rand : Nat → Nat} {res : R} {s₁ : Fifo}

theorem loop_first (h : pass (rand 0) s = (some res, s')) {fuel : Nat} (hfuel : 2 ≤ fuel) :
    loop pass fuel rand s = some (res, s') := by
  obtain ⟨fuel, rfl⟩ := Nat.exists_eq_add_of_le' hfuel
  rw [loop, h]

theorem loop_second (h : pass (rand 0) s = (none, s₁)) (h₁ : pass (rand 1) s₁ = (some res, s'))
    {fuel : Nat} (hfuel : 2 ≤ fuel) : loop pass fuel rand s = some (res, s') := by
  obtain ⟨fuel, rfl⟩ := Nat.exists_eq_add_of_le' hfuel
  rw [loop, h]
  show loop pass (fuel + 1) (fun n => rand (n + 1)) s₁ = some (res, s')
  rw [loop, h₁]

end Loop

namespace Represents

/-- A push adds the item, or all segments are in use and the one at the end has no room. -/
theorem push (h : Represents c s q) (hsize : c.queueSize ≤ 2 ^ 47) (hes : q.Lists es) {item : Nat}
    (hitem : Storable item) (rand : Nat → Nat) :
    ∃ event s' q' es', (∀ fuel, 2 ≤ fuel → call c fuel rand s (.push item) = some (event, s')) ∧
      Step c.k (· < c.queueSize) ((c.numSegments - 1) * c.k < ·) es event es' ∧ Represents c s' q' ∧
      q'.Lists es' := by
  have hk := c.k_pos
  have hne : item ≠ 0 := hitem.1
  have hvalue : value item = item := hitem.value_eq
  have hnonzero : value item ≠ 0 := hvalue.symm ▸ hne
  have hroom : ∀ {q : Segments Nat c.k c.numSegments} {es}, q.Lists es →
      (q.segment q.last).length < c.k → es.length < c.queueSize := by
    intro q es hes hlt
    rw [Config.queueSize, Nat.mul_comm]
    exact hes.length_lt hlt
  rcases h.enqueuePass hsize hnonzero (rand 0) with
    ⟨hlt, s', hpass, hput⟩ | ⟨hfull, ⟨hpass, hall, hfirst⟩ | ⟨s₁, q₁, hpass, h₁, hempty, hlists⟩⟩
  · rw [hvalue] at hput
    refine ⟨.accepted item, s', _, _, fun fuel hfuel => ?_, .accepted _ (hroom hes hlt), hput,
      hes.put _ hlt⟩
    rw [call, KFifo.push, if_neg hne, loop_first hpass hfuel]
    rfl
  · refine ⟨.rejected, s, q, es, fun fuel hfuel => ?_, .rejected (hes.le_length hall hfull hfirst), h, hes⟩
    rw [call, KFifo.push, if_neg hne, loop_first hpass hfuel]
    rfl
  · -- the segment that the first pass went on to has room
    have hes₁ := hlists es hes
    rcases h₁.enqueuePass hsize hnonzero (rand 1) with ⟨hlt, s', hpass₁, hput⟩ | ⟨hfull₁, -⟩
    · rw [hvalue] at hput
      refine ⟨.accepted item, s', _, _, fun fuel hfuel => ?_, .accepted _ (hroom hes₁ hlt), hput,
        hes₁.put _ hlt⟩
      rw [call, KFifo.push, if_neg hne, loop_second hpass hpass₁ hfuel]
      rfl
    · rw [hempty, List.length_nil] at hfull₁
      omega

/-- A pop takes an element of the first segment with elements, or there is none in any. -/
theorem pop (h : Represents c s q) (hsize : c.queueSize ≤ 2 ^ 47) (hes : q.Lists es) (room full : Nat → Prop)
    (rand : Nat → Nat) :
    ∃ event s' q' es', (∀ fuel, 2 ≤ fuel → call c fuel rand s .pop = some (event, s')) ∧
      Step c.k room full es event es' ∧ Represents c s' q' ∧ q'.Lists es' := by
  have hk := c.k_pos
  have hnothing : ∀ {q : Segments Nat c.k c.numSegments} {es}, q.Lists es → q.first = q.last →
      q.segment q.first = [] → Step c.k room full es .nothing es := by
    intro q es hes heq hempty
    rw [hes.eq_nil heq hempty]
    exact .nothing
  rcases h.dequeuePass hsize room full (rand 0) with
    ⟨v, s', hpass, htakes⟩ | ⟨hempty, ⟨hpass, heq⟩ | ⟨hne, hempty, hpass, h₁⟩⟩
  · obtain ⟨es', q', hstep, h', hes'⟩ := htakes es hes
    refine ⟨.returned v, s', q', es', fun fuel hfuel => ?_, hstep, h', hes'⟩
    rw [call, KFifo.pop, loop_first hpass hfuel]
    rfl
  · refine ⟨.nothing, s, q, es, fun fuel hfuel => ?_, hnothing hes heq hempty, h, hes⟩
    rw [call, KFifo.pop, loop_first hpass hfuel]
    rfl
  · have hes₁ := hes.advance hne hempty
    rcases h₁.dequeuePass hsize room full (rand 1) with
      ⟨v, s', hpass₁, htakes⟩ | ⟨hempty₁, ⟨hpass₁, heq⟩ | ⟨hne₁, -, -⟩⟩
    · obtain ⟨es', q', hstep, h', hes'⟩ := htakes es hes₁
      refine ⟨.returned v, s', q', es', fun fuel hfuel => ?_, hstep, h', hes'⟩
      rw [call, KFifo.pop, loop_second hpass hpass₁ hfuel]
      rfl
    · refine ⟨.nothing, _, _, es, fun fuel hfuel => ?_, hnothing hes₁ heq hempty₁, h₁, hes₁⟩
      rw [call, KFifo.pop, loop_second hpass hpass₁ hfuel]
      rfl
    · -- a segment between the first and the last one is full
      have hfull := q.full (q.first + 1) (Nat.lt_succ_self _)
        (Nat.lt_of_le_of_ne (Nat.lt_of_le_of_ne q.first_le hne) hne₁)
      have hnil : q.segment (q.first + 1) = [] := hempty₁
      rw [hnil, List.length_nil] at hfull
      omega

theorem run (h : Represents c s q) (hsize : c.queueSize ≤ 2 ^ 47) (hes : q.Lists es)
    (calls : List (Call × (Nat → Nat)))
    (hitems : ∀ item rand, (Call.push item, rand) ∈ calls → Storable item) :
    ∃ events s' es', (∀ fuel, 2 ≤ fuel → KFifo.run c fuel calls s = some (events, s')) ∧
      Run c.k (· < c.queueSize) ((c.numSegments - 1) * c.k < ·) es events es' := by
  induction calls generalizing s q es with
  | nil => exact ⟨[], s, es, fun _ _ => rfl, .nil es⟩
  | cons a calls ih =>
      obtain ⟨a, rand⟩ := a
      have hcall : ∃ event s' q' es', (∀ fuel, 2 ≤ fuel → call c fuel rand s a = some (event, s')) ∧
          Step c.k (· < c.queueSize) ((c.numSegments - 1) * c.k < ·) es event es' ∧ Represents c s' q' ∧
          q'.Lists es' := by
        cases a with
        | push item => exact h.push hsize hes (hitems item rand List.mem_cons_self) rand
        | pop => exact h.pop hsize hes _ _ rand
      obtain ⟨event, s₁, q₁, es₁, hcall, hstep, h₁, hes₁⟩ := hcall
      obtain ⟨events, s', es', hrun, hrest⟩ := ih h₁ hes₁ fun item rand hmem =>
        hitems item rand (List.mem_cons_of_mem _ hmem)
      refine ⟨event :: events, s', es', fun fuel hfuel => ?_, .cons hstep hrest⟩
      rw [KFifo.run, hcall fuel hfuel]
      show (KFifo.run c fuel calls s₁).bind _ = _
      rw [hrun fuel hfuel]
      rfl

end Represents

/-- **`ws_k_fifo` is a `k`-FIFO queue when calls do not overlap.** Every call returns within two passes of
its loop. A pop returns one of the `k` oldest elements, each element is passed by fewer than `k` younger
ones, and only an empty queue has nothing to return; a push is rejected only if all segments but one
could not take another element. What is pushed is what is popped and what is left. -/
theorem run_kFifo (c : Config) (hsize : c.queueSize ≤ 2 ^ 47) (calls : List (Call × (Nat → Nat)))
    (hitems : ∀ item rand, (Call.push item, rand) ∈ calls → Storable item) :
    ∃ events s es, (∀ fuel, 2 ≤ fuel → run c fuel calls Fifo.init = some (events, s)) ∧
      Run c.k (· < c.queueSize) ((c.numSegments - 1) * c.k < ·) [] events es ∧
      (accepted events).Perm (returned events ++ es.map Entry.item) := by
  have hn : 0 < c.numSegments := Nat.lt_of_lt_of_le (by decide) c.four_le_numSegments
  obtain ⟨events, s, es, hrun, hsteps⟩ :=
    (represents_init hn).run hsize Segments.lists_empty calls hitems
  exact ⟨events, s, es, hrun, hsteps, by simpa using hsteps.perm⟩

theorem bitCeil_two : Lib.Words.bitCeil 2 = 2 := congrArg (2 ^ ·) (Nat.clog_pow 2 1 (by decide))

/-- Four segments of two cells. -/
def pairs : Config where
  roundedK := 2
  roundedSegments := 0
  fits := by rw [bitCeil_two]; decide

/-- The second pop begins with a segment of which only one cell is filled. -/
def pairCalls : List (Call × (Nat → Nat)) :=
  [(.push 5, fun _ => 1), (.push 7, fun _ => 0), (.push (2 ^ 64 - 1), fun n => n), (.pop, fun _ => 0),
    (.pop, fun _ => 1)]

theorem run_kFifo_pairs :
    ∃ events s es, (∀ fuel, 2 ≤ fuel → run pairs fuel pairCalls Fifo.init = some (events, s)) ∧
      Run 2 (· < 8) (6 < ·) [] events es ∧
      (accepted events).Perm (returned events ++ es.map Entry.item) := by
  have hk : pairs.k = 2 := bitCeil_two
  have hn : pairs.numSegments = 4 := rfl
  have hsize : pairs.queueSize = 8 := by rw [Config.queueSize, hk, hn]
  obtain ⟨events, s, es, hrun, hsteps, hperm⟩ := run_kFifo pairs (by rw [hsize]; decide) pairCalls
    fun item rand hmem => by
      simp only [pairCalls, List.mem_cons, Prod.mk.injEq, List.not_mem_nil, or_false] at hmem
      rcases hmem with ⟨h, -⟩ | ⟨h, -⟩ | ⟨h, -⟩ | ⟨h, -⟩ | ⟨h, -⟩ <;> cases h <;>
        unfold Storable <;> decide
  rw [hk, hn, hsize] at hsteps
  exact ⟨events, s, es, hrun, hsteps, hperm⟩

end RelaxedConcurrentFifo.KFifo
