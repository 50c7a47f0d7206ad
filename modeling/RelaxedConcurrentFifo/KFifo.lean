/-
# RelaxedConcurrentFifo.KFifo — `ws_k_fifo`, and what becomes of an item of work in it

`BoundedSizeKFifo` is a ring of segments of `k` cells each. Every cell, and the pointers to the first
and the last segment, is one word: 48 bits of value under a tag of 16 bits. A value is read back with
bit 47 extended upwards, so a cell keeps a 64-bit value only if its upper 17 bits are equal.

Calls do not overlap here, so each is a function of the queue. The loops `while (true)` take fuel;
whether a call returns is part of what is proved.
-/
import RelaxedConcurrentFifo.Bfs.Multistart

namespace RelaxedConcurrentFifo.KFifo

open RelaxedConcurrentFifo.Lib.Words
open RelaxedConcurrentFifo.Bfs.Multistart (makeItem)

/-! ## §1 — `TaggedValue` -/

/-- `TaggedValue(T value, tag_type tag)`. -/
def taggedValue (value tag : Nat) : Nat := value % 2 ^ 48 ||| (tag % 2 ^ 16) <<< 48

/-- `kExtendMask`. -/
def extendMask : Nat := 2 ^ 64 - 1 - (2 ^ 48 - 1)

/-- `TaggedValue::value`. -/
def value (raw : Nat) : Nat := raw % 2 ^ 48 ||| (raw >>> 47 % 2) * extendMask

/-- `TaggedValue::tag`. -/
def tag (raw : Nat) : Nat := raw >>> 48 % 2 ^ 16

/-- The upper bits of a value are copies of bit 47. -/
theorem value_eq (raw : Nat) :
    value raw = if raw % 2 ^ 48 < 2 ^ 47 then raw % 2 ^ 48 else raw % 2 ^ 48 + (2 ^ 64 - 2 ^ 48) := by
  have hmask : (raw >>> 47 % 2) * extendMask = ((raw >>> 47 % 2) * (2 ^ 16 - 1)) <<< 48 := by
    rw [Nat.shiftLeft_eq, extendMask]
    omega
  have hlow : raw % 2 ^ 48 < 2 ^ 48 := Nat.mod_lt _ (by decide)
  rw [value, hmask, Nat.or_comm, ← Nat.shiftLeft_add_eq_or_of_lt hlow, Nat.shiftLeft_eq,
    Nat.shiftRight_eq_div_pow]
  split <;> omega

/-- Only the lower 48 bits are stored. -/
theorem value_taggedValue (v t : Nat) : value (taggedValue v t) = value v := by
  have hlow : taggedValue v t % 2 ^ 48 = v % 2 ^ 48 := by
    rw [taggedValue, Nat.or_comm]
    exact shiftLeft_or_mod (Nat.mod_lt _ (by decide))
  rw [value_eq, value_eq, hlow]

theorem value_value (raw : Nat) : value (value raw) = value raw := by
  have hlow : value raw % 2 ^ 48 = raw % 2 ^ 48 := by
    rw [value_eq]
    split <;> omega
  rw [value_eq (value raw), hlow, ← value_eq]

/-! ## §2 — the queue -/

/-- What `ws_k_fifo` makes of its arguments: the two products that are rounded, and that
`queue_size_` fits a word. -/
structure Config where
  /-- `std::lround(thread_count * k_per_thread)`. -/
  roundedK : Nat
  /-- `std::lround(size / k_per_thread / thread_count)`. -/
  roundedSegments : Nat
  fits : bitCeil roundedK * max 4 roundedSegments < 2 ^ 64

namespace Config

/-- `k_`. -/
def k (c : Config) : Nat := bitCeil c.roundedK

def numSegments (c : Config) : Nat := max 4 c.roundedSegments

/-- `queue_size_`. -/
def queueSize (c : Config) : Nat := c.k * c.numSegments

theorem k_pos (c : Config) : 0 < c.k := Nat.two_pow_pos _

theorem four_k_le (c : Config) : 4 * c.k ≤ c.queueSize := by
  rw [queueSize, Nat.mul_comm]
  exact Nat.mul_le_mul_left _ (Nat.le_max_left 4 _)

theorem queueSize_lt (c : Config) : c.queueSize < 2 ^ 64 := c.fits

/-- The segment after the one at `p`, as a pointer to it reads. -/
def next (c : Config) (p : Nat) : Nat := value ((p + c.k) % 2 ^ 64 % c.queueSize)

end Config

/-- `BoundedSizeKFifo`: the words of the two pointers and of the cells. -/
structure Fifo where
  head : Nat
  tail : Nat
  queue : Nat → Nat

/-- The constructor. -/
def Fifo.init : Fifo := ⟨0, 0, fun _ => 0⟩

namespace Fifo

/-- `head_->swap`. -/
def swapHead (s : Fifo) (expected desired : Nat) : Bool × Fifo :=
  if s.head = expected then (true, { s with head := desired }) else (false, s)

/-- `tail_->swap`. -/
def swapTail (s : Fifo) (expected desired : Nat) : Bool × Fifo :=
  if s.tail = expected then (true, { s with tail := desired }) else (false, s)

/-- `queue_[index].swap`. -/
def swapCell (s : Fifo) (index expected desired : Nat) : Bool × Fifo :=
  if s.queue index = expected then
    (true, { s with queue := Function.update s.queue index desired })
  else
    (false, s)

end Fifo

variable (c : Config)

/-- The cell that pass `i` of the loop of `find_index` looks at. -/
def cellIndex (startIndex randomIndex i : Nat) : Nat :=
  (startIndex + (randomIndex + i) % c.k) % 2 ^ 64 % c.queueSize

/-- `find_index`, with the index and the old item it finds. `rand` is what the generator yields,
which the distribution maps to `0 … k - 1`. -/
def findIndex (s : Fifo) (startIndex : Nat) (empty : Bool) (rand : Nat) : Option (Nat × Nat) :=
  (List.range c.k).findSome? fun i =>
    let index := cellIndex c startIndex (rand % c.k) i
    let old := s.queue index
    if empty = true ∧ value old = 0 ∨ empty = false ∧ value old ≠ 0 then some (index, old) else none

/-- `advance_head`. -/
def advanceHead (s : Fifo) (headOld : Nat) : Bool × Fifo :=
  s.swapHead headOld
    (taggedValue ((value headOld + c.k) % 2 ^ 64 % c.queueSize) (tag headOld + 1))

/-- `advance_tail`. -/
def advanceTail (s : Fifo) (tailOld : Nat) : Bool × Fifo :=
  s.swapTail tailOld
    (taggedValue ((value tailOld + c.k) % 2 ^ 64 % c.queueSize) (tag tailOld + 1))

/-- `queue_full`. -/
def queueFull (s : Fifo) (headOld tailOld : Nat) : Bool :=
  (value tailOld + c.k) % 2 ^ 64 % c.queueSize = value headOld ∧ value headOld = value s.head

/-- `segment_not_empty`. -/
def segmentNotEmpty (s : Fifo) (headOld : Nat) : Bool :=
  (List.range c.k).any fun i => value (s.queue ((value headOld + i) % 2 ^ 64 % c.queueSize)) ≠ 0

/-- `in_valid_region`. -/
def inValidRegion (tailOld tailCurrent headCurrent : Nat) : Bool :=
  if ¬ tailCurrent < headCurrent then
    headCurrent < tailOld ∧ tailOld ≤ tailCurrent
  else
    headCurrent < tailOld ∨ tailOld ≤ tailCurrent

/-- `not_in_valid_region`. -/
def notInValidRegion (tailOld tailCurrent headCurrent : Nat) : Bool :=
  if ¬ tailCurrent < headCurrent then
    tailOld < tailCurrent ∨ headCurrent < tailOld
  else
    tailOld < tailCurrent ∧ headCurrent < tailOld

/-- `committed`. -/
def committed (s : Fifo) (tailOld newItem itemIndex : Nat) : Bool × Fifo :=
  if s.queue itemIndex ≠ newItem then
    (true, s)
  else if inValidRegion (value tailOld) (value s.tail) (value s.head) then
    (true, s)
  else if notInValidRegion (value tailOld) (value s.tail) (value s.head) then
    let (swapped, s) := s.swapCell itemIndex newItem (taggedValue 0 (tag newItem + 1))
    (!swapped, s)
  else
    let (swapped, s) := s.swapHead s.head (taggedValue (value s.head) (tag s.head + 1))
    if swapped then
      (true, s)
    else
      let (swapped, s) := s.swapCell itemIndex newItem (taggedValue 0 (tag newItem + 1))
      (!swapped, s)

/-- One pass of the loop of `enqueue`, with what it returns if it does. -/
def enqueuePass (item rand : Nat) (s : Fifo) : Option Bool × Fifo :=
  let tailOld := s.tail
  let headOld := s.head
  let found := findIndex c s (value tailOld) true rand
  if tailOld = s.tail then
    match found with
    | some (itemIndex, oldItem) =>
        let newItem := taggedValue item (tag oldItem + 1)
        let (swapped, s) := s.swapCell itemIndex oldItem newItem
        if swapped then
          let (done, s) := committed s tailOld newItem itemIndex
          (if done then some true else none, s)
        else
          (none, s)
    | none =>
        if queueFull c s headOld tailOld then
          if segmentNotEmpty c s headOld ∧ value headOld = value s.head then
            (some false, s)
          else
            (none, (advanceTail c (advanceHead c s headOld).2 tailOld).2)
        else
          (none, (advanceTail c s tailOld).2)
  else
    (none, s)

/-- One pass of the loop of `dequeue`, with the item it returns if it does. -/
def dequeuePass (rand : Nat) (s : Fifo) : Option (Option Nat) × Fifo :=
  let headOld := s.head
  let tailOld := s.tail
  let found := findIndex c s (value headOld) false rand
  if headOld = s.head then
    match found with
    | some (itemIndex, oldItem) =>
        let s := if value headOld = value tailOld then (advanceTail c s tailOld).2 else s
        let (swapped, s) := s.swapCell itemIndex oldItem (taggedValue 0 (tag oldItem + 1))
        (if swapped then some (some (value oldItem)) else none, s)
    | none =>
        if value headOld = value tailOld ∧ value tailOld = value s.tail then
          (some none, s)
        else
          (none, (advanceHead c s headOld).2)
  else
    (none, s)

/-- `while (true)`, for as many passes as there is fuel; `rand` are the random numbers drawn. -/
def loop {R : Type} (pass : Nat → Fifo → Option R × Fifo) :
    Nat → (Nat → Nat) → Fifo → Option (R × Fifo)
  | 0, _, _ => none
  | fuel + 1, rand, s =>
      match pass (rand 0) s with
      | (some r, s') => some (r, s')
      | (none, s') => loop pass fuel (fun n => rand (n + 1)) s'

/-- `handle::push`; `enqueue` aborts on 0. -/
def push (fuel : Nat) (rand : Nat → Nat) (item : Nat) (s : Fifo) : Option (Bool × Fifo) :=
  if item = 0 then none else loop (enqueuePass c item) fuel rand s

/-- `handle::pop`. -/
def pop (fuel : Nat) (rand : Nat → Nat) (s : Fifo) : Option (Option Nat × Fifo) :=
  loop (dequeuePass c) fuel rand s

/-- The queues that calls which do not overlap can lead to. -/
inductive Reachable : Fifo → Prop
  | init : Reachable Fifo.init
  | push {s s' : Fifo} {fuel item : Nat} {rand : Nat → Nat} {pushed : Bool} (h : Reachable s)
      (hcall : push c fuel rand item s = some (pushed, s')) : Reachable s'
  | pop {s s' : Fifo} {fuel : Nat} {rand : Nat → Nat} {item : Option Nat} (h : Reachable s)
      (hcall : pop c fuel rand s = some (item, s')) : Reachable s'

/-- No cell holds a value. -/
def Fifo.Empty (s : Fifo) : Prop := ∀ index < c.queueSize, value (s.queue index) = 0

/-! ## §3 — the tail is ahead of the head -/

/-- Going from segment to segment, the head gets to where the tail is. -/
def Linked (s : Fifo) : Prop := ∃ n, value s.tail = (c.next)^[n] (value s.head)

variable {c} {s : Fifo}

@[simp] theorem swapCell_head (index expected desired : Nat) :
    (s.swapCell index expected desired).2.head = s.head := by
  unfold Fifo.swapCell
  split <;> rfl

@[simp] theorem swapCell_tail (index expected desired : Nat) :
    (s.swapCell index expected desired).2.tail = s.tail := by
  unfold Fifo.swapCell
  split <;> rfl

theorem swapCell_self (index desired : Nat) :
    s.swapCell index (s.queue index) desired =
      (true, { s with queue := Function.update s.queue index desired }) := if_pos rfl

theorem advanceHead_self :
    (advanceHead c s s.head).2 = { s with head := (advanceHead c s s.head).2.head } ∧
      value (advanceHead c s s.head).2.head = c.next (value s.head) := by
  rw [advanceHead, Fifo.swapHead, if_pos rfl]
  exact ⟨rfl, value_taggedValue _ _⟩

theorem advanceTail_self :
    (advanceTail c s s.tail).2 = { s with tail := (advanceTail c s s.tail).2.tail } ∧
      value (advanceTail c s s.tail).2.tail = c.next (value s.tail) := by
  rw [advanceTail, Fifo.swapTail, if_pos rfl]
  exact ⟨rfl, value_taggedValue _ _⟩

/-- `committed` moves neither pointer to another segment. -/
theorem committed_pointers (tailOld newItem itemIndex : Nat) :
    (committed s tailOld newItem itemIndex).2.tail = s.tail ∧
      value (committed s tailOld newItem itemIndex).2.head = value s.head := by
  unfold committed
  split
  · exact ⟨rfl, rfl⟩
  split
  · exact ⟨rfl, rfl⟩
  split
  · exact ⟨swapCell_tail .., congrArg value (swapCell_head ..)⟩
  · rw [Fifo.swapHead, if_pos rfl]
    exact ⟨rfl, (value_taggedValue _ _).trans (value_value _)⟩

theorem Linked.of_pointers {s' : Fifo} (h : Linked c s) (htail : value s'.tail = value s.tail)
    (hhead : value s'.head = value s.head) : Linked c s' := by
  obtain ⟨n, hn⟩ := h
  exact ⟨n, by rw [htail, hhead, hn]⟩

theorem Linked.advanceTail (h : Linked c s) : Linked c (KFifo.advanceTail c s s.tail).2 := by
  obtain ⟨n, hn⟩ := h
  obtain ⟨heq, htail⟩ := advanceTail_self (c := c) (s := s)
  refine ⟨n + 1, ?_⟩
  rw [htail, heq, Function.iterate_succ_apply', hn]

theorem Linked.advanceHead (h : Linked c s) (hne : value s.head ≠ value s.tail) :
    Linked c (KFifo.advanceHead c s s.head).2 := by
  obtain ⟨n, hn⟩ := h
  obtain ⟨heq, hhead⟩ := advanceHead_self (c := c) (s := s)
  cases n with
  | zero => exact absurd hn.symm hne
  | succ n =>
      refine ⟨n, ?_⟩
      rw [hhead, heq, ← Function.iterate_succ_apply]
      exact hn

/-- In a full queue the pointers differ. -/
theorem ne_of_queueFull (h : queueFull c s s.head s.tail = true) : value s.head ≠ value s.tail := by
  have hk := c.k_pos
  have hsize := c.four_k_le
  have hlt := c.queueSize_lt
  unfold queueFull at h
  obtain ⟨hnext, -⟩ := of_decide_eq_true h
  intro heq
  rw [heq] at hnext
  have hbound : value s.tail < c.queueSize := by
    rw [← hnext]
    exact Nat.mod_lt _ (by omega)
  by_cases hwrap : value s.tail + c.k < 2 ^ 64
  · rw [Nat.mod_eq_of_lt hwrap] at hnext
    by_cases hround : value s.tail + c.k < c.queueSize
    · rw [Nat.mod_eq_of_lt hround] at hnext
      omega
    · rw [Nat.mod_eq_sub_mod (by omega), Nat.mod_eq_of_lt (by omega)] at hnext
      omega
  · rw [Nat.mod_eq_of_lt (a := (value s.tail + c.k) % 2 ^ 64) (by omega)] at hnext
    omega

theorem Linked.enqueuePass (h : Linked c s) (item rand : Nat) :
    Linked c (KFifo.enqueuePass c item rand s).2 := by
  unfold KFifo.enqueuePass
  dsimp only
  rw [if_pos rfl]
  split
  · rename_i index old _
    split
    · obtain ⟨htail, hhead⟩ := committed_pointers
        (s := (s.swapCell index old (taggedValue item (tag old + 1))).2)
        s.tail (taggedValue item (tag old + 1)) index
      exact h.of_pointers (by rw [htail, swapCell_tail]) (by rw [hhead, swapCell_head])
    · exact h.of_pointers (by rw [swapCell_tail]) (by rw [swapCell_head])
  · split
    · rename_i hfull
      split
      · exact h
      · have hhead := h.advanceHead (ne_of_queueFull hfull)
        have htail : (KFifo.advanceHead c s s.head).2.tail = s.tail := by
          rw [advanceHead_self.1]
        rw [← htail]
        exact hhead.advanceTail
    · exact h.advanceTail

theorem Linked.dequeuePass (h : Linked c s) (rand : Nat) :
    Linked c (KFifo.dequeuePass c rand s).2 := by
  unfold KFifo.dequeuePass
  dsimp only
  rw [if_pos rfl]
  split
  · split
    · exact h.advanceTail.of_pointers (by rw [swapCell_tail]) (by rw [swapCell_head])
    · exact h.of_pointers (by rw [swapCell_tail]) (by rw [swapCell_head])
  · split
    · exact h
    · rename_i hne
      exact h.advanceHead fun heq => hne ⟨heq, rfl⟩

/-- What every pass keeps, the loop keeps. -/
theorem loop_invariant {R : Type} {pass : Nat → Fifo → Option R × Fifo} {P : Fifo → Prop}
    (hpass : ∀ rand s, P s → P (pass rand s).2) {fuel : Nat} {rand : Nat → Nat} {s s' : Fifo} {r : R}
    (h : P s) (hloop : loop pass fuel rand s = some (r, s')) : P s' := by
  induction fuel generalizing rand s with
  | zero => cases hloop
  | succ fuel ih =>
      have hnext := hpass (rand 0) s h
      rw [loop] at hloop
      split at hloop
      · rename_i heq
        cases hloop
        rwa [heq] at hnext
      · rename_i heq
        rw [heq] at hnext
        exact ih hnext hloop

theorem Reachable.linked (h : Reachable c s) : Linked c s := by
  induction h with
  | init => exact ⟨0, rfl⟩
  | push h hcall ih =>
      unfold KFifo.push at hcall
      split at hcall
      · cases hcall
      · exact loop_invariant (fun rand s hs => hs.enqueuePass _ rand) ih hcall
  | pop h hcall ih => exact loop_invariant (fun rand s hs => hs.dequeuePass rand) ih hcall

/-! ## §4 — a push into an empty queue, and the pop after it -/

theorem cellIndex_lt (startIndex randomIndex i : Nat) :
    cellIndex c startIndex randomIndex i < c.queueSize := by
  have hk := c.k_pos
  have hsize := c.four_k_le
  exact Nat.mod_lt _ (by omega)

/-- In an empty queue the first cell looked at is free. -/
theorem findIndex_empty (h : s.Empty c) (startIndex rand : Nat) :
    findIndex c s startIndex true rand =
      some (cellIndex c startIndex (rand % c.k) 0, s.queue (cellIndex c startIndex (rand % c.k) 0)) := by
  obtain ⟨k, hk⟩ : ∃ k, c.k = k + 1 := ⟨c.k - 1, by have := c.k_pos; omega⟩
  have hzero := h _ (cellIndex_lt startIndex (rand % c.k) 0)
  unfold findIndex
  rw [hk, List.range_succ_eq_map, List.findSome?_cons, ← hk]
  dsimp only
  rw [if_pos (Or.inl ⟨rfl, hzero⟩)]

/-- Nothing has moved since `tail_old` was read, so the item stays. -/
theorem committed_self {tailOld newItem itemIndex : Nat} (htail : s.tail = tailOld)
    (hitem : s.queue itemIndex = newItem) :
    (committed s tailOld newItem itemIndex).1 = true ∧
      (committed s tailOld newItem itemIndex).2.queue = s.queue := by
  unfold committed
  rw [if_neg (not_not_intro hitem), htail]
  split
  · exact ⟨rfl, rfl⟩
  · rename_i hregion
    have hnot : notInValidRegion (value tailOld) (value tailOld) (value s.head) = false := by
      unfold inValidRegion at hregion
      unfold notInValidRegion
      split <;> simp_all
    rw [hnot, Fifo.swapHead, if_pos rfl]
    exact ⟨rfl, rfl⟩

/-- Cell `r` of the segment the tail is at holds the value, and no other cell holds any. -/
structure Holds (c : Config) (s : Fifo) (r v : Nat) : Prop where
  offset : r < c.k
  stored : value (s.queue (cellIndex c (value s.tail) r 0)) = v
  others : ∀ index < c.queueSize, index ≠ cellIndex c (value s.tail) r 0 →
    value (s.queue index) = 0

/-- What `pop` makes of a stored value: a cell that reads 0 is a free one. -/
def popped (v : Nat) : Option Nat := if v = 0 then none else some v

variable {r v : Nat}

theorem push_empty (h : s.Empty c) {item : Nat} (hitem : item ≠ 0) (rand : Nat → Nat) :
    ∃ s', (∀ fuel, push c (fuel + 1) rand item s = some (true, s')) ∧
      value s'.tail = value s.tail ∧ value s'.head = value s.head ∧
      Holds c s' (rand 0 % c.k) (value item) := by
  have hfind := findIndex_empty h (value s.tail) (rand 0)
  let index := cellIndex c (value s.tail) (rand 0 % c.k) 0
  let newItem := taggedValue item (tag (s.queue index) + 1)
  let s₁ : Fifo := { s with queue := Function.update s.queue index newItem }
  have hnew : s₁.queue index = newItem := Function.update_self ..
  obtain ⟨htail, hhead⟩ := committed_pointers (s := s₁) s.tail newItem index
  obtain ⟨hdone, hqueue⟩ := committed_self (s := s₁) (Eq.refl s.tail) hnew
  have hpass : enqueuePass c item (rand 0) s =
      (some true, (committed s₁ s.tail newItem index).2) := by
    unfold enqueuePass
    dsimp only
    rw [if_pos rfl, hfind]
    dsimp only
    rw [swapCell_self, if_pos rfl]
    show (if (committed s₁ s.tail newItem index).1 = true then some true else none,
      (committed s₁ s.tail newItem index).2) = _
    rw [if_pos hdone]
  refine ⟨_, fun fuel => ?_, congrArg value htail, hhead, ⟨Nat.mod_lt _ c.k_pos, ?_, ?_⟩⟩
  · rw [push, if_neg hitem, loop, hpass]
  · rw [hqueue, htail]
    exact (congrArg value hnew).trans (value_taggedValue _ _)
  · intro other hlt hne
    rw [htail] at hne
    rw [hqueue]
    show value (Function.update s.queue index newItem other) = 0
    rw [Function.update_of_ne hne]
    exact h other hlt

/-- A search for a value finds the only one there is. -/
theorem Holds.of_findIndex (h : Holds c s r v) {startIndex rand index old : Nat}
    (hfind : findIndex c s startIndex false rand = some (index, old)) :
    s.queue index = old ∧ value old = v ∧ v ≠ 0 := by
  obtain ⟨i, -, hi⟩ := List.exists_of_findSome?_eq_some hfind
  dsimp only at hi
  split at hi
  · rename_i hcond
    cases hi
    rcases hcond with ⟨habs, -⟩ | ⟨-, hne⟩
    · cases habs
    · have hcell : cellIndex c startIndex (rand % c.k) i = cellIndex c (value s.tail) r 0 := by
        by_contra hother
        exact hne (h.others _ (cellIndex_lt ..) hother)
      rw [hcell] at hne ⊢
      exact ⟨rfl, h.stored, h.stored ▸ hne⟩
  · cases hi

/-- The search looks at every cell of a segment. -/
theorem Holds.findIndex_tail (h : Holds c s r v) (hv : v ≠ 0) (rand : Nat) :
    findIndex c s (value s.tail) false rand ≠ none := by
  have hk := c.k_pos
  have hr := h.offset
  have hrand : rand % c.k < c.k := Nat.mod_lt _ hk
  intro hnone
  have hall := List.findSome?_eq_none_iff.mp hnone
  -- the pass at which the random start comes round to the cell
  have hround : (rand % c.k + (r + c.k - rand % c.k) % c.k) % c.k = r := by
    rw [Nat.add_mod_mod, show rand % c.k + (r + c.k - rand % c.k) = r + c.k by omega,
      Nat.add_mod_right, Nat.mod_eq_of_lt hr]
  have hcell : cellIndex c (value s.tail) (rand % c.k) ((r + c.k - rand % c.k) % c.k) =
      cellIndex c (value s.tail) r 0 := by
    unfold cellIndex
    rw [hround, Nat.add_zero, Nat.mod_eq_of_lt hr]
  have := hall _ (List.mem_range.mpr (Nat.mod_lt (r + c.k - rand % c.k) hk))
  dsimp only at this
  rw [hcell, if_pos (Or.inr ⟨rfl, h.stored ▸ hv⟩)] at this
  cases this

/-- A pass of `dequeue` takes the value, or goes on to the next segment; it does not go past the
tail. -/
theorem Holds.dequeuePass (h : Holds c s r v) (rand : Nat) :
    (KFifo.dequeuePass c rand s).1 = some (popped v) ∨
      KFifo.dequeuePass c rand s = (none, (advanceHead c s s.head).2) ∧
        value s.head ≠ value s.tail := by
  unfold KFifo.dequeuePass
  dsimp only
  rw [if_pos rfl]
  split
  · rename_i index old hfind
    obtain ⟨hold, hval, hv⟩ := h.of_findIndex hfind
    left
    have hqueue : (if value s.head = value s.tail then (advanceTail c s s.tail).2 else s).queue =
        s.queue := by
      split
      · rw [advanceTail_self.1]
      · rfl
    rw [← hold, ← hqueue, swapCell_self, if_pos rfl, hqueue, hold, hval, popped, if_neg hv]
  · rename_i hfind
    split
    · rename_i heq
      left
      rw [popped, if_pos]
      by_contra hv
      rw [heq.1] at hfind
      exact h.findIndex_tail hv rand hfind
    · rename_i hne
      exact Or.inr ⟨rfl, fun heq => hne ⟨heq, rfl⟩⟩

/-- **`pop` returns, with what the one cell holds.** -/
theorem Holds.pop (h : Holds c s r v) (hlinked : Linked c s) (rand : Nat → Nat) :
    ∃ n s', ∀ fuel, n ≤ fuel → KFifo.pop c fuel rand s = some (popped v, s') := by
  obtain ⟨n, hn⟩ := hlinked
  induction n generalizing s rand with
  | zero =>
      rcases h.dequeuePass (rand 0) with hpass | ⟨-, hne⟩
      · refine ⟨1, (KFifo.dequeuePass c (rand 0) s).2, fun fuel hfuel => ?_⟩
        obtain ⟨fuel, rfl⟩ := Nat.exists_eq_add_of_le' hfuel
        rw [KFifo.pop, loop, ← Prod.mk.eta (p := KFifo.dequeuePass c (rand 0) s), hpass]
      · exact absurd hn.symm hne
  | succ n ih =>
      rcases h.dequeuePass (rand 0) with hpass | ⟨hpass, hne⟩
      · refine ⟨1, (KFifo.dequeuePass c (rand 0) s).2, fun fuel hfuel => ?_⟩
        obtain ⟨fuel, rfl⟩ := Nat.exists_eq_add_of_le' hfuel
        rw [KFifo.pop, loop, ← Prod.mk.eta (p := KFifo.dequeuePass c (rand 0) s), hpass]
      · obtain ⟨heq, hhead⟩ := advanceHead_self (c := c) (s := s)
        have hnext : Holds c (advanceHead c s s.head).2 r v := by
          rw [heq]
          exact ⟨h.offset, h.stored, h.others⟩
        have hsteps : value (advanceHead c s s.head).2.tail =
            (c.next)^[n] (value (advanceHead c s s.head).2.head) := by
          rw [hhead, heq, ← Function.iterate_succ_apply]
          exact hn
        obtain ⟨m, s', hm⟩ := ih hnext (fun n => rand (n + 1)) hsteps
        refine ⟨m + 1, s', fun fuel hfuel => ?_⟩
        obtain ⟨fuel, rfl⟩ := Nat.exists_eq_add_of_le' (Nat.le_of_add_left_le hfuel)
        rw [KFifo.pop, loop, hpass]
        exact hm fuel (by omega)

/-! ## §5 — items of work -/

/-- The push returns `true`, and the pop after it returns the item. -/
def Survives (c : Config) (s : Fifo) (item : Nat) (rand rand' : Nat → Nat) : Prop :=
  ∃ s₁ s₂, (∀ fuel, 1 ≤ fuel → push c fuel rand item s = some (true, s₁)) ∧
    ∃ n, ∀ fuel, n ≤ fuel → KFifo.pop c fuel rand' s₁ = some (some item, s₂)

/-- An item survives if it reads back from a cell as it is. -/
theorem survives_iff (hs : Reachable c s) (hempty : s.Empty c) {item : Nat} (hitem : item ≠ 0)
    (rand rand' : Nat → Nat) : Survives c s item rand rand' ↔ value item = item := by
  obtain ⟨s₁, hpush, htail, hhead, hholds⟩ := push_empty hempty hitem rand
  obtain ⟨n, s₂, hpop⟩ := hholds.pop (hs.linked.of_pointers htail hhead) rand'
  constructor
  · rintro ⟨s₁', s₂', hpush', n', hpop'⟩
    have hstate := (hpush 0).symm.trans (hpush' 1 (Nat.le_refl 1))
    cases hstate
    have hitem' := (hpop _ (Nat.le_max_left n n')).symm.trans (hpop' _ (Nat.le_max_right n n'))
    unfold popped at hitem'
    split at hitem'
    · cases hitem'
    · injection hitem' with hpair
      injection hpair with hsome
      exact Option.some.inj hsome
  · intro hvalue
    refine ⟨s₁, s₂, fun fuel hfuel => ?_, n, fun fuel hfuel => ?_⟩
    · obtain ⟨fuel, rfl⟩ := Nat.exists_eq_add_of_le' hfuel
      exact hpush fuel
    · rw [hpop fuel hfuel, hvalue, popped, if_neg hitem]

theorem makeItem_eq_add {i d v : Nat} (hi : i < 2 ^ 8) (hd : d < 2 ^ 24) (hv : v < 2 ^ 32) :
    makeItem d v i = i * 2 ^ 56 + d * 2 ^ 32 + v := by
  rw [Bfs.Multistart.makeItem_eq, Nat.mod_eq_of_lt hi, Nat.or_comm d,
    ← Nat.shiftLeft_add_eq_or_of_lt hd, ← Nat.shiftLeft_add_eq_or_of_lt hv, Nat.shiftLeft_eq,
    Nat.shiftLeft_eq]
  omega

/-- **Which items of work come back from the queue.** The upper 17 bits have to be equal: the array
and the upper nine bits of the label are all zero, or all one. -/
theorem item_survives_iff (hs : Reachable c s) (hempty : s.Empty c) {i d v : Nat} (hi : i < 2 ^ 8)
    (hpos : 1 ≤ d) (hd : d < 2 ^ 24) (hv : v < 2 ^ 32) (rand rand' : Nat → Nat) :
    Survives c s (makeItem d v i) rand rand' ↔
      i = 0 ∧ d < 2 ^ 15 ∨ i = 255 ∧ 2 ^ 24 - 2 ^ 15 ≤ d := by
  have heq := makeItem_eq_add hi hd hv
  rw [survives_iff hs hempty (by omega), value_eq, heq]
  split <;> omega

/-- Four segments of one cell. -/
def smallest : Config where
  roundedK := 1
  roundedSegments := 0
  fits := by simp [bitCeil]

theorem empty_init : Fifo.init.Empty c := fun _ _ => show value 0 = 0 by decide

/-- Node 7 with label 3 in array 0, through a new queue. -/
theorem item_survives_label_three :
    Survives smallest Fifo.init (makeItem 3 7 0) (fun _ => 0) (fun _ => 0) :=
  (item_survives_iff .init empty_init (by decide) (by decide) (by decide) (by decide) _ _).mpr
    (Or.inl ⟨rfl, by decide⟩)

/-- The first item of array 1 is no item of array 1 any more. -/
theorem not_survives_array_one :
    ¬ ∀ (c : Config) (s : Fifo) (i d v : Nat) (rand rand' : Nat → Nat), Reachable c s →
      s.Empty c → i < 2 ^ 8 → 1 ≤ d → d < 2 ^ 24 → v < 2 ^ 32 →
      Survives c s (makeItem d v i) rand rand' := by
  intro h
  have hitem := h smallest Fifo.init 1 1 0 (fun _ => 0) (fun _ => 0) .init empty_init (by decide)
    (by decide) (by decide) (by decide)
  rw [survives_iff .init empty_init (by decide)] at hitem
  revert hitem
  decide

end RelaxedConcurrentFifo.KFifo
