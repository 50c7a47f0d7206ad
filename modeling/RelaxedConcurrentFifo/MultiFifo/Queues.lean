/-
# RelaxedConcurrentFifo.MultiFifo.Queues — one queue under its lock

Everything that happens to a queue happens in a critical section, one access at a time. `QueueOk` is
what holds of a queue between ANY two accesses, also in the middle of a push or a pop: the values
popped from it are the first ones pushed to it, and the rest stands in the slots between `tail` and
`head`. `StageOk` is what the handle inside knows besides.

`head` and `tail` are 64-bit counters that may wrap; the number of slots divides `2 ^ 64`, so the slot
of a counter is that of the unbounded count it stands for.
-/
import RelaxedConcurrentFifo.MultiFifo.Machine
import Mathlib.Algebra.Order.Group.Multiset
import Mathlib.Data.Nat.ModEq

namespace RelaxedConcurrentFifo.MultiFifo

open RelaxedConcurrentFifo.Lib.Words

variable {T : Type} {c : Config}

/-! ## §1 — sizes and slots -/

theorem Config.sizePerQueue_eq (c : Config) : ∃ k ≤ 63, c.sizePerQueue = 2 ^ k := by
  refine ⟨Nat.clog 2 ((c.size + c.numQueues - 1) % 2 ^ 64 / c.numQueues), ?_, rfl⟩
  have h := Nat.clog_mono_right 2 c.share_le
  rwa [Nat.clog_pow 2 63 (by norm_num)] at h

theorem Config.sizePerQueue_pos (c : Config) : 0 < c.sizePerQueue := by
  obtain ⟨k, -, hk⟩ := c.sizePerQueue_eq
  rw [hk]
  exact Nat.two_pow_pos k

theorem Config.sizePerQueue_le (c : Config) : c.sizePerQueue ≤ 2 ^ 63 := by
  obtain ⟨k, hle, hk⟩ := c.sizePerQueue_eq
  rw [hk]
  exact Nat.pow_le_pow_right (by norm_num) hle

/-- A masked counter is the slot of the count it stands for, however often it has wrapped. -/
theorem and_mask (c : Config) (count : Nat) :
    count % 2 ^ 64 &&& c.mask = count % c.sizePerQueue := by
  obtain ⟨k, hle, hk⟩ := c.sizePerQueue_eq
  have hdvd : 2 ^ k ∣ 2 ^ 64 := pow_dvd_pow 2 (by omega)
  rw [Config.mask, hk, Nat.and_two_pow_sub_one_eq_mod, Nat.mod_mod_of_dvd _ hdvd]

/-- Two counts less than a queue apart have different slots. -/
theorem slot_ne {i j : Nat} (hlt : i < j) (hnear : j < i + c.sizePerQueue) :
    i % c.sizePerQueue ≠ j % c.sizePerQueue := by
  intro heq
  have hdvd := (Nat.modEq_iff_dvd' (Nat.le_of_lt hlt)).mp
    (show Nat.ModEq c.sizePerQueue i j from heq)
  have := Nat.le_of_dvd (by omega) hdvd
  omega

/-! ## §2 — what holds of a queue -/

/-- What holds of a queue between any two accesses. -/
structure QueueOk (c : Config) (q : Queue T) : Prop where
  head : q.head = q.pushed.length % 2 ^ 64
  tail : q.tail = q.popped.length % 2 ^ 64
  le : q.popped.length ≤ q.pushed.length
  room : q.pushed.length ≤ q.popped.length + c.sizePerQueue
  order : q.popped <+: q.pushed
  slots : ∀ i v, q.popped.length ≤ i → q.pushed[i]? = some v →
    (q.buffer (i % c.sizePerQueue)).value = v

/-- There is a free slot. -/
def HasRoom (c : Config) (q : Queue T) : Prop := q.pushed.length < q.popped.length + c.sizePerQueue

/-- The slot behind the last element holds the value that is being pushed. -/
def Placed (c : Config) (op : Op T) (q : Queue T) : Prop :=
  ∀ v, op = .push v → (q.buffer (q.pushed.length % c.sizePerQueue)).value = v

/-- What the handle inside the critical section knows. -/
def StageOk (c : Config) (op : Op T) (q : Queue T) : Stage T → Prop
  | .checkTail head => head = q.head
  | .pushRead => HasRoom c q
  | .pushWrite _ head => head = q.head ∧ HasRoom c q
  | .pushLoad => HasRoom c q ∧ Placed c op q
  | .pushStore head => head = q.head ∧ HasRoom c q ∧ Placed c op q
  | .topTail => q.popped.length < q.pushed.length
  | .topValue tail => tail = q.tail ∧ q.popped.length < q.pushed.length
  | .popLoad v => q.pushed[q.popped.length]? = some v
  | .popStore v tail => tail = q.tail ∧ q.pushed[q.popped.length]? = some v
  | .emptyHead v | .emptyTail v _ | .frontTail v | .frontTick v _ | .poppedOldest v _ _
  | .poppedNewest v | .unlockPopped v => q.popped.getLast? = some v
  | _ => True

variable {q : Queue T}

/-- The unsigned difference of the counters is the number of elements. -/
theorem QueueOk.sub64_eq (h : QueueOk c q) :
    sub64 q.head q.tail = q.pushed.length - q.popped.length := by
  have hle := h.le
  have hroom := h.room
  have hsize := c.sizePerQueue_le
  rw [sub64, h.head, h.tail]
  omega

theorem QueueOk.head_eq_tail_iff (h : QueueOk c q) :
    q.head = q.tail ↔ q.popped.length = q.pushed.length := by
  have hle := h.le
  have hroom := h.room
  have hsize := c.sizePerQueue_le
  rw [h.head, h.tail]
  omega

theorem QueueOk.fresh [Inhabited T] : QueueOk c (Queue.fresh : Queue T) :=
  ⟨rfl, rfl, Nat.le_refl _, Nat.zero_le _, List.prefix_refl _, fun _ _ _ h => nomatch h⟩

/-- Only the counters, the slots and the history matter. -/
theorem QueueOk.congr {q' : Queue T} (h : QueueOk c q) (hhead : q'.head = q.head)
    (htail : q'.tail = q.tail) (hbuffer : q'.buffer = q.buffer) (hpushed : q'.pushed = q.pushed)
    (hpopped : q'.popped = q.popped) : QueueOk c q' := by
  obtain ⟨h1, h2, h3, h4, h5, h6⟩ := h
  exact ⟨by rw [hhead, hpushed, h1], by rw [htail, hpopped, h2], by rw [hpopped, hpushed]; exact h3,
    by rw [hpopped, hpushed]; exact h4, by rw [hpopped, hpushed]; exact h5,
    by rw [hpopped, hpushed, hbuffer]; exact h6⟩

/-- Writing the free slot behind the last element. -/
theorem QueueOk.write (h : QueueOk c q) (hroom : HasRoom c q) (e : Element T) :
    QueueOk c { q with buffer := Function.update q.buffer (q.head &&& c.mask) e } := by
  refine ⟨h.head, h.tail, h.le, h.room, h.order, fun i v hi hv => ?_⟩
  change q.popped.length ≤ i at hi
  have hlt : i < q.pushed.length := (List.getElem?_eq_some_iff.mp hv).1
  have hne : i % c.sizePerQueue ≠ q.pushed.length % c.sizePerQueue :=
    slot_ne hlt (by unfold HasRoom at hroom; omega)
  show (Function.update q.buffer (q.head &&& c.mask) e (i % c.sizePerQueue)).value = v
  rw [h.head, and_mask, Function.update_of_ne hne]
  exact h.slots i v hi hv

/-- Counting a written slot in. -/
theorem QueueOk.push {v : T} (h : QueueOk c q) (hroom : HasRoom c q)
    (hplaced : (q.buffer (q.pushed.length % c.sizePerQueue)).value = v) :
    QueueOk c { q with head := (q.head + 1) % 2 ^ 64, pushed := q.pushed ++ [v] } := by
  have hlen : (q.pushed ++ [v]).length = q.pushed.length + 1 := by
    rw [List.length_append, List.length_singleton]
  refine ⟨?_, h.tail, ?_, ?_, h.order.trans (List.prefix_append _ _), fun i w hi hw => ?_⟩
  · show (q.head + 1) % 2 ^ 64 = (q.pushed ++ [v]).length % 2 ^ 64
    rw [hlen, h.head, Nat.mod_add_mod]
  · show q.popped.length ≤ (q.pushed ++ [v]).length
    have := h.le
    omega
  · show (q.pushed ++ [v]).length ≤ q.popped.length + c.sizePerQueue
    unfold HasRoom at hroom
    omega
  · change (q.pushed ++ [v])[i]? = some w at hw
    by_cases hlast : i < q.pushed.length
    · rw [List.getElem?_append_left hlast] at hw
      exact h.slots i w hi hw
    · have hi' : i = q.pushed.length := by
        have := (List.getElem?_eq_some_iff.mp hw).1
        omega
      rw [hi', List.getElem?_append_right (Nat.le_refl _), Nat.sub_self] at hw
      cases hw
      rw [hi']
      exact hplaced

/-- Counting the oldest element out. -/
theorem QueueOk.pop {v : T} (h : QueueOk c q) (hv : q.pushed[q.popped.length]? = some v) :
    QueueOk c { q with tail := (q.tail + 1) % 2 ^ 64, popped := q.popped ++ [v] } := by
  obtain ⟨hlt, hget⟩ := List.getElem?_eq_some_iff.mp hv
  have hlen : (q.popped ++ [v]).length = q.popped.length + 1 := by
    rw [List.length_append, List.length_singleton]
  refine ⟨h.head, ?_, ?_, ?_, ?_, fun i w hi hw => h.slots i w ?_ hw⟩
  · show (q.tail + 1) % 2 ^ 64 = (q.popped ++ [v]).length % 2 ^ 64
    rw [hlen, h.tail, Nat.mod_add_mod]
  · show (q.popped ++ [v]).length ≤ q.pushed.length
    omega
  · show q.pushed.length ≤ (q.popped ++ [v]).length + c.sizePerQueue
    have := h.room
    omega
  · show q.popped ++ [v] <+: q.pushed
    rw [List.prefix_iff_eq_take.mp h.order]
    have htake : q.pushed.take q.popped.length ++ [v] = q.pushed.take (q.popped.length + 1) := by
      rw [List.take_succ_eq_append_getElem hlt, hget]
    rw [htake]
    exact List.take_prefix _ _
  · change (q.popped ++ [v]).length ≤ i at hi
    omega

/-! ## §3 — one access -/

/-- An access keeps the queue in order, the handle's knowledge, and the lock until it leaves. -/
structure AccessOk (c : Config) (op : Op T) (q q' : Queue T) (outcome : Outcome T) : Prop where
  queue : QueueOk c q'
  stay : ∀ stage, outcome = .stay stage → StageOk c op q' stage ∧ q'.lock = q.lock
  left : (∀ stage, outcome ≠ .stay stage) → q'.lock = 0
  popped : ∀ v, outcome = .popped v → q'.popped.getLast? = some v

/-- An access that stays inside. -/
theorem AccessOk.of_stay {op : Op T} {q' : Queue T} {stage : Stage T} (hqueue : QueueOk c q')
    (hstage : StageOk c op q' stage) (hlock : q'.lock = q.lock) :
    AccessOk c op q q' (.stay stage) where
  queue := hqueue
  stay stage' h := by
    cases h
    exact ⟨hstage, hlock⟩
  left h := absurd rfl (h stage)
  popped _ h := nomatch h

/-- An access that unlocks. -/
theorem AccessOk.of_unlock {op : Op T} {outcome : Outcome T} (hqueue : QueueOk c q)
    (hleft : ∀ stage, outcome ≠ .stay stage)
    (hpopped : ∀ v, outcome = .popped v → q.popped.getLast? = some v) :
    AccessOk c op q { q with lock := 0 } outcome where
  queue := hqueue.congr rfl rfl rfl rfl rfl
  stay stage h := absurd h (hleft stage)
  left _ := rfl
  popped := hpopped

theorem checked_ok {op : Op T} {head : Nat} (h : QueueOk c q) (hhead : head = q.head) :
    StageOk c op q (checked c op head q.tail) := by
  have hle := h.le
  have hroom := h.room
  rw [hhead]
  unfold checked
  cases op with
  | push v =>
      dsimp only
      rw [h.sub64_eq]
      split
      · trivial
      · show HasRoom c q
        unfold HasRoom
        omega
  | pop =>
      dsimp only
      split
      · trivial
      · rename_i hne
        rw [h.head_eq_tail_iff] at hne
        show q.popped.length < q.pushed.length
        omega

theorem access_ok {op : Op T} (time : Nat) {stage : Stage T} (h : QueueOk c q)
    (hstage : StageOk c op q stage) :
    AccessOk c op q (q.access c op time stage).1 (q.access c op time stage).2 := by
  cases stage with
  | checkHead => exact .of_stay h rfl rfl
  | checkTail head => exact .of_stay h (checked_ok h hstage) rfl
  | unlockRejected => exact .of_unlock h nofun nofun
  | pushRead => exact .of_stay h ⟨rfl, hstage⟩ rfl
  | pushWrite tick head =>
      cases op with
      | pop => exact .of_stay h hstage rfl
      | push v =>
          obtain ⟨rfl, hroom⟩ := hstage
          refine .of_stay (h.write hroom ⟨tick, v⟩) ⟨hroom, fun w hw => ?_⟩ rfl
          cases hw
          show (Function.update q.buffer (q.head &&& c.mask) ⟨tick, v⟩
            (q.pushed.length % c.sizePerQueue)).value = v
          rw [h.head, and_mask, Function.update_self]
  | pushLoad => exact .of_stay h ⟨rfl, hstage⟩ rfl
  | pushStore head =>
      cases op with
      | pop => exact .of_stay h hstage rfl
      | push v =>
          obtain ⟨rfl, hroom, hplaced⟩ := hstage
          refine .of_stay (h.push hroom (hplaced v rfl)) ?_ rfl
          split <;> trivial
  | pushedOldest =>
      refine .of_stay h ?_ rfl
      split <;> trivial
  | pushedTail => exact .of_stay h trivial rfl
  | pushedTick tail => exact .of_stay h trivial rfl
  | bottomHead => exact .of_stay h trivial rfl
  | bottomTick head => exact .of_stay h trivial rfl
  | storeNewest tick => exact .of_stay (h.congr rfl rfl rfl rfl rfl) trivial rfl
  | sizeHead tick => exact .of_stay h trivial rfl
  | sizeTail tick head =>
      refine .of_stay h ?_ rfl
      split <;> trivial
  | storeOldest tick => exact .of_stay (h.congr rfl rfl rfl rfl rfl) trivial rfl
  | topTail => exact .of_stay h ⟨rfl, hstage⟩ rfl
  -- the slot at the tail holds the oldest element that is still to be popped
  | topValue tail =>
      obtain ⟨rfl, hlt⟩ := hstage
      refine .of_stay h ?_ rfl
      show q.pushed[q.popped.length]? = some (q.buffer (q.tail &&& c.mask)).value
      have hget := List.getElem?_eq_getElem hlt
      rw [h.tail, and_mask, h.slots _ _ (Nat.le_refl _) hget, hget]
  | popLoad v => exact .of_stay h ⟨rfl, hstage⟩ rfl
  | popStore v tail =>
      obtain ⟨rfl, hv⟩ := hstage
      exact .of_stay (h.pop hv) (List.getLast?_concat ..) rfl
  | emptyHead v => exact .of_stay h hstage rfl
  | emptyTail v head =>
      refine .of_stay h ?_ rfl
      split <;> exact hstage
  | frontTail v => exact .of_stay h hstage rfl
  | frontTick v tail => exact .of_stay h hstage rfl
  | poppedOldest v tick empty =>
      refine .of_stay (h.congr rfl rfl rfl rfl rfl) ?_ rfl
      split <;> exact hstage
  | poppedNewest v => exact .of_stay (h.congr rfl rfl rfl rfl rfl) hstage rfl
  | unlockPushed => exact .of_unlock h nofun nofun
  | unlockPopped v =>
      refine .of_unlock h nofun fun w hw => ?_
      cases hw
      exact hstage

/-! ## §4 — what an access moves -/

/-- The value that a pop has taken out of the queue and not returned yet. -/
def Stage.taken : Stage T → Multiset T
  | .emptyHead v | .emptyTail v _ | .frontTail v | .frontTick v _ | .poppedOldest v _ _
  | .poppedNewest v | .unlockPopped v => {v}
  | _ => 0

/-- The push has put its value into the queue and not returned yet. -/
def Stage.placed : Stage T → Bool
  | .pushedOldest | .pushedTail | .pushedTick _ | .bottomHead | .bottomTick _ | .storeNewest _
  | .sizeHead _ | .sizeTail _ _ | .storeOldest _ | .unlockPushed => true
  | _ => false

/-- What a push has put into the queue and not returned yet. -/
def Stage.given (op : Op T) (stage : Stage T) : Multiset T := if stage.placed then op.values else 0

def Outcome.taken : Outcome T → Multiset T
  | .stay stage => stage.taken
  | .popped v => {v}
  | _ => 0

def Outcome.given (op : Op T) : Outcome T → Multiset T
  | .stay stage => stage.given op
  | .pushed => op.values
  | _ => 0

theorem taken_checked (op : Op T) (head tail : Nat) :
    (checked c op head tail).taken = 0 ∧ (checked c op head tail).given op = 0 := by
  unfold checked
  cases op with
  | push v => dsimp only; split <;> exact ⟨rfl, rfl⟩
  | pop => dsimp only; split <;> exact ⟨rfl, rfl⟩

/-- What leaves the queue is taken by the pop that is inside, and nothing else is. -/
theorem access_taken (c : Config) (op : Op T) (time : Nat) (q : Queue T) (stage : Stage T) :
    ((q.access c op time stage).1.popped : Multiset T) + stage.taken =
      q.popped + (q.access c op time stage).2.taken := by
  cases stage with
  | checkTail head => exact congrArg _ (taken_checked op head q.tail).1.symm
  | pushWrite tick head => cases op <;> rfl
  | pushStore head =>
      cases op with
      | push v => dsimp only [Queue.access, Outcome.taken]; split <;> rfl
      | pop => rfl
  | pushedOldest => dsimp only [Queue.access, Outcome.taken]; split <;> rfl
  | sizeTail tick head => dsimp only [Queue.access, Outcome.taken]; split <;> rfl
  | popStore v tail =>
      show ((q.popped ++ [v] : List T) : Multiset T) + 0 = q.popped + ({v} : Multiset T)
      rw [add_zero, ← Multiset.coe_add, Multiset.coe_singleton]
  | emptyTail v head => dsimp only [Queue.access, Outcome.taken]; split <;> rfl
  | poppedOldest v tick empty => dsimp only [Queue.access, Outcome.taken]; split <;> rfl
  | _ => rfl

/-- What enters the queue is given by the push that is inside, and nothing else is. -/
theorem access_given (c : Config) (op : Op T) (time : Nat) (q : Queue T) (stage : Stage T) :
    ((q.access c op time stage).1.pushed : Multiset T) + stage.given op =
      q.pushed + (q.access c op time stage).2.given op := by
  cases stage with
  | checkTail head => exact congrArg _ (taken_checked op head q.tail).2.symm
  | pushWrite tick head => cases op <;> rfl
  | pushStore head =>
      cases op with
      | push v =>
          have hgiven : (Queue.access c (.push v) time q (.pushStore head)).2.given (.push v) =
              ([v] : Multiset T) := by
            dsimp only [Queue.access, Outcome.given]
            split <;> rfl
          show ((q.pushed ++ [v] : List T) : Multiset T) + 0 = _
          rw [hgiven, add_zero, ← Multiset.coe_add]
      | pop => rfl
  | pushedOldest => dsimp only [Queue.access, Outcome.given]; split <;> rfl
  | sizeTail tick head => dsimp only [Queue.access, Outcome.given]; split <;> rfl
  | emptyTail v head => dsimp only [Queue.access, Outcome.given]; split <;> rfl
  | poppedOldest v tick empty => dsimp only [Queue.access, Outcome.given]; split <;> rfl
  | _ => rfl

/-! ## §5 — what stands in a queue -/

/-- The values between `tail` and `head`, oldest first. -/
def Queue.contents (c : Config) (q : Queue T) : List T :=
  (List.range (sub64 q.head q.tail)).map fun i =>
    (q.buffer ((q.tail + i) % 2 ^ 64 &&& c.mask)).value

/-- **The values popped and those that stand in the queue are the values pushed, in their order.** -/
theorem QueueOk.popped_append_contents (h : QueueOk c q) :
    q.popped ++ q.contents c = q.pushed := by
  have hle := h.le
  have hcontents : q.contents c = q.pushed.drop q.popped.length := by
    apply List.ext_getElem?
    intro i
    rw [Queue.contents, List.getElem?_map, List.getElem?_drop, h.sub64_eq]
    by_cases hi : i < q.pushed.length - q.popped.length
    · have hlt : q.popped.length + i < q.pushed.length := by omega
      have hget := List.getElem?_eq_getElem hlt
      rw [List.getElem?_range hi, hget, Option.map_some, h.tail, Nat.mod_add_mod, and_mask,
        h.slots _ _ (Nat.le_add_right _ _) hget]
    · rw [List.getElem?_eq_none (by rw [List.length_range]; omega),
        List.getElem?_eq_none (by omega), Option.map_none]
  rw [hcontents]
  conv_lhs => rw [List.prefix_iff_eq_take.mp h.order]
  rw [List.length_take, Nat.min_eq_left hle]
  exact List.take_append_drop _ _

end RelaxedConcurrentFifo.MultiFifo
