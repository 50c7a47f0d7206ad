/-
# RelaxedConcurrentFifo.BlockBasedQueue.Sequential — calls that do not overlap

A run without overlap is a list of calls, each brought to its end before the next one begins. Any
handle may be the next to call, the start bits are free, and every weak compare-and-swap may fail
without a reason; in `Reliable` calls none does. `Quiet` is what holds between two such calls,
`Complete` a list of calls that have all come to their end while `global_write_window` was in the
range in which epochs can be compared.

Seen from outside, the queue is then a multiset (`refinesMultiset`): a successful push adds its
value, a pop takes a member or finds none, `size` and `size_full` count, and every single block is a
FIFO queue.
-/
import RelaxedConcurrentFifo.BlockBasedQueue.Calls
import Mathlib.Order.Interval.Finset.Nat

namespace RelaxedConcurrentFifo.BlockBasedQueue

open RelaxedConcurrentFifo.Lib.Runs
open RelaxedConcurrentFifo.Lib.Words (sub64)

variable {T : Type} {n : Nat}

/-! ## §1 — calls -/

/-- `push(t)` with a value other than 0, or `pop()`. -/
inductive Op (T : Type) [Zero T] where
  | push (t : T) (ht : t ≠ 0)
  | pop

variable [Zero T]

/-- The action that begins the call. -/
def Op.action (c : Config) : Op T → Action c T
  | .push t ht => .push t ht
  | .pop => .pop

/-- The program point of its first access. -/
def Op.entry : Op T → Pc T
  | .push t _ => .pushLoad t
  | .pop => .popLoad

/-- A call by a handle, with what is chosen at each access: what `random_bit_index()` returns, and
whether a weak compare-and-swap fails without a reason. -/
structure Call (c : Config) (T : Type) [Zero T] (n : Nat) where
  handle : Fin n
  op : Op T
  choices : List (Choice c)

def Call.steps {c : Config} (call : Call c T n) : List (Fin n × Action c T) :=
  (call.handle, call.op.action c) ::
    call.choices.map fun choice => (call.handle, .run choice.1 choice.2)

/-- No weak compare-and-swap fails without a reason. -/
def Call.Reliable {c : Config} (call : Call c T n) : Prop := ∀ choice ∈ call.choices, choice.2 = false

/-- The state after a list of calls on a fresh queue. -/
def after [DecidableEq T] (c : Config) (calls : List (Call c T n)) : State T n :=
  (State.fresh c n).run c (calls.flatMap Call.steps)

/-- The handle is between two calls. -/
def Handle.Idle (hd : Handle T) : Prop := ∃ last, hd.pc = .idle last

/-- `global_write_window` is below `(2 ^ 31 - 1) * window_count`, and it has not wrapped. With up to
`2 ^ 33` windows the first says the second. -/
def InRange (c : Config) (m : Shared T) : Prop :=
  m.globalWriteWindow < (2 ^ 31 - 1) * c.windowCount ∧
    (c.windowCountLog2 ≤ 33 ∨ m.globalWriteWindow + 1 < 2 ^ 64)

omit [Zero T] in
theorem InRange.half {c : Config} {m : Shared T} (h : InRange c m) : EpochsHalf c m := by
  refine ⟨?_, ?_⟩
  · rw [c.windowToEpoch_eq]
    exact Nat.div_lt_of_lt_mul (by rw [Nat.mul_comm]; exact h.1)
  · rcases h.2 with hlog | hlt
    · have hcount : c.windowCount ≤ 2 ^ 33 := Nat.pow_le_pow_right (by norm_num) hlog
      have hbound := h.1
      omega
    · exact hlt

/-- All calls have been brought to their end, within the range of the window counter. -/
inductive Complete [DecidableEq T] (c : Config) : List (Call c T n) → Prop
  | nil : Complete c []
  | concat {calls : List (Call c T n)} {call : Call c T n} (hcalls : Complete c calls)
      (hrange : ∀ k ≤ call.steps.length,
        InRange c ((after c calls).run c (call.steps.take k)).shared)
      (hidle : ((after c (calls ++ [call])).handles call.handle).Idle) :
      Complete c (calls ++ [call])

theorem after_concat [DecidableEq T] {c : Config} (calls : List (Call c T n)) (call : Call c T n) :
    after c (calls ++ [call]) = (after c calls).run c call.steps := by
  rw [after, List.flatMap_append, List.flatMap_singleton, State.run, List.foldl_append]
  rfl

/-! ## §2 — a call as a walk of its handle -/

section Walk

variable {c : Config} {s : State T n}

/-- One handle has moved on, with the memory. -/
def State.put (s : State T n) (h : Fin n) (x : Shared T × Handle T) : State T n :=
  ⟨x.1, Function.update s.handles h x.2⟩

omit [Zero T] in
theorem State.put_self (s : State T n) (h : Fin n) (x : Shared T × Handle T) :
    (s.put h x).handles h = x.2 := Function.update_self _ _ _

variable [DecidableEq T]

theorem run_choices (h : Fin n) (x : Shared T × Handle T) (choices : List (Choice c)) :
    (s.put h x).run c (choices.map fun choice => (h, .run choice.1 choice.2)) =
      s.put h (choices.foldl (callStep c) x) := by
  induction choices generalizing x with
  | nil => rfl
  | cons choice choices ih =>
      have hstep : (s.put h x).step c (h, .run choice.1 choice.2) =
          s.put h (callStep c x choice) := by
        rw [State.step, State.put_self]
        show State.mk _ (Function.update (Function.update _ _ _) _ _) = _
        rw [Function.update_idem]
        rfl
      rw [List.map_cons, State.run, List.foldl_cons, hstep]
      exact ih _

/-- The states of a call that an idle handle makes. -/
theorem run_steps (call : Call c T n) (hidle : (s.handles call.handle).Idle) (k : Nat) :
    s.run c (call.steps.take (k + 1)) = s.put call.handle ((call.choices.take k).foldl (callStep c)
      (s.shared, (s.handles call.handle).goto call.op.entry)) := by
  obtain ⟨last, hpc⟩ := hidle
  have hbegin : s.step c (call.handle, call.op.action c) =
      s.put call.handle (s.shared, (s.handles call.handle).goto call.op.entry) := by
    obtain ⟨h, op, choices⟩ := call
    cases op with
    | push t ht => simp only [State.step, stepHandle, Op.action, hpc]; rfl
    | pop => simp only [State.step, stepHandle, Op.action, hpc]; rfl
  rw [Call.steps, List.take_succ_cons, State.run, List.foldl_cons, hbegin, ← List.map_take]
  exact run_choices _ _ _

end Walk

/-! ## §3 — between two calls -/

/-- What holds between two calls. -/
structure Quiet (c : Config) (strict : Prop) (s : State T n) : Prop where
  shared : QuietInv c strict s.shared none
  caches : ∀ h, CacheOk c s.shared (s.handles h)
  idle : ∀ h, (s.handles h).Idle

/-- What a call leaves. -/
def CallEnd (c : Config) (strict : Prop) (op : Op T) (m : Shared T) (hd : Handle T)
    (x : Shared T × Handle T) : Prop :=
  match op with
  | .push t _ => PushEnd c strict m hd t x
  | .pop => PopEnd c strict m hd x

section CallEnd

variable {c : Config} {strict : Prop} {m : Shared T} {hd : Handle T} {x : Shared T × Handle T}
  {op : Op T}

theorem CallEnd.quiet (h : CallEnd c strict op m hd x) : QuietInv c strict x.1 none := by
  cases op with
  | push t ht => exact PushEnd.quiet h
  | pop => exact PopEnd.quiet h

theorem CallEnd.keeps (h : CallEnd c strict op m hd x) : Keeps c m x.1 := by
  cases op with
  | push t ht => exact PushEnd.keeps h
  | pop => exact PopEnd.keeps h

theorem CallEnd.cache (h : CallEnd c strict op m hd x) : CacheOk c x.1 x.2 := by
  cases op with
  | push t ht => exact PushEnd.cache h
  | pop => exact PopEnd.cache h

theorem CallEnd.idle (h : CallEnd c strict op m hd x) : x.2.Idle := by
  cases op with
  | push t ht =>
      rcases PushEnd.result h with ha | hr
      · exact ⟨_, ha.returned⟩
      · exact ⟨_, hr.returned⟩
  | pop =>
      rcases PopEnd.result h with ⟨y, hp⟩ | hn
      · exact ⟨_, hp.returned⟩
      · exact ⟨_, hn.returned⟩

variable [DecidableEq T]

theorem call_finishes (hmax : c.cellsPerBlock ≤ 65535) {k : Nat} (hstrict : strict → k = 0)
    (inv : QuietInv c strict m none) (hcache : CacheOk c m hd) :
    Finishes c (CallEnd c strict op m hd) k (m, hd.goto op.entry) := by
  cases op with
  | push t ht => exact push_finishes hmax hstrict inv hcache ht
  | pop => exact pop_finishes hmax k inv hcache

theorem callStep_idle (x : Shared T × Handle T) (choice : Choice c) (h : x.2.Idle) :
    callStep c x choice = x := by
  obtain ⟨m, hd⟩ := x
  obtain ⟨last, hpc⟩ := h
  rw [callStep, runStep, hpc]

end CallEnd

/-- Handle `h` makes a call that comes to its end. -/
structure Turn (c : Config) (strict : Prop) (s : State T n) (h : Fin n) (op : Op T)
    (s' : State T n) : Prop where
  before : Quiet c strict s
  inRange : EpochsHalf c s.shared
  callEnd : CallEnd c strict op s.shared (s.handles h) (s'.shared, s'.handles h)
  others : ∀ h' ≠ h, s'.handles h' = s.handles h'
  after : Quiet c strict s'
  inRange' : EpochsHalf c s'.shared

section Turn

variable {c : Config} {strict : Prop} {s s' : State T n} {h : Fin n}

theorem Turn.pushed {t : T} {ht : t ≠ 0} (hturn : Turn c strict s h (.push t ht) s') :
    Accepted c strict s.shared (s.handles h) t s'.shared (s'.handles h) ∨
      Rejected c strict s.shared (s.handles h) s'.shared (s'.handles h) :=
  PushEnd.result hturn.callEnd

theorem Turn.popped (hturn : Turn c strict s h .pop s') :
    (∃ x, Popped c s.shared x s'.shared (s'.handles h)) ∨
      NothingLeft c s.shared s'.shared (s'.handles h) := PopEnd.result hturn.callEnd

end Turn

section Quiet

variable {c : Config} {strict : Prop} {s : State T n}

/-- **A call that has come to its end.** -/
theorem Quiet.turn [DecidableEq T] (hmax : c.cellsPerBlock ≤ 65535) (hquiet : Quiet c strict s)
    (call : Call c T n) (hreliable : strict → call.Reliable)
    (hrange : ∀ k ≤ call.steps.length, InRange c (s.run c (call.steps.take k)).shared)
    (hidle : ((s.run c call.steps).handles call.handle).Idle) :
    Turn c strict s call.handle call.op (s.run c call.steps) := by
  have hlength : call.steps.length = call.choices.length + 1 := by
    rw [Call.steps, List.length_cons, List.length_map]
  have hlast := hrange call.steps.length (Nat.le_refl _)
  rw [List.take_length] at hlast
  have hsteps := run_steps call (hquiet.idle call.handle)
  have hall : s.run c call.steps = s.put call.handle (call.choices.foldl (callStep c)
      (s.shared, (s.handles call.handle).goto call.op.entry)) := by
    have := hsteps call.choices.length
    rwa [← hlength, List.take_length, List.take_length] at this
  -- a reliable call has no spurious failure
  have hstrict : strict → call.choices.countP Prod.snd = 0 := fun hstrict =>
    List.countP_eq_zero.mpr fun choice hmem => by rw [hreliable hstrict choice hmem]; decide
  have hend : CallEnd c strict call.op s.shared (s.handles call.handle)
      (call.choices.foldl (callStep c) (s.shared, (s.handles call.handle).goto call.op.entry)) := by
    refine Ends.of_stopped (fun x => x.2.Idle)
      (call_finishes hmax hstrict hquiet.shared (hquiet.caches call.handle)) (fun x h => h.idle)
      callStep_idle ⟨(⟨0, c.blocksPerWindow_pos⟩, false), rfl⟩ call.choices (Nat.le_refl _)
      (fun k hk => ?_) ?_
    · have hk' := hrange (k + 1) (by omega)
      rw [hsteps k] at hk'
      exact hk'.half
    · rwa [hall, State.put_self] at hidle
  -- no other handle takes a step during the call
  have hother : ∀ h ≠ call.handle, (s.run c call.steps).handles h = s.handles h := by
    intro h hne
    rw [hall]
    exact Function.update_of_ne hne _ _
  refine ⟨hquiet, (hrange 0 (Nat.zero_le _)).half, ?_, hother, ⟨?_, fun h => ?_, fun h => ?_⟩,
    hlast.half⟩
  · rw [hall, State.put_self]
    exact hend
  · rw [hall]
    exact hend.quiet
  · by_cases heq : h = call.handle
    · rw [heq, hall, State.put_self]
      exact hend.cache
    · rw [hother h heq, hall]
      exact (hquiet.caches h).mono hend.keeps
  · by_cases heq : h = call.handle
    · rw [heq, hall, State.put_self]
      exact hend.idle
    · rw [hother h heq]
      exact hquiet.idle h

theorem Quiet.fresh (c : Config) (n : Nat) : Quiet c strict (State.fresh c n : State T n) :=
  ⟨QuietInv.fresh c, fun _ => CacheOk.fresh c, fun _ => ⟨none, rfl⟩⟩

variable [DecidableEq T]

/-- **Between the calls of a complete list everything is quiet.** -/
theorem Complete.quiet (hmax : c.cellsPerBlock ≤ 65535) {calls : List (Call c T n)}
    (h : Complete c calls) (hreliable : strict → ∀ call ∈ calls, call.Reliable) :
    Quiet c strict (after c calls) := by
  induction h with
  | nil => exact Quiet.fresh c n
  | @concat calls call _ hrange hidle ih =>
      rw [after_concat] at hidle ⊢
      refine (Quiet.turn hmax (ih fun hstrict call' hmem => hreliable hstrict call'
        (List.mem_append_left _ hmem)) call (fun hstrict => ?_) hrange hidle).after
      exact hreliable hstrict call (List.mem_append_right _ List.mem_cons_self)

/-- The last call of a complete list. -/
theorem Complete.last (hmax : c.cellsPerBlock ≤ 65535) {calls : List (Call c T n)}
    {call : Call c T n} (h : Complete c (calls ++ [call]))
    (hreliable : strict → ∀ call' ∈ calls ++ [call], call'.Reliable) :
    Complete c calls ∧
      Turn c strict (after c calls) call.handle call.op (after c (calls ++ [call])) := by
  generalize hl : calls ++ [call] = l at h
  cases h with
  | nil => exact absurd hl (List.append_ne_nil_of_right_ne_nil _ (List.cons_ne_nil _ _))
  | @concat calls' call' hcalls hrange hidle =>
      obtain ⟨rfl, hcall⟩ := List.append_inj' hl rfl
      obtain rfl := List.singleton_inj.mp hcall
      rw [after_concat] at hidle ⊢
      have hquiet : Quiet c strict (after c calls) := hcalls.quiet hmax fun hstrict call' hmem =>
        hreliable hstrict call' (List.mem_append_left _ hmem)
      refine ⟨hcalls, hquiet.turn hmax call (fun hstrict => ?_) hrange hidle⟩
      exact hreliable hstrict call (List.mem_append_right _ List.mem_cons_self)

/-- **Every call comes to its end**, however the start bits are chosen and wherever finitely many weak
compare-and-swaps fail without a reason. -/
theorem Quiet.terminates (hmax : c.cellsPerBlock ≤ 65535) (hquiet : Quiet c False s) (h : Fin n)
    (op : Op T) (f : Nat → Choice c) {bound : Nat} (hbound : ∀ k ≥ bound, (f k).2 = false)
    (hrange : ∀ k, InRange c (s.run c (Call.steps ⟨h, op, (List.range k).map f⟩)).shared) :
    ∃ k, ((s.run c (Call.steps ⟨h, op, (List.range k).map f⟩)).handles h).Idle := by
  have hall : ∀ k, s.run c (Call.steps ⟨h, op, (List.range k).map f⟩) =
      s.put h (((List.range k).map f).foldl (callStep c) (s.shared, (s.handles h).goto op.entry)) := by
    intro k
    have hsteps := run_steps ⟨h, op, (List.range k).map f⟩ (hquiet.idle h) k
    rwa [List.take_of_length_le (by simp [Call.steps]), List.take_of_length_le (by simp)] at hsteps
  obtain ⟨k, hk⟩ := Ends.exists_done (call_finishes hmax False.elim hquiet.shared (hquiet.caches h)) f
    (Ends.countP_le hbound) fun k => by
      have hk := hrange k
      rw [hall k] at hk
      exact hk.half
  refine ⟨k, ?_⟩
  rw [hall k, State.put_self]
  exact hk.idle

end Quiet

/-! ## §4 — the multiset -/

section Live

variable {c : Config} {strict : Prop} {m m' : Shared T} {hd hd' : Handle T} {t : T}

theorem exists_slot (v : Nat) {index : Nat} (hi : index < c.blocksPerWindow) :
    ∃ k < c.blockCount, blockAt c v index = .slot k :=
  ⟨_, getBlock_lt c (c.windowToIndex_lt v) hi, rfl⟩

/-- Every block of the buffer is a block of the lap. -/
theorem exists_inLap (r : Nat) {k : Nat} (hk : k < c.blockCount) :
    ∃ v index, r ≤ v ∧ v < r + c.windowCount ∧ index < c.blocksPerWindow ∧
      Block.slot k = blockAt c v index := by
  obtain ⟨p, hp, index, hi, hb⟩ := exists_getBlock c hk
  obtain ⟨v, hv, hp'⟩ : ∃ v ∈ Finset.Ico r (r + c.windowCount), v % c.windowCount = p := by
    rw [← Finset.mem_image (f := (· % c.windowCount)), Nat.image_Ico_mod, Finset.mem_range]
    exact hp
  rw [Finset.mem_Ico] at hv
  exact ⟨v, index, hv.1, hv.2, hi, by rw [hb, blockAt, c.windowToIndex_eq, hp']⟩

omit [Zero T] in
theorem blockValues_eq (hheader : m'.header = m.header) (hcell : m'.cell = m.cell) (b : Block) :
    blockValues m' b = blockValues m b :=
  blockValues_congr (congrFun hheader b) fun i _ => congrFun (congrFun hcell b) i

omit [Zero T] in
/-- All blocks but one are as they were. -/
theorem live_changed (c : Config) {v index : Nat} (hi : index < c.blocksPerWindow)
    (h : ∀ b ≠ blockAt c v index, blockValues m' b = blockValues m b) :
    live c m' + (blockValues m (blockAt c v index) : Multiset T) =
      live c m + (blockValues m' (blockAt c v index) : Multiset T) := by
  obtain ⟨k, hk, hb⟩ := exists_slot (c := c) v hi
  rw [hb] at h ⊢
  exact live_exchange c hk fun j _ hne => h _ fun he => hne (Block.slot.inj he)

omit [Zero T] in
theorem Accepted.live (h : Accepted c strict m hd t m' hd') : live c m' = t ::ₘ live c m := by
  obtain ⟨v, index, hlap, -, hb, -, -⟩ := h.block
  have hothers : ∀ b ≠ blockAt c v index, blockValues m' b = blockValues m b := by
    intro b hne
    obtain ⟨hheader, hcell⟩ := h.others b (hb ▸ hne)
    exact blockValues_congr hheader fun i _ => congrFun hcell i
  have hvalues := h.values
  rw [hb] at hvalues
  have hchanged := live_changed c hlap.index hothers
  rw [hvalues, ← Multiset.coe_add, ← add_assoc, add_right_comm] at hchanged
  rw [add_right_cancel hchanged, Multiset.coe_singleton, add_comm, Multiset.singleton_add]

omit [Zero T] in
theorem Popped.live {x : T} (h : Popped c m x m' hd') : live c m = x ::ₘ live c m' := by
  obtain ⟨v, index, hlap, -, -, hb, -, -⟩ := h.block
  have hothers : ∀ b ≠ blockAt c v index, blockValues m' b = blockValues m b :=
    fun b hne => h.others b (hb ▸ hne)
  have hvalues := h.values
  rw [hb] at hvalues
  have hchanged := live_changed c hlap.index hothers
  rw [hvalues, ← Multiset.cons_coe, ← Multiset.singleton_add, ← add_assoc] at hchanged
  rw [← add_right_cancel hchanged, add_comm, Multiset.singleton_add]

theorem Rejected.values (h : Rejected c strict m hd m' hd') (b : Block) :
    blockValues m' b = blockValues m b := blockValues_eq h.seeking.header h.seeking.cell b

/-- A queue without a claimed block has no element. -/
theorem QuietInv.live_eq_zero (inv : QuietInv c strict m none)
    (h : ∀ v index, InLap c m v index → ¬ Claimed c m v index) : live c m = 0 := by
  refine Finset.sum_eq_zero fun k hk => ?_
  obtain ⟨v, index, hge, hlt, hi, hb⟩ := exists_inLap m.globalReadWindow (Finset.mem_range.mp hk)
  have hempty := ((inv.blocks v hge hlt index hi).free (h v index ⟨hge, hlt, hi⟩)).1
  rw [hb, blockValues_of_empty hempty]
  rfl

end Live

/-- A push: it adds its value, or the multiset is unchanged. -/
def PushSpec (c : Config) (t : T) (m m' : Shared T) (result : Pc T) : Prop :=
  result = .idle (some (.pushed true)) ∧ live c m' = t ::ₘ live c m ∨
    result = .idle (some (.pushed false)) ∧ live c m' = live c m

/-- A pop: it finds nothing exactly if there is nothing, and it takes a member otherwise. -/
structure PopSpec (c : Config) (m m' : Shared T) (result : Pc T) : Prop where
  nullopt : result = .idle (some (.popped none)) ↔ live c m = 0
  unchanged : live c m = 0 → live c m' = 0
  member : live c m ≠ 0 →
    ∃ x, result = .idle (some (.popped (some x))) ∧ live c m = x ::ₘ live c m'

section Specs

variable {c : Config} {strict : Prop} {m : Shared T} {hd : Handle T} {x : Shared T × Handle T}
  {t : T}

theorem PushEnd.spec (h : PushEnd c strict m hd t x) : PushSpec c t m x.1 x.2.pc := by
  rcases h.result with ha | hr
  · exact .inl ⟨ha.returned, ha.live⟩
  · exact .inr ⟨hr.returned, live_congr c fun k _ => hr.values _⟩

theorem PopEnd.spec (h : PopEnd c strict m hd x) : PopSpec c m x.1 x.2.pc := by
  rcases h.result with ⟨y, hp⟩ | hn
  · have hlive := hp.live
    have hne : live c m ≠ 0 := by
      rw [hlive]
      exact Multiset.cons_ne_zero
    refine ⟨iff_of_false (fun hpc => ?_) hne, fun hzero => absurd hzero hne,
      fun _ => ⟨y, hp.returned, hlive⟩⟩
    rw [hp.returned] at hpc
    cases hpc
  · have hsame : live c x.1 = live c m := live_congr c fun k _ => hn.values _
    have hzero : live c m = 0 := hsame.symm.trans (h.quiet.live_eq_zero hn.empty)
    exact ⟨iff_of_true hn.returned hzero, fun _ => hsame.trans hzero, fun hne => absurd hzero hne⟩

end Specs

/-! ## §5 — `size` and `size_full` -/

/-- What a header adds to `filled_cells`. -/
def filledCells (ei : Nat) : Nat := sub64 (getWriteIndex ei) (getReadIndex ei)

/-- `size_full()`: all blocks of the buffer. -/
def sizeFull (c : Config) (m : Shared T) : Nat :=
  (∑ i ∈ Finset.range c.windowCount, ∑ j ∈ Finset.range c.blocksPerWindow,
    filledCells (m.header (getBlock c i j))) % 2 ^ 64

/-- `size()`: the blocks from the read window to the write window. -/
def size (c : Config) (m : Shared T) : Nat :=
  (∑ i ∈ Finset.Icc m.globalReadWindow m.globalWriteWindow, ∑ j ∈ Finset.range c.blocksPerWindow,
    filledCells (m.header (getBlock c (c.windowToIndex i) j))) % 2 ^ 64

section Size

variable {c : Config} {strict : Prop} {m : Shared T} {M : Type} [AddCommMonoid M]

/-- A sum over all blocks, window by window. -/
theorem sum_getBlock (c : Config) (f : Block → M) :
    ∑ k ∈ Finset.range c.blockCount, f (.slot k) =
      ∑ i ∈ Finset.range c.windowCount, ∑ j ∈ Finset.range c.blocksPerWindow, f (getBlock c i j) := by
  have hprefix : ∀ w, ∑ k ∈ Finset.range (w * c.blocksPerWindow), f (.slot k) =
      ∑ i ∈ Finset.range w, ∑ j ∈ Finset.range c.blocksPerWindow, f (getBlock c i j) := by
    intro w
    induction w with
    | zero => rw [Nat.zero_mul, Finset.sum_range_zero, Finset.sum_range_zero]
    | succ w ih => rw [Nat.succ_mul, Finset.sum_range_add, ih, Finset.sum_range_succ]; rfl
  exact hprefix c.windowCount

/-- The same over the windows of a lap. -/
theorem sum_lap (c : Config) (r : Nat) (f : Block → M) :
    ∑ k ∈ Finset.range c.blockCount, f (.slot k) =
      ∑ v ∈ Finset.Ico r (r + c.windowCount), ∑ j ∈ Finset.range c.blocksPerWindow,
        f (blockAt c v j) := by
  have hinj : Set.InjOn (· % c.windowCount) (Finset.Ico r (r + c.windowCount)) :=
    Finset.injOn_of_card_image_eq (by rw [Nat.image_Ico_mod, Finset.card_range, Nat.card_Ico]; omega)
  rw [sum_getBlock, ← Nat.image_Ico_mod r, Finset.sum_image hinj]
  refine Finset.sum_congr rfl fun v _ => ?_
  simp only [blockAt, c.windowToIndex_eq]

theorem filledCells_eq (inv : QuietInv c strict m none) (b : Block) :
    filledCells (m.header b) = (blockValues m b).length := by
  have hle := (inv.indices b).le
  have hlt : getWriteIndex (m.header b) < 2 ^ 16 := by
    rw [getWriteIndex_eq]
    exact Nat.mod_lt _ (by norm_num)
  rw [blockValues, List.length_map, List.length_range', filledCells, sub64]
  omega

omit [Zero T] in
theorem card_live (c : Config) (m : Shared T) :
    (live c m).card = ∑ k ∈ Finset.range c.blockCount, (blockValues m (.slot k)).length := by
  rw [live, Multiset.card_sum]
  rfl

theorem sizeFull_eq (inv : QuietInv c strict m none) : sizeFull c m = (live c m).card % 2 ^ 64 := by
  rw [sizeFull, card_live, ← sum_getBlock c fun b => filledCells (m.header b)]
  simp only [filledCells_eq inv]

/-- Ahead of the write window all blocks are empty. -/
theorem QuietInv.empty_ahead (inv : QuietInv c strict m none) (hfit : EpochsFit c m) {v index : Nat}
    (hw : m.globalWriteWindow < v) (hv : v < m.globalReadWindow + c.windowCount)
    (hi : index < c.blocksPerWindow) : blockValues m (blockAt c v index) = [] := by
  have hge : m.globalReadWindow ≤ v := by
    have := inv.windows.order
    omega
  refine blockValues_of_empty ((inv.blocks v hge hv index hi).free fun hc => ?_).1
  exact absurd (inv.le_of_claimed hfit hv hi hc) (Nat.not_le.mpr hw)

theorem size_eq (inv : QuietInv c strict m none) (hfit : EpochsFit c m) :
    size c m = (live c m).card % 2 ^ 64 := by
  have hgap := inv.windows.gap
  rw [size, card_live, sum_lap c m.globalReadWindow fun b => (blockValues m b).length]
  congr 1
  have hsub : Finset.Icc m.globalReadWindow m.globalWriteWindow ⊆
      Finset.Ico m.globalReadWindow (m.globalReadWindow + c.windowCount) := by
    intro v hv
    rw [Finset.mem_Icc] at hv
    rw [Finset.mem_Ico]
    omega
  simp only [filledCells_eq inv]
  refine Finset.sum_subset hsub fun v hv hnot => ?_
  rw [Finset.mem_Ico] at hv
  rw [Finset.mem_Icc] at hnot
  refine Finset.sum_eq_zero fun index hi => ?_
  rw [inv.empty_ahead hfit (by omega) hv.2 (Finset.mem_range.mp hi)]
  rfl

/-- A block has no more values than cells. -/
theorem length_blockValues_le (inv : QuietInv c strict m none) (b : Block) :
    (blockValues m b).length ≤ c.cellsPerBlock := by
  have hcap := (inv.indices b).write
  rw [blockValues, List.length_map, List.length_range']
  omega

/-- `capacity()` is never exceeded. -/
theorem card_live_le (inv : QuietInv c strict m none) :
    (live c m).card ≤ c.blockCount * c.cellsPerBlock := by
  rw [card_live]
  calc ∑ k ∈ Finset.range c.blockCount, (blockValues m (.slot k)).length
      ≤ ∑ _k ∈ Finset.range c.blockCount, c.cellsPerBlock :=
        Finset.sum_le_sum fun k _ => length_blockValues_le inv _
    _ = c.blockCount * c.cellsPerBlock := by
        rw [Finset.sum_const_nat fun _ _ => rfl, Finset.card_range]

end Size

/-! ## §6 — what was pushed into a block and popped from it -/

/-- An element of the queue, with how many pushes were successful before it and the window it was
pushed into. -/
structure Entry (T : Type) where
  ticket : Nat
  window : Nat
  value : T

/-- The window a handle writes to: its block's place in the buffer, in its epoch. -/
def writeWindow (c : Config) (hd : Handle T) : Nat :=
  match hd.writeBlock with
  | .dummy => 0
  | .slot k => hd.writeEpoch * c.windowCount + k / c.blocksPerWindow

/-- Block by block, the elements pushed and the values popped, in the order of the calls. -/
structure History (T : Type) where
  pushed : Block → List (Entry T)
  popped : Block → List T
  count : Nat

/-- What a call that has left its handle as `hd` adds. -/
def History.record (c : Config) (hist : History T) (op : Op T) (hd : Handle T) : History T :=
  match op, hd.pc with
  | .push t _, .idle (some (.pushed true)) =>
      { hist with
        pushed := Function.update hist.pushed hd.writeBlock
          (hist.pushed hd.writeBlock ++ [⟨hist.count, writeWindow c hd, t⟩])
        count := hist.count + 1 }
  | .pop, .idle (some (.popped (some x))) =>
      { hist with
        popped := Function.update hist.popped hd.readBlock (hist.popped hd.readBlock ++ [x]) }
  | _, _ => hist

/-- The next call of a recorded run. -/
def recordCall [DecidableEq T] (c : Config) (x : State T n × History T) (call : Call c T n) :
    State T n × History T :=
  (x.1.run c call.steps, x.2.record c call.op ((x.1.run c call.steps).handles call.handle))

/-- The history of a list of calls on a fresh queue. -/
def history [DecidableEq T] (c : Config) (calls : List (Call c T n)) : History T :=
  (calls.foldl (recordCall c) (State.fresh c n, ⟨fun _ => [], fun _ => [], 0⟩)).2

section History

variable {c : Config} {strict : Prop}

theorem history_concat [DecidableEq T] (calls : List (Call c T n)) (call : Call c T n) :
    history c (calls ++ [call]) = (history c calls).record c call.op
      ((after c (calls ++ [call])).handles call.handle) := by
  have hstate : ∀ calls : List (Call c T n), (calls.foldl (recordCall c)
      (State.fresh c n, ⟨fun _ => [], fun _ => [], 0⟩)).1 = after c calls := by
    intro calls
    induction calls using List.reverseRecOn with
    | nil => rfl
    | append_singleton calls call ih =>
        rw [List.foldl_append, after_concat, ← ih]
        rfl
  rw [history, List.foldl_append, after_concat, ← hstate calls]
  rfl

section Record

variable (hist : History T) {hd : Handle T} {t : T} (ht : t ≠ 0)

theorem record_pushed (h : hd.pc = .idle (some (.pushed true))) :
    hist.record c (.push t ht) hd =
      { hist with
        pushed := Function.update hist.pushed hd.writeBlock
          (hist.pushed hd.writeBlock ++ [⟨hist.count, writeWindow c hd, t⟩])
        count := hist.count + 1 } := by simp only [History.record, h]

theorem record_rejected (h : hd.pc = .idle (some (.pushed false))) :
    hist.record c (.push t ht) hd = hist := by simp only [History.record, h]

theorem record_popped {x : T} (h : hd.pc = .idle (some (.popped (some x)))) :
    hist.record c .pop hd =
      { hist with
        popped := Function.update hist.popped hd.readBlock (hist.popped hd.readBlock ++ [x]) } := by
  simp only [History.record, h]

theorem record_nullopt (h : hd.pc = .idle (some (.popped none))) :
    hist.record c .pop hd = hist := by simp only [History.record, h]

end Record

/-- **What every call keeps holds after a complete list of calls.** The calls may be restricted to
those with `Q`. -/
theorem Complete.invariant [DecidableEq T] (hmax : c.cellsPerBlock ≤ 65535)
    {Q : Fin n → Op T → Prop} {P : State T n → History T → Prop}
    (h0 : P (State.fresh c n) ⟨fun _ => [], fun _ => [], 0⟩)
    (hstep : ∀ s h op s' hist, Q h op → Turn c strict s h op s' → P s hist →
      P s' (hist.record c op (s'.handles h)))
    {calls : List (Call c T n)} (h : Complete c calls)
    (hreliable : strict → ∀ call ∈ calls, call.Reliable) (hQ : ∀ call ∈ calls, Q call.handle call.op) :
    P (after c calls) (history c calls) := by
  induction h with
  | nil => exact h0
  | @concat calls call hcalls hrange hidle ih =>
      obtain ⟨-, hturn⟩ := (Complete.concat hcalls hrange hidle).last hmax hreliable
      rw [history_concat]
      refine hstep _ _ _ _ _ (hQ call (List.mem_append_right _ List.mem_cons_self)) hturn (ih ?_ ?_)
      · exact fun hstrict call' hmem => hreliable hstrict call' (List.mem_append_left _ hmem)
      · exact fun call' hmem => hQ call' (List.mem_append_left _ hmem)

/-- **Every block is a FIFO queue**: what was pushed into it is what was popped from it, followed by
what it has. -/
def Recorded (s : State T n) (hist : History T) : Prop :=
  ∀ b, (hist.pushed b).map Entry.value = hist.popped b ++ blockValues s.shared b

theorem Recorded.turn {s s' : State T n} {h : Fin n} {op : Op T} {hist : History T}
    (hrec : Recorded s hist) (hturn : Turn c strict s h op s') :
    Recorded s' (hist.record c op (s'.handles h)) := by
  intro b
  cases op with
  | push t ht =>
      rcases hturn.pushed with ha | hr
      · rw [record_pushed hist ht ha.returned]
        dsimp only
        by_cases hb : b = (s'.handles h).writeBlock
        · -- the value goes to the end of the block the handle writes to
          subst hb
          rw [Function.update_self, List.map_append, hrec, ha.values, List.append_assoc]
          rfl
        · obtain ⟨hheader, hcell⟩ := ha.others b hb
          have hsame : blockValues s'.shared b = blockValues s.shared b :=
            blockValues_congr hheader fun i _ => congrFun hcell i
          rw [Function.update_of_ne hb, hsame]
          exact hrec b
      · rw [record_rejected hist ht hr.returned, hr.values]
        exact hrec b
  | pop =>
      rcases hturn.popped with ⟨x, hp⟩ | hn
      · rw [record_popped hist hp.returned]
        dsimp only
        by_cases hb : b = (s'.handles h).readBlock
        · -- the oldest value of the block the handle reads from is gone
          subst hb
          rw [Function.update_self, hrec, hp.values, List.append_assoc]
          rfl
        · rw [Function.update_of_ne hb, hp.others b hb]
          exact hrec b
      · rw [record_nullopt hist hn.returned, hn.values]
        exact hrec b

theorem Recorded.fresh (c : Config) (n : Nat) :
    Recorded (State.fresh c n : State T n) ⟨fun _ => [], fun _ => [], 0⟩ :=
  fun b => (blockValues_of_empty (fresh_indices c b).2).symm

variable [DecidableEq T]

theorem Complete.recorded (hmax : c.cellsPerBlock ≤ 65535) {calls : List (Call c T n)}
    (h : Complete c calls) : Recorded (after c calls) (history c calls) :=
  Complete.invariant hmax (Q := fun _ _ => True) (Recorded.fresh c n)
    (fun _ _ _ _ _ _ hturn hrec => hrec.turn hturn) h False.elim fun _ _ => trivial

end History

/-! ## §7 — the queue is a multiset -/

/-- What calls that do not overlap make of a queue: a multiset, kept in FIFO blocks. -/
structure MultisetQueue (T : Type) [Zero T] [DecidableEq T] (c : Config) : Prop where
  /-- However `random_bit_index()` chooses, the next call ends, if not for ever a weak compare-and-swap
  fails without a reason. -/
  terminates : ∀ n (calls : List (Call c T n)) h op (f : Nat → Choice c) (bound : Nat),
    Complete c calls → (∀ k ≥ bound, (f k).2 = false) →
    (∀ k, InRange c ((after c calls).run c (Call.steps ⟨h, op, (List.range k).map f⟩)).shared) →
    ∃ k, (((after c calls).run c (Call.steps ⟨h, op, (List.range k).map f⟩)).handles h).Idle
  push : ∀ n (calls : List (Call c T n)) h t ht choices,
    Complete c (calls ++ [⟨h, .push t ht, choices⟩]) →
    PushSpec c t (after c calls).shared (after c (calls ++ [⟨h, .push t ht, choices⟩])).shared
      ((after c (calls ++ [⟨h, .push t ht, choices⟩])).handles h).pc
  pop : ∀ n (calls : List (Call c T n)) h choices, Complete c (calls ++ [⟨h, .pop, choices⟩]) →
    PopSpec c (after c calls).shared (after c (calls ++ [⟨h, .pop, choices⟩])).shared
      ((after c (calls ++ [⟨h, .pop, choices⟩])).handles h).pc
  /-- The values pushed into a block come out of it in the order of the pushes. -/
  fifo : ∀ n (calls : List (Call c T n)), Complete c calls → ∀ b,
    ((history c calls).pushed b).map Entry.value =
      (history c calls).popped b ++ blockValues (after c calls).shared b
  /-- Both counts agree, and they are right if a `size_t` can hold `capacity()`. -/
  size : ∀ n (calls : List (Call c T n)) call, Complete c (calls ++ [call]) →
    size c (after c (calls ++ [call])).shared = sizeFull c (after c (calls ++ [call])).shared ∧
      (c.blockCount * c.cellsPerBlock < 2 ^ 64 →
        size c (after c (calls ++ [call])).shared =
          (live c (after c (calls ++ [call])).shared).card)

variable [DecidableEq T]

/-- **In runs without overlapping calls a `block_based_queue` is a multiset.** -/
theorem multisetQueue (c : Config) (hmax : c.cellsPerBlock ≤ 65535) : MultisetQueue T c where
  terminates _ _ h op f _ hcalls hbound hrange :=
    (hcalls.quiet hmax False.elim).terminates hmax h op f hbound hrange
  push _ _ _ _ _ _ hcomplete := PushEnd.spec (hcomplete.last hmax False.elim).2.callEnd
  pop _ _ _ _ hcomplete := PopEnd.spec (hcomplete.last hmax False.elim).2.callEnd
  fifo _ _ hcalls := hcalls.recorded hmax
  size _ _ _ hcomplete := by
    have hturn := (hcomplete.last hmax False.elim).2
    rw [size_eq hturn.after.shared hturn.inRange'.fit, sizeFull_eq hturn.after.shared]
    refine ⟨rfl, fun hcapacity => Nat.mod_eq_of_lt ?_⟩
    exact lt_of_le_of_lt (card_live_le hturn.after.shared) hcapacity

/-! ## §8 — checking a list of calls -/

def Pc.isIdle : Pc T → Bool
  | .idle _ => true
  | _ => false

instance (hd : Handle T) : Decidable hd.Idle :=
  decidable_of_iff (hd.pc.isIdle = true) <| by
    constructor
    · intro h
      cases hpc : hd.pc with
      | idle last => exact ⟨last, hpc⟩
      | _ => rw [hpc] at h; cases h
    · rintro ⟨last, hpc⟩
      rw [hpc]
      rfl

instance (c : Config) (m : Shared T) : Decidable (InRange c m) :=
  inferInstanceAs (Decidable (_ ∧ _))

/-- All the conditions of `Complete`, call by call. -/
def completeCheck (c : Config) (s : State T n) : List (Call c T n) → Bool
  | [] => true
  | call :: calls =>
      checkRun (State.step c) (fun s => decide (InRange c s.shared)) (fun _ _ => true) s call.steps &&
        decide ((s.run c call.steps).handles call.handle).Idle &&
          completeCheck c (s.run c call.steps) calls

theorem Complete.of_check {c : Config} {done : List (Call c T n)} (hdone : Complete c done)
    (calls : List (Call c T n)) (h : completeCheck c (after c done) calls = true) :
    Complete c (done ++ calls) := by
  induction calls generalizing done with
  | nil => rwa [List.append_nil]
  | cons call calls ih =>
      rw [completeCheck, Bool.and_eq_true, Bool.and_eq_true, decide_eq_true_iff,
        ← after_concat] at h
      obtain ⟨⟨hcheck, hidle⟩, hrest⟩ := h
      have hconcat : Complete c (done ++ [call]) :=
        hdone.concat (fun k _ => of_decide_eq_true ((checkRun_spec hcheck).1 k)) hidle
      rw [List.append_cons]
      exact ih hconcat hrest

/-- Handle 0 pushes 5, handle 1 pops twice. -/
def pushPopPop : List (Call tiny Nat 2) :=
  [⟨0, .push 5 five_ne_zero, List.replicate 8 (3, false)⟩,
    ⟨1, .pop, List.replicate 18 (6, false)⟩, ⟨1, .pop, List.replicate 18 (0, false)⟩]

theorem multisetQueue_tiny :
    Complete tiny pushPopPop ∧ MultisetQueue Nat tiny ∧
      ((after tiny pushPopPop).handles 1).pc = .idle (some (.popped none)) :=
  ⟨Complete.nil.of_check pushPopPop (by decide +kernel), multisetQueue tiny (by decide),
    by decide +kernel⟩

end RelaxedConcurrentFifo.BlockBasedQueue
