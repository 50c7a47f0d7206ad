/-
# RelaxedConcurrentFifo.BlockBasedQueue.MinSize — what the constructor makes of `min_size`

The constructor divides `min_size` by the cells of a window, rounding down, and takes the next power of
two as the number of windows, four at least. One window of these is always the read window, so a queue
that is only pushed to takes one window less (`acceptsFirst_iff`).

A run of pushes never moves the read window. This alone keeps the write window below the number of
windows, so nothing has to be assumed about epochs here.
-/
import RelaxedConcurrentFifo.BlockBasedQueue.Capacity

namespace RelaxedConcurrentFifo.BlockBasedQueue

open RelaxedConcurrentFifo.Lib.Words (bitCeil)

variable {T : Type} {n : Nat} {c : Config}

/-! ## §1 — a run of pushes -/

/-- The handle is between two calls or inside a `push`. -/
def Pushing : Pc T → Prop
  | .idle _ | .pushLoad _ | .pushCell .. | .pushHeader .. | .pushUndo .. => True
  | .writeWindow _ | .writeUnit .. | .writeClaim .. | .writeTouch .. | .writeFull .. => True
  | .writeMove .. => True
  | _ => False

theorem pushing_pushCheck (c : Config) (hd : Handle T) (t : T) (ei : Nat) :
    Pushing (pushCheck c hd t ei) := by
  unfold pushCheck
  split <;> trivial

theorem pushing_writeNext (c : Config) (t : T) (window st i : Nat) :
    Pushing (writeNext c t window st i) := by
  unfold writeNext
  split <;> trivial

variable [Zero T]

/-- A step of `push` leaves the read window alone and stays in `push`. -/
theorem runStep_pushing [DecidableEq T] (start : Nat) (spurious : Bool) (m : Shared T)
    (hd : Handle T) (h : Pushing hd.pc) :
    (runStep c start spurious m hd).1.globalReadWindow = m.globalReadWindow ∧
      Pushing (runStep c start spurious m hd).2.pc := by
  -- only `claim_new_block_read` touches the read window, and no access of a push is in it
  unfold runStep
  cases hpc : hd.pc with
  | idle last => exact ⟨rfl, h⟩
  | pushLoad t => exact ⟨rfl, pushing_pushCheck c hd t _⟩
  | pushCell t ei index => dsimp only; split <;> exact ⟨rfl, trivial⟩
  | pushHeader t ei index => dsimp only; split <;> exact ⟨rfl, trivial⟩
  | pushUndo t ei index => exact ⟨rfl, pushing_pushCheck c hd t ei⟩
  | writeWindow t => exact ⟨rfl, trivial⟩
  | writeUnit t window st i =>
      dsimp only
      split
      · exact ⟨rfl, pushing_writeNext c t window st i⟩
      · exact ⟨rfl, trivial⟩
  | writeClaim t window st i eb bit =>
      dsimp only
      split
      · exact ⟨rfl, trivial⟩
      · split
        · exact ⟨rfl, pushing_writeNext c t window st i⟩
        · exact ⟨rfl, trivial⟩
  | writeTouch t window bit => exact ⟨rfl, trivial⟩
  | writeFull t window => dsimp only; split <;> exact ⟨rfl, trivial⟩
  | writeMove t window =>
      refine ⟨?_, trivial⟩
      show (m.moveWrite window).globalReadWindow = _
      unfold Shared.moveWrite
      split <;> rfl
  | _ => rw [hpc] at h; exact h.elim

/-- Only handle `p` has taken steps, and all of them inside `push`. -/
structure PushesOnly (c : Config) (p : Fin n) (s : State T n) : Prop where
  read : s.shared.globalReadWindow = 0
  pushing : Pushing (s.handles p).pc
  protocol : ProtocolInv c s
  locals : LocalInv c s

namespace PushesOnly

variable {p : Fin n} {s : State T n}

theorem fresh (c : Config) (p : Fin n) : PushesOnly c p (State.fresh c n : State T n) :=
  ⟨rfl, trivial, ProtocolInv.fresh c, LocalInv.fresh c⟩

/-- The write window stays in the first lap. -/
theorem inRange (h : PushesOnly c p s) : InRange c s.shared := by
  have hgap := h.protocol.windows.gap
  rw [h.read, Nat.zero_add] at hgap
  have hcount : c.windowCount ≤ 2 ^ 63 :=
    Nat.pow_le_pow_right (by norm_num) (Nat.le_of_lt_succ c.windowCountLog2_lt)
  exact ⟨by omega, .inr (by omega)⟩

variable [DecidableEq T]

theorem step (h : PushesOnly c p s) (a : Action c T) (ha : a ≠ .pop) :
    PushesOnly c p (s.step c (p, a)) := by
  have hstep : (stepHandle c a s.shared (s.handles p)).1.globalReadWindow =
        s.shared.globalReadWindow ∧ Pushing (stepHandle c a s.shared (s.handles p)).2.pc := by
    cases a with
    | push t ht =>
        unfold stepHandle
        split
        · exact ⟨rfl, trivial⟩
        · rename_i heq _; cases heq
        · rename_i heq; cases heq
        · exact ⟨rfl, h.pushing⟩
    | pop => exact absurd rfl ha
    | run start spurious => exact runStep_pushing start spurious _ _ h.pushing
  refine ⟨hstep.1.trans h.read, ?_, h.protocol.step h.locals h.inRange.half.fit _, ?_⟩
  · rw [State.step_handles_self]
    exact hstep.2
  · exact h.locals.run [(p, a)]

theorem run (h : PushesOnly c p s) (ls : List (Fin n × Action c T))
    (hls : ∀ l ∈ ls, l.1 = p ∧ l.2 ≠ .pop) : PushesOnly c p (s.run c ls) := by
  induction ls generalizing s with
  | nil => exact h
  | cons l ls ih =>
      obtain ⟨hp, hpop⟩ := hls l List.mem_cons_self
      have hstep : PushesOnly c p (s.step c l) := by
        have := h.step l.2 hpop
        rwa [← hp] at this ⊢
      exact ih hstep fun l' hl' => hls l' (List.mem_cons_of_mem _ hl')

end PushesOnly

/-! ## §2 — the pushes of one handle -/

/-- All calls are pushes of handle `p`, and no weak compare-and-swap fails without a reason. -/
structure OnePusher (p : Fin n) (calls : List (Call c T n)) : Prop where
  pushes : ∀ call ∈ calls, call.handle = p ∧ ∃ t ht, call.op = .push t ht
  reliable : ∀ call ∈ calls, call.Reliable

/-- Each of the calls comes to its end before the next one. -/
inductive Finished [DecidableEq T] (c : Config) : List (Call c T n) → Prop
  | nil : Finished c []
  | concat {calls : List (Call c T n)} {call : Call c T n} (hcalls : Finished c calls)
      (hidle : ((after c (calls ++ [call])).handles call.handle).Idle) :
      Finished c (calls ++ [call])

section OnePusher

variable {p : Fin n} {calls : List (Call c T n)}

theorem steps_of_push {call : Call c T n} (hp : call.handle = p)
    (hop : ∃ t ht, call.op = .push t ht) : ∀ l ∈ call.steps, l.1 = p ∧ l.2 ≠ .pop := by
  obtain ⟨t, ht, hop⟩ := hop
  intro l hl
  rcases List.mem_cons.mp hl with rfl | hl
  · exact ⟨hp, by rw [hop]; exact nofun⟩
  · obtain ⟨choice, -, rfl⟩ := List.mem_map.mp hl
    exact ⟨hp, nofun⟩

theorem OnePusher.left {calls' : List (Call c T n)} (h : OnePusher p (calls ++ calls')) :
    OnePusher p calls :=
  ⟨fun call hmem => h.pushes call (List.mem_append_left _ hmem),
    fun call hmem => h.reliable call (List.mem_append_left _ hmem)⟩

theorem OnePusher.concat (h : OnePusher p calls) {t : T} {ht : t ≠ 0} {choices : List (Choice c)}
    (hreliable : ∀ choice ∈ choices, choice.2 = false) :
    OnePusher p (calls ++ [⟨p, .push t ht, choices⟩]) := by
  refine ⟨fun call hcall => ?_, fun call hcall => ?_⟩
  · rcases List.mem_append.mp hcall with hcall | hcall
    · exact h.pushes call hcall
    · rw [List.mem_singleton.mp hcall]
      exact ⟨rfl, t, ht, rfl⟩
  · rcases List.mem_append.mp hcall with hcall | hcall
    · exact h.reliable call hcall
    · rw [List.mem_singleton.mp hcall]
      exact hreliable

variable [DecidableEq T]

theorem OnePusher.pushesOnly (h : OnePusher p calls) : PushesOnly c p (after c calls) := by
  refine (PushesOnly.fresh c p).run _ fun l hl => ?_
  obtain ⟨call, hcall, hl⟩ := List.mem_flatMap.mp hl
  exact steps_of_push (h.pushes call hcall).1 (h.pushes call hcall).2 l hl

/-- The conditions on the counters come for free. -/
theorem Finished.complete (hfinished : Finished c calls) (h : OnePusher p calls) :
    Complete c calls := by
  induction hfinished with
  | nil => exact .nil
  | @concat calls call hcalls hidle ih =>
      obtain ⟨hp, hop⟩ := h.pushes call (List.mem_append_right _ List.mem_cons_self)
      refine .concat (ih h.left) (fun k _ => ?_) hidle
      exact (h.left.pushesOnly.run _ fun l hl =>
        steps_of_push hp hop l (List.mem_of_mem_take hl)).inRange

/-- **Every further push comes to its end.** -/
theorem Finished.push_ends (hmax : c.cellsPerBlock ≤ 65535) (hfinished : Finished c calls)
    (h : OnePusher p calls) (t : T) (ht : t ≠ 0) (f : Nat → Fin c.blocksPerWindow) :
    ∃ k, Finished c (calls ++ [⟨p, .push t ht, (List.range k).map fun i => (f i, false)⟩]) := by
  have hquiet := (hfinished.complete h).quiet hmax False.elim
  obtain ⟨k, hk⟩ := hquiet.terminates hmax p (.push t ht) (fun i => (f i, false))
    (fun k (_ : k ≥ 0) => rfl) fun k =>
      (h.pushesOnly.run _ (steps_of_push rfl ⟨t, ht, rfl⟩)).inRange
  exact ⟨k, .concat hfinished (by rw [after_concat]; exact hk)⟩

/-- There are runs with any number of pushes. -/
theorem exists_finished (hmax : c.cellsPerBlock ≤ 65535) (p : Fin n) (t : T) (ht : t ≠ 0) (k : Nat) :
    ∃ calls : List (Call c T n), calls.length = k ∧ OnePusher p calls ∧ Finished c calls := by
  induction k with
  | zero => exact ⟨[], rfl, ⟨nofun, nofun⟩, .nil⟩
  | succ k ih =>
      obtain ⟨calls, hlength, hone, hfinished⟩ := ih
      obtain ⟨j, hj⟩ := hfinished.push_ends hmax hone t ht fun _ => ⟨0, c.blocksPerWindow_pos⟩
      refine ⟨_, by rw [List.length_append, hlength]; rfl, hone.concat ?_, hj⟩
      exact List.forall_mem_map.mpr fun _ _ => rfl

/-- What the next push returns. -/
theorem Finished.result (hmax : c.cellsPerBlock ≤ 65535) {t : T} {ht : t ≠ 0}
    {choices : List (Choice c)} (h : OnePusher p calls)
    (hreliable : ∀ choice ∈ choices, choice.2 = false)
    (hfinished : Finished c (calls ++ [⟨p, .push t ht, choices⟩])) :
    ((after c (calls ++ [⟨p, .push t ht, choices⟩])).handles p).pc = .idle (some (.pushed
      (decide (calls.length < (c.windowCount - 1) * c.blocksPerWindow * c.cellsPerBlock)))) := by
  have hone : OnePusher p (calls ++ [⟨p, .push t ht, choices⟩]) := h.concat hreliable
  exact (hfinished.complete hone).push_result hmax hone.reliable h.pushes

end OnePusher

/-! ## §3 — the constructor -/

/-- The constructor, for bitset words of `2 ^ bitCountLog2` bits and the `blocks_per_window` it has
computed. -/
def Config.ofMinSize (bitCountLog2 blocksPerWindowLog2 cellsPerBlock minSize : Nat)
    (hword : 3 ≤ bitCountLog2 ∧ bitCountLog2 ≤ 5)
    (hblocks : bitCountLog2 ≤ blocksPerWindowLog2 ∧ blocksPerWindowLog2 ≤ 31)
    (hcells : 0 < cellsPerBlock) (hsize : minSize < 2 ^ 64) : Config where
  bitCountLog2 := bitCountLog2
  blocksPerWindowLog2 := blocksPerWindowLog2
  windowCountLog2 := max 2 (Nat.clog 2 (minSize / 2 ^ blocksPerWindowLog2 / cellsPerBlock))
  cellsPerBlock := cellsPerBlock
  three_le_bitCountLog2 := hword.1
  bitCountLog2_le_five := hword.2
  bitCountLog2_le := hblocks.1
  blocksPerWindowLog2_le := hblocks.2
  two_le_windowCountLog2 := Nat.le_max_left _ _
  windowCountLog2_lt := by
    have hle : minSize / 2 ^ blocksPerWindowLog2 / cellsPerBlock ≤ 2 ^ 61 := by
      have hpow : 2 ^ 3 ≤ 2 ^ blocksPerWindowLog2 := Nat.pow_le_pow_right (by norm_num) (by omega)
      have h₁ : minSize / 2 ^ blocksPerWindowLog2 ≤ minSize / 2 ^ 3 :=
        Nat.div_le_div_left hpow (by norm_num)
      have h₂ := Nat.div_le_self (minSize / 2 ^ blocksPerWindowLog2) cellsPerBlock
      omega
    have := Nat.clog_mono_right 2 hle
    rw [Nat.clog_pow 2 61 (by norm_num)] at this
    omega
  cellsPerBlock_pos := hcells

/-- Each of the first `minSize` pushes of one handle on a fresh queue comes to its end, whatever the
start bits, and returns true, if no weak compare-and-swap fails without a reason. -/
def AcceptsFirst (T : Type) [Zero T] [DecidableEq T] (c : Config) (minSize : Nat) : Prop :=
  ∀ n (p : Fin n) (calls : List (Call c T n)), OnePusher p calls → Finished c calls →
    calls.length < minSize → ∀ (t : T) (ht : t ≠ 0),
      (∀ f : Nat → Fin c.blocksPerWindow, ∃ k, Finished c
        (calls ++ [⟨p, .push t ht, (List.range k).map fun i => (f i, false)⟩])) ∧
      ∀ choices, (∀ choice ∈ choices, choice.2 = false) →
        Finished c (calls ++ [⟨p, .push t ht, choices⟩]) →
          ((after c (calls ++ [⟨p, .push t ht, choices⟩])).handles p).pc =
            .idle (some (.pushed true))

variable [DecidableEq T]

/-- **All windows but one can be filled.** -/
theorem acceptsFirst_iff (hmax : c.cellsPerBlock ≤ 65535) {t : T} (ht : t ≠ 0) (minSize : Nat) :
    AcceptsFirst T c minSize ↔
      minSize ≤ (c.windowCount - 1) * c.blocksPerWindow * c.cellsPerBlock := by
  constructor
  · intro haccepts
    by_contra hlt
    -- the first push after all windows but one are full is among them, and it is rejected
    obtain ⟨calls, hlength, hone, hfinished⟩ := exists_finished (n := 1) hmax 0 t ht
      ((c.windowCount - 1) * c.blocksPerWindow * c.cellsPerBlock)
    obtain ⟨hends, hresult⟩ := haccepts 1 0 calls hone hfinished (by omega) t ht
    obtain ⟨k, hk⟩ := hends fun _ => ⟨0, c.blocksPerWindow_pos⟩
    have hreliable : ∀ choice ∈ (List.range k).map fun _ : Nat =>
        ((⟨0, c.blocksPerWindow_pos⟩, false) : Choice c), choice.2 = false :=
      List.forall_mem_map.mpr fun _ _ => rfl
    have htrue := hresult _ hreliable hk
    rw [Finished.result hmax hone hreliable hk, hlength, decide_eq_false (Nat.lt_irrefl _)] at htrue
    cases htrue
  · intro hle n p calls hone hfinished hlength t' ht'
    refine ⟨hfinished.push_ends hmax hone t' ht', fun choices hreliable hchoices => ?_⟩
    rw [Finished.result hmax hone hreliable hchoices, decide_eq_true (by omega)]

theorem windowCount_ofMinSize {bitCountLog2 blocksPerWindowLog2 cellsPerBlock minSize : Nat}
    (hword : 3 ≤ bitCountLog2 ∧ bitCountLog2 ≤ 5)
    (hblocks : bitCountLog2 ≤ blocksPerWindowLog2 ∧ blocksPerWindowLog2 ≤ 31)
    (hcells : 0 < cellsPerBlock) (hsize : minSize < 2 ^ 64) :
    (Config.ofMinSize bitCountLog2 blocksPerWindowLog2 cellsPerBlock minSize hword hblocks hcells
      hsize).windowCount =
        max 4 (bitCeil (minSize / 2 ^ blocksPerWindowLog2 / cellsPerBlock)) := by
  show 2 ^ max 2 _ = _
  have hmono : Monotone fun k : Nat => 2 ^ k := fun _ _ h => Nat.pow_le_pow_right (by norm_num) h
  exact hmono.map_max

/-- **`min_size` is honoured exactly if it fits in all windows but one.** -/
theorem minSize_honoured_iff (bitCountLog2 blocksPerWindowLog2 cellsPerBlock minSize : Nat)
    (hword : 3 ≤ bitCountLog2 ∧ bitCountLog2 ≤ 5)
    (hblocks : bitCountLog2 ≤ blocksPerWindowLog2 ∧ blocksPerWindowLog2 ≤ 31)
    (hcells : 0 < cellsPerBlock) (hmax : cellsPerBlock ≤ 65535) (hsize : minSize < 2 ^ 64)
    (t : T) (ht : t ≠ 0) :
    AcceptsFirst T (Config.ofMinSize bitCountLog2 blocksPerWindowLog2 cellsPerBlock minSize hword
        hblocks hcells hsize) minSize ↔
      minSize ≤ (max 4 (bitCeil (minSize / 2 ^ blocksPerWindowLog2 / cellsPerBlock)) - 1) *
        2 ^ blocksPerWindowLog2 * cellsPerBlock := by
  rw [acceptsFirst_iff hmax ht, windowCount_ofMinSize hword hblocks hcells hsize]
  rfl

/-- Seventeen cells are asked for, and all of 24 can be filled. -/
theorem minSize_honoured_iff_seventeen :
    AcceptsFirst Nat (Config.ofMinSize 3 3 1 17 (by decide) (by decide) (by decide) (by decide)) 17 :=
  (minSize_honoured_iff 3 3 1 17 (by decide) (by decide) (by decide) (by decide) (by decide) 5
    (by decide)).mpr (by decide)

/-- Thirty-two cells are asked for. There are as many, in four windows, and only 24 of them can be
filled: the push after that is rejected. -/
theorem minSize_thirtyTwo_not_honoured :
    (Config.ofMinSize 3 3 1 32 (by decide) (by decide) (by decide) (by decide)).windowCount =
        max 4 (bitCeil (32 / 8 / 1)) ∧
      ¬ AcceptsFirst Nat (Config.ofMinSize 3 3 1 32 (by decide) (by decide) (by decide) (by decide))
        32 := by
  refine ⟨windowCount_ofMinSize _ _ _ _, fun haccepts => ?_⟩
  have hle := (acceptsFirst_iff (by decide) (by decide : (5 : Nat) ≠ 0) 32).mp haccepts
  exact absurd hle (by decide)

end RelaxedConcurrentFifo.BlockBasedQueue
