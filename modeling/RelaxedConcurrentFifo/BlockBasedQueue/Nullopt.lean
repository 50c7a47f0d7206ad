/-
# RelaxedConcurrentFifo.BlockBasedQueue.Nullopt — when `pop` may report an empty queue

`claim_new_block_read` gives up when it has found no block to read in the read window and no set bit
in the write window. A reader that gives up while the write window it has looked at is still the
write window, and still without a set bit, leaves an empty queue; and threads that repeat push and
pop, as `benchmark_quality::per_thread` does, never see `std::nullopt` then.

The scan is not atomic, and nothing in the code makes sure of that. `staleScan` is a run of two
threads, each repeating push and pop, in which a `pop` reports an empty queue that is never empty,
against the assertion on `popped.has_value()`.
-/
import RelaxedConcurrentFifo.BlockBasedQueue.Emptiness

namespace RelaxedConcurrentFifo.BlockBasedQueue

open RelaxedConcurrentFifo.AtomicBitset (makeUnit getBits getEpoch_makeUnit)

open RelaxedConcurrentFifo.Lib.Runs

variable {T : Type} {n : Nat}

/-! ## §1 — giving up -/

section GiveUp

variable {c : Config} {m : Shared T} {hd : Handle T}

/-- This action ends a `pop` with `std::nullopt`. -/
def ReturnsNullopt [Zero T] [DecidableEq T] (a : Action c T) (m : Shared T) (hd : Handle T) :
    Prop :=
  (∀ last, hd.pc ≠ .idle last) ∧ (stepHandle c a m hd).2.pc = .idle (some (.popped none))

/-- The reader gives up although the write window has moved on from the one it has looked at, or a
unit of that window has a set bit at its epoch by now. -/
def StaleGiveUp [Zero T] [DecidableEq T] (a : Action c T) (m : Shared T) (hd : Handle T) : Prop :=
  ReturnsNullopt a m hd ∧ ∃ da v ww i, hd.pc = .readScan da v ww i ∧
    (m.globalWriteWindow ≠ ww ∨ ∃ j < c.unitsPerWindow,
      AtomicBitset.getEpoch (m.unit c ww j) = c.windowToEpoch ww ∧ getBits (m.unit c ww j) ≠ 0)

theorem pushCheck_ne_idle (t : T) (ei : Nat) (last : Option (Ret T)) :
    pushCheck c hd t ei ≠ .idle last := by
  unfold pushCheck
  split <;> exact nofun

theorem popCheck_ne_idle (ei : Nat) (last : Option (Ret T)) : popCheck hd ei ≠ .idle last := by
  unfold popCheck
  split
  · split <;> exact nofun
  · exact nofun

theorem afterReset_ne_idle (k : AfterReset) (last : Option (Ret T)) :
    afterReset hd k ≠ .idle last := by
  cases k with
  | take index => exact nofun
  | check ei => exact popCheck_ne_idle ei last

theorem writeNext_ne_idle (t : T) (v st i : Nat) (last : Option (Ret T)) :
    writeNext c t v st i ≠ .idle last := by
  unfold writeNext
  split <;> exact nofun

theorem readNext_ne_idle (da : Bool) (v : Nat) (ahead : Bool) (st i : Nat)
    (last : Option (Ret T)) : readNext c da v ahead st i ≠ .idle last := by
  unfold readNext
  split
  · exact nofun
  · split <;> exact nofun

variable [Zero T] [DecidableEq T]

/-- Only a scan of the write window ends a `pop` empty-handed. -/
theorem readScan_of_nullopt {start : Nat} {spurious : Bool} (hbusy : ∀ last, hd.pc ≠ .idle last)
    (hnull : (runStep c start spurious m hd).2.pc = .idle (some (.popped none))) :
    ∃ da v ww i, hd.pc = .readScan da v ww i := by
  cases h : hd.pc with
  | readScan da v ww i => exact ⟨da, v, ww, i, rfl⟩
  | idle last => exact absurd h (hbusy last)
  | pushLoad t => simp only [runStep, h] at hnull; exact absurd hnull (pushCheck_ne_idle _ _ _)
  | pushCell t ei index => simp only [runStep, h] at hnull; split at hnull <;> cases hnull
  | pushHeader t ei index => simp only [runStep, h] at hnull; split at hnull <;> cases hnull
  | pushUndo t ei index =>
      simp only [runStep, h] at hnull
      exact absurd hnull (pushCheck_ne_idle _ _ _)
  | writeWindow t => simp only [runStep, h] at hnull; cases hnull
  | writeUnit t v st i =>
      simp only [runStep, h] at hnull
      split at hnull
      · exact absurd hnull (writeNext_ne_idle _ _ _ _ _)
      · cases hnull
  | writeClaim t v st i eb bit =>
      simp only [runStep, h] at hnull
      split at hnull
      · cases hnull
      · split at hnull
        · exact absurd hnull (writeNext_ne_idle _ _ _ _ _)
        · cases hnull
  | writeTouch t v index => simp only [runStep, h] at hnull; cases hnull
  | writeFull t v => simp only [runStep, h] at hnull; split at hnull <;> cases hnull
  | writeMove t v => simp only [runStep, h] at hnull; cases hnull
  | popLoad => simp only [runStep, h] at hnull; exact absurd hnull (popCheck_ne_idle _ _)
  | popLast ei index => simp only [runStep, h] at hnull; split at hnull <;> cases hnull
  | popNext ei index => simp only [runStep, h] at hnull; split at hnull <;> cases hnull
  | popReset k =>
      simp only [runStep, h] at hnull
      split at hnull
      · exact absurd hnull (afterReset_ne_idle _ _)
      · cases hnull
  | popResetCas k eb =>
      simp only [runStep, h] at hnull
      split at hnull
      · exact absurd hnull (afterReset_ne_idle _ _)
      · split at hnull
        · exact absurd hnull (afterReset_ne_idle _ _)
        · cases hnull
  | popTake index => simp only [runStep, h] at hnull; cases hnull
  | popReload =>
      simp only [runStep, h] at hnull
      split at hnull
      · split at hnull <;> cases hnull
      · exact absurd hnull (popCheck_ne_idle _ _)
  | popInvalidate ei =>
      simp only [runStep, h] at hnull
      split at hnull
      · cases hnull
      · exact absurd hnull (popCheck_ne_idle _ _)
  | readWindow da => simp only [runStep, h] at hnull; split at hnull <;> cases hnull
  | readUnit da v ahead st i =>
      simp only [runStep, h] at hnull
      split at hnull
      · exact absurd hnull (readNext_ne_idle _ _ _ _ _ _)
      · cases hnull
  | readClaim da v ahead st i raw bit =>
      simp only [runStep, h] at hnull
      split at hnull
      · cases hnull
      · split at hnull
        · exact absurd hnull (readNext_ne_idle _ _ _ _ _ _)
        · cases hnull
  | readWrite da v => simp only [runStep, h] at hnull; split at hnull <;> cases hnull
  | readAny da v ww st i =>
      simp only [runStep, h] at hnull
      split at hnull
      · cases hnull
      · split at hnull
        · cases hnull
        · split at hnull <;> cases hnull
  | readBump da v ww i => simp only [runStep, h] at hnull; split at hnull <;> cases hnull
  | readForce da v ww => simp only [runStep, h] at hnull; cases hnull
  | readMove da v => simp only [runStep, h] at hnull; cases hnull

theorem ReturnsNullopt.scan {a : Action c T} (h : ReturnsNullopt a m hd) :
    ∃ da v ww i, hd.pc = .readScan da v ww i := by
  obtain ⟨hbusy, hnull⟩ := h
  unfold stepHandle at hnull
  split at hnull
  · cases hnull
  · cases hnull
  · exact readScan_of_nullopt hbusy hnull
  · rename_i hpc _ _ _
    exact absurd hnull (hbusy _)

omit [Zero T] [DecidableEq T] in
/-- A queue without a claimed block is empty. -/
theorem BlockInv.live_eq_zero (inv : BlockInv c m)
    (h : ∀ v ≤ m.globalWriteWindow, ∀ index < c.blocksPerWindow, ¬ Claimed c m v index) :
    live c m = 0 := by
  refine Finset.sum_eq_zero fun k hk => ?_
  obtain ⟨p, hp, index, hindex, hblock⟩ := exists_getBlock c (Finset.mem_range.mp hk)
  rw [hblock, blockValues_of_empty]
  · rfl
  · by_contra hsome
    obtain ⟨v, hv, _, hclaimed, _⟩ := inv.nonempty p hp index hindex hsome
    exact h v hv index hindex hclaimed

/-- A reader that does not give up on stale data leaves an empty queue. -/
theorem live_eq_zero_of_nullopt {a : Action c T} (inv : BlockInv c m) (hwindows : WindowInv c m)
    (hfit : EpochsFit c m) (hf : HandleFacts c m hd) (hnull : ReturnsNullopt a m hd)
    (hstale : ¬ StaleGiveUp a m hd) : live c m = 0 := by
  obtain ⟨da, v, ww, i, hpc⟩ := hnull.scan
  have hfacts := hf.pc
  rw [hpc] at hfacts
  obtain ⟨hv, hww, hwle, _, hdrained⟩ := hfacts
  have hfresh : m.globalWriteWindow = ww ∧ ∀ j < c.unitsPerWindow,
      AtomicBitset.getEpoch (m.unit c ww j) = c.windowToEpoch ww → getBits (m.unit c ww j) = 0 := by
    constructor
    · by_contra hne
      exact hstale ⟨hnull, da, v, ww, i, hpc, .inl hne⟩
    · intro j hj he
      by_contra hne
      exact hstale ⟨hnull, da, v, ww, i, hpc, .inr ⟨j, hj, he, hne⟩⟩
  obtain ⟨hw, hbits⟩ := hfresh
  have horder := hwindows.order
  refine inv.live_eq_zero fun v' hv' index hindex hclaimed => ?_
  have hj := div_bitCount_lt c hindex
  have hle := hwindows.le_of_epoch_eq hfit hv' hj hclaimed.epoch
  -- only the read window and the write window are left, and both have been looked at
  rcases Nat.lt_or_ge v' m.globalWriteWindow with hlt | hge
  · obtain rfl : v' = v := by omega
    have hunit := (hdrained _ hj).resolve_left (by omega)
    have hnext : c.windowToEpoch v' + 1 < 2 ^ 32 := by
      have := c.windowToEpoch_mono hv'
      have := hfit.epoch
      omega
    have he := hclaimed.epoch
    rw [hunit, getEpoch_makeUnit hnext] at he
    omega
  · obtain rfl : v' = ww := by omega
    exact hclaimed.bits_ne_zero (hbits _ hj hclaimed.epoch)

end GiveUp

/-! ## §2 — repeating push and pop -/

section Quality

variable {c : Config} {m : Shared T} {hd : Handle T}

/-- The calls of `benchmark_quality::per_thread`: a push first and after each pop, a pop after each
push. -/
def qualityCall [Zero T] (a : Action c T) (hd : Handle T) : Bool :=
  match a, hd.pc with
  | .push _ _, .idle none | .push _ _, .idle (some (.popped _)) => true
  | .push _ _, .idle (some (.pushed _)) => false
  | .pop, .idle (some (.pushed _)) => true
  | .pop, .idle _ => false
  | _, _ => true

/-- How many values the thread has pushed and not yet popped. -/
def due : Pc T → Nat
  | .idle (some (.pushed true)) => 1
  | .idle _ => 0
  | .pushLoad _ | .pushCell _ _ _ | .pushHeader _ _ _ | .pushUndo _ _ _ | .writeWindow _
  | .writeUnit _ _ _ _ | .writeClaim _ _ _ _ _ _ | .writeTouch _ _ _ | .writeFull _ _
  | .writeMove _ _ => 0
  | _ => 1

theorem due_pushCheck (t : T) (ei : Nat) : due (pushCheck c hd t ei) = 0 := by
  unfold pushCheck
  split <;> rfl

theorem due_popCheck (ei : Nat) : due (popCheck hd ei) = 1 := by
  unfold popCheck
  split
  · split <;> rfl
  · rfl

theorem due_afterReset (k : AfterReset) : due (afterReset hd k) = 1 := by
  cases k with
  | take index => rfl
  | check ei => exact due_popCheck ei

theorem due_writeNext (t : T) (v st i : Nat) : due (writeNext c t v st i) = 0 := by
  unfold writeNext
  split <;> rfl

theorem due_readNext (da : Bool) (v : Nat) (ahead : Bool) (st i : Nat) :
    due (readNext c da v ahead st i : Pc T) = 1 := by
  unfold readNext
  split
  · rfl
  · split <;> rfl

/-- The access keeps the balance of committed, returned and due values. -/
def Balanced (m m' : Shared T) (pc pc' : Pc T) : Prop :=
  m'.committed.length + m.returned.length + due pc =
    m.committed.length + m'.returned.length + due pc'

theorem balanced_of_same {m' : Shared T} {pc pc' : Pc T} (hc : m'.committed = m.committed)
    (hr : m'.returned = m.returned) (hdue : due pc' = due pc) : Balanced m m' pc pc' := by
  rw [Balanced, hc, hr, hdue]

variable [Zero T] [DecidableEq T]

theorem runStep_balanced (start : Nat) (spurious : Bool)
    (hsome : (∃ last, hd.pc = .idle last) ∨
      (runStep c start spurious m hd).2.pc ≠ .idle (some (.popped none))) :
    Balanced m (runStep c start spurious m hd).1 hd.pc (runStep c start spurious m hd).2.pc := by
  cases h : hd.pc with
  | idle last => simp only [runStep, h]; exact balanced_of_same rfl rfl rfl
  | pushLoad t => simp only [runStep, h]; exact balanced_of_same rfl rfl (due_pushCheck _ _)
  | pushCell t ei index =>
      simp only [runStep, h]
      split <;> exact balanced_of_same rfl rfl rfl
  -- the compare-exchange that commits a value makes it due
  | pushHeader t ei index =>
      simp only [runStep, h]
      split
      · simp only [Balanced, List.length_cons]
        show m.committed.length + 1 + m.returned.length + 0 =
          m.committed.length + m.returned.length + 1
        omega
      · exact balanced_of_same rfl rfl rfl
  | pushUndo t ei index => simp only [runStep, h]; exact balanced_of_same rfl rfl (due_pushCheck _ _)
  | writeWindow t => simp only [runStep, h]; exact balanced_of_same rfl rfl rfl
  | writeUnit t v st i =>
      simp only [runStep, h]
      split
      · exact balanced_of_same rfl rfl (due_writeNext _ _ _ _)
      · exact balanced_of_same rfl rfl rfl
  | writeClaim t v st i eb bit =>
      simp only [runStep, h]
      split
      · exact balanced_of_same rfl rfl rfl
      · split
        · exact balanced_of_same rfl rfl (due_writeNext _ _ _ _)
        · exact balanced_of_same rfl rfl rfl
  | writeTouch t v index => simp only [runStep, h]; exact balanced_of_same rfl rfl rfl
  | writeFull t v =>
      simp only [runStep, h]
      split <;> exact balanced_of_same rfl rfl rfl
  | writeMove t v => simp only [runStep, h]; exact balanced_of_same rfl rfl rfl
  | popLoad => simp only [runStep, h]; exact balanced_of_same rfl rfl (due_popCheck _)
  | popLast ei index =>
      simp only [runStep, h]
      split <;> exact balanced_of_same rfl rfl rfl
  | popNext ei index =>
      simp only [runStep, h]
      split <;> exact balanced_of_same rfl rfl rfl
  | popReset k =>
      simp only [runStep, h]
      split
      · exact balanced_of_same rfl rfl (due_afterReset _)
      · exact balanced_of_same rfl rfl rfl
  | popResetCas k eb =>
      simp only [runStep, h]
      split
      · exact balanced_of_same rfl rfl (due_afterReset _)
      · split
        · exact balanced_of_same rfl rfl (due_afterReset _)
        · exact balanced_of_same rfl rfl rfl
  -- the load that takes a value returns what was due
  | popTake index =>
      simp only [runStep, h, Balanced, List.length_cons]
      show m.committed.length + m.returned.length + 1 =
        m.committed.length + (m.returned.length + 1) + 0
      omega
  | popReload =>
      simp only [runStep, h]
      split
      · split <;> exact balanced_of_same rfl rfl rfl
      · exact balanced_of_same rfl rfl (due_popCheck _)
  | popInvalidate ei =>
      simp only [runStep, h]
      split
      · exact balanced_of_same rfl rfl rfl
      · exact balanced_of_same rfl rfl (due_popCheck _)
  | readWindow da =>
      simp only [runStep, h]
      split <;> exact balanced_of_same rfl rfl rfl
  | readUnit da v ahead st i =>
      simp only [runStep, h]
      split
      · exact balanced_of_same rfl rfl (due_readNext _ _ _ _ _)
      · exact balanced_of_same rfl rfl rfl
  | readClaim da v ahead st i raw bit =>
      simp only [runStep, h]
      split
      · exact balanced_of_same rfl rfl rfl
      · split
        · exact balanced_of_same rfl rfl (due_readNext _ _ _ _ _)
        · exact balanced_of_same rfl rfl rfl
  | readWrite da v =>
      simp only [runStep, h]
      split <;> exact balanced_of_same rfl rfl rfl
  | readAny da v ww st i =>
      simp only [runStep, h]
      split
      · exact balanced_of_same rfl rfl rfl
      · split
        · exact balanced_of_same rfl rfl rfl
        · split <;> exact balanced_of_same rfl rfl rfl
  | readScan da v ww i =>
      simp only [runStep, h] at hsome ⊢
      split at hsome
      · rename_i hcond
        rw [if_pos hcond]
        exact balanced_of_same rfl rfl rfl
      · rename_i hcond
        rw [if_neg hcond]
        split at hsome
        · rename_i hi
          rw [if_pos hi]
          exact balanced_of_same rfl rfl rfl
        · -- the one access that drops a value that is due
          refine absurd rfl (hsome.resolve_left ?_)
          rintro ⟨last, hlast⟩
          cases hlast
  | readBump da v ww i =>
      simp only [runStep, h]
      split <;> exact balanced_of_same rfl rfl rfl
  | readForce da v ww => simp only [runStep, h]; exact balanced_of_same rfl rfl rfl
  | readMove da v => simp only [runStep, h]; exact balanced_of_same rfl rfl rfl

theorem stepHandle_balanced (a : Action c T) (hcall : qualityCall a hd = true)
    (hpushed : hd.pc ≠ .idle (some (.pushed false))) (hnull : ¬ ReturnsNullopt a m hd) :
    Balanced m (stepHandle c a m hd).1 hd.pc (stepHandle c a m hd).2.pc := by
  unfold stepHandle
  split
  · -- a push starts with nothing due
    rename_i last hidle
    rw [hidle]
    refine balanced_of_same rfl rfl ?_
    unfold qualityCall at hcall
    rw [hidle] at hcall
    rcases last with _ | ⟨ok⟩ | ⟨value⟩
    · rfl
    · cases hcall
    · rfl
  · -- a pop starts with the value of the push before it due
    rename_i last hidle
    rw [hidle]
    refine balanced_of_same rfl rfl ?_
    unfold qualityCall at hcall
    rw [hidle] at hcall hpushed
    rcases last with _ | ⟨ok⟩ | ⟨value⟩
    · cases hcall
    · cases ok with
      | true => rfl
      | false => exact absurd rfl hpushed
    · cases hcall
  · rename_i start spurious
    refine runStep_balanced start spurious ?_
    by_cases hidle : ∃ last, hd.pc = .idle last
    · exact .inl hidle
    · exact .inr fun h => hnull ⟨fun last hlast => hidle ⟨last, hlast⟩, h⟩
  · exact balanced_of_same rfl rfl rfl

omit [Zero T] [DecidableEq T] in
/-- Only a value that is due can be in a reader's hands. -/
theorem card_takenValue_le (m : Shared T) (hd : Handle T) :
    (takenValue m (hold hd)).card ≤ due hd.pc := by
  cases h : hd.pc with
  | popReset k => cases k <;> simp [hold, h, takenValue, due]
  | popResetCas k eb => cases k <;> simp [hold, h, takenValue, due]
  | popTake index => simp [hold, h, takenValue, due]
  | _ => simp [hold, h, takenValue]

/-- A reader that gives up has a value due and none in its hands. -/
theorem card_takenValue_lt_of_nullopt {a : Action c T} (hnull : ReturnsNullopt a m hd) :
    (takenValue m (hold hd)).card < due hd.pc := by
  obtain ⟨da, v, ww, i, hpc⟩ := hnull.scan
  simp [hold, hpc, takenValue, due]

/-- Everything committed has been returned or is due to some thread. -/
def CountInv (s : State T n) : Prop :=
  s.shared.committed.length = s.shared.returned.length + ∑ h, due (s.handles h).pc

theorem CountInv.step {s : State T n} (inv : CountInv s) (l : Fin n × Action c T)
    (hcall : qualityCall l.2 (s.handles l.1) = true)
    (hpushed : (s.handles l.1).pc ≠ .idle (some (.pushed false)))
    (hnull : ¬ ReturnsNullopt l.2 s.shared (s.handles l.1)) : CountInv (s.step c l) := by
  have hbal := stepHandle_balanced l.2 hcall hpushed hnull
  have hsum := Lib.Sums.sum_update (fun hd : Handle T => due hd.pc) s.handles l.1
    (stepHandle c l.2 s.shared (s.handles l.1)).2
  unfold CountInv at inv ⊢
  unfold Balanced at hbal
  show (stepHandle c l.2 s.shared (s.handles l.1)).1.committed.length =
    (stepHandle c l.2 s.shared (s.handles l.1)).1.returned.length +
      ∑ h, due (Function.update s.handles l.1 (stepHandle c l.2 s.shared (s.handles l.1)).2 h).pc
  omega

/-- While values are due, a thread that has one due does not find the queue empty. -/
theorem CountInv.live_ne_zero {s : State T n} (inv : CountInv s)
    (hcells : CellInv c s.shared s.holds) {a : Action c T} {h : Fin n}
    (hnull : ReturnsNullopt a s.shared (s.handles h)) : live c s.shared ≠ 0 := by
  intro hempty
  have haccount := congrArg Multiset.card hcells.account
  rw [hempty, Multiset.card_add, Multiset.card_add, Multiset.card_zero, Multiset.coe_card,
    Multiset.coe_card, Multiset.card_sum, inv] at haccount
  have hlt : ∑ g, (takenValue s.shared (s.holds g)).card < ∑ g, due (s.handles g).pc :=
    Finset.sum_lt_sum (fun g _ => card_takenValue_le _ _)
      ⟨h, Finset.mem_univ h, card_takenValue_lt_of_nullopt hnull⟩
  omega

end Quality

/-! ## §3 — whole runs -/

variable [Zero T] [DecidableEq T]

section Runs

variable {c : Config}

/-- The `k`-th step of the run ends a `pop` with `std::nullopt`. -/
def NulloptAt (c : Config) (ls : List (Fin n × Action c T)) (k : Nat) : Prop :=
  ∃ hk : k < ls.length, ReturnsNullopt (ls[k]).2 ((State.fresh c n).run c (ls.take k)).shared
    (((State.fresh c n).run c (ls.take k)).handles (ls[k]).1)

/-- The `k`-th step of the run gives up on stale data. -/
def StaleGiveUpAt (c : Config) (ls : List (Fin n × Action c T)) (k : Nat) : Prop :=
  ∃ hk : k < ls.length, StaleGiveUp (ls[k]).2 ((State.fresh c n).run c (ls.take k)).shared
    (((State.fresh c n).run c (ls.take k)).handles (ls[k]).1)

/-- Every thread repeats push and pop, and every push so far has succeeded. -/
structure QualityRun (c : Config) (ls : List (Fin n × Action c T)) : Prop where
  calls : ∀ k (hk : k < ls.length),
    qualityCall (ls[k]).2 (((State.fresh c n).run c (ls.take k)).handles (ls[k]).1) = true
  pushed : ∀ k ≤ ls.length, ∀ h,
    (((State.fresh c n).run c (ls.take k)).handles h).pc ≠ .idle (some (.pushed false))

theorem countInv_run {ls : List (Fin n × Action c T)} (hquality : QualityRun c ls) {k : Nat}
    (hk : k ≤ ls.length) (hnull : ∀ j < k, ¬ NulloptAt c ls j) :
    CountInv ((State.fresh c n).run c (ls.take k)) := by
  refine invariant_take (State.step c) (P := fun k s => (∀ j < k, ¬ NulloptAt c ls j) → CountInv s) (fun _ => ?_)
    (fun k hk ih hnull => ?_) k hk hnull
  · simp [CountInv, State.fresh, Shared.fresh, Handle.fresh, due]
  · exact (ih fun j hj => hnull j (by omega)).step _ (hquality.calls k hk)
      (hquality.pushed k (Nat.le_of_lt hk) _) fun h => hnull k (Nat.lt_succ_self k) ⟨hk, h⟩

/-- **In a run in which no reader swings the read index of an empty block and none gives up on stale
data, a `pop` returns `std::nullopt` only at a moment at which the queue is empty; and threads that
repeat push and pop never get one.** -/
theorem nullopt_only_if_empty (c : Config) (hmax : c.cellsPerBlock ≤ 65535)
    (ls : List (Fin n × Action c T)) (hhalf : RunHalf c ls) (hread : ∀ k, ¬ ReadsEmptyAt c ls k)
    (hscan : ∀ k, ¬ StaleGiveUpAt c ls k) :
    (∀ k, NulloptAt c ls k → live c ((State.fresh c n).run c (ls.take k)).shared = 0) ∧
      (QualityRun c ls → ∀ k, ¬ NulloptAt c ls k) := by
  have hempty : ∀ k, NulloptAt c ls k →
      live c ((State.fresh c n).run c (ls.take k)).shared = 0 := by
    rintro k ⟨hk, hnull⟩
    have hle := Nat.le_of_lt hk
    have hprotocol := protocolInv_run (fun k hk => (hhalf k hk).fit) k hle
    exact live_eq_zero_of_nullopt (emptyInv_run hmax hhalf hread k hle).blocks hprotocol.windows
      (hhalf k hle).fit (hprotocol.handles _) hnull fun h => hscan k ⟨hk, h⟩
  refine ⟨hempty, fun hquality k => ?_⟩
  -- the first one would have to find the queue empty
  induction k using Nat.strong_induction_on with
  | _ k ih =>
      intro hat
      obtain ⟨hk, hnull⟩ := hat
      have hle := Nat.le_of_lt hk
      have hcells := cellInv_run hmax ls hle fun j _ => hread j
      exact (countInv_run hquality hle ih).live_ne_zero hcells hnull (hempty k ⟨hk, hnull⟩)

end Runs

/-! ## §4 — an empty queue, and one that only looks empty -/

/-- The checks behind the hypotheses of a run, in a form that can be evaluated. -/
def freshScan (c : Config) (s : State T n) (l : Fin n × Action c T) : Bool :=
  match (s.handles l.1).pc with
  | .popNext _ _ => false
  | .readScan _ _ ww _ =>
      (stepHandle c l.2 s.shared (s.handles l.1)).2.pc = .idle (some (.popped none)) →
        s.shared.globalWriteWindow = ww ∧
          ∀ j < c.unitsPerWindow, getBits (s.shared.unit c ww j) = 0
  | _ => true

theorem hypotheses_of_checkRun {c : Config} {ls : List (Fin n × Action c T)}
    (h : checkRun (State.step c) (halfEpochs c) (freshScan c) (State.fresh c n) ls = true) :
    RunHalf c ls ∧ (∀ k, ¬ ReadsEmptyAt c ls k) ∧ ∀ k, ¬ StaleGiveUpAt c ls k := by
  obtain ⟨-, hq⟩ := State.run_of_checkRun h
  refine ⟨runHalf_of_checkRun h, ?_, ?_⟩
  · rintro k ⟨hk, start, ei, index, _, hpc, _⟩
    have hcheck := hq k hk
    rw [freshScan, hpc] at hcheck
    cases hcheck
  · rintro k ⟨hk, hnull, da, v, ww, i, hpc, hstale⟩
    have hcheck := hq k hk
    rw [freshScan, hpc] at hcheck
    obtain ⟨hw, hbits⟩ := of_decide_eq_true hcheck hnull.2
    rcases hstale with hne | ⟨j, hj, _, hne⟩
    · exact hne hw
    · exact hne (hbits j hj)

theorem qualityRun_of_checkRun {c : Config} {ls : List (Fin n × Action c T)}
    (h : checkRun (State.step c)
      (fun s => decide (∀ h, (s.handles h).pc ≠ .idle (some (.pushed false))))
      (fun s l => qualityCall l.2 (s.handles l.1)) (State.fresh c n) ls = true) :
    QualityRun c ls := by
  obtain ⟨hpushed, hcalls⟩ := State.run_of_checkRun h
  exact ⟨hcalls, fun k _ => of_decide_eq_true (hpushed k)⟩

/-- One more `pop` on the used queue, by handle 0. -/
def popUsed : List (Fin 2 × Action tiny Nat) := pushPop ++ call 0 .pop ++ goOn 0 0 6

/-- Two threads that push and pop at the same time get both values and no `std::nullopt`; a `pop`
after that gets one, from a queue in which nothing is left. -/
theorem nullopt_only_if_empty_popUsed :
    (QualityRun tiny pushPop ∧
      ((State.fresh tiny 2).run tiny pushPop).shared.returned = [6, 5] ∧
      ∀ k, ¬ NulloptAt tiny pushPop k) ∧
    NulloptAt tiny popUsed 66 ∧
      live tiny ((State.fresh tiny 2).run tiny (popUsed.take 66)).shared = 0 := by
  obtain ⟨hhalf, hread, hscan⟩ : RunHalf tiny pushPop ∧ (∀ k, ¬ ReadsEmptyAt tiny pushPop k) ∧
      ∀ k, ¬ StaleGiveUpAt tiny pushPop k := hypotheses_of_checkRun (by decide +kernel)
  obtain ⟨hhalf', hread', hscan'⟩ : RunHalf tiny popUsed ∧ (∀ k, ¬ ReadsEmptyAt tiny popUsed k) ∧
      ∀ k, ¬ StaleGiveUpAt tiny popUsed k := hypotheses_of_checkRun (by decide +kernel)
  have hquality : QualityRun tiny pushPop := qualityRun_of_checkRun (by decide +kernel)
  have hnull : NulloptAt tiny popUsed 66 := by
    refine ⟨by decide, fun last hlast => ?_, by decide +kernel⟩
    have hpc : (((State.fresh tiny 2).run tiny (popUsed.take 66)).handles 0).pc =
        .readScan false 1 2 0 := by decide +kernel
    exact nomatch hpc.symm.trans hlast
  exact ⟨⟨hquality, by decide +kernel,
      (nullopt_only_if_empty tiny (by decide) pushPop hhalf hread hscan).2 hquality⟩,
    hnull, (nullopt_only_if_empty tiny (by decide) popUsed hhalf' hread' hscan').1 66 hnull⟩

/-- Handle 0 pushes 5 and stops in front of its scan of window 1. Handle 1 pushes 6, pops 5 (moving
both windows), pushes 7 into window 2 and pops 6. Handle 0 goes on, and finds no bit in window 1. -/
def staleScan : List (Fin 2 × Action tiny Nat) := List.flatten
  [call 0 (.push 5 five_ne_zero), goOn 0 0 8, call 0 .pop, goOn 0 0 5,
    call 1 (.push 6 six_ne_zero), goOn 1 1 8, call 1 .pop, goOn 1 0 18,
    call 1 (.push 7 seven_ne_zero), goOn 1 0 8, call 1 .pop, goOn 1 1 9, goOn 0 0 1]

omit [Zero T] [DecidableEq T] in
theorem live_ne_zero_of_index {c : Config} {m : Shared T} {k : Nat} (hk : k < c.blockCount)
    (h : getReadIndex (m.header (.slot k)) < getWriteIndex (m.header (.slot k))) :
    live c m ≠ 0 := by
  intro hempty
  have hzero := (Finset.sum_eq_zero_iff.mp hempty) k (Finset.mem_range.mpr hk)
  have hlength := congrArg Multiset.card hzero
  rw [Multiset.coe_card, blockValues, List.length_map, List.length_range', Multiset.card_zero]
    at hlength
  omega

/-- **A `pop` returns `std::nullopt` from a queue that is not empty at any moment of the call**, in a
run of two threads that repeat push and pop with every push succeeding. -/
theorem staleScan_nullopt :
    QualityRun tiny staleScan ∧ staleScan[9]? = some (0, .pop) ∧ NulloptAt tiny staleScan 62 ∧
      ∀ k, 9 ≤ k → k ≤ 63 →
        live tiny ((State.fresh tiny 2).run tiny (staleScan.take k)).shared ≠ 0 := by
  have hsome : checkRun (State.step tiny)
      (fun s => decide (∃ k < tiny.blockCount, getReadIndex (s.shared.header (.slot k)) <
        getWriteIndex (s.shared.header (.slot k)))) (fun _ _ => true)
      ((State.fresh tiny 2).run tiny (staleScan.take 9)) (staleScan.drop 9) = true := by
    decide +kernel
  refine ⟨qualityRun_of_checkRun (by decide +kernel), rfl, ⟨by decide +kernel, ?_, ?_⟩, ?_⟩
  · intro last hlast
    have hpc : (((State.fresh tiny 2).run tiny (staleScan.take 62)).handles 0).pc =
        .readScan false 0 1 0 := by decide +kernel
    exact nomatch hpc.symm.trans hlast
  · decide +kernel
  · intro k hlow hhigh
    obtain ⟨b, hb, hlt⟩ := of_decide_eq_true ((State.run_of_checkRun hsome).1 (k - 9))
    rw [← State.run_append] at hlt
    have htake : staleScan.take 9 ++ (staleScan.drop 9).take (k - 9) = staleScan.take k := by
      rw [← List.take_add, Nat.add_sub_cancel' hlow]
    rw [htake] at hlt
    exact live_ne_zero_of_index hb hlt

end RelaxedConcurrentFifo.BlockBasedQueue
