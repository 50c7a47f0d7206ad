/-
# RelaxedConcurrentFifo.BlockBasedQueue.Locals — what a handle knows without looking at the others

`Handle.Ok` collects the facts about a handle's cached blocks and local variables that hold at each
program point whatever the other handles do: a value being pushed is not 0, a cell index was read off
the header word the handle still carries, a cached block lies in the buffer (or is the dummy block,
which no epoch of a fresh handle validates). Every step of the handle keeps them (`step_ok`), and
every step of the machine keeps the dummy block's header (`DummyOk`).
-/
import RelaxedConcurrentFifo.BlockBasedQueue.Layout

namespace RelaxedConcurrentFifo.BlockBasedQueue

open RelaxedConcurrentFifo.AtomicBitset (ClaimValue claimStart claimRetry claimIndex claimIndex_lt
  claimRetryNoEpoch)

variable {T : Type}

/-! ## §1 — field by field: what the memory updates change -/

namespace Shared

variable (m : Shared T)

theorem setCell_cell (b b' : Block) (i i' : Nat) (t : T) :
    (m.setCell b i t).cell b' i' = if b' = b ∧ i' = i then t else m.cell b' i' := by
  by_cases hb : b' = b
  · subst hb
    by_cases hi : i' = i <;> simp [setCell, hi]
  · simp [setCell, hb]

theorem setHeader_header (b b' : Block) (ei : Nat) :
    (m.setHeader b ei).header b' = if b' = b then ei else m.header b' :=
  Function.update_apply _ _ _ _

theorem setFilled_filledSet (u u' word : Nat) :
    (m.setFilled u word).filledSet u' = if u' = u then word else m.filledSet u' :=
  Function.update_apply _ _ _ _

theorem setTouched_touchedSet (u u' word : Nat) :
    (m.setTouched u word).touchedSet u' = if u' = u then word else m.touchedSet u' :=
  Function.update_apply _ _ _ _

end Shared

/-! ## §2 — the facts -/

/-- The block lies in the window `windowIndex` of the buffer. -/
def Block.InWindow (c : Config) (windowIndex : Nat) (b : Block) : Prop :=
  windowIndex < c.windowCount ∧ ∃ j < c.blocksPerWindow, b = getBlock c windowIndex j

variable [Zero T]

/-- What the local variables at a program point satisfy. -/
def PcOk (c : Config) (hd : Handle T) : Pc T → Prop
  | .pushLoad t | .writeWindow t | .writeUnit t _ _ _ | .writeFull t _ | .writeMove t _ => t ≠ 0
  | .pushCell t ei index | .pushHeader t ei index =>
      t ≠ 0 ∧ index = getWriteIndex ei ∧ index ≠ c.cellsPerBlock ∧
        epochValid (getEpoch ei) hd.writeEpoch = true ∧ hd.writeBlock ≠ .dummy
  | .pushUndo t _ _ => t ≠ 0 ∧ hd.writeBlock ≠ .dummy
  | .writeClaim t _ _ _ _ bit => t ≠ 0 ∧ bit < c.bitCount
  | .writeTouch t _ bit => t ≠ 0 ∧ bit < c.blocksPerWindow
  | .popLast ei index =>
      index = getReadIndex ei ∧ getReadIndex ei + 1 = getWriteIndex ei ∧
        epochValid (getEpoch ei) hd.readEpoch = true ∧ hd.readBlock ≠ .dummy
  | .popNext ei index =>
      index = getReadIndex ei ∧ getReadIndex ei + 1 ≠ getWriteIndex ei ∧
        epochValid (getEpoch ei) hd.readEpoch = true ∧ hd.readBlock ≠ .dummy
  | .popReset _ | .popResetCas _ _ | .popTake _ | .popReload => hd.readBlock ≠ .dummy
  | .popInvalidate ei =>
      getWriteIndex ei = 0 ∧ epochValid (getEpoch ei) hd.readEpoch = true ∧ hd.readBlock ≠ .dummy
  | .readClaim _ _ _ _ _ _ bit => bit < c.bitCount
  | _ => True

/-- The facts that hold of a handle whatever the others do. -/
structure Handle.Ok (c : Config) (hd : Handle T) : Prop where
  write : (hd.writeBlock = .dummy ∧ hd.writeEpoch = 0) ∨ ∃ p, hd.writeBlock.InWindow c p
  read : (hd.readBlock = .dummy ∧ hd.readEpoch = 0) ∨ hd.readBlock.InWindow c hd.readWindowIndex
  pc : PcOk c hd hd.pc

/-- The dummy block's header never changes. -/
def DummyOk (m : Shared T) : Prop := m.header .dummy = epochToHeader 0x10000000

omit [Zero T] in
theorem DummyOk.setHeader {m : Shared T} (h : DummyOk m) {b : Block} (hb : b ≠ .dummy) (ei : Nat) :
    DummyOk (m.setHeader b ei) := by
  rw [DummyOk, Shared.setHeader_header, if_neg (Ne.symm hb)]
  exact h

theorem Handle.Ok.fresh (c : Config) : (Handle.fresh : Handle T).Ok c where
  write := .inl ⟨rfl, rfl⟩
  read := .inl ⟨rfl, rfl⟩
  pc := trivial

theorem dummyOk_fresh (c : Config) : DummyOk (Shared.fresh c : Shared T) := fresh_header_dummy c

/-! ## §3 — the claims stay inside their unit -/

section Claims

variable {value : ClaimValue} {n epoch rot index eb bit : Nat}

theorem claimStart_lt (hrot : rot < n) (h : claimStart value n epoch rot eb = some bit) :
    bit < n := by
  unfold claimStart at h
  split at h
  · cases h
  · exact claimIndex_lt hrot h

theorem claimRetry_lt (hrot : rot < n) (hindex : index < n)
    (h : claimRetry value n epoch rot index eb = some bit) : bit < n := by
  unfold claimRetry at h
  split at h
  · cases h
  · split at h
    · exact claimIndex_lt hrot h
    · exact Option.some.inj h ▸ hindex

theorem claimRetryNoEpoch_lt (hrot : rot < n) (hindex : index < n)
    (h : claimRetryNoEpoch value n rot index eb = some bit) : bit < n := by
  unfold claimRetryNoEpoch at h
  split at h
  · exact claimIndex_lt hrot h
  · exact Option.some.inj h ▸ hindex

end Claims

/-! ## §4 — every step keeps them -/

section Steps

variable {c : Config} {m : Shared T} {hd : Handle T}

omit [Zero T] in
/-- A fresh handle's epoch does not validate the dummy block. -/
theorem dummy_invalid (hm : DummyOk m) : epochValid (getEpoch (m.header .dummy)) 0 = false := by
  rw [show m.header .dummy = epochToHeader 0x10000000 from hm]
  decide +kernel

theorem pushCheck_ok {t : T} {ei : Nat} (ht : t ≠ 0)
    (hdummy : hd.writeBlock = .dummy → epochValid (getEpoch ei) hd.writeEpoch = false) :
    PcOk c hd (pushCheck c hd t ei) := by
  unfold pushCheck
  split
  · exact ht
  · rename_i hcond
    obtain ⟨hvalid, hfull⟩ := not_or.mp hcond
    refine ⟨ht, rfl, hfull, Bool.eq_true_of_not_eq_false hvalid, fun hb => hvalid (hdummy hb)⟩

theorem popCheck_ok {ei : Nat}
    (hdummy : hd.readBlock = .dummy → epochValid (getEpoch ei) hd.readEpoch = false) :
    PcOk c hd (popCheck hd ei) := by
  unfold popCheck
  split
  · rename_i hvalid
    have hb : hd.readBlock ≠ .dummy := fun hb => by simp [hdummy hb] at hvalid
    split
    · rename_i hlast
      exact ⟨rfl, hlast, hvalid, hb⟩
    · rename_i hnext
      exact ⟨rfl, hnext, hvalid, hb⟩
  · trivial

theorem afterReset_ok {k : AfterReset} (hb : hd.readBlock ≠ .dummy) :
    PcOk c hd (afterReset hd k) := by
  cases k with
  | take index => exact hb
  | check ei => exact popCheck_ok fun h => absurd h hb

theorem writeNext_ok {t : T} {window start i : Nat} (ht : t ≠ 0) :
    PcOk c hd (writeNext c t window start i) := by
  unfold writeNext
  split <;> exact ht

theorem readNext_ok {da : Bool} {window : Nat} {ahead : Bool} {start i : Nat} :
    PcOk c hd (readNext c da window ahead start i) := by
  unfold readNext
  split
  · trivial
  · split <;> trivial

/-- `PcOk` reads only the cached blocks and epochs of the handle. -/
theorem Handle.Ok.goto (hok : hd.Ok c) {pc : Pc T} (h : PcOk c hd pc) :
    ({ hd with pc := pc } : Handle T).Ok c where
  write := hok.write
  read := hok.read
  pc := by
    revert h
    cases pc <;> exact id

theorem takeReadBlock_ok (hok : hd.Ok c) (window : Nat) {block : Nat}
    (hblock : block < c.blocksPerWindow) : (takeReadBlock c hd window block).Ok c where
  write := hok.write
  read := .inr ⟨c.windowToIndex_lt window, block, hblock, rfl⟩
  pc := Block.noConfusion

theorem Handle.Ok.write_dummy (hok : hd.Ok c) (hm : DummyOk m) (hb : hd.writeBlock = .dummy) :
    epochValid (getEpoch (m.header hd.writeBlock)) hd.writeEpoch = false := by
  rcases hok.write with ⟨_, he⟩ | ⟨p, _, j, _, hblk⟩
  · rw [hb, he]
    exact dummy_invalid hm
  · rw [hb] at hblk
    cases hblk

theorem Handle.Ok.read_dummy (hok : hd.Ok c) (hm : DummyOk m) (hb : hd.readBlock = .dummy) :
    epochValid (getEpoch (m.header hd.readBlock)) hd.readEpoch = false := by
  rcases hok.read with ⟨_, he⟩ | ⟨_, j, _, hblk⟩
  · rw [hb, he]
    exact dummy_invalid hm
  · rw [hb] at hblk
    cases hblk

variable [DecidableEq T]

theorem runStep_ok {start : Nat} {spurious : Bool} (hok : hd.Ok c) (hm : DummyOk m) :
    (runStep c start spurious m hd).2.Ok c ∧ DummyOk (runStep c start spurious m hd).1 := by
  have hrot : ∀ st, st % c.bitCount < c.bitCount := fun st => Nat.mod_lt _ c.bitCount_pos
  have hpc := hok.pc
  cases h : hd.pc with
  | idle last => simp only [runStep, h]; exact ⟨hok, hm⟩
  | pushLoad t =>
      rw [h] at hpc
      simp only [runStep, h]
      exact ⟨hok.goto (pushCheck_ok hpc (hok.write_dummy hm)), hm⟩
  | pushCell t ei index =>
      rw [h] at hpc
      simp only [runStep, h]
      split
      · exact ⟨hok.goto hpc, hm⟩
      · exact ⟨hok.goto hpc.1, hm⟩
  | pushHeader t ei index =>
      rw [h] at hpc
      obtain ⟨ht, _, _, _, hb⟩ := hpc
      simp only [runStep, h]
      split
      · exact ⟨hok.goto trivial, hm.setHeader hb _⟩
      · exact ⟨hok.goto ⟨ht, hb⟩, hm⟩
  | pushUndo t ei index =>
      rw [h] at hpc
      simp only [runStep, h]
      exact ⟨hok.goto (pushCheck_ok hpc.1 fun hb => absurd hb hpc.2), hm⟩
  | writeWindow t =>
      rw [h] at hpc
      simp only [runStep, h]
      exact ⟨hok.goto hpc, hm⟩
  | writeUnit t window st i =>
      rw [h] at hpc
      simp only [runStep, h]
      split
      · exact ⟨hok.goto (writeNext_ok hpc), hm⟩
      · rename_i bit hbit
        exact ⟨hok.goto ⟨hpc, claimStart_lt (hrot st) hbit⟩, hm⟩
  | writeClaim t window st i eb bit =>
      rw [h] at hpc
      simp only [runStep, h]
      split
      · exact ⟨hok.goto ⟨hpc.1, claimResult_lt c st i hpc.2⟩, hm⟩
      · split
        · exact ⟨hok.goto (writeNext_ok hpc.1), hm⟩
        · rename_i bit' hbit
          exact ⟨hok.goto ⟨hpc.1, claimRetry_lt (hrot st) hpc.2 hbit⟩, hm⟩
  | writeTouch t window bit =>
      rw [h] at hpc
      simp only [runStep, h]
      -- the handle takes its new write block here
      exact ⟨⟨.inr ⟨_, c.windowToIndex_lt window, bit, hpc.2, rfl⟩, hok.read, hpc.1⟩, hm⟩
  | writeFull t window =>
      rw [h] at hpc
      simp only [runStep, h]
      split
      · exact ⟨hok.goto trivial, hm⟩
      · exact ⟨hok.goto hpc, hm⟩
  | writeMove t window =>
      rw [h] at hpc
      simp only [runStep, h]
      exact ⟨hok.goto hpc, hm⟩
  | popLoad =>
      simp only [runStep, h]
      exact ⟨hok.goto (popCheck_ok (hok.read_dummy hm)), hm⟩
  | popLast ei index =>
      rw [h] at hpc
      simp only [runStep, h]
      split
      · exact ⟨hok.goto hpc.2.2.2, hm.setHeader hpc.2.2.2 _⟩
      · exact ⟨hok.goto trivial, hm⟩
  | popNext ei index =>
      rw [h] at hpc
      simp only [runStep, h]
      split
      · exact ⟨hok.goto hpc.2.2.2, hm.setHeader hpc.2.2.2 _⟩
      · exact ⟨hok.goto trivial, hm⟩
  | popReset k =>
      rw [h] at hpc
      simp only [runStep, h]
      split
      · exact ⟨hok.goto (afterReset_ok hpc), hm⟩
      · exact ⟨hok.goto hpc, hm⟩
  | popResetCas k eb =>
      rw [h] at hpc
      simp only [runStep, h]
      split
      · exact ⟨hok.goto (afterReset_ok hpc), hm⟩
      · split
        · exact ⟨hok.goto (afterReset_ok hpc), hm⟩
        · exact ⟨hok.goto hpc, hm⟩
  | popTake index => simp only [runStep, h]; exact ⟨hok.goto trivial, hm⟩
  | popReload =>
      rw [h] at hpc
      simp only [runStep, h]
      split
      · rename_i hzero
        split
        · rename_i hvalid
          exact ⟨hok.goto ⟨hzero, hvalid, hpc⟩, hm⟩
        · exact ⟨hok.goto hpc, hm⟩
      · exact ⟨hok.goto (popCheck_ok (hok.read_dummy hm)), hm⟩
  | popInvalidate ei =>
      rw [h] at hpc
      simp only [runStep, h]
      split
      · exact ⟨hok.goto hpc.2.2, hm.setHeader hpc.2.2 _⟩
      · exact ⟨hok.goto (popCheck_ok (hok.read_dummy hm)), hm⟩
  | readWindow da =>
      simp only [runStep, h]
      split <;> exact ⟨hok.goto trivial, hm⟩
  | readUnit da window ahead st i =>
      simp only [runStep, h]
      split
      · exact ⟨hok.goto readNext_ok, hm⟩
      · rename_i bit hbit
        exact ⟨hok.goto (claimIndex_lt (hrot st) hbit), hm⟩
  | readClaim da window ahead st i raw bit =>
      rw [h] at hpc
      simp only [runStep, h]
      split
      · exact ⟨takeReadBlock_ok hok window (claimResult_lt c st i hpc), hm⟩
      · split
        · exact ⟨hok.goto readNext_ok, hm⟩
        · rename_i bit' hbit
          exact ⟨hok.goto (claimRetryNoEpoch_lt (hrot st) hpc hbit), hm⟩
  | readWrite da window =>
      simp only [runStep, h]
      split
      · exact ⟨⟨hok.write, hok.read, trivial⟩, hm⟩
      · exact ⟨hok.goto trivial, hm⟩
  | readAny da window ww st i =>
      simp only [runStep, h]
      split
      · rename_i bit hbit
        exact ⟨takeReadBlock_ok hok window (claimResult_lt c st i (claimStart_lt (hrot st) hbit)), hm⟩
      · split
        · exact ⟨hok.goto trivial, hm⟩
        · split <;> exact ⟨hok.goto trivial, hm⟩
  | readScan da window ww i =>
      simp only [runStep, h]
      split
      · exact ⟨hok.goto trivial, hm⟩
      · split <;> exact ⟨hok.goto trivial, hm⟩
  | readBump da window ww i =>
      simp only [runStep, h]
      split <;> exact ⟨hok.goto trivial, hm⟩
  | readForce da window ww =>
      simp only [runStep, h]
      exact ⟨hok.goto trivial, hm⟩
  | readMove da window =>
      simp only [runStep, h]
      exact ⟨hok.goto trivial, hm⟩

/-- **Every action of a handle keeps its facts and the dummy block.** -/
theorem step_ok {a : Action c T} (hok : hd.Ok c) (hm : DummyOk m) :
    (stepHandle c a m hd).2.Ok c ∧ DummyOk (stepHandle c a m hd).1 := by
  unfold stepHandle
  split
  · rename_i ht _ _
    exact ⟨hok.goto ht, hm⟩
  · exact ⟨hok.goto trivial, hm⟩
  · exact runStep_ok hok hm
  · exact ⟨hok, hm⟩

end Steps

end RelaxedConcurrentFifo.BlockBasedQueue
