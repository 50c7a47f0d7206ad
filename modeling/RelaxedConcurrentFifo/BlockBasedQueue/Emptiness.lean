/-
# RelaxedConcurrentFifo.BlockBasedQueue.Emptiness — bits and elements

What the bits of `filled_set` say about the elements of the queue is `BlockInv`: a block with an
element has its bit set, in the epoch of a window between the two counters (`Claimed`). The bit of a
block is cleared only after the block's header has been moved past the epoch, and headers only move
forward; so a writer that has claimed a block and finds its header not yet past the claim's epoch
still has the claim (`Held`), however long it has been waiting.
-/
import RelaxedConcurrentFifo.BlockBasedQueue.Protocol

namespace RelaxedConcurrentFifo.BlockBasedQueue

open RelaxedConcurrentFifo.AtomicBitset (UnitOk makeUnit getBits resetDesired getEpoch_makeUnit
  getBits_makeUnit getEpoch_makeUnit_or getBits_makeUnit_or clearedBits clearedBits_lt
  testBit_clearedBits resetDesired_eq)

open RelaxedConcurrentFifo.Lib.Runs

variable {T : Type}

/-! ## §1 — headers only move forward -/

/-- What a step can make of a block's header. -/
inductive HeaderChange (m : Shared T) (hd : Handle T) (b : Block) : Nat → Prop where
  | same : HeaderChange m hd b (m.header b)
  | pushed (hblock : hd.writeBlock = b)
      (hvalid : epochValid (getEpoch (m.header b)) hd.writeEpoch = true)
      (hroom : getWriteIndex (m.header b) < 65535) :
      HeaderChange m hd b (incrementWriteIndex (m.header b))
  | popped (hsome : getWriteIndex (m.header b) ≠ 0) (hroom : getReadIndex (m.header b) < 65535) :
      HeaderChange m hd b (incrementReadIndex (m.header b))
  | stamped (hblock : hd.readBlock = b)
      (hvalid : epochValid (getEpoch (m.header b)) hd.readEpoch = true) :
      HeaderChange m hd b (epochToHeader (hd.readEpoch + 1))

section Headers

variable {c : Config} {m m' : Shared T} {hd hd' : Handle T} {b : Block} {ei : Nat}

theorem CellStep.headerChange [Zero T] {n : Nat} {holds : Fin n → Hold T}
    (hstep : CellStep c m m' hd hd') (hmax : c.cellsPerBlock ≤ 65535) (inv : CellInv c m holds)
    (b : Block) :
    HeaderChange m hd b (m'.header b) := by
  have hcap := (inv.indices b).write
  have hle := (inv.indices b).le
  cases hstep with
  | silent hheader => rw [hheader]; exact .same
  | place b' i t hfree hzero ht hm => rw [hm]; exact .same
  | undo b' i t hwrite hm => rw [hm]; exact .same
  | take b' i htake hm => rw [hm]; exact .same
  | commit k t hk hblock hvalid hwrite hroom hm =>
      rw [hm]
      show HeaderChange m hd b ((m.setHeader _ _).header b)
      rw [Shared.setHeader_header]
      split
      · rename_i hb
        subst hb
        exact .pushed hblock hvalid (by omega)
      · exact .same
  | retire k hk hblock hvalid hfree hlast hm =>
      rw [hm, Shared.setHeader_header]
      split
      · rename_i hb
        subst hb
        exact .stamped hblock hvalid
      · exact .same
  | advance k hk hfree hnext hsome hm =>
      rw [hm, Shared.setHeader_header]
      split
      · rename_i hb
        subst hb
        refine .popped hsome ?_
        rcases (inv.indices (.slot k)).read with hlt | ⟨hr, _⟩ <;> omega
      · exact .same
  | invalidate hempty hvalid hm =>
      rw [hm, Shared.setHeader_header]
      split
      · rename_i hb
        subst hb
        exact .stamped rfl hvalid
      · exact .same

theorem HeaderChange.lt (h : HeaderChange m hd b ei) (hlt : m.header b < 2 ^ 64) : ei < 2 ^ 64 := by
  cases h with
  | same => exact hlt
  | pushed => exact Nat.mod_lt _ (by norm_num)
  | popped => exact Nat.mod_lt _ (by norm_num)
  | stamped => exact Nat.mod_lt _ (by norm_num)

theorem getEpoch_lt {ei : Nat} (h : ei < 2 ^ 64) : getEpoch ei < 2 ^ 32 := by
  rw [getEpoch_eq]
  omega

theorem getEpoch_stamped {epoch : Nat} (h : epoch + 1 < 2 ^ 32) :
    getEpoch (epochToHeader (epoch + 1)) = epoch + 1 := by
  rw [getEpoch_epochToHeader, Nat.mod_eq_of_lt h]

theorem HeaderChange.epoch_le (h : HeaderChange m hd b ei) (hlt : m.header b < 2 ^ 64)
    (hread : hd.readEpoch + 1 < 2 ^ 32) : getEpoch (m.header b) ≤ getEpoch ei := by
  cases h with
  | same => exact le_refl _
  | pushed hblock hvalid hroom => rw [getEpoch_incrementWriteIndex hlt hroom]
  | popped hsome hroom => rw [getEpoch_incrementReadIndex hlt hroom]
  | stamped hblock hvalid =>
      have hle := le_of_epochValid (getEpoch_lt hlt) (by omega) hvalid
      rw [getEpoch_stamped hread]
      omega

/-- A block with an element had one before, or has just been pushed to. -/
theorem HeaderChange.nonempty (h : HeaderChange m hd b ei) (hlt : m.header b < 2 ^ 64)
    (hsome : getWriteIndex ei ≠ 0) :
    getEpoch ei = getEpoch (m.header b) ∧ (getWriteIndex (m.header b) ≠ 0 ∨
      (hd.writeBlock = b ∧ epochValid (getEpoch (m.header b)) hd.writeEpoch = true)) := by
  cases h with
  | same => exact ⟨rfl, .inl hsome⟩
  | pushed hblock hvalid hroom =>
      exact ⟨getEpoch_incrementWriteIndex hlt hroom, .inr ⟨hblock, hvalid⟩⟩
  | popped hsome' hroom => exact ⟨getEpoch_incrementReadIndex hlt hroom, .inl hsome'⟩
  | stamped hblock hvalid => exact absurd (getWriteIndex_epochToHeader _) hsome

end Headers

/-! ## §2 — a claimed block -/

/-- The block's bit is set at the window's epoch. -/
structure Claimed (c : Config) (m : Shared T) (v index : Nat) : Prop where
  epoch : AtomicBitset.getEpoch (m.unit c v (index / c.bitCount)) = c.windowToEpoch v
  bit : (getBits (m.unit c v (index / c.bitCount))).testBit (index % c.bitCount) = true

instance (c : Config) (m : Shared T) (v index : Nat) : Decidable (Claimed c m v index) :=
  decidable_of_iff (_ ∧ _) ⟨fun h => ⟨h.1, h.2⟩, fun h => ⟨h.epoch, h.bit⟩⟩

/-- A writer's block stays claimed until its header has left the epoch. -/
def Held (c : Config) (m : Shared T) (v index : Nat) : Prop :=
  Claimed c m v index ∨
    c.windowToEpoch v < getEpoch (m.header (getBlock c (c.windowToIndex v) index))

/-- What emptiness rests on at a program point. -/
def BlockPc (c : Config) (m : Shared T) (hd : Handle T) : Pc T → Prop
  | .writeTouch _ v index => Held c m v index
  | .popReset _ | .popResetCas _ _ => hd.readEpoch < getEpoch (m.header hd.readBlock)
  | _ => True

/-- The cached write block was claimed in the cached epoch. -/
def WriteCache (c : Config) (m : Shared T) (hd : Handle T) : Prop :=
  hd.writeBlock = .dummy ∨ ∃ v ≤ m.globalWriteWindow, ∃ index < c.blocksPerWindow,
    hd.writeBlock = getBlock c (c.windowToIndex v) index ∧ hd.writeEpoch = c.windowToEpoch v ∧
      Held c m v index

structure BlockFacts (c : Config) (m : Shared T) (hd : Handle T) : Prop where
  write : WriteCache c m hd
  pc : BlockPc c m hd hd.pc

/-- Every block with an element is claimed, in a window of the lap its header does not pass. -/
structure BlockInv (c : Config) (m : Shared T) : Prop where
  words : ∀ b, m.header b < 2 ^ 64
  nonempty : ∀ p < c.windowCount, ∀ index < c.blocksPerWindow,
    getWriteIndex (m.header (getBlock c p index)) ≠ 0 →
      ∃ v ≤ m.globalWriteWindow, c.windowToIndex v = p ∧ Claimed c m v index ∧
        getEpoch (m.header (getBlock c p index)) ≤ c.windowToEpoch v

section Claimed

variable {c : Config} {m m' : Shared T} {hd hd' : Handle T} {v index : Nat}

theorem Claimed.bits_ne_zero (h : Claimed c m v index) :
    getBits (m.unit c v (index / c.bitCount)) ≠ 0 := by
  intro hzero
  have hbit := h.bit
  rw [hzero, Nat.zero_testBit] at hbit
  cases hbit

/-- A claimed block stays claimed, or is reset by the handle that took the step. -/
theorem WindowStep.claimed (hstep : WindowStep c m m' hd hd') (inv : WindowInv c m)
    (hfit : EpochsFit c m) (hv : v ≤ m.globalWriteWindow) (hindex : index < c.blocksPerWindow)
    (h : Claimed c m v index) :
    Claimed c m' v index ∨ (∃ k eb, hd.pc = .popResetCas k eb) ∧
      hd.readEpoch = c.windowToEpoch v ∧ hd.readBlock = getBlock c (c.windowToIndex v) index := by
  have hgap := inv.gap
  have he := inv.epoch_lt hfit (v := v) (.inl hv)
  have hj := div_bitCount_lt c hindex
  have hle := inv.le_of_epoch_eq hfit hv hj h.epoch
  have hpow : 2 ^ c.bitCount ≤ 2 ^ 32 := Nat.pow_le_pow_right (by norm_num) c.bitCount_le
  have hok : UnitOk c.bitCount (m.unit c v (index / c.bitCount)) := inv.words _
  cases hstep with
  | same hfilled hr hw =>
      refine .inl ⟨?_, ?_⟩
      · rw [Shared.unit, hfilled]
        exact h.epoch
      · rw [Shared.unit, hfilled]
        exact h.bit
  | claim t v' index' hv' hindex' hat hpc hm =>
      rw [hm]
      refine .inl ?_
      -- a claim in the same unit adds a bit; one elsewhere does not touch this unit
      by_cases hu : c.unitAt v (index / c.bitCount) = c.unitAt v' (index' / c.bitCount)
      · obtain ⟨rfl, hdiv⟩ := WindowInv.unitAt_inj (m := m) hj (div_bitCount_lt c hindex') hle
          (by omega) (inv.le_of_epoch_eq hfit hv' (div_bitCount_lt c hindex') hat) (by omega) hu
        rw [← hdiv]
        have hlt := Lib.Words.or_bit_lt hok.bits (Nat.mod_lt index' c.bitCount_pos)
        constructor <;> rw [setFilled_unit, if_pos rfl]
        · exact getEpoch_makeUnit_or he (lt_of_lt_of_le hlt hpow)
        · rw [getBits_makeUnit_or he (lt_of_lt_of_le hlt hpow), Lib.Words.testBit_or_bit, h.bit,
            Bool.true_or]
      · constructor <;> rw [setFilled_unit, if_neg hu]
        · exact h.epoch
        · exact h.bit
  | reset k eb v' index' hv' hindex' hat hpc hepoch hblock hm =>
      by_cases hu : c.unitAt v (index / c.bitCount) = c.unitAt v' (index' / c.bitCount)
      · obtain ⟨rfl, hdiv⟩ := WindowInv.unitAt_inj (m := m) hj (div_bitCount_lt c hindex') hle
          (by omega) (inv.le_of_epoch_eq hfit (Nat.le_of_lt hv') (div_bitCount_lt c hindex') hat)
          (by omega) hu
        by_cases hmod : index % c.bitCount = index' % c.bitCount
        · obtain rfl : index = index' := by
            rw [← Nat.div_add_mod index c.bitCount, ← Nat.div_add_mod index' c.bitCount, hdiv, hmod]
          exact .inr ⟨⟨k, eb, hpc⟩, hepoch, hblock⟩
        · -- another bit of the same unit: the block's own bit keeps the unit at its epoch
          rw [hm, ← hdiv]
          refine .inl ?_
          have hbit64 : index % c.bitCount < 64 := by
            have := Nat.mod_lt index c.bitCount_pos
            have := c.bitCount_le
            omega
          have hset : (clearedBits (getBits (m.unit c v (index / c.bitCount)))
              (index' % c.bitCount)).testBit (index % c.bitCount) = true := by
            rw [testBit_clearedBits hbit64, h.bit]
            simp [Ne.symm hmod]
          have hsome : clearedBits (getBits (m.unit c v (index / c.bitCount)))
              (index' % c.bitCount) ≠ 0 := fun hzero => by
            rw [hzero, Nat.zero_testBit] at hset
            cases hset
          have hlt := lt_of_lt_of_le (clearedBits_lt hok.bits (index' % c.bitCount)) hpow
          constructor <;> rw [setFilled_unit, if_pos rfl,
            resetDesired_eq c.bitCount_le hok (Nat.mod_lt _ c.bitCount_pos), if_neg hsome, h.epoch]
          · exact getEpoch_makeUnit_or he hlt
          · rw [getBits_makeUnit_or he hlt]
            exact hset
      · rw [hm]
        refine .inl ?_
        constructor <;> rw [setFilled_unit, if_neg hu]
        · exact h.epoch
        · exact h.bit
  | bump v' j hv' hj' hfresh hm =>
      rw [hm]
      -- only a unit without bits is bumped
      have hu : c.unitAt v (index / c.bitCount) ≠ c.unitAt v' j := by
        intro hu
        have hsame : m.unit c v (index / c.bitCount) = m.unit c v' j := congrArg m.filledSet hu
        apply h.bits_ne_zero
        rw [hsame, hfresh, getBits_makeUnit (inv.epoch_lt hfit (.inl hv'))]
      refine .inl ?_
      constructor <;> rw [setFilled_unit, if_neg hu]
      · exact h.epoch
      · exact h.bit
  | moveWrite hroom hopened hm => rw [hm]; exact .inl ⟨h.epoch, h.bit⟩
  | moveRead hbehind hdrained hm => rw [hm]; exact .inl ⟨h.epoch, h.bit⟩

/-- Whatever anybody does, a writer's block stays claimed until its header has left the epoch. -/
theorem Held.step (h : Held c m v index) (hstep : WindowStep c m m' hd hd') (inv : WindowInv c m)
    (hfit : EpochsFit c m) (hv : v ≤ m.globalWriteWindow) (hindex : index < c.blocksPerWindow)
    (hmono : ∀ b, getEpoch (m.header b) ≤ getEpoch (m'.header b)) (hpc : BlockPc c m hd hd.pc) :
    Held c m' v index := by
  rcases h with hclaimed | hpast
  · rcases hstep.claimed inv hfit hv hindex hclaimed with hstill | ⟨⟨k, eb, hreset⟩, he, hb⟩
    · exact .inl hstill
    · -- whoever clears the bit has seen the header beyond the epoch
      rw [hreset] at hpc
      have hlt : hd.readEpoch < getEpoch (m.header hd.readBlock) := hpc
      rw [he, hb] at hlt
      exact .inr (lt_of_lt_of_le hlt (hmono _))
  · exact .inr (lt_of_lt_of_le hpast (hmono _))

end Claimed

/-! ## §3 — the invariant along a step -/

section Step

variable {c : Config} {m m' : Shared T} {hd : Handle T}

theorem blockPc_pushCheck (t : T) (ei : Nat) : BlockPc c m hd (pushCheck c hd t ei) := by
  unfold pushCheck
  split <;> exact trivial

theorem blockPc_popCheck (ei : Nat) : BlockPc c m hd (popCheck hd ei) := by
  unfold popCheck
  split
  · split <;> exact trivial
  · exact trivial

theorem blockPc_afterReset (k : AfterReset) : BlockPc c m hd (afterReset hd k) := by
  cases k with
  | take index => trivial
  | check ei => exact blockPc_popCheck ei

theorem blockPc_writeNext (t : T) (v st i : Nat) : BlockPc c m hd (writeNext c t v st i) := by
  unfold writeNext
  split <;> exact trivial

theorem blockPc_readNext (da : Bool) (v : Nat) (ahead : Bool) (st i : Nat) :
    BlockPc c m hd (readNext c da v ahead st i) := by
  unfold readNext
  split
  · exact trivial
  · split <;> exact trivial

/-- The facts read only the cached blocks and epochs of the handle. -/
theorem WriteCache.goto (hw : WriteCache c m hd) {pc : Pc T} (h : BlockPc c m hd pc) :
    BlockFacts c m ({ hd with pc := pc } : Handle T) where
  write := hw
  pc := by
    revert h
    cases pc <;> exact id

theorem WriteCache.takeReadBlock (hw : WriteCache c m hd) (window block : Nat) :
    BlockFacts c m (takeReadBlock c hd window block) := ⟨hw, trivial⟩

/-- An invalid header is a later one: epochs are within `2 ^ 31 - 1` of each other. -/
theorem lt_of_not_epochValid {check curr : Nat} (hcheck : check < 2 ^ 32)
    (hcurr : curr < 2 ^ 31 - 1) (h : ¬ epochValid check curr = true) : curr < check := by
  rw [epochValid_iff hcheck hcurr] at h
  omega

variable [Zero T] [DecidableEq T]

/-- What an access leaves its own handle with, in the memory it leaves. -/
theorem runStep_blockFacts (start : Nat) (spurious : Bool) (hok : hd.Ok c) (hf : HandleFacts c m hd)
    (inv : WindowInv c m) (hfit : EpochsFit c m)
    (hhalf : c.windowToEpoch m.globalWriteWindow < 2 ^ 31 - 1) (hwords : ∀ b, m.header b < 2 ^ 64)
    (hpc : BlockPc c m hd hd.pc) :
    WriteCache c (runStep c start spurious m hd).1 hd →
      (∀ t v index, hd.pc = .writeTouch t v index →
        v ≤ (runStep c start spurious m hd).1.globalWriteWindow ∧
          Held c (runStep c start spurious m hd).1 v index) →
      BlockFacts c (runStep c start spurious m hd).1 (runStep c start spurious m hd).2 := by
  have hread : hd.readEpoch < 2 ^ 31 - 1 := by
    obtain ⟨v, hv, he, _⟩ := hf.cache.epoch
    have := c.windowToEpoch_mono (Nat.le_of_lt hv)
    omega
  -- a block is stamped with the epoch after the one that its reader has
  have hstamp : ∀ b, hd.readEpoch <
      getEpoch ((m.setHeader b (epochToHeader (hd.readEpoch + 1))).header b) := fun b => by
    rw [Shared.setHeader_header, if_pos rfl, getEpoch_stamped (by omega)]
    omega
  cases h : hd.pc with
  | idle last =>
      simp only [runStep, h]
      refine fun hw _ => ⟨hw, ?_⟩
      rw [h]
      exact trivial
  | pushLoad t => simp only [runStep, h]; exact fun hw _ => hw.goto (blockPc_pushCheck t _)
  | pushCell t ei index => simp only [runStep, h]; split <;> exact fun hw _ => hw.goto trivial
  | pushHeader t ei index => simp only [runStep, h]; split <;> exact fun hw _ => hw.goto trivial
  | pushUndo t ei index => simp only [runStep, h]; exact fun hw _ => hw.goto (blockPc_pushCheck t _)
  | writeWindow t => simp only [runStep, h]; exact fun hw _ => hw.goto trivial
  | writeUnit t v st i =>
      simp only [runStep, h]
      split
      · exact fun hw _ => hw.goto (blockPc_writeNext _ _ _ _)
      · exact fun hw _ => hw.goto trivial
  | writeClaim t v st i eb bit =>
      have hfacts := hf.pc
      have hlocal := hok.pc
      rw [h] at hfacts hlocal
      obtain ⟨hv, hi, hpast, hat⟩ := hfacts
      have hbit := hlocal.2
      have he := inv.epoch_lt hfit (v := v) (.inl hv)
      simp only [runStep, h]
      split
      · rename_i hcond
        obtain ⟨hword, _⟩ := hcond
        have hok' : UnitOk c.bitCount eb := hword ▸ inv.words _
        have hlt := lt_of_lt_of_le (Lib.Words.or_bit_lt hok'.bits hbit)
          (Nat.pow_le_pow_right (by norm_num : 0 < 2) c.bitCount_le)
        refine fun hw _ => hw.goto (show BlockPc c _ hd (.writeTouch t v _) from .inl ⟨?_, ?_⟩)
        · rw [claimResult_div c st i hbit, setFilled_unit, ← claimUnit_eq_unitAt, if_pos rfl,
            AtomicBitset.claimDesired_zero _ c.bitCount_le hok' hbit]
          exact getEpoch_makeUnit_or he hlt
        · rw [claimResult_div c st i hbit, claimResult_mod c st i hbit, setFilled_unit,
            ← claimUnit_eq_unitAt, if_pos rfl,
            AtomicBitset.claimDesired_zero _ c.bitCount_le hok' hbit, getBits_makeUnit_or he hlt,
            Lib.Words.testBit_or_bit]
          simp
      · split
        · exact fun hw _ => hw.goto (blockPc_writeNext _ _ _ _)
        · exact fun hw _ => hw.goto trivial
  | writeTouch t v index =>
      have hlocal := hok.pc
      rw [h] at hlocal
      simp only [runStep, h]
      intro _ htouch
      obtain ⟨hv, hheld⟩ := htouch t v index rfl
      exact ⟨.inr ⟨v, hv, index, hlocal.2, rfl, rfl, hheld⟩, trivial⟩
  | writeFull t v => simp only [runStep, h]; split <;> exact fun hw _ => hw.goto trivial
  | writeMove t v => simp only [runStep, h]; exact fun hw _ => hw.goto trivial
  | popLoad => simp only [runStep, h]; exact fun hw _ => hw.goto (blockPc_popCheck _)
  | popLast ei index =>
      simp only [runStep, h]
      split
      · exact fun hw _ => hw.goto (show BlockPc c _ hd (.popReset _) from hstamp hd.readBlock)
      · exact fun hw _ => hw.goto trivial
  | popNext ei index => simp only [runStep, h]; split <;> exact fun hw _ => hw.goto trivial
  | popReset k =>
      rw [h] at hpc
      simp only [runStep, h]
      split
      · exact fun hw _ => hw.goto (blockPc_afterReset k)
      · exact fun hw _ => hw.goto (show BlockPc c _ hd (.popResetCas k _) from hpc)
  | popResetCas k eb =>
      rw [h] at hpc
      simp only [runStep, h]
      split
      · exact fun hw _ => hw.goto (blockPc_afterReset k)
      · split
        · exact fun hw _ => hw.goto (blockPc_afterReset k)
        · exact fun hw _ => hw.goto (show BlockPc c _ hd (.popResetCas k _) from hpc)
  | popTake index => simp only [runStep, h]; exact fun hw _ => hw.goto trivial
  | popReload =>
      simp only [runStep, h]
      split
      · split
        · exact fun hw _ => hw.goto trivial
        · rename_i hinvalid
          exact fun hw _ => hw.goto (show BlockPc c _ hd (.popReset _) from
            lt_of_not_epochValid (getEpoch_lt (hwords _)) hread hinvalid)
      · exact fun hw _ => hw.goto (blockPc_popCheck _)
  | popInvalidate ei =>
      simp only [runStep, h]
      split
      · exact fun hw _ => hw.goto (show BlockPc c _ hd (.popReset _) from hstamp hd.readBlock)
      · exact fun hw _ => hw.goto (blockPc_popCheck _)
  | readWindow da => simp only [runStep, h]; split <;> exact fun hw _ => hw.goto trivial
  | readUnit da v ahead st i =>
      simp only [runStep, h]
      split
      · exact fun hw _ => hw.goto (blockPc_readNext _ _ _ _ _)
      · exact fun hw _ => hw.goto trivial
  | readClaim da v ahead st i raw bit =>
      simp only [runStep, h]
      split
      · exact fun hw _ => hw.takeReadBlock _ _
      · split
        · exact fun hw _ => hw.goto (blockPc_readNext _ _ _ _ _)
        · exact fun hw _ => hw.goto trivial
  | readWrite da v =>
      simp only [runStep, h]
      split
      · exact fun hw _ => ⟨hw, trivial⟩
      · exact fun hw _ => hw.goto trivial
  | readAny da v ww st i =>
      simp only [runStep, h]
      split
      · exact fun hw _ => hw.takeReadBlock _ _
      · split
        · exact fun hw _ => hw.goto trivial
        · split <;> exact fun hw _ => hw.goto trivial
  | readScan da v ww i =>
      simp only [runStep, h]
      split
      · exact fun hw _ => hw.goto trivial
      · split <;> exact fun hw _ => hw.goto trivial
  | readBump da v ww i => simp only [runStep, h]; split <;> exact fun hw _ => hw.goto trivial
  | readForce da v ww => simp only [runStep, h]; exact fun hw _ => hw.goto trivial
  | readMove da v => simp only [runStep, h]; exact fun hw _ => hw.goto trivial

theorem stepHandle_blockFacts (a : Action c T) (hok : hd.Ok c) (hf : HandleFacts c m hd)
    (inv : WindowInv c m) (hfit : EpochsFit c m)
    (hhalf : c.windowToEpoch m.globalWriteWindow < 2 ^ 31 - 1) (hwords : ∀ b, m.header b < 2 ^ 64)
    (hpc : BlockPc c m hd hd.pc) (hwrite : WriteCache c (stepHandle c a m hd).1 hd)
    (htouch : ∀ t v index, hd.pc = .writeTouch t v index →
      v ≤ (stepHandle c a m hd).1.globalWriteWindow ∧ Held c (stepHandle c a m hd).1 v index) :
    BlockFacts c (stepHandle c a m hd).1 (stepHandle c a m hd).2 := by
  revert hwrite htouch
  unfold stepHandle
  split
  · exact fun hw _ => hw.goto trivial
  · exact fun hw _ => hw.goto trivial
  · exact runStep_blockFacts _ _ hok hf inv hfit hhalf hwords hpc
  · exact fun hw _ => ⟨hw, hpc⟩

omit [DecidableEq T] in
/-- The facts of the handles that do not move. -/
theorem BlockFacts.mono (h : BlockFacts c m hd) (hok : hd.Ok c) (hf : HandleFacts c m hd)
    (hw : m.globalWriteWindow ≤ m'.globalWriteWindow)
    (hmono : ∀ b, getEpoch (m.header b) ≤ getEpoch (m'.header b))
    (hheld : ∀ v ≤ m.globalWriteWindow, ∀ index < c.blocksPerWindow,
      Held c m v index → Held c m' v index) : BlockFacts c m' hd := by
  constructor
  · rcases h.write with hdummy | ⟨v, hv, index, hindex, hblock, hepoch, hh⟩
    · exact .inl hdummy
    · exact .inr ⟨v, hv.trans hw, index, hindex, hblock, hepoch, hheld v hv index hindex hh⟩
  · have hpc := h.pc
    have hlocal := hok.pc
    have hfacts := hf.pc
    cases hp : hd.pc with
    | writeTouch t v index =>
        rw [hp] at hpc hlocal hfacts
        exact hheld v hfacts index hlocal.2 hpc
    | popReset k =>
        rw [hp] at hpc
        exact lt_of_lt_of_le hpc (hmono _)
    | popResetCas k eb =>
        rw [hp] at hpc
        exact lt_of_lt_of_le hpc (hmono _)
    | _ => trivial

end Step

/-! ## §4 — whole runs -/

section Runs

variable {n : Nat} {c : Config}

/-- Every epoch in use is below `2 ^ 31 - 1`, so that a smaller epoch is a valid one. -/
structure EpochsHalf (c : Config) (m : Shared T) : Prop where
  epoch : c.windowToEpoch m.globalWriteWindow < 2 ^ 31 - 1
  window : m.globalWriteWindow + 1 < 2 ^ 64

theorem EpochsHalf.fit {m : Shared T} (h : EpochsHalf c m) : EpochsFit c m :=
  ⟨by have := h.epoch; omega, h.window⟩

/-- Bits and elements, over a state. -/
structure EmptyInv (c : Config) (s : State T n) : Prop where
  blocks : BlockInv c s.shared
  handles : ∀ h, BlockFacts c s.shared (s.handles h)

theorem EmptyInv.fresh [Zero T] (c : Config) : EmptyInv c (State.fresh c n : State T n) where
  blocks := by
    constructor
    · intro b
      cases b with
      | dummy =>
          rw [State.fresh, fresh_header_dummy]
          exact Nat.mod_lt _ (by norm_num)
      | slot k =>
          rw [State.fresh, fresh_header_slot]
          split
          · exact Nat.mod_lt _ (by norm_num)
          · norm_num
    · intro p _ index _ hsome
      exact absurd (fresh_indices (T := T) c (getBlock c p index)).2 hsome
  handles _ := ⟨.inl rfl, trivial⟩

theorem BlockInv.step {m m' : Shared T} {hd : Handle T} (inv : BlockInv c m)
    (hfit : EpochsFit c m) (hwindows : WindowInv c m)
    (hchange : ∀ b, HeaderChange m hd b (m'.header b))
    (hw : m.globalWriteWindow ≤ m'.globalWriteWindow) (hwrite : WriteCache c m hd)
    (hheld : ∀ v ≤ m.globalWriteWindow, ∀ index < c.blocksPerWindow,
      Held c m v index → Held c m' v index) : BlockInv c m' where
  words b := (hchange b).lt (inv.words b)
  nonempty p hp index hindex hsome := by
    have hlt := inv.words (getBlock c p index)
    obtain ⟨hsame, hbefore⟩ := (hchange (getBlock c p index)).nonempty hlt hsome
    have hclaimed : ∃ v ≤ m.globalWriteWindow, c.windowToIndex v = p ∧ Claimed c m v index ∧
        getEpoch (m.header (getBlock c p index)) ≤ c.windowToEpoch v := by
      rcases hbefore with hsome' | ⟨hblock, hvalid⟩
      · exact inv.nonempty p hp index hindex hsome'
      · -- a push into an empty block: the writer's claim still stands
        rcases hwrite with hdummy | ⟨v, hv, index', hindex', hb, he, hh⟩
        · rw [hdummy] at hblock
          cases hblock
        · obtain ⟨rfl, rfl⟩ := getBlock_inj c hindex' hindex (hb.symm.trans hblock)
          rw [he] at hvalid
          have hle := le_of_epochValid (getEpoch_lt hlt) (hwindows.epoch_lt hfit (.inl hv)) hvalid
          exact ⟨v, hv, rfl, hh.resolve_right (by omega), hle⟩
    obtain ⟨v, hv, rfl, hcl, hle⟩ := hclaimed
    refine ⟨v, hv.trans hw, rfl, ?_, by rw [hsame]; exact hle⟩
    refine (hheld v hv index hindex (.inl hcl)).resolve_right ?_
    rw [hsame]
    omega

theorem HandleFacts.readEpoch_lt {m : Shared T} {hd : Handle T} (hf : HandleFacts c m hd)
    (hhalf : EpochsHalf c m) : hd.readEpoch < 2 ^ 31 - 1 := by
  obtain ⟨v, hv, he, _⟩ := hf.cache.epoch
  have := c.windowToEpoch_mono (Nat.le_of_lt hv)
  have := hhalf.epoch
  omega

variable [Zero T] [DecidableEq T]

/-- As long as headers move forward, claims stand and every handle keeps its facts. -/
theorem blockFacts_step {s : State T n} (hlocal : LocalInv c s) (hprotocol : ProtocolInv c s)
    (hhalf : EpochsHalf c s.shared) (hwords : ∀ b, s.shared.header b < 2 ^ 64)
    (hhandles : ∀ h, BlockFacts c s.shared (s.handles h)) (l : Fin n × Action c T)
    (hmono : ∀ b, getEpoch (s.shared.header b) ≤ getEpoch ((s.step c l).shared.header b)) :
    (∀ v ≤ s.shared.globalWriteWindow, ∀ index < c.blocksPerWindow,
      Held c s.shared v index → Held c (s.step c l).shared v index) ∧
      ∀ h, BlockFacts c (s.step c l).shared ((s.step c l).handles h) := by
  have hok := hlocal.handles l.1
  have hf := hprotocol.handles l.1
  have hfacts := hhandles l.1
  obtain ⟨hstep, _⟩ := stepHandle_window l.2 hprotocol.windows hhalf.fit hok hf
  have hgrows := (hstep.inv hhalf.fit hprotocol.windows).2
  have hheld : ∀ v ≤ s.shared.globalWriteWindow, ∀ index < c.blocksPerWindow,
      Held c s.shared v index → Held c (s.step c l).shared v index := fun v hv index hindex hh =>
    hh.step hstep hprotocol.windows hhalf.fit hv hindex hmono hfacts.pc
  refine ⟨hheld, fun h => ?_⟩
  by_cases hh : h = l.1
  · subst hh
    rw [State.step_handles_self]
    refine stepHandle_blockFacts l.2 hok hf hprotocol.windows hhalf.fit hhalf.epoch
      hwords hfacts.pc ?_ fun t v index hpc => ?_
    · rcases hfacts.write with hdummy | ⟨v, hv, index, hindex, hb, he, hh⟩
      · exact .inl hdummy
      · exact .inr ⟨v, hv.trans hgrows.write, index, hindex, hb, he, hheld v hv index hindex hh⟩
    · have hpcFacts := hf.pc
      have hpcOk := hok.pc
      have hpcHeld := hfacts.pc
      rw [hpc] at hpcFacts hpcOk hpcHeld
      exact ⟨Nat.le_trans hpcFacts hgrows.write, hheld v hpcFacts index hpcOk.2 hpcHeld⟩
  · rw [State.step_handles_ne c s l hh]
    exact (hhandles h).mono (hlocal.handles h) (hprotocol.handles h) hgrows.write hmono hheld

theorem EmptyInv.step {s : State T n} (inv : EmptyInv c s) (hmax : c.cellsPerBlock ≤ 65535)
    (hlocal : LocalInv c s) (hprotocol : ProtocolInv c s) (hcells : CellInv c s.shared s.holds)
    (hhalf : EpochsHalf c s.shared) (l : Fin n × Action c T)
    (hread : ¬ ReadsEmptyBlock l.2 s.shared (s.handles l.1)) : EmptyInv c (s.step c l) := by
  have hok := hlocal.handles l.1
  have hf := hprotocol.handles l.1
  have hgrows := ((hprotocol.windowStep hlocal hhalf.fit l).inv hhalf.fit hprotocol.windows).2
  have hchange := (stepHandle_cellStep l.2 hok hread).headerChange hmax hcells
  have hepoch : (s.handles l.1).readEpoch + 1 < 2 ^ 32 := by
    have := hf.readEpoch_lt hhalf
    omega
  obtain ⟨hheld, hhandles⟩ := blockFacts_step hlocal hprotocol hhalf inv.blocks.words inv.handles l
    fun b => (hchange b).epoch_le (inv.blocks.words b) hepoch
  exact ⟨inv.blocks.step hhalf.fit hprotocol.windows hchange hgrows.write (inv.handles l.1).write
    hheld, hhandles⟩

/-- Epochs stay below `2 ^ 31 - 1` in every state of the run. -/
def RunHalf (c : Config) (ls : List (Fin n × Action c T)) : Prop :=
  ∀ k ≤ ls.length, EpochsHalf c ((State.fresh c n).run c (ls.take k)).shared

/-- The check behind it, in a form that can be evaluated. -/
def halfEpochs (c : Config) (s : State T n) : Bool :=
  c.windowToEpoch s.shared.globalWriteWindow < 2 ^ 31 - 1 ∧ s.shared.globalWriteWindow + 1 < 2 ^ 64

theorem runHalf_of_checkRun {q : State T n → Fin n × Action c T → Bool} {ls : List (Fin n × Action c T)}
    (h : checkRun (State.step c) (halfEpochs c) q (State.fresh c n) ls = true) : RunHalf c ls := by
  intro k _
  obtain ⟨hepoch, hwindow⟩ := of_decide_eq_true ((State.run_of_checkRun h).1 k)
  exact ⟨hepoch, hwindow⟩

theorem emptyInv_run (hmax : c.cellsPerBlock ≤ 65535) {ls : List (Fin n × Action c T)}
    (hhalf : RunHalf c ls) (hread : ∀ k, ¬ ReadsEmptyAt c ls k) :
    ∀ k ≤ ls.length, EmptyInv c ((State.fresh c n).run c (ls.take k)) :=
  invariant_take (State.step c) (P := fun _ s => EmptyInv c s) (EmptyInv.fresh c) fun k hk ih =>
    ih.step hmax ((LocalInv.fresh c).run _)
      (protocolInv_run (fun k hk => (hhalf k hk).fit) k (Nat.le_of_lt hk))
      (cellInv_run hmax ls (Nat.le_of_lt hk) fun j _ => hread j) (hhalf k (Nat.le_of_lt hk)) _
      fun hbad => hread k ⟨hk, hbad⟩

end Runs

end RelaxedConcurrentFifo.BlockBasedQueue
