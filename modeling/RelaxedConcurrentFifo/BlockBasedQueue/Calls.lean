/-
# RelaxedConcurrentFifo.BlockBasedQueue.Calls — one call from its first access to its last

A call that runs alone is a walk through the program points in which the start bits are chosen, and
which weak compare-and-swaps fail without a reason. `Finishes` says that every such walk comes to an
end, and where, if there is a bound on such failures. Each loop of the source is one lemma here: a
scan over units ends at a bit it can claim or has seen them all, `claim_new_block_write` moves the
write window until it finds a free block or the lap is full, and `claim_new_block_read` looks at the
window it was ahead in, at the read window, and moves on.

A failure for no reason sends `push` and `pop` on to another block. A push then leaves a claimed block
empty; a pop that is given one invalidates it, and looks for another. Nothing else depends on such
failures, and without them no block is left empty (`strict`).

The two results are `push_finishes` and `pop_finishes`: what a call does to the memory and to its
own handle.
-/
import RelaxedConcurrentFifo.BlockBasedQueue.Quiescent
import Mathlib.Data.Finset.Prod

namespace RelaxedConcurrentFifo.BlockBasedQueue

open RelaxedConcurrentFifo.AtomicBitset (UnitOk makeUnit getBits claimStart claimIndex claimTest
  claimDesired resetDesired claimRetry claimRetryNoEpoch claimDesired_zero claimStart_some
  claimStart_bit claimIndex_none claimIndex_some claimIndex_lt claimStart_one_none claimRetry_same
  claimRetryNoEpoch_same)

open RelaxedConcurrentFifo.Lib.Runs
open RelaxedConcurrentFifo.Lib.Words (sub64)

variable {T : Type}

/-! ## §1 — walks of one handle -/

/-- The handle at another point of its program. -/
def Handle.goto (hd : Handle T) (pc : Pc T) : Handle T := { hd with pc := pc }

/-- The handle with block `index` of window `v` to write to. -/
def Handle.writeTo (hd : Handle T) (c : Config) (v index : Nat) : Handle T :=
  { hd with writeEpoch := c.windowToEpoch v, writeBlock := blockAt c v index }

/-- What is chosen at an access: what `random_bit_index()` returns, and whether a weak compare-and-swap
fails without a reason. -/
abbrev Choice (c : Config) : Type := Fin c.blocksPerWindow × Bool

variable [Zero T]

/-- The next access of a call that runs alone. -/
def callStep [DecidableEq T] (c : Config) (x : Shared T × Handle T) (choice : Choice c) :
    Shared T × Handle T :=
  runStep c choice.1 choice.2 x.1 x.2

/-- Whatever is chosen, with up to `k` failures for no reason, the call comes to an end with `P`, or
epochs run out. -/
def Finishes [DecidableEq T] (c : Config) (P : Shared T × Handle T → Prop) (k : Nat) :
    Shared T × Handle T → Prop :=
  Ends (callStep c) Prod.snd (fun x => EpochsHalf c x.1) P k

/-- A scan: what holds at a unit if it holds at the next one, holds at every unit. -/
theorem scan_induction {n : Nat} {Q : Nat → Prop} (h : ∀ i < n, (i + 1 < n → Q (i + 1)) → Q i) :
    ∀ i < n, Q i := by
  intro i hi
  obtain ⟨k, hk⟩ := Nat.exists_eq_add_of_lt hi
  induction k generalizing i with
  | zero => exact h i hi fun hnext => by omega
  | succ k ih => exact h i hi fun hnext => ih (i + 1) hnext (by omega)

section Walks

variable [DecidableEq T] {c : Config} {P : Shared T × Handle T → Prop} {k : Nat}
  {x y z : Shared T × Handle T}

theorem Finishes.mono (h : Finishes c P k x) {j : Nat} (hj : j ≤ k) : Finishes c P j x := Ends.mono h hj

/-- An access that may depend on the start bit. -/
theorem Finishes.draw {y : Fin c.blocksPerWindow → Shared T × Handle T}
    (h : ∀ start, Finishes c P k (y start))
    (hstep : ∀ start spurious, callStep c x (start, spurious) = y start) : Finishes c P k x := by
  refine .next (fun choice _ => ?_) fun j hj choice _ => ?_
  · rw [show callStep c x choice = y choice.1 from hstep choice.1 choice.2]
    exact h choice.1
  · rw [show callStep c x choice = y choice.1 from hstep choice.1 choice.2]
    exact (h choice.1).mono hj.le

/-- An access that does not depend on any choice. -/
theorem Finishes.step (h : Finishes c P k y) (hstep : ∀ choice, callStep c x choice = y) :
    Finishes c P k x := .draw (fun _ => h) fun start spurious => hstep (start, spurious)

/-- A weak compare-and-swap that nothing but a failure for no reason can keep from its success. -/
theorem Finishes.weakCas (h : Finishes c P k y) (hstep : ∀ start, callStep c x (start, false) = y)
    (hfail : ∀ start, callStep c x (start, true) = z) (hz : ∀ j < k, Finishes c P j z) :
    Finishes c P k x := by
  refine .next ?_ fun j hj => ?_
  · rintro ⟨start, _⟩ rfl
    exact hstep start ▸ h
  · rintro ⟨start, _⟩ rfl
    exact hfail start ▸ hz j hj

/-- The same in a loop, which tries again. -/
theorem Finishes.retry (h : Finishes c P k y) (hstep : ∀ start, callStep c x (start, false) = y)
    (hfail : ∀ start, callStep c x (start, true) = x) : Finishes c P k x := by
  induction k using Nat.strong_induction_on with
  | _ k ih => exact h.weakCas hstep hfail fun j hj => ih j hj (h.mono hj.le)

end Walks

section Push

variable {c : Config} {strict : Prop} {m m₀ : Shared T} {hd hd₀ : Handle T}
  {P : Shared T × Handle T → Prop} {t : T} {k index : Nat}

/-! ## §2 — `push` -/

/-- A push into a block that is valid and has room. -/
theorem finishes_pushLoad [DecidableEq T]
    (hvalid : epochValid (getEpoch (m.header hd.writeBlock)) hd.writeEpoch = true)
    (hroom : getWriteIndex (m.header hd.writeBlock) ≠ c.cellsPerBlock)
    (hzero : m.cell hd.writeBlock (getWriteIndex (m.header hd.writeBlock)) = 0)
    (hP : P (m.pushInto hd.writeBlock t, hd.goto (.idle (some (.pushed true)))))
    (hfail : ∀ j < k, Finishes c P j (m, hd.goto (.writeWindow t))) :
    Finishes c P k (m, hd.goto (.pushLoad t)) := by
  have hcheck : pushCheck c hd t (m.header hd.writeBlock) =
      .pushCell t (m.header hd.writeBlock) (getWriteIndex (m.header hd.writeBlock)) := by
    rw [pushCheck, if_neg]
    rintro (h | h)
    · rw [hvalid] at h
      cases h
    · exact hroom h
  refine Finishes.step (y := (m, hd.goto (pushCheck c hd t (m.header hd.writeBlock)))) ?_
    fun _ => rfl
  rw [hcheck]
  refine Finishes.weakCas (y := (m.setCell hd.writeBlock (getWriteIndex (m.header hd.writeBlock)) t,
    hd.goto (.pushHeader t (m.header hd.writeBlock) (getWriteIndex (m.header hd.writeBlock))))) ?_
    (fun _ => if_pos ⟨hzero, rfl⟩) (fun _ => if_neg fun h => Bool.noConfusion h.2) hfail
  exact Finishes.step (.done hP) fun _ => if_pos rfl

/-- A push whose block is used up. -/
theorem finishes_pushLoad_unusable [DecidableEq T]
    (h : epochValid (getEpoch (m.header hd.writeBlock)) hd.writeEpoch = false ∨
      getWriteIndex (m.header hd.writeBlock) = c.cellsPerBlock)
    (hP : Finishes c P k (m, hd.goto (.writeWindow t))) :
    Finishes c P k (m, hd.goto (.pushLoad t)) := by
  have hcheck : pushCheck c hd t (m.header hd.writeBlock) = .writeWindow t := if_pos h
  rw [← hcheck] at hP
  exact hP.step fun _ => rfl

/-- The unit of the write window that the scan passes has all its bits set. -/
theorem QuietInv.unit_full {hole : Option Block} (inv : QuietInv c strict m hole) {j rot : Nat}
    (hj : j < c.unitsPerWindow) (hrot : rot < c.bitCount)
    (h : claimStart .zero c.bitCount (c.windowToEpoch m.globalWriteWindow) rot
      (m.unit c m.globalWriteWindow j) = none) :
    ∀ index < c.blocksPerWindow, index / c.bitCount = j → Claimed c m m.globalWriteWindow index := by
  intro index hi hdiv
  have hcur := inv.current j hj
  have hok : UnitOk c.bitCount (m.unit c m.globalWriteWindow j) := inv.windows.words _
  unfold claimStart at h
  rw [if_neg (not_not.mpr hcur), hok.mod_eq c.bitCount_le] at h
  refine ⟨by rw [hdiv]; exact hcur, ?_⟩
  rw [hdiv]
  exact claimIndex_none hok.bits hrot h _ (Nat.mod_lt _ c.bitCount_pos)

/-- **`claim_bit` on the write window** finds a free block, or all blocks are claimed. -/
theorem finishes_writeUnit [DecidableEq T] (inv : QuietInv c strict m none) (st : Nat)
    (hfull : (∀ index < c.blocksPerWindow, Claimed c m m.globalWriteWindow index) →
      Finishes c P k (m, hd.goto (.writeFull t m.globalWriteWindow)))
    (hclaim : ∀ index < c.blocksPerWindow, ¬ Claimed c m m.globalWriteWindow index →
      Finishes c P k (m.claimBlock c m.globalWriteWindow index,
        (hd.writeTo c m.globalWriteWindow index).goto (.pushLoad t))) :
    ∀ i < c.unitsPerWindow,
      (∀ i' < i, ∀ index < c.blocksPerWindow, index / c.bitCount = c.visited st i' →
        Claimed c m m.globalWriteWindow index) →
      Finishes c P k (m, hd.goto (.writeUnit t m.globalWriteWindow st i)) := by
  have hrot : st % c.bitCount < c.bitCount := Nat.mod_lt _ c.bitCount_pos
  refine scan_induction fun i hi ih hpast => ?_
  have hu := claimUnit_eq_unitAt (c := c) m.globalWriteWindow st i
  cases hstart : claimStart .zero c.bitCount (c.windowToEpoch m.globalWriteWindow)
      (st % c.bitCount) (m.filledSet (claimUnit c m.globalWriteWindow st i)) with
  | none =>
      have hnow : ∀ index < c.blocksPerWindow, index / c.bitCount = c.visited st i →
          Claimed c m m.globalWriteWindow index := by
        rw [hu] at hstart
        exact inv.unit_full (c.visited_lt st i) hrot hstart
      refine Finishes.step (y := (m, hd.goto (writeNext c t m.globalWriteWindow st i))) ?_
        fun _ => by simp only [callStep, runStep, Handle.goto, hstart]
      unfold writeNext
      split
      · rename_i hnext
        exact ih hnext (forall_lt_succ hpast hnow)
      · rename_i hlast
        refine hfull fun index hindex => ?_
        exact forall_units_of_visited st hlast
          (P := fun j => ∀ index < c.blocksPerWindow, index / c.bitCount = j →
            Claimed c m m.globalWriteWindow index) hpast hnow _ (div_bitCount_lt c hindex) index
          hindex rfl
  | some bit =>
      have hbit := claimStart_lt hrot hstart
      have hset : Nat.testBit _ bit = false := claimStart_bit hrot hstart
      have hretry : claimRetry .zero c.bitCount (c.windowToEpoch m.globalWriteWindow)
          (st % c.bitCount) bit (m.filledSet (claimUnit c m.globalWriteWindow st i)) = some bit :=
        claimRetry_same (c.bitCount_le.trans (by decide)) (claimStart_some hstart) hbit hset
      have hdiv := claimResult_div c st i hbit
      have hmod := claimResult_mod c st i hbit
      have hok : UnitOk c.bitCount (m.unit c m.globalWriteWindow (c.visited st i)) :=
        inv.windows.words _
      rw [hu] at hstart hset
      have hfree : ¬ Claimed c m m.globalWriteWindow (claimResult c st i bit) := by
        rintro ⟨-, hclaimed⟩
        rw [hdiv, hmod, AtomicBitset.getBits_eq_mod, Nat.testBit_mod_two_pow] at hclaimed
        rw [Shared.unit, hset, Bool.and_false] at hclaimed
        cases hclaimed
      have hmem : (m.setFilled (claimUnit c m.globalWriteWindow st i)
            (claimDesired .zero c.bitCount (c.windowToEpoch m.globalWriteWindow)
              (m.filledSet (claimUnit c m.globalWriteWindow st i)) bit)).setTouched
          (unitOf c (c.windowToIndex m.globalWriteWindow) (claimResult c st i bit))
          (m.touchedSet (unitOf c (c.windowToIndex m.globalWriteWindow) (claimResult c st i bit)) |||
            1 <<< (claimResult c st i bit % c.bitCount)) =
          m.claimBlock c m.globalWriteWindow (claimResult c st i bit) := by
        have hunit : unitOf c (c.windowToIndex m.globalWriteWindow) (claimResult c st i bit) =
          c.unitAt m.globalWriteWindow (claimResult c st i bit / c.bitCount) := rfl
        rw [hunit, Shared.claimBlock, hdiv, hmod, hu, ← Shared.unit,
          claimDesired_zero _ c.bitCount_le hok hbit]
      refine Finishes.step (y := (m, hd.goto (.writeClaim t m.globalWriteWindow st i
        (m.filledSet (claimUnit c m.globalWriteWindow st i)) bit))) ?_
        fun _ => by simp only [callStep, runStep, Handle.goto, hu, hstart]
      refine Finishes.retry ?_ (fun _ => if_pos ⟨rfl, rfl⟩) fun _ => ?_
      · refine Finishes.step ?_ fun _ => rfl
        have := hclaim _ (claimResult_lt c st i hbit) hfree
        rw [← hmem] at this
        exact this
      · refine (if_neg fun h => Bool.noConfusion h.2).trans ?_
        rw [hretry]
        rfl

/-- The header of a block is valid for an epoch it has not passed. -/
theorem QuietInv.valid_iff {hole : Option Block} (inv : QuietInv c strict m hole) (hhalf : EpochsHalf c m)
    {v : Nat} (hv : v ≤ m.globalWriteWindow) (b : Block) :
    epochValid (getEpoch (m.header b)) (c.windowToEpoch v) = true ↔
      getEpoch (m.header b) ≤ c.windowToEpoch v := by
  have hmono := c.windowToEpoch_mono hv
  have hlt := hhalf.epoch
  exact epochValid_iff (getEpoch_lt (inv.words b)) (by omega)

theorem QuietInv.cell_eq_zero {hole : Option Block} (inv : QuietInv c strict m hole) (b : Block) :
    m.cell b (getWriteIndex (m.header b)) = 0 :=
  Classical.byContradiction fun hne => Nat.lt_irrefl _ ((inv.cells _ _).mp hne).2

/-- The handle's block takes another element. -/
def Usable (c : Config) (m : Shared T) (hd : Handle T) : Prop :=
  epochValid (getEpoch (m.header hd.writeBlock)) hd.writeEpoch = true ∧
    getWriteIndex (m.header hd.writeBlock) ≠ c.cellsPerBlock

/-- A push that has added its value to a block: the one the handle had, or a new one of the write
window. -/
structure Accepted (c : Config) (strict : Prop) (m : Shared T) (hd : Handle T) (t : T)
    (m' : Shared T) (hd' : Handle T) : Prop where
  returned : hd'.pc = .idle (some (.pushed true))
  block : ∃ v index, InLap c m' v index ∧ v ≤ m'.globalWriteWindow ∧
    hd'.writeBlock = blockAt c v index ∧ hd'.writeEpoch = c.windowToEpoch v ∧
      (hd'.writeBlock = hd.writeBlock ∧ hd'.writeEpoch = hd.writeEpoch ∧ Claimed c m v index ∨
        v = m'.globalWriteWindow ∧ (strict → ¬ Usable c m hd))
  values : blockValues m' hd'.writeBlock = blockValues m hd'.writeBlock ++ [t]
  epoch : getEpoch (m'.header hd'.writeBlock) = getEpoch (m.header hd'.writeBlock)
  read : getReadIndex (m'.header hd'.writeBlock) = getReadIndex (m.header hd'.writeBlock)
  others : ∀ b ≠ hd'.writeBlock, m'.header b = m.header b ∧ m'.cell b = m.cell b
  claims : strict → ∀ v index, InLap c m' v index → Claimed c m' v index →
    Claimed c m v index ∨ blockAt c v index = hd'.writeBlock

/-- A push that looks for a block, and has not pushed yet: it has moved the write window, and after
failures for no reason it may have claimed blocks that stay empty. -/
structure Seeking (c : Config) (strict : Prop) (m : Shared T) (hd : Handle T) (m' : Shared T)
    (hd' : Handle T) : Prop where
  quiet : QuietInv c strict m' none
  keeps : Keeps c m m'
  cache : CacheOk c m' hd'
  read : m'.globalReadWindow = m.globalReadWindow
  header : m'.header = m.header
  cell : m'.cell = m.cell
  block : hd'.writeBlock = hd.writeBlock ∧ hd'.writeEpoch = hd.writeEpoch ∨
    ¬ strict ∧ ∃ v index, m.globalWriteWindow ≤ v ∧ index < c.blocksPerWindow ∧
      hd'.writeBlock = blockAt c v index ∧ hd'.writeEpoch = c.windowToEpoch v
  claims : strict → ∀ v index, Claimed c m' v index ↔ Claimed c m v index
  unusable : strict → ¬ Usable c m hd

/-- A push that has found the whole lap claimed. -/
structure Rejected (c : Config) (strict : Prop) (m : Shared T) (hd : Handle T) (m' : Shared T)
    (hd' : Handle T) : Prop where
  seeking : Seeking c strict m hd m' hd'
  returned : hd'.pc = .idle (some (.pushed false))
  full : ∀ index < c.blocksPerWindow, Claimed c m' m'.globalWriteWindow index
  last : m'.globalWriteWindow + 1 = m'.globalReadWindow + c.windowCount

/-- What a call of `push` leaves. -/
structure PushEnd (c : Config) (strict : Prop) (m : Shared T) (hd : Handle T) (t : T)
    (x : Shared T × Handle T) : Prop where
  quiet : QuietInv c strict x.1 none
  keeps : Keeps c m x.1
  read : x.1.globalReadWindow = m.globalReadWindow
  cache : CacheOk c x.1 x.2
  result : Accepted c strict m hd t x.1 x.2 ∨ Rejected c strict m hd x.1 x.2

theorem blockValues_pushInto {hole : Option Block} (inv : QuietInv c strict m hole)
    (hmax : c.cellsPerBlock ≤ 65535) {b : Block} (hroom : getWriteIndex (m.header b) ≠ c.cellsPerBlock)
    (t : T) : blockValues (m.pushInto b t) b = blockValues m b ++ [t] := by
  have hcap := (inv.indices b).write
  have hcell : blockValues (m.setCell b (getWriteIndex (m.header b)) t) b = blockValues m b := by
    refine blockValues_congr rfl fun i hi => ?_
    rw [Shared.setCell_cell, if_neg fun h => Nat.lt_irrefl _ (h.2 ▸ hi.2)]
  have hpush : blockValues (m.pushInto b t) b =
      blockValues (m.setCell b (getWriteIndex (m.header b)) t) b ++
        [(m.setCell b (getWriteIndex (m.header b)) t).cell b (getWriteIndex (m.header b))] :=
    blockValues_incrementWrite (Function.update_self _ _ _) rfl (inv.indices b).le
      (show getWriteIndex (m.header b) < 65535 by omega)
  rw [hpush, hcell, Shared.setCell_cell, if_pos ⟨rfl, rfl⟩]

/-- A push leaves the epoch and the read index of its block as they are. -/
theorem header_pushInto {hole : Option Block} (inv : QuietInv c strict m hole)
    (hmax : c.cellsPerBlock ≤ 65535) {b : Block} (hroom : getWriteIndex (m.header b) ≠ c.cellsPerBlock)
    (t : T) : getEpoch ((m.pushInto b t).header b) = getEpoch (m.header b) ∧
      getReadIndex ((m.pushInto b t).header b) = getReadIndex (m.header b) := by
  have hcap := (inv.indices b).write
  have hlt : getWriteIndex (m.header b) < 65535 := by omega
  have hheader : (m.pushInto b t).header b = incrementWriteIndex (m.header b) :=
    Function.update_self _ _ _
  rw [hheader]
  exact ⟨getEpoch_incrementWriteIndex (inv.words b) hlt, getReadIndex_incrementWriteIndex hlt⟩

theorem CacheOk.usable (h : CacheOk c m hd) (inv : QuietInv c strict m none) (hhalf : EpochsHalf c m)
    (hu : Usable c m hd) :
    ∃ v index, InLap c m v index ∧ v ≤ m.globalWriteWindow ∧ hd.writeBlock = blockAt c v index ∧
      hd.writeEpoch = c.windowToEpoch v ∧ Claimed c m v index ∧
      getEpoch (m.header (blockAt c v index)) ≤ c.windowToEpoch v := by
  have hgap := inv.windows.gap
  obtain ⟨hvalid, -⟩ := hu
  rcases h.write with ⟨hb, he⟩ | ⟨v, hv, index, hi, hb, he, hheld⟩
  · rw [hb, he, dummy_invalid inv.dummy] at hvalid
    cases hvalid
  · rw [hb, he, inv.valid_iff hhalf hv] at hvalid
    have hclaimed := hheld.resolve_right (Nat.not_lt.mpr hvalid)
    exact ⟨v, index, ⟨inv.claimed_le hhalf.fit hv hi hclaimed, by omega, hi⟩, hv, hb, he, hclaimed,
      hvalid⟩

theorem Seeking.goto (hseek : Seeking c strict m₀ hd₀ m hd) (pc : Pc T) :
    Seeking c strict m₀ hd₀ m (hd.goto pc) :=
  ⟨hseek.quiet, hseek.keeps, ⟨hseek.cache.write, hseek.cache.read, hseek.cache.window⟩, hseek.read,
    hseek.header, hseek.cell, hseek.block, hseek.claims, hseek.unusable⟩

theorem Seeking.cache_writeTo (hseek : Seeking c strict m₀ hd₀ m hd)
    (hi : index < c.blocksPerWindow) {m' : Shared T} (hkeeps : Keeps c m m')
    (hw : m'.globalWriteWindow = m.globalWriteWindow)
    (hc : Claimed c m' m.globalWriteWindow index) (pc : Pc T) :
    CacheOk c m' ((hd.writeTo c m.globalWriteWindow index).goto pc) := by
  have hold := hseek.cache.mono hkeeps
  exact ⟨.inr ⟨m.globalWriteWindow, hw.ge, index, hi, rfl, rfl, .inl hc⟩, hold.read, hold.window⟩

/-- A block has been claimed, and the compare-and-swap on its cell fails for no reason. -/
theorem Seeking.leaveEmpty (hseek : Seeking c strict m₀ hd₀ m hd) (hloose : ¬ strict)
    (hfit : EpochsFit c m) (hi : index < c.blocksPerWindow)
    (hfree : ¬ Claimed c m m.globalWriteWindow index) :
    Seeking c strict m₀ hd₀ (m.claimBlock c m.globalWriteWindow index)
      (hd.writeTo c m.globalWriteWindow index) := by
  have inv := hseek.quiet
  have horder := inv.windows.order
  have hgap := inv.windows.gap
  obtain ⟨hepoch, -⟩ := (inv.blocks _ horder.le hgap index hi).unread (.inl (Nat.le_refl _))
  obtain ⟨inv', hkeeps⟩ := inv.claim hfit hi rfl hfree
  have hclaimed := (inv.claimed_claimBlock hfit hi horder.le hgap hi).mpr (.inr ⟨rfl, rfl⟩)
  refine ⟨inv'.leaveEmpty hloose ⟨horder.le, hgap, hi⟩ hepoch, hseek.keeps.trans hkeeps,
    hseek.cache_writeTo hi hkeeps rfl hclaimed hd.pc, hseek.read, hseek.header, hseek.cell,
    .inr ⟨hloose, _, index, hseek.keeps.write, hi, rfl, rfl⟩, fun h => absurd h hloose,
    hseek.unusable⟩

/-- A block has been claimed, and the value is in it. -/
theorem Seeking.accepted (hseek : Seeking c strict m₀ hd₀ m hd) (hmax : c.cellsPerBlock ≤ 65535)
    (hfit : EpochsFit c m) (hi : index < c.blocksPerWindow)
    (hfree : ¬ Claimed c m m.globalWriteWindow index) (ht : t ≠ 0) :
    PushEnd c strict m₀ hd₀ t
      ((m.claimBlock c m.globalWriteWindow index).pushInto (blockAt c m.globalWriteWindow index) t,
        (hd.writeTo c m.globalWriteWindow index).goto (.idle (some (.pushed true)))) := by
  have inv := hseek.quiet
  have horder := inv.windows.order
  have hgap := inv.windows.gap
  have hlap : InLap c m m.globalWriteWindow index := ⟨horder.le, hgap, hi⟩
  have hok := inv.blocks m.globalWriteWindow horder.le hgap index hi
  have hempty := (hok.free hfree).1
  obtain ⟨hepoch, -⟩ := hok.unread (.inl (Nat.le_refl _))
  obtain ⟨inv₁, hkeeps₁⟩ := inv.claim hfit hi rfl hfree
  have hpos := c.cellsPerBlock_pos
  have hroom : getWriteIndex (m.header (blockAt c m.globalWriteWindow index)) ≠
      c.cellsPerBlock := by omega
  have hclaimed := (inv.claimed_claimBlock hfit hi horder.le hgap hi).mpr (.inr ⟨rfl, rfl⟩)
  have hlap₁ : InLap c (m.claimBlock c m.globalWriteWindow index) m.globalWriteWindow index :=
    ⟨hlap.ge, hlap.lt, hi⟩
  obtain ⟨inv₂, hkeeps₂⟩ := inv₁.pushInto hmax hlap₁ hclaimed hepoch hroom ht
    fun b hne heq => hne (Option.some.inj heq).symm
  have hkeeps := hkeeps₁.trans hkeeps₂
  have hone := pushInto_oneBlock (m.claimBlock c m.globalWriteWindow index)
    (blockAt c m.globalWriteWindow index) t
  have hheader := header_pushInto inv₁ hmax hroom t
  refine ⟨inv₂, hseek.keeps.trans hkeeps, hseek.read,
    hseek.cache_writeTo hi hkeeps rfl ((claimed_of_filledSet hone.filled).mpr hclaimed) _,
    .inl ⟨rfl, ⟨m.globalWriteWindow, index, ⟨hlap.ge, hlap.lt, hi⟩, Nat.le_refl _, rfl, rfl,
      .inr ⟨rfl, hseek.unusable⟩⟩, ?_, hseek.header ▸ hheader.1, hseek.header ▸ hheader.2,
      fun b hne => ?_, fun hstrict v' index' hlap' hc => ?_⟩⟩
  · have hvalues := blockValues_pushInto inv₁ hmax hroom t
    refine hvalues.trans (congrArg (· ++ [t]) ?_)
    exact blockValues_congr (congrFun hseek.header _) fun i _ => congrFun (congrFun hseek.cell _) i
  · rw [hone.header b hne, hone.cell b hne, ← hseek.header, ← hseek.cell]
    exact ⟨rfl, rfl⟩
  · have hc' := (claimed_of_filledSet hone.filled).mp hc
    refine ((inv.claimed_claimBlock hfit hi hlap'.ge hlap'.lt hlap'.index).mp hc').imp
      (hseek.claims hstrict v' index').mp ?_
    rintro ⟨rfl, rfl⟩
    rfl

/-- Writers leave the window. -/
theorem Seeking.moveWrite (hseek : Seeking c strict m₀ hd₀ m hd) (hfit : EpochsFit c m)
    (hroom : m.globalWriteWindow + 1 < m.globalReadWindow + c.windowCount)
    (hall : ∀ index < c.blocksPerWindow, Claimed c m m.globalWriteWindow index) :
    Seeking c strict m₀ hd₀ { m with globalWriteWindow := m.globalWriteWindow + 1 } hd := by
  obtain ⟨inv, hkeeps⟩ := hseek.quiet.moveWrite hfit hroom hall
  refine ⟨inv, hseek.keeps.trans hkeeps, hseek.cache.mono hkeeps, hseek.read, hseek.header,
    hseek.cell, hseek.block, fun hstrict v index => ?_, hseek.unusable⟩
  refine Iff.trans ?_ (hseek.claims hstrict v index)
  exact claimed_of_filledSet rfl

variable [DecidableEq T]

/-- **`claim_new_block_write`, and the push into the block it has claimed.** -/
theorem finishes_writeWindow (hmax : c.cellsPerBlock ≤ 65535) (ht : t ≠ 0)
    (hstrict : strict → k = 0) (hseek : Seeking c strict m₀ hd₀ m hd) :
    Finishes c (PushEnd c strict m₀ hd₀ t) k (m, hd.goto (.writeWindow t)) := by
  -- after a failure for no reason the loop starts again, with one failure less to come
  induction k using Nat.strong_induction_on generalizing m hd with
  | _ k ihk =>
      obtain ⟨d, hd'⟩ : ∃ d, m.globalReadWindow + c.windowCount ≤ m.globalWriteWindow + d :=
        ⟨m.globalReadWindow + c.windowCount, Nat.le_add_left _ _⟩
      induction d generalizing m with
      | zero =>
          have := hseek.quiet.windows.gap
          omega
      | succ d ih =>
          by_cases hhalf : EpochsHalf c m
          · have inv := hseek.quiet
            have hgap := inv.windows.gap
            have horder := inv.windows.order
            refine Finishes.draw (y := fun start =>
              (m, hd.goto (.writeUnit t m.globalWriteWindow start 0))) (fun start => ?_)
              fun _ _ => rfl
            refine finishes_writeUnit inv start (fun hall => ?_) (fun index hi hfree => ?_) 0
              c.unitsPerWindow_pos fun i' hi' => absurd hi' (Nat.not_lt_zero i')
            · by_cases hlast : sub64 ((m.globalWriteWindow + 1) % 2 ^ 64) m.globalReadWindow =
                  c.windowCount
              · -- the lap is full
                have hnext : m.globalWriteWindow + 1 = m.globalReadWindow + c.windowCount := by
                  have := hhalf.window
                  rw [Nat.mod_eq_of_lt this, sub64] at hlast
                  omega
                have hrejected := hseek.goto (.idle (some (.pushed false)))
                exact Finishes.step (.done ⟨inv, hseek.keeps, hseek.read, hrejected.cache,
                  .inr ⟨hrejected, rfl, hall, hnext⟩⟩) fun _ => if_pos hlast
              · have hroom := room_of_sub64_ne inv.windows hhalf.fit (Nat.le_refl _) hlast
                refine Finishes.step (y := (m, hd.goto (.writeMove t m.globalWriteWindow))) ?_
                  fun _ => if_neg hlast
                refine Finishes.step (y := (m.moveWrite m.globalWriteWindow,
                  hd.goto (.writeWindow t))) ?_ fun _ => rfl
                rw [moveWrite_of_eq rfl hhalf.fit]
                refine ih (hseek.moveWrite hhalf.fit hroom hall) ?_
                dsimp only at hd' ⊢
                omega
            · have hok := inv.blocks m.globalWriteWindow horder.le hgap index hi
              have hempty := (hok.free hfree).1
              obtain ⟨hepoch, -⟩ := hok.unread (.inl (Nat.le_refl _))
              have hpos := c.cellsPerBlock_pos
              show Finishes c _ _ (_, (hd.writeTo c m.globalWriteWindow index).goto (.pushLoad t))
              refine finishes_pushLoad ?_ ?_ (inv.cell_eq_zero _)
                (hseek.accepted hmax hhalf.fit hi hfree ht) fun j hj => ?_
              · exact (inv.valid_iff hhalf (Nat.le_refl _) _).mpr hepoch
              · show getWriteIndex (m.header (blockAt c m.globalWriteWindow index)) ≠ _
                omega
              · have hloose : ¬ strict := fun h => by have := hstrict h; omega
                exact ihk j hj (fun h => absurd h hloose)
                  (hseek.leaveEmpty hloose hhalf.fit hi hfree)
          · exact .out hhalf

/-- **What `push` does, alone.** -/
theorem push_finishes (hmax : c.cellsPerBlock ≤ 65535) (hstrict : strict → k = 0)
    (inv : QuietInv c strict m none) (hcache : CacheOk c m hd) (ht : t ≠ 0) :
    Finishes c (PushEnd c strict m hd t) k (m, hd.goto (.pushLoad t)) := by
  by_cases hhalf : EpochsHalf c m
  · have hseek : (strict → ¬ Usable c m hd) → Seeking c strict m hd m hd := fun hu =>
      ⟨inv, Keeps.refl c m, hcache, rfl, rfl, rfl, .inl ⟨rfl, rfl⟩, fun _ _ _ => Iff.rfl, hu⟩
    by_cases hu : Usable c m hd
    · obtain ⟨v, index, hlap, hv, hb, he, hclaimed, hepoch⟩ := hcache.usable inv hhalf hu
      have hroom := hu.2
      rw [hb] at hroom
      obtain ⟨inv', hkeeps⟩ := inv.pushInto hmax hlap hclaimed hepoch hroom ht fun _ _ => nofun
      refine finishes_pushLoad hu.1 hu.2 (inv.cell_eq_zero _) ?_ fun j hj => ?_
      · have hone := pushInto_oneBlock m hd.writeBlock t
        rw [← hb] at inv' hkeeps
        have hheader := header_pushInto inv hmax hu.2 t
        have hcache' := hcache.mono hkeeps
        refine ⟨inv', hkeeps, rfl, ⟨hcache'.write, hcache'.read, hcache'.window⟩, .inl ⟨rfl, ⟨v, index,
          ⟨hlap.ge, hlap.lt, hlap.index⟩, hv, hb, he, .inl ⟨rfl, rfl, hclaimed⟩⟩,
          blockValues_pushInto inv hmax hu.2 t, hheader.1, hheader.2,
          fun b hne => ⟨hone.header b hne, hone.cell b hne⟩, fun _ v' index' _ hc => .inl ?_⟩⟩
        exact (claimed_of_filledSet hone.filled).mp hc
      · have hloose : ¬ strict := fun h => by have := hstrict h; omega
        exact finishes_writeWindow hmax ht (fun h => absurd h hloose)
          (hseek fun h => absurd h hloose)
    · refine finishes_pushLoad_unusable ?_ (finishes_writeWindow hmax ht hstrict (hseek fun _ => hu))
      by_contra hno
      rw [not_or, Bool.not_eq_false] at hno
      exact hu hno
  · exact .out hhalf

end Push

/-! ## §3 — `pop`: taking an element -/

/-- A pop that has taken the first value of a block in the read window or the one after it. -/
structure Popped (c : Config) (m : Shared T) (x : T) (m' : Shared T) (hd' : Handle T) : Prop where
  returned : hd'.pc = .idle (some (.popped (some x)))
  block : ∃ v index, InLap c m' v index ∧ v < m'.globalWriteWindow ∧ v ≤ m'.globalReadWindow + 1 ∧
    hd'.readBlock = blockAt c v index ∧ v ≤ m.globalWriteWindow ∧ Claimed c m v index
  values : blockValues m hd'.readBlock = x :: blockValues m' hd'.readBlock
  others : ∀ b ≠ hd'.readBlock, blockValues m' b = blockValues m b

/-- A pop that has found no element. -/
structure NothingLeft (c : Config) (m m' : Shared T) (hd' : Handle T) : Prop where
  returned : hd'.pc = .idle (some (.popped none))
  values : ∀ b, blockValues m' b = blockValues m b
  empty : ∀ v index, InLap c m' v index → ¬ Claimed c m' v index

/-- What a call of `pop` leaves. -/
structure PopEnd (c : Config) (strict : Prop) (m : Shared T) (hd : Handle T)
    (x : Shared T × Handle T) : Prop where
  quiet : QuietInv c strict x.1 none
  keeps : Keeps c m x.1
  cache : CacheOk c x.1 x.2
  writeBlock : x.2.writeBlock = hd.writeBlock ∧ x.2.writeEpoch = hd.writeEpoch
  claims : ∀ v index, InLap c x.1 v index → Claimed c x.1 v index →
    v ≤ m.globalWriteWindow ∧ Claimed c m v index
  unread : ∀ v index, InLap c x.1 v index → Claimed c x.1 v index → Far x.1 v →
    x.1.header (blockAt c v index) = m.header (blockAt c v index)
  result : (∃ y, Popped c m y x.1 x.2) ∨ NothingLeft c m x.1 x.2

/-- A pop that is still looking for an element: it has moved counters, taken blocks from other readers
and invalidated blocks that were claimed and never written to. -/
structure Looking (c : Config) (strict : Prop) (m : Shared T) (hd : Handle T) (m' : Shared T)
    (hd' : Handle T) : Prop where
  quiet : QuietInv c strict m' none
  keeps : Keeps c m m'
  cache : CacheOk c m' hd'
  writeBlock : hd'.writeBlock = hd.writeBlock ∧ hd'.writeEpoch = hd.writeEpoch
  claims : ∀ v index, InLap c m' v index → Claimed c m' v index →
    v ≤ m.globalWriteWindow ∧ Claimed c m v index
  unread : ∀ v index, InLap c m' v index → Claimed c m' v index → Far m' v →
    m'.header (blockAt c v index) = m.header (blockAt c v index)
  values : ∀ b, blockValues m' b = blockValues m b

/-- A block that a reader may take from. -/
structure Readable (c : Config) (m : Shared T) (v index : Nat) : Prop where
  lap : InLap c m v index
  write : v < m.globalWriteWindow
  read : v ≤ m.globalReadWindow + 1
  claimed : Claimed c m v index
  untouched : ¬ Touched c m v index

section Pop

variable {c : Config} {strict : Prop} {m₀ m m' : Shared T} {hd₀ hd hd' : Handle T} {v index : Nat}

omit [Zero T] in
theorem Readable.near (h : Readable c m v index) : ¬ Far m v := by
  have := h.write
  have := h.read
  rintro (h | h) <;> omega

theorem Looking.refl (inv : QuietInv c strict m none) (hfit : EpochsFit c m)
    (hcache : CacheOk c m hd) : Looking c strict m hd m hd :=
  ⟨inv, Keeps.refl c m, hcache, ⟨rfl, rfl⟩,
    fun _ _ hlap hc => ⟨inv.le_of_claimed hfit hlap.lt hlap.index hc, hc⟩, fun _ _ _ _ _ => rfl,
    fun _ => rfl⟩

theorem Looking.inLap (hlook : Looking c strict m₀ hd₀ m hd) (hkeeps : Keeps c m m')
    (hlap : InLap c m' v index) (hv : v ≤ m.globalWriteWindow) : InLap c m v index := by
  have hgap := hlook.quiet.windows.gap
  exact ⟨hkeeps.read.trans hlap.ge, by omega, hlap.index⟩

omit [Zero T] in
theorem Keeps.far (hkeeps : Keeps c m m') (h : Far m' v) : Far m v := by
  have hr := hkeeps.read
  have hw := hkeeps.write
  exact h.imp (fun h => by omega) (fun h => by omega)

theorem Looking.trans (hlook : Looking c strict m₀ hd₀ m hd) (hlook' : Looking c strict m hd m' hd') :
    Looking c strict m₀ hd₀ m' hd' where
  quiet := hlook'.quiet
  keeps := hlook.keeps.trans hlook'.keeps
  cache := hlook'.cache
  writeBlock := ⟨hlook'.writeBlock.1.trans hlook.writeBlock.1,
    hlook'.writeBlock.2.trans hlook.writeBlock.2⟩
  claims v index hlap hc := by
    obtain ⟨hv, hc'⟩ := hlook'.claims v index hlap hc
    exact hlook.claims v index (hlook.inLap hlook'.keeps hlap hv) hc'
  unread v index hlap hc hfar := by
    obtain ⟨hv, hc'⟩ := hlook'.claims v index hlap hc
    exact (hlook'.unread v index hlap hc hfar).trans (hlook.unread v index
      (hlook.inLap hlook'.keeps hlap hv) hc' (hlook'.keeps.far hfar))
  values b := (hlook'.values b).trans (hlook.values b)

/-- What a pop leaves that has been looking for a while. -/
theorem Looking.popEnd (hlook : Looking c strict m₀ hd₀ m hd) {x : Shared T × Handle T}
    (h : PopEnd c strict m hd x) : PopEnd c strict m₀ hd₀ x where
  quiet := h.quiet
  keeps := hlook.keeps.trans h.keeps
  cache := h.cache
  writeBlock := ⟨h.writeBlock.1.trans hlook.writeBlock.1, h.writeBlock.2.trans hlook.writeBlock.2⟩
  claims v index hlap hc := by
    obtain ⟨hv, hc'⟩ := h.claims v index hlap hc
    exact hlook.claims v index (hlook.inLap h.keeps hlap hv) hc'
  unread v index hlap hc hfar := by
    obtain ⟨hv, hc'⟩ := h.claims v index hlap hc
    exact (h.unread v index hlap hc hfar).trans (hlook.unread v index
      (hlook.inLap h.keeps hlap hv) hc' (h.keeps.far hfar))
  result := by
    rcases h.result with ⟨y, hp⟩ | hn
    · obtain ⟨v, index, hlap, hw, hr, hb, hv, hc⟩ := hp.block
      obtain ⟨hv', hc'⟩ := hlook.claims v index (hlook.inLap h.keeps hlap hv) hc
      exact .inl ⟨y, hp.returned, ⟨v, index, hlap, hw, hr, hb, hv', hc'⟩,
        (hlook.values _).symm.trans hp.values, fun b hne => (hp.others b hne).trans (hlook.values b)⟩
    · exact .inr ⟨hn.returned, fun b => (hn.values b).trans (hlook.values b), hn.empty⟩

theorem blockValues_takeNext (inv : QuietInv c strict m none) (hmax : c.cellsPerBlock ≤ 65535)
    {b : Block} (hlt : getReadIndex (m.header b) < getWriteIndex (m.header b)) :
    blockValues m b = m.cell b (getReadIndex (m.header b)) ::
      blockValues (m.takeFrom b (incrementReadIndex (m.header b))) b := by
  have hcap := (inv.indices b).write
  have hr : getReadIndex (m.header b) < 65535 := by omega
  have hnext : blockValues m b = m.cell b (getReadIndex (m.header b)) ::
      blockValues (m.setHeader b (incrementReadIndex (m.header b))) b :=
    blockValues_incrementRead (Function.update_self _ _ _) rfl hlt hr
  have hsame : blockValues (m.takeFrom b (incrementReadIndex (m.header b))) b =
      blockValues (m.setHeader b (incrementReadIndex (m.header b))) b := by
    refine blockValues_congr rfl fun i hi => ?_
    have hpublished := hi.1
    rw [Shared.setHeader_header, if_pos rfl, getReadIndex_incrementReadIndex hr] at hpublished
    show ((m.setHeader _ _).setCell _ _ 0).cell _ i = _
    rw [Shared.setCell_cell, if_neg fun h => by omega]
  rw [hnext, hsame]

omit [Zero T] in
/-- The values of the other blocks. -/
theorem OneBlock.values {b : Block} (hone : OneBlock m m' b) :
    ∀ b' ≠ b, blockValues m' b' = blockValues m b' := fun b' hne =>
  blockValues_congr (hone.header b' hne) fun i _ => congrFun (hone.cell b' hne) i

/-- Far blocks are not the one that is read. -/
theorem Looking.unread_of_near (hlook : Looking c strict m₀ hd₀ m hd) (h : Readable c m v index)
    (hother : ∀ b ≠ blockAt c v index, m'.header b = m.header b) {v' index' : Nat}
    (hlap : InLap c m v' index') (hc : Claimed c m v' index') (hfar : Far m v') :
    m'.header (blockAt c v' index') = m₀.header (blockAt c v' index') := by
  refine (hother _ fun heq => ?_).trans (hlook.unread v' index' hlap hc hfar)
  obtain ⟨rfl, -⟩ := blockAt_inj hlap.ge hlap.lt h.lap.ge h.lap.lt hlap.index h.lap.index heq
  exact h.near hfar

/-- A block that has been stamped is given back. -/
theorem Readable.giveBack (h : Readable c m v index) (hhalf : EpochsHalf c m)
    (hone : OneBlock m m' (blockAt c v index))
    (hheader : m'.header (blockAt c v index) = epochToHeader (c.windowToEpoch v + 1))
    (inv : QuietInv c strict m' (some (blockAt c v index))) :
    QuietInv c strict (m'.giveBack c v index) none ∧ Keeps c m' (m'.giveBack c v index) ∧
      ∀ v' index', InLap c m v' index' → (Claimed c (m'.giveBack c v index) v' index' ↔
        Claimed c m v' index' ∧ ¬ (v' = v ∧ index' = index)) := by
  have hfit : c.windowToEpoch v + 1 < 2 ^ 32 := by
    have := c.windowToEpoch_mono h.write.le
    have := hhalf.epoch
    omega
  have hfit' : EpochsFit c m' := by
    refine ⟨?_, ?_⟩
    · rw [hone.write]
      exact hhalf.fit.epoch
    · rw [hone.write]
      exact hhalf.fit.window
  have hlap' : ∀ {v' index'}, InLap c m v' index' → InLap c m' v' index' := fun hlap =>
    ⟨hone.read ▸ hlap.ge, hone.read ▸ hlap.lt, hlap.index⟩
  have hwrite : v < m'.globalWriteWindow := hone.write ▸ h.write
  have hclaimed : ∀ v' index', Claimed c m' v' index' ↔ Claimed c m v' index' :=
    fun v' index' => claimed_of_filledSet hone.filled
  have hpast : c.windowToEpoch v < getEpoch (m'.header (blockAt c v index)) := by
    rw [hheader, getEpoch_stamped hfit]
    exact Nat.lt_succ_self _
  have hempty : getWriteIndex (m'.header (blockAt c v index)) = 0 := by
    rw [hheader, getWriteIndex_epochToHeader]
  obtain ⟨inv', hkeeps⟩ := inv.giveBack hfit' (hlap' h.lap) hwrite ((hclaimed v index).mpr h.claimed)
    (mt (touched_of_touchedSet hone.touched).mp h.untouched) hpast hempty
  refine ⟨inv', hkeeps, fun v' index' hlap => ?_⟩
  rw [← hclaimed v' index']
  exact inv.claimed_giveBack hfit' (hlap' h.lap) hwrite.le ((hclaimed v index).mpr h.claimed)
    (hlap' hlap)

/-- The element was the last one of its block, and the block has been given back. -/
theorem Looking.popLast (hlook : Looking c strict m₀ hd₀ m hd) (hhalf : EpochsHalf c m)
    (h : Readable c m v index) (hb : hd.readBlock = blockAt c v index)
    (hlast : getReadIndex (m.header (blockAt c v index)) + 1 =
      getWriteIndex (m.header (blockAt c v index))) :
    PopEnd c strict m₀ hd₀
      ((m.takeFrom (blockAt c v index) (epochToHeader (c.windowToEpoch v + 1))).giveBack c v index,
        hd.goto (.idle (some (.popped (some
          (m.cell (blockAt c v index) (getReadIndex (m.header (blockAt c v index))))))))) := by
  have inv := hlook.quiet
  have hfit : c.windowToEpoch v + 1 < 2 ^ 32 := by
    have := c.windowToEpoch_mono h.write.le
    have := hhalf.epoch
    omega
  obtain ⟨inv₁, hkeeps₁⟩ := inv.takeLast h.lap h.claimed h.near hfit hlast
  have hone := takeFrom_oneBlock m (blockAt c v index) (epochToHeader (c.windowToEpoch v + 1))
  obtain ⟨inv₂, hkeeps₂, hclaimed⟩ := h.giveBack hhalf hone (Function.update_self _ _ _) inv₁
  have hkeeps := hkeeps₁.trans hkeeps₂
  have hcache := hlook.cache.mono hkeeps
  have hlap : ∀ {v' index'}, InLap c ((m.takeFrom (blockAt c v index)
      (epochToHeader (c.windowToEpoch v + 1))).giveBack c v index) v' index' → InLap c m v' index' :=
    fun hlap => ⟨hlap.ge, hlap.lt, hlap.index⟩
  obtain ⟨hv, hbefore⟩ := hlook.claims v index h.lap h.claimed
  refine ⟨inv₂, hlook.keeps.trans hkeeps, ⟨hcache.write, hcache.read, hcache.window⟩,
    hlook.writeBlock, fun v' index' hlap' hc => ?_, fun v' index' hlap' hc hfar => ?_,
    .inl ⟨_, rfl, ⟨v, index, ⟨h.lap.ge, h.lap.lt, h.lap.index⟩, h.write, h.read, hb, hv, hbefore⟩, ?_,
      fun b hne => ?_⟩⟩
  · exact hlook.claims v' index' (hlap hlap') ((hclaimed v' index' (hlap hlap')).mp hc).1
  · exact hlook.unread_of_near h hone.header (hlap hlap')
      ((hclaimed v' index' (hlap hlap')).mp hc).1 hfar
  · have hb' : (hd.goto (.idle (some (.popped (some (m.cell (blockAt c v index)
        (getReadIndex (m.header (blockAt c v index))))))))).readBlock = blockAt c v index := hb
    have hrest : blockValues ((m.takeFrom (blockAt c v index)
        (epochToHeader (c.windowToEpoch v + 1))).giveBack c v index) (blockAt c v index) = [] := by
      refine blockValues_of_empty ?_
      have hheader : ((m.takeFrom (blockAt c v index) (epochToHeader (c.windowToEpoch v + 1))).giveBack
          c v index).header (blockAt c v index) = epochToHeader (c.windowToEpoch v + 1) :=
        Function.update_self _ _ _
      rw [hheader, getWriteIndex_epochToHeader]
    rw [hb', hrest, ← hlook.values, blockValues_of_last hlast]
  · have hne' : b ≠ blockAt c v index := by rw [← hb]; exact hne
    exact (hone.values b hne').trans (hlook.values b)

/-- The block has another element. -/
theorem Looking.popNext (hlook : Looking c strict m₀ hd₀ m hd) (hmax : c.cellsPerBlock ≤ 65535)
    (h : Readable c m v index) (hb : hd.readBlock = blockAt c v index)
    (hsome : getWriteIndex (m.header (blockAt c v index)) ≠ 0)
    (hnext : getReadIndex (m.header (blockAt c v index)) + 1 ≠
      getWriteIndex (m.header (blockAt c v index))) :
    PopEnd c strict m₀ hd₀
      (m.takeFrom (blockAt c v index) (incrementReadIndex (m.header (blockAt c v index))),
        hd.goto (.idle (some (.popped (some
          (m.cell (blockAt c v index) (getReadIndex (m.header (blockAt c v index))))))))) := by
  have inv := hlook.quiet
  have hlt := (inv.indices (blockAt c v index)).read.resolve_right fun h => hsome h.2
  obtain ⟨inv₁, hkeeps⟩ := inv.takeNext hmax h.lap h.claimed h.near hsome hnext
  have hone := takeFrom_oneBlock m (blockAt c v index)
    (incrementReadIndex (m.header (blockAt c v index)))
  have hcache := hlook.cache.mono hkeeps
  obtain ⟨hv, hbefore⟩ := hlook.claims v index h.lap h.claimed
  refine ⟨inv₁, hlook.keeps.trans hkeeps, ⟨hcache.write, hcache.read, hcache.window⟩,
    hlook.writeBlock, fun v' index' hlap' hc => ?_, fun v' index' hlap' hc hfar => ?_,
    .inl ⟨_, rfl, ⟨v, index, ⟨h.lap.ge, h.lap.lt, h.lap.index⟩, h.write, h.read, hb, hv, hbefore⟩, ?_,
      fun b hne => ?_⟩⟩
  · exact hlook.claims v' index' ⟨hlap'.ge, hlap'.lt, hlap'.index⟩
      ((claimed_of_filledSet hone.filled).mp hc)
  · exact hlook.unread_of_near h hone.header ⟨hlap'.ge, hlap'.lt, hlap'.index⟩
      ((claimed_of_filledSet hone.filled).mp hc) hfar
  · have hb' : (hd.goto (.idle (some (.popped (some (m.cell (blockAt c v index)
        (getReadIndex (m.header (blockAt c v index))))))))).readBlock = blockAt c v index := hb
    rw [hb', ← hlook.values]
    exact blockValues_takeNext inv hmax hlt
  · have hne' : b ≠ blockAt c v index := by rw [← hb]; exact hne
    exact (hone.values b hne').trans (hlook.values b)

/-- A block of the first state is not claimed any more. -/
def Fewer (c : Config) (m m' : Shared T) : Prop :=
  ∃ v ≤ m.globalWriteWindow, ∃ index < c.blocksPerWindow,
    Claimed c m v index ∧ ¬ Claimed c m' v index

/-- The block was claimed and never written to, and it has been invalidated and given back. -/
theorem Looking.invalidate (hlook : Looking c strict m₀ hd₀ m hd) (hhalf : EpochsHalf c m)
    (h : Readable c m v index) (hempty : getWriteIndex (m.header (blockAt c v index)) = 0) :
    Looking c strict m₀ hd₀ ((m.setHeader (blockAt c v index)
        (epochToHeader (c.windowToEpoch v + 1))).giveBack c v index) (takeReadBlock c hd v index) ∧
      Fewer c m₀ ((m.setHeader (blockAt c v index)
        (epochToHeader (c.windowToEpoch v + 1))).giveBack c v index) := by
  have inv := hlook.quiet
  have hfit : c.windowToEpoch v + 1 < 2 ^ 32 := by
    have := c.windowToEpoch_mono h.write.le
    have := hhalf.epoch
    omega
  obtain ⟨inv₁, hkeeps₁⟩ := inv.invalidate h.lap h.claimed h.near hfit hempty
  have hone := setHeader_oneBlock m (blockAt c v index) (epochToHeader (c.windowToEpoch v + 1))
  obtain ⟨inv₂, hkeeps₂, hclaimed⟩ := h.giveBack hhalf hone (Function.update_self _ _ _) inv₁
  have hkeeps := hkeeps₁.trans hkeeps₂
  have hheader : ((m.setHeader (blockAt c v index)
      (epochToHeader (c.windowToEpoch v + 1))).giveBack c v index).header (blockAt c v index) =
      epochToHeader (c.windowToEpoch v + 1) := Function.update_self _ _ _
  have hpast : Given c ((m.setHeader (blockAt c v index)
      (epochToHeader (c.windowToEpoch v + 1))).giveBack c v index) v index := by
    refine .inr ?_
    rw [hheader, getEpoch_stamped hfit]
    exact Nat.lt_succ_self _
  obtain ⟨hv, hbefore⟩ := hlook.claims v index h.lap h.claimed
  refine ⟨⟨inv₂, hlook.keeps.trans hkeeps, ⟨(hlook.cache.mono hkeeps).write,
    .inr ⟨v, h.write, h.read, index, h.lap.index, rfl, rfl, rfl, hpast⟩, h.write⟩, hlook.writeBlock,
    fun v' index' hlap' hc => ?_, fun v' index' hlap' hc hfar => ?_, fun b => ?_⟩,
    v, hv, index, h.lap.index, hbefore, fun hc => ?_⟩
  · have hlap : InLap c m v' index' := ⟨hlap'.ge, hlap'.lt, hlap'.index⟩
    exact hlook.claims v' index' hlap ((hclaimed v' index' hlap).mp hc).1
  · have hlap : InLap c m v' index' := ⟨hlap'.ge, hlap'.lt, hlap'.index⟩
    exact hlook.unread_of_near h hone.header hlap ((hclaimed v' index' hlap).mp hc).1 hfar
  · by_cases hb : b = blockAt c v index
    · subst hb
      rw [← hlook.values, blockValues_of_empty hempty]
      refine blockValues_of_empty ?_
      rw [hheader, getWriteIndex_epochToHeader]
    · exact (hone.values b hb).trans (hlook.values b)
  · exact ((hclaimed v index h.lap).mp hc).2 ⟨rfl, rfl⟩

variable [DecidableEq T]

/-- What is to be shown of a pop that was in `m₀` at the head of its loop: that its end is as wanted,
and that it may come back to the head with one failure less to come or with fewer blocks claimed. -/
structure Search (c : Config) (strict : Prop) (m₀ : Shared T) (hd₀ : Handle T) (k : Nat)
    (P : Shared T × Handle T → Prop) : Prop where
  done : ∀ x, PopEnd c strict m₀ hd₀ x → P x
  again : ∀ j ≤ k, ∀ m hd, Looking c strict m₀ hd₀ m hd → (j < k ∨ Fewer c m₀ m) →
    Finishes c P j (m, hd.goto (.readWindow false))

/-- The exchange of the cell, after the header and a unit have been written. -/
theorem popTake_step {m' : Shared T} (ei : Nat) {choice : Choice c}
    (hm : m' = { m with header := Function.update m.header hd.readBlock ei, filledSet := m'.filledSet }) :
    callStep c (m', hd.goto (.popTake (getReadIndex (m.header hd.readBlock)))) choice =
      ({ m.takeFrom hd.readBlock ei with filledSet := m'.filledSet },
        hd.goto (.idle (some (.popped (some
          (m.cell hd.readBlock (getReadIndex (m.header hd.readBlock)))))))) := by
  rw [hm]
  rfl

/-- **`filled_set.reset`** of a unit that is still at the reader's epoch. -/
theorem finishes_popReset {P : Shared T × Handle T → Prop} {k : Nat} {a : AfterReset}
    (hb : hd.readBlock = blockAt c v index) (he : hd.readEpoch = c.windowToEpoch v)
    (hx : hd.readWindowIndex = c.windowToIndex v)
    (hepoch : AtomicBitset.getEpoch (m.unit c v (index / c.bitCount)) = c.windowToEpoch v)
    (h : Finishes c P k (m.giveBack c v index, hd.goto (afterReset hd a))) :
    Finishes c P k (m, hd.goto (.popReset a)) := by
  have hindex : blockIndex c hd.readWindowIndex hd.readBlock = index := by
    rw [hx, hb, blockIndex_getBlock]
  have hunit : unitOf c hd.readWindowIndex (blockIndex c hd.readWindowIndex hd.readBlock) =
      c.unitAt v (index / c.bitCount) := by
    rw [hindex, hx]
    rfl
  have hepoch' : AtomicBitset.getEpoch (m.filledSet (unitOf c hd.readWindowIndex
      (blockIndex c hd.readWindowIndex hd.readBlock))) = hd.readEpoch := by
    rw [hunit, he]
    exact hepoch
  have hmem : m.setFilled (unitOf c hd.readWindowIndex
      (blockIndex c hd.readWindowIndex hd.readBlock)) (resetDesired hd.readEpoch
        (m.filledSet (unitOf c hd.readWindowIndex (blockIndex c hd.readWindowIndex hd.readBlock)))
        (blockIndex c hd.readWindowIndex hd.readBlock % c.bitCount)) = m.giveBack c v index := by
    rw [hunit, hindex, he]
    rfl
  rw [← hmem] at h
  refine Finishes.step (y := (m, hd.goto (.popResetCas a (m.filledSet (unitOf c hd.readWindowIndex
    (blockIndex c hd.readWindowIndex hd.readBlock)))))) ?_ fun _ => if_neg (not_not.mpr hepoch')
  exact h.retry (fun _ => if_pos ⟨rfl, rfl⟩)
    fun _ => (if_neg fun h => Bool.noConfusion h.2).trans (if_neg (not_not.mpr hepoch'))

/-- The header has changed since it was loaded. -/
theorem popNext_step_failed {ei i : Nat} {choice : Choice c} (h : m.header hd.readBlock ≠ ei) :
    callStep c (m, hd.goto (.popNext ei i)) choice = (m, hd.goto (.readWindow false)) :=
  if_neg fun hsame => h hsame.1

section Search

variable {P : Shared T × Handle T → Prop} {k : Nat}

/-- **`pop` from a block it may take from.** -/
theorem finishes_popCheck (hgoal : Search c strict m₀ hd₀ k P) (hmax : c.cellsPerBlock ≤ 65535)
    (hhalf : EpochsHalf c m) (hlook : Looking c strict m₀ hd₀ m hd) (h : Readable c m v index)
    (hb : hd.readBlock = blockAt c v index) (he : hd.readEpoch = c.windowToEpoch v)
    (hx : hd.readWindowIndex = c.windowToIndex v)
    (hsome : getWriteIndex (m.header (blockAt c v index)) ≠ 0) :
    Finishes c P k (m, hd.goto (popCheck hd (m.header hd.readBlock))) := by
  have inv := hlook.quiet
  obtain ⟨hepoch, -⟩ := (inv.blocks v h.lap.ge h.lap.lt index h.lap.index).full h.claimed nofun
  have hvalid : epochValid (getEpoch (m.header hd.readBlock)) hd.readEpoch = true := by
    rw [hb, he]
    exact (inv.valid_iff hhalf h.write.le _).mpr hepoch
  rw [popCheck, if_pos hvalid]
  by_cases hlast : getReadIndex (m.header hd.readBlock) + 1 = getWriteIndex (m.header hd.readBlock)
  · rw [if_pos hlast]
    rw [hb] at hlast
    have hdone := hlook.popLast hhalf h hb hlast
    refine Finishes.weakCas (y := (m.setHeader hd.readBlock (epochToHeader (hd.readEpoch + 1)),
      hd.goto (.popReset (.take (getReadIndex (m.header hd.readBlock)))))) ?_
      (fun _ => if_pos ⟨rfl, rfl⟩) (fun _ => if_neg fun h => Bool.noConfusion h.2)
      fun j hj => hgoal.again j hj.le m hd hlook (.inl hj)
    -- the block's bit is still set at the epoch the reader has
    refine finishes_popReset hb he hx h.claimed.epoch ?_
    refine Finishes.step (.done (hgoal.done _ hdone)) fun _ => ?_
    rw [he]
    refine (popTake_step (epochToHeader (c.windowToEpoch v + 1)) rfl).trans ?_
    rw [hb]
    rfl
  · rw [if_neg hlast]
    rw [hb] at hlast
    have hdone := hlook.popNext hmax h hb hsome hlast
    refine Finishes.weakCas (y := (m.setHeader hd.readBlock
      (incrementReadIndex (m.header hd.readBlock)),
      hd.goto (.popTake (getReadIndex (m.header hd.readBlock))))) ?_
      (fun _ => if_pos ⟨rfl, rfl⟩) (fun _ => if_neg fun h => Bool.noConfusion h.2)
      fun j hj => hgoal.again j hj.le m hd hlook (.inl hj)
    refine Finishes.step (.done (hgoal.done _ hdone)) fun _ => ?_
    rw [← hb]
    exact popTake_step _ rfl

/-! ## §4 — `pop`: looking for a block -/

/-- **`pop` is given a block that was claimed and never written to.** -/
theorem finishes_emptyBlock (hgoal : Search c strict m₀ hd₀ k P) (hhalf : EpochsHalf c m)
    (hlook : Looking c strict m₀ hd₀ m hd) (h : Readable c m v index)
    (hempty : getWriteIndex (m.header (blockAt c v index)) = 0) :
    Finishes c P k (m, (takeReadBlock c hd v index).goto .popReload) := by
  have inv := hlook.quiet
  obtain ⟨hepoch, -⟩ := (inv.blocks v h.lap.ge h.lap.lt index h.lap.index).full h.claimed nofun
  have hread : getReadIndex (m.header (blockAt c v index)) = 0 := by
    have := (inv.indices (blockAt c v index)).le
    omega
  obtain ⟨hlook', hfewer⟩ := hlook.invalidate hhalf h hempty
  obtain ⟨hb, he, hx⟩ : (takeReadBlock c hd v index).readBlock = blockAt c v index ∧
      (takeReadBlock c hd v index).readEpoch = c.windowToEpoch v ∧
      (takeReadBlock c hd v index).readWindowIndex = c.windowToIndex v := ⟨rfl, rfl, rfl⟩
  generalize takeReadBlock c hd v index = hd₁ at hlook' hb he hx ⊢
  have hvalid : epochValid (getEpoch (m.header (blockAt c v index))) hd₁.readEpoch = true := by
    rw [he]
    exact (inv.valid_iff hhalf h.write.le _).mpr hepoch
  refine Finishes.step (y := (m, hd₁.goto (.popInvalidate (m.header hd₁.readBlock)))) ?_
    fun _ => (if_pos (hb ▸ hempty)).trans (if_pos (hb ▸ hvalid))
  refine Finishes.step (y := (m.setHeader hd₁.readBlock (epochToHeader (hd₁.readEpoch + 1)),
    hd₁.goto (.popReset (.check (m.header hd₁.readBlock))))) ?_ fun _ => if_pos rfl
  rw [hb, he]
  refine finishes_popReset hb he hx h.claimed.epoch ?_
  -- the header it has loaded is valid, but it is not there any more
  have hcheck : afterReset hd₁ (.check (m.header (blockAt c v index))) =
      .popNext (m.header (blockAt c v index)) 0 := by
    refine (if_pos hvalid).trans ?_
    rw [hread, hempty]
    rfl
  rw [hcheck]
  refine Finishes.step (hgoal.again k (Nat.le_refl k) _ _ hlook' (.inr hfewer))
    fun _ => popNext_step_failed fun heq => ?_
  have hstamped : ((m.setHeader (blockAt c v index)
      (epochToHeader (c.windowToEpoch v + 1))).giveBack c v index).header (blockAt c v index) =
      epochToHeader (c.windowToEpoch v + 1) := Function.update_self _ _ _
  have hfit : c.windowToEpoch v + 1 < 2 ^ 32 := by
    have := c.windowToEpoch_mono h.write.le
    have := hhalf.epoch
    omega
  rw [hb, hstamped] at heq
  rw [← heq, getEpoch_stamped hfit] at hepoch
  omega

/-- The handle has been given a block it may take from. -/
theorem finishes_taken (hgoal : Search c strict m₀ hd₀ k P) (hmax : c.cellsPerBlock ≤ 65535)
    (hhalf : EpochsHalf c m) (hlook : Looking c strict m₀ hd₀ m hd) (h : Readable c m v index) :
    Finishes c P k (m, takeReadBlock c hd v index) := by
  by_cases hempty : getWriteIndex (m.header (blockAt c v index)) = 0
  · exact finishes_emptyBlock hgoal hhalf hlook h hempty
  · have hlook' : Looking c strict m₀ hd₀ m (takeReadBlock c hd v index) :=
      ⟨hlook.quiet, hlook.keeps, ⟨hlook.cache.write, .inr ⟨v, h.write, h.read, index, h.lap.index, rfl,
        rfl, rfl, .inl ⟨h.claimed, h.untouched, hempty⟩⟩, h.write⟩, hlook.writeBlock, hlook.claims,
        hlook.unread, hlook.values⟩
    exact Finishes.step (finishes_popCheck hgoal hmax hhalf hlook' h rfl rfl rfl hempty)
      fun _ => if_neg hempty

/-- **`claim_bit` on `touched_set`** takes a block that is offered, or none is. -/
theorem finishes_readUnit (hgoal : Search c strict m₀ hd₀ k P) (hmax : c.cellsPerBlock ≤ 65535)
    (hhalf : EpochsHalf c m) (hlook : Looking c strict m₀ hd₀ m hd) (hge : m.globalReadWindow ≤ v)
    (hw : v < m.globalWriteWindow) (hr : v ≤ m.globalReadWindow + 1) (da ahead : Bool) (st : Nat)
    (hnone : (∀ index < c.blocksPerWindow, ¬ Touched c m v index) →
      Finishes c P k
        (m, hd.goto (if ahead then .readWindow true else .readWrite da v))) :
    ∀ i < c.unitsPerWindow,
      (∀ i' < i, ∀ index < c.blocksPerWindow, index / c.bitCount = c.visited st i' →
        ¬ Touched c m v index) →
      Finishes c P k (m, hd.goto (.readUnit da v ahead st i)) := by
  have inv := hlook.quiet
  have hgap := inv.windows.gap
  have hrot : st % c.bitCount < c.bitCount := Nat.mod_lt _ c.bitCount_pos
  refine scan_induction fun i hi ih hpast => ?_
  have hu := claimUnit_eq_unitAt (c := c) v st i
  cases hstart : claimIndex .one c.bitCount (m.touchedSet (claimUnit c v st i))
      (st % c.bitCount) with
  | none =>
      have hnow : ∀ index < c.blocksPerWindow, index / c.bitCount = c.visited st i →
          ¬ Touched c m v index := by
        intro index _ hdiv
        have hbit := claimIndex_none (inv.touched _) hrot hstart _ (Nat.mod_lt index c.bitCount_pos)
        rw [hu, ← hdiv] at hbit
        rw [Touched, hbit]
        decide
      refine Finishes.step (y := (m, hd.goto (readNext c da v ahead st i))) ?_
        fun _ => by simp only [callStep, runStep, Handle.goto, hstart]
      unfold readNext
      split
      · rename_i hnext
        exact ih hnext (forall_lt_succ hpast hnow)
      · rename_i hlast
        exact hnone fun index hindex => forall_units_of_visited st hlast
          (P := fun j => ∀ index < c.blocksPerWindow, index / c.bitCount = j →
            ¬ Touched c m v index) hpast hnow _ (div_bitCount_lt c hindex) index hindex rfl
  | some bit =>
      have hbit := claimIndex_lt hrot hstart
      have hindex := claimResult_lt c st i hbit
      have hdiv := claimResult_div c st i hbit
      have hmod := claimResult_mod c st i hbit
      have hlap : InLap c m v (claimResult c st i bit) := ⟨hge, by omega, hindex⟩
      obtain ⟨_, -, -, hset, -⟩ := claimIndex_some (inv.touched _) hrot hstart
      have hretry : claimRetryNoEpoch .one c.bitCount (st % c.bitCount) bit
          (m.touchedSet (claimUnit c v st i)) = some bit :=
        claimRetryNoEpoch_same (c.bitCount_le.trans (by decide)) hbit hset
      have htouched : Touched c m v (claimResult c st i bit) := by
        rw [Touched, hdiv, hmod, ← hu]
        exact hset
      have hclaimed : Claimed c m v (claimResult c st i bit) := by
        by_contra hno
        exact ((inv.blocks v hge hlap.lt _ hindex).free hno).2 htouched
      obtain ⟨inv', hkeeps⟩ := inv.untouch hhalf.fit hlap
      have hread : Readable c (m.untouch c v (claimResult c st i bit)) v
          (claimResult c st i bit) :=
        ⟨⟨hge, hlap.lt, hindex⟩, hw, hr, ⟨hclaimed.epoch, hclaimed.bit⟩,
          fun ht => ((touched_untouch hlap hlap).mp ht).2 ⟨rfl, rfl⟩⟩
      have hlook' : Looking c strict m₀ hd₀ (m.untouch c v (claimResult c st i bit)) hd :=
        ⟨inv', hlook.keeps.trans hkeeps, hlook.cache.mono hkeeps, hlook.writeBlock,
          fun v' index' hlap' hc => hlook.claims v' index' ⟨hlap'.ge, hlap'.lt, hlap'.index⟩
            ⟨hc.epoch, hc.bit⟩,
          fun v' index' hlap' hc => hlook.unread v' index' ⟨hlap'.ge, hlap'.lt, hlap'.index⟩
            ⟨hc.epoch, hc.bit⟩, hlook.values⟩
      have hhalf' : EpochsHalf c (m.untouch c v (claimResult c st i bit)) :=
        ⟨hhalf.epoch, hhalf.window⟩
      have htaken := finishes_taken hgoal hmax hhalf' hlook' hread
      refine Finishes.step (y := (m, hd.goto (.readClaim da v ahead st i
        (m.touchedSet (claimUnit c v st i)) bit))) ?_
        fun _ => by simp only [callStep, runStep, Handle.goto, hstart]
      refine Finishes.retry htaken (fun _ => (if_pos ⟨rfl, rfl⟩).trans ?_) fun _ => ?_
      · rw [Shared.untouch, hdiv, hmod, ← hu]
        rfl
      · refine (if_neg fun h => Bool.noConfusion h.2).trans ?_
        rw [hretry]
        rfl

/-- **`claim_bit` on `filled_set` of a window nobody is offered a block of**: it finds a block, or
none is claimed. -/
theorem finishes_readAny (hgoal : Search c strict m₀ hd₀ k P) (hmax : c.cellsPerBlock ≤ 65535)
    (hhalf : EpochsHalf c m) (hlook : Looking c strict m₀ hd₀ m hd)
    (huntouched : ∀ index < c.blocksPerWindow, ¬ Touched c m m.globalReadWindow index) (da : Bool)
    (st : Nat)
    (hnone : (∀ index < c.blocksPerWindow, ¬ Claimed c m m.globalReadWindow index) →
      Finishes c P k (m, hd.goto
        (if m.globalWriteWindow = (m.globalReadWindow + 1) % 2 ^ 64 then
          .readScan da m.globalReadWindow m.globalWriteWindow 0
        else .readMove da m.globalReadWindow))) :
    ∀ i < c.unitsPerWindow,
      (∀ i' < i, ∀ index < c.blocksPerWindow, index / c.bitCount = c.visited st i' →
        ¬ Claimed c m m.globalReadWindow index) →
      Finishes c P k
        (m, hd.goto (.readAny da m.globalReadWindow m.globalWriteWindow st i)) := by
  have inv := hlook.quiet
  have horder := inv.windows.order
  have hrot : st % c.bitCount < c.bitCount := Nat.mod_lt _ c.bitCount_pos
  refine scan_induction fun i hi ih hpast => ?_
  have hu := claimUnit_eq_unitAt (c := c) m.globalReadWindow st i
  have hok : UnitOk c.bitCount (m.unit c m.globalReadWindow (c.visited st i)) :=
    inv.windows.words _
  cases hstart : claimStart .one c.bitCount (c.windowToEpoch m.globalReadWindow) (st % c.bitCount)
      (m.filledSet (claimUnit c m.globalReadWindow st i)) with
  | none =>
      have hnow : ∀ index < c.blocksPerWindow, index / c.bitCount = c.visited st i →
          ¬ Claimed c m m.globalReadWindow index := by
        intro index _ hdiv hc
        have he := hc.epoch
        have hbits := hc.bits_ne_zero
        rw [hdiv] at he hbits
        rw [hu] at hstart
        have hunit : m.unit c m.globalReadWindow (c.visited st i) = _ :=
          claimStart_one_none c.bitCount_le hrot hok hstart he
        rw [hunit, AtomicBitset.getBits_makeUnit
          (inv.windows.epoch_lt hhalf.fit (.inl horder.le))] at hbits
        exact hbits rfl
      refine Finishes.step (y := (m, hd.goto (if i + 1 < c.unitsPerWindow then
        .readAny da m.globalReadWindow m.globalWriteWindow st (i + 1)
        else if m.globalWriteWindow = (m.globalReadWindow + 1) % 2 ^ 64 then
          .readScan da m.globalReadWindow m.globalWriteWindow 0
        else .readMove da m.globalReadWindow))) ?_ fun _ => ?_
      · split
        · rename_i hnext
          exact ih hnext (forall_lt_succ hpast hnow)
        · rename_i hlast
          exact hnone fun index hindex => forall_units_of_visited st hlast
            (P := fun j => ∀ index < c.blocksPerWindow, index / c.bitCount = j →
              ¬ Claimed c m m.globalReadWindow index) hpast hnow _ (div_bitCount_lt c hindex) index
            hindex rfl
      · simp only [callStep, runStep, Handle.goto, hstart]
        split
        · rfl
        · split <;> rfl
  | some bit =>
      have hbit := claimStart_lt hrot hstart
      have hindex := claimResult_lt c st i hbit
      have hdiv := claimResult_div c st i hbit
      have hmod := claimResult_mod c st i hbit
      have hclaimed : Claimed c m m.globalReadWindow (claimResult c st i bit) := by
        refine ⟨?_, ?_⟩
        · rw [hdiv, Shared.unit, ← hu]
          exact claimStart_some hstart
        · rw [hdiv, hmod]
          rw [hu] at hstart
          unfold claimStart at hstart
          split at hstart
          · cases hstart
          · rw [← Shared.unit, hok.mod_eq c.bitCount_le] at hstart
            obtain ⟨k, -, -, hset, -⟩ := claimIndex_some hok.bits hrot hstart
            exact hset
      have hread : Readable c m m.globalReadWindow (claimResult c st i bit) :=
        ⟨⟨Nat.le_refl _, Nat.lt_add_of_pos_right c.windowCount_pos, hindex⟩, horder, Nat.le_succ _,
          hclaimed, huntouched _ hindex⟩
      refine Finishes.step (finishes_taken hgoal hmax hhalf hlook hread) fun _ => ?_
      simp only [callStep, runStep, Handle.goto, hstart]
      rfl

/-- **`claim_new_block_read` on the read window**, when the handle may not read ahead or there is no
window to read ahead in. -/
theorem finishes_window (hgoal : Search c strict m₀ hd₀ k P) (hmax : c.cellsPerBlock ≤ 65535)
    (hhalf : EpochsHalf c m) (hlook : Looking c strict m₀ hd₀ m hd) {da : Bool}
    (hda : da = true ∨ m.globalWriteWindow = m.globalReadWindow + 1)
    (hnone : (∀ index < c.blocksPerWindow, ¬ Claimed c m m.globalReadWindow index) →
      Finishes c P k (m, hd.goto
        (if m.globalWriteWindow = (m.globalReadWindow + 1) % 2 ^ 64 then
          .readScan da m.globalReadWindow m.globalWriteWindow 0
        else .readMove da m.globalReadWindow))) :
    Finishes c P k (m, hd.goto (.readWindow da)) := by
  have horder := hlook.quiet.windows.order
  have hmod : (m.globalReadWindow + 1) % 2 ^ 64 = m.globalReadWindow + 1 := by
    have := hhalf.window
    exact Nat.mod_eq_of_lt (by omega)
  have hnotAhead : ¬ (da = false ∧ (m.globalReadWindow + 1) % 2 ^ 64 = hd.readWindow) := by
    rintro ⟨hf, heq⟩
    have hwindow := hlook.cache.window
    rcases hda with ht | hw
    · rw [hf] at ht
      cases ht
    · omega
  have hstays : ¬ (da = false ∧ (m.globalReadWindow + 1) % 2 ^ 64 ≠ m.globalWriteWindow) := by
    rintro ⟨hf, hne⟩
    rcases hda with ht | hw
    · rw [hf] at ht
      cases ht
    · exact hne (hmod.trans hw.symm)
  refine Finishes.draw (y := fun start =>
    (m, hd.goto (.readUnit da m.globalReadWindow false start 0))) (fun start => ?_)
    fun _ _ => if_neg hnotAhead
  refine finishes_readUnit hgoal hmax hhalf hlook (Nat.le_refl _) horder (Nat.le_succ _) da false
    start (fun huntouched => ?_) 0 c.unitsPerWindow_pos fun i' hi' => absurd hi' (Nat.not_lt_zero i')
  refine Finishes.draw (y := fun start =>
    (m, hd.goto (.readAny da m.globalReadWindow m.globalWriteWindow start 0))) (fun start => ?_)
    fun _ _ => if_neg hstays
  exact finishes_readAny hgoal hmax hhalf hlook huntouched da start hnone 0 c.unitsPerWindow_pos
    fun i' hi' => absurd hi' (Nat.not_lt_zero i')

/-- **`any_claimed` on the write window**: nothing is left, or the window has a claimed block. -/
theorem finishes_readScan (inv : QuietInv c strict m none) (da : Bool)
    (hnone : (∀ index < c.blocksPerWindow, ¬ Claimed c m m.globalWriteWindow index) →
      P (m, hd.goto (.idle (some (.popped none)))))
    (hsome : (∃ index < c.blocksPerWindow, Claimed c m m.globalWriteWindow index) →
      Finishes c P k (m, hd.goto (.readBump da m.globalReadWindow m.globalWriteWindow 0))) :
    ∀ i < c.unitsPerWindow,
      (∀ i' < i, ∀ index < c.blocksPerWindow, index / c.bitCount = i' →
        ¬ Claimed c m m.globalWriteWindow index) →
      Finishes c P k (m, hd.goto (.readScan da m.globalReadWindow m.globalWriteWindow i)) := by
  refine scan_induction fun i hi ih hpast => ?_
  by_cases hfound : AtomicBitset.getEpoch (m.unit c m.globalWriteWindow i) =
      c.windowToEpoch m.globalWriteWindow ∧ getBits (m.unit c m.globalWriteWindow i) ≠ 0
  · refine Finishes.step (hsome ?_) fun _ => if_pos hfound
    by_contra hno
    push Not at hno
    exact hfound.2 (inv.bits_eq_zero hi hno hfound.1)
  · have hnow : ∀ index < c.blocksPerWindow, index / c.bitCount = i →
        ¬ Claimed c m m.globalWriteWindow index := by
      rintro index _ rfl hc
      exact hfound ⟨hc.epoch, hc.bits_ne_zero⟩
    by_cases hnext : i + 1 < c.unitsPerWindow
    · exact Finishes.step (ih hnext (forall_lt_succ hpast hnow))
        fun _ => (if_neg hfound).trans (if_pos hnext)
    · refine Finishes.step (.done (hnone fun index hindex => ?_))
        fun _ => (if_neg hfound).trans (if_neg hnext)
      have hdiv := div_bitCount_lt c hindex
      exact forall_lt_succ hpast hnow (index / c.bitCount) (by omega) index hindex rfl

/-- The units `set_epoch_if_empty` has been through after `i` of its steps. -/
def bumpUnits (c : Config) (m : Shared T) (i : Nat) : Nat → Nat :=
  (List.range i).foldl
    (fun data i => Function.update data (c.windowToIndex m.globalWriteWindow * c.unitsPerWindow + i)
      (bumpIfEmpty (c.windowToEpoch m.globalWriteWindow)
        (data (c.windowToIndex m.globalWriteWindow * c.unitsPerWindow + i)))) m.filledSet

/-- **`set_epoch_if_empty` and the two counters.** -/
theorem finishes_readBump (hhalf : EpochsHalf c m)
    (hnext : m.globalWriteWindow = m.globalReadWindow + 1) (da : Bool)
    (hP : Finishes c P k (m.forceMove c, hd.goto (.readWindow da))) :
    ∀ i < c.unitsPerWindow, Finishes c P k ({ m with filledSet := bumpUnits c m i },
      hd.goto (.readBump da m.globalReadWindow m.globalWriteWindow i)) := by
  have hw : (m.globalWriteWindow + 1) % 2 ^ 64 = m.globalWriteWindow + 1 :=
    Nat.mod_eq_of_lt hhalf.window
  have hr : (m.globalReadWindow + 1) % 2 ^ 64 = m.globalReadWindow + 1 := by
    have := hhalf.window
    exact Nat.mod_eq_of_lt (by omega)
  refine scan_induction fun i hi ih => ?_
  have hone : ∀ choice, callStep c ({ m with filledSet := bumpUnits c m i },
      hd.goto (.readBump da m.globalReadWindow m.globalWriteWindow i)) choice =
      ({ m with filledSet := bumpUnits c m (i + 1) }, hd.goto (if i + 1 < c.unitsPerWindow then
        .readBump da m.globalReadWindow m.globalWriteWindow (i + 1)
        else .readForce da m.globalReadWindow m.globalWriteWindow)) := by
    intro choice
    rw [bumpUnits, bumpUnits, List.range_succ, List.foldl_append]
    rfl
  refine Finishes.step ?_ hone
  split
  · rename_i hmore
    exact ih hmore
  · rename_i hlast
    have hall : i + 1 = c.unitsPerWindow := by omega
    rw [hall]
    refine Finishes.step (y := ({ m with
      filledSet := bumpUnits c m c.unitsPerWindow, globalWriteWindow := m.globalWriteWindow + 1 },
      hd.goto (.readMove da m.globalReadWindow))) (hP.step fun _ => ?_) fun _ => ?_
    · show (Shared.moveRead _ _, _) = _
      rw [Shared.moveRead, if_pos rfl, hr]
      rfl
    · show (Shared.moveWrite _ _, _) = _
      rw [Shared.moveWrite, if_pos rfl, hw]
      rfl

omit [DecidableEq T] in
/-- The state `claim_new_block_read` is in after the counters have been moved. -/
theorem Looking.moved {m' : Shared T} (hlook : Looking c strict m₀ hd₀ m hd) (inv : QuietInv c strict m' none)
    (hfit : EpochsFit c m') (hkeeps : Keeps c m m')
    (hwrite : m'.globalWriteWindow < m.globalReadWindow + c.windowCount)
    (hclaimed : ∀ v index, index < c.blocksPerWindow →
      (Claimed c m' v index ↔ Claimed c m v index))
    (hheader : m'.header = m.header) (hcell : m'.cell = m.cell) : Looking c strict m₀ hd₀ m' hd := by
  have hlap : ∀ {v index}, InLap c m' v index → Claimed c m' v index → InLap c m v index := by
    intro v index hlap hc
    have hle := inv.le_of_claimed hfit hlap.lt hlap.index hc
    exact ⟨hkeeps.read.trans hlap.ge, by omega, hlap.index⟩
  refine ⟨inv, hlook.keeps.trans hkeeps, hlook.cache.mono hkeeps, hlook.writeBlock,
    fun v index hlap' hc => ?_, fun v index hlap' hc hfar => ?_, fun b => ?_⟩
  · exact hlook.claims v index (hlap hlap' hc) ((hclaimed v index hlap'.index).mp hc)
  · exact (congrFun hheader _).trans (hlook.unread v index (hlap hlap' hc)
      ((hclaimed v index hlap'.index).mp hc) (hkeeps.far hfar))
  · exact (blockValues_congr (congrFun hheader b) fun i _ => congrFun (congrFun hcell b) i).trans
      (hlook.values b)

omit [DecidableEq T] in
/-- Nothing is claimed in the lap, so nothing is left. -/
theorem Looking.nothingLeft (hlook : Looking c strict m₀ hd₀ m hd) (hfit : EpochsFit c m)
    (hnext : m.globalWriteWindow = m.globalReadWindow + 1)
    (hread : ∀ index < c.blocksPerWindow, ¬ Claimed c m m.globalReadWindow index)
    (hwrite : ∀ index < c.blocksPerWindow, ¬ Claimed c m m.globalWriteWindow index) :
    PopEnd c strict m₀ hd₀ (m, hd.goto (.idle (some (.popped none)))) := by
  have hcache := hlook.cache
  refine ⟨hlook.quiet, hlook.keeps, ⟨hcache.write, hcache.read, hcache.window⟩, hlook.writeBlock,
    hlook.claims, hlook.unread, .inr ⟨rfl, hlook.values, fun v index hlap hc => ?_⟩⟩
  have hle := hlook.quiet.le_of_claimed hfit hlap.lt hlap.index hc
  have hge : m.globalReadWindow ≤ v := hlap.ge
  rcases Nat.eq_or_lt_of_le hge with heq | hlt
  · exact hread index hlap.index (heq ▸ hc)
  · obtain rfl : v = m.globalWriteWindow := by omega
    exact hwrite index hlap.index hc

/-- **`claim_new_block_read` without reading ahead** takes an element or finds nothing. -/
theorem finishes_settled (hgoal : Search c strict m₀ hd₀ k P) (hmax : c.cellsPerBlock ≤ 65535) {da : Bool} (d : Nat)
    (hlook : Looking c strict m₀ hd₀ m hd)
    (hda : da = true ∨ m.globalWriteWindow = m.globalReadWindow + 1)
    (hdist : m.globalWriteWindow ≤ m.globalReadWindow + d) :
    Finishes c P k (m, hd.goto (.readWindow da)) := by
  induction d generalizing m with
  | zero =>
      have := hlook.quiet.windows.order
      omega
  | succ d ih =>
      by_cases hhalf : EpochsHalf c m
      · have inv := hlook.quiet
        have horder := inv.windows.order
        have hmod : (m.globalReadWindow + 1) % 2 ^ 64 = m.globalReadWindow + 1 := by
          have := hhalf.window
          exact Nat.mod_eq_of_lt (by omega)
        refine finishes_window hgoal hmax hhalf hlook hda fun hnone => ?_
        rw [hmod]
        by_cases hnext : m.globalWriteWindow = m.globalReadWindow + 1
        · rw [if_pos hnext]
          refine finishes_readScan inv da
            (fun hno => hgoal.done _ (hlook.nothingLeft hhalf.fit hnext hnone hno)) (fun hsome => ?_) 0
            c.unitsPerWindow_pos fun i' hi' => absurd hi' (Nat.not_lt_zero i')
          obtain ⟨inv', hkeeps⟩ := inv.forceMove hhalf.fit hnext hnone
          have hclaimed := claimed_forceMove inv hhalf.fit
          have hfour := c.four_le_windowCount
          have hw : (m.forceMove c).globalWriteWindow = m.globalWriteWindow + 1 := rfl
          refine finishes_readBump hhalf hnext da ?_ 0 c.unitsPerWindow_pos
          by_cases hhalf' : EpochsHalf c (m.forceMove c)
          · have hlook' := hlook.moved inv' hhalf'.fit hkeeps (by omega) hclaimed rfl rfl
            obtain ⟨index, hi, hc⟩ := hsome
            have hc' : Claimed c m (m.globalReadWindow + 1) index := hnext ▸ hc
            refine finishes_window hgoal hmax hhalf' hlook' (.inr ?_) fun hempty => ?_
            · rw [hw, hnext]
              rfl
            · exact absurd ((hclaimed _ index hi).mpr hc') (hempty index hi)
          · exact .out hhalf'
        · rw [if_neg hnext]
          obtain ⟨inv', hkeeps⟩ := inv.moveRead hhalf.fit (by omega) hnone
          refine Finishes.step (y := ({ m with globalReadWindow := m.globalReadWindow + 1 },
            hd.goto (.readWindow da))) ?_ fun _ => ?_
          · have hfit' : EpochsFit c { m with globalReadWindow := m.globalReadWindow + 1 } :=
              ⟨hhalf.fit.epoch, hhalf.fit.window⟩
            refine ih (hlook.moved inv' hfit' hkeeps inv.windows.gap
              (fun v index _ => claimed_of_filledSet (m := m) rfl) rfl rfl)
              (.inl (hda.resolve_right hnext)) ?_
            show m.globalWriteWindow ≤ m.globalReadWindow + 1 + d
            omega
          · show (m.moveRead m.globalReadWindow, _) = _
            rw [moveRead_of_eq rfl inv.windows hhalf.fit]
            rfl
      · exact .out hhalf

/-- The window after the read window, when writers have left it too. -/
theorem finishes_ahead (hgoal : Search c strict m₀ hd₀ k P) (hmax : c.cellsPerBlock ≤ 65535)
    (hlook : Looking c strict m₀ hd₀ m hd) (hhalf : EpochsHalf c m)
    (hahead : hd.readWindow = m.globalReadWindow + 1) :
    Finishes c P k (m, hd.goto (.readWindow false)) := by
  have hwindow := hlook.cache.window
  have hmod : (m.globalReadWindow + 1) % 2 ^ 64 = hd.readWindow := by
    have := hhalf.window
    rw [hahead]
    exact Nat.mod_eq_of_lt (by omega)
  refine Finishes.draw (y := fun start => (m, hd.goto (.readUnit false hd.readWindow true start 0)))
    (fun start => ?_) fun _ _ => if_pos ⟨rfl, hmod⟩
  refine finishes_readUnit hgoal hmax hhalf hlook (by omega) hwindow (by omega) false true start
    (fun _ => ?_) 0 c.unitsPerWindow_pos fun i' hi' => absurd hi' (Nat.not_lt_zero i')
  exact finishes_settled hgoal hmax (m.globalWriteWindow - m.globalReadWindow) hlook (.inl rfl) (by omega)

/-- **`claim_new_block_read`**, once. -/
theorem finishes_readOnce (hgoal : Search c strict m₀ hd₀ k P) (hmax : c.cellsPerBlock ≤ 65535)
    (hlook : Looking c strict m₀ hd₀ m hd) (hhalf : EpochsHalf c m) :
    Finishes c P k (m, hd.goto (.readWindow false)) := by
  have horder := hlook.quiet.windows.order
  by_cases hahead : hd.readWindow = m.globalReadWindow + 1
  · exact finishes_ahead hgoal hmax hlook hhalf hahead
  · by_cases hnext : m.globalWriteWindow = m.globalReadWindow + 1
    · exact finishes_settled hgoal hmax 1 hlook (.inr hnext) (by omega)
    · have hmod : (m.globalReadWindow + 1) % 2 ^ 64 = m.globalReadWindow + 1 := by
        have := hhalf.window
        exact Nat.mod_eq_of_lt (by omega)
      refine Finishes.draw (y := fun start =>
        (m, hd.goto (.readUnit false m.globalReadWindow false start 0))) (fun start => ?_)
        fun _ _ => if_neg fun h => hahead (h.2.symm.trans hmod)
      refine finishes_readUnit hgoal hmax hhalf hlook (Nat.le_refl _) horder (Nat.le_succ _) false
        false start (fun _ => ?_) 0 c.unitsPerWindow_pos fun i' hi' => absurd hi' (Nat.not_lt_zero i')
      -- read ahead from now on
      have hroom : m.globalReadWindow + 1 < m.globalWriteWindow := by omega
      have hlook' : Looking c strict m₀ hd₀ m { hd with readWindow := m.globalReadWindow + 1 } :=
        ⟨hlook.quiet, hlook.keeps, ⟨hlook.cache.write, hlook.cache.read, hroom⟩,
          hlook.writeBlock, hlook.claims, hlook.unread, hlook.values⟩
      refine Finishes.step (finishes_ahead hgoal hmax hlook' hhalf rfl) fun _ => ?_
      have hnot : (m.globalReadWindow + 1) % 2 ^ 64 ≠ m.globalWriteWindow := by omega
      refine (if_pos ⟨rfl, hnot⟩).trans ?_
      rw [hmod]
      rfl

end Search

/-- The blocks that are claimed. -/
def claimedBlocks (c : Config) (m : Shared T) : Finset (Nat × Nat) :=
  (Finset.range (m.globalWriteWindow + 1) ×ˢ Finset.range c.blocksPerWindow).filter
    fun p => Claimed c m p.1 p.2

omit [Zero T] [DecidableEq T] in
theorem mem_claimedBlocks : (v, index) ∈ claimedBlocks c m ↔
    v ≤ m.globalWriteWindow ∧ index < c.blocksPerWindow ∧ Claimed c m v index := by
  rw [claimedBlocks, Finset.mem_filter, Finset.mem_product, Finset.mem_range, Finset.mem_range,
    Nat.lt_succ_iff, and_assoc]

omit [DecidableEq T] in
/-- A pop that comes back to the head of its loop with a block given back has fewer of them left. -/
theorem Looking.card_claimedBlocks_lt (hlook : Looking c strict m₀ hd₀ m hd) (hfit : EpochsFit c m)
    (hfewer : Fewer c m₀ m) : (claimedBlocks c m).card < (claimedBlocks c m₀).card := by
  refine Finset.card_lt_card (Finset.ssubset_iff_subset_ne.mpr ⟨?_, fun heq => ?_⟩)
  · rintro ⟨v, index⟩ hmem
    obtain ⟨hv, hi, hc⟩ := mem_claimedBlocks.mp hmem
    have hgap := hlook.quiet.windows.gap
    have hlap : InLap c m v index := ⟨hlook.quiet.claimed_le hfit hv hi hc, by omega, hi⟩
    obtain ⟨hv₀, hc₀⟩ := hlook.claims v index hlap hc
    exact mem_claimedBlocks.mpr ⟨hv₀, hi, hc₀⟩
  · obtain ⟨v, hv, index, hi, hc, hno⟩ := hfewer
    have hmem := mem_claimedBlocks.mpr ⟨hv, hi, hc⟩
    rw [← heq] at hmem
    exact hno (mem_claimedBlocks.mp hmem).2.2

/-- **`claim_new_block_read` until `pop` has an element**, or there is none. -/
theorem finishes_readWindow (hmax : c.cellsPerBlock ≤ 65535) (k : Nat)
    (hlook : Looking c strict m₀ hd₀ m hd) :
    Finishes c (PopEnd c strict m₀ hd₀) k (m, hd.goto (.readWindow false)) := by
  -- each round uses up a failure for no reason or a claimed block
  induction k using Nat.strong_induction_on generalizing m hd with
  | _ k ihk =>
      generalize hcard : (claimedBlocks c m).card = size
      induction size using Nat.strong_induction_on generalizing m hd with
      | _ size ih =>
          by_cases hhalf : EpochsHalf c m
          · have hself := Looking.refl hlook.quiet hhalf.fit hlook.cache
            refine finishes_readOnce ⟨fun x => hlook.popEnd, fun j hj m' hd' hlook' hless => ?_⟩ hmax
              hself hhalf
            by_cases hhalf' : EpochsHalf c m'
            · rcases Nat.lt_or_eq_of_le hj with hlt | rfl
              · exact ihk j hlt (hlook.trans hlook')
              · have hfewer := hless.resolve_left (Nat.lt_irrefl j)
                have hlt := hlook'.card_claimedBlocks_lt hhalf'.fit hfewer
                exact ih _ (hcard ▸ hlt) (hlook.trans hlook') rfl
            · exact .out hhalf'
          · exact .out hhalf

/-- **What `pop` does, alone.** -/
theorem pop_finishes (hmax : c.cellsPerBlock ≤ 65535) (k : Nat) (inv : QuietInv c strict m none)
    (hcache : CacheOk c m hd) : Finishes c (PopEnd c strict m hd) k (m, hd.goto .popLoad) := by
  by_cases hhalf : EpochsHalf c m
  · have hlook := Looking.refl inv hhalf.fit hcache
    refine Finishes.step (y := (m, hd.goto (popCheck hd (m.header hd.readBlock)))) ?_ fun _ => rfl
    by_cases hvalid : epochValid (getEpoch (m.header hd.readBlock)) hd.readEpoch = true
    · rcases hcache.read with ⟨hb, he⟩ | ⟨v, hv, hv', index, hi, hb, he, hx, hgiven⟩
      · rw [hb, he, dummy_invalid inv.dummy] at hvalid
        cases hvalid
      · rw [hb, he, inv.valid_iff hhalf hv.le] at hvalid
        obtain ⟨hclaimed, huntouched, hsome⟩ := hgiven.resolve_right (Nat.not_lt.mpr hvalid)
        have hgap := inv.windows.gap
        have hge := inv.claimed_le hhalf.fit hv.le hi hclaimed
        exact finishes_popCheck ⟨fun _ => id, fun j _ m' hd' hlook' _ =>
          finishes_readWindow hmax j hlook'⟩ hmax hhalf hlook
          ⟨⟨hge, by omega, hi⟩, hv, hv', hclaimed, huntouched⟩ hb he hx hsome
    · rw [popCheck, if_neg hvalid]
      exact finishes_readWindow hmax k hlook
  · exact .out hhalf

end Pop

end RelaxedConcurrentFifo.BlockBasedQueue
