/-
# RelaxedConcurrentFifo.BlockBasedQueue.Quiescent — the queue between two calls

When calls do not overlap, the memory between two calls is much tamer than in the middle of an
interleaving. `QuietInv` is what holds then: a block whose bit is set at its window's epoch has an
element, every other block of the lap is empty and not offered to readers; no reader has been in the
write window, or in any window two or more ahead of the read window; and a window between the two
counters was left by writers only after all of its blocks had been claimed.

A call is made of a few transactions on the memory: claiming a block, pushing into it, taking its
first element, and moving the counters. Each of them keeps `QuietInv`, where a block that is claimed
but not written yet, or read to its end but not given back yet, is the `hole`. A claim once made
stands until the block's header has left the epoch (`Keeps`), so every handle's cached blocks stay
what they were.
-/
import RelaxedConcurrentFifo.BlockBasedQueue.Emptiness

namespace RelaxedConcurrentFifo.BlockBasedQueue

open RelaxedConcurrentFifo.AtomicBitset (UnitOk makeUnit getBits resetDesired getEpoch_makeUnit
  getBits_makeUnit getEpoch_makeUnit_or getBits_makeUnit_or clearedBits clearedBits_lt
  testBit_clearedBits resetDesired_eq unitOk_makeUnit)

variable {T : Type}

/-! ## §1 — the invariant -/

/-- Block `index` of window `v`. -/
abbrev blockAt (c : Config) (v index : Nat) : Block := getBlock c (c.windowToIndex v) index

/-- The block is offered to readers: its bit in `touched_set` is set. -/
def Touched (c : Config) (m : Shared T) (v index : Nat) : Prop :=
  (m.touchedSet (c.unitAt v (index / c.bitCount))).testBit (index % c.bitCount) = true

/-- Readers do not get there before the counters have moved. -/
def Far (m : Shared T) (v : Nat) : Prop := m.globalWriteWindow ≤ v ∨ m.globalReadWindow + 2 ≤ v

/-- A block of the lap between two calls. Only a writer whose weak compare-and-swap has failed leaves a
claimed block empty, which does not happen in `strict` runs. -/
structure BlockOk (c : Config) (strict : Prop) (m : Shared T) (hole : Option Block) (v index : Nat) :
    Prop where
  full : Claimed c m v index → hole ≠ some (blockAt c v index) →
    getEpoch (m.header (blockAt c v index)) ≤ c.windowToEpoch v ∧
      (strict → getWriteIndex (m.header (blockAt c v index)) ≠ 0)
  free : ¬ Claimed c m v index →
    getWriteIndex (m.header (blockAt c v index)) = 0 ∧ ¬ Touched c m v index
  stamp : getEpoch (m.header (blockAt c v index)) ≤ c.windowToEpoch v + 1
  unread : Far m v → getEpoch (m.header (blockAt c v index)) ≤ c.windowToEpoch v ∧
    getReadIndex (m.header (blockAt c v index)) = 0
  between : m.globalReadWindow < v → v < m.globalWriteWindow → Held c m v index

/-- The memory between two calls, but for the `hole`. -/
structure QuietInv [Zero T] (c : Config) (strict : Prop) (m : Shared T) (hole : Option Block) :
    Prop where
  windows : WindowInv c m
  current : ∀ j < c.unitsPerWindow,
    AtomicBitset.getEpoch (m.unit c m.globalWriteWindow j) = c.windowToEpoch m.globalWriteWindow
  words : ∀ b, m.header b < 2 ^ 64
  indices : ∀ b, IndicesOk c (m.header b)
  cells : ∀ b i, m.cell b i ≠ 0 ↔ Published m b i
  touched : ∀ u, m.touchedSet u < 2 ^ c.bitCount
  dummy : DummyOk m
  blocks : ∀ v, m.globalReadWindow ≤ v → v < m.globalReadWindow + c.windowCount →
    ∀ index < c.blocksPerWindow, BlockOk c strict m hole v index

/-- A block in the hands of a reader: claimed, not offered to others and written to, until its header
has left the epoch. -/
def Given (c : Config) (m : Shared T) (v index : Nat) : Prop :=
  (Claimed c m v index ∧ ¬ Touched c m v index ∧ getWriteIndex (m.header (blockAt c v index)) ≠ 0) ∨
    c.windowToEpoch v < getEpoch (m.header (blockAt c v index))

/-- What a call never takes back. -/
structure Keeps (c : Config) (m m' : Shared T) : Prop where
  read : m.globalReadWindow ≤ m'.globalReadWindow
  write : m.globalWriteWindow ≤ m'.globalWriteWindow
  held : ∀ v ≤ m.globalWriteWindow, ∀ index < c.blocksPerWindow,
    Held c m v index → Held c m' v index
  given : ∀ v ≤ m.globalWriteWindow, ∀ index < c.blocksPerWindow,
    Given c m v index → Given c m' v index

theorem Keeps.refl (c : Config) (m : Shared T) : Keeps c m m :=
  ⟨Nat.le_refl _, Nat.le_refl _, fun _ _ _ _ h => h, fun _ _ _ _ h => h⟩

theorem Keeps.trans {c : Config} {m m' m'' : Shared T} (h : Keeps c m m') (h' : Keeps c m' m'') :
    Keeps c m m'' :=
  ⟨h.read.trans h'.read, h.write.trans h'.write,
    fun v hv index hi hh => h'.held v (hv.trans h.write) index hi (h.held v hv index hi hh),
    fun v hv index hi hh => h'.given v (hv.trans h.write) index hi (h.given v hv index hi hh)⟩

variable {strict : Prop}

section Frame

variable {c : Config} {m m' : Shared T} {hole hole' : Option Block} {v index : Nat}

/-- Blocks of the lap are different blocks of the buffer. -/
theorem blockAt_inj {r v' index' : Nat} (hv : r ≤ v) (hv' : v < r + c.windowCount) (hu : r ≤ v')
    (hu' : v' < r + c.windowCount) (hi : index < c.blocksPerWindow) (hi' : index' < c.blocksPerWindow)
    (h : blockAt c v index = blockAt c v' index') : v = v' ∧ index = index' := by
  obtain ⟨hw, hindex⟩ := getBlock_inj c hi hi' h
  refine ⟨?_, hindex⟩
  rcases Nat.le_total v v' with hle | hle
  · exact c.eq_of_windowToIndex_eq hw hle (by omega)
  · exact (c.eq_of_windowToIndex_eq hw.symm hle (by omega)).symm

/-- What a block of the lap depends on. -/
theorem BlockOk.congr (h : BlockOk c strict m hole v index)
    (hheader : m'.header (blockAt c v index) = m.header (blockAt c v index))
    (hclaimed : Claimed c m' v index ↔ Claimed c m v index)
    (htouched : Touched c m' v index → Touched c m v index)
    (hhole : hole' ≠ some (blockAt c v index) → hole ≠ some (blockAt c v index))
    (hfar : Far m' v → Far m v)
    (hbetween : m'.globalReadWindow < v → v < m'.globalWriteWindow → Held c m' v index) :
    BlockOk c strict m' hole' v index := by
  refine ⟨fun hc hne => ?_, fun hc => ?_, ?_, fun hf => ?_, hbetween⟩
  · rw [hheader]
    exact h.full (hclaimed.mp hc) (hhole hne)
  · rw [hheader]
    obtain ⟨hzero, ht⟩ := h.free (mt hclaimed.mpr hc)
    exact ⟨hzero, fun ht' => ht (htouched ht')⟩
  · rw [hheader]
    exact h.stamp
  · rw [hheader]
    exact h.unread (hfar hf)

theorem claimed_of_filledSet (h : m'.filledSet = m.filledSet) :
    Claimed c m' v index ↔ Claimed c m v index := by
  have hunit : m'.unit c v (index / c.bitCount) = m.unit c v (index / c.bitCount) := by
    rw [Shared.unit, Shared.unit, h]
  constructor
  · rintro ⟨he, hb⟩
    rw [hunit] at he hb
    exact ⟨he, hb⟩
  · rintro ⟨he, hb⟩
    rw [← hunit] at he hb
    exact ⟨he, hb⟩

theorem touched_of_touchedSet (h : m'.touchedSet = m.touchedSet) :
    Touched c m' v index ↔ Touched c m v index := by rw [Touched, Touched, h]

theorem held_congr (hclaimed : Claimed c m v index → Claimed c m' v index)
    (hepoch : getEpoch (m.header (blockAt c v index)) ≤ getEpoch (m'.header (blockAt c v index)))
    (h : Held c m v index) : Held c m' v index := by
  rcases h with hc | hlt
  · exact .inl (hclaimed hc)
  · exact .inr (lt_of_lt_of_le hlt hepoch)

theorem given_congr
    (hclaimed : Claimed c m v index → ¬ Touched c m v index →
      Claimed c m' v index ∧ ¬ Touched c m' v index)
    (hheader : m'.header (blockAt c v index) = m.header (blockAt c v index))
    (h : Given c m v index) : Given c m' v index := by
  unfold Given
  rw [hheader]
  rcases h with ⟨hc, ht, hsome⟩ | hlt
  · obtain ⟨hc', ht'⟩ := hclaimed hc ht
    exact .inl ⟨hc', ht', hsome⟩
  · exact .inr hlt

/-- A block is claimed in one window at a time. -/
theorem Claimed.window_eq {v' index' : Nat} (hc : Claimed c m v index) (hc' : Claimed c m v' index')
    (hi : index < c.blocksPerWindow) (hi' : index' < c.blocksPerWindow)
    (h : blockAt c v index = blockAt c v' index') : v = v' := by
  obtain ⟨hw, rfl⟩ := getBlock_inj c hi hi' h
  have hunit : m.unit c v (index / c.bitCount) = m.unit c v' (index / c.bitCount) := by
    rw [Shared.unit, Shared.unit, Config.unitAt, Config.unitAt, hw]
  exact c.window_ext (hc.epoch.symm.trans (hunit ▸ hc'.epoch)) hw

end Frame

namespace QuietInv

variable [Zero T] {c : Config} {m : Shared T} {hole : Option Block}

/-- A claimed block is in the lap. -/
theorem claimed_le (inv : QuietInv c strict m hole) (hfit : EpochsFit c m) {v index : Nat}
    (hv : v ≤ m.globalWriteWindow) (hi : index < c.blocksPerWindow) (h : Claimed c m v index) :
    m.globalReadWindow ≤ v := inv.windows.le_of_epoch_eq hfit hv (div_bitCount_lt c hi) h.epoch

/-- Ahead of the write window nothing is claimed. -/
theorem le_of_claimed (inv : QuietInv c strict m hole) (hfit : EpochsFit c m) {v index : Nat}
    (hv : v < m.globalReadWindow + c.windowCount) (hi : index < c.blocksPerWindow)
    (h : Claimed c m v index) : v ≤ m.globalWriteWindow := by
  by_contra hlt
  have hahead := inv.windows.ahead v (by omega) hv _ (div_bitCount_lt c hi)
  apply h.bits_ne_zero
  rw [hahead, getBits_makeUnit (inv.windows.epoch_lt hfit (.inr hv))]

end QuietInv

/-! ## §2 — claiming a block -/

/-- `claim_bit` on `filled_set` and `set` on `touched_set`, for one block. -/
def Shared.claimBlock (c : Config) (m : Shared T) (v index : Nat) : Shared T :=
  (m.setFilled (c.unitAt v (index / c.bitCount)) (makeUnit (c.windowToEpoch v) |||
      (getBits (m.unit c v (index / c.bitCount)) ||| 1 <<< (index % c.bitCount)))).setTouched
    (c.unitAt v (index / c.bitCount))
    (m.touchedSet (c.unitAt v (index / c.bitCount)) ||| 1 <<< (index % c.bitCount))

section Claim

variable {c : Config} {m : Shared T} {v index v' index' : Nat}

/-- Two blocks share a unit if they are in one window and their indices have one quotient. -/
theorem unitAt_eq_iff {r : Nat} (hv : r ≤ v) (hv' : v < r + c.windowCount) (hu : r ≤ v')
    (hu' : v' < r + c.windowCount) (hi : index < c.blocksPerWindow)
    (hi' : index' < c.blocksPerWindow) :
    c.unitAt v (index / c.bitCount) = c.unitAt v' (index' / c.bitCount) ↔
      v = v' ∧ index / c.bitCount = index' / c.bitCount := by
  constructor
  · intro h
    obtain ⟨hw, hj⟩ := unit_inj c (div_bitCount_lt c hi) (div_bitCount_lt c hi') h
    refine ⟨?_, hj⟩
    rcases Nat.le_total v v' with hle | hle
    · exact c.eq_of_windowToIndex_eq hw hle (by omega)
    · exact (c.eq_of_windowToIndex_eq hw.symm hle (by omega)).symm
  · rintro ⟨rfl, hj⟩
    rw [hj]

theorem index_ext (hdiv : index / c.bitCount = index' / c.bitCount)
    (hmod : index % c.bitCount = index' % c.bitCount) : index = index' := by
  rw [← Nat.div_add_mod index c.bitCount, ← Nat.div_add_mod index' c.bitCount, hdiv, hmod]

theorem claimBlock_unit (m : Shared T) (v index v' j : Nat) :
    (m.claimBlock c v index).unit c v' j =
      if c.unitAt v' j = c.unitAt v (index / c.bitCount) then makeUnit (c.windowToEpoch v) |||
        (getBits (m.unit c v (index / c.bitCount)) ||| 1 <<< (index % c.bitCount))
      else m.unit c v' j :=
  Shared.setFilled_filledSet m _ _ _

variable [Zero T] {hole : Option Block}

/-- The word the claim leaves in its unit. -/
theorem QuietInv.claimWord (inv : QuietInv c strict m hole) (hfit : EpochsFit c m) (index : Nat) :
    AtomicBitset.getEpoch (makeUnit (c.windowToEpoch m.globalWriteWindow) |||
        (getBits (m.unit c m.globalWriteWindow (index / c.bitCount)) ||| 1 <<< (index % c.bitCount))) =
      c.windowToEpoch m.globalWriteWindow ∧
    getBits (makeUnit (c.windowToEpoch m.globalWriteWindow) |||
        (getBits (m.unit c m.globalWriteWindow (index / c.bitCount)) ||| 1 <<< (index % c.bitCount))) =
      getBits (m.unit c m.globalWriteWindow (index / c.bitCount)) ||| 1 <<< (index % c.bitCount) := by
  have he := inv.windows.epoch_lt hfit (v := m.globalWriteWindow) (.inl (Nat.le_refl _))
  have hlt := lt_of_lt_of_le (Lib.Words.or_bit_lt (inv.windows.words
      (c.unitAt m.globalWriteWindow (index / c.bitCount))).bits (Nat.mod_lt index c.bitCount_pos))
    (Nat.pow_le_pow_right (by norm_num : 0 < 2) c.bitCount_le)
  exact ⟨getEpoch_makeUnit_or he hlt, getBits_makeUnit_or he hlt⟩

theorem QuietInv.claimed_claimBlock (inv : QuietInv c strict m hole) (hfit : EpochsFit c m)
    (hi : index < c.blocksPerWindow) (hv : m.globalReadWindow ≤ v')
    (hv' : v' < m.globalReadWindow + c.windowCount) (hi' : index' < c.blocksPerWindow) :
    Claimed c (m.claimBlock c m.globalWriteWindow index) v' index' ↔
      Claimed c m v' index' ∨ v' = m.globalWriteWindow ∧ index' = index := by
  have horder := inv.windows.order
  have hgap := inv.windows.gap
  obtain ⟨hepoch, hbits⟩ := inv.claimWord hfit index
  have hiff := unitAt_eq_iff hv hv' horder.le hgap hi' hi
  -- only the claimed block's own word of the bitset is written
  by_cases hu : v' = m.globalWriteWindow ∧ index' / c.bitCount = index / c.bitCount
  · obtain ⟨rfl, hdiv⟩ := hu
    have hcur := inv.current _ (div_bitCount_lt c hi)
    have hunit := claimBlock_unit (c := c) m m.globalWriteWindow index m.globalWriteWindow
      (index' / c.bitCount)
    rw [if_pos (by rw [hdiv])] at hunit
    constructor
    · rintro ⟨-, hbit⟩
      rw [hunit, hbits, Lib.Words.testBit_or_bit, Bool.or_eq_true, decide_eq_true_iff] at hbit
      rcases hbit with hbit | hmod
      · exact .inl ⟨by rw [hdiv]; exact hcur, by rw [hdiv]; exact hbit⟩
      · exact .inr ⟨rfl, index_ext hdiv hmod.symm⟩
    · intro h
      refine ⟨by rw [hunit]; exact hepoch, ?_⟩
      rw [hunit, hbits, Lib.Words.testBit_or_bit, Bool.or_eq_true, decide_eq_true_iff]
      rcases h with ⟨-, hbit⟩ | ⟨-, rfl⟩
      · left
        rw [← hdiv]
        exact hbit
      · exact .inr rfl
  · have hunit := claimBlock_unit (c := c) m m.globalWriteWindow index v' (index' / c.bitCount)
    rw [if_neg (mt hiff.mp hu)] at hunit
    constructor
    · rintro ⟨he, hb⟩
      rw [hunit] at he hb
      exact .inl ⟨he, hb⟩
    · rintro (⟨he, hb⟩ | ⟨rfl, rfl⟩)
      · rw [← hunit] at he hb
        exact ⟨he, hb⟩
      · exact absurd ⟨rfl, rfl⟩ hu

theorem QuietInv.touched_claimBlock (inv : QuietInv c strict m hole)
    (hi : index < c.blocksPerWindow) (hv : m.globalReadWindow ≤ v')
    (hv' : v' < m.globalReadWindow + c.windowCount) (hi' : index' < c.blocksPerWindow) :
    Touched c (m.claimBlock c m.globalWriteWindow index) v' index' ↔
      Touched c m v' index' ∨ v' = m.globalWriteWindow ∧ index' = index := by
  have horder := inv.windows.order
  have hgap := inv.windows.gap
  have hiff := unitAt_eq_iff hv hv' horder.le hgap hi' hi
  unfold Touched Shared.claimBlock
  rw [Shared.setTouched_touchedSet]
  by_cases hu : v' = m.globalWriteWindow ∧ index' / c.bitCount = index / c.bitCount
  · rw [if_pos (hiff.mpr hu), Lib.Words.testBit_or_bit, Bool.or_eq_true, decide_eq_true_iff, hu.1,
      hu.2]
    refine or_congr Iff.rfl ⟨fun hmod => ⟨rfl, index_ext hu.2 hmod.symm⟩, ?_⟩
    rintro ⟨-, rfl⟩
    rfl
  · rw [if_neg (mt hiff.mp hu)]
    constructor
    · exact .inl
    · rintro (h | ⟨rfl, rfl⟩)
      · exact h
      · exact absurd ⟨rfl, rfl⟩ hu

/-- **Claiming a free block of the write window.** -/
theorem QuietInv.claim (inv : QuietInv c strict m hole) (hfit : EpochsFit c m)
    (hi : index < c.blocksPerWindow) (hnone : hole = none)
    (hfree : ¬ Claimed c m m.globalWriteWindow index) :
    QuietInv c strict (m.claimBlock c m.globalWriteWindow index)
      (some (blockAt c m.globalWriteWindow index)) ∧
      Keeps c m (m.claimBlock c m.globalWriteWindow index) := by
  have horder := inv.windows.order
  have hgap := inv.windows.gap
  have hcur := inv.current _ (div_bitCount_lt c hi)
  obtain ⟨hepoch, -⟩ := inv.claimWord hfit index
  -- a claim adds the block and takes none away
  have hstays : ∀ v', m.globalReadWindow ≤ v' → v' < m.globalReadWindow + c.windowCount →
      ∀ index' < c.blocksPerWindow, Claimed c m v' index' →
        Claimed c (m.claimBlock c m.globalWriteWindow index) v' index' :=
    fun v' hv hv' index' hi' h => (inv.claimed_claimBlock hfit hi hv hv' hi').mpr (.inl h)
  constructor
  · refine ⟨?_, fun j hj => ?_, inv.words, inv.indices, inv.cells, fun u => ?_, inv.dummy,
      fun v' hv hv' index' hi' => ?_⟩
    · obtain ⟨h, -⟩ := inv.windows.setFilled hfit (Nat.le_refl _) (div_bitCount_lt c hi) hcur
        (rewritten_claim hfit inv.windows (Nat.le_refl _) (Nat.mod_lt index c.bitCount_pos))
      exact ⟨h.order, h.gap, h.words, h.active, h.opened, h.ahead⟩
    · show AtomicBitset.getEpoch ((m.claimBlock c m.globalWriteWindow index).unit c
        m.globalWriteWindow j) = _
      rw [claimBlock_unit]
      split
      · exact hepoch
      · exact inv.current j hj
    · unfold Shared.claimBlock
      rw [Shared.setTouched_touchedSet]
      split
      · exact Lib.Words.or_bit_lt (inv.touched _) (Nat.mod_lt _ c.bitCount_pos)
      · exact inv.touched u
    · have hok := inv.blocks v' hv hv' index' hi'
      have hclaimed := inv.claimed_claimBlock hfit hi hv hv' hi'
      have htouched := inv.touched_claimBlock hi hv hv' hi'
      by_cases hb : v' = m.globalWriteWindow ∧ index' = index
      · -- the block itself is the hole: nothing is asked of its header before the writer has filled it
        obtain ⟨rfl, rfl⟩ := hb
        refine ⟨fun _ hne => absurd rfl hne, fun hc => absurd (hclaimed.mpr (.inr ⟨rfl, rfl⟩)) hc,
          hok.stamp, hok.unread, fun _ hlt => absurd hlt (Nat.lt_irrefl _)⟩
      · refine hok.congr rfl (hclaimed.trans (or_iff_left hb))
          (fun h => (htouched.mp h).resolve_right hb) (fun _ => ?_) id fun h1 h2 => ?_
        · rw [hnone]
          nofun
        · exact held_congr (hstays v' hv hv' index' hi') (Nat.le_refl _) (hok.between h1 h2)
  · have hle : ∀ v' ≤ m.globalWriteWindow, ∀ index' < c.blocksPerWindow, Claimed c m v' index' →
        m.globalReadWindow ≤ v' := fun v' hv' index' hi' h => inv.claimed_le hfit hv' hi' h
    refine ⟨Nat.le_refl _, Nat.le_refl _, fun v' hv' index' hi' h => ?_,
      fun v' hv' index' hi' h => ?_⟩
    · refine held_congr (m := m) (fun hc => ?_) (Nat.le_refl _) h
      exact hstays v' (hle v' hv' index' hi' hc) (by omega) index' hi' hc
    · refine given_congr (m := m) (fun hc ht => ?_) rfl h
      have hv := hle v' hv' index' hi' hc
      refine ⟨hstays v' hv (by omega) index' hi' hc, fun ht' => ?_⟩
      rcases (inv.touched_claimBlock hi hv (by omega) hi').mp ht' with hold | ⟨rfl, rfl⟩
      · exact ht hold
      · exact hfree hc

end Claim

/-! ## §3 — pushing into a block, and taking its first element -/

/-- The cell's and the header's compare-and-swap of `push`. -/
def Shared.pushInto (m : Shared T) (b : Block) (t : T) : Shared T :=
  { (m.setCell b (getWriteIndex (m.header b)) t).setHeader b (incrementWriteIndex (m.header b)) with
    committed := t :: m.committed }

/-- The header's compare-and-swap of `pop` and the exchange of the cell; the header gets `ei`. -/
def Shared.takeFrom [Zero T] (m : Shared T) (b : Block) (ei : Nat) : Shared T :=
  { (m.setHeader b ei).setCell b (getReadIndex (m.header b)) 0 with
    returned := m.cell b (getReadIndex (m.header b)) :: m.returned }

section Cells

variable {c : Config} {m : Shared T} {hole : Option Block} {v index : Nat}

/-- What a change of one block's header and cells leaves as it was. -/
structure OneBlock (m m' : Shared T) (b : Block) : Prop where
  read : m'.globalReadWindow = m.globalReadWindow
  write : m'.globalWriteWindow = m.globalWriteWindow
  filled : m'.filledSet = m.filledSet
  touched : m'.touchedSet = m.touchedSet
  header : ∀ b' ≠ b, m'.header b' = m.header b'
  cell : ∀ b' ≠ b, m'.cell b' = m.cell b'

theorem pushInto_oneBlock (m : Shared T) (b : Block) (t : T) : OneBlock m (m.pushInto b t) b where
  read := rfl
  write := rfl
  filled := rfl
  touched := rfl
  header _ hb := Function.update_of_ne hb _ _
  cell _ hb := Function.update_of_ne hb _ _

variable [Zero T]

theorem takeFrom_oneBlock (m : Shared T) (b : Block) (ei : Nat) : OneBlock m (m.takeFrom b ei) b where
  read := rfl
  write := rfl
  filled := rfl
  touched := rfl
  header _ hb := Function.update_of_ne hb _ _
  cell _ hb := Function.update_of_ne hb _ _

/-- A block changes alone: what has to be shown of it. -/
theorem QuietInv.oneBlock {m' : Shared T} {hole' : Option Block} (inv : QuietInv c strict m hole)
    (hm : OneBlock m m' (blockAt c v index)) (hv : m.globalReadWindow ≤ v)
    (hv' : v < m.globalReadWindow + c.windowCount) (hi : index < c.blocksPerWindow)
    (hhole : ∀ b ≠ blockAt c v index, hole ≠ some b) (hword : m'.header (blockAt c v index) < 2 ^ 64)
    (hindices : IndicesOk c (m'.header (blockAt c v index)))
    (hcells : ∀ i, m'.cell (blockAt c v index) i ≠ 0 ↔ Published m' (blockAt c v index) i)
    (hepoch : getEpoch (m.header (blockAt c v index)) ≤ getEpoch (m'.header (blockAt c v index)))
    (hstays : getWriteIndex (m.header (blockAt c v index)) ≠ 0 →
      getWriteIndex (m'.header (blockAt c v index)) ≠ 0 ∨
        c.windowToEpoch v < getEpoch (m'.header (blockAt c v index)))
    (hclaimed : Claimed c m v index)
    (hblock : BlockOk c strict m' hole' v index) : QuietInv c strict m' hole' ∧ Keeps c m m' := by
  have hother : ∀ b ≠ blockAt c v index, m'.header b = m.header b := hm.header
  have hepochs : ∀ b, getEpoch (m.header b) ≤ getEpoch (m'.header b) := by
    intro b
    by_cases hb : b = blockAt c v index
    · rw [hb]
      exact hepoch
    · rw [hother b hb]
  have hheld : ∀ v' index', Held c m v' index' → Held c m' v' index' := fun v' index' =>
    held_congr (claimed_of_filledSet hm.filled).mpr (hepochs _)
  have hgiven : ∀ v', ∀ index' < c.blocksPerWindow, Given c m v' index' → Given c m' v' index' := by
    rintro v' index' hi' (⟨hc, ht, hsome⟩ | hlt)
    · have hc' := (claimed_of_filledSet hm.filled).mpr hc
      have ht' : ¬ Touched c m' v' index' := mt (touched_of_touchedSet hm.touched).mp ht
      by_cases hb : blockAt c v' index' = blockAt c v index
      · -- one slot holds one claimed block, so both windows are the same
        obtain rfl := hc.window_eq hclaimed hi' hi hb
        rw [Given, hb]
        rw [hb] at hsome
        exact (hstays hsome).imp_left fun hsome' => ⟨hc', ht', hsome'⟩
      · refine .inl ⟨hc', ht', ?_⟩
        rwa [hother _ hb]
    · exact .inr (lt_of_lt_of_le hlt (hepochs _))
  have hunit : ∀ v' j, m'.unit c v' j = m.unit c v' j := fun v' j => by
    rw [Shared.unit, Shared.unit, hm.filled]
  refine ⟨⟨?_, ?_, fun b => ?_, fun b => ?_, fun b i => ?_, ?_, ?_, ?_⟩,
    ⟨hm.read.ge, hm.write.ge, fun v' _ index' _ => hheld v' index',
      fun v' _ => hgiven v'⟩⟩
  · refine ⟨?_, ?_, ?_, ?_, ?_, ?_⟩
    · rw [hm.read, hm.write]
      exact inv.windows.order
    · rw [hm.read, hm.write]
      exact inv.windows.gap
    · rw [hm.filled]
      exact inv.windows.words
    · intro v' h1 h2 j hj
      rw [hm.read] at h1
      rw [hm.write] at h2
      rw [hunit]
      exact inv.windows.active v' h1 h2 j hj
    · intro v' h1 h2 j hj
      rw [hm.read] at h1
      rw [hm.write] at h2
      rw [hunit]
      exact inv.windows.opened v' h1 h2 j hj
    · intro v' h1 h2 j hj
      rw [hm.write] at h1
      rw [hm.read] at h2
      rw [hunit]
      exact inv.windows.ahead v' h1 h2 j hj
  · intro j hj
    rw [hm.write, hunit]
    exact inv.current j hj
  · by_cases hb : b = blockAt c v index
    · rw [hb]
      exact hword
    · rw [hother b hb]
      exact inv.words b
  · by_cases hb : b = blockAt c v index
    · rw [hb]
      exact hindices
    · rw [hother b hb]
      exact inv.indices b
  · by_cases hb : b = blockAt c v index
    · rw [hb]
      exact hcells i
    · rw [hm.cell b hb, Published, hother b hb]
      exact inv.cells b i
  · rw [hm.touched]
    exact inv.touched
  · rw [DummyOk, hother .dummy (fun heq => by cases heq)]
    exact inv.dummy
  · intro v' h1 h2 index' hi'
    rw [hm.read] at h1 h2
    by_cases hb : v' = v ∧ index' = index
    · rw [hb.1, hb.2]
      exact hblock
    · -- within one lap no two blocks share a slot
      have hne : blockAt c v' index' ≠ blockAt c v index := fun heq =>
        hb (blockAt_inj h1 h2 hv hv' hi' hi heq)
      have hok := inv.blocks v' h1 h2 index' hi'
      refine hok.congr (hother _ hne) (claimed_of_filledSet hm.filled)
        (touched_of_touchedSet hm.touched).mp (fun _ => hhole _ hne) (fun hf => ?_) fun h1 h2 => ?_
      · rwa [Far, hm.write, hm.read] at hf
      · rw [hm.read] at h1
        rw [hm.write] at h2
        exact hheld v' index' (hok.between h1 h2)

/-- The block of the lap a transaction is about. -/
structure InLap (c : Config) (m : Shared T) (v index : Nat) : Prop where
  ge : m.globalReadWindow ≤ v
  lt : v < m.globalReadWindow + c.windowCount
  index : index < c.blocksPerWindow

/-- **Pushing into a claimed block that has room.** -/
theorem QuietInv.pushInto (inv : QuietInv c strict m hole) (hmax : c.cellsPerBlock ≤ 65535)
    (hlap : InLap c m v index) (hclaimed : Claimed c m v index)
    (hepoch : getEpoch (m.header (blockAt c v index)) ≤ c.windowToEpoch v)
    (hroom : getWriteIndex (m.header (blockAt c v index)) ≠ c.cellsPerBlock) {t : T} (ht : t ≠ 0)
    (hhole : ∀ b ≠ blockAt c v index, hole ≠ some b) :
    QuietInv c strict (m.pushInto (blockAt c v index) t) none ∧
      Keeps c m (m.pushInto (blockAt c v index) t) := by
  have hok := inv.blocks v hlap.ge hlap.lt index hlap.index
  have hcap := (inv.indices (blockAt c v index)).write
  have hle := (inv.indices (blockAt c v index)).le
  have hw : getWriteIndex (m.header (blockAt c v index)) < 65535 := by omega
  have hheader : (m.pushInto (blockAt c v index) t).header (blockAt c v index) =
      incrementWriteIndex (m.header (blockAt c v index)) := Function.update_self _ _ _
  have hread := getReadIndex_incrementWriteIndex hw
  have hwrite := getWriteIndex_incrementWriteIndex hw
  have hsame := getEpoch_incrementWriteIndex (inv.words (blockAt c v index)) hw
  have hstands : Claimed c (m.pushInto (blockAt c v index) t) v index :=
    (claimed_of_filledSet (pushInto_oneBlock m _ t).filled).mpr hclaimed
  refine inv.oneBlock (pushInto_oneBlock m _ t) hlap.ge hlap.lt hlap.index hhole ?_ ?_
    (fun i => ?_) ?_ (fun _ => .inl ?_) hclaimed ⟨fun _ _ => ?_, fun hno => absurd hstands hno, ?_,
      fun hf => ?_, fun _ _ => .inl hstands⟩
  · rw [hheader]
    exact Nat.mod_lt _ (by norm_num)
  · rw [hheader]
    refine ⟨.inl ?_, ?_⟩ <;> omega
  · rw [Published, hheader, hread, hwrite]
    show (m.setCell _ _ t).cell _ i ≠ 0 ↔ _
    rw [Shared.setCell_cell]
    split
    · rename_i hi
      -- the new cell: the write index now reaches over it
      rw [hi.2]
      exact ⟨fun _ => ⟨hle, Nat.lt_succ_self _⟩, fun _ => ht⟩
    · rename_i hi
      have hne : i ≠ getWriteIndex (m.header (blockAt c v index)) := fun h => hi ⟨rfl, h⟩
      rw [inv.cells, Published]
      omega
  · rw [hheader, hsame]
  · rw [hheader, hwrite]
    exact Nat.succ_ne_zero _
  · rw [hheader, hsame, hwrite]
    exact ⟨hepoch, fun _ => Nat.succ_ne_zero _⟩
  · rw [hheader, hsame]
    exact hok.stamp
  · rw [hheader, hsame, hread]
    exact hok.unread hf

/-- A claimed block may stay empty when the run is not strict. -/
theorem QuietInv.leaveEmpty (inv : QuietInv c strict m (some (blockAt c v index)))
    (hloose : ¬ strict) (hlap : InLap c m v index)
    (hepoch : getEpoch (m.header (blockAt c v index)) ≤ c.windowToEpoch v) :
    QuietInv c strict m none := by
  refine ⟨inv.windows, inv.current, inv.words, inv.indices, inv.cells, inv.touched, inv.dummy,
    fun v' h1 h2 index' hi' => ?_⟩
  have hok := inv.blocks v' h1 h2 index' hi'
  refine ⟨fun hc _ => ?_, hok.free, hok.stamp, hok.unread, hok.between⟩
  by_cases hb : v' = v ∧ index' = index
  · obtain ⟨rfl, rfl⟩ := hb
    exact ⟨hepoch, fun h => absurd h hloose⟩
  · refine hok.full hc fun heq => hb ?_
    exact blockAt_inj h1 h2 hlap.ge hlap.lt hi' hlap.index (Option.some.inj heq).symm

/-- **Taking an element that is not the last one of its block.** -/
theorem QuietInv.takeNext (inv : QuietInv c strict m none) (hmax : c.cellsPerBlock ≤ 65535)
    (hlap : InLap c m v index) (hclaimed : Claimed c m v index) (hnear : ¬ Far m v)
    (hsome : getWriteIndex (m.header (blockAt c v index)) ≠ 0)
    (hnext : getReadIndex (m.header (blockAt c v index)) + 1 ≠
      getWriteIndex (m.header (blockAt c v index))) :
    QuietInv c strict (m.takeFrom (blockAt c v index)
        (incrementReadIndex (m.header (blockAt c v index)))) none ∧
      Keeps c m (m.takeFrom (blockAt c v index)
        (incrementReadIndex (m.header (blockAt c v index)))) := by
  have hok := inv.blocks v hlap.ge hlap.lt index hlap.index
  obtain ⟨hepoch, -⟩ := hok.full hclaimed nofun
  have hind := inv.indices (blockAt c v index)
  have hcap := hind.write
  have hlt := hind.read.resolve_right fun h => hsome h.2
  have hr : getReadIndex (m.header (blockAt c v index)) < 65535 := by omega
  have hheader : (m.takeFrom (blockAt c v index)
      (incrementReadIndex (m.header (blockAt c v index)))).header (blockAt c v index) =
      incrementReadIndex (m.header (blockAt c v index)) := Function.update_self _ _ _
  have hread := getReadIndex_incrementReadIndex hr
  have hwrite := getWriteIndex_incrementReadIndex (m.header (blockAt c v index))
  have hsame := getEpoch_incrementReadIndex (inv.words (blockAt c v index)) hr
  have hstands : Claimed c (m.takeFrom (blockAt c v index)
      (incrementReadIndex (m.header (blockAt c v index)))) v index :=
    (claimed_of_filledSet (takeFrom_oneBlock m _ _).filled).mpr hclaimed
  refine inv.oneBlock (takeFrom_oneBlock m _ _) hlap.ge hlap.lt hlap.index (fun _ _ => nofun) ?_ ?_
    (fun i => ?_) ?_ (fun _ => .inl ?_) hclaimed ⟨fun _ _ => ?_, fun hno => absurd hstands hno, ?_,
      fun hf => absurd hf hnear, fun _ _ => .inl hstands⟩
  · rw [hheader]
    exact Nat.mod_lt _ (by norm_num)
  · rw [hheader]
    refine ⟨.inl ?_, ?_⟩ <;> omega
  · rw [Published, hheader, hread, hwrite]
    show ((m.setHeader _ _).setCell _ _ 0).cell _ i ≠ 0 ↔ _
    rw [Shared.setCell_cell]
    split
    · rename_i hi
      -- the cell just emptied: the read index has passed it
      rw [hi.2]
      exact ⟨fun h => absurd rfl h, fun h => absurd h.1 (by omega)⟩
    · rename_i hi
      have hne : i ≠ getReadIndex (m.header (blockAt c v index)) := fun h => hi ⟨rfl, h⟩
      show m.cell _ i ≠ 0 ↔ _
      rw [inv.cells, Published]
      omega
  · rw [hheader, hsame]
  · rw [hheader, hwrite]
    exact hsome
  · rw [hheader, hsame, hwrite]
    exact ⟨hepoch, fun _ => hsome⟩
  · rw [hheader, hsame]
    exact hok.stamp

/-- **A reader is done with a block and stamps it with the next epoch**; it is then still to be given
back. -/
theorem QuietInv.stamp {m' : Shared T} (inv : QuietInv c strict m none)
    (hm : OneBlock m m' (blockAt c v index)) (hlap : InLap c m v index)
    (hclaimed : Claimed c m v index) (hnear : ¬ Far m v) (hfit : c.windowToEpoch v + 1 < 2 ^ 32)
    (hheader : m'.header (blockAt c v index) = epochToHeader (c.windowToEpoch v + 1))
    (hcells : ∀ i, m'.cell (blockAt c v index) i = 0) :
    QuietInv c strict m' (some (blockAt c v index)) ∧ Keeps c m m' := by
  have hok := inv.blocks v hlap.ge hlap.lt index hlap.index
  obtain ⟨hepoch, -⟩ := hok.full hclaimed nofun
  have hstands : Claimed c m' v index := (claimed_of_filledSet hm.filled).mpr hclaimed
  have hfar : ¬ Far m' v := by rwa [Far, hm.read, hm.write]
  refine inv.oneBlock hm hlap.ge hlap.lt hlap.index (fun _ _ => nofun) ?_ ?_ (fun i => ?_) ?_
    (fun _ => .inr ?_) hclaimed ⟨fun _ hne => absurd rfl hne, fun hno => absurd hstands hno, ?_,
      fun hf => absurd hf hfar, fun _ _ => .inl hstands⟩
  · rw [hheader]
    exact Nat.mod_lt _ (by norm_num)
  · rw [hheader]
    exact indicesOk_epochToHeader c _
  · rw [Published, hheader, getReadIndex_epochToHeader, getWriteIndex_epochToHeader]
    exact iff_of_false (fun h => h (hcells i)) fun h => Nat.not_lt_zero _ h.2
  · rw [hheader, getEpoch_stamped hfit]
    omega
  · rw [hheader, getEpoch_stamped hfit]
    exact Nat.lt_succ_self _
  · rw [hheader, getEpoch_stamped hfit]

/-- **Taking the last element of a block.** -/
theorem QuietInv.takeLast (inv : QuietInv c strict m none) (hlap : InLap c m v index)
    (hclaimed : Claimed c m v index) (hnear : ¬ Far m v) (hfit : c.windowToEpoch v + 1 < 2 ^ 32)
    (hlast : getReadIndex (m.header (blockAt c v index)) + 1 =
      getWriteIndex (m.header (blockAt c v index))) :
    QuietInv c strict (m.takeFrom (blockAt c v index) (epochToHeader (c.windowToEpoch v + 1)))
        (some (blockAt c v index)) ∧
      Keeps c m (m.takeFrom (blockAt c v index) (epochToHeader (c.windowToEpoch v + 1))) := by
  refine inv.stamp (takeFrom_oneBlock m _ _) hlap hclaimed hnear hfit (Function.update_self _ _ _)
    fun i => ?_
  show ((m.setHeader _ _).setCell _ _ 0).cell _ i = _
  rw [Shared.setCell_cell]
  split
  · rfl
  · rename_i hi
    have hne : i ≠ getReadIndex (m.header (blockAt c v index)) := fun h => hi ⟨rfl, h⟩
    show m.cell _ i = 0
    refine Classical.byContradiction fun hcell => ?_
    have hpublished := (inv.cells _ _).mp hcell
    rw [Published] at hpublished
    omega

omit [Zero T] in
theorem setHeader_oneBlock (m : Shared T) (b : Block) (ei : Nat) : OneBlock m (m.setHeader b ei) b where
  read := rfl
  write := rfl
  filled := rfl
  touched := rfl
  header _ hb := Function.update_of_ne hb _ _
  cell _ _ := rfl

/-- **Invalidating a block that was claimed and never written to.** -/
theorem QuietInv.invalidate (inv : QuietInv c strict m none) (hlap : InLap c m v index)
    (hclaimed : Claimed c m v index) (hnear : ¬ Far m v) (hfit : c.windowToEpoch v + 1 < 2 ^ 32)
    (hempty : getWriteIndex (m.header (blockAt c v index)) = 0) :
    QuietInv c strict (m.setHeader (blockAt c v index) (epochToHeader (c.windowToEpoch v + 1)))
        (some (blockAt c v index)) ∧
      Keeps c m (m.setHeader (blockAt c v index) (epochToHeader (c.windowToEpoch v + 1))) := by
  refine inv.stamp (setHeader_oneBlock m _ _) hlap hclaimed hnear hfit (Function.update_self _ _ _)
    fun i => ?_
  show m.cell _ i = 0
  refine Classical.byContradiction fun hcell => ?_
  have hpublished := (inv.cells _ _).mp hcell
  rw [Published, hempty] at hpublished
  exact Nat.not_lt_zero _ hpublished.2

end Cells

/-! ## §4 — giving a block back, and taking it from other readers -/

/-- `filled_set.reset` for a block of window `v`. -/
def Shared.giveBack (c : Config) (m : Shared T) (v index : Nat) : Shared T :=
  m.setFilled (c.unitAt v (index / c.bitCount))
    (resetDesired (c.windowToEpoch v) (m.unit c v (index / c.bitCount)) (index % c.bitCount))

/-- `claim_bit` on `touched_set`, for one block. -/
def Shared.untouch (c : Config) (m : Shared T) (v index : Nat) : Shared T :=
  m.setTouched (c.unitAt v (index / c.bitCount))
    (AtomicBitset.claimTest .one c.bitCount (m.touchedSet (c.unitAt v (index / c.bitCount)))
      (index % c.bitCount))

section GiveBack

variable [Zero T] {c : Config} {m : Shared T} {hole : Option Block} {v index v' index' : Nat}

theorem QuietInv.claimed_giveBack (inv : QuietInv c strict m hole) (hfit : EpochsFit c m)
    (hlap : InLap c m v index) (hw : v ≤ m.globalWriteWindow) (hclaimed : Claimed c m v index)
    (hlap' : InLap c m v' index') :
    Claimed c (m.giveBack c v index) v' index' ↔
      Claimed c m v' index' ∧ ¬ (v' = v ∧ index' = index) := by
  have hiff := unitAt_eq_iff hlap'.ge hlap'.lt hlap.ge hlap.lt hlap'.index hlap.index
  have hok : UnitOk c.bitCount (m.unit c v (index / c.bitCount)) := inv.windows.words _
  have he := inv.windows.epoch_lt hfit (v := v) (.inl hw)
  have hnext : c.windowToEpoch v + 1 < 2 ^ 32 := by
    have := c.windowToEpoch_mono hw
    have := hfit.epoch
    omega
  have hmod := Nat.mod_lt index' c.bitCount_pos
  have h64 : index' % c.bitCount < 64 := by
    have := c.bitCount_le
    omega
  have hunit : (m.giveBack c v index).unit c v' (index' / c.bitCount) =
      if c.unitAt v' (index' / c.bitCount) = c.unitAt v (index / c.bitCount) then
        resetDesired (c.windowToEpoch v) (m.unit c v (index / c.bitCount)) (index % c.bitCount)
      else m.unit c v' (index' / c.bitCount) := setFilled_unit ..
  by_cases hu : v' = v ∧ index' / c.bitCount = index / c.bitCount
  · obtain ⟨rfl, hdiv⟩ := hu
    have hsame : v' = v' ∧ index' = index ↔ index % c.bitCount = index' % c.bitCount :=
      ⟨fun h => by rw [h.2], fun h => ⟨rfl, index_ext hdiv h.symm⟩⟩
    have hbit : (clearedBits (getBits (m.unit c v' (index / c.bitCount)))
          (index % c.bitCount)).testBit (index' % c.bitCount) = true ↔
        (getBits (m.unit c v' (index / c.bitCount))).testBit (index' % c.bitCount) = true ∧
          ¬ (v' = v' ∧ index' = index) := by
      rw [testBit_clearedBits h64, Bool.and_eq_true, hsame]
      simp
    rw [if_pos (hiff.mpr ⟨rfl, hdiv⟩), resetDesired_eq c.bitCount_le hok
      (Nat.mod_lt _ c.bitCount_pos)] at hunit
    split at hunit
    · -- the last bit of the unit: the unit moves on, and no other block of it was claimed
      rename_i hzero
      rw [hzero, Nat.zero_testBit] at hbit
      refine iff_of_false (fun h => ?_) fun h => ?_
      · have := h.epoch
        rw [hunit, getEpoch_makeUnit hnext] at this
        omega
      · have hset := h.1.bit
        rw [hdiv] at hset
        exact absurd (hbit.mpr ⟨hset, h.2⟩) (by decide)
    · have hlt := lt_of_lt_of_le (clearedBits_lt hok.bits (index % c.bitCount))
        (Nat.pow_le_pow_right (by norm_num : 0 < 2) c.bitCount_le)
      rw [hclaimed.epoch] at hunit
      constructor
      · rintro ⟨-, hb⟩
        rw [hunit, getBits_makeUnit_or he hlt] at hb
        obtain ⟨hset, hne⟩ := hbit.mp hb
        exact ⟨⟨by rw [hdiv]; exact hclaimed.epoch, by rw [hdiv]; exact hset⟩, hne⟩
      · rintro ⟨hc, hne⟩
        have hset := hc.bit
        rw [hdiv] at hset
        refine ⟨?_, ?_⟩
        · rw [hunit, getEpoch_makeUnit_or he hlt]
        · rw [hunit, getBits_makeUnit_or he hlt]
          exact hbit.mpr ⟨hset, hne⟩
  · rw [if_neg (mt hiff.mp hu)] at hunit
    have hne : ¬ (v' = v ∧ index' = index) := fun h => hu ⟨h.1, by rw [h.2]⟩
    constructor
    · rintro ⟨he', hb⟩
      rw [hunit] at he' hb
      exact ⟨⟨he', hb⟩, hne⟩
    · rintro ⟨⟨he', hb⟩, -⟩
      rw [← hunit] at he' hb
      exact ⟨he', hb⟩

/-- **Giving back a block that was read to its end.** -/
theorem QuietInv.giveBack (inv : QuietInv c strict m (some (blockAt c v index))) (hfit : EpochsFit c m)
    (hlap : InLap c m v index) (hw : v < m.globalWriteWindow) (hclaimed : Claimed c m v index)
    (htouched : ¬ Touched c m v index)
    (hpast : c.windowToEpoch v < getEpoch (m.header (blockAt c v index)))
    (hempty : getWriteIndex (m.header (blockAt c v index)) = 0) :
    QuietInv c strict (m.giveBack c v index) none ∧ Keeps c m (m.giveBack c v index) := by
  have hgap := inv.windows.gap
  have hj := div_bitCount_lt c hlap.index
  have hle : ∀ v' ≤ m.globalWriteWindow, ∀ index' < c.blocksPerWindow, Claimed c m v' index' →
      InLap c m v' index' := fun v' hv' index' hi' h =>
    ⟨inv.claimed_le hfit hv' hi' h, by omega, hi'⟩
  have hiff : ∀ v' index', InLap c m v' index' →
      (Claimed c (m.giveBack c v index) v' index' ↔
        Claimed c m v' index' ∧ ¬ (v' = v ∧ index' = index)) := fun v' index' =>
    inv.claimed_giveBack hfit hlap hw.le hclaimed
  -- the block given back is held through its header, which carries the next epoch
  have hheld : ∀ v' ≤ m.globalWriteWindow, ∀ index' < c.blocksPerWindow, Held c m v' index' →
      Held c (m.giveBack c v index) v' index' := by
    rintro v' hv' index' hi' (hc | hlt)
    · by_cases hb : v' = v ∧ index' = index
      · rw [hb.1, hb.2]
        exact .inr hpast
      · exact .inl ((hiff v' index' (hle v' hv' index' hi' hc)).mpr ⟨hc, hb⟩)
    · exact .inr hlt
  constructor
  · refine ⟨?_, fun j hjlt => ?_, inv.words, inv.indices, inv.cells, inv.touched, inv.dummy,
      fun v' h1 h2 index' hi' => ?_⟩
    · exact (inv.windows.setFilled hfit hw.le hj hclaimed.epoch
        (rewritten_reset hfit inv.windows hw.le (Nat.mod_lt index c.bitCount_pos)
          hclaimed.epoch)).1
    · show AtomicBitset.getEpoch ((m.giveBack c v index).unit c m.globalWriteWindow j) = _
      rw [Shared.giveBack, setFilled_unit, if_neg]
      · exact inv.current j hjlt
      · intro hu
        have := (WindowInv.unitAt_inj (m := m) hjlt hj inv.windows.order.le hgap hlap.ge hlap.lt
          hu).1
        omega
    · have hok := inv.blocks v' h1 h2 index' hi'
      have hc := hiff v' index' ⟨h1, h2, hi'⟩
      by_cases hb : v' = v ∧ index' = index
      · obtain ⟨rfl, rfl⟩ := hb
        exact ⟨fun h => absurd ⟨rfl, rfl⟩ (hc.mp h).2, fun _ => ⟨hempty, htouched⟩, hok.stamp,
          hok.unread, fun _ _ => .inr hpast⟩
      · refine hok.congr rfl (hc.trans (and_iff_left hb)) id (fun _ heq => ?_) id fun h3 h4 => ?_
        · obtain ⟨h5, h6⟩ := blockAt_inj h1 h2 hlap.ge hlap.lt hi' hlap.index
            (Option.some.inj heq).symm
          exact hb ⟨h5, h6⟩
        · exact hheld v' (Nat.le_of_lt h4) index' hi' (hok.between h3 h4)
  · refine ⟨Nat.le_refl _, Nat.le_refl _, hheld, ?_⟩
    rintro v' hv' index' hi' (⟨hc, ht, hsome⟩ | hlt)
    · by_cases hb : v' = v ∧ index' = index
      · rw [hb.1, hb.2]
        exact .inr hpast
      · exact .inl ⟨(hiff v' index' (hle v' hv' index' hi' hc)).mpr ⟨hc, hb⟩, ht, hsome⟩
    · exact .inr hlt

omit [Zero T] in
theorem touched_untouch (hlap : InLap c m v index)
    (hlap' : InLap c m v' index') :
    Touched c (m.untouch c v index) v' index' ↔
      Touched c m v' index' ∧ ¬ (v' = v ∧ index' = index) := by
  have hiff := unitAt_eq_iff hlap'.ge hlap'.lt hlap.ge hlap.lt hlap'.index hlap.index
  have hmod := Nat.mod_lt index' c.bitCount_pos
  have h64 : index' % c.bitCount < 64 := by
    have := c.bitCount_le
    omega
  unfold Touched Shared.untouch
  rw [Shared.setTouched_touchedSet]
  by_cases hu : v' = v ∧ index' / c.bitCount = index / c.bitCount
  · rw [if_pos (hiff.mpr hu)]
    show ((_ &&& _) % 2 ^ c.bitCount).testBit _ = true ↔ _
    rw [Nat.testBit_mod_two_pow, Lib.Words.testBit_and_compl_bit _ h64, hu.1, hu.2]
    have hsame : v = v ∧ index' = index ↔ index % c.bitCount = index' % c.bitCount :=
      ⟨fun h => by rw [h.2], fun h => ⟨rfl, index_ext hu.2 h.symm⟩⟩
    rw [hsame]
    simp [hmod]
  · rw [if_neg (mt hiff.mp hu)]
    exact ⟨fun h => ⟨h, fun hb => hu ⟨hb.1, by rw [hb.2]⟩⟩, fun h => h.1⟩

/-- **A reader takes a block that is offered.** -/
theorem QuietInv.untouch (inv : QuietInv c strict m hole) (hfit : EpochsFit c m) (hlap : InLap c m v index) :
    QuietInv c strict (m.untouch c v index) hole ∧ Keeps c m (m.untouch c v index) := by
  have hgap := inv.windows.gap
  have hclaimed : ∀ v' index', Claimed c (m.untouch c v index) v' index' ↔ Claimed c m v' index' :=
    fun v' index' => claimed_of_filledSet (m := m) rfl
  constructor
  · refine ⟨⟨inv.windows.order, inv.windows.gap, inv.windows.words, inv.windows.active,
      inv.windows.opened, inv.windows.ahead⟩, inv.current, inv.words, inv.indices, inv.cells,
      fun u => ?_, inv.dummy, fun v' h1 h2 index' hi' => ?_⟩
    · unfold Shared.untouch
      rw [Shared.setTouched_touchedSet]
      split
      · exact Nat.mod_lt _ (Nat.two_pow_pos _)
      · exact inv.touched u
    · have hok := inv.blocks v' h1 h2 index' hi'
      refine hok.congr rfl (hclaimed v' index')
        (fun h => ((touched_untouch hlap ⟨h1, h2, hi'⟩).mp h).1) id id fun h3 h4 => ?_
      exact held_congr (m := m) (hclaimed v' index').mpr (Nat.le_refl _) (hok.between h3 h4)
  · refine ⟨Nat.le_refl _, Nat.le_refl _, fun v' _ index' _ h => ?_, fun v' hv' index' hi' h => ?_⟩
    · exact held_congr (m := m) (hclaimed v' index').mpr (Nat.le_refl _) h
    · refine given_congr (m := m) (fun hc ht => ⟨(hclaimed v' index').mpr hc, fun ht' => ?_⟩) rfl h
      have hge := inv.claimed_le hfit hv' hi' hc
      exact ht ((touched_untouch hlap ⟨hge, by omega, hi'⟩).mp ht').1

end GiveBack

/-! ## §5 — moving the counters -/

section Moves

variable {c : Config} {m m' : Shared T} {hole : Option Block} {v index : Nat}

/-- A unit and a bit of it are a block. -/
theorem exists_index {j bit : Nat} (hj : j < c.unitsPerWindow) (hbit : bit < c.bitCount) :
    ∃ index < c.blocksPerWindow, index / c.bitCount = j ∧ index % c.bitCount = bit := by
  refine ⟨bit + j * c.bitCount, ?_, ?_, ?_⟩
  · rw [← c.units_mul_bitCount]
    calc bit + j * c.bitCount < c.bitCount + j * c.bitCount := by omega
      _ = (j + 1) * c.bitCount := by ring
      _ ≤ c.unitsPerWindow * c.bitCount := Nat.mul_le_mul_right _ hj
  · rw [Nat.add_mul_div_right _ _ c.bitCount_pos, Nat.div_eq_of_lt hbit, Nat.zero_add]
  · rw [Nat.add_mul_mod_self_right, Nat.mod_eq_of_lt hbit]

theorem keeps_of_claimed (hr : m.globalReadWindow ≤ m'.globalReadWindow)
    (hw : m.globalWriteWindow ≤ m'.globalWriteWindow)
    (hclaimed : ∀ v index, index < c.blocksPerWindow →
      (Claimed c m' v index ↔ Claimed c m v index))
    (htouched : m'.touchedSet = m.touchedSet) (hheader : m'.header = m.header) : Keeps c m m' := by
  refine ⟨hr, hw, fun v _ index hi h => ?_, fun v _ index hi h => ?_⟩
  · exact held_congr (hclaimed v index hi).mpr (by rw [hheader]) h
  · refine given_congr (fun hc ht => ⟨(hclaimed v index hi).mpr hc, ?_⟩) (congrFun hheader _) h
    exact mt (touched_of_touchedSet htouched).mp ht

variable [Zero T]

/-- A unit without a claimed block is empty. -/
theorem QuietInv.bits_eq_zero (inv : QuietInv c strict m hole) {j : Nat} (hj : j < c.unitsPerWindow)
    (hnone : ∀ index < c.blocksPerWindow, ¬ Claimed c m v index)
    (he : AtomicBitset.getEpoch (m.unit c v j) = c.windowToEpoch v) :
    getBits (m.unit c v j) = 0 := by
  have hok : UnitOk c.bitCount (m.unit c v j) := inv.windows.words _
  refine (Lib.Words.eq_zero_iff_testBit hok.bits).mpr fun i hi => ?_
  obtain ⟨index, hindex, hdiv, hmod⟩ := exists_index hj hi
  by_contra hset
  refine hnone index hindex ⟨by rw [hdiv]; exact he, ?_⟩
  rw [hdiv, hmod]
  exact Bool.eq_true_of_not_eq_false hset

/-- A window behind the write window without a claimed block has been drained. -/
theorem QuietInv.drained (inv : QuietInv c strict m hole) (hfit : EpochsFit c m)
    (hv : m.globalReadWindow ≤ v) (hw : v < m.globalWriteWindow)
    (hnone : ∀ index < c.blocksPerWindow, ¬ Claimed c m v index) :
    ∀ j < c.unitsPerWindow, m.unit c v j = makeUnit (c.windowToEpoch v + 1) := by
  intro j hj
  refine (inv.windows.active v hv hw.le j hj).resolve_left fun he => ?_
  have hok : UnitOk c.bitCount (m.unit c v j) := inv.windows.words _
  apply inv.windows.opened v hv hw j hj
  exact (hok.eq_makeUnit_iff (inv.windows.epoch_lt hfit (.inl hw.le))).mpr
    ⟨he, inv.bits_eq_zero hj hnone he⟩

/-- **Writers leave a window all of whose blocks are claimed.** -/
theorem QuietInv.moveWrite (inv : QuietInv c strict m none) (hfit : EpochsFit c m)
    (hroom : m.globalWriteWindow + 1 < m.globalReadWindow + c.windowCount)
    (hall : ∀ index < c.blocksPerWindow, Claimed c m m.globalWriteWindow index) :
    QuietInv c strict { m with globalWriteWindow := m.globalWriteWindow + 1 } none ∧
      Keeps c m { m with globalWriteWindow := m.globalWriteWindow + 1 } := by
  have he := inv.windows.epoch_lt hfit (v := m.globalWriteWindow) (.inl (Nat.le_refl _))
  have hopened : ∀ j < c.unitsPerWindow, NotFresh c m m.globalWriteWindow j := by
    intro j hj
    obtain ⟨index, hindex, hdiv, -⟩ := exists_index hj c.bitCount_pos
    have hbits := (hall index hindex).bits_ne_zero
    rw [hdiv] at hbits
    -- a unit with a claimed block has a bit set, so it is not the fresh word
    refine .inr fun heq => hbits ?_
    rw [heq, getBits_makeUnit he]
  have hclaimed : ∀ v index, Claimed c { m with globalWriteWindow := m.globalWriteWindow + 1 } v
      index ↔ Claimed c m v index := fun v index => claimed_of_filledSet (m := m) rfl
  refine ⟨⟨?_, fun j hj => ?_, inv.words, inv.indices, inv.cells, inv.touched, inv.dummy,
    fun v h1 h2 index hi => ?_⟩, keeps_of_claimed (Nat.le_refl _) (Nat.le_succ _)
      (fun v index _ => hclaimed v index) rfl rfl⟩
  · have hstep : WindowStep c m { m with globalWriteWindow := m.globalWriteWindow + 1 }
        Handle.fresh Handle.fresh := .moveWrite hroom hopened rfl
    exact (hstep.inv hfit inv.windows).1
  · have hahead := inv.windows.ahead (m.globalWriteWindow + 1) (Nat.lt_succ_self _) hroom j hj
    show AtomicBitset.getEpoch (m.unit c (m.globalWriteWindow + 1) j) = _
    rw [hahead, getEpoch_makeUnit (inv.windows.epoch_lt hfit (.inr hroom))]
  · have hok := inv.blocks v h1 h2 index hi
    refine hok.congr rfl (hclaimed v index) id id ?_ fun h3 h4 => ?_
    · rintro (h | h)
      · exact .inl (Nat.le_of_succ_le h)
      · exact .inr h
    · refine held_congr (m := m) (hclaimed v index).mpr (Nat.le_refl _) ?_
      -- the window writers leave is the only one that joins those in between
      rcases Nat.lt_succ_iff_lt_or_eq.mp h4 with hlt | rfl
      · exact hok.between h3 hlt
      · exact .inl (hall index hi)

/-- The window the read counter leaves is the last one of the next lap. -/
theorem QuietInv.nextLap (inv : QuietInv c strict m none) (hfit : EpochsFit c m)
    (hnone : ∀ index < c.blocksPerWindow, ¬ Claimed c m m.globalReadWindow index)
    (hi : index < c.blocksPerWindow) (hheader : m'.header = m.header)
    (htouched : m'.touchedSet = m.touchedSet)
    (hunit : ∀ j < c.unitsPerWindow, m'.unit c m.globalReadWindow j = m.unit c m.globalReadWindow j)
    (hwrite : m'.globalWriteWindow ≤ m.globalReadWindow + c.windowCount) :
    BlockOk c strict m' none (m.globalReadWindow + c.windowCount) index := by
  have hok := inv.blocks m.globalReadWindow (Nat.le_refl _)
    (Nat.lt_add_of_pos_right c.windowCount_pos) index hi
  obtain ⟨hempty, hoffer⟩ := hok.free (hnone index hi)
  -- the same slots, one epoch later: the drained word is the fresh word of the next lap
  have hnext : c.windowToEpoch m.globalReadWindow + 1 < 2 ^ 32 := by
    have := c.windowToEpoch_mono inv.windows.order.le
    have := hfit.epoch
    omega
  have hdrained := inv.drained hfit (Nat.le_refl _) inv.windows.order hnone _ (div_bitCount_lt c hi)
  have hzero : getBits (m'.unit c (m.globalReadWindow + c.windowCount) (index / c.bitCount)) = 0 := by
    have hsame := hunit _ (div_bitCount_lt c hi)
    rw [Shared.unit, Config.unitAt] at hsame ⊢
    rw [c.windowToIndex_add_windowCount, hsame, hdrained, getBits_makeUnit hnext]
  have hblock : blockAt c (m.globalReadWindow + c.windowCount) index =
      blockAt c m.globalReadWindow index := by
    rw [blockAt, c.windowToIndex_add_windowCount]
  have hread : getReadIndex (m.header (blockAt c m.globalReadWindow index)) = 0 := by
    have := (inv.indices (blockAt c m.globalReadWindow index)).le
    omega
  refine ⟨fun hc => absurd hzero hc.bits_ne_zero, fun _ => ?_, ?_, fun _ => ?_, fun _ h => ?_⟩
  · rw [hblock, hheader, Touched, Config.unitAt, c.windowToIndex_add_windowCount, htouched]
    exact ⟨hempty, hoffer⟩
  · rw [hblock, hheader, c.windowToEpoch_add_windowCount]
    exact Nat.le_succ_of_le hok.stamp
  · rw [hblock, hheader, c.windowToEpoch_add_windowCount]
    exact ⟨hok.stamp, hread⟩
  · omega

/-- **Readers leave a window without a claimed block.** -/
theorem QuietInv.moveRead (inv : QuietInv c strict m none) (hfit : EpochsFit c m)
    (hbehind : m.globalReadWindow + 2 ≤ m.globalWriteWindow)
    (hnone : ∀ index < c.blocksPerWindow, ¬ Claimed c m m.globalReadWindow index) :
    QuietInv c strict { m with globalReadWindow := m.globalReadWindow + 1 } none ∧
      Keeps c m { m with globalReadWindow := m.globalReadWindow + 1 } := by
  have hgap := inv.windows.gap
  have hdrained := inv.drained hfit (Nat.le_refl _) inv.windows.order hnone
  have hclaimed : ∀ v index, Claimed c { m with globalReadWindow := m.globalReadWindow + 1 } v
      index ↔ Claimed c m v index := fun v index => claimed_of_filledSet (m := m) rfl
  refine ⟨⟨?_, inv.current, inv.words, inv.indices, inv.cells, inv.touched, inv.dummy,
    fun v h1 h2 index hi => ?_⟩, keeps_of_claimed (Nat.le_succ _) (Nat.le_refl _)
      (fun v index _ => hclaimed v index) rfl rfl⟩
  · have hstep : WindowStep c m { m with globalReadWindow := m.globalReadWindow + 1 }
        Handle.fresh Handle.fresh := .moveRead hbehind (fun j hj => .inr (hdrained j hj)) rfl
    exact (hstep.inv hfit inv.windows).1
  · have h1' : m.globalReadWindow + 1 ≤ v := h1
    have h2' : v < m.globalReadWindow + 1 + c.windowCount := h2
    -- one window joins the range: the one that has just been left, in its next lap
    by_cases hlast : v < m.globalReadWindow + c.windowCount
    · have hok := inv.blocks v (by omega) hlast index hi
      refine hok.congr rfl (hclaimed v index) id id ?_ fun h3 h4 => ?_
      · rintro (h | h)
        · exact .inl h
        · have h' : m.globalReadWindow + 1 + 2 ≤ v := h
          exact .inr (by omega)
      · exact held_congr (m := m) (hclaimed v index).mpr (Nat.le_refl _)
          (hok.between (Nat.lt_of_succ_lt h3) h4)
    · obtain rfl : v = m.globalReadWindow + c.windowCount := by omega
      exact inv.nextLap hfit hnone hi rfl rfl (fun _ _ => rfl) hgap.le

/-- `set_epoch_if_empty` on the write window, and both counters moved on. -/
def Shared.forceMove (c : Config) (m : Shared T) : Shared T :=
  { m with
    filledSet := setEpochIfEmpty c (c.windowToIndex m.globalWriteWindow)
      (c.windowToEpoch m.globalWriteWindow) m.filledSet
    globalReadWindow := m.globalReadWindow + 1
    globalWriteWindow := m.globalWriteWindow + 1 }

omit [Zero T] in
theorem forceMove_unit (hj : index < c.unitsPerWindow) :
    (m.forceMove c).unit c v index =
      if c.windowToIndex v = c.windowToIndex m.globalWriteWindow then
        bumpIfEmpty (c.windowToEpoch m.globalWriteWindow) (m.unit c v index)
      else m.unit c v index := by
  show setEpochIfEmpty c _ _ m.filledSet (c.unitAt v index) = _
  rw [setEpochIfEmpty_apply]
  refine if_congr ⟨fun h => ?_, fun h => ?_⟩ rfl rfl
  · obtain ⟨k, hk⟩ := Nat.exists_eq_add_of_le h.1
    have hlt : k < c.unitsPerWindow := by omega
    exact (unit_inj c hj hlt hk).1
  · rw [Config.unitAt, h]
    exact ⟨Nat.le_add_right _ _, by omega⟩

theorem claimed_forceMove (inv : QuietInv c strict m hole) (hfit : EpochsFit c m) :
    ∀ v index, index < c.blocksPerWindow →
      (Claimed c (m.forceMove c) v index ↔ Claimed c m v index) := by
  intro v index hi
  have he := inv.windows.epoch_lt hfit (v := m.globalWriteWindow) (.inl (Nat.le_refl _))
  have hunit := forceMove_unit (m := m) (v := v) (div_bitCount_lt c hi)
  by_cases hbumped : c.windowToIndex v = c.windowToIndex m.globalWriteWindow ∧
      m.unit c v (index / c.bitCount) = makeUnit (c.windowToEpoch m.globalWriteWindow)
  · rw [if_pos hbumped.1, bumpIfEmpty, if_pos hbumped.2] at hunit
    refine iff_of_false (fun h => h.bits_ne_zero ?_) fun h => h.bits_ne_zero ?_
    · rw [hunit, getBits_makeUnit hfit.epoch]
    · rw [hbumped.2, getBits_makeUnit he]
  · have hsame : (m.forceMove c).unit c v (index / c.bitCount) =
        m.unit c v (index / c.bitCount) := by
      rw [hunit]
      split
      · rename_i hw
        rw [bumpIfEmpty, if_neg fun heq => hbumped ⟨hw, heq⟩]
      · rfl
    constructor
    · rintro ⟨h1, h2⟩
      rw [hsame] at h1 h2
      exact ⟨h1, h2⟩
    · rintro ⟨h1, h2⟩
      rw [← hsame] at h1 h2
      exact ⟨h1, h2⟩

theorem forceMove_windows (inv : QuietInv c strict m none) (hfit : EpochsFit c m)
    (hnext : m.globalWriteWindow = m.globalReadWindow + 1)
    (hdrained : ∀ j < c.unitsPerWindow,
      m.unit c m.globalReadWindow j = makeUnit (c.windowToEpoch m.globalReadWindow + 1)) :
    WindowInv c (m.forceMove c) := by
  have hfour := c.four_le_windowCount
  have he := inv.windows.epoch_lt hfit (v := m.globalWriteWindow) (.inl (Nat.le_refl _))
  have hother : ∀ v, m.globalReadWindow ≤ v → v < m.globalReadWindow + c.windowCount →
      v ≠ m.globalWriteWindow → ∀ j < c.unitsPerWindow,
        (m.forceMove c).unit c v j = m.unit c v j := by
    intro v h1 h2 hne j hj
    rw [forceMove_unit hj, if_neg]
    intro hw
    rcases Nat.le_total v m.globalWriteWindow with hle | hle
    · exact hne (c.eq_of_windowToIndex_eq hw hle (by omega))
    · exact hne (c.eq_of_windowToIndex_eq hw.symm hle (by omega)).symm
  -- `set_epoch_if_empty` goes over the units of the write window only
  have hself : ∀ j < c.unitsPerWindow, (m.forceMove c).unit c m.globalWriteWindow j =
      bumpIfEmpty (c.windowToEpoch m.globalWriteWindow) (m.unit c m.globalWriteWindow j) := by
    intro j hj
    rw [forceMove_unit hj, if_pos rfl]
  have hr : (m.forceMove c).globalReadWindow = m.globalReadWindow + 1 := rfl
  have hw : (m.forceMove c).globalWriteWindow = m.globalWriteWindow + 1 := rfl
  refine ⟨by omega, by omega, fun u => ?_, fun v h1 h2 j hj => ?_, fun v h1 h2 j hj => ?_,
    fun v h1 h2 j hj => ?_⟩
  · show UnitOk _ (setEpochIfEmpty c _ _ m.filledSet u)
    rw [setEpochIfEmpty_apply]
    split
    · unfold bumpIfEmpty
      split
      · exact unitOk_makeUnit _ _
      · exact inv.windows.words u
    · exact inv.windows.words u
  · rw [hr] at h1
    rw [hw] at h2
    rcases Nat.lt_or_ge m.globalWriteWindow v with hlt | hge
    · rw [hother v (by omega) (by omega) (by omega) j hj,
        inv.windows.ahead v hlt (by omega) j hj]
      exact .inl (getEpoch_makeUnit (inv.windows.epoch_lt hfit (.inr (by omega))))
    · obtain rfl : v = m.globalWriteWindow := by omega
      rw [hself j hj, bumpIfEmpty]
      split
      · exact .inr rfl
      · exact inv.windows.active _ (by omega) (Nat.le_refl _) j hj
  · rw [hr] at h1
    rw [hw] at h2
    obtain rfl : v = m.globalWriteWindow := by omega
    rw [hself j hj, bumpIfEmpty]
    split
    · intro heq
      -- a bumped word carries the next epoch and cannot be the fresh one
      have := congrArg AtomicBitset.getEpoch heq
      rw [getEpoch_makeUnit hfit.epoch, getEpoch_makeUnit he] at this
      omega
    · rename_i hne
      exact hne
  · rw [hw] at h1
    rw [hr] at h2
    by_cases hlast : v < m.globalReadWindow + c.windowCount
    · rw [hother v (by omega) hlast (by omega) j hj]
      exact inv.windows.ahead v (by omega) hlast j hj
    · obtain rfl : v = m.globalReadWindow + c.windowCount := by omega
      have hsame : (m.forceMove c).unit c (m.globalReadWindow + c.windowCount) j =
          (m.forceMove c).unit c m.globalReadWindow j := by
        rw [Shared.unit, Shared.unit, Config.unitAt, Config.unitAt, c.windowToIndex_add_windowCount]
      rw [hsame, hother _ (Nat.le_refl _) (by omega) (by omega) j hj, hdrained j hj,
        c.windowToEpoch_add_windowCount]

/-- **A reader that finds nothing in its window moves on to the window writers are in**, which they
have to leave. -/
theorem QuietInv.forceMove (inv : QuietInv c strict m none) (hfit : EpochsFit c m)
    (hnext : m.globalWriteWindow = m.globalReadWindow + 1)
    (hnone : ∀ index < c.blocksPerWindow, ¬ Claimed c m m.globalReadWindow index) :
    QuietInv c strict (m.forceMove c) none ∧ Keeps c m (m.forceMove c) := by
  have hfour := c.four_le_windowCount
  have hclaimed := claimed_forceMove inv hfit
  have hr : (m.forceMove c).globalReadWindow = m.globalReadWindow + 1 := rfl
  have hw : (m.forceMove c).globalWriteWindow = m.globalWriteWindow + 1 := rfl
  have hwindows := forceMove_windows inv hfit hnext
    (inv.drained hfit (Nat.le_refl _) inv.windows.order hnone)
  have hother : ∀ v, m.globalReadWindow ≤ v → v < m.globalReadWindow + c.windowCount →
      v ≠ m.globalWriteWindow → c.windowToIndex v ≠ c.windowToIndex m.globalWriteWindow := by
    intro v h1 h2 hne heq
    rcases Nat.le_total v m.globalWriteWindow with hle | hle
    · exact hne (c.eq_of_windowToIndex_eq heq hle (by omega))
    · exact hne (c.eq_of_windowToIndex_eq heq.symm hle (by omega)).symm
  refine ⟨⟨hwindows, fun j hj => ?_, inv.words, inv.indices, inv.cells, inv.touched, inv.dummy,
    fun v h1 h2 index hi => ?_⟩, keeps_of_claimed (Nat.le_succ _) (Nat.le_succ _) hclaimed rfl rfl⟩
  · rw [hw, forceMove_unit hj, if_neg (hother _ (by omega) (by omega) (by omega)),
      inv.windows.ahead _ (Nat.lt_succ_self _) (by omega) j hj,
      getEpoch_makeUnit (inv.windows.epoch_lt hfit (.inr (by omega)))]
  · rw [hr] at h1 h2
    by_cases hlast : v < m.globalReadWindow + c.windowCount
    · have hok := inv.blocks v (by omega) hlast index hi
      refine hok.congr rfl (hclaimed v index hi) id id ?_ fun h3 h4 => ?_
      · rintro (h | h)
        · exact .inl (Nat.le_of_succ_le h)
        · rw [hr] at h
          exact .inr (by omega)
      · -- no window lies between the two counters afterwards
        rw [hr] at h3
        rw [hw] at h4
        omega
    · obtain rfl : v = m.globalReadWindow + c.windowCount := by omega
      refine inv.nextLap hfit hnone hi rfl rfl (fun j hj => ?_) (by omega)
      rw [forceMove_unit hj, if_neg (hother _ (Nat.le_refl _) (by omega) (by omega))]

end Moves

/-! ## §6 — handles between two calls -/

/-- What a handle remembers: a block it has claimed for writing, and one it was given to read. -/
structure CacheOk (c : Config) (m : Shared T) (hd : Handle T) : Prop where
  write : hd.writeBlock = .dummy ∧ hd.writeEpoch = 0 ∨
    ∃ v ≤ m.globalWriteWindow, ∃ index < c.blocksPerWindow, hd.writeBlock = blockAt c v index ∧
      hd.writeEpoch = c.windowToEpoch v ∧ Held c m v index
  read : hd.readBlock = .dummy ∧ hd.readEpoch = 0 ∨
    ∃ v, v < m.globalWriteWindow ∧ v ≤ m.globalReadWindow + 1 ∧ ∃ index < c.blocksPerWindow,
      hd.readBlock = blockAt c v index ∧ hd.readEpoch = c.windowToEpoch v ∧
        hd.readWindowIndex = c.windowToIndex v ∧ Given c m v index
  window : hd.readWindow < m.globalWriteWindow

section Handles

variable {c : Config} {m m' : Shared T} {hd : Handle T}

theorem CacheOk.mono (h : CacheOk c m hd) (hkeeps : Keeps c m m') : CacheOk c m' hd := by
  have hr := hkeeps.read
  have hw := hkeeps.write
  refine ⟨h.write.imp_right ?_, h.read.imp_right ?_, by have := h.window; omega⟩
  · rintro ⟨v, hv, index, hi, hb, he, hheld⟩
    exact ⟨v, by omega, index, hi, hb, he, hkeeps.held v hv index hi hheld⟩
  · rintro ⟨v, hv, hv', index, hi, hb, he, hx, hgiven⟩
    exact ⟨v, by omega, by omega, index, hi, hb, he, hx, hkeeps.given v hv.le index hi hgiven⟩

variable [Zero T]

theorem QuietInv.fresh (c : Config) : QuietInv c strict (Shared.fresh c : Shared T) none := by
  have hfour := c.four_le_windowCount
  have hzero : ∀ v < c.windowCount, c.windowToEpoch v = 0 := fun v hv => by
    rw [c.windowToEpoch_eq, Nat.div_eq_of_lt hv]
  have hbits : ∀ u, getBits ((Shared.fresh c : Shared T).filledSet u) = 0 := by
    intro u
    rw [fresh_filledSet]
    split
    · exact getBits_makeUnit (by norm_num)
    · rfl
  have hempty : ∀ b, getWriteIndex ((Shared.fresh c : Shared T).header b) = 0 ∧
      getReadIndex ((Shared.fresh c : Shared T).header b) = 0 := fun b => (fresh_indices c b).symm
  refine ⟨WindowInv.fresh c, fun j hj => ?_, (EmptyInv.fresh (n := 0) c).blocks.words, fun b => ?_,
    fun b i => ?_, fun u => Nat.two_pow_pos _, dummyOk_fresh c, fun v h1 h2 index hi => ?_⟩
  · have hw : (Shared.fresh c : Shared T).globalWriteWindow = 1 := rfl
    rw [hw, hzero 1 (by omega), Shared.unit, Config.unitAt, c.windowToIndex_eq,
      Nat.mod_eq_of_lt (by omega), fresh_filledSet, if_neg (by omega)]
    rfl
  · exact ⟨.inr ⟨(hempty b).2, (hempty b).1⟩, by rw [(hempty b).1]; exact Nat.zero_le _⟩
  · refine iff_of_false (fun h => h rfl) fun h => ?_
    have := h.2
    rw [(hempty b).1] at this
    exact Nat.not_lt_zero _ this
  · have hr : (Shared.fresh c : Shared T).globalReadWindow = 0 := rfl
    have hw : (Shared.fresh c : Shared T).globalWriteWindow = 1 := rfl
    rw [hr, Nat.zero_add] at h2
    have hstamp : getEpoch ((Shared.fresh c : Shared T).header (blockAt c v index)) ≤
        if v = 0 then 1 else 0 := by
      rw [blockAt, getBlock, fresh_header_slot, c.windowToIndex_eq, Nat.mod_eq_of_lt h2]
      -- the constructor has retired the first window
      by_cases hv : v = 0
      · rw [if_pos hv]
        split
        · have hone : getEpoch (epochToHeader (0 + 1)) = 0 + 1 := getEpoch_stamped (by norm_num)
          exact hone.le
        · exact Nat.zero_le _
      · have hle : c.blocksPerWindow ≤ v * c.blocksPerWindow :=
          Nat.le_mul_of_pos_left _ (Nat.pos_of_ne_zero hv)
        rw [if_neg hv, if_neg (by omega)]
        exact Nat.zero_le _
    refine ⟨fun hc => absurd (hbits _) hc.bits_ne_zero, fun _ => ⟨(hempty _).1, ?_⟩, ?_,
      fun hf => ⟨?_, (hempty _).2⟩, fun h3 h4 => ?_⟩
    · show ¬ (Nat.testBit 0 _ = true)
      rw [Nat.zero_testBit]
      decide
    · refine hstamp.trans ?_
      split <;> omega
    · refine hstamp.trans ?_
      have hv : v ≠ 0 := by
        rintro rfl
        rcases hf with h | h
        · rw [hw] at h
          omega
        · rw [hr] at h
          omega
      rw [if_neg hv]
      exact Nat.zero_le _
    · rw [hr] at h3
      rw [hw] at h4
      omega

theorem CacheOk.fresh (c : Config) : CacheOk c (Shared.fresh c : Shared T) Handle.fresh :=
  ⟨.inl ⟨rfl, rfl⟩, .inl ⟨rfl, rfl⟩, Nat.zero_lt_one⟩

end Handles

end RelaxedConcurrentFifo.BlockBasedQueue
