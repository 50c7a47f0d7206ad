/-
# RelaxedConcurrentFifo.BlockBasedQueue.Protocol — windows and epochs, in any interleaving

The two window counters and the epochs of the `filled_set` units follow a protocol of their own.
`WindowInv` is its invariant: readers stay behind writers and writers less than a lap ahead of
readers; between the two counters a unit is at its window's epoch or has been drained to the next
one; behind the write counter no unit is left untouched; ahead of it all are.

Writers, readers and force-moving readers act on scans that are out of date when they act.
`WindowFacts` says, program point by program point, what such a scan still guarantees, in terms that
no later step of anybody can undo (`Grows`): a unit once seen full, bumped or drained has left its
first state for good. `WindowStep` lists what a step can do to units and counters.
-/
import RelaxedConcurrentFifo.BlockBasedQueue.Safety

namespace RelaxedConcurrentFifo.BlockBasedQueue

open RelaxedConcurrentFifo.AtomicBitset (UnitOk makeUnit getBits claimStart claimRetry claimDesired
  resetDesired getEpoch_makeUnit getBits_makeUnit unitOk_makeUnit unitOk_makeUnit_or
  getEpoch_makeUnit_or getBits_makeUnit_or clearedBits clearedBits_lt resetDesired_eq
  claimDesired_zero claimStart_some claimRetry_some claimStart_zero_none claimRetry_zero_none
  claimStart_one_none)

open RelaxedConcurrentFifo.Lib.Runs
open RelaxedConcurrentFifo.Lib.Words (sub64)

variable {T : Type}

/-! ## §1 — the invariant -/

/-- The `j`-th unit of the physical window that `window` uses. -/
def Config.unitAt (c : Config) (window j : Nat) : Nat := c.windowToIndex window * c.unitsPerWindow + j

/-- The word of that unit. -/
def Shared.unit (c : Config) (m : Shared T) (window j : Nat) : Nat := m.filledSet (c.unitAt window j)

/-- The unit of `v` has left its first state: it was claimed, drained or bumped, or the read window
has passed it. -/
def NotFresh (c : Config) (m : Shared T) (v j : Nat) : Prop :=
  v < m.globalReadWindow ∨ m.unit c v j ≠ makeUnit (c.windowToEpoch v)

/-- The unit of `v` is through: it was drained or bumped, or the read window has passed it. -/
def Drained (c : Config) (m : Shared T) (v j : Nat) : Prop :=
  v < m.globalReadWindow ∨ m.unit c v j = makeUnit (c.windowToEpoch v + 1)

/-- No epoch in use is too large for its 32 bits, and the window counters have not used up their
64. -/
structure EpochsFit (c : Config) (m : Shared T) : Prop where
  epoch : c.windowToEpoch m.globalWriteWindow + 1 < 2 ^ 32
  window : m.globalWriteWindow + 1 < 2 ^ 64

instance (c : Config) (m : Shared T) : Decidable (EpochsFit c m) :=
  decidable_of_iff (c.windowToEpoch m.globalWriteWindow + 1 < 2 ^ 32 ∧
    m.globalWriteWindow + 1 < 2 ^ 64) ⟨fun h => ⟨h.1, h.2⟩, fun h => ⟨h.epoch, h.window⟩⟩

structure WindowInv (c : Config) (m : Shared T) : Prop where
  order : m.globalReadWindow < m.globalWriteWindow
  gap : m.globalWriteWindow < m.globalReadWindow + c.windowCount
  words : ∀ u, UnitOk c.bitCount (m.filledSet u)
  active : ∀ v, m.globalReadWindow ≤ v → v ≤ m.globalWriteWindow → ∀ j < c.unitsPerWindow,
    AtomicBitset.getEpoch (m.unit c v j) = c.windowToEpoch v ∨
      m.unit c v j = makeUnit (c.windowToEpoch v + 1)
  opened : ∀ v, m.globalReadWindow ≤ v → v < m.globalWriteWindow → ∀ j < c.unitsPerWindow,
    m.unit c v j ≠ makeUnit (c.windowToEpoch v)
  ahead : ∀ v, m.globalWriteWindow < v → v < m.globalReadWindow + c.windowCount →
    ∀ j < c.unitsPerWindow, m.unit c v j = makeUnit (c.windowToEpoch v)

namespace WindowInv

variable {c : Config} {m : Shared T}

theorem fresh [Zero T] (c : Config) : WindowInv c (Shared.fresh c : Shared T) := by
  -- the constructor has moved the first window on to the epoch after its own
  have hfirst : ∀ j < c.unitsPerWindow,
      (Shared.fresh c : Shared T).unit c 0 j = makeUnit 1 := fun j hj => by
    rw [Shared.unit, Config.unitAt, c.windowToIndex_eq, Nat.zero_mod, Nat.zero_mul, Nat.zero_add,
      fresh_filledSet, if_pos hj]
  have hother : ∀ v, 0 < v → v < c.windowCount → ∀ j,
      (Shared.fresh c : Shared T).unit c v j = 0 ∧ c.windowToEpoch v = 0 := fun v h0 hv j => by
    refine ⟨?_, by rw [c.windowToEpoch_eq, Nat.div_eq_of_lt hv]⟩
    have hle : c.unitsPerWindow ≤ v * c.unitsPerWindow := Nat.le_mul_of_pos_left _ h0
    rw [Shared.unit, Config.unitAt, c.windowToIndex_eq, Nat.mod_eq_of_lt hv, fresh_filledSet,
      if_neg (by omega)]
  have hzero : c.windowToEpoch 0 = 0 := by rw [c.windowToEpoch_eq, Nat.zero_div]
  have hfour := c.four_le_windowCount
  have hr : (Shared.fresh c : Shared T).globalReadWindow = 0 := rfl
  have hw : (Shared.fresh c : Shared T).globalWriteWindow = 1 := rfl
  refine ⟨by omega, by omega, fun u => ?_, fun v h1 h2 j hj => ?_, fun v h1 h2 j hj => ?_,
    fun v h1 h2 j hj => ?_⟩
  · rw [fresh_filledSet]
    split
    · exact unitOk_makeUnit _ 1
    · exact unitOk_makeUnit _ 0
  · rcases Nat.eq_zero_or_pos v with rfl | hpos
    · rw [hfirst j hj, hzero]
      exact .inr rfl
    · obtain ⟨hunit, hepoch⟩ := hother v hpos (by omega) j
      rw [hunit, hepoch]
      exact .inl rfl
  · obtain rfl : v = 0 := by omega
    rw [hfirst j hj, hzero]
    decide
  · obtain ⟨hunit, hepoch⟩ := hother v (by omega) (by omega) j
    rw [hunit, hepoch]
    rfl

/-- Up to the write window and one lap from the read window, epochs fit. -/
theorem epoch_lt (inv : WindowInv c m) (hfit : EpochsFit c m) {v : Nat}
    (hv : v ≤ m.globalWriteWindow ∨ v < m.globalReadWindow + c.windowCount) :
    c.windowToEpoch v < 2 ^ 32 := by
  have hle : v ≤ m.globalWriteWindow + c.windowCount := by
    have := inv.order
    omega
  have hmono := c.windowToEpoch_mono hle
  rw [c.windowToEpoch_add_windowCount] at hmono
  have := hfit.epoch
  omega

/-- Every physical window is in the hands of exactly one window of the lap. -/
theorem exists_current (m : Shared T) (v : Nat) (hv : v < m.globalReadWindow + c.windowCount) :
    ∃ v', m.globalReadWindow ≤ v' ∧ v' < m.globalReadWindow + c.windowCount ∧
      c.windowToIndex v' = c.windowToIndex v ∧
      (v' = v ∨ (v < m.globalReadWindow ∧ c.windowToEpoch v < c.windowToEpoch v')) := by
  have hpos := c.windowCount_pos
  -- go up lap by lap from `v` until the read window is reached
  generalize hd : m.globalReadWindow - v = d
  induction d using Nat.strong_induction_on generalizing v with
  | _ d ih =>
      by_cases hle : m.globalReadWindow ≤ v
      · exact ⟨v, hle, hv, rfl, .inl rfl⟩
      · obtain ⟨v', h1, h2, h3, h4⟩ := ih (m.globalReadWindow - (v + c.windowCount)) (by omega)
          (v + c.windowCount) (by omega) rfl
        rw [c.windowToIndex_add_windowCount] at h3
        refine ⟨v', h1, h2, h3, .inr ⟨by omega, ?_⟩⟩
        have hlap := c.windowToEpoch_add_windowCount v
        rcases h4 with rfl | ⟨_, hlt⟩ <;> omega

/-- A unit that is at the epoch of a window is in that window's lap. -/
theorem le_of_epoch_eq (inv : WindowInv c m) (hfit : EpochsFit c m) {v j : Nat}
    (hv : v ≤ m.globalWriteWindow) (hj : j < c.unitsPerWindow)
    (he : AtomicBitset.getEpoch (m.unit c v j) = c.windowToEpoch v) : m.globalReadWindow ≤ v := by
  obtain ⟨v', h1, h2, h3, h4⟩ := exists_current (c := c) m v (by have := inv.gap; omega)
  rcases h4 with rfl | ⟨_, hlt⟩
  · exact h1
  · exfalso
    have hsame : m.unit c v j = m.unit c v' j := by rw [Shared.unit, Shared.unit, Config.unitAt,
      Config.unitAt, h3]
    have hepoch := inv.epoch_lt hfit (v := v') (.inr h2)
    rw [hsame] at he
    by_cases hw : v' ≤ m.globalWriteWindow
    · rcases inv.active v' h1 hw j hj with ha | hb
      · omega
      · have hle := c.windowToEpoch_mono hw
        have := hfit.epoch
        rw [hb, getEpoch_makeUnit (by omega)] at he
        omega
    · rw [inv.ahead v' (by omega) h2 j hj, getEpoch_makeUnit hepoch] at he
      omega

/-- Two windows of one lap that share a unit are the same, and so are their units. -/
theorem unitAt_inj {v v' j j' : Nat} (hj : j < c.unitsPerWindow) (hj' : j' < c.unitsPerWindow)
    (hv : m.globalReadWindow ≤ v) (hv' : v < m.globalReadWindow + c.windowCount)
    (hu : m.globalReadWindow ≤ v') (hu' : v' < m.globalReadWindow + c.windowCount)
    (h : c.unitAt v j = c.unitAt v' j') : v = v' ∧ j = j' := by
  obtain ⟨hi, hj⟩ := unit_inj c hj hj' h
  refine ⟨?_, hj⟩
  rcases Nat.le_total v v' with hle | hle
  · exact c.eq_of_windowToIndex_eq hi hle (by omega)
  · exact (c.eq_of_windowToIndex_eq hi.symm hle (by omega)).symm

end WindowInv

/-! ## §2 — what a step does to units and counters -/

/-- What a claim, a reset or a bump leaves in a unit of window `v`. -/
structure Rewritten (c : Config) (v word : Nat) : Prop where
  ok : UnitOk c.bitCount word
  cases : word = makeUnit (c.windowToEpoch v + 1) ∨
    (AtomicBitset.getEpoch word = c.windowToEpoch v ∧ getBits word ≠ 0)

/-- Everything an access can do to the units and the window counters. -/
inductive WindowStep (c : Config) (m m' : Shared T) (hd hd' : Handle T) : Prop where
  | same (hfilled : m'.filledSet = m.filledSet) (hr : m'.globalReadWindow = m.globalReadWindow)
      (hw : m'.globalWriteWindow = m.globalWriteWindow)
  | claim (t : T) (v index : Nat) (hv : v ≤ m.globalWriteWindow) (hindex : index < c.blocksPerWindow)
      (hat : AtomicBitset.getEpoch (m.unit c v (index / c.bitCount)) = c.windowToEpoch v)
      (hpc : hd'.pc = .writeTouch t v index)
      (hm : m' = m.setFilled (c.unitAt v (index / c.bitCount)) (makeUnit (c.windowToEpoch v) |||
        (getBits (m.unit c v (index / c.bitCount)) ||| 1 <<< (index % c.bitCount))))
  | reset (k : AfterReset) (eb v index : Nat) (hv : v < m.globalWriteWindow)
      (hindex : index < c.blocksPerWindow)
      (hat : AtomicBitset.getEpoch (m.unit c v (index / c.bitCount)) = c.windowToEpoch v)
      (hpc : hd.pc = .popResetCas k eb) (hepoch : hd.readEpoch = c.windowToEpoch v)
      (hblock : hd.readBlock = getBlock c (c.windowToIndex v) index)
      (hm : m' = m.setFilled (c.unitAt v (index / c.bitCount))
        (resetDesired (c.windowToEpoch v) (m.unit c v (index / c.bitCount)) (index % c.bitCount)))
  | bump (v j : Nat) (hv : v ≤ m.globalWriteWindow) (hj : j < c.unitsPerWindow)
      (hfresh : m.unit c v j = makeUnit (c.windowToEpoch v))
      (hm : m' = m.setFilled (c.unitAt v j) (makeUnit (c.windowToEpoch v + 1)))
  | moveWrite (hroom : m.globalWriteWindow + 1 < m.globalReadWindow + c.windowCount)
      (hopened : ∀ j < c.unitsPerWindow, NotFresh c m m.globalWriteWindow j)
      (hm : m' = { m with globalWriteWindow := m.globalWriteWindow + 1 })
  | moveRead (hbehind : m.globalReadWindow + 2 ≤ m.globalWriteWindow)
      (hdrained : ∀ j < c.unitsPerWindow, Drained c m m.globalReadWindow j)
      (hm : m' = { m with globalReadWindow := m.globalReadWindow + 1 })

/-- What no step takes back. -/
structure Grows (c : Config) (m m' : Shared T) : Prop where
  read : m.globalReadWindow ≤ m'.globalReadWindow
  write : m.globalWriteWindow ≤ m'.globalWriteWindow
  notFresh : ∀ v ≤ m.globalWriteWindow, ∀ j < c.unitsPerWindow,
    NotFresh c m v j → NotFresh c m' v j
  drained : ∀ v ≤ m.globalWriteWindow, ∀ j < c.unitsPerWindow, Drained c m v j → Drained c m' v j

section WindowStep

variable {c : Config} {m m' : Shared T} {hd hd' : Handle T}

theorem rewritten_claim (hfit : EpochsFit c m) (inv : WindowInv c m) {v j bit : Nat}
    (hv : v ≤ m.globalWriteWindow) (hbit : bit < c.bitCount) :
    Rewritten c v (makeUnit (c.windowToEpoch v) ||| (getBits (m.unit c v j) ||| 1 <<< bit)) := by
  have he := inv.epoch_lt hfit (v := v) (.inl hv)
  have hlt := Lib.Words.or_bit_lt (inv.words (c.unitAt v j)).bits hbit
  have hlt32 : getBits (m.unit c v j) ||| 1 <<< bit < 2 ^ 32 :=
    lt_of_lt_of_le hlt (Nat.pow_le_pow_right (by norm_num) c.bitCount_le)
  refine ⟨unitOk_makeUnit_or c.bitCount_le he hlt, .inr ⟨getEpoch_makeUnit_or he hlt32, ?_⟩⟩
  rw [getBits_makeUnit_or he hlt32]
  intro hzero
  have hset := Lib.Words.testBit_or_bit (getBits (m.unit c v j)) bit bit
  rw [hzero] at hset
  simp at hset

theorem rewritten_reset (hfit : EpochsFit c m) (inv : WindowInv c m) {v j bit : Nat}
    (hv : v ≤ m.globalWriteWindow) (hbit : bit < c.bitCount)
    (hat : AtomicBitset.getEpoch (m.unit c v j) = c.windowToEpoch v) :
    Rewritten c v (resetDesired (c.windowToEpoch v) (m.unit c v j) bit) := by
  have he := inv.epoch_lt hfit (v := v) (.inl hv)
  have hok : UnitOk c.bitCount (m.unit c v j) := inv.words _
  have hlt := clearedBits_lt hok.bits bit
  have hlt32 : clearedBits (getBits (m.unit c v j)) bit < 2 ^ 32 :=
    lt_of_lt_of_le hlt (Nat.pow_le_pow_right (by norm_num) c.bitCount_le)
  rw [resetDesired_eq c.bitCount_le hok hbit, hat]
  split
  · exact ⟨unitOk_makeUnit _ _, .inl rfl⟩
  · rename_i hsome
    refine ⟨unitOk_makeUnit_or c.bitCount_le he hlt, .inr ⟨getEpoch_makeUnit_or he hlt32, ?_⟩⟩
    rw [getBits_makeUnit_or he hlt32]
    exact hsome

theorem setFilled_unit (m : Shared T) (v j u word : Nat) :
    (m.setFilled u word).unit c v j = if c.unitAt v j = u then word else m.unit c v j :=
  Shared.setFilled_filledSet m u _ word

/-- Rewriting a unit that is at its window's epoch keeps the invariant and takes nothing back. -/
theorem WindowInv.setFilled (inv : WindowInv c m) (hfit : EpochsFit c m) {v j word : Nat}
    (hv : v ≤ m.globalWriteWindow) (hj : j < c.unitsPerWindow)
    (hat : AtomicBitset.getEpoch (m.unit c v j) = c.windowToEpoch v)
    (hword : Rewritten c v word) :
    WindowInv c (m.setFilled (c.unitAt v j) word) ∧
      Grows c m (m.setFilled (c.unitAt v j) word) := by
  have hgap := inv.gap
  have hle := inv.le_of_epoch_eq hfit hv hj hat
  have hepoch := inv.epoch_lt hfit (v := v) (.inl hv)
  have hnext : c.windowToEpoch v + 1 < 2 ^ 32 := by
    have := c.windowToEpoch_mono hv
    have := hfit.epoch
    omega
  -- a rewritten word has a bit set or carries the next epoch
  have hne : word ≠ makeUnit (c.windowToEpoch v) := by
    rw [ne_eq, hword.ok.eq_makeUnit_iff hepoch]
    rintro ⟨h1, h2⟩
    rcases hword.cases with heq | ⟨_, hbits⟩
    · rw [heq, getEpoch_makeUnit hnext] at h1
      omega
    · exact hbits h2
  have hsame : ∀ v' j', m.globalReadWindow ≤ v' → v' < m.globalReadWindow + c.windowCount →
      j' < c.unitsPerWindow → c.unitAt v' j' = c.unitAt v j → v' = v ∧ j' = j :=
    fun v' j' h1 h2 hj' h => WindowInv.unitAt_inj (m := m) hj' hj h1 h2 hle (by omega) h
  constructor
  · refine ⟨inv.order, inv.gap, fun u => ?_, fun v' h1 h2 j' hj' => ?_, fun v' h1 h2 j' hj' => ?_,
      fun v' h1 h2 j' hj' => ?_⟩
    · rw [Shared.setFilled_filledSet]
      split
      · exact hword.ok
      · exact inv.words u
    · have h2' : v' ≤ m.globalWriteWindow := h2
      rw [setFilled_unit]
      split
      · rename_i hu
        obtain ⟨rfl, rfl⟩ := hsame v' j' h1 (by omega) hj' hu
        rcases hword.cases with heq | ⟨he, _⟩
        · exact .inr heq
        · exact .inl he
      · exact inv.active v' h1 h2 j' hj'
    · have h2' : v' < m.globalWriteWindow := h2
      rw [setFilled_unit]
      split
      · rename_i hu
        obtain ⟨rfl, rfl⟩ := hsame v' j' h1 (by omega) hj' hu
        exact hne
      · exact inv.opened v' h1 h2 j' hj'
    · have h1' : m.globalWriteWindow < v' := h1
      have := inv.order
      rw [setFilled_unit, if_neg]
      · exact inv.ahead v' h1 h2 j' hj'
      · intro hu
        obtain ⟨rfl, rfl⟩ := hsame v' j' (by omega) h2 hj' hu
        omega
  · refine ⟨le_refl _, le_refl _, fun v' h1 j' hj' hnf => ?_, fun v' h1 j' hj' hdr => ?_⟩
    · by_cases hv' : v' < m.globalReadWindow
      · exact .inl hv'
      · refine .inr ?_
        rw [setFilled_unit]
        split
        · rename_i hu
          obtain ⟨rfl, rfl⟩ := hsame v' j' (by omega) (by omega) hj' hu
          exact hne
        · exact hnf.resolve_left hv'
    · by_cases hv' : v' < m.globalReadWindow
      · exact .inl hv'
      · refine .inr ?_
        rw [setFilled_unit, if_neg]
        · exact hdr.resolve_left hv'
        · intro hu
          obtain ⟨rfl, rfl⟩ := hsame v' j' (by omega) (by omega) hj' hu
          -- a drained unit carries the next epoch, so it is not the one rewritten
          rw [hdr.resolve_left hv', getEpoch_makeUnit hnext] at hat
          omega

/-- **Every step keeps the window invariant and takes nothing back.** -/
theorem WindowStep.inv (hstep : WindowStep c m m' hd hd') (hfit : EpochsFit c m)
    (inv : WindowInv c m) : WindowInv c m' ∧ Grows c m m' := by
  have horder := inv.order
  have hgap := inv.gap
  cases hstep with
  | same hfilled hr hw =>
      obtain ⟨r, w, ts, fs, header, cell, committed, returned⟩ := m
      obtain ⟨r', w', ts', fs', header', cell', committed', returned'⟩ := m'
      dsimp only at hfilled hr hw
      subst hfilled hr hw
      exact ⟨⟨inv.order, inv.gap, inv.words, inv.active, inv.opened, inv.ahead⟩,
        ⟨le_refl _, le_refl _, fun v _ j _ h => h, fun v _ j _ h => h⟩⟩
  | claim t v index hv hindex hat hpc hm =>
      rw [hm]
      exact inv.setFilled hfit hv (div_bitCount_lt c hindex) hat
        (rewritten_claim hfit inv hv (Nat.mod_lt _ c.bitCount_pos))
  | reset k eb v index hv hindex hat hpc hepoch hblock hm =>
      rw [hm]
      exact inv.setFilled hfit (Nat.le_of_lt hv) (div_bitCount_lt c hindex) hat
        (rewritten_reset hfit inv (Nat.le_of_lt hv) (Nat.mod_lt _ c.bitCount_pos) hat)
  | bump v j hv hj hfresh hm =>
      have hat : AtomicBitset.getEpoch (m.unit c v j) = c.windowToEpoch v := by
        rw [hfresh, getEpoch_makeUnit (inv.epoch_lt hfit (.inl hv))]
      rw [hm]
      exact inv.setFilled hfit hv hj hat ⟨unitOk_makeUnit _ _, .inl rfl⟩
  | moveWrite hroom hopened hm =>
      subst hm
      refine ⟨⟨Nat.lt_succ_of_lt inv.order, hroom, inv.words, fun v h1 h2 j hj => ?_,
        fun v h1 h2 j hj => ?_, fun v h1 h2 j hj => ?_⟩,
        ⟨le_refl _, Nat.le_succ _, fun v _ j _ h => h, fun v _ j _ h => h⟩⟩
      · rcases Nat.lt_or_ge m.globalWriteWindow v with hlt | hge
        · -- the window that writers enter was ahead of them: its units are fresh
          have hunit := inv.ahead v hlt (lt_of_le_of_lt h2 hroom) j hj
          refine .inl ?_
          show AtomicBitset.getEpoch (m.unit c v j) = _
          rw [hunit, getEpoch_makeUnit (inv.epoch_lt hfit (.inr (lt_of_le_of_lt h2 hroom)))]
        · exact inv.active v h1 hge j hj
      · rcases Nat.lt_or_ge v m.globalWriteWindow with hlt | hge
        · exact inv.opened v h1 hlt j hj
        · obtain rfl : v = m.globalWriteWindow := Nat.le_antisymm (Nat.lt_succ_iff.mp h2) hge
          exact (hopened j hj).resolve_left (by omega)
      · exact inv.ahead v (Nat.lt_of_succ_lt h1) h2 j hj
  | moveRead hbehind hdrained hm =>
      subst hm
      refine ⟨⟨hbehind, by show m.globalWriteWindow < m.globalReadWindow + 1 + _; omega, inv.words,
        fun v h1 h2 j hj => inv.active v (Nat.le_of_succ_le h1) h2 j hj,
        fun v h1 h2 j hj => inv.opened v (Nat.le_of_succ_le h1) h2 j hj, fun v h1 h2 j hj => ?_⟩,
        ⟨Nat.le_succ _, le_refl _, fun v _ j _ h => h.imp_left Nat.lt_succ_of_lt,
          fun v _ j _ h => h.imp_left Nat.lt_succ_of_lt⟩⟩
      have h2' : v < m.globalReadWindow + 1 + c.windowCount := h2
      rcases Nat.lt_or_ge v (m.globalReadWindow + c.windowCount) with hlt | hge
      · exact inv.ahead v h1 hlt j hj
      · -- the new last window of the lap is the drained one
        obtain rfl : v = m.globalReadWindow + c.windowCount := by omega
        have hdr := (hdrained j hj).resolve_left (Nat.lt_irrefl _)
        rw [c.windowToEpoch_add_windowCount, ← hdr]
        show m.filledSet _ = m.filledSet _
        rw [Config.unitAt, Config.unitAt, c.windowToIndex_add_windowCount]

end WindowStep

/-! ## §3 — what a scan still guarantees when it is acted on -/

/-- What the window variables at a program point guarantee. -/
def WindowFacts (c : Config) (m : Shared T) (hd : Handle T) : Pc T → Prop
  | .writeUnit _ v st i =>
      v ≤ m.globalWriteWindow ∧ i < c.unitsPerWindow ∧ ∀ i' < i, NotFresh c m v (c.visited st i')
  | .writeClaim _ v st i eb _ =>
      v ≤ m.globalWriteWindow ∧ i < c.unitsPerWindow ∧ (∀ i' < i, NotFresh c m v (c.visited st i')) ∧
        AtomicBitset.getEpoch eb = c.windowToEpoch v
  | .writeTouch _ v _ => v ≤ m.globalWriteWindow
  | .writeFull _ v => v ≤ m.globalWriteWindow ∧ ∀ j < c.unitsPerWindow, NotFresh c m v j
  | .writeMove _ v =>
      v ≤ m.globalWriteWindow ∧ v + 1 < m.globalReadWindow + c.windowCount ∧
        ∀ j < c.unitsPerWindow, NotFresh c m v j
  | .popResetCas _ eb => AtomicBitset.getEpoch eb = hd.readEpoch
  | .readUnit _ v isAhead _ i | .readClaim _ v isAhead _ i _ _ =>
      v < m.globalWriteWindow ∧ (isAhead = false → v ≤ m.globalReadWindow) ∧ i < c.unitsPerWindow
  | .readWrite _ v => v ≤ m.globalReadWindow
  | .readAny _ v ww st i =>
      v ≤ m.globalReadWindow ∧ v < ww ∧ ww ≤ m.globalWriteWindow ∧ i < c.unitsPerWindow ∧
        ∀ i' < i, Drained c m v (c.visited st i')
  | .readScan _ v ww i =>
      v ≤ m.globalReadWindow ∧ ww = v + 1 ∧ ww ≤ m.globalWriteWindow ∧ i < c.unitsPerWindow ∧
        ∀ j < c.unitsPerWindow, Drained c m v j
  | .readBump _ v ww i =>
      v ≤ m.globalReadWindow ∧ ww = v + 1 ∧ ww ≤ m.globalWriteWindow ∧ i < c.unitsPerWindow ∧
        (∀ j < c.unitsPerWindow, Drained c m v j) ∧ ∀ i' < i, NotFresh c m ww i'
  | .readForce _ v ww =>
      v ≤ m.globalReadWindow ∧ ww = v + 1 ∧ ww ≤ m.globalWriteWindow ∧
        (∀ j < c.unitsPerWindow, Drained c m v j) ∧ ∀ j < c.unitsPerWindow, NotFresh c m ww j
  | .readMove _ v =>
      v ≤ m.globalReadWindow ∧ v + 2 ≤ m.globalWriteWindow ∧
        ∀ j < c.unitsPerWindow, Drained c m v j
  | _ => True

/-- A handle's cached read block belongs to a window behind the write window. -/
structure ReadCache (c : Config) (m : Shared T) (hd : Handle T) : Prop where
  window : hd.readWindow < m.globalWriteWindow
  epoch : ∃ v < m.globalWriteWindow, hd.readEpoch = c.windowToEpoch v ∧
    hd.readWindowIndex = c.windowToIndex v

/-- What a handle may rely on about the windows. -/
structure HandleFacts (c : Config) (m : Shared T) (hd : Handle T) : Prop where
  cache : ReadCache c m hd
  pc : WindowFacts c m hd hd.pc

section Facts

variable {c : Config} {m m' : Shared T} {hd : Handle T}

theorem ReadCache.mono (h : ReadCache c m hd) (hw : m.globalWriteWindow ≤ m'.globalWriteWindow) :
    ReadCache c m' hd := by
  obtain ⟨v, hv, he⟩ := h.epoch
  exact ⟨lt_of_lt_of_le h.window hw, v, lt_of_lt_of_le hv hw, he⟩

/-- Nothing a handle relies on can be undone by a step. -/
theorem WindowFacts.mono (hgrows : Grows c m m') (horder : m.globalReadWindow < m.globalWriteWindow)
    {pc : Pc T} (h : WindowFacts c m hd pc) : WindowFacts c m' hd pc := by
  have hr := hgrows.read
  have hw := hgrows.write
  -- a handle only knows lower bounds of the counters, and units that stay opened or drained
  cases pc with
  | writeUnit t v st i =>
      obtain ⟨h1, h2, h3⟩ := h
      exact ⟨by omega, h2, fun i' hi' => hgrows.notFresh v h1 _ (c.visited_lt _ _) (h3 i' hi')⟩
  | writeClaim t v st i eb bit =>
      obtain ⟨h1, h2, h3, h4⟩ := h
      exact ⟨by omega, h2, fun i' hi' => hgrows.notFresh v h1 _ (c.visited_lt _ _) (h3 i' hi'), h4⟩
  | writeTouch t v bit => exact Nat.le_trans h hw
  | writeFull t v =>
      obtain ⟨h1, h2⟩ := h
      exact ⟨by omega, fun j hj => hgrows.notFresh v h1 j hj (h2 j hj)⟩
  | writeMove t v =>
      obtain ⟨h1, h2, h3⟩ := h
      exact ⟨by omega, by omega, fun j hj => hgrows.notFresh v h1 j hj (h3 j hj)⟩
  | readUnit da v ahead st i =>
      obtain ⟨h1, h2, h3⟩ := h
      exact ⟨by omega, fun ha => Nat.le_trans (h2 ha) hr, h3⟩
  | readClaim da v ahead st i raw bit =>
      obtain ⟨h1, h2, h3⟩ := h
      exact ⟨by omega, fun ha => Nat.le_trans (h2 ha) hr, h3⟩
  | readWrite da v => exact Nat.le_trans h hr
  | readAny da v ww st i =>
      obtain ⟨h1, h2, h3, h4, h5⟩ := h
      exact ⟨by omega, h2, by omega, h4,
        fun i' hi' => hgrows.drained v (by omega) _ (c.visited_lt _ _) (h5 i' hi')⟩
  | readScan da v ww i =>
      obtain ⟨h1, h2, h3, h4, h5⟩ := h
      exact ⟨by omega, h2, by omega, h4, fun j hj => hgrows.drained v (by omega) j hj (h5 j hj)⟩
  | readBump da v ww i =>
      obtain ⟨h1, h2, h3, h4, h5, h6⟩ := h
      exact ⟨by omega, h2, by omega, h4, fun j hj => hgrows.drained v (by omega) j hj (h5 j hj),
        fun i' hi' => hgrows.notFresh ww h3 i' (by omega) (h6 i' hi')⟩
  | readForce da v ww =>
      obtain ⟨h1, h2, h3, h4, h5⟩ := h
      exact ⟨by omega, h2, by omega, fun j hj => hgrows.drained v (by omega) j hj (h4 j hj),
        fun j hj => hgrows.notFresh ww h3 j hj (h5 j hj)⟩
  | readMove da v =>
      obtain ⟨h1, h2, h3⟩ := h
      exact ⟨by omega, by omega, fun j hj => hgrows.drained v (by omega) j hj (h3 j hj)⟩
  | popResetCas k eb => exact h
  | _ => trivial

theorem HandleFacts.mono (hgrows : Grows c m m')
    (horder : m.globalReadWindow < m.globalWriteWindow) (h : HandleFacts c m hd) :
    HandleFacts c m' hd :=
  ⟨h.cache.mono hgrows.write, h.pc.mono hgrows horder⟩

/-- A scan that has visited every unit has seen every unit. -/
theorem forall_units_of_visited {P : Nat → Prop} (st : Nat) {i : Nat} (hi : ¬ i + 1 < c.unitsPerWindow)
    (hpast : ∀ i' < i, P (c.visited st i')) (hnow : P (c.visited st i)) :
    ∀ j < c.unitsPerWindow, P j := by
  intro j hj
  obtain ⟨i', hi', rfl⟩ := c.exists_visited st hj
  rcases Nat.lt_or_ge i' i with hlt | hge
  · exact hpast i' hlt
  · obtain rfl : i' = i := by omega
    exact hnow

theorem forall_lt_succ {P : Nat → Prop} {i : Nat} (hpast : ∀ i' < i, P i') (hnow : P i) :
    ∀ i' < i + 1, P i' := fun i' hi' =>
  (Nat.lt_or_ge i' i).elim (hpast i') fun hge => by
    obtain rfl : i' = i := by omega
    exact hnow

theorem windowFacts_writeNext {t : T} {v st i : Nat} (hv : v ≤ m.globalWriteWindow)
    (hpast : ∀ i' < i, NotFresh c m v (c.visited st i')) (hnow : NotFresh c m v (c.visited st i)) :
    WindowFacts c m hd (writeNext c t v st i) := by
  unfold writeNext
  split
  · rename_i hi
    exact ⟨hv, hi, forall_lt_succ hpast hnow⟩
  · rename_i hi
    exact ⟨hv, forall_units_of_visited st hi hpast hnow⟩

theorem windowFacts_readNext {da ahead : Bool} {v st i : Nat} (hv : v < m.globalWriteWindow)
    (hahead : ahead = false → v ≤ m.globalReadWindow) :
    WindowFacts c m hd (readNext c da v ahead st i) := by
  unfold readNext
  split
  · rename_i hi
    exact ⟨hv, hahead, hi⟩
  · split
    · trivial
    · rename_i ha
      exact hahead (Bool.eq_false_of_not_eq_true ha)

theorem windowFacts_pushCheck {t : T} {ei : Nat} : WindowFacts c m hd (pushCheck c hd t ei) := by
  unfold pushCheck
  split <;> trivial

theorem windowFacts_popCheck {ei : Nat} : WindowFacts c m hd (popCheck hd ei) := by
  unfold popCheck
  split
  · split <;> trivial
  · trivial

theorem windowFacts_afterReset {k : AfterReset} : WindowFacts c m hd (afterReset hd k) := by
  cases k with
  | take index => trivial
  | check ei => exact windowFacts_popCheck

theorem HandleFacts.goto (h : HandleFacts c m hd) {pc : Pc T} (hpc : WindowFacts c m hd pc) :
    HandleFacts c m ({ hd with pc := pc } : Handle T) where
  cache := ⟨h.cache.window, h.cache.epoch⟩
  pc := by
    revert hpc
    cases pc <;> exact id

/-- A handle goes on to a point whose facts hold already. -/
theorem HandleFacts.move (h : HandleFacts c m hd) (hgrows : Grows c m m')
    (horder : m.globalReadWindow < m.globalWriteWindow) {pc : Pc T} (hpc : WindowFacts c m hd pc) :
    HandleFacts c m' ({ hd with pc := pc } : Handle T) :=
  (h.goto hpc).mono hgrows horder

theorem handleFacts_takeReadBlock {v : Nat} (hv : v < m.globalWriteWindow) (block : Nat) :
    HandleFacts c m (takeReadBlock c hd v block) :=
  ⟨⟨hv, v, hv, rfl, rfl⟩, trivial⟩

end Facts

/-! ## §4 — every access is such a step, and leaves the handle with such facts -/

section Access

variable {c : Config} {m : Shared T} {hd : Handle T}

theorem claimUnit_eq_unitAt (v st i : Nat) : claimUnit c v st i = c.unitAt v (c.visited st i) :=
  claimUnit_eq c v st i

/-- A write scan passes a unit only when it has left its first state. -/
theorem notFresh_of_ne {v j : Nat} (h : m.unit c v j ≠ makeUnit (c.windowToEpoch v)) :
    NotFresh c m v j := .inr h

/-- A read scan passes a unit of the read window only when it is through. -/
theorem drained_of_claimStart_none (inv : WindowInv c m) {v j rot : Nat}
    (hv : v ≤ m.globalReadWindow) (hj : j < c.unitsPerWindow) (hrot : rot < c.bitCount)
    (h : claimStart .one c.bitCount (c.windowToEpoch v) rot (m.unit c v j) = none) :
    Drained c m v j := by
  rcases Nat.lt_or_ge v m.globalReadWindow with hlt | hge
  · exact .inl hlt
  · have horder := inv.order
    refine .inr ((inv.active v hge (by omega) j hj).resolve_left fun he => ?_)
    exact inv.opened v hge (by omega) j hj (claimStart_one_none c.bitCount_le hrot (inv.words _) h he)

theorem moveWrite_of_eq {v : Nat} (hv : m.globalWriteWindow = v) (hfit : EpochsFit c m) :
    m.moveWrite v = { m with globalWriteWindow := m.globalWriteWindow + 1 } := by
  rw [Shared.moveWrite, if_pos hv, ← hv, Nat.mod_eq_of_lt hfit.window]

theorem moveWrite_of_ne {v : Nat} (hv : m.globalWriteWindow ≠ v) : m.moveWrite v = m := by
  rw [Shared.moveWrite, if_neg hv]

theorem moveRead_of_eq {v : Nat} (hv : m.globalReadWindow = v) (inv : WindowInv c m)
    (hfit : EpochsFit c m) :
    m.moveRead v = { m with globalReadWindow := m.globalReadWindow + 1 } := by
  have := inv.order
  have := hfit.window
  rw [Shared.moveRead, if_pos hv, ← hv, Nat.mod_eq_of_lt (by omega)]

theorem moveRead_of_ne {v : Nat} (hv : m.globalReadWindow ≠ v) : m.moveRead v = m := by
  rw [Shared.moveRead, if_neg hv]

/-- A write window's distance to the read window, as `claim_new_block_write` computes it. -/
theorem room_of_sub64_ne (inv : WindowInv c m) (hfit : EpochsFit c m) {v : Nat}
    (hv : v ≤ m.globalWriteWindow)
    (h : sub64 ((v + 1) % 2 ^ 64) m.globalReadWindow ≠ c.windowCount) :
    v + 1 < m.globalReadWindow + c.windowCount := by
  have horder := inv.order
  have hgap := inv.gap
  have hlast := hfit.window
  by_contra hge
  apply h
  have hv' : v + 1 = m.globalReadWindow + c.windowCount := by omega
  have hle := c.windowCount_le
  rw [sub64, Nat.mod_eq_of_lt (by omega : v + 1 < 2 ^ 64), hv',
    show m.globalReadWindow + c.windowCount + 2 ^ 64 - m.globalReadWindow =
      c.windowCount + 2 ^ 64 by omega, Nat.add_mod_right, Nat.mod_eq_of_lt (by omega)]

/-- What an access does to the windows, and what it leaves its handle with. -/
def Advances (c : Config) (m : Shared T) (hd : Handle T) (x : Shared T × Handle T) : Prop :=
  WindowStep c m x.1 hd x.2 ∧ (Grows c m x.1 → HandleFacts c x.1 x.2)

/-- An access that leaves units and counters alone, after which the handle goes on to a point whose
facts hold already. -/
theorem HandleFacts.stays (hf : HandleFacts c m hd) (inv : WindowInv c m) {m' : Shared T}
    {pc : Pc T} (hpc : WindowFacts c m hd pc) (hfilled : m'.filledSet = m.filledSet := by rfl)
    (hr : m'.globalReadWindow = m.globalReadWindow := by rfl)
    (hw : m'.globalWriteWindow = m.globalWriteWindow := by rfl) :
    Advances c m hd (m', { hd with pc := pc }) :=
  ⟨.same hfilled hr hw, fun hgrows => hf.move hgrows inv.order hpc⟩

/-- An access that claims a block for reading, and with it the handle's next read block. -/
theorem takeReadBlock_advances (inv : WindowInv c m) {m' : Shared T} {v : Nat}
    (hv : v < m.globalWriteWindow) (block : Nat) (hfilled : m'.filledSet = m.filledSet := by rfl)
    (hr : m'.globalReadWindow = m.globalReadWindow := by rfl)
    (hw : m'.globalWriteWindow = m.globalWriteWindow := by rfl) :
    Advances c m hd (m', takeReadBlock c hd v block) :=
  ⟨.same hfilled hr hw, fun hgrows => (handleFacts_takeReadBlock hv block).mono hgrows inv.order⟩

/-- `moveWrite` advances the write window, or another handle has done so. -/
theorem moveWrite_step {hd' : Handle T} {v : Nat} (hfit : EpochsFit c m)
    (hroom : m.globalWriteWindow = v → v + 1 < m.globalReadWindow + c.windowCount)
    (hopened : ∀ j < c.unitsPerWindow, NotFresh c m v j) :
    WindowStep c m (m.moveWrite v) hd hd' := by
  by_cases heq : m.globalWriteWindow = v
  · have hspace := hroom heq
    subst heq
    exact .moveWrite hspace hopened (moveWrite_of_eq rfl hfit)
  · rw [moveWrite_of_ne heq]
    exact .same rfl rfl rfl

/-- `moveRead` advances the read window, or another handle has done so. -/
theorem moveRead_step {hd' : Handle T} {v : Nat} (inv : WindowInv c m) (hfit : EpochsFit c m)
    (hbehind : v + 2 ≤ m.globalWriteWindow) (hdrained : ∀ j < c.unitsPerWindow, Drained c m v j) :
    WindowStep c m (m.moveRead v) hd hd' := by
  by_cases heq : m.globalReadWindow = v
  · subst heq
    exact .moveRead hbehind hdrained (moveRead_of_eq rfl inv hfit)
  · rw [moveRead_of_ne heq]
    exact .same rfl rfl rfl

/-- Bumped or not, a unit is not in its first state afterwards. -/
theorem notFresh_bumpIfEmpty {v j word : Nat} (hepoch : c.windowToEpoch v + 1 < 2 ^ 32)
    (h : m.unit c v j = bumpIfEmpty (c.windowToEpoch v) word) : NotFresh c m v j := by
  refine .inr ?_
  rw [h, bumpIfEmpty]
  split
  · intro heq
    have hnext := congrArg AtomicBitset.getEpoch heq
    rw [getEpoch_makeUnit hepoch, getEpoch_makeUnit (by omega)] at hnext
    omega
  · rename_i hne
    exact hne

variable [Zero T] [DecidableEq T] (start : Nat) (spurious : Bool)

/-! ### The accesses that touch units or counters -/

theorem writeUnit_window {t : T} {v st i : Nat} (h : hd.pc = .writeUnit t v st i)
    (inv : WindowInv c m) (hfit : EpochsFit c m) (hf : HandleFacts c m hd) :
    Advances c m hd (runStep c start spurious m hd) := by
  have hpc := hf.pc
  rw [h] at hpc
  obtain ⟨hv, hi, hpast⟩ := hpc
  have hepoch := inv.epoch_lt hfit (v := v) (.inl hv)
  simp only [runStep, h]
  split
  · rename_i hnone
    have hnow := claimStart_zero_none c.bitCount_pos c.bitCount_le
      (Nat.mod_lt st c.bitCount_pos) hepoch hnone
    rw [claimUnit_eq_unitAt] at hnow
    exact hf.stays inv (windowFacts_writeNext hv hpast (notFresh_of_ne hnow))
  · rename_i bit hsome
    exact hf.stays inv ⟨hv, hi, hpast, claimStart_some hsome⟩

theorem writeClaim_window {t : T} {v st i eb bit : Nat} (h : hd.pc = .writeClaim t v st i eb bit)
    (inv : WindowInv c m) (hfit : EpochsFit c m) (hok : hd.Ok c) (hf : HandleFacts c m hd) :
    Advances c m hd (runStep c start spurious m hd) := by
  have hpc := hf.pc
  have hlocal := hok.pc
  rw [h] at hpc hlocal
  obtain ⟨hv, hi, hpast, hat⟩ := hpc
  have hbit := hlocal.2
  have hepoch := inv.epoch_lt hfit (v := v) (.inl hv)
  simp only [runStep, h]
  split
  · rename_i hcond
    obtain ⟨hword, _⟩ := hcond
    have hdiv := claimResult_div c st i hbit
    have hmod := claimResult_mod c st i hbit
    rw [claimUnit_eq_unitAt] at hword
    refine ⟨.claim t v (claimResult c st i bit) hv (claimResult_lt c st i hbit) ?_ rfl ?_,
      fun hgrows => hf.move hgrows inv.order hv⟩
    · rw [hdiv, Shared.unit, hword]
      exact hat
    · rw [hdiv, hmod, claimUnit_eq_unitAt, Shared.unit, hword,
        claimDesired_zero _ c.bitCount_le (hword ▸ inv.words _) hbit]
  · split
    · rename_i hnone
      have hnow := claimRetry_zero_none c.bitCount_pos c.bitCount_le
        (Nat.mod_lt st c.bitCount_pos) hepoch hnone
      rw [claimUnit_eq_unitAt] at hnow
      exact hf.stays inv (windowFacts_writeNext hv hpast (notFresh_of_ne hnow))
    · rename_i bit' hsome
      exact hf.stays inv ⟨hv, hi, hpast, claimRetry_some hsome⟩

theorem popResetCas_window {k : AfterReset} {eb : Nat} (h : hd.pc = .popResetCas k eb)
    (inv : WindowInv c m) (hok : hd.Ok c) (hf : HandleFacts c m hd) :
    Advances c m hd (runStep c start spurious m hd) := by
  have hpc := hf.pc
  have hlocal := hok.pc
  rw [h] at hpc hlocal
  obtain ⟨v, hv, hepoch, hwindow⟩ := hf.cache.epoch
  obtain ⟨_, j, hj, hblock⟩ := hok.read.resolve_left fun hdummy => hlocal hdummy.1
  have hindex : blockIndex c hd.readWindowIndex hd.readBlock = j := by
    rw [hblock, blockIndex_getBlock]
  have hunit : unitOf c hd.readWindowIndex j = c.unitAt v (j / c.bitCount) := by
    rw [unitOf, hwindow, Config.unitAt]
  simp only [runStep, h]
  rw [hindex, hunit]
  split
  · rename_i hcond
    obtain ⟨hword, _⟩ := hcond
    refine ⟨.reset k eb v j hv hj ?_ h hepoch (hwindow ▸ hblock) ?_,
      fun hgrows => hf.move hgrows inv.order windowFacts_afterReset⟩
    · rw [Shared.unit, hword, ← hepoch]
      exact hpc
    · rw [Shared.unit, hword, hepoch]
  · split
    · exact hf.stays inv windowFacts_afterReset
    · rename_i he
      exact hf.stays inv (not_not.mp he)

theorem readAny_window {da : Bool} {v ww st i : Nat} (h : hd.pc = .readAny da v ww st i)
    (inv : WindowInv c m) (hfit : EpochsFit c m) (hf : HandleFacts c m hd) :
    Advances c m hd (runStep c start spurious m hd) := by
  have hpc := hf.pc
  rw [h] at hpc
  obtain ⟨hv, hww, hwle, hi, hpast⟩ := hpc
  have hlast := hfit.window
  simp only [runStep, h]
  split
  · exact takeReadBlock_advances inv (by omega) _
  · rename_i hnone
    rw [claimUnit_eq_unitAt] at hnone
    have hnow := drained_of_claimStart_none inv hv (c.visited_lt st i)
      (Nat.mod_lt st c.bitCount_pos) hnone
    split
    · rename_i hi'
      exact hf.stays inv ⟨hv, hww, hwle, hi', forall_lt_succ hpast hnow⟩
    · -- the scan of the read window is complete: none of its units holds a claimable block
      rename_i hi'
      have hall := forall_units_of_visited st hi' hpast hnow
      rw [Nat.mod_eq_of_lt (by omega : v + 1 < 2 ^ 64)]
      split
      · rename_i heq
        exact hf.stays inv ⟨hv, heq, hwle, c.unitsPerWindow_pos, hall⟩
      · exact hf.stays inv ⟨hv, by omega, hall⟩

theorem readBump_window {da : Bool} {v ww i : Nat} (h : hd.pc = .readBump da v ww i)
    (inv : WindowInv c m) (hfit : EpochsFit c m) (hf : HandleFacts c m hd) :
    Advances c m hd (runStep c start spurious m hd) := by
  have hpc := hf.pc
  rw [h] at hpc
  obtain ⟨hv, hww, hwle, hi, hall, hpast⟩ := hpc
  have hle := c.windowToEpoch_mono hwle
  have hfits := hfit.epoch
  simp only [runStep, h]
  have hafter : NotFresh c (m.setFilled (c.unitAt ww i)
      (bumpIfEmpty (c.windowToEpoch ww) (m.unit c ww i))) ww i :=
    notFresh_bumpIfEmpty (by omega) (by rw [setFilled_unit, if_pos rfl])
  constructor
  · -- `set_epoch_if_empty` changes an untouched unit and leaves any other as it is
    by_cases hfresh : m.unit c ww i = makeUnit (c.windowToEpoch ww)
    · refine .bump ww i hwle hi hfresh ?_
      show m.setFilled _ (bumpIfEmpty _ (m.unit c ww i)) = _
      rw [bumpIfEmpty, if_pos hfresh]
      rfl
    · refine .same ?_ rfl rfl
      show Function.update m.filledSet _ (bumpIfEmpty _ (m.unit c ww i)) = _
      rw [bumpIfEmpty, if_neg hfresh]
      exact Function.update_eq_self _ _
  · intro hgrows
    have hbefore : WindowFacts c m hd (.readBump da v ww i) := ⟨hv, hww, hwle, hi, hall, hpast⟩
    obtain ⟨hv', _, hwle', _, hall', hpast'⟩ := hbefore.mono hgrows inv.order
    refine (hf.mono hgrows inv.order).goto ?_
    split
    · rename_i hi'
      exact ⟨hv', hww, hwle', hi', hall', forall_lt_succ hpast' hafter⟩
    · rename_i hi'
      refine ⟨hv', hww, hwle', hall', fun j hj => ?_⟩
      exact forall_lt_succ hpast' hafter j (by omega)

theorem readForce_window {da : Bool} {v ww : Nat} (h : hd.pc = .readForce da v ww)
    (inv : WindowInv c m) (hfit : EpochsFit c m) (hf : HandleFacts c m hd) :
    Advances c m hd (runStep c start spurious m hd) := by
  have hpc := hf.pc
  rw [h] at hpc
  obtain ⟨hv, hww, hwle, hall, hopened⟩ := hpc
  have hfour := c.four_le_windowCount
  simp only [runStep, h]
  refine ⟨moveWrite_step hfit (fun _ => by omega) hopened, fun hgrows => ?_⟩
  refine (hf.mono hgrows inv.order).goto ⟨Nat.le_trans hv hgrows.read, ?_, fun j hj =>
    hgrows.drained v (by omega) j hj (hall j hj)⟩
  -- two behind the write window: it has moved now, or another handle has moved it before
  show v + 2 ≤ (m.moveWrite ww).globalWriteWindow
  by_cases heq : m.globalWriteWindow = ww
  · rw [moveWrite_of_eq heq hfit]
    show v + 2 ≤ m.globalWriteWindow + 1
    omega
  · rw [moveWrite_of_ne heq]
    omega

/-- What one access does, from the invariant, the handle's own facts and its window facts. -/
theorem runStep_window (inv : WindowInv c m) (hfit : EpochsFit c m) (hok : hd.Ok c)
    (hf : HandleFacts c m hd) : Advances c m hd (runStep c start spurious m hd) := by
  have hpc := hf.pc
  have horder := inv.order
  cases h : hd.pc with
  | idle last =>
      simp only [runStep, h]
      exact ⟨.same rfl rfl rfl, fun hgrows => hf.mono hgrows horder⟩
  | writeUnit t v st i => exact writeUnit_window start spurious h inv hfit hf
  | writeClaim t v st i eb bit => exact writeClaim_window start spurious h inv hfit hok hf
  | popResetCas k eb => exact popResetCas_window start spurious h inv hok hf
  | readAny da v ww st i => exact readAny_window start spurious h inv hfit hf
  | readBump da v ww i => exact readBump_window start spurious h inv hfit hf
  | readForce da v ww => exact readForce_window start spurious h inv hfit hf
  | pushLoad t =>
      simp only [runStep, h]
      exact hf.stays inv windowFacts_pushCheck
  | pushUndo t ei index =>
      simp only [runStep, h]
      exact hf.stays inv windowFacts_pushCheck
  | pushCell t ei index | pushHeader t ei index | popLast ei index | popNext ei index =>
      simp only [runStep, h]
      split
      · exact hf.stays inv trivial
      · exact hf.stays inv trivial
  | writeWindow t =>
      simp only [runStep, h]
      exact hf.stays inv ⟨le_refl _, c.unitsPerWindow_pos,
        fun i' hi' => absurd hi' (Nat.not_lt_zero i')⟩
  | writeTouch t v bit =>
      simp only [runStep, h]
      exact ⟨.same rfl rfl rfl, fun hgrows =>
        HandleFacts.mono hgrows horder ⟨⟨hf.cache.window, hf.cache.epoch⟩, trivial⟩⟩
  | writeFull t v =>
      rw [h] at hpc
      obtain ⟨hv, hall⟩ := hpc
      simp only [runStep, h]
      split
      · exact hf.stays inv trivial
      · rename_i hne
        exact hf.stays inv ⟨hv, room_of_sub64_ne inv hfit hv hne, hall⟩
  | writeMove t v =>
      rw [h] at hpc
      obtain ⟨hv, hroom, hall⟩ := hpc
      simp only [runStep, h]
      exact ⟨moveWrite_step hfit (fun _ => hroom) hall, fun hgrows => hf.move hgrows horder trivial⟩
  | popLoad =>
      simp only [runStep, h]
      exact hf.stays inv windowFacts_popCheck
  | popReset k =>
      simp only [runStep, h]
      split
      · exact hf.stays inv windowFacts_afterReset
      · rename_i he
        exact hf.stays inv (not_not.mp he)
  | popTake index =>
      simp only [runStep, h]
      exact hf.stays inv trivial
  | popReload =>
      simp only [runStep, h]
      split
      · split
        · exact hf.stays inv trivial
        · exact hf.stays inv trivial
      · exact hf.stays inv windowFacts_popCheck
  | popInvalidate ei =>
      simp only [runStep, h]
      split
      · exact hf.stays inv trivial
      · exact hf.stays inv windowFacts_popCheck
  | readWindow da =>
      simp only [runStep, h]
      split
      · exact hf.stays inv
          ⟨hf.cache.window, (fun ha => by cases ha), c.unitsPerWindow_pos⟩
      · exact hf.stays inv ⟨horder, fun _ => le_refl _, c.unitsPerWindow_pos⟩
  | readUnit da v ahead st i =>
      rw [h] at hpc
      obtain ⟨hv, hahead, hi⟩ := hpc
      simp only [runStep, h]
      split
      · exact hf.stays inv (windowFacts_readNext hv hahead)
      · exact hf.stays inv ⟨hv, hahead, hi⟩
  | readClaim da v ahead st i raw bit =>
      rw [h] at hpc
      obtain ⟨hv, hahead, hi⟩ := hpc
      simp only [runStep, h]
      split
      · exact takeReadBlock_advances inv hv _
      · split
        · exact hf.stays inv (windowFacts_readNext hv hahead)
        · exact hf.stays inv ⟨hv, hahead, hi⟩
  | readWrite da v =>
      rw [h] at hpc
      have hv : v ≤ m.globalReadWindow := hpc
      have hlast := hfit.window
      simp only [runStep, h]
      split
      · rename_i hcond
        have hmod : (v + 1) % 2 ^ 64 = v + 1 := Nat.mod_eq_of_lt (by omega)
        have hne := hcond.2
        rw [hmod] at hne ⊢
        refine ⟨.same rfl rfl rfl, fun hgrows =>
          HandleFacts.mono hgrows horder ⟨⟨?_, hf.cache.epoch⟩, trivial⟩⟩
        show v + 1 < m.globalWriteWindow
        omega
      · exact hf.stays inv ⟨hv, by omega, le_refl _, c.unitsPerWindow_pos,
          fun i' hi' => absurd hi' (Nat.not_lt_zero i')⟩
  | readScan da v ww i =>
      rw [h] at hpc
      obtain ⟨hv, hww, hwle, hi, hall⟩ := hpc
      simp only [runStep, h]
      split
      · exact hf.stays inv ⟨hv, hww, hwle, c.unitsPerWindow_pos, hall,
          fun i' hi' => absurd hi' (Nat.not_lt_zero i')⟩
      · split
        · rename_i hi'
          exact hf.stays inv ⟨hv, hww, hwle, hi', hall⟩
        · exact hf.stays inv trivial
  | readMove da v =>
      rw [h] at hpc
      obtain ⟨hv, hbehind, hall⟩ := hpc
      simp only [runStep, h]
      exact ⟨moveRead_step inv hfit hbehind hall, fun hgrows => hf.move hgrows horder trivial⟩

theorem stepHandle_window (a : Action c T) (inv : WindowInv c m) (hfit : EpochsFit c m)
    (hok : hd.Ok c) (hf : HandleFacts c m hd) : Advances c m hd (stepHandle c a m hd) := by
  unfold stepHandle
  split
  · exact hf.stays inv trivial
  · exact hf.stays inv trivial
  · exact runStep_window _ _ inv hfit hok hf
  · exact ⟨.same rfl rfl rfl, fun hgrows => hf.mono hgrows inv.order⟩

end Access

/-! ## §5 — whole runs -/

section Runs

variable {n : Nat} {c : Config}

/-- The invariant of a run: the windows, and every handle's facts about them. -/
structure ProtocolInv (c : Config) (s : State T n) : Prop where
  windows : WindowInv c s.shared
  handles : ∀ h, HandleFacts c s.shared (s.handles h)

variable [Zero T]

theorem ProtocolInv.fresh (c : Config) : ProtocolInv c (State.fresh c n : State T n) where
  windows := WindowInv.fresh c
  handles _ := by
    refine ⟨⟨Nat.zero_lt_one, 0, Nat.zero_lt_one, ?_, ?_⟩, trivial⟩
    · rw [c.windowToEpoch_eq, Nat.zero_div]
      rfl
    · rw [c.windowToIndex_eq, Nat.zero_mod]
      rfl

variable [DecidableEq T]

theorem ProtocolInv.windowStep {s : State T n} (inv : ProtocolInv c s) (hlocal : LocalInv c s)
    (hfit : EpochsFit c s.shared) (l : Fin n × Action c T) :
    WindowStep c s.shared (s.step c l).shared (s.handles l.1) ((s.step c l).handles l.1) := by
  have h := (stepHandle_window l.2 inv.windows hfit (hlocal.handles l.1) (inv.handles l.1)).1
  rw [State.step_handles_self]
  exact h

theorem ProtocolInv.step {s : State T n} (inv : ProtocolInv c s) (hlocal : LocalInv c s)
    (hfit : EpochsFit c s.shared) (l : Fin n × Action c T) : ProtocolInv c (s.step c l) := by
  obtain ⟨hstep, hfacts⟩ :=
    stepHandle_window l.2 inv.windows hfit (hlocal.handles l.1) (inv.handles l.1)
  obtain ⟨hwindows, hgrows⟩ := hstep.inv hfit inv.windows
  refine ⟨hwindows, fun h => ?_⟩
  by_cases hh : h = l.1
  · subst hh
    rw [State.step_handles_self]
    exact hfacts hgrows
  · rw [State.step_handles_ne c s l hh]
    exact (inv.handles h).mono hgrows inv.windows.order

/-- Every state of the run has room for its epochs. -/
def RunFits (c : Config) (ls : List (Fin n × Action c T)) : Prop :=
  ∀ k ≤ ls.length, EpochsFit c ((State.fresh c n).run c (ls.take k)).shared

theorem protocolInv_run {ls : List (Fin n × Action c T)} (hfit : RunFits c ls) :
    ∀ k ≤ ls.length, ProtocolInv c ((State.fresh c n).run c (ls.take k)) :=
  invariant_take (State.step c) (P := fun _ s => ProtocolInv c s) (ProtocolInv.fresh c) fun k hk ih =>
    ih.step ((LocalInv.fresh c).run _) (hfit k (Nat.le_of_lt hk)) _

/-- The protocol as a reader of the memory sees it. -/
structure WindowProtocol (c : Config) (m : Shared T) : Prop where
  distance : 1 ≤ m.globalWriteWindow - m.globalReadWindow ∧
    m.globalWriteWindow - m.globalReadWindow ≤ c.windowCount - 1
  active : ∀ v, m.globalReadWindow ≤ v → v ≤ m.globalWriteWindow → ∀ j < c.unitsPerWindow,
    AtomicBitset.getEpoch (m.unit c v j) = c.windowToEpoch v ∨
      (AtomicBitset.getEpoch (m.unit c v j) = c.windowToEpoch v + 1 ∧ getBits (m.unit c v j) = 0)
  opened : ∀ v, m.globalReadWindow ≤ v → v < m.globalWriteWindow → ∀ j < c.unitsPerWindow,
    ¬ (AtomicBitset.getEpoch (m.unit c v j) = c.windowToEpoch v ∧ getBits (m.unit c v j) = 0)
  ahead : ∀ v, m.globalWriteWindow < v → v ≤ m.globalReadWindow + c.windowCount - 1 →
    ∀ j < c.unitsPerWindow,
      AtomicBitset.getEpoch (m.unit c v j) = c.windowToEpoch v ∧ getBits (m.unit c v j) = 0
  /-- No set bit is left behind: it belongs to a window between the two counters. -/
  inside : ∀ p < c.windowCount, ∀ j < c.unitsPerWindow,
    getBits (m.filledSet (p * c.unitsPerWindow + j)) ≠ 0 →
      ∃ v, m.globalReadWindow ≤ v ∧ v ≤ m.globalWriteWindow ∧ c.windowToIndex v = p ∧
        AtomicBitset.getEpoch (m.filledSet (p * c.unitsPerWindow + j)) = c.windowToEpoch v

omit [Zero T] [DecidableEq T] in
theorem WindowInv.protocol {m : Shared T} (inv : WindowInv c m) (hfit : EpochsFit c m) :
    WindowProtocol c m := by
  have horder := inv.order
  have hgap := inv.gap
  have hnext : ∀ v ≤ m.globalWriteWindow, c.windowToEpoch v + 1 < 2 ^ 32 := fun v hv => by
    have := c.windowToEpoch_mono hv
    have := hfit.epoch
    omega
  refine ⟨⟨by omega, by omega⟩, fun v h1 h2 j hj => ?_, fun v h1 h2 j hj => ?_,
    fun v h1 h2 j hj => ?_, fun p hp j hj hbits => ?_⟩
  · rcases inv.active v h1 h2 j hj with he | hd
    · exact .inl he
    · rw [hd]
      exact .inr ⟨getEpoch_makeUnit (hnext v h2), getBits_makeUnit (hnext v h2)⟩
  · have hok : UnitOk c.bitCount (m.unit c v j) := inv.words _
    rw [← hok.eq_makeUnit_iff (inv.epoch_lt hfit (.inl (Nat.le_of_lt h2)))]
    exact inv.opened v h1 h2 j hj
  · have he := inv.epoch_lt hfit (v := v) (.inr (by omega))
    rw [inv.ahead v h1 (by omega) j hj]
    exact ⟨getEpoch_makeUnit he, getBits_makeUnit he⟩
  · -- the window of the lap that has the physical window `p`
    obtain ⟨v, h1, h2, h3, _⟩ := exists_current (c := c) m p (by omega)
    rw [c.windowToIndex_eq p, Nat.mod_eq_of_lt hp] at h3
    have hunit : m.filledSet (p * c.unitsPerWindow + j) = m.unit c v j := by
      rw [Shared.unit, Config.unitAt, h3]
    rw [hunit] at hbits ⊢
    have hv : v ≤ m.globalWriteWindow := by
      -- a window ahead of writers has no bit set
      by_contra hlt
      rw [inv.ahead v (by omega) h2 j hj, getBits_makeUnit (inv.epoch_lt hfit (.inr h2))] at hbits
      exact hbits rfl
    refine ⟨v, h1, hv, h3, (inv.active v h1 hv j hj).resolve_right fun hd => ?_⟩
    rw [hd, getBits_makeUnit (hnext v hv)] at hbits
    exact hbits rfl

omit [Zero T] [DecidableEq T] in
/-- When the write window moves, it moves by one, to a window whose units are all untouched. -/
theorem WindowStep.arrives {m m' : Shared T} {hd hd' : Handle T} (hstep : WindowStep c m m' hd hd')
    (inv : WindowInv c m) (hfit : EpochsFit c m)
    (hmove : m'.globalWriteWindow ≠ m.globalWriteWindow) :
    m'.globalWriteWindow = m.globalWriteWindow + 1 ∧ ∀ j < c.unitsPerWindow,
      AtomicBitset.getEpoch (m'.unit c m'.globalWriteWindow j) =
        c.windowToEpoch m'.globalWriteWindow ∧ getBits (m'.unit c m'.globalWriteWindow j) = 0 := by
  cases hstep with
  | same hfilled hr hw => exact absurd hw hmove
  | claim t v index hv hindex hat hpc hm => subst hm; exact absurd rfl hmove
  | reset k eb v index hv hindex hat hpc hepoch hblock hm => subst hm; exact absurd rfl hmove
  | bump v j hv hj hfresh hm => subst hm; exact absurd rfl hmove
  | moveRead hbehind hdrained hm => subst hm; exact absurd rfl hmove
  | moveWrite hroom hopened hm =>
      subst hm
      refine ⟨rfl, fun j hj => ?_⟩
      have he := inv.epoch_lt hfit (v := m.globalWriteWindow + 1) (.inr hroom)
      have hunit := inv.ahead (m.globalWriteWindow + 1) (Nat.lt_succ_self _) hroom j hj
      show AtomicBitset.getEpoch (m.unit c (m.globalWriteWindow + 1) j) = _ ∧
        getBits (m.unit c (m.globalWriteWindow + 1) j) = 0
      rw [hunit]
      exact ⟨getEpoch_makeUnit he, getBits_makeUnit he⟩

/-- **In every state of every run the windows keep their distance, units between them are at their
window's epoch or drained, those behind the write window are not untouched, those ahead of it are,
and no set bit is left behind the read window; and whenever the write window arrives at a window,
all of that window's blocks can be claimed.** -/
theorem window_protocol (c : Config) (ls : List (Fin n × Action c T)) (hfit : RunFits c ls) :
    (∀ k ≤ ls.length, WindowProtocol c ((State.fresh c n).run c (ls.take k)).shared) ∧
      ∀ k < ls.length,
        let m := ((State.fresh c n).run c (ls.take k)).shared
        let m' := ((State.fresh c n).run c (ls.take (k + 1))).shared
        m'.globalWriteWindow ≠ m.globalWriteWindow →
          m'.globalWriteWindow = m.globalWriteWindow + 1 ∧ ∀ j < c.unitsPerWindow,
            AtomicBitset.getEpoch (m'.unit c m'.globalWriteWindow j) =
              c.windowToEpoch m'.globalWriteWindow ∧
            getBits (m'.unit c m'.globalWriteWindow j) = 0 := by
  refine ⟨fun k hk => (protocolInv_run hfit k hk).windows.protocol (hfit k hk), fun k hk => ?_⟩
  have hfits := hfit k (Nat.le_of_lt hk)
  have inv := protocolInv_run hfit k (Nat.le_of_lt hk)
  rw [State.run_take_succ c _ ls hk]
  exact (inv.windowStep ((LocalInv.fresh c).run _) hfits _).arrives inv.windows hfits

/-- A push, a pop that force-moves both windows, and a push into the next window. -/
def forceMove : List (Fin 2 × Action tiny Nat) := List.flatten
  [call 0 (.push 5 five_ne_zero), goOn 0 0 8, call 1 .pop, goOn 1 3 23,
    call 0 (.push 6 six_ne_zero), goOn 0 1 9]

theorem window_protocol_forceMove :
    RunFits tiny forceMove ∧
      ∀ k ≤ forceMove.length,
        WindowProtocol tiny ((State.fresh tiny 2).run tiny (forceMove.take k)).shared := by
  have hfit : RunFits tiny forceMove := by
    unfold RunFits
    decide +kernel
  exact ⟨hfit, (window_protocol tiny forceMove hfit).1⟩

end Runs

end RelaxedConcurrentFifo.BlockBasedQueue
