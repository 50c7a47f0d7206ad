/-
# RelaxedConcurrentFifo.BlockBasedQueue.Layout — the arithmetic of headers, windows and units

Everything the proofs need to know about HOW the queue packs and places its data: the three fields of
a header word under the operations `push` and `pop` apply to it, windows as epoch and physical index,
and the bijection between a window's blocks and the bits of its bitset units. After this module no
proof looks inside a shift or a mask.
-/
import RelaxedConcurrentFifo.BlockBasedQueue.Machine

namespace RelaxedConcurrentFifo.BlockBasedQueue

open RelaxedConcurrentFifo.Lib.Words

/-! ## §1 — header words -/

theorem getEpoch_eq (ei : Nat) : getEpoch ei = ei / 2 ^ 32 := Nat.shiftRight_eq_div_pow ei 32

theorem getReadIndex_eq (ei : Nat) : getReadIndex ei = ei / 2 ^ 16 % 2 ^ 16 := by
  rw [getReadIndex, Nat.shiftRight_eq_div_pow]
  exact Nat.and_two_pow_sub_one_eq_mod _ 16

theorem getWriteIndex_eq (ei : Nat) : getWriteIndex ei = ei % 2 ^ 16 :=
  Nat.and_two_pow_sub_one_eq_mod ei 16

theorem getReadIndex_incrementWriteIndex {ei : Nat} (h : getWriteIndex ei < 65535) :
    getReadIndex (incrementWriteIndex ei) = getReadIndex ei := by
  rw [getWriteIndex_eq] at h
  rw [getReadIndex_eq, getReadIndex_eq, incrementWriteIndex]
  omega

theorem getWriteIndex_incrementWriteIndex {ei : Nat} (h : getWriteIndex ei < 65535) :
    getWriteIndex (incrementWriteIndex ei) = getWriteIndex ei + 1 := by
  rw [getWriteIndex_eq] at h ⊢
  rw [getWriteIndex_eq, incrementWriteIndex]
  omega

theorem getEpoch_incrementWriteIndex {ei : Nat} (hei : ei < 2 ^ 64) (h : getWriteIndex ei < 65535) :
    getEpoch (incrementWriteIndex ei) = getEpoch ei := by
  rw [getWriteIndex_eq] at h
  rw [getEpoch_eq, getEpoch_eq, incrementWriteIndex]
  omega

theorem getReadIndex_incrementReadIndex {ei : Nat} (h : getReadIndex ei < 65535) :
    getReadIndex (incrementReadIndex ei) = getReadIndex ei + 1 := by
  rw [getReadIndex_eq] at h ⊢
  rw [getReadIndex_eq, incrementReadIndex, show (1 <<< 16 : Nat) = 65536 from rfl]
  omega

theorem getWriteIndex_incrementReadIndex (ei : Nat) :
    getWriteIndex (incrementReadIndex ei) = getWriteIndex ei := by
  rw [getWriteIndex_eq, getWriteIndex_eq, incrementReadIndex, show (1 <<< 16 : Nat) = 65536 from rfl]
  omega

theorem getEpoch_incrementReadIndex {ei : Nat} (hei : ei < 2 ^ 64) (h : getReadIndex ei < 65535) :
    getEpoch (incrementReadIndex ei) = getEpoch ei := by
  rw [getReadIndex_eq] at h
  rw [getEpoch_eq, getEpoch_eq, incrementReadIndex, show (1 <<< 16 : Nat) = 65536 from rfl]
  omega

theorem epochToHeader_eq (epoch : Nat) : epochToHeader epoch = epoch % 2 ^ 32 * 2 ^ 32 := by
  rw [epochToHeader, Nat.shiftLeft_eq]
  omega

theorem getEpoch_epochToHeader (epoch : Nat) : getEpoch (epochToHeader epoch) = epoch % 2 ^ 32 := by
  rw [getEpoch_eq, epochToHeader_eq]
  omega

theorem getReadIndex_epochToHeader (epoch : Nat) : getReadIndex (epochToHeader epoch) = 0 := by
  rw [getReadIndex_eq, epochToHeader_eq]
  omega

theorem getWriteIndex_epochToHeader (epoch : Nat) : getWriteIndex (epochToHeader epoch) = 0 := by
  rw [getWriteIndex_eq, epochToHeader_eq]
  omega

/-- Between 32-bit epochs, a valid one is not ahead. -/
theorem le_of_epochValid {check curr : Nat} (hcheck : check < 2 ^ 32) (hcurr : curr < 2 ^ 32)
    (h : epochValid check curr = true) : check ≤ curr := by
  rw [epochValid, decide_eq_true_iff, sub64] at h
  omega

/-- Below `2 ^ 31 - 1` validity is exactly the order of epochs. -/
theorem epochValid_iff {check curr : Nat} (hcheck : check < 2 ^ 32) (hcurr : curr < 2 ^ 31 - 1) :
    epochValid check curr = true ↔ check ≤ curr := by
  rw [epochValid, decide_eq_true_iff, sub64]
  omega

/-! ## §2 — windows -/

namespace Config

variable (c : Config)

theorem windowCount_pos : 0 < c.windowCount := Nat.two_pow_pos _

theorem four_le_windowCount : 4 ≤ c.windowCount :=
  Nat.pow_le_pow_right (n := 2) (by omega) c.two_le_windowCountLog2

theorem windowCount_le : c.windowCount ≤ 2 ^ 63 :=
  Nat.pow_le_pow_right (by omega) (by have := c.windowCountLog2_lt; omega)

theorem windowToEpoch_eq (window : Nat) : c.windowToEpoch window = window / c.windowCount :=
  Nat.shiftRight_eq_div_pow _ _

theorem windowToIndex_eq (window : Nat) : c.windowToIndex window = window % c.windowCount :=
  Nat.and_two_pow_sub_one_eq_mod _ _

theorem windowToIndex_lt (window : Nat) : c.windowToIndex window < c.windowCount := by
  rw [windowToIndex_eq]
  exact Nat.mod_lt _ c.windowCount_pos

theorem windowToEpoch_mono {v w : Nat} (h : v ≤ w) : c.windowToEpoch v ≤ c.windowToEpoch w := by
  rw [windowToEpoch_eq, windowToEpoch_eq]
  exact Nat.div_le_div_right h

theorem windowToEpoch_add_windowCount (v : Nat) :
    c.windowToEpoch (v + c.windowCount) = c.windowToEpoch v + 1 := by
  rw [windowToEpoch_eq, windowToEpoch_eq, Nat.add_div_right _ c.windowCount_pos]

theorem windowToIndex_add_windowCount (v : Nat) :
    c.windowToIndex (v + c.windowCount) = c.windowToIndex v := by
  rw [windowToIndex_eq, windowToIndex_eq, Nat.add_mod_right]

/-- Epoch and physical index determine a window. -/
theorem window_ext {v w : Nat} (he : c.windowToEpoch v = c.windowToEpoch w)
    (hi : c.windowToIndex v = c.windowToIndex w) : v = w := by
  rw [windowToEpoch_eq, windowToEpoch_eq] at he
  rw [windowToIndex_eq, windowToIndex_eq] at hi
  rw [← Nat.div_add_mod v c.windowCount, ← Nat.div_add_mod w c.windowCount, he, hi]

/-- Two windows in one physical place are a multiple of `window_count` apart. -/
theorem eq_of_windowToIndex_eq {v w : Nat} (hi : c.windowToIndex v = c.windowToIndex w)
    (hle : v ≤ w) (hlt : w < v + c.windowCount) : v = w := by
  rw [windowToIndex_eq, windowToIndex_eq] at hi
  have h := Nat.sub_mod_eq_zero_of_mod_eq hi.symm
  rw [Nat.mod_eq_of_lt (by omega)] at h
  omega

/-! ## §3 — units and bits -/

theorem bitCount_pos : 0 < c.bitCount := Nat.two_pow_pos _

theorem bitCount_le : c.bitCount ≤ 32 :=
  Nat.pow_le_pow_right (n := 2) (by omega) c.bitCountLog2_le_five

theorem blocksPerWindow_pos : 0 < c.blocksPerWindow := Nat.two_pow_pos _

theorem unitsPerWindow_eq :
    c.unitsPerWindow = 2 ^ (c.blocksPerWindowLog2 - c.bitCountLog2) :=
  Nat.pow_div c.bitCountLog2_le (by omega)

theorem unitsPerWindow_pos : 0 < c.unitsPerWindow := by
  rw [unitsPerWindow_eq]
  exact Nat.two_pow_pos _

theorem units_mul_bitCount : c.unitsPerWindow * c.bitCount = c.blocksPerWindow :=
  Nat.div_mul_cancel (Nat.pow_dvd_pow 2 c.bitCountLog2_le)

/-- The unit `claim_bit` visits in its `i`-th round. -/
def visited (start i : Nat) : Nat := (i + start / c.bitCount) % c.unitsPerWindow

theorem visited_lt (start i : Nat) : c.visited start i < c.unitsPerWindow :=
  Nat.mod_lt _ c.unitsPerWindow_pos

/-- Every unit of the window is visited. -/
theorem exists_visited (start : Nat) {j : Nat} (hj : j < c.unitsPerWindow) :
    ∃ i < c.unitsPerWindow, c.visited start i = j := by
  have hpos := c.unitsPerWindow_pos
  have hoff := Nat.mod_lt (start / c.bitCount) hpos
  refine ⟨(j + (c.unitsPerWindow - start / c.bitCount % c.unitsPerWindow)) % c.unitsPerWindow,
    Nat.mod_lt _ hpos, ?_⟩
  rw [visited, Nat.mod_add_mod, ← Nat.add_mod_mod,
    show j + (c.unitsPerWindow - start / c.bitCount % c.unitsPerWindow) +
      start / c.bitCount % c.unitsPerWindow = j + c.unitsPerWindow by omega,
    Nat.add_mod_right, Nat.mod_eq_of_lt hj]

end Config

section Units

variable (c : Config)

theorem mask_eq (start i : Nat) :
    (i + start / c.bitCount) &&& (c.unitsPerWindow - 1) = c.visited start i := by
  rw [Config.visited, c.unitsPerWindow_eq]
  exact Nat.and_two_pow_sub_one_eq_mod _ _

theorem claimUnit_eq (window start i : Nat) :
    claimUnit c window start i =
      c.windowToIndex window * c.unitsPerWindow + c.visited start i := by
  rw [claimUnit, mask_eq]

theorem claimResult_eq (start i bit : Nat) :
    claimResult c start i bit = bit + c.visited start i * c.bitCount := by
  rw [claimResult, mask_eq]

theorem claimResult_lt (start i : Nat) {bit : Nat} (h : bit < c.bitCount) :
    claimResult c start i bit < c.blocksPerWindow := by
  rw [claimResult_eq, ← c.units_mul_bitCount]
  have hv := c.visited_lt start i
  calc bit + c.visited start i * c.bitCount
      < c.bitCount + c.visited start i * c.bitCount := by omega
    _ = (c.visited start i + 1) * c.bitCount := by ring
    _ ≤ c.unitsPerWindow * c.bitCount := Nat.mul_le_mul_right _ hv

theorem claimResult_div (start i : Nat) {bit : Nat} (h : bit < c.bitCount) :
    claimResult c start i bit / c.bitCount = c.visited start i := by
  rw [claimResult_eq, Nat.add_mul_div_right _ _ c.bitCount_pos, Nat.div_eq_of_lt h, Nat.zero_add]

theorem claimResult_mod (start i : Nat) {bit : Nat} (h : bit < c.bitCount) :
    claimResult c start i bit % c.bitCount = bit := by
  rw [claimResult_eq, Nat.add_mul_mod_self_right, Nat.mod_eq_of_lt h]

theorem div_bitCount_lt {index : Nat} (h : index < c.blocksPerWindow) :
    index / c.bitCount < c.unitsPerWindow := by
  rw [Nat.div_lt_iff_lt_mul c.bitCount_pos, c.units_mul_bitCount]
  exact h

/-- Units of different windows, or different units of one window, are different words. -/
theorem unit_inj {p q i j : Nat} (hi : i < c.unitsPerWindow) (hj : j < c.unitsPerWindow)
    (h : p * c.unitsPerWindow + i = q * c.unitsPerWindow + j) : p = q ∧ i = j := by
  have hdiv := congrArg (· / c.unitsPerWindow) h
  have hmod := congrArg (· % c.unitsPerWindow) h
  simp only [Nat.mul_comm _ c.unitsPerWindow, Nat.mul_add_div c.unitsPerWindow_pos,
    Nat.mul_add_mod, Nat.div_eq_of_lt hi, Nat.div_eq_of_lt hj, Nat.mod_eq_of_lt hi,
    Nat.mod_eq_of_lt hj, Nat.add_zero] at hdiv hmod
  exact ⟨hdiv, hmod⟩

/-- The number of blocks of the buffer. -/
def Config.blockCount : Nat := c.windowCount * c.blocksPerWindow

theorem getBlock_lt {windowIndex index : Nat} (hw : windowIndex < c.windowCount)
    (hi : index < c.blocksPerWindow) :
    windowIndex * c.blocksPerWindow + index < c.blockCount := by
  calc windowIndex * c.blocksPerWindow + index
      < windowIndex * c.blocksPerWindow + c.blocksPerWindow := by omega
    _ = (windowIndex + 1) * c.blocksPerWindow := by ring
    _ ≤ c.windowCount * c.blocksPerWindow := Nat.mul_le_mul_right _ hw

/-- A block lies in one window, at one place. -/
theorem getBlock_inj {p q i j : Nat} (hi : i < c.blocksPerWindow) (hj : j < c.blocksPerWindow)
    (h : getBlock c p i = getBlock c q j) : p = q ∧ i = j := by
  have hslot := Block.slot.inj h
  have hdiv := congrArg (· / c.blocksPerWindow) hslot
  have hmod := congrArg (· % c.blocksPerWindow) hslot
  simp only [Nat.mul_comm _ c.blocksPerWindow, Nat.mul_add_div c.blocksPerWindow_pos,
    Nat.mul_add_mod, Nat.div_eq_of_lt hi, Nat.div_eq_of_lt hj, Nat.mod_eq_of_lt hi,
    Nat.mod_eq_of_lt hj, Nat.add_zero] at hdiv hmod
  exact ⟨hdiv, hmod⟩

/-- Every block of the buffer lies in a window. -/
theorem exists_getBlock {k : Nat} (hk : k < c.blockCount) :
    ∃ p < c.windowCount, ∃ i < c.blocksPerWindow, Block.slot k = getBlock c p i := by
  refine ⟨k / c.blocksPerWindow, ?_, k % c.blocksPerWindow, Nat.mod_lt _ c.blocksPerWindow_pos, ?_⟩
  · exact (Nat.div_lt_iff_lt_mul c.blocksPerWindow_pos).mpr hk
  · rw [getBlock, Nat.mul_comm, Nat.div_add_mod]

@[simp] theorem blockIndex_getBlock (windowIndex index : Nat) :
    blockIndex c windowIndex (getBlock c windowIndex index) = index := by
  simp [blockIndex, getBlock]

end Units

/-! ## §4 — the fresh queue -/

section Fresh

variable (c : Config)

theorem foldl_update_range {α : Type} (β : α → α) (base x : Nat) (f : Nat → α) (k : Nat) :
    (List.range k).foldl (fun g i => Function.update g (base + i) (β (g (base + i)))) f x =
      if base ≤ x ∧ x < base + k then β (f x) else f x := by
  induction k with
  | zero => rw [if_neg (by omega)]; rfl
  | succ k ih =>
      rw [List.range_succ, List.foldl_append, List.foldl_cons, List.foldl_nil]
      by_cases hx : x = base + k
      · subst hx
        rw [Function.update_self, ih, if_neg (by omega), if_pos (by omega)]
      · rw [Function.update_of_ne hx, ih]
        exact if_congr (by omega) rfl rfl

theorem setEpochIfEmpty_apply (windowIndex epoch : Nat) (filled : Nat → Nat) (u : Nat) :
    setEpochIfEmpty c windowIndex epoch filled u =
      if windowIndex * c.unitsPerWindow ≤ u ∧
          u < windowIndex * c.unitsPerWindow + c.unitsPerWindow then
        bumpIfEmpty epoch (filled u) else filled u :=
  foldl_update_range _ _ _ _ _

theorem bumpIfEmpty_bumpIfEmpty (x : Nat) : bumpIfEmpty 0 (bumpIfEmpty 0 x) = bumpIfEmpty 0 x := by
  by_cases hx : x = AtomicBitset.makeUnit 0
  · subst hx
    decide
  · rw [bumpIfEmpty, bumpIfEmpty, if_neg hx, if_neg hx]

theorem retireFirstWindow_fold (f : Nat → Nat) (g : Block → Nat) (k : Nat) :
    let mem := (List.range k).foldl
      (fun mem j => (setEpochIfEmpty c 0 0 mem.1,
        Function.update mem.2 (getBlock c 0 j) (epochToHeader 1))) (f, g)
    (∀ u, mem.1 u = if u < c.unitsPerWindow ∧ 0 < k then bumpIfEmpty 0 (f u) else f u) ∧
      ∀ b, mem.2 b = if ∃ j < k, b = .slot j then epochToHeader 1 else g b := by
  induction k with
  | zero => simp
  | succ k ih =>
      obtain ⟨ihf, ihg⟩ := ih
      simp only [List.range_succ, List.foldl_append, List.foldl_cons, List.foldl_nil]
      refine ⟨fun u => ?_, fun b => ?_⟩
      · rw [setEpochIfEmpty_apply, ihf]
        by_cases hu : u < c.unitsPerWindow
        · by_cases hk : 0 < k
          · simp [hu, hk, bumpIfEmpty_bumpIfEmpty]
          · simp [hu, hk]
        · simp [hu]
      · by_cases hb : b = .slot k
        · subst hb
          rw [show getBlock c 0 k = .slot k by simp [getBlock], Function.update_self,
            if_pos ⟨k, by omega, rfl⟩]
        · rw [show getBlock c 0 k = .slot k by simp [getBlock], Function.update_of_ne hb, ihg]
          refine if_congr ⟨?_, ?_⟩ rfl rfl
          · rintro ⟨j, hj, rfl⟩
            exact ⟨j, by omega, rfl⟩
          · rintro ⟨j, hj, rfl⟩
            have : j ≠ k := fun h => hb (by rw [h])
            exact ⟨j, by omega, rfl⟩

variable {T : Type} [Zero T]

/-- Every unit of window 0 starts one epoch ahead, every other unit at epoch 0. -/
theorem fresh_filledSet (u : Nat) :
    (Shared.fresh c : Shared T).filledSet u =
      if u < c.unitsPerWindow then AtomicBitset.makeUnit 1 else 0 := by
  have h := (retireFirstWindow_fold c (fun _ => 0)
    (fun b => if b = .dummy then epochToHeader 0x10000000 else 0) c.blocksPerWindow).1 u
  refine Eq.trans h ?_
  simp [c.blocksPerWindow_pos, bumpIfEmpty, AtomicBitset.makeUnit]

theorem fresh_header_slot (k : Nat) :
    (Shared.fresh c : Shared T).header (.slot k) =
      if k < c.blocksPerWindow then epochToHeader 1 else 0 := by
  have h := (retireFirstWindow_fold c (fun _ => 0)
    (fun b => if b = .dummy then epochToHeader 0x10000000 else 0) c.blocksPerWindow).2 (.slot k)
  refine Eq.trans h ?_
  simp

theorem fresh_header_dummy :
    (Shared.fresh c : Shared T).header .dummy = epochToHeader 0x10000000 := by
  have h := (retireFirstWindow_fold c (fun _ => 0)
    (fun b => if b = .dummy then epochToHeader 0x10000000 else 0) c.blocksPerWindow).2 .dummy
  refine Eq.trans h ?_
  simp

/-- Every block starts empty. -/
theorem fresh_indices (b : Block) :
    getReadIndex ((Shared.fresh c : Shared T).header b) = 0 ∧
      getWriteIndex ((Shared.fresh c : Shared T).header b) = 0 := by
  cases b with
  | dummy =>
      rw [fresh_header_dummy]
      exact ⟨getReadIndex_epochToHeader _, getWriteIndex_epochToHeader _⟩
  | slot k =>
      rw [fresh_header_slot]
      split
      · exact ⟨getReadIndex_epochToHeader _, getWriteIndex_epochToHeader _⟩
      · exact ⟨rfl, rfl⟩

end Fresh

end RelaxedConcurrentFifo.BlockBasedQueue
