/-
# RelaxedConcurrentFifo.AtomicBitset — the words of `atomic_bitset` and `atomic_bitset_no_epoch`

`atomic_bitset` keeps one 64-bit word per unit: a 32-bit epoch above `bit_count` flag bits.
`atomic_bitset_no_epoch` keeps the bare flag bits. Every member function is a short loop around one
atomic load or compare-and-swap; what is sequential in it, the computation BETWEEN two atomic
accesses, is a function of this module. The interleaving of the accesses themselves is the business
of the machine that calls them.
-/
import RelaxedConcurrentFifo.Lib.Words

namespace RelaxedConcurrentFifo.AtomicBitset

open RelaxedConcurrentFifo.Lib.Words

/-! ## §1 — `atomic_bitset.h`, translated -/

/-- `claim_value`: the value a claimed bit must have. -/
inductive ClaimValue where
  | zero
  | one
  deriving DecidableEq, Repr

/-- The bit value a claim looks for. -/
def ClaimValue.bit : ClaimValue → Bool
  | .zero => false
  | .one => true

def getEpoch (epochAndBits : Nat) : Nat := epochAndBits >>> 32

def getBits (epochAndBits : Nat) : Nat := epochAndBits &&& 0xffffffff

def makeUnit (epoch : Nat) : Nat := (epoch <<< 32) % 2 ^ 64

/-- `counted`: how many bits of the rotated word lie before the first one with the value. -/
def claimCounted (value : ClaimValue) (bitCount rotated : Nat) : Nat :=
  match value with
  | .one => countrZero bitCount rotated
  | .zero => countrOne bitCount rotated

/-- The head of `claim_bit_singular`'s outer loop, shared by both bitset classes: rotate, count,
and undo the rotation. `none` is `counted == bit_count`. -/
def claimIndex (value : ClaimValue) (bitCount raw initialRot : Nat) : Option Nat :=
  let counted := claimCounted value bitCount (rotr bitCount raw initialRot)
  if counted = bitCount then none else some ((initialRot + counted) % bitCount)

/-- `test`: the unit's bits with the claimed bit flipped, truncated to `ARR_TYPE`. -/
def claimTest (value : ClaimValue) (bitCount raw index : Nat) : Nat :=
  (match value with
    | .one => raw &&& compl64 (1 <<< index)
    | .zero => raw ||| 1 <<< index) % 2 ^ bitCount

/-- The word a `READ_WRITE` claim's compare-and-swap stores. -/
def claimDesired (value : ClaimValue) (bitCount epoch eb index : Nat) : Nat :=
  let test := claimTest value bitCount (eb % 2 ^ bitCount) index
  if value = .one ∧ test = 0 then makeUnit (epoch + 1) else makeUnit epoch ||| test

/-- `claim_bit_singular` after its load: the bit to claim, `none` on an epoch mismatch or when no
bit has the value. -/
def claimStart (value : ClaimValue) (bitCount epoch initialRot eb : Nat) : Option Nat :=
  if getEpoch eb ≠ epoch then none
  else claimIndex value bitCount (eb % 2 ^ bitCount) initialRot

/-- `claim_bit_singular` after a failed compare-and-swap that read `eb`: keep the chosen bit while
it can still be claimed, else choose again from `eb`. -/
def claimRetry (value : ClaimValue) (bitCount epoch initialRot index eb : Nat) : Option Nat :=
  if getEpoch eb ≠ epoch then none
  else if claimTest value bitCount (eb % 2 ^ bitCount) index = eb % 2 ^ bitCount then
    claimIndex value bitCount (eb % 2 ^ bitCount) initialRot
  else some index

/-- The word `set_bit_atomic<false>` stores: the bit cleared, or the next epoch when it was the
last one. -/
def resetDesired (epoch eb index : Nat) : Nat :=
  let test := eb &&& compl64 (1 <<< index)
  if getBits test = 0 then makeUnit (epoch + 1) else test

/-! ## §2 — `atomic_bitset_no_epoch.h`, translated -/

/-- `claim_bit_singular` of the epoch-less class after a failed compare-and-swap that read `raw`. -/
def claimRetryNoEpoch (value : ClaimValue) (bitCount initialRot index raw : Nat) : Option Nat :=
  if claimTest value bitCount raw index = raw then claimIndex value bitCount raw initialRot
  else some index

/-! ## §3 — what a claim finds -/

section Claim

variable {value : ClaimValue} {bitCount raw rot index : Nat}

theorem claimCounted_spec (value : ClaimValue) (n x : Nat) :
    claimCounted value n x ≤ n ∧ (∀ j < claimCounted value n x, x.testBit j = !value.bit) ∧
      (claimCounted value n x < n → x.testBit (claimCounted value n x) = value.bit) := by
  cases value with
  | one => exact countrZero_spec n x
  | zero => exact countrOne_spec n x

/-- A claim finds the FIRST bit with the wanted value in rotated order. -/
theorem claimIndex_some (hraw : raw < 2 ^ bitCount) (hrot : rot < bitCount)
    (h : claimIndex value bitCount raw rot = some index) :
    ∃ k < bitCount, index = (rot + k) % bitCount ∧ raw.testBit index = value.bit ∧
      ∀ j < k, raw.testBit ((rot + j) % bitCount) = !value.bit := by
  obtain ⟨hle, hbefore, hat⟩ := claimCounted_spec value bitCount (rotr bitCount raw rot)
  simp only [claimIndex] at h
  split at h
  · cases h
  · rename_i hne
    have hk : claimCounted value bitCount (rotr bitCount raw rot) < bitCount := by omega
    refine ⟨_, hk, (Option.some.inj h).symm, ?_, fun j hj => ?_⟩
    · rw [← Option.some.inj h, ← testBit_rotr hraw hrot hk, hat hk]
    · rw [← testBit_rotr hraw hrot (by omega), hbefore j hj]

/-- A claim that finds nothing has seen every bit of the unit. -/
theorem claimIndex_none (hraw : raw < 2 ^ bitCount) (hrot : rot < bitCount)
    (h : claimIndex value bitCount raw rot = none) :
    ∀ i < bitCount, raw.testBit i = !value.bit := by
  intro i hi
  obtain ⟨_, hbefore, _⟩ := claimCounted_spec value bitCount (rotr bitCount raw rot)
  simp only [claimIndex] at h
  split at h
  · rename_i heq
    -- bit `i` is bit `(i - rot) mod bitCount` of the rotated word
    have hk : (i + (bitCount - rot)) % bitCount < bitCount := Nat.mod_lt _ (by omega)
    have hback : (rot + (i + (bitCount - rot)) % bitCount) % bitCount = i := by
      rw [Nat.add_mod_mod, show rot + (i + (bitCount - rot)) = i + bitCount by omega,
        Nat.add_mod_right, Nat.mod_eq_of_lt hi]
    have hbit := testBit_rotr hraw hrot hk
    rw [hback] at hbit
    rw [← hbit]
    exact hbefore _ (by omega)
  · cases h

theorem claimIndex_lt (hrot : rot < bitCount) (h : claimIndex value bitCount raw rot = some index) :
    index < bitCount := by
  simp only [claimIndex] at h
  split at h
  · cases h
  · rw [← Option.some.inj h]
    exact Nat.mod_lt _ (by omega)

end Claim

/-! ## §4 — the fields of a unit -/

@[simp] theorem getBits_eq_mod (w : Nat) : getBits w = w % 2 ^ 32 :=
  Nat.and_two_pow_sub_one_eq_mod w 32

theorem makeUnit_of_lt {epoch : Nat} (h : epoch < 2 ^ 32) : makeUnit epoch = epoch <<< 32 := by
  rw [makeUnit, Nat.shiftLeft_eq, Nat.mod_eq_of_lt]
  calc epoch * 2 ^ 32 < 2 ^ 32 * 2 ^ 32 := Nat.mul_lt_mul_of_pos_right h (by norm_num)
    _ = 2 ^ 64 := by norm_num

theorem getEpoch_makeUnit_or {epoch bits : Nat} (he : epoch < 2 ^ 32) (hb : bits < 2 ^ 32) :
    getEpoch (makeUnit epoch ||| bits) = epoch := by
  rw [makeUnit_of_lt he, getEpoch, shiftLeft_or_div hb]

theorem getBits_makeUnit_or {epoch bits : Nat} (he : epoch < 2 ^ 32) (hb : bits < 2 ^ 32) :
    getBits (makeUnit epoch ||| bits) = bits := by
  rw [makeUnit_of_lt he, getBits_eq_mod, shiftLeft_or_mod hb]

theorem getEpoch_makeUnit {epoch : Nat} (he : epoch < 2 ^ 32) : getEpoch (makeUnit epoch) = epoch := by
  simpa using getEpoch_makeUnit_or he (show 0 < 2 ^ 32 by norm_num)

theorem getBits_makeUnit {epoch : Nat} (he : epoch < 2 ^ 32) : getBits (makeUnit epoch) = 0 := by
  simpa using getBits_makeUnit_or he (show 0 < 2 ^ 32 by norm_num)

/-- A unit is determined by its epoch and its bits. -/
theorem eq_makeUnit_or {w : Nat} (hw : w < 2 ^ 64) : w = makeUnit (getEpoch w) ||| getBits w := by
  have he : getEpoch w < 2 ^ 32 := by
    rw [getEpoch, Nat.shiftRight_eq_div_pow]
    omega
  have hb : getBits w < 2 ^ 32 := by
    rw [getBits_eq_mod]
    exact Nat.mod_lt _ (by norm_num)
  apply eq_of_fields (k := 32)
  · exact (getEpoch_makeUnit_or he hb).symm
  · have h := getBits_makeUnit_or he hb
    rw [getBits_eq_mod] at h
    rw [h, getBits_eq_mod]

/-! ## §5 — a unit under claims and resets -/

/-- A word a unit can hold: 64 bits, and no flag bit above `bit_count`. -/
structure UnitOk (bitCount eb : Nat) : Prop where
  lt : eb < 2 ^ 64
  bits : getBits eb < 2 ^ bitCount

section Unit

variable {value : ClaimValue} {n epoch rot eb bit : Nat}

theorem unitOk_makeUnit_or {bits : Nat} (hn : n ≤ 32) (he : epoch < 2 ^ 32) (hb : bits < 2 ^ n) :
    UnitOk n (makeUnit epoch ||| bits) where
  lt := by
    refine Nat.or_lt_two_pow (n := 64) (Nat.mod_lt _ (by norm_num)) ?_
    exact lt_of_lt_of_le hb (Nat.pow_le_pow_right (by norm_num) (by omega))
  bits := by
    rw [getBits_makeUnit_or he (lt_of_lt_of_le hb (Nat.pow_le_pow_right (by norm_num) hn))]
    exact hb

theorem unitOk_makeUnit (n : Nat) (epoch : Nat) : UnitOk n (makeUnit epoch) where
  lt := Nat.mod_lt _ (by norm_num)
  bits := by
    rw [getBits_eq_mod, makeUnit, Nat.shiftLeft_eq]
    have : epoch * 2 ^ 32 % 2 ^ 64 % 2 ^ 32 = 0 := by omega
    rw [this]
    exact Nat.two_pow_pos n

theorem UnitOk.epoch_lt (h : UnitOk n eb) : getEpoch eb < 2 ^ 32 := by
  have := h.lt
  rw [getEpoch, Nat.shiftRight_eq_div_pow]
  omega

/-- The flag bits of a unit are its word truncated to `ARR_TYPE`. -/
theorem UnitOk.mod_eq (hn : n ≤ 32) (h : UnitOk n eb) : eb % 2 ^ n = getBits eb := by
  have hb := h.bits
  rw [getBits_eq_mod] at hb ⊢
  rw [← Nat.mod_mod_of_dvd eb (Nat.pow_dvd_pow 2 hn), Nat.mod_eq_of_lt hb]

theorem UnitOk.eq_makeUnit_iff (h : UnitOk n eb) (he : epoch < 2 ^ 32) :
    eb = makeUnit epoch ↔ getEpoch eb = epoch ∧ getBits eb = 0 := by
  constructor
  · intro heq
    rw [heq]
    exact ⟨getEpoch_makeUnit he, getBits_makeUnit he⟩
  · intro hfields
    have heq := eq_makeUnit_or h.lt
    rw [hfields.1, hfields.2, Nat.or_zero] at heq
    exact heq

theorem claimStart_some (h : claimStart value n epoch rot eb = some bit) : getEpoch eb = epoch := by
  unfold claimStart at h
  split at h
  · cases h
  · rename_i he
    exact not_not.mp he

theorem claimRetry_some {index : Nat} (h : claimRetry value n epoch rot index eb = some bit) :
    getEpoch eb = epoch := by
  unfold claimRetry at h
  split at h
  · cases h
  · rename_i he
    exact not_not.mp he

theorem claimIndex_bit (hrot : rot < n) (h : claimIndex value n (eb % 2 ^ n) rot = some bit) :
    eb.testBit bit = value.bit := by
  have hlt := claimIndex_lt hrot h
  obtain ⟨k, -, -, hbit, -⟩ := claimIndex_some (Nat.mod_lt _ (Nat.two_pow_pos n)) hrot h
  rw [Nat.testBit_mod_two_pow] at hbit
  simpa [hlt] using hbit

/-- A claim chooses a bit that has the wanted value in the word it has read. -/
theorem claimStart_bit (hrot : rot < n) (h : claimStart value n epoch rot eb = some bit) :
    eb.testBit bit = value.bit := by
  unfold claimStart at h
  split at h
  · cases h
  · exact claimIndex_bit hrot h

theorem testBit_claimTest (hn : n ≤ 64) (value : ClaimValue) (raw index : Nat) {j : Nat}
    (hj : j < n) :
    (claimTest value n raw index).testBit j = if index = j then !value.bit else raw.testBit j := by
  unfold claimTest
  rw [Nat.testBit_mod_two_pow]
  cases value with
  | one =>
      rw [testBit_and_compl_bit index (by omega)]
      by_cases hij : index = j
      · simp [hj, hij, ClaimValue.bit]
      · simp [hj, hij]
  | zero =>
      rw [testBit_or_bit]
      by_cases hij : index = j
      · simp [hj, hij, ClaimValue.bit]
      · simp [hj, hij]

/-- Flipping a bit that no longer has the wanted value changes nothing. -/
theorem claimTest_eq_self {raw index : Nat} (hn : n ≤ 64) (hraw : raw < 2 ^ n)
    (hbit : raw.testBit index = !value.bit) : claimTest value n raw index = raw := by
  apply Nat.eq_of_testBit_eq
  intro j
  by_cases hj : j < n
  · rw [testBit_claimTest hn value raw index hj]
    split
    · rename_i hij
      rw [← hij, hbit]
    · rfl
  · have hpow : 2 ^ n ≤ 2 ^ j := Nat.pow_le_pow_right (by norm_num) (by omega)
    unfold claimTest
    rw [Nat.testBit_lt_two_pow (lt_of_lt_of_le hraw hpow), Nat.testBit_mod_two_pow]
    simp [hj]

theorem claimRetry_bit {index : Nat} (hn : n ≤ 64) (hrot : rot < n) (hindex : index < n)
    (h : claimRetry value n epoch rot index eb = some bit) : eb.testBit bit = value.bit := by
  unfold claimRetry at h
  split at h
  · cases h
  · split at h
    · exact claimIndex_bit hrot h
    · rename_i hflips
      obtain rfl : index = bit := Option.some.inj h
      -- else the claim would not have kept its bit
      by_contra hne
      apply hflips
      apply claimTest_eq_self hn (Nat.mod_lt _ (Nat.two_pow_pos n))
      rw [Nat.testBit_mod_two_pow, decide_eq_true hindex, Bool.true_and]
      exact Bool.eq_not_of_ne hne

/-- A bit that has the wanted value is flipped. -/
theorem claimTest_ne_self {raw : Nat} (hn : n ≤ 64) (hbit : bit < n)
    (hvalue : raw.testBit bit = value.bit) : claimTest value n raw bit ≠ raw := by
  intro heq
  have hflip := testBit_claimTest hn value raw bit hbit
  rw [heq, hvalue, if_pos rfl] at hflip
  cases value <;> cases hflip

/-- After a failure for no reason, the same bit is tried again. -/
theorem claimRetry_same (hn : n ≤ 64) (he : getEpoch eb = epoch) (hbit : bit < n)
    (hvalue : eb.testBit bit = value.bit) : claimRetry value n epoch rot bit eb = some bit := by
  have hraw : (eb % 2 ^ n).testBit bit = value.bit := by
    rw [Nat.testBit_mod_two_pow, decide_eq_true hbit, Bool.true_and, hvalue]
  unfold claimRetry
  rw [if_neg (not_not.mpr he), if_neg (claimTest_ne_self hn hbit hraw)]

theorem claimRetryNoEpoch_same {raw : Nat} (hn : n ≤ 64) (hbit : bit < n)
    (hvalue : raw.testBit bit = value.bit) : claimRetryNoEpoch value n rot bit raw = some bit :=
  if_neg (claimTest_ne_self hn hbit hvalue)

theorem claimIndex_zero_none_ne (hpos : 0 < n) (hn : n ≤ 32) (hrot : rot < n) (he : epoch < 2 ^ 32)
    (h : claimIndex .zero n (eb % 2 ^ n) rot = none) : eb ≠ makeUnit epoch := by
  intro heq
  rw [heq] at h
  have hbit := claimIndex_none (Nat.mod_lt _ (Nat.two_pow_pos n)) hrot h 0 hpos
  rw [(unitOk_makeUnit n epoch).mod_eq hn, getBits_makeUnit he] at hbit
  simp [ClaimValue.bit] at hbit

/-- A write claim that finds nothing has not seen an EMPTY unit of its epoch. -/
theorem claimStart_zero_none (hpos : 0 < n) (hn : n ≤ 32) (hrot : rot < n) (he : epoch < 2 ^ 32)
    (h : claimStart .zero n epoch rot eb = none) : eb ≠ makeUnit epoch := by
  unfold claimStart at h
  split at h
  · rename_i hne
    intro heq
    exact hne (heq ▸ getEpoch_makeUnit he)
  · exact claimIndex_zero_none_ne hpos hn hrot he h

theorem claimRetry_zero_none {index : Nat} (hpos : 0 < n) (hn : n ≤ 32) (hrot : rot < n)
    (he : epoch < 2 ^ 32) (h : claimRetry .zero n epoch rot index eb = none) :
    eb ≠ makeUnit epoch := by
  unfold claimRetry at h
  split at h
  · rename_i hne
    intro heq
    exact hne (heq ▸ getEpoch_makeUnit he)
  · split at h
    · exact claimIndex_zero_none_ne hpos hn hrot he h
    · cases h

/-- A read claim that finds nothing at its own epoch has seen an empty unit. -/
theorem claimStart_one_none (hn : n ≤ 32) (hrot : rot < n) (hok : UnitOk n eb)
    (h : claimStart .one n epoch rot eb = none) (he : getEpoch eb = epoch) :
    eb = makeUnit epoch := by
  unfold claimStart at h
  rw [if_neg (not_not.mpr he), hok.mod_eq hn] at h
  refine (hok.eq_makeUnit_iff (he ▸ hok.epoch_lt)).mpr ⟨he, ?_⟩
  refine (eq_zero_iff_testBit hok.bits).mpr fun i hi => ?_
  exact claimIndex_none hok.bits hrot h i hi

/-- A write claim sets its bit. -/
theorem claimDesired_zero (epoch : Nat) (hn : n ≤ 32) (hok : UnitOk n eb)
    (hbit : bit < n) :
    claimDesired .zero n epoch eb bit = makeUnit epoch ||| (getBits eb ||| 1 <<< bit) := by
  have hlt := or_bit_lt hok.bits hbit
  simp only [claimDesired, claimTest, reduceCtorEq, false_and, if_false, hok.mod_eq hn,
    Nat.mod_eq_of_lt hlt]

/-- The flag bits after a reset. -/
def clearedBits (bits bit : Nat) : Nat := bits &&& compl64 (1 <<< bit)

theorem testBit_clearedBits {bits i : Nat} (hi : i < 64) :
    (clearedBits bits bit).testBit i = (bits.testBit i && !decide (bit = i)) :=
  testBit_and_compl_bit bit hi

theorem clearedBits_lt {bits : Nat} (h : bits < 2 ^ n) (bit : Nat) : clearedBits bits bit < 2 ^ n :=
  lt_of_le_of_lt Nat.and_le_left h

/-- A reset clears its bit, and moves a unit left without bits on to the next epoch. -/
theorem resetDesired_eq (hn : n ≤ 32) (hok : UnitOk n eb) (hbit : bit < n) :
    resetDesired epoch eb bit =
      if clearedBits (getBits eb) bit = 0 then makeUnit (epoch + 1)
      else makeUnit (getEpoch eb) ||| clearedBits (getBits eb) bit := by
  have hlt : clearedBits (getBits eb) bit < 2 ^ 32 :=
    lt_of_lt_of_le (clearedBits_lt hok.bits _) (Nat.pow_le_pow_right (by norm_num) hn)
  have hunit : makeUnit (getEpoch eb) &&& compl64 (1 <<< bit) = makeUnit (getEpoch eb) := by
    refine Nat.eq_of_testBit_eq fun i => ?_
    by_cases hi : i < 64
    · rw [testBit_and_compl_bit bit hi, makeUnit_of_lt hok.epoch_lt, Nat.testBit_shiftLeft]
      -- the epoch has no bit below 32
      by_cases hib : bit = i
      · simp [show ¬ 32 ≤ i by omega]
      · simp [hib]
    · rw [Nat.testBit_and, makeUnit, Nat.testBit_mod_two_pow]
      simp [hi]
  have htest : eb &&& compl64 (1 <<< bit) =
      makeUnit (getEpoch eb) ||| clearedBits (getBits eb) bit := by
    conv_lhs => rw [eq_makeUnit_or hok.lt, Nat.and_or_distrib_right, hunit]
    rfl
  simp only [resetDesired]
  rw [htest, getBits_makeUnit_or hok.epoch_lt hlt]

end Unit

end RelaxedConcurrentFifo.AtomicBitset
