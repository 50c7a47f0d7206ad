/-
# RelaxedConcurrentFifo.AtomicBitset.ClaimBit — `claim_bit` on a whole window

Both classes claim a bit in the same way: the units of the window are looked through from the one with
`starting_bit` on, cyclically, and in each of them the bits from `starting_bit % bit_count` on, cyclically
again. Without interference the call returns the first bit in this order that has the value, in a unit
of the epoch, and changes nothing but that bit.

A weak compare-and-swap may fail although the word is the expected one; how often it does is given to the
call from outside.
-/
import RelaxedConcurrentFifo.AtomicBitset.Interleaved
import Mathlib.Data.List.Find

namespace RelaxedConcurrentFifo.AtomicBitset

open RelaxedConcurrentFifo.Lib.Words

/-! ## §1 — both classes, translated -/

/-- The inner loop of `claim_bit_singular`, which returns the bit and leaves a unit. -/
def claimCas (value : ClaimValue) (bitCount epoch initialRot eb : Nat) : (fails index : Nat) →
    Option Nat × Nat
  | 0, index => (some index, claimDesired value bitCount epoch eb index)
  | fails + 1, index =>
      match claimRetry value bitCount epoch initialRot index eb with
      | none => (none, eb)
      | some index => claimCas value bitCount epoch initialRot eb fails index

/-- `atomic_bitset::claim_bit_singular`. -/
def claimBitSingular (value : ClaimValue) (mode : ClaimMode) (bitCount epoch initialRot fails eb : Nat) :
    Option Nat × Nat :=
  match claimStart value bitCount epoch initialRot eb with
  | none => (none, eb)
  | some index =>
      match mode with
      | .readWrite => claimCas value bitCount epoch initialRot eb fails index
      | .readOnly => (some index, eb)

/-- The inner loop of `claim_bit_singular` without epochs. -/
def claimCasNoEpoch (value : ClaimValue) (bitCount initialRot raw : Nat) : (fails index : Nat) →
    Option Nat × Nat
  | 0, index => (some index, claimTest value bitCount raw index)
  | fails + 1, index =>
      match claimRetryNoEpoch value bitCount initialRot index raw with
      | none => (none, raw)
      | some index => claimCasNoEpoch value bitCount initialRot raw fails index

/-- `atomic_bitset_no_epoch::claim_bit_singular`. -/
def claimBitSingularNoEpoch (value : ClaimValue) (mode : ClaimMode) (bitCount initialRot fails raw : Nat) :
    Option Nat × Nat :=
  match claimIndex value bitCount raw initialRot with
  | none => (none, raw)
  | some index =>
      match mode with
      | .readWrite => claimCasNoEpoch value bitCount initialRot raw fails index
      | .readOnly => (some index, raw)

/-- The sizes of a bitset; a window has a power of two of units. -/
structure Sizes where
  windowCount : Nat
  unitsPerWindow : Nat
  po2 : ∃ k, unitsPerWindow = 2 ^ k

/-- `units_per_window_mod_mask`. -/
def Sizes.unitsPerWindowModMask (s : Sizes) : Nat := s.unitsPerWindow - 1

/-- The loop of `claim_bit` over the units of a window; `none` if a unit is not one of `data`. -/
def claimBitLoop (s : Sizes) (bitCount windowIndex off : Nat) (singular : Nat → Nat → Option Nat × Nat)
    (data : List Nat) : List Nat → Option (Option Nat × List Nat)
  | [] => some (none, data)
  | i :: is => do
      let index := (i + off) &&& s.unitsPerWindowModMask
      let unit ← data[windowIndex * s.unitsPerWindow + index]?
      let (ret, unit) := singular i unit
      let data := data.set (windowIndex * s.unitsPerWindow + index) unit
      match ret with
      | some ret => some (some (ret + index * bitCount), data)
      | none => claimBitLoop s bitCount windowIndex off singular data is

/-- `atomic_bitset::claim_bit`. -/
def claimBit (arr : ArrType) (s : Sizes) (value : ClaimValue) (mode : ClaimMode) (fails : Nat → Nat)
    (data : List Nat) (windowIndex startingBit epoch : Nat) : Option (Option Nat × List Nat) :=
  claimBitLoop s arr.bitCount windowIndex (startingBit / arr.bitCount)
    (fun i eb => claimBitSingular value mode arr.bitCount epoch (startingBit % arr.bitCount) (fails i) eb)
    data (List.range s.unitsPerWindow)

/-- `atomic_bitset_no_epoch::claim_bit`. -/
def claimBitNoEpoch (arr : ArrType) (s : Sizes) (value : ClaimValue) (mode : ClaimMode) (fails : Nat → Nat)
    (data : List Nat) (windowIndex startingBit : Nat) : Option (Option Nat × List Nat) :=
  claimBitLoop s arr.bitCount windowIndex (startingBit / arr.bitCount)
    (fun i raw => claimBitSingularNoEpoch value mode arr.bitCount (startingBit % arr.bitCount) (fails i) raw)
    data (List.range s.unitsPerWindow)

/-! ## §2 — one unit -/

/-- The bits of a unit, from `rot` on. -/
def rotated (n rot : Nat) : List Nat := (List.range n).map fun j => (rot + j) % n

section Unit

variable {value : ClaimValue} {mode : ClaimMode} {n epoch rot eb bit : Nat}

theorem mem_rotated (hrot : rot < n) : bit ∈ rotated n rot ↔ bit < n := by
  constructor
  · intro h
    obtain ⟨j, -, rfl⟩ := List.mem_map.mp h
    exact Nat.mod_lt _ (by omega)
  · intro h
    refine List.mem_map.mpr ⟨(bit + (n - rot)) % n, ?_, ?_⟩
    · exact List.mem_range.mpr (Nat.mod_lt _ (by omega))
    · have hback : rot + (bit + (n - rot)) = bit + n := by omega
      rw [Nat.add_mod_mod, hback, Nat.add_mod_right, Nat.mod_eq_of_lt h]

/-- **The rotation and the count find the first bit with the value.** -/
theorem claimIndex_eq_find {raw : Nat} (hraw : raw < 2 ^ n) (hrot : rot < n) :
    claimIndex value n raw rot = (rotated n rot).find? fun i => raw.testBit i == value.bit := by
  cases hindex : claimIndex value n raw rot with
  | none =>
      symm
      apply List.find?_eq_none.mpr
      intro i hi
      have hbit := claimIndex_none hraw hrot hindex i ((mem_rotated hrot).mp hi)
      simp [hbit]
  | some index =>
      obtain ⟨k, hk, rfl, hbit, hbefore⟩ := claimIndex_some hraw hrot hindex
      symm
      rw [rotated, List.find?_map]
      have hfirst : (List.range n).find? ((fun i => raw.testBit i == value.bit) ∘ fun j => (rot + j) % n) =
          some k := by
        rw [List.find?_range_eq_some]
        refine ⟨by simp [hbit], List.mem_range.mpr hk, fun j hj => ?_⟩
        simp [hbefore j hj]
      rw [hfirst]
      rfl

/-- The bit of a unit of the epoch that a claim is for. -/
def firstBit (value : ClaimValue) (n epoch rot eb : Nat) : Option Nat :=
  (rotated n rot).find? fun i => getEpoch eb == epoch && eb.testBit i == value.bit

theorem claimStart_eq_find (hrot : rot < n) :
    claimStart value n epoch rot eb = firstBit value n epoch rot eb := by
  unfold claimStart firstBit
  by_cases he : getEpoch eb = epoch
  · rw [if_neg (not_not.mpr he), claimIndex_eq_find (Nat.mod_lt _ (Nat.two_pow_pos n)) hrot]
    apply List.find?_congr
    intro i hi
    have hlt := (mem_rotated hrot).mp hi
    simp [he, Nat.testBit_mod_two_pow, hlt]
  · rw [if_pos he]
    symm
    apply List.find?_eq_none.mpr
    intro i _
    simp [he]

theorem firstBit_some (hrot : rot < n) (h : firstBit value n epoch rot eb = some bit) :
    bit < n ∧ getEpoch eb = epoch ∧ eb.testBit bit = value.bit := by
  have hmem := List.mem_of_find?_eq_some h
  have hbit := List.find?_some h
  simp only [Bool.and_eq_true, beq_iff_eq] at hbit
  exact ⟨(mem_rotated hrot).mp hmem, hbit.1, hbit.2⟩

/-- Failures for no reason change nothing. -/
theorem claimCas_eq (hn : n ≤ 64) (he : getEpoch eb = epoch) (hbit : bit < n)
    (hvalue : eb.testBit bit = value.bit) (fails : Nat) :
    claimCas value n epoch rot eb fails bit = (some bit, claimDesired value n epoch eb bit) := by
  induction fails with
  | zero => rfl
  | succ fails ih =>
      rw [claimCas, claimRetry_same hn he hbit hvalue]
      exact ih

theorem claimCasNoEpoch_eq {raw : Nat} (hn : n ≤ 64) (hbit : bit < n)
    (hvalue : raw.testBit bit = value.bit) (fails : Nat) :
    claimCasNoEpoch value n rot raw fails bit = (some bit, claimTest value n raw bit) := by
  induction fails with
  | zero => rfl
  | succ fails ih =>
      rw [claimCasNoEpoch, claimRetryNoEpoch_same hn hbit hvalue]
      exact ih

/-- What a claim leaves of a unit: only `READ_WRITE` changes the unit of the bit. -/
def stored (mode : ClaimMode) (desired : Nat → Nat) (unit : Nat) : Option Nat → Nat
  | none => unit
  | some bit =>
      match mode with
      | .readWrite => desired bit
      | .readOnly => unit

/-- **`claim_bit_singular` returns the first bit and changes that bit only.** -/
theorem claimBitSingular_eq (hn : n ≤ 64) (hrot : rot < n) (mode : ClaimMode) (fails : Nat) :
    claimBitSingular value mode n epoch rot fails eb =
      (firstBit value n epoch rot eb,
        stored mode (claimDesired value n epoch eb) eb (firstBit value n epoch rot eb)) := by
  unfold claimBitSingular
  rw [claimStart_eq_find hrot]
  cases hfirst : firstBit value n epoch rot eb with
  | none => rfl
  | some bit =>
      obtain ⟨hbit, he, hvalue⟩ := firstBit_some hrot hfirst
      cases mode with
      | readWrite => exact claimCas_eq hn he hbit hvalue fails
      | readOnly => rfl

/-- The bit of a unit without an epoch that a claim is for. -/
def firstBitNoEpoch (value : ClaimValue) (n rot raw : Nat) : Option Nat :=
  (rotated n rot).find? fun i => raw.testBit i == value.bit

theorem claimBitSingularNoEpoch_eq {raw : Nat} (hn : n ≤ 64) (hrot : rot < n) (hraw : raw < 2 ^ n)
    (mode : ClaimMode) (fails : Nat) :
    claimBitSingularNoEpoch value mode n rot fails raw =
      (firstBitNoEpoch value n rot raw,
        stored mode (claimTest value n raw) raw (firstBitNoEpoch value n rot raw)) := by
  have hindex : claimIndex value n raw rot = firstBitNoEpoch value n rot raw := claimIndex_eq_find hraw hrot
  unfold claimBitSingularNoEpoch
  rw [hindex]
  cases hfirst : firstBitNoEpoch value n rot raw with
  | none => rfl
  | some bit =>
      have hbit := (mem_rotated hrot).mp (List.mem_of_find?_eq_some hfirst)
      have hvalue := List.find?_some hfirst
      cases mode with
      | readWrite => exact claimCasNoEpoch_eq hn hbit (beq_iff_eq.mp hvalue) fails
      | readOnly => rfl

/-! ## §3 — what becomes of the unit of the bit -/

/-- A unit of which one bit has been claimed; without its last set bit, it is one of the next epoch. -/
structure Claimed (value : ClaimValue) (n epoch bit unit unit' : Nat) : Prop where
  last : value = .one → (∀ j < n, j ≠ bit → unit.testBit j = false) →
    getEpoch unit' = epoch + 1 ∧ getBits unit' = 0
  flipped : ¬ (value = .one ∧ ∀ j < n, j ≠ bit → unit.testBit j = false) →
    getEpoch unit' = epoch ∧ getBits unit' < 2 ^ n ∧
      ∀ j < n, unit'.testBit j = if j = bit then !value.bit else unit.testBit j

/-- A unit without an epoch of which one bit has been claimed. -/
structure ClaimedNoEpoch (value : ClaimValue) (n bit unit unit' : Nat) : Prop where
  lt : unit' < 2 ^ n
  flipped : ∀ j < n, unit'.testBit j = if j = bit then !value.bit else unit.testBit j

theorem claimTest_lt (value : ClaimValue) (n raw bit : Nat) : claimTest value n raw bit < 2 ^ n :=
  Nat.mod_lt _ (Nat.two_pow_pos n)

theorem claimTest_claimed (hn : n ≤ 64) (raw : Nat) :
    ClaimedNoEpoch value n bit raw (claimTest value n raw bit) := by
  refine ⟨claimTest_lt _ _ _ _, fun j hj => ?_⟩
  rw [testBit_claimTest hn value raw bit hj]
  simp only [eq_comm]

/-- The bits of a claimed unit. -/
theorem testBit_claimTest_mod (hn : n ≤ 64) {j : Nat} (hj : j < n) :
    (claimTest value n (eb % 2 ^ n) bit).testBit j = if j = bit then !value.bit else eb.testBit j := by
  rw [(claimTest_claimed hn (eb % 2 ^ n)).flipped j hj, Nat.testBit_mod_two_pow]
  simp [hj]

theorem claimTest_eq_zero_iff (hn : n ≤ 64) :
    claimTest .one n (eb % 2 ^ n) bit = 0 ↔ ∀ j < n, j ≠ bit → eb.testBit j = false := by
  rw [eq_zero_iff_testBit (claimTest_lt _ _ _ _)]
  apply forall_congr'
  intro j
  apply forall_congr'
  intro hj
  rw [testBit_claimTest_mod hn hj]
  by_cases hbit : j = bit
  · simp [hbit, ClaimValue.bit]
  · simp [hbit]

theorem testBit_getBits {unit j : Nat} (hj : j < 32) : (getBits unit).testBit j = unit.testBit j := by
  rw [getBits_eq_mod, Nat.testBit_mod_two_pow, decide_eq_true hj, Bool.true_and]

theorem claimDesired_claimed (hn : n ≤ 32) (he : epoch + 1 < 2 ^ 32) :
    Claimed value n epoch bit eb (claimDesired value n epoch eb bit) := by
  have hn' : n ≤ 64 := by omega
  have htest : claimTest value n (eb % 2 ^ n) bit < 2 ^ 32 :=
    (claimTest_lt _ _ _ _).trans_le (Nat.pow_le_pow_right (by decide) hn)
  constructor
  · intro hvalue hlast
    subst hvalue
    unfold claimDesired
    rw [if_pos ⟨rfl, (claimTest_eq_zero_iff hn').mpr hlast⟩]
    exact ⟨getEpoch_makeUnit he, getBits_makeUnit he⟩
  · intro hnot
    have hkeep : ¬ (value = .one ∧ claimTest value n (eb % 2 ^ n) bit = 0) := by
      rintro ⟨rfl, hzero⟩
      exact hnot ⟨rfl, (claimTest_eq_zero_iff hn').mp hzero⟩
    have he' : epoch < 2 ^ 32 := by omega
    have hbits := getBits_makeUnit_or he' htest
    unfold claimDesired
    rw [if_neg hkeep]
    refine ⟨getEpoch_makeUnit_or he' htest, by rw [hbits]; exact claimTest_lt _ _ _ _, fun j hj => ?_⟩
    -- below bit 32 there is nothing but the bits
    rw [← testBit_claimTest_mod hn' hj, ← testBit_getBits (by omega), hbits]

end Unit

/-! ## §4 — the units of a window -/

/-- A unit of a window. -/
def windowUnit (s : Sizes) (data : List Nat) (window u : Nat) : Nat :=
  data.getD (window * s.unitsPerWindow + u) 0

/-- The bits of a window in the order in which a claim looks at them. -/
def order (s : Sizes) (n start : Nat) : List Nat :=
  (rotated s.unitsPerWindow (start / n)).flatMap fun u => (rotated n (start % n)).map fun b => b + u * n

/-- The window after a claim that has found a bit, or none. -/
def afterClaim (s : Sizes) (mode : ClaimMode) (n window : Nat) (desired : Nat → Nat → Nat)
    (data : List Nat) : Option Nat → List Nat
  | none => data
  | some i =>
      data.set (window * s.unitsPerWindow + i / n)
        (stored mode (desired (windowUnit s data window (i / n))) (windowUnit s data window (i / n))
          (some (i % n)))

section Window

variable {s : Sizes} {n window start : Nat} {data : List Nat}

theorem Sizes.pos (s : Sizes) : 0 < s.unitsPerWindow := by
  obtain ⟨k, hk⟩ := s.po2
  rw [hk]
  exact Nat.two_pow_pos k

/-- The mask is a remainder. -/
theorem Sizes.and_mask (s : Sizes) (i off : Nat) :
    (i + off) &&& s.unitsPerWindowModMask = (off + i) % s.unitsPerWindow := by
  obtain ⟨k, hk⟩ := s.po2
  rw [Sizes.unitsPerWindowModMask, hk, Nat.and_two_pow_sub_one_eq_mod, Nat.add_comm]

/-- The loop over the units, in terms of what is found in each of them. -/
theorem claimBitLoop_eq (mode : ClaimMode) (off : Nat) {singular : Nat → Nat → Option Nat × Nat}
    {scan : Nat → Option Nat}
    {desired : Nat → Nat → Nat} (hlt : ∀ unit b, scan unit = some b → b < n)
    (hin : ∀ u < s.unitsPerWindow, window * s.unitsPerWindow + u < data.length)
    (hsingular : ∀ i, ∀ unit ∈ data,
      singular i unit = (scan unit, stored mode (desired unit) unit (scan unit))) (is : List Nat) :
    claimBitLoop s n window off singular data is =
      some ((is.map fun i => (off + i) % s.unitsPerWindow).findSome? (fun u =>
          (scan (windowUnit s data window u)).map fun b => b + u * n),
        afterClaim s mode n window desired data
          ((is.map fun i => (off + i) % s.unitsPerWindow).findSome? (fun u =>
            (scan (windowUnit s data window u)).map fun b => b + u * n))) := by
  induction is with
  | nil => rfl
  | cons i is ih =>
      have hu : (off + i) % s.unitsPerWindow < s.unitsPerWindow := Nat.mod_lt _ s.pos
      rw [claimBitLoop, s.and_mask]
      simp only [List.map_cons, List.findSome?_cons]
      generalize (off + i) % s.unitsPerWindow = u at hu ⊢
      have hplace := hin u hu
      have hunit : data[window * s.unitsPerWindow + u]? = some (windowUnit s data window u) := by
        rw [windowUnit, List.getD_eq_getElem?_getD, List.getElem?_eq_getElem hplace]
        rfl
      rw [hunit]
      simp only [Option.bind_eq_bind, Option.bind_some]
      rw [hsingular i _ (List.mem_of_getElem? hunit)]
      cases hscan : scan (windowUnit s data window u) with
      | none =>
          have hsame : data.set (window * s.unitsPerWindow + u) (windowUnit s data window u) = data := by
            obtain ⟨hlt', heq⟩ := List.getElem?_eq_some_iff.mp hunit
            rw [← heq]
            exact List.set_getElem_self hlt'
          simp only [stored, hsame, Option.map_none]
          exact ih
      | some b =>
          have hb := hlt _ _ hscan
          have hdiv : (b + u * n) / n = u := by
            rw [Nat.add_mul_div_right _ _ (by omega), Nat.div_eq_of_lt hb, Nat.zero_add]
          have hmod : (b + u * n) % n = b := by rw [Nat.add_mul_mod_self_right, Nat.mod_eq_of_lt hb]
          simp only [Option.map_some, afterClaim, hdiv, hmod]

/-- Looking through the order is looking through the units, and through each of them. -/
theorem find_order (s : Sizes) (eligible : Nat → Bool) (scan : Nat → Option Nat)
    (hscan : ∀ u, scan u = (rotated n (start % n)).find? fun b => eligible (b + u * n)) :
    (order s n start).find? eligible =
      (rotated s.unitsPerWindow (start / n)).findSome? fun u => (scan u).map fun b => b + u * n := by
  rw [order, List.find?_flatMap]
  congr 1
  funext u
  rw [List.find?_map, hscan]
  rfl

/-- The order goes through every bit of the window. -/
theorem mem_order (hn : 0 < n) (hstart : start < s.unitsPerWindow * n) {i : Nat} :
    i ∈ order s n start ↔ i < s.unitsPerWindow * n := by
  have hoff : start / n < s.unitsPerWindow := (Nat.div_lt_iff_lt_mul hn).mpr hstart
  have hrot : start % n < n := Nat.mod_lt _ hn
  simp only [order, List.mem_flatMap, List.mem_map, mem_rotated hoff, mem_rotated hrot]
  constructor
  · rintro ⟨u, hu, b, hb, rfl⟩
    calc b + u * n < n + u * n := Nat.add_lt_add_right hb _
      _ = (u + 1) * n := by ring
      _ ≤ s.unitsPerWindow * n := Nat.mul_le_mul_right n hu
  · intro hi
    refine ⟨i / n, (Nat.div_lt_iff_lt_mul hn).mpr hi, i % n, Nat.mod_lt _ hn, ?_⟩
    exact Nat.mod_add_div' i n

end Window

/-! ## §5 — what a claim finds, and what it changes -/

/-- The stored units, of `width` bits each. -/
structure ContentOk (s : Sizes) (width : Nat) (data : List Nat) : Prop where
  length : data.length = s.windowCount * s.unitsPerWindow
  word : ∀ unit ∈ data, unit < 2 ^ width

/-- A claim finds the first bit of the window that is eligible, and changes its unit only. -/
structure ClaimsFirst (s : Sizes) (mode : ClaimMode) (n window start : Nat) (eligible : Nat → Nat → Bool)
    (Change : Nat → Nat → Nat → Prop) (data : List Nat) (found : Option Nat) (data' : List Nat) : Prop where
  first : found = (order s n start).find? fun i => eligible (windowUnit s data window (i / n)) (i % n)
  none_iff : found = none ↔
    ∀ i < s.unitsPerWindow * n, eligible (windowUnit s data window (i / n)) (i % n) = false
  lt : ∀ i, found = some i → i < s.unitsPerWindow * n
  readOnly : mode = .readOnly → data' = data
  readWrite : mode = .readWrite → ∀ i, found = some i →
    Change (i % n) (windowUnit s data window (i / n)) (windowUnit s data' window (i / n))
  others : data'.length = data.length ∧
    ∀ place, (∀ i, found = some i → place ≠ window * s.unitsPerWindow + i / n) → data'[place]? = data[place]?

section Claims

variable {s : Sizes} {mode : ClaimMode} {n window start width : Nat} {data : List Nat}

/-- The units of a window are among the stored ones. -/
theorem ContentOk.place_lt (h : ContentOk s width data) (hwindow : window < s.windowCount) :
    ∀ u < s.unitsPerWindow, window * s.unitsPerWindow + u < data.length := by
  intro u hu
  rw [h.length]
  calc window * s.unitsPerWindow + u < window * s.unitsPerWindow + s.unitsPerWindow :=
        Nat.add_lt_add_left hu _
    _ = (window + 1) * s.unitsPerWindow := by ring
    _ ≤ s.windowCount * s.unitsPerWindow := Nat.mul_le_mul_right _ hwindow

/-- The loop over the units claims the first bit. -/
theorem claimBitLoop_first (desired : Nat → Nat → Nat) {singular : Nat → Nat → Option Nat × Nat}
    {eligible : Nat → Nat → Bool} {Change : Nat → Nat → Nat → Prop} (hn : 0 < n)
    (hdata : ContentOk s width data) (hwindow : window < s.windowCount)
    (hstart : start < s.unitsPerWindow * n)
    (hsingular : ∀ i, ∀ unit ∈ data, singular i unit =
      ((rotated n (start % n)).find? (eligible unit),
        stored mode (desired unit) unit ((rotated n (start % n)).find? (eligible unit))))
    (hchange : ∀ unit bit, Change bit unit (desired unit bit)) :
    ∃ found data', claimBitLoop s n window (start / n) singular data (List.range s.unitsPerWindow) =
      some (found, data') ∧ ClaimsFirst s mode n window start eligible Change data found data' := by
  have hrot : start % n < n := Nat.mod_lt _ hn
  have hlt : ∀ unit b, (rotated n (start % n)).find? (eligible unit) = some b → b < n :=
    fun unit b hb => (mem_rotated hrot).mp (List.mem_of_find?_eq_some hb)
  have hplace := hdata.place_lt hwindow
  have hloop := claimBitLoop_eq mode (start / n) hlt hplace hsingular (List.range s.unitsPerWindow)
  refine ⟨_, _, hloop, ?_⟩
  have hscan : ∀ u, (rotated n (start % n)).find? (eligible (windowUnit s data window u)) =
      (rotated n (start % n)).find? fun b =>
        eligible (windowUnit s data window ((b + u * n) / n)) ((b + u * n) % n) := by
    intro u
    apply List.find?_congr
    intro b hb
    have hb := (mem_rotated hrot).mp hb
    rw [Nat.add_mul_div_right _ _ hn, Nat.div_eq_of_lt hb, Nat.zero_add, Nat.add_mul_mod_self_right,
      Nat.mod_eq_of_lt hb]
  have hfirst := find_order s (fun i => eligible (windowUnit s data window (i / n)) (i % n))
    (fun u => (rotated n (start % n)).find? (eligible (windowUnit s data window u))) hscan
  have hrange : (List.range s.unitsPerWindow).map (fun i => (start / n + i) % s.unitsPerWindow) =
      rotated s.unitsPerWindow (start / n) := rfl
  rw [hrange, ← hfirst]
  generalize hfound : (order s n start).find? _ = found
  have hltFound : ∀ i, found = some i → i < s.unitsPerWindow * n := by
    intro i hi
    rw [hi] at hfound
    exact (mem_order hn hstart).mp (List.mem_of_find?_eq_some hfound)
  refine ⟨hfound.symm, ?_, hltFound, ?_, ?_, ?_⟩
  · rw [← hfound, List.find?_eq_none]
    constructor
    · intro h i hi
      simpa using h i ((mem_order hn hstart).mpr hi)
    · intro h i hi
      simpa using h i ((mem_order hn hstart).mp hi)
  · rintro rfl
    cases found with
    | none => rfl
    | some i =>
        have hlt : window * s.unitsPerWindow + i / n < data.length :=
          hplace _ ((Nat.div_lt_iff_lt_mul hn).mpr (hltFound i rfl))
        have hunit : windowUnit s data window (i / n) = data[window * s.unitsPerWindow + i / n] := by
          rw [windowUnit, List.getD_eq_getElem?_getD, List.getElem?_eq_getElem]
          rfl
        show data.set _ (windowUnit s data window (i / n)) = data
        rw [hunit]
        exact List.set_getElem_self _
  · rintro rfl i rfl
    have hi := hplace _ ((Nat.div_lt_iff_lt_mul hn).mpr (hltFound i rfl))
    have hunit : windowUnit s (afterClaim s .readWrite n window desired data (some i)) window (i / n) =
        desired (windowUnit s data window (i / n)) (i % n) := by
      rw [afterClaim, windowUnit, List.getD_eq_getElem?_getD, List.getElem?_set_self hi]
      rfl
    rw [hunit]
    exact hchange _ _
  · cases found with
    | none => exact ⟨rfl, fun _ _ => rfl⟩
    | some i =>
        refine ⟨List.length_set, fun place hne => ?_⟩
        exact List.getElem?_set_ne (hne i rfl).symm

end Claims

/-- A bit that a claim is for, in a unit of the epoch. -/
def isClaimable (value : ClaimValue) (epoch unit bit : Nat) : Bool :=
  getEpoch unit == epoch && unit.testBit bit == value.bit

/-- A bit that a claim is for, in a unit without an epoch. -/
def isClaimableNoEpoch (value : ClaimValue) (unit bit : Nat) : Bool := unit.testBit bit == value.bit

theorem ArrType.bitCount_pos (arr : ArrType) : 0 < arr.bitCount := by
  cases arr <;> decide

section Classes

variable (arr : ArrType) (s : Sizes) (value : ClaimValue) (mode : ClaimMode) (fails : Nat → Nat)
  {window start : Nat} (hwindow : window < s.windowCount) (hstart : start < s.unitsPerWindow * arr.bitCount)

include hwindow hstart

theorem claimBit_first {data : List Nat} (hdata : ContentOk s 64 data) (epoch : Epoch) :
    ∃ found data', claimBit arr s value mode fails data window start epoch.val = some (found, data') ∧
      ClaimsFirst s mode arr.bitCount window start (isClaimable value epoch.val)
        (Claimed value arr.bitCount epoch.val) data found data' := by
  have hn := arr.bitCount_le
  refine claimBitLoop_first (claimDesired value arr.bitCount epoch.val) arr.bitCount_pos hdata hwindow hstart ?_ ?_
  · intro i unit _
    exact claimBitSingular_eq (by omega) (Nat.mod_lt _ arr.bitCount_pos) mode (fails i)
  · intro unit bit
    exact claimDesired_claimed hn epoch.succ_lt

theorem claimBitNoEpoch_first {data : List Nat} (hdata : ContentOk s arr.bitCount data) :
    ∃ found data', claimBitNoEpoch arr s value mode fails data window start = some (found, data') ∧
      ClaimsFirst s mode arr.bitCount window start (isClaimableNoEpoch value)
        (ClaimedNoEpoch value arr.bitCount) data found data' := by
  have hn := arr.bitCount_le
  refine claimBitLoop_first (claimTest value arr.bitCount) arr.bitCount_pos hdata hwindow hstart ?_ ?_
  · intro i unit hunit
    exact claimBitSingularNoEpoch_eq (by omega) (Nat.mod_lt _ arr.bitCount_pos) (hdata.word unit hunit) mode
      (fails i)
  · intro unit bit
    exact claimTest_claimed (by omega) unit

end Classes

/-! ## §6 — both classes on the same bits -/

/-- The bits of every unit, without its epoch. -/
def bitsOf (n : Nat) (data : List Nat) : List Nat := data.map (· % 2 ^ n)

section Agreement

variable {s : Sizes} {value : ClaimValue} {mode : ClaimMode} {n window start epoch : Nat} {data : List Nat}

theorem windowUnit_bitsOf (s : Sizes) (n : Nat) (data : List Nat) (window u : Nat) :
    windowUnit s (bitsOf n data) window u = windowUnit s data window u % 2 ^ n := by
  simp only [windowUnit, bitsOf, List.getD_eq_getElem?_getD, List.getElem?_map]
  cases data[window * s.unitsPerWindow + u]? with
  | none => exact (Nat.zero_mod _).symm
  | some unit => rfl

theorem ContentOk.bitsOf {s : Sizes} {width : Nat} {data : List Nat} (h : ContentOk s width data) (n : Nat) :
    ContentOk s n (bitsOf n data) := by
  refine ⟨(List.length_map _).trans h.length, fun unit hunit => ?_⟩
  obtain ⟨unit, -, rfl⟩ := List.mem_map.mp hunit
  exact Nat.mod_lt _ (Nat.two_pow_pos n)

/-- Claiming the same bit leaves the same bits. -/
theorem Claimed.mod_eq {bit unit unit' raw' : Nat} (hn : n ≤ 32) (h : Claimed value n epoch bit unit unit')
    (hraw : ClaimedNoEpoch value n bit (unit % 2 ^ n) raw') : unit' % 2 ^ n = raw' := by
  apply Nat.eq_of_testBit_eq
  intro j
  by_cases hj : j < n
  · rw [hraw.flipped j hj, Nat.testBit_mod_two_pow, Nat.testBit_mod_two_pow, decide_eq_true hj,
      Bool.true_and, Bool.true_and]
    by_cases hlast : value = .one ∧ ∀ j < n, j ≠ bit → unit.testBit j = false
    · obtain ⟨rfl, hlast⟩ := hlast
      obtain ⟨-, hbits⟩ := h.last rfl hlast
      have hzero : unit'.testBit j = false := by
        rw [← testBit_getBits (by omega), hbits, Nat.zero_testBit]
      rw [hzero]
      by_cases hbit : j = bit
      · simp [hbit, ClaimValue.bit]
      · simp [hbit, hlast j hj hbit]
    · exact (h.flipped hlast).2.2 j hj
  · have hpow : 2 ^ n ≤ 2 ^ j := Nat.pow_le_pow_right (by decide) (Nat.le_of_not_lt hj)
    rw [Nat.testBit_lt_two_pow (hraw.lt.trans_le hpow), Nat.testBit_mod_two_pow]
    simp [hj]

/-- What two claims on the same bits find and leave. -/
theorem ClaimsFirst.agree {found found' : Option Nat} {data' raw' : List Nat} (hn : 0 < n) (hle : n ≤ 32)
    (hepoch : ∀ u < s.unitsPerWindow, getEpoch (windowUnit s data window u) = epoch)
    (hin : ∀ u < s.unitsPerWindow, window * s.unitsPerWindow + u < data.length)
    (hstart : start < s.unitsPerWindow * n)
    (h : ClaimsFirst s mode n window start (isClaimable value epoch) (Claimed value n epoch) data found data')
    (h' : ClaimsFirst s mode n window start (isClaimableNoEpoch value) (ClaimedNoEpoch value n)
      (bitsOf n data) found' raw') : found' = found ∧ raw' = bitsOf n data' := by
  have hfound : found' = found := by
    rw [h.first, h'.first]
    apply List.find?_congr
    intro i hi
    have hi := (mem_order hn hstart).mp hi
    have hbit : i % n < n := Nat.mod_lt _ hn
    rw [windowUnit_bitsOf, isClaimable, isClaimableNoEpoch, hepoch _ ((Nat.div_lt_iff_lt_mul hn).mpr hi),
      Nat.testBit_mod_two_pow]
    simp [hbit]
  subst hfound
  refine ⟨rfl, ?_⟩
  cases mode with
  | readOnly => rw [h.readOnly rfl, h'.readOnly rfl]
  | readWrite =>
      apply List.ext_getElem?
      intro place
      have hmap : (bitsOf n data')[place]? = data'[place]?.map (· % 2 ^ n) := List.getElem?_map
      by_cases hplace : ∃ i, found' = some i ∧ place = window * s.unitsPerWindow + i / n
      · obtain ⟨i, rfl, rfl⟩ := hplace
        have hi := hin _ ((Nat.div_lt_iff_lt_mul hn).mpr (h.lt i rfl))
        have hunit' : data'[window * s.unitsPerWindow + i / n]? = some (windowUnit s data' window (i / n)) := by
          rw [windowUnit, List.getD_eq_getElem?_getD, List.getElem?_eq_getElem (h.others.1 ▸ hi)]
          rfl
        have hlen : raw'.length = data.length := h'.others.1.trans (List.length_map _)
        have hraw' : raw'[window * s.unitsPerWindow + i / n]? = some (windowUnit s raw' window (i / n)) := by
          rw [windowUnit, List.getD_eq_getElem?_getD, List.getElem?_eq_getElem (hlen ▸ hi)]
          rfl
        have hclaimed := h.readWrite rfl i rfl
        have hclaimed' := h'.readWrite rfl i rfl
        rw [windowUnit_bitsOf] at hclaimed'
        rw [hmap, hunit', hraw', Option.map_some, hclaimed.mod_eq hle hclaimed']
      · have hother : ∀ i, found' = some i → place ≠ window * s.unitsPerWindow + i / n :=
          fun i hi heq => hplace ⟨i, hi, heq⟩
        rw [hmap, h.others.2 place hother, h'.others.2 place hother]
        exact List.getElem?_map

end Agreement

/-- **Both classes claim the first bit in rotated order, and on the same bits they do the same.** -/
theorem claim_bit_first (arr : ArrType) (s : Sizes) (value : ClaimValue) (mode : ClaimMode)
    {window start : Nat} (hwindow : window < s.windowCount)
    (hstart : start < s.unitsPerWindow * arr.bitCount) :
    (∀ data, ContentOk s 64 data → ∀ (epoch : Epoch) fails, ∃ found data',
      claimBit arr s value mode fails data window start epoch.val = some (found, data') ∧
        ClaimsFirst s mode arr.bitCount window start (isClaimable value epoch.val)
          (Claimed value arr.bitCount epoch.val) data found data') ∧
    (∀ data, ContentOk s arr.bitCount data → ∀ fails, ∃ found data',
      claimBitNoEpoch arr s value mode fails data window start = some (found, data') ∧
        ClaimsFirst s mode arr.bitCount window start (isClaimableNoEpoch value)
          (ClaimedNoEpoch value arr.bitCount) data found data') ∧
    ∀ data, ContentOk s 64 data → ∀ epoch : Epoch,
      (∀ u < s.unitsPerWindow, getEpoch (windowUnit s data window u) = epoch.val) → ∀ fails fails',
        claimBitNoEpoch arr s value mode fails' (bitsOf arr.bitCount data) window start =
          (claimBit arr s value mode fails data window start epoch.val).map fun r =>
            (r.1, bitsOf arr.bitCount r.2) := by
  refine ⟨?_, ?_, ?_⟩
  · intro data hdata epoch fails
    exact claimBit_first arr s value mode fails hwindow hstart hdata epoch
  · intro data hdata fails
    exact claimBitNoEpoch_first arr s value mode fails hwindow hstart hdata
  · intro data hdata epoch hepoch fails fails'
    obtain ⟨found, data', hclaim, hfirst⟩ :=
      claimBit_first arr s value mode fails hwindow hstart hdata epoch
    obtain ⟨found', raw', hclaim', hfirst'⟩ :=
      claimBitNoEpoch_first arr s value mode fails' hwindow hstart (hdata.bitsOf arr.bitCount)
    obtain ⟨rfl, rfl⟩ := hfirst.agree arr.bitCount_pos arr.bitCount_le hepoch (hdata.place_lt hwindow) hstart
      hfirst'
    rw [hclaim, hclaim']
    rfl

/-- Two windows of two units of eight bits. -/
def twoByTwo : Sizes := ⟨2, 2, 1, rfl⟩

/-- The second window, from the last bit of its first unit on. -/
theorem claim_bit_first_twoByTwo :
    ∃ found data', claimBit .uint8 twoByTwo .one .readWrite (fun _ => 1)
        [0, 0, makeUnit 3 ||| 0x05, makeUnit 3 ||| 0x10] 1 7 3 = some (found, data') ∧
      ClaimsFirst twoByTwo .readWrite 8 1 7 (isClaimable .one 3) (Claimed .one 8 3)
        [0, 0, makeUnit 3 ||| 0x05, makeUnit 3 ||| 0x10] found data' := by
  have hdata : ContentOk twoByTwo 64 [0, 0, makeUnit 3 ||| 0x05, makeUnit 3 ||| 0x10] :=
    ⟨by decide, by decide⟩
  exact (claim_bit_first .uint8 twoByTwo .one .readWrite (by decide) (by decide)).1 _ hdata ⟨3, by decide⟩ _

end RelaxedConcurrentFifo.AtomicBitset
