/-
# RelaxedConcurrentFifo.AtomicBitset.Interleaved — one unit of `atomic_bitset` under concurrent calls

`set`, `reset`, `set_epoch_if_empty` and `claim_bit_singular` run on ONE 64-bit unit. Every load and
every compare-and-swap is one step, the steps of any number of threads interleave in any order, and a
weak compare-and-swap may fail although the word is the expected one.

The unit's epoch is a counter that only ever goes up by one, and only to a unit without bits. A
claim that returns a bit has flipped exactly that bit, at its own epoch, in the step it returns with;
a bit is handed out a second time at the same epoch only after it has been cleared in between.
-/
import RelaxedConcurrentFifo.AtomicBitset
import RelaxedConcurrentFifo.Lib.Interleaving
import RelaxedConcurrentFifo.Lib.Runs

namespace RelaxedConcurrentFifo.AtomicBitset

open RelaxedConcurrentFifo.Lib.Words
open RelaxedConcurrentFifo.Lib.Interleaving (Threads Outline)

/-! ## §1 — the calls and their steps -/

/-- `ARR_TYPE`: an unsigned type of at most four bytes. -/
inductive ArrType where
  | uint8
  | uint16
  | uint32
  deriving DecidableEq, Repr

/-- `bit_count`. -/
def ArrType.bitCount : ArrType → Nat
  | .uint8 => 8
  | .uint16 => 16
  | .uint32 => 32

theorem ArrType.bitCount_le (arr : ArrType) : arr.bitCount ≤ 32 := by
  cases arr <;> decide

/-- `claim_mode`. -/
inductive ClaimMode where
  | readWrite
  | readOnly
  deriving DecidableEq, Repr

/-- An epoch whose successor still fits the unit. -/
structure Epoch where
  val : Nat
  lt : val < 2 ^ 32 - 1
  deriving DecidableEq, Repr

/-- A call on the unit. The public functions reduce bit numbers modulo `bit_count`. -/
inductive Call (n : Nat) where
  | setBit (set : Bool) (index : Fin n) (epoch : Epoch)
  | setEpochIfEmpty (epoch : Epoch)
  | claim (value : ClaimValue) (mode : ClaimMode) (initialRot : Fin n) (epoch : Epoch)
  deriving DecidableEq, Repr

/-- `set` is `set_bit_atomic<true>`. -/
abbrev Call.set {n : Nat} (index : Fin n) (epoch : Epoch) : Call n := .setBit true index epoch

/-- `reset` is `set_bit_atomic<false>`. -/
abbrev Call.reset {n : Nat} (index : Fin n) (epoch : Epoch) : Call n := .setBit false index epoch

/-- Where a thread is: before a call, before the call's first access, before a compare-and-swap that
expects `eb`, or done. A claim's `size_t` maximum is `none`, and so is the result of a `void` call. -/
inductive Pc (n : Nat) where
  | idle
  | called (call : Call n)
  | casBit (set : Bool) (index : Fin n) (epoch : Epoch) (eb : Nat)
  | casClaim (value : ClaimValue) (initialRot : Fin n) (epoch : Epoch) (index eb : Nat)
  | returned (call : Call n) (result : Option Nat)
  deriving DecidableEq, Repr

/-- What the outside chooses for a step: the next call of a thread that has none, and whether a weak
compare-and-swap fails for no reason. -/
structure Choice (n : Nat) where
  call : Call n
  spurious : Bool
  deriving Repr

section Step

variable {n : Nat}

/-- `test` in `set_bit_atomic`: the word its compare-and-swap stores. -/
def setBitTest (set : Bool) (epoch eb index : Nat) : Nat :=
  if set then eb ||| 1 <<< index else resetDesired epoch eb index

/-- The head of `set_bit_atomic`'s loop, for the word it has just read. -/
def setBitLoop (set : Bool) (index : Fin n) (epoch : Epoch) (eb : Nat) : Pc n :=
  if getEpoch eb ≠ epoch.val then .returned (.setBit set index epoch) none
  else .casBit set index epoch eb

/-- `claim_bit_singular` once it has looked for a bit in the word it has just read. -/
def claimFound (value : ClaimValue) (mode : ClaimMode) (initialRot : Fin n) (epoch : Epoch)
    (eb : Nat) : Option Nat → Pc n
  | none => .returned (.claim value mode initialRot epoch) none
  | some index =>
      match mode with
      | .readWrite => .casClaim value initialRot epoch index eb
      | .readOnly => .returned (.claim value mode initialRot epoch) (some index)

/-- One step of a thread. -/
def go (l : Choice n) (w : Nat) : Pc n → Nat × Pc n
  | .idle => (w, .called l.call)
  | .returned _ _ => (w, .called l.call)
  | .called (.setBit set index epoch) => (w, setBitLoop set index epoch w)
  | .called (.setEpochIfEmpty epoch) =>
      (if w = makeUnit epoch.val then makeUnit (epoch.val + 1) else w,
        .returned (.setEpochIfEmpty epoch) none)
  | .called (.claim value mode initialRot epoch) =>
      (w, claimFound value mode initialRot epoch w (claimStart value n epoch.val initialRot w))
  | .casBit set index epoch eb =>
      if w = eb ∧ l.spurious = false then
        (setBitTest set epoch.val eb index, .returned (.setBit set index epoch) none)
      else (w, setBitLoop set index epoch w)
  | .casClaim value initialRot epoch index eb =>
      if w = eb ∧ l.spurious = false then
        (claimDesired value n epoch.val eb index,
          .returned (.claim value .readWrite initialRot epoch) (some index))
      else
        (w, claimFound value .readWrite initialRot epoch w
          (claimRetry value n epoch.val initialRot index w))

/-- A value-initialised unit, and no call under way. -/
def initial (n threads : Nat) : Threads Nat (Pc n) threads := ⟨0, fun _ => .idle⟩

end Step

/-! ## §2 — what one step can do -/

section Took

variable {n w w' bit : Nat} {epoch : Epoch}

theorem Epoch.lt_two_pow (epoch : Epoch) : epoch.val < 2 ^ 32 := by
  have := epoch.lt
  omega

theorem Epoch.succ_lt (epoch : Epoch) : epoch.val + 1 < 2 ^ 32 := by
  have := epoch.lt
  omega

/-- The unit with one more bit set. -/
def withBit (w bit : Nat) : Nat := makeUnit (getEpoch w) ||| (getBits w ||| 1 <<< bit)

/-- The unit with one bit cleared, on the next epoch if that was its last one. -/
def withoutBit (w bit : Nat) : Nat :=
  if clearedBits (getBits w) bit = 0 then makeUnit (getEpoch w + 1)
  else makeUnit (getEpoch w) ||| clearedBits (getBits w) bit

/-- A thread at a compare-and-swap knows the word it expects. -/
def PcOk (n : Nat) : Pc n → Prop
  | .casBit _ _ epoch eb => getEpoch eb = epoch.val
  | .casClaim value _ epoch index eb =>
      getEpoch eb = epoch.val ∧ index < n ∧ eb.testBit index = value.bit
  | _ => True

/-- What a claim may answer to the word `w` that it has just read. -/
def Answered (n w : Nat) : Pc n → Prop
  | .returned (.claim value _ _ epoch) none =>
      getEpoch w ≠ epoch.val ∨ ∀ i < n, w.testBit i = !value.bit
  | .returned (.claim value mode _ epoch) (some i) =>
      mode = .readOnly ∧ getEpoch w = epoch.val ∧ i < n ∧ w.testBit i = value.bit
  | _ => True

/-- What one step does to the unit, and to the thread that takes it. -/
inductive Took (n w : Nat) : Pc n → Nat → Pc n → Prop
  | read {pc pc' : Pc n} (h : PcOk n pc' ∧ Answered n w pc') : Took n w pc w pc'
  | set {pc : Pc n} {index : Fin n} {epoch : Epoch} (he : getEpoch w = epoch.val) :
      Took n w pc (withBit w index) (.returned (.set index epoch) none)
  | reset {pc : Pc n} {index : Fin n} {epoch : Epoch} (he : getEpoch w = epoch.val) :
      Took n w pc (withoutBit w index) (.returned (.reset index epoch) none)
  | setEpoch {pc : Pc n} {epoch : Epoch} (h : w = makeUnit epoch.val) :
      Took n w pc (makeUnit (epoch.val + 1)) (.returned (.setEpochIfEmpty epoch) none)
  | claimZero {rot : Fin n} {epoch : Epoch} {i : Nat} (he : getEpoch w = epoch.val) (hi : i < n)
      (hbit : w.testBit i = false) :
      Took n w (.casClaim .zero rot epoch i w) (withBit w i)
        (.returned (.claim .zero .readWrite rot epoch) (some i))
  | claimOne {rot : Fin n} {epoch : Epoch} {i : Nat} (he : getEpoch w = epoch.val) (hi : i < n)
      (hbit : w.testBit i = true) :
      Took n w (.casClaim .one rot epoch i w) (withoutBit w i)
        (.returned (.claim .one .readWrite rot epoch) (some i))

theorem setBitLoop_ok (set : Bool) (index : Fin n) (epoch : Epoch) (w : Nat) :
    PcOk n (setBitLoop set index epoch w) ∧ Answered n w (setBitLoop set index epoch w) := by
  unfold setBitLoop
  split
  · exact ⟨trivial, trivial⟩
  · rename_i he
    exact ⟨not_not.mp he, trivial⟩

/-- A claim either has a bit of the word it has read, or that word explains why it has none. -/
theorem claimFound_ok {value : ClaimValue} {mode : ClaimMode} {rot : Fin n} {found : Option Nat}
    (hsome : ∀ i, found = some i →
      getEpoch w = epoch.val ∧ i < n ∧ w.testBit i = value.bit)
    (hnone : found = none → getEpoch w ≠ epoch.val ∨ ∀ i < n, w.testBit i = !value.bit) :
    PcOk n (claimFound value mode rot epoch w found) ∧
      Answered n w (claimFound value mode rot epoch w found) := by
  cases found with
  | none => exact ⟨trivial, hnone rfl⟩
  | some i =>
      cases mode with
      | readWrite => exact ⟨hsome i rfl, trivial⟩
      | readOnly => exact ⟨trivial, rfl, hsome i rfl⟩

theorem claimIndex_none_bits {value : ClaimValue} {rot : Fin n}
    (h : claimIndex value n (w % 2 ^ n) rot = none) : ∀ i < n, w.testBit i = !value.bit := by
  intro i hi
  have hbit := claimIndex_none (Nat.mod_lt _ (Nat.two_pow_pos n)) rot.isLt h i hi
  rw [Nat.testBit_mod_two_pow] at hbit
  simpa [hi] using hbit

theorem claimStart_ok (value : ClaimValue) (mode : ClaimMode) (rot : Fin n) :
    PcOk n (claimFound value mode rot epoch w (claimStart value n epoch.val rot w)) ∧
      Answered n w (claimFound value mode rot epoch w (claimStart value n epoch.val rot w)) := by
  apply claimFound_ok
  · intro i h
    refine ⟨claimStart_some h, ?_, claimStart_bit rot.isLt h⟩
    unfold claimStart at h
    split at h
    · cases h
    · exact claimIndex_lt rot.isLt h
  · intro h
    unfold claimStart at h
    split at h
    · rename_i he
      exact .inl he
    · exact .inr (claimIndex_none_bits h)

theorem claimRetry_ok (hn : n ≤ 32) (value : ClaimValue) (rot : Fin n) {index : Nat}
    (hindex : index < n) :
    PcOk n (claimFound value .readWrite rot epoch w (claimRetry value n epoch.val rot index w)) ∧
      Answered n w
        (claimFound value .readWrite rot epoch w (claimRetry value n epoch.val rot index w)) := by
  apply claimFound_ok
  · intro i h
    refine ⟨claimRetry_some h, ?_, claimRetry_bit (by omega) rot.isLt hindex h⟩
    unfold claimRetry at h
    split at h
    · cases h
    · split at h
      · exact claimIndex_lt rot.isLt h
      · exact Option.some.inj h ▸ hindex
  · intro h
    unfold claimRetry at h
    split at h
    · rename_i he
      exact .inl he
    · split at h
      · exact .inr (claimIndex_none_bits h)
      · cases h

theorem withBit_eq (hok : UnitOk n w) (bit : Nat) : withBit w bit = w ||| 1 <<< bit := by
  rw [withBit, ← Nat.or_assoc, ← eq_makeUnit_or hok.lt]

theorem setBitTest_true (hok : UnitOk n w) : setBitTest true epoch.val w bit = withBit w bit := by
  rw [withBit_eq hok]
  rfl

theorem setBitTest_false (hn : n ≤ 32) (hok : UnitOk n w) (hbit : bit < n)
    (he : getEpoch w = epoch.val) : setBitTest false epoch.val w bit = withoutBit w bit := by
  show resetDesired epoch.val w bit = withoutBit w bit
  rw [resetDesired_eq hn hok hbit, ← he]
  rfl

theorem claimDesired_one (hn : n ≤ 32) (hok : UnitOk n w) (he : getEpoch w = epoch.val) :
    claimDesired .one n epoch.val w bit = withoutBit w bit := by
  have hlt : clearedBits (getBits w) bit < 2 ^ n := clearedBits_lt hok.bits bit
  have htest : claimTest .one n (w % 2 ^ n) bit = clearedBits (getBits w) bit := by
    rw [hok.mod_eq hn]
    exact Nat.mod_eq_of_lt hlt
  unfold claimDesired withoutBit
  simp only [htest, he, true_and]

/-- **Every step is one of the six.** -/
theorem go_took (hn : n ≤ 32) (hok : UnitOk n w) (l : Choice n) {pc : Pc n} (hpc : PcOk n pc) :
    Took n w pc (go l w pc).1 (go l w pc).2 := by
  cases pc with
  | idle => exact .read ⟨trivial, trivial⟩
  | returned call result => exact .read ⟨trivial, trivial⟩
  | called call =>
      cases call with
      | setBit set index epoch => exact .read (setBitLoop_ok set index epoch w)
      | setEpochIfEmpty epoch =>
          dsimp only [go]
          split
          · rename_i h
            exact .setEpoch h
          · exact .read ⟨trivial, trivial⟩
      | claim value mode rot epoch => exact .read (claimStart_ok value mode rot)
  | casBit set index epoch eb =>
      dsimp only [go]
      split
      · rename_i h
        obtain rfl : w = eb := h.1
        cases set with
        | true =>
            rw [setBitTest_true hok]
            exact .set hpc
        | false =>
            rw [setBitTest_false hn hok index.isLt hpc]
            exact .reset hpc
      · exact .read (setBitLoop_ok set index epoch w)
  | casClaim value rot epoch index eb =>
      obtain ⟨he, hindex, hbit⟩ := hpc
      dsimp only [go]
      split
      · rename_i h
        obtain rfl : w = eb := h.1
        cases value with
        | zero =>
            rw [claimDesired_zero _ hn hok hindex, ← he]
            exact .claimZero he hindex hbit
        | one =>
            rw [claimDesired_one hn hok he]
            exact .claimOne he hindex hbit
      · exact .read (claimRetry_ok hn value rot hindex)

/-! ## §3 — what a step leaves of the unit -/

theorem getEpoch_withBit (hn : n ≤ 32) (hok : UnitOk n w) (hbit : bit < n) :
    getEpoch (withBit w bit) = getEpoch w := by
  apply getEpoch_makeUnit_or hok.epoch_lt
  exact lt_of_lt_of_le (or_bit_lt hok.bits hbit) (Nat.pow_le_pow_right (by norm_num) hn)

theorem clearedBits_lt_two_pow (hn : n ≤ 32) (hok : UnitOk n w) (bit : Nat) :
    clearedBits (getBits w) bit < 2 ^ 32 :=
  lt_of_lt_of_le (clearedBits_lt hok.bits bit) (Nat.pow_le_pow_right (by norm_num) hn)

/-- Clearing a bit keeps the epoch, or leaves an empty unit of the next one. -/
theorem withoutBit_cases (hn : n ≤ 32) (hok : UnitOk n w) (he : getEpoch w = epoch.val)
    (bit : Nat) :
    (getEpoch (withoutBit w bit) = getEpoch w ∧
      ∀ j < n, (withoutBit w bit).testBit j = (w.testBit j && !decide (bit = j))) ∨
    (getEpoch (withoutBit w bit) = getEpoch w + 1 ∧ getBits (withoutBit w bit) = 0) := by
  have hnext : getEpoch w + 1 < 2 ^ 32 := he ▸ epoch.succ_lt
  unfold withoutBit
  split
  · exact .inr ⟨getEpoch_makeUnit hnext, getBits_makeUnit hnext⟩
  · refine .inl ⟨getEpoch_makeUnit_or hok.epoch_lt (clearedBits_lt_two_pow hn hok bit), ?_⟩
    intro j hj
    rw [makeUnit_of_lt hok.epoch_lt, Nat.testBit_or, Nat.testBit_shiftLeft,
      testBit_clearedBits (by omega), getBits_eq_mod, Nat.testBit_mod_two_pow]
    simp [show ¬ 32 ≤ j by omega, show j < 32 by omega]

theorem unitOk_withoutBit (hn : n ≤ 32) (hok : UnitOk n w) (bit : Nat) :
    UnitOk n (withoutBit w bit) := by
  unfold withoutBit
  split
  · exact unitOk_makeUnit n _
  · exact unitOk_makeUnit_or hn hok.epoch_lt (clearedBits_lt hok.bits bit)

namespace Took

variable {pc pc' : Pc n}

theorem unitOk (hn : n ≤ 32) (hok : UnitOk n w) (h : Took n w pc w' pc') : UnitOk n w' := by
  cases h with
  | read h => exact hok
  | @set _ index _ he =>
      exact unitOk_makeUnit_or hn hok.epoch_lt (or_bit_lt hok.bits index.isLt)
  | reset he => exact unitOk_withoutBit hn hok _
  | setEpoch h => exact unitOk_makeUnit n _
  | claimZero he hi hbit => exact unitOk_makeUnit_or hn hok.epoch_lt (or_bit_lt hok.bits hi)
  | claimOne he hi hbit => exact unitOk_withoutBit hn hok _

theorem pcOk (h : Took n w pc w' pc') : PcOk n pc' := by
  cases h with
  | read h => exact h.1
  | set he => trivial
  | reset he => trivial
  | setEpoch h => trivial
  | claimZero he hi hbit => trivial
  | claimOne he hi hbit => trivial

/-- A step keeps the epoch, or leaves an EMPTY unit of the next one. -/
theorem epoch_cases (hn : n ≤ 32) (hok : UnitOk n w) (h : Took n w pc w' pc') :
    getEpoch w' = getEpoch w ∨ (getEpoch w' = getEpoch w + 1 ∧ getBits w' = 0) := by
  cases h with
  | read h => exact .inl rfl
  | @set _ index _ he => exact .inl (getEpoch_withBit hn hok index.isLt)
  | reset he => exact (withoutBit_cases hn hok he _).imp_left And.left
  | @setEpoch _ epoch h =>
      rw [h, getEpoch_makeUnit epoch.lt_two_pow, getEpoch_makeUnit epoch.succ_lt]
      exact .inr ⟨rfl, getBits_makeUnit epoch.succ_lt⟩
  | claimZero he hi hbit => exact .inl (getEpoch_withBit hn hok hi)
  | claimOne he hi hbit => exact (withoutBit_cases hn hok he _).imp_left And.left

/-- A set bit is cleared at the unit's epoch only by a `reset` of it or by a claim of it. -/
theorem cleared (hn : n ≤ 32) (hok : UnitOk n w) (h : Took n w pc w' pc') (hbit : bit < n)
    (hset : w.testBit bit = true) (hclear : w'.testBit bit = false)
    (he : getEpoch w' = getEpoch w) :
    ∃ epoch : Epoch, getEpoch w = epoch.val ∧
      ((∃ index : Fin n, index.val = bit ∧ pc' = .returned (.reset index epoch) none) ∨
        ∃ rot : Fin n, pc' = .returned (.claim .one .readWrite rot epoch) (some bit)) := by
  -- the bit that `withoutBit` clears is the one that was set and is not
  have hcleared : ∀ {epoch : Epoch} {i : Nat}, getEpoch w = epoch.val →
      getEpoch (withoutBit w i) = getEpoch w → (withoutBit w i).testBit bit = false → i = bit := by
    intro epoch i he hsame hnot
    obtain ⟨-, hbits⟩ | ⟨hnext, -⟩ := withoutBit_cases hn hok he i
    · rw [hbits bit hbit, hset] at hnot
      simpa using hnot
    · omega
  cases h with
  | read h => simp [hset] at hclear
  | @set _ index _ _ =>
      rw [withBit_eq hok, testBit_or_bit, hset] at hclear
      simp at hclear
  | @reset _ index epoch hepoch =>
      exact ⟨epoch, hepoch, .inl ⟨index, hcleared hepoch he hclear, rfl⟩⟩
  | @setEpoch _ epoch h =>
      rw [h, getEpoch_makeUnit epoch.lt_two_pow, getEpoch_makeUnit epoch.succ_lt] at he
      omega
  | @claimZero rot epoch i hepoch hi hfree =>
      rw [withBit_eq hok, testBit_or_bit, hset] at hclear
      simp at hclear
  | @claimOne rot epoch i hepoch hi htaken =>
      obtain rfl := hcleared hepoch he hclear
      exact ⟨epoch, hepoch, .inr ⟨rot, rfl⟩⟩

end Took

end Took

/-! ## §4 — runs -/

/-- The call a thread is inside. -/
def Pc.underWay {n : Nat} : Pc n → Option (Call n)
  | .called call => some call
  | .casBit set index epoch _ => some (.setBit set index epoch)
  | .casClaim value initialRot epoch _ _ => some (.claim value .readWrite initialRot epoch)
  | .idle => none
  | .returned _ _ => none

section Runs

variable {n threads : Nat} (ls : List (Fin threads × Choice n))

/-- The state after the first `k` steps of a run. -/
def stateAt (k : Nat) : Threads Nat (Pc n) threads := (initial n threads).run go (ls.take k)

/-- The unit's word after the first `k` steps. -/
def unitAt (k : Nat) : Nat := (stateAt ls k).shared

/-- Step `k` of the run is the one in which a `call` returns `result`. -/
def Returns (k : Nat) (call : Call n) (result : Option Nat) : Prop :=
  ∃ hk : k < ls.length, (stateAt ls (k + 1)).locals ls[k].1 = .returned call result

instance (k : Nat) (call : Call n) (result : Option Nat) : Decidable (Returns ls k call result) :=
  inferInstanceAs (Decidable (∃ hk : k < ls.length,
    (stateAt ls (k + 1)).locals ls[k].1 = .returned call result))

/-- Step `k` is the compare-and-swap of a claim of zero, and it takes bit `i` and nothing else, at
the claim's epoch. -/
structure Takes (k : Nat) (rot : Fin n) (epoch : Epoch) (i : Nat) : Prop where
  index_lt : i < n
  own : ∃ (hk : k < ls.length) (eb : Nat),
    (stateAt ls k).locals ls[k].1 = .casClaim .zero rot epoch i eb
  epoch_before : getEpoch (unitAt ls k) = epoch.val
  epoch_after : getEpoch (unitAt ls (k + 1)) = epoch.val
  free_before : (unitAt ls k).testBit i = false
  taken_after : (unitAt ls (k + 1)).testBit i = true
  others : ∀ j, j ≠ i → (unitAt ls (k + 1)).testBit j = (unitAt ls k).testBit j

/-- Step `k` clears bit `i` at the epoch, and is the end of a `reset` of `i` or of a claim that was
after a set bit and got `i`. -/
structure GivesBack (k : Nat) (epoch : Epoch) (i : Nat) : Prop where
  call : (∃ index : Fin n, index.val = i ∧ Returns ls k (.reset index epoch) none) ∨
    ∃ rot : Fin n, Returns ls k (.claim .one .readWrite rot epoch) (some i)
  epoch_before : getEpoch (unitAt ls k) = epoch.val
  set_before : (unitAt ls k).testBit i = true
  clear_after : (unitAt ls (k + 1)).testBit i = false

/-- Exclusive claims and monotone epochs, all along a run. -/
structure ClaimsExclusive : Prop where
  epoch_mono : ∀ j k, j ≤ k → getEpoch (unitAt ls j) ≤ getEpoch (unitAt ls k)
  epoch_change : ∀ k, getEpoch (unitAt ls (k + 1)) ≠ getEpoch (unitAt ls k) →
    getEpoch (unitAt ls (k + 1)) = getEpoch (unitAt ls k) + 1 ∧ getBits (unitAt ls (k + 1)) = 0
  takes : ∀ k rot epoch i, Returns ls k (.claim .zero .readWrite rot epoch) (some i) →
    Takes ls k rot epoch i
  between : ∀ j k, j < k → ∀ rot rot' epoch i,
    Returns ls j (.claim .zero .readWrite rot epoch) (some i) →
    Returns ls k (.claim .zero .readWrite rot' epoch) (some i) →
    ∃ m, j < m ∧ m < k ∧ GivesBack ls m epoch i
  nothing : ∀ k value mode rot epoch, Returns ls k (.claim value mode rot epoch) none →
    ∃ hk : k < ls.length,
      ((stateAt ls k).locals ls[k].1).underWay = some (.claim value mode rot epoch) ∧
      (getEpoch (unitAt ls k) ≠ epoch.val ∨ ∀ i < n, (unitAt ls k).testBit i ≠ value.bit)

/-- The unit can hold its word, and every thread knows what it expects. -/
def unitOutline (n : Nat) : Outline Nat (Pc n) where
  shared := UnitOk n
  thread := fun _ pc => PcOk n pc
  pair := fun _ _ => True

variable {ls}

theorem unitOutline_run (hn : n ≤ 32) (ls : List (Fin threads × Choice n)) :
    (unitOutline n).Holds ((initial n threads).run go ls) := by
  refine Outline.Holds.run (fun _ => True) ?_ (fun _ _ _ _ => trivial) ?_ ls trivial
  · refine ⟨?_, fun _ => trivial, fun _ _ _ => trivial⟩
    exact unitOk_makeUnit n 0
  · intro l w pc hok hpc _
    have htook := go_took hn hok l hpc
    exact ⟨htook.unitOk hn hok, htook.pcOk, fun _ hq _ _ => hq, fun _ _ _ _ => ⟨trivial, trivial⟩⟩

theorem unitAt_ok (hn : n ≤ 32) (k : Nat) : UnitOk n (unitAt ls k) :=
  (unitOutline_run hn (ls.take k)).shared

/-- The step that a run takes after `k` others. -/
theorem took_at (hn : n ≤ 32) {k : Nat} (hk : k < ls.length) :
    Took n (unitAt ls k) ((stateAt ls k).locals ls[k].1) (unitAt ls (k + 1))
      ((stateAt ls (k + 1)).locals ls[k].1) := by
  have hholds := unitOutline_run hn (ls.take k)
  have hsucc : stateAt ls (k + 1) = (stateAt ls k).step go ls[k] := Threads.run_take_succ ls hk
  unfold unitAt
  rw [hsucc, Threads.step_locals_self]
  exact go_took hn hholds.shared ls[k].2 (hholds.thread ls[k].1)

/-- Nothing happens after the run's last step. -/
theorem unitAt_succ_of_le {k : Nat} (hk : ls.length ≤ k) : unitAt ls (k + 1) = unitAt ls k := by
  unfold unitAt stateAt
  rw [List.take_of_length_le hk, List.take_of_length_le (by omega)]

theorem unitAt_epoch_cases (hn : n ≤ 32) (k : Nat) :
    getEpoch (unitAt ls (k + 1)) = getEpoch (unitAt ls k) ∨
      (getEpoch (unitAt ls (k + 1)) = getEpoch (unitAt ls k) + 1 ∧
        getBits (unitAt ls (k + 1)) = 0) := by
  by_cases hk : k < ls.length
  · exact (took_at hn hk).epoch_cases hn (unitAt_ok hn k)
  · rw [unitAt_succ_of_le (Nat.le_of_not_lt hk)]
    exact .inl rfl

theorem unitAt_epoch_mono (hn : n ≤ 32) {j k : Nat} (hjk : j ≤ k) :
    getEpoch (unitAt ls j) ≤ getEpoch (unitAt ls k) := by
  induction k, hjk using Nat.le_induction with
  | base => exact le_refl _
  | succ k _ ih =>
      have hcases : getEpoch (unitAt ls (k + 1)) = getEpoch (unitAt ls k) ∨ _ :=
        unitAt_epoch_cases hn k
      omega

/-- A thread that has just returned was inside the call before. -/
theorem go_returned {l : Choice n} {w : Nat} {pc : Pc n} {call : Call n} {result : Option Nat}
    (h : (go l w pc).2 = .returned call result) : pc.underWay = some call := by
  cases pc with
  | idle => cases h
  | returned call result => cases h
  | called call =>
      cases call with
      | setBit set index epoch =>
          dsimp only [go, setBitLoop] at h
          split at h <;> cases h
          rfl
      | setEpochIfEmpty epoch => cases h; rfl
      | claim value mode rot epoch =>
          dsimp only [go] at h
          cases hfound : claimStart value n epoch.val rot w with
          | none => rw [hfound] at h; cases h; rfl
          | some i =>
              rw [hfound] at h
              cases mode <;> cases h
              rfl
  | casBit set index epoch eb =>
      dsimp only [go, setBitLoop] at h
      split at h
      · cases h; rfl
      · split at h <;> cases h
        rfl
  | casClaim value rot epoch index eb =>
      dsimp only [go] at h
      split at h
      · cases h; rfl
      · cases hfound : claimRetry value n epoch.val rot index w with
        | none => rw [hfound] at h; cases h; rfl
        | some i => rw [hfound] at h; cases h

/-- A claim of zero that returns a bit has just taken it. -/
theorem Returns.takes (hn : n ≤ 32) {k i : Nat} {rot : Fin n} {epoch : Epoch}
    (h : Returns ls k (.claim .zero .readWrite rot epoch) (some i)) : Takes ls k rot epoch i := by
  obtain ⟨hk, hret⟩ := h
  have htook := took_at hn hk
  have hok : UnitOk n (unitAt ls k) := unitAt_ok hn k
  rw [hret] at htook
  generalize hpc : (stateAt ls k).locals ls[k].1 = pc at htook
  generalize hw' : unitAt ls (k + 1) = w' at htook
  cases htook with
  | read h => exact absurd h.2.1 (by decide)
  | claimZero he hi hbit =>
      refine ⟨hi, ⟨hk, _, hpc⟩, he, ?_, hbit, ?_, ?_⟩
      · rw [hw', getEpoch_withBit hn hok hi, he]
      · rw [hw', withBit_eq hok, testBit_or_bit]
        simp
      · intro j hj
        rw [hw', withBit_eq hok, testBit_or_bit]
        simp [Ne.symm hj]

/-- **Claims are exclusive and epochs monotone**, for every number of threads and every order of
their steps. -/
theorem claims_exclusive (arr : ArrType) (threads : Nat)
    (ls : List (Fin threads × Choice arr.bitCount)) : ClaimsExclusive ls where
  epoch_mono := fun j k hjk => unitAt_epoch_mono arr.bitCount_le hjk
  epoch_change := by
    intro k hne
    exact (unitAt_epoch_cases arr.bitCount_le k).resolve_left hne
  takes := fun k rot epoch i h => h.takes arr.bitCount_le
  between := by
    intro j k hjk rot rot' epoch i hj hk
    have hn := arr.bitCount_le
    have hfirst := hj.takes hn
    have hsecond := hk.takes hn
    -- the bit is set after the first claim and free before the second
    obtain ⟨m, hjm, hmk, hset, hclear⟩ := Lib.Runs.exists_last_step
      (P := fun m => (unitAt ls m).testBit i = true) (Nat.succ_le_of_lt hjk) hfirst.taken_after
      (by rw [hsecond.free_before]; decide)
    have hml : m < ls.length := by
      obtain ⟨hkl, -⟩ := hk
      omega
    -- and the unit stays at the claims' epoch in between
    have hepoch : ∀ m, j + 1 ≤ m → m ≤ k → getEpoch (unitAt ls m) = epoch.val := by
      intro m hjm hmk
      have hlow : getEpoch (unitAt ls (j + 1)) ≤ getEpoch (unitAt ls m) := unitAt_epoch_mono hn hjm
      have hhigh : getEpoch (unitAt ls m) ≤ getEpoch (unitAt ls k) := unitAt_epoch_mono hn hmk
      rw [hfirst.epoch_after] at hlow
      rw [hsecond.epoch_before] at hhigh
      omega
    have hsame : getEpoch (unitAt ls (m + 1)) = getEpoch (unitAt ls m) := by
      rw [hepoch m hjm hmk.le, hepoch (m + 1) (by omega) hmk]
    have hclear' : (unitAt ls (m + 1)).testBit i = false := Bool.eq_false_of_not_eq_true hclear
    obtain ⟨epoch', he', hcall⟩ := (took_at hn hml).cleared hn (unitAt_ok hn m) hfirst.index_lt
      hset hclear' hsame
    obtain rfl : epoch' = epoch := by
      rw [hepoch m hjm hmk.le] at he'
      cases epoch'
      cases epoch
      cases he'
      rfl
    refine ⟨m, hjm, hmk, ⟨?_, hepoch m hjm hmk.le, hset, hclear'⟩⟩
    obtain ⟨index, hindex, hret⟩ | ⟨rot, hret⟩ := hcall
    · exact .inl ⟨index, hindex, hml, hret⟩
    · exact .inr ⟨rot, hml, hret⟩
  nothing := by
    intro k value mode rot epoch hret
    obtain ⟨hk, hpc⟩ := hret
    have htook := took_at arr.bitCount_le hk
    rw [hpc] at htook
    have hsucc : stateAt ls (k + 1) = (stateAt ls k).step go ls[k] := Threads.run_take_succ ls hk
    rw [hsucc, Threads.step_locals_self] at hpc
    refine ⟨hk, go_returned hpc, ?_⟩
    generalize unitAt ls (k + 1) = w' at htook
    generalize (stateAt ls k).locals ls[k].1 = pc at htook
    cases htook with
    | read h =>
        refine h.2.imp_right fun hall i hi => ?_
        rw [hall i hi]
        cases value <;> decide

/-- One thread takes bit 0 and sets bit 1, another claims a set bit and gets bit 0, and the first
thread takes bit 0 again. -/
def reclaimed : List (Fin 2 × Choice 8) :=
  let epoch : Epoch := ⟨0, by decide⟩
  let call (t : Fin 2) (c : Call 8) : List (Fin 2 × Choice 8) := List.replicate 3 (t, ⟨c, false⟩)
  call 0 (.claim .zero .readWrite 0 epoch) ++ call 0 (.set 1 epoch) ++
    call 1 (.claim .one .readWrite 0 epoch) ++ call 0 (.claim .zero .readWrite 0 epoch)

/-- The thread has just returned from a `reset`. -/
def Pc.hasReset {n : Nat} : Pc n → Bool
  | .returned (.setBit false _ _) _ => true
  | _ => false

/-- A bit is handed out twice at one epoch although nobody has called `reset`: a `READ_WRITE` claim
of a set bit clears it too. -/
theorem reclaimed_without_reset :
    ¬ ∀ (arr : ArrType) (threads : Nat) (ls : List (Fin threads × Choice arr.bitCount)) (j k : Nat),
      j < k → ∀ rot rot' epoch i,
      Returns ls j (.claim .zero .readWrite rot epoch) (some i) →
      Returns ls k (.claim .zero .readWrite rot' epoch) (some i) →
      ∃ m, j < m ∧ m < k ∧ ∃ (index : Fin arr.bitCount) (epoch' : Epoch),
        index.val = i ∧ Returns ls m (.reset index epoch') none := by
  intro h
  have hfirst : Returns reclaimed 2 (.claim .zero .readWrite 0 ⟨0, by decide⟩) (some 0) := by
    decide +kernel
  have hsecond : Returns reclaimed 11 (.claim .zero .readWrite 0 ⟨0, by decide⟩) (some 0) := by
    decide +kernel
  have hnever : ∀ m (hm : m < reclaimed.length),
      ((stateAt reclaimed (m + 1)).locals reclaimed[m].1).hasReset = false := by
    decide +kernel
  obtain ⟨m, -, -, index, epoch, -, hm, hret⟩ := h .uint8 2 reclaimed 2 11 (by decide) _ _ _ _
    hfirst hsecond
  have hflag : true = false := (congrArg Pc.hasReset hret).symm.trans (hnever m hm)
  cases hflag

end Runs

end RelaxedConcurrentFifo.AtomicBitset
