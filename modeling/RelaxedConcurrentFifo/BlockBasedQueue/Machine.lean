/-
# RelaxedConcurrentFifo.BlockBasedQueue.Machine — `block_based_queue`, one atomic access at a time

The queue is an array of `window_count * blocks_per_window` blocks. A block has a 64-bit header
(32-bit epoch, 16-bit read index, 16-bit write index) and `cells_per_block` cells. `filled_set` says
which blocks of a window are claimed by writers in the window's epoch, `touched_set` which claimed
blocks no reader has been given yet, and two counters name the window writers and readers work on.

Every handle runs `push` and `pop` as a program whose only steps are the atomic accesses of the
source: each load, store, compare-and-swap, exchange and `fetch_or` is ONE step (`runStep`), and the
purely local computation that follows an access belongs to that access's step. `Pc` lists the points
between two accesses; its constructors carry the local variables that are live there. A state of the
machine is the shared memory and one handle per thread (`State`), and a run is any list of steps by
any handles in any order. Random start bits and spurious failures of `compare_exchange_weak` are
chosen freely by the step.
-/
import RelaxedConcurrentFifo.AtomicBitset
import Mathlib.Logic.Function.Basic
import Mathlib.Data.Fintype.Basic

namespace RelaxedConcurrentFifo.BlockBasedQueue

open RelaxedConcurrentFifo.Lib.Words
open RelaxedConcurrentFifo.AtomicBitset (ClaimValue claimStart claimRetry claimDesired claimIndex
  claimTest claimRetryNoEpoch resetDesired makeUnit getBits)

/-! ## §1 — what the constructor fixes -/

/-- The sizes of a queue. All but the number of cells are powers of two: the bitset word has 8, 16
or 32 bits (`sizeof(BITSET_T) * 8`), a window holds at least one word of blocks and no more than an
`int` can index, and there are at least four windows. -/
structure Config where
  bitCountLog2 : Nat
  blocksPerWindowLog2 : Nat
  windowCountLog2 : Nat
  cellsPerBlock : Nat
  three_le_bitCountLog2 : 3 ≤ bitCountLog2
  bitCountLog2_le_five : bitCountLog2 ≤ 5
  bitCountLog2_le : bitCountLog2 ≤ blocksPerWindowLog2
  blocksPerWindowLog2_le : blocksPerWindowLog2 ≤ 31
  two_le_windowCountLog2 : 2 ≤ windowCountLog2
  windowCountLog2_lt : windowCountLog2 < 64
  cellsPerBlock_pos : 0 < cellsPerBlock

namespace Config

variable (c : Config)

/-- `bit_count`. -/
def bitCount : Nat := 2 ^ c.bitCountLog2

def blocksPerWindow : Nat := 2 ^ c.blocksPerWindowLog2

def unitsPerWindow : Nat := c.blocksPerWindow / c.bitCount

def windowCount : Nat := 2 ^ c.windowCountLog2

def windowToEpoch (window : Nat) : Nat := window >>> c.windowCountLog2

def windowToIndex (window : Nat) : Nat := window &&& (c.windowCount - 1)

end Config

/-! ## §2 — header words -/

def getEpoch (ei : Nat) : Nat := ei >>> 32

def getReadIndex (ei : Nat) : Nat := (ei >>> 16) &&& 0xffff

def getWriteIndex (ei : Nat) : Nat := ei &&& 0xffff

def incrementWriteIndex (ei : Nat) : Nat := (ei + 1) % 2 ^ 64

def incrementReadIndex (ei : Nat) : Nat := (ei + 1 <<< 16) % 2 ^ 64

def epochToHeader (epoch : Nat) : Nat := (epoch <<< 32) % 2 ^ 64

-- Irreducible, or a failed unification would count to `2 ^ 31` in unary.
/-- `handle::epoch_valid`: the comparison is done in 64 bits, with the bound of a 32-bit one. -/
@[irreducible] def epochValid (check curr : Nat) : Bool := sub64 curr check < (2 ^ 32 - 1) / 2

/-! ## §3 — memory, handles and program points -/

/-- `block_t`: a pointer into the buffer, counted in blocks, or the static `dummy_block`. -/
inductive Block where
  | dummy
  | slot (n : Nat)
  deriving DecidableEq, Repr

/-- `get_block`. -/
def getBlock (c : Config) (windowIndex blockIndex : Nat) : Block :=
  .slot (windowIndex * c.blocksPerWindow + blockIndex)

/-- `block_index`: the pointer difference to the window's first block. -/
def blockIndex (c : Config) (windowIndex : Nat) : Block → Nat
  | .dummy => 0
  | .slot n => n - windowIndex * c.blocksPerWindow

/-- The memory all handles share. `committed` and `returned` are history variables no step reads:
the values whose push has swung the header, and the values `pop` has handed out. -/
structure Shared (T : Type) where
  globalReadWindow : Nat
  globalWriteWindow : Nat
  touchedSet : Nat → Nat
  filledSet : Nat → Nat
  header : Block → Nat
  cell : Block → Nat → T
  committed : List T
  returned : List T

namespace Shared

variable {T : Type} (m : Shared T)

def setCell (b : Block) (index : Nat) (t : T) : Shared T :=
  { m with cell := Function.update m.cell b (Function.update (m.cell b) index t) }

def setHeader (b : Block) (ei : Nat) : Shared T :=
  { m with header := Function.update m.header b ei }

def setFilled (u word : Nat) : Shared T :=
  { m with filledSet := Function.update m.filledSet u word }

def setTouched (u word : Nat) : Shared T :=
  { m with touchedSet := Function.update m.touchedSet u word }

/-- `global_write_window.compare_exchange_strong(window, window + 1)`. -/
def moveWrite (window : Nat) : Shared T :=
  { m with globalWriteWindow :=
      if m.globalWriteWindow = window then (window + 1) % 2 ^ 64 else m.globalWriteWindow }

/-- `global_read_window.compare_exchange_strong(window, window + 1)`. -/
def moveRead (window : Nat) : Shared T :=
  { m with globalReadWindow :=
      if m.globalReadWindow = window then (window + 1) % 2 ^ 64 else m.globalReadWindow }

end Shared

/-- What a finished call returned. -/
inductive Ret (T : Type) where
  | pushed (ok : Bool)
  | popped (value : Option T)
  deriving DecidableEq, Repr

/-- Where `pop` goes on after `filled_set.reset`: line 391 breaks out of the loop to take the cell,
line 412 falls through to the loop's head with the header word it has. -/
inductive AfterReset where
  | take (index : Nat)
  | check (ei : Nat)
  deriving DecidableEq, Repr

/-- The point before each atomic access, with the live local variables. -/
inductive Pc (T : Type) where
  /-- Between two calls; the result of the last one, if any. -/
  | idle (last : Option (Ret T))
  -- `push(t)`
  | pushLoad (t : T)
  | pushCell (t : T) (ei index : Nat)
  | pushHeader (t : T) (ei index : Nat)
  | pushUndo (t : T) (ei index : Nat)
  -- `claim_new_block_write`, called by `push(t)`
  | writeWindow (t : T)
  | writeUnit (t : T) (window start i : Nat)
  | writeClaim (t : T) (window start i eb bit : Nat)
  | writeTouch (t : T) (window bit : Nat)
  | writeFull (t : T) (window : Nat)
  | writeMove (t : T) (window : Nat)
  -- `pop()`
  | popLoad
  | popLast (ei index : Nat)
  | popNext (ei index : Nat)
  | popReset (k : AfterReset)
  | popResetCas (k : AfterReset) (eb : Nat)
  | popTake (index : Nat)
  | popReload
  | popInvalidate (ei : Nat)
  -- `claim_new_block_read`, called by `pop()`
  | readWindow (dontAdvance : Bool)
  | readUnit (dontAdvance : Bool) (window : Nat) (isAhead : Bool) (start i : Nat)
  | readClaim (dontAdvance : Bool) (window : Nat) (isAhead : Bool) (start i raw bit : Nat)
  | readWrite (dontAdvance : Bool) (window : Nat)
  | readAny (dontAdvance : Bool) (window writeWindow start i : Nat)
  | readScan (dontAdvance : Bool) (window writeWindow i : Nat)
  | readBump (dontAdvance : Bool) (window writeWindow i : Nat)
  | readForce (dontAdvance : Bool) (window writeWindow : Nat)
  | readMove (dontAdvance : Bool) (window : Nat)
  deriving DecidableEq, Repr

/-- `block_based_queue::handle`, with the point its thread is at. -/
structure Handle (T : Type) where
  readWindow : Nat
  readWindowIndex : Nat
  writeEpoch : Nat
  readEpoch : Nat
  readBlock : Block
  writeBlock : Block
  pc : Pc T
  deriving DecidableEq, Repr

/-- A handle as `get_handle` makes it. -/
def Handle.fresh {T : Type} : Handle T where
  readWindow := 0
  readWindowIndex := 0
  writeEpoch := 0
  readEpoch := 0
  readBlock := .dummy
  writeBlock := .dummy
  pc := .idle none

/-! ## §4 — the constructor -/

section Init

variable (c : Config)

/-- The word a unit of `filled_set` has after `set_epoch_if_empty` tried its compare-and-swap. -/
def bumpIfEmpty (epoch eb : Nat) : Nat := if eb = makeUnit epoch then makeUnit (epoch + 1) else eb

/-- `filled_set.set_epoch_if_empty(window_index, epoch)`, run without interference. -/
def setEpochIfEmpty (windowIndex epoch : Nat) (filled : Nat → Nat) : Nat → Nat :=
  (List.range c.unitsPerWindow).foldl
    (fun data i => Function.update data (windowIndex * c.unitsPerWindow + i)
      (bumpIfEmpty epoch (data (windowIndex * c.unitsPerWindow + i)))) filled

/-- The constructor's last loop: window 0 starts as a window that has been read to its end. -/
def retireFirstWindow (mem : (Nat → Nat) × (Block → Nat)) : (Nat → Nat) × (Block → Nat) :=
  (List.range c.blocksPerWindow).foldl
    (fun mem j => (setEpochIfEmpty c 0 0 mem.1,
      Function.update mem.2 (getBlock c 0 j) (epochToHeader 1))) mem

/-- The memory of a fresh queue. -/
def Shared.fresh {T : Type} [Zero T] : Shared T :=
  let mem := retireFirstWindow c
    (fun _ => 0, fun b => if b = .dummy then epochToHeader 0x10000000 else 0)
  { globalReadWindow := 0
    globalWriteWindow := 1
    touchedSet := fun _ => 0
    filledSet := mem.1
    header := mem.2
    cell := fun _ _ => 0
    committed := []
    returned := [] }

end Init

/-! ## §5 — the local computation between two accesses -/

section Local

variable {T : Type} (c : Config)

/-- The data index of the `i`-th unit `claim_bit` visits in a window, started at `start`. -/
def claimUnit (window start i : Nat) : Nat :=
  c.windowToIndex window * c.unitsPerWindow +
    ((i + start / c.bitCount) &&& (c.unitsPerWindow - 1))

/-- The window-relative index `claim_bit` returns for bit `bit` of that unit. -/
def claimResult (start i bit : Nat) : Nat :=
  bit + ((i + start / c.bitCount) &&& (c.unitsPerWindow - 1)) * c.bitCount

/-- The unit and the bit of a window's block in either bitset. -/
def unitOf (windowIndex index : Nat) : Nat := windowIndex * c.unitsPerWindow + index / c.bitCount

/-- The condition of `push`'s inner loop up to the cell's compare-and-swap. -/
def pushCheck (hd : Handle T) (t : T) (ei : Nat) : Pc T :=
  if epochValid (getEpoch ei) hd.writeEpoch = false ∨ getWriteIndex ei = c.cellsPerBlock then
    .writeWindow t
  else .pushCell t ei (getWriteIndex ei)

/-- The head of `pop`'s loop. -/
def popCheck (hd : Handle T) (ei : Nat) : Pc T :=
  if epochValid (getEpoch ei) hd.readEpoch then
    if getReadIndex ei + 1 = getWriteIndex ei then .popLast ei (getReadIndex ei)
    else .popNext ei (getReadIndex ei)
  else .readWindow false

/-- Where `pop` is once `filled_set.reset` has returned. -/
def afterReset (hd : Handle T) : AfterReset → Pc T
  | .take index => .popTake index
  | .check ei => popCheck hd ei

/-- `claim_bit` on `filled_set` moves on to the next unit; without one, `claim_new_block_write` looks
at the read window. -/
def writeNext (t : T) (window start i : Nat) : Pc T :=
  if i + 1 < c.unitsPerWindow then .writeUnit t window start (i + 1) else .writeFull t window

/-- `claim_bit` on `touched_set` moves on to the next unit; without one, a reader that was ahead
comes back, any other one looks at the write window. -/
def readNext (dontAdvance : Bool) (window : Nat) (isAhead : Bool) (start i : Nat) : Pc T :=
  if i + 1 < c.unitsPerWindow then .readUnit dontAdvance window isAhead start (i + 1)
  else if isAhead then .readWindow true
  else .readWrite dontAdvance window

/-- The last four assignments of `claim_new_block_read`; `pop` then reloads the header. -/
def takeReadBlock (hd : Handle T) (window block : Nat) : Handle T :=
  { hd with
    readWindow := window
    readWindowIndex := c.windowToIndex window
    readEpoch := c.windowToEpoch window
    readBlock := getBlock c (c.windowToIndex window) block
    pc := .popReload }

end Local

/-! ## §6 — one atomic access -/

section Step

variable {T : Type} [Zero T] [DecidableEq T]

/-- The next access of a handle inside a call. `start` is what `random_bit_index()` returns if the
step draws, `spurious` whether a weak compare-and-swap fails without a reason. -/
def runStep (c : Config) (start : Nat) (spurious : Bool) (m : Shared T) (hd : Handle T) :
    Shared T × Handle T :=
  match hd.pc with
  | .idle _ => (m, hd)
  | .pushLoad t => (m, { hd with pc := pushCheck c hd t (m.header hd.writeBlock) })
  | .pushCell t ei index =>
      if m.cell hd.writeBlock index = 0 ∧ spurious = false then
        (m.setCell hd.writeBlock index t, { hd with pc := .pushHeader t ei index })
      else (m, { hd with pc := .writeWindow t })
  | .pushHeader t ei index =>
      if m.header hd.writeBlock = ei then
        ({ m.setHeader hd.writeBlock (incrementWriteIndex ei) with committed := t :: m.committed },
          { hd with pc := .idle (some (.pushed true)) })
      else (m, { hd with pc := .pushUndo t (m.header hd.writeBlock) index })
  | .pushUndo t ei index =>
      (m.setCell hd.writeBlock index 0, { hd with pc := pushCheck c hd t ei })
  | .writeWindow t => (m, { hd with pc := .writeUnit t m.globalWriteWindow start 0 })
  | .writeUnit t window st i =>
      let eb := m.filledSet (claimUnit c window st i)
      match claimStart .zero c.bitCount (c.windowToEpoch window) (st % c.bitCount) eb with
      | none => (m, { hd with pc := writeNext c t window st i })
      | some bit => (m, { hd with pc := .writeClaim t window st i eb bit })
  | .writeClaim t window st i eb bit =>
      let u := claimUnit c window st i
      if m.filledSet u = eb ∧ spurious = false then
        (m.setFilled u (claimDesired .zero c.bitCount (c.windowToEpoch window) eb bit),
          { hd with pc := .writeTouch t window (claimResult c st i bit) })
      else
        match claimRetry .zero c.bitCount (c.windowToEpoch window) (st % c.bitCount) bit
            (m.filledSet u) with
        | none => (m, { hd with pc := writeNext c t window st i })
        | some bit' => (m, { hd with pc := .writeClaim t window st i (m.filledSet u) bit' })
  | .writeTouch t window bit =>
      let u := unitOf c (c.windowToIndex window) bit
      (m.setTouched u (m.touchedSet u ||| 1 <<< (bit % c.bitCount)),
        { hd with
          writeEpoch := c.windowToEpoch window
          writeBlock := getBlock c (c.windowToIndex window) bit
          pc := .pushLoad t })
  | .writeFull t window =>
      if sub64 ((window + 1) % 2 ^ 64) m.globalReadWindow = c.windowCount then
        (m, { hd with pc := .idle (some (.pushed false)) })
      else (m, { hd with pc := .writeMove t window })
  | .writeMove t window =>
      (m.moveWrite window, { hd with pc := .writeWindow t })
  | .popLoad => (m, { hd with pc := popCheck hd (m.header hd.readBlock) })
  | .popLast ei index =>
      if m.header hd.readBlock = ei ∧ spurious = false then
        (m.setHeader hd.readBlock (epochToHeader (hd.readEpoch + 1)),
          { hd with pc := .popReset (.take index) })
      else (m, { hd with pc := .readWindow false })
  | .popNext ei index =>
      if m.header hd.readBlock = ei ∧ spurious = false then
        (m.setHeader hd.readBlock (incrementReadIndex ei),
          { hd with pc := .popTake index })
      else (m, { hd with pc := .readWindow false })
  | .popReset k =>
      let eb := m.filledSet
        (unitOf c hd.readWindowIndex (blockIndex c hd.readWindowIndex hd.readBlock))
      if AtomicBitset.getEpoch eb ≠ hd.readEpoch then (m, { hd with pc := afterReset hd k })
      else (m, { hd with pc := .popResetCas k eb })
  | .popResetCas k eb =>
      let index := blockIndex c hd.readWindowIndex hd.readBlock
      let u := unitOf c hd.readWindowIndex index
      if m.filledSet u = eb ∧ spurious = false then
        (m.setFilled u (resetDesired hd.readEpoch eb (index % c.bitCount)),
          { hd with pc := afterReset hd k })
      else if AtomicBitset.getEpoch (m.filledSet u) ≠ hd.readEpoch then
        (m, { hd with pc := afterReset hd k })
      else (m, { hd with pc := .popResetCas k (m.filledSet u) })
  | .popTake index =>
      ({ m.setCell hd.readBlock index 0 with
          returned := m.cell hd.readBlock index :: m.returned },
        { hd with pc := .idle (some (.popped (some (m.cell hd.readBlock index)))) })
  | .popReload =>
      let ei := m.header hd.readBlock
      if getWriteIndex ei = 0 then
        if epochValid (getEpoch ei) hd.readEpoch then (m, { hd with pc := .popInvalidate ei })
        else (m, { hd with pc := .popReset (.check ei) })
      else (m, { hd with pc := popCheck hd ei })
  | .popInvalidate ei =>
      if m.header hd.readBlock = ei then
        (m.setHeader hd.readBlock (epochToHeader (hd.readEpoch + 1)),
          { hd with pc := .popReset (.check ei) })
      else (m, { hd with pc := popCheck hd (m.header hd.readBlock) })
  | .readWindow dontAdvance =>
      -- reading one window ahead is remembered in `read_window`
      if dontAdvance = false ∧ (m.globalReadWindow + 1) % 2 ^ 64 = hd.readWindow then
        (m, { hd with pc := .readUnit dontAdvance hd.readWindow true start 0 })
      else (m, { hd with pc := .readUnit dontAdvance m.globalReadWindow false start 0 })
  | .readUnit dontAdvance window isAhead st i =>
      let raw := m.touchedSet (claimUnit c window st i)
      match claimIndex .one c.bitCount raw (st % c.bitCount) with
      | none => (m, { hd with pc := readNext c dontAdvance window isAhead st i })
      | some bit => (m, { hd with pc := .readClaim dontAdvance window isAhead st i raw bit })
  | .readClaim dontAdvance window isAhead st i raw bit =>
      let u := claimUnit c window st i
      if m.touchedSet u = raw ∧ spurious = false then
        (m.setTouched u (claimTest .one c.bitCount raw bit),
          takeReadBlock c hd window (claimResult c st i bit))
      else
        match claimRetryNoEpoch .one c.bitCount (st % c.bitCount) bit (m.touchedSet u) with
        | none => (m, { hd with pc := readNext c dontAdvance window isAhead st i })
        | some bit' =>
            (m, { hd with pc := .readClaim dontAdvance window isAhead st i (m.touchedSet u) bit' })
  | .readWrite dontAdvance window =>
      if dontAdvance = false ∧ (window + 1) % 2 ^ 64 ≠ m.globalWriteWindow then
        (m, { hd with readWindow := (window + 1) % 2 ^ 64, pc := .readWindow dontAdvance })
      else (m, { hd with pc := .readAny dontAdvance window m.globalWriteWindow start 0 })
  | .readAny dontAdvance window writeWindow st i =>
      let eb := m.filledSet (claimUnit c window st i)
      match claimStart .one c.bitCount (c.windowToEpoch window) (st % c.bitCount) eb with
      | some bit => (m, takeReadBlock c hd window (claimResult c st i bit))
      | none =>
          if i + 1 < c.unitsPerWindow then
            (m, { hd with pc := .readAny dontAdvance window writeWindow st (i + 1) })
          else if writeWindow = (window + 1) % 2 ^ 64 then
            (m, { hd with pc := .readScan dontAdvance window writeWindow 0 })
          else (m, { hd with pc := .readMove dontAdvance window })
  | .readScan dontAdvance window writeWindow i =>
      let eb := m.filledSet (c.windowToIndex writeWindow * c.unitsPerWindow + i)
      if AtomicBitset.getEpoch eb = c.windowToEpoch writeWindow ∧ getBits eb ≠ 0 then
        (m, { hd with pc := .readBump dontAdvance window writeWindow 0 })
      else if i + 1 < c.unitsPerWindow then
        (m, { hd with pc := .readScan dontAdvance window writeWindow (i + 1) })
      else (m, { hd with pc := .idle (some (.popped none)) })
  | .readBump dontAdvance window writeWindow i =>
      let u := c.windowToIndex writeWindow * c.unitsPerWindow + i
      (m.setFilled u (bumpIfEmpty (c.windowToEpoch writeWindow) (m.filledSet u)),
        { hd with pc :=
            if i + 1 < c.unitsPerWindow then .readBump dontAdvance window writeWindow (i + 1)
            else .readForce dontAdvance window writeWindow })
  | .readForce dontAdvance window writeWindow =>
      (m.moveWrite writeWindow, { hd with pc := .readMove dontAdvance window })
  | .readMove dontAdvance window =>
      (m.moveRead window, { hd with pc := .readWindow dontAdvance })

/-! ## §7 — the machine -/

/-- What a thread may do next: call `push` with a value other than 0, call `pop`, or go on inside
the call it is in. -/
inductive Action (c : Config) (T : Type) [Zero T] where
  | push (t : T) (ht : t ≠ 0)
  | pop
  | run (start : Fin c.blocksPerWindow) (spurious : Bool)

/-- An action of one handle. Calling while a call is running, or going on without one, does
nothing. -/
def stepHandle (c : Config) (a : Action c T) (m : Shared T) (hd : Handle T) :
    Shared T × Handle T :=
  match a, hd.pc with
  | .push t _, .idle _ => (m, { hd with pc := .pushLoad t })
  | .pop, .idle _ => (m, { hd with pc := .popLoad })
  | .run start spurious, _ => runStep c start spurious m hd
  | _, _ => (m, hd)

/-- A state of the machine with `n` handles. -/
structure State (T : Type) (n : Nat) where
  shared : Shared T
  handles : Fin n → Handle T

/-- A fresh queue with `n` fresh handles. -/
def State.fresh (c : Config) (n : Nat) : State T n := ⟨Shared.fresh c, fun _ => Handle.fresh⟩

/-- Handle `l.1` takes the action `l.2`. -/
def State.step {n : Nat} (c : Config) (s : State T n) (l : Fin n × Action c T) : State T n :=
  ⟨(stepHandle c l.2 s.shared (s.handles l.1)).1,
    Function.update s.handles l.1 (stepHandle c l.2 s.shared (s.handles l.1)).2⟩

/-- The state a list of steps leads to. -/
def State.run {n : Nat} (c : Config) (s : State T n) (ls : List (Fin n × Action c T)) : State T n :=
  ls.foldl (State.step c) s

end Step

end RelaxedConcurrentFifo.BlockBasedQueue
