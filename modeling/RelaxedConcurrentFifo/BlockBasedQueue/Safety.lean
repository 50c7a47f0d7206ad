/-
# RelaxedConcurrentFifo.BlockBasedQueue.Safety — what `pop` may return, in any interleaving

`Safe` is the queue's promise to its callers at one moment of a run: what has been returned was
committed, occurrence by occurrence, it is never 0, and the indices of every header stay inside the
block. A run keeps the promise EXACTLY as long as no reader swings the read index of a block without
an element (`safe_iff_never_reads_empty`).

That step is not excluded by the code. Line 421 asserts it away, and the comment above line 412 says
that a failed swap there means that the write index has grown; but an empty header can also be
re-stamped by a reader of the previous lap that has been waiting in front of its own swap.
`staleReader` is such a run, on the smallest queue there is.
-/
import RelaxedConcurrentFifo.BlockBasedQueue.Cells
import RelaxedConcurrentFifo.Lib.Runs

namespace RelaxedConcurrentFifo.BlockBasedQueue

open RelaxedConcurrentFifo.Lib.Runs

variable {T : Type} {n : Nat}

/-! ## §1 — runs, one step at a time -/

variable [Zero T] [DecidableEq T]

theorem State.run_append (c : Config) (s : State T n) (ls ls' : List (Fin n × Action c T)) :
    s.run c (ls ++ ls') = (s.run c ls).run c ls' := List.foldl_append

/-- The state after one more step of a run. -/
theorem State.run_take_succ (c : Config) (s : State T n) (ls : List (Fin n × Action c T)) {k : Nat}
    (hk : k < ls.length) :
    s.run c (ls.take (k + 1)) = (s.run c (ls.take k)).step c ls[k] :=
  foldl_take_succ s ls hk

theorem State.step_handles_self (c : Config) (s : State T n) (l : Fin n × Action c T) :
    (s.step c l).handles l.1 = (stepHandle c l.2 s.shared (s.handles l.1)).2 :=
  Function.update_self _ _ _

theorem State.step_handles_ne (c : Config) (s : State T n) (l : Fin n × Action c T) {h : Fin n}
    (hh : h ≠ l.1) : (s.step c l).handles h = s.handles h := Function.update_of_ne hh _ _

/-- A run of the machine, checked in one pass. -/
theorem State.run_of_checkRun {c : Config} {p : State T n → Bool}
    {q : State T n → Fin n × Action c T → Bool} {s : State T n} {ls : List (Fin n × Action c T)}
    (h : checkRun (State.step c) p q s ls = true) :
    (∀ k, p (s.run c (ls.take k)) = true) ∧
      ∀ k (hk : k < ls.length), q (s.run c (ls.take k)) ls[k] = true := checkRun_spec h

/-- The cells the handles of a state hold. -/
def State.holds (s : State T n) (h : Fin n) : Hold T := hold (s.handles h)

theorem State.step_holds (c : Config) (s : State T n) (l : Fin n × Action c T) :
    (s.step c l).holds =
      Function.update s.holds l.1 (hold (stepHandle c l.2 s.shared (s.handles l.1)).2) := by
  funext h
  by_cases hh : h = l.1
  · subst hh
    simp [State.holds, State.step]
  · simp [State.holds, State.step, hh]

/-! ## §2 — the invariant of a run -/

/-- The handles' own facts and the dummy block, which every step keeps. -/
structure LocalInv (c : Config) (s : State T n) : Prop where
  handles : ∀ h, (s.handles h).Ok c
  dummy : DummyOk s.shared

omit [DecidableEq T] in
theorem LocalInv.fresh (c : Config) : LocalInv c (State.fresh c n : State T n) where
  handles _ := Handle.Ok.fresh c
  dummy := dummyOk_fresh c

theorem LocalInv.step {c : Config} {s : State T n} (inv : LocalInv c s) (l : Fin n × Action c T) :
    LocalInv c (s.step c l) := by
  obtain ⟨hok, hdummy⟩ := step_ok (a := l.2) (inv.handles l.1) inv.dummy
  refine ⟨fun h => ?_, hdummy⟩
  by_cases hh : h = l.1
  · subst hh
    simpa [State.step] using hok
  · simpa [State.step, hh] using inv.handles h

theorem LocalInv.run {c : Config} {s : State T n} (inv : LocalInv c s)
    (ls : List (Fin n × Action c T)) : LocalInv c (s.run c ls) := by
  induction ls generalizing s with
  | nil => exact inv
  | cons l ls ih => exact ih (inv.step l)

/-- A step that does not read an empty block keeps the ownership of cells. -/
theorem cellInv_step {c : Config} (hmax : c.cellsPerBlock ≤ 65535) {s : State T n}
    (hlocal : LocalInv c s) (inv : CellInv c s.shared s.holds) (l : Fin n × Action c T)
    (hread : ¬ ReadsEmptyBlock l.2 s.shared (s.handles l.1)) :
    CellInv c (s.step c l).shared (s.step c l).holds := by
  rw [State.step_holds]
  exact (stepHandle_cellStep l.2 (hlocal.handles l.1) hread).inv hmax inv rfl

/-- The `k`-th step of the run swings the read index of a block without an element. -/
def ReadsEmptyAt (c : Config) (ls : List (Fin n × Action c T)) (k : Nat) : Prop :=
  ∃ hk : k < ls.length, ReadsEmptyBlock (ls[k]).2 ((State.fresh c n).run c (ls.take k)).shared
    (((State.fresh c n).run c (ls.take k)).handles (ls[k]).1)

theorem cellInv_run {c : Config} (hmax : c.cellsPerBlock ≤ 65535) (ls : List (Fin n × Action c T))
    {k : Nat} (hk : k ≤ ls.length) (hread : ∀ j < k, ¬ ReadsEmptyAt c ls j) :
    CellInv c ((State.fresh c n).run c (ls.take k)).shared
      ((State.fresh c n).run c (ls.take k)).holds := by
  refine invariant_take (State.step c) (P := fun k s => (∀ j < k, ¬ ReadsEmptyAt c ls j) →
    CellInv c s.shared s.holds) (fun _ => CellInv.fresh c) (fun k hk ih hread => ?_) k hk hread
  exact cellInv_step hmax ((LocalInv.fresh c).run _) (ih fun j hj => hread j (by omega)) _ fun hbad =>
    hread k (Nat.lt_succ_self k) ⟨hk, hbad⟩

/-! ## §3 — the promise -/

/-- At this moment every returned value has been committed (each occurrence once), none of them is 0,
and the indices of all headers and of all cells about to be emptied lie inside their block. -/
structure Safe (c : Config) (s : State T n) : Prop where
  returned : (s.shared.returned : Multiset T) ≤ (s.shared.committed : Multiset T)
  nonzero : (0 : T) ∉ s.shared.returned
  indices : ∀ k < c.blockCount,
    getReadIndex (s.shared.header (.slot k)) ≤ getWriteIndex (s.shared.header (.slot k)) ∧
      getWriteIndex (s.shared.header (.slot k)) ≤ c.cellsPerBlock
  inside : ∀ h index, (s.handles h).pc = .popTake index → index < c.cellsPerBlock

omit [DecidableEq T] in
theorem CellInv.safe {c : Config} {s : State T n} (inv : CellInv c s.shared s.holds) :
    Safe c s where
  returned := by
    rw [inv.account, add_assoc]
    exact Multiset.le_add_right _ _
  nonzero h0 := by
    have hmem : (0 : T) ∈ (s.shared.committed : Multiset T) := by
      rw [inv.account]
      exact Multiset.mem_add.mpr (.inl (Multiset.mem_add.mpr (.inl h0)))
    exact inv.nonzero hmem
  indices k _ := ⟨(inv.indices _).le, (inv.indices _).write⟩
  inside h index hpc := by
    refine (inv.taken h (s.handles h).readBlock index ?_).2.1
    rw [State.holds, hold_of_pc hpc]
    rfl

/-- Swinging the read index of an empty block leaves it beyond the write index. -/
theorem ReadsEmptyBlock.not_safe {c : Config} {s : State T n} {l : Fin n × Action c T}
    (hlocal : LocalInv c s) (inv : CellInv c s.shared s.holds)
    (hread : ReadsEmptyBlock l.2 s.shared (s.handles l.1)) : ¬ Safe c (s.step c l) := by
  obtain ⟨start, ei, index, ha, hpc, hheader, hzero⟩ := hread
  have hok := (hlocal.handles l.1).pc
  rw [hpc] at hok
  obtain ⟨k, hk, hslot⟩ := (hlocal.handles l.1).exists_readSlot hok.2.2.2
  have hreadZero : getReadIndex ei = 0 := by
    have hle := (inv.indices (s.handles l.1).readBlock).le
    rw [hheader] at hle
    omega
  have hafter : (s.step c l).shared.header (.slot k) = incrementReadIndex ei := by
    rw [hslot] at hheader
    simp only [State.step, ha, stepHandle, runStep, hpc, hslot]
    rw [if_pos ⟨hheader, trivial⟩, Shared.setHeader_header, if_pos rfl]
  intro hsafe
  have hle := (hsafe.indices k hk).1
  rw [hafter, getReadIndex_incrementReadIndex (by omega), getWriteIndex_incrementReadIndex] at hle
  omega

/-- **A run keeps the queue's promise in every state exactly as long as no reader swings the read
index of a block that has no element.** -/
theorem safe_iff_never_reads_empty (c : Config) (hmax : c.cellsPerBlock ≤ 65535)
    (ls : List (Fin n × Action c T)) :
    (∀ k ≤ ls.length, Safe c ((State.fresh c n).run c (ls.take k))) ↔
      ∀ k, ¬ ReadsEmptyAt c ls k := by
  constructor
  · intro hsafe k
    -- the first such step already breaks the promise
    induction k using Nat.strong_induction_on with
    | _ k ih =>
        rintro ⟨hk, hread⟩
        have hnot := hread.not_safe ((LocalInv.fresh c).run _) 
          (cellInv_run hmax ls (Nat.le_of_lt hk) ih)
        rw [← State.run_take_succ c _ ls hk] at hnot
        exact hnot (hsafe (k + 1) hk)
  · intro hread k hk
    exact (cellInv_run hmax ls hk fun j _ => hread j).safe

/-! ## §4 — the smallest queue, and a run that breaks the promise -/

/-- Eight-bit words, one word of blocks per window, four windows, one cell per block. -/
def tiny : Config where
  bitCountLog2 := 3
  blocksPerWindowLog2 := 3
  windowCountLog2 := 2
  cellsPerBlock := 1
  three_le_bitCountLog2 := by decide
  bitCountLog2_le_five := by decide
  bitCountLog2_le := by decide
  blocksPerWindowLog2_le := by decide
  two_le_windowCountLog2 := by decide
  windowCountLog2_lt := by decide
  cellsPerBlock_pos := by decide

instance : NeZero tiny.blocksPerWindow := ⟨by decide⟩

theorem five_ne_zero : 5 ≠ 0 := Nat.succ_ne_zero 4

theorem six_ne_zero : 6 ≠ 0 := Nat.succ_ne_zero 5

theorem seven_ne_zero : 7 ≠ 0 := Nat.succ_ne_zero 6

/-- The handle starts a call. -/
def call {n : Nat} (h : Fin n) (a : Action tiny Nat) : List (Fin n × Action tiny Nat) := [(h, a)]

/-- `k` accesses of one handle, all with the same start bit. -/
def goOn {n : Nat} (h : Fin n) (start : Fin tiny.blocksPerWindow) (k : Nat) :
    List (Fin n × Action tiny Nat) := List.replicate k (h, .run start false)

/-- `k` accesses of each of two handles, in turns. -/
def turns (k : Nat) : List (Fin 2 × Action tiny Nat) :=
  (List.replicate k [(0, .run 3 false), (1, .run 3 false)]).flatten

/-- Two handles push at the same time, into blocks of one window that they claim from the same word,
and pop at the same time, each pushing both windows on. -/
def pushPop : List (Fin 2 × Action tiny Nat) := List.flatten
  [call 0 (.push 5 five_ne_zero), call 1 (.push 6 six_ne_zero), turns 10, call 0 .pop, call 1 .pop,
    turns 18]

/-- The handle is not about to swing a read index. -/
def swingsNone (s : State Nat 2) (l : Fin 2 × Action tiny Nat) : Bool :=
  match (s.handles l.1).pc with
  | .popNext _ _ => false
  | _ => true

/-- Both sides hold of the run of `pushPop`, in which two values are pushed and popped. -/
theorem safe_iff_never_reads_empty_pushPop :
    ((State.fresh tiny 2).run tiny pushPop).shared.returned = [6, 5] ∧
      (∀ k ≤ pushPop.length, Safe tiny ((State.fresh tiny 2).run tiny (pushPop.take k))) ∧
      ∀ k, ¬ ReadsEmptyAt tiny pushPop k := by
  have hcheck : checkRun (State.step tiny) (fun _ => true) swingsNone (State.fresh tiny 2)
      pushPop = true := by decide +kernel
  have hread : ∀ k, ¬ ReadsEmptyAt tiny pushPop k := by
    rintro k ⟨hk, start, ei, index, _, hpc, _⟩
    have hnone := (State.run_of_checkRun hcheck).2 k hk
    rw [swingsNone, hpc] at hnone
    cases hnone
  exact ⟨by decide +kernel, (safe_iff_never_reads_empty tiny (by decide) pushPop).mpr hread, hread⟩

/-- Handle 0 claims a block of window 1 and waits before it marks the block as touched; the mark it
sets a lap later hands readers an empty block. Handle 2 stops in front of the swap that would retire
that block for epoch 1, handle 3 loads the same empty header in epoch 2, handle 2 goes on, and
handle 3's failed swap leaves it with an empty header of its own epoch. -/
def staleReader : List (Fin 4 × Action tiny Nat) := List.flatten
  [call 0 (.push 5 (by decide)), goOn 0 0 4, call 1 .pop, goOn 1 0 23,
    call 1 (.push 11 (by decide)), goOn 1 0 8, call 1 .pop, goOn 1 0 17, goOn 0 0 9,
    call 1 .pop, goOn 1 0 17, call 1 (.push 11 (by decide)), goOn 1 0 8, call 1 .pop, goOn 1 0 17,
    call 1 (.push 13 (by decide)), goOn 1 1 8, call 2 .pop, goOn 2 0 13, call 1 .pop, goOn 1 1 9,
    call 1 (.push 14 (by decide)), goOn 1 0 8, call 1 .pop, goOn 1 0 17,
    call 1 (.push 15 (by decide)), goOn 1 0 8, call 1 .pop, goOn 1 0 17,
    call 1 (.push 16 (by decide)), goOn 1 0 8, call 1 .pop, goOn 1 0 17,
    call 1 (.push 17 (by decide)), goOn 1 0 6, call 3 .pop, goOn 3 0 13, goOn 2 0 1, goOn 3 0 3]

theorem staleReader_returned :
    ((State.fresh tiny 4).run tiny staleReader).shared.returned = [0, 16, 15, 14, 13, 11, 5, 11] := by
  decide +kernel

/-- **`pop` returns 0 although only non-zero values are pushed**, after a few window moves. -/
theorem staleReader_not_safe :
    staleReader.length < (2 ^ 31 - 1) * tiny.windowCount ∧ tiny.cellsPerBlock ≤ 65535 ∧
      ¬ Safe tiny ((State.fresh tiny 4).run tiny staleReader) := by
  refine ⟨by decide +kernel, by decide, fun hsafe => hsafe.nonzero ?_⟩
  rw [staleReader_returned]
  exact List.mem_cons_self

end RelaxedConcurrentFifo.BlockBasedQueue
