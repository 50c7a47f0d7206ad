/-
# RelaxedConcurrentFifo.BlockBasedQueue.Ownership — a block has one owner per epoch

The bit of a block in `filled_set` does not by itself make its writer the only one: readers clear it,
and a delayed writer may claim it again WITHIN the epoch. What makes the difference is the order of two
accesses. Whoever clears a bit at an epoch has seen the block's header beyond that epoch, headers only
move forward, and a push succeeds only on a header that is not beyond its writer's epoch. So whoever
claims a bit again comes too late for every push of that epoch.

This holds in EVERY interleaving, also in those in which a reader swings the read index of a block
without elements: its read index may then run over into the epoch, which is still a move forward.
-/
import RelaxedConcurrentFifo.BlockBasedQueue.Emptiness

namespace RelaxedConcurrentFifo.BlockBasedQueue

open RelaxedConcurrentFifo.AtomicBitset (UnitOk getBits claimStart_some claimRetry_some)
open RelaxedConcurrentFifo.Lib.Runs

variable {T : Type}

/-! ## §1 — headers, whatever happens -/

/-- What any step at all can make of a block's header. -/
inductive HeaderMove (c : Config) (m : Shared T) (hd : Handle T) (b : Block) : Nat → Prop where
  | same : HeaderMove c m hd b (m.header b)
  | pushed (hroom : getWriteIndex (m.header b) ≠ c.cellsPerBlock) :
      HeaderMove c m hd b (incrementWriteIndex (m.header b))
  | popped (hvalid : epochValid (getEpoch (m.header b)) hd.readEpoch = true) :
      HeaderMove c m hd b (incrementReadIndex (m.header b))
  | stamped (hvalid : epochValid (getEpoch (m.header b)) hd.readEpoch = true) :
      HeaderMove c m hd b (epochToHeader (hd.readEpoch + 1))

/-- The order headers move in: by epoch first, within an epoch by both indices. -/
def HeaderLe (ei ei' : Nat) : Prop :=
  getEpoch ei < getEpoch ei' ∨
    (getEpoch ei = getEpoch ei' ∧ getReadIndex ei ≤ getReadIndex ei' ∧
      getWriteIndex ei ≤ getWriteIndex ei')

theorem HeaderLe.refl (ei : Nat) : HeaderLe ei ei := .inr ⟨rfl, le_refl _, le_refl _⟩

theorem HeaderLe.epoch_le {ei ei' : Nat} (h : HeaderLe ei ei') : getEpoch ei ≤ getEpoch ei' := by
  rcases h with hlt | ⟨heq, -⟩
  · exact Nat.le_of_lt hlt
  · exact Nat.le_of_eq heq

section Moves

variable {c : Config} {m : Shared T} {hd : Handle T} {b : Block} {ei : Nat}

theorem headerMove_setHeader (b b' : Block) (hmove : HeaderMove c m hd b' ei) :
    HeaderMove c m hd b ((m.setHeader b' ei).header b) := by
  rw [Shared.setHeader_header]
  split
  · rename_i hb
    subst hb
    exact hmove
  · exact .same

theorem runStep_headerMove [Zero T] [DecidableEq T] (start : Nat) (spurious : Bool) (hok : hd.Ok c)
    (b : Block) :
    HeaderMove c m hd b ((runStep c start spurious m hd).1.header b) := by
  have hpc := hok.pc
  cases h : hd.pc with
  | pushHeader t ei index =>
      rw [h] at hpc
      obtain ⟨_, rfl, hroom, _⟩ := hpc
      simp only [runStep, h]
      split
      · rename_i hei
        subst hei
        exact headerMove_setHeader b hd.writeBlock (.pushed hroom)
      · exact .same
  | popLast ei index =>
      rw [h] at hpc
      simp only [runStep, h]
      split
      · rename_i hcond
        obtain ⟨rfl, -⟩ := hcond
        exact headerMove_setHeader b hd.readBlock (.stamped hpc.2.2.1)
      · exact .same
  | popNext ei index =>
      rw [h] at hpc
      simp only [runStep, h]
      split
      · rename_i hcond
        obtain ⟨rfl, -⟩ := hcond
        exact headerMove_setHeader b hd.readBlock (.popped hpc.2.2.1)
      · exact .same
  | popInvalidate ei =>
      rw [h] at hpc
      simp only [runStep, h]
      split
      · rename_i hei
        subst hei
        exact headerMove_setHeader b hd.readBlock (.stamped hpc.2.1)
      · exact .same
  | _ =>
      -- no other access writes a header
      simp only [runStep, h]
      repeat' split
      all_goals exact .same

theorem stepHandle_headerMove [Zero T] [DecidableEq T] (a : Action c T) (hok : hd.Ok c)
    (b : Block) :
    HeaderMove c m hd b ((stepHandle c a m hd).1.header b) := by
  unfold stepHandle
  split
  · exact .same
  · exact .same
  · exact runStep_headerMove _ _ hok b
  · exact .same

/-- Moving the read index past its last value starts the next epoch. -/
theorem incrementReadIndex_of_last {ei : Nat} (hei : ei < 2 ^ 64) (hread : getReadIndex ei = 65535)
    (hepoch : getEpoch ei + 1 < 2 ^ 32) : getEpoch (incrementReadIndex ei) = getEpoch ei + 1 := by
  rw [getReadIndex_eq] at hread
  rw [getEpoch_eq] at hepoch
  rw [getEpoch_eq, getEpoch_eq, incrementReadIndex, show (1 <<< 16 : Nat) = 65536 from rfl]
  omega

theorem getReadIndex_lt (ei : Nat) : getReadIndex ei < 65536 := by
  rw [getReadIndex_eq]
  omega

/-- **Headers move forward.** -/
theorem HeaderMove.le (h : HeaderMove c m hd b ei) (hmax : c.cellsPerBlock ≤ 65535)
    (hlt : m.header b < 2 ^ 64) (hwrite : getWriteIndex (m.header b) ≤ c.cellsPerBlock)
    (hread : hd.readEpoch < 2 ^ 31 - 1) : HeaderLe (m.header b) ei := by
  cases h with
  | same => exact .refl _
  | pushed hroom =>
      have hlast : getWriteIndex (m.header b) < 65535 := by omega
      refine .inr ⟨(getEpoch_incrementWriteIndex hlt hlast).symm, ?_, ?_⟩
      · rw [getReadIndex_incrementWriteIndex hlast]
      · rw [getWriteIndex_incrementWriteIndex hlast]
        omega
  | popped hvalid =>
      have hle := le_of_epochValid (getEpoch_lt hlt) (by omega) hvalid
      by_cases hlast : getReadIndex (m.header b) = 65535
      · refine .inl ?_
        rw [incrementReadIndex_of_last hlt hlast (by omega)]
        omega
      · have hroom : getReadIndex (m.header b) < 65535 := by
          have := getReadIndex_lt (m.header b)
          omega
        refine .inr ⟨(getEpoch_incrementReadIndex hlt hroom).symm, ?_, ?_⟩
        · rw [getReadIndex_incrementReadIndex hroom]
          omega
        · rw [getWriteIndex_incrementReadIndex]
  | stamped hvalid =>
      have hle := le_of_epochValid (getEpoch_lt hlt) (by omega) hvalid
      refine .inl ?_
      rw [getEpoch_stamped (by omega)]
      omega

theorem HeaderMove.bounds (h : HeaderMove c m hd b ei) (hmax : c.cellsPerBlock ≤ 65535)
    (hlt : m.header b < 2 ^ 64) (hwrite : getWriteIndex (m.header b) ≤ c.cellsPerBlock) :
    ei < 2 ^ 64 ∧ getWriteIndex ei ≤ c.cellsPerBlock := by
  cases h with
  | same => exact ⟨hlt, hwrite⟩
  | pushed hroom =>
      refine ⟨Nat.mod_lt _ (by norm_num), ?_⟩
      rw [getWriteIndex_incrementWriteIndex (by omega)]
      omega
  | popped hvalid =>
      refine ⟨Nat.mod_lt _ (by norm_num), ?_⟩
      rw [getWriteIndex_incrementReadIndex]
      exact hwrite
  | stamped hvalid =>
      refine ⟨Nat.mod_lt _ (by norm_num), ?_⟩
      rw [getWriteIndex_epochToHeader]
      exact Nat.zero_le _

end Moves

/-! ## §2 — the invariant -/

section Runs

variable {n : Nat} {c : Config}

/-- Headers are words with a write index that fits, and claims stand until the header has passed. -/
structure OwnerInv (c : Config) (s : State T n) : Prop where
  words : ∀ b, s.shared.header b < 2 ^ 64
  room : ∀ b, getWriteIndex (s.shared.header b) ≤ c.cellsPerBlock
  handles : ∀ h, BlockFacts c s.shared (s.handles h)

variable [Zero T]

theorem OwnerInv.fresh (c : Config) : OwnerInv c (State.fresh c n : State T n) where
  words := (EmptyInv.fresh c).blocks.words
  room b := by
    rw [show (State.fresh c n : State T n).shared = Shared.fresh c from rfl, (fresh_indices c b).2]
    exact Nat.zero_le _
  handles _ := ⟨.inl rfl, trivial⟩

variable [DecidableEq T]

/-- What one step keeps: headers move forward, claims stand, and the invariant. -/
theorem OwnerInv.step {s : State T n} (inv : OwnerInv c s) (hmax : c.cellsPerBlock ≤ 65535)
    (hlocal : LocalInv c s) (hprotocol : ProtocolInv c s) (hhalf : EpochsHalf c s.shared)
    (l : Fin n × Action c T) :
    OwnerInv c (s.step c l) ∧ (∀ b, HeaderLe (s.shared.header b) ((s.step c l).shared.header b)) ∧
      ∀ v ≤ s.shared.globalWriteWindow, ∀ index < c.blocksPerWindow,
        Held c s.shared v index → Held c (s.step c l).shared v index := by
  have hmove : ∀ b, HeaderMove c s.shared (s.handles l.1) b ((s.step c l).shared.header b) :=
    fun b => stepHandle_headerMove l.2 (hlocal.handles l.1) b
  have hle : ∀ b, HeaderLe (s.shared.header b) ((s.step c l).shared.header b) :=
    fun b => (hmove b).le hmax (inv.words b) (inv.room b) ((hprotocol.handles l.1).readEpoch_lt hhalf)
  obtain ⟨hheld, hhandles⟩ := blockFacts_step hlocal hprotocol hhalf inv.words inv.handles l
    fun b => (hle b).epoch_le
  have hbounds := fun b => (hmove b).bounds hmax (inv.words b) (inv.room b)
  exact ⟨⟨fun b => (hbounds b).1, fun b => (hbounds b).2, hhandles⟩, hle, hheld⟩

theorem ownerInv_run (hmax : c.cellsPerBlock ≤ 65535) {ls : List (Fin n × Action c T)}
    (hhalf : RunHalf c ls) :
    ∀ k ≤ ls.length, OwnerInv c ((State.fresh c n).run c (ls.take k)) :=
  invariant_take (State.step c) (P := fun _ s => OwnerInv c s) (OwnerInv.fresh c) fun k hk ih =>
    (ih.step hmax ((LocalInv.fresh c).run _)
      (protocolInv_run (fun k hk => (hhalf k hk).fit) k (Nat.le_of_lt hk)) (hhalf k (Nat.le_of_lt hk))
      _).1

/-! ## §3 — claims find clear bits -/

/-- A writer about to claim a bit has seen it clear. -/
def ClaimPc : Pc T → Prop
  | .writeClaim _ _ _ _ eb bit => eb.testBit bit = false
  | _ => True

theorem runStep_claimPc {m : Shared T} {hd : Handle T} (start : Nat) (spurious : Bool)
    (hok : hd.Ok c) : ClaimPc (runStep c start spurious m hd).2.pc := by
  have hrot : ∀ st, st % c.bitCount < c.bitCount := fun st => Nat.mod_lt _ c.bitCount_pos
  have hle : c.bitCount ≤ 64 := c.bitCount_le.trans (by decide)
  have hlocal := hok.pc
  cases h : hd.pc with
  | writeUnit t v st i =>
      simp only [runStep, h]
      split
      · dsimp only [writeNext]
        split <;> trivial
      · rename_i bit hbit
        exact AtomicBitset.claimStart_bit (hrot st) hbit
  | writeClaim t v st i eb bit =>
      rw [h] at hlocal
      simp only [runStep, h]
      split
      · trivial
      · split
        · dsimp only [writeNext]
          split <;> trivial
        · rename_i bit' hbit
          exact AtomicBitset.claimRetry_bit hle (hrot st) hlocal.2 hbit
  | idle last => simp only [runStep, h]; trivial
  | popReset k =>
      simp only [runStep, h]
      cases k <;> simp only [afterReset, popCheck] <;> repeat' split
      all_goals trivial
  | popResetCas k eb =>
      simp only [runStep, h]
      cases k <;> simp only [afterReset, popCheck] <;> repeat' split
      all_goals trivial
  | _ =>
      simp only [runStep, h, pushCheck, popCheck, readNext, takeReadBlock]
      repeat' split
      all_goals trivial

theorem stepHandle_claimPc {m : Shared T} {hd : Handle T} (a : Action c T) (hok : hd.Ok c)
    (hpc : ClaimPc hd.pc) : ClaimPc (stepHandle c a m hd).2.pc := by
  unfold stepHandle
  split
  · trivial
  · trivial
  · exact runStep_claimPc _ _ hok
  · exact hpc

theorem claimPc_run (ls : List (Fin n × Action c T)) :
    ∀ k ≤ ls.length, ∀ h, ClaimPc (((State.fresh c n).run c (ls.take k)).handles h).pc := by
  refine invariant_take (State.step c) (P := fun _ s => ∀ h, ClaimPc (s.handles h).pc)
    (fun _ => trivial) fun k hk ih h => ?_
  by_cases hh : h = (ls[k]).1
  · subst hh
    rw [State.step_handles_self]
    exact stepHandle_claimPc _ (((LocalInv.fresh c).run _).handles _) (ih _)
  · rw [State.step_handles_ne c _ _ hh]
    exact ih h

/-! ## §4 — claims and pushes of a run -/

/-- The `k`-th step is a successful claim of the bit of block `b` at epoch `e`. -/
def ClaimsAt (c : Config) (ls : List (Fin n × Action c T)) (k : Nat) (h : Fin n) (b : Block) (e : Nat) :
    Prop :=
  ∃ hk : k < ls.length, ls[k].1 = h ∧ ∃ start t v st i eb bit, ls[k].2 = .run start false ∧
    (((State.fresh c n).run c (ls.take k)).handles h).pc = .writeClaim t v st i eb bit ∧
    ((State.fresh c n).run c (ls.take k)).shared.filledSet (claimUnit c v st i) = eb ∧
    b = getBlock c (c.windowToIndex v) (claimResult c st i bit) ∧ e = c.windowToEpoch v

/-- The `k`-th step is a successful compare-and-swap on the header in `push`, by a handle with
`write_block = b` and `write_epoch = e`. -/
def PushesAt (c : Config) (ls : List (Fin n × Action c T)) (k : Nat) (h : Fin n) (b : Block) (e : Nat) :
    Prop :=
  ∃ hk : k < ls.length, ls[k].1 = h ∧ ∃ start spurious t ei index, ls[k].2 = .run start spurious ∧
    (((State.fresh c n).run c (ls.take k)).handles h).pc = .pushHeader t ei index ∧
    (((State.fresh c n).run c (ls.take k)).handles h).writeBlock = b ∧
    (((State.fresh c n).run c (ls.take k)).handles h).writeEpoch = e ∧
    ((State.fresh c n).run c (ls.take k)).shared.header b = ei

/-- A claim sets its bit, which was clear. -/
theorem ClaimsAt.claimed (hmax : c.cellsPerBlock ≤ 65535) {ls : List (Fin n × Action c T)}
    (hhalf : RunHalf c ls) {k : Nat} {h : Fin n} {b : Block} {e : Nat} (hclaim : ClaimsAt c ls k h b e) :
    ∃ v index, index < c.blocksPerWindow ∧ b = getBlock c (c.windowToIndex v) index ∧
      e = c.windowToEpoch v ∧
      v ≤ ((State.fresh c n).run c (ls.take (k + 1))).shared.globalWriteWindow ∧
      ¬ Claimed c ((State.fresh c n).run c (ls.take k)).shared v index ∧
      Held c ((State.fresh c n).run c (ls.take (k + 1))).shared v index := by
  obtain ⟨hk, hhandle, start, t, v, st, i, eb, bit, haction, hpc, hword, rfl, rfl⟩ := hclaim
  have hok := (((LocalInv.fresh (T := T) c).run (n := n) (ls.take k)).handles h).pc
  have hclear := claimPc_run ls k (Nat.le_of_lt hk) h
  have hlast := protocolInv_run (fun k hk => (hhalf k hk).fit) (k + 1) hk
  have hnext : (((State.fresh c n).run c (ls.take (k + 1))).handles h).pc =
      .writeTouch t v (claimResult c st i bit) := by
    rw [State.run_take_succ c _ ls hk, ← hhandle, State.step_handles_self, hhandle]
    simp only [stepHandle, haction, runStep, hpc, hword]
    rfl
  rw [hpc] at hok hclear
  have hbit := hok.2
  have hwindow := (hlast.handles h).pc
  have hheld := ((ownerInv_run hmax hhalf (k + 1) hk).handles h).pc
  rw [hnext] at hwindow hheld
  refine ⟨v, claimResult c st i bit, claimResult_lt c st i hbit, rfl, rfl, hwindow, fun hset => ?_,
    hheld⟩
  have hset' := hset.bit
  rw [claimResult_div c st i hbit, claimResult_mod c st i hbit, Shared.unit, ← claimUnit_eq_unitAt,
    hword, AtomicBitset.getBits_eq_mod, Nat.testBit_mod_two_pow,
    show eb.testBit bit = false from hclear, Bool.and_false] at hset'
  cases hset'

/-- What a step of the run keeps. -/
theorem ownerInv_step_run (hmax : c.cellsPerBlock ≤ 65535) {ls : List (Fin n × Action c T)}
    (hhalf : RunHalf c ls) {k : Nat} (hk : k < ls.length) :
    (∀ b, HeaderLe (((State.fresh c n).run c (ls.take k)).shared.header b)
        (((State.fresh c n).run c (ls.take (k + 1))).shared.header b)) ∧
      ((State.fresh c n).run c (ls.take k)).shared.globalWriteWindow ≤
        ((State.fresh c n).run c (ls.take (k + 1))).shared.globalWriteWindow ∧
      ∀ v ≤ ((State.fresh c n).run c (ls.take k)).shared.globalWriteWindow,
        ∀ index < c.blocksPerWindow, Held c ((State.fresh c n).run c (ls.take k)).shared v index →
          Held c ((State.fresh c n).run c (ls.take (k + 1))).shared v index := by
  have hle := Nat.le_of_lt hk
  have hlocal := (LocalInv.fresh (T := T) c).run (n := n) (ls.take k)
  have hprotocol := protocolInv_run (fun k hk => (hhalf k hk).fit) k hle
  obtain ⟨-, hheaders, hheld⟩ :=
    (ownerInv_run hmax hhalf k hle).step hmax hlocal hprotocol (hhalf k hle) ls[k]
  have hgrows := ((hprotocol.windowStep hlocal (hhalf k hle).fit ls[k]).inv (hhalf k hle).fit
    hprotocol.windows).2
  rw [State.run_take_succ c _ ls hk]
  exact ⟨hheaders, hgrows.write, hheld⟩

/-- Once a header is beyond an epoch it stays so. -/
theorem epoch_lt_later (hmax : c.cellsPerBlock ≤ 65535) {ls : List (Fin n × Action c T)}
    (hhalf : RunHalf c ls) {b : Block} {e k : Nat}
    (hk : e < getEpoch (((State.fresh c n).run c (ls.take k)).shared.header b)) :
    ∀ j, k ≤ j → j ≤ ls.length →
      e < getEpoch (((State.fresh c n).run c (ls.take j)).shared.header b) := by
  refine invariant_from (State.step c) (P := fun s => e < getEpoch (s.shared.header b)) hk ?_
  intro j hj _ hlt
  have hle := ((ownerInv_step_run hmax hhalf hj).1 b).epoch_le
  rw [State.run_take_succ c _ ls hj] at hle
  exact lt_of_lt_of_le hlt hle

/-- A writer's claim stands, or the header is beyond its epoch. -/
theorem held_later (hmax : c.cellsPerBlock ≤ 65535) {ls : List (Fin n × Action c T)}
    (hhalf : RunHalf c ls) {v index k : Nat} (hindex : index < c.blocksPerWindow)
    (hk : v ≤ ((State.fresh c n).run c (ls.take k)).shared.globalWriteWindow ∧
      Held c ((State.fresh c n).run c (ls.take k)).shared v index) :
    ∀ j, k ≤ j → j ≤ ls.length →
      v ≤ ((State.fresh c n).run c (ls.take j)).shared.globalWriteWindow ∧
        Held c ((State.fresh c n).run c (ls.take j)).shared v index := by
  refine invariant_from (State.step c)
    (P := fun s => v ≤ s.shared.globalWriteWindow ∧ Held c s.shared v index) hk ?_
  intro j hj _ ⟨hv, hheld⟩
  obtain ⟨-, hwrite, hnext⟩ := ownerInv_step_run hmax hhalf hj
  rw [State.run_take_succ c _ ls hj] at hwrite hnext
  exact ⟨hv.trans hwrite, hnext v hv index hindex hheld⟩

/-- Whoever claims a block again, in the same epoch, finds the header beyond it. -/
theorem epoch_lt_of_reclaimed (hmax : c.cellsPerBlock ≤ 65535) {ls : List (Fin n × Action c T)}
    (hhalf : RunHalf c ls) {b : Block} {e k₁ k₂ : Nat} {h₁ h₂ : Fin n} (hlt : k₁ < k₂)
    (hfirst : ClaimsAt c ls k₁ h₁ b e) (hsecond : ClaimsAt c ls k₂ h₂ b e) :
    e < getEpoch (((State.fresh c n).run c (ls.take k₂)).shared.header b) := by
  have hk₂ := Nat.le_of_lt hsecond.1
  obtain ⟨v, index, hindex, hb, he, hv, -, hheld⟩ := hfirst.claimed hmax hhalf
  obtain ⟨v', index', hindex', hb', he', -, hclear, -⟩ := hsecond.claimed hmax hhalf
  -- the two claims are of the same window
  obtain ⟨hwindow, rfl⟩ := getBlock_inj c hindex hindex' (hb.symm.trans hb')
  obtain rfl := c.window_ext (he.symm.trans he') hwindow
  have hpast := (held_later hmax hhalf hindex ⟨hv, hheld⟩ k₂ hlt hk₂).2.resolve_left hclear
  rw [hb, he]
  exact hpast

/-- No push succeeds in an epoch that the header is beyond. -/
theorem PushesAt.epoch_le (hmax : c.cellsPerBlock ≤ 65535) {ls : List (Fin n × Action c T)}
    (hhalf : RunHalf c ls) {k : Nat} {h : Fin n} {b : Block} {e : Nat} (hpush : PushesAt c ls k h b e) :
    getEpoch (((State.fresh c n).run c (ls.take k)).shared.header b) ≤ e := by
  obtain ⟨hk, -, start, spurious, t, ei, index, -, hpc, hblock, hepoch, hheader⟩ := hpush
  have hle := Nat.le_of_lt hk
  have hok := (((LocalInv.fresh (T := T) c).run (n := n) (ls.take k)).handles h).pc
  have hinv := ownerInv_run hmax hhalf k hle
  have hwords := hinv.words b
  rw [hpc] at hok
  obtain ⟨-, -, -, hvalid, hslot⟩ := hok
  rw [hheader] at hwords ⊢
  rw [hepoch] at hvalid
  -- the writer's epoch is that of a window up to the write window
  rcases (hinv.handles h).write with hdummy | ⟨v, hv, -, -, -, he, -⟩
  · exact absurd hdummy hslot
  · refine le_of_epochValid (getEpoch_lt hwords) ?_ hvalid
    have hmono := c.windowToEpoch_mono hv
    have := (hhalf k hle).epoch
    omega

/-- **A block has one owner per epoch**, in every interleaving: of all successful claims of its bit at
that epoch at most one is followed by a successful push of its handle into the block, with the epoch of
the claim. And headers only move forward. -/
theorem one_owner_per_epoch (c : Config) (hmax : c.cellsPerBlock ≤ 65535)
    (ls : List (Fin n × Action c T)) (hhalf : RunHalf c ls) :
    (∀ b e k₁ k₁' k₂ k₂' h₁ h₂, ClaimsAt c ls k₁ h₁ b e → k₁ < k₁' → PushesAt c ls k₁' h₁ b e →
        ClaimsAt c ls k₂ h₂ b e → k₂ < k₂' → PushesAt c ls k₂' h₂ b e → k₁ = k₂ ∧ h₁ = h₂) ∧
      ∀ k < ls.length, ∀ b, HeaderLe (((State.fresh c n).run c (ls.take k)).shared.header b)
        (((State.fresh c n).run c (ls.take (k + 1))).shared.header b) := by
  -- the later one of two claims is followed by no push
  have hlate : ∀ b e k₁ k₂ k₂' h₁ h₂, ClaimsAt c ls k₁ h₁ b e → ClaimsAt c ls k₂ h₂ b e → k₂ < k₂' →
      PushesAt c ls k₂' h₂ b e → ¬ k₁ < k₂ := by
    intro b e k₁ k₂ k₂' h₁ h₂ hfirst hsecond hafter hpush hlt
    have hpast := epoch_lt_of_reclaimed hmax hhalf hlt hfirst hsecond
    have hstill := epoch_lt_later hmax hhalf hpast k₂' (Nat.le_of_lt hafter) (Nat.le_of_lt hpush.1)
    exact absurd (hpush.epoch_le hmax hhalf) (Nat.not_le.mpr hstill)
  refine ⟨?_, fun k hk b => (ownerInv_step_run hmax hhalf hk).1 b⟩
  intro b e k₁ k₁' k₂ k₂' h₁ h₂ hclaim₁ hafter₁ hpush₁ hclaim₂ hafter₂ hpush₂
  have h12 := hlate b e k₁ k₂ k₂' h₁ h₂ hclaim₁ hclaim₂ hafter₂ hpush₂
  have h21 := hlate b e k₂ k₁ k₁' h₂ h₁ hclaim₂ hclaim₁ hafter₁ hpush₁
  obtain rfl : k₁ = k₂ := by omega
  exact ⟨rfl, hclaim₁.2.1.symm.trans hclaim₂.2.1⟩

end Runs

/-- Handles 0 and 1 push into blocks 0 and 1 of window 1, where handle 2 wants to push as well and
waits before its first look at the bits. Handle 0 pops its value back, which clears the bit of block 0
in the middle of the epoch; handle 2 claims it again, and has to go on to another block. -/
def reclaimed : List (Fin 3 × Action tiny Nat) := List.flatten
  [call 0 (.push 5 five_ne_zero), goOn 0 0 8, call 1 (.push 6 six_ne_zero), goOn 1 1 8,
    call 2 (.push 7 seven_ne_zero), goOn 2 0 2, call 0 .pop, goOn 0 0 18, goOn 2 0 9]

theorem one_owner_per_epoch_reclaimed :
    ClaimsAt tiny reclaimed 4 0 (.slot 8) 0 ∧ PushesAt tiny reclaimed 8 0 (.slot 8) 0 ∧
      ClaimsAt tiny reclaimed 41 2 (.slot 8) 0 ∧
      ∀ k > 41, ¬ PushesAt tiny reclaimed k 2 (.slot 8) 0 := by
  have hhalf : RunHalf tiny reclaimed :=
    runHalf_of_checkRun (q := fun _ _ => true) (by decide +kernel)
  have hclaim : ClaimsAt tiny reclaimed 4 0 (.slot 8) 0 :=
    ⟨by decide, rfl, 0, 5, 1, 0, 0, 0, 0, rfl, by decide +kernel, by decide +kernel, by decide +kernel,
      by decide +kernel⟩
  have hpush : PushesAt tiny reclaimed 8 0 (.slot 8) 0 :=
    ⟨by decide, rfl, 0, false, 5, 0, 0, rfl, by decide +kernel, by decide +kernel, by decide +kernel,
      by decide +kernel⟩
  have hagain : ClaimsAt tiny reclaimed 41 2 (.slot 8) 0 :=
    ⟨by decide, rfl, 0, 7, 1, 0, 0, 2, 0, rfl, by decide +kernel, by decide +kernel,
      by decide +kernel, by decide +kernel⟩
  refine ⟨hclaim, hpush, hagain, fun k hk hlate => ?_⟩
  have hsame := (one_owner_per_epoch tiny (by decide) reclaimed hhalf).1 _ _ _ _ _ _ _ _ hclaim
    (by decide) hpush hagain hk hlate
  exact absurd hsame.1 (by decide)

end RelaxedConcurrentFifo.BlockBasedQueue
