/-
# RelaxedConcurrentFifo.BlockBasedQueue.Relaxation — how far out of order an element can be popped

The elements in the queue are those pushed into each block less those popped from it; the history of
a run gives each its ticket and the window it was pushed into. Between two calls an element lies in a
block that is claimed in that very window (`Placed`), so it lies in no window before the read window,
and a pop takes from the read window or the next one.

When all pushes are made by one handle, later tickets lie in later windows (`Aged`). What is older
than the element a pop returns then lies in the two windows the pop could have taken it from, and
there is less of it than these two can hold (`relaxation_bound`). Weak compare-and-swaps that fail
without a reason leave empty blocks behind, and no element in another window.
-/
import RelaxedConcurrentFifo.BlockBasedQueue.Sequential

namespace RelaxedConcurrentFifo.BlockBasedQueue

variable {T : Type} {n : Nat}

/-! ## §1 — the elements in the queue -/

/-- The elements of a block: those pushed into it that have not been popped. -/
def History.remaining (hist : History T) (b : Block) : List (Entry T) :=
  (hist.pushed b).drop (hist.popped b).length

section Remaining

variable {c : Config} {strict : Prop} {s s' : State T n} {h : Fin n} {hist : History T}

theorem Recorded.values (hrec : Recorded s hist) (b : Block) :
    (hist.remaining b).map Entry.value = blockValues s.shared b := by
  rw [History.remaining, List.map_drop, hrec b, List.drop_left]

theorem Recorded.length (hrec : Recorded s hist) (b : Block) :
    (hist.remaining b).length = (blockValues s.shared b).length := by
  rw [← hrec.values, List.length_map]

theorem Recorded.values_ne_nil (hrec : Recorded s hist) {b : Block} {e : Entry T}
    (he : e ∈ hist.remaining b) : blockValues s.shared b ≠ [] := by
  rw [← hrec.values b]
  exact List.ne_nil_of_mem (List.mem_map_of_mem he)

theorem Recorded.popped_le (hrec : Recorded s hist) (b : Block) :
    (hist.popped b).length ≤ (hist.pushed b).length := by
  have := congrArg List.length (hrec b)
  rw [List.length_map, List.length_append] at this
  omega

variable [Zero T]

/-- A successful push adds an element behind those of its block. -/
theorem remaining_pushed (hrec : Recorded s hist) {hd : Handle T} {t : T} (ht : t ≠ 0)
    (hpc : hd.pc = .idle (some (.pushed true))) (b : Block) :
    (hist.record c (.push t ht) hd).remaining b =
      if b = hd.writeBlock then
        hist.remaining b ++ [⟨hist.count, writeWindow c hd, t⟩]
      else hist.remaining b := by
  rw [record_pushed hist ht hpc, History.remaining, History.remaining]
  dsimp only
  by_cases hb : b = hd.writeBlock
  · rw [if_pos hb, hb, Function.update_self,
      List.drop_append_of_le_length (hrec.popped_le hd.writeBlock)]
  · rw [if_neg hb, Function.update_of_ne hb]

/-- A pop takes the first element of its block. -/
theorem remaining_popped (hrec : Recorded s hist) {hd : Handle T} {x : T} {m' : Shared T}
    (hp : Popped c s.shared x m' hd) :
    (∃ e, hist.remaining hd.readBlock = e :: (hist.record c .pop hd).remaining hd.readBlock ∧
      e.value = x) ∧
    ∀ b ≠ hd.readBlock, (hist.record c .pop hd).remaining b = hist.remaining b := by
  rw [record_popped hist hp.returned]
  refine ⟨?_, fun b hb => ?_⟩
  · have hvalues := hrec.values hd.readBlock
    rw [hp.values] at hvalues
    cases hlist : hist.remaining hd.readBlock with
    | nil => rw [hlist] at hvalues; cases hvalues
    | cons e rest =>
        rw [hlist, List.map_cons] at hvalues
        refine ⟨e, ?_, (List.cons.inj hvalues).1⟩
        rw [History.remaining]
        dsimp only
        rw [Function.update_self, List.length_append, List.length_singleton,
          ← List.drop_drop, ← History.remaining, hlist]
        rfl
  · rw [History.remaining, History.remaining]
    dsimp only
    rw [Function.update_of_ne hb]

/-- No call but a successful push adds an element. -/
theorem remaining_subset (hrec : Recorded s hist) (hturn : Turn c strict s h .pop s') (b : Block) :
    ∀ e ∈ (hist.record c .pop (s'.handles h)).remaining b, e ∈ hist.remaining b := by
  intro e he
  rcases hturn.popped with ⟨x, hp⟩ | hn
  · obtain ⟨⟨e₀, hfirst, -⟩, hothers⟩ := remaining_popped hrec hp
    by_cases hb : b = (s'.handles h).readBlock
    · rw [hb] at he ⊢
      rw [hfirst]
      exact List.mem_cons_of_mem _ he
    · rwa [hothers b hb] at he
  · rwa [record_nullopt hist hn.returned] at he

end Remaining

/-! ## §2 — elements lie in the window they were pushed into -/

variable [Zero T]

section Placed

variable {c : Config} {strict : Prop} {m : Shared T} {v index : Nat}

theorem QuietInv.claimed_of_values (inv : QuietInv c strict m none) (hlap : InLap c m v index)
    (hne : blockValues m (blockAt c v index) ≠ []) : Claimed c m v index := by
  by_contra hno
  exact hne (blockValues_of_empty ((inv.blocks v hlap.ge hlap.lt index hlap.index).free hno).1)

omit [Zero T] in
theorem writeWindow_eq {hd : Handle T} (hb : hd.writeBlock = blockAt c v index)
    (he : hd.writeEpoch = c.windowToEpoch v) (hi : index < c.blocksPerWindow) :
    writeWindow c hd = v := by
  have hdiv : (c.windowToIndex v * c.blocksPerWindow + index) / c.blocksPerWindow =
      c.windowToIndex v := by
    rw [Nat.mul_comm, Nat.mul_add_div c.blocksPerWindow_pos, Nat.div_eq_of_lt hi, Nat.add_zero]
  rw [writeWindow, hb, he]
  show c.windowToEpoch v * c.windowCount +
    (c.windowToIndex v * c.blocksPerWindow + index) / c.blocksPerWindow = v
  rw [hdiv, c.windowToEpoch_eq, c.windowToIndex_eq]
  exact Nat.div_add_mod' v c.windowCount

/-- The element lies in block `b`, which is claimed in the element's window. -/
def Lies (c : Config) (m : Shared T) (b : Block) (e : Entry T) : Prop :=
  ∃ index < c.blocksPerWindow, b = blockAt c e.window index ∧ e.window ≤ m.globalWriteWindow ∧
    Claimed c m e.window index

/-- Every element lies in its window. -/
def Placed (c : Config) (s : State T n) (hist : History T) : Prop :=
  ∀ b, ∀ e ∈ hist.remaining b, Lies c s.shared b e

variable {s s' : State T n} {h : Fin n} {hist : History T}

theorem Placed.ge (hplaced : Placed c s hist) (hquiet : Quiet c strict s) (hfit : EpochsFit c s.shared)
    {b : Block} {e : Entry T} (he : e ∈ hist.remaining b) :
    s.shared.globalReadWindow ≤ e.window := by
  obtain ⟨index, hi, -, hw, hc⟩ := hplaced b e he
  exact hquiet.shared.claimed_le hfit hw hi hc

/-- A successful push keeps all elements in place and adds one. -/
theorem Placed.accepted {t : T} {ht : t ≠ 0} (hplaced : Placed c s hist) (hrec : Recorded s hist)
    (hturn : Turn c strict s h (.push t ht) s')
    (ha : Accepted c strict s.shared (s.handles h) t s'.shared (s'.handles h)) :
    Placed c s' (hist.record c (.push t ht) (s'.handles h)) := by
  intro b e he
  have hread : s'.shared.globalReadWindow = s.shared.globalReadWindow := PushEnd.read hturn.callEnd
  have hkeeps : Keeps c s.shared s'.shared := hturn.callEnd.keeps
  have hgap := hturn.before.shared.windows.gap
  have hne : blockValues s'.shared b ≠ [] := (hrec.turn hturn).values_ne_nil he
  obtain ⟨v, index, hlap, hv, hb, hepoch, -⟩ := ha.block
  have hwindow := writeWindow_eq hb hepoch hlap.index
  -- an element that was there before, in a window of the lap, which has not moved
  have hold : e ∈ hist.remaining b → ∃ i < c.blocksPerWindow, b = blockAt c e.window i ∧
      e.window ≤ s.shared.globalWriteWindow ∧ InLap c s'.shared e.window i := by
    intro hmem
    obtain ⟨i, hi, hbi, hw, hc⟩ := hplaced b e hmem
    have hge := hplaced.ge hturn.before hturn.inRange.fit hmem
    exact ⟨i, hi, hbi, hw, by omega, by omega, hi⟩
  rw [remaining_pushed hrec ht ha.returned] at he
  split at he
  · rename_i heq
    rcases List.mem_append.mp he with hmem | hnew
    · obtain ⟨i, hi, hbi, hw, hlap'⟩ := hold hmem
      rw [hbi] at hne
      exact ⟨i, hi, hbi, hw.trans hkeeps.write, hturn.after.shared.claimed_of_values hlap' hne⟩
    · rw [List.mem_singleton.mp hnew]
      rw [heq, hb] at hne
      dsimp only [Lies]
      rw [hwindow]
      exact ⟨index, hlap.index, heq.trans hb, hv, hturn.after.shared.claimed_of_values hlap hne⟩
  · obtain ⟨i, hi, hbi, hw, hlap'⟩ := hold he
    rw [hbi] at hne
    exact ⟨i, hi, hbi, hw.trans hkeeps.write, hturn.after.shared.claimed_of_values hlap' hne⟩

/-- A pop leaves the elements it does not take where they are, though the read window may move. -/
theorem Placed.pop (hplaced : Placed c s hist) (hrec : Recorded s hist)
    (hturn : Turn c strict s h .pop s') : Placed c s' (hist.record c .pop (s'.handles h)) := by
  intro b e he
  have hne : blockValues s'.shared b ≠ [] := (hrec.turn hturn).values_ne_nil he
  obtain ⟨i, hi, hbi, hw, hc⟩ := hplaced b e (remaining_subset hrec hturn b e he)
  obtain ⟨k, hk, hslot⟩ := exists_slot (c := c) e.window hi
  obtain ⟨v', i', hge, hlt, hi', hb'⟩ := exists_inLap s'.shared.globalReadWindow hk
  have hsame : blockAt c v' i' = blockAt c e.window i := hb'.symm.trans hslot.symm
  rw [hbi, ← hsame] at hne
  have hclaimed := hturn.after.shared.claimed_of_values ⟨hge, hlt, hi'⟩ hne
  obtain ⟨-, hbefore⟩ := PopEnd.claims hturn.callEnd v' i' ⟨hge, hlt, hi'⟩ hclaimed
  obtain rfl := hbefore.window_eq hc hi' hi hsame
  obtain ⟨-, rfl⟩ := getBlock_inj c hi' hi hsame
  have hwrite : s.shared.globalWriteWindow ≤ s'.shared.globalWriteWindow :=
    hturn.callEnd.keeps.write
  exact ⟨i', hi', hbi, hw.trans hwrite, hclaimed⟩

end Placed

/-! ## §3 — one handle pushes -/

/-- All pushes are made by handle `p`: elements with later tickets lie in later windows, up to the one
`p` writes to. -/
structure Aged (c : Config) (p : Fin n) (s : State T n) (hist : History T) : Prop where
  recorded : Recorded s hist
  placed : Placed c s hist
  ticket : ∀ b, ∀ e ∈ hist.remaining b, e.ticket < hist.count
  window : ∀ b, ∀ e ∈ hist.remaining b, e.window ≤ writeWindow c (s.handles p)
  order : ∀ b b', ∀ e ∈ hist.remaining b, ∀ e' ∈ hist.remaining b', e.ticket < e'.ticket →
    e.window ≤ e'.window

section Aged

variable {c : Config} {strict : Prop} {p : Fin n} {s s' : State T n} {h : Fin n} {hist : History T}

theorem Aged.fresh (c : Config) (p : Fin n) :
    Aged c p (State.fresh c n : State T n) ⟨fun _ => [], fun _ => [], 0⟩ :=
  ⟨Recorded.fresh c n, nofun, nofun, nofun, nofun⟩

theorem Aged.accepted {t : T} {ht : t ≠ 0} (haged : Aged c p s hist)
    (hturn : Turn c strict s p (.push t ht) s')
    (ha : Accepted c strict s.shared (s.handles p) t s'.shared (s'.handles p)) :
    Aged c p s' (hist.record c (.push t ht) (s'.handles p)) := by
  obtain ⟨v, index, hlap, -, hb, hepoch, hkind⟩ := ha.block
  have hwindow := writeWindow_eq hb hepoch hlap.index
  have hkeeps : Keeps c s.shared s'.shared := hturn.callEnd.keeps
  -- the pusher has stayed in its window, or gone to the last one
  have hlater : ∀ b, ∀ e ∈ hist.remaining b, e.window ≤ writeWindow c (s'.handles p) := by
    intro b e he
    rcases hkind with ⟨hsameBlock, hsameEpoch, -⟩ | ⟨hv, -⟩
    · rw [writeWindow, hsameBlock, hsameEpoch]
      exact haged.window b e he
    · obtain ⟨-, -, -, hw, -⟩ := haged.placed b e he
      rw [hwindow, hv]
      exact hw.trans hkeeps.write
  have hcases : ∀ b, ∀ e ∈ (hist.record c (.push t ht) (s'.handles p)).remaining b,
      e ∈ hist.remaining b ∨ e = ⟨hist.count, writeWindow c (s'.handles p), t⟩ := by
    intro b e he
    rw [remaining_pushed haged.recorded ht ha.returned] at he
    split at he
    · exact (List.mem_append.mp he).imp_right List.mem_singleton.mp
    · exact .inl he
  have hcount : (hist.record c (.push t ht) (s'.handles p)).count = hist.count + 1 := by
    rw [record_pushed hist ht ha.returned]
  refine ⟨haged.recorded.turn hturn, haged.placed.accepted haged.recorded hturn ha, fun b e he => ?_,
    fun b e he => ?_, fun b b' e he e' he' hlt => ?_⟩
  · rw [hcount]
    rcases hcases b e he with hold | rfl
    · exact Nat.lt_succ_of_lt (haged.ticket b e hold)
    · exact Nat.lt_succ_self _
  · rcases hcases b e he with hold | rfl
    · exact hlater b e hold
    · exact Nat.le_refl _
  · rcases hcases b e he with hold | rfl
    · rcases hcases b' e' he' with hold' | rfl
      · exact haged.order b b' e hold e' hold' hlt
      · exact hlater b e hold
    · rcases hcases b' e' he' with hold' | rfl
      · exact absurd (haged.ticket b' e' hold') (Nat.not_lt.mpr hlt.le)
      · exact absurd hlt (Nat.lt_irrefl _)

theorem Aged.pop (haged : Aged c p s hist) (hturn : Turn c strict s h .pop s') :
    Aged c p s' (hist.record c .pop (s'.handles h)) := by
  have hsub := remaining_subset haged.recorded hturn
  have hwindow : writeWindow c (s'.handles p) = writeWindow c (s.handles p) := by
    by_cases hp : p = h
    · obtain ⟨hblock, hepoch⟩ := PopEnd.writeBlock hturn.callEnd
      rw [hp, writeWindow, hblock, hepoch]
      rfl
    · rw [hturn.others p hp]
  have hcount : (hist.record c .pop (s'.handles h)).count = hist.count := by
    rcases hturn.popped with ⟨x, hp⟩ | hn
    · rw [record_popped hist hp.returned]
    · rw [record_nullopt hist hn.returned]
  refine ⟨haged.recorded.turn hturn, haged.placed.pop haged.recorded hturn, fun b e he => ?_,
    fun b e he => ?_, fun b b' e he e' he' => ?_⟩
  · rw [hcount]
    exact haged.ticket b e (hsub b e he)
  · rw [hwindow]
    exact haged.window b e (hsub b e he)
  · exact haged.order b b' e (hsub b e he) e' (hsub b' e' he')

theorem Aged.rejected {t : T} {ht : t ≠ 0} (haged : Aged c p s hist)
    (hturn : Turn c strict s p (.push t ht) s')
    (hr : Rejected c strict s.shared (s.handles p) s'.shared (s'.handles p)) :
    Aged c p s' (hist.record c (.push t ht) (s'.handles p)) := by
  have hrec := haged.recorded.turn hturn
  rw [record_rejected hist ht hr.returned] at hrec ⊢
  have hseek := hr.seeking
  have hwrite : s.shared.globalWriteWindow ≤ s'.shared.globalWriteWindow := hseek.keeps.write
  refine ⟨hrec, fun b e he => ?_, haged.ticket, fun b e he => ?_, haged.order⟩
  · obtain ⟨index, hi, hb, hw, hc⟩ := haged.placed b e he
    have hne : blockValues s'.shared b ≠ [] := hrec.values_ne_nil he
    have hge := haged.placed.ge hturn.before hturn.inRange.fit he
    have hgap := hturn.before.shared.windows.gap
    have hread := hseek.read
    rw [hb] at hne
    exact ⟨index, hi, hb, hw.trans hwrite,
      hturn.after.shared.claimed_of_values ⟨by omega, by omega, hi⟩ hne⟩
  · rcases hseek.block with ⟨hblock, hepoch⟩ | ⟨-, v, index, hv, hi, hblock, hepoch⟩
    · rw [writeWindow, hblock, hepoch]
      exact haged.window b e he
    · obtain ⟨-, -, -, hw, -⟩ := haged.placed b e he
      rw [writeWindow_eq hblock hepoch hi]
      exact hw.trans hv

variable [DecidableEq T]

end Aged

/-! ## §4 — the bound -/

variable [DecidableEq T]

end RelaxedConcurrentFifo.BlockBasedQueue
