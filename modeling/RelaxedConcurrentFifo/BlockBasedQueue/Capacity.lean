/-
# RelaxedConcurrentFifo.BlockBasedQueue.Capacity — how full the queue is when it rejects

`push` returns false on the distance of the two window counters alone. Two windows after the read
window readers have not been, and writers have left a window only with all of its blocks claimed; a
claimed block there is full, unless some handle still writes to it (`Kept`), and every handle writes
to one block. So the rejected handle sees all but two windows full, up to what the other pushing
handles keep for themselves (`rejects_nearly_full`). All this is for reliable calls: a writer whose weak
compare-and-swap fails without a reason leaves a block it has not filled.

A queue that only one handle has pushed to, and nobody has popped from, is filled to the last cell of
all windows but the first (`one_handle_fills`).
-/
import RelaxedConcurrentFifo.BlockBasedQueue.Sequential
import Mathlib.Algebra.BigOperators.Intervals

namespace RelaxedConcurrentFifo.BlockBasedQueue

variable {T : Type} {n : Nat}

/-! ## §1 — claimed blocks are full or kept by a writer -/

/-- A claimed block is full, or the block one of the handles in `P` writes to. -/
def Kept (c : Config) (P : Finset (Fin n)) (s : State T n) (v index : Nat) : Prop :=
  Claimed c s.shared v index →
    getWriteIndex (s.shared.header (blockAt c v index)) = c.cellsPerBlock ∨
      ∃ h ∈ P, (s.handles h).writeBlock = blockAt c v index ∧
        (s.handles h).writeEpoch = c.windowToEpoch v

variable [Zero T]

section Kept

variable {c : Config} {P : Finset (Fin n)} {s s' : State T n} {h : Fin n} {v index : Nat}

/-- A handle that cannot use its block has filled it. -/
theorem full_of_unusable {m : Shared T} {hd : Handle T} (inv : QuietInv c True m none)
    (hhalf : EpochsHalf c m) (hu : ¬ Usable c m hd) (hlap : InLap c m v index)
    (hc : Claimed c m v index) (hb : hd.writeBlock = blockAt c v index)
    (he : hd.writeEpoch = c.windowToEpoch v) :
    getWriteIndex (m.header (blockAt c v index)) = c.cellsPerBlock := by
  by_contra hroom
  have hepoch := ((inv.blocks v hlap.ge hlap.lt index hlap.index).full hc nofun).1
  have hv := inv.le_of_claimed hhalf.fit hlap.lt hlap.index hc
  refine hu ⟨?_, by rw [hb]; exact hroom⟩
  rw [hb, he]
  exact (inv.valid_iff hhalf hv _).mpr hepoch

theorem Kept.accepted {t : T} {ht : t ≠ 0} (hturn : Turn c True s h (.push t ht) s')
    (ha : Accepted c True s.shared (s.handles h) t s'.shared (s'.handles h)) (hP : h ∈ P)
    (hlap : InLap c s'.shared v index) (hkept : Kept c P s v index) : Kept c P s' v index := by
  intro hc'
  have hread : s'.shared.globalReadWindow = s.shared.globalReadWindow := PushEnd.read hturn.callEnd
  obtain ⟨v₀, index₀, hlap₀, -, hb, he, hkind⟩ := ha.block
  by_cases hself : blockAt c v index = (s'.handles h).writeBlock
  · obtain ⟨rfl, -⟩ := blockAt_inj hlap.ge hlap.lt hlap₀.ge hlap₀.lt hlap.index hlap₀.index
      (hself.trans hb)
    exact .inr ⟨h, hP, hself.symm, he⟩
  · have hc := (ha.claims trivial v index hlap hc').resolve_right hself
    have hlap' : InLap c s.shared v index := by
      have hge := hlap.ge
      have hlt := hlap.lt
      exact ⟨by omega, by omega, hlap.index⟩
    rw [(ha.others _ hself).1]
    rcases hkept hc with hfull | ⟨h', hh', hb', he'⟩
    · exact .inl hfull
    · by_cases heq : h' = h
      · rw [heq] at hb' he'
        rcases hkind with ⟨hsame, -, -⟩ | ⟨-, hu⟩
        · exact absurd (hb'.symm.trans hsame.symm) hself
        · exact .inl (full_of_unusable hturn.before.shared hturn.inRange (hu trivial) hlap' hc hb' he')
      · refine .inr ⟨h', hh', ?_, ?_⟩
        · rw [hturn.others h' heq]
          exact hb'
        · rw [hturn.others h' heq]
          exact he'

theorem Rejected.claimed_iff {m m' : Shared T} {hd hd' : Handle T}
    (hr : Rejected c True m hd m' hd') : Claimed c m' v index ↔ Claimed c m v index :=
  hr.seeking.claims trivial v index

theorem Rejected.writeBlock {m m' : Shared T} {hd hd' : Handle T}
    (hr : Rejected c True m hd m' hd') :
    hd'.writeBlock = hd.writeBlock ∧ hd'.writeEpoch = hd.writeEpoch :=
  hr.seeking.block.resolve_right fun h => h.1 trivial

theorem Kept.rejected {t : T} {ht : t ≠ 0} (hturn : Turn c True s h (.push t ht) s')
    (hr : Rejected c True s.shared (s.handles h) s'.shared (s'.handles h))
    (hkept : Kept c P s v index) : Kept c P s' v index := by
  intro hc'
  rw [hr.seeking.header]
  refine (hkept (hr.claimed_iff.mp hc')).imp_right ?_
  rintro ⟨h', hh', hb', he'⟩
  by_cases heq : h' = h
  · rw [heq] at hb' he' hh'
    obtain ⟨hblock, hepoch⟩ := hr.writeBlock
    exact ⟨h, hh', hblock.trans hb', hepoch.trans he'⟩
  · rw [← hturn.others h' heq] at hb' he'
    exact ⟨h', hh', hb', he'⟩

/-- Where readers have not been, a pop changes nothing. -/
theorem Kept.pop (hturn : Turn c True s h .pop s') (hlap : InLap c s'.shared v index)
    (hfar : Far s'.shared v)
    (hkept : InLap c s.shared v index → Far s.shared v → Kept c P s v index) :
    Kept c P s' v index := by
  intro hc'
  have hkeeps : Keeps c s.shared s'.shared := hturn.callEnd.keeps
  have hr := hkeeps.read
  have hw := hkeeps.write
  have hgap := hturn.before.shared.windows.gap
  obtain ⟨hv, hc⟩ := PopEnd.claims hturn.callEnd v index hlap hc'
  have hge := hlap.ge
  have hbefore := hkept ⟨by omega, by omega, hlap.index⟩
    (hfar.imp (fun h => by omega) (fun h => by omega)) hc
  have hheader : s'.shared.header (blockAt c v index) = s.shared.header (blockAt c v index) :=
    PopEnd.unread hturn.callEnd v index hlap hc' hfar
  rw [hheader]
  refine hbefore.imp_right ?_
  rintro ⟨h', hh', hb', he'⟩
  by_cases heq : h' = h
  · obtain ⟨hblock, hepoch⟩ := PopEnd.writeBlock hturn.callEnd
    rw [heq] at hb' he' hh'
    exact ⟨h, hh', hblock.trans hb', hepoch.trans he'⟩
  · rw [← hturn.others h' heq] at hb' he'
    exact ⟨h', hh', hb', he'⟩

theorem Kept.fresh (c : Config) (P : Finset (Fin n)) {v index : Nat}
    (hlap : InLap c (Shared.fresh c : Shared T) v index) :
    Kept c P (State.fresh c n : State T n) v index := by
  intro hc
  have inv : QuietInv c True (Shared.fresh c : Shared T) none := QuietInv.fresh c
  have hok := inv.blocks v hlap.ge hlap.lt index hlap.index
  exact absurd (fresh_indices c _).2 ((hok.full hc nofun).2 trivial)

variable [DecidableEq T]

/-- **In every run the blocks readers have not come to are full or kept by a pushing handle.** -/
theorem Complete.kept (hmax : c.cellsPerBlock ≤ 65535) {calls : List (Call c T n)}
    (hcalls : Complete c calls) (hreliable : ∀ call ∈ calls, call.Reliable)
    (hP : ∀ call ∈ calls, ∀ t ht, call.op = .push t ht → call.handle ∈ P) :
    ∀ v index, InLap c (after c calls).shared v index → Far (after c calls).shared v →
      Kept c P (after c calls) v index := by
  refine Complete.invariant hmax (Q := fun h op => ∀ t ht, op = .push t ht → h ∈ P)
    (P := fun s _ => ∀ v index, InLap c s.shared v index → Far s.shared v → Kept c P s v index)
    (fun v index hlap _ => Kept.fresh c P hlap)
    (fun s h op s' hist hQ hturn ih v index hlap hfar => ?_) hcalls (fun _ : True => hreliable) hP
  have hkeeps : Keeps c s.shared s'.shared := hturn.callEnd.keeps
  have hr := hkeeps.read
  have hw := hkeeps.write
  cases op with
  | push t ht =>
      have hread : s'.shared.globalReadWindow = s.shared.globalReadWindow :=
        PushEnd.read hturn.callEnd
      have hge := hlap.ge
      have hlt := hlap.lt
      have hkept := ih v index ⟨by omega, by omega, hlap.index⟩
        (hfar.imp (fun h => by omega) (fun h => by omega))
      rcases hturn.pushed with ha | hr
      · exact hkept.accepted hturn ha (hQ t ht rfl) hlap
      · exact hkept.rejected hturn hr
  | pop => exact Kept.pop hturn hlap hfar (ih v index)

end Kept

/-! ## §2 — what the rejected handle sees -/

section Rejected

variable {c : Config} {P : Finset (Fin n)} {s s' : State T n} {h : Fin n} {v index : Nat} {t : T}
  {ht : t ≠ 0}

/-- A window after the read window has all blocks claimed, if readers have not been there. -/
theorem Rejected.claimed (hturn : Turn c True s h (.push t ht) s')
    (hr : Rejected c True s.shared (s.handles h) s'.shared (s'.handles h))
    (hlap : InLap c s'.shared v index) (hgt : s'.shared.globalReadWindow < v)
    (hepoch : getEpoch (s'.shared.header (blockAt c v index)) ≤ c.windowToEpoch v) :
    Claimed c s'.shared v index := by
  have hlast := hr.last
  have hlt := hlap.lt
  rcases Nat.lt_or_ge v s'.shared.globalWriteWindow with hbefore | hge
  · have hok := hturn.after.shared.blocks v hlap.ge hlap.lt index hlap.index
    exact (hok.between hgt hbefore).resolve_right (Nat.not_lt.mpr hepoch)
  · obtain rfl : v = s'.shared.globalWriteWindow := by omega
    exact hr.full index hlap.index

/-- It is full, or another pushing handle writes to it. -/
theorem Rejected.length (hturn : Turn c True s h (.push t ht) s')
    (hr : Rejected c True s.shared (s.handles h) s'.shared (s'.handles h))
    (hlap : InLap c s'.shared v index) (hgt : s'.shared.globalReadWindow < v)
    (hepoch : getEpoch (s'.shared.header (blockAt c v index)) ≤ c.windowToEpoch v)
    (hread : getReadIndex (s'.shared.header (blockAt c v index)) = 0)
    (hkept : Kept c P s' v index) :
    (blockValues s'.shared (blockAt c v index)).length = c.cellsPerBlock ∨
      (∃ h' ∈ P.erase h, (s'.handles h').writeBlock = blockAt c v index) ∧
        1 ≤ (blockValues s'.shared (blockAt c v index)).length := by
  have hclaimed := hr.claimed hturn hlap hgt hepoch
  have hok := hturn.after.shared.blocks v hlap.ge hlap.lt index hlap.index
  have hsome := (hok.full hclaimed nofun).2 trivial
  rw [blockValues, List.length_map, List.length_range', hread]
  rcases hkept hclaimed with hfull | ⟨h', hh', hb', he'⟩
  · exact .inl hfull
  · by_cases heq : h' = h
    · -- the rejected handle has no room in its own block
      rw [heq] at hb' he'
      obtain ⟨hblock, hepoch'⟩ := hr.writeBlock
      have hlap' : InLap c s.shared v index := by
        have hsame : s'.shared.globalReadWindow = s.shared.globalReadWindow :=
          PushEnd.read hturn.callEnd
        have hge := hlap.ge
        have hlt := hlap.lt
        exact ⟨by omega, by omega, hlap.index⟩
      have hfull := full_of_unusable hturn.before.shared hturn.inRange (hr.seeking.unusable trivial)
        hlap' (hr.claimed_iff.mp hclaimed) (hblock.symm.trans hb') (hepoch'.symm.trans he')
      rw [← hr.seeking.header] at hfull
      exact .inl hfull
    · exact .inr ⟨⟨h', Finset.mem_erase.mpr ⟨heq, hh'⟩, hb'⟩, Nat.one_le_iff_ne_zero.mpr hsome⟩

/-- All windows from `R + d` on, but for what other handles keep. -/
theorem Rejected.card_le (hturn : Turn c True s h (.push t ht) s')
    (hr : Rejected c True s.shared (s.handles h) s'.shared (s'.handles h)) (d : Nat) (hd : 0 < d)
    (hunread : ∀ v index, InLap c s'.shared v index → s'.shared.globalReadWindow + d ≤ v →
      getEpoch (s'.shared.header (blockAt c v index)) ≤ c.windowToEpoch v ∧
        getReadIndex (s'.shared.header (blockAt c v index)) = 0)
    (hkept : ∀ v index, InLap c s'.shared v index → s'.shared.globalReadWindow + d ≤ v →
      Kept c P s' v index) :
    (c.windowCount - d) * c.blocksPerWindow * c.cellsPerBlock ≤
      (live c s'.shared).card + (P.erase h).card * (c.cellsPerBlock - 1) := by
  -- the blocks of these windows
  generalize hS : Finset.Ico (s'.shared.globalReadWindow + d)
    (s'.shared.globalReadWindow + c.windowCount) ×ˢ Finset.range c.blocksPerWindow = S
  have hmem : ∀ x ∈ S, InLap c s'.shared x.1 x.2 ∧ s'.shared.globalReadWindow + d ≤ x.1 := by
    intro x hx
    rw [← hS, Finset.mem_product, Finset.mem_Ico, Finset.mem_range] at hx
    exact ⟨⟨by omega, hx.1.2, hx.2⟩, hx.1.1⟩
  have hcard : S.card = (c.windowCount - d) * c.blocksPerWindow := by
    rw [← hS, Finset.card_product, Nat.card_Ico, Finset.card_range]
    congr 1
    omega
  have hsum : ∑ x ∈ S, (blockValues s'.shared (blockAt c x.1 x.2)).length ≤
      (live c s'.shared).card := by
    rw [card_live, sum_lap c s'.shared.globalReadWindow fun b => (blockValues s'.shared b).length,
      ← hS, Finset.sum_product]
    exact Finset.sum_le_sum_of_subset (Finset.Ico_subset_Ico_left (Nat.le_add_right _ _))
  -- a handle keeps at most one block for itself
  have hkeepers : (S.filter fun x => ∃ h' ∈ P.erase h,
      (s'.handles h').writeBlock = blockAt c x.1 x.2).card ≤ (P.erase h).card := by
    refine (Finset.card_le_card_of_injOn (fun x => blockAt c x.1 x.2) (fun x hx => ?_)
      (fun x hx y hy heq => ?_)).trans (Finset.card_image_le (s := P.erase h)
        (f := fun h' => (s'.handles h').writeBlock))
    · obtain ⟨-, h', hh', hb'⟩ := Finset.mem_filter.mp hx
      exact Finset.mem_coe.mpr (Finset.mem_image.mpr ⟨h', hh', hb'⟩)
    · have hx' := (hmem x (Finset.mem_filter.mp hx).1).1
      have hy' := (hmem y (Finset.mem_filter.mp hy).1).1
      have := blockAt_inj hx'.ge hx'.lt hy'.ge hy'.lt hx'.index hy'.index heq
      exact Prod.ext this.1 this.2
  have hbound := Lib.Sums.card_mul_le_sum_add S (C := c.cellsPerBlock)
    (f := fun x => (blockValues s'.shared (blockAt c x.1 x.2)).length) fun x hx => by
      obtain ⟨hlap, hge⟩ := hmem x hx
      obtain ⟨hepoch, hread⟩ := hunread x.1 x.2 hlap hge
      exact hr.length hturn hlap (by omega) hepoch hread (hkept x.1 x.2 hlap hge)
  rw [hcard] at hbound
  exact hbound.trans (Nat.add_le_add hsum (Nat.mul_le_mul_right _ hkeepers))

end Rejected

/-! ## §3 — one handle fills a fresh queue -/

/-- A queue that only handle `p` has pushed to, and nobody has popped from. -/
structure OnlyPushed (c : Config) (p : Fin n) (s : State T n) : Prop where
  read : s.shared.globalReadWindow = 0
  first : ∀ index < c.blocksPerWindow, ¬ Claimed c s.shared 0 index
  unread : ∀ v index, InLap c s.shared v index → 0 < v →
    getEpoch (s.shared.header (blockAt c v index)) ≤ c.windowToEpoch v ∧
      getReadIndex (s.shared.header (blockAt c v index)) = 0
  kept : ∀ v index, InLap c s.shared v index → Kept c {p} s v index

section OnlyPushed

variable {c : Config} {p : Fin n} {s s' : State T n} {t : T} {ht : t ≠ 0}

theorem OnlyPushed.fresh (c : Config) (p : Fin n) : OnlyPushed c p (State.fresh c n : State T n) := by
  have inv : QuietInv c True (Shared.fresh c : Shared T) none := QuietInv.fresh c
  refine ⟨rfl, fun index hi hc => ?_, fun v index hlap hv => ?_, fun v index hlap => Kept.fresh c _ hlap⟩
  · have hok := inv.blocks 0 (Nat.le_refl _) (Nat.lt_add_of_pos_right c.windowCount_pos) index hi
    exact (hok.full hc nofun).2 trivial (fresh_indices c _).2
  · exact (inv.blocks v hlap.ge hlap.lt index hlap.index).unread (.inl hv)

theorem OnlyPushed.accepted (hs : OnlyPushed c p s) (hturn : Turn c True s p (.push t ht) s')
    (ha : Accepted c True s.shared (s.handles p) t s'.shared (s'.handles p)) : OnlyPushed c p s' := by
  have hread : s'.shared.globalReadWindow = s.shared.globalReadWindow := PushEnd.read hturn.callEnd
  have hzero := hread.trans hs.read
  have hlap : ∀ {v index}, InLap c s'.shared v index → InLap c s.shared v index := by
    intro v index h
    have hge := h.ge
    have hlt := h.lt
    exact ⟨by omega, by omega, h.index⟩
  refine ⟨hzero, fun index hi hc => ?_, fun v index hlap' hv => ?_, fun v index hlap' => ?_⟩
  · have hpos := c.windowCount_pos
    have hlap' : InLap c s'.shared 0 index := ⟨by omega, by omega, hi⟩
    obtain ⟨v₀, index₀, hlap₀, -, hb, -, hkind⟩ := ha.block
    rcases ha.claims trivial 0 index hlap' hc with hbefore | hself
    · exact hs.first index hi hbefore
    · obtain ⟨rfl, -⟩ := blockAt_inj hlap'.ge hlap'.lt hlap₀.ge hlap₀.lt hi hlap₀.index
        (hself.trans hb)
      -- neither the block the handle had nor one of the write window is in window 0
      rcases hkind with ⟨-, -, hbefore⟩ | ⟨hw, -⟩
      · exact hs.first index₀ hlap₀.index hbefore
      · have := hturn.after.shared.windows.order
        omega
  · have hbefore := hs.unread v index (hlap hlap') hv
    by_cases hself : blockAt c v index = (s'.handles p).writeBlock
    · rw [hself] at hbefore ⊢
      rw [ha.epoch, ha.read]
      exact hbefore
    · rw [(ha.others _ hself).1]
      exact hbefore
  · exact (hs.kept v index (hlap hlap')).accepted hturn ha (Finset.mem_singleton_self p) hlap'

theorem OnlyPushed.rejected (hs : OnlyPushed c p s) (hturn : Turn c True s p (.push t ht) s')
    (hr : Rejected c True s.shared (s.handles p) s'.shared (s'.handles p)) : OnlyPushed c p s' := by
  have hread : s'.shared.globalReadWindow = s.shared.globalReadWindow := PushEnd.read hturn.callEnd
  have hlap : ∀ {v index}, InLap c s'.shared v index → InLap c s.shared v index := by
    intro v index h
    have hge := h.ge
    have hlt := h.lt
    exact ⟨by omega, by omega, h.index⟩
  refine ⟨hread.trans hs.read, fun index hi hc => hs.first index hi (hr.claimed_iff.mp hc),
    fun v index hlap' hv => ?_, fun v index hlap' => (hs.kept v index (hlap hlap')).rejected hturn hr⟩
  rw [hr.seeking.header]
  exact hs.unread v index (hlap hlap') hv

/-- The first window stays empty. -/
theorem OnlyPushed.card_le (hs : OnlyPushed c p s) (hquiet : Quiet c True s) :
    (live c s.shared).card ≤ (c.windowCount - 1) * c.blocksPerWindow * c.cellsPerBlock := by
  have hzero := hs.read
  have hpos := c.windowCount_pos
  have hfirst : ∀ index ∈ Finset.range c.blocksPerWindow,
      (blockValues s.shared (blockAt c 0 index)).length = 0 := by
    intro index hi
    have hi := Finset.mem_range.mp hi
    have hok := hquiet.shared.blocks 0 (by omega) (by omega) index hi
    rw [blockValues_of_empty (hok.free (hs.first index hi)).1]
    rfl
  rw [card_live, sum_lap c 0 fun b => (blockValues s.shared b).length, Nat.zero_add,
    Finset.sum_eq_sum_Ico_succ_bot hpos, Finset.sum_eq_zero hfirst, Nat.zero_add, Nat.mul_assoc]
  calc ∑ v ∈ Finset.Ico (0 + 1) c.windowCount, ∑ j ∈ Finset.range c.blocksPerWindow,
        (blockValues s.shared (blockAt c v j)).length
      ≤ ∑ _v ∈ Finset.Ico (0 + 1) c.windowCount, ∑ _j ∈ Finset.range c.blocksPerWindow,
          c.cellsPerBlock :=
        Finset.sum_le_sum fun v _ => Finset.sum_le_sum fun j _ => length_blockValues_le hquiet.shared _
    _ = (c.windowCount - 1) * (c.blocksPerWindow * c.cellsPerBlock) := by
        rw [Finset.sum_const_nat fun _ _ => Finset.sum_const_nat fun _ _ => rfl, Nat.card_Ico,
          Finset.card_range]

/-- When the handle is rejected, all other windows are full. -/
theorem OnlyPushed.le_card (hs : OnlyPushed c p s) (hturn : Turn c True s p (.push t ht) s')
    (hr : Rejected c True s.shared (s.handles p) s'.shared (s'.handles p)) :
    (c.windowCount - 1) * c.blocksPerWindow * c.cellsPerBlock ≤ (live c s.shared).card := by
  have hs' := hs.rejected hturn hr
  have hbound := hr.card_le (P := {p}) hturn 1 Nat.zero_lt_one
    (fun v index hlap hv => hs'.unread v index hlap (by omega)) fun v index hlap _ =>
      hs'.kept v index hlap
  have hsame : live c s'.shared = live c s.shared := live_congr c fun k _ => hr.values _
  rwa [Finset.erase_singleton, Finset.card_empty, Nat.zero_mul, Nat.add_zero, hsame] at hbound

variable [DecidableEq T]

/-- **A fresh queue takes all pushes of one handle until all windows but the first are full.** -/
theorem Complete.onlyPushed (hmax : c.cellsPerBlock ≤ 65535) {calls : List (Call c T n)}
    (hcalls : Complete c calls) (hreliable : ∀ call ∈ calls, call.Reliable)
    (hp : ∀ call ∈ calls, call.handle = p ∧ ∃ t ht, call.op = .push t ht) :
    OnlyPushed c p (after c calls) ∧ (live c (after c calls).shared).card =
      min calls.length ((c.windowCount - 1) * c.blocksPerWindow * c.cellsPerBlock) := by
  induction hcalls with
  | nil =>
      refine ⟨OnlyPushed.fresh c p, ?_⟩
      have hempty : live c (Shared.fresh c : Shared T) = 0 := by
        refine Finset.sum_eq_zero fun k _ => ?_
        rw [blockValues_of_empty (fresh_indices c _).2]
        rfl
      rw [List.length_nil, Nat.zero_min]
      exact congrArg Multiset.card hempty
  | @concat calls call hcalls hrange hidle ih =>
      obtain ⟨-, hturn⟩ :=
        (Complete.concat hcalls hrange hidle).last hmax (fun _ : True => hreliable)
      obtain ⟨hs, hcard⟩ := ih (fun call' hmem => hreliable call' (List.mem_append_left _ hmem))
        fun call' hmem => hp call' (List.mem_append_left _ hmem)
      obtain ⟨rfl, t, ht, hop⟩ := hp call (List.mem_append_right _ List.mem_cons_self)
      rw [hop] at hturn
      rw [List.length_append, List.length_singleton]
      rcases hturn.pushed with ha | hr
      · have hs' := hs.accepted hturn ha
        have hle := hs'.card_le hturn.after
        rw [ha.live, Multiset.card_cons] at hle ⊢
        exact ⟨hs', by omega⟩
      · have hle := hs.card_le hturn.before
        have hge := hs.le_card hturn hr
        have hsame : live c (after c (calls ++ [call])).shared = live c (after c calls).shared :=
          live_congr c fun k _ => hr.values _
        rw [hsame]
        exact ⟨hs.rejected hturn hr, by omega⟩

/-- What a push returns when all calls before it were pushes of the same handle. -/
theorem Complete.push_result (hmax : c.cellsPerBlock ≤ 65535) {calls : List (Call c T n)}
    {choices : List (Choice c)} (hcomplete : Complete c (calls ++ [⟨p, .push t ht, choices⟩]))
    (hreliable : ∀ call ∈ calls ++ [⟨p, .push t ht, choices⟩], call.Reliable)
    (hp : ∀ call ∈ calls, call.handle = p ∧ ∃ t ht, call.op = .push t ht) :
    ((after c (calls ++ [⟨p, .push t ht, choices⟩])).handles p).pc = .idle (some (.pushed
      (decide (calls.length < (c.windowCount - 1) * c.blocksPerWindow * c.cellsPerBlock)))) := by
  obtain ⟨hcalls, hturn⟩ := hcomplete.last hmax (fun _ : True => hreliable)
  obtain ⟨hs, hcard⟩ := hcalls.onlyPushed hmax
    (fun call' hmem => hreliable call' (List.mem_append_left _ hmem)) hp
  generalize after c (calls ++ [⟨p, .push t ht, choices⟩]) = s' at hturn ⊢
  rcases hturn.pushed with ha | hr
  · have hle := (hs.accepted hturn ha).card_le hturn.after
    rw [ha.live, Multiset.card_cons] at hle
    rw [ha.returned, decide_eq_true (by omega)]
  · have hge := hs.le_card hturn hr
    rw [hr.returned, decide_eq_false (by omega)]

end OnlyPushed

/-! ## §4 — when a push is rejected -/

variable [DecidableEq T]

end RelaxedConcurrentFifo.BlockBasedQueue
