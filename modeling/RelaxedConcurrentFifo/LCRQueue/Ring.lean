/-
# RelaxedConcurrentFifo.LCRQueue.Ring — what the cells of one ring say

A cell serves every ticket of its residue. `RingOk` says how its contents go with the log: a value is
an item that was put and not taken, every such item is there, and a ticket that was taken or spoiled
can not be used any more, since the index has passed it or the cell is marked unsafe.

Of the four ways in which a cell changes, none undoes what another thread relies on: the index never
goes back, and a cell is emptied only while its index moves on (`phase`).
-/
import RelaxedConcurrentFifo.LCRQueue.Machine

namespace RelaxedConcurrentFifo.LCRQueue

open RelaxedConcurrentFifo.Lib.TicketQueue

variable {T : Type}

/-! ## §1 — words, tickets and cells -/

theorem u64_of_lt {n : Nat} (h : n < 2 ^ 64) : u64 n = n := Nat.mod_eq_of_lt h

namespace Word

/-- What stays below the flag is an index. -/
theorem ofNat_of_lt {n : Nat} (h : n < 2 ^ 63) : ofNat n = ⟨false, n⟩ := by
  have hbelow : ¬ 2 ^ 63 ≤ u64 n := by
    rw [u64_of_lt (by omega)]
    omega
  rw [ofNat, decide_eq_false hbelow, Nat.mod_eq_of_lt h]

theorem mark_of_lt {n : Nat} (flag : Bool) (h : n < 2 ^ 63) : mark flag n = ⟨flag, n⟩ := by
  rw [mark, ofNat_of_lt h, Bool.or_false]

theorem succ_of_lt {w : Word} (h : w.index + 1 < 2 ^ 63) : w.succ = ⟨w.flag, w.index + 1⟩ := by
  obtain ⟨flag, n⟩ := w
  have h : n + 1 < 2 ^ 63 := h
  cases flag with
  | false => exact ofNat_of_lt h
  | true =>
      have hsum : u64 (2 ^ 63 + n + 1) = 2 ^ 63 + n + 1 := u64_of_lt (by omega)
      have hmod : (2 ^ 63 + n + 1) % 2 ^ 63 = n + 1 := by
        rw [Nat.add_assoc, Nat.add_mod_left, Nat.mod_eq_of_lt h]
      change (⟨decide (2 ^ 63 ≤ u64 (2 ^ 63 + n + 1)), (2 ^ 63 + n + 1) % 2 ^ 63⟩ : Word) = _
      rw [hsum, hmod, decide_eq_true (by omega)]

/-- A number below the flag that is greater than a word: the word has no flag. -/
theorem lt_toNat {w : Word} {n : Nat} (hn : n < 2 ^ 63) (h : w.toNat < n) :
    w.flag = false ∧ w.index < n := by
  unfold toNat at h
  split at h
  · omega
  · rename_i hflag
    exact ⟨Bool.eq_false_of_not_eq_true hflag, h⟩

end Word

theorem Config.cellSize_mul (c : Config) : c.cellSize * c.cellsPerCacheLine = 128 := by
  unfold cellsPerCacheLine cellSize
  split <;> rfl

/-- A ring fills whole cache lines where it is remapped. -/
theorem Config.ringSize_eq (c : Config) (hremap : c.cacheRemap = true)
    (hlarge : 128 ≤ c.ringSize * c.cellSize) :
    c.ringSize = c.numCacheLines * c.cellsPerCacheLine := by
  have haligned : c.ringSize * c.cellSize % 128 = 0 := c.aligned hremap hlarge
  have hlines : c.numCacheLines * 128 = c.ringSize * c.cellSize :=
    Nat.div_mul_cancel (Nat.dvd_of_mod_eq_zero haligned)
  have hpos : 0 < c.cellSize := by
    unfold cellSize
    split <;> decide
  refine Nat.eq_of_mul_eq_mul_right hpos ?_
  rw [← hlines, ← c.cellSize_mul, Nat.mul_assoc, Nat.mul_comm c.cellSize]

theorem Config.remap_injective (c : Config) {i j : Nat} (hi : i < c.ringSize)
    (hj : j < c.ringSize) (h : c.remap i = c.remap j) : i = j := by
  unfold remap at h
  split at h
  · rename_i hremap
    rw [c.ringSize_eq hremap.1 hremap.2] at hi hj
    have hlines : 0 < c.numCacheLines := Nat.pos_of_mul_pos_right (Nat.zero_lt_of_lt hi)
    have hdecode : ∀ k < c.numCacheLines * c.cellsPerCacheLine,
        (k % c.numCacheLines * c.cellsPerCacheLine + k / c.numCacheLines) / c.cellsPerCacheLine =
          k % c.numCacheLines ∧
        (k % c.numCacheLines * c.cellsPerCacheLine + k / c.numCacheLines) % c.cellsPerCacheLine =
          k / c.numCacheLines := by
      intro k hk
      have hlt : k / c.numCacheLines < c.cellsPerCacheLine :=
        Nat.div_lt_of_lt_mul hk
      have hpos : 0 < c.cellsPerCacheLine := Nat.zero_lt_of_lt hlt
      constructor
      · rw [Nat.add_comm, Nat.add_mul_div_right _ _ hpos, Nat.div_eq_of_lt hlt, Nat.zero_add]
      · rw [Nat.add_comm, Nat.add_mul_mod_self_right, Nat.mod_eq_of_lt hlt]
    obtain ⟨hi₁, hi₂⟩ := hdecode i hi
    obtain ⟨hj₁, hj₂⟩ := hdecode j hj
    rw [h] at hi₁ hi₂
    have hmod : i % c.numCacheLines = j % c.numCacheLines := hi₁.symm.trans hj₁
    have hdiv : i / c.numCacheLines = j / c.numCacheLines := hi₂.symm.trans hj₂
    rw [← Nat.div_add_mod i c.numCacheLines, ← Nat.div_add_mod j c.numCacheLines, hmod, hdiv]
  · exact h

/-- **Two tickets share a cell exactly when they are whole rounds apart.** -/
theorem Config.slot_eq_iff (c : Config) {t t' : Nat} :
    c.slot t = c.slot t' ↔ t % c.ringSize = t' % c.ringSize := by
  refine ⟨fun h => ?_, fun h => by rw [slot, slot, h]⟩
  exact c.remap_injective (Nat.mod_lt _ c.ringSize_pos) (Nat.mod_lt _ c.ringSize_pos) h

theorem Config.slot_add (c : Config) (t : Nat) : c.slot (t + c.ringSize) = c.slot t := by
  rw [c.slot_eq_iff, Nat.add_mod_right]

/-- Two tickets of one cell, less than a round apart. -/
theorem Config.eq_of_slot_eq (c : Config) {start t t' : Nat} (h : c.slot t = c.slot t')
    (ht : start ≤ t ∧ t < start + c.ringSize) (ht' : start ≤ t' ∧ t' < start + c.ringSize) :
    t = t' := by
  have hmod := c.slot_eq_iff.mp h
  have hdiff : ∀ {a b : Nat}, a ≤ b → b < a + c.ringSize → a % c.ringSize = b % c.ringSize →
      a = b := by
    intro a b hab hlt hmod
    have hdvd : c.ringSize ∣ b - a := Nat.dvd_of_mod_eq_zero (Nat.sub_mod_eq_zero_of_mod_eq hmod.symm)
    have := Nat.eq_zero_of_dvd_of_lt hdvd (by omega)
    omega
  rcases Nat.le_total t t' with hle | hle
  · exact hdiff hle (by omega) hmod
  · exact (hdiff hle (by omega) hmod.symm).symm

namespace Segment

variable (c : Config) (s : Segment T)

@[simp] theorem setCell_cell (t t' : Nat) (x : Cell T) :
    (s.setCell c t x).cell c t' = if c.slot t' = c.slot t then x else s.cell c t' :=
  Function.update_apply ..

@[simp] theorem setCell_head (t : Nat) (x : Cell T) : (s.setCell c t x).head = s.head := rfl
@[simp] theorem setCell_tail (t : Nat) (x : Cell T) : (s.setCell c t x).tail = s.tail := rfl
@[simp] theorem setCell_next (t : Nat) (x : Cell T) : (s.setCell c t x).next = s.next := rfl

/-- Tickets of one cell see the same. -/
theorem cell_congr {t t' : Nat} (h : c.slot t = c.slot t') : s.cell c t = s.cell c t' := by
  rw [cell, cell, h]

end Segment

/-- The cells that the constructor of a ring has initialised after `n` rounds. -/
theorem foldl_new_apply (c : Config) (start : Nat) {n : Nat} (hn : n ≤ c.ringSize) {t : Nat}
    (ht : start ≤ t ∧ t < start + n) :
    (List.range n).foldl
      (fun (array : Nat → Cell T) k =>
        Function.update array (c.slot (start + k)) ⟨none, .ofNat (start + k)⟩)
      (fun _ => ⟨none, false, 0⟩) (c.slot t) = ⟨none, .ofNat t⟩ := by
  induction n with
  | zero => omega
  | succ n ih =>
      rw [List.range_succ, List.foldl_append, List.foldl_cons, List.foldl_nil,
        Function.update_apply]
      split
      · rename_i hslot
        have hnew : start ≤ start + n ∧ start + n < start + c.ringSize := by omega
        rw [c.eq_of_slot_eq hslot (by omega) hnew]
      · rename_i hslot
        refine ih (by omega) ⟨ht.1, ?_⟩
        have hne : t ≠ start + n := fun h => hslot (by rw [h])
        omega

/-- **A new ring**: each cell waits for the ticket of the first round that belongs to it. -/
theorem Segment.new_cell (c : Config) {start : Nat} (hfit : start + c.ringSize < 2 ^ 63) (t : Nat) :
    ∃ t', (Segment.new (T := T) c start).cell c t = ⟨none, false, t'⟩ ∧ c.slot t' = c.slot t ∧
      start ≤ t' ∧ t' < start + c.ringSize := by
  -- the ticket of the cell in the first round
  obtain ⟨t', hmod, hle, hlt⟩ : ∃ t', t' % c.ringSize = t % c.ringSize ∧ start ≤ t' ∧
      t' < start + c.ringSize := by
    have hpos := c.ringSize_pos
    refine ⟨start + (t + c.ringSize * start - start) % c.ringSize, ?_, by omega, ?_⟩
    · have hge : start ≤ t + c.ringSize * start := by
        have := Nat.le_mul_of_pos_left start hpos
        omega
      rw [Nat.add_mod_mod, Nat.add_sub_cancel' hge, Nat.add_mul_mod_self_left]
    · have := Nat.mod_lt (t + c.ringSize * start - start) hpos
      omega
  have hslot := c.slot_eq_iff.mpr hmod
  refine ⟨t', ?_, hslot, hle, hlt⟩
  have hrounds : u64 (start + c.ringSize) - start = c.ringSize := by
    rw [u64_of_lt (by omega), Nat.add_sub_cancel_left]
  rw [Segment.cell, ← hslot, Segment.new, hrounds, ← Word.ofNat_of_lt (by omega : t' < 2 ^ 63)]
  exact foldl_new_apply c start (Nat.le_refl _) ⟨hle, hlt⟩

/-- **The first enqueue into a new ring succeeds**, so its loop makes one round. -/
theorem Segment.enqueueAlone_new (c : Config) {start : Nat} (hfit : start + c.ringSize < 2 ^ 63)
    (item : T) : (Segment.new c start).enqueueAlone c item =
      { (Segment.new c start).setCell c start ⟨some item, false, start⟩ with
        tail := ⟨false, start + 1⟩ } := by
  have hpos := c.ringSize_pos
  obtain ⟨t', hcell, hslot, hle, hlt⟩ := Segment.new_cell (T := T) c hfit start
  obtain rfl : t' = start :=
    c.eq_of_slot_eq hslot ⟨hle, hlt⟩ ⟨Nat.le_refl _, Nat.lt_add_of_pos_right hpos⟩
  have htail : (Segment.new (T := T) c t').tail = ⟨false, t'⟩ := Word.ofNat_of_lt (by omega)
  have hsucc : Word.succ ⟨false, t'⟩ = ⟨false, t' + 1⟩ := Word.succ_of_lt (by change t' + 1 < _; omega)
  unfold Segment.enqueueAlone
  simp only [htail, hcell, hsucc, Nat.le_refl, true_and, true_or, if_true]
  rfl

/-! ## §2 — the cells and the log -/

/-- How far a cell has come: it is filled and emptied once an index. -/
def Cell.phase (x : Cell T) : Nat := 2 * x.idx.index + if x.val.isSome then 1 else 0

theorem place_inj {i t i' t' : Nat} : place i t = place i' t' ↔ i = i' ∧ t = t' := by
  rw [place, place, toLex_inj, Prod.mk.injEq]

theorem place_lt {i t i' t' : Nat} : place i t < place i' t' ↔ i < i' ∨ i = i' ∧ t < t' :=
  Prod.Lex.toLex_lt_toLex

/-- A place is a ring and a ticket. -/
theorem exists_place (q : Place) : ∃ i t, q = place i t := ⟨(ofLex q).1, (ofLex q).2, rfl⟩

/-- The cells of ring `i` and what the log says of its tickets. -/
structure RingOk (c : Config) (w : List (Entry Place T)) (i : Nat) (s : Segment T) : Prop where
  index : ∀ t, c.slot (s.cell c t).idx.index = c.slot t
  dead : ∀ d t r, .taken d (place i t) r ∈ w →
    t < (s.cell c t).idx.index ∨ (s.cell c t).idx.flag = true
  value : ∀ t a, (s.cell c t).val = some a → ∃ e, .put e (place i (s.cell c t).idx.index) ∈ w ∧
    .enqueue e a ∈ w ∧ ∀ d r, .taken d (place i (s.cell c t).idx.index) r ∉ w
  kept : ∀ e t a, .put e (place i t) ∈ w → .enqueue e a ∈ w →
    (∀ d r, .taken d (place i t) r ∉ w) → (s.cell c t).val = some a ∧ (s.cell c t).idx.index = t

namespace RingOk

variable {c : Config} {w w' : List (Entry Place T)} {i : Nat} {s s' : Segment T}

/-- Only the cells count. -/
theorem of_cell (h : RingOk c w i s) (hcell : ∀ t, s'.cell c t = s.cell c t) :
    RingOk c w i s' := by
  refine ⟨fun t => ?_, fun d t r ht => ?_, fun t a ha => ?_, fun e t a hput hcall ht => ?_⟩
  · rw [hcell]
    exact h.index t
  · rw [hcell]
    exact h.dead d t r ht
  · rw [hcell] at ha ⊢
    exact h.value t a ha
  · rw [hcell]
    exact h.kept e t a hput hcall ht

/-- Only what was put and taken in the ring counts. -/
theorem of_log (h : RingOk c w i s) (hw : Legal w) (hw' : Legal w') (hsub : ∀ x ∈ w, x ∈ w')
    (hput : ∀ e t, .put e (place i t) ∈ w' → .put e (place i t) ∈ w)
    (htaken : ∀ d t r, .taken d (place i t) r ∈ w' → .taken d (place i t) r ∈ w) :
    RingOk c w' i s := by
  refine ⟨h.index, fun d t r ht => h.dead d t r (htaken d t r ht), fun t a ha => ?_,
    fun e t a hp hcall ht => ?_⟩
  · obtain ⟨e, hp, hcall, ht⟩ := h.value t a ha
    exact ⟨e, hsub _ hp, hsub _ hcall, fun d r hr => ht d r (htaken d _ r hr)⟩
  · have hp := hput e t hp
    obtain ⟨b, hb, -⟩ := exists_enqueue hw hp
    obtain rfl := enqueue_item hw' hcall (hsub _ hb)
    exact h.kept e t a hp hb fun d r hr => ht d r (hsub _ hr)

/-- Where no one has taken, an item that was put is in the cell. -/
theorem not_put (h : RingOk c w i s) (hw : Legal w) {t : Nat}
    (htaken : ∀ d r, .taken d (place i t) r ∉ w)
    (hcell : (s.cell c t).idx.index ≠ t ∨ (s.cell c t).val = none) :
    ∀ e, .put e (place i t) ∉ w := by
  intro e hput
  obtain ⟨a, ha, -⟩ := exists_enqueue hw hput
  obtain ⟨hval, hidx⟩ := h.kept e t a hput ha htaken
  rcases hcell with hcell | hcell
  · exact hcell hidx
  · rw [hval] at hcell
    cases hcell

/-- An enqueue fills the cell of its ticket. -/
theorem fill (h : RingOk c w i s) (hw : Legal w) {e t : Nat} {a : T} {idx : Word}
    (hw' : Legal (w ++ [.put e (place i t)])) (hcall : .enqueue e a ∈ w)
    (hcell : s.cell c t = ⟨none, idx⟩)
    (hfree : ∀ t' ≥ t, c.slot t' = c.slot t → ∀ d r, .taken d (place i t') r ∉ w) :
    RingOk c (w ++ [.put e (place i t)]) i (s.setCell c t ⟨some a, false, t⟩) := by
  have htaken : ∀ {d : Nat} {p : Place} {r : Option T},
      .taken d p r ∈ w ++ [.put e (place i t)] → .taken d p r ∈ w := by
    intro d p r hr
    rcases List.mem_append.mp hr with hr | hr
    · exact hr
    · cases List.mem_singleton.mp hr
  have hcalled : ∀ {e' : Nat} {b : T}, .enqueue e' b ∈ w ++ [.put e (place i t)] →
      .enqueue e' b ∈ w := by
    intro e' b hb
    rcases List.mem_append.mp hb with hb | hb
    · exact hb
    · cases List.mem_singleton.mp hb
  -- for each part: the tickets of the cell just filled, and those of the others
  refine ⟨fun t' => ?_, fun d t' r hr => ?_, fun t' b hb => ?_, fun e' t' b hput hcall' ht' => ?_⟩
  · rw [Segment.setCell_cell]
    split
    · rename_i hslot
      exact hslot.symm
    · exact h.index t'
  · rw [Segment.setCell_cell]
    split
    · rename_i hslot
      refine .inl ?_
      by_contra hge
      exact hfree t' (Nat.le_of_not_lt hge) hslot d r (htaken hr)
    · exact h.dead d t' r (htaken hr)
  · rw [Segment.setCell_cell] at hb ⊢
    split at hb
    · rename_i hslot
      rw [if_pos hslot]
      obtain rfl := Option.some.inj hb
      refine ⟨e, List.mem_append_right w List.mem_cons_self, List.mem_append_left _ hcall,
        fun d r hr => hfree t (Nat.le_refl t) rfl d r (htaken hr)⟩
    · rename_i hslot
      rw [if_neg hslot]
      obtain ⟨e', hput, hcall', ht'⟩ := h.value t' b hb
      exact ⟨e', List.mem_append_left _ hput, List.mem_append_left _ hcall',
        fun d r hr => ht' d r (htaken hr)⟩
  · have hnot : ∀ d r, .taken d (place i t') r ∉ w :=
      fun d r hr => ht' d r (List.mem_append_left _ hr)
    rw [Segment.setCell_cell]
    rcases List.mem_append.mp hput with hput | hput
    · have hkept := h.kept e' t' b hput (hcalled hcall') hnot
      split
      · rename_i hslot
        -- an item still to be taken would have been in the cell, which was empty
        rw [s.cell_congr c hslot, hcell] at hkept
        cases hkept.1
      · exact hkept
    · obtain ⟨rfl, hp⟩ : e' = e ∧ place i t' = place i t := by
        simpa using List.mem_singleton.mp hput
      obtain ⟨-, rfl⟩ := place_inj.mp hp
      rw [if_pos rfl, enqueue_item hw (hcalled hcall') hcall]
      exact ⟨rfl, rfl⟩

/-- A dequeue takes the item of its ticket. -/
theorem take (h : RingOk c w i s) {d t : Nat} {v : T} {flag : Bool}
    (hcell : s.cell c t = ⟨some v, flag, t⟩) :
    RingOk c (w ++ [.taken d (place i t) (some v)]) i
      (s.setCell c t ⟨none, flag, t + c.ringSize⟩) := by
  have hpos := c.ringSize_pos
  have hput' : ∀ {e : Nat} {p : Place}, .put e p ∈ w ++ [.taken d (place i t) (some v)] →
      .put e p ∈ w := by
    intro e p hp
    rcases List.mem_append.mp hp with hp | hp
    · exact hp
    · cases List.mem_singleton.mp hp
  refine ⟨fun t' => ?_, fun d' t' r hr => ?_, fun t' b hb => ?_, fun e t' b hput hcall ht' => ?_⟩
  · rw [Segment.setCell_cell]
    split
    · rename_i hslot
      rw [c.slot_add, hslot]
    · exact h.index t'
  · rw [Segment.setCell_cell]
    split
    · rename_i hslot
      rcases List.mem_append.mp hr with hr | hr
      · -- what was taken from the cell before stays out of reach, since its round went up
        have hdead := h.dead d' t' r hr
        rw [s.cell_congr c hslot, hcell] at hdead
        exact hdead.imp_left fun hlt => by
          change t' < t at hlt
          change t' < t + c.ringSize
          omega
      · obtain ⟨-, hp, -⟩ : d' = d ∧ place i t' = place i t ∧ r = some v := by
          simpa using List.mem_singleton.mp hr
        obtain ⟨-, rfl⟩ := place_inj.mp hp
        exact .inl (Nat.lt_add_of_pos_right hpos)
    · rename_i hslot
      refine h.dead d' t' r ?_
      rcases List.mem_append.mp hr with hr | hr
      · exact hr
      · obtain ⟨-, hp, -⟩ : d' = d ∧ place i t' = place i t ∧ r = some v := by
          simpa using List.mem_singleton.mp hr
        exact absurd (by rw [(place_inj.mp hp).2]) hslot
  · rw [Segment.setCell_cell] at hb ⊢
    split at hb
    · cases hb
    · rename_i hslot
      rw [if_neg hslot]
      obtain ⟨e, hput, hcall, ht'⟩ := h.value t' b hb
      refine ⟨e, List.mem_append_left _ hput, List.mem_append_left _ hcall, fun d' r hr => ?_⟩
      rcases List.mem_append.mp hr with hr | hr
      · exact ht' d' r hr
      · obtain ⟨-, hp, -⟩ : d' = d ∧ place i (s.cell c t').idx.index = place i t ∧ r = some v := by
          simpa using List.mem_singleton.mp hr
        refine hslot ?_
        rw [← h.index t', (place_inj.mp hp).2]
  · have hnot : ∀ d r, .taken d (place i t') r ∉ w :=
      fun d r hr => ht' d r (List.mem_append_left _ hr)
    have hcall : .enqueue e b ∈ w := by
      rcases List.mem_append.mp hcall with hcall | hcall
      · exact hcall
      · cases List.mem_singleton.mp hcall
    have hkept := h.kept e t' b (hput' hput) hcall hnot
    rw [Segment.setCell_cell]
    split
    · rename_i hslot
      rw [s.cell_congr c hslot, hcell] at hkept
      obtain rfl : t = t' := hkept.2
      exact absurd (List.mem_append_right w List.mem_cons_self) (ht' d (some v))
    · exact hkept

/-- A dequeue marks a cell that is still full from a round before. -/
theorem mark (h : RingOk c w i s) {t : Nat} {v : T} {idx : Word}
    (hcell : s.cell c t = ⟨some v, idx⟩) :
    RingOk c w i (s.setCell c t ⟨some v, true, idx.index⟩) := by
  refine ⟨fun t' => ?_, fun d t' r hr => ?_, fun t' b hb => ?_, fun e t' b hput hcall ht' => ?_⟩ <;>
    rw [Segment.setCell_cell] <;> split
  · rename_i hslot
    have hindex := h.index t'
    rwa [s.cell_congr c hslot, hcell] at hindex
  · exact h.index t'
  · exact .inr rfl
  · exact h.dead d t' r hr
  · rename_i hslot
    rw [Segment.setCell_cell, if_pos hslot] at hb
    have hvalue := h.value t' b
    rw [s.cell_congr c hslot, hcell] at hvalue
    exact hvalue hb
  · rename_i hslot
    rw [Segment.setCell_cell, if_neg hslot] at hb
    exact h.value t' b hb
  · rename_i hslot
    have hkept := h.kept e t' b hput hcall ht'
    rwa [s.cell_congr c hslot, hcell] at hkept
  · exact h.kept e t' b hput hcall ht'

/-- A dequeue moves the index of an empty cell on. -/
theorem skip (h : RingOk c w i s) {t : Nat} {idx : Word} (hcell : s.cell c t = ⟨none, idx⟩)
    (hle : idx.index ≤ t) :
    RingOk c w i (s.setCell c t ⟨none, idx.flag, t + c.ringSize⟩) := by
  refine ⟨fun t' => ?_, fun d t' r hr => ?_, fun t' b hb => ?_, fun e t' b hput hcall ht' => ?_⟩ <;>
    rw [Segment.setCell_cell] <;> split
  · rename_i hslot
    rw [c.slot_add, hslot]
  · exact h.index t'
  · rename_i hslot
    have hdead := h.dead d t' r hr
    rw [s.cell_congr c hslot, hcell] at hdead
    exact hdead.imp_left fun hlt => by
      change t' < idx.index at hlt
      change t' < t + c.ringSize
      omega
  · exact h.dead d t' r hr
  · rename_i hslot
    rw [Segment.setCell_cell, if_pos hslot] at hb
    cases hb
  · rename_i hslot
    rw [Segment.setCell_cell, if_neg hslot] at hb
    exact h.value t' b hb
  · rename_i hslot
    have hkept := h.kept e t' b hput hcall ht'
    rw [s.cell_congr c hslot, hcell] at hkept
    cases hkept.1
  · exact h.kept e t' b hput hcall ht'

/-- The ticket of a dequeue that found nothing, and has seen to it that no one will put there. -/
theorem spoil (h : RingOk c w i s) {d t : Nat}
    (hdead : t < (s.cell c t).idx.index ∨ (s.cell c t).idx.flag = true)
    (hother : (s.cell c t).val = none ∨ (s.cell c t).idx.index ≠ t) :
    RingOk c (w ++ [.taken d (place i t) none]) i s := by
  refine ⟨h.index, fun d' t' r hr => ?_, fun t' b hb => ?_, fun e t' b hput hcall ht' => ?_⟩
  · rcases List.mem_append.mp hr with hr | hr
    · exact h.dead d' t' r hr
    · obtain ⟨-, hp, -⟩ : d' = d ∧ place i t' = place i t ∧ r = none := by
        simpa using List.mem_singleton.mp hr
      obtain ⟨-, rfl⟩ := place_inj.mp hp
      exact hdead
  · obtain ⟨e, hput, hcall, ht'⟩ := h.value t' b hb
    refine ⟨e, List.mem_append_left _ hput, List.mem_append_left _ hcall, fun d' r hr => ?_⟩
    rcases List.mem_append.mp hr with hr | hr
    · exact ht' d' r hr
    · obtain ⟨-, hp, -⟩ : d' = d ∧ place i (s.cell c t').idx.index = place i t ∧ r = none := by
        simpa using List.mem_singleton.mp hr
      have hidx := (place_inj.mp hp).2
      have hcell : s.cell c t' = s.cell c t :=
        s.cell_congr c (by rw [← h.index t', hidx])
      rw [hcell] at hb hidx
      rcases hother with hother | hother
      · rw [hb] at hother
        cases hother
      · exact hother hidx
  · refine h.kept e t' b ?_ ?_ fun d' r hr => ht' d' r (List.mem_append_left _ hr)
    · rcases List.mem_append.mp hput with hput | hput
      · exact hput
      · cases List.mem_singleton.mp hput
    · rcases List.mem_append.mp hcall with hcall | hcall
      · exact hcall
      · cases List.mem_singleton.mp hcall

end RingOk

end RelaxedConcurrentFifo.LCRQueue
