/-
# RelaxedConcurrentFifo.BlockBasedQueue.Cells — who owns a cell

A cell of the queue is in one of four hands. It is FREE; it is HELD by a writer that has stored its
value but not yet swung the header; it is PUBLISHED, between the read and the write index of its
block's header; or it is TAKEN by a reader that has swung the header past it but not yet emptied it.
`CellInv` says that these are disjoint and that, occurrence by occurrence, everything committed has
been returned, is taken, or is published. No epoch and no bitset enters the argument: ownership is
handed over by the compare-and-swaps on cells and headers alone.

`CellStep` says once what a step can do to cells and headers (`runStep_cellStep`); each of its cases
keeps `CellInv`, with ONE exception, a reader that advances the read index of a block without an
element.
-/
import RelaxedConcurrentFifo.BlockBasedQueue.Locals
import RelaxedConcurrentFifo.Lib.Sums
import Mathlib.Data.Multiset.Basic
import Mathlib.Algebra.Order.Group.Multiset
import Mathlib.Data.Fintype.BigOperators

namespace RelaxedConcurrentFifo.BlockBasedQueue

open RelaxedConcurrentFifo.Lib.Sums

variable {T : Type}

/-! ## §1 — holding a cell -/

/-- The cell a handle has in its hands between two accesses. -/
inductive Hold (T : Type) where
  | free
  | write (b : Block) (index : Nat) (t : T)
  | take (b : Block) (index : Nat)

/-- Which cell it is. -/
def Hold.place : Hold T → Option (Block × Nat)
  | .free => none
  | .write b index _ => some (b, index)
  | .take b index => some (b, index)

/-- What a handle holds: a writer between its cell and its header swap (or its undo), a reader
between its header swap and its exchange. -/
def hold (hd : Handle T) : Hold T :=
  match hd.pc with
  | .pushHeader t _ index | .pushUndo t _ index => .write hd.writeBlock index t
  | .popReset (.take index) | .popResetCas (.take index) _ | .popTake index =>
      .take hd.readBlock index
  | _ => .free

/-! ## §2 — the published values -/

/-- The values of a block, oldest first. -/
def blockValues (m : Shared T) (b : Block) : List T :=
  (List.range' (getReadIndex (m.header b))
    (getWriteIndex (m.header b) - getReadIndex (m.header b))).map (m.cell b)

/-- The values in the queue. -/
def live (c : Config) (m : Shared T) : Multiset T :=
  ∑ k ∈ Finset.range c.blockCount, (blockValues m (.slot k) : Multiset T)

/-- The value a reader has taken out of the queue but not yet returned. -/
def takenValue (m : Shared T) : Hold T → Multiset T
  | .take b index => {m.cell b index}
  | _ => 0

theorem takenValue_free (m : Shared T) : takenValue m .free = 0 := rfl

theorem takenValue_write (m : Shared T) (b : Block) (i : Nat) (t : T) :
    takenValue m (.write b i t) = 0 := rfl

/-- The cell lies between the indices of its block's header. -/
def Published (m : Shared T) (b : Block) (index : Nat) : Prop :=
  getReadIndex (m.header b) ≤ index ∧ index < getWriteIndex (m.header b)

theorem blockValues_congr {m m' : Shared T} {b : Block} (hheader : m'.header b = m.header b)
    (hcell : ∀ i, Published m b i → m'.cell b i = m.cell b i) :
    blockValues m' b = blockValues m b := by
  rw [blockValues, blockValues, hheader]
  refine List.map_congr_left fun i hi => hcell i ?_
  rw [List.mem_range'_1] at hi
  exact ⟨hi.1, by omega⟩

theorem live_congr (c : Config) {m m' : Shared T}
    (h : ∀ k < c.blockCount, blockValues m' (.slot k) = blockValues m (.slot k)) :
    live c m' = live c m :=
  Finset.sum_congr rfl fun k hk => by rw [h k (Finset.mem_range.mp hk)]

/-- When only block `k` changes, the queue changes by that block's values. -/
theorem live_exchange (c : Config) {m m' : Shared T} {k : Nat} (hk : k < c.blockCount)
    (h : ∀ j < c.blockCount, j ≠ k → blockValues m' (.slot j) = blockValues m (.slot j)) :
    live c m' + (blockValues m (.slot k) : Multiset T) =
      live c m + (blockValues m' (.slot k) : Multiset T) :=
  sum_exchange _ (f := fun j => (blockValues m' (.slot j) : Multiset T))
    (g := fun j => (blockValues m (.slot j) : Multiset T)) (Finset.mem_range.mpr hk)
    fun j hj hne => congrArg _ (h j (Finset.mem_range.mp hj) hne)

/-- Swinging the write index publishes one more cell. -/
theorem blockValues_incrementWrite {m m' : Shared T} {b : Block}
    (hheader : m'.header b = incrementWriteIndex (m.header b)) (hcell : m'.cell b = m.cell b)
    (hle : getReadIndex (m.header b) ≤ getWriteIndex (m.header b))
    (hlt : getWriteIndex (m.header b) < 65535) :
    blockValues m' b = blockValues m b ++ [m.cell b (getWriteIndex (m.header b))] := by
  rw [blockValues, blockValues, hheader, hcell, getReadIndex_incrementWriteIndex hlt,
    getWriteIndex_incrementWriteIndex hlt, Nat.sub_add_comm hle, List.range'_1_concat,
    List.map_append, List.map_singleton, Nat.add_sub_of_le hle]

/-- Swinging the read index takes the oldest value out. -/
theorem blockValues_incrementRead {m m' : Shared T} {b : Block}
    (hheader : m'.header b = incrementReadIndex (m.header b)) (hcell : m'.cell b = m.cell b)
    (hlt : getReadIndex (m.header b) < getWriteIndex (m.header b))
    (hmax : getReadIndex (m.header b) < 65535) :
    blockValues m b = m.cell b (getReadIndex (m.header b)) :: blockValues m' b := by
  rw [blockValues, blockValues, hheader, hcell, getReadIndex_incrementReadIndex hmax,
    getWriteIndex_incrementReadIndex, ← List.map_cons, ← List.range'_succ]
  congr 2
  omega

theorem blockValues_of_empty {m : Shared T} {b : Block} (h : getWriteIndex (m.header b) = 0) :
    blockValues m b = [] := by
  rw [blockValues, h, Nat.zero_sub, List.range'_zero, List.map_nil]

theorem blockValues_of_last {m : Shared T} {b : Block}
    (h : getReadIndex (m.header b) + 1 = getWriteIndex (m.header b)) :
    blockValues m b = [m.cell b (getReadIndex (m.header b))] := by
  rw [blockValues, ← h, Nat.add_sub_cancel_left, List.range'_one, List.map_singleton]

/-! ## §3 — the invariant -/

/-- The indices of a header: a block holds something between its indices, or it is untouched. A
block read to its end does not exist, since taking the last element starts a new epoch. -/
structure IndicesOk (c : Config) (ei : Nat) : Prop where
  read : getReadIndex ei < getWriteIndex ei ∨ (getReadIndex ei = 0 ∧ getWriteIndex ei = 0)
  write : getWriteIndex ei ≤ c.cellsPerBlock

theorem IndicesOk.le {c : Config} {ei : Nat} (h : IndicesOk c ei) :
    getReadIndex ei ≤ getWriteIndex ei := by
  rcases h.read with hlt | ⟨hr, hw⟩ <;> omega

theorem indicesOk_epochToHeader (c : Config) (epoch : Nat) : IndicesOk c (epochToHeader epoch) where
  read := .inr ⟨getReadIndex_epochToHeader _, getWriteIndex_epochToHeader _⟩
  write := by
    rw [getWriteIndex_epochToHeader]
    exact Nat.zero_le _

/-- Cells are owned by at most one party, and every committed occurrence is accounted for. -/
structure CellInv [Zero T] {n : Nat} (c : Config) (m : Shared T) (holds : Fin n → Hold T) :
    Prop where
  indices : ∀ b, IndicesOk c (m.header b)
  published : ∀ b i, Published m b i → m.cell b i ≠ 0
  written : ∀ h b i t, holds h = .write b i t → m.cell b i = t ∧ t ≠ 0 ∧ ¬ Published m b i
  taken : ∀ h b i, holds h = .take b i →
    m.cell b i ≠ 0 ∧ i < c.cellsPerBlock ∧ ¬ Published m b i
  unique : ∀ h h' p, (holds h).place = some p → (holds h').place = some p → h = h'
  nonzero : (0 : T) ∉ m.committed
  account : (m.committed : Multiset T) =
    (m.returned : Multiset T) + ∑ h, takenValue m (holds h) + live c m

namespace CellInv

variable {n : Nat} {c : Config} {m : Shared T} {holds : Fin n → Hold T}

theorem fresh [Zero T] (c : Config) :
    CellInv c (Shared.fresh c : Shared T) (fun _ : Fin n => .free) where
  indices b := by
    have hzero := fresh_indices (T := T) c b
    exact ⟨.inr hzero, by rw [hzero.2]; exact Nat.zero_le _⟩
  published b i h := by
    have hw := (fresh_indices (T := T) c b).2
    exact absurd h.2 (by rw [hw]; exact Nat.not_lt_zero i)
  written h b i t hh := by cases hh
  taken h b i hh := by cases hh
  unique h h' p hp := by cases hp
  nonzero := List.not_mem_nil
  account := by
    have hlive : live c (Shared.fresh c : Shared T) = 0 :=
      Finset.sum_eq_zero fun k _ => by
        rw [blockValues_of_empty (fresh_indices (T := T) c (.slot k)).2]
        rfl
    rw [hlive]
    simp [takenValue, Shared.fresh]

/-- A cell some handle holds is not empty. -/
theorem place_ne_zero [Zero T] (inv : CellInv c m holds) {h : Fin n} {b : Block} {i : Nat}
    (hp : (holds h).place = some (b, i)) : m.cell b i ≠ 0 ∧ ¬ Published m b i := by
  cases hh : holds h with
  | free => rw [hh] at hp; cases hp
  | write b' i' t =>
      rw [hh] at hp
      cases hp
      obtain ⟨hcell, ht, hpub⟩ := inv.written h b i t hh
      exact ⟨hcell ▸ ht, hpub⟩
  | take b' i' =>
      rw [hh] at hp
      cases hp
      exact ⟨(inv.taken h b i hh).1, (inv.taken h b i hh).2.2⟩

/-- Writing to a cell nobody else looks at: the published values and every OTHER handle's cell stay
as they are. -/
theorem setCell_frame {h : Fin n} {b : Block} {i : Nat} (x : T)
    (hpub : ¬ Published m b i) (hothers : ∀ g, g ≠ h → (holds g).place ≠ some (b, i)) :
    live c (m.setCell b i x) = live c m ∧
      ∀ g, g ≠ h → ∀ b' i', (holds g).place = some (b', i') →
        (m.setCell b i x).cell b' i' = m.cell b' i' := by
  refine ⟨live_congr c fun k _ => blockValues_congr rfl fun j hj => ?_, fun g hg b' i' hp => ?_⟩
  · rw [Shared.setCell_cell, if_neg]
    rintro ⟨hb, rfl⟩
    exact hpub (hb ▸ hj)
  · rw [Shared.setCell_cell, if_neg]
    rintro ⟨rfl, rfl⟩
    exact hothers g hg hp

/-- Taken values only depend on the cells that are held. -/
theorem takenValue_congr {m' : Shared T} {x : Hold T}
    (h : ∀ b i, x.place = some (b, i) → m'.cell b i = m.cell b i) :
    takenValue m' x = takenValue m x := by
  cases x with
  | free => rfl
  | write b i t => rfl
  | take b i => rw [takenValue, takenValue, h b i rfl]

/-- The sum of the taken values when `h` changes hands and the other handles' cells do not change. -/
theorem sum_taken (m m' : Shared T) (holds : Fin n → Hold T) (h : Fin n) (x : Hold T)
    (hcell : ∀ g, g ≠ h → ∀ b i, (holds g).place = some (b, i) → m'.cell b i = m.cell b i) :
    ∑ g, takenValue m' (Function.update holds h x g) + takenValue m (holds h) =
      ∑ g, takenValue m (holds g) + takenValue m' x := by
  have hex := sum_exchange Finset.univ (f := fun g => takenValue m' (Function.update holds h x g))
    (g := fun g => takenValue m (holds g)) (Finset.mem_univ h) fun g _ hg => by
      rw [Function.update_of_ne hg]
      exact takenValue_congr (hcell g hg)
  simpa using hex

variable [Zero T]

/-- Ownership stays unique when the new cell was nobody's. -/
theorem unique_update (inv : CellInv c m holds) (h : Fin n) {x : Hold T}
    (hx : ∀ p, x.place = some p → ∀ g, g ≠ h → (holds g).place ≠ some p) :
    ∀ g g' p, (Function.update holds h x g).place = some p →
      (Function.update holds h x g').place = some p → g = g' := by
  intro g g' p hg hg'
  by_cases h1 : g = h
  · by_cases h2 : g' = h
    · rw [h1, h2]
    · subst h1
      rw [Function.update_self] at hg
      rw [Function.update_of_ne h2] at hg'
      exact absurd hg' (hx p hg g' h2)
  · by_cases h2 : g' = h
    · subst h2
      rw [Function.update_self] at hg'
      rw [Function.update_of_ne h1] at hg
      exact absurd hg (hx p hg' g h1)
    · rw [Function.update_of_ne h1] at hg
      rw [Function.update_of_ne h2] at hg'
      exact inv.unique g g' p hg hg'

/-! ### What each kind of step does to the invariant -/

/-- A writer stores its value in a free cell. -/
theorem place (inv : CellInv c m holds) {h : Fin n} {b : Block} {i : Nat} {t : T}
    (hh : holds h = .free) (hzero : m.cell b i = 0) (ht : t ≠ 0) :
    CellInv c (m.setCell b i t) (Function.update holds h (.write b i t)) := by
  have hpub : ¬ Published m b i := fun hp => inv.published b i hp hzero
  have hothers : ∀ g, g ≠ h → (holds g).place ≠ some (b, i) :=
    fun g _ hp => (inv.place_ne_zero hp).1 hzero
  obtain ⟨hlive, hcell⟩ := setCell_frame (h := h) t hpub hothers
  refine ⟨inv.indices, fun b' i' hp => ?_, fun g b' i' t' hg => ?_, fun g b' i' hg => ?_,
    inv.unique_update h fun p hp g hg => ?_, inv.nonzero, ?_⟩
  · rw [Shared.setCell_cell]
    split
    · exact ht
    · exact inv.published b' i' hp
  · by_cases hgh : g = h
    · subst hgh
      rw [Function.update_self] at hg
      cases hg
      exact ⟨by simp [Shared.setCell_cell], ht, hpub⟩
    · rw [Function.update_of_ne hgh] at hg
      rw [hcell g hgh b' i' (by rw [hg]; rfl)]
      exact inv.written g b' i' t' hg
  · by_cases hgh : g = h
    · subst hgh
      rw [Function.update_self] at hg
      cases hg
    · rw [Function.update_of_ne hgh] at hg
      rw [hcell g hgh b' i' (by rw [hg]; rfl)]
      exact inv.taken g b' i' hg
  · cases hp
    exact hothers g hg
  · have hsum := sum_taken m _ holds h (.write b i t) hcell
    rw [hh, takenValue_free, takenValue_write, add_zero, add_zero] at hsum
    rw [hlive, hsum]
    exact inv.account

/-- A holder empties its cell and lets go of it. -/
theorem letGo (inv : CellInv c m holds) {h : Fin n} {b : Block} {i : Nat} {m' : Shared T}
    (hp : (holds h).place = some (b, i)) (hheader : m'.header = m.header)
    (hcells : m'.cell = (m.setCell b i 0).cell) (hcommitted : m'.committed = m.committed)
    (hreturned : (m'.returned : Multiset T) =
      (m.returned : Multiset T) + takenValue m (holds h)) :
    CellInv c m' (Function.update holds h .free) := by
  have hpub := (inv.place_ne_zero hp).2
  have hothers : ∀ g, g ≠ h → (holds g).place ≠ some (b, i) :=
    fun g hg hgp => hg (inv.unique g h _ hgp hp)
  obtain ⟨hlive, hcell⟩ := setCell_frame (h := h) 0 hpub hothers
  rw [← hcells] at hcell
  have hpublished : ∀ b' i', Published m' b' i' ↔ Published m b' i' := fun b' i' => by
    rw [Published, Published, hheader]
  have hlive' : live c m' = live c m := by
    refine (live_congr c fun k _ => blockValues_congr ?_ fun j _ => ?_).trans hlive
    · rw [hheader]
      rfl
    · rw [hcells]
  refine ⟨(fun b' => by rw [hheader]; exact inv.indices b'), fun b' i' hp' => ?_,
    fun g b' i' t' hg => ?_, fun g b' i' hg => ?_, inv.unique_update h (fun p hp' => by cases hp'),
    (by rw [hcommitted]; exact inv.nonzero), ?_⟩
  · rw [hpublished] at hp'
    rw [hcells, Shared.setCell_cell, if_neg]
    · exact inv.published b' i' hp'
    · rintro ⟨rfl, rfl⟩
      exact hpub hp'
  · have hgh : g ≠ h := by
      rintro rfl
      rw [Function.update_self] at hg
      cases hg
    rw [Function.update_of_ne hgh] at hg
    rw [hcell g hgh b' i' (by rw [hg]; rfl), hpublished]
    exact inv.written g b' i' t' hg
  · have hgh : g ≠ h := by
      rintro rfl
      rw [Function.update_self] at hg
      cases hg
    rw [Function.update_of_ne hgh] at hg
    rw [hcell g hgh b' i' (by rw [hg]; rfl), hpublished]
    exact inv.taken g b' i' hg
  · have hsum := sum_taken m _ holds h .free hcell
    rw [takenValue_free, add_zero] at hsum
    rw [hcommitted, hreturned, hlive', inv.account, ← hsum]
    ac_rfl

/-- A writer publishes the cell it holds. -/
theorem commit (inv : CellInv c m holds) (hmax : c.cellsPerBlock ≤ 65535) {h : Fin n} {k : Nat}
    {t : T} (hk : k < c.blockCount)
    (hh : holds h = .write (.slot k) (getWriteIndex (m.header (.slot k))) t)
    (hroom : getWriteIndex (m.header (.slot k)) ≠ c.cellsPerBlock) :
    CellInv c { m.setHeader (.slot k) (incrementWriteIndex (m.header (.slot k))) with
      committed := t :: m.committed } (Function.update holds h .free) := by
  obtain ⟨hcell, ht, hpub⟩ := inv.written h _ _ t hh
  have hle := (inv.indices (.slot k)).le
  have hcap := (inv.indices (.slot k)).write
  have hlt : getWriteIndex (m.header (.slot k)) < 65535 := by omega
  set m' : Shared T := { m.setHeader (.slot k) (incrementWriteIndex (m.header (.slot k))) with
    committed := t :: m.committed } with hm'
  have hself : m'.header (.slot k) = incrementWriteIndex (m.header (.slot k)) :=
    Function.update_self _ _ _
  have hother : ∀ b, b ≠ .slot k → m'.header b = m.header b := fun b hb =>
    Function.update_of_ne hb _ _
  -- what is published afterwards was published before, or is the cell itself
  have hpublished : ∀ b i, Published m' b i →
      Published m b i ∨ (b = .slot k ∧ i = getWriteIndex (m.header (.slot k))) := by
    intro b i hp
    by_cases hb : b = .slot k
    · subst hb
      rw [Published, hself, getReadIndex_incrementWriteIndex hlt,
        getWriteIndex_incrementWriteIndex hlt] at hp
      by_cases hi : i = getWriteIndex (m.header (.slot k))
      · exact .inr ⟨rfl, hi⟩
      · exact .inl ⟨hp.1, by omega⟩
    · rw [Published, hother b hb] at hp
      exact .inl hp
  -- and nobody else holds it
  have hnot : ∀ g, g ≠ h → ∀ b i, (holds g).place = some (b, i) → ¬ Published m' b i := by
    intro g hg b i hp hpub'
    rcases hpublished b i hpub' with hold' | ⟨rfl, rfl⟩
    · exact (inv.place_ne_zero hp).2 hold'
    · exact hg (inv.unique g h _ hp (by rw [hh]; rfl))
  have hvalues : blockValues m' (.slot k) = _ := blockValues_incrementWrite hself rfl hle hlt
  have hlive : live c m' + _ = live c m + _ := live_exchange c hk fun j _ hj =>
    blockValues_congr (hother _ fun he => hj (Block.slot.inj he)) fun _ _ => rfl
  refine ⟨fun b => ?_, fun b i hp => ?_, fun g b i t' hg => ?_, fun g b i hg => ?_,
    inv.unique_update h (fun p hp => by cases hp), ?_, ?_⟩
  · by_cases hb : b = .slot k
    · subst hb
      constructor <;>
        rw [hself, getWriteIndex_incrementWriteIndex hlt]
      · exact .inl (by rw [getReadIndex_incrementWriteIndex hlt]; omega)
      · omega
    · rw [hother b hb]
      exact inv.indices b
  · rcases hpublished b i hp with hold' | ⟨rfl, rfl⟩
    · exact inv.published b i hold'
    · exact hcell ▸ ht
  · have hgh : g ≠ h := by
      rintro rfl
      rw [Function.update_self] at hg
      cases hg
    rw [Function.update_of_ne hgh] at hg
    obtain ⟨h1, h2, _⟩ := inv.written g b i t' hg
    exact ⟨h1, h2, hnot g hgh b i (by rw [hg]; rfl)⟩
  · have hgh : g ≠ h := by
      rintro rfl
      rw [Function.update_self] at hg
      cases hg
    rw [Function.update_of_ne hgh] at hg
    obtain ⟨h1, h2, _⟩ := inv.taken g b i hg
    exact ⟨h1, h2, hnot g hgh b i (by rw [hg]; rfl)⟩
  · exact fun h0 => (List.mem_cons.mp h0).elim (fun he => ht he.symm) inv.nonzero
  · have hsum := sum_taken m m' holds h .free fun _ _ _ _ _ => rfl
    rw [hh, takenValue_free, takenValue_write, add_zero, add_zero] at hsum
    rw [hvalues, hcell, ← Multiset.coe_add, ← add_assoc, add_right_comm, add_left_inj] at hlive
    rw [hlive, hsum, show m'.committed = t :: m.committed from rfl, ← Multiset.cons_coe,
      inv.account, ← Multiset.singleton_add]
    show _ = (m.returned : Multiset T) + _ + (_ + ([t] : Multiset T))
    rw [Multiset.coe_singleton]
    ac_rfl

omit [Zero T] in
/-- A new header under which no new cell is published leaves all OTHER blocks and all held cells as
they were. -/
theorem setHeader_frame (b : Block) (ei : Nat)
    (hsub : ∀ i, getReadIndex ei ≤ i → i < getWriteIndex ei → Published m b i) :
    ∀ b' i, Published (m.setHeader b ei) b' i → Published m b' i := by
  intro b' i hp
  rw [Published, Shared.setHeader_header] at hp
  split at hp
  · rename_i hb
    subst hb
    exact hsub i hp.1 hp.2
  · exact hp

/-- A reader swings the header past a published cell, which is then its own. -/
theorem takeOut (inv : CellInv c m holds) {h : Fin n} {k i ei : Nat} (hk : k < c.blockCount)
    (hh : holds h = .free) (hpub : Published m (.slot k) i) (hindices : IndicesOk c ei)
    (hsub : ∀ j, getReadIndex ei ≤ j → j < getWriteIndex ei → Published m (.slot k) j ∧ j ≠ i)
    (hvalues : blockValues m (.slot k) =
      m.cell (.slot k) i :: blockValues (m.setHeader (.slot k) ei) (.slot k)) :
    CellInv c (m.setHeader (.slot k) ei) (Function.update holds h (.take (.slot k) i)) := by
  have hframe := setHeader_frame (m := m) (.slot k) ei fun j h1 h2 => (hsub j h1 h2).1
  have hothers : ∀ g, (holds g).place ≠ some (.slot k, i) :=
    fun g hp => (inv.place_ne_zero hp).2 hpub
  have hlive : live c (m.setHeader (.slot k) ei) + _ = live c m + _ := live_exchange c hk fun j _ hj =>
    blockValues_congr (by rw [Shared.setHeader_header, if_neg fun he => hj (Block.slot.inj he)])
      fun _ _ => rfl
  refine ⟨fun b => ?_, fun b j hp => inv.published b j (hframe b j hp), fun g b j t hg => ?_,
    fun g b j hg => ?_, inv.unique_update h fun p hp g _ => ?_, inv.nonzero, ?_⟩
  · rw [Shared.setHeader_header]
    split
    · exact hindices
    · exact inv.indices b
  · have hgh : g ≠ h := by
      rintro rfl
      rw [Function.update_self] at hg
      cases hg
    rw [Function.update_of_ne hgh] at hg
    obtain ⟨h1, h2, h3⟩ := inv.written g b j t hg
    exact ⟨h1, h2, fun hp => h3 (hframe b j hp)⟩
  · by_cases hgh : g = h
    · subst hgh
      rw [Function.update_self] at hg
      cases hg
      refine ⟨inv.published _ _ hpub, lt_of_lt_of_le hpub.2 (inv.indices _).write, fun hp => ?_⟩
      rw [Published, Shared.setHeader_header, if_pos rfl] at hp
      exact (hsub i hp.1 hp.2).2 rfl
    · rw [Function.update_of_ne hgh] at hg
      obtain ⟨h1, h2, h3⟩ := inv.taken g b j hg
      exact ⟨h1, h2, fun hp => h3 (hframe b j hp)⟩
  · cases hp
    exact hothers g
  · have hsum := sum_taken m (m.setHeader (.slot k) ei) holds h
      (.take (.slot k) i) fun _ _ _ _ _ => rfl
    rw [hh, takenValue_free, add_zero] at hsum
    rw [hvalues, ← Multiset.cons_coe, ← Multiset.singleton_add, ← add_assoc, add_left_inj] at hlive
    rw [hsum]
    refine inv.account.trans ?_
    rw [← hlive]
    show _ = (m.returned : Multiset T) + (_ + {m.cell (.slot k) i}) + _
    ac_rfl

/-- An empty block's header is replaced by one of an empty block. -/
theorem invalidate (inv : CellInv c m holds) {b : Block} (epoch : Nat)
    (hempty : getWriteIndex (m.header b) = 0) :
    CellInv c (m.setHeader b (epochToHeader epoch)) holds := by
  have hframe := setHeader_frame (m := m) b (epochToHeader epoch) fun i _ h2 => by
    rw [getWriteIndex_epochToHeader] at h2
    exact absurd h2 (Nat.not_lt_zero i)
  have hlive : live c (m.setHeader b (epochToHeader epoch)) = live c m := by
    refine live_congr c fun k _ => ?_
    by_cases hb : Block.slot k = b
    · rw [hb, blockValues_of_empty hempty, blockValues_of_empty]
      rw [Shared.setHeader_header, if_pos rfl, getWriteIndex_epochToHeader]
    · exact blockValues_congr (by rw [Shared.setHeader_header, if_neg hb]) fun _ _ => rfl
  refine ⟨fun b' => ?_, fun b' j hp => inv.published b' j (hframe b' j hp), fun g b' j t hg => ?_,
    fun g b' j hg => ?_, inv.unique, inv.nonzero, ?_⟩
  · rw [Shared.setHeader_header]
    split
    · exact indicesOk_epochToHeader c epoch
    · exact inv.indices b'
  · obtain ⟨h1, h2, h3⟩ := inv.written g b' j t hg
    exact ⟨h1, h2, fun hp => h3 (hframe b' j hp)⟩
  · obtain ⟨h1, h2, h3⟩ := inv.taken g b' j hg
    exact ⟨h1, h2, fun hp => h3 (hframe b' j hp)⟩
  · rw [hlive]
    exact inv.account

/-- `pop`'s swap on a block with more than one element. -/
theorem advance (inv : CellInv c m holds) (hmax : c.cellsPerBlock ≤ 65535) {h : Fin n} {k : Nat}
    (hk : k < c.blockCount) (hh : holds h = .free)
    (hlt : getReadIndex (m.header (.slot k)) + 1 < getWriteIndex (m.header (.slot k))) :
    CellInv c (m.setHeader (.slot k) (incrementReadIndex (m.header (.slot k))))
      (Function.update holds h (.take (.slot k) (getReadIndex (m.header (.slot k))))) := by
  have hcap := (inv.indices (.slot k)).write
  have hread : getReadIndex (incrementReadIndex (m.header (.slot k))) = _ :=
    getReadIndex_incrementReadIndex (by omega)
  have hwrite := getWriteIndex_incrementReadIndex (m.header (.slot k))
  refine inv.takeOut hk hh ⟨le_refl _, by omega⟩ ⟨.inl ?_, ?_⟩ (fun j h1 h2 => ?_) ?_
  · rw [hread, hwrite]
    exact hlt
  · rw [hwrite]
    exact hcap
  · rw [hread] at h1
    rw [hwrite] at h2
    exact ⟨⟨by omega, h2⟩, by omega⟩
  · exact blockValues_incrementRead (by rw [Shared.setHeader_header, if_pos rfl]) rfl (by omega)
      (by omega)

/-- `pop`'s swap on a block with one element, which retires the block. -/
theorem retire (inv : CellInv c m holds) {h : Fin n} {k : Nat} (epoch : Nat)
    (hk : k < c.blockCount) (hh : holds h = .free)
    (hlast : getReadIndex (m.header (.slot k)) + 1 = getWriteIndex (m.header (.slot k))) :
    CellInv c (m.setHeader (.slot k) (epochToHeader epoch))
      (Function.update holds h (.take (.slot k) (getReadIndex (m.header (.slot k))))) := by
  refine inv.takeOut hk hh ⟨le_refl _, by omega⟩ (indicesOk_epochToHeader c epoch)
    (fun j _ h2 => ?_) ?_
  · rw [getWriteIndex_epochToHeader] at h2
    exact absurd h2 (Nat.not_lt_zero j)
  · rw [blockValues_of_last hlast, blockValues_of_empty]
    rw [Shared.setHeader_header, if_pos rfl, getWriteIndex_epochToHeader]

end CellInv

/-! ## §4 — what a step does to cells and headers -/

/-- The handle is about to swing the read index of a block that has no element: the
compare-and-swap of `increment_read_index` is going to succeed on a header whose write index is 0. -/
def ReadsEmptyBlock [Zero T] {c : Config} (a : Action c T) (m : Shared T) (hd : Handle T) : Prop :=
  ∃ start ei index, a = .run start false ∧ hd.pc = .popNext ei index ∧
    m.header hd.readBlock = ei ∧ getWriteIndex ei = 0

/-- Everything any OTHER action of a handle can do to cells, headers and history. -/
inductive CellStep [Zero T] (c : Config) (m m' : Shared T) (hd hd' : Handle T) : Prop where
  | silent (hheader : m'.header = m.header) (hcell : m'.cell = m.cell)
      (hcommitted : m'.committed = m.committed) (hreturned : m'.returned = m.returned)
      (hhold : hold hd' = hold hd)
  | place (b : Block) (i : Nat) (t : T) (hfree : hold hd = .free) (hzero : m.cell b i = 0)
      (ht : t ≠ 0) (hm : m' = m.setCell b i t) (hhold : hold hd' = .write b i t)
  | commit (k : Nat) (t : T) (hk : k < c.blockCount) (hblock : hd.writeBlock = .slot k)
      (hvalid : epochValid (getEpoch (m.header (.slot k))) hd.writeEpoch = true)
      (hwrite : hold hd = .write (.slot k) (getWriteIndex (m.header (.slot k))) t)
      (hroom : getWriteIndex (m.header (.slot k)) ≠ c.cellsPerBlock)
      (hm : m' = { m.setHeader (.slot k) (incrementWriteIndex (m.header (.slot k))) with
        committed := t :: m.committed }) (hhold : hold hd' = .free)
  | undo (b : Block) (i : Nat) (t : T) (hwrite : hold hd = .write b i t)
      (hm : m' = m.setCell b i 0) (hhold : hold hd' = .free)
  | retire (k : Nat) (hk : k < c.blockCount) (hblock : hd.readBlock = .slot k)
      (hvalid : epochValid (getEpoch (m.header (.slot k))) hd.readEpoch = true)
      (hfree : hold hd = .free)
      (hlast : getReadIndex (m.header (.slot k)) + 1 = getWriteIndex (m.header (.slot k)))
      (hm : m' = m.setHeader (.slot k) (epochToHeader (hd.readEpoch + 1)))
      (hhold : hold hd' = .take (.slot k) (getReadIndex (m.header (.slot k))))
  | advance (k : Nat) (hk : k < c.blockCount) (hfree : hold hd = .free)
      (hnext : getReadIndex (m.header (.slot k)) + 1 ≠ getWriteIndex (m.header (.slot k)))
      (hsome : getWriteIndex (m.header (.slot k)) ≠ 0)
      (hm : m' = m.setHeader (.slot k) (incrementReadIndex (m.header (.slot k))))
      (hhold : hold hd' = .take (.slot k) (getReadIndex (m.header (.slot k))))
  | invalidate (hempty : getWriteIndex (m.header hd.readBlock) = 0)
      (hvalid : epochValid (getEpoch (m.header hd.readBlock)) hd.readEpoch = true)
      (hm : m' = m.setHeader hd.readBlock (epochToHeader (hd.readEpoch + 1)))
      (hhold : hold hd' = hold hd)
  | take (b : Block) (i : Nat) (htake : hold hd = .take b i)
      (hm : m' = { m.setCell b i 0 with returned := m.cell b i :: m.returned })
      (hhold : hold hd' = .free)

section CellStep

variable {c : Config} {m : Shared T} {hd : Handle T}

theorem hold_pushCheck (t : T) (ei : Nat) :
    hold ({ hd with pc := pushCheck c hd t ei } : Handle T) = .free := by
  unfold pushCheck
  split <;> rfl

theorem hold_popCheck (ei : Nat) :
    hold ({ hd with pc := popCheck hd ei } : Handle T) = .free := by
  unfold popCheck
  split
  · split <;> rfl
  · rfl

theorem hold_writeNext (t : T) (window start i : Nat) :
    hold ({ hd with pc := writeNext c t window start i } : Handle T) = .free := by
  unfold writeNext
  split <;> rfl

theorem hold_readNext (da : Bool) (window : Nat) (ahead : Bool) (start i : Nat) :
    hold ({ hd with pc := readNext c da window ahead start i } : Handle T) = .free := by
  unfold readNext
  split
  · rfl
  · split <;> rfl

theorem hold_takeReadBlock (window block : Nat) :
    hold (takeReadBlock c hd window block) = .free := rfl

/-- `filled_set.reset` does not change what the reader holds. -/
theorem hold_afterReset (k : AfterReset) :
    hold ({ hd with pc := afterReset hd k } : Handle T) = hold { hd with pc := .popReset k } := by
  cases k with
  | take index => rfl
  | check ei => exact hold_popCheck ei

theorem hold_popResetCas (k : AfterReset) (eb : Nat) :
    hold ({ hd with pc := .popResetCas k eb } : Handle T) = hold { hd with pc := .popReset k } := by
  cases k <;> rfl

/-- The handle itself, with its program point spelled out. -/
theorem hold_of_pc {pc : Pc T} (h : hd.pc = pc) : hold hd = hold { hd with pc := pc } := by
  rw [← h]

/-- A block of the buffer is a slot. -/
theorem Block.InWindow.exists_slot {p : Nat} {b : Block} (h : b.InWindow c p) :
    ∃ k < c.blockCount, b = .slot k := by
  obtain ⟨hp, j, hj, rfl⟩ := h
  exact ⟨_, getBlock_lt c hp hj, rfl⟩

variable [Zero T]

theorem Handle.Ok.exists_writeSlot (hok : hd.Ok c) (hb : hd.writeBlock ≠ .dummy) :
    ∃ k < c.blockCount, hd.writeBlock = .slot k := by
  rcases hok.write with ⟨hd, _⟩ | ⟨p, hp⟩
  · exact absurd hd hb
  · exact hp.exists_slot

theorem Handle.Ok.exists_readSlot (hok : hd.Ok c) (hb : hd.readBlock ≠ .dummy) :
    ∃ k < c.blockCount, hd.readBlock = .slot k := by
  rcases hok.read with ⟨hd, _⟩ | hp
  · exact absurd hd hb
  · exact hp.exists_slot

variable [DecidableEq T]

theorem runStep_cellStep (start : Nat) (spurious : Bool) (hok : hd.Ok c)
    (hread : ∀ index, hd.pc = .popNext (m.header hd.readBlock) index → spurious = false →
      getWriteIndex (m.header hd.readBlock) ≠ 0) :
    CellStep c m (runStep c start spurious m hd).1 hd (runStep c start spurious m hd).2 := by
  have hpc := hok.pc
  cases h : hd.pc with
  | idle last => simp only [runStep, h]; exact .silent rfl rfl rfl rfl rfl
  | pushLoad t =>
      simp only [runStep, h]
      exact .silent rfl rfl rfl rfl (by rw [hold_pushCheck, hold_of_pc h]; rfl)
  | pushCell t ei index =>
      rw [h] at hpc
      simp only [runStep, h]
      split
      · rename_i hcond
        exact .place hd.writeBlock index t (by rw [hold_of_pc h]; rfl) hcond.1 hpc.1 rfl rfl
      · exact .silent rfl rfl rfl rfl (by rw [hold_of_pc h]; rfl)
  | pushHeader t ei index =>
      rw [h] at hpc
      obtain ⟨_, rfl, hroom, hvalid, hb⟩ := hpc
      obtain ⟨k, hk, hslot⟩ := hok.exists_writeSlot hb
      simp only [runStep, h]
      split
      · rename_i hei
        rw [hslot] at hei
        subst hei
        refine .commit k t hk hslot hvalid ?_ hroom (by rw [hslot]) rfl
        rw [hold_of_pc h, ← hslot]
        rfl
      · exact .silent rfl rfl rfl rfl (by rw [hold_of_pc h]; rfl)
  | pushUndo t ei index =>
      simp only [runStep, h]
      exact .undo hd.writeBlock index t (by rw [hold_of_pc h]; rfl) rfl (hold_pushCheck t ei)
  | writeWindow t =>
      simp only [runStep, h]
      exact .silent rfl rfl rfl rfl (by rw [hold_of_pc h]; rfl)
  | writeUnit t window st i =>
      simp only [runStep, h]
      split
      · exact .silent rfl rfl rfl rfl (by rw [hold_writeNext, hold_of_pc h]; rfl)
      · exact .silent rfl rfl rfl rfl (by rw [hold_of_pc h]; rfl)
  | writeClaim t window st i eb bit =>
      simp only [runStep, h]
      split
      · exact .silent rfl rfl rfl rfl (by rw [hold_of_pc h]; rfl)
      · split
        · exact .silent rfl rfl rfl rfl (by rw [hold_writeNext, hold_of_pc h]; rfl)
        · exact .silent rfl rfl rfl rfl (by rw [hold_of_pc h]; rfl)
  | writeTouch t window bit =>
      simp only [runStep, h]
      exact .silent rfl rfl rfl rfl (by rw [hold_of_pc h]; rfl)
  | writeFull t window =>
      simp only [runStep, h]
      split <;> exact .silent rfl rfl rfl rfl (by rw [hold_of_pc h]; rfl)
  | writeMove t window =>
      simp only [runStep, h]
      exact .silent rfl rfl rfl rfl (by rw [hold_of_pc h]; rfl)
  | popLoad =>
      simp only [runStep, h]
      exact .silent rfl rfl rfl rfl (by rw [hold_popCheck, hold_of_pc h]; rfl)
  | popLast ei index =>
      rw [h] at hpc
      obtain ⟨rfl, hlast, hvalid, hb⟩ := hpc
      obtain ⟨k, hk, hslot⟩ := hok.exists_readSlot hb
      simp only [runStep, h]
      split
      · rename_i hcond
        obtain ⟨hei, _⟩ := hcond
        rw [hslot] at hei
        subst hei
        refine .retire k hk hslot hvalid (by rw [hold_of_pc h]; rfl) hlast (by rw [hslot]) ?_
        rw [← hslot]
        rfl
      · exact .silent rfl rfl rfl rfl (by rw [hold_of_pc h]; rfl)
  | popNext ei index =>
      rw [h] at hpc
      obtain ⟨rfl, hnext, _, hb⟩ := hpc
      obtain ⟨k, hk, hslot⟩ := hok.exists_readSlot hb
      simp only [runStep, h]
      split
      · rename_i hcond
        obtain ⟨rfl, hspurious⟩ := hcond
        -- the one access that needs the hypothesis: another reader may have emptied the block
        have hsome := hread _ h hspurious
        rw [hslot] at hnext hsome
        refine .advance k hk (by rw [hold_of_pc h]; rfl) hnext hsome (by rw [hslot]) ?_
        rw [hold, hslot]
      · exact .silent rfl rfl rfl rfl (by rw [hold_of_pc h]; rfl)
  | popReset k =>
      simp only [runStep, h]
      split
      · exact .silent rfl rfl rfl rfl (by rw [hold_afterReset, ← hold_of_pc h])
      · exact .silent rfl rfl rfl rfl (by rw [hold_popResetCas, ← hold_of_pc h])
  | popResetCas k eb =>
      have hheld : hold hd = hold ({ hd with pc := .popReset k } : Handle T) := by
        rw [hold_of_pc h, hold_popResetCas]
      simp only [runStep, h]
      split
      · exact .silent rfl rfl rfl rfl (by rw [hold_afterReset, hheld])
      · split
        · exact .silent rfl rfl rfl rfl (by rw [hold_afterReset, hheld])
        · exact .silent rfl rfl rfl rfl (by rw [hold_popResetCas, hheld])
  | popTake index =>
      simp only [runStep, h]
      exact .take hd.readBlock index (by rw [hold_of_pc h]; rfl) rfl rfl
  | popReload =>
      simp only [runStep, h]
      split
      · split <;> exact .silent rfl rfl rfl rfl (by rw [hold_of_pc h]; rfl)
      · exact .silent rfl rfl rfl rfl (by rw [hold_popCheck, hold_of_pc h]; rfl)
  | popInvalidate ei =>
      rw [h] at hpc
      simp only [runStep, h]
      split
      · rename_i hei
        exact .invalidate (by rw [hei]; exact hpc.1) (by rw [hei]; exact hpc.2.1) rfl
          (by rw [hold_of_pc h]; rfl)
      · exact .silent rfl rfl rfl rfl (by rw [hold_popCheck, hold_of_pc h]; rfl)
  | readWindow da =>
      simp only [runStep, h]
      split <;> exact .silent rfl rfl rfl rfl (by rw [hold_of_pc h]; rfl)
  | readUnit da window ahead st i =>
      simp only [runStep, h]
      split
      · exact .silent rfl rfl rfl rfl (by rw [hold_readNext, hold_of_pc h]; rfl)
      · exact .silent rfl rfl rfl rfl (by rw [hold_of_pc h]; rfl)
  | readClaim da window ahead st i raw bit =>
      simp only [runStep, h]
      split
      · exact .silent rfl rfl rfl rfl (by rw [hold_takeReadBlock, hold_of_pc h]; rfl)
      · split
        · exact .silent rfl rfl rfl rfl (by rw [hold_readNext, hold_of_pc h]; rfl)
        · exact .silent rfl rfl rfl rfl (by rw [hold_of_pc h]; rfl)
  | readWrite da window =>
      simp only [runStep, h]
      split <;> exact .silent rfl rfl rfl rfl (by rw [hold_of_pc h]; rfl)
  | readAny da window ww st i =>
      simp only [runStep, h]
      split
      · exact .silent rfl rfl rfl rfl (by rw [hold_takeReadBlock, hold_of_pc h]; rfl)
      · split
        · exact .silent rfl rfl rfl rfl (by rw [hold_of_pc h]; rfl)
        · split <;> exact .silent rfl rfl rfl rfl (by rw [hold_of_pc h]; rfl)
  | readScan da window ww i =>
      simp only [runStep, h]
      split
      · exact .silent rfl rfl rfl rfl (by rw [hold_of_pc h]; rfl)
      · split <;> exact .silent rfl rfl rfl rfl (by rw [hold_of_pc h]; rfl)
  | readBump da window ww i =>
      simp only [runStep, h]
      split <;> exact .silent rfl rfl rfl rfl (by rw [hold_of_pc h]; rfl)
  | readForce da window ww =>
      simp only [runStep, h]
      exact .silent rfl rfl rfl rfl (by rw [hold_of_pc h]; rfl)
  | readMove da window =>
      simp only [runStep, h]
      exact .silent rfl rfl rfl rfl (by rw [hold_of_pc h]; rfl)

/-- **Every other action is one of these.** -/
theorem stepHandle_cellStep (a : Action c T) (hok : hd.Ok c) (hread : ¬ ReadsEmptyBlock a m hd) :
    CellStep c m (stepHandle c a m hd).1 hd (stepHandle c a m hd).2 := by
  unfold stepHandle
  split
  · rename_i hidle
    exact .silent rfl rfl rfl rfl (by rw [hold_of_pc hidle]; rfl)
  · rename_i hidle
    exact .silent rfl rfl rfl rfl (by rw [hold_of_pc hidle]; rfl)
  · rename_i start spurious
    refine runStep_cellStep _ _ hok fun index hpc hspurious hzero => hread ?_
    exact ⟨start, _, index, by rw [hspurious], hpc, rfl, hzero⟩
  · exact .silent rfl rfl rfl rfl rfl

end CellStep

/-! ## §5 — the invariant along a step -/

section Step

variable [Zero T] {n : Nat} {c : Config} {m m' : Shared T} {holds : Fin n → Hold T}

/-- `CellInv` reads headers, cells and history only. -/
theorem CellInv.congr (inv : CellInv c m holds) (hheader : m'.header = m.header)
    (hcell : m'.cell = m.cell) (hcommitted : m'.committed = m.committed)
    (hreturned : m'.returned = m.returned) : CellInv c m' holds := by
  obtain ⟨rw', ww, ts, fs, header, cell, committed, returned⟩ := m
  obtain ⟨rw'', ww', ts', fs', header', cell', committed', returned'⟩ := m'
  dsimp only at hheader hcell hcommitted hreturned
  subst hheader hcell hcommitted hreturned
  exact ⟨inv.indices, inv.published, inv.written, inv.taken, inv.unique, inv.nonzero, inv.account⟩

theorem CellStep.inv {hd hd' : Handle T} (hstep : CellStep c m m' hd hd')
    (hmax : c.cellsPerBlock ≤ 65535) {h : Fin n} (inv : CellInv c m holds)
    (hh : holds h = hold hd) : CellInv c m' (Function.update holds h (hold hd')) := by
  cases hstep with
  | silent hheader hcell hcommitted hreturned hhold =>
      rw [hhold, ← hh, Function.update_eq_self]
      exact inv.congr hheader hcell hcommitted hreturned
  | place b i t hfree hzero ht hm hhold =>
      rw [hm, hhold]
      exact inv.place (hh.trans hfree) hzero ht
  | commit k t hk hblock hvalid hwrite hroom hm hhold =>
      rw [hm, hhold]
      exact inv.commit hmax hk (hh.trans hwrite) hroom
  | undo b i t hwrite hm hhold =>
      rw [hm, hhold]
      have hplace : (holds h).place = some (b, i) := by rw [hh, hwrite]; rfl
      refine inv.letGo hplace rfl rfl rfl ?_
      rw [hh, hwrite, takenValue_write, add_zero]
      rfl
  | retire k hk hblock hvalid hfree hlast hm hhold =>
      rw [hm, hhold]
      exact inv.retire (hd.readEpoch + 1) hk (hh.trans hfree) hlast
  | advance k hk hfree hnext hsome hm hhold =>
      rw [hm, hhold]
      refine inv.advance hmax hk (hh.trans hfree) ?_
      rcases (inv.indices (.slot k)).read with hlt | ⟨_, hzero⟩
      · omega
      · exact absurd hzero hsome
  | invalidate hempty hvalid hm hhold =>
      rw [hm, hhold, ← hh, Function.update_eq_self]
      exact inv.invalidate (hd.readEpoch + 1) hempty
  | take b i htake hm hhold =>
      rw [hm, hhold]
      have hplace : (holds h).place = some (b, i) := by rw [hh, htake]; rfl
      refine inv.letGo hplace rfl rfl rfl ?_
      rw [hh, htake, ← Multiset.cons_coe, ← Multiset.singleton_add, add_comm]
      rfl

end Step

end RelaxedConcurrentFifo.BlockBasedQueue
