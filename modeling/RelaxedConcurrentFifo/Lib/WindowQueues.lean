/-
# RelaxedConcurrentFifo.Lib.WindowQueues — relaxed queues of columns, behind two windows

The elements are kept in `width` columns, each of them a FIFO queue. The elements that have ever been
added to a column are its rows, counted from 0. One window of `depth` rows is open for adding, another
one for taking, and a window goes on to the next rows only when every column has come to its end.

An element may then be passed only by elements of the same window in other columns: the queue is a
relaxed one, with a bound of `depth * (width - 1)`.
-/
import RelaxedConcurrentFifo.Lib.RelaxedQueues
import RelaxedConcurrentFifo.Lib.Sums

namespace RelaxedConcurrentFifo.Lib.WindowQueues

open RelaxedConcurrentFifo.Lib.RelaxedQueues

variable {α : Type*} {width depth i j : Nat}

/-! ## §1 — columns -/

/-- An element with its place: the column, and the row in it. -/
structure Cell (α : Type*) where
  entry : Entry α
  column : Nat
  row : Nat

/-- One more element goes before this one. -/
def Cell.pass (x : Cell α) : Cell α := ⟨x.entry.pass, x.column, x.row⟩

/-- The elements of column `i`. -/
def column (cells : List (Cell α)) (i : Nat) : List (Cell α) := cells.filter (·.column = i)

section Columns

variable {cells cells' before after : List (Cell α)} {x : Cell α}

@[simp] theorem column_append : column (cells ++ cells') i = column cells i ++ column cells' i :=
  List.filter_append ..

theorem column_cons_self (h : x.column = i) : column (x :: cells) i = x :: column cells i :=
  List.filter_cons_of_pos (by simpa using h)

theorem column_cons_other (h : x.column ≠ i) : column (x :: cells) i = column cells i :=
  List.filter_cons_of_neg (by simpa using h)

theorem column_pass : column (cells.map Cell.pass) i = (column cells i).map Cell.pass := by
  rw [column, column, List.filter_map]
  rfl

theorem mem_column : x ∈ column cells i ↔ x ∈ cells ∧ x.column = i := by
  simp [column]

theorem column_eq_nil (h : ∀ y ∈ cells, y.column ≠ i) : column cells i = [] :=
  List.filter_eq_nil_iff.mpr fun y hy => by simpa using h y hy

/-- The first element of a column, and what is around it. -/
theorem exists_first {l : List (Cell α)} (h : column cells i = x :: l) :
    ∃ before after, cells = before ++ x :: after ∧ (∀ y ∈ before, y.column ≠ x.column) ∧ x.column = i := by
  obtain ⟨before, after, hcells, hbefore, hx, -⟩ := List.filter_eq_cons_iff.mp h
  have hx : x.column = i := of_decide_eq_true hx
  exact ⟨before, after, hcells, fun y hy heq => hbefore y hy (decide_eq_true (heq.trans hx)), hx⟩

/-- The other columns when an element has been taken. -/
theorem column_taken_other (hj : j ≠ x.column) :
    column (before ++ x :: after) j = column before j ++ column after j ∧
      column (before.map Cell.pass ++ after) j = (column before j).map Cell.pass ++ column after j := by
  rw [column_append, column_append, column_pass, column_cons_other (Ne.symm hj)]
  exact ⟨rfl, rfl⟩

/-- The column from which the first element has been taken. -/
theorem column_taken_self (hfirst : ∀ y ∈ before, y.column ≠ x.column) :
    column (before ++ x :: after) x.column = x :: column after x.column ∧
      column (before.map Cell.pass ++ after) x.column = column after x.column := by
  rw [column_append, column_append, column_pass, column_eq_nil hfirst, column_cons_self rfl]
  exact ⟨rfl, rfl⟩

/-- The elements are those of the columns. -/
theorem length_eq_sum (h : ∀ x ∈ cells, x.column < width) :
    cells.length = ∑ i ∈ Finset.range width, (column cells i).length := by
  induction cells with
  | nil => simp [column]
  | cons x cells ih =>
      obtain ⟨hx, hcells⟩ := List.forall_mem_cons.mp h
      have hsum := Sums.sum_exchange (Finset.range width) (f := fun i => (column (x :: cells) i).length)
        (g := fun i => (column cells i).length) (Finset.mem_range.mpr hx) fun i _ hi => by
          rw [column_cons_other (Ne.symm hi)]
      rw [column_cons_self rfl, List.length_cons] at hsum
      rw [List.length_cons, ih hcells]
      omega

/-- The columns beside one of them. -/
theorem sum_beside_le {f : Nat → Nat} (hi : i < width)
    (hf : ∀ j ∈ (Finset.range width).erase i, f j ≤ depth) :
    ∑ j ∈ (Finset.range width).erase i, f j ≤ depth * (width - 1) := by
  have hcard : ((Finset.range width).erase i).card = width - 1 := by
    rw [Finset.card_erase_of_mem (Finset.mem_range.mpr hi), Finset.card_range]
  calc ∑ j ∈ (Finset.range width).erase i, f j
      ≤ ∑ _j ∈ (Finset.range width).erase i, depth := Finset.sum_le_sum hf
    _ = depth * (width - 1) := by rw [Finset.sum_const_nat fun _ _ => rfl, hcard, Nat.mul_comm]

end Columns

/-! ## §2 — windows -/

/-- The elements, from the oldest on; how many have been taken from each column; the numbers of the window
for taking and of the one for adding. -/
structure Board (α : Type*) where
  cells : List (Cell α)
  taken : Nat → Nat
  low : Nat
  high : Nat

namespace Board

/-- How many elements have been added to column `i`. -/
def added (q : Board α) (i : Nat) : Nat := q.taken i + (column q.cells i).length

/-- How many elements of the window have been taken from the columns other than `i`. -/
def takenBeside (q : Board α) (width depth i : Nat) : Nat :=
  ∑ j ∈ (Finset.range width).erase i, (q.taken j - q.low * depth)

/-- What the windows keep in order. -/
structure Ok (q : Board α) (width depth : Nat) : Prop where
  column_lt : ∀ x ∈ q.cells, x.column < width
  rows : ∀ i < width, (column q.cells i).map Cell.row = List.range' (q.taken i) (column q.cells i).length
  /-- Older elements are not in later windows. -/
  ordered : q.cells.Pairwise fun x y => x.row / depth ≤ y.row / depth
  taken_ge : ∀ i < width, q.low * depth ≤ q.taken i
  taken_le : ∀ i < width, q.taken i ≤ (q.low + 1) * depth
  added_ge : ∀ i < width, q.high * depth ≤ q.added i
  added_le : ∀ i < width, q.added i ≤ (q.high + 1) * depth
  low_le : q.low ≤ q.high
  /-- An element has been passed only by elements of its window in other columns. -/
  passed_le : ∀ x ∈ q.cells, x.entry.passed ≤ q.takenBeside width depth x.column
  passed_later : ∀ x ∈ q.cells, (q.low + 1) * depth ≤ x.row → x.entry.passed = 0

/-- An element is added to column `i`. -/
def put (q : Board α) (i : Nat) (x : α) : Board α :=
  { q with cells := q.cells ++ [⟨⟨x, 0⟩, i, q.added i⟩] }

/-- The element `x`, which is between `before` and `after`, is taken. -/
def take (q : Board α) (before : List (Cell α)) (x : Cell α) (after : List (Cell α)) : Board α where
  cells := before.map Cell.pass ++ after
  taken := Function.update q.taken x.column (q.taken x.column + 1)
  low := q.low
  high := q.high

variable {q : Board α} {before after : List (Cell α)} {x : Cell α}

theorem column_put_self (y : α) :
    column (q.put i y).cells i = column q.cells i ++ [⟨⟨y, 0⟩, i, q.added i⟩] := by
  rw [put, column_append, column_cons_self rfl]
  rfl

theorem column_put_other (y : α) (hne : i ≠ j) : column (q.put i y).cells j = column q.cells j := by
  rw [put, column_append, column_cons_other hne]
  exact List.append_nil _

theorem added_put_self (y : α) : (q.put i y).added i = q.added i + 1 := by
  rw [added, column_put_self, List.length_append]
  rfl

theorem added_put_other (y : α) (hne : i ≠ j) : (q.put i y).added j = q.added j := by
  rw [added, column_put_other y hne]
  rfl

/-- Taking an element does not change how many have been added. -/
theorem added_take (hcells : q.cells = before ++ x :: after) (hfirst : ∀ y ∈ before, y.column ≠ x.column)
    (j : Nat) : (q.take before x after).added j = q.added j := by
  show Function.update q.taken x.column (q.taken x.column + 1) j +
    (column (before.map Cell.pass ++ after) j).length = q.taken j + (column q.cells j).length
  rw [hcells]
  by_cases hj : j = x.column
  · rw [hj, Function.update_self, (column_taken_self hfirst).2, (column_taken_self hfirst).1,
      List.length_cons]
    omega
  · rw [Function.update_of_ne hj, (column_taken_other hj).2, (column_taken_other hj).1,
      List.length_append, List.length_append, List.length_map]

/-- A queue without elements. -/
theorem ok_empty : Ok (⟨[], fun _ => 0, 0, 0⟩ : Board α) width depth where
  column_lt _ hx := absurd hx List.not_mem_nil
  rows _ _ := rfl
  ordered := .nil
  taken_ge _ _ := by rw [Nat.zero_mul]
  taken_le _ _ := Nat.zero_le _
  added_ge _ _ := by rw [Nat.zero_mul]; exact Nat.zero_le _
  added_le _ _ := Nat.zero_le _
  low_le := Nat.le_refl 0
  passed_le _ hx := absurd hx List.not_mem_nil
  passed_later _ hx := absurd hx List.not_mem_nil

namespace Ok

/-- The rows of a column follow those that have been taken. -/
theorem row_bounds (h : q.Ok width depth) {x : Cell α} (hx : x ∈ q.cells) :
    q.taken x.column ≤ x.row ∧ x.row < q.added x.column := by
  have hmem : x.row ∈ (column q.cells x.column).map Cell.row :=
    List.mem_map_of_mem (mem_column.mpr ⟨hx, rfl⟩)
  rw [h.rows _ (h.column_lt x hx), List.mem_range'_1] at hmem
  exact hmem

theorem row_lt (h : q.Ok width depth) {x : Cell α} (hx : x ∈ q.cells) : x.row < (q.high + 1) * depth :=
  Nat.lt_of_lt_of_le (h.row_bounds hx).2 (h.added_le _ (h.column_lt x hx))

theorem window_le (h : q.Ok width depth) {x : Cell α} (hx : x ∈ q.cells) : x.row / depth ≤ q.high :=
  Nat.le_of_lt_succ (Nat.div_lt_of_lt_mul (by rw [Nat.mul_comm]; exact h.row_lt hx))

/-- An element is added to a column with room in the window. -/
theorem put (h : q.Ok width depth) (hi : i < width) (hroom : q.added i < (q.high + 1) * depth) (y : α) :
    (q.put i y).Ok width depth := by
  have hdepth : 0 < depth := by
    rcases Nat.eq_zero_or_pos depth with rfl | hpos
    · omega
    · exact hpos
  have hcases : ∀ z ∈ (q.put i y).cells, z ∈ q.cells ∨ z = ⟨⟨y, 0⟩, i, q.added i⟩ := fun z hz =>
    (List.mem_append.mp hz).imp_right List.mem_singleton.mp
  refine ⟨?_, ?_, ?_, h.taken_ge, h.taken_le, ?_, ?_, h.low_le, ?_, ?_⟩
  · intro z hz
    rcases hcases z hz with hz | rfl
    · exact h.column_lt z hz
    · exact hi
  · intro j hj
    by_cases hij : i = j
    · subst hij
      rw [column_put_self, List.map_append, h.rows i hi, List.length_append, List.length_singleton]
      show _ = List.range' (q.taken i) _
      rw [List.range'_1_concat]
      rfl
    · rw [column_put_other y hij]
      exact h.rows j hj
  · refine List.pairwise_append.mpr ⟨h.ordered, List.pairwise_singleton _ _, fun z hz w hw => ?_⟩
    rw [List.mem_singleton.mp hw]
    exact (h.window_le hz).trans ((Nat.le_div_iff_mul_le hdepth).mpr (h.added_ge i hi))
  · intro j hj
    by_cases hij : i = j
    · subst hij
      rw [added_put_self]
      exact Nat.le_succ_of_le (h.added_ge i hi)
    · rw [added_put_other y hij]
      exact h.added_ge j hj
  · intro j hj
    by_cases hij : i = j
    · subst hij
      rw [added_put_self]
      exact hroom
    · rw [added_put_other y hij]
      exact h.added_le j hj
  · intro z hz
    rcases hcases z hz with hz | rfl
    · exact h.passed_le z hz
    · exact Nat.zero_le _
  · intro z hz hrow
    rcases hcases z hz with hz | rfl
    · exact h.passed_later z hz hrow
    · rfl

/-- There is no element when all that were added have been taken. -/
theorem eq_nil (h : q.Ok width depth) (hnone : ∀ i < width, q.added i ≤ q.taken i) : q.cells = [] := by
  rw [← List.length_eq_zero_iff, length_eq_sum h.column_lt]
  refine Finset.sum_eq_zero fun i hi => ?_
  have hle := hnone i (Finset.mem_range.mp hi)
  rw [added] at hle
  omega

/-- The window for adding goes on when all columns have come to its end. -/
theorem widen (h : q.Ok width depth) (hfull : ∀ i < width, (q.high + 1) * depth ≤ q.added i) :
    Ok { q with high := q.high + 1 } width depth :=
  ⟨h.column_lt, h.rows, h.ordered, h.taken_ge, h.taken_le, hfull,
    fun i hi => (h.added_le i hi).trans (Nat.mul_le_mul_right _ (Nat.le_succ _)),
    Nat.le_succ_of_le h.low_le, h.passed_le, h.passed_later⟩

/-- The window for taking goes on when all columns have come to its end. -/
theorem advance (h : q.Ok width depth) (hempty : ∀ i < width, (q.low + 1) * depth ≤ q.taken i)
    (hlt : q.low < q.high) : Ok { q with low := q.low + 1 } width depth := by
  have hzero : ∀ x ∈ q.cells, x.entry.passed = 0 := fun x hx =>
    h.passed_later x hx ((hempty _ (h.column_lt x hx)).trans (h.row_bounds hx).1)
  refine ⟨h.column_lt, h.rows, h.ordered, hempty, fun i hi => ?_, h.added_ge, h.added_le, hlt, ?_, ?_⟩
  · exact (h.taken_le i hi).trans (Nat.mul_le_mul_right _ (Nat.le_succ _))
  · intro x hx
    rw [hzero x hx]
    exact Nat.zero_le _
  · exact fun x hx _ => hzero x hx

/-! ## §3 — taking an element -/

/-- The first element of a column is in its first row. -/
theorem row_first (h : q.Ok width depth) (hcells : q.cells = before ++ x :: after)
    (hfirst : ∀ y ∈ before, y.column ≠ x.column) :
    column q.cells x.column = x :: column after x.column ∧ x.row = q.taken x.column ∧
      (column after x.column).map Cell.row =
        List.range' (q.taken x.column + 1) (column after x.column).length := by
  have hcolumn : column q.cells x.column = x :: column after x.column := by
    rw [hcells, (column_taken_self hfirst).1]
  have hrows := h.rows x.column (h.column_lt x (by rw [hcells]; simp))
  rw [hcolumn, List.map_cons, List.length_cons, List.range'_succ] at hrows
  obtain ⟨hrow, hrest⟩ := List.cons.inj hrows
  exact ⟨hcolumn, hrow, hrest⟩

/-- What is older than an element of the window is in the window too. -/
theorem row_before (h : q.Ok width depth) (hcells : q.cells = before ++ x :: after)
    (hrow : x.row < (q.low + 1) * depth) : ∀ y ∈ before, y.row < (q.low + 1) * depth := by
  intro y hy
  have hordered := h.ordered
  rw [hcells] at hordered
  have hle := (List.pairwise_append.mp hordered).2.2 y hy x List.mem_cons_self
  have hdepth : 0 < depth := Nat.pos_of_mul_pos_left (Nat.zero_lt_of_lt hrow)
  rw [Nat.mul_comm] at hrow
  exact Nat.lt_mul_of_div_lt (hle.trans_lt (Nat.div_lt_of_lt_mul hrow)) hdepth

/-- Fewer elements are older than all other columns have rows in the window. -/
theorem length_before (h : q.Ok width depth) (hcells : q.cells = before ++ x :: after)
    (hfirst : ∀ y ∈ before, y.column ≠ x.column) (hrow : x.row < (q.low + 1) * depth) :
    before.length ≤ depth * (width - 1) := by
  have hx : x.column < width := h.column_lt x (by rw [hcells]; simp)
  have hlt : ∀ y ∈ before, y.column < width := fun y hy => h.column_lt y (by
    rw [hcells]
    exact List.mem_append_left _ hy)
  have hcolumn : ∀ j ∈ (Finset.range width).erase x.column, (column before j).length ≤ depth := by
    intro j hj
    obtain ⟨hne, hj⟩ := Finset.mem_erase.mp hj
    have hj := Finset.mem_range.mp hj
    have hrows := h.rows j hj
    have hge := h.taken_ge j hj
    rw [hcells, column_append, List.map_append] at hrows
    obtain ⟨m, -, hm, -⟩ := List.range'_eq_append_iff.mp hrows.symm
    have hlength : (column before j).length = m := by
      rw [← List.length_map (f := Cell.row), hm, List.length_range']
    rcases Nat.eq_zero_or_pos m with hzero | hpos
    · omega
    · -- the last of these rows is in the window
      have hlast : q.taken j + (m - 1) ∈ (column before j).map Cell.row := by
        rw [hm, List.mem_range'_1]
        omega
      obtain ⟨y, hy, hyrow⟩ := List.mem_map.mp hlast
      have hylt := h.row_before hcells hrow y (mem_column.mp hy).1
      rw [Nat.add_mul, Nat.one_mul] at hylt
      omega
  rw [length_eq_sum hlt, ← Finset.add_sum_erase _ _ (Finset.mem_range.mpr hx), column_eq_nil hfirst,
    List.length_nil, Nat.zero_add]
  exact sum_beside_le hx hcolumn

theorem takenBeside_le (h : q.Ok width depth) (hi : i < width) :
    q.takenBeside width depth i ≤ depth * (width - 1) := by
  refine sum_beside_le hi fun j hj => ?_
  have hle := h.taken_le j (Finset.mem_range.mp (Finset.mem_of_mem_erase hj))
  rw [Nat.add_mul, Nat.one_mul] at hle
  omega

/-- The first element of a column is taken from the window. -/
theorem take (h : q.Ok width depth) (hcells : q.cells = before ++ x :: after)
    (hfirst : ∀ y ∈ before, y.column ≠ x.column) (hlow : q.taken x.column < (q.low + 1) * depth) :
    (q.take before x after).Ok width depth := by
  obtain ⟨hcolumn, hrow, hrest⟩ := h.row_first hcells hfirst
  have hmem : ∀ y, y ∈ before ∨ y ∈ after → y ∈ q.cells := by
    intro y hy
    rw [hcells, List.mem_append]
    exact hy.imp_right (List.mem_cons_of_mem x)
  have hx : x.column < width := h.column_lt x (by rw [hcells]; simp)
  have hself : column (before.map Cell.pass ++ after) x.column = column after x.column :=
    (column_taken_self hfirst).2
  have hother : ∀ j, j ≠ x.column → column q.cells j = column before j ++ column after j ∧
      column (before.map Cell.pass ++ after) j = (column before j).map Cell.pass ++ column after j :=
    fun j hj => hcells ▸ column_taken_other hj
  refine ⟨?_, ?_, ?_, ?_, ?_, fun j hj => (h.added_ge j hj).trans (added_take hcells hfirst j).ge,
    fun j hj => (added_take hcells hfirst j).le.trans (h.added_le j hj), h.low_le, ?_, ?_⟩
  · intro y hy
    rcases List.mem_append.mp hy with hy | hy
    · obtain ⟨y, hy', rfl⟩ := List.mem_map.mp hy
      exact h.column_lt y (hmem y (.inl hy'))
    · exact h.column_lt y (hmem y (.inr hy))
  · intro j hj
    by_cases hjx : j = x.column
    · subst hjx
      show (column (before.map Cell.pass ++ after) x.column).map Cell.row = List.range'
        (Function.update q.taken x.column (q.taken x.column + 1) x.column)
        (column (before.map Cell.pass ++ after) x.column).length
      rw [hself, Function.update_self, hrest]
    · show (column (before.map Cell.pass ++ after) j).map Cell.row = List.range'
        (Function.update q.taken x.column (q.taken x.column + 1) j)
        (column (before.map Cell.pass ++ after) j).length
      have hrows := h.rows j hj
      rw [(hother j hjx).1, List.map_append] at hrows
      rw [Function.update_of_ne hjx, (hother j hjx).2, List.map_append, List.map_map, List.length_append,
        List.length_map, ← List.length_append, ← hrows]
      rfl
  · have hordered := h.ordered
    rw [hcells] at hordered
    obtain ⟨hbefore, hafter, hcross⟩ := List.pairwise_append.mp hordered
    refine List.pairwise_append.mpr ⟨List.pairwise_map.mpr hbefore, (List.pairwise_cons.mp hafter).2,
      fun y hy z hz => ?_⟩
    obtain ⟨y, hy', rfl⟩ := List.mem_map.mp hy
    exact hcross y hy' z (List.mem_cons_of_mem x hz)
  · intro j hj
    show _ ≤ Function.update q.taken x.column (q.taken x.column + 1) j
    by_cases hjx : j = x.column
    · rw [hjx, Function.update_self]
      exact Nat.le_succ_of_le (h.taken_ge _ hx)
    · rw [Function.update_of_ne hjx]
      exact h.taken_ge j hj
  · intro j hj
    show Function.update q.taken x.column (q.taken x.column + 1) j ≤ _
    by_cases hjx : j = x.column
    · rw [hjx, Function.update_self]
      exact hlow
    · rw [Function.update_of_ne hjx]
      exact h.taken_le j hj
  · intro y hy
    have hge := h.taken_ge _ hx
    rcases List.mem_append.mp hy with hy | hy
    · obtain ⟨y, hy', rfl⟩ := List.mem_map.mp hy
      have hmemx : x.column ∈ (Finset.range width).erase y.column :=
        Finset.mem_erase.mpr ⟨Ne.symm (hfirst y hy'), Finset.mem_range.mpr hx⟩
      have hsum := Sums.sum_exchange ((Finset.range width).erase y.column)
        (f := fun j => Function.update q.taken x.column (q.taken x.column + 1) j - q.low * depth)
        (g := fun j => q.taken j - q.low * depth) hmemx fun j _ hj => by
          rw [Function.update_of_ne hj]
      have hle := h.passed_le y (hmem y (.inl hy'))
      rw [Function.update_self] at hsum
      show y.entry.passed + 1 ≤ ∑ j ∈ (Finset.range width).erase y.column,
        (Function.update q.taken x.column (q.taken x.column + 1) j - q.low * depth)
      rw [takenBeside] at hle
      omega
    · refine (h.passed_le y (hmem y (.inr hy))).trans (Finset.sum_le_sum fun j _ => ?_)
      show q.taken j - q.low * depth ≤
        Function.update q.taken x.column (q.taken x.column + 1) j - q.low * depth
      by_cases hjx : j = x.column
      · rw [hjx, Function.update_self]
        omega
      · rw [Function.update_of_ne hjx]
  · intro y hy hyrow
    rcases List.mem_append.mp hy with hy | hy
    · obtain ⟨y, hy', rfl⟩ := List.mem_map.mp hy
      exact absurd (h.row_before hcells (hrow ▸ hlow) y hy') (Nat.not_lt.mpr hyrow)
    · exact h.passed_later y (hmem y (.inr hy)) hyrow

/-- **Taking an element is what a relaxed queue may do.** -/
theorem take_step (h : q.Ok width depth) (hcells : q.cells = before ++ x :: after)
    (hfirst : ∀ y ∈ before, y.column ≠ x.column) (hlow : q.taken x.column < (q.low + 1) * depth)
    (room full : Nat → Prop) :
    Step (depth * (width - 1) + 1) room full (q.cells.map Cell.entry) (.returned x.entry.item)
      ((q.take before x after).cells.map Cell.entry) := by
  have hrow := (h.row_first hcells hfirst).2.1
  have htake := h.take hcells hfirst hlow
  have hpass : (before.map Cell.pass).map Cell.entry = (before.map Cell.entry).map Entry.pass := by
    rw [List.map_map, List.map_map]
    rfl
  rw [Board.take, hcells, List.map_append, List.map_cons, List.map_append, hpass]
  refine Step.returned ?_ fun e he => ?_
  · rw [List.length_map]
    exact Nat.lt_succ_of_le (h.length_before hcells hfirst (hrow ▸ hlow))
  · obtain ⟨y, hy, rfl⟩ := List.mem_map.mp he
    have hmem : y.pass ∈ before.map Cell.pass ++ after :=
      List.mem_append_left _ (List.mem_map_of_mem hy)
    exact Nat.lt_succ_of_le
      ((htake.passed_le _ hmem).trans (htake.takenBeside_le (htake.column_lt _ hmem)))

end Ok

end Board

end RelaxedConcurrentFifo.Lib.WindowQueues
