/-
# RelaxedConcurrentFifo.BenchmarkQuality — `benchmark_quality::output`

Each element of the queue is the time at which it was pushed. Afterwards the pops are replayed in the order
of their times: before each of them, what had been pushed by then is put into a replay tree; then the
element that was popped is taken out, and the tree says how many elements were skipped for it, and how
many were popped before it although they had been pushed later. Both count inversions between the order of
the pushes and the order of the pops.
-/
import RelaxedConcurrentFifo.Lib.Inversions
import RelaxedConcurrentFifo.ReplayTree.Refinement

namespace RelaxedConcurrentFifo.BenchmarkQuality

open RelaxedConcurrentFifo.Lib.Inversions
open RelaxedConcurrentFifo.Lib.KeyedLists
open RelaxedConcurrentFifo.ReplayTree

/-! ## §1 — the model -/

/-- `pop_op`. -/
structure PopOp where
  popTime : Nat
  pushTime : Nat
  deriving DecidableEq, Repr

/-- The `pops` that are collected from the results of the threads, which are pairs `(pushed, popped)`. -/
def collectPops (results : List (List (Nat × Nat))) : List PopOp :=
  results.flatten.map fun entry => ⟨entry.2, entry.1⟩

/-- The `pushes` that are collected with them. -/
def collectPushes (results : List (List (Nat × Nat))) : List Nat := results.flatten.map Prod.fst

/-- What `std::sort` makes of a range; the order of elements that are not `<` each other is not fixed. -/
structure SortedTo {A : Type} (time : A → Nat) (before after : List A) : Prop where
  perm : after.Perm before
  sorted : after.Pairwise fun x y => time x ≤ time y

/-- The inner loop: what was pushed by `popTime` is inserted. -/
def insertPushed (c : Traits) (popTime : Nat) :
    List Nat → ReplayTree.Tree Nat → Option (List Nat × ReplayTree.Tree Nat)
  | [], t => some ([], t)
  | push :: pushes, t =>
      if push ≤ popTime then do
        let (_, t) ← t.insert c push
        insertPushed c popTime pushes t
      else some (push :: pushes, t)

/-- The outer loop: the `rank_errors` and the `delays`, and the tree that is left. Both assertions are
checked. -/
def replay (c : Traits) : List PopOp → List Nat → ReplayTree.Tree Nat →
    Option (List Nat × List Nat × ReplayTree.Tree Nat)
  | [], _, t => some ([], [], t)
  | pop :: pops, pushes, t => do
      let (pushes, t) ← insertPushed c pop.popTime pushes t
      if t.store.size = 0 then none
      else
        let ((success, rankError, delay), t) ← t.eraseVal c pop.pushTime
        if success then
          let (rankErrors, delays, t) ← replay c pops pushes t
          some (rankError :: rankErrors, delay :: delays, t)
        else none

/-- Whenever `erase_val` is called, the tree is not empty and the value is there. -/
def AlwaysPresent (c : Traits) : List PopOp → List Nat → ReplayTree.Tree Nat → Prop
  | [], _, _ => True
  | pop :: pops, pushes, t => ∃ pushes' t' r t'', insertPushed c pop.popTime pushes t = some (pushes', t') ∧
      t'.store.size ≠ 0 ∧ pop.pushTime ∈ t'.contents.map Prod.fst ∧
        t'.eraseVal c pop.pushTime = some (r, t'') ∧ AlwaysPresent c pops pushes' t''

/-- `x` was pushed later than `y`. -/
def overtakes (x y : PopOp) : Bool := decide (y.pushTime < x.pushTime)

/-! ## §2 — the state of the loop -/

variable {c : Traits}

/-- After the pops `earlier`: the pushes that are left and the values of the tree are those of the pops
`later`, and each value has been delayed once by each pop of a value that was pushed after it. -/
structure Replayed (c : Traits) (earlier later : List PopOp) (pushes : List Nat) (t : ReplayTree.Tree Nat)
    (l : List (Nat × Nat)) : Prop where
  represents : Represents c t l
  pushed : ∀ e ∈ earlier ++ later, e.pushTime ≤ e.popTime
  remaining : (l.map Prod.fst ++ pushes).Perm (later.map PopOp.pushTime)
  sorted : pushes.Pairwise (· ≤ ·)
  notYet : ∀ x ∈ pushes, ∀ e ∈ earlier, e.popTime < x
  delays : ∀ p ∈ l, p.2 = earlier.countP fun e => decide (p.1 < e.pushTime)

/-- What is inserted at a place, whatever the place. -/
theorem perm_insertAt (x d : Nat) (l : List (Nat × Nat)) : (insertAt x d l).Perm ((x, d) :: l) := by
  conv_rhs => rw [← below_append_notBelow x l]
  exact List.perm_middle

/-- **A value that is inserted has not been overtaken yet.** -/
theorem Replayed.insert {earlier later : List PopOp} {push : Nat} {pushes : List Nat} {t : ReplayTree.Tree Nat}
    {l : List (Nat × Nat)} (h : Replayed c earlier later (push :: pushes) t l) :
    ∃ iter t', ReplayTree.Tree.insert c t push = some (iter, t') ∧
      Replayed c earlier later pushes t' (insertAt push 0 l) := by
  obtain ⟨iter, t', hinsert, hrepresents⟩ := h.represents.insert push
  have hperm := perm_insertAt push 0 l
  refine ⟨iter, t', hinsert, hrepresents, h.pushed, ?_, (List.pairwise_cons.mp h.sorted).2,
    fun x hx => h.notYet x (List.mem_cons_of_mem _ hx), ?_⟩
  · refine List.Perm.trans ?_ h.remaining
    refine ((hperm.map Prod.fst).append_right pushes).trans ?_
    exact List.perm_middle.symm
  · intro p hp
    rcases List.mem_cons.mp (hperm.mem_iff.mp hp) with rfl | hp
    · symm
      rw [List.countP_eq_zero]
      intro e he
      have hpop := h.notYet push List.mem_cons_self e he
      have hpush := h.pushed e (List.mem_append_left _ he)
      simp only [decide_eq_true_eq]
      omega
    · exact h.delays p hp

/-- The inner loop ends before the first push that comes later. -/
theorem Replayed.insertPushed {earlier later : List PopOp} (popTime : Nat) {pushes : List Nat}
    {t : ReplayTree.Tree Nat} {l : List (Nat × Nat)} (h : Replayed c earlier later pushes t l) :
    ∃ pushes' t' l', BenchmarkQuality.insertPushed c popTime pushes t = some (pushes', t') ∧
      Replayed c earlier later pushes' t' l' ∧ ∀ x ∈ pushes', popTime < x := by
  induction pushes generalizing t l with
  | nil => exact ⟨[], t, l, rfl, h, fun x hx => by cases hx⟩
  | cons push pushes ih =>
      by_cases hle : push ≤ popTime
      · obtain ⟨iter, t₁, hinsert, h₁⟩ := h.insert
        obtain ⟨pushes', t', l', hrest, h', hlate⟩ := ih h₁
        refine ⟨pushes', t', l', ?_, h', hlate⟩
        rw [BenchmarkQuality.insertPushed, if_pos hle, hinsert]
        exact hrest
      · refine ⟨push :: pushes, t, l, if_neg hle, h, fun x hx => ?_⟩
        rcases List.mem_cons.mp hx with rfl | hx
        · omega
        · have := (List.pairwise_cons.mp h.sorted).1 x hx
          omega

section Pop

variable {earlier later : List PopOp} {pop : PopOp} {pushes : List Nat} {t : ReplayTree.Tree Nat}
  {l : List (Nat × Nat)}

/-- **The value that is popped is in the tree**, since it was pushed before. -/
theorem Replayed.mem (h : Replayed c earlier (pop :: later) pushes t l) (hlate : ∀ x ∈ pushes, pop.popTime < x) :
    pop.pushTime ∈ l.map Prod.fst := by
  have hmem : pop.pushTime ∈ l.map Prod.fst ++ pushes :=
    h.remaining.mem_iff.mpr (List.mem_cons_self)
  rcases List.mem_append.mp hmem with hmem | hmem
  · exact hmem
  · have hpush := h.pushed pop (List.mem_append_right _ List.mem_cons_self)
    have hpop := hlate _ hmem
    omega

/-- What is below it in the tree are the later pops of values that were pushed before. -/
theorem Replayed.rank_eq (h : Replayed c earlier (pop :: later) pushes t l)
    (hlate : ∀ x ∈ pushes, pop.popTime < x) :
    l.countP (fun p => decide (p.1 < pop.pushTime)) = later.countP fun e => overtakes pop e := by
  have hcount := h.remaining.countP_eq fun x => decide (x < pop.pushTime)
  have hnone : pushes.countP (fun x => decide (x < pop.pushTime)) = 0 := by
    rw [List.countP_eq_zero]
    intro x hx
    have hpush := h.pushed pop (List.mem_append_right _ List.mem_cons_self)
    have hpop := hlate x hx
    simp only [decide_eq_true_eq]
    omega
  rw [List.countP_append, hnone, Nat.add_zero, List.countP_map, List.map_cons, List.countP_cons, List.countP_map]
    at hcount
  simpa [Function.comp_def, overtakes] using hcount

/-- **A pop**: rank, delay, and the state behind it. -/
theorem Replayed.step (h : Replayed c earlier (pop :: later) pushes t l) (hlate : ∀ x ∈ pushes, pop.popTime < x) :
    ∃ t' l', ReplayTree.Tree.eraseVal c t pop.pushTime = some ((true, later.countP (fun e => overtakes pop e),
        earlier.countP fun e => overtakes e pop), t') ∧
      Replayed c (earlier ++ [pop]) later pushes t' l' := by
  have hsorted := h.represents.sorted
  obtain ⟨d, B, hitem⟩ := hsorted.notBelow_of_mem (h.mem hlate)
  obtain ⟨t', herase, hrepresents⟩ := h.represents.eraseVal hitem
  have hperm : l.Perm ((pop.pushTime, d) :: removeAt pop.pushTime l) := by
    conv_lhs => rw [← below_append_notBelow pop.pushTime l, hitem]
    rw [removeAt, hitem, List.tail_cons]
    exact List.perm_middle
  have hdelay : d = earlier.countP fun e => overtakes e pop :=
    h.delays (pop.pushTime, d) (hperm.mem_iff.mpr List.mem_cons_self)
  rw [h.rank_eq hlate, hdelay] at herase
  refine ⟨t', _, herase, hrepresents, ?_, ?_, h.sorted, ?_, ?_⟩
  · rw [List.append_assoc]
    exact h.pushed
  · have hkeys : (passBelow pop.pushTime (· + 1) (removeAt pop.pushTime l)).map Prod.fst =
        (removeAt pop.pushTime l).map Prod.fst := by
      rw [passBelow, List.map_map]
      exact List.map_congr_left fun p _ => fst_passBelow p
    have hall := ((hperm.map Prod.fst).append_right pushes).symm.trans h.remaining
    rw [hkeys]
    exact List.Perm.cons_inv hall
  · intro x hx e he
    rcases List.mem_append.mp he with he | he
    · exact h.notYet x hx e he
    · obtain rfl := List.mem_singleton.mp he
      exact hlate x hx
  · intro p hp
    obtain ⟨q, hq, rfl⟩ := List.mem_map.mp hp
    have hold := h.delays q (hperm.mem_iff.mpr (List.mem_cons_of_mem _ hq))
    rw [List.countP_append, List.countP_singleton]
    by_cases hlt : q.1 < pop.pushTime
    · simp [hlt, hold]
    · simp [hlt, hold]

end Pop

/-! ## §3 — the loop -/

/-- **The outer loop counts inversions**, from wherever it has got to. -/
theorem replay_spec (later : List PopOp) : ∀ {earlier : List PopOp} {pushes : List Nat}
    {t : ReplayTree.Tree Nat} {l : List (Nat × Nat)}, Replayed c earlier later pushes t l →
      ∃ t', replay c later pushes t = some (behind overtakes later, ahead overtakes earlier later, t') ∧
        t'.store.size = 0 ∧ AlwaysPresent c later pushes t := by
  induction later with
  | nil =>
      intro earlier pushes t l h
      have hnil : l.map Prod.fst ++ pushes = [] := h.remaining.eq_nil
      have hempty : l = [] := List.map_eq_nil_iff.mp (List.append_eq_nil_iff.mp hnil).1
      refine ⟨t, rfl, ?_, trivial⟩
      rw [h.represents.size, hempty, List.length_nil]
  | cons pop later ih =>
      intro earlier pushes t l h
      obtain ⟨pushes₁, t₁, l₁, hinsert, h₁, hlate⟩ := h.insertPushed pop.popTime
      have hmem := h₁.mem hlate
      obtain ⟨t₂, l₂, herase, h₂⟩ := h₁.step hlate
      obtain ⟨t', hreplay, hsize, hpresent⟩ := ih h₂
      have hne : t₁.store.size ≠ 0 := by
        rw [h₁.represents.size]
        have hpos := List.length_pos_of_mem hmem
        rw [List.length_map] at hpos
        omega
      have hcontents : pop.pushTime ∈ t₁.contents.map Prod.fst := by
        rw [h₁.represents.contents, List.map_map]
        exact hmem
      refine ⟨t', ?_, hsize, pushes₁, t₁, _, t₂, hinsert, hne, hcontents, herase, hpresent⟩
      rw [replay, hinsert]
      simp only [Option.bind_eq_bind, Option.bind_some, if_neg hne, herase, if_true, hreplay]
      rfl

/-- **`output` computes inversion counts**: the tree is never empty when a value is erased, the value is
there, and in the end nothing is left; each rank error counts the later pops of values that were pushed
before, each delay the earlier pops of values that were pushed after. -/
theorem output_counts_inversions (c : Traits) (results : List (List (Nat × Nat)))
    (h : ∀ result ∈ results, ∀ entry ∈ result, entry.1 ≤ entry.2) {pops : List PopOp} {pushes : List Nat}
    (hpops : SortedTo PopOp.popTime (collectPops results) pops)
    (hpushes : SortedTo id (collectPushes results) pushes) :
    ∃ rankErrors delays t, replay c pops pushes ReplayTree.Tree.empty = some (rankErrors, delays, t) ∧
      AlwaysPresent c pops pushes ReplayTree.Tree.empty ∧ t.store.size = 0 ∧
        rankErrors.length = pops.length ∧ delays.length = pops.length ∧
          (∀ i pop, pops[i]? = some pop →
            rankErrors[i]? =
                some ((pops.drop (i + 1)).countP fun later => decide (later.pushTime < pop.pushTime)) ∧
              delays[i]? =
                some ((pops.take i).countP fun earlier => decide (pop.pushTime < earlier.pushTime))) ∧
            rankErrors.sum = delays.sum := by
  have hstart : Replayed c [] pops pushes ReplayTree.Tree.empty [] := by
    refine ⟨represents_empty c, fun e he => ?_, ?_, hpushes.sorted, ?_, ?_⟩
    · obtain ⟨entry, hentry, rfl⟩ := List.mem_map.mp (hpops.perm.mem_iff.mp he)
      obtain ⟨result, hresult, hentry⟩ := List.mem_flatten.mp hentry
      exact h result hresult entry hentry
    · have hsame : collectPushes results = (collectPops results).map PopOp.pushTime := by
        rw [collectPops, List.map_map]
        rfl
      exact hpushes.perm.trans (hsame ▸ (hpops.perm.map PopOp.pushTime).symm)
    · intro x _ e he
      cases he
    · intro p hp
      cases hp
  obtain ⟨t, hreplay, hsize, hpresent⟩ := replay_spec pops hstart
  refine ⟨_, _, t, hreplay, hpresent, hsize, length_behind _ _, length_ahead _ _ _, fun i pop hpop => ?_,
    (sum_ahead_eq_sum_behind overtakes pops).symm⟩
  exact ⟨getElem?_behind overtakes hpop, getElem?_ahead overtakes hpop⟩

theorem output_counts_inversions_swapped :
    ∃ rankErrors delays t,
      replay minTraits [⟨2, 2⟩, ⟨3, 1⟩] [1, 2] ReplayTree.Tree.empty = some (rankErrors, delays, t) ∧
      AlwaysPresent minTraits [⟨2, 2⟩, ⟨3, 1⟩] [1, 2] ReplayTree.Tree.empty ∧ t.store.size = 0 ∧
        rankErrors.length = 2 ∧ delays.length = 2 ∧
          (∀ i pop, ([⟨2, 2⟩, ⟨3, 1⟩] : List PopOp)[i]? = some pop →
            rankErrors[i]? = some ((([⟨2, 2⟩, ⟨3, 1⟩] : List PopOp).drop (i + 1)).countP
                fun later => decide (later.pushTime < pop.pushTime)) ∧
              delays[i]? = some ((([⟨2, 2⟩, ⟨3, 1⟩] : List PopOp).take i).countP
                fun earlier => decide (pop.pushTime < earlier.pushTime))) ∧
            rankErrors.sum = delays.sum :=
  output_counts_inversions minTraits [[(1, 3)], [(2, 2)]] (by decide)
    ⟨by decide, by decide⟩ ⟨by decide, by decide⟩

end RelaxedConcurrentFifo.BenchmarkQuality
