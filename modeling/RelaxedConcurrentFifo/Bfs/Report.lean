/-
# RelaxedConcurrentFifo.Bfs.Report — `benchmark_bfs::output`

After a run of the parallel search the benchmark adds up the counters, refuses the run if a push failed,
if an item was lost or if a label differs from the reference, and else reports the longest distance.
That distance comes from `std::max_element` with a comparator that looks for the marker of an unreached
node under the wrong name: it compares the 32-bit labels with the largest `long long`, which none of
them can be. The comparator is thus the plain order on labels, and one unreached node is enough for
the marker to be reported.
-/
import RelaxedConcurrentFifo.Bfs.Parallel

namespace RelaxedConcurrentFifo.Bfs

/-! ## §1 — the program -/

/-- `std::max_element`, read through the iterator it returns; there is nothing to read in an empty
range. -/
def maxElement {α : Type} (comp : α → α → Bool) : List α → Option α
  | [] => none
  | x :: l => some (l.foldl (fun largest y => if comp largest y then y else largest) x)

/-- `std::numeric_limits<long long>::max()`. -/
def maxLongLong : Nat := 2 ^ 63 - 1

/-- The comparator of `longest_distance`. -/
def labelLess (aVal bVal : Nat) : Bool :=
  if bVal = maxLongLong then false
  else if aVal = maxLongLong then true
  else decide (aVal < bVal)

/-- What `output` reads. -/
structure Report where
  timeNanos : Nat
  distances : List Nat
  counters : List Counter
  infoDistances : List Nat

/-- What `output` writes. -/
inductive Output where
  | errPushFail
  | errLostNode (lostNodes : Int)
  | errDistWrong (node distance expected : Nat)
  | row (timeNanos longestDistance pushedNodes processedNodes ignoredNodes : Nat)
  deriving DecidableEq, Repr

namespace Report

/-- `total_counts`. -/
def totalCounts (r : Report) : Counter :=
  r.counters.foldl (fun sum counter =>
    { pushedNodes := sum.pushedNodes + counter.pushedNodes
      processedNodes := sum.processedNodes + counter.processedNodes
      ignoredNodes := sum.ignoredNodes + counter.ignoredNodes
      err := sum.err || counter.err }) ⟨0, 0, 0, false⟩

/-- `lost_nodes`. -/
def lostNodes (r : Report) : Int :=
  (r.totalCounts.pushedNodes : Int) - (r.totalCounts.processedNodes + r.totalCounts.ignoredNodes)

/-- The first node whose label differs from the reference. -/
def wrongNode (r : Report) : Option Nat :=
  (List.range r.infoDistances.length).find? fun i =>
    decide (r.distances.getD i unreached ≠ r.infoDistances.getD i unreached)

/-- The checks of `output`: the error it stops with. -/
def error (r : Report) : Option Output :=
  if r.totalCounts.err then some .errPushFail
  else if r.lostNodes ≠ 0 then some (.errLostNode r.lostNodes)
  else r.wrongNode.map fun i =>
    .errDistWrong i (r.distances.getD i unreached) (r.infoDistances.getD i unreached)

/-- `longest_distance`. -/
def longestDistance (r : Report) : Option Nat := maxElement labelLess r.distances

/-- `benchmark_bfs::output`. -/
def output (r : Report) : Option Output :=
  match r.error with
  | some e => some e
  | none => r.longestDistance.map fun longest =>
      .row r.timeNanos longest r.totalCounts.pushedNodes r.totalCounts.processedNodes
        r.totalCounts.ignoredNodes

end Report

/-! ## §2 — what is reported -/

/-- No label of 32 bits is the largest `long long`. -/
theorem labelLess_eq {a b : Nat} (ha : a < 2 ^ 32) (hb : b < 2 ^ 32) :
    labelLess a b = decide (a < b) := by
  have ha' : a ≠ maxLongLong := by unfold maxLongLong; omega
  have hb' : b ≠ maxLongLong := by unfold maxLongLong; omega
  rw [labelLess, if_neg hb', if_neg ha']

theorem foldl_labelLess (l : List Nat) : ∀ x, (∀ d ∈ x :: l, d < 2 ^ 32) →
    l.foldl (fun largest y => if labelLess largest y then y else largest) x = l.foldl max x := by
  induction l with
  | nil => intro x _; rfl
  | cons y l ih =>
      intro x hwidth
      have hx := hwidth x List.mem_cons_self
      have hy := hwidth y (List.mem_cons_of_mem _ List.mem_cons_self)
      have hstep : (if labelLess x y then y else x) = max x y := by
        rw [labelLess_eq hx hy]
        by_cases hlt : x < y
        · rw [decide_eq_true hlt, if_pos rfl, Nat.max_eq_right hlt.le]
        · rw [decide_eq_false hlt, if_neg Bool.false_ne_true, Nat.max_eq_left (Nat.le_of_not_lt hlt)]
      rw [List.foldl_cons, List.foldl_cons, hstep]
      refine ih (max x y) fun d hd => ?_
      rcases List.mem_cons.mp hd with rfl | hd
      · exact Nat.max_lt.mpr ⟨hx, hy⟩
      · exact hwidth d (List.mem_cons_of_mem _ (List.mem_cons_of_mem _ hd))

/-- The largest label is found, whether it stands for a distance or not. -/
theorem maxElement_labelLess {l : List Nat} (hwidth : ∀ d ∈ l, d < 2 ^ 32) :
    maxElement labelLess l = l.max? := by
  cases l with
  | nil => rfl
  | cons x l =>
      rw [maxElement, foldl_labelLess l x hwidth]
      rfl

/-- The marker is an ordinary label to the comparator, and the largest `long long` its least element. -/
theorem labelLess_strictWeakOrder : IsStrictWeakOrder Nat fun a b => labelLess a b = true where
  irrefl a := by
    unfold labelLess
    split_ifs <;> simp
  trans a b c hab hbc := by
    unfold labelLess at *
    split_ifs at * <;> simp_all
    omega
  incomp_trans a b c hab hbc := by
    unfold labelLess at *
    split_ifs at * <;> simp_all
    omega

/-- `m` is the largest distance of a node that was reached. -/
structure IsLongest (distances : List Nat) (m : Nat) : Prop where
  mem : m ∈ distances
  reached : m ≠ unreached
  ge : ∀ d ∈ distances, d ≠ unreached → d ≤ m

/-- **`output` reports the longest distance exactly if every node was reached.** The run passed the
checks and reached some node. -/
theorem output_longest_iff_all_reached (r : Report) (hwidth : ∀ d ∈ r.distances, d < 2 ^ 32)
    (hreached : ∃ d ∈ r.distances, d ≠ unreached) (hchecks : r.error = none) :
    ((IsStrictWeakOrder Nat fun a b => labelLess a b = true) ∧
      ∃ longest, r.output = some (.row r.timeNanos longest r.totalCounts.pushedNodes
          r.totalCounts.processedNodes r.totalCounts.ignoredNodes) ∧
        IsLongest r.distances longest) ↔
      ∀ d ∈ r.distances, d ≠ unreached := by
  have houtput : r.output = r.distances.max?.map fun longest =>
      .row r.timeNanos longest r.totalCounts.pushedNodes r.totalCounts.processedNodes
        r.totalCounts.ignoredNodes := by
    unfold Report.output
    rw [hchecks]
    dsimp only
    rw [Report.longestDistance, maxElement_labelLess hwidth]
  constructor
  · rintro ⟨-, longest, hrow, hlongest⟩ d hd rfl
    rw [houtput, Option.map_eq_some_iff] at hrow
    obtain ⟨m, hm, hrow⟩ := hrow
    obtain ⟨-, hge⟩ := List.max?_eq_some_iff.mp hm
    cases hrow
    -- the marker is the largest label of 32 bits, so it is what the fold keeps
    have hle := hge unreached hd
    have hlt := hwidth _ hlongest.mem
    have := hlongest.reached
    unfold unreached at *
    omega
  · intro hall
    refine ⟨labelLess_strictWeakOrder, ?_⟩
    obtain ⟨d, hd, -⟩ := hreached
    obtain ⟨m, hm⟩ := Option.ne_none_iff_exists'.mp
      (fun hnone => List.ne_nil_of_mem hd (List.max?_eq_none_iff.mp hnone))
    obtain ⟨hmem, hge⟩ := List.max?_eq_some_iff.mp hm
    refine ⟨m, ?_, hmem, hall m hmem, fun d hd _ => hge d hd⟩
    rw [houtput, hm]
    rfl

/-- A run on two connected nodes. -/
def twoReached : Report := ⟨7, [1, 2], [⟨2, 0, 2, false⟩], [1, 2]⟩

theorem output_longest_iff_all_reached_two :
    (∀ d ∈ twoReached.distances, d ≠ unreached) ∧ ∃ longest,
      twoReached.output = some (.row 7 longest 2 2 0) ∧ IsLongest twoReached.distances longest := by
  have hall : ∀ d ∈ twoReached.distances, d ≠ unreached := by decide
  exact ⟨hall, ((output_longest_iff_all_reached twoReached (by decide) ⟨1, by decide, by decide⟩
    (by decide)).mpr hall).2⟩

/-- A run on two nodes without an edge between them. -/
def oneUnreached : Report := ⟨7, [1, 2 ^ 32 - 1], [⟨1, 0, 1, false⟩], [1, 2 ^ 32 - 1]⟩

/-- The start node is the only one reached, at distance 1; the marker is reported. -/
theorem oneUnreached_reports_marker :
    (∀ d ∈ oneUnreached.distances, d < 2 ^ 32) ∧ (∃ d ∈ oneUnreached.distances, d ≠ unreached) ∧
      oneUnreached.error = none ∧ oneUnreached.output = some (.row 7 unreached 1 1 0) ∧
      ¬ ∃ longest, oneUnreached.output = some (.row 7 longest 1 1 0) ∧
        IsLongest oneUnreached.distances longest := by
  have hrow : oneUnreached.output = some (.row 7 unreached 1 1 0) := by decide
  refine ⟨by decide, ⟨1, by decide, by decide⟩, by decide, hrow, ?_⟩
  rintro ⟨longest, hlongest, h⟩
  rw [hrow] at hlongest
  cases hlongest
  exact h.reached rfl

end RelaxedConcurrentFifo.Bfs
