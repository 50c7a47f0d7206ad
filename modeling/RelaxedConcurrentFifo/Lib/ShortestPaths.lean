/-
# RelaxedConcurrentFifo.Lib.ShortestPaths — labels on the nodes of a directed graph

A label-setting or label-correcting search keeps a number per node, one more than the length of some
walk from the source, or a marker `top` for "not reached". `labels_exact` says when such labels are
the distances: every finite label has a walk behind it, and no edge can lower one any more.

`SimplePath` is the stronger fact the searches keep while they run: behind a label stands a path
without repetition whose nodes are all labelled at most as high as their place on it. Labels only go
down, so the path stays one; and it bounds every label by the number of nodes, in any order of events.
-/
import Mathlib.Data.List.Basic
import Mathlib.Data.List.Nodup
import Mathlib.Data.Finset.Card
import Mathlib.Data.Finset.Range

namespace RelaxedConcurrentFifo.Lib.ShortestPaths

variable {V : Type*} {E : V → V → Prop} {s : V}

/-! ## §1 — walks and distances -/

/-- A walk with `k` edges from `s`. -/
inductive Walk (E : V → V → Prop) (s : V) : Nat → V → Prop where
  | nil : Walk E s 0 s
  | snoc {k : Nat} {u v : V} (h : Walk E s k u) (he : E u v) : Walk E s (k + 1) v

/-- `k` is the least number of edges of a walk from `s` to `v`. -/
structure Distance (E : V → V → Prop) (s v : V) (k : Nat) : Prop where
  walk : Walk E s k v
  least : ∀ j, Walk E s j v → k ≤ j

/-- Labels that no edge can lower are at most one more than any walk. -/
theorem label_le_of_walk {L : V → Nat} {top : Nat} (hs : L s = 1) (htop : 1 ≠ top)
    (hclosed : ∀ u v, E u v → L u ≠ top → L v ≠ top ∧ L v ≤ L u + 1) {k : Nat} {v : V}
    (h : Walk E s k v) : L v ≠ top ∧ L v ≤ k + 1 := by
  induction h with
  | nil => exact ⟨hs ▸ htop, by rw [hs]⟩
  | snoc _ he ih =>
      obtain ⟨hfinite, hle⟩ := hclosed _ _ he ih.1
      exact ⟨hfinite, by omega⟩

/-- **Labels with a walk behind them that no edge can lower are the distances.** -/
theorem labels_exact {L : V → Nat} {top : Nat} (hs : L s = 1) (htop : 1 ≠ top)
    (hsound : ∀ v, L v ≠ top → ∃ k, L v = k + 1 ∧ Walk E s k v)
    (hclosed : ∀ u v, E u v → L u ≠ top → L v ≠ top ∧ L v ≤ L u + 1) (v : V) :
    (∀ k, Distance E s v k → L v = k + 1) ∧ ((∀ k, ¬ Walk E s k v) → L v = top) := by
  constructor
  · intro k hk
    obtain ⟨hfinite, hle⟩ := label_le_of_walk hs htop hclosed hk.walk
    obtain ⟨j, hj, hwalk⟩ := hsound v hfinite
    have := hk.least j hwalk
    omega
  · intro hnone
    by_contra hfinite
    obtain ⟨j, _, hwalk⟩ := hsound v hfinite
    exact hnone j hwalk

/-- Two such labellings agree. -/
theorem labels_unique {L L' : V → Nat} {top : Nat} (hs : L s = 1) (hs' : L' s = 1) (htop : 1 ≠ top)
    (hsound : ∀ v, L v ≠ top → ∃ k, L v = k + 1 ∧ Walk E s k v)
    (hsound' : ∀ v, L' v ≠ top → ∃ k, L' v = k + 1 ∧ Walk E s k v)
    (hclosed : ∀ u v, E u v → L u ≠ top → L v ≠ top ∧ L v ≤ L u + 1)
    (hclosed' : ∀ u v, E u v → L' u ≠ top → L' v ≠ top ∧ L' v ≤ L' u + 1) (v : V) :
    L v = L' v := by
  by_cases hfinite : L v = top
  · by_contra hne
    obtain ⟨k, _, hwalk⟩ := hsound' v fun h => hne (hfinite.trans h.symm)
    exact (label_le_of_walk hs htop hclosed hwalk).1 hfinite
  · obtain ⟨k, hk, hwalk⟩ := hsound v hfinite
    obtain ⟨hfinite', hle'⟩ := label_le_of_walk hs' htop hclosed' hwalk
    obtain ⟨k', hk', hwalk'⟩ := hsound' v hfinite'
    have hle := (label_le_of_walk hs htop hclosed hwalk').2
    omega

/-! ## §2 — the path behind a label -/

/-- A path without repetition from `s`, last node first, on which every node is labelled at most as
high as its place. -/
inductive SimplePath (E : V → V → Prop) (s : V) (L : V → Nat) : List V → Prop where
  | single (hs : L s ≤ 1) : SimplePath E s L [s]
  | cons {u v : V} {p : List V} (h : SimplePath E s L (u :: p)) (he : E u v) (hnew : v ∉ u :: p)
      (hle : L v ≤ p.length + 2) : SimplePath E s L (v :: u :: p)

namespace SimplePath

variable {L L' : V → Nat} {p : List V}

theorem nodup (h : SimplePath E s L p) : p.Nodup := by
  induction h with
  | single => exact List.nodup_singleton s
  | cons _ _ hnew _ ih => exact List.nodup_cons.mpr ⟨hnew, ih⟩

/-- Every node of the path is labelled at most as high as the path is long. -/
theorem label_le (h : SimplePath E s L p) : ∀ x ∈ p, L x ≤ p.length := by
  induction h with
  | single hs =>
      intro x hx
      rw [List.mem_singleton.mp hx]
      exact hs
  | cons _ _ _ hle ih =>
      intro x hx
      rcases List.mem_cons.mp hx with rfl | hx
      · exact hle
      · exact (ih x hx).trans (Nat.le_succ _)

theorem walk {v : V} (h : SimplePath E s L (v :: p)) : Walk E s p.length v := by
  generalize hq : v :: p = q at h
  induction h generalizing v p with
  | single =>
      cases hq
      exact .nil
  | cons _ he _ _ ih =>
      cases hq
      exact .snoc (ih rfl) he

/-- Labels that go down keep the path. -/
theorem mono (h : SimplePath E s L p) (hle : ∀ x, L' x ≤ L x) : SimplePath E s L' p := by
  induction h with
  | single hs => exact .single ((hle s).trans hs)
  | cons _ he hnew hv ih => exact .cons ih he hnew ((hle _).trans hv)

/-- An edge to a node with a higher label makes the path longer. -/
theorem extend {u v : V} (h : SimplePath E s L (u :: p)) (he : E u v)
    (hlt : (u :: p).length + 1 < L v) (hle : ∀ x, L' x ≤ L x) (hv : L' v ≤ p.length + 2) :
    SimplePath E s L' (v :: u :: p) := by
  refine .cons (h.mono hle) he (fun hmem => ?_) hv
  have := h.label_le v hmem
  omega

end SimplePath

section Bounded

variable {n : Nat} {E : Nat → Nat → Prop} {s : Nat} {L : Nat → Nat} {p : List Nat}

theorem SimplePath.mem_lt (h : SimplePath E s L p) (hs : s < n) (hE : ∀ u v, E u v → v < n) :
    ∀ x ∈ p, x < n := by
  induction h with
  | single =>
      intro x hx
      rw [List.mem_singleton.mp hx]
      exact hs
  | cons _ he _ _ ih =>
      intro x hx
      rcases List.mem_cons.mp hx with rfl | hx
      · exact hE _ _ he
      · exact ih x hx

theorem SimplePath.toFinset_subset (h : SimplePath E s L p) (hs : s < n)
    (hE : ∀ u v, E u v → v < n) : p.toFinset ⊆ Finset.range n :=
  fun x hx => Finset.mem_range.mpr (h.mem_lt hs hE x (List.mem_toFinset.mp hx))

/-- A path inside `n` nodes has at most `n` of them. -/
theorem SimplePath.length_le (h : SimplePath E s L p) (hs : s < n) (hE : ∀ u v, E u v → v < n) :
    p.length ≤ n := by
  have hcard := Finset.card_le_card (h.toFinset_subset hs hE)
  rwa [List.toFinset_card_of_nodup h.nodup, Finset.card_range] at hcard

/-- When the path takes all `n` nodes, every node is labelled at most `n`. -/
theorem SimplePath.label_le_of_full (h : SimplePath E s L p) (hs : s < n)
    (hE : ∀ u v, E u v → v < n) (hfull : p.length = n) {v : Nat} (hv : v < n) : L v ≤ n := by
  have hcard : (Finset.range n).card ≤ p.toFinset.card := by
    rw [List.toFinset_card_of_nodup h.nodup, Finset.card_range, hfull]
  have heq := Finset.eq_of_subset_of_card_le (h.toFinset_subset hs hE) hcard
  have hmem : v ∈ p := by
    rw [← List.mem_toFinset, heq]
    exact Finset.mem_range.mpr hv
  exact hfull ▸ h.label_le v hmem

end Bounded

end RelaxedConcurrentFifo.Lib.ShortestPaths
