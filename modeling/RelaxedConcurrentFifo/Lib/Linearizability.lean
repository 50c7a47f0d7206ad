/-
# RelaxedConcurrentFifo.Lib.Linearizability — concurrent histories against a sequential object

A concurrent object is seen through its history: calls that begin and calls that end, of many threads
at a time. The history is linearizable when the calls can be put in ONE order in which a sequential
object would have given the same answers, every call that has ended is there, and a call that ended
before another began comes before it. A call that has not ended may be there or not.

The rule `linearizedBy_of_points` is how such an order is found: it is enough to give each call a
moment between its beginning and its end, also with the knowledge of what happened later.
-/
import RelaxedConcurrentFifo.Lib.Runs
import Mathlib.Data.List.Nodup
import Mathlib.Data.List.Flatten

namespace RelaxedConcurrentFifo.Lib.Linearizability

open RelaxedConcurrentFifo.Lib.Runs
open scoped List

variable {S Op Res E : Type*}

/-! ## §1 — histories -/

/-- What is seen of a concurrent object. Each call has a name of its own. -/
inductive Event (Op Res : Type*) where
  | call (id : Nat) (op : Op)
  | ret (id : Nat) (res : Res)
  deriving DecidableEq, Repr

/-- A call in the sequential order: its name, what it does and what it returns. -/
structure Effect (Op Res : Type*) where
  id : Nat
  op : Op
  res : Res
  deriving DecidableEq, Repr

/-- The order `effects` explains the history by the sequential object `f`. -/
structure LinearizedBy (f : S → Op → S × Res) (init : S) (history : List (Event Op Res))
    (effects : List (Effect Op Res)) : Prop where
  once : (effects.map Effect.id).Nodup
  called : ∀ e ∈ effects, .call e.id e.op ∈ history
  returned : ∀ id res, .ret id res ∈ history → ∃ op, ⟨id, op, res⟩ ∈ effects
  sequential : responses f init (effects.map Effect.op) = effects.map Effect.res
  realTime : ∀ e ∈ effects, ∀ e' ∈ effects, ∀ res,
    [.ret e.id res, .call e'.id e'.op] <+ history → [e, e'] <+ effects

/-- **Linearizability.** -/
def Linearizable (f : S → Op → S × Res) (init : S) (history : List (Event Op Res)) : Prop :=
  ∃ effects, LinearizedBy f init history effects

/-- **When every call has ended, the order is made of the calls and what they returned.** -/
theorem LinearizedBy.mem_iff {f : S → Op → S × Res} {init : S} {history : List (Event Op Res)}
    {effects : List (Effect Op Res)} (h : LinearizedBy f init history effects)
    (hended : ∀ id op, .call id op ∈ history → ∃ res, .ret id res ∈ history)
    (hnamed : ∀ id op op', .call id op ∈ history → .call id op' ∈ history → op = op')
    {e : Effect Op Res} :
    e ∈ effects ↔ .call e.id e.op ∈ history ∧ .ret e.id e.res ∈ history := by
  constructor
  · intro he
    have hcall := h.called e he
    obtain ⟨res, hres⟩ := hended _ _ hcall
    obtain ⟨op, hop⟩ := h.returned _ _ hres
    have heq : e = ⟨e.id, op, res⟩ := List.inj_on_of_nodup_map h.once he hop rfl
    refine ⟨hcall, ?_⟩
    rw [heq]
    exact hres
  · rintro ⟨hcall, hret⟩
    obtain ⟨op, hop⟩ := h.returned _ _ hret
    obtain rfl : op = e.op := hnamed _ _ _ (h.called _ hop) hcall
    exact hop

/-- The effects are what the sequential object does from `s`, and it ends in `s'`. -/
def Explains (f : S → Op → S × Res) (s : S) (effects : List (Effect Op Res)) (s' : S) : Prop :=
  responses f s (effects.map Effect.op) = effects.map Effect.res ∧
    effects.foldl (fun s e => (f s e.op).1) s = s'

namespace Explains

variable {f : S → Op → S × Res} {s s' s'' : S}

theorem nil : Explains f s [] s := ⟨rfl, rfl⟩

theorem cons {e : Effect Op Res} {effects : List (Effect Op Res)} (he : f s e.op = (s', e.res))
    (h : Explains f s' effects s'') : Explains f s (e :: effects) s'' := by
  refine ⟨?_, ?_⟩
  · rw [List.map_cons, List.map_cons, responses, he, h.1]
  · rw [List.foldl_cons, he]
    exact h.2

theorem append {es es' : List (Effect Op Res)} (h : Explains f s es s')
    (h' : Explains f s' es' s'') : Explains f s (es ++ es') s'' := by
  induction es generalizing s with
  | nil =>
      obtain rfl : s = s' := h.2
      exact h'
  | cons e es ih =>
      obtain ⟨hres, hfold⟩ := h
      rw [List.map_cons, List.map_cons, responses, List.cons.injEq] at hres
      rw [List.foldl_cons] at hfold
      exact cons (Prod.ext rfl hres.1) (ih ⟨hres.2, hfold⟩)

/-- Effects at one moment after the other. -/
theorem flatMap {chunk : Nat → List (Effect Op Res)} {P : Nat → S → Prop} (h0 : P 0 s) {n : Nat}
    (hstep : ∀ k < n, ∀ s, P k s → ∃ s', P (k + 1) s' ∧ Explains f s (chunk k) s') :
    ∃ s', P n s' ∧ Explains f s ((List.range n).flatMap chunk) s' := by
  induction n with
  | zero => exact ⟨s, h0, nil⟩
  | succ n ih =>
      obtain ⟨s₁, h₁, hexp₁⟩ := ih fun k hk => hstep k (Nat.lt_succ_of_lt hk)
      obtain ⟨s₂, h₂, hexp₂⟩ := hstep n (Nat.lt_succ_self n) s₁ h₁
      refine ⟨s₂, h₂, ?_⟩
      rw [List.range_succ, List.flatMap_append, List.flatMap_singleton]
      exact hexp₁.append hexp₂

end Explains

/-! ## §2 — two entries of a list, in order -/

theorem pair_sublist_filterMap {α β : Type*} {f : α → Option β} {l : List α} {x y : β}
    (h : [x, y] <+ l.filterMap f) :
    ∃ i j : Nat, i < j ∧ (l[i]?).bind f = some x ∧ (l[j]?).bind f = some y := by
  obtain ⟨r₁, r₂, hr, hx, hy⟩ := List.cons_sublist_iff.mp h
  obtain ⟨l₁, l₂, rfl, rfl, rfl⟩ := List.filterMap_eq_append_iff.mp hr
  rw [List.singleton_sublist] at hy
  obtain ⟨a, ha, hxa⟩ := List.mem_filterMap.mp hx
  obtain ⟨b, hb, hyb⟩ := List.mem_filterMap.mp hy
  obtain ⟨i, hi, rfl⟩ := List.mem_iff_getElem.mp ha
  obtain ⟨j, hj, rfl⟩ := List.mem_iff_getElem.mp hb
  refine ⟨i, l₁.length + j, by omega, ?_, ?_⟩
  · rw [List.getElem?_append_left hi, List.getElem?_eq_getElem hi]
    exact hxa
  · rw [List.getElem?_append_right (by omega), Nat.add_sub_cancel_left,
      List.getElem?_eq_getElem hj]
    exact hyb

theorem pair_sublist_flatMap {β : Type*} {chunk : Nat → List β} {n i j : Nat} {x y : β}
    (hij : i < j) (hj : j < n) (hx : x ∈ chunk i) (hy : y ∈ chunk j) :
    [x, y] <+ (List.range n).flatMap chunk := by
  have hsplit : List.range n = List.range j ++ (List.range (n - j)).map (j + ·) := by
    rw [← List.range_add, Nat.add_sub_cancel' (Nat.le_of_lt hj)]
  rw [hsplit, List.flatMap_append]
  refine List.cons_sublist_iff.mpr ⟨_, _, rfl, ?_, ?_⟩
  · exact List.mem_flatMap.mpr ⟨i, List.mem_range.mpr hij, hx⟩
  · rw [List.singleton_sublist]
    refine List.mem_flatMap.mpr ⟨j, List.mem_map.mpr ⟨0, ?_, rfl⟩, hy⟩
    exact List.mem_range.mpr (by omega)

theorem mem_filterMap_iff_bind {α β : Type*} {f : α → Option β} {l : List α} {x : β} :
    x ∈ l.filterMap f ↔ ∃ i : Nat, (l[i]?).bind f = some x := by
  rw [List.mem_filterMap]
  constructor
  · rintro ⟨a, ha, hx⟩
    obtain ⟨i, hi⟩ := List.mem_iff_getElem?.mp ha
    exact ⟨i, by rw [hi]; exact hx⟩
  · rintro ⟨i, hi⟩
    obtain ⟨a, ha, hx⟩ := Option.bind_eq_some_iff.mp hi
    exact ⟨a, List.mem_of_getElem? ha, hx⟩

/-! ## §3 — linearization points -/

/-- A choice of moments: `chunk i` are the calls that take effect at moment `i` of the log `w`, none
of them before it begins or after it ends. -/
structure Points (w : List E) (view : E → Option (Event Op Res))
    (chunk : Nat → List (Effect Op Res)) : Prop where
  begun : ∀ i, ∀ e ∈ chunk i, ∃ k ≤ i, (w[k]?).bind view = some (.call e.id e.op)
  named : ∀ (k k' id : Nat) (op op' : Op), (w[k]?).bind view = some (.call id op) →
    (w[k']?).bind view = some (.call id op') → k = k'
  notEnded : ∀ i, ∀ e ∈ chunk i, ∀ (k : Nat) res, (w[k]?).bind view = some (.ret e.id res) → i ≤ k
  once : ∀ i, ((chunk i).map Effect.id).Nodup
  oneMoment : ∀ i j, ∀ e ∈ chunk i, ∀ e' ∈ chunk j, e.id = e'.id → i = j
  ended : ∀ (k : Nat) id res, (w[k]?).bind view = some (.ret id res) →
    ∃ i < w.length, ∃ op, ⟨id, op, res⟩ ∈ chunk i

/-- **Moments between beginning and end linearize the history**, if the sequential object agrees with
them. -/
theorem linearizedBy_of_points {f : S → Op → S × Res} {init : S} {w : List E}
    {view : E → Option (Event Op Res)} {chunk : Nat → List (Effect Op Res)}
    (h : Points w view chunk)
    (hseq : responses f init (((List.range w.length).flatMap chunk).map Effect.op) =
      ((List.range w.length).flatMap chunk).map Effect.res) :
    LinearizedBy f init (w.filterMap view) ((List.range w.length).flatMap chunk) := by
  refine ⟨?_, ?_, ?_, hseq, ?_⟩
  · rw [List.map_flatMap, List.nodup_flatMap]
    refine ⟨fun i _ => h.once i, List.nodup_range.imp ?_⟩
    intro i j hij id hi hj
    obtain ⟨e, he, rfl⟩ := List.mem_map.mp hi
    obtain ⟨e', he', heq⟩ := List.mem_map.mp hj
    exact hij (h.oneMoment i j e he e' he' heq.symm)
  · intro e he
    obtain ⟨i, -, he⟩ := List.mem_flatMap.mp he
    obtain ⟨k, -, hk⟩ := h.begun i e he
    exact mem_filterMap_iff_bind.mpr ⟨k, hk⟩
  · intro id res hret
    obtain ⟨k, hk⟩ := mem_filterMap_iff_bind.mp hret
    obtain ⟨i, hi, op, hop⟩ := h.ended k id res hk
    exact ⟨op, List.mem_flatMap.mpr ⟨i, List.mem_range.mpr hi, hop⟩⟩
  · intro e he e' he' res hsub
    obtain ⟨i, hi, he⟩ := List.mem_flatMap.mp he
    obtain ⟨j, hj, he'⟩ := List.mem_flatMap.mp he'
    obtain ⟨k, k', hkk', hk, hk'⟩ := pair_sublist_filterMap hsub
    have hik : i ≤ k := h.notEnded i e he k res hk
    obtain ⟨k'', hk''j, hk''⟩ := h.begun j e' he'
    obtain rfl : k' = k'' := h.named _ _ _ _ _ hk' hk''
    exact pair_sublist_flatMap (by omega) (List.mem_range.mp hj) he he'

end RelaxedConcurrentFifo.Lib.Linearizability
