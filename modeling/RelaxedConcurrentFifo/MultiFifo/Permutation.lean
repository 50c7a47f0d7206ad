/-
# RelaxedConcurrentFifo.MultiFifo.Permutation — `swap_assignment` permutes the queues

The slots of `StickSwap` start as the identity. A swap takes the index out of a slot of its own and
leaves the marker, exchanges the index it CARRIES with that of a slot which is not marked, and puts what
it carries then back. So the indices in unmarked slots and those carried by swaps are always exactly
the queues, however many swaps are in flight and whatever they do to each other's slots.
-/
import RelaxedConcurrentFifo.MultiFifo.Handles
import RelaxedConcurrentFifo.Lib.Sums

namespace RelaxedConcurrentFifo.MultiFifo

open RelaxedConcurrentFifo.Lib.Interleaving
open RelaxedConcurrentFifo.Lib.Sums

variable {T : Type} {c : Config} {m : Shared T} {h : Handle T}

/-! ## §1 — what slots and swaps hold -/

/-- The handle runs `swap_assignment`. -/
def Pc.inSwap : Pc T → Bool
  | .swapExchange _ _ _ | .swapLoad _ _ _ _ | .swapCas _ _ _ _ _ _ | .swapStore _ _ _ _ => true
  | _ => false

/-- The index that a swap carries: `old_target` before its compare-exchange was successful, and
`new_target` after it. -/
def Pc.carried : Pc T → Multiset Nat
  | .swapLoad _ _ _ oldTarget | .swapCas _ _ _ oldTarget _ _ => {oldTarget}
  | .swapStore _ _ _ newTarget => {newTarget}
  | _ => 0

/-- The index in a slot, unless it is marked. -/
def unmarked (target : Nat) : Multiset Nat := if target = maxWord then 0 else {target}

@[simp] theorem unmarked_maxWord : unmarked maxWord = 0 := if_pos rfl

theorem unmarked_of_lt {target : Nat} (hlt : target < c.numQueues) : unmarked target = {target} :=
  if_neg (Nat.ne_of_lt (hlt.trans (numQueues_lt_maxWord c)))

theorem inSwap_of_swapping {pc : Pc T} (hpc : pc.inSwap = false) : swapping pc = none := by
  cases pc <;> first | rfl | cases hpc

theorem carried_of_not_swapping {pc : Pc T} (hpc : swapping pc = none) : pc.carried = 0 := by
  cases pc <;> first | rfl | cases hpc

/-! ## §2 — one step -/

/-- A step leaves the permutation alone, and nothing marked. -/
structure OutsideSwap (m m' : Shared T) (h' : Handle T) : Prop where
  permutation : m'.permutation = m.permutation
  pc : swapping h'.pc = none

theorem go_not_inSwap (random time : Nat) (spurious : Bool) (hpc : h.pc.inSwap = false) :
    OutsideSwap m (go c random time spurious m h).1 (go c random time spurious m h).2 := by
  have hnone := inSwap_of_swapping hpc
  cases hp : h.pc with
  | begin op =>
      simp only [go, hp]
      refine ⟨rfl, ?_⟩
      dsimp only
      split
      · exact swapping_assign op none
      · exact swapping_resume op none
  | refresh op pick i =>
      simp only [go, hp]
      split
      · split
        · exact ⟨rfl, hnone⟩
        · exact ⟨rfl, rfl⟩
      · exact ⟨rfl, swapping_resume op pick⟩
  | choose op => simp only [go, hp]; exact ⟨rfl, swapping_resume op _⟩
  | readSlot op pick i best =>
      simp only [go, hp]
      cases pick <;> exact ⟨rfl, rfl⟩
  | readTick op i q best =>
      simp only [go, hp]
      refine ⟨rfl, ?_⟩
      unfold compared
      split
      · dsimp only
        split <;> rfl
      · split <;> rfl
  | lockLoad op site q =>
      simp only [go, hp]
      split
      · exact ⟨rfl, rfl⟩
      · exact ⟨rfl, swapping_lockFailed op site q⟩
  | lockExchange op site q =>
      simp only [go, hp]
      refine ⟨rfl, ?_⟩
      dsimp only
      split
      · rfl
      · exact swapping_lockFailed op site q
  | inside op site q stage =>
      simp only [go, hp]
      refine ⟨rfl, ?_⟩
      generalize ((m.queues q).access c op time stage).2 = outcome
      cases outcome with
      | rejected =>
          cases site with
          | fast pick => rfl
          | scan => exact swapping_scanNext op q
      | _ => rfl
  | idle => simp only [go, hp]; exact ⟨rfl, hnone⟩
  | pushReturned result => simp only [go, hp]; exact ⟨rfl, hnone⟩
  | popReturned result => simp only [go, hp]; exact ⟨rfl, hnone⟩
  | _ => rw [hp] at hpc; cases hpc

/-- Writing a slot and changing what the handle carries by as much. -/
theorem balance_setSlot {i x : Nat} {y z : Multiset Nat} (hi : i < c.numQueues)
    (hmove : unmarked x + y = unmarked (m.permutation i) + z) :
    ∑ j ∈ Finset.range c.numQueues, unmarked ((m.setSlot i x).permutation j) + y =
      ∑ j ∈ Finset.range c.numQueues, unmarked (m.permutation j) + z := by
  refine sum_balance _ (Finset.mem_range.mpr hi) (fun j _ hj => ?_) ?_
  · rw [setSlot_ne m x hj]
  · rw [setSlot_self]
    exact hmove

/-- A step of a swap moves one index, between a slot and what the handle carries. -/
theorem carried_go (random time : Nat) (spurious : Bool) (hm : PermutationOk c m)
    (hh : HandleOk c m h) :
    ∑ j ∈ Finset.range c.numQueues, unmarked ((go c random time spurious m h).1.permutation j) +
        (go c random time spurious m h).2.pc.carried =
      ∑ j ∈ Finset.range c.numQueues, unmarked (m.permutation j) + h.pc.carried := by
  have hok := hh.pc
  cases hp : h.pc with
  | swapExchange op pick i =>
      rw [hp] at hok
      obtain ⟨-, hmode, hi⟩ := hok
      have hlt := hh.slot_lt hm hmode hi (by rw [hp]; exact nofun)
      have hinside := (hh.slots hmode).inside
      simp only [go, hp]
      refine balance_setSlot (by omega) ?_
      rw [unmarked_maxWord, unmarked_of_lt hlt]
      exact add_comm _ _
  | swapLoad op pick i oldTarget =>
      simp only [go, hp]
      split
      · rw [hp]
      · rfl
  | swapCas op pick i oldTarget permIndex newTarget =>
      rw [hp] at hok
      obtain ⟨-, hold, hperm, hnew⟩ := hok
      simp only [go, hp]
      split
      · rename_i heq
        refine balance_setSlot hperm ?_
        rw [unmarked_of_lt hold, heq.1, unmarked, if_neg hnew]
        exact add_comm _ _
      · rfl
  | swapStore op pick i newTarget =>
      rw [hp] at hok
      obtain ⟨⟨-, hmode, hi⟩, hnew⟩ := hok
      have hslots := hh.slots hmode
      have hinside := hslots.inside
      have hmarked := hslots.marked i (by rw [hp]; rfl)
      have hnone : ∀ h' : Handle T, swapping h'.pc = none →
          ∑ j ∈ Finset.range c.numQueues,
              unmarked ((m.setSlot (h.offset + i) newTarget).permutation j) + h'.pc.carried =
            ∑ j ∈ Finset.range c.numQueues, unmarked (m.permutation j) + {newTarget} := by
        intro h' hswap
        refine balance_setSlot (by omega) ?_
        rw [unmarked_of_lt hnew, hmarked, unmarked_maxWord, carried_of_not_swapping hswap]
        exact add_comm _ _
      simp only [go, hp]
      cases pick with
      | some p => exact hnone _ (swapping_resume op (some p))
      | none =>
          dsimp only
          split
          · exact hnone _ rfl
          · exact hnone _ (swapping_resume op none)
  | _ =>
      have hswap : h.pc.inSwap = false := by rw [hp]; rfl
      obtain ⟨hperm, hnone⟩ := go_not_inSwap (c := c) (m := m) random time spurious hswap
      rw [hperm, carried_of_not_swapping hnone]
      rfl

theorem carried_step (a : Action T) (hm : PermutationOk c m) (hh : HandleOk c m h) :
    ∑ j ∈ Finset.range c.numQueues, unmarked ((stepHandle c a m h).1.permutation j) +
        (stepHandle c a m h).2.pc.carried =
      ∑ j ∈ Finset.range c.numQueues, unmarked (m.permutation j) + h.pc.carried := by
  have hcall : ∀ op, (if h.pc.resting then { h with pc := .begin op } else h).pc.carried =
      h.pc.carried := by
    intro op
    split
    · rename_i hresting
      cases hp : h.pc <;> first | rfl | (rw [hp] at hresting; cases hresting)
    · rfl
  cases a with
  | push v => exact congrArg _ (hcall (.push v))
  | pop => exact congrArg _ (hcall .pop)
  | go random time spurious => exact carried_go random time spurious hm hh

/-! ## §3 — every interleaving -/

section Runs

variable [Inhabited T] {n : Nat}

/-- The indices in unmarked slots and those carried by swaps are the queues, each once. -/
theorem indices_run (c : Config) (hslots : EnoughSlots c n) (ls : List (Fin n × Action T)) :
    ∑ j ∈ Finset.range c.numQueues, unmarked ((run c ls).shared.permutation j) +
      ∑ t, ((run c ls).locals t).pc.carried = Multiset.range c.numQueues := by
  induction ls using List.reverseRecOn with
  | nil =>
      have hcarried : ∑ t, ((run c ([] : List (Fin n × Action T))).locals t).pc.carried = 0 :=
        Finset.sum_eq_zero fun _ _ => rfl
      have hidentity : ∑ j ∈ Finset.range c.numQueues, unmarked j =
          ∑ j ∈ Finset.range c.numQueues, {j} :=
        Finset.sum_congr rfl fun j hj => unmarked_of_lt (Finset.mem_range.mp hj)
      rw [hcarried, add_zero]
      exact hidentity.trans (Finset.sum_multiset_singleton _)
  | append_singleton ls l ih =>
      have hindex := indexOutline_run c hslots ls
      unfold run at ih hindex ⊢
      rw [Threads.run_concat]
      generalize (init c n).run (stepHandle c) ls = s at ih hindex
      have hstep := carried_step l.2 hindex.shared (hindex.thread l.1)
      have hupdate := sum_update (fun h : Handle T => h.pc.carried) s.locals l.1
        (stepHandle c l.2 s.shared (s.locals l.1)).2
      rw [← ih]
      exact add_eq_of_exchange hstep hupdate

/-- No two slots hold the same queue. -/
theorem slots_ne (hslots : EnoughSlots c n) (ls : List (Fin n × Action T)) {i j : Nat}
    (hi : i < c.numQueues) (hj : j < c.numQueues) (hne : i ≠ j)
    (hmark : (run c ls).shared.permutation i ≠ maxWord) :
    (run c ls).shared.permutation i ≠ (run c ls).shared.permutation j := by
  intro heq
  have hindices := indices_run c hslots ls
  generalize (run c ls).shared.permutation = perm at hindices hmark heq
  have hpair : unmarked (perm i) + unmarked (perm j) ≤
      ∑ k ∈ Finset.range c.numQueues, unmarked (perm k) :=
    Finset.add_le_sum (fun _ _ => Multiset.zero_le _) (Finset.mem_range.mpr hi)
      (Finset.mem_range.mpr hj) hne
  -- then the queue would stand twice among all queues
  have htwice : ({perm i} + {perm i} : Multiset Nat) ≤ Multiset.range c.numQueues := by
    rw [← heq, unmarked, if_neg hmark] at hpair
    exact hpair.trans (hindices ▸ Multiset.le_add_right _ _)
  have hnodup := Multiset.nodup_of_le htwice (Multiset.nodup_range _)
  rw [Multiset.nodup_add] at hnodup
  exact Multiset.disjoint_left.mp hnodup.2.2 (Multiset.mem_singleton_self _)
    (Multiset.mem_singleton_self _)

/-- What holds of the slots in every state. -/
structure Permuted (c : Config) (s : Threads (Shared T) (Handle T) n) : Prop where
  indices : ∑ j ∈ Finset.range c.numQueues, unmarked (s.shared.permutation j) +
    ∑ t, (s.locals t).pc.carried = Multiset.range c.numQueues
  /-- A handle whose swap is not under way finds queues in its slots, all different. -/
  unmarked : ∀ t, swapping (s.locals t).pc = none → ∀ i < c.numPopCandidates,
    s.shared.permutation ((s.locals t).offset + i) ≠ maxWord ∧
      s.shared.permutation ((s.locals t).offset + i) < c.numQueues
  distinct : ∀ t, swapping (s.locals t).pc = none → ∀ i < c.numPopCandidates,
    ∀ j < c.numPopCandidates, i ≠ j →
      s.shared.permutation ((s.locals t).offset + i) ≠
        s.shared.permutation ((s.locals t).offset + j)

/-- While a handle takes steps alone, outside of `swap_assignment`, the slots stay as they are. -/
theorem permutation_alone (ls : List (Fin n × Action T)) (t : Fin n) (as : List (Action T))
    (halone : ∀ k < as.length,
      ((run c (ls ++ (as.take k).map (t, ·))).locals t).pc.inSwap = false) :
    (run c (ls ++ as.map (t, ·))).shared.permutation = (run c ls).shared.permutation := by
  induction as using List.reverseRecOn with
  | nil => rw [List.map_nil, List.append_nil]
  | append_singleton as a ih =>
      have hlen : (as ++ [a]).length = as.length + 1 := by
        rw [List.length_append, List.length_singleton]
      have hprev : ∀ k ≤ as.length, (as ++ [a]).take k = as.take k :=
        fun k hk => List.take_append_of_le_length hk
      have hlast := halone as.length (by omega)
      rw [hprev _ (Nat.le_refl _), List.take_length] at hlast
      have hbefore := ih fun k hk => by
        have hk' := halone k (by omega)
        rwa [hprev k (Nat.le_of_lt hk)] at hk'
      rw [← hbefore, List.map_append, ← List.append_assoc]
      unfold run at hlast ⊢
      rw [List.map_singleton, Threads.run_concat]
      cases a with
      | push v => rfl
      | pop => rfl
      | go random time spurious => exact (go_not_inSwap random time spurious hlast).permutation

/-- **The slots of `StickSwap` hold a permutation of the queues, up to the swaps in flight**, in every
interleaving of any number of handles whose parts fit into it. A handle that is not swapping finds
different queues in its slots, also when it reads them one after another with no foreign step in
between. -/
theorem permuted (c : Config) (hmode : c.mode = .stickSwap)
    (hslots : n * c.numPopCandidates ≤ c.numQueues) (ls : List (Fin n × Action T)) :
    Permuted c (run c ls) ∧
      ∀ t (as : List (Action T)),
        (∀ k < as.length, ((run c (ls ++ (as.take k).map (t, ·))).locals t).pc.inSwap = false) →
        (run c (ls ++ as.map (t, ·))).shared.permutation = (run c ls).shared.permutation := by
  have henough : EnoughSlots c n := fun _ => hslots
  have hindex := indexOutline_run c henough ls
  have hown : ∀ t, swapping ((run c ls).locals t).pc = none → ∀ i < c.numPopCandidates,
      (run c ls).shared.permutation (((run c ls).locals t).offset + i) < c.numQueues := by
    intro t hnone i hi
    exact (hindex.thread t).slot_lt hindex.shared hmode hi (by rw [hnone]; exact nofun)
  have hmarked : ∀ x < c.numQueues, x ≠ maxWord :=
    fun x hx => Nat.ne_of_lt (hx.trans (numQueues_lt_maxWord c))
  refine ⟨⟨indices_run c henough ls, fun t hnone i hi => ?_, fun t hnone i hi j hj hne => ?_⟩,
    fun t as halone => permutation_alone ls t as halone⟩
  · exact ⟨hmarked _ (hown t hnone i hi), hown t hnone i hi⟩
  · have hinside := ((hindex.thread t).slots hmode).inside
    exact slots_ne henough ls (by omega) (by omega) (by omega) (hmarked _ (hown t hnone i hi))

end Runs

/-- Four queues and two candidates for each handle. -/
def swapQuad : Config where
  mode := .stickSwap
  numQueues := 4
  numPopCandidates := 2
  size := 4
  stickiness := 1
  guardSize := 128
  elementSize := 16
  numQueues_pos := four_pos
  numQueues_lt := four_lt_int
  numPopCandidates_pos := Nat.two_pos
  size_lt := four_lt_word
  share_le := by decide

/-- Two swaps in flight: handle 0 has exchanged its index 0 for that of handle 1's second slot, while
handle 1 still carries the index of its first. -/
def twoSwaps : List (Fin 2 × Action Nat) :=
  [(0, .pop), (1, .pop), (0, .go 0 0 false), (1, .go 0 0 false), (0, .go 0 0 false),
    (1, .go 0 0 false), (0, .go 3 0 false), (0, .go 0 0 false)]

theorem permuted_twoSwaps :
    ((List.range 4).map (run swapQuad twoSwaps).shared.permutation = [maxWord, 1, maxWord, 0] ∧
      ((run swapQuad twoSwaps).locals 0).pc.carried = {3} ∧
      ((run swapQuad twoSwaps).locals 1).pc.carried = {2}) ∧
      Permuted swapQuad (run swapQuad twoSwaps) :=
  ⟨by decide +kernel, (permuted swapQuad rfl (by decide) twoSwaps).1⟩

end RelaxedConcurrentFifo.MultiFifo
