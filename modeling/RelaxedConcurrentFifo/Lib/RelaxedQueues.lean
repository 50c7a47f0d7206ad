/-
# RelaxedConcurrentFifo.Lib.RelaxedQueues — queues that return one of their oldest elements

A `k`-FIFO queue may return any of its `k` oldest elements, and it may let fewer than `k` younger
elements go before an older one. `Step` says what a call may do to such a queue, `Run` what a sequence
of calls may.

The usual way to make one is a sequence of segments of `k` places: elements are added to the last
segment in no order, and taken from the first one in no order. `Segments` is this queue, whatever the
segments are kept in. For the second bound it matters that nothing is added to a segment that something
has been taken from.
-/
import Mathlib.Data.List.Basic
import Mathlib.Data.List.Perm.Basic
import Mathlib.Logic.Function.Basic

namespace RelaxedConcurrentFifo.Lib.RelaxedQueues

variable {α : Type*} {k : Nat} {room full : Nat → Prop}

/-! ## §1 — what a relaxed queue may do -/

/-- An element, and how many elements that were pushed after it have been popped before it. -/
structure Entry (α : Type*) where
  item : α
  passed : Nat

/-- One more element goes before this one. -/
def Entry.pass (e : Entry α) : Entry α := ⟨e.item, e.passed + 1⟩

/-- What a call did: a push added an element or was rejected, a pop returned an element or nothing. -/
inductive Event (α : Type*)
  | accepted (x : α)
  | rejected
  | returned (x : α)
  | nothing

/-- One call to a queue that may take another element when it has so many that `room` holds, and may reject
one when it has so many that `full` does. The elements are listed from the oldest on. -/
inductive Step (k : Nat) (room full : Nat → Prop) : List (Entry α) → Event α → List (Entry α) → Prop
  | accepted {es : List (Entry α)} (x : α) (hroom : room es.length) :
      Step k room full es (.accepted x) (es ++ [⟨x, 0⟩])
  | rejected {es : List (Entry α)} (hfull : full es.length) : Step k room full es .rejected es
  | returned {before after : List (Entry α)} {e : Entry α} (hplace : before.length < k)
      (hpassed : ∀ e' ∈ before, e'.pass.passed < k) :
      Step k room full (before ++ e :: after) (.returned e.item) (before.map Entry.pass ++ after)
  | nothing : Step k room full [] .nothing []

/-- Calls one after the other. -/
inductive Run (k : Nat) (room full : Nat → Prop) : List (Entry α) → List (Event α) → List (Entry α) → Prop
  | nil (es : List (Entry α)) : Run k room full es [] es
  | cons {es es' es'' : List (Entry α)} {event : Event α} {events : List (Event α)}
      (hstep : Step k room full es event es') (hrest : Run k room full es' events es'') :
      Run k room full es (event :: events) es''

/-- The elements that were pushed. -/
def accepted (events : List (Event α)) : List α :=
  events.filterMap fun
    | .accepted x => some x
    | _ => none

/-- The elements that were popped. -/
def returned (events : List (Event α)) : List α :=
  events.filterMap fun
    | .returned x => some x
    | _ => none

@[simp] theorem map_item_pass (es : List (Entry α)) :
    (es.map Entry.pass).map Entry.item = es.map Entry.item := by
  rw [List.map_map]
  rfl

/-- What holds of all elements that are pushed holds of all that are in the queue. -/
theorem Step.forall_item {es es' : List (Entry α)} {event : Event α}
    (h : Step k room full es event es') (P : α → Prop) (hes : ∀ e ∈ es, P e.item)
    (hevent : ∀ x, event = .accepted x → P x) : ∀ e ∈ es', P e.item := by
  cases h with
  | accepted x hroom =>
      intro e he
      rcases List.mem_append.mp he with he | he
      · exact hes e he
      · rw [List.mem_singleton.mp he]
        exact hevent x rfl
  | rejected hfull => exact hes
  | @returned before after e₀ hplace hpassed =>
      intro e he
      rcases List.mem_append.mp he with he | he
      · obtain ⟨e', he', rfl⟩ := List.mem_map.mp he
        exact hes e' (List.mem_append_left _ he')
      · exact hes e (List.mem_append_right _ (List.mem_cons_of_mem _ he))
  | nothing => exact hes

section Mono

variable {k' : Nat} {es es' : List (Entry α)}

/-- A smaller `k` allows less. -/
theorem Step.mono {event : Event α} (h : Step k room full es event es') (hk : k ≤ k') :
    Step k' room full es event es' := by
  cases h with
  | accepted x hroom => exact .accepted x hroom
  | rejected hfull => exact .rejected hfull
  | returned hplace hpassed =>
      exact .returned (Nat.lt_of_lt_of_le hplace hk) fun e he => Nat.lt_of_lt_of_le (hpassed e he) hk
  | nothing => exact .nothing

theorem Run.mono {events : List (Event α)} (h : Run k room full es events es') (hk : k ≤ k') :
    Run k' room full es events es' := by
  induction h with
  | nil es => exact .nil es
  | cons hstep hrest ih => exact .cons (hstep.mono hk) ih

end Mono

/-- **What was pushed is what was popped and what is left**, each element as often. -/
theorem Run.perm {es es' : List (Entry α)} {events : List (Event α)}
    (h : Run k room full es events es') :
    (es.map Entry.item ++ accepted events).Perm (returned events ++ es'.map Entry.item) := by
  induction h with
  | nil es => simp [accepted, returned]
  | @cons es es' es'' event events hstep hrest ih =>
      cases hstep with
      | accepted x hroom => simpa [accepted, returned] using ih
      | rejected hfull => simpa [accepted, returned] using ih
      | @returned before after e hplace hpassed =>
          rw [List.map_append, map_item_pass] at ih
          rw [List.map_append, List.map_cons, List.append_assoc, List.cons_append]
          refine List.perm_middle.trans (List.Perm.cons e.item ?_)
          rw [← List.append_assoc]
          exact ih
      | nothing => simpa [accepted, returned] using ih

/-! ## §2 — a queue of segments -/

/-- Segments of `k` places, of which at most `n` are in use: those from number `first` to number `last`.
`taken` elements have been taken from the first one since the last one went on from it. -/
structure Segments (α : Type*) (k n : Nat) where
  first : Nat
  last : Nat
  segment : Nat → List α
  taken : Nat
  first_le : first ≤ last
  last_lt : last < first + n
  /-- Only the segments in use have elements. -/
  outside : ∀ i, i < first ∨ last < i → segment i = []
  length_le : ∀ i, (segment i).length ≤ k
  /-- The segments between the first and the last one are full. -/
  full : ∀ i, first < i → i < last → (segment i).length = k
  first_taken : (segment first).length + taken ≤ k
  /-- While elements are still added to the first segment, none has been taken from it. -/
  untouched : first = last → taken = 0

namespace Segments

variable {n : Nat} (q : Segments α k n)

/-- No segment has elements. -/
def empty (hn : 0 < n) : Segments α k n where
  first := 0
  last := 0
  segment _ := []
  taken := 0
  first_le := Nat.le_refl 0
  last_lt := by omega
  outside _ _ := rfl
  length_le _ := Nat.zero_le k
  full i hfirst hlast := absurd hlast (by omega)
  first_taken := Nat.zero_le k
  untouched _ := rfl

/-- An element is added to the last segment. -/
def put (x : α) (hroom : (q.segment q.last).length < k) : Segments α k n where
  first := q.first
  last := q.last
  segment := Function.update q.segment q.last (q.segment q.last ++ [x])
  taken := q.taken
  first_le := q.first_le
  last_lt := q.last_lt
  outside i hi := by
    have hle := q.first_le
    rw [Function.update_of_ne (by omega)]
    exact q.outside i hi
  length_le i := by
    by_cases hi : i = q.last
    · rw [hi, Function.update_self, List.length_append, List.length_singleton]
      exact hroom
    · rw [Function.update_of_ne hi]
      exact q.length_le i
  full i hfirst hlast := by
    rw [Function.update_of_ne (by omega)]
    exact q.full i hfirst hlast
  first_taken := by
    by_cases hi : q.first = q.last
    · have htaken := q.untouched hi
      rw [hi, Function.update_self, List.length_append, List.length_singleton, htaken]
      exact hroom
    · rw [Function.update_of_ne hi]
      exact q.first_taken
  untouched := q.untouched

/-- The last segment goes on to the next one: it is full, or it is the first one too. -/
def extend (hfits : q.last + 1 < q.first + n)
    (hfull : q.first = q.last ∨ (q.segment q.last).length = k) : Segments α k n where
  first := q.first
  last := q.last + 1
  segment := q.segment
  taken := q.taken
  first_le := Nat.le_succ_of_le q.first_le
  last_lt := hfits
  outside i hi := q.outside i (by omega)
  length_le := q.length_le
  full i hfirst hlast := by
    rcases Nat.lt_or_eq_of_le (Nat.le_of_lt_succ hlast) with hlt | rfl
    · exact q.full i hfirst hlt
    · exact hfull.resolve_left (by omega)
  first_taken := q.first_taken
  untouched h := absurd h (by have := q.first_le; omega)

/-- The first segment goes on to the next one. -/
def advance (hne : q.first ≠ q.last) (hempty : q.segment q.first = []) : Segments α k n where
  first := q.first + 1
  last := q.last
  segment := q.segment
  taken := 0
  first_le := by have := q.first_le; omega
  last_lt := by have := q.last_lt; omega
  outside i hi := by
    by_cases hfirst : i = q.first
    · rw [hfirst, hempty]
    · exact q.outside i (by omega)
  length_le := q.length_le
  full i hfirst hlast := q.full i (by omega) hlast
  first_taken := q.length_le _
  untouched _ := rfl

/-- An element is taken from the first segment, which is no longer the last one. -/
def take (hne : q.first ≠ q.last) {l l' : List α} {x : α} (h : q.segment q.first = l ++ x :: l') :
    Segments α k n where
  first := q.first
  last := q.last
  segment := Function.update q.segment q.first (l ++ l')
  taken := q.taken + 1
  first_le := q.first_le
  last_lt := q.last_lt
  outside i hi := by
    have hle := q.first_le
    rw [Function.update_of_ne (by omega)]
    exact q.outside i hi
  length_le i := by
    by_cases hi : i = q.first
    · have hle := q.length_le q.first
      rw [h, List.length_append, List.length_cons] at hle
      rw [hi, Function.update_self, List.length_append]
      omega
    · rw [Function.update_of_ne hi]
      exact q.length_le i
  full i hfirst hlast := by
    rw [Function.update_of_ne (by omega)]
    exact q.full i hfirst hlast
  first_taken := by
    have hle := q.first_taken
    rw [h, List.length_append, List.length_cons] at hle
    rw [Function.update_self, List.length_append]
    omega
  untouched heq := absurd heq hne

/-! ## §3 — it is a relaxed queue -/

/-- The elements behind the first segment, from the oldest on. -/
def behind : List α := (List.range' (q.first + 1) (q.last - q.first)).flatMap q.segment

/-- The entries are the elements of the segments in use. Only those of the first segment have been
passed, and each of them by no more than have been taken. -/
def Lists (es : List (Entry α)) : Prop :=
  ∃ front back, es = front ++ back ∧ front.map Entry.item = q.segment q.first ∧
    back.map Entry.item = q.behind ∧ (∀ e ∈ front, e.passed ≤ q.taken) ∧ ∀ e ∈ back, e.passed = 0

variable {q} {es : List (Entry α)}

theorem behind_eq_nil (h : q.first = q.last) : q.behind = [] := by
  rw [behind, h, Nat.sub_self]
  rfl

theorem behind_concat (hlt : q.first < q.last) :
    q.behind = (List.range' (q.first + 1) (q.last - q.first - 1)).flatMap q.segment ++
      q.segment q.last := by
  obtain ⟨m, hm⟩ : ∃ m, q.last - q.first = m + 1 := ⟨q.last - q.first - 1, by omega⟩
  rw [behind, hm, List.range'_concat, List.flatMap_append, List.flatMap_singleton, Nat.add_sub_cancel,
    show q.first + 1 + 1 * m = q.last by omega]

theorem behind_cons (hlt : q.first < q.last) :
    q.behind = q.segment (q.first + 1) ++
      (List.range' (q.first + 1 + 1) (q.last - (q.first + 1))).flatMap q.segment := by
  obtain ⟨m, hm⟩ : ∃ m, q.last - q.first = m + 1 := ⟨q.last - q.first - 1, by omega⟩
  rw [behind, hm, List.range'_succ, List.flatMap_cons, show q.last - (q.first + 1) = m by omega]

theorem flatMap_update {f : Nat → List α} {l : List Nat} {i : Nat} (hi : i ∉ l) (xs : List α) :
    l.flatMap (Function.update f i xs) = l.flatMap f := by
  refine List.flatMap_congr fun j hj => Function.update_of_ne ?_ _ _
  rintro rfl
  exact hi hj

theorem lists_empty {hn : 0 < n} : (empty hn : Segments α k n).Lists [] :=
  ⟨[], [], rfl, rfl, rfl, fun _ he => absurd he List.not_mem_nil, fun _ he => absurd he List.not_mem_nil⟩

theorem Lists.put (h : q.Lists es) (x : α) (hroom : (q.segment q.last).length < k) :
    (q.put x hroom).Lists (es ++ [⟨x, 0⟩]) := by
  obtain ⟨front, back, rfl, hfront, hback, hpassed, hzero⟩ := h
  by_cases heq : q.first = q.last
  · have hnil : back = [] := by
      rw [behind_eq_nil heq] at hback
      exact List.map_eq_nil_iff.mp hback
    refine ⟨front ++ [⟨x, 0⟩], [], by rw [hnil, List.append_nil, List.append_nil], ?_, ?_, ?_,
      fun _ he => absurd he List.not_mem_nil⟩
    · show _ = Function.update q.segment q.last _ q.first
      rw [heq, Function.update_self, List.map_append, hfront, heq]
      rfl
    · exact (behind_eq_nil (q := q.put x hroom) heq).symm
    · intro e he
      rcases List.mem_append.mp he with he | he
      · exact hpassed e he
      · rw [List.mem_singleton.mp he]
        exact Nat.zero_le _
  · have hlt : q.first < q.last := Nat.lt_of_le_of_ne q.first_le heq
    refine ⟨front, back ++ [⟨x, 0⟩], List.append_assoc .., ?_, ?_, hpassed, ?_⟩
    · exact hfront.trans (Function.update_of_ne heq _ _).symm
    · rw [behind_concat (q := q.put x hroom) hlt, List.map_append, hback, behind_concat hlt]
      show _ = (List.range' (q.first + 1) (q.last - q.first - 1)).flatMap
        (Function.update q.segment q.last _) ++ Function.update q.segment q.last _ q.last
      rw [Function.update_self, flatMap_update, List.append_assoc]
      · rfl
      · rw [List.mem_range'_1]
        omega
    · intro e he
      rcases List.mem_append.mp he with he | he
      · exact hzero e he
      · rw [List.mem_singleton.mp he]

theorem Lists.extend (h : q.Lists es) (hfits : q.last + 1 < q.first + n)
    (hfull : q.first = q.last ∨ (q.segment q.last).length = k) : (q.extend hfits hfull).Lists es := by
  obtain ⟨front, back, rfl, hfront, hback, hpassed, hzero⟩ := h
  refine ⟨front, back, rfl, hfront, ?_, hpassed, hzero⟩
  have hlast : q.segment (q.last + 1) = [] := q.outside _ (.inr (Nat.lt_succ_self _))
  have hle := q.first_le
  rw [behind_concat (q := q.extend hfits hfull) (Nat.lt_succ_of_le hle)]
  show _ = (List.range' (q.first + 1) (q.last + 1 - q.first - 1)).flatMap q.segment ++
    q.segment (q.last + 1)
  rw [hlast, List.append_nil, hback, behind, show q.last + 1 - q.first - 1 = q.last - q.first by omega]

theorem Lists.advance (h : q.Lists es) (hne : q.first ≠ q.last) (hempty : q.segment q.first = []) :
    (q.advance hne hempty).Lists es := by
  obtain ⟨front, back, rfl, hfront, hback, hpassed, hzero⟩ := h
  have hnil : front = [] := by
    rw [hempty] at hfront
    exact List.map_eq_nil_iff.mp hfront
  rw [behind_cons (Nat.lt_of_le_of_ne q.first_le hne)] at hback
  obtain ⟨front', back', rfl, hfront', hback'⟩ := List.map_eq_append_iff.mp hback
  refine ⟨front', back', by rw [hnil]; rfl, hfront', hback', fun e he => ?_, fun e he => ?_⟩
  · exact Nat.le_of_eq (hzero e (List.mem_append_left _ he))
  · exact hzero e (List.mem_append_right _ he)

/-- **An element of the first segment may be returned.** The elements before it in the segment are those
it passes; with those already taken they are fewer than `k`. -/
theorem Lists.take (h : q.Lists es) (hne : q.first ≠ q.last) {l l' : List α} {x : α}
    (hx : q.segment q.first = l ++ x :: l') :
    ∃ es', Step k room full es (.returned x) es' ∧ (q.take hne hx).Lists es' := by
  obtain ⟨front, back, rfl, hfront, hback, hpassed, hzero⟩ := h
  have hlength := q.first_taken
  rw [hx] at hfront
  rw [hx, List.length_append, List.length_cons] at hlength
  obtain ⟨before, rest, rfl, hbefore, hrest⟩ := List.map_eq_append_iff.mp hfront
  obtain ⟨e, after, rfl, rfl, hafter⟩ := List.map_eq_cons_iff.mp hrest
  have hbefore_length : before.length = l.length := by rw [← hbefore, List.length_map]
  refine ⟨before.map Entry.pass ++ (after ++ back), ?_, before.map Entry.pass ++ after, back, ?_, ?_, ?_,
    fun e' he' => ?_, hzero⟩
  · rw [List.append_assoc, List.cons_append]
    refine Step.returned (by omega) fun e' he' => ?_
    have hle := hpassed e' (List.mem_append_left _ he')
    have hpos := List.length_pos_of_mem he'
    show e'.passed + 1 < k
    omega
  · exact (List.append_assoc ..).symm
  · show _ = Function.update q.segment q.first (l ++ l') q.first
    rw [Function.update_self, List.map_append, map_item_pass, hbefore, hafter]
  · rw [hback, behind]
    show _ = (List.range' (q.first + 1) (q.last - q.first)).flatMap
      (Function.update q.segment q.first (l ++ l'))
    rw [flatMap_update]
    rw [List.mem_range'_1]
    omega
  · show e'.passed ≤ q.taken + 1
    rcases List.mem_append.mp he' with he' | he'
    · obtain ⟨e'', he'', rfl⟩ := List.mem_map.mp he'
      exact Nat.succ_le_succ (hpassed e'' (List.mem_append_left _ he''))
    · exact Nat.le_succ_of_le
        (hpassed e' (List.mem_append_right _ (List.mem_cons_of_mem _ he')))

theorem Lists.eq_nil (h : q.Lists es) (heq : q.first = q.last) (hempty : q.segment q.first = []) :
    es = [] := by
  obtain ⟨front, back, rfl, hfront, hback, -, -⟩ := h
  rw [hempty] at hfront
  rw [behind_eq_nil heq] at hback
  rw [List.map_eq_nil_iff.mp hfront, List.map_eq_nil_iff.mp hback]
  rfl

theorem length_flatMap_le {f : Nat → List α} (hf : ∀ i, (f i).length ≤ k) (l : List Nat) :
    (l.flatMap f).length ≤ l.length * k := by
  induction l with
  | nil => exact Nat.zero_le _
  | cons i l ih =>
      have hi := hf i
      rw [List.flatMap_cons, List.length_append, List.length_cons, Nat.succ_mul]
      omega

theorem length_flatMap_eq {f : Nat → List α} {l : List Nat} (hf : ∀ i ∈ l, (f i).length = k) :
    (l.flatMap f).length = l.length * k := by
  induction l with
  | nil => exact (Nat.zero_mul k).symm
  | cons i l ih =>
      rw [List.flatMap_cons, List.length_append, List.length_cons, Nat.succ_mul,
        hf i List.mem_cons_self, ih fun j hj => hf j (List.mem_cons_of_mem _ hj), Nat.add_comm]

theorem Lists.length_eq (h : q.Lists es) :
    es.length = (q.segment q.first).length + q.behind.length := by
  obtain ⟨front, back, rfl, hfront, hback, -, -⟩ := h
  rw [List.length_append, ← hfront, ← hback, List.length_map, List.length_map]

/-- While the last segment has room there are fewer elements than places. -/
theorem Lists.length_lt (h : q.Lists es) (hroom : (q.segment q.last).length < k) :
    es.length < n * k := by
  have hle := q.first_le
  have hlt := q.last_lt
  rw [h.length_eq]
  by_cases heq : q.first = q.last
  · have hone : 1 * k ≤ n * k := Nat.mul_le_mul_right k (by omega)
    rw [behind_eq_nil heq, List.length_nil, heq]
    omega
  · have hfirst := q.length_le q.first
    have hmid := length_flatMap_le q.length_le (List.range' (q.first + 1) (q.last - q.first - 1))
    have hsum : (q.last - q.first - 1 + 2) * k ≤ n * k := Nat.mul_le_mul_right k (by omega)
    rw [behind_concat (by omega), List.length_append]
    rw [List.length_range'] at hmid
    rw [Nat.add_mul] at hsum
    omega

/-- When all segments are in use and the last one is full, then all behind the first one are. -/
theorem Lists.le_length (h : q.Lists es) (hall : q.last + 1 = q.first + n)
    (hfull : (q.segment q.last).length = k) (hne : q.segment q.first ≠ []) :
    (n - 1) * k + 1 ≤ es.length := by
  have hpos := List.length_pos_iff.mpr hne
  have hbehind : q.behind.length = (n - 1) * k := by
    rw [behind, length_flatMap_eq, List.length_range', show q.last - q.first = n - 1 by omega]
    intro i hi
    rw [List.mem_range'_1] at hi
    by_cases hlast : i = q.last
    · rw [hlast, hfull]
    · exact q.full i (by omega) (by omega)
  rw [h.length_eq, hbehind]
  omega

end Segments

end RelaxedConcurrentFifo.Lib.RelaxedQueues
