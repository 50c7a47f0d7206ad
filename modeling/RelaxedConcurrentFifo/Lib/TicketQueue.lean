/-
# RelaxedConcurrentFifo.Lib.TicketQueue — queues whose calls draw places in a line

Many concurrent queues work on places in a line. An enqueue draws a place behind all that were drawn
before it, and tries to put its item there. A dequeue claims a place to look at, also further back
every time, and takes what it finds or, when it finds nothing, spoils the place for whoever drew it;
then both try again.

The log of such a queue lists what its calls have done, one entry after the other. `Allowed` says which
entry may come next: the rules a queue has to keep. They do not fix the order in which items are put
and taken, and an item that was drawn first may well be put last. Still every log that keeps the rules
is the log of a FIFO queue: `Legal.linearizable`. An enqueue takes effect when it draws the place that
it will succeed at, which only the future shows, and a dequeue when its place is both drawn and
claimed.
-/
import RelaxedConcurrentFifo.Lib.Linearizability
import Mathlib.Order.Lattice

namespace RelaxedConcurrentFifo.Lib.TicketQueue

open RelaxedConcurrentFifo.Lib.Runs
open RelaxedConcurrentFifo.Lib.Linearizability

variable {P α : Type*}

/-! ## §1 — the sequential queue -/

inductive QueueOp (α : Type*) where
  | enqueue (a : α)
  | dequeue
  deriving DecidableEq, Repr

/-- The sequential queue: a list, with its first element at the front. -/
def fifo (q : List α) : QueueOp α → List α × Option α
  | .enqueue a => (q ++ [a], none)
  | .dequeue => (q.tail, q.head?)

/-! ## §2 — logs -/

/-- What a call has done. A call is named by a number. -/
inductive Entry (P α : Type*) where
  /-- The call `c` of `enqueue` with item `a` begins. -/
  | enqueue (c : Nat) (a : α)
  /-- It draws a place. -/
  | drawn (c : Nat) (p : P)
  /-- It puts its item there. -/
  | put (c : Nat) (p : P)
  | enqueued (c : Nat)
  /-- The call `d` of `dequeue` begins. -/
  | dequeue (d : Nat)
  /-- It claims a place. -/
  | claimed (d : Nat) (p : P)
  /-- It takes what stands there, or spoils the place. -/
  | taken (d : Nat) (p : P) (a : Option α)
  | dequeued (d : Nat) (a : Option α)
  deriving DecidableEq, Repr

/-- The calls that the log shows from outside. -/
def view : Entry P α → Option (Event (QueueOp α) (Option α))
  | .enqueue c a => some (.call c (.enqueue a))
  | .enqueued c => some (.ret c none)
  | .dequeue d => some (.call d .dequeue)
  | .dequeued d a => some (.ret d a)
  | _ => none

/-- Every place that has been drawn has been claimed. -/
def AllClaimed (w : List (Entry P α)) : Prop :=
  ∀ c p, .drawn c p ∈ w → ∃ d, .claimed d p ∈ w

section Allowed

variable [LT P]

/-- The entry that may follow the log `w`. Places are drawn, and claimed, further and further back; an
item is put only where its call has drawn and no one has taken; no claim leaves an item behind; and a
dequeue returns nothing only if, at some moment since it began, every drawn place was claimed. -/
def Allowed (w : List (Entry P α)) : Entry P α → Prop
  | .enqueue c _ => c = w.length
  | .drawn c p => (∃ a, .enqueue c a ∈ w) ∧ (∀ q, .put c q ∉ w) ∧ ∀ c' q, .drawn c' q ∈ w → q < p
  | .put c p => .drawn c p ∈ w ∧ (∀ q, .put c q ∉ w) ∧ (∀ d r, .taken d p r ∉ w) ∧
      ∀ d q, .claimed d q ∈ w → p < q → ∃ d', .claimed d' p ∈ w
  | .enqueued c => ∃ p, .put c p ∈ w
  | .dequeue d => d = w.length
  | .claimed d p => .dequeue d ∈ w ∧ (∀ r, .dequeued d r ∉ w) ∧
      (∀ q, .claimed d q ∈ w → .taken d q none ∈ w) ∧ (∀ d' q, .claimed d' q ∈ w → q < p) ∧
      ∀ c q, .put c q ∈ w → q < p → ∃ d', .claimed d' q ∈ w
  | .taken d p r => .claimed d p ∈ w ∧ (∀ r', .taken d p r' ∉ w) ∧
      ∀ a, r = some a ↔ ∃ c, .put c p ∈ w ∧ .enqueue c a ∈ w
  | .dequeued d (some a) => (∀ r, .dequeued d r ∉ w) ∧ ∃ p, .taken d p (some a) ∈ w
  | .dequeued d none => (∀ r, .dequeued d r ∉ w) ∧ .dequeue d ∈ w ∧
      (∀ q, .claimed d q ∈ w → .taken d q none ∈ w) ∧
      ∃ k, d < k ∧ k ≤ w.length ∧ AllClaimed (w.take k)

/-- A log that keeps the rules at every entry. -/
def Legal (w : List (Entry P α)) : Prop := ∀ k (hk : k < w.length), Allowed (w.take k) w[k]

theorem legal_nil : Legal ([] : List (Entry P α)) := fun _ hk => absurd hk (Nat.not_lt_zero _)

theorem legal_concat {w : List (Entry P α)} {e : Entry P α} :
    Legal (w ++ [e]) ↔ Legal w ∧ Allowed w e := forall_steps_concat w e

theorem Legal.allowed {w : List (Entry P α)} (hw : Legal w) {k : Nat} {e : Entry P α}
    (h : w[k]? = some e) : Allowed (w.take k) e := by
  obtain ⟨hk, rfl⟩ := List.getElem?_eq_some_iff.mp h
  exact hw k hk

end Allowed

theorem mem_take {w : List (Entry P α)} {k : Nat} {e : Entry P α} :
    e ∈ w.take k ↔ ∃ j < k, w[j]? = some e := by
  rw [List.mem_iff_getElem?]
  constructor
  · rintro ⟨j, hj⟩
    rw [List.getElem?_take] at hj
    by_cases hjk : j < k
    · rw [if_pos hjk] at hj
      exact ⟨j, hjk, hj⟩
    · rw [if_neg hjk] at hj
      cases hj
  · rintro ⟨j, hjk, hj⟩
    exact ⟨j, by rw [List.getElem?_take, if_pos hjk, hj]⟩

theorem mem_of_mem_take {w : List (Entry P α)} {k : Nat} {e : Entry P α} (h : e ∈ w.take k) :
    e ∈ w := List.mem_of_mem_take h

theorem mem_take_succ {w : List (Entry P α)} {k : Nat} {e x : Entry P α} (hx : w[k]? = some x) :
    e ∈ w.take (k + 1) ↔ e ∈ w.take k ∨ e = x := by
  obtain ⟨hk, rfl⟩ := List.getElem?_eq_some_iff.mp hx
  rw [List.take_succ_eq_append_getElem hk, List.mem_append, List.mem_singleton]

/-! ## §3 — what the rules imply -/

section Linear

variable [LinearOrder P] {w : List (Entry P α)} (hw : Legal w)
include hw

theorem call_index {id k : Nat} {op : QueueOp α} (h : (w[k]?).bind view = some (.call id op)) :
    id = k := by
  obtain ⟨e, he, hview⟩ := Option.bind_eq_some_iff.mp h
  have hk : k ≤ w.length := Nat.le_of_lt (List.getElem?_eq_some_iff.mp he).1
  have hallowed := hw.allowed he
  cases e with
  | enqueue c a =>
      obtain ⟨rfl, -⟩ : c = id ∧ QueueOp.enqueue a = op := by simpa [view] using hview
      rwa [Allowed, List.length_take, Nat.min_eq_left hk] at hallowed
  | dequeue d =>
      obtain ⟨rfl, -⟩ : d = id ∧ QueueOp.dequeue = op := by simpa [view] using hview
      rwa [Allowed, List.length_take, Nat.min_eq_left hk] at hallowed
  | _ => simp [view] at hview

theorem enqueue_index {c : Nat} {a : α} (h : .enqueue c a ∈ w) : w[c]? = some (.enqueue c a) := by
  obtain ⟨k, hk⟩ := List.mem_iff_getElem?.mp h
  obtain rfl : c = k := call_index hw
    (show (w[k]?).bind view = some (.call c (.enqueue a)) by rw [hk]; rfl)
  exact hk

theorem dequeue_index {d : Nat} (h : .dequeue d ∈ w) : w[d]? = some (.dequeue d) := by
  obtain ⟨k, hk⟩ := List.mem_iff_getElem?.mp h
  obtain rfl : d = k := call_index hw
    (show (w[k]?).bind view = some (.call d .dequeue) by rw [hk]; rfl)
  exact hk

theorem enqueue_item {c : Nat} {a b : α} (ha : .enqueue c a ∈ w) (hb : .enqueue c b ∈ w) :
    a = b := by
  have h := (enqueue_index hw ha).symm.trans (enqueue_index hw hb)
  simpa using h

/-- A call is not both an enqueue and a dequeue. -/
theorem enqueue_ne_dequeue {c : Nat} {a : α} (hc : .enqueue c a ∈ w) (hd : .dequeue c ∈ w) :
    False := by
  have h := (enqueue_index hw hc).symm.trans (dequeue_index hw hd)
  simp at h

theorem drawn_lt {c c' j k : Nat} {p q : P} (hj : w[j]? = some (.drawn c p))
    (hk : w[k]? = some (.drawn c' q)) (hjk : j < k) : p < q :=
  (hw.allowed hk).2.2 c p (mem_take.mpr ⟨j, hjk, hj⟩)

theorem drawn_index {c c' j k : Nat} {p : P} (hj : w[j]? = some (.drawn c p))
    (hk : w[k]? = some (.drawn c' p)) : j = k := by
  rcases Nat.lt_trichotomy j k with h | h | h
  · exact absurd (drawn_lt hw hj hk h) (lt_irrefl p)
  · exact h
  · exact absurd (drawn_lt hw hk hj h) (lt_irrefl p)

theorem drawn_call {c c' : Nat} {p : P} (h : .drawn c p ∈ w) (h' : .drawn c' p ∈ w) : c = c' := by
  obtain ⟨j, hj⟩ := List.mem_iff_getElem?.mp h
  obtain ⟨k, hk⟩ := List.mem_iff_getElem?.mp h'
  obtain rfl := drawn_index hw hj hk
  have h := hj.symm.trans hk
  simpa using h

theorem claimed_lt {d d' j k : Nat} {p q : P} (hj : w[j]? = some (.claimed d p))
    (hk : w[k]? = some (.claimed d' q)) (hjk : j < k) : p < q :=
  (hw.allowed hk).2.2.2.1 d p (mem_take.mpr ⟨j, hjk, hj⟩)

theorem claimed_index {d d' j k : Nat} {p : P} (hj : w[j]? = some (.claimed d p))
    (hk : w[k]? = some (.claimed d' p)) : j = k := by
  rcases Nat.lt_trichotomy j k with h | h | h
  · exact absurd (claimed_lt hw hj hk h) (lt_irrefl p)
  · exact h
  · exact absurd (claimed_lt hw hk hj h) (lt_irrefl p)

theorem claimed_call {d d' : Nat} {p : P} (h : .claimed d p ∈ w) (h' : .claimed d' p ∈ w) :
    d = d' := by
  obtain ⟨j, hj⟩ := List.mem_iff_getElem?.mp h
  obtain ⟨k, hk⟩ := List.mem_iff_getElem?.mp h'
  obtain rfl := claimed_index hw hj hk
  have h := hj.symm.trans hk
  simpa using h

/-- An item that is put was drawn for before, and called with before that. -/
theorem put_drawn {c k : Nat} {p : P} (h : w[k]? = some (.put c p)) :
    ∃ j < k, w[j]? = some (.drawn c p) ∧ ∃ a, ∃ i < j, w[i]? = some (.enqueue c a) := by
  obtain ⟨j, hjk, hj⟩ := mem_take.mp (hw.allowed h).1
  obtain ⟨a, ha⟩ := (hw.allowed hj).1
  exact ⟨j, hjk, hj, a, mem_take.mp ha⟩

theorem put_place {c : Nat} {p q : P} (hp : .put c p ∈ w) (hq : .put c q ∈ w) : p = q := by
  obtain ⟨j, hj⟩ := List.mem_iff_getElem?.mp hp
  obtain ⟨k, hk⟩ := List.mem_iff_getElem?.mp hq
  rcases Nat.lt_trichotomy j k with h | h | h
  · exact absurd (mem_take.mpr ⟨j, h, hj⟩) ((hw.allowed hk).2.1 p)
  · subst h
    have h := hj.symm.trans hk
    simpa using h
  · exact absurd (mem_take.mpr ⟨k, h, hk⟩) ((hw.allowed hj).2.1 q)

theorem put_call {c c' : Nat} {p : P} (h : .put c p ∈ w) (h' : .put c' p ∈ w) : c = c' := by
  obtain ⟨j, hj⟩ := List.mem_iff_getElem?.mp h
  obtain ⟨k, hk⟩ := List.mem_iff_getElem?.mp h'
  obtain ⟨i, -, hi, -⟩ := put_drawn hw hj
  obtain ⟨i', -, hi', -⟩ := put_drawn hw hk
  exact drawn_call hw (List.mem_of_getElem? hi) (List.mem_of_getElem? hi')

/-- Where an item is put at any time, no one takes nothing. -/
theorem not_taken_none {c d : Nat} {p : P} (hput : .put c p ∈ w) : .taken d p none ∉ w := by
  intro htaken
  obtain ⟨j, hj⟩ := List.mem_iff_getElem?.mp hput
  obtain ⟨k, hk⟩ := List.mem_iff_getElem?.mp htaken
  rcases Nat.lt_trichotomy j k with h | h | h
  · obtain ⟨-, -, -, a, i, hi, ha⟩ := put_drawn hw hj
    have hput : .put c p ∈ w.take k := mem_take.mpr ⟨j, h, hj⟩
    have hcall : .enqueue c a ∈ w.take k := by
      obtain ⟨j', hj', -, b, i', hi', hb⟩ := put_drawn hw hj
      obtain rfl := enqueue_item hw (List.mem_of_getElem? ha) (List.mem_of_getElem? hb)
      exact mem_take.mpr ⟨i', by omega, hb⟩
    have hnone := ((hw.allowed hk).2.2 a).mpr ⟨c, hput, hcall⟩
    cases hnone
  · subst h
    have h := hj.symm.trans hk
    simp at h
  · exact (hw.allowed hj).2.2.1 d none (mem_take.mpr ⟨k, h, hk⟩)

/-- A dequeue finds an item at one of its places at most. -/
theorem claimed_place {c c' d : Nat} {p q : P} (hp : .claimed d p ∈ w) (hq : .claimed d q ∈ w)
    (hcp : .put c p ∈ w) (hcq : .put c' q ∈ w) : p = q := by
  obtain ⟨j, hj⟩ := List.mem_iff_getElem?.mp hp
  obtain ⟨k, hk⟩ := List.mem_iff_getElem?.mp hq
  rcases Nat.lt_trichotomy j k with h | h | h
  · have htaken := (hw.allowed hk).2.2.1 p (mem_take.mpr ⟨j, h, hj⟩)
    exact absurd (mem_of_mem_take htaken) (not_taken_none hw hcp)
  · subst h
    have h := hj.symm.trans hk
    simpa using h
  · have htaken := (hw.allowed hj).2.2.1 q (mem_take.mpr ⟨k, h, hk⟩)
    exact absurd (mem_of_mem_take htaken) (not_taken_none hw hcq)

/-- **Claims leave no item behind**, put before or after them. -/
theorem claimed_below {c d j : Nat} {p q : P} (hj : w[j]? = some (.claimed d q))
    (hput : .put c p ∈ w) (hpq : p < q) : ∃ d', ∃ i < j, w[i]? = some (.claimed d' p) := by
  obtain ⟨k, hk⟩ := List.mem_iff_getElem?.mp hput
  rcases Nat.lt_trichotomy k j with h | h | h
  · obtain ⟨d', hd'⟩ := (hw.allowed hj).2.2.2.2 c p (mem_take.mpr ⟨k, h, hk⟩) hpq
    exact ⟨d', mem_take.mp hd'⟩
  · subst h
    have h := hj.symm.trans hk
    simp at h
  · obtain ⟨d', hd'⟩ := (hw.allowed hk).2.2.2 d q (mem_take.mpr ⟨j, h, hj⟩) hpq
    obtain ⟨i, -, hi⟩ := mem_take.mp hd'
    refine ⟨d', i, ?_, hi⟩
    rcases Nat.lt_trichotomy i j with h | h | h
    · exact h
    · subst h
      have h := hi.symm.trans hj
      simp only [Option.some.injEq, Entry.claimed.injEq] at h
      exact absurd hpq (by rw [h.2]; exact lt_irrefl _)
    · exact absurd hpq (lt_asymm (claimed_lt hw hj hi h))

/-- A dequeue that has found an item does not return nothing. -/
theorem not_dequeued_none {c d : Nat} {p : P} (hput : .put c p ∈ w) (hclaimed : .claimed d p ∈ w) :
    .dequeued d none ∉ w := by
  intro hret
  obtain ⟨j, hj⟩ := List.mem_iff_getElem?.mp hclaimed
  obtain ⟨k, hk⟩ := List.mem_iff_getElem?.mp hret
  rcases Nat.lt_trichotomy j k with h | h | h
  · have htaken := (hw.allowed hk).2.2.1 p (mem_take.mpr ⟨j, h, hj⟩)
    exact not_taken_none hw hput (mem_of_mem_take htaken)
  · subst h
    have h := hj.symm.trans hk
    simp at h
  · exact (hw.allowed hj).2.1 none (mem_take.mpr ⟨k, h, hk⟩)

theorem dequeued_index {d j k : Nat} {r r' : Option α} (hj : w[j]? = some (.dequeued d r))
    (hk : w[k]? = some (.dequeued d r')) : j = k := by
  have hone : ∀ {i i' : Nat} {s s' : Option α}, w[i]? = some (.dequeued d s) →
      w[i']? = some (.dequeued d s') → ¬ i < i' := by
    intro i i' s s' hi hi' hlt
    have hno : ∀ r, .dequeued d r ∉ w.take i' := by
      cases s' with
      | none => exact (hw.allowed hi').1
      | some a => exact (hw.allowed hi').1
    exact hno s (mem_take.mpr ⟨i, hlt, hi⟩)
  have h₁ := hone hj hk
  have h₂ := hone hk hj
  omega

end Linear

/-! ## §4 — when the calls take effect -/

section Points

variable (w : List (Entry P α))

/-- Moment `k` is one at which the dequeue `d`, which returns nothing, may take effect. -/
def EmptyAt (d k : Nat) : Prop :=
  d < k ∧ AllClaimed (w.take k) ∧ ∃ i, k ≤ i ∧ w[i]? = some (.dequeued d none)

open Classical in
/-- The moment chosen for it. -/
noncomputable def emptyMoment (d : Nat) : Option Nat :=
  if h : ∃ k, EmptyAt w d k then some h.choose else none

/-- The enqueue with item `a` puts it at place `p`, which it draws with entry `k`. -/
def EnqueueAt (k c : Nat) (p : P) (a : α) : Prop :=
  w[k]? = some (.drawn c p) ∧ .put c p ∈ w ∧ .enqueue c a ∈ w

/-- The place `p` of the dequeue `d`, at which `a` is put, is drawn and claimed with entry `k`. -/
def DequeueAt (k d : Nat) (p : P) (a : α) : Prop :=
  ∃ c i j, EnqueueAt w i c p a ∧ w[j]? = some (.claimed d p) ∧ k = max i j

open Classical in
/-- The item that stands, or will stand, at place `p` if it is drawn before entry `k`. -/
noncomputable def itemAt (k : Nat) (p : P) : Option (Nat × α) :=
  if h : ∃ x : Nat × α, ∃ i < k, EnqueueAt w i x.1 p x.2 then some h.choose else none

open Classical in
/-- The dequeue that has claimed place `p` before entry `k`. -/
noncomputable def claimAt (k : Nat) (p : P) : Option Nat :=
  if h : ∃ d, .claimed d p ∈ w.take k then some h.choose else none

/-- The calls that take effect with entry `k`. -/
noncomputable def effectsOf (k : Nat) : Entry P α → List (Effect (QueueOp α) (Option α))
  | .drawn _ p => (itemAt w (k + 1) p).toList.flatMap fun x =>
      ⟨x.1, .enqueue x.2, none⟩ :: (claimAt w k p).toList.map fun d => ⟨d, .dequeue, some x.2⟩
  | .claimed d p => (itemAt w k p).toList.map fun x => ⟨d, .dequeue, some x.2⟩
  | _ => []

open Classical in
/-- The calls that find the queue empty just before entry `k`. -/
noncomputable def emptyEffects (k : Nat) : List (Effect (QueueOp α) (Option α)) :=
  ((List.range w.length).filter fun d => emptyMoment w d = some k).map fun d =>
    ⟨d, .dequeue, none⟩

noncomputable def chunk (k : Nat) : List (Effect (QueueOp α) (Option α)) :=
  emptyEffects w k ++ (w[k]?).toList.flatMap (effectsOf w k)

end Points

theorem emptyMoment_spec {w : List (Entry P α)} {d k : Nat} (h : emptyMoment w d = some k) : EmptyAt w d k := by
  unfold emptyMoment at h
  split at h
  · rename_i hex
    obtain rfl := Option.some.inj h
    exact hex.choose_spec
  · cases h

section Linear

variable [LinearOrder P] {w : List (Entry P α)} (hw : Legal w)
include hw

theorem itemAt_eq_some {k : Nat} {p : P} {x : Nat × α} :
    itemAt w k p = some x ↔ ∃ i < k, EnqueueAt w i x.1 p x.2 := by
  unfold itemAt
  constructor
  · intro h
    split at h
    · rename_i hex
      obtain rfl := Option.some.inj h
      exact hex.choose_spec
    · cases h
  · rintro ⟨i, hi, hx⟩
    have hex : ∃ x : Nat × α, ∃ i < k, EnqueueAt w i x.1 p x.2 := ⟨x, i, hi, hx⟩
    rw [dif_pos hex]
    obtain ⟨i', -, hx'⟩ := hex.choose_spec
    have hc := put_call hw hx'.2.1 hx.2.1
    refine congrArg some (Prod.ext hc ?_)
    exact enqueue_item hw hx'.2.2 (hc ▸ hx.2.2)

theorem claimAt_eq_some {k d : Nat} {p : P} :
    claimAt w k p = some d ↔ .claimed d p ∈ w.take k := by
  unfold claimAt
  constructor
  · intro h
    split at h
    · rename_i hex
      obtain rfl := Option.some.inj h
      exact hex.choose_spec
    · cases h
  · intro hd
    have hex : ∃ d, .claimed d p ∈ w.take k := ⟨d, hd⟩
    rw [dif_pos hex]
    exact congrArg some
      (claimed_call hw (mem_of_mem_take hex.choose_spec) (mem_of_mem_take hd))

/-- The three kinds of calls that take effect at a moment. -/
theorem mem_chunk {k : Nat} {e : Effect (QueueOp α) (Option α)} :
    e ∈ chunk w k ↔ (∃ d, emptyMoment w d = some k ∧ e = ⟨d, .dequeue, none⟩) ∨
      (∃ c p a, EnqueueAt w k c p a ∧ e = ⟨c, .enqueue a, none⟩) ∨
      ∃ d p a, DequeueAt w k d p a ∧ e = ⟨d, .dequeue, some a⟩ := by
  have hempty : e ∈ emptyEffects w k ↔
      ∃ d, emptyMoment w d = some k ∧ e = ⟨d, .dequeue, none⟩ := by
    simp only [emptyEffects, List.mem_map, List.mem_filter, List.mem_range, decide_eq_true_eq]
    constructor
    · rintro ⟨d, ⟨-, hd⟩, rfl⟩
      exact ⟨d, hd, rfl⟩
    · rintro ⟨d, hd, rfl⟩
      obtain ⟨hdk, -, i, hki, hi⟩ := emptyMoment_spec hd
      have := (List.getElem?_eq_some_iff.mp hi).1
      exact ⟨d, ⟨by omega, hd⟩, rfl⟩
  rw [chunk, List.mem_append, hempty]
  refine or_congr Iff.rfl ⟨fun h => ?_, fun h => ?_⟩
  · obtain ⟨x, hx, he⟩ := List.mem_flatMap.mp h
    rw [Option.mem_toList] at hx
    have hx : w[k]? = some x := hx
    cases x with
    | drawn c p =>
        obtain ⟨y, hy, he⟩ := List.mem_flatMap.mp he
        obtain ⟨i, hi, hput⟩ := (itemAt_eq_some hw).mp (Option.mem_toList.mp hy)
        obtain rfl := drawn_index hw hput.1 hx
        rcases List.mem_cons.mp he with rfl | he
        · exact .inl ⟨_, _, _, hput, rfl⟩
        · obtain ⟨d, hd, rfl⟩ := List.mem_map.mp he
          obtain ⟨j, hj, hclaim⟩ := mem_take.mp ((claimAt_eq_some hw).mp (Option.mem_toList.mp hd))
          exact .inr ⟨_, _, _, ⟨_, _, _, hput, hclaim, (Nat.max_eq_left (Nat.le_of_lt hj)).symm⟩,
            rfl⟩
    | claimed d p =>
        obtain ⟨y, hy, rfl⟩ := List.mem_map.mp he
        obtain ⟨i, hi, hput⟩ := (itemAt_eq_some hw).mp (Option.mem_toList.mp hy)
        exact .inr ⟨_, _, _, ⟨_, _, _, hput, hx, (Nat.max_eq_right (Nat.le_of_lt hi)).symm⟩, rfl⟩
    | _ => cases he
  · rcases h with ⟨c, p, a, h, rfl⟩ | ⟨d, p, a, ⟨c, i, j, h, hj, rfl⟩, rfl⟩
    · refine List.mem_flatMap.mpr ⟨_, Option.mem_toList.mpr h.1, ?_⟩
      refine List.mem_flatMap.mpr ⟨(c, a), Option.mem_toList.mpr ?_, List.mem_cons_self⟩
      exact (itemAt_eq_some hw).mpr ⟨k, Nat.lt_succ_self k, h⟩
    · rcases Nat.lt_trichotomy i j with hij | hij | hij
      · rw [Nat.max_eq_right (Nat.le_of_lt hij)]
        refine List.mem_flatMap.mpr ⟨_, Option.mem_toList.mpr hj, ?_⟩
        exact List.mem_map.mpr ⟨(c, a), Option.mem_toList.mpr
          ((itemAt_eq_some hw).mpr ⟨i, hij, h⟩), rfl⟩
      · subst hij
        have h := h.1.symm.trans hj
        simp at h
      · rw [Nat.max_eq_left (Nat.le_of_lt hij)]
        refine List.mem_flatMap.mpr ⟨_, Option.mem_toList.mpr h.1, ?_⟩
        refine List.mem_flatMap.mpr ⟨(c, a), Option.mem_toList.mpr
          ((itemAt_eq_some hw).mpr ⟨i, Nat.lt_succ_self i, h⟩), List.mem_cons_of_mem _ ?_⟩
        exact List.mem_map.mpr ⟨d, Option.mem_toList.mpr
          ((claimAt_eq_some hw).mpr (mem_take.mpr ⟨j, hij, hj⟩)), rfl⟩

theorem claimed_dequeue {d j : Nat} {p : P} (hj : w[j]? = some (.claimed d p)) :
    ∃ i < j, w[i]? = some (.dequeue d) := mem_take.mp (hw.allowed hj).1

theorem dequeue_of_emptyMoment {d k : Nat} (h : emptyMoment w d = some k) : .dequeue d ∈ w := by
  obtain ⟨-, -, i, -, hi⟩ := emptyMoment_spec h
  exact mem_of_mem_take (hw.allowed hi).2.1

/-- No call takes effect twice. -/
theorem effect_unique {k k' : Nat} {e e' : Effect (QueueOp α) (Option α)} (he : e ∈ chunk w k)
    (he' : e' ∈ chunk w k') (hid : e.id = e'.id) : k = k' ∧ e = e' := by
  -- an enqueue and a dequeue have different names
  have hkinds : ∀ {k k' c d : Nat} {p : P} {a : α}, EnqueueAt w k c p a →
      (emptyMoment w d = some k' ∨ ∃ q b, DequeueAt w k' d q b) → c ≠ d := by
    rintro k k' c d p a hc hd rfl
    refine enqueue_ne_dequeue hw hc.2.2 ?_
    rcases hd with hd | ⟨q, b, -, -, j, -, hj, -⟩
    · exact dequeue_of_emptyMoment hw hd
    · exact mem_of_mem_take (hw.allowed hj).1
  -- a dequeue that finds an item does not return nothing
  have hfound : ∀ {k k' d : Nat} {p : P} {a : α}, DequeueAt w k d p a →
      emptyMoment w d ≠ some k' := by
    rintro k k' d p a ⟨c, i, j, hc, hj, -⟩ hd
    obtain ⟨-, -, i', -, hi'⟩ := emptyMoment_spec hd
    exact not_dequeued_none hw hc.2.1 (List.mem_of_getElem? hj) (List.mem_of_getElem? hi')
  rcases (mem_chunk hw).mp he with ⟨d, hd, rfl⟩ | ⟨c, p, a, hc, rfl⟩ | ⟨d, p, a, hd, rfl⟩ <;>
  rcases (mem_chunk hw).mp he' with ⟨d', hd', rfl⟩ | ⟨c', p', a', hc', rfl⟩ | ⟨d', p', a', hd', rfl⟩
  · obtain rfl : d = d' := hid
    exact ⟨Option.some.inj (hd.symm.trans hd'), rfl⟩
  · exact absurd hid.symm (hkinds hc' (.inl hd))
  · obtain rfl : d = d' := hid
    exact absurd hd (hfound hd')
  · exact absurd hid (hkinds hc (.inl hd'))
  · obtain rfl : c = c' := hid
    obtain rfl := put_place hw hc.2.1 hc'.2.1
    obtain rfl := enqueue_item hw hc.2.2 hc'.2.2
    exact ⟨drawn_index hw hc.1 hc'.1, rfl⟩
  · exact absurd hid (hkinds hc (.inr ⟨_, _, hd'⟩))
  · obtain rfl : d = d' := hid
    exact absurd hd' (hfound hd)
  · exact absurd hid.symm (hkinds hc' (.inr ⟨_, _, hd⟩))
  · obtain rfl : d = d' := hid
    obtain ⟨c, i, j, hc, hj, rfl⟩ := hd
    obtain ⟨c', i', j', hc', hj', rfl⟩ := hd'
    obtain rfl := claimed_place hw (List.mem_of_getElem? hj) (List.mem_of_getElem? hj') hc.2.1
      hc'.2.1
    obtain rfl := put_call hw hc.2.1 hc'.2.1
    obtain rfl := enqueue_item hw hc.2.2 hc'.2.2
    obtain rfl := drawn_index hw hc.1 hc'.1
    obtain rfl := claimed_index hw hj hj'
    exact ⟨rfl, rfl⟩

theorem chunk_once (k : Nat) : ((chunk w k).map Effect.id).Nodup := by
  rw [chunk, List.map_append]
  refine List.Nodup.append ?_ ?_ ?_
  · unfold emptyEffects
    rw [List.map_map, show (Effect.id ∘ fun d => (⟨d, .dequeue, none⟩ :
      Effect (QueueOp α) (Option α))) = id from rfl, List.map_id]
    exact List.nodup_range.filter _
  · cases hk : w[k]? with
    | none => exact List.nodup_nil
    | some x =>
        rw [Option.toList_some, List.flatMap_singleton]
        cases x with
        | drawn c p =>
            rw [effectsOf]
            cases hx : itemAt w (k + 1) p with
            | none => exact List.nodup_nil
            | some x =>
                rw [Option.toList_some, List.flatMap_singleton, List.map_cons, List.nodup_cons]
                obtain ⟨i, -, hx⟩ := (itemAt_eq_some hw).mp hx
                cases hd : claimAt w k p with
                | none => exact ⟨List.not_mem_nil, List.nodup_nil⟩
                | some d =>
                    refine ⟨fun h => ?_, List.nodup_singleton _⟩
                    have hxd : x.1 = d := by simpa using h
                    obtain ⟨j, -, hd⟩ := mem_take.mp ((claimAt_eq_some hw).mp hd)
                    have hd := mem_of_mem_take (hw.allowed hd).1
                    exact enqueue_ne_dequeue hw hx.2.2 (hxd ▸ hd)
        | claimed d p =>
            rw [effectsOf]
            cases itemAt w k p with
            | none => exact List.nodup_nil
            | some x => exact List.nodup_singleton _
        | _ => exact List.nodup_nil
  · intro id hempty heffect
    obtain ⟨e, he, rfl⟩ := List.mem_map.mp hempty
    obtain ⟨e', he', hid⟩ := List.mem_map.mp heffect
    have hsame := (effect_unique hw (List.mem_append_left _ he)
      (List.mem_append_right (emptyEffects w k) he') hid.symm).2
    subst hsame
    -- nothing that an entry does is a dequeue without a result
    obtain ⟨d, -, hd⟩ := List.mem_map.mp he
    obtain ⟨x, hx, he'⟩ := List.mem_flatMap.mp he'
    subst hd
    cases x with
    | drawn c p =>
        obtain ⟨y, -, he'⟩ := List.mem_flatMap.mp he'
        simp at he'
    | claimed d' p =>
        obtain ⟨y, -, he'⟩ := List.mem_map.mp he'
        simp at he'
    | _ => cases he'

/-- A call that has ended has taken effect, with what it returned. -/
theorem ended_mem_chunk {i id : Nat} {res : Option α} (h : (w[i]?).bind view = some (.ret id res)) :
    ∃ k ≤ i, ∃ op, ⟨id, op, res⟩ ∈ chunk w k := by
  obtain ⟨x, hx, hview⟩ := Option.bind_eq_some_iff.mp h
  cases x with
  | enqueued c =>
      obtain ⟨rfl, rfl⟩ : c = id ∧ none = res := by simpa [view] using hview
      obtain ⟨p, hput⟩ := hw.allowed hx
      obtain ⟨j, hj, hput⟩ := mem_take.mp hput
      obtain ⟨m, hm, hdrawn, a, n, -, ha⟩ := put_drawn hw hput
      refine ⟨m, by omega, .enqueue a, (mem_chunk hw).mpr (.inr (.inl ⟨c, p, a, ?_, rfl⟩))⟩
      exact ⟨hdrawn, List.mem_of_getElem? hput, List.mem_of_getElem? ha⟩
  | dequeued d r =>
      obtain ⟨rfl, rfl⟩ : d = id ∧ r = res := by simpa [view] using hview
      cases r with
      | none =>
          obtain ⟨-, -, -, k, hdk, hk, hclaimed⟩ := hw.allowed hx
          rw [List.length_take] at hk
          rw [List.take_take, Nat.min_eq_left (by omega)] at hclaimed
          have hex : ∃ k, EmptyAt w d k := ⟨k, hdk, hclaimed, i, by omega, hx⟩
          have hmoment : emptyMoment w d = some hex.choose := dif_pos hex
          obtain ⟨-, -, i', hki', hi'⟩ := emptyMoment_spec hmoment
          obtain rfl := dequeued_index hw hx hi'
          exact ⟨_, hki', .dequeue, (mem_chunk hw).mpr (.inl ⟨d, hmoment, rfl⟩)⟩
      | some b =>
          obtain ⟨q, htaken⟩ := (hw.allowed hx).2
          obtain ⟨t, hti, ht⟩ := mem_take.mp htaken
          obtain ⟨htclaim, -, hfound⟩ := hw.allowed ht
          obtain ⟨c, hput, hcall⟩ := (hfound b).mp rfl
          obtain ⟨j, hjt, hj⟩ := mem_take.mp htclaim
          obtain ⟨i', hi't, hi'⟩ := mem_take.mp hput
          obtain ⟨m, hm, hdrawn, -⟩ := put_drawn hw hi'
          refine ⟨max m j, by omega, .dequeue,
            (mem_chunk hw).mpr (.inr (.inr ⟨d, q, b, ⟨c, m, j, ?_, hj, rfl⟩, rfl⟩))⟩
          exact ⟨hdrawn, List.mem_of_getElem? hi', mem_of_mem_take hcall⟩
  | _ => simp [view] at hview

/-- **Every call takes effect between its beginning and its end.** -/
theorem points : Points w view (chunk w) := by
  refine ⟨?_, ?_, ?_, chunk_once hw, ?_, ?_⟩
  · intro k e he
    rcases (mem_chunk hw).mp he with ⟨d, hd, rfl⟩ | ⟨c, p, a, hc, rfl⟩ | ⟨d, p, a, hd, rfl⟩
    · have hdk := (emptyMoment_spec hd).1
      refine ⟨d, Nat.le_of_lt hdk, ?_⟩
      rw [dequeue_index hw (dequeue_of_emptyMoment hw hd)]
      rfl
    · obtain ⟨b, hb⟩ := (hw.allowed hc.1).1
      obtain ⟨i, hi, hb⟩ := mem_take.mp hb
      obtain rfl := enqueue_item hw hc.2.2 (List.mem_of_getElem? hb)
      exact ⟨i, Nat.le_of_lt hi, by rw [hb]; rfl⟩
    · obtain ⟨c, i, j, hc, hj, rfl⟩ := hd
      obtain ⟨i', hi', hd⟩ := claimed_dequeue hw hj
      exact ⟨i', by omega, by rw [hd]; rfl⟩
  · intro k k' id op op' hk hk'
    rw [← call_index hw hk, ← call_index hw hk']
  · intro k e he i res hi
    obtain ⟨k', hk', op, he'⟩ := ended_mem_chunk hw hi
    rwa [(effect_unique hw he he' rfl).1]
  · intro k k' e he e' he' hid
    exact (effect_unique hw he he' hid).1
  · intro i id res hi
    obtain ⟨k, hk, op, he⟩ := ended_mem_chunk hw hi
    obtain ⟨x, hx, -⟩ := Option.bind_eq_some_iff.mp hi
    exact ⟨k, by have := (List.getElem?_eq_some_iff.mp hx).1; omega, op, he⟩

end Linear

/-! ## §5 — the queue between two entries -/

/-- The items that stand in the sequential queue just before entry `k`: drawn, and not claimed. -/
structure Waiting [LT P] (w : List (Entry P α)) (k : Nat) (q : List (P × α)) : Prop where
  sorted : q.Pairwise fun x y => x.1 < y.1
  mem : ∀ p a, (p, a) ∈ q ↔
    (∃ i < k, ∃ c, EnqueueAt w i c p a) ∧ ∀ d, .claimed d p ∉ w.take k

namespace Waiting

variable [LinearOrder P] {w : List (Entry P α)} {k : Nat} {q : List (P × α)}

theorem zero : Waiting w 0 ([] : List (P × α)) := by
  refine ⟨List.Pairwise.nil, fun p a => ⟨fun h => absurd h List.not_mem_nil, ?_⟩⟩
  rintro ⟨⟨i, hi, -⟩, -⟩
  exact absurd hi (Nat.not_lt_zero i)

/-- An entry that neither draws a place for an item nor claims one of the queue's changes nothing. -/
theorem unchanged (h : Waiting w k q) {x : Entry P α} (hx : w[k]? = some x)
    (hdrawn : ∀ c p a, ¬ EnqueueAt w k c p a)
    (hclaimed : ∀ d p a, x = .claimed d p → (p, a) ∉ q) : Waiting w (k + 1) q := by
  refine ⟨h.sorted, fun p a => ?_⟩
  constructor
  · intro hmem
    obtain ⟨⟨i, hi, hput⟩, hno⟩ := (h.mem p a).mp hmem
    refine ⟨⟨i, Nat.lt_succ_of_lt hi, hput⟩, fun d hd => ?_⟩
    rcases (mem_take_succ hx).mp hd with hd | hd
    · exact hno d hd
    · exact hclaimed d p a hd.symm hmem
  · rintro ⟨⟨i, hi, c, hput⟩, hno⟩
    refine (h.mem p a).mpr ⟨⟨i, ?_, c, hput⟩, fun d hd => ?_⟩
    · rcases Nat.lt_succ_iff_lt_or_eq.mp hi with hi | rfl
      · exact hi
      · exact absurd hput (hdrawn c p a)
    · exact hno d ((mem_take_succ hx).mpr (.inl hd))

theorem explains_empty (h : Waiting w k q) :
    Explains fifo (q.map Prod.snd) (emptyEffects w k) (q.map Prod.snd) := by
  have hnone : ∀ ds : List Nat, Explains fifo ([] : List α)
      (ds.map fun d => ⟨d, .dequeue, none⟩) [] := by
    intro ds
    induction ds with
    | nil => exact .nil
    | cons d ds ih => exact .cons rfl ih
  cases he : emptyEffects w k with
  | nil => exact .nil
  | cons e es =>
      have hmem : e ∈ emptyEffects w k := by
        rw [he]
        exact List.mem_cons_self
      obtain ⟨d, hd, -⟩ := List.mem_map.mp hmem
      have hd : emptyMoment w d = some k := of_decide_eq_true (List.mem_filter.mp hd).2
      obtain ⟨-, hall, -⟩ := emptyMoment_spec hd
      have hq : q = [] := by
        refine List.eq_nil_iff_forall_not_mem.mpr fun x hx => ?_
        obtain ⟨⟨i, hi, c, hdrawn, -⟩, hno⟩ := (h.mem x.1 x.2).mp hx
        obtain ⟨d', hd'⟩ := hall c x.1 (mem_take.mpr ⟨i, hi, hdrawn⟩)
        exact hno d' hd'
      rw [← he, hq]
      exact hnone _

variable (hw : Legal w)
include hw

/-- What has been claimed is in front of all that waits. -/
theorem lt_of_claimed (h : Waiting w k q) {d j : Nat} {p : P} (hj : w[j]? = some (.claimed d p))
    (hjk : j ≤ k) : ∀ x ∈ q, p ≤ x.1 := by
  intro x hx
  obtain ⟨⟨i, -, c, -, hput, -⟩, hno⟩ := (h.mem x.1 x.2).mp hx
  by_contra hlt
  obtain ⟨d', i', hi', hd'⟩ := claimed_below hw hj hput (lt_of_not_ge hlt)
  exact hno d' (mem_take.mpr ⟨i', by omega, hd'⟩)

theorem explains_drawn (h : Waiting w k q) {c : Nat} {p : P} (hx : w[k]? = some (.drawn c p)) :
    ∃ q', Waiting w (k + 1) q' ∧
      Explains fifo (q.map Prod.snd) (effectsOf w k (.drawn c p)) (q'.map Prod.snd) := by
  rw [effectsOf]
  cases hitem : itemAt w (k + 1) p with
  | none =>
      refine ⟨q, h.unchanged hx (fun c' p' a hput => ?_) (fun d p' a heq => by cases heq), .nil⟩
      obtain ⟨rfl, rfl⟩ : c = c' ∧ p = p' := by simpa using (hx.symm.trans hput.1)
      have hsome := (itemAt_eq_some hw).mpr
        ⟨k, Nat.lt_succ_self k, show EnqueueAt w k (c, a).1 p a from hput⟩
      rw [hitem] at hsome
      cases hsome
  | some x =>
      obtain ⟨i, -, hput⟩ := (itemAt_eq_some hw).mp hitem
      obtain rfl := drawn_index hw hput.1 hx
      -- the place is behind everything that waits
      have hbehind : ∀ y ∈ q, y.1 < p := by
        intro y hy
        obtain ⟨⟨j, hj, c', hdrawn, -⟩, -⟩ := (h.mem y.1 y.2).mp hy
        exact drawn_lt hw hdrawn hx hj
      have hnew : ∀ c' p' a, EnqueueAt w i c' p' a → p' = p ∧ a = x.2 := by
        intro c' p' a hput'
        obtain ⟨rfl, rfl⟩ : c = c' ∧ p = p' := by simpa using (hx.symm.trans hput'.1)
        obtain ⟨rfl, -⟩ : c = x.1 ∧ p = p := by simpa using (hx.symm.trans hput.1)
        exact ⟨rfl, enqueue_item hw hput'.2.2 hput.2.2⟩
      rw [Option.toList_some, List.flatMap_singleton]
      cases hclaim : claimAt w i p with
      | none =>
          have hno : ∀ d, .claimed d p ∉ w.take i := by
            intro d hd
            rw [(claimAt_eq_some hw).mpr hd] at hclaim
            cases hclaim
          refine ⟨q ++ [(p, x.2)], ⟨?_, fun p' a => ?_⟩, ?_⟩
          · refine List.pairwise_append.mpr ⟨h.sorted, List.pairwise_singleton _ _, ?_⟩
            intro y hy z hz
            obtain rfl := List.mem_singleton.mp hz
            exact hbehind y hy
          · rw [List.mem_append, List.mem_singleton, h.mem]
            constructor
            · rintro (⟨⟨j, hj, hput'⟩, hno'⟩ | heq)
              · refine ⟨⟨j, Nat.lt_succ_of_lt hj, hput'⟩, fun d hd => ?_⟩
                rcases (mem_take_succ hx).mp hd with hd | hd
                · exact hno' d hd
                · cases hd
              · obtain ⟨rfl, rfl⟩ : p' = p ∧ a = x.2 := by simpa using heq
                refine ⟨⟨i, Nat.lt_succ_self i, _, hput⟩, fun d hd => ?_⟩
                rcases (mem_take_succ hx).mp hd with hd | hd
                · exact hno d hd
                · cases hd
            · rintro ⟨⟨j, hj, c', hput'⟩, hno'⟩
              rcases Nat.lt_succ_iff_lt_or_eq.mp hj with hj | rfl
              · exact .inl ⟨⟨j, hj, c', hput'⟩, fun d hd =>
                  hno' d ((mem_take_succ hx).mpr (.inl hd))⟩
              · obtain ⟨rfl, rfl⟩ := hnew c' p' a hput'
                exact .inr rfl
          · rw [List.map_append]
            exact .cons rfl .nil
      | some d =>
          obtain ⟨j, hj, hd⟩ := mem_take.mp ((claimAt_eq_some hw).mp hclaim)
          have hq : q = [] := by
            refine List.eq_nil_iff_forall_not_mem.mpr fun y hy => ?_
            exact absurd (hbehind y hy) (not_lt_of_ge (h.lt_of_claimed hw hd (by omega) y hy))
          subst hq
          refine ⟨[], ⟨List.Pairwise.nil, fun p' a => ⟨fun h => absurd h List.not_mem_nil, ?_⟩⟩,
            .cons rfl (.cons rfl .nil)⟩
          rintro ⟨⟨j', hj', c', hput'⟩, hno'⟩
          have hno := fun d hd => hno' d ((mem_take_succ hx).mpr (.inl hd))
          rcases Nat.lt_succ_iff_lt_or_eq.mp hj' with hj' | rfl
          · exact (h.mem p' a).mpr ⟨⟨j', hj', c', hput'⟩, hno⟩
          · obtain ⟨rfl, -⟩ := hnew c' p' a hput'
            exact absurd (mem_take.mpr ⟨j, hj, hd⟩) (hno d)

theorem explains_claimed (h : Waiting w k q) {d : Nat} {p : P}
    (hx : w[k]? = some (.claimed d p)) :
    ∃ q', Waiting w (k + 1) q' ∧
      Explains fifo (q.map Prod.snd) (effectsOf w k (.claimed d p)) (q'.map Prod.snd) := by
  rw [effectsOf]
  have hnotDrawn : ∀ c' p' a, ¬ EnqueueAt w k c' p' a := by
    intro c' p' a hput
    have := hx.symm.trans hput.1
    simp at this
  have hfirst : ∀ d', .claimed d' p ∉ w.take k := by
    intro d' hd'
    obtain ⟨j, hj, hd'⟩ := mem_take.mp hd'
    have := claimed_index hw hd' hx
    omega
  cases hitem : itemAt w k p with
  | none =>
      refine ⟨q, h.unchanged hx hnotDrawn (fun d' p' a heq hmem => ?_), .nil⟩
      obtain ⟨rfl, rfl⟩ : d = d' ∧ p = p' := by simpa using heq
      obtain ⟨⟨i, hi, c, hput⟩, -⟩ := (h.mem p a).mp hmem
      have hsome := (itemAt_eq_some hw).mpr ⟨i, hi, show EnqueueAt w i (c, a).1 p a from hput⟩
      rw [hitem] at hsome
      cases hsome
  | some x =>
      obtain ⟨i, hi, hput⟩ := (itemAt_eq_some hw).mp hitem
      have hmem : (p, x.2) ∈ q := (h.mem p x.2).mpr ⟨⟨i, hi, _, hput⟩, hfirst⟩
      cases q with
      | nil => cases hmem
      | cons y q =>
          obtain ⟨hlt, hsorted⟩ := List.pairwise_cons.mp h.sorted
          -- nothing waits in front of the place, so it is that of the first item
          obtain rfl : y = (p, x.2) := by
            rcases List.mem_cons.mp hmem with heq | hmem
            · exact heq.symm
            · have hge := h.lt_of_claimed hw hx (Nat.le_refl k) y List.mem_cons_self
              exact absurd (hlt _ hmem) (not_lt_of_ge hge)
          refine ⟨q, ⟨hsorted, fun p' a => ?_⟩, .cons rfl .nil⟩
          have hiff := h.mem p' a
          rw [List.mem_cons] at hiff
          constructor
          · intro hq
            obtain ⟨⟨j, hj, hput'⟩, hno⟩ := hiff.mp (.inr hq)
            refine ⟨⟨j, Nat.lt_succ_of_lt hj, hput'⟩, fun d' hd' => ?_⟩
            rcases (mem_take_succ hx).mp hd' with hd' | hd'
            · exact hno d' hd'
            · obtain ⟨-, rfl⟩ : d' = d ∧ p' = p := by simpa using hd'
              exact absurd (hlt _ hq) (lt_irrefl _)
          · rintro ⟨⟨j, hj, c', hput'⟩, hno⟩
            have hj : j < k := by
              rcases Nat.lt_succ_iff_lt_or_eq.mp hj with hj | rfl
              · exact hj
              · exact absurd hput' (hnotDrawn c' p' a)
            rcases hiff.mpr ⟨⟨j, hj, c', hput'⟩, fun d' hd' =>
              hno d' ((mem_take_succ hx).mpr (.inl hd'))⟩ with heq | hq
            · obtain ⟨rfl, -⟩ : p' = p ∧ a = x.2 := by simpa using heq
              exact absurd ((mem_take_succ hx).mpr (.inr rfl)) (hno d)
            · exact hq

theorem explains_chunk (h : Waiting w k q) (hk : k < w.length) :
    ∃ q', Waiting w (k + 1) q' ∧ Explains fifo (q.map Prod.snd) (chunk w k) (q'.map Prod.snd) := by
  have hx : w[k]? = some w[k] := List.getElem?_eq_getElem hk
  have hentry : ∃ q', Waiting w (k + 1) q' ∧
      Explains fifo (q.map Prod.snd) (effectsOf w k w[k]) (q'.map Prod.snd) := by
    have hother : (∀ c p, w[k] ≠ .drawn c p) → (∀ d p, w[k] ≠ .claimed d p) →
        Waiting w (k + 1) q := by
      intro hdrawn hclaimed
      refine h.unchanged hx (fun c p a hput => ?_) fun d p a heq => absurd heq (hclaimed d p)
      exact hdrawn c p (Option.some.inj (hx.symm.trans hput.1))
    cases hwk : w[k] with
    | drawn c p => exact h.explains_drawn hw (hx.trans (congrArg some hwk))
    | claimed d p => exact h.explains_claimed hw (hx.trans (congrArg some hwk))
    | _ =>
        refine ⟨q, hother (fun c p heq => ?_) (fun d p heq => ?_), .nil⟩ <;>
          exact absurd (hwk.symm.trans heq) (by simp)
  obtain ⟨q', hq', hexp⟩ := hentry
  refine ⟨q', hq', (h.explains_empty).append ?_⟩
  rwa [hx, Option.toList_some, List.flatMap_singleton]

end Waiting

/-- **Every log that keeps the rules is the log of a FIFO queue.** -/
theorem Legal.linearizable [LinearOrder P] {w : List (Entry P α)} (hw : Legal w) :
    Linearizable fifo [] (w.filterMap view) := by
  refine ⟨_, linearizedBy_of_points (points hw) ?_⟩
  have hstep : ∀ k < w.length, ∀ s : List α, (∃ q, Waiting w k q ∧ s = q.map Prod.snd) →
      ∃ s', (∃ q, Waiting w (k + 1) q ∧ s' = q.map Prod.snd) ∧ Explains fifo s (chunk w k) s' := by
    rintro k hk s ⟨q, hq, rfl⟩
    obtain ⟨q', hq', hexp⟩ := hq.explains_chunk hw hk
    exact ⟨_, ⟨q', hq', rfl⟩, hexp⟩
  obtain ⟨s, -, hexp, -⟩ := Explains.flatMap ⟨[], Waiting.zero, rfl⟩ hstep
  exact hexp

/-! ## §6 — calls in progress

What the log says of a call whose thread is in the middle of it, and how it grows. A thread adds
entries of its own call only, so what the log says of another's does not change (`Extends`). -/

/-- The call that an entry belongs to. -/
def Entry.id : Entry P α → Nat
  | .enqueue c _ | .drawn c _ | .put c _ | .enqueued c => c
  | .dequeue d | .claimed d _ | .taken d _ _ | .dequeued d _ => d

/-- Some entries of call `c` were added. -/
def Extends (w w' : List (Entry P α)) (c : Nat) : Prop :=
  ∃ es, w' = w ++ es ∧ ∀ e ∈ es, e.id = c

namespace Extends

variable {w w' w'' : List (Entry P α)} {c : Nat}

theorem refl (w : List (Entry P α)) (c : Nat) : Extends w w c :=
  ⟨[], (List.append_nil w).symm, fun _ h => absurd h List.not_mem_nil⟩

theorem concat (h : Extends w w' c) {e : Entry P α} (he : e.id = c) : Extends w (w' ++ [e]) c := by
  obtain ⟨es, rfl, hes⟩ := h
  refine ⟨es ++ [e], List.append_assoc w es [e], fun x hx => ?_⟩
  rcases List.mem_append.mp hx with hx | hx
  · exact hes x hx
  · rw [List.mem_singleton.mp hx]
    exact he

theorem mem (h : Extends w w' c) {e : Entry P α} (he : e ∈ w) : e ∈ w' := by
  obtain ⟨es, rfl, -⟩ := h
  exact List.mem_append_left es he

theorem mem_of_ne (h : Extends w w' c) {e : Entry P α} (he : e ∈ w') (hne : e.id ≠ c) : e ∈ w := by
  obtain ⟨es, rfl, hes⟩ := h
  rcases List.mem_append.mp he with he | he
  · exact he
  · exact absurd (hes e he) hne

theorem length_le (h : Extends w w' c) : w.length ≤ w'.length := by
  obtain ⟨es, rfl, -⟩ := h
  rw [List.length_append]
  exact Nat.le_add_right _ _

theorem take_eq (h : Extends w w' c) {k : Nat} (hk : k ≤ w.length) : w'.take k = w.take k := by
  obtain ⟨es, rfl, -⟩ := h
  exact List.take_append_of_le_length hk

end Extends

/-- The call `c` of `enqueue` with item `a` has put nothing yet. -/
structure EnqOpen (w : List (Entry P α)) (c : Nat) (a : α) : Prop where
  called : .enqueue c a ∈ w
  notPut : ∀ q, .put c q ∉ w

/-- The call `d` of `dequeue` has found nothing yet. -/
structure DeqOpen (w : List (Entry P α)) (d : Nat) : Prop where
  called : .dequeue d ∈ w
  running : ∀ r, .dequeued d r ∉ w
  taken : ∀ q, .claimed d q ∈ w → .taken d q none ∈ w

/-- The call `d` of `dequeue` has claimed place `p` and not taken what is there. -/
structure Holding (w : List (Entry P α)) (d : Nat) (p : P) : Prop where
  called : .dequeue d ∈ w
  running : ∀ r, .dequeued d r ∉ w
  claimed : .claimed d p ∈ w
  notTaken : ∀ r, .taken d p r ∉ w
  taken : ∀ q, .claimed d q ∈ w → q ≠ p → .taken d q none ∈ w

/-- The call `d` of `dequeue` has taken item `a`. -/
structure Found (w : List (Entry P α)) (d : Nat) (a : α) : Prop where
  running : ∀ r, .dequeued d r ∉ w
  taken : ∃ p, .taken d p (some a) ∈ w

/-- The call `d` of `dequeue` may return nothing. -/
def SawEmpty (w : List (Entry P α)) (d : Nat) : Prop :=
  ∃ k, d < k ∧ k ≤ w.length ∧ AllClaimed (w.take k)

section Others

variable {w w' : List (Entry P α)} {c d : Nat} (h : Extends w w' c)
include h

theorem EnqOpen.other {c' : Nat} {a : α} (ho : EnqOpen w c' a) (hne : c' ≠ c) : EnqOpen w' c' a :=
  ⟨h.mem ho.called, fun q hq => ho.notPut q (h.mem_of_ne hq hne)⟩

theorem DeqOpen.other (ho : DeqOpen w d) (hne : d ≠ c) : DeqOpen w' d :=
  ⟨h.mem ho.called, fun r hr => ho.running r (h.mem_of_ne hr hne),
    fun q hq => h.mem (ho.taken q (h.mem_of_ne hq hne))⟩

theorem Holding.other {p : P} (ho : Holding w d p) (hne : d ≠ c) : Holding w' d p :=
  ⟨h.mem ho.called, fun r hr => ho.running r (h.mem_of_ne hr hne), h.mem ho.claimed,
    fun r hr => ho.notTaken r (h.mem_of_ne hr hne),
    fun q hq hqp => h.mem (ho.taken q (h.mem_of_ne hq hne) hqp)⟩

theorem Found.other {a : α} (ho : Found w d a) (hne : d ≠ c) : Found w' d a := by
  obtain ⟨hrun, p, hp⟩ := ho
  exact ⟨fun r hr => hrun r (h.mem_of_ne hr hne), p, h.mem hp⟩

theorem SawEmpty.mono (ho : SawEmpty w d) : SawEmpty w' d := by
  obtain ⟨k, hdk, hk, hall⟩ := ho
  exact ⟨k, hdk, Nat.le_trans hk h.length_le, by rwa [h.take_eq hk]⟩

end Others

section Rules

variable [LinearOrder P] {w : List (Entry P α)} (hw : Legal w)
include hw

/-- Names of calls are places in the log. -/
theorem id_lt {e : Entry P α} (he : e ∈ w) : e.id < w.length := by
  have hcalled : ∀ {id : Nat} {op : QueueOp α} {x : Entry P α}, x ∈ w →
      view x = some (.call id op) → id < w.length := by
    intro id op x hx hview
    obtain ⟨k, hk⟩ := List.mem_iff_getElem?.mp hx
    rw [call_index hw (show (w[k]?).bind view = some (.call id op) by rw [hk]; exact hview)]
    exact (List.getElem?_eq_some_iff.mp hk).1
  have hdrawn : ∀ {c : Nat} {p : P}, .drawn c p ∈ w → c < w.length := by
    intro c p h
    obtain ⟨k, hk⟩ := List.mem_iff_getElem?.mp h
    obtain ⟨a, ha⟩ := (hw.allowed hk).1
    exact hcalled (mem_of_mem_take ha) rfl
  have hput : ∀ {c : Nat} {p : P}, .put c p ∈ w → c < w.length := by
    intro c p h
    obtain ⟨k, hk⟩ := List.mem_iff_getElem?.mp h
    exact hdrawn (mem_of_mem_take (hw.allowed hk).1)
  have hclaimed : ∀ {d : Nat} {p : P}, .claimed d p ∈ w → d < w.length := by
    intro d p h
    obtain ⟨k, hk⟩ := List.mem_iff_getElem?.mp h
    exact hcalled (mem_of_mem_take (hw.allowed hk).1) rfl
  have htaken : ∀ {d : Nat} {p : P} {r : Option α}, .taken d p r ∈ w → d < w.length := by
    intro d p r h
    obtain ⟨k, hk⟩ := List.mem_iff_getElem?.mp h
    exact hclaimed (mem_of_mem_take (hw.allowed hk).1)
  obtain ⟨k, hk⟩ := List.mem_iff_getElem?.mp he
  cases e with
  | enqueue c a => exact hcalled he rfl
  | drawn c p => exact hdrawn he
  | put c p => exact hput he
  | enqueued c =>
      obtain ⟨p, hp⟩ := hw.allowed hk
      exact hput (mem_of_mem_take hp)
  | dequeue d => exact hcalled he rfl
  | claimed d p => exact hclaimed he
  | taken d p r => exact htaken he
  | dequeued d r =>
      cases r with
      | none => exact hcalled (mem_of_mem_take (hw.allowed hk).2.1) rfl
      | some a =>
          obtain ⟨p, hp⟩ := (hw.allowed hk).2
          exact htaken (mem_of_mem_take hp)

theorem Legal.enqueue (a : α) : Legal (w ++ [.enqueue w.length a]) := legal_concat.mpr ⟨hw, rfl⟩

theorem EnqOpen.new (a : α) : EnqOpen (w ++ [.enqueue w.length a]) w.length a := by
  refine ⟨List.mem_append_right w List.mem_cons_self, fun q hq => ?_⟩
  rcases List.mem_append.mp hq with hq | hq
  · exact Nat.lt_irrefl _ (id_lt hw hq)
  · cases List.mem_singleton.mp hq

theorem Legal.drawn {c : Nat} {a : α} {p : P} (h : EnqOpen w c a)
    (hlt : ∀ c' q, .drawn c' q ∈ w → q < p) : Legal (w ++ [.drawn c p]) :=
  legal_concat.mpr ⟨hw, ⟨a, h.called⟩, h.notPut, hlt⟩

theorem Legal.put {c : Nat} {a : α} {p : P} (h : EnqOpen w c a) (hdrawn : .drawn c p ∈ w)
    (htaken : ∀ d r, .taken d p r ∉ w)
    (hclaimed : ∀ d q, .claimed d q ∈ w → p < q → ∃ d', .claimed d' p ∈ w) :
    Legal (w ++ [.put c p]) :=
  legal_concat.mpr ⟨hw, hdrawn, h.notPut, htaken, hclaimed⟩

theorem Legal.enqueued {c : Nat} (h : ∃ p, .put c p ∈ w) : Legal (w ++ [.enqueued c]) :=
  legal_concat.mpr ⟨hw, h⟩

theorem Legal.dequeue : Legal (w ++ [.dequeue w.length]) := legal_concat.mpr ⟨hw, rfl⟩

theorem DeqOpen.new : DeqOpen (w ++ [.dequeue w.length]) w.length := by
  refine ⟨List.mem_append_right w List.mem_cons_self, fun r hr => ?_, fun q hq => ?_⟩
  · rcases List.mem_append.mp hr with hr | hr
    · exact Nat.lt_irrefl _ (id_lt hw hr)
    · cases List.mem_singleton.mp hr
  · rcases List.mem_append.mp hq with hq | hq
    · exact absurd (id_lt hw hq) (Nat.lt_irrefl _)
    · cases List.mem_singleton.mp hq

theorem Legal.claimed {d : Nat} {p : P} (h : DeqOpen w d)
    (hlt : ∀ d' q, .claimed d' q ∈ w → q < p)
    (hbelow : ∀ c q, .put c q ∈ w → q < p → ∃ d', .claimed d' q ∈ w) :
    Legal (w ++ [.claimed d p]) :=
  legal_concat.mpr ⟨hw, h.called, h.running, h.taken, hlt, hbelow⟩

theorem taken_claimed {d : Nat} {p : P} {r : Option α} (h : .taken d p r ∈ w) :
    .claimed d p ∈ w := by
  obtain ⟨k, hk⟩ := List.mem_iff_getElem?.mp h
  exact mem_of_mem_take (hw.allowed hk).1

theorem DeqOpen.claimed {d : Nat} {p : P} (h : DeqOpen w d)
    (hlt : ∀ d' q, .claimed d' q ∈ w → q < p) : Holding (w ++ [.claimed d p]) d p := by
  refine ⟨List.mem_append_left _ h.called, fun r hr => ?_, List.mem_append_right w
    List.mem_cons_self, fun r hr => ?_, fun q hq hqp => ?_⟩
  · rcases List.mem_append.mp hr with hr | hr
    · exact h.running r hr
    · cases List.mem_singleton.mp hr
  · rcases List.mem_append.mp hr with hr | hr
    · exact lt_irrefl p (hlt d p (taken_claimed hw hr))
    · cases List.mem_singleton.mp hr
  · rcases List.mem_append.mp hq with hq | hq
    · exact List.mem_append_left _ (h.taken q hq)
    · obtain ⟨-, rfl⟩ : d = d ∧ q = p := by simpa using List.mem_singleton.mp hq
      exact absurd rfl hqp

theorem Legal.taken {d : Nat} {p : P} {r : Option α} (h : Holding w d p)
    (hr : ∀ a, r = some a ↔ ∃ c, .put c p ∈ w ∧ .enqueue c a ∈ w) : Legal (w ++ [.taken d p r]) :=
  legal_concat.mpr ⟨hw, h.claimed, h.notTaken, hr⟩

/-- A call that has put its item has one, and has drawn the place. -/
theorem exists_enqueue {c : Nat} {p : P} (h : .put c p ∈ w) :
    ∃ a, .enqueue c a ∈ w ∧ .drawn c p ∈ w := by
  obtain ⟨k, hk⟩ := List.mem_iff_getElem?.mp h
  obtain ⟨j, -, hj, a, i, -, hi⟩ := put_drawn hw hk
  exact ⟨a, List.mem_of_getElem? hi, List.mem_of_getElem? hj⟩

/-- What may be taken where `c` has put `a`. -/
theorem put_found {c : Nat} {p : P} {a : α} (hput : .put c p ∈ w) (hcall : .enqueue c a ∈ w) :
    ∀ b, some a = some b ↔ ∃ c, .put c p ∈ w ∧ .enqueue c b ∈ w := by
  intro b
  constructor
  · intro h
    obtain rfl := Option.some.inj h
    exact ⟨c, hput, hcall⟩
  · rintro ⟨c', hput', hcall'⟩
    obtain rfl := put_call hw hput hput'
    rw [enqueue_item hw hcall hcall']

theorem Legal.dequeuedSome {d : Nat} {a : α} (h : Found w d a) :
    Legal (w ++ [.dequeued d (some a)]) := legal_concat.mpr ⟨hw, h.running, h.taken⟩

theorem Legal.dequeuedNone {d : Nat} (h : DeqOpen w d) (hempty : SawEmpty w d) :
    Legal (w ++ [.dequeued d none]) :=
  legal_concat.mpr ⟨hw, h.running, h.called, h.taken, hempty⟩

/-- Now is a moment at which a call may see the queue empty. -/
theorem SawEmpty.now {d : Nat} (h : .dequeue d ∈ w) (hall : AllClaimed w) : SawEmpty w d :=
  ⟨w.length, id_lt hw h, Nat.le_refl _, by rwa [List.take_length]⟩

end Rules

theorem EnqOpen.drawn {w : List (Entry P α)} {c c' : Nat} {a : α} {p : P} (h : EnqOpen w c a) :
    EnqOpen (w ++ [.drawn c' p]) c a := by
  refine ⟨List.mem_append_left _ h.called, fun q hq => ?_⟩
  rcases List.mem_append.mp hq with hq | hq
  · exact h.notPut q hq
  · cases List.mem_singleton.mp hq

theorem Holding.nothing {w : List (Entry P α)} {d : Nat} {p : P} (h : Holding w d p) :
    DeqOpen (w ++ [.taken d p none]) d := by
  refine ⟨List.mem_append_left _ h.called, fun r hr => ?_, fun q hq => ?_⟩
  · rcases List.mem_append.mp hr with hr | hr
    · exact h.running r hr
    · cases List.mem_singleton.mp hr
  · rcases List.mem_append.mp hq with hq | hq
    · by_cases hqp : q = p
      · rw [hqp]
        exact List.mem_append_right w List.mem_cons_self
      · exact List.mem_append_left _ (h.taken q hq hqp)
    · cases List.mem_singleton.mp hq

theorem Holding.found {w : List (Entry P α)} {d : Nat} {p : P} (h : Holding w d p) (a : α) :
    Found (w ++ [.taken d p (some a)]) d a := by
  refine ⟨fun r hr => ?_, p, List.mem_append_right w List.mem_cons_self⟩
  rcases List.mem_append.mp hr with hr | hr
  · exact h.running r hr
  · cases List.mem_singleton.mp hr

end RelaxedConcurrentFifo.Lib.TicketQueue
