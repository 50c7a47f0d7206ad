/-
# RelaxedConcurrentFifo.LCRQueue.Linearizable — the linked rings are one FIFO queue

Every access keeps the invariant of the queue and what each thread knows (`accessEnqueue_stepOk`,
`accessDequeue_stepOk`), so the log keeps the rules of `Lib.TicketQueue` all along every run. A dequeue
that returns `nullptr` has seen the tail of the last ring not ahead of its own ticket; at that moment
everything that was drawn was claimed.
-/
import RelaxedConcurrentFifo.LCRQueue.Invariant

namespace RelaxedConcurrentFifo.LCRQueue

open RelaxedConcurrentFifo.Lib.Interleaving
open RelaxedConcurrentFifo.Lib.Linearizability
open RelaxedConcurrentFifo.Lib.TicketQueue

variable {T : Type} {c : Config} {m m' : Shared T} {e : Nat}

/-! ## §1 — a new ring -/

/-- The rings after a new one was linked. -/
theorem link_segment (p i : Nat) (s : Segment T) : (m.link p s).segment i =
    if i = m.count then s else
      if i = p then { m.segment p with next := some m.count } else m.segment i := by
  simp only [Shared.link, Function.update_apply]

theorem link_segment_of_lt (p : Nat) {i : Nat} (s : Segment T) (h : i < m.count) :
    (m.link p s).segment i =
      { m.segment i with next := if i = p then some m.count else (m.segment i).next } := by
  rw [link_segment, if_neg (Nat.ne_of_lt h)]
  split
  · rename_i hip
    rw [hip]
  · rfl

/-- A ring of which the log says nothing. -/
theorem ringOk_new {w : List (Entry Place T)} {i start : Nat}
    (hfit : start + c.ringSize < 2 ^ 63) (hput : ∀ e t, .put e (place i t) ∉ w)
    (htaken : ∀ d t r, .taken d (place i t) r ∉ w) : RingOk c w i (Segment.new c start) := by
  refine ⟨fun t => ?_, fun d t r h => absurd h (htaken d t r), fun t a h => ?_,
    fun e t a h => absurd h (hput e t)⟩
  · obtain ⟨t', hcell, hslot, -⟩ := Segment.new_cell (T := T) c hfit t
    rw [hcell]
    exact hslot
  · obtain ⟨t', hcell, -⟩ := Segment.new_cell (T := T) c hfit t
    rw [hcell] at h
    cases h

/-- `ltail->next.compare_exchange_strong(nullNode, newTail)` where it succeeds. -/
theorem MemOk.link (hm : MemOk c m) {p start : Nat} {item : T} (hlast : p + 1 = m.count)
    (hclosed : (m.segment p).tail.flag = true) (ho : EnqOpen m.log e item)
    (hfit : start + c.ringSize < 2 ^ 63) :
    MemOk c (((m.link p ((Segment.new c start).enqueueAlone c item)).push
      (.drawn e (place m.count start))).push (.put e (place m.count start))) := by
  have hlt := hm.head_lt
  -- nothing is known of the places of the new ring
  have hdrawn : ∀ e' t, .drawn e' (place m.count t) ∉ m.log :=
    fun e' t h => Nat.lt_irrefl _ (hm.drawn m.count t e' h).1
  have hclaimed : ∀ d t, .claimed d (place m.count t) ∉ m.log := by
    intro d t h
    have := (hm.claimed m.count t d h).1
    omega
  have hput : ∀ e' t, .put e' (place m.count t) ∉ m.log := by
    intro e' t h
    obtain ⟨a, -, h⟩ := exists_enqueue hm.legal h
    exact hdrawn e' t h
  have htaken : ∀ d t r, .taken d (place m.count t) r ∉ m.log :=
    fun d t r h => hclaimed d t (taken_claimed hm.legal h)
  have hlegal₁ : Legal (m.log ++ [.drawn e (place m.count start)]) := by
    refine hm.legal.drawn ho fun e' q hq => ?_
    obtain ⟨i, t, rfl⟩ := exists_place q
    exact place_lt.mpr (.inl (hm.drawn i t e' hq).1)
  have hlegal : Legal (m.log ++ [.drawn e (place m.count start)] ++
      [.put e (place m.count start)]) := by
    refine hlegal₁.put ho.drawn (List.mem_append_right _ List.mem_cons_self) (fun d r h => ?_)
      fun d q hq hltq => ?_
    · rw [List.mem_append, List.mem_singleton, or_iff_left (by simp)] at h
      exact htaken d start r h
    · obtain ⟨i, t, rfl⟩ := exists_place q
      rw [List.mem_append, List.mem_singleton, or_iff_left (by simp)] at hq
      have hi := (hm.claimed i t d hq).1
      rcases place_lt.mp hltq with h | ⟨h, -⟩ <;> omega
  have hlog : ∀ x, x ∈ (((m.link p ((Segment.new c start).enqueueAlone c item)).push
      (.drawn e (place m.count start))).push (.put e (place m.count start))).log ↔
      (x ∈ m.log ∨ x = .drawn e (place m.count start)) ∨ x = .put e (place m.count start) := by
    intro x
    rw [mem_push, mem_push]
    exact Iff.rfl
  have hsegment : ∀ i, (((m.link p ((Segment.new c start).enqueueAlone c item)).push
      (.drawn e (place m.count start))).push (.put e (place m.count start))).segment i =
      (m.link p ((Segment.new c start).enqueueAlone c item)).segment i := fun _ => rfl
  have hnew : (m.link p ((Segment.new c start).enqueueAlone c item)).segment m.count =
      { (Segment.new c start).setCell c start ⟨some item, false, start⟩ with
        tail := ⟨false, start + 1⟩ } := by
    rw [link_segment, if_pos rfl, Segment.enqueueAlone_new c hfit]
  -- each part of the invariant: the rings there were, and the new one
  have hcount : ∀ {i}, i < m.count + 1 → i < m.count ∨ i = m.count :=
    fun h => Nat.lt_succ_iff_lt_or_eq.mp h
  refine ⟨hlegal, Nat.lt_succ_of_lt hm.head_lt, Nat.lt_succ_of_lt hm.tail_lt, fun i hi => ?_,
    fun i hi => ?_, fun i hi => ?_, fun i hi => ?_, fun i t e' h => ?_, fun i t d h => ?_,
    fun i hi t ht hcond => ?_, fun i hi e' t h => ?_, fun i hi => ?_⟩
  · have hi : i < m.count := Nat.lt_of_succ_lt_succ hi
    rw [hsegment, link_segment_of_lt p _ hi]
    dsimp only
    by_cases hip : i = p
    · rw [if_pos hip, ← hlast, hip]
    · rw [if_neg hip]
      exact hm.next i (by omega)
  · obtain rfl : i = m.count := Nat.succ.inj hi
    rw [hsegment, hnew]
    rfl
  · have hi : i < m.count := Nat.lt_of_succ_lt_succ hi
    rw [hsegment, link_segment_of_lt p _ hi]
    by_cases hip : i = p
    · rwa [hip]
    · exact hm.closed i (by omega)
  · rw [hsegment]
    rcases hcount hi with hi | rfl
    · rw [link_segment_of_lt p _ hi]
      exact hm.pos i hi
    · rw [hnew]
      exact fun h => by cases h
  · rw [hsegment]
    simp only [hlog, reduceCtorEq, or_false, Entry.drawn.injEq] at h
    rcases h with h | ⟨rfl, heq⟩
    · obtain ⟨hi, ht⟩ := hm.drawn i t e' h
      rw [link_segment_of_lt p _ hi]
      exact ⟨Nat.lt_succ_of_lt hi, ht⟩
    · obtain ⟨rfl, rfl⟩ := place_inj.mp heq
      rw [hnew]
      exact ⟨Nat.lt_succ_self _, Nat.lt_succ_self _⟩
  · rw [hsegment]
    simp only [hlog, reduceCtorEq, or_false] at h
    obtain ⟨hi, ht⟩ := hm.claimed i t d h
    rw [link_segment_of_lt p _ (by omega)]
    exact ⟨hi, ht⟩
  · rw [hsegment] at ht hcond
    simp only [hlog, reduceCtorEq, or_false, Entry.drawn.injEq] at hcond ⊢
    rcases hcount hi with hi | rfl
    · rw [link_segment_of_lt p _ hi] at ht hcond
      refine hm.below i hi t ht (hcond.imp_left ?_)
      rintro ⟨e', he' | ⟨-, heq⟩⟩
      · exact ⟨e', he'⟩
      · exact absurd (place_inj.mp heq).1 (Nat.ne_of_lt hi)
    · rw [hnew] at ht hcond
      have ht : t < start := ht
      rcases hcond with ⟨e', he' | ⟨-, heq⟩⟩ | ⟨-, hle⟩
      · exact absurd he' (hdrawn e' t)
      · have := (place_inj.mp heq).2
        omega
      · have hle : start + 1 ≤ t := hle
        omega
  · have hi : i < m.head := hi
    simp only [hlog, reduceCtorEq, or_false, Entry.drawn.injEq] at h ⊢
    rcases h with h | ⟨-, heq⟩
    · exact hm.drained i hi e' t h
    · have := (place_inj.mp heq).1
      omega
  · rw [hsegment]
    rcases hcount hi with hi | rfl
    · rw [link_segment_of_lt p _ hi]
      have hring : RingOk c m.log i
          { m.segment i with next := if i = p then some m.count else (m.segment i).next } :=
        (hm.ring i hi).of_cell fun _ => rfl
      refine hring.of_log hm.legal hlegal (fun x hx => (hlog x).mpr (.inl (.inl hx)))
        (fun e' t h => ?_) fun d t r h => ?_
      · have h := (hlog _).mp h
        simp only [reduceCtorEq, or_false, Entry.put.injEq, place_inj] at h
        exact h.resolve_right fun h => Nat.ne_of_lt hi h.2.1
      · have h := (hlog _).mp h
        simpa only [reduceCtorEq, or_false] using h
    · rw [hnew]
      obtain ⟨t', hcell, hslot, hle, hlt'⟩ := Segment.new_cell (T := T) c hfit start
      have hfresh : RingOk c (m.log ++ [.drawn e (place m.count start)]) m.count
          (Segment.new c start) := by
        refine ringOk_new hfit (fun e' t h => hput e' t ?_) fun d t r h => htaken d t r ?_
        · exact (List.mem_append.mp h).resolve_right (by simp)
        · exact (List.mem_append.mp h).resolve_right (by simp)
      refine (hfresh.fill hlegal₁ hlegal (List.mem_append_left _ ho.called) hcell
        fun t _ _ d r h => htaken d t r ?_).of_cell fun _ => rfl
      exact (List.mem_append.mp h).resolve_right (by simp)

/-! ## §2 — later states -/

theorem Later.setSegment {p : Nat} {s : Segment T} (hhead : (m.segment p).head ≤ s.head)
    (hnext : s.next = (m.segment p).next)
    (hflag : (m.segment p).tail.flag = true → s.tail.flag = true)
    (hphase : ∀ t, ((m.segment p).cell c t).phase ≤ (s.cell c t).phase) (e : Nat) :
    Later c m (m.setSegment p s) e := by
  refine ⟨.refl _ e, Nat.le_refl _, Nat.le_refl _, fun i _ => ?_, fun i _ h => ?_, fun i _ h => ?_,
    fun i _ t => ?_, fun _ _ _ _ _ h => .inl h, fun _ _ _ _ _ h => h, fun _ _ _ _ h => h⟩
  · rw [setSegment_segment]
    split
    · rename_i hi
      rwa [hi]
    · exact Nat.le_refl _
  · rw [setSegment_segment] at h
    split at h
    · rename_i hi
      rwa [hi, ← hnext]
    · exact h
  · rw [setSegment_segment]
    split
    · rename_i hi
      exact hflag (hi ▸ h)
    · exact h
  · rw [setSegment_segment]
    split
    · rename_i hi
      rw [hi]
      exact hphase t
    · exact Nat.le_refl _

/-- An entry of the call, other than a draw, a claim or what was taken. -/
theorem Later.push (h : Later c m m' e) {x : Entry Place T} (hx : x.id = e)
    (hdrawn : ∀ e' q, x ≠ .drawn e' q) (hclaimed : ∀ d q, x ≠ .claimed d q)
    (htaken : ∀ d q r, x ≠ .taken d q r) : Later c m (m'.push x) e := by
  refine ⟨h.log.concat hx, h.count, h.head, h.ringHead, h.next, h.flag, h.phase,
    fun i hi t d r hr => h.taken i hi t d r ?_, fun i hi hf t e' he => h.drawn i hi hf t e' ?_,
    fun i hi t d hd => h.claimed i hi t d ?_⟩
  · exact (mem_push.mp hr).resolve_right fun heq => htaken _ _ _ heq.symm
  · exact (mem_push.mp he).resolve_right fun heq => hdrawn _ _ heq.symm
  · exact (mem_push.mp hd).resolve_right fun heq => hclaimed _ _ heq.symm

/-- A ticket of a ring that was open. -/
theorem Later.pushDrawn (h : Later c m m' e) {p t : Nat}
    (hopen : p < m.count → (m.segment p).tail.flag = false) :
    Later c m (m'.push (.drawn e (place p t))) e := by
  refine ⟨h.log.concat rfl, h.count, h.head, h.ringHead, h.next, h.flag, h.phase,
    fun i hi t' d r hr => h.taken i hi t' d r ((mem_push.mp hr).resolve_right (by simp)),
    fun i hi hf t' e' he => ?_,
    fun i hi t' d hd => h.claimed i hi t' d ((mem_push.mp hd).resolve_right (by simp))⟩
  rcases mem_push.mp he with he | he
  · exact h.drawn i hi hf t' e' he
  · rw [Entry.drawn.injEq, place_inj] at he
    rw [he.2.1] at hi hf
    rw [hopen hi] at hf
    cases hf

/-- What was taken at a cell, which has come further by that. -/
theorem Later.pushTaken (h : Later c m m' e) {p t : Nat} {r : Option T}
    (hphase : p < m.count → ∀ j ≤ ((m.segment p).cell c t).idx.index, j ≤ t →
      2 * j < ((m'.segment p).cell c t).phase) :
    Later c m (m'.push (.taken e (place p t) r)) e := by
  refine ⟨h.log.concat rfl, h.count, h.head, h.ringHead, h.next, h.flag, h.phase,
    fun i hi t' d r' hr => ?_,
    fun i hi hf t' e' he => h.drawn i hi hf t' e' ((mem_push.mp he).resolve_right (by simp)),
    fun i hi t' d hd => h.claimed i hi t' d ((mem_push.mp hd).resolve_right (by simp))⟩
  rcases mem_push.mp hr with hr | hr
  · exact h.taken i hi t' d r' hr
  · rw [Entry.taken.injEq, place_inj] at hr
    obtain ⟨-, ⟨rfl, rfl⟩, -⟩ := hr
    exact .inr (hphase hi)

/-- A ticket of the ring at the head of the list. -/
theorem Later.pushClaimed (h : Later c m m' e) {p t : Nat} (hp : m.head ≤ p) :
    Later c m (m'.push (.claimed e (place p t))) e := by
  refine ⟨h.log.concat rfl, h.count, h.head, h.ringHead, h.next, h.flag, h.phase,
    fun i hi t' d r hr => h.taken i hi t' d r ((mem_push.mp hr).resolve_right (by simp)),
    fun i hi hf t' e' he => h.drawn i hi hf t' e' ((mem_push.mp he).resolve_right (by simp)),
    fun i hi t' d hd => ?_⟩
  rcases mem_push.mp hd with hd | hd
  · exact h.claimed i hi t' d hd
  · rw [Entry.claimed.injEq, place_inj] at hd
    omega

theorem Later.setTail {p : Nat} {w : Word}
    (hflag : (m.segment p).tail.flag = true → w.flag = true) (e : Nat) :
    Later c m (m.setTail p w) e := by
  refine Later.setSegment ?_ ?_ hflag (fun t => ?_) e
  · exact Nat.le_refl _
  · rfl
  · exact Nat.le_refl _

theorem Later.addHead {p : Nat} (hfit : (m.segment p).head + 1 < 2 ^ 64) (e : Nat) :
    Later c m (m.addHead p) e := by
  refine Later.setSegment ?_ ?_ (fun h => ?_) (fun t => ?_) e
  · dsimp only
    rw [u64_of_lt hfit]
    exact Nat.le_succ _
  · rfl
  · exact h
  · exact Nat.le_refl _

/-- A cell comes further. -/
theorem Later.setCell {p t : Nat} {x : Cell T}
    (hphase : ((m.segment p).cell c t).phase ≤ x.phase) (e : Nat) :
    Later c m (m.setCell c p t x) e := by
  refine Later.setSegment ?_ ?_ (fun h => ?_) (fun t' => ?_) e
  · exact Nat.le_refl _
  · rfl
  · exact h
  · rw [Segment.setCell_cell]
    split
    · rename_i hslot
      rwa [Segment.cell_congr c _ hslot]
    · exact Nat.le_refl _

theorem Later.casTail (cmp val e : Nat) : Later c m (m.casTail cmp val) e :=
  ⟨.refl _ e, Nat.le_refl _, Nat.le_refl _, fun _ _ => Nat.le_refl _, fun _ _ h => h,
    fun _ _ h => h, fun _ _ _ => Nat.le_refl _, fun _ _ _ _ _ h => .inl h, fun _ _ _ _ _ h => h,
    fun _ _ _ _ h => h⟩

theorem Later.moveHead (m : Shared T) (e : Nat) : Later c m { m with head := m.head + 1 } e :=
  ⟨.refl _ e, Nat.le_refl _, Nat.le_succ _, fun _ _ => Nat.le_refl _, fun _ _ h => h,
    fun _ _ h => h, fun _ _ _ => Nat.le_refl _, fun _ _ _ _ _ h => .inl h, fun _ _ _ _ _ h => h,
    fun _ _ _ _ h => h⟩

theorem Later.link (p e : Nat) (s : Segment T) : Later c m (m.link p s) e := by
  refine ⟨.refl _ e, Nat.le_succ _, Nat.le_refl _, fun i hi => ?_, fun i hi h => ?_,
    fun i hi h => ?_, fun i hi t => ?_, fun _ _ _ _ _ h => .inl h, fun _ _ _ _ _ h => h,
    fun _ _ _ _ h => h⟩
  · rw [link_segment_of_lt p s hi]
  · rw [link_segment_of_lt p s hi] at h
    by_cases hip : i = p
    · rw [if_pos hip] at h
      cases h
    · rwa [if_neg hip] at h
  · rwa [link_segment_of_lt p s hi]
  · rw [link_segment_of_lt p s hi]
    exact Nat.le_refl _

theorem Later.logClaimed (h : Later c m m' e) (p t : Nat) :
    Later c m (m'.logClaimed e p t) e := by
  unfold Shared.logClaimed
  split
  · rename_i hhead
    exact h.pushClaimed (hhead ▸ h.head)
  · exact h

theorem Later.logTaken [DecidableEq T] (h : Later c m m' e) {p t : Nat} (r : Option T)
    (hphase : p < m.count → ∀ j ≤ ((m.segment p).cell c t).idx.index, j ≤ t →
      2 * j < ((m'.segment p).cell c t).phase) :
    Later c m (m'.logTaken e p t r) e := by
  unfold Shared.logTaken
  split
  · exact h.pushTaken hphase
  · exact h

/-- A dequeue has stored into the cell of its ticket. -/
theorem Later.setCell_logTaken [DecidableEq T] {p t : Nat} {x y : Cell T} (r : Option T)
    (hcell : (m.segment p).cell c t = x) (hphase : x.phase ≤ y.phase)
    (hlt : ∀ j ≤ x.idx.index, j ≤ t → 2 * j < y.phase) (e : Nat) :
    Later c m ((m.setCell c p t y).logTaken e p t r) e := by
  subst hcell
  refine (Later.setCell hphase e).logTaken r fun _ j hj hjt => ?_
  rw [setCell_cell, if_pos rfl]
  exact hlt j hj hjt

/-! ## §3 — steps and runs -/

theorem MemOk.count_of_last (hm : MemOk c m) {p : Nat} (hp : p < m.count)
    (hnext : (m.segment p).next = none) : p + 1 = m.count := by
  by_contra hne
  rw [hm.next p (by omega)] at hnext
  cases hnext

theorem MemOk.next_eq (hm : MemOk c m) {p q : Nat} (hp : p < m.count)
    (hnext : (m.segment p).next = some q) : q = p + 1 ∧ q < m.count := by
  by_cases hlt : p + 1 < m.count
  · rw [hm.next p hlt] at hnext
    obtain rfl := Option.some.inj hnext
    exact ⟨rfl, hlt⟩
  · rw [hm.last p (by omega)] at hnext
    cases hnext

/-- A call begins. -/
theorem call_stepOk (hm : MemOk c m) (a : Action T) :
    (outline c).StepOk m .idle (call m a).1 (call m a).2 := by
  cases a with
  | go =>
      exact stepOk_of_later hm hm trivial (Later.refl c m m.log.length) (.inr rfl)
        fun e h => by cases h
  | enqueue item =>
      exact stepOk_of_later hm (hm.pushVisible rfl (hm.legal.enqueue item))
        (EnqOpen.new hm.legal item)
        ((Later.refl c m m.log.length).push rfl (by simp) (by simp) (by simp)) (.inr rfl)
        fun e h => (Option.some.inj h).symm
  | dequeue =>
      exact stepOk_of_later hm (hm.pushVisible rfl hm.legal.dequeue) (DeqOpen.new hm.legal)
        ((Later.refl c m m.log.length).push rfl (by simp) (by simp) (by simp)) (.inr rfl)
        fun e h => (Option.some.inj h).symm

/-- A step of a call that does not change the queue. -/
theorem stepOk_of_local (hm : MemOk c m) {pc pc' : Pc T} (he : pc.call = some e)
    (he' : pc'.call = some e) (hpc' : PcOk c m pc') : (outline c).StepOk m pc m pc' :=
  stepOk_of_later hm hm hpc' (Later.refl c m e) (.inl he) fun e' h => by
    rw [he'] at h
    exact (Option.some.inj h).symm

/-- A cell whose index was read as safe: no ticket from that index on was taken there. -/
theorem MemOk.free_of_safe (hm : MemOk c m) {p t : Nat} (hp : p < m.count)
    (hflag : ((m.segment p).cell c t).idx.flag = false) :
    Free c m p t ((m.segment p).cell c t).idx.index ((m.segment p).cell c t).idx := by
  intro t' ht' hslot d r hr
  have hdead := (hm.ring p hp).dead d t' r hr
  rw [Segment.cell_congr c _ hslot, hflag] at hdead
  rcases hdead with hlt | hf
  · exact absurd ht' (Nat.not_le_of_lt hlt)
  · cases hf

/-- A ticket that the head of its ring has not reached: no ticket from it on was taken. -/
theorem MemOk.free_of_head (hm : MemOk c m) {p t : Nat} {idx : Word}
    (hhead : (m.segment p).head < t) : Free c m p t t idx := by
  intro t' ht' _ d r hr
  have hlt := (hm.claimed p t' d (taken_claimed hm.legal hr)).2
  omega

/-- A ring whose tail is not ahead of a ticket that was drawn for: nothing waits there. -/
theorem MemOk.drained_of_tail (hm : MemOk c m) {p t : Nat} (hp : p < m.count)
    (ht : t < (m.segment p).head) (htail : (m.segment p).tail.index ≤ t + 1) : Drained m p := by
  intro e' t' h
  have hlt := (hm.drawn p t' e' h).2
  exact hm.below p hp t' (by omega) (.inl ⟨e', h⟩)

/-- What such a ring shows. -/
theorem MemOk.sawNothing (hm : MemOk c m) {d p : Nat} (hp : p ≤ m.head)
    (hd : Drained m p) (ho : DeqOpen m.log d) (lnext : Option Nat) : SawNothing m d p lnext := by
  have hhead := hm.head_lt
  cases lnext with
  | some lnext => exact hd
  | none =>
      intro hnext
      have hlast := hm.count_of_last (by omega) hnext
      refine SawEmpty.now hm.legal ho.called fun e' q hq => ?_
      obtain ⟨i, t, rfl⟩ := exists_place q
      have hi := (hm.drawn i t e' hq).1
      rcases Nat.lt_or_ge i m.head with h | h
      · exact hm.drained i h e' t hq
      · obtain rfl : i = p := by omega
        exact hd e' t hq

section Steps

variable [DecidableEq T]

/-- **Every access of `enqueue` keeps what holds of the queue and of the threads.** -/
theorem accessEnqueue_stepOk (hm : MemOk c m) (hfit : m.Fits c) {pc : Pc T} (hpc : PcOk c m pc)
    (hin : pc.inEnqueue = true) :
    (outline c).StepOk m pc (accessEnqueue c m pc).1 (accessEnqueue c m pc).2 := by
  have hpos := c.ringSize_pos
  cases pc with
  | enqLoad d item => exact stepOk_of_local hm rfl rfl ⟨hpc, hm.tail_lt⟩
  | enqCheck d item ltail =>
      rw [accessEnqueue]
      split
      · exact stepOk_of_local hm rfl rfl ⟨hpc.1, hm.tail_lt⟩
      · exact stepOk_of_local hm rfl rfl hpc
  | enqNext d item ltail =>
      rw [accessEnqueue]
      split
      · rename_i lnext hnext
        exact stepOk_of_local hm rfl rfl ⟨hpc.1, (hm.next_eq hpc.2 hnext).2⟩
      · exact stepOk_of_local hm rfl rfl hpc
  | enqHelp d item ltail lnext =>
      rw [accessEnqueue]
      split
      · exact stepOk_of_later hm (hm.casTail ltail hpc.2) hpc (Later.casTail ltail lnext d)
          (.inl rfl) fun e' h => (Option.some.inj h).symm
      · exact stepOk_of_later hm (hm.casTail ltail hpc.2) hpc.1 (Later.casTail ltail lnext d)
          (.inl rfl) fun e' h => (Option.some.inj h).symm
  -- a ticket of a closed ring is void; one of an open ring goes to the log
  | ringTicket d item p k =>
      obtain ⟨ho, hp⟩ := hpc
      have hcall : ∀ e', some d = some e' → e' = d := fun e' h => (Option.some.inj h).symm
      rw [accessEnqueue, Word.succ_of_lt (by have := (hfit p hp).2; omega)]
      split
      · rename_i hflag
        refine stepOk_of_later hm (hm.setTail hp (Nat.le_succ _) id fun _ => .inl hflag)
          ⟨ho, hp, ?_⟩ (Later.setTail (fun _ => ?_) d) (.inl rfl) hcall
        · rwa [Shared.setTail, setSegment_self]
        · exact hflag
      · rename_i hflag
        have hopen : (m.segment p).tail.flag = false := Bool.eq_false_of_not_eq_true hflag
        rw [hopen]
        refine stepOk_of_later hm (hm.draw hp hopen ho) ⟨ho.drawn, hp, mem_push_self⟩
          ((Later.setTail (fun h => ?_) d).pushDrawn fun _ => hopen) (.inl rfl) hcall
        exact absurd h hflag
  | ringIdx d item p k t =>
      obtain ⟨ho, hp, hdrawn⟩ := hpc
      exact stepOk_of_local hm rfl rfl ⟨ho, hp, hdrawn, ⟨(hm.ring p hp).index t, Nat.le_refl _⟩,
        hm.free_of_safe hp⟩
  | ringVal d item p k t idx =>
      obtain ⟨ho, hp, hdrawn, hseen, hfree⟩ := hpc
      rw [accessEnqueue]
      split
      · rename_i hcond
        split
        · exact stepOk_of_local hm rfl rfl ⟨ho, hp, hdrawn, hseen, hcond.2⟩
        · rename_i hflag
          refine stepOk_of_local hm rfl rfl ⟨ho, hp, hdrawn, hseen, hcond.2, fun t' ht' => ?_⟩
          exact hfree (Bool.eq_false_of_not_eq_true hflag) t' (hcond.2.trans ht')
      · exact stepOk_of_local hm rfl rfl ⟨ho, hp, hdrawn⟩
  | ringSafe d item p k t idx =>
      obtain ⟨ho, hp, hdrawn, hseen, hle⟩ := hpc
      rw [accessEnqueue]
      split
      · rename_i hhead
        exact stepOk_of_local hm rfl rfl ⟨ho, hp, hdrawn, hseen, hle, hm.free_of_head hhead⟩
      · exact stepOk_of_local hm rfl rfl ⟨ho, hp, hdrawn⟩
  | ringPut d item p k t idx =>
      obtain ⟨ho, hp, hdrawn, -, hle, hfree⟩ := hpc
      rw [accessEnqueue]
      split
      · rename_i hcell
        have hphase : ((m.segment p).cell c t).phase ≤ Cell.phase ⟨some item, false, t⟩ := by
          rw [hcell]
          exact Nat.le_succ_of_le (Nat.mul_le_mul_left 2 hle)
        exact stepOk_of_later hm (hm.fill hp ho hdrawn hcell hfree) ⟨_, mem_push_self⟩
          ((Later.setCell hphase d).push rfl (by simp) (by simp) (by simp)) (.inl rfl)
          fun e' h => (Option.some.inj h).symm
      · exact stepOk_of_local hm rfl rfl ⟨ho, hp, hdrawn⟩
  | ringFull d item p k t =>
      rw [accessEnqueue]
      split
      · exact stepOk_of_local hm rfl rfl hpc
      · exact stepOk_of_local hm rfl rfl ⟨hpc.1, hpc.2.1⟩
  -- below the bounds on tickets `fetch_or` and the compare-exchange only set the flag
  | ringClose d item p k t =>
      obtain ⟨ho, hp, hdrawn⟩ := hpc
      have hcall : ∀ e', some d = some e' → e' = d := fun e' h => (Option.some.inj h).symm
      have hlt : t < (m.segment p).tail.index := (hm.drawn p t d hdrawn).2
      have hbelow : t + 1 < 2 ^ 63 := by
        have := (hfit p hp).2
        omega
      rw [accessEnqueue, Word.ofNat_of_lt hbelow, Word.mark_of_lt true hbelow]
      split
      · have hm' := hm.setTail (w := ⟨true, (m.segment p).tail.index⟩) hp (Nat.le_refl _)
          (fun _ => rfl) fun _ => .inr (Nat.zero_lt_of_lt hlt)
        split
        · exact stepOk_of_later hm hm' ⟨ho, hp⟩ (Later.setTail (fun _ => rfl) d) (.inl rfl) hcall
        · refine stepOk_of_later hm hm' ⟨ho, hp, ?_⟩ (Later.setTail (fun _ => rfl) d) (.inl rfl)
            hcall
          rw [Shared.setTail, setSegment_self]
      · split
        · rename_i htail
          refine stepOk_of_later hm
            (hm.setTail hp ?_ (fun _ => rfl) fun _ => .inr (Nat.succ_pos t)) ⟨ho, hp, ?_⟩
            (Later.setTail (fun _ => rfl) d) (.inl rfl) hcall
          · rw [htail]
          · rw [Shared.setTail, setSegment_self]
        · exact stepOk_of_local hm rfl rfl ⟨ho, hp⟩
  | enqCreate d item ltail =>
      obtain ⟨ho, hp, hclosed⟩ := hpc
      refine stepOk_of_local hm rfl rfl ⟨ho, hp, hclosed, ?_⟩
      have hfirst := hm.pos ltail hp hclosed
      have hlast := (hfit ltail hp).2
      unfold u64
      omega
  | enqLink d item ltail start =>
      obtain ⟨ho, hp, hclosed, hstart⟩ := hpc
      rw [accessEnqueue]
      split
      · rename_i hnext
        refine stepOk_of_later hm (hm.link (hm.count_of_last hp hnext) hclosed ho hstart)
          ⟨⟨_, mem_push_self⟩, Nat.lt_succ_self _⟩
          (((Later.link ltail d _).pushDrawn fun h => absurd h (Nat.lt_irrefl _)).push rfl
            (by simp) (by simp) (by simp)) (.inl rfl) fun e' h => (Option.some.inj h).symm
      · rename_i lnext hnext
        exact stepOk_of_local hm rfl rfl ⟨ho, (hm.next_eq hp hnext).2⟩
  | enqSwing d ltail newTail =>
      exact stepOk_of_later hm (hm.casTail ltail hpc.2) hpc.1 (Later.casTail ltail newTail d)
        (.inl rfl) fun e' h => (Option.some.inj h).symm
  | enqReturn d =>
      exact stepOk_of_later hm (hm.pushVisible rfl (hm.legal.enqueued hpc)) trivial
        ((Later.refl c m d).push rfl (by simp) (by simp) (by simp)) (.inl rfl)
        fun e' h => by cases h
  | _ => cases hin

omit [DecidableEq T] in
/-- Where a dequeue goes on when its cell was empty. -/
theorem pcOk_skipOrLoop {d p t r : Nat} {lnext : Option Nat} {tt idx : Word}
    (ht : HasTicket m d p t) (hp : p ≤ m.head) (hf : Follows m p lnext) (hle : idx.index ≤ t) :
    PcOk c m (skipOrLoop d p lnext t r tt idx) := by
  unfold skipOrLoop
  split
  · exact ⟨ht, hp, hf, hle⟩
  · exact ⟨ht, hp, hf⟩

omit [DecidableEq T] in
theorem call_skipOrLoop (d p t r : Nat) (lnext : Option Nat) (tt idx : Word) :
    (skipOrLoop (T := T) d p lnext t r tt idx).call = some d := by
  unfold skipOrLoop
  split <;> rfl

omit [DecidableEq T] in
/-- Where a dequeue goes on when the ring had nothing. -/
theorem pcOk_afterNull {d p : Nat} {lnext : Option Nat} (ho : DeqOpen m.log d) (hp : p ≤ m.head)
    (hf : Follows m p lnext) (hn : SawNothing m d p lnext) : PcOk c m (afterNull d p lnext) := by
  cases lnext with
  | none => exact ⟨ho, hp, hn⟩
  | some lnext => exact ⟨ho, hp, hf, hn⟩

omit [DecidableEq T] in
theorem call_afterNull (d p : Nat) (lnext : Option Nat) :
    (afterNull (T := T) d p lnext).call = some d := by
  cases lnext <;> rfl

/-- A ticket that was of no use: what the dequeue knows then. -/
theorem pcOk_takeRest {d p t : Nat} {lnext : Option Nat} (ht : HasTicket m d p t)
    (hp : p ≤ m.head) (hf : Follows m p lnext) :
    PcOk c (m.logTaken d p t none) (.takeRest d p lnext t) := by
  have hkeep : (m.logTaken d p t none).segment = m.segment ∧
      (m.logTaken d p t none).head = m.head ∧ (m.logTaken d p t none).count = m.count := by
    unfold Shared.logTaken
    split <;> exact ⟨rfl, rfl, rfl⟩
  obtain ⟨hsegment, hhead, hcount⟩ := hkeep
  refine ⟨deqOpen_logTaken_none ht, hp.trans_eq hhead.symm, ?_, ?_⟩
  · cases lnext with
    | none => trivial
    | some lnext => exact ⟨hf.1, hf.2.trans_eq hcount.symm⟩
  · rw [hsegment]
    exact ht.1

/-- **Every access of `dequeue` keeps what holds of the queue and of the threads.** -/
theorem accessDequeue_stepOk (hm : MemOk c m) (hfit : m.Fits c) {pc : Pc T} (hpc : PcOk c m pc)
    (hin : pc.inEnqueue = false) :
    (outline c).StepOk m pc (accessDequeue c m pc).1 (accessDequeue c m pc).2 := by
  have hhead := hm.head_lt
  have hpos := c.ringSize_pos
  cases pc with
  | idle => exact call_stepOk hm .go
  | deqLoad d => exact stepOk_of_local hm rfl rfl ⟨hpc, Nat.le_refl _⟩
  | deqCheck d lhead =>
      rw [accessDequeue]
      split
      · exact stepOk_of_local hm rfl rfl ⟨hpc.1, Nat.le_refl _⟩
      · exact stepOk_of_local hm rfl rfl ⟨hpc.1, hpc.2, trivial⟩
  | takeTicket d p lnext =>
      obtain ⟨ho, hp, hf⟩ := hpc
      have hsum : (m.segment p).head + 1 < 2 ^ 64 := by
        have := (hfit p (by omega)).1
        omega
      obtain ⟨hm', ht⟩ := hm.claim hp ho hsum
      have hlater := (Later.addHead (c := c) hsum d).logClaimed p (m.segment p).head
      exact stepOk_of_later hm hm' ⟨ht, hp.trans hlater.head, hf.other hlater⟩ hlater (.inl rfl)
        fun e' h => (Option.some.inj h).symm
  | takeIdx d p lnext t r tt =>
      obtain ⟨ht, hp, hf⟩ := hpc
      exact stepOk_of_local hm rfl rfl
        ⟨ht, hp, hf, (hm.ring p (by omega)).index t, Nat.le_refl _⟩
  | takeVal d p lnext t r tt idx =>
      obtain ⟨ht, hp, hf, hseen⟩ := hpc
      rw [accessDequeue]
      split
      · -- the cell has moved on
        rename_i hgt
        have hcell : t < ((m.segment p).cell c t).idx.index := Nat.lt_of_lt_of_le hgt hseen.2
        refine stepOk_of_later hm
          (hm.logTaken_none (by omega) ht (.inl hcell) (.inr (Nat.ne_of_gt hcell)))
          (pcOk_takeRest ht hp hf) ((Later.refl c m d).logTaken none fun _ j _ hjt => ?_) (.inl rfl)
          fun e' h => (Option.some.inj h).symm
        unfold Cell.phase
        omega
      · rename_i hle
        split
        · split
          · rename_i heq
            exact stepOk_of_local hm rfl rfl ⟨ht, hp, hf, heq⟩
          · rename_i hne
            exact stepOk_of_local hm rfl rfl ⟨ht, hp, hf, by omega⟩
        · split
          · exact stepOk_of_local hm rfl rfl ⟨ht, hp, hf, Nat.le_of_not_lt hle⟩
          · exact stepOk_of_local hm rfl (call_skipOrLoop d p t r lnext tt idx)
              (pcOk_skipOrLoop ht hp hf (Nat.le_of_not_lt hle))
  | takeTail d p lnext t r idx =>
      obtain ⟨ht, hp, hf, hle⟩ := hpc
      exact stepOk_of_local hm rfl (call_skipOrLoop d p t r lnext _ idx)
        (pcOk_skipOrLoop ht hp hf hle)
  | takeItem d p lnext t r tt val idx =>
      obtain ⟨ht, hp, hf, hidx⟩ := hpc
      have hround : t + c.ringSize < 2 ^ 63 := by
        have := (hfit p (by omega)).1
        have := ht.1
        omega
      rw [accessDequeue, Word.mark_of_lt idx.flag hround]
      split
      · rename_i hcell
        obtain ⟨hold, hm'⟩ := hm.takeItem (by omega) ht hcell hidx
        have hfound : Found ((m.setCell c p t ⟨none, idx.flag, t + c.ringSize⟩).logTaken d p t
            (some val)).log d val := by
          rw [logTaken_of_holding (m := m.setCell c p t _) (some val) hold]
          exact hold.found val
        refine stepOk_of_later hm hm' hfound (Later.setCell_logTaken (some val) hcell ?_ ?_ d)
          (.inl rfl) fun e' h => (Option.some.inj h).symm
        · change 2 * idx.index + 1 ≤ 2 * (t + c.ringSize)
          omega
        · intro j _ hjt
          change 2 * j < 2 * (t + c.ringSize)
          omega
      · exact stepOk_of_local hm rfl rfl ⟨ht, hp, hf⟩
  | takeMark d p lnext t r tt val idx =>
      obtain ⟨ht, hp, hf, hidx⟩ := hpc
      rw [accessDequeue]
      split
      · rename_i hcell
        -- the item of an earlier round stays, and its cell is marked unsafe
        refine stepOk_of_later hm (hm.takeMark (by omega) ht hcell hidx)
          (pcOk_takeRest (hasTicket_setCell ht) hp hf)
          (Later.setCell_logTaken none hcell ?_ ?_ d) (.inl rfl)
          fun e' h => (Option.some.inj h).symm
        · exact Nat.le_refl _
        · intro j hj _
          have hj : j ≤ idx.index := hj
          change 2 * j < 2 * idx.index + 1
          omega
      · exact stepOk_of_local hm rfl rfl ⟨ht, hp, hf⟩
  | takeSkip d p lnext t r tt idx =>
      obtain ⟨ht, hp, hf, hle⟩ := hpc
      have hround : t + c.ringSize < 2 ^ 63 := by
        have := (hfit p (by omega)).1
        have := ht.1
        omega
      rw [accessDequeue, Word.mark_of_lt idx.flag hround]
      split
      · rename_i hcell
        -- the empty cell goes to the next round, before the enqueue of this ticket comes
        refine stepOk_of_later hm (hm.takeSkip (by omega) ht hcell hle)
          (pcOk_takeRest (hasTicket_setCell ht) hp hf)
          (Later.setCell_logTaken none hcell ?_ ?_ d) (.inl rfl)
          fun e' h => (Option.some.inj h).symm
        · change 2 * idx.index ≤ 2 * (t + c.ringSize)
          omega
        · intro j _ hjt
          change 2 * j < 2 * (t + c.ringSize)
          omega
      · exact stepOk_of_local hm rfl rfl ⟨ht, hp, hf⟩
  -- where head has passed tail the ring is empty, and `fixState` follows
  | takeRest d p lnext t =>
      obtain ⟨ho, hp, hf, ht⟩ := hpc
      have hsum : t + 1 < 2 ^ 64 := by
        have := (hfit p (by omega)).1
        omega
      rw [accessDequeue, u64_of_lt hsum]
      split
      · rename_i htail
        have hd := hm.drained_of_tail (by omega) ht htail
        exact stepOk_of_local hm rfl rfl ⟨ho, hp, hf, hm.sawNothing hp hd ho lnext⟩
      · exact stepOk_of_local hm rfl rfl ⟨ho, hp, hf⟩
  | fixTail d p lnext => exact stepOk_of_local hm rfl rfl hpc
  | fixHead d p lnext w =>
      obtain ⟨ho, hp, hf, hn⟩ := hpc
      refine stepOk_of_local hm rfl rfl ⟨ho, hp, hf, hn, ?_⟩
      have := (hfit p (by omega)).1
      omega
  | fixCheck d p lnext w h =>
      obtain ⟨ho, hp, hf, hn, hlt⟩ := hpc
      rw [accessDequeue]
      split
      · exact stepOk_of_local hm rfl rfl ⟨ho, hp, hf, hn⟩
      · split
        · rename_i hgt
          obtain ⟨hflag, hindex⟩ := Word.lt_toNat hlt hgt
          exact stepOk_of_local hm rfl rfl ⟨ho, hp, hf, hn, hlt, hflag, Nat.le_of_lt hindex⟩
        · exact stepOk_of_local hm rfl (call_afterNull d p lnext) (pcOk_afterNull ho hp hf hn)
  | fixCas d p lnext w h =>
      obtain ⟨ho, hp, hf, hn, hlt, hflag, hle⟩ := hpc
      rw [accessDequeue, Word.ofNat_of_lt hlt]
      split
      · rename_i htail
        have hclosed : (m.segment p).tail.flag = true → (⟨false, h⟩ : Word).flag = true := by
          rw [htail, hflag]
          exact id
        have hlater := Later.setTail (c := c) hclosed d
        refine stepOk_of_later hm
          (hm.setTail (by omega) (by rw [htail]; exact hle) hclosed fun h => by cases h)
          (pcOk_afterNull ho hp (hf.other hlater) ?_) hlater (.inl rfl) fun e' he' => ?_
        · exact hn.other hlater hm (by omega) hf
        · rw [call_afterNull] at he'
          exact (Option.some.inj he').symm
      · exact stepOk_of_local hm rfl rfl ⟨ho, hp, hf, hn⟩
  | deqNext d lhead =>
      obtain ⟨ho, hp, hn⟩ := hpc
      rw [accessDequeue]
      split
      · rename_i lnext hnext
        exact stepOk_of_local hm rfl rfl ⟨ho, hp, hm.next_eq (by omega) hnext⟩
      · rename_i hnext
        exact stepOk_of_local hm rfl rfl ⟨ho, hn hnext⟩
  | deqSwing d lhead lnext =>
      obtain ⟨ho, hp, hf, hd⟩ := hpc
      rw [accessDequeue]
      split
      · rename_i heq
        obtain ⟨rfl, hlt⟩ := hf
        subst heq
        exact stepOk_of_later hm (hm.moveHead hlt hd) ⟨ho, Nat.le_refl _⟩ (Later.moveHead m d)
          (.inl rfl) fun e' h => (Option.some.inj h).symm
      · exact stepOk_of_local hm rfl rfl ⟨ho, Nat.le_refl _⟩
  | deqReturn d ret =>
      have hlegal : Legal (m.log ++ [.dequeued d ret]) := by
        cases ret with
        | none => exact hm.legal.dequeuedNone hpc.1 hpc.2
        | some a => exact hm.legal.dequeuedSome hpc
      exact stepOk_of_later hm (hm.pushVisible rfl hlegal) trivial
        ((Later.refl c m d).push rfl (by simp) (by simp) (by simp)) (.inl rfl)
        fun e' h => by cases h
  | _ => cases hin

theorem stepThread_stepOk (hm : MemOk c m) (hfit : m.Fits c) {pc : Pc T} (hpc : PcOk c m pc)
    (a : Action T) :
    (outline c).StepOk m pc (stepThread c a m pc).1 (stepThread c a m pc).2 := by
  unfold stepThread
  split
  · exact call_stepOk hm a
  · split
    · rename_i hin
      exact accessEnqueue_stepOk hm hfit hpc hin
    · rename_i hin
      exact accessDequeue_stepOk hm hfit hpc (Bool.eq_false_of_not_eq_true hin)
  · -- an action that does not fit is ignored
    exact .of_memory hm hpc fun q _ h h' => ⟨h, h'⟩

end Steps

/-- The constructor leaves one ring, of which nothing has happened. -/
theorem outline_init (c : Config) (n : Nat) (hfit : (Shared.init (T := T) c).Fits c) :
    (outline (T := T) c).Holds (init c n) where
  shared := by
    have hring : 0 + c.ringSize < 2 ^ 63 := (hfit 0 Nat.one_pos).1
    have htail : (Segment.new (T := T) c 0).tail = ⟨false, 0⟩ := Word.ofNat_of_lt (by decide)
    refine ⟨legal_nil, Nat.one_pos, Nat.one_pos, fun i hi => ?_, fun _ _ => rfl, fun i hi => ?_,
      fun i _ h => ?_, fun i t e h => absurd h List.not_mem_nil,
      fun i t d h => absurd h List.not_mem_nil, fun i _ t ht hcond => ?_,
      fun i hi => absurd hi (Nat.not_lt_zero i), fun i _ => ?_⟩
    · exact absurd (Nat.lt_of_succ_lt_succ hi) (Nat.not_lt_zero i)
    · exact absurd (Nat.lt_of_succ_lt_succ hi) (Nat.not_lt_zero i)
    · have h : (Segment.new (T := T) c 0).tail.flag = true := h
      rw [htail] at h
      cases h
    · exact absurd ht (Nat.not_lt_zero t)
    · exact ringOk_new hring (fun _ _ => List.not_mem_nil) fun _ _ _ => List.not_mem_nil
  thread _ := trivial
  pair _ _ _ := fun _ h => by cases h

theorem outline_run [DecidableEq T] (c : Config) {n : Nat} (ls : List (Fin n × Action T))
    (hfit : RunFits c ls) : (outline c).Holds (run c ls) :=
  (outline_init c n (hfit.tickets 0 (Nat.zero_le _))).run_of_states (Shared.Fits c)
    (fun a _ _ hm hpc hok => stepThread_stepOk hm hok hpc a) ls
    fun k hk => hfit.tickets k (Nat.le_of_lt hk)

/-- **`LCRQueue` is linearizable**, for every ring size, cell layout and order of the cells, as long as
its tickets stay below the flags: whatever the threads do, there is an order of the calls that respects
which call ended before which began, and in which a FIFO queue gives the same answers. -/
theorem lcrq_linearizable [DecidableEq T] (c : Config) {n : Nat} (ls : List (Fin n × Action T))
    (hfit : RunFits c ls) : Linearizable fifo [] (history c ls) :=
  Legal.linearizable (outline_run c ls hfit).shared.legal

/-- Thread 1 spoils the cell for which thread 0 has a ticket, and takes 5 from the next one. Then thread
0 fills both cells and needs a second ring. -/
def spoiled : List (Fin 2 × Action Nat) :=
  ((1, .dequeue) :: List.replicate 6 (1, .go)) ++ ((0, .enqueue 5) :: List.replicate 6 (0, .go)) ++
    ((1, .go) :: List.replicate 7 (0, .go)) ++ List.replicate 6 (1, .go) ++
    ((0, .enqueue 6) :: List.replicate 8 (0, .go)) ++
    ((0, .enqueue 7) :: List.replicate 8 (0, .go)) ++
    ((0, .enqueue 8) :: List.replicate 40 (0, .go))

theorem lcrq_linearizable_spoiled :
    Linearizable fifo [] (history ⟨2, false, false, by decide, fun h => by cases h⟩ spoiled) ∧
      (run ⟨2, false, false, by decide, fun h => by cases h⟩ spoiled).shared.count = 2 ∧
      history ⟨2, false, false, by decide, fun h => by cases h⟩ spoiled =
        [.call 0 .dequeue, .call 2 (.enqueue 5), .ret 2 none, .ret 0 (some 5),
          .call 11 (.enqueue 6), .ret 11 none, .call 15 (.enqueue 7), .ret 15 none,
          .call 19 (.enqueue 8), .ret 19 none] :=
  ⟨lcrq_linearizable _ spoiled ⟨by decide, by decide +kernel⟩, by decide +kernel, by decide +kernel⟩

end RelaxedConcurrentFifo.LCRQueue
