/-
# RelaxedConcurrentFifo.MichaelScottQueue.Linearizable — no access to a node that is not there

Every access keeps what holds of the queue and of the threads (`accessEnqueue_stepOk` and so on). So no
run ever sets `fault`, although memory is given back and used again while other threads still hold
pointers to it, and every run is linearizable. `estimateSize` looks at the head before the tail, so it
never subtracts the greater number from the smaller.
-/
import RelaxedConcurrentFifo.MichaelScottQueue.Invariant

namespace RelaxedConcurrentFifo.MichaelScottQueue

open RelaxedConcurrentFifo.HazardPointers
open RelaxedConcurrentFifo.Lib.Interleaving
open RelaxedConcurrentFifo.Lib.Linearizability
open RelaxedConcurrentFifo.Lib.TicketQueue

variable {T : Type} {m m' : Shared T} {l : Local T} {e : Nat} {a b : Addr} {k : Nat}

/-! ## §1 — what each access does to the queue -/

theorem mem_push {x y : Entry Nat T} : x ∈ (m.push y).log ↔ x ∈ m.log ∨ x = y := by
  rw [Shared.push, List.mem_append, List.mem_singleton]

theorem mem_push_self {x : Entry Nat T} : x ∈ (m.push x).log := mem_push.mpr (.inr rfl)

theorem setNode_heap (a' : Addr) (x : Option (Node T)) :
    (m.setNode a x).heap a' = if a' = a then x else m.heap a' := Function.update_apply ..

theorem setHp_self (tid index : Nat) (ptr : Option Addr) :
    (m.setHp tid index ptr).hp tid index = ptr := by
  simp [Shared.setHp]

theorem setHp_of_ne {index i : Nat} (tid : Nat) (ptr : Option Addr) (h : i ≠ index) :
    (m.setHp tid index ptr).hp tid i = m.hp tid i := by
  simp [Shared.setHp, h]

theorem setHp_other {tid t : Nat} (index : Nat) (ptr : Option Addr) (h : t ≠ tid) :
    (m.setHp tid index ptr).hp t = m.hp t := by
  simp [Shared.setHp, h]

theorem MemOk.setHp (hm : MemOk m) (tid index : Nat) (ptr : Option Addr) :
    MemOk (m.setHp tid index ptr) :=
  ⟨hm.legal, hm.inj, hm.lt, hm.seqId, hm.next, hm.last, hm.fresh, hm.live, hm.head, hm.tail,
    hm.tail_le, hm.drawn, hm.claimed, hm.item⟩

/-- An entry that is neither a draw nor a claim. -/
theorem MemOk.push (hm : MemOk m) {x : Entry Nat T} (hlegal : Legal (m.log ++ [x]))
    (hdrawn : ∀ e k, x ≠ .drawn e k) (hclaimed : ∀ d k, x ≠ .claimed d k) : MemOk (m.push x) := by
  refine ⟨hlegal, hm.inj, hm.lt, hm.seqId, hm.next, hm.last, hm.fresh, hm.live, hm.head, hm.tail,
    hm.tail_le, fun e k h => ?_, fun k => ?_, fun hnd hk hpos => ?_⟩
  · exact hm.drawn e k ((mem_push.mp h).resolve_right fun heq => hdrawn e k heq.symm)
  · refine Iff.trans (exists_congr fun d => ?_) (hm.claimed k)
    exact mem_push.trans (or_iff_left fun heq => hclaimed d k heq.symm)
  · obtain ⟨e, y, hput, hcall, hy⟩ := hm.item hnd hk hpos
    exact ⟨e, y, mem_push.mpr (.inl hput), mem_push.mpr (.inl hcall), hy⟩

/-- A node that is not in the list any more, or not yet, is written, made or deleted. -/
theorem MemOk.setNode (hm : MemOk m) {x : Option (Node T)}
    (hold : ∀ k, Linked m a k → k < m.headPlace)
    (hnew : ∀ nd, x = some nd → nd.place = none ∧ nd.next = none) : MemOk (m.setNode a x) := by
  have hheap : ∀ {a' : Addr} {nd : Node T} {k : Nat}, (m.setNode a x).heap a' = some nd →
      nd.place = some k → m.heap a' = some nd := by
    intro a' nd k h hk
    rw [setNode_heap] at h
    split at h
    · rw [(hnew nd h).1] at hk
      cases hk
    · exact h
  have hlinked : ∀ {a' : Addr} {k : Nat}, Linked (m.setNode a x) a' k → Linked m a' k := by
    rintro a' k ⟨nd, hnd, hk⟩
    exact ⟨nd, hheap hnd hk, hk⟩
  have hkeep : ∀ {a' : Addr} {k : Nat}, m.headPlace ≤ k → Linked m a' k →
      Linked (m.setNode a x) a' k := by
    intro a' k hle h
    have hne : a' ≠ a := by
      rintro rfl
      exact Nat.not_lt_of_le hle (hold k h)
    obtain ⟨nd, hnd, hk⟩ := h
    exact ⟨nd, by rw [setNode_heap, if_neg hne]; exact hnd, hk⟩
  refine ⟨hm.legal, fun h h' => hm.inj (hlinked h) (hlinked h'), fun h => hm.lt (hlinked h),
    fun h hk => hm.seqId (hheap h hk) hk, fun h hk hlt => ?_, fun h hk => hm.last (hheap h hk) hk,
    fun h hk => ?_, fun k hle hlt => ?_, hkeep (Nat.le_refl _) hm.head, hkeep hm.tail_le hm.tail,
    hm.tail_le, hm.drawn, hm.claimed, fun h hk hpos => hm.item (hheap h hk) hk hpos⟩
  · obtain ⟨b, hb, hlink⟩ := hm.next (hheap h hk) hk hlt
    exact ⟨b, hb, fun hle => hkeep hle (hlink hle)⟩
  · rw [setNode_heap] at h
    split at h
    · exact (hnew _ h).2
    · exact hm.fresh h hk
  · obtain ⟨a', h⟩ := hm.live k hle hlt
    exact ⟨a', hkeep hle h⟩

/-- Where a linked node points. -/
theorem MemOk.linked_next (hm : MemOk m) (hn : HasNext m a b) (ha : Linked m a k)
    (hle : m.headPlace ≤ k + 1) : Linked m b (k + 1) := by
  obtain ⟨nd, k', hnd, hk', hb⟩ := hn
  obtain rfl : k = k' := ha.place_eq ⟨nd, hnd, hk'⟩
  have hlt := hm.lt ha
  rcases Nat.lt_or_eq_of_le (Nat.succ_le_of_lt hlt) with hlt | heq
  · obtain ⟨b', hb', hlink⟩ := hm.next hnd hk' hlt
    rw [hb] at hb'
    obtain rfl := Option.some.inj hb'
    exact hlink hle
  · rw [hm.last hnd hk' heq] at hb
    cases hb

/-- A linked node that points to nothing is the last one. -/
theorem MemOk.count_of_last (hm : MemOk m) {nd : Node T} (hnd : m.heap a = some nd)
    (hk : nd.place = some k) (hnext : nd.next = none) : k + 1 = m.count := by
  by_contra hne
  have hlt := hm.lt ⟨nd, hnd, hk⟩
  obtain ⟨b, hb, -⟩ := hm.next hnd hk (by omega)
  rw [hnext] at hb
  cases hb

/-- A node that was the head, and is not the tail, is in front of the tail. -/
theorem MemOk.lt_tailPlace (hm : MemOk m) (ha : Linked m a k) (hle : k ≤ m.headPlace)
    (hne : a ≠ m.tail) : k < m.tailPlace := by
  rcases Nat.lt_or_eq_of_le (hle.trans hm.tail_le) with hlt | rfl
  · exact hlt
  · exact absurd (hm.inj ha hm.tail) hne

theorem MemOk.casTail (hm : MemOk m) (hn : HasNext m a b) : MemOk (m.casTail a b) := by
  unfold Shared.casTail
  split
  · rename_i htail
    have hlink : Linked m b (m.tailPlace + 1) :=
      hm.linked_next hn (htail ▸ hm.tail) (Nat.le_succ_of_le hm.tail_le)
    exact ⟨hm.legal, hm.inj, hm.lt, hm.seqId, hm.next, hm.last, hm.fresh, hm.live, hm.head, hlink,
      Nat.le_succ_of_le hm.tail_le, hm.drawn, hm.claimed, hm.item⟩
  · exact hm

/-- The head moves on, which claims the place of the second node. -/
theorem MemOk.moveHead (hm : MemOk m) {d : Nat} (ho : DeqOpen m.log d) (hn : HasNext m m.head b)
    (hlt : m.headPlace < m.tailPlace) :
    MemOk ((m.moveHead b).push (.claimed d (m.headPlace + 1))) := by
  have hlink : Linked m b (m.headPlace + 1) := hm.linked_next hn hm.head (Nat.le_succ _)
  have hbehind : ∀ d' q, .claimed d' q ∈ m.log → q < m.headPlace + 1 :=
    fun d' q h => Nat.lt_succ_of_le ((hm.claimed q).mp ⟨d', h⟩).2
  have hlegal : Legal (m.log ++ [.claimed d (m.headPlace + 1)]) := by
    refine hm.legal.claimed ho hbehind fun e q hq hltq => ?_
    obtain ⟨x, -, hdrawn⟩ := exists_enqueue hm.legal hq
    exact (hm.claimed q).mpr ⟨(hm.drawn e q hdrawn).1, Nat.le_of_lt_succ hltq⟩
  refine ⟨hlegal, hm.inj, hm.lt, hm.seqId, fun hnd hk hklt => ?_, hm.last, hm.fresh,
    fun k hle => hm.live k (Nat.le_of_succ_le hle), hlink, hm.tail, hlt, fun e k h => ?_,
    fun k => ?_, fun hnd hk hpos => ?_⟩
  · obtain ⟨b', hb', h⟩ := hm.next hnd hk hklt
    exact ⟨b', hb', fun hle => h (Nat.le_of_succ_le hle)⟩
  · exact hm.drawn e k ((mem_push.mp h).resolve_right (by simp))
  · change (∃ d', .claimed d' k ∈ ((m.moveHead b).push _).log) ↔ 0 < k ∧ k ≤ m.headPlace + 1
    have hold := hm.claimed k
    constructor
    · rintro ⟨d', h⟩
      rcases mem_push.mp h with h | h
      · obtain ⟨hpos, hle⟩ := hold.mp ⟨d', h⟩
        exact ⟨hpos, Nat.le_succ_of_le hle⟩
      · obtain ⟨-, rfl⟩ : d' = d ∧ k = m.headPlace + 1 := by simpa using h
        exact ⟨Nat.succ_pos _, Nat.le_refl _⟩
    · rintro ⟨hpos, hle⟩
      rcases Nat.lt_or_eq_of_le hle with hle | rfl
      · obtain ⟨d', h⟩ := hold.mpr ⟨hpos, Nat.le_of_lt_succ hle⟩
        exact ⟨d', mem_push.mpr (.inl h)⟩
      · exact ⟨d, mem_push_self⟩
  · obtain ⟨e, y, hput, hcall, hy⟩ := hm.item hnd hk hpos
    exact ⟨e, y, mem_push.mpr (.inl hput), mem_push.mpr (.inl hcall), hy⟩

section Link

variable {p q : Addr} {nd new : Node T}

theorem link_heap (a : Addr) : (m.link p nd q new).heap a =
    if a = q then some { new with place := some m.count }
    else if a = p then some { nd with next := some q } else m.heap a := by
  simp only [Shared.link, Function.update_apply]

theorem ne_of_place (hnd : m.heap p = some nd) (hk : nd.place = some k) (hnew : m.heap q = some new)
    (hfree : new.place = none) : p ≠ q := by
  rintro rfl
  rw [hnd] at hnew
  obtain rfl := Option.some.inj hnew
  rw [hk] at hfree
  cases hfree

/-- A node of the list after a new one was linked behind its last one. -/
theorem link_cases {a : Addr} {x : Node T} {j : Nat}
    (hx : (m.link p nd q new).heap a = some x) (hj : x.place = some j) :
    (a = q ∧ j = m.count ∧ x = { new with place := some m.count }) ∨
      (a = p ∧ nd.place = some j ∧ x = { nd with next := some q }) ∨
      (a ≠ p ∧ a ≠ q ∧ m.heap a = some x) := by
  rw [link_heap] at hx
  split at hx
  · rename_i ha
    obtain rfl := Option.some.inj hx
    exact .inl ⟨ha, (Option.some.inj hj).symm, rfl⟩
  · rename_i haq
    split at hx
    · rename_i hap
      obtain rfl := Option.some.inj hx
      exact .inr (.inl ⟨hap, hj, rfl⟩)
    · rename_i hap
      exact .inr (.inr ⟨hap, haq, hx⟩)

theorem linked_link_old (hnd : m.heap p = some nd) (hnew : m.heap q = some new)
    (hfree : new.place = none) {a : Addr} {j : Nat} (h : Linked m a j) :
    Linked (m.link p nd q new) a j := by
  obtain ⟨x, hx, hj⟩ := h
  have haq : a ≠ q := ne_of_place hx hj hnew hfree
  by_cases hap : a = p
  · subst hap
    rw [hnd] at hx
    obtain rfl := Option.some.inj hx
    exact ⟨{ nd with next := some q }, by rw [link_heap, if_neg haq, if_pos rfl], hj⟩
  · exact ⟨x, by rw [link_heap, if_neg haq, if_neg hap]; exact hx, hj⟩

theorem linked_link_new : Linked (m.link p nd q new) q m.count :=
  ⟨{ new with place := some m.count }, by rw [link_heap, if_pos rfl], rfl⟩

theorem linked_link (hnd : m.heap p = some nd) {a : Addr} {j : Nat}
    (h : Linked (m.link p nd q new) a j) : Linked m a j ∨ a = q ∧ j = m.count := by
  obtain ⟨x, hx, hj⟩ := h
  rcases link_cases hx hj with ⟨ha, hj, -⟩ | ⟨rfl, hj, -⟩ | ⟨-, -, hx⟩
  · exact .inr ⟨ha, hj⟩
  · exact .inl ⟨nd, hnd, hj⟩
  · exact .inl ⟨x, hx, hj⟩

/-- `ltail->casNext(nullptr, newNode)` where it succeeds. -/
theorem MemOk.link (hm : MemOk m) {x : T} (hnd : m.heap p = some nd) (hk : nd.place = some k)
    (hnext : nd.next = none) (hnew : m.heap q = some new) (hfree : new.place = none)
    (hseq : new.seqId = (k + 1) % 2 ^ 64) (hx : new.item = some x) (ho : EnqOpen m.log e x) :
    MemOk (((m.link p nd q new).push (.drawn e m.count)).push (.put e m.count)) := by
  have hlast := hm.count_of_last hnd hk hnext
  have hhead := hm.lt hm.head
  have hlog : ∀ y, y ∈ (((m.link p nd q new).push (.drawn e m.count)).push (.put e m.count)).log ↔
      (y ∈ m.log ∨ y = .drawn e m.count) ∨ y = .put e m.count := by
    intro y
    rw [mem_push, mem_push]
    exact Iff.rfl
  have hclaimed : ∀ d j, .claimed d j ∈ m.log → j < m.count := by
    intro d j h
    have := ((hm.claimed j).mp ⟨d, h⟩).2
    omega
  have hlegal : Legal (m.log ++ [.drawn e m.count] ++ [.put e m.count]) := by
    refine (hm.legal.drawn ho fun e' j h => (hm.drawn e' j h).2).put ho.drawn
      (List.mem_append_right _ List.mem_cons_self) (fun d r h => ?_) fun d j h hlt => ?_
    · rw [List.mem_append, List.mem_singleton, or_iff_left (by simp)] at h
      exact Nat.lt_irrefl _ (hclaimed d _ (taken_claimed hm.legal h))
    · rw [List.mem_append, List.mem_singleton, or_iff_left (by simp)] at h
      exact absurd hlt (Nat.not_lt_of_lt (hclaimed d j h))
  have hold : ∀ {a j}, Linked m a j → Linked (m.link p nd q new) a j :=
    fun h => linked_link_old hnd hnew hfree h
  refine ⟨hlegal, fun {a a' j} h h' => ?_, fun {a j} h => ?_, fun {a y j} hy hj => ?_,
    fun {a y j} hy hj hlt => ?_, fun {a y j} hy hj hcount => ?_, fun {a y} hy hj => ?_,
    fun j hle hlt => ?_, hold hm.head, hold hm.tail, hm.tail_le, fun e' j h => ?_, fun j => ?_,
    fun {a y j} hy hj hpos => ?_⟩
  · rcases linked_link hnd h with h | ⟨ha, hj⟩
    · rcases linked_link hnd h' with h' | ⟨-, rfl⟩
      · exact hm.inj h h'
      · exact absurd (hm.lt h) (Nat.lt_irrefl _)
    · rcases linked_link hnd h' with h' | ⟨ha', -⟩
      · exact absurd (hj ▸ hm.lt h') (Nat.lt_irrefl _)
      · exact ha.trans ha'.symm
  · change j < m.count + 1
    rcases linked_link hnd h with h | ⟨-, rfl⟩
    · exact Nat.lt_succ_of_lt (hm.lt h)
    · exact Nat.lt_succ_self _
  · rcases link_cases hy hj with ⟨-, rfl, rfl⟩ | ⟨-, hj, rfl⟩ | ⟨-, -, hy⟩
    · exact hseq.trans (congrArg (· % 2 ^ 64) hlast)
    · change nd.seqId = j % 2 ^ 64
      exact hm.seqId hnd hj
    · exact hm.seqId hy hj
  · have hlt : j + 1 < m.count + 1 := hlt
    rcases link_cases hy hj with ⟨-, rfl, rfl⟩ | ⟨-, hj, rfl⟩ | ⟨hap, -, hy⟩
    · exact absurd hlt (Nat.lt_irrefl _)
    · obtain rfl : k = j := Option.some.inj (hk.symm.trans hj)
      exact ⟨q, rfl, fun _ => hlast ▸ linked_link_new⟩
    · have hne : j + 1 ≠ m.count := by
        intro hj'
        obtain rfl : j = k := by omega
        exact hap (hm.inj ⟨y, hy, hj⟩ ⟨nd, hnd, hk⟩)
      obtain ⟨b, hb, hlink⟩ := hm.next hy hj (by omega)
      exact ⟨b, hb, fun hle => hold (hlink hle)⟩
  · have hcount : j + 1 = m.count + 1 := hcount
    rcases link_cases hy hj with ⟨-, -, rfl⟩ | ⟨-, hj, rfl⟩ | ⟨-, -, hy⟩
    · change new.next = none
      exact hm.fresh hnew hfree
    · obtain rfl : k = j := Option.some.inj (hk.symm.trans hj)
      omega
    · have := hm.lt ⟨y, hy, hj⟩
      omega
  · change (m.link p nd q new).heap a = some y at hy
    rw [link_heap] at hy
    split at hy
    · obtain rfl := Option.some.inj hy
      cases hj
    · split at hy
      · obtain rfl := Option.some.inj hy
        exact absurd (hk.symm.trans hj) (by simp)
      · exact hm.fresh hy hj
  · rcases Nat.lt_succ_iff_lt_or_eq.mp hlt with hlt | rfl
    · obtain ⟨a, ha⟩ := hm.live j hle hlt
      exact ⟨a, hold ha⟩
    · exact ⟨q, linked_link_new⟩
  · change 0 < j ∧ j < m.count + 1
    simp only [hlog, reduceCtorEq, or_false, Entry.drawn.injEq] at h
    rcases h with h | ⟨-, rfl⟩
    · obtain ⟨hpos, hlt⟩ := hm.drawn e' j h
      exact ⟨hpos, Nat.lt_succ_of_lt hlt⟩
    · exact ⟨by omega, Nat.lt_succ_self _⟩
  · refine Iff.trans (exists_congr fun d => ?_) (hm.claimed j)
    rw [hlog]
    simp
  · simp only [hlog, reduceCtorEq, or_false, Entry.put.injEq]
    rcases link_cases hy hj with ⟨-, rfl, rfl⟩ | ⟨-, hj, rfl⟩ | ⟨-, -, hy⟩
    · exact ⟨e, x, .inr ⟨rfl, rfl⟩, ho.called, hx⟩
    · obtain ⟨e', z, hput, hcall, hz⟩ := hm.item hnd hj hpos
      exact ⟨e', z, .inl hput, hcall, hz⟩
    · obtain ⟨e', z, hput, hcall, hz⟩ := hm.item hy hj hpos
      exact ⟨e', z, .inl hput, hcall, hz⟩

end Link

/-! ## §2 — what each access leaves to the others -/

theorem Later.push (h : Later m m' l e) {x : Entry Nat T} (hx : x.id = e) :
    Later m (m'.push x) l e :=
  ⟨h.log.concat hx, h.hp, h.count, h.headPlace, h.tailPlace, h.linked, h.fresh⟩

theorem Later.setHp (tid : Nat) (rl : List Addr) (pc : Pc T) (e index : Nat)
    (ptr : Option Addr) : Later m (m.setHp tid index ptr) ⟨tid, rl, pc⟩ e :=
  { Later.refl m ⟨tid, rl, pc⟩ e with hp := fun _ h => setHp_other index ptr h }

/-- A thread writes its new node, or deletes a node that it has retired. -/
theorem Later.setNode (e : Nat) {x : Option (Node T)}
    (h : ∀ nd, m.heap a = some nd → (nd.place = none ∧ l.pc.newNode = some a) ∨
      ((∃ k, nd.place = some k) ∧ l.deleting = some a)) : Later m (m.setNode a x) l e := by
  refine ⟨.refl _ e, fun _ _ => rfl, Nat.le_refl _, Nat.le_refl _, Nat.le_refl _,
    fun a' nd k hnd hk hd => ?_, fun a' nd hnd hk hn => ?_⟩
  · have hne : a' ≠ a := by
      rintro rfl
      rcases h nd hnd with ⟨hnone, -⟩ | ⟨-, hdel⟩
      · rw [hnone] at hk
        cases hk
      · exact hd hdel
    exact ⟨nd, by rw [setNode_heap, if_neg hne]; exact hnd, hk, fun _ hb => hb⟩
  · have hne : a' ≠ a := by
      rintro rfl
      rcases h nd hnd with ⟨-, hnew⟩ | ⟨⟨k, hsome⟩, -⟩
      · exact hn hnew
      · rw [hk] at hsome
        cases hsome
    rw [setNode_heap, if_neg hne]
    exact hnd

theorem casTail_keeps (a b : Addr) : (m.casTail a b).heap = m.heap ∧ (m.casTail a b).hp = m.hp ∧
    (m.casTail a b).log = m.log ∧ (m.casTail a b).count = m.count ∧
    (m.casTail a b).headPlace = m.headPlace ∧ (m.casTail a b).fault = m.fault ∧
    m.tailPlace ≤ (m.casTail a b).tailPlace := by
  unfold Shared.casTail
  split
  · exact ⟨rfl, rfl, rfl, rfl, rfl, rfl, Nat.le_succ _⟩
  · exact ⟨rfl, rfl, rfl, rfl, rfl, rfl, Nat.le_refl _⟩

theorem Later.casTail (m : Shared T) (l : Local T) (e : Nat) (a b : Addr) :
    Later m (m.casTail a b) l e := by
  obtain ⟨hheap, hhp, hlog, hcount, hhead, -, htail⟩ := casTail_keeps (m := m) a b
  refine ⟨hlog ▸ .refl _ e, fun t _ => by rw [hhp], Nat.le_of_eq hcount.symm,
    Nat.le_of_eq hhead.symm, htail, fun a' nd k hnd hk _ => ?_, fun a' nd hnd _ _ => ?_⟩
  · exact ⟨nd, by rw [hheap]; exact hnd, hk, fun _ hb => hb⟩
  · rw [hheap]
    exact hnd

theorem Later.moveHead (m : Shared T) (l : Local T) (e : Nat) (b : Addr) :
    Later m (m.moveHead b) l e :=
  { Later.refl m l e with headPlace := Nat.le_succ _ }

theorem Later.link {p q : Addr} {nd new : Node T} (hnd : m.heap p = some nd)
    (hk : nd.place = some k) (hnext : nd.next = none) (hnew : m.heap q = some new)
    (hfree : new.place = none) (hown : l.pc.newNode = some q) (e : Nat) :
    Later m (m.link p nd q new) l e := by
  refine ⟨.refl _ e, fun _ _ => rfl, Nat.le_succ _, Nat.le_refl _, Nat.le_refl _,
    fun a x j hx hj _ => ?_, fun a x hx hj hn => ?_⟩
  · have haq : a ≠ q := ne_of_place hx hj hnew hfree
    by_cases hap : a = p
    · subst hap
      rw [hnd] at hx
      obtain rfl := Option.some.inj hx
      refine ⟨{ nd with next := some q }, by rw [link_heap, if_neg haq, if_pos rfl], hj,
        fun b hb => ?_⟩
      rw [hnext] at hb
      cases hb
    · exact ⟨x, by rw [link_heap, if_neg haq, if_neg hap]; exact hx, hj, fun _ hb => hb⟩
  · have haq : a ≠ q := by
      rintro rfl
      exact hn hown
    have hap : a ≠ p := Ne.symm (ne_of_place hnd hk hx hj)
    rw [link_heap, if_neg haq, if_neg hap]
    exact hx

/-! ## §3 — steps and runs -/

/-- What a thread has to show when it goes on to `pc'`, except in `retire`. The last seven hold by
computation wherever the call goes on as it was. -/
structure GoesOn (m m' : Shared T) (l : Local T) (pc' : Pc T) (e : Nat) : Prop where
  mem : MemOk m'
  fault : m'.fault = false
  later : Later m m' l e
  pc : PcOk m' pc'
  slots : SlotsOk (m'.hp l.tid) pc'
  guards : ∀ i a, (i, a) ∈ pc'.guards → m'.hp l.tid i = some a ∧
    ((i, a) ∈ l.pc.guards ∨ ∃ k ≥ m.headPlace, Linked m a k)
  call : l.pc.call = some e ∨ m.log.length = e := by exact .inl rfl
  call' : ∀ e', pc'.call = some e' → e' = e := by exact fun _ h => (Option.some.inj h).symm
  newNode : ∀ a, pc'.newNode = some a → l.pc.newNode = some a ∨ m.heap a = none := by
    exact fun _ h => .inl h
  leftNode : pc'.leftNode = l.pc.leftNode := by rfl
  deleting : l.deleting = none := by rfl
  passed : ∀ a t i, i < maxHPs → ¬ (l.goto pc').Passed a t i := by exact fun _ _ _ _ h => h
  scan : ∀ maxThreads, pc'.ScanIn maxThreads := by exact fun _ => trivial

theorem GoesOn.stepOk {maxThreads : Nat} {pc' : Pc T} (hm : MemOk m)
    (hl : LocalOk m l ∧ l.tid < maxThreads ∧ l.pc.ScanIn maxThreads) (h : GoesOn m m' l pc' e) :
    (outline maxThreads).StepOk m l m' (l.goto pc') := by
  have hgarbage : (l.goto pc').garbage = l.garbage := by
    unfold Local.garbage
    exact congrArg (l.retiredList ++ ·) h.leftNode
  have hdel : ∀ a, l.deleting ≠ some a := by
    intro a ha
    rw [h.deleting] at ha
    cases ha
  refine stepOk_of_moves hm hl h.mem h.fault ⟨h.pc, h.slots, fun i a ha => (h.guards i a ha).1,
    hgarbage ▸ hl.1.nodup, fun a ha => ?_⟩ ⟨h.later, rfl, h.call, h.call', h.newNode,
    fun a ha => .inl (hgarbage ▸ ha), fun i a ha => (h.guards i a ha).2,
    fun a t i _ hi hp => absurd hp (h.passed a t i hi), h.scan _⟩
  rw [hgarbage] at ha
  obtain ⟨k, hk, hlink⟩ := hl.1.garbage a ha
  exact ⟨k, Nat.lt_of_lt_of_le hk h.later.headPlace, hlink.other h.later (hdel a)⟩

theorem deref_some {a : Addr} {nd : Node T} (h : m.heap a = some nd)
    (f : Node T → Shared T × Local T) : m.deref l a f = f nd := by
  rw [Shared.deref, h]

theorem seqIdAfter_place {seqId : Nat} (h : seqId = k % 2 ^ 64) :
    seqIdAfter seqId = (k + 1) % 2 ^ 64 := by
  rw [seqIdAfter, h, Nat.mod_add_mod]

/-- There is a row for each of `HP_MAX_THREADS` threads. -/
theorem inRow_of_lt {tid : Nat} (h : tid < hpMaxThreads) (next : Shared T × Local T) :
    m.inRow l tid next = next := if_pos h

/-- A call begins. -/
theorem call_stepOk {maxThreads : Nat} (hm : MemOk m) (hfault : m.fault = false)
    (hl : LocalOk m l ∧ l.tid < maxThreads ∧ l.pc.ScanIn maxThreads) (hin : l.pc = .idle)
    (x : Action T) :
    (outline maxThreads).StepOk m l (call m l x).1 (call m l x).2 := by
  obtain ⟨tid, rl, pc⟩ := l
  obtain rfl : pc = .idle := hin
  have hsame : (outline maxThreads).StepOk m ⟨tid, rl, .idle⟩ m ⟨tid, rl, .idle⟩ :=
    .of_memory ⟨hm, hfault⟩ hl fun q _ h h' => ⟨h, h'⟩
  have hnone : ∀ {Q : Nat → Addr → Prop} i a, (i, a) ∈ ([] : List (Nat × Addr)) → Q i a :=
    fun i a h => absurd h List.not_mem_nil
  cases x with
  | go => exact hsame
  | estimateSize =>
      exact GoesOn.stepOk (e := m.log.length) hm hl
        { mem := hm, fault := hfault, later := .refl .., pc := trivial, slots := trivial,
          guards := hnone, call := .inr rfl, call' := fun _ h => by cases h }
  | dequeue =>
      exact GoesOn.stepOk (e := m.log.length) hm hl
        { mem := hm.push hm.legal.dequeue (by simp) (by simp), fault := hfault,
          later := (Later.refl ..).push rfl, pc := DeqOpen.new hm.legal, slots := trivial,
          guards := hnone, call := .inr rfl }
  | enqueue item newNode =>
      cases item with
      | none => exact hsame
      | some item =>
          unfold call
          dsimp only
          split
          · exact hsame
          · rename_i hfree
            have hlinked : ∀ k, Linked m newNode k → k < m.headPlace := by
              rintro k ⟨nd, hnd, -⟩
              rw [hfree] at hnd
              cases hnd
            have hset := hm.setNode (x := some (.new (some item))) hlinked fun nd hnd => by
              obtain rfl := Option.some.inj hnd
              exact ⟨rfl, rfl⟩
            refine GoesOn.stepOk (e := m.log.length) hm hl
              { mem := hset.push (hm.legal.enqueue item) (by simp) (by simp), fault := hfault,
                later := (Later.setNode _ fun nd hnd => ?_).push rfl,
                pc := ⟨.new (some item), item, ?_, rfl, rfl, EnqOpen.new hm.legal item⟩,
                slots := trivial, guards := hnone, call := .inr rfl,
                newNode := fun a ha => .inr ?_ }
            · rw [hfree] at hnd
              cases hnd
            · exact (setNode_heap newNode _).trans (if_pos rfl)
            · obtain rfl := Option.some.inj ha
              exact hfree

/-- **Every access of `enqueue` is fine.** -/
theorem accessEnqueue_stepOk {maxThreads : Nat} (hmax : maxThreads ≤ hpMaxThreads) (hm : MemOk m)
    (hfault : m.fault = false)
    (hl : LocalOk m l ∧ l.tid < maxThreads ∧ l.pc.ScanIn maxThreads) (hin : l.pc.method = .enqueue) :
    (outline maxThreads).StepOk m l (accessEnqueue m l).1 (accessEnqueue m l).2 := by
  obtain ⟨tid, rl, pc⟩ := l
  have hrow : tid < hpMaxThreads := Nat.lt_of_lt_of_le hl.2.1 hmax
  have hpc : PcOk m pc := hl.1.pc
  have hslots : SlotsOk (m.hp tid) pc := hl.1.slots
  have hguards : ∀ i a, (i, a) ∈ pc.guards → m.hp tid i = some a := hl.1.guards
  have hnone : ∀ {Q : Nat → Addr → Prop} i a, (i, a) ∈ ([] : List (Nat × Addr)) → Q i a :=
    fun i a h => absurd h List.not_mem_nil
  cases pc with
  | enqLoad d new =>
      exact GoesOn.stepOk hm hl
        { mem := hm, fault := hfault, later := .refl _ _ d, pc := hpc, slots := trivial,
          guards := hnone }
  | enqProtect d new ltail =>
      unfold accessEnqueue
      dsimp only
      rw [inRow_of_lt hrow]
      exact GoesOn.stepOk hm hl
        { mem := hm.setHp .., fault := hfault, later := Later.setHp _ _ _ d .., pc := hpc,
          slots := setHp_self .., guards := hnone }
  | enqCheck d new ltail =>
      have hslot : m.hp tid kHpTail = some ltail := hslots
      unfold accessEnqueue
      dsimp only
      split
      · exact GoesOn.stepOk hm hl
          { mem := hm, fault := hfault, later := .refl _ _ d, pc := hpc, slots := trivial,
            guards := hnone }
      · rename_i htail
        obtain rfl : ltail = m.tail := not_not.mp htail
        refine GoesOn.stepOk hm hl
          { mem := hm, fault := hfault, later := .refl _ _ d,
            pc := ⟨hpc, m.tailPlace, hm.tail⟩, slots := trivial, guards := fun i a h => ?_ }
        obtain ⟨rfl, rfl⟩ : i = kHpTail ∧ a = m.tail := by simpa using List.mem_singleton.mp h
        exact ⟨hslot, .inr ⟨m.tailPlace, hm.tail_le, hm.tail⟩⟩
  | enqNext d new ltail =>
      obtain ⟨hnew, k, nd, hnd, hk⟩ := hpc
      unfold accessEnqueue
      dsimp only
      rw [deref_some hnd]
      split
      · exact GoesOn.stepOk hm hl
          { mem := hm, fault := hfault, later := .refl _ _ d, pc := ⟨hnew, k, nd, hnd, hk⟩,
            slots := trivial, guards := fun i a h => ⟨hguards i a h, .inl h⟩ }
      · rename_i lnext hnext
        exact GoesOn.stepOk hm hl
          { mem := hm, fault := hfault, later := .refl _ _ d, pc := ⟨hnew, nd, k, hnd, hk, hnext⟩,
            slots := trivial, guards := fun i a h => ⟨hguards i a h, .inl h⟩ }
  | enqSeqId d new ltail =>
      obtain ⟨hnew, k, nd, hnd, hk⟩ := hpc
      obtain ⟨nd', x, hnd', hfree, hx, ho⟩ := hnew
      have hne : ltail ≠ new := ne_of_place hnd hk hnd' hfree
      have hlinked : ∀ j, Linked m new j → j < m.headPlace := by
        rintro j ⟨y, hy, hj⟩
        exact absurd rfl (ne_of_place hy hj hnd' hfree)
      unfold accessEnqueue
      dsimp only
      rw [deref_some hnd, deref_some hnd']
      refine GoesOn.stepOk hm hl
        { mem := hm.setNode hlinked fun y hy => ?_, fault := hfault,
          later := Later.setNode d fun y hy => .inl ⟨?_, rfl⟩,
          pc := ⟨⟨{ nd' with seqId := seqIdAfter nd.seqId }, x, ?_, hfree, hx, ho⟩, k,
            { nd' with seqId := seqIdAfter nd.seqId }, ⟨nd, ?_, hk⟩, ?_, ?_⟩,
          slots := trivial, guards := fun i a h => ⟨hguards i a h, .inl h⟩ }
      · have hnext := hm.fresh hnd' hfree
        obtain rfl := Option.some.inj hy
        exact ⟨hfree, hnext⟩
      · rw [hnd'] at hy
        obtain rfl := Option.some.inj hy
        exact hfree
      · exact (setNode_heap new _).trans (if_pos rfl)
      · exact (setNode_heap ltail _).trans ((if_neg hne).trans hnd)
      · exact (setNode_heap new _).trans (if_pos rfl)
      · exact seqIdAfter_place (hm.seqId hnd hk)
  | enqLink d new ltail =>
      obtain ⟨⟨nd', x, hnd', hfree, hx, ho⟩, k, y, ⟨nd, hnd, hk⟩, hy, hseq⟩ := hpc
      rw [hnd'] at hy
      obtain rfl := Option.some.inj hy
      unfold accessEnqueue
      dsimp only
      rw [deref_some hnd]
      split
      · rename_i hnext
        rw [deref_some hnd']
        exact GoesOn.stepOk hm hl
          { mem := hm.link hnd hk hnext hnd' hfree hseq hx ho, fault := hfault,
            later := ((Later.link hnd hk hnext hnd' hfree rfl d).push rfl).push rfl,
            pc := ⟨⟨_, mem_push_self⟩, { nd with next := some new }, k,
              (link_heap ltail).trans ((if_neg (ne_of_place hnd hk hnd' hfree)).trans (if_pos rfl)),
              hk, rfl⟩,
            slots := trivial, guards := fun i a h => ⟨hguards i a h, .inl h⟩,
            newNode := fun a h => by cases h }
      · exact GoesOn.stepOk hm hl
          { mem := hm, fault := hfault, later := .refl _ _ d,
            pc := ⟨nd', x, hnd', hfree, hx, ho⟩, slots := trivial, guards := hnone }
  | enqSwing d new ltail =>
      obtain ⟨⟨p, hp⟩, hn⟩ := hpc
      obtain ⟨-, -, hlog, -, -, hfault', -⟩ := casTail_keeps (m := m) ltail new
      have hput : .put d p ∈ (m.casTail ltail new).log := hlog.symm ▸ hp
      exact GoesOn.stepOk hm hl
        { mem := hm.casTail hn, fault := hfault'.trans hfault, later := Later.casTail _ _ d ..,
          pc := ⟨p, hput⟩, slots := trivial, guards := hnone }
  | enqHelp d new ltail lnext =>
      obtain ⟨⟨nd, x, hnd, hfree, hx, ho⟩, hn⟩ := hpc
      obtain ⟨hheap, -, hlog, -, -, hfault', -⟩ := casTail_keeps (m := m) ltail lnext
      have hnew : NewNode (m.casTail ltail lnext) d new :=
        ⟨nd, x, by rw [hheap]; exact hnd, hfree, hx, by rw [hlog]; exact ho⟩
      exact GoesOn.stepOk hm hl
        { mem := hm.casTail hn, fault := hfault'.trans hfault, later := Later.casTail _ _ d ..,
          pc := hnew, slots := trivial, guards := hnone }
  | enqClear d i =>
      unfold accessEnqueue
      dsimp only
      rw [inRow_of_lt hrow]
      split
      · exact GoesOn.stepOk hm hl
          { mem := hm.setHp .., fault := hfault, later := Later.setHp _ _ _ d .., pc := hpc,
            slots := trivial, guards := hnone }
      · exact GoesOn.stepOk hm hl
          { mem := hm.setHp .., fault := hfault, later := Later.setHp _ _ _ d .., pc := hpc,
            slots := trivial, guards := hnone }
  | enqReturn d =>
      exact GoesOn.stepOk hm hl
        { mem := hm.push (hm.legal.enqueued hpc) (by simp) (by simp), fault := hfault,
          later := (Later.refl _ _ d).push rfl, pc := trivial, slots := trivial, guards := hnone,
          call' := fun _ h => by cases h }
  | _ => cases hin

/-- Everything is claimed where a node that was the head points to nothing. -/
theorem MemOk.allClaimed (hm : MemOk m) {nd : Node T} (hnd : m.heap a = some nd)
    (hk : nd.place = some k) (hle : k ≤ m.headPlace) (hnext : nd.next = none) :
    AllClaimed m.log := by
  have hlast := hm.count_of_last hnd hk hnext
  intro e q hq
  obtain ⟨hpos, hlt⟩ := hm.drawn e q hq
  exact (hm.claimed q).mpr ⟨hpos, by omega⟩

/-- `casHead` where it succeeds. The old sentinel belongs to the thread from now on. -/
theorem moveHead_stepOk {maxThreads tid d : Nat} {rl : List Addr} {lnext : Addr} (hm : MemOk m)
    (hfault : m.fault = false)
    (hl : LocalOk m ⟨tid, rl, .deqCas d m.head lnext⟩ ∧ tid < maxThreads ∧
      (Pc.deqCas (T := T) d m.head lnext).ScanIn maxThreads)
    (ho : DeqOpen m.log d) (hn : HasNext m m.head lnext) (hlt : m.headPlace < m.tailPlace) :
    (outline maxThreads).StepOk m ⟨tid, rl, .deqCas d m.head lnext⟩
      ((m.moveHead lnext).push (.claimed d (m.headPlace + 1)))
      ⟨tid, rl, .deqItem d m.head lnext⟩ := by
  have hguard : m.hp tid kHpHead = some m.head := hl.1.guards _ _ (List.mem_singleton.mpr rfl)
  have hslot : m.hp tid kHpNext = some lnext := hl.1.slots
  have hlink : Linked m lnext (m.headPlace + 1) := hm.linked_next hn hm.head (Nat.le_succ _)
  have hbehind : ∀ d' q, .claimed d' q ∈ m.log → q < m.headPlace + 1 :=
    fun d' q h => Nat.lt_succ_of_le ((hm.claimed q).mp ⟨d', h⟩).2
  have hold : ∀ a ∈ rl, ∃ k < m.headPlace, Linked m a k :=
    fun a ha => hl.1.garbage a (List.mem_append_left _ ha)
  have hgarbage : ∀ {a}, a ∈ rl ++ [m.head] → a ∈ rl ∨ a = m.head := by
    intro a ha
    rwa [List.mem_append, List.mem_singleton] at ha
  have hnodup : (rl ++ [m.head]).Nodup := by
    have hrl : rl.Nodup := (List.nodup_append.mp hl.1.nodup).1
    rw [List.nodup_append]
    refine ⟨hrl, List.nodup_singleton _, fun a ha b hb hab => ?_⟩
    obtain ⟨k, hk, hlinked⟩ := hold a ha
    rw [hab, List.mem_singleton.mp hb] at hlinked
    exact Nat.ne_of_lt hk (hlinked.place_eq hm.head)
  refine stepOk_of_moves hm hl (hm.moveHead ho hn hlt) hfault
    ⟨⟨m.headPlace + 1, Nat.succ_pos _, hlink, ho.claimed hm.legal hbehind⟩, trivial,
      fun i a h => ?_, hnodup, fun a ha => ?_⟩
    ⟨(Later.moveHead m _ d lnext).push rfl, rfl, .inl rfl, fun _ h => (Option.some.inj h).symm,
      fun _ h => by (cases h), fun a ha => ?_, fun i a h => ?_, fun _ _ _ _ _ h => h.elim, trivial⟩
  · rcases List.mem_cons.mp h with h | h
    · obtain ⟨rfl, rfl⟩ := Prod.mk.inj h
      exact hguard
    · obtain ⟨rfl, rfl⟩ := Prod.mk.inj (List.mem_singleton.mp h)
      exact hslot
  · change ∃ k < m.headPlace + 1, Linked m a k
    rcases hgarbage ha with ha | rfl
    · obtain ⟨k, hk, hlinked⟩ := hold a ha
      exact ⟨k, Nat.lt_succ_of_lt hk, hlinked⟩
    · exact ⟨m.headPlace, Nat.lt_succ_self _, hm.head⟩
  · rcases hgarbage ha with ha | rfl
    · exact .inl (List.mem_append_left _ ha)
    · exact .inr hm.head
  · rcases List.mem_cons.mp h with h | h
    · exact .inl (List.mem_singleton.mpr h)
    · obtain ⟨-, rfl⟩ := Prod.mk.inj (List.mem_singleton.mp h)
      exact .inr ⟨m.headPlace + 1, Nat.le_succ _, hlink⟩

/-- **Every access of `dequeue` is fine.** -/
theorem accessDequeue_stepOk {maxThreads : Nat} (hmax : maxThreads ≤ hpMaxThreads) (hm : MemOk m)
    (hfault : m.fault = false)
    (hl : LocalOk m l ∧ l.tid < maxThreads ∧ l.pc.ScanIn maxThreads) (hin : l.pc.method = .dequeue) :
    (outline maxThreads).StepOk m l (accessDequeue m l).1 (accessDequeue m l).2 := by
  obtain ⟨tid, rl, pc⟩ := l
  have hrow : tid < hpMaxThreads := Nat.lt_of_lt_of_le hl.2.1 hmax
  have hpc : PcOk m pc := hl.1.pc
  have hslots : SlotsOk (m.hp tid) pc := hl.1.slots
  have hguards : ∀ i a, (i, a) ∈ pc.guards → m.hp tid i = some a := hl.1.guards
  have hnone : ∀ {Q : Nat → Addr → Prop} i a, (i, a) ∈ ([] : List (Nat × Addr)) → Q i a :=
    fun i a h => absurd h List.not_mem_nil
  cases pc with
  | deqHead d n =>
      unfold accessDequeue
      dsimp only
      split
      · rename_i hhead
        subst hhead
        have hslot : m.hp tid kHpHead = some m.head := hslots
        refine GoesOn.stepOk hm hl
          { mem := hm, fault := hfault, later := .refl _ _ d,
            pc := ⟨hpc, ⟨m.headPlace, Nat.le_refl _, hm.head⟩, fun a h => by cases h⟩,
            slots := trivial, guards := fun i a h => ?_ }
        obtain ⟨rfl, rfl⟩ : i = kHpHead ∧ a = m.head := by simpa using List.mem_singleton.mp h
        exact ⟨hslot, .inr ⟨m.headPlace, Nat.le_refl _, hm.head⟩⟩
      · exact GoesOn.stepOk hm hl
          { mem := hm, fault := hfault, later := .refl _ _ d, pc := hpc, slots := trivial,
            guards := hnone }
  | deqHeadStore d ret =>
      unfold accessDequeue
      dsimp only
      rw [inRow_of_lt hrow]
      exact GoesOn.stepOk hm hl
        { mem := hm.setHp .., fault := hfault, later := Later.setHp _ _ _ d .., pc := hpc,
          slots := setHp_self .., guards := hnone }
  | deqNext d node n =>
      obtain ⟨ho, ⟨k, hle, nd, hnd, hk⟩, hn⟩ := hpc
      have hwas : WasHead m node := ⟨k, hle, nd, hnd, hk⟩
      have hnext : ∀ a, nd.next = some a → HasNext m node a := fun a h => ⟨nd, k, hnd, hk, h⟩
      unfold accessDequeue
      dsimp only
      rw [deref_some hnd]
      split
      · rename_i heq
        subst heq
        split
        · rename_i hnull
          exact GoesOn.stepOk hm hl
            { mem := hm, fault := hfault, later := .refl _ _ d,
              pc := ⟨ho, SawEmpty.now hm.legal ho.called (hm.allClaimed hnd hk hle hnull)⟩,
              slots := trivial, guards := hnone }
        · rename_i lnext hsome
          have hslot : m.hp tid kHpNext = some lnext := by
            rw [hsome] at hslots
            exact hslots
          exact GoesOn.stepOk hm hl
            { mem := hm, fault := hfault, later := .refl _ _ d, pc := ⟨ho, hwas, hnext _ hsome⟩,
              slots := hslot, guards := fun i a h => ⟨hguards i a h, .inl h⟩ }
      · exact GoesOn.stepOk hm hl
          { mem := hm, fault := hfault, later := .refl _ _ d, pc := ⟨ho, hwas, hnext⟩,
            slots := trivial, guards := fun i a h => ⟨hguards i a h, .inl h⟩ }
  | deqNextStore d node ret =>
      unfold accessDequeue
      dsimp only
      rw [inRow_of_lt hrow]
      refine GoesOn.stepOk hm hl
        { mem := hm.setHp .., fault := hfault, later := Later.setHp _ _ _ d .., pc := hpc,
          slots := ?_, guards := fun i a h => ⟨?_, .inl h⟩ }
      · cases ret with
        | none => trivial
        | some lnext => exact setHp_self ..
      · obtain ⟨rfl, rfl⟩ : i = kHpHead ∧ a = node := by simpa using List.mem_singleton.mp h
        exact (setHp_of_ne tid ret (by decide)).trans (hguards _ _ h)
  | deqTail d node lnext =>
      obtain ⟨ho, hwas, hn⟩ := hpc
      unfold accessDequeue
      dsimp only
      split
      · exact GoesOn.stepOk hm hl
          { mem := hm, fault := hfault, later := .refl _ _ d, pc := ⟨ho, hwas, hn⟩,
            slots := hslots, guards := fun i a h => ⟨hguards i a h, .inl h⟩ }
      · rename_i htail
        obtain ⟨k, hle, hk⟩ := hwas
        exact GoesOn.stepOk hm hl
          { mem := hm, fault := hfault, later := .refl _ _ d,
            pc := ⟨ho, ⟨k, hle, hk, hm.lt_tailPlace hk hle htail⟩, hn⟩, slots := hslots,
            guards := fun i a h => ⟨hguards i a h, .inl h⟩ }
  | deqHelp d node lnext =>
      obtain ⟨ho, ⟨k, hle, hk⟩, hn⟩ := hpc
      obtain ⟨hheap, hhp, hlog, -, hhead, hfault', hmono⟩ := casTail_keeps (m := m) node lnext
      have hlater := Later.casTail m ⟨tid, rl, .deqHelp d node lnext⟩ d node lnext
      have hrow : (m.casTail node lnext).hp tid = m.hp tid := congrFun hhp tid
      have hlt : k < (m.casTail node lnext).tailPlace := by
        by_cases htail : m.tail = node
        · have hk' : k = m.tailPlace := hk.place_eq (htail ▸ hm.tail)
          rw [Shared.casTail, if_pos htail, hk']
          exact Nat.lt_succ_self _
        · exact Nat.lt_of_lt_of_le (hm.lt_tailPlace hk hle (Ne.symm htail)) hmono
      exact GoesOn.stepOk hm hl
        { mem := hm.casTail hn, fault := hfault'.trans hfault, later := hlater,
          pc := ⟨hlog.symm ▸ ho, ⟨k, hle.trans_eq hhead.symm,
            hk.other hlater (by simp [Local.deleting]), hlt⟩,
            hn.other hlater (by simp [Local.deleting])⟩,
          slots := hrow.symm ▸ hslots,
          guards := fun i a h => ⟨hrow.symm ▸ hguards i a h, .inl h⟩ }
  | deqCas d node lnext =>
      obtain ⟨ho, ⟨k, hle, hk, hlt⟩, hn⟩ := hpc
      unfold accessDequeue
      dsimp only
      split
      · rename_i hhead
        subst hhead
        exact moveHead_stepOk hm hfault hl ho hn (hk.place_eq hm.head ▸ hlt)
      · exact GoesOn.stepOk hm hl
          { mem := hm, fault := hfault, later := .refl _ _ d, pc := ho, slots := trivial,
            guards := hnone }
  | deqItem d node lnext =>
      obtain ⟨k, hpos, ⟨nd, hnd, hk⟩, ho⟩ := hpc
      obtain ⟨e', x, hput, hcall, hx⟩ := hm.item hnd hk hpos
      have hplace : nd.place.getD 0 = k := by rw [hk, Option.getD_some]
      unfold accessDequeue
      dsimp only
      rw [deref_some hnd, hx, hplace]
      exact GoesOn.stepOk hm hl
        { mem := hm.push (hm.legal.taken ho (put_found hm.legal hput hcall)) (by simp) (by simp),
          fault := hfault, later := (Later.refl _ _ d).push rfl, pc := ho.found x,
          slots := trivial, guards := hnone }
  | deqClear d i item node =>
      unfold accessDequeue
      dsimp only
      rw [inRow_of_lt hrow]
      split
      · refine GoesOn.stepOk hm hl
          { mem := hm.setHp .., fault := hfault, later := Later.setHp _ _ _ d .., pc := hpc,
            slots := trivial, guards := hnone, leftNode := ?_ }
        cases node <;> rfl
      · cases node with
        | none =>
            exact GoesOn.stepOk hm hl
              { mem := hm.setHp .., fault := hfault, later := Later.setHp _ _ _ d .., pc := hpc,
                slots := trivial, guards := hnone }
        | some node =>
            exact GoesOn.stepOk hm hl
              { mem := hm.setHp .., fault := hfault, later := Later.setHp _ _ _ d .., pc := hpc,
                slots := trivial, guards := hnone }
  | deqReturn d item =>
      have hlegal : Legal (m.log ++ [.dequeued d item]) := by
        cases item with
        | none => exact hm.legal.dequeuedNone hpc.1 hpc.2
        | some x => exact hm.legal.dequeuedSome hpc
      exact GoesOn.stepOk hm hl
        { mem := hm.push hlegal (by simp) (by simp), fault := hfault,
          later := (Later.refl _ _ d).push rfl, pc := trivial, slots := trivial, guards := hnone,
          call' := fun _ h => by cases h }
  | _ => cases hin

/-- A step of `retire` that only looks, or puts a node on the list. -/
theorem retire_stepOk {maxThreads d : Nat} {l' : Local T} (hm : MemOk m) (hfault : m.fault = false)
    (hl : LocalOk m l ∧ l.tid < maxThreads ∧ l.pc.ScanIn maxThreads) (htid : l'.tid = l.tid)
    (hcall : l.pc.call = some d) (hcall' : l'.pc.call = some d)
    (hgarbage : l'.garbage = l.garbage) (hpc : PcOk m l'.pc)
    (hslots : SlotsOk (m.hp l'.tid) l'.pc) (hguards : l'.pc.guards = [])
    (hnew : l'.pc.newNode = none) (hscan : l'.pc.ScanIn maxThreads)
    (hpassed : ∀ a t i, t < maxThreads → i < maxHPs → l'.Passed a t i →
      l.Passed a t i ∨ m.hp t i ≠ some a) : (outline maxThreads).StepOk m l m l' := by
  have hnone : ∀ i a, (i, a) ∉ l'.pc.guards := by
    intro i a h
    rw [hguards] at h
    cases h
  refine stepOk_of_moves hm hl hm hfault ⟨hpc, hslots, fun i a h => absurd h (hnone i a),
    hgarbage ▸ hl.1.nodup, fun a ha => hl.1.garbage a (hgarbage ▸ ha)⟩
    ⟨.refl m l d, htid, .inl hcall, fun e' h => ?_, fun a h => ?_, fun a h => .inl (hgarbage ▸ h),
      fun i a h => absurd h (hnone i a), hpassed, hscan⟩
  · rw [hcall'] at h
    exact (Option.some.inj h).symm
  · rw [hnew] at h
    cases h

/-- **Every access of `retire` is fine**: what is deleted is named by no guard. -/
theorem accessRetire_stepOk {maxThreads : Nat} (hmax : maxThreads ≤ hpMaxThreads) (hm : MemOk m)
    (hfault : m.fault = false)
    (hl : LocalOk m l ∧ l.tid < maxThreads ∧ l.pc.ScanIn maxThreads) (hin : l.pc.method = .retire) :
    (outline maxThreads).StepOk m l (accessRetire maxThreads m l).1
      (accessRetire maxThreads m l).2 := by
  obtain ⟨tid, rl, pc⟩ := l
  have hpc : PcOk m pc := hl.1.pc
  have hfirst : 0 < maxThreads := Nat.zero_lt_of_lt hl.2.1
  cases pc with
  | retirePush d item ptr =>
      refine retire_stepOk hm hfault hl rfl rfl rfl (List.append_nil _) hpc trivial rfl rfl hfirst
        fun a t i _ hi hp => ?_
      exact absurd hp.2 (Scan.not_passed_start 0 hi)
  | retireScan d item s =>
      unfold accessRetire
      dsimp only
      split
      · exact retire_stepOk hm hfault hl rfl rfl rfl rfl hpc trivial rfl rfl trivial
          fun a t i _ hi hp => hp.elim
      · rename_i obj hobj
        rw [inRow_of_lt (Nat.lt_of_lt_of_le hl.2.2 hmax)]
        split
        · refine retire_stepOk hm hfault hl rfl rfl rfl rfl hpc trivial rfl rfl hfirst
            fun a t i _ hi hp => ?_
          exact absurd hp.2 (Scan.not_passed_start _ hi)
        · rename_i s' hload
          refine retire_stepOk hm hfault hl rfl rfl rfl rfl hpc trivial rfl rfl
            (Scan.next_tid_lt hload hl.2.2) fun a t i _ hi hp => ?_
          obtain ⟨hget, hp⟩ : rl[s'.iret]? = some a ∧ s'.Passed t i := hp
          rw [(Scan.load_next hload).2.1] at hget
          obtain rfl : obj = a := Option.some.inj (hobj.symm.trans hget)
          rcases Scan.passed_next hload hi hp with hp | ⟨rfl, rfl, hslot⟩
          · exact .inl ⟨hobj, hp⟩
          · exact .inr hslot
        · rename_i hload
          refine retire_stepOk hm hfault hl rfl rfl rfl rfl hpc trivial rfl rfl trivial
            fun a t i ht hi hp => ?_
          obtain rfl : obj = a := Option.some.inj (hobj.symm.trans hp)
          rcases Scan.passed_canDelete (i := i) hload ht with hp | ⟨rfl, rfl, hslot⟩
          · exact .inl ⟨hobj, hp⟩
          · exact .inr hslot
  | retireDelete d item iret =>
      unfold accessRetire
      dsimp only
      split
      · exact .of_memory ⟨hm, hfault⟩ hl fun q _ h h' => ⟨h, h'⟩
      · rename_i obj hobj
        obtain ⟨k, hk, nd, hnd, hplace⟩ :=
          hl.1.garbage obj (List.mem_append_left _ (List.mem_of_getElem? hobj))
        have hnodup : rl.Nodup := (List.nodup_append.mp hl.1.nodup).1
        have hmem : ∀ {a}, a ∈ rl.eraseIdx iret → a ∈ rl ∧ a ≠ obj := by
          intro a ha
          obtain ⟨j, hji, hj⟩ := List.mem_eraseIdx_iff_getElem?.mp ha
          refine ⟨List.mem_of_getElem? hj, ?_⟩
          rintro rfl
          have hlt : j < rl.length := (List.getElem?_eq_some_iff.mp hj).1
          exact hji ((List.getElem?_inj hlt hnodup).mp (hj.trans hobj.symm))
        have hgarbage : ∀ {a}, a ∈ rl.eraseIdx iret ++ [] → a ∈ rl.eraseIdx iret := by
          intro a ha
          rwa [List.append_nil] at ha
        have hlinked : ∀ j, Linked m obj j → j < m.headPlace := by
          intro j hj
          rwa [← Linked.place_eq ⟨nd, hnd, hplace⟩ hj]
        rw [deref_some hnd]
        refine stepOk_of_moves hm hl (hm.setNode (x := none) hlinked fun _ h => by cases h) hfault
          ⟨hpc, trivial, fun _ _ h => absurd h List.not_mem_nil, ?_, fun a ha => ?_⟩
          ⟨Later.setNode d fun y hy => .inr ⟨⟨k, ?_⟩, hobj⟩, rfl, .inl rfl,
            fun _ h => (Option.some.inj h).symm, fun _ h => by (cases h), fun a ha => .inl ?_,
            fun _ _ h => absurd h List.not_mem_nil, fun a t i _ hi hp => ?_, hfirst⟩
        · change (rl.eraseIdx iret ++ []).Nodup
          rw [List.append_nil]
          exact hnodup.eraseIdx iret
        · obtain ⟨ha, hne⟩ := hmem (hgarbage ha)
          obtain ⟨j, hj, x, hx, hjx⟩ := hl.1.garbage a (List.mem_append_left _ ha)
          exact ⟨j, hj, x, (setNode_heap a none).trans ((if_neg hne).trans hx), hjx⟩
        · rw [hnd] at hy
          obtain rfl := Option.some.inj hy
          exact hplace
        · exact List.mem_append_left _ (hmem (hgarbage ha)).1
        · exact absurd hp.2 (Scan.not_passed_start iret hi)
  | _ => cases hin

/-- **Every access of `estimateSize` is fine.** -/
theorem accessSize_stepOk {maxThreads : Nat} (hmax : maxThreads ≤ hpMaxThreads) (hm : MemOk m)
    (hfault : m.fault = false)
    (hl : LocalOk m l ∧ l.tid < maxThreads ∧ l.pc.ScanIn maxThreads) (hin : l.pc.method = .estimateSize) :
    (outline maxThreads).StepOk m l (accessSize m l).1 (accessSize m l).2 := by
  obtain ⟨tid, rl, pc⟩ := l
  have hrow : tid < hpMaxThreads := Nat.lt_of_lt_of_le hl.2.1 hmax
  have hpc : PcOk m pc := hl.1.pc
  have hslots : SlotsOk (m.hp tid) pc := hl.1.slots
  have hguards : ∀ i a, (i, a) ∈ pc.guards → m.hp tid i = some a := hl.1.guards
  have hnone : ∀ {Q : Nat → Addr → Prop} i a, (i, a) ∈ ([] : List (Nat × Addr)) → Q i a :=
    fun i a h => absurd h List.not_mem_nil
  -- the call has no name, and the log does not change
  cases pc with
  | sizeHead n =>
      unfold accessSize
      dsimp only
      split
      · rename_i hhead
        subst hhead
        have hslot : m.hp tid kHpHead = some m.head := hslots
        refine GoesOn.stepOk (e := m.log.length) hm hl
          { mem := hm, fault := hfault, later := .refl .., pc := ⟨_, Nat.le_refl _, hm.head⟩,
            slots := trivial, guards := fun i a h => ?_, call := .inr rfl,
            call' := fun _ h => by cases h }
        obtain ⟨rfl, rfl⟩ : i = kHpHead ∧ a = m.head := by simpa using List.mem_singleton.mp h
        exact ⟨hslot, .inr ⟨m.headPlace, Nat.le_refl _, hm.head⟩⟩
      · exact GoesOn.stepOk (e := m.log.length) hm hl
          { mem := hm, fault := hfault, later := .refl .., pc := trivial, slots := trivial,
            guards := hnone, call := .inr rfl, call' := fun _ h => by cases h }
  | sizeHeadStore ret =>
      unfold accessSize
      dsimp only
      rw [inRow_of_lt hrow]
      exact GoesOn.stepOk (e := m.log.length) hm hl
        { mem := hm.setHp .., fault := hfault, later := Later.setHp .., pc := trivial,
          slots := setHp_self .., guards := hnone, call := .inr rfl,
          call' := fun _ h => by cases h }
  | sizeTail lhead n =>
      unfold accessSize
      dsimp only
      split
      · rename_i htail
        subst htail
        have hslot : m.hp tid kHpTail = some m.tail := hslots
        obtain ⟨k, hle, hk⟩ := hpc
        refine GoesOn.stepOk (e := m.log.length) hm hl
          { mem := hm, fault := hfault, later := .refl ..,
            pc := ⟨k, m.tailPlace, hk, hm.tail, hle.trans hm.tail_le⟩, slots := trivial,
            guards := fun i a h => ?_, call := .inr rfl, call' := fun _ h => by cases h }
        rcases List.mem_cons.mp h with h | h
        · obtain ⟨rfl, rfl⟩ := Prod.mk.inj h
          exact ⟨hguards _ _ (List.mem_singleton.mpr rfl), .inl (List.mem_singleton.mpr rfl)⟩
        · obtain ⟨rfl, rfl⟩ := Prod.mk.inj (List.mem_singleton.mp h)
          exact ⟨hslot, .inr ⟨m.tailPlace, hm.tail_le, hm.tail⟩⟩
      · exact GoesOn.stepOk (e := m.log.length) hm hl
          { mem := hm, fault := hfault, later := .refl .., pc := hpc, slots := trivial,
            guards := fun i a h => ⟨hguards i a h, .inl h⟩, call := .inr rfl,
            call' := fun _ h => by cases h }
  | sizeTailStore lhead ret =>
      unfold accessSize
      dsimp only
      rw [inRow_of_lt hrow]
      refine GoesOn.stepOk (e := m.log.length) hm hl
        { mem := hm.setHp .., fault := hfault, later := Later.setHp .., pc := hpc,
          slots := setHp_self .., guards := fun i a h => ⟨?_, .inl h⟩, call := .inr rfl,
          call' := fun _ h => by cases h }
      obtain ⟨rfl, rfl⟩ : i = kHpHead ∧ a = lhead := by simpa using List.mem_singleton.mp h
      exact (setHp_of_ne tid (some ret) (by decide)).trans (hguards _ _ h)
  | sizeTailId lhead ltail =>
      obtain ⟨k, k', hk, ⟨nd, hnd, hk'⟩, hle⟩ := hpc
      have hseq := hm.seqId hnd hk'
      unfold accessSize
      dsimp only
      rw [deref_some hnd, hseq]
      refine GoesOn.stepOk (e := m.log.length) hm hl
        { mem := hm, fault := hfault, later := .refl ..,
          pc := ⟨k', hm.lt ⟨nd, hnd, hk'⟩, rfl, k, hle, hk⟩, slots := trivial,
          guards := fun i a h => ?_, call := .inr rfl, call' := fun _ h => by cases h }
      have h : (i, a) ∈ Pc.guards (.sizeTailId (T := T) lhead ltail) := by
        rw [List.mem_singleton.mp h]
        exact List.mem_cons_self
      exact ⟨hguards i a h, .inl h⟩
  | sizeHeadId lhead t =>
      obtain ⟨k', hlt, ht, k, hle, nd, hnd, hk⟩ := hpc
      have hseq := hm.seqId hnd hk
      unfold accessSize
      dsimp only
      rw [deref_some hnd, hseq]
      exact GoesOn.stepOk (e := m.log.length) hm hl
        { mem := hm, fault := hfault, later := .refl .., pc := ⟨k', hlt, ht, k, hle, rfl⟩,
          slots := trivial,
          guards := hnone, call := .inr rfl, call' := fun _ h => by cases h }
  | sizeClear i t h =>
      unfold accessSize
      dsimp only
      rw [inRow_of_lt hrow]
      split
      · exact GoesOn.stepOk (e := m.log.length) hm hl
          { mem := hm.setHp .., fault := hfault, later := Later.setHp .., pc := hpc,
            slots := trivial, guards := hnone, call := .inr rfl, call' := fun _ h => by cases h }
      · exact GoesOn.stepOk (e := m.log.length) hm hl
          { mem := hm.setHp .., fault := hfault, later := Later.setHp .., pc := hpc,
            slots := trivial, guards := hnone, call := .inr rfl, call' := fun _ h => by cases h }
  | sizeReturn t h =>
      exact GoesOn.stepOk (e := m.log.length) hm hl
        { mem := hm, fault := hfault, later := .refl .., pc := trivial, slots := trivial,
          guards := hnone, call := .inr rfl, call' := fun _ h => by cases h }
  | _ => cases hin

theorem stepThread_stepOk {maxThreads : Nat} (hmax : maxThreads ≤ hpMaxThreads) (hm : MemOk m)
    (hfault : m.fault = false)
    (hl : LocalOk m l ∧ l.tid < maxThreads ∧ l.pc.ScanIn maxThreads) (x : Action T) :
    (outline maxThreads).StepOk m l (stepThread maxThreads x m l).1
      (stepThread maxThreads x m l).2 := by
  unfold stepThread
  split
  · rename_i hin
    refine call_stepOk hm hfault hl ?_ _
    cases hpc : l.pc <;> rw [hpc] at hin <;> first | rfl | cases hin
  · rename_i hin
    exact accessEnqueue_stepOk hmax hm hfault hl hin
  · rename_i hin
    exact accessDequeue_stepOk hmax hm hfault hl hin
  · rename_i hin
    exact accessRetire_stepOk hmax hm hfault hl hin
  · rename_i hin
    exact accessSize_stepOk hmax hm hfault hl hin
  · -- an action that does not fit is ignored
    exact .of_memory ⟨hm, hfault⟩ hl fun q _ h h' => ⟨h, h'⟩

/-- The constructor leaves the sentinel. -/
theorem memOk_init : MemOk (.init : Shared T) := by
  have hheap : ∀ {a : Addr} {nd : Node T}, (.init : Shared T).heap a = some nd →
      a = 0 ∧ nd = ⟨none, 0, none, some 0⟩ := by
    intro a nd h
    change (if a = 0 then some _ else none) = some nd at h
    split at h
    · rename_i ha
      exact ⟨ha, (Option.some.inj h).symm⟩
    · cases h
  have hlinked : ∀ {a : Addr} {k : Nat}, Linked (.init : Shared T) a k → a = 0 ∧ k = 0 := by
    rintro a k ⟨nd, hnd, hk⟩
    obtain ⟨ha, rfl⟩ := hheap hnd
    exact ⟨ha, (Option.some.inj hk).symm⟩
  have hzero : Linked (.init : Shared T) 0 0 := ⟨_, rfl, rfl⟩
  refine ⟨legal_nil, fun h h' => (hlinked h).1.trans (hlinked h').1.symm, fun h => ?_,
    fun h hk => ?_, fun h hk hlt => ?_, fun h hk _ => ?_, fun h hk => ?_, fun k _ hlt => ?_, hzero,
    hzero, Nat.le_refl _, fun e k h => absurd h List.not_mem_nil, fun k => ?_,
    fun h hk hpos => ?_⟩
  · rw [(hlinked h).2]
    exact Nat.one_pos
  · obtain ⟨-, rfl⟩ := hheap h
    obtain rfl := Option.some.inj hk
    rfl
  · exact absurd hlt (Nat.not_lt_of_le (Nat.succ_le_succ (Nat.zero_le _)))
  · obtain ⟨-, rfl⟩ := hheap h
    rfl
  · obtain ⟨-, rfl⟩ := hheap h
    cases hk
  · obtain rfl : k = 0 := Nat.lt_one_iff.mp hlt
    exact ⟨0, hzero⟩
  · constructor
    · rintro ⟨d, h⟩
      cases h
    · rintro ⟨hpos, hle⟩
      exact absurd hle (Nat.not_le_of_lt hpos)
  · exact absurd (hlinked ⟨_, h, hk⟩).2 (Nat.ne_of_gt hpos)

theorem outline_init (n : Nat) : (outline (T := T) n).Holds (init n) where
  shared := ⟨memOk_init, rfl⟩
  thread t := ⟨⟨trivial, trivial, fun _ _ h => absurd h List.not_mem_nil, List.nodup_nil,
    fun _ h => absurd h List.not_mem_nil⟩, t.isLt, trivial⟩
  pair t u h := ⟨fun heq => h (Fin.ext heq), fun _ h => by (cases h), fun _ h => by (cases h),
    fun _ h => absurd h List.not_mem_nil, fun _ _ h => absurd h List.not_mem_nil⟩

theorem outline_run {n : Nat} (hn : n ≤ hpMaxThreads) (ls : List (Fin n × Action T)) :
    (outline n).Holds (run ls) :=
  (outline_init n).run (fun _ => True) (fun _ _ _ _ => trivial)
    (fun x _ _ hm hl _ => stepThread_stepOk hn hm.1 hm.2 hl x) ls trivial

/-- **No thread ever accesses, writes or deletes a node that is not there**, however memory is used
again, and none comes to a row of hazard pointers that is not there, if there are rows for all. -/
theorem no_fault {n : Nat} (hn : n ≤ hpMaxThreads) (ls : List (Fin n × Action T)) :
    (run ls).shared.fault = false := (outline_run hn ls).shared.2

/-- Thread 1 has loaded `tail`, which is the node at 0, when thread 0 puts an element, takes it, deletes
that node and puts the next element into a new node at the same address. Then thread 1 goes on. -/
def reuse : List (Fin 2 × Action Nat) :=
  [(1, .enqueue (some 7) 2), (1, .go)] ++
    ((0, .enqueue (some 5) 1) :: List.replicate 11 (0, .go)) ++
    ((0, .dequeue) :: List.replicate 23 (0, .go)) ++
    ((0, .enqueue (some 6) 0) :: List.replicate 11 (0, .go)) ++ List.replicate 10 (1, .go)

theorem no_fault_reuse : 2 ≤ hpMaxThreads ∧ (run reuse).shared.fault = false :=
  ⟨by decide, no_fault (by decide) reuse⟩

/-- Without a row for every thread there are runs that fault. -/
theorem fault_of_rows_lt {n : Nat} (hn : hpMaxThreads < n) :
    ∃ ls : List (Fin n × Action T), (run ls).shared.fault = true := by
  refine ⟨[(⟨hpMaxThreads, hn⟩, .dequeue), (⟨hpMaxThreads, hn⟩, .go), (⟨hpMaxThreads, hn⟩, .go)], ?_⟩
  simp [run, Threads.run, Threads.step, init, stepThread, call, accessDequeue, Pc.method, Local.goto,
    Shared.inRow, Shared.push]

/-- **`MichaelScottQueue` is linearizable**, although nodes are deleted and their addresses come
back. -/
theorem ms_linearizable {n : Nat} (hn : n ≤ hpMaxThreads) (ls : List (Fin n × Action T)) :
    Linearizable fifo [] (history ls) :=
  Legal.linearizable (outline_run hn ls).shared.1.legal

theorem ms_linearizable_reuse : Linearizable fifo [] (history reuse) ∧
    history reuse = [.call 0 (.enqueue 7), .call 1 (.enqueue 5), .ret 1 none, .call 5 .dequeue,
      .ret 5 (some 5), .call 9 (.enqueue 6), .ret 9 none, .ret 0 none] :=
  ⟨ms_linearizable (by decide) reuse, by decide +kernel⟩

/-- What `estimateSize` subtracts: the head was looked at first. Numbers of nodes do not wrap before
`2 ^ 64` nodes have been linked. -/
theorem estimateSize_le {n : Nat} (hn : n ≤ hpMaxThreads) (ls : List (Fin n × Action T)) (i : Fin n)
    (hcount : (run ls).shared.count ≤ 2 ^ 64) {t h : Nat}
    (hpc : ((run ls).locals i).pc = .sizeReturn t h) : h ≤ t ∧ t < (run ls).shared.count := by
  have hlocal := ((outline_run hn ls).thread i).1.pc
  rw [hpc] at hlocal
  obtain ⟨k', hlt, rfl, k, hle, rfl⟩ := hlocal
  rw [Nat.mod_eq_of_lt (hlt.trans_le hcount), Nat.mod_eq_of_lt (hle.trans_lt (hlt.trans_le hcount))]
  exact ⟨hle, hlt⟩

/-- Thread 1 puts one more element between the loads of `head` and `tail`. -/
theorem estimateSize_le_reuse : 1 ≤ 4 ∧ 4 < (run (reuse ++
    ((0, .estimateSize) :: List.replicate 3 (0, .go)) ++
    ((1, .enqueue (some 8) 3) :: List.replicate 11 (1, .go)) ++
    List.replicate 8 (0, .go))).shared.count :=
  estimateSize_le (by decide) _ 0 (by decide +kernel) (by decide +kernel)

/-! ## §4 — no node is lost -/

/-- The node at `a` is in the list. -/
def InList (m : Shared T) (a : Addr) : Prop := ∃ k ≥ m.headPlace, Linked m a k

/-- The node at `a` is one that the thread has to link or to delete. -/
def Local.Owns (l : Local T) (a : Addr) : Prop := a ∈ l.garbage ∨ l.pc.newNode = some a

/-- A step that loses no node: if the thread owned what it could own, it still does. -/
def Keeps (m : Shared T) (l : Local T) (m' : Shared T) (l' : Local T) : Prop :=
  ∀ a, m'.heap a ≠ none → (m.heap a ≠ none → InList m a ∨ l.Owns a) →
    InList m' a ∨ l'.Owns a

end RelaxedConcurrentFifo.MichaelScottQueue
