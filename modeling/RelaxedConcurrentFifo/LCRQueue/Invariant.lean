/-
# RelaxedConcurrentFifo.LCRQueue.Invariant — what holds of the linked rings

The places of the queue are pairs of a ring and a ticket, in the order of the rings. The rules of
`Lib.TicketQueue` hold of them for three reasons. Only the last ring is open, so tickets are drawn
further and further back. The head of the list leaves a ring only after a second look at it, made when
it was closed already, has shown that every ticket that was drawn there is claimed. And a cell lets a
ticket fill it only until the dequeue with the same ticket has been there.

Tickets that late dequeues draw in a ring that the list has left behind are of no use; the log does
not mention them (`Stale`).
-/
import RelaxedConcurrentFifo.LCRQueue.Ring

namespace RelaxedConcurrentFifo.LCRQueue

open RelaxedConcurrentFifo.Lib.Interleaving
open RelaxedConcurrentFifo.Lib.Linearizability
open RelaxedConcurrentFifo.Lib.TicketQueue

variable {T : Type}

/-! ## §1 — what holds of the queue and of the threads -/

/-- The rings are linked in the order of their addresses, and all but the last are closed. Tickets are
drawn below the tail and claimed below the head; what is below the head and was drawn, or is not below
an open tail, is claimed; and the rings before the head are drained. -/
structure MemOk (c : Config) (m : Shared T) : Prop where
  legal : Legal m.log
  head_lt : m.head < m.count
  tail_lt : m.tail < m.count
  next : ∀ i, i + 1 < m.count → (m.segment i).next = some (i + 1)
  last : ∀ i, i + 1 = m.count → (m.segment i).next = none
  closed : ∀ i, i + 1 < m.count → (m.segment i).tail.flag = true
  pos : ∀ i < m.count, (m.segment i).tail.flag = true → 0 < (m.segment i).tail.index
  drawn : ∀ i t e, .drawn e (place i t) ∈ m.log → i < m.count ∧ t < (m.segment i).tail.index
  claimed : ∀ i t d, .claimed d (place i t) ∈ m.log → i ≤ m.head ∧ t < (m.segment i).head
  below : ∀ i < m.count, ∀ t < (m.segment i).head, ((∃ e, .drawn e (place i t) ∈ m.log) ∨
    ((m.segment i).tail.flag = false ∧ (m.segment i).tail.index ≤ t)) →
      ∃ d, .claimed d (place i t) ∈ m.log
  drained : ∀ i < m.head, ∀ e t, .drawn e (place i t) ∈ m.log → ∃ d, .claimed d (place i t) ∈ m.log
  ring : ∀ i < m.count, RingOk c m.log i (m.segment i)

/-- The index word that a thread has read from the cell of ticket `t`. -/
def Seen (c : Config) (m : Shared T) (s t : Nat) (idx : Word) : Prop :=
  c.slot idx.index = c.slot t ∧ idx.index ≤ ((m.segment s).cell c t).idx.index

/-- If a ticket from `first` on was taken at the cell of ticket `t`, the cell is not as it was read. -/
def Free (c : Config) (m : Shared T) (s t first : Nat) (idx : Word) : Prop :=
  ∀ t' ≥ first, c.slot t' = c.slot t → ∀ d r, .taken d (place s t') r ∈ m.log →
    2 * idx.index < ((m.segment s).cell c t).phase

/-- Every ticket that was drawn in ring `s` is claimed. -/
def Drained (m : Shared T) (s : Nat) : Prop :=
  ∀ e t, .drawn e (place s t) ∈ m.log → ∃ d, .claimed d (place s t) ∈ m.log

/-- Ticket `t` was drawn in a ring that the list has left, and is not in the log. -/
def Stale (m : Shared T) (s t : Nat) : Prop := s < m.head ∧ ∀ d, .claimed d (place s t) ∉ m.log

/-- The dequeue `d` has ticket `t` of ring `s`. -/
def HasTicket (m : Shared T) (d s t : Nat) : Prop :=
  t < (m.segment s).head ∧
    (Holding m.log d (place s t) ∨ DeqOpen m.log d ∧ Stale m s t)

/-- The ring behind `s`, if it was seen. -/
def Follows (m : Shared T) (s : Nat) : Option Nat → Prop
  | none => True
  | some lnext => lnext = s + 1 ∧ lnext < m.count

/-- What a ring that has returned nothing shows. -/
def SawNothing (m : Shared T) (d s : Nat) : Option Nat → Prop
  | none => (m.segment s).next = none → SawEmpty m.log d
  | some _ => Drained m s

/-- What each thread knows at the point where it is. -/
def PcOk (c : Config) (m : Shared T) : Pc T → Prop
  | .idle => True
  | .enqLoad e item => EnqOpen m.log e item
  | .enqCheck e item ltail | .enqNext e item ltail => EnqOpen m.log e item ∧ ltail < m.count
  | .enqHelp e item _ lnext => EnqOpen m.log e item ∧ lnext < m.count
  | .enqCreate e item ltail =>
      EnqOpen m.log e item ∧ ltail < m.count ∧ (m.segment ltail).tail.flag = true
  | .enqLink e item ltail start =>
      EnqOpen m.log e item ∧ ltail < m.count ∧ (m.segment ltail).tail.flag = true ∧
        start + c.ringSize < 2 ^ 63
  | .enqSwing e _ newTail => (∃ p, .put e p ∈ m.log) ∧ newTail < m.count
  | .enqReturn e => ∃ p, .put e p ∈ m.log
  | .ringTicket e item s _ => EnqOpen m.log e item ∧ s < m.count
  | .ringIdx e item s _ t | .ringFull e item s _ t | .ringClose e item s _ t =>
      EnqOpen m.log e item ∧ s < m.count ∧ .drawn e (place s t) ∈ m.log
  | .ringVal e item s _ t idx =>
      EnqOpen m.log e item ∧ s < m.count ∧ .drawn e (place s t) ∈ m.log ∧ Seen c m s t idx ∧
        (idx.flag = false → Free c m s t idx.index idx)
  | .ringSafe e item s _ t idx =>
      EnqOpen m.log e item ∧ s < m.count ∧ .drawn e (place s t) ∈ m.log ∧ Seen c m s t idx ∧
        idx.index ≤ t
  | .ringPut e item s _ t idx =>
      EnqOpen m.log e item ∧ s < m.count ∧ .drawn e (place s t) ∈ m.log ∧ Seen c m s t idx ∧
        idx.index ≤ t ∧ Free c m s t t idx
  | .deqLoad d => DeqOpen m.log d
  | .deqCheck d lhead => DeqOpen m.log d ∧ lhead ≤ m.head
  | .deqNext d lhead => DeqOpen m.log d ∧ lhead ≤ m.head ∧ SawNothing m d lhead none
  | .deqSwing d lhead lnext =>
      DeqOpen m.log d ∧ lhead ≤ m.head ∧ Follows m lhead (some lnext) ∧ Drained m lhead
  | .deqReturn d none => DeqOpen m.log d ∧ SawEmpty m.log d
  | .deqReturn d (some a) => Found m.log d a
  | .takeTicket d s lnext => DeqOpen m.log d ∧ s ≤ m.head ∧ Follows m s lnext
  | .takeIdx d s lnext t _ _ => HasTicket m d s t ∧ s ≤ m.head ∧ Follows m s lnext
  | .takeVal d s lnext t _ _ idx =>
      HasTicket m d s t ∧ s ≤ m.head ∧ Follows m s lnext ∧ Seen c m s t idx
  | .takeTail d s lnext t _ idx | .takeSkip d s lnext t _ _ idx =>
      HasTicket m d s t ∧ s ≤ m.head ∧ Follows m s lnext ∧ idx.index ≤ t
  | .takeItem d s lnext t _ _ _ idx =>
      HasTicket m d s t ∧ s ≤ m.head ∧ Follows m s lnext ∧ idx.index = t
  | .takeMark d s lnext t _ _ _ idx =>
      HasTicket m d s t ∧ s ≤ m.head ∧ Follows m s lnext ∧ idx.index < t
  | .takeRest d s lnext t =>
      DeqOpen m.log d ∧ s ≤ m.head ∧ Follows m s lnext ∧ t < (m.segment s).head
  | .fixTail d s lnext | .fixHead d s lnext _ =>
      DeqOpen m.log d ∧ s ≤ m.head ∧ Follows m s lnext ∧ SawNothing m d s lnext
  | .fixCheck d s lnext _ h =>
      DeqOpen m.log d ∧ s ≤ m.head ∧ Follows m s lnext ∧ SawNothing m d s lnext ∧ h < 2 ^ 63
  | .fixCas d s lnext t h =>
      DeqOpen m.log d ∧ s ≤ m.head ∧ Follows m s lnext ∧ SawNothing m d s lnext ∧ h < 2 ^ 63 ∧
        t.flag = false ∧ t.index ≤ h

/-- The call that the thread is in. -/
def Pc.call : Pc T → Option Nat
  | .idle => none
  | .enqLoad e _ | .enqCheck e _ _ | .enqNext e _ _ | .enqHelp e _ _ _ | .enqCreate e _ _
  | .enqLink e _ _ _ | .enqSwing e _ _ | .enqReturn e | .ringTicket e _ _ _
  | .ringIdx e _ _ _ _ | .ringVal e _ _ _ _ _ | .ringSafe e _ _ _ _ _ | .ringPut e _ _ _ _ _
  | .ringFull e _ _ _ _ | .ringClose e _ _ _ _
  | .deqLoad e | .deqCheck e _ | .deqNext e _ | .deqSwing e _ _ | .deqReturn e _
  | .takeTicket e _ _ | .takeIdx e _ _ _ _ _ | .takeVal e _ _ _ _ _ _ | .takeTail e _ _ _ _ _
  | .takeItem e _ _ _ _ _ _ _ | .takeMark e _ _ _ _ _ _ _ | .takeSkip e _ _ _ _ _ _
  | .takeRest e _ _ _ | .fixTail e _ _ | .fixHead e _ _ _ | .fixCheck e _ _ _ _
  | .fixCas e _ _ _ _ => some e

/-- The proof outline: no two threads are in one call. -/
def outline (c : Config) : Outline (Shared T) (Pc T) where
  shared := MemOk c
  thread := PcOk c
  pair pc pc' := ∀ e, pc.call = some e → pc'.call ≠ some e

/-! ## §2 — what the others keep -/

/-- How the queue changes in a step of call `e`, as far as other threads depend on it. -/
structure Later (c : Config) (m m' : Shared T) (e : Nat) : Prop where
  log : Extends m.log m'.log e
  count : m.count ≤ m'.count
  head : m.head ≤ m'.head
  ringHead : ∀ i < m.count, (m.segment i).head ≤ (m'.segment i).head
  next : ∀ i < m.count, (m'.segment i).next = none → (m.segment i).next = none
  flag : ∀ i < m.count, (m.segment i).tail.flag = true → (m'.segment i).tail.flag = true
  phase : ∀ i < m.count, ∀ t, ((m.segment i).cell c t).phase ≤ ((m'.segment i).cell c t).phase
  taken : ∀ i < m.count, ∀ t d r, .taken d (place i t) r ∈ m'.log →
    .taken d (place i t) r ∈ m.log ∨ ∀ j ≤ ((m.segment i).cell c t).idx.index, j ≤ t →
      2 * j < ((m'.segment i).cell c t).phase
  drawn : ∀ i < m.count, (m.segment i).tail.flag = true → ∀ t e', .drawn e' (place i t) ∈ m'.log →
    .drawn e' (place i t) ∈ m.log
  claimed : ∀ i < m.head, ∀ t d, .claimed d (place i t) ∈ m'.log → .claimed d (place i t) ∈ m.log

section Others

variable {c : Config} {m m' : Shared T} {e : Nat}

theorem idx_le_of_phase_le {x y : Cell T} (h : x.phase ≤ y.phase) : x.idx.index ≤ y.idx.index := by
  unfold Cell.phase at h
  split at h <;> split at h <;> omega

theorem Later.refl (c : Config) (m : Shared T) (e : Nat) : Later c m m e :=
  ⟨.refl _ e, Nat.le_refl _, Nat.le_refl _, fun _ _ => Nat.le_refl _, fun _ _ h => h,
    fun _ _ h => h, fun _ _ _ => Nat.le_refl _, fun _ _ _ _ _ h => .inl h, fun _ _ _ _ _ h => h,
    fun _ _ _ _ h => h⟩

theorem Seen.other (h : Later c m m' e) {s t : Nat} {idx : Word} (hs : s < m.count)
    (hseen : Seen c m s t idx) : Seen c m' s t idx :=
  ⟨hseen.1, hseen.2.trans (idx_le_of_phase_le (h.phase s hs t))⟩

theorem Free.other (h : Later c m m' e) {s t first : Nat} {idx : Word} (hs : s < m.count)
    (hseen : Seen c m s t idx) (hfirst : idx.index ≤ first) (hfree : Free c m s t first idx) :
    Free c m' s t first idx := by
  intro t' ht' hslot d r hr
  rcases h.taken s hs t' d r hr with hold | hnew
  · exact Nat.lt_of_lt_of_le (hfree t' ht' hslot d r hold) (h.phase s hs t)
  · have hnew := hnew idx.index (by rw [Segment.cell_congr c _ hslot]; exact hseen.2) (by omega)
    rwa [Segment.cell_congr c _ hslot] at hnew

theorem Follows.other (h : Later c m m' e) {s : Nat} {lnext : Option Nat}
    (hf : Follows m s lnext) : Follows m' s lnext := by
  cases lnext with
  | none => trivial
  | some lnext => exact ⟨hf.1, hf.2.trans_le h.count⟩

theorem Drained.other (h : Later c m m' e) (hm : MemOk c m) {s : Nat} (hs : s + 1 < m.count)
    (hd : Drained m s) : Drained m' s := by
  intro e' t hdrawn
  obtain ⟨d, hd⟩ := hd e' t (h.drawn s (by omega) (hm.closed s hs) t e' hdrawn)
  exact ⟨d, h.log.mem hd⟩

theorem SawNothing.other (h : Later c m m' e) (hm : MemOk c m) {d s : Nat} {lnext : Option Nat}
    (hs : s < m.count) (hf : Follows m s lnext) (hn : SawNothing m d s lnext) :
    SawNothing m' d s lnext := by
  cases lnext with
  | none => exact fun hnext => (hn (h.next s hs hnext)).mono h.log
  | some lnext => exact Drained.other h hm (hf.1 ▸ hf.2) hn

theorem HasTicket.other (h : Later c m m' e) {d s t : Nat} (hs : s < m.count) (hne : d ≠ e)
    (ht : HasTicket m d s t) : HasTicket m' d s t := by
  refine ⟨ht.1.trans_le (h.ringHead s hs), ht.2.imp (fun ho => ho.other h.log hne) ?_⟩
  rintro ⟨ho, hlt, hno⟩
  exact ⟨ho.other h.log hne, hlt.trans_le h.head, fun d' hd' => hno d' (h.claimed s hlt t d' hd')⟩

theorem PcOk.other (hm : MemOk c m) (h : Later c m m' e) {pc : Pc T} (hpc : PcOk c m pc)
    (hne : pc.call ≠ some e) : PcOk c m' pc := by
  have hid : ∀ {d : Nat}, pc.call = some d → d ≠ e := fun hd hde => hne (hde ▸ hd)
  have hhead : ∀ {i : Nat}, i ≤ m.head → i < m.count := fun hi => Nat.lt_of_le_of_lt hi hm.head_lt
  -- every fact a thread holds is about what only grows, or about cells that only its ticket may write
  cases pc with
  | idle => trivial
  | enqLoad d item => exact EnqOpen.other h.log hpc (hid rfl)
  | enqCheck d item ltail | enqNext d item ltail | enqHelp d item ltail lnext
  | ringTicket d item s k =>
      exact ⟨hpc.1.other h.log (hid rfl), hpc.2.trans_le h.count⟩
  | enqCreate d item ltail =>
      exact ⟨hpc.1.other h.log (hid rfl), hpc.2.1.trans_le h.count, h.flag ltail hpc.2.1 hpc.2.2⟩
  | enqLink d item ltail start =>
      obtain ⟨ho, hp, hclosed, hfit⟩ := hpc
      exact ⟨ho.other h.log (hid rfl), hp.trans_le h.count, h.flag ltail hp hclosed, hfit⟩
  | enqSwing d ltail newTail =>
      obtain ⟨⟨p, hp⟩, hnew⟩ := hpc
      exact ⟨⟨p, h.log.mem hp⟩, hnew.trans_le h.count⟩
  | enqReturn d =>
      obtain ⟨p, hp⟩ := hpc
      exact ⟨p, h.log.mem hp⟩
  | ringIdx d item s k t | ringFull d item s k t | ringClose d item s k t =>
      exact ⟨hpc.1.other h.log (hid rfl), hpc.2.1.trans_le h.count, h.log.mem hpc.2.2⟩
  | ringVal d item s k t idx =>
      obtain ⟨ho, hs, hdrawn, hseen, hfree⟩ := hpc
      exact ⟨ho.other h.log (hid rfl), hs.trans_le h.count, h.log.mem hdrawn, hseen.other h hs,
        fun hflag => (hfree hflag).other h hs hseen (Nat.le_refl _)⟩
  | ringSafe d item s k t idx =>
      obtain ⟨ho, hs, hdrawn, hseen, hle⟩ := hpc
      exact ⟨ho.other h.log (hid rfl), hs.trans_le h.count, h.log.mem hdrawn, hseen.other h hs, hle⟩
  | ringPut d item s k t idx =>
      obtain ⟨ho, hs, hdrawn, hseen, hle, hfree⟩ := hpc
      exact ⟨ho.other h.log (hid rfl), hs.trans_le h.count, h.log.mem hdrawn, hseen.other h hs, hle,
        hfree.other h hs hseen hle⟩
  | deqLoad d => exact DeqOpen.other h.log hpc (hid rfl)
  | deqCheck d lhead => exact ⟨hpc.1.other h.log (hid rfl), hpc.2.trans h.head⟩
  | deqNext d lhead =>
      have hn : SawNothing m d lhead none := hpc.2.2
      exact ⟨hpc.1.other h.log (hid rfl), hpc.2.1.trans h.head,
        hn.other h hm (hhead hpc.2.1) trivial⟩
  | deqSwing d lhead lnext =>
      obtain ⟨ho, hle, hf, hd⟩ := hpc
      exact ⟨ho.other h.log (hid rfl), hle.trans h.head, hf.other h,
        hd.other h hm (hf.1 ▸ hf.2)⟩
  | deqReturn d ret =>
      cases ret with
      | none => exact ⟨hpc.1.other h.log (hid rfl), hpc.2.mono h.log⟩
      | some a => exact Found.other h.log hpc (hid rfl)
  | takeTicket d s lnext =>
      exact ⟨hpc.1.other h.log (hid rfl), hpc.2.1.trans h.head, hpc.2.2.other h⟩
  | takeIdx d s lnext t r tt =>
      exact ⟨hpc.1.other h (hhead hpc.2.1) (hid rfl), hpc.2.1.trans h.head, hpc.2.2.other h⟩
  | takeVal d s lnext t r tt idx =>
      exact ⟨hpc.1.other h (hhead hpc.2.1) (hid rfl), hpc.2.1.trans h.head, hpc.2.2.1.other h,
        hpc.2.2.2.other h (hhead hpc.2.1)⟩
  | takeTail d s lnext t r idx | takeSkip d s lnext t r tt idx | takeItem d s lnext t r tt v idx
  | takeMark d s lnext t r tt v idx =>
      exact ⟨hpc.1.other h (hhead hpc.2.1) (hid rfl), hpc.2.1.trans h.head, hpc.2.2.1.other h,
        hpc.2.2.2⟩
  | takeRest d s lnext t =>
      exact ⟨hpc.1.other h.log (hid rfl), hpc.2.1.trans h.head, hpc.2.2.1.other h,
        hpc.2.2.2.trans_le (h.ringHead s (hhead hpc.2.1))⟩
  | fixTail d s lnext | fixHead d s lnext t =>
      exact ⟨hpc.1.other h.log (hid rfl), hpc.2.1.trans h.head, hpc.2.2.1.other h,
        hpc.2.2.2.other h hm (hhead hpc.2.1) hpc.2.2.1⟩
  | fixCheck d s lnext t k | fixCas d s lnext t k =>
      exact ⟨hpc.1.other h.log (hid rfl), hpc.2.1.trans h.head, hpc.2.2.1.other h,
        hpc.2.2.2.1.other h hm (hhead hpc.2.1) hpc.2.2.1, hpc.2.2.2.2⟩

/-- Calls in progress have their names from the log. -/
theorem PcOk.call_lt (hm : MemOk c m) {pc : Pc T} (hpc : PcOk c m pc) {d : Nat}
    (hd : pc.call = some d) : d < m.log.length := by
  have hticket : ∀ {d s t : Nat}, HasTicket m d s t → .dequeue d ∈ m.log := by
    rintro d s t ⟨-, ho | ⟨ho, -⟩⟩
    · exact ho.called
    · exact ho.called
  have hmem : ∃ x ∈ m.log, x.id = d := by
    cases pc with
    | idle => cases hd
    | enqLoad e item => exact ⟨_, hpc.called, Option.some.inj hd⟩
    | enqCheck e item ltail | enqNext e item ltail | enqHelp e item ltail lnext
    | ringTicket e item s k | ringFull e item s k t | ringClose e item s k t
    | enqCreate e item ltail | enqLink e item ltail start | ringIdx e item s k t
    | ringVal e item s k t idx | ringSafe e item s k t idx | ringPut e item s k t idx =>
        exact ⟨_, hpc.1.called, Option.some.inj hd⟩
    | enqSwing e ltail newTail =>
        obtain ⟨⟨p, hp⟩, -⟩ := hpc
        exact ⟨_, hp, Option.some.inj hd⟩
    | enqReturn e =>
        obtain ⟨p, hp⟩ := hpc
        exact ⟨_, hp, Option.some.inj hd⟩
    | deqLoad e => exact ⟨_, hpc.called, Option.some.inj hd⟩
    | deqCheck e lhead | deqNext e lhead | deqSwing e lhead lnext | takeTicket e s lnext
    | takeRest e s lnext t | fixTail e s lnext | fixHead e s lnext t | fixCheck e s lnext t k
    | fixCas e s lnext t k => exact ⟨_, hpc.1.called, Option.some.inj hd⟩
    | deqReturn e ret =>
        cases ret with
        | none => exact ⟨_, hpc.1.called, Option.some.inj hd⟩
        | some a =>
            obtain ⟨-, p, hp⟩ := hpc
            exact ⟨_, hp, Option.some.inj hd⟩
    | takeIdx e s lnext t r tt | takeVal e s lnext t r tt idx | takeTail e s lnext t r idx
    | takeSkip e s lnext t r tt idx | takeItem e s lnext t r tt v idx
    | takeMark e s lnext t r tt v idx => exact ⟨_, hticket hpc.1, Option.some.inj hd⟩
  obtain ⟨x, hx, rfl⟩ := hmem
  exact id_lt hm.legal hx

/-- A step inside of call `e`, or one that begins it. -/
theorem stepOk_of_later {pc pc' : Pc T} (hm : MemOk c m) (hm' : MemOk c m') (hpc' : PcOk c m' pc')
    (hlater : Later c m m' e) (hcall : pc.call = some e ∨ m.log.length = e)
    (hcall' : ∀ e', pc'.call = some e' → e' = e) : (outline c).StepOk m pc m' pc' := by
  have hne : ∀ q, PcOk c m q → (∀ d, pc.call = some d → q.call ≠ some d) → q.call ≠ some e := by
    intro q hq hpair hqe
    rcases hcall with hcall | rfl
    · exact hpair e hcall hqe
    · exact Nat.lt_irrefl _ (hq.call_lt hm hqe)
  refine ⟨hm', hpc', fun q hq hpair _ => hq.other hm hlater (hne q hq hpair),
    fun q hq hpair _ => ⟨fun d hd hqd => ?_, fun d hd hqd => ?_⟩⟩
  · obtain rfl := hcall' d hd
    exact hne q hq hpair hqd
  · obtain rfl := hcall' d hqd
    exact hne q hq hpair hd

end Others

/-! ## §3 — what each access does -/

section Accesses

variable {c : Config} {m : Shared T}

theorem mem_push {x y : Entry Place T} : x ∈ (m.push y).log ↔ x ∈ m.log ∨ x = y := by
  rw [Shared.push, List.mem_append, List.mem_singleton]

theorem mem_push_self {x : Entry Place T} : x ∈ (m.push x).log := mem_push.mpr (.inr rfl)

theorem setSegment_segment (p i : Nat) (s : Segment T) :
    (m.setSegment p s).segment i = if i = p then s else m.segment i :=
  Function.update_apply m.segment p s i

theorem setSegment_self (p : Nat) (s : Segment T) : (m.setSegment p s).segment p = s := by
  rw [setSegment_segment, if_pos rfl]

/-- A ring changes, and perhaps an entry is added that is neither a draw nor a claim. -/
structure RingStep (c : Config) (m : Shared T) (p : Nat) (s : Segment T)
    (xs : List (Entry Place T)) : Prop where
  head : s.head = (m.segment p).head
  next : s.next = (m.segment p).next
  index : (m.segment p).tail.index ≤ s.tail.index
  flag : (m.segment p).tail.flag = true → s.tail.flag = true
  pos : s.tail.flag = true → (m.segment p).tail.flag = true ∨ 0 < s.tail.index
  noDrawn : ∀ e q, .drawn e q ∉ xs
  noClaimed : ∀ d q, .claimed d q ∉ xs
  legal : Legal (m.log ++ xs)
  ring : RingOk c (m.log ++ xs) p s
  others : ∀ i < m.count, i ≠ p → RingOk c (m.log ++ xs) i (m.segment i)

theorem MemOk.ringStep (hm : MemOk c m) {p : Nat} {s : Segment T} {xs : List (Entry Place T)}
    (h : RingStep c m p s xs) :
    MemOk c { m.setSegment p s with log := m.log ++ xs } := by
  have hdrawn : ∀ {e : Nat} {q : Place}, .drawn e q ∈ m.log ++ xs → .drawn e q ∈ m.log :=
    fun hq => (List.mem_append.mp hq).resolve_right (h.noDrawn _ _)
  have hclaimed : ∀ {d : Nat} {q : Place}, .claimed d q ∈ m.log ++ xs → .claimed d q ∈ m.log :=
    fun hq => (List.mem_append.mp hq).resolve_right (h.noClaimed _ _)
  -- seen from the other rings, segment `p` keeps its head and its next; its tail only grows
  have hhead : ∀ i, ((m.setSegment p s).segment i).head = (m.segment i).head := by
    intro i
    rw [setSegment_segment]
    split
    · rename_i hi
      rw [hi, h.head]
    · rfl
  have hnext : ∀ i, ((m.setSegment p s).segment i).next = (m.segment i).next := by
    intro i
    rw [setSegment_segment]
    split
    · rename_i hi
      rw [hi, h.next]
    · rfl
  have hindex : ∀ i, (m.segment i).tail.index ≤ ((m.setSegment p s).segment i).tail.index := by
    intro i
    rw [setSegment_segment]
    split
    · rename_i hi
      rw [hi]
      exact h.index
    · exact Nat.le_refl _
  have hflag : ∀ i, (m.segment i).tail.flag = true →
      ((m.setSegment p s).segment i).tail.flag = true := by
    intro i hf
    rw [setSegment_segment]
    split
    · rename_i hi
      exact h.flag (hi ▸ hf)
    · exact hf
  refine ⟨h.legal, hm.head_lt, hm.tail_lt, fun i hi => (hnext i).trans (hm.next i hi),
    fun i hi => (hnext i).trans (hm.last i hi), fun i hi => hflag i (hm.closed i hi),
    fun i hi hf => ?_, fun i t e he => ?_, fun i t d hd => ?_, fun i hi t ht hcond => ?_,
    fun i hi e t he => ?_, fun i hi => ?_⟩
  · have hpos := hm.pos i hi
    change 0 < ((m.setSegment p s).segment i).tail.index
    change ((m.setSegment p s).segment i).tail.flag = true at hf
    rw [setSegment_segment] at hf ⊢
    split at hf
    · rename_i hip
      subst hip
      rw [if_pos rfl]
      rcases h.pos hf with hold | hnew
      · exact (hpos hold).trans_le h.index
      · exact hnew
    · rename_i hip
      rw [if_neg hip]
      exact hpos hf
  · obtain ⟨hi, ht⟩ := hm.drawn i t e (hdrawn he)
    exact ⟨hi, ht.trans_le (hindex i)⟩
  · obtain ⟨hi, ht⟩ := hm.claimed i t d (hclaimed hd)
    exact ⟨hi, ht.trans_eq (hhead i).symm⟩
  · have hold : (∃ e, .drawn e (place i t) ∈ m.log) ∨
        ((m.segment i).tail.flag = false ∧ (m.segment i).tail.index ≤ t) := by
      rcases hcond with ⟨e, he⟩ | ⟨hf, hle⟩
      · exact .inl ⟨e, hdrawn he⟩
      · -- a ring that is open now was open before
        refine .inr ⟨?_, (hindex i).trans hle⟩
        by_contra hne
        have hf' := hflag i (Bool.eq_true_of_not_eq_false hne)
        rw [hf] at hf'
        cases hf'
    obtain ⟨d, hd⟩ := hm.below i hi t (ht.trans_eq (hhead i)) hold
    exact ⟨d, List.mem_append_left xs hd⟩
  · obtain ⟨d, hd⟩ := hm.drained i hi e t (hdrawn he)
    exact ⟨d, List.mem_append_left xs hd⟩
  · change RingOk c (m.log ++ xs) i ((m.setSegment p s).segment i)
    rw [setSegment_segment]
    split
    · rename_i hip
      rw [hip]
      exact h.ring
    · rename_i hip
      exact h.others i hi hip

/-- The tail of a ring moves on, or the ring is closed. -/
theorem MemOk.setTail (hm : MemOk c m) {p : Nat} {w : Word} (hp : p < m.count)
    (hindex : (m.segment p).tail.index ≤ w.index)
    (hflag : (m.segment p).tail.flag = true → w.flag = true)
    (hpos : w.flag = true → (m.segment p).tail.flag = true ∨ 0 < w.index) :
    MemOk c (m.setTail p w) := by
  have hstep : RingStep c m p { m.segment p with tail := w } [] :=
    ⟨rfl, rfl, hindex, hflag, hpos, fun _ _ => List.not_mem_nil, fun _ _ => List.not_mem_nil,
      by rw [List.append_nil]; exact hm.legal,
      by rw [List.append_nil]; exact (hm.ring p hp).of_cell fun _ => rfl,
      fun i hi _ => by rw [List.append_nil]; exact hm.ring i hi⟩
  have h := hm.ringStep hstep
  rwa [List.append_nil] at h

/-- A cell of a ring changes, without an entry. -/
theorem MemOk.setCell (hm : MemOk c m) {p t : Nat} {x : Cell T}
    (hring : RingOk c m.log p ((m.segment p).setCell c t x)) : MemOk c (m.setCell c p t x) := by
  have hstep : RingStep c m p ((m.segment p).setCell c t x) [] :=
    ⟨rfl, rfl, Nat.le_refl _, id, .inl, fun _ _ => List.not_mem_nil, fun _ _ => List.not_mem_nil,
      by rw [List.append_nil]; exact hm.legal, by rwa [List.append_nil],
      fun i hi _ => by rw [List.append_nil]; exact hm.ring i hi⟩
  have h := hm.ringStep hstep
  rwa [List.append_nil] at h

/-- An entry about ring `p` does not touch the others. -/
theorem MemOk.ring_push (hm : MemOk c m) {p : Nat} {x : Entry Place T}
    (hlegal : Legal (m.log ++ [x])) (hput : ∀ e i t, x = .put e (place i t) → i = p)
    (htaken : ∀ d i t r, x = .taken d (place i t) r → i = p) :
    ∀ i < m.count, i ≠ p → RingOk c (m.log ++ [x]) i (m.segment i) := by
  intro i hi hip
  refine (hm.ring i hi).of_log hm.legal hlegal (fun y hy => List.mem_append_left _ hy)
    (fun e t h => ?_) fun d t r h => ?_
  · rcases List.mem_append.mp h with h | h
    · exact h
    · exact absurd (hput e i t (List.mem_singleton.mp h).symm) hip
  · rcases List.mem_append.mp h with h | h
    · exact h
    · exact absurd (htaken d i t r (List.mem_singleton.mp h).symm) hip

/-- The beginning or the end of a call. -/
theorem MemOk.pushVisible (hm : MemOk c m) {x : Entry Place T}
    {ev : Event (QueueOp T) (Option T)} (hx : view x = some ev) (hlegal : Legal (m.log ++ [x])) :
    MemOk c (m.push x) := by
  have hview : ∀ {y : Entry Place T}, view y = none → x ≠ y := by
    rintro y hy rfl
    rw [hx] at hy
    cases hy
  have hall : ∀ i < m.count, RingOk c (m.log ++ [x]) i (m.segment i) := by
    intro i hi
    refine (hm.ring i hi).of_log hm.legal hlegal (fun y hy => List.mem_append_left _ hy)
      (fun e t h => ?_) fun d t r h => ?_
    · exact (List.mem_append.mp h).resolve_right fun h =>
        hview rfl (List.mem_singleton.mp h).symm
    · exact (List.mem_append.mp h).resolve_right fun h =>
        hview rfl (List.mem_singleton.mp h).symm
  have hstep : RingStep c m m.head (m.segment m.head) [x] :=
    ⟨rfl, rfl, Nat.le_refl _, id, .inl, fun _ _ h => hview rfl (List.mem_singleton.mp h).symm,
      fun _ _ h => hview rfl (List.mem_singleton.mp h).symm, hlegal, hall _ hm.head_lt,
      fun i hi _ => hall i hi⟩
  have h := hm.ringStep hstep
  rwa [Shared.setSegment, Function.update_eq_self] at h

theorem MemOk.casTail (hm : MemOk c m) (cmp : Nat) {val : Nat} (hval : val < m.count) :
    MemOk c (m.casTail cmp val) := by
  refine ⟨hm.legal, hm.head_lt, ?_, hm.next, hm.last, hm.closed, hm.pos, hm.drawn, hm.claimed, hm.below,
    hm.drained, hm.ring⟩
  unfold Shared.casTail
  split
  · exact hval
  · exact hm.tail_lt

/-- The head of the list leaves a ring that is drained. -/
theorem MemOk.moveHead (hm : MemOk c m) (hlt : m.head + 1 < m.count) (hd : Drained m m.head) :
    MemOk c { m with head := m.head + 1 } := by
  refine ⟨hm.legal, hlt, hm.tail_lt, hm.next, hm.last, hm.closed, hm.pos, hm.drawn, fun i t d h => ?_,
    hm.below, fun i hi => ?_, hm.ring⟩
  · obtain ⟨hi, ht⟩ := hm.claimed i t d h
    exact ⟨Nat.le_succ_of_le hi, ht⟩
  · rcases Nat.lt_succ_iff_lt_or_eq.mp hi with h | rfl
    · exact hm.drained i h
    · exact hd

/-- `tail.fetch_add(1)` on an open ring. -/
theorem MemOk.draw (hm : MemOk c m) {p e : Nat} {item : T} (hp : p < m.count)
    (hopen : (m.segment p).tail.flag = false) (ho : EnqOpen m.log e item) :
    MemOk c ((m.setTail p ⟨false, (m.segment p).tail.index + 1⟩).push
      (.drawn e (place p (m.segment p).tail.index))) := by
  -- an open ring is the last one, so its tickets come after all drawn before
  have hlast : ¬ p + 1 < m.count := by
    intro h
    rw [hm.closed p h] at hopen
    cases hopen
  have hlegal : Legal (m.log ++ [.drawn e (place p (m.segment p).tail.index)]) := by
    refine hm.legal.drawn ho fun e' q hq => ?_
    obtain ⟨i, t, rfl⟩ := exists_place q
    obtain ⟨hi, ht⟩ := hm.drawn i t e' hq
    rw [place_lt]
    rcases Nat.lt_or_ge i p with h | h
    · exact .inl h
    · obtain rfl : i = p := by omega
      exact .inr ⟨rfl, ht⟩
  have hm' : MemOk c (m.setTail p ⟨false, (m.segment p).tail.index + 1⟩) :=
    hm.setTail hp (Nat.le_succ _) (fun h => by rw [hopen] at h; cases h) fun h => by cases h
  have hhead : ∀ i, ((m.setTail p ⟨false, (m.segment p).tail.index + 1⟩).segment i).head =
      (m.segment i).head := by
    intro i
    rw [Shared.setTail, setSegment_segment]
    split
    · rename_i hi
      rw [hi]
    · rfl
  refine ⟨hlegal, hm'.head_lt, hm'.tail_lt, hm'.next, hm'.last, hm'.closed, hm'.pos,
    fun i t e' h => ?_, fun i t d h => ?_, fun i hi t ht hcond => ?_, fun i hi e' t h => ?_, fun i hi => ?_⟩
  · rcases mem_push.mp h with h | h
    · exact hm'.drawn i t e' h
    · obtain ⟨-, heq⟩ : e' = e ∧ place i t = place p (m.segment p).tail.index := by simpa using h
      obtain ⟨rfl, rfl⟩ := place_inj.mp heq
      refine ⟨hp, ?_⟩
      change _ < ((m.setTail i _).segment i).tail.index
      rw [Shared.setTail, setSegment_self]
      exact Nat.lt_succ_self _
  · refine hm'.claimed i t d ((mem_push.mp h).resolve_right (by simp))
  · have hclaim : ∃ d, .claimed d (place i t) ∈ m.log := by
      rcases hcond with ⟨e', he'⟩ | hcond
      · -- the new ticket is the tail; where head has passed it, it has been claimed already
        rcases mem_push.mp he' with he' | he'
        · exact hm'.below i hi t ht (.inl ⟨e', he'⟩)
        · obtain ⟨-, heq⟩ : e' = e ∧ place i t = place p (m.segment p).tail.index := by
            simpa using he'
          obtain ⟨rfl, rfl⟩ := place_inj.mp heq
          exact hm.below i hp _ (ht.trans_eq (hhead i)) (.inr ⟨hopen, Nat.le_refl _⟩)
      · exact hm'.below i hi t ht (.inr hcond)
    obtain ⟨d, hd⟩ := hclaim
    exact ⟨d, mem_push.mpr (.inl hd)⟩
  · have hi : i < m.head := hi
    have hhead_lt := hm.head_lt
    rcases mem_push.mp h with h | h
    · obtain ⟨d, hd⟩ := hm.drained i hi e' t h
      exact ⟨d, mem_push.mpr (.inl hd)⟩
    · obtain ⟨-, heq⟩ : e' = e ∧ place i t = place p (m.segment p).tail.index := by simpa using h
      obtain ⟨rfl, -⟩ := place_inj.mp heq
      omega
  · refine (hm'.ring i hi).of_log hm.legal hlegal (fun y hy => List.mem_append_left _ hy)
      (fun e' t h => ?_) fun d t r h => ?_
    · exact (List.mem_append.mp h).resolve_right (by simp)
    · exact (List.mem_append.mp h).resolve_right (by simp)

/-- An item goes into the cell of its ticket. -/
theorem MemOk.fill (hm : MemOk c m) {p e t : Nat} {item : T} {idx : Word} (hp : p < m.count)
    (ho : EnqOpen m.log e item) (hdrawn : .drawn e (place p t) ∈ m.log)
    (hcell : (m.segment p).cell c t = ⟨none, idx⟩) (hfree : Free c m p t t idx) :
    MemOk c ((m.setCell c p t ⟨some item, false, t⟩).push (.put e (place p t))) := by
  have hnone : ∀ t' ≥ t, c.slot t' = c.slot t → ∀ d r, .taken d (place p t') r ∉ m.log := by
    intro t' ht' hslot d r h
    have hlt := hfree t' ht' hslot d r h
    rw [hcell] at hlt
    exact Nat.lt_irrefl _ hlt
  have hlegal : Legal (m.log ++ [.put e (place p t)]) := by
    refine hm.legal.put ho hdrawn (hnone t (Nat.le_refl t) rfl) fun d q hq hlt => ?_
    obtain ⟨i, t', rfl⟩ := exists_place q
    obtain ⟨hi, ht'⟩ := hm.claimed i t' d hq
    rcases place_lt.mp hlt with h | ⟨rfl, h⟩
    · exact hm.drained p (by omega) e t hdrawn
    · exact hm.below p hp t (by omega) (.inl ⟨e, hdrawn⟩)
  exact hm.ringStep ⟨rfl, rfl, Nat.le_refl _, id, .inl, by simp, by simp, hlegal,
    (hm.ring p hp).fill hm.legal hlegal ho.called hcell hnone,
    hm.ring_push hlegal (fun e' i t' h => by
      rw [Entry.put.injEq, place_inj] at h
      exact h.2.1.symm) fun d i t' r h => by cases h⟩

/-- A cell that no dequeue has marked or emptied since ticket `t` was drawn for one. -/
theorem MemOk.not_taken (hm : MemOk c m) {d : Nat} {q : Place} (h : Holding m.log d q) :
    ∀ d' r, .taken d' q r ∉ m.log := by
  intro d' r hr
  obtain rfl := claimed_call hm.legal h.claimed (taken_claimed hm.legal hr)
  exact h.notTaken r hr

/-- A ticket that is in the log has not been used, and one that is not never was drawn for. -/
theorem MemOk.stale_not_put (hm : MemOk c m) {p t : Nat} (h : Stale m p t) :
    ∀ e, .put e (place p t) ∉ m.log := by
  intro e he
  obtain ⟨a, -, hdrawn⟩ := exists_enqueue hm.legal he
  obtain ⟨d, hd⟩ := hm.drained p h.1 e t hdrawn
  exact h.2 d hd

theorem hasTicket_setCell {d p t p' t' : Nat} {x : Cell T} (h : HasTicket m d p t) :
    HasTicket (m.setCell c p' t' x) d p t := by
  refine ⟨h.1.trans_eq ?_, h.2⟩
  rw [Shared.setCell, setSegment_segment]
  split
  · rename_i hp
    rw [hp, Segment.setCell_head]
  · rfl

/-- The cells of the ring whose cell has changed. -/
theorem setCell_cell (p t t' : Nat) (x : Cell T) : ((m.setCell c p t x).segment p).cell c t' =
    if c.slot t' = c.slot t then x else (m.segment p).cell c t' := by
  rw [Shared.setCell, setSegment_self, Segment.setCell_cell]

theorem addHead_segment {p : Nat} (hfit : (m.segment p).head + 1 < 2 ^ 64) (i : Nat) :
    (m.addHead p).segment i =
      { m.segment i with head := (m.segment i).head + if i = p then 1 else 0 } := by
  rw [Shared.addHead, setSegment_segment, u64_of_lt hfit]
  split
  · rename_i hi
    rw [hi]
  · rfl

theorem Drained.lt_count (hm : MemOk c m) {p : Nat} (hp : p < m.head) : p + 1 < m.count := by
  have := hm.head_lt
  omega

variable [DecidableEq T]

theorem logTaken_of_holding {d p t : Nat} (r : Option T) (h : Holding m.log d (place p t)) :
    m.logTaken d p t r = m.push (.taken d (place p t) r) := if_pos h.claimed

theorem logTaken_of_stale {d p t : Nat} (r : Option T) (h : Stale m p t) :
    m.logTaken d p t r = m := if_neg (h.2 d)

/-- A ticket that was of no use. -/
theorem MemOk.logTaken_none (hm : MemOk c m) {d p t : Nat} (hp : p < m.count)
    (ht : HasTicket m d p t)
    (hdead : t < ((m.segment p).cell c t).idx.index ∨ ((m.segment p).cell c t).idx.flag = true)
    (hother : ((m.segment p).cell c t).val = none ∨ ((m.segment p).cell c t).idx.index ≠ t) :
    MemOk c (m.logTaken d p t none) := by
  rcases ht.2 with hold | ⟨-, hstale⟩
  · rw [logTaken_of_holding none hold]
    have hput := (hm.ring p hp).not_put hm.legal (hm.not_taken hold) hother.symm
    have hlegal : Legal (m.log ++ [.taken d (place p t) none]) := by
      refine hm.legal.taken hold fun a => ?_
      constructor
      · intro h
        cases h
      · rintro ⟨e, he, -⟩
        exact absurd he (hput e)
    have hstep : RingStep c m p (m.segment p) [.taken d (place p t) none] :=
      ⟨rfl, rfl, Nat.le_refl _, id, .inl, by simp, by simp, hlegal, (hm.ring p hp).spoil hdead hother,
        hm.ring_push hlegal (fun e i t' h => by cases h) fun d' i t' r h => by
          rw [Entry.taken.injEq, place_inj] at h
          exact h.2.1.1.symm⟩
    have h := hm.ringStep hstep
    rwa [Shared.setSegment, Function.update_eq_self] at h
  · rwa [logTaken_of_stale none hstale]

/-- The dequeue with the ticket of an item takes it. -/
theorem MemOk.takeItem (hm : MemOk c m) {d p t : Nat} {v : T} {idx : Word} (hp : p < m.count)
    (ht : HasTicket m d p t) (hcell : (m.segment p).cell c t = ⟨some v, idx⟩)
    (hidx : idx.index = t) :
    Holding m.log d (place p t) ∧
      MemOk c ((m.setCell c p t ⟨none, idx.flag, t + c.ringSize⟩).logTaken d p t (some v)) := by
  have hring := hm.ring p hp
  obtain ⟨e, hput, hcall, -⟩ := hring.value t v (by rw [hcell])
  rw [hcell, hidx] at hput
  rcases ht.2 with hold | ⟨-, hstale⟩
  · refine ⟨hold, ?_⟩
    rw [logTaken_of_holding (m := m.setCell c p t _) (some v) hold]
    have hlegal : Legal (m.log ++ [.taken d (place p t) (some v)]) :=
      hm.legal.taken hold (put_found hm.legal hput hcall)
    have hcell' : (m.segment p).cell c t = ⟨some v, idx.flag, t⟩ := by
      rw [hcell, ← hidx]
    exact hm.ringStep ⟨rfl, rfl, Nat.le_refl _, id, .inl, by simp, by simp, hlegal, hring.take hcell',
      hm.ring_push hlegal (fun e i t' h => by cases h) fun d' i t' r h => by
        rw [Entry.taken.injEq, place_inj] at h
        exact h.2.1.1.symm⟩
  · exact absurd hput (hm.stale_not_put hstale e)

/-- A dequeue whose cell is still full from a round before marks it. -/
theorem MemOk.takeMark (hm : MemOk c m) {d p t : Nat} {v : T} {idx : Word} (hp : p < m.count)
    (ht : HasTicket m d p t) (hcell : (m.segment p).cell c t = ⟨some v, idx⟩)
    (hidx : idx.index < t) :
    MemOk c ((m.setCell c p t ⟨some v, true, idx.index⟩).logTaken d p t none) := by
  refine (hm.setCell ((hm.ring p hp).mark hcell)).logTaken_none hp (hasTicket_setCell ht) ?_ ?_
  · rw [setCell_cell, if_pos rfl]
    exact .inr rfl
  · rw [setCell_cell, if_pos rfl]
    exact .inr (Nat.ne_of_lt hidx)

/-- A dequeue whose cell is empty moves the index on. -/
theorem MemOk.takeSkip (hm : MemOk c m) {d p t : Nat} {idx : Word} (hp : p < m.count)
    (ht : HasTicket m d p t) (hcell : (m.segment p).cell c t = ⟨none, idx⟩)
    (hidx : idx.index ≤ t) :
    MemOk c ((m.setCell c p t ⟨none, idx.flag, t + c.ringSize⟩).logTaken d p t none) := by
  have hpos := c.ringSize_pos
  refine (hm.setCell ((hm.ring p hp).skip hcell hidx)).logTaken_none hp (hasTicket_setCell ht) ?_ ?_
  · rw [setCell_cell, if_pos rfl]
    exact .inl (Nat.lt_add_of_pos_right hpos)
  · rw [setCell_cell, if_pos rfl]
    exact .inl rfl

/-- What is left of a ticket that was of no use. -/
theorem deqOpen_logTaken_none {d p t : Nat} (ht : HasTicket m d p t) :
    DeqOpen (m.logTaken d p t none).log d := by
  rcases ht.2 with hold | ⟨ho, hstale⟩
  · rw [logTaken_of_holding none hold]
    exact hold.nothing
  · rwa [logTaken_of_stale none hstale]

omit [DecidableEq T] in
/-- `head.fetch_add(1)` on a ring. -/
theorem MemOk.claim (hm : MemOk c m) {d p : Nat} (hle : p ≤ m.head) (ho : DeqOpen m.log d)
    (hfit : (m.segment p).head + 1 < 2 ^ 64) :
    MemOk c ((m.addHead p).logClaimed d p (m.segment p).head) ∧
      HasTicket ((m.addHead p).logClaimed d p (m.segment p).head) d p (m.segment p).head := by
  have hhead_lt := hm.head_lt
  have hring : ∀ {w : List (Entry Place T)} {i : Nat}, RingOk c w i (m.segment i) →
      RingOk c w i ((m.addHead p).segment i) := by
    intro w i h
    refine h.of_cell fun t => ?_
    rw [addHead_segment hfit]
    rfl
  have hself : ((m.addHead p).segment p).head = (m.segment p).head + 1 := by
    rw [addHead_segment hfit]
    exact congrArg _ (if_pos rfl)
  rcases Nat.lt_or_eq_of_le hle with hlt | rfl
  · -- the list has left the ring behind
    have hclosed := hm.closed p (Drained.lt_count hm hlt)
    rw [show (m.addHead p).logClaimed d p (m.segment p).head = m.addHead p from
      if_neg (Nat.ne_of_gt hlt)]
    have hunclaimed : ∀ d', .claimed d' (place p (m.segment p).head) ∉ m.log :=
      fun d' h => Nat.lt_irrefl _ (hm.claimed p _ d' h).2
    refine ⟨⟨hm.legal, hm.head_lt, hm.tail_lt, fun i hi => ?_, fun i hi => ?_, fun i hi => ?_,
      fun i hi => ?_, fun i t e h => ?_, fun i t d' h => ?_, fun i hi t ht hcond => ?_, hm.drained,
      fun i hi => hring (hm.ring i hi)⟩, ?_, .inr ⟨ho, hlt, hunclaimed⟩⟩
    · rw [addHead_segment hfit]
      exact hm.next i hi
    · rw [addHead_segment hfit]
      exact hm.last i hi
    · rw [addHead_segment hfit]
      exact hm.closed i hi
    · rw [addHead_segment hfit]
      exact hm.pos i hi
    · rw [addHead_segment hfit]
      exact hm.drawn i t e h
    · rw [addHead_segment hfit]
      obtain ⟨hi, ht⟩ := hm.claimed i t d' h
      exact ⟨hi, ht.trans_le (Nat.le_add_right _ _)⟩
    · rw [addHead_segment hfit] at ht hcond
      by_cases hip : i = p
      · subst hip
        rcases hcond with ⟨e, he⟩ | ⟨hf, -⟩
        · exact hm.drained i hlt e t he
        · rw [hclosed] at hf
          cases hf
      · rw [if_neg hip] at ht
        exact hm.below i hi t ht hcond
    · rw [hself]
      exact Nat.lt_succ_self _
  · -- the ring the list stands at: the claim goes to the log, behind all claims so far
    have hbehind : ∀ d' q, .claimed d' q ∈ m.log → q < place m.head (m.segment m.head).head := by
      intro d' q hq
      obtain ⟨i, t, rfl⟩ := exists_place q
      obtain ⟨hi, ht⟩ := hm.claimed i t d' hq
      rw [place_lt]
      rcases Nat.lt_or_eq_of_le hi with h | rfl
      · exact .inl h
      · exact .inr ⟨rfl, ht⟩
    have hlegal : Legal (m.log ++ [.claimed d (place m.head (m.segment m.head).head)]) := by
      refine hm.legal.claimed ho hbehind fun e q hq hlt => ?_
      obtain ⟨i, t, rfl⟩ := exists_place q
      obtain ⟨a, -, hdrawn⟩ := exists_enqueue hm.legal hq
      rcases place_lt.mp hlt with h | ⟨rfl, h⟩
      · exact hm.drained i h e t hdrawn
      · exact hm.below _ hm.head_lt t h (.inl ⟨e, hdrawn⟩)
    rw [show (m.addHead m.head).logClaimed d m.head (m.segment m.head).head =
      (m.addHead m.head).push (.claimed d (place m.head (m.segment m.head).head)) from if_pos rfl]
    refine ⟨⟨hlegal, hm.head_lt, hm.tail_lt, fun i hi => ?_, fun i hi => ?_, fun i hi => ?_,
      fun i hi => ?_, fun i t e h => ?_, fun i t d' h => ?_, fun i hi t ht hcond => ?_,
      fun i hi e t he => ?_,
      fun i hi => hring ?_⟩, ?_, .inl (ho.claimed hm.legal hbehind)⟩
    · change ((m.addHead m.head).segment i).next = _
      rw [addHead_segment hfit]
      exact hm.next i hi
    · change ((m.addHead m.head).segment i).next = _
      rw [addHead_segment hfit]
      exact hm.last i hi
    · change ((m.addHead m.head).segment i).tail.flag = _
      rw [addHead_segment hfit]
      exact hm.closed i hi
    · change ((m.addHead m.head).segment i).tail.flag = true →
        0 < ((m.addHead m.head).segment i).tail.index
      rw [addHead_segment hfit]
      exact hm.pos i hi
    · change _ ∧ _ < ((m.addHead m.head).segment i).tail.index
      rw [addHead_segment hfit]
      exact hm.drawn i t e ((mem_push.mp h).resolve_right (by simp))
    · change _ ∧ _ < ((m.addHead m.head).segment i).head
      rw [addHead_segment hfit]
      rcases mem_push.mp h with h | h
      · obtain ⟨hi, ht⟩ := hm.claimed i t d' h
        exact ⟨hi, ht.trans_le (Nat.le_add_right _ _)⟩
      · obtain ⟨-, heq⟩ : d' = d ∧ place i t = place m.head (m.segment m.head).head := by
          simpa using h
        obtain ⟨rfl, rfl⟩ := place_inj.mp heq
        refine ⟨Nat.le_refl _, ?_⟩
        dsimp only
        rw [if_pos rfl]
        exact Nat.lt_succ_self _
    · change t < ((m.addHead m.head).segment i).head at ht
      change (∃ e, _ ∈ ((m.addHead m.head).push _).log) ∨
        (((m.addHead m.head).segment i).tail.flag = false ∧
          ((m.addHead m.head).segment i).tail.index ≤ t) at hcond
      rw [addHead_segment hfit] at ht hcond
      by_cases hnew : place i t = place m.head (m.segment m.head).head
      · exact ⟨d, mem_push.mpr (.inr (by rw [hnew]))⟩
      · have hold : t < (m.segment i).head := by
          dsimp only at ht
          by_cases hi : i = m.head
          · subst hi
            rw [if_pos rfl] at ht
            have hne : t ≠ (m.segment m.head).head := fun h => hnew (by rw [h])
            omega
          · rwa [if_neg hi] at ht
        obtain ⟨d', hd'⟩ := hm.below i hi t hold (hcond.imp_left fun ⟨e, he⟩ =>
          ⟨e, (mem_push.mp he).resolve_right (by simp)⟩)
        exact ⟨d', mem_push.mpr (.inl hd')⟩
    · obtain ⟨d', hd'⟩ := hm.drained i hi e t ((mem_push.mp he).resolve_right (by simp))
      exact ⟨d', mem_push.mpr (.inl hd')⟩
    · refine (hm.ring i hi).of_log hm.legal hlegal (fun y hy => List.mem_append_left _ hy)
        (fun e' t h => ?_) fun d t r h => ?_
      · exact (List.mem_append.mp h).resolve_right (by simp)
      · exact (List.mem_append.mp h).resolve_right (by simp)
    · change _ < ((m.addHead m.head).segment m.head).head
      rw [hself]
      exact Nat.lt_succ_self _

end Accesses

end RelaxedConcurrentFifo.LCRQueue
