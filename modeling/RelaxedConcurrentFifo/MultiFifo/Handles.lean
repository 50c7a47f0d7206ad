/-
# RelaxedConcurrentFifo.MultiFifo.Handles — handles on their way to a queue

Two proof outlines over all interleavings of all handles, in all three modes. The first is about the
locks: a handle inside a critical section has set the lock word, so no other is, and it knows what
`StageOk` says. The second is about indices: every queue a handle looks at is one of the
`num_queues`. In `StickSwap` that rests on the permutation: a slot is marked only while its OWN handle
swaps, and marked slots are neither picked nor overwritten by others.
-/
import RelaxedConcurrentFifo.MultiFifo.Queues

namespace RelaxedConcurrentFifo.MultiFifo

open RelaxedConcurrentFifo.Lib.Interleaving

variable {T : Type} {c : Config} {m m' : Shared T} {h h' : Handle T}

/-! ## §1 — the locks -/

/-- The queue in whose critical section a handle is. -/
def insideOf : Pc T → Option Nat
  | .inside _ _ q _ => some q
  | _ => none

/-- A lock word is 0 or 1, and the queues are in order, locked or not. -/
structure LocksOk (c : Config) (m : Shared T) : Prop where
  lock : ∀ i, (m.queues i).lock = 0 ∨ (m.queues i).lock = 1
  queue : ∀ i, QueueOk c (m.queues i)

/-- A handle inside a critical section holds the lock. -/
def InsideOk (c : Config) (m : Shared T) (h : Handle T) : Prop :=
  ∀ op site q stage, h.pc = .inside op site q stage →
    (m.queues q).lock = 1 ∧ StageOk c op (m.queues q) stage

/-- Two handles are not inside the same critical section. -/
def NotBoth (h h' : Handle T) : Prop := ∀ q, insideOf h.pc = some q → insideOf h'.pc ≠ some q

def lockOutline (c : Config) : Outline (Shared T) (Handle T) := ⟨LocksOk c, InsideOk c, NotBoth⟩

theorem NotBoth.symm (hnot : NotBoth h h') : NotBoth h' h := fun q hq hq' => hnot q hq' hq

theorem insideOk_of_none (hpc : insideOf h.pc = none) : InsideOk c m h := by
  intro op site q stage heq
  rw [heq] at hpc
  cases hpc

theorem notBoth_of_none (hpc : insideOf h.pc = none) : NotBoth h h' := by
  intro q hq
  rw [hpc] at hq
  cases hq

@[simp] theorem insideOf_resume (op : Op T) (pick : Option Nat) :
    insideOf (resume c h op pick) = none := by
  unfold resume
  split <;> rfl

@[simp] theorem insideOf_assign (op : Op T) (pick : Option Nat) :
    insideOf (assign c op pick) = none := by
  unfold assign
  split <;> rfl

@[simp] theorem insideOf_scanNext (op : Op T) (q : Nat) : insideOf (scanNext c op q) = none := by
  unfold scanNext
  split
  · rfl
  · cases op <;> rfl

@[simp] theorem insideOf_lockFailed (op : Op T) (site : Site) (q : Nat) :
    insideOf (lockFailed c op site q) = none := by
  cases site with
  | fast pick => exact insideOf_assign op pick
  | scan => exact insideOf_scanNext op q

/-- A handle that has left is not inside. -/
theorem insideOf_leave {op : Op T} {site : Site} {q : Nat} {outcome : Outcome T}
    (hleft : ∀ stage, outcome ≠ .stay stage) : insideOf (leave c h op site q outcome).pc = none := by
  cases outcome with
  | stay stage => exact absurd rfl (hleft stage)
  | rejected =>
      cases site with
      | fast pick => rfl
      | scan => exact insideOf_scanNext op q
  | pushed => rfl
  | popped v => rfl

/-- What a step outside of critical sections leaves alone. -/
structure Outside (m : Shared T) (h : Handle T) (m' : Shared T) (h' : Handle T) : Prop where
  queues : m'.queues = m.queues
  inside : insideOf h'.pc = none
  accepted : h'.accepted = h.accepted
  returned : h'.returned = h.returned

theorem outside_compared (hinside : m'.queues = m.queues) (op : Op T) (i : Nat)
    (best : Nat × Nat) : Outside m h m' (compared c h op i best) := by
  unfold compared
  split
  · refine ⟨hinside, ?_, rfl, rfl⟩
    dsimp only
    split <;> rfl
  · split <;> exact ⟨hinside, rfl, rfl, rfl⟩

/-- The steps that touch a queue are the exchange of a lock and those inside. -/
theorem go_outside (random time : Nat) (spurious : Bool)
    (hexchange : ∀ op site q, h.pc ≠ .lockExchange op site q)
    (hinside : insideOf h.pc = none) :
    Outside m h (go c random time spurious m h).1 (go c random time spurious m h).2 := by
  have hidle : Outside m h m h := ⟨rfl, hinside, rfl, rfl⟩
  cases hpc : h.pc with
  | lockExchange op site q => exact absurd hpc (hexchange op site q)
  | inside op site q stage =>
      rw [hpc] at hinside
      cases hinside
  | begin op =>
      simp only [go, hpc]
      refine ⟨rfl, ?_, rfl, rfl⟩
      dsimp only
      split
      · exact insideOf_assign op none
      · exact insideOf_resume op none
  | refresh op pick i =>
      simp only [go, hpc]
      split
      · split
        · exact hidle
        · exact ⟨rfl, rfl, rfl, rfl⟩
      · exact ⟨rfl, insideOf_resume op pick, rfl, rfl⟩
  | swapExchange op pick i => simp only [go, hpc]; exact ⟨rfl, rfl, rfl, rfl⟩
  | swapLoad op pick i oldTarget =>
      simp only [go, hpc]
      split
      · exact hidle
      · exact ⟨rfl, rfl, rfl, rfl⟩
  | swapCas op pick i oldTarget permIndex newTarget =>
      simp only [go, hpc]
      split <;> exact ⟨rfl, rfl, rfl, rfl⟩
  | swapStore op pick i newTarget =>
      simp only [go, hpc]
      cases pick with
      | some p => exact ⟨rfl, insideOf_resume op (some p), rfl, rfl⟩
      | none =>
          dsimp only
          split
          · exact ⟨rfl, rfl, rfl, rfl⟩
          · exact ⟨rfl, insideOf_resume op none, rfl, rfl⟩
  | choose op => simp only [go, hpc]; exact ⟨rfl, insideOf_resume op _, rfl, rfl⟩
  | readSlot op pick i best =>
      simp only [go, hpc]
      cases pick <;> exact ⟨rfl, rfl, rfl, rfl⟩
  | readTick op i q best => simp only [go, hpc]; exact outside_compared rfl op i _
  | lockLoad op site q =>
      simp only [go, hpc]
      split
      · exact ⟨rfl, rfl, rfl, rfl⟩
      · exact ⟨rfl, insideOf_lockFailed op site q, rfl, rfl⟩
  | idle => simp only [go, hpc]; exact hidle
  | pushReturned result => simp only [go, hpc]; exact hidle
  | popReturned result => simp only [go, hpc]; exact hidle

/-- Steps outside of critical sections. -/
theorem lockOutline_outside (hm : LocksOk c m) (hout : Outside m h m' h') :
    (lockOutline c).StepOk m h m' h' where
  shared :=
    ⟨fun i => by rw [hout.queues]; exact hm.lock i, fun i => by rw [hout.queues]; exact hm.queue i⟩
  thread := insideOk_of_none hout.inside
  others h'' hok _ _ op site q stage heq := by
    rw [hout.queues]
    exact hok op site q stage heq
  pairs _ _ _ _ := ⟨notBoth_of_none hout.inside, (notBoth_of_none hout.inside).symm⟩

/-- Replacing a queue that no other handle is inside of. -/
theorem lockOutline_setQueue {q : Nat} {queue : Queue T} (hm : LocksOk c m)
    (hqueue : QueueOk c queue) (hlock : queue.lock = 0 ∨ queue.lock = 1)
    (hthread : InsideOk c (m.setQueue q queue) h')
    (hothers : ∀ h'', InsideOk c m h'' → NotBoth h h'' → insideOf h''.pc = some q →
      InsideOk c (m.setQueue q queue) h'')
    (hpairs : ∀ h'', InsideOk c m h'' → NotBoth h h'' → NotBoth h' h'') :
    (lockOutline c).StepOk m h (m.setQueue q queue) h' := by
  have hself : (m.setQueue q queue).queues q = queue := Function.update_self _ _ _
  have hne : ∀ i, i ≠ q → (m.setQueue q queue).queues i = m.queues i :=
    fun i hi => Function.update_of_ne hi _ _
  refine ⟨⟨fun i => ?_, fun i => ?_⟩, hthread, fun h'' hok hnot _ => ?_,
    fun h'' hok hnot _ => ⟨hpairs h'' hok hnot, (hpairs h'' hok hnot).symm⟩⟩
  · by_cases hi : i = q
    · rw [hi, hself]
      exact hlock
    · rw [hne i hi]
      exact hm.lock i
  · by_cases hi : i = q
    · rw [hi, hself]
      exact hqueue
    · rw [hne i hi]
      exact hm.queue i
  · by_cases hq : insideOf h''.pc = some q
    · exact hothers h'' hok hnot hq
    · intro op site q' stage heq
      have hq' : q' ≠ q := by
        rintro rfl
        exact hq (by rw [heq]; rfl)
      rw [hne q' hq']
      exact hok op site q' stage heq

theorem lock_cases {lock : Nat} (hlock : lock = 0 ∨ lock = 1) : (lock &&& 1 = 0) ↔ lock = 0 := by
  rcases hlock with rfl | rfl <;> decide

theorem lockOutline_exchange {random time : Nat} {spurious : Bool} {op : Op T} {site : Site} {q : Nat}
    (hm : LocksOk c m) (hpc : h.pc = .lockExchange op site q) :
    (lockOutline c).StepOk m h (go c random time spurious m h).1
      (go c random time spurious m h).2 := by
  simp only [go, hpc]
  have hqueue : QueueOk c { m.queues q with lock := 1 } := (hm.queue q).congr rfl rfl rfl rfl rfl
  have hself : (m.setQueue q { m.queues q with lock := 1 }).queues q =
      { m.queues q with lock := 1 } := Function.update_self _ _ _
  -- a handle inside holds the lock already, and nothing else of the queue changes
  have hothers : ∀ h'', InsideOk c m h'' → insideOf h''.pc = some q →
      InsideOk c (m.setQueue q { m.queues q with lock := 1 }) h'' := by
    intro h'' hok hq op' site' q' stage heq
    have hq' : q' = q := by
      rw [heq] at hq
      exact Option.some.inj hq
    rw [hq', hself]
    have hstage := (hok op' site' q' stage heq).2
    rw [hq'] at hstage
    refine ⟨rfl, ?_⟩
    cases stage <;> exact hstage
  split
  · rename_i hfree
    have hzero := (lock_cases (hm.lock q)).mp hfree
    refine lockOutline_setQueue hm hqueue (Or.inr rfl) ?_ (fun h'' hok _ => hothers h'' hok) ?_
    · intro op' site' q' stage heq
      cases heq
      rw [hself]
      exact ⟨rfl, trivial⟩
    · -- the lock was free, so nobody is inside
      intro h'' hok _ q' hq' hq''
      cases hq'
      cases hpc'' : h''.pc with
      | inside op' site' q' stage =>
          rw [hpc''] at hq''
          cases hq''
          have := (hok op' site' q stage hpc'').1
          omega
      | _ => rw [hpc''] at hq''; cases hq''
  · refine lockOutline_setQueue hm hqueue (Or.inr rfl) (insideOk_of_none ?_)
      (fun h'' hok _ => hothers h'' hok) fun h'' _ _ => notBoth_of_none ?_
    · exact insideOf_lockFailed op site q
    · exact insideOf_lockFailed op site q

theorem lockOutline_inside {random time : Nat} {spurious : Bool} {op : Op T} {site : Site} {q : Nat}
    {stage : Stage T} (hm : LocksOk c m) (hin : InsideOk c m h)
    (hpc : h.pc = .inside op site q stage) :
    (lockOutline c).StepOk m h (go c random time spurious m h).1
      (go c random time spurious m h).2 := by
  obtain ⟨hlock, hstage⟩ := hin op site q stage hpc
  have haccess := access_ok time (hm.queue q) hstage
  simp only [go, hpc]
  generalize (m.queues q).access c op time stage = result at haccess
  obtain ⟨queue, outcome⟩ := result
  have hself : (m.setQueue q queue).queues q = queue := Function.update_self _ _ _
  have hinside : insideOf h.pc = some q := by rw [hpc]; rfl
  by_cases hstay : ∃ stage', outcome = .stay stage'
  · obtain ⟨stage', rfl⟩ := hstay
    obtain ⟨hstage', hlock'⟩ := haccess.stay stage' rfl
    refine lockOutline_setQueue hm haccess.queue (Or.inr (hlock'.trans hlock)) ?_
      (fun h'' _ hnot hq => absurd hq (hnot q hinside)) fun h'' _ hnot q' hq' => ?_
    · intro op' site' q' stage'' heq
      cases heq
      rw [hself]
      exact ⟨hlock'.trans hlock, hstage'⟩
    · cases hq'
      exact hnot q hinside
  · have hleft : ∀ stage', outcome ≠ .stay stage' := fun stage' heq => hstay ⟨stage', heq⟩
    exact lockOutline_setQueue hm haccess.queue (Or.inl (haccess.left hleft))
      (insideOk_of_none (insideOf_leave hleft))
      (fun h'' _ hnot hq => absurd hq (hnot q hinside))
      fun h'' _ _ => notBoth_of_none (insideOf_leave hleft)

theorem lockOutline_step (a : Action T) (hm : LocksOk c m) (hin : InsideOk c m h) :
    (lockOutline c).StepOk m h (stepHandle c a m h).1 (stepHandle c a m h).2 := by
  have hcall : ∀ op, (lockOutline c).StepOk m h m
      (if h.pc.resting then { h with pc := .begin op } else h) := by
    intro op
    split
    · exact lockOutline_outside hm ⟨rfl, rfl, rfl, rfl⟩
    · exact .of_memory hm hin fun h'' _ hnot _ => ⟨hnot, hnot.symm⟩
  cases a with
  | push v => exact hcall (.push v)
  | pop => exact hcall .pop
  | go random time spurious =>
      show (lockOutline c).StepOk m h (go c random time spurious m h).1
        (go c random time spurious m h).2
      by_cases hexchange : ∃ op site q, h.pc = .lockExchange op site q
      · obtain ⟨op, site, q, hpc⟩ := hexchange
        exact lockOutline_exchange hm hpc
      · by_cases hinside : insideOf h.pc = none
        · exact lockOutline_outside hm (go_outside random time spurious
            (fun op site q heq => hexchange ⟨op, site, q, heq⟩) hinside)
        · cases hpc : h.pc with
          | inside op site q stage => exact lockOutline_inside hm hin hpc
          | _ => exact absurd (by rw [hpc]; rfl) hinside

/-! ## §2 — the indices -/

/-- The entry a handle is swapping: its slot is marked. -/
def swapping : Pc T → Option Nat
  | .swapLoad _ _ i _ | .swapCas _ _ i _ _ _ | .swapStore _ _ i _ => some i
  | _ => none

/-- A drawn `push_index` is a candidate. -/
def PickOk (c : Config) (pick : Option Nat) : Prop := ∀ p, pick = some p → p < c.numPopCandidates

/-- The best queue so far is a queue. -/
def BestOk (c : Config) (best : Option (Nat × Nat)) : Prop := ∀ b, best = some b → b.1 < c.numQueues

def SiteOk (c : Config) : Site → Prop
  | .fast pick => PickOk c pick
  | .scan => True

/-- What holds of the place a handle is at: every index is in range. -/
def PcOk (c : Config) : Pc T → Prop
  | .refresh _ pick _ => PickOk c pick
  | .swapExchange _ pick i => PickOk c pick ∧ c.mode = .stickSwap ∧ i < c.numPopCandidates
  | .swapLoad _ pick i oldTarget =>
      (PickOk c pick ∧ c.mode = .stickSwap ∧ i < c.numPopCandidates) ∧ oldTarget < c.numQueues
  | .swapCas _ pick i oldTarget permIndex newTarget =>
      (PickOk c pick ∧ c.mode = .stickSwap ∧ i < c.numPopCandidates) ∧ oldTarget < c.numQueues ∧
        permIndex < c.numQueues ∧ newTarget ≠ maxWord
  | .swapStore _ pick i newTarget =>
      (PickOk c pick ∧ c.mode = .stickSwap ∧ i < c.numPopCandidates) ∧ newTarget < c.numQueues
  | .readSlot _ pick i best =>
      PickOk c pick ∧ c.mode = .stickSwap ∧ i < c.numPopCandidates ∧ BestOk c best
  | .readTick _ _ q best => q < c.numQueues ∧ BestOk c best
  | .lockLoad _ site q | .lockExchange _ site q | .inside _ site q _ =>
      SiteOk c site ∧ q < c.numQueues
  | _ => True

/-- A handle's part of the permutation lies inside it, and is marked only where it swaps. -/
structure SlotsOk (c : Config) (m : Shared T) (h : Handle T) : Prop where
  inside : h.offset + c.numPopCandidates ≤ c.numQueues
  unmarked : ∀ i < c.numPopCandidates, swapping h.pc ≠ some i →
    m.permutation (h.offset + i) ≠ maxWord
  marked : ∀ i, swapping h.pc = some i → m.permutation (h.offset + i) = maxWord

structure HandleOk (c : Config) (m : Shared T) (h : Handle T) : Prop where
  popIndex : ∀ i, h.popIndex i < c.numQueues
  pc : PcOk c h.pc
  slots : c.mode = .stickSwap → SlotsOk c m h

/-- A slot of the permutation is marked or holds a queue. -/
def PermutationOk (c : Config) (m : Shared T) : Prop :=
  ∀ i < c.numQueues, m.permutation i = maxWord ∨ m.permutation i < c.numQueues

/-- The parts of two handles are disjoint. -/
def Disjoint (c : Config) (h h' : Handle T) : Prop :=
  c.mode = .stickSwap → ∀ i < c.numPopCandidates, ∀ j < c.numPopCandidates,
    h.offset + i ≠ h'.offset + j

def indexOutline (c : Config) : Outline (Shared T) (Handle T) :=
  ⟨PermutationOk c, HandleOk c, Disjoint c⟩

theorem Disjoint.symm (hd : Disjoint c h h') : Disjoint c h' h :=
  fun hmode i hi j hj heq => hd hmode j hj i hi heq.symm

theorem numQueues_lt_maxWord (c : Config) : c.numQueues < maxWord := by
  have := c.numQueues_lt
  unfold maxWord
  omega

theorem pickOk_none : PickOk c none := nofun

theorem bestOk_none : BestOk c none := nofun

@[simp] theorem swapping_resume (op : Op T) (pick : Option Nat) :
    swapping (resume c h op pick) = none := by
  unfold resume
  split <;> rfl

theorem resume_ok {op : Op T} {pick : Option Nat} (hpick : PickOk c pick)
    (hindex : ∀ i, h.popIndex i < c.numQueues) : PcOk c (resume c h op pick) := by
  unfold resume
  split
  · rename_i hmode
    exact ⟨pickOk_none, hmode, c.numPopCandidates_pos, bestOk_none⟩
  · exact ⟨hindex 0, bestOk_none⟩
  · exact ⟨hindex 0, bestOk_none⟩
  · trivial
  · rename_i p hmode
    exact ⟨hpick, hmode, hpick p rfl, bestOk_none⟩
  · rename_i p hmode
    exact ⟨hpick, hindex p⟩

@[simp] theorem swapping_assign (op : Op T) (pick : Option Nat) :
    swapping (assign c op pick) = none := by
  unfold assign
  split <;> rfl

theorem assign_ok {op : Op T} {pick : Option Nat} (hpick : PickOk c pick) :
    PcOk c (assign c op pick) := by
  unfold assign
  split
  · rename_i p hmode
    exact ⟨hpick, hmode, hpick p rfl⟩
  · rename_i hmode
    exact ⟨pickOk_none, hmode, c.numPopCandidates_pos⟩
  · exact hpick

@[simp] theorem swapping_scanNext (op : Op T) (q : Nat) : swapping (scanNext c op q) = none := by
  unfold scanNext
  split
  · rfl
  · cases op <;> rfl

theorem scanNext_ok (op : Op T) (q : Nat) : PcOk c (scanNext c op q) := by
  unfold scanNext
  split
  · rename_i hlt
    exact ⟨trivial, hlt⟩
  · cases op <;> trivial

@[simp] theorem swapping_lockFailed (op : Op T) (site : Site) (q : Nat) :
    swapping (lockFailed c op site q) = none := by
  cases site with
  | fast pick => exact swapping_assign op pick
  | scan => exact swapping_scanNext op q

theorem lockFailed_ok {op : Op T} {site : Site} (q : Nat) (hsite : SiteOk c site) :
    PcOk c (lockFailed c op site q) := by
  cases site with
  | fast pick => exact assign_ok hsite
  | scan => exact scanNext_ok op q

/-- A step that changes neither the permutation nor the marking. -/
theorem indexOutline_keep (hm : PermutationOk c m) (hh : HandleOk c m h)
    (hperm : m'.permutation = m.permutation) (hoffset : h'.offset = h.offset)
    (hpc : PcOk c h'.pc) (hindex : ∀ i, h'.popIndex i < c.numQueues)
    (hswap : swapping h'.pc = swapping h.pc) : (indexOutline c).StepOk m h m' h' := by
  have hslots : ∀ g : Handle T, HandleOk c m g → c.mode = .stickSwap → SlotsOk c m' g := by
    intro g hg hmode
    obtain ⟨h1, h2, h3⟩ := hg.slots hmode
    exact ⟨h1, by rw [hperm]; exact h2, by rw [hperm]; exact h3⟩
  refine ⟨fun i hi => by rw [hperm]; exact hm i hi, ⟨hindex, hpc, fun hmode => ?_⟩,
    fun g hg _ _ => ⟨hg.popIndex, hg.pc, hslots g hg⟩, fun g _ hd _ => ?_⟩
  · obtain ⟨h1, h2, h3⟩ := hslots h hh hmode
    exact ⟨by rw [hoffset]; exact h1, by rw [hoffset, hswap]; exact h2,
      by rw [hoffset, hswap]; exact h3⟩
  · have hd' : Disjoint c h' g := fun hmode i hi j hj => by rw [hoffset]; exact hd hmode i hi j hj
    exact ⟨hd', hd'.symm⟩

theorem swapping_lt (hpc : PcOk c h.pc) {i : Nat} (hi : swapping h.pc = some i) :
    i < c.numPopCandidates := by
  cases hp : h.pc with
  | swapLoad op pick j oldTarget =>
      rw [hp] at hpc hi
      cases hi
      exact hpc.1.2.2
  | swapCas op pick j oldTarget permIndex newTarget =>
      rw [hp] at hpc hi
      cases hi
      exact hpc.1.2.2
  | swapStore op pick j newTarget =>
      rw [hp] at hpc hi
      cases hi
      exact hpc.1.2.2
  | _ => rw [hp] at hi; cases hi

theorem setSlot_self (m : Shared T) (i x : Nat) : (m.setSlot i x).permutation i = x :=
  Function.update_self _ _ _

theorem setSlot_ne (m : Shared T) {i j : Nat} (x : Nat) (h : j ≠ i) :
    (m.setSlot i x).permutation j = m.permutation j := Function.update_of_ne h _ _

theorem PermutationOk.setSlot (hm : PermutationOk c m) {i x : Nat}
    (hx : x = maxWord ∨ x < c.numQueues) : PermutationOk c (m.setSlot i x) := by
  intro j hj
  by_cases hji : j = i
  · rw [hji, setSlot_self]
    exact hx
  · rw [setSlot_ne m x hji]
    exact hm j hj

/-- Writing a slot of one's own breaks no other handle's assertion. -/
theorem HandleOk.setOwn {g : Handle T} (hg : HandleOk c m g) (hd : Disjoint c h g) {i : Nat}
    (hi : i < c.numPopCandidates) (x : Nat) : HandleOk c (m.setSlot (h.offset + i) x) g := by
  refine ⟨hg.popIndex, hg.pc, fun hmode => ?_⟩
  obtain ⟨h1, h2, h3⟩ := hg.slots hmode
  refine ⟨h1, fun j hj hne => ?_, fun j hj => ?_⟩
  · rw [setSlot_ne m x (hd hmode i hi j hj).symm]
    exact h2 j hj hne
  · rw [setSlot_ne m x (hd hmode i hi j (swapping_lt hg.pc hj)).symm]
    exact h3 j hj

/-- What a handle reads from an unmarked slot of its own is a queue. -/
theorem HandleOk.slot_lt (hm : PermutationOk c m) (hh : HandleOk c m h) (hmode : c.mode = .stickSwap)
    {i : Nat} (hi : i < c.numPopCandidates) (hnot : swapping h.pc ≠ some i) :
    m.permutation (h.offset + i) < c.numQueues := by
  obtain ⟨hinside, hunmarked, -⟩ := hh.slots hmode
  rcases hm (h.offset + i) (by omega) with heq | hlt
  · exact absurd heq (hunmarked i hi hnot)
  · exact hlt

theorem indexOutline_swapExchange {op : Op T} {pick : Option Nat} {i : Nat} (hm : PermutationOk c m)
    (hh : HandleOk c m h) (hpc : h.pc = .swapExchange op pick i) :
    (indexOutline c).StepOk m h (m.setSlot (h.offset + i) maxWord)
      { h with pc := .swapLoad op pick i (m.permutation (h.offset + i)) } := by
  have hok := hh.pc
  rw [hpc] at hok
  obtain ⟨hpick, hmode, hi⟩ := hok
  have hnone : swapping h.pc = none := by rw [hpc]; rfl
  have hold := hh.slot_lt hm hmode hi (by rw [hnone]; exact nofun)
  refine ⟨hm.setSlot (Or.inl rfl), ⟨hh.popIndex, ⟨⟨hpick, hmode, hi⟩, hold⟩, fun _ => ?_⟩,
    fun g hg hd _ => hg.setOwn hd hi maxWord, fun g _ hd hd' => ⟨hd, hd'⟩⟩
  obtain ⟨hinside, hunmarked, -⟩ := hh.slots hmode
  refine ⟨hinside, fun j hj hne => ?_, fun j hj => ?_⟩
  · have hji : j ≠ i := fun heq => hne (by rw [heq]; rfl)
    rw [setSlot_ne m maxWord (by omega : h.offset + j ≠ h.offset + i)]
    exact hunmarked j hj (by rw [hnone]; exact nofun)
  · cases hj
    exact setSlot_self m _ _

theorem indexOutline_swapCas {op : Op T} {pick : Option Nat} {i oldTarget permIndex newTarget : Nat}
    (hm : PermutationOk c m) (hh : HandleOk c m h)
    (hpc : h.pc = .swapCas op pick i oldTarget permIndex newTarget)
    (heq : m.permutation permIndex = newTarget) :
    (indexOutline c).StepOk m h (m.setSlot permIndex oldTarget)
      { h with pc := .swapStore op pick i newTarget } := by
  have hok := hh.pc
  rw [hpc] at hok
  obtain ⟨hplace, hold, hperm, hnew⟩ := hok
  have hne : oldTarget ≠ maxWord := Nat.ne_of_lt (hold.trans (numQueues_lt_maxWord c))
  have hlt : newTarget < c.numQueues := by
    rcases hm permIndex hperm with hmark | hlt
    · exact absurd (heq.symm.trans hmark) hnew
    · exact heq ▸ hlt
  -- the slot was unmarked and stays so
  have hslots : ∀ g : Handle T, SlotsOk c m g → SlotsOk c (m.setSlot permIndex oldTarget) g := by
    intro g hg
    refine ⟨hg.inside, fun j hj hsw => ?_, fun j hj => ?_⟩
    · by_cases hjp : g.offset + j = permIndex
      · rw [hjp, setSlot_self]
        exact hne
      · rw [setSlot_ne m oldTarget hjp]
        exact hg.unmarked j hj hsw
    · have hjp : g.offset + j ≠ permIndex := by
        intro hjp
        have hmark := hg.marked j hj
        rw [hjp, heq] at hmark
        exact hnew hmark
      rw [setSlot_ne m oldTarget hjp]
      exact hg.marked j hj
  refine ⟨hm.setSlot (Or.inr hold), ⟨hh.popIndex, ⟨hplace, hlt⟩, fun hmode => ?_⟩,
    fun g hg _ _ => ⟨hg.popIndex, hg.pc, fun hmode => hslots g (hg.slots hmode)⟩,
    fun g _ hd hd' => ⟨hd, hd'⟩⟩
  obtain ⟨h1, h2, h3⟩ := hslots h (hh.slots hmode)
  rw [hpc] at h2 h3
  exact ⟨h1, h2, h3⟩

theorem indexOutline_swapStore {op : Op T} {pick : Option Nat} {i newTarget : Nat}
    (hm : PermutationOk c m) (hh : HandleOk c m h) (hpc : h.pc = .swapStore op pick i newTarget)
    (hoffset : h'.offset = h.offset) (hindex : h'.popIndex = h.popIndex) (hok' : PcOk c h'.pc)
    (hswap : swapping h'.pc = none) :
    (indexOutline c).StepOk m h (m.setSlot (h.offset + i) newTarget) h' := by
  have hok := hh.pc
  rw [hpc] at hok
  obtain ⟨⟨hpick, hmode, hi⟩, hnew⟩ := hok
  have hne : newTarget ≠ maxWord := Nat.ne_of_lt (hnew.trans (numQueues_lt_maxWord c))
  refine ⟨hm.setSlot (Or.inr hnew), ⟨by rw [hindex]; exact hh.popIndex, hok', fun _ => ?_⟩,
    fun g hg hd _ => hg.setOwn hd hi newTarget, fun g _ hd _ => ?_⟩
  · obtain ⟨hinside, hunmarked, -⟩ := hh.slots hmode
    rw [hpc] at hunmarked
    refine ⟨by rw [hoffset]; exact hinside, fun j hj _ => ?_, fun j hj => ?_⟩
    · rw [hoffset]
      by_cases hji : j = i
      · rw [hji, setSlot_self]
        exact hne
      · rw [setSlot_ne m newTarget (by omega : h.offset + j ≠ h.offset + i)]
        exact hunmarked j hj fun heq => hji (Option.some.inj heq).symm
    · rw [hswap] at hj
      cases hj
  · have hd' : Disjoint c h' g := fun hmode i hi j hj => by rw [hoffset]; exact hd hmode i hi j hj
    exact ⟨hd', hd'.symm⟩

theorem better_ok {best : Option (Nat × Nat)} {q tick : Nat} (hq : q < c.numQueues)
    (hbest : BestOk c best) : (better best q tick).1 < c.numQueues := by
  cases best with
  | none => exact hq
  | some b =>
      dsimp only [better]
      split
      · exact hq
      · exact hbest b rfl

/-- The candidate that was compared last, and the next one. -/
theorem indexOutline_compared {op : Op T} {i q : Nat} {best : Option (Nat × Nat)} (tick : Nat)
    (hm : PermutationOk c m) (hh : HandleOk c m h) (hpc : h.pc = .readTick op i q best) :
    (indexOutline c).StepOk m h m (compared c h op i (better best q tick)) := by
  have hok := hh.pc
  rw [hpc] at hok
  have hbest : BestOk c (some (better best q tick)) := by
    intro b hb
    cases hb
    exact better_ok hok.1 hok.2
  have hnone : swapping h.pc = none := by rw [hpc]; rfl
  unfold compared
  split
  · rename_i hlt
    refine indexOutline_keep hm hh rfl rfl ?_ hh.popIndex ?_
    · dsimp only
      split
      · rename_i hmode
        exact ⟨pickOk_none, hmode, hlt, hbest⟩
      · exact ⟨hh.popIndex _, hbest⟩
    · rw [hnone]
      dsimp only
      split <;> rfl
  · split
    · exact indexOutline_keep hm hh rfl rfl ⟨trivial, c.numQueues_pos⟩ hh.popIndex hnone.symm
    · exact indexOutline_keep hm hh rfl rfl ⟨pickOk_none, better_ok hok.1 hok.2⟩ hh.popIndex
        hnone.symm

/-- Whatever comes of a step inside, the handle's indices stay in range. -/
theorem indexOutline_leave {op : Op T} {site : Site} {q : Nat} {stage : Stage T} {queue : Queue T}
    {outcome : Outcome T} (hm : PermutationOk c m) (hh : HandleOk c m h)
    (hpc : h.pc = .inside op site q stage) :
    (indexOutline c).StepOk m h (m.setQueue q queue) (leave c h op site q outcome) := by
  have hok := hh.pc
  rw [hpc] at hok
  have hnone : swapping h.pc = none := by rw [hpc]; rfl
  cases outcome with
  | stay stage' => exact indexOutline_keep hm hh rfl rfl hok hh.popIndex hnone.symm
  | rejected =>
      cases site with
      | fast pick =>
          exact indexOutline_keep hm hh rfl rfl ⟨trivial, c.numQueues_pos⟩ hh.popIndex hnone.symm
      | scan =>
          refine indexOutline_keep hm hh rfl rfl (scanNext_ok op q) hh.popIndex ?_
          exact (swapping_scanNext op q).trans hnone.symm
  | pushed => exact indexOutline_keep hm hh rfl rfl trivial hh.popIndex hnone.symm
  | popped v => exact indexOutline_keep hm hh rfl rfl trivial hh.popIndex hnone.symm

theorem indexOutline_go (random time : Nat) (spurious : Bool) (hm : PermutationOk c m)
    (hh : HandleOk c m h) :
    (indexOutline c).StepOk m h (go c random time spurious m h).1
      (go c random time spurious m h).2 := by
  have hok := hh.pc
  have hidle : (indexOutline c).StepOk m h m h :=
    indexOutline_keep hm hh rfl rfl hh.pc hh.popIndex rfl
  cases hpc : h.pc with
  | idle => simp only [go, hpc]; exact hidle
  | pushReturned result => simp only [go, hpc]; exact hidle
  | popReturned result => simp only [go, hpc]; exact hidle
  | begin op =>
      simp only [go, hpc]
      refine indexOutline_keep hm hh rfl rfl ?_ hh.popIndex ?_
      · dsimp only
        split
        · exact assign_ok pickOk_none
        · exact resume_ok pickOk_none hh.popIndex
      · rw [hpc]
        dsimp only
        split
        · exact swapping_assign op none
        · exact swapping_resume op none
  | refresh op pick i =>
      rw [hpc] at hok
      simp only [go, hpc]
      split
      · split
        · exact hidle
        · refine indexOutline_keep hm hh rfl rfl hok (fun j => ?_) (by rw [hpc]; rfl)
          dsimp only
          by_cases hj : j = i
          · rw [hj, Function.update_self]
            exact Nat.mod_lt _ c.numQueues_pos
          · rw [Function.update_of_ne hj]
            exact hh.popIndex j
      · refine indexOutline_keep hm hh rfl rfl (resume_ok hok hh.popIndex) hh.popIndex ?_
        rw [hpc]
        exact swapping_resume op pick
  | swapExchange op pick i => simp only [go, hpc]; exact indexOutline_swapExchange hm hh hpc
  -- the new target is masked down to an index of the permutation
  | swapLoad op pick i oldTarget =>
      rw [hpc] at hok
      simp only [go, hpc]
      split
      · exact hidle
      · rename_i hne
        refine indexOutline_keep hm hh rfl rfl ⟨hok.1, hok.2, ?_, hne⟩ hh.popIndex
          (by rw [hpc]; rfl)
        have hle : random &&& (c.numQueues - 1) ≤ c.numQueues - 1 := Nat.and_le_right
        have := c.numQueues_pos
        omega
  | swapCas op pick i oldTarget permIndex newTarget =>
      rw [hpc] at hok
      simp only [go, hpc]
      split
      · rename_i heq
        exact indexOutline_swapCas hm hh hpc heq.1
      · exact indexOutline_keep hm hh rfl rfl ⟨hok.1, hok.2.1⟩ hh.popIndex (by rw [hpc]; rfl)
  | swapStore op pick i newTarget =>
      rw [hpc] at hok
      simp only [go, hpc]
      cases pick with
      | some p =>
          exact indexOutline_swapStore hm hh hpc rfl rfl (resume_ok hok.1.1 hh.popIndex)
            (swapping_resume op (some p))
      | none =>
          dsimp only
          split
          · rename_i hlt
            exact indexOutline_swapStore hm hh hpc rfl rfl ⟨pickOk_none, hok.1.2.1, hlt⟩ rfl
          · exact indexOutline_swapStore hm hh hpc rfl rfl (resume_ok pickOk_none hh.popIndex)
              (swapping_resume op none)
  -- the candidate picked for the operation is drawn among those there are
  | choose op =>
      simp only [go, hpc]
      refine indexOutline_keep hm hh rfl rfl (resume_ok (fun p hp => ?_) hh.popIndex) hh.popIndex ?_
      · cases hp
        exact Nat.mod_lt _ c.numPopCandidates_pos
      · rw [hpc]
        exact swapping_resume op _
  | readSlot op pick i best =>
      rw [hpc] at hok
      obtain ⟨hpick, hmode, hi, hbest⟩ := hok
      have hlt := hh.slot_lt hm hmode hi (by rw [hpc]; exact nofun)
      simp only [go, hpc]
      cases pick with
      | some p =>
          exact indexOutline_keep hm hh rfl rfl ⟨hpick, hlt⟩ hh.popIndex (by rw [hpc]; rfl)
      | none => exact indexOutline_keep hm hh rfl rfl ⟨hlt, hbest⟩ hh.popIndex (by rw [hpc]; rfl)
  | readTick op i q best => simp only [go, hpc]; exact indexOutline_compared _ hm hh hpc
  | lockLoad op site q =>
      rw [hpc] at hok
      simp only [go, hpc]
      split
      · exact indexOutline_keep hm hh rfl rfl hok hh.popIndex (by rw [hpc]; rfl)
      · refine indexOutline_keep hm hh rfl rfl (lockFailed_ok q hok.1) hh.popIndex ?_
        rw [hpc]
        exact swapping_lockFailed op site q
  | lockExchange op site q =>
      rw [hpc] at hok
      simp only [go, hpc]
      refine indexOutline_keep hm hh rfl rfl ?_ hh.popIndex ?_
      · dsimp only
        split
        · exact hok
        · exact lockFailed_ok q hok.1
      · rw [hpc]
        dsimp only
        split
        · rfl
        · exact swapping_lockFailed op site q
  | inside op site q stage => simp only [go, hpc]; exact indexOutline_leave hm hh hpc

theorem indexOutline_step (a : Action T) (hm : PermutationOk c m) (hh : HandleOk c m h) :
    (indexOutline c).StepOk m h (stepHandle c a m h).1 (stepHandle c a m h).2 := by
  have hcall : ∀ op, (indexOutline c).StepOk m h m
      (if h.pc.resting then { h with pc := .begin op } else h) := by
    intro op
    split
    · rename_i hresting
      refine indexOutline_keep hm hh rfl rfl trivial hh.popIndex ?_
      cases hpc : h.pc <;> first | rfl | (rw [hpc] at hresting; cases hresting)
    · exact indexOutline_keep hm hh rfl rfl hh.pc hh.popIndex rfl
  cases a with
  | push v => exact hcall (.push v)
  | pop => exact hcall .pop
  | go random time spurious => exact indexOutline_go random time spurious hm hh

/-! ## §3 — whole runs -/

section Runs

variable [Inhabited T] {n : Nat}

theorem lockOutline_run (c : Config) (ls : List (Fin n × Action T)) :
    (lockOutline c).Holds (run c ls) := by
  have hinit : (lockOutline (T := T) c).Holds (init c n) :=
    ⟨⟨fun _ => Or.inl rfl, fun _ => QueueOk.fresh⟩, fun _ => insideOk_of_none rfl,
      fun _ _ _ => notBoth_of_none rfl⟩
  exact hinit.run (fun _ => True) (fun _ _ _ _ => trivial)
    (fun a _ _ hm hin _ => lockOutline_step a hm hin) ls trivial

/-- In `StickSwap`, there are not more handles than the permutation has parts for. -/
def EnoughSlots (c : Config) (n : Nat) : Prop :=
  c.mode = .stickSwap → n * c.numPopCandidates ≤ c.numQueues

theorem indexOutline_run (c : Config) (hslots : EnoughSlots c n) (ls : List (Fin n × Action T)) :
    (indexOutline c).Holds (run c ls) := by
  have hpart : ∀ t : Fin n, (t.val + 1) * c.numPopCandidates ≤ n * c.numPopCandidates :=
    fun t => Nat.mul_le_mul_right _ t.isLt
  have hinit : (indexOutline (T := T) c).Holds (init c n) := by
    refine ⟨fun i hi => Or.inr hi, fun t => ⟨fun _ => c.numQueues_pos, trivial, fun hmode => ?_⟩,
      fun t u htu hmode i hi j hj heq => ?_⟩
    · have hle := (hpart t).trans (hslots hmode)
      rw [Nat.succ_mul] at hle
      refine ⟨hle, fun i hi _ => ?_, nofun⟩
      have := numQueues_lt_maxWord c
      show t.val * c.numPopCandidates + i ≠ maxWord
      omega
    · -- the entry and the handle can be read off the slot
      change t.val * c.numPopCandidates + i = u.val * c.numPopCandidates + j at heq
      have hquot : ∀ x y, y < c.numPopCandidates →
          (x * c.numPopCandidates + y) / c.numPopCandidates = x := by
        intro x y hy
        rw [Nat.mul_comm, Nat.mul_add_div c.numPopCandidates_pos, Nat.div_eq_of_lt hy, Nat.add_zero]
      refine htu (Fin.ext ?_)
      rw [← hquot t.val i hi, heq, hquot u.val j hj]
  exact hinit.run (fun _ => True) (fun _ _ _ _ => trivial)
    (fun a _ _ hm hh _ => indexOutline_step a hm hh) ls trivial

end Runs

end RelaxedConcurrentFifo.MultiFifo
