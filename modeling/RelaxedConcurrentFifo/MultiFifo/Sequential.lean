/-
# RelaxedConcurrentFifo.MultiFifo.Sequential — calls that do not overlap

Without interference the two stages of a call (candidates first, then the scan) leave no room for
relaxed verdicts: every `try_lock` is successful, the full and empty tests are made under the lock, and
a call fails only after it has scanned ALL queues. So a `MultiFifo` is an exact bounded bag, whatever
the cached ticks and the sticky indices say.

A call is run on the machine by one handle alone (`Called` is its invariant, against the queues it
started from); `quiet_run` chains such calls. The capacity is another matter: the constructor rounds
`size / num_queues` up with a sum that wraps.
-/
import RelaxedConcurrentFifo.MultiFifo.Handles
import RelaxedConcurrentFifo.Lib.Sums

namespace RelaxedConcurrentFifo.MultiFifo

open RelaxedConcurrentFifo.Lib.Interleaving
open RelaxedConcurrentFifo.Lib.Words

variable {T : Type} {c : Config} {m : Shared T} {h : Handle T} {op : Op T}

/-! ## §1 — what a critical section does to its queue -/

/-- The queue is full, for a push, or empty, for a pop. -/
def Rejects (c : Config) (op : Op T) (q : Queue T) : Prop :=
  match op with
  | .push _ => sub64 q.head q.tail = c.sizePerQueue
  | .pop => q.head = q.tail

/-- What has become of the queue `q₀` a critical section was entered with. -/
def Moved (c : Config) (op : Op T) (q₀ q : Queue T) : Stage T → Prop
  | .checkHead => q = { q₀ with lock := 1 }
  | .checkTail head => q = { q₀ with lock := 1 } ∧ head = q₀.head
  | .unlockRejected => q = { q₀ with lock := 1 } ∧ Rejects c op q₀
  | .pushRead | .pushWrite _ _ | .pushLoad | .pushStore _ =>
      (∃ v, op = .push v) ∧ q.pushed = q₀.pushed ∧ q.popped = q₀.popped
  | .pushedOldest | .pushedTail | .pushedTick _ | .bottomHead | .bottomTick _ | .storeNewest _
  | .sizeHead _ | .sizeTail _ _ | .storeOldest _ | .unlockPushed =>
      ∃ v, op = .push v ∧ q.pushed = q₀.pushed ++ [v] ∧ q.popped = q₀.popped
  | .topTail | .topValue _ | .popLoad _ | .popStore _ _ =>
      op = .pop ∧ q.pushed = q₀.pushed ∧ q.popped = q₀.popped
  | .emptyHead v | .emptyTail v _ | .frontTail v | .frontTick v _ | .poppedOldest v _ _
  | .poppedNewest v | .unlockPopped v =>
      op = .pop ∧ q.pushed = q₀.pushed ∧ q.popped = q₀.popped ++ [v]

/-- What a critical section has done when it is left. -/
def Left (c : Config) (op : Op T) (q₀ q : Queue T) : Outcome T → Prop
  | .stay stage => Moved c op q₀ q stage
  | .rejected => q = { q₀ with lock := 0 } ∧ Rejects c op q₀
  | .pushed => ∃ v, op = .push v ∧ q.pushed = q₀.pushed ++ [v] ∧ q.popped = q₀.popped
  | .popped v => op = .pop ∧ q.pushed = q₀.pushed ∧ q.popped = q₀.popped ++ [v]

theorem checked_moved {q₀ q : Queue T} (hq : q = { q₀ with lock := 1 }) :
    Moved c op q₀ q (checked c op q₀.head q.tail) := by
  have htail : q.tail = q₀.tail := by rw [hq]
  have hpushed : q.pushed = q₀.pushed := by rw [hq]
  have hpopped : q.popped = q₀.popped := by rw [hq]
  rw [htail]
  unfold checked
  cases op with
  | push v =>
      dsimp only
      split
      · rename_i hfull
        exact ⟨hq, hfull⟩
      · exact ⟨⟨v, rfl⟩, hpushed, hpopped⟩
  | pop =>
      dsimp only
      split
      · rename_i hempty
        exact ⟨hq, hempty⟩
      · exact ⟨rfl, hpushed, hpopped⟩

theorem access_moved (time : Nat) {q₀ q : Queue T} {stage : Stage T} (hmoved : Moved c op q₀ q stage) :
    Left c op q₀ (q.access c op time stage).1 (q.access c op time stage).2 := by
  cases stage with
  | checkHead =>
      refine ⟨hmoved, ?_⟩
      rw [show q = _ from hmoved]
  | checkTail head =>
      obtain ⟨hq, rfl⟩ := hmoved
      exact checked_moved hq
  | unlockRejected =>
      obtain ⟨rfl, hreject⟩ := hmoved
      exact ⟨rfl, hreject⟩
  | pushWrite tick head =>
      obtain ⟨⟨v, rfl⟩, hsame⟩ := hmoved
      exact ⟨⟨v, rfl⟩, hsame⟩
  | pushStore head =>
      obtain ⟨⟨v, rfl⟩, hpushed, hpopped⟩ := hmoved
      have hlast : q.pushed ++ [v] = q₀.pushed ++ [v] := by rw [hpushed]
      dsimp only [Queue.access, Left]
      split <;> exact ⟨v, rfl, hlast, hpopped⟩
  | pushedOldest => dsimp only [Queue.access, Left]; split <;> exact hmoved
  | sizeTail tick head => dsimp only [Queue.access, Left]; split <;> exact hmoved
  | popStore v tail =>
      obtain ⟨hop, hpushed, hpopped⟩ := hmoved
      exact ⟨hop, hpushed, congrArg (· ++ [v]) hpopped⟩
  | emptyTail v head => dsimp only [Queue.access, Left]; split <;> exact hmoved
  | poppedOldest v tick empty => dsimp only [Queue.access, Left]; split <;> exact hmoved
  | _ => exact hmoved

/-! ## §2 — one call -/

/-- A scan that has come to queue `q` was turned away by all queues before. -/
def ScanOk (c : Config) (op : Op T) (qs : Nat → Queue T) (site : Site) (q : Nat) : Prop :=
  site = .scan → ∀ i < q, Rejects c op (qs i)

/-- What a call has done that found the queues `qs`, all of them unlocked. -/
def Called (c : Config) (op : Op T) (qs : Nat → Queue T) (m : Shared T) : Pc T → Prop
  | .idle => False
  | .pushReturned true => ∃ v q queue, op = .push v ∧ q < c.numQueues ∧
      m.queues = Function.update qs q queue ∧ queue.lock = 0 ∧
      queue.pushed = (qs q).pushed ++ [v] ∧ queue.popped = (qs q).popped
  | .popReturned (some v) => ∃ q queue, op = .pop ∧ q < c.numQueues ∧
      m.queues = Function.update qs q queue ∧ queue.lock = 0 ∧
      queue.pushed = (qs q).pushed ∧ queue.popped = (qs q).popped ++ [v]
  | .pushReturned false =>
      (∃ v, op = .push v) ∧ m.queues = qs ∧ ∀ q < c.numQueues, Rejects c op (qs q)
  | .popReturned none => op = .pop ∧ m.queues = qs ∧ ∀ q < c.numQueues, Rejects c op (qs q)
  | .lockLoad op' site q | .lockExchange op' site q =>
      op' = op ∧ m.queues = qs ∧ ScanOk c op qs site q
  | .inside op' site q stage => op' = op ∧ ScanOk c op qs site q ∧
      ∃ queue, m.queues = Function.update qs q queue ∧ queue.lock = 1 ∧ Moved c op (qs q) queue stage
  | .begin op' | .refresh op' _ _ | .swapExchange op' _ _ | .swapLoad op' _ _ _
  | .swapCas op' _ _ _ _ _ | .swapStore op' _ _ _ | .choose op' | .readSlot op' _ _ _
  | .readTick op' _ _ _ => op' = op ∧ m.queues = qs

variable {qs : Nat → Queue T}

theorem scanOk_fast (pick : Option Nat) (q : Nat) : ScanOk c op qs (.fast pick) q := nofun

theorem called_resume (hqs : m.queues = qs) (pick : Option Nat) :
    Called c op qs m (resume c h op pick) := by
  unfold resume
  split
  · exact ⟨rfl, hqs⟩
  · exact ⟨rfl, hqs⟩
  · exact ⟨rfl, hqs⟩
  · exact ⟨rfl, hqs⟩
  · exact ⟨rfl, hqs⟩
  · exact ⟨rfl, hqs, scanOk_fast _ _⟩

theorem called_assign (hqs : m.queues = qs) (pick : Option Nat) :
    Called c op qs m (assign c op pick) := by
  unfold assign
  split <;> exact ⟨rfl, hqs⟩

/-- A scan starts. -/
theorem called_scan (hqs : m.queues = qs) : Called c op qs m (.lockLoad op .scan 0) :=
  ⟨rfl, hqs, fun _ _ hi => absurd hi (Nat.not_lt_zero _)⟩

/-- A scan goes on, or has seen all queues. -/
theorem called_scanNext (hqs : m.queues = qs) {q : Nat} (hbefore : ∀ i < q, Rejects c op (qs i))
    (hreject : Rejects c op (qs q)) : Called c op qs m (scanNext c op q) := by
  have hall : ∀ i < q + 1, Rejects c op (qs i) := by
    intro i hi
    rcases Nat.lt_succ_iff_lt_or_eq.mp hi with hlt | rfl
    · exact hbefore i hlt
    · exact hreject
  unfold scanNext
  split
  · exact ⟨rfl, hqs, fun _ => hall⟩
  · rename_i hlast
    have hqueues : ∀ i < c.numQueues, Rejects c op (qs i) := fun i hi => hall i (by omega)
    cases op with
    | push v => exact ⟨⟨v, rfl⟩, hqs, hqueues⟩
    | pop => exact ⟨rfl, hqs, hqueues⟩

theorem called_compared (hqs : m.queues = qs) (i : Nat) (best : Nat × Nat) :
    Called c op qs m (compared c h op i best).pc := by
  unfold compared
  split
  · dsimp only
    split <;> exact ⟨rfl, hqs⟩
  · split
    · exact called_scan hqs
    · exact ⟨rfl, hqs, scanOk_fast _ _⟩

/-- A step inside a critical section. -/
theorem called_inside {site : Site} {q : Nat} {stage : Stage T} (time : Nat)
    (hfree : ∀ i, (qs i).lock = 0) (hin : InsideOk c m h) (hlocks : LocksOk c m)
    (hpc : h.pc = .inside op site q stage) (hq : q < c.numQueues)
    (hcalled : Called c op qs m (.inside op site q stage)) :
    Called c op qs (m.setQueue q ((m.queues q).access c op time stage).1)
      (leave c h op site q ((m.queues q).access c op time stage).2).pc := by
  obtain ⟨-, hscan, queue, hqs, -, hmoved⟩ := hcalled
  have hqueue : m.queues q = queue := by rw [hqs, Function.update_self]
  obtain ⟨hlock, hstage⟩ := hin op site q stage hpc
  have haccess := access_ok time (hlocks.queue q) hstage
  rw [hqueue] at haccess hlock ⊢
  have hleft := access_moved time hmoved
  generalize queue.access c op time stage = result at haccess hleft
  obtain ⟨queue', outcome⟩ := result
  have hqs' : (m.setQueue q queue').queues = Function.update qs q queue' := by
    show Function.update m.queues q queue' = _
    rw [hqs, Function.update_idem]
  cases outcome with
  | stay stage' => exact ⟨rfl, hscan, queue', hqs', (haccess.stay stage' rfl).2.trans hlock, hleft⟩
  | rejected =>
      obtain ⟨hsame, hreject⟩ := hleft
      -- the lock is free again, so the queue is as it was
      have hback : (m.setQueue q queue').queues = qs := by
        have hq₀ : queue' = qs q := by
          rw [show queue' = _ from hsame, ← hfree q]
        rw [hqs', hq₀, Function.update_eq_self]
      cases site with
      | fast pick => exact called_scan hback
      | scan => exact called_scanNext hback (hscan rfl) hreject
  | pushed =>
      obtain ⟨v, hop, hpushed, hpopped⟩ := hleft
      exact ⟨v, q, queue', hop, hq, hqs', haccess.left nofun, hpushed, hpopped⟩
  | popped v =>
      obtain ⟨hop, hpushed, hpopped⟩ := hleft
      exact ⟨q, queue', hop, hq, hqs', haccess.left nofun, hpushed, hpopped⟩

/-- One step of a call that runs alone. -/
theorem called_go (random time : Nat) (spurious : Bool) (hfree : ∀ i, (qs i).lock = 0)
    (hin : InsideOk c m h) (hlocks : LocksOk c m) (hok : PcOk c h.pc)
    (hcalled : Called c op qs m h.pc) :
    Called c op qs (go c random time spurious m h).1 (go c random time spurious m h).2.pc := by
  cases hpc : h.pc with
  | idle => rw [hpc] at hcalled; exact hcalled.elim
  | pushReturned result => simp only [go, hpc]; rw [hpc] at hcalled; exact hcalled
  | popReturned result => simp only [go, hpc]; rw [hpc] at hcalled; exact hcalled
  | begin op' =>
      rw [hpc] at hcalled
      obtain ⟨rfl, hqs⟩ := hcalled
      simp only [go, hpc]
      split
      · exact called_assign hqs none
      · exact called_resume hqs none
  | refresh op' pick i =>
      rw [hpc] at hcalled
      obtain ⟨rfl, hqs⟩ := hcalled
      simp only [go, hpc]
      split
      · split
        · rw [hpc]
          exact ⟨rfl, hqs⟩
        · exact ⟨rfl, hqs⟩
      · exact called_resume hqs pick
  | swapExchange op' pick i =>
      rw [hpc] at hcalled
      simp only [go, hpc]
      exact hcalled
  | swapLoad op' pick i oldTarget =>
      rw [hpc] at hcalled
      simp only [go, hpc]
      split
      · rw [hpc]
        exact hcalled
      · exact hcalled
  | swapCas op' pick i oldTarget permIndex newTarget =>
      rw [hpc] at hcalled
      simp only [go, hpc]
      split <;> exact hcalled
  | swapStore op' pick i newTarget =>
      rw [hpc] at hcalled
      obtain ⟨rfl, hqs⟩ := hcalled
      simp only [go, hpc]
      cases pick with
      | some p => exact called_resume hqs (some p)
      | none =>
          dsimp only
          split
          · exact ⟨rfl, hqs⟩
          · exact called_resume hqs none
  | choose op' =>
      rw [hpc] at hcalled
      obtain ⟨rfl, hqs⟩ := hcalled
      simp only [go, hpc]
      exact called_resume hqs _
  | readSlot op' pick i best =>
      rw [hpc] at hcalled
      obtain ⟨rfl, hqs⟩ := hcalled
      simp only [go, hpc]
      cases pick with
      | some p => exact ⟨rfl, hqs, scanOk_fast _ _⟩
      | none => exact ⟨rfl, hqs⟩
  | readTick op' i q best =>
      rw [hpc] at hcalled
      obtain ⟨rfl, hqs⟩ := hcalled
      simp only [go, hpc]
      exact called_compared hqs i _
  | lockLoad op' site q =>
      rw [hpc] at hcalled
      obtain ⟨rfl, hqs, hscan⟩ := hcalled
      have hzero : (m.queues q).lock &&& 1 = 0 := by rw [hqs, hfree q]; rfl
      simp only [go, hpc, if_pos hzero]
      exact ⟨rfl, hqs, hscan⟩
  | lockExchange op' site q =>
      rw [hpc] at hcalled
      obtain ⟨rfl, hqs, hscan⟩ := hcalled
      have hzero : (m.queues q).lock &&& 1 = 0 := by rw [hqs, hfree q]; rfl
      simp only [go, hpc, if_pos hzero]
      refine ⟨rfl, hscan, { m.queues q with lock := 1 }, ?_, rfl, ?_⟩
      · rw [← hqs]
        rfl
      · rw [hqs]
        rfl
  | inside op' site q stage =>
      rw [hpc] at hcalled hok
      obtain rfl := hcalled.1
      simp only [go, hpc]
      exact called_inside time hfree hin hlocks hpc hok.2 hcalled

/-! ## §3 — calls come to an end -/

/-- How many accesses a critical section has before it, at most. -/
def Stage.rank : Stage T → Nat
  | .checkHead => 14
  | .checkTail _ => 13
  | .pushRead | .topTail => 12
  | .pushWrite _ _ | .topValue _ => 11
  | .pushLoad | .popLoad _ => 10
  | .pushStore _ | .popStore _ _ => 9
  | .bottomHead | .emptyHead _ => 8
  | .bottomTick _ | .emptyTail _ _ => 7
  | .storeNewest _ | .frontTail _ => 6
  | .sizeHead _ | .frontTick _ _ => 5
  | .sizeTail _ _ | .pushedOldest | .poppedOldest _ _ _ => 4
  | .pushedTail | .poppedNewest _ => 3
  | .pushedTick _ => 2
  | .storeOldest _ => 1
  | .unlockRejected | .unlockPushed | .unlockPopped _ => 0

/-- A bound for the steps of a scan, and of what comes after the candidates were chosen. -/
def fastRank (c : Config) : Nat := (c.numQueues + 1) * 20 + 20

/-- How far a call is from its end where nothing is swapped, repeated draws apart. -/
def Pc.rank (c : Config) : Pc T → Nat
  | .begin _ => fastRank c + 2 * c.numPopCandidates + 5
  | .refresh _ _ i => fastRank c + c.numPopCandidates + 3 + (c.numPopCandidates - i)
  | .choose _ => fastRank c + c.numPopCandidates + 2
  | .readTick _ i _ _ => fastRank c + 1 + (c.numPopCandidates - i)
  | .lockLoad _ (.fast _) _ => fastRank c
  | .lockExchange _ (.fast _) _ => fastRank c - 1
  | .inside _ (.fast _) _ stage => fastRank c - 20 + stage.rank
  | .lockLoad _ .scan q => (c.numQueues - q) * 20
  | .lockExchange _ .scan q => (c.numQueues - q) * 20 - 1
  | .inside _ .scan q stage => (c.numQueues - q) * 20 - 19 + stage.rank
  | _ => 0

theorem resume_rank (hmode : c.mode ≠ .stickSwap) (pick : Option Nat) :
    (resume c h op pick).rank c ≤ fastRank c + c.numPopCandidates + 2 ∧
      ∀ p, pick = some p → (resume c h op pick).rank c < fastRank c + c.numPopCandidates + 2 := by
  unfold resume
  split
  · rename_i hswap
    exact absurd hswap hmode
  · simp only [Pc.rank]
    exact ⟨by omega, fun _ _ => by omega⟩
  · simp only [Pc.rank]
    exact ⟨by omega, fun _ _ => by omega⟩
  · simp only [Pc.rank]
    exact ⟨Nat.le_refl _, nofun⟩
  · rename_i hswap
    exact absurd hswap hmode
  · simp only [Pc.rank]
    exact ⟨by omega, fun _ _ => by omega⟩

/-- Where nothing is swapped, candidates are drawn. -/
theorem assign_eq (hmode : c.mode ≠ .stickSwap) (op : Op T) (pick : Option Nat) :
    assign c op pick = .refresh op pick 0 := by
  unfold assign
  split
  · rename_i hswap
    exact absurd hswap hmode
  · rename_i hswap
    exact absurd hswap hmode
  · rfl

theorem compared_rank (hmode : c.mode ≠ .stickSwap) (i : Nat) (best : Nat × Nat) :
    (compared c h op i best).pc.rank c < fastRank c + 1 + (c.numPopCandidates - i) := by
  unfold compared
  split
  · simp only [Pc.rank]
    omega
  · split
    · simp only [Pc.rank, fastRank]
      omega
    · simp only [Pc.rank]
      omega

theorem scanNext_rank (op : Op T) {q : Nat} (hq : q < c.numQueues) :
    (scanNext c op q).rank c < (c.numQueues - q) * 20 - 19 := by
  unfold scanNext
  split
  · simp only [Pc.rank]
    omega
  · cases op <;> simp only [exhausted, Pc.rank] <;> omega

/-- Every access inside a critical section brings it closer to its end. -/
theorem access_rank (time : Nat) {q₀ q : Queue T} {stage stage' : Stage T}
    (hmoved : Moved c op q₀ q stage) (hstay : (q.access c op time stage).2 = .stay stage') :
    stage'.rank < stage.rank := by
  have hstep : ∀ next : Stage T, Outcome.stay next = Outcome.stay stage' →
      next.rank < stage.rank → stage'.rank < stage.rank := by
    intro next heq hlt
    cases heq
    exact hlt
  cases stage with
  | checkTail head =>
      refine hstep _ hstay ?_
      unfold checked
      cases op with
      | push v => dsimp only; split <;> simp [Stage.rank]
      | pop => dsimp only; split <;> simp [Stage.rank]
  | pushWrite tick head =>
      obtain ⟨⟨v, rfl⟩, -⟩ := hmoved
      exact hstep _ hstay (by simp [Stage.rank])
  | pushStore head =>
      obtain ⟨⟨v, rfl⟩, -⟩ := hmoved
      refine hstep _ hstay ?_
      split <;> simp [Stage.rank]
  | pushedOldest => refine hstep _ hstay ?_; split <;> simp [Stage.rank]
  | sizeTail tick head => refine hstep _ hstay ?_; split <;> simp [Stage.rank]
  | emptyTail v head => refine hstep _ hstay ?_; split <;> simp [Stage.rank]
  | poppedOldest v tick empty => refine hstep _ hstay ?_; split <;> simp [Stage.rank]
  | unlockRejected => cases hstay
  | unlockPushed => cases hstay
  | unlockPopped v => cases hstay
  | _ => exact hstep _ hstay (by simp [Stage.rank])

theorem leave_rank {site : Site} {q : Nat} {stage : Stage T} {outcome : Outcome T}
    (hq : q < c.numQueues) (hstay : ∀ stage', outcome = .stay stage' → stage'.rank < stage.rank) :
    (leave c h op site q outcome).pc.rank c < (Pc.inside op site q stage).rank c := by
  have hpos : 0 < (Pc.inside op site q stage).rank c := by
    cases site <;> simp only [Pc.rank, fastRank] <;> omega
  cases outcome with
  | stay stage' =>
      have := hstay stage' rfl
      cases site <;> simp only [leave, Pc.rank] <;> omega
  | rejected =>
      cases site with
      | fast pick =>
          simp only [leave, Pc.rank, fastRank]
          omega
      | scan =>
          show (scanNext c op q).rank c < (c.numQueues - q) * 20 - 19 + stage.rank
          have := scanNext_rank op hq
          omega
  | pushed => exact hpos
  | popped v => exact hpos

/-- The draw repeats a candidate. -/
def Repeats (c : Config) (random : Nat) (h : Handle T) : Prop :=
  ∃ op pick i, h.pc = .refresh op pick i ∧ i < c.numPopCandidates ∧
    ∃ j < i, h.popIndex j = random % c.numQueues

/-- Every step of a call that runs alone brings it closer to its end, unless a draw is repeated. -/
theorem go_rank (random time : Nat) (spurious : Bool) (hmode : c.mode ≠ .stickSwap)
    (hfree : ∀ i, (qs i).lock = 0) (hok : PcOk c h.pc) (hcalled : Called c op qs m h.pc)
    (hrunning : h.pc.resting = false) (hdraw : ¬ Repeats c random h) :
    (go c random time spurious m h).2.pc.rank c < h.pc.rank c := by
  cases hpc : h.pc with
  | idle => rw [hpc] at hrunning; cases hrunning
  | pushReturned result => rw [hpc] at hrunning; cases hrunning
  | popReturned result => rw [hpc] at hrunning; cases hrunning
  | begin op' =>
      simp only [go, hpc]
      split
      · simp only [assign_eq hmode, Pc.rank]
        omega
      · have hle : (resume c h op' none).rank c ≤ fastRank c + c.numPopCandidates + 2 :=
          (resume_rank hmode none).1
        show _ < fastRank c + 2 * c.numPopCandidates + 5
        omega
  | refresh op' pick i =>
      simp only [go, hpc]
      split
      · rename_i hi
        have hnew : ¬ ((List.range i).any fun j => h.popIndex j == random % c.numQueues) = true := by
          intro hany
          obtain ⟨j, hj, heq⟩ := List.any_eq_true.mp hany
          exact hdraw ⟨op', pick, i, hpc, hi, j, List.mem_range.mp hj, beq_iff_eq.mp heq⟩
        rw [if_neg hnew]
        simp only [Pc.rank]
        omega
      · have hle : (resume c h op' pick).rank c ≤ fastRank c + c.numPopCandidates + 2 :=
          (resume_rank hmode pick).1
        show (resume c h op' pick).rank c < fastRank c + c.numPopCandidates + 3 + (c.numPopCandidates - i)
        omega
  | choose op' =>
      simp only [go, hpc]
      exact (resume_rank hmode _).2 _ rfl
  | readTick op' i q best => simp only [go, hpc]; exact compared_rank hmode i _
  | lockLoad op' site q =>
      rw [hpc] at hcalled hok
      obtain ⟨rfl, hqs, -⟩ := hcalled
      have hzero : (m.queues q).lock &&& 1 = 0 := by rw [hqs, hfree q]; rfl
      have hq := hok.2
      simp only [go, hpc, if_pos hzero]
      cases site <;> simp only [Pc.rank, fastRank] <;> omega
  | lockExchange op' site q =>
      rw [hpc] at hcalled hok
      obtain ⟨rfl, hqs, -⟩ := hcalled
      have hzero : (m.queues q).lock &&& 1 = 0 := by rw [hqs, hfree q]; rfl
      have hq := hok.2
      simp only [go, hpc, if_pos hzero]
      cases site <;> simp only [Pc.rank, Stage.rank, fastRank] <;> omega
  | inside op' site q stage =>
      rw [hpc] at hcalled hok
      obtain ⟨rfl, -, queue, hqs, -, hmoved⟩ := hcalled
      have hqueue : m.queues q = queue := by rw [hqs, Function.update_self]
      simp only [go, hpc]
      exact leave_rank hok.2 fun stage' hstay => access_rank time (hqueue ▸ hmoved) hstay
  | swapExchange op' pick i =>
      rw [hpc] at hok
      exact absurd hok.2.1 hmode
  | swapLoad op' pick i oldTarget =>
      rw [hpc] at hok
      exact absurd hok.1.2.1 hmode
  | swapCas op' pick i oldTarget permIndex newTarget =>
      rw [hpc] at hok
      exact absurd hok.1.2.1 hmode
  | swapStore op' pick i newTarget =>
      rw [hpc] at hok
      exact absurd hok.1.2.1 hmode
  | readSlot op' pick i best =>
      rw [hpc] at hok
      exact absurd hok.2.1 hmode

/-- There are enough queues for a draw that is not a repeated one. -/
theorem exists_draw (hcandidates : c.numPopCandidates ≤ c.numQueues) (h : Handle T) :
    ∃ random, ¬ Repeats c random h := by
  by_contra hall
  have hrepeats : ∀ random, Repeats c random h := fun random => by_contra fun hn => hall ⟨random, hn⟩
  obtain ⟨op, pick, i, hpc, hi, -⟩ := hrepeats 0
  -- the candidates before the entry would be all queues
  have hsubset : Finset.range c.numQueues ⊆ (Finset.range i).image h.popIndex := by
    intro q hq
    obtain ⟨op', pick', i', hpc', -, j, hj, heq⟩ := hrepeats q
    rw [hpc] at hpc'
    cases hpc'
    rw [Nat.mod_eq_of_lt (Finset.mem_range.mp hq)] at heq
    exact Finset.mem_image.mpr ⟨j, Finset.mem_range.mpr hj, heq⟩
  have hcard := (Finset.card_le_card hsubset).trans Finset.card_image_le
  rw [Finset.card_range, Finset.card_range] at hcard
  omega

/-! ## §4 — calls one after another -/

/-- A call that has returned leaves no lock behind. -/
theorem Called.free {pc : Pc T} (hfree : ∀ q, (qs q).lock = 0) (hcalled : Called c op qs m pc)
    (hreturned : pc.resting = true) : ∀ q, (m.queues q).lock = 0 := by
  have hupdate : ∀ q queue, m.queues = Function.update qs q queue → queue.lock = 0 →
      ∀ i, (m.queues i).lock = 0 := by
    intro q queue hqs hlock i
    rw [hqs]
    by_cases hi : i = q
    · rw [hi, Function.update_self]
      exact hlock
    · rw [Function.update_of_ne hi]
      exact hfree i
  have hsame : m.queues = qs → ∀ i, (m.queues i).lock = 0 := by
    rintro rfl
    exact hfree
  cases pc with
  | idle => exact hcalled.elim
  | pushReturned result =>
      cases result with
      | true =>
          obtain ⟨v, q, queue, -, -, hqs, hlock, -⟩ := hcalled
          exact hupdate q queue hqs hlock
      | false => exact hsame hcalled.2.1
  | popReturned result =>
      cases result with
      | some v =>
          obtain ⟨q, queue, -, -, hqs, hlock, -⟩ := hcalled
          exact hupdate q queue hqs hlock
      | none => exact hsame hcalled.2.1
  | _ => cases hreturned

/-- A call of one handle, and what was drawn, what the clock showed and which compare-exchanges failed
for no reason while it ran. -/
structure Call (T : Type) (n : Nat) where
  handle : Fin n
  op : Op T
  choices : List (Nat × Nat × Bool)

def Op.action : Op T → Action T
  | .push v => .push v
  | .pop => .pop

def Call.actions {n : Nat} (call : Call T n) : List (Action T) :=
  call.op.action :: call.choices.map fun x => .go x.1 x.2.1 x.2.2

/-- The steps of calls that do not overlap. -/
def steps {n : Nat} (calls : List (Call T n)) : List (Fin n × Action T) :=
  calls.flatMap fun call => call.actions.map (call.handle, ·)

section Calls

variable [Inhabited T] {n : Nat}

/-- The state after some calls. -/
def after (c : Config) (calls : List (Call T n)) : Threads (Shared T) (Handle T) n := run c (steps calls)

/-- Where the handle of the last call is after it. -/
def resultOf (c : Config) (calls : List (Call T n)) (call : Call T n) : Pc T :=
  ((after c (calls ++ [call])).locals call.handle).pc

/-- Every call was run to its end before the next one started. -/
inductive Complete (c : Config) : List (Call T n) → Prop where
  | nil : Complete c []
  | concat {calls : List (Call T n)} {call : Call T n} (hcalls : Complete c calls)
      (hreturned : (resultOf c calls call).resting = true) : Complete c (calls ++ [call])

/-- Between calls no queue is locked and no handle is running. -/
structure Quiet (s : Threads (Shared T) (Handle T) n) : Prop where
  free : ∀ q, (s.shared.queues q).lock = 0
  resting : ∀ t, (s.locals t).pc.resting = true

theorem after_concat (calls : List (Call T n)) (call : Call T n) :
    after c (calls ++ [call]) = run c (steps calls ++ call.actions.map (call.handle, ·)) := by
  unfold after steps
  rw [List.flatMap_append, List.flatMap_singleton]

/-- A call with one step more. -/
theorem after_choice (calls : List (Call T n)) (t : Fin n) (op : Op T)
    (choices : List (Nat × Nat × Bool)) (x : Nat × Nat × Bool) :
    after c (calls ++ [⟨t, op, choices ++ [x]⟩]) =
      (after c (calls ++ [⟨t, op, choices⟩])).step (stepHandle c) (t, .go x.1 x.2.1 x.2.2) := by
  have hactions : (Call.actions ⟨t, op, choices ++ [x]⟩ : List (Action T)).map (t, ·) =
      (Call.actions ⟨t, op, choices⟩).map (t, ·) ++ [(t, .go x.1 x.2.1 x.2.2)] := by
    simp only [Call.actions, List.map_cons, List.map_append, List.map_nil, List.cons_append]
  rw [after_concat, after_concat]
  dsimp only
  rw [hactions, ← List.append_assoc]
  exact Threads.run_concat _ _

/-- Quiet states, in which calls may start. -/
theorem Quiet.call {calls : List (Call T n)} (hquiet : Quiet (after c calls)) (t : Fin n)
    (op : Op T) :
    after c (calls ++ [⟨t, op, []⟩]) = ⟨(after c calls).shared,
      Function.update (after c calls).locals t { (after c calls).locals t with pc := .begin op }⟩ := by
  have hrest := hquiet.resting t
  rw [after_concat]
  unfold run
  rw [Threads.run_append]
  show (after c calls).step (stepHandle c) (t, op.action) = _
  cases op <;> simp only [Threads.step, Op.action, stepHandle, hrest, if_true]

/-- **What a call has done, after any number of its steps.** -/
theorem Quiet.called (hslots : EnoughSlots c n) {calls : List (Call T n)}
    (hquiet : Quiet (after c calls)) (t : Fin n) (op : Op T) (choices : List (Nat × Nat × Bool)) :
    Called c op (after c calls).shared.queues (after c (calls ++ [⟨t, op, choices⟩])).shared
        ((after c (calls ++ [⟨t, op, choices⟩])).locals t).pc ∧
      ∀ u, u ≠ t → (after c (calls ++ [⟨t, op, choices⟩])).locals u = (after c calls).locals u := by
  induction choices using List.reverseRecOn with
  | nil =>
      rw [hquiet.call t op]
      dsimp only
      rw [Function.update_self]
      exact ⟨⟨rfl, rfl⟩, fun u hu => Function.update_of_ne hu _ _⟩
  | append_singleton choices x ih =>
      obtain ⟨hcalled, hothers⟩ := ih
      have hlocks := lockOutline_run c (steps (calls ++ [⟨t, op, choices⟩]))
      have hindex := indexOutline_run c hslots (steps (calls ++ [⟨t, op, choices⟩]))
      rw [after_choice]
      refine ⟨?_, fun u hu => ?_⟩
      · rw [Threads.step_locals_self]
        exact called_go x.1 x.2.1 x.2.2 hquiet.free (hlocks.thread t) hlocks.shared
          (hindex.thread t).pc hcalled
      · rw [Threads.step_locals_ne _ hu]
        exact hothers u hu

/-- **Complete calls leave a quiet state behind.** -/
theorem quiet_after (hslots : EnoughSlots c n) {calls : List (Call T n)} (hcomplete : Complete c calls) :
    Quiet (after c calls) := by
  induction hcomplete with
  | nil => exact ⟨fun _ => rfl, fun _ => rfl⟩
  | @concat calls call hcalls hreturned ih =>
      obtain ⟨hcalled, hothers⟩ := ih.called hslots call.handle call.op call.choices
      refine ⟨hcalled.free ih.free hreturned, fun u => ?_⟩
      by_cases hu : u = call.handle
      · rw [hu]
        exact hreturned
      · rw [hothers u hu]
        exact ih.resting u

/-- Every call that has begun can be brought to its end, whatever was drawn so far and whatever the
clock shows. -/
theorem exists_complete (hmode : c.mode ≠ .stickSwap) (hcandidates : c.numPopCandidates ≤ c.numQueues)
    {calls : List (Call T n)} (hquiet : Quiet (after c calls)) (t : Fin n) (op : Op T) (time : Nat)
    (choices : List (Nat × Nat × Bool)) :
    ∃ more, (∀ x ∈ more, x.2.1 = time) ∧
      (resultOf c calls ⟨t, op, choices ++ more⟩).resting = true := by
  have hslots : EnoughSlots c n := fun h => absurd h hmode
  -- induction on what the call has before it
  induction hrank : (resultOf c calls ⟨t, op, choices⟩).rank c using Nat.strong_induction_on
    generalizing choices with
  | _ rank ih =>
      cases hrunning : (resultOf c calls ⟨t, op, choices⟩).resting with
      | true => exact ⟨[], nofun, by rw [List.append_nil]; exact hrunning⟩
      | false =>
          obtain ⟨hcalled, -⟩ := hquiet.called hslots t op choices
          have hindex := indexOutline_run c hslots (steps (calls ++ [⟨t, op, choices⟩]))
          obtain ⟨random, hdraw⟩ :=
            exists_draw hcandidates ((after c (calls ++ [⟨t, op, choices⟩])).locals t)
          have hless := go_rank random time false hmode hquiet.free (hindex.thread t).pc hcalled
            hrunning hdraw
          have hnext : resultOf c calls ⟨t, op, choices ++ [(random, time, false)]⟩ =
              (go c random time false (after c (calls ++ [⟨t, op, choices⟩])).shared
                ((after c (calls ++ [⟨t, op, choices⟩])).locals t)).2.pc := by
            unfold resultOf
            rw [after_choice, Threads.step_locals_self]
            rfl
          obtain ⟨more, htimes, hmore⟩ := ih _ (by rw [hnext, ← hrank]; exact hless)
            (choices ++ [(random, time, false)]) rfl
          refine ⟨(random, time, false) :: more, ?_, by rwa [List.append_assoc] at hmore⟩
          exact List.forall_mem_cons.mpr ⟨rfl, htimes⟩

theorem complete_concat {calls : List (Call T n)} {call : Call T n}
    (hcomplete : Complete c (calls ++ [call])) :
    Complete c calls ∧ (resultOf c calls call).resting = true := by
  generalize hall : calls ++ [call] = all at hcomplete
  cases hcomplete with
  | nil => exact absurd hall (List.append_ne_nil_of_right_ne_nil _ (List.cons_ne_nil _ _))
  | @concat calls' call' hcalls hreturned =>
      obtain ⟨rfl, hlast⟩ := List.append_inj' hall rfl
      cases hlast
      exact ⟨hcalls, hreturned⟩

end Calls

/-! ## §5 — an exact bounded bag -/

theorem Queue.length_contents (q : Queue T) : (q.contents c).length = sub64 q.head q.tail := by
  rw [Queue.contents, List.length_map, List.length_range]

theorem QueueOk.rejects_pop {q : Queue T} (hq : QueueOk c q) :
    Rejects c .pop q ↔ q.contents c = [] := by
  rw [← List.length_eq_zero_iff, q.length_contents, hq.sub64_eq]
  have hle := hq.le
  show q.head = q.tail ↔ _
  rw [hq.head_eq_tail_iff]
  omega

theorem rejects_push {v : T} {q : Queue T} :
    Rejects c (.push v) q ↔ (q.contents c).length = c.sizePerQueue := by
  rw [q.length_contents]
  exact Iff.rfl

/-- A push puts its value behind the others. -/
theorem QueueOk.contents_push {q q' : Queue T} {v : T} (hq : QueueOk c q) (hq' : QueueOk c q')
    (hpushed : q'.pushed = q.pushed ++ [v]) (hpopped : q'.popped = q.popped) :
    q'.contents c = q.contents c ++ [v] := by
  have h' := hq'.popped_append_contents
  rw [hpushed, hpopped, ← hq.popped_append_contents, List.append_assoc] at h'
  exact List.append_cancel_left h'

/-- A pop takes the oldest value. -/
theorem QueueOk.contents_pop {q q' : Queue T} {v : T} (hq : QueueOk c q) (hq' : QueueOk c q')
    (hpushed : q'.pushed = q.pushed) (hpopped : q'.popped = q.popped ++ [v]) :
    q.contents c = v :: q'.contents c := by
  have h' := hq'.popped_append_contents
  rw [hpushed, hpopped, ← hq.popped_append_contents, List.append_assoc] at h'
  exact (List.append_cancel_left h').symm

/-- What stands in each queue. -/
def Shared.contents (c : Config) (m : Shared T) : Nat → List T := fun q => (m.queues q).contents c

theorem Shared.contents_update {m' : Shared T} {q : Nat} {queue : Queue T}
    (hqs : m'.queues = Function.update m.queues q queue) :
    m'.contents c = Function.update (m.contents c) q (queue.contents c) := by
  funext i
  unfold Shared.contents
  rw [hqs]
  by_cases hi : i = q
  · rw [hi, Function.update_self, Function.update_self]
  · rw [Function.update_of_ne hi, Function.update_of_ne hi]

/-- A push to a bounded bag of queues: it fails exactly if all are full, and then nothing changes;
otherwise one queue gets the value. -/
structure PushSpec (c : Config) (v : T) (m m' : Shared T) (result : Pc T) : Prop where
  returns : ∃ success, result = .pushReturned success
  rejected : result = .pushReturned false ↔
    ∀ q < c.numQueues, (m.contents c q).length = c.sizePerQueue
  unchanged : result = .pushReturned false → m'.queues = m.queues
  accepted : result = .pushReturned true → ∃ q < c.numQueues,
    m'.contents c = Function.update (m.contents c) q (m.contents c q ++ [v])

/-- A pop: it returns nothing exactly if all queues are empty, and then nothing changes; otherwise one
queue loses its oldest value. -/
structure PopSpec (c : Config) (m m' : Shared T) (result : Pc T) : Prop where
  returns : ∃ value, result = .popReturned value
  rejected : result = .popReturned none ↔ ∀ q < c.numQueues, m.contents c q = []
  unchanged : result = .popReturned none → m'.queues = m.queues
  taken : ∀ v, result = .popReturned (some v) → ∃ q < c.numQueues, ∃ rest,
    m.contents c q = v :: rest ∧ m'.contents c = Function.update (m.contents c) q rest

theorem Called.pushSpec {v : T} {m' : Shared T} {pc : Pc T} (hm : LocksOk c m) (hm' : LocksOk c m')
    (hcalled : Called c (.push v) m.queues m' pc) (hreturned : pc.resting = true) :
    PushSpec c v m m' pc := by
  cases pc with
  | idle => exact hcalled.elim
  | pushReturned result =>
      cases result with
      | false =>
          obtain ⟨-, hqs, hreject⟩ := hcalled
          have hfull : ∀ q < c.numQueues, (m.contents c q).length = c.sizePerQueue :=
            fun q hq => rejects_push.mp (hreject q hq)
          exact ⟨⟨false, rfl⟩, iff_of_true rfl hfull, fun _ => hqs, nofun⟩
      | true =>
          obtain ⟨w, q, queue, hop, hq, hqs, -, hpushed, hpopped⟩ := hcalled
          cases hop
          have hqueue : QueueOk c queue := by
            have h := hm'.queue q
            rwa [hqs, Function.update_self] at h
          -- the queue that got the value had room for it
          have hroom : ¬ ∀ q < c.numQueues, (m.contents c q).length = c.sizePerQueue := by
            intro hfull
            have hlen := hfull q hq
            have hafter := hqueue.room
            have hle := (hm.queue q).le
            rw [Shared.contents, Queue.length_contents, (hm.queue q).sub64_eq] at hlen
            rw [hpushed, hpopped, List.length_append, List.length_singleton] at hafter
            omega
          refine ⟨⟨true, rfl⟩, iff_of_false nofun hroom, nofun, fun _ => ⟨q, hq, ?_⟩⟩
          rw [Shared.contents_update hqs, (hm.queue q).contents_push hqueue hpushed hpopped]
          rfl
  | popReturned result =>
      cases result with
      | none => exact absurd hcalled.1 nofun
      | some w =>
          obtain ⟨q, queue, hop, -⟩ := hcalled
          exact absurd hop nofun
  | _ => cases hreturned

theorem Called.popSpec {m' : Shared T} {pc : Pc T} (hm : LocksOk c m) (hm' : LocksOk c m')
    (hcalled : Called c .pop m.queues m' pc) (hreturned : pc.resting = true) :
    PopSpec c m m' pc := by
  cases pc with
  | idle => exact hcalled.elim
  | popReturned result =>
      cases result with
      | none =>
          obtain ⟨-, hqs, hreject⟩ := hcalled
          have hempty : ∀ q < c.numQueues, m.contents c q = [] :=
            fun q hq => (hm.queue q).rejects_pop.mp (hreject q hq)
          exact ⟨⟨none, rfl⟩, iff_of_true rfl hempty, fun _ => hqs, nofun⟩
      | some v =>
          obtain ⟨q, queue, -, hq, hqs, -, hpushed, hpopped⟩ := hcalled
          have hqueue : QueueOk c queue := by
            have h := hm'.queue q
            rwa [hqs, Function.update_self] at h
          have htop : m.contents c q = v :: queue.contents c :=
            (hm.queue q).contents_pop hqueue hpushed hpopped
          have hsome : ¬ ∀ q < c.numQueues, m.contents c q = [] := by
            intro hempty
            rw [hempty q hq] at htop
            cases htop
          refine ⟨⟨some v, rfl⟩, iff_of_false nofun hsome, nofun, fun w hw => ?_⟩
          cases hw
          exact ⟨q, hq, queue.contents c, htop, Shared.contents_update hqs⟩
  | pushReturned result =>
      cases result with
      | false =>
          obtain ⟨⟨w, hop⟩, -⟩ := hcalled
          exact absurd hop nofun
      | true =>
          obtain ⟨w, q, queue, hop, -⟩ := hcalled
          exact absurd hop nofun
  | _ => cases hreturned

/-! ## §6 — the capacity, and the buffer -/

/-- Without a wrap, the queues together hold what was asked for. -/
theorem Config.size_le (hwrap : c.size + c.numQueues - 1 < 2 ^ 64) :
    c.size ≤ c.numQueues * c.sizePerQueue := by
  have hpos := c.numQueues_pos
  have hshare : c.size ≤ c.numQueues * ((c.size + c.numQueues - 1) / c.numQueues) := by
    have hdiv := Nat.div_add_mod (c.size + c.numQueues - 1) c.numQueues
    have hmod := Nat.mod_lt (c.size + c.numQueues - 1) hpos
    omega
  unfold Config.sizePerQueue
  rw [Nat.mod_eq_of_lt hwrap]
  exact hshare.trans (Nat.mul_le_mul_left _ (le_bitCeil _))

/-- When the sum wraps, the share comes out as 0, and every queue gets a single slot. -/
theorem Config.sizePerQueue_of_wrap (hwrap : 2 ^ 64 ≤ c.size + c.numQueues - 1) :
    c.sizePerQueue = 1 := by
  have hsize := c.size_lt
  have hqueues := c.numQueues_lt
  have hshare : (c.size + c.numQueues - 1) % 2 ^ 64 / c.numQueues = 0 :=
    Nat.div_eq_of_lt (by omega)
  rw [Config.sizePerQueue, hshare, bitCeil, Nat.clog_zero_right, Nat.pow_zero]

theorem Config.size_le_iff :
    c.size ≤ c.numQueues * c.sizePerQueue ↔ c.size + c.numQueues - 1 < 2 ^ 64 := by
  refine ⟨fun hle => ?_, Config.size_le⟩
  by_contra hwrap
  have hqueues := c.numQueues_lt
  rw [Config.sizePerQueue_of_wrap (by omega)] at hle
  omega

/-- The guards and slots that the constructor makes, and that the queues are read and written at,
lie in the allocated bytes and do not overlap. -/
structure LayoutOk (c : Config) : Prop where
  inside : ∀ i < c.numQueues, ∀ j < c.sizePerQueue, c.slotStorage i j + c.elementSize ≤ c.bytes
  slots : ∀ i < c.numQueues, ∀ j k, j < k → k < c.sizePerQueue →
    c.slotStorage i j + c.elementSize ≤ c.slotStorage i k
  queues : ∀ i k, i < k → k < c.numQueues → ∀ j < c.sizePerQueue,
    c.slotStorage i j + c.elementSize ≤ c.queueStorage k

namespace LayoutOk

theorem le_slotStorage (h : LayoutOk c) {i j : Nat} (hi : i < c.numQueues)
    (hj : j < c.sizePerQueue) :
    c.queueStorage i + c.guardSize + j * c.elementSize ≤ c.slotStorage i j := by
  induction j with
  | zero =>
      rw [Config.slotStorage, Nat.zero_mul, Nat.zero_mod]
  | succ j ih =>
      have hstep := h.slots i hi j (j + 1) (Nat.lt_succ_self j) hj
      have hprev := ih (by omega)
      rw [Nat.succ_mul]
      omega

/-- Where the last slot of a queue ends. -/
theorem exists_end (h : LayoutOk c) {i : Nat} (hi : i < c.numQueues) :
    ∃ j < c.sizePerQueue, c.queueStorage i + (c.guardSize + c.sizePerQueue * c.elementSize) ≤
      c.slotStorage i j + c.elementSize := by
  obtain ⟨last, hlast⟩ := Nat.exists_eq_succ_of_ne_zero c.sizePerQueue_pos.ne'
  refine ⟨last, by omega, ?_⟩
  have hle := h.le_slotStorage hi (show last < c.sizePerQueue by omega)
  rw [hlast, Nat.succ_mul]
  omega

theorem le_queueStorage (h : LayoutOk c) {i : Nat} (hi : i < c.numQueues) :
    i * (c.guardSize + c.sizePerQueue * c.elementSize) ≤ c.queueStorage i := by
  induction i with
  | zero => rw [Nat.zero_mul]; exact Nat.zero_le _
  | succ i ih =>
      have hprev := ih (by omega)
      obtain ⟨j, hj, hend⟩ := h.exists_end (show i < c.numQueues by omega)
      have hnext := h.queues i (i + 1) (Nat.lt_succ_self i) hi j hj
      rw [Nat.succ_mul]
      omega

end LayoutOk

/-- **The buffer is laid out as the accesses expect exactly if the byte count does not wrap.** -/
theorem layoutOk_iff :
    LayoutOk c ↔ c.numQueues * (c.guardSize + c.sizePerQueue * c.elementSize) < 2 ^ 64 := by
  constructor
  · intro h
    obtain ⟨last, hlast⟩ := Nat.exists_eq_succ_of_ne_zero c.numQueues_pos.ne'
    have hi : last < c.numQueues := by omega
    have hstart := h.le_queueStorage hi
    obtain ⟨j, hj, hend⟩ := h.exists_end hi
    have hinside := h.inside last hi j hj
    have hbytes : c.bytes < 2 ^ 64 := Nat.mod_lt _ (by decide)
    rw [hlast, Nat.succ_mul]
    omega
  · intro hbytes
    have hwhole : c.guardSize + c.sizePerQueue * c.elementSize < 2 ^ 64 :=
      lt_of_le_of_lt (Nat.le_mul_of_pos_left _ c.numQueues_pos) hbytes
    have hstride : c.stride = c.guardSize + c.sizePerQueue * c.elementSize :=
      Nat.mod_eq_of_lt hwhole
    have hcount : c.bytes = c.numQueues * c.stride := by
      rw [Config.bytes, Nat.mul_comm, Nat.mod_eq_of_lt (by rwa [hstride])]
    have hqueue : ∀ i ≤ c.numQueues, i * c.stride ≤ c.bytes := fun i hi => by
      rw [hcount]
      exact Nat.mul_le_mul_right _ hi
    have hstorage : ∀ i < c.numQueues, c.queueStorage i = i * c.stride := fun i hi => by
      refine Nat.mod_eq_of_lt (lt_of_le_of_lt (hqueue i (Nat.le_of_lt hi)) ?_)
      rwa [hcount, hstride]
    have hslot : ∀ i < c.numQueues, ∀ j ≤ c.sizePerQueue,
        c.slotStorage i j = i * c.stride + c.guardSize + j * c.elementSize := fun i hi j hj => by
      have hle := Nat.mul_le_mul_right c.elementSize hj
      rw [Config.slotStorage, hstorage i hi, Nat.mod_eq_of_lt (by omega)]
    have hnext : ∀ i < c.numQueues, ∀ j < c.sizePerQueue, ∀ k, j < k → k ≤ c.sizePerQueue →
        c.slotStorage i j + c.elementSize ≤ c.slotStorage i k := fun i hi j hj k hjk hk => by
      have hle := Nat.mul_le_mul_right c.elementSize (Nat.succ_le_of_lt hjk)
      rw [hslot i hi j (Nat.le_of_lt hj), hslot i hi k hk]
      rw [Nat.succ_mul] at hle
      omega
    -- the slots of a queue end where the next queue begins
    have hlast : ∀ i < c.numQueues, ∀ j < c.sizePerQueue,
        c.slotStorage i j + c.elementSize ≤ (i + 1) * c.stride := fun i hi j hj => by
      have hle := hnext i hi j hj c.sizePerQueue hj (Nat.le_refl _)
      rw [hslot i hi c.sizePerQueue (Nat.le_refl _)] at hle
      rw [Nat.succ_mul]
      omega
    refine ⟨fun i hi j hj => (hlast i hi j hj).trans (hqueue (i + 1) hi),
      fun i hi j k hjk hk => hnext i hi j (hjk.trans hk) k hjk (Nat.le_of_lt hk),
      fun i k hik hk j hj => ?_⟩
    rw [hstorage k hk]
    exact (hlast i (hik.trans hk) j hj).trans (Nat.mul_le_mul_right _ hik)

/-- What calls that do not overlap make of a `MultiFifo`: an exact bounded bag, with room for `size`
elements, in a buffer that holds all of it. -/
structure BoundedBag (T : Type) [Inhabited T] (c : Config) : Prop where
  layout : LayoutOk c
  push : ∀ n (calls : List (Call T n)) t v choices, Complete c (calls ++ [⟨t, .push v, choices⟩]) →
    PushSpec c v (after c calls).shared (after c (calls ++ [⟨t, .push v, choices⟩])).shared
      (resultOf c calls ⟨t, .push v, choices⟩)
  pop : ∀ n (calls : List (Call T n)) t choices, Complete c (calls ++ [⟨t, .pop, choices⟩]) →
    PopSpec c (after c calls).shared (after c (calls ++ [⟨t, .pop, choices⟩])).shared
      (resultOf c calls ⟨t, .pop, choices⟩)
  /-- A call that has begun can always be brought to its end. -/
  finishes : ∀ n (calls : List (Call T n)) t op choices, Complete c calls →
    ∃ more, Complete c (calls ++ [⟨t, op, choices ++ more⟩])
  capacity : c.size ≤ c.numQueues * c.sizePerQueue
  /-- With less than `size` elements in the queues, a push is successful. -/
  accepts : ∀ n (calls : List (Call T n)) t v choices,
    Complete c (calls ++ [⟨t, .push v, choices⟩]) →
    ∑ q ∈ Finset.range c.numQueues, ((after c calls).shared.contents c q).length < c.size →
    resultOf c calls ⟨t, .push v, choices⟩ = .pushReturned true

/-- **In runs without overlapping calls a `StickRandom` queue is an exact bounded bag with room for
`size` elements, exactly if neither `size + num_queues - 1` nor the byte count of the buffer wraps.** -/
theorem boundedBag_iff [Inhabited T] (c : Config) (hmode : c.mode = .stickRandom)
    (hcandidates : c.numPopCandidates ≤ c.numQueues) :
    BoundedBag T c ↔ c.size + c.numQueues - 1 < 2 ^ 64 ∧
      c.numQueues * (c.guardSize + c.sizePerQueue * c.elementSize) < 2 ^ 64 := by
  refine ⟨fun h => ⟨Config.size_le_iff.mp h.capacity, layoutOk_iff.mp h.layout⟩,
    fun ⟨hwrap, hbytes⟩ => ?_⟩
  have hslots : ∀ n, EnoughSlots c n := fun n h => absurd (hmode.symm.trans h) nofun
  have hpush : ∀ n (calls : List (Call T n)) t v choices,
      Complete c (calls ++ [⟨t, .push v, choices⟩]) →
      PushSpec c v (after c calls).shared (after c (calls ++ [⟨t, .push v, choices⟩])).shared
        (resultOf c calls ⟨t, .push v, choices⟩) := by
    intro n calls t v choices hcomplete
    obtain ⟨hcalls, hreturned⟩ := complete_concat hcomplete
    exact ((quiet_after (hslots n) hcalls).called (hslots n) t (.push v) choices).1.pushSpec
      (lockOutline_run c _).shared (lockOutline_run c _).shared hreturned
  refine ⟨layoutOk_iff.mpr hbytes, hpush, ?_, ?_, Config.size_le hwrap, ?_⟩
  · intro n calls t choices hcomplete
    obtain ⟨hcalls, hreturned⟩ := complete_concat hcomplete
    exact ((quiet_after (hslots n) hcalls).called (hslots n) t .pop choices).1.popSpec
      (lockOutline_run c _).shared (lockOutline_run c _).shared hreturned
  · intro n calls t op choices hcalls
    obtain ⟨more, -, hmore⟩ := exists_complete (by rw [hmode]; exact nofun) hcandidates
      (quiet_after (hslots n) hcalls) t op 0 choices
    exact ⟨more, hcalls.concat hmore⟩
  · intro n calls t v choices hcomplete hsum
    have hspec := hpush n calls t v choices hcomplete
    obtain ⟨success, hresult⟩ := hspec.returns
    cases success with
    | true => exact hresult
    | false =>
        -- all queues are full, which is more than `size` elements
        have hfull := Finset.sum_const_nat fun q hq =>
          hspec.rejected.mp hresult q (Finset.mem_range.mp hq)
        rw [hfull, Finset.card_range] at hsum
        exact absurd (Config.size_le hwrap) (Nat.not_le.mpr hsum)

/-- Two queues and one candidate. -/
def randomPair (size : Nat) (hsize : size < 2 ^ 64)
    (hshare : (size + 2 - 1) % 2 ^ 64 / 2 ≤ 2 ^ 63) : Config where
  mode := .stickRandom
  numQueues := 2
  numPopCandidates := 1
  size := size
  stickiness := 1
  guardSize := 128
  elementSize := 16
  numQueues_pos := Nat.two_pos
  numQueues_lt := two_lt_int
  numPopCandidates_pos := Nat.one_pos
  size_lt := hsize
  share_le := hshare

/-- Room for five elements is asked for and there is. -/
theorem boundedBag_five :
    (randomPair 5 (by decide) (by decide)).sizePerQueue = 4 ∧
      BoundedBag Nat (randomPair 5 (by decide) (by decide)) := by
  have hfour : (randomPair 5 (by decide) (by decide)).sizePerQueue = 4 := by decide +kernel
  refine ⟨hfour, (boundedBag_iff _ rfl (by decide)).mpr ⟨by decide, ?_⟩⟩
  rw [hfour]
  decide

/-- With `size = 2 ^ 64 - 1` and two queues the constructor gives each queue a single slot. With
`size = 2 ^ 61` it takes 256 bytes for two queues of `2 ^ 60` slots. -/
theorem not_boundedBag_wrapped :
    ((randomPair (2 ^ 64 - 1) (by decide) (by decide)).sizePerQueue = 1 ∧
      ¬ BoundedBag Nat (randomPair (2 ^ 64 - 1) (by decide) (by decide))) ∧
    (randomPair (2 ^ 61) (by decide) (by decide)).bytes = 256 ∧
      ¬ BoundedBag Nat (randomPair (2 ^ 61) (by decide) (by decide)) := by
  have hone : (randomPair (2 ^ 64 - 1) (by decide) (by decide)).sizePerQueue = 1 :=
    Config.sizePerQueue_of_wrap (by decide)
  have hmany : (randomPair (2 ^ 61) (by decide) (by decide)).sizePerQueue = 2 ^ 60 := by
    decide +kernel
  refine ⟨⟨hone, fun h => ?_⟩, ?_, fun h => ?_⟩
  · have hcapacity := h.capacity
    rw [hone] at hcapacity
    exact absurd hcapacity (by decide)
  · rw [Config.bytes, Config.stride, hmany]
    decide
  · have hbytes := layoutOk_iff.mp h.layout
    rw [hmany] at hbytes
    exact absurd hbytes (by decide)

end RelaxedConcurrentFifo.MultiFifo
