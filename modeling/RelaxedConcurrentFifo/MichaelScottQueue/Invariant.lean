/-
# RelaxedConcurrentFifo.MichaelScottQueue.Invariant — who may touch which node

A node is new and belongs to one `enqueue`, or it is linked and has a place in the list. What is in the
list from `head` on is nobody's; a node that `head` has left belongs to the thread that has moved
`head`, which will retire it (`Local.garbage`). Only such nodes are deleted.

A thread that is going to access a node names it in a slot (`Pc.guards`), and has looked since then
that the node is not one that `head` has left. The owner of a node, when it scans the slots, has
therefore not been at that slot yet (`PairOk.guards`): this is the only thing that two threads need to
know of each other, besides that they own different nodes.
-/
import RelaxedConcurrentFifo.MichaelScottQueue.Machine
import Mathlib.Data.Nat.Basic
import Mathlib.Order.Basic

namespace RelaxedConcurrentFifo.MichaelScottQueue

open RelaxedConcurrentFifo.HazardPointers
open RelaxedConcurrentFifo.Lib.Interleaving
open RelaxedConcurrentFifo.Lib.Linearizability
open RelaxedConcurrentFifo.Lib.TicketQueue

variable {T : Type}

/-! ## §1 — what holds of the queue and of the threads -/

/-- The node at `a` is in the list, or was, at place `k`. -/
def Linked (m : Shared T) (a : Addr) (k : Nat) : Prop :=
  ∃ nd, m.heap a = some nd ∧ nd.place = some k

/-- The linked node at `a` points to `b`. -/
def HasNext (m : Shared T) (a b : Addr) : Prop :=
  ∃ nd k, m.heap a = some nd ∧ nd.place = some k ∧ nd.next = some b

/-- The linked nodes have different places, and a node's place is its `seqId`, which wraps. The places from
`headPlace` on are there, each pointing to the next, and `tail` is one of them. Places up to `headPlace`
are claimed. -/
structure MemOk (m : Shared T) : Prop where
  legal : Legal m.log
  inj : ∀ {a a' k}, Linked m a k → Linked m a' k → a = a'
  lt : ∀ {a k}, Linked m a k → k < m.count
  seqId : ∀ {a nd k}, m.heap a = some nd → nd.place = some k → nd.seqId = k % 2 ^ 64
  next : ∀ {a nd k}, m.heap a = some nd → nd.place = some k → k + 1 < m.count →
    ∃ b, nd.next = some b ∧ (m.headPlace ≤ k + 1 → Linked m b (k + 1))
  last : ∀ {a nd k}, m.heap a = some nd → nd.place = some k → k + 1 = m.count → nd.next = none
  fresh : ∀ {a nd}, m.heap a = some nd → nd.place = none → nd.next = none
  live : ∀ k, m.headPlace ≤ k → k < m.count → ∃ a, Linked m a k
  head : Linked m m.head m.headPlace
  tail : Linked m m.tail m.tailPlace
  tail_le : m.headPlace ≤ m.tailPlace
  drawn : ∀ e k, .drawn e k ∈ m.log → 0 < k ∧ k < m.count
  claimed : ∀ k, (∃ d, .claimed d k ∈ m.log) ↔ 0 < k ∧ k ≤ m.headPlace
  item : ∀ {a nd k}, m.heap a = some nd → nd.place = some k → 0 < k →
    ∃ e x, .put e k ∈ m.log ∧ .enqueue e x ∈ m.log ∧ nd.item = some x

/-- The nodes that a thread is going to access, and the slots where it names them. -/
def Pc.guards : Pc T → List (Nat × Addr)
  | .enqNext _ _ ltail | .enqSeqId _ _ ltail | .enqLink _ _ ltail | .enqSwing _ _ ltail
  | .enqHelp _ _ ltail _ => [(kHpTail, ltail)]
  | .deqNext _ node _ | .deqNextStore _ node _ | .deqTail _ node _ | .deqHelp _ node _
  | .deqCas _ node _ => [(kHpHead, node)]
  | .deqItem _ node lnext => [(kHpHead, node), (kHpNext, lnext)]
  | .sizeTail lhead _ | .sizeTailStore lhead _ | .sizeHeadId lhead _ => [(kHpHead, lhead)]
  | .sizeTailId lhead ltail => [(kHpHead, lhead), (kHpTail, ltail)]
  | _ => []

/-- The node that an `enqueue` has made and not linked yet. -/
def Pc.newNode : Pc T → Option Addr
  | .enqLoad _ newNode | .enqProtect _ newNode _ | .enqCheck _ newNode _ | .enqNext _ newNode _
  | .enqSeqId _ newNode _ | .enqLink _ newNode _ | .enqHelp _ newNode _ _ => some newNode
  | _ => none

/-- The node that a `dequeue` will retire. -/
def Pc.leftNode : Pc T → List Addr
  | .deqItem _ node _ | .deqClear _ _ _ (some node) | .retirePush _ _ node => [node]
  | _ => []

/-- The nodes that a thread has to delete. -/
def Local.garbage (l : Local T) : List Addr := l.retiredList ++ l.pc.leftNode

/-- The node that a thread deletes next. -/
def Local.deleting (l : Local T) : Option Addr :=
  match l.pc with
  | .retireDelete _ _ iret => l.retiredList[iret]?
  | _ => none

/-- The thread wants to delete `obj` and has looked into slot `i` of thread `t`. -/
def Local.Passed (l : Local T) (obj : Addr) (t i : Nat) : Prop :=
  match l.pc with
  | .retireScan _ _ s => l.retiredList[s.iret]? = some obj ∧ s.Passed t i
  | .retireDelete _ _ iret => l.retiredList[iret]? = some obj
  | _ => False

/-- The new node of call `e`. -/
def NewNode (m : Shared T) (e : Nat) (a : Addr) : Prop :=
  ∃ nd x, m.heap a = some nd ∧ nd.place = none ∧ nd.item = some x ∧ EnqOpen m.log e x

/-- The node at `a` was the head of the list. -/
def WasHead (m : Shared T) (a : Addr) : Prop := ∃ k ≤ m.headPlace, Linked m a k

/-- What a `dequeue` has found. -/
def RetOk (m : Shared T) (d : Nat) : Option T → Prop
  | none => DeqOpen m.log d ∧ SawEmpty m.log d
  | some x => Found m.log d x

/-- What each thread knows at the point where it is. -/
def PcOk (m : Shared T) : Pc T → Prop
  | .idle | .sizeHead _ | .sizeHeadStore _ => True
  | .enqLoad e newNode | .enqProtect e newNode _ | .enqCheck e newNode _ => NewNode m e newNode
  | .enqNext e newNode ltail | .enqSeqId e newNode ltail =>
      NewNode m e newNode ∧ ∃ k, Linked m ltail k
  | .enqLink e newNode ltail =>
      NewNode m e newNode ∧ ∃ k nd, Linked m ltail k ∧ m.heap newNode = some nd ∧ nd.seqId = (k + 1) % 2 ^ 64
  | .enqSwing e newNode ltail => (∃ p, .put e p ∈ m.log) ∧ HasNext m ltail newNode
  | .enqHelp e newNode ltail lnext => NewNode m e newNode ∧ HasNext m ltail lnext
  | .enqClear e _ | .enqReturn e => ∃ p, .put e p ∈ m.log
  | .deqHead d _ | .deqHeadStore d _ => DeqOpen m.log d
  | .deqNext d node n | .deqNextStore d node n =>
      DeqOpen m.log d ∧ WasHead m node ∧ ∀ a, n = some a → HasNext m node a
  | .deqTail d node lnext | .deqHelp d node lnext =>
      DeqOpen m.log d ∧ WasHead m node ∧ HasNext m node lnext
  | .deqCas d node lnext =>
      DeqOpen m.log d ∧ (∃ k ≤ m.headPlace, Linked m node k ∧ k < m.tailPlace) ∧
        HasNext m node lnext
  | .deqItem d _ lnext => ∃ k, 0 < k ∧ Linked m lnext k ∧ Holding m.log d k
  | .deqClear d _ item _ | .deqReturn d item | .retirePush d item _ | .retireScan d item _
  | .retireDelete d item _ => RetOk m d item
  | .sizeTail lhead _ | .sizeTailStore lhead _ => WasHead m lhead
  | .sizeTailId lhead ltail => ∃ k k', Linked m lhead k ∧ Linked m ltail k' ∧ k ≤ k'
  | .sizeHeadId lhead t => ∃ k' < m.count, t = k' % 2 ^ 64 ∧ ∃ k ≤ k', Linked m lhead k
  | .sizeClear _ t h | .sizeReturn t h =>
      ∃ k' < m.count, t = k' % 2 ^ 64 ∧ ∃ k ≤ k', h = k % 2 ^ 64

/-- What the thread has stored in its slots and looks up again. -/
def SlotsOk (hp : Nat → Option Addr) : Pc T → Prop
  | .enqCheck _ _ ltail => hp kHpTail = some ltail
  | .deqHead _ (some a) | .sizeHead (some a) => hp kHpHead = some a
  | .deqNext _ _ (some a) | .deqTail _ _ a | .deqHelp _ _ a | .deqCas _ _ a => hp kHpNext = some a
  | .sizeTail _ (some a) => hp kHpTail = some a
  | _ => True

structure LocalOk (m : Shared T) (l : Local T) : Prop where
  pc : PcOk m l.pc
  slots : SlotsOk (m.hp l.tid) l.pc
  guards : ∀ i a, (i, a) ∈ l.pc.guards → m.hp l.tid i = some a
  nodup : l.garbage.Nodup
  garbage : ∀ a ∈ l.garbage, ∃ k < m.headPlace, Linked m a k

/-- A scan is at a row of one of the threads. -/
def Pc.ScanIn (maxThreads : Nat) : Pc T → Prop
  | .retireScan _ _ s => s.tid < maxThreads
  | _ => True

/-- The call that the thread is in. -/
def Pc.call : Pc T → Option Nat
  | .enqLoad e _ | .enqProtect e _ _ | .enqCheck e _ _ | .enqNext e _ _ | .enqSeqId e _ _
  | .enqLink e _ _ | .enqSwing e _ _ | .enqHelp e _ _ _ | .enqClear e _ | .enqReturn e
  | .deqHead e _ | .deqHeadStore e _ | .deqNext e _ _ | .deqNextStore e _ _ | .deqTail e _ _
  | .deqHelp e _ _ | .deqCas e _ _ | .deqItem e _ _ | .deqClear e _ _ _ | .deqReturn e _
  | .retirePush e _ _ | .retireScan e _ _ | .retireDelete e _ _ => some e
  | _ => none

/-- What two threads know of each other. -/
structure PairOk (l l' : Local T) : Prop where
  tid : l.tid ≠ l'.tid
  call : ∀ e, l.pc.call = some e → l'.pc.call ≠ some e
  newNode : ∀ a, l.pc.newNode = some a → l'.pc.newNode ≠ some a
  garbage : ∀ a ∈ l.garbage, a ∉ l'.garbage
  guards : ∀ i a, (i, a) ∈ l.pc.guards → ¬ l'.Passed a l.tid i

/-- The proof outline. -/
def outline (maxThreads : Nat) : Outline (Shared T) (Local T) where
  shared m := MemOk m ∧ m.fault = false
  thread m l := LocalOk m l ∧ l.tid < maxThreads ∧ l.pc.ScanIn maxThreads
  pair := PairOk

/-! ## §2 — what the others keep -/

section Others

variable {m m' : Shared T} {l l' : Local T} {e : Nat} {a b : Addr} {k k' : Nat}

theorem Linked.place_eq (h : Linked m a k) (h' : Linked m a k') : k = k' := by
  obtain ⟨nd, hnd, hk⟩ := h
  obtain ⟨nd', hnd', hk'⟩ := h'
  rw [hnd] at hnd'
  obtain rfl := Option.some.inj hnd'
  exact Option.some.inj (hk.symm.trans hk')

theorem NewNode.place_eq_none {d : Nat} {nd : Node T} (h : NewNode m d a)
    (hnd : m.heap a = some nd) : nd.place = none := by
  obtain ⟨nd', x, hnd', hplace, -⟩ := h
  rw [hnd] at hnd'
  obtain rfl := Option.some.inj hnd'
  exact hplace

theorem guards_lt {pc : Pc T} {i : Nat} (h : (i, a) ∈ pc.guards) : i < maxHPs := by
  unfold Pc.guards at h
  split at h <;> simp_all [kHpTail, kHpHead, kHpNext, maxHPs] <;> omega

theorem Local.garbage_of_passed {t i : Nat} (h : l.Passed a t i) : a ∈ l.garbage := by
  unfold Local.Passed at h
  split at h
  · exact List.mem_append_left _ (List.mem_of_getElem? h.1)
  · exact List.mem_append_left _ (List.mem_of_getElem? h)
  · cases h

theorem Local.passed_of_deleting (h : l.deleting = some a) (t i : Nat) : l.Passed a t i := by
  unfold Local.deleting at h
  unfold Local.Passed
  split at h
  · rename_i hpc
    rw [hpc]
    exact h
  · cases h

/-- How the queue changes in a step of call `e` by the thread `l`, as far as other threads depend on
it. -/
structure Later (m m' : Shared T) (l : Local T) (e : Nat) : Prop where
  log : Extends m.log m'.log e
  hp : ∀ t ≠ l.tid, m'.hp t = m.hp t
  count : m.count ≤ m'.count
  headPlace : m.headPlace ≤ m'.headPlace
  tailPlace : m.tailPlace ≤ m'.tailPlace
  linked : ∀ a nd k, m.heap a = some nd → nd.place = some k → l.deleting ≠ some a →
    ∃ nd', m'.heap a = some nd' ∧ nd'.place = some k ∧ ∀ b, nd.next = some b → nd'.next = some b
  fresh : ∀ a nd, m.heap a = some nd → nd.place = none → l.pc.newNode ≠ some a →
    m'.heap a = some nd

theorem Later.refl (m : Shared T) (l : Local T) (e : Nat) : Later m m l e :=
  ⟨.refl _ e, fun _ _ => rfl, Nat.le_refl _, Nat.le_refl _, Nat.le_refl _,
    fun _ nd _ h hk _ => ⟨nd, h, hk, fun _ hb => hb⟩, fun _ _ h _ _ => h⟩

section Stable

variable (h : Later m m' l e)
include h

theorem Linked.other (hd : l.deleting ≠ some a) (hl : Linked m a k) : Linked m' a k := by
  obtain ⟨nd, hnd, hk⟩ := hl
  obtain ⟨nd', hnd', hk', -⟩ := h.linked a nd k hnd hk hd
  exact ⟨nd', hnd', hk'⟩

theorem HasNext.other (hd : l.deleting ≠ some a) (hn : HasNext m a b) : HasNext m' a b := by
  obtain ⟨nd, k, hnd, hk, hb⟩ := hn
  obtain ⟨nd', hnd', hk', hb'⟩ := h.linked a nd k hnd hk hd
  exact ⟨nd', k, hnd', hk', hb' b hb⟩

theorem WasHead.other (hd : l.deleting ≠ some a) (hw : WasHead m a) : WasHead m' a := by
  obtain ⟨k, hk, hl⟩ := hw
  exact ⟨k, hk.trans h.headPlace, hl.other h hd⟩

theorem NewNode.other {d : Nat} (hne : d ≠ e) (ha : l.pc.newNode ≠ some a)
    (hn : NewNode m d a) : NewNode m' d a := by
  obtain ⟨nd, x, hnd, hk, hx, ho⟩ := hn
  exact ⟨nd, x, h.fresh a nd hnd hk ha, hk, hx, ho.other h.log hne⟩

theorem RetOk.other {d : Nat} (hne : d ≠ e) {item : Option T} (hr : RetOk m d item) :
    RetOk m' d item := by
  cases item with
  | none => exact ⟨hr.1.other h.log hne, hr.2.mono h.log⟩
  | some x => exact Found.other h.log hr hne

theorem PcOk.other {pc : Pc T} (hpc : PcOk m pc) (hcall : pc.call ≠ some e)
    (hnew : ∀ a, pc.newNode = some a → l.pc.newNode ≠ some a)
    (hguards : ∀ i a, (i, a) ∈ pc.guards → l.deleting ≠ some a) : PcOk m' pc := by
  have hid : ∀ {d : Nat}, pc.call = some d → d ≠ e := fun hd hde => hcall (hde ▸ hd)
  -- what a thread has protected cannot be deleted by another, and new nodes have one owner
  cases pc with
  | idle | sizeHead n | sizeHeadStore ret => trivial
  | enqLoad d new | enqProtect d new ltail | enqCheck d new ltail =>
      exact NewNode.other h (hid rfl) (hnew _ rfl) hpc
  | enqNext d new ltail | enqSeqId d new ltail =>
      obtain ⟨hn, k, hk⟩ := hpc
      exact ⟨hn.other h (hid rfl) (hnew _ rfl), k,
        hk.other h (hguards _ _ (List.mem_singleton.mpr rfl))⟩
  | enqLink d new ltail =>
      obtain ⟨hn, k, nd, hk, hnd, hseq⟩ := hpc
      exact ⟨hn.other h (hid rfl) (hnew _ rfl), k, nd,
        hk.other h (hguards _ _ (List.mem_singleton.mpr rfl)),
        h.fresh new nd hnd (hn.place_eq_none hnd) (hnew _ rfl), hseq⟩
  | enqSwing d new ltail =>
      obtain ⟨⟨p, hp⟩, hn⟩ := hpc
      exact ⟨⟨p, h.log.mem hp⟩, hn.other h (hguards _ _ (List.mem_singleton.mpr rfl))⟩
  | enqHelp d new ltail lnext =>
      exact ⟨hpc.1.other h (hid rfl) (hnew _ rfl),
        hpc.2.other h (hguards _ _ (List.mem_singleton.mpr rfl))⟩
  | enqClear d i | enqReturn d =>
      obtain ⟨p, hp⟩ := hpc
      exact ⟨p, h.log.mem hp⟩
  | deqHead d n | deqHeadStore d ret => exact DeqOpen.other h.log hpc (hid rfl)
  | deqNext d node n | deqNextStore d node n =>
      have hnode := hguards _ _ (List.mem_singleton.mpr rfl)
      exact ⟨hpc.1.other h.log (hid rfl), hpc.2.1.other h hnode,
        fun a ha => (hpc.2.2 a ha).other h hnode⟩
  | deqTail d node lnext | deqHelp d node lnext =>
      have hnode := hguards _ _ (List.mem_singleton.mpr rfl)
      exact ⟨hpc.1.other h.log (hid rfl), hpc.2.1.other h hnode, hpc.2.2.other h hnode⟩
  | deqCas d node lnext =>
      have hnode := hguards _ _ (List.mem_singleton.mpr rfl)
      obtain ⟨ho, ⟨k, hk, hl, hlt⟩, hn⟩ := hpc
      exact ⟨ho.other h.log (hid rfl),
        ⟨k, hk.trans h.headPlace, hl.other h hnode, hlt.trans_le h.tailPlace⟩, hn.other h hnode⟩
  | deqItem d node lnext =>
      obtain ⟨k, hpos, hk, ho⟩ := hpc
      exact ⟨k, hpos, hk.other h (hguards _ _ (List.mem_cons_of_mem _ (List.mem_singleton.mpr rfl))),
        ho.other h.log (hid rfl)⟩
  | deqClear d i item node | deqReturn d item | retirePush d item ptr | retireScan d item s
  | retireDelete d item iret => exact RetOk.other h (hid rfl) hpc
  | sizeTail lhead n | sizeTailStore lhead ret =>
      exact WasHead.other h (hguards _ _ (List.mem_singleton.mpr rfl)) hpc
  | sizeTailId lhead ltail =>
      obtain ⟨k, k', hk, hk', hle⟩ := hpc
      exact ⟨k, k', hk.other h (hguards _ _ List.mem_cons_self),
        hk'.other h (hguards _ _ (List.mem_cons_of_mem _ (List.mem_singleton.mpr rfl))), hle⟩
  | sizeHeadId lhead t =>
      obtain ⟨k', hlt, ht, k, hle, hk⟩ := hpc
      exact ⟨k', hlt.trans_le h.count, ht, k, hle,
        hk.other h (hguards _ _ (List.mem_singleton.mpr rfl))⟩
  | sizeClear i t k | sizeReturn t k =>
      obtain ⟨k', hlt, hrest⟩ := hpc
      exact ⟨k', hlt.trans_le h.count, hrest⟩

end Stable

/-- Calls in progress have their names from the log. -/
theorem PcOk.call_lt (hm : MemOk m) {pc : Pc T} (hpc : PcOk m pc) {d : Nat}
    (hd : pc.call = some d) : d < m.log.length := by
  have hnew : ∀ {d : Nat} {a : Addr}, NewNode m d a → ∃ x ∈ m.log, x.id = d := by
    rintro d a ⟨nd, x, -, -, -, ho⟩
    exact ⟨_, ho.called, rfl⟩
  have hret : ∀ {d : Nat} {item : Option T}, RetOk m d item → ∃ x ∈ m.log, x.id = d := by
    intro d item hr
    cases item with
    | none => exact ⟨_, hr.1.called, rfl⟩
    | some x =>
        obtain ⟨-, p, hp⟩ := hr
        exact ⟨_, hp, rfl⟩
  have hmem : ∃ x ∈ m.log, x.id = d := by
    cases pc with
    | enqLoad e new | enqProtect e new ltail | enqCheck e new ltail =>
        obtain rfl := Option.some.inj hd
        exact hnew hpc
    | enqNext e new ltail | enqSeqId e new ltail | enqLink e new ltail
    | enqHelp e new ltail lnext =>
        obtain rfl := Option.some.inj hd
        exact hnew hpc.1
    | enqSwing e new ltail =>
        obtain ⟨⟨p, hp⟩, -⟩ := hpc
        exact ⟨_, hp, Option.some.inj hd⟩
    | enqClear e i | enqReturn e =>
        obtain ⟨p, hp⟩ := hpc
        exact ⟨_, hp, Option.some.inj hd⟩
    | deqHead e n | deqHeadStore e ret => exact ⟨_, hpc.called, Option.some.inj hd⟩
    | deqNext e node n | deqNextStore e node n | deqTail e node lnext | deqHelp e node lnext
    | deqCas e node lnext => exact ⟨_, hpc.1.called, Option.some.inj hd⟩
    | deqItem e node lnext =>
        obtain ⟨k, -, -, ho⟩ := hpc
        exact ⟨_, ho.called, Option.some.inj hd⟩
    | deqClear e i item node | deqReturn e item | retirePush e item ptr | retireScan e item s
    | retireDelete e item iret =>
        obtain rfl := Option.some.inj hd
        exact hret hpc
    | idle | sizeHead n | sizeHeadStore ret | sizeTail lhead n | sizeTailStore lhead ret
    | sizeTailId lhead ltail | sizeHeadId lhead t | sizeClear i t k | sizeReturn t k => cases hd
  obtain ⟨x, hx, rfl⟩ := hmem
  exact id_lt hm.legal hx

/-- A node that is not linked yet is there, and has no place. -/
theorem PcOk.newNode_heap {pc : Pc T} (hpc : PcOk m pc) (ha : pc.newNode = some a) :
    ∃ nd, m.heap a = some nd ∧ nd.place = none := by
  have hnew : ∀ {d : Nat}, NewNode m d a → ∃ nd, m.heap a = some nd ∧ nd.place = none := by
    rintro d ⟨nd, x, hnd, hfree, -⟩
    exact ⟨nd, hnd, hfree⟩
  cases pc with
  | enqLoad e new | enqProtect e new ltail | enqCheck e new ltail =>
      obtain rfl := Option.some.inj ha
      exact hnew hpc
  | enqNext e new ltail | enqSeqId e new ltail | enqLink e new ltail
  | enqHelp e new ltail lnext =>
      obtain rfl := Option.some.inj ha
      exact hnew hpc.1
  | _ => cases ha

/-- What a step of one thread does to what it has and knows. -/
structure Moves (maxThreads : Nat) (m m' : Shared T) (l l' : Local T) (e : Nat) : Prop where
  later : Later m m' l e
  tid : l'.tid = l.tid
  call : l.pc.call = some e ∨ m.log.length = e
  call' : ∀ e', l'.pc.call = some e' → e' = e
  newNode : ∀ a, l'.pc.newNode = some a → l.pc.newNode = some a ∨ m.heap a = none
  garbage : ∀ a ∈ l'.garbage, a ∈ l.garbage ∨ Linked m a m.headPlace
  guards : ∀ i a, (i, a) ∈ l'.pc.guards →
    (i, a) ∈ l.pc.guards ∨ ∃ k ≥ m.headPlace, Linked m a k
  passed : ∀ a t i, t < maxThreads → i < maxHPs → l'.Passed a t i →
    l.Passed a t i ∨ m.hp t i ≠ some a
  scan : l'.pc.ScanIn maxThreads

/-- **The rule for a step of one thread.** -/
theorem stepOk_of_moves {maxThreads : Nat} (hm : MemOk m)
    (hl : LocalOk m l ∧ l.tid < maxThreads ∧ l.pc.ScanIn maxThreads)
    (hm' : MemOk m') (hfault : m'.fault = false) (hl' : LocalOk m' l')
    (hmoves : Moves maxThreads m m' l l' e) : (outline maxThreads).StepOk m l m' l' := by
  -- the name of the call is its own, or new to the log
  have hne : ∀ q, LocalOk m q → PairOk l q → q.pc.call ≠ some e := by
    intro q hq hpair hqe
    rcases hmoves.call with hcall | rfl
    · exact hpair.call e hcall hqe
    · exact Nat.lt_irrefl _ (hq.pc.call_lt hm hqe)
  refine ⟨⟨hm', hfault⟩, ⟨hl', hmoves.tid ▸ hl.2.1, hmoves.scan⟩, ?_, ?_⟩
  · rintro q ⟨hq, hqt⟩ hpair hpair'
    have hrow := hmoves.later.hp q.tid hpair'.tid
    refine ⟨⟨?_, by rw [hrow]; exact hq.slots, by rw [hrow]; exact hq.guards, hq.nodup,
      fun a ha => ?_⟩, hqt⟩
    · refine hq.pc.other hmoves.later (hne q hq hpair) (fun a ha hla => ?_) fun i a ha hd => ?_
      · exact hpair.newNode a hla ha
      · exact hpair'.guards i a ha (Local.passed_of_deleting hd q.tid i)
    · obtain ⟨k, hk, hlink⟩ := hq.garbage a ha
      refine ⟨k, hk.trans_le hmoves.later.headPlace, hlink.other hmoves.later fun hd => ?_⟩
      exact hpair.garbage a (Local.garbage_of_passed (Local.passed_of_deleting hd 0 0)) ha
  · rintro q ⟨hq, hqt, -⟩ hpair hpair'
    have hcall : ∀ d, l'.pc.call = some d → q.pc.call ≠ some d := by
      intro d hd hqd
      obtain rfl := hmoves.call' d hd
      exact hne q hq hpair hqd
    have hnew : ∀ a, l'.pc.newNode = some a → q.pc.newNode ≠ some a := by
      intro a ha hqa
      rcases hmoves.newNode a ha with h | h
      · exact hpair.newNode a h hqa
      · obtain ⟨nd, hnd, -⟩ := hq.pc.newNode_heap hqa
        rw [h] at hnd
        cases hnd
    have hgarbage : ∀ a ∈ l'.garbage, a ∉ q.garbage := by
      intro a ha hqa
      rcases hmoves.garbage a ha with h | h
      · exact hpair.garbage a h hqa
      · -- what is retired now was still in the list, so no other thread has it as garbage
        obtain ⟨k, hk, hlink⟩ := hq.garbage a hqa
        exact Nat.ne_of_lt hk (hlink.place_eq h)
    refine ⟨⟨hmoves.tid ▸ hpair.tid, hcall, hnew, hgarbage, fun i a ha hp => ?_⟩,
      ⟨hmoves.tid ▸ hpair'.tid, fun d hd hd' => hcall d hd' hd, fun a ha ha' => hnew a ha' ha,
        fun a ha ha' => hgarbage a ha' ha, fun i a ha hp => ?_⟩⟩
    · rcases hmoves.guards i a ha with h | ⟨k, hk, hlink⟩
      · exact hpair.guards i a h (hmoves.tid ▸ hp)
      · -- the node has just been seen in the list, so it is not garbage
        obtain ⟨k', hk', hlink'⟩ := hq.garbage a (Local.garbage_of_passed hp)
        exact Nat.not_lt_of_le hk (hlink.place_eq hlink' ▸ hk')
    · rcases hmoves.passed a q.tid i hqt (guards_lt ha) hp with h | h
      · exact hpair'.guards i a ha h
      · exact h (hq.guards i a ha)

end Others

end RelaxedConcurrentFifo.MichaelScottQueue
