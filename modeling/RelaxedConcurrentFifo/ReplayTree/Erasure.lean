/-
# RelaxedConcurrentFifo.ReplayTree.Erasure — `erase_val`, `erase`, and what repairs nodes with few slots

`erase_val` descends to the first item that is not below the value; on its way it counts the items it
passes and adds 1 to their delays. `erase` then looks for the leaf of the iterator once more, takes the
item out, and on the way back up each node that is left with too few slots is merged with a sibling, or
gets slots from one.

A call for a child may write to its parent and to its siblings. Here it says in its result what it
wants there, and the call for the parent, which is where it returns to, does it before anything else.
-/
import RelaxedConcurrentFifo.ReplayTree.Nodes

namespace RelaxedConcurrentFifo.ReplayTree

open RelaxedConcurrentFifo.Lib.LinkedLists

variable {K : Type}

/-! ## §1 — merging and shifting -/

/-- A list that is written to an array. -/
def fits {α : Type} (slots : Nat) (l : List α) : Option (List α) :=
  if l.length ≤ slots then some l else none

/-- `merge_leaves`: the right leaf is left without slots. -/
def mergeLeaves (c : Traits) (left right : LeafNode K) (leftDelay rightDelay : Int) (st : Store) :
    Option (LeafNode K × LeafNode K × Store) := do
  let slots ← fits c.leafSlots (left.slots ++ right.slots.map (plus (rightDelay - leftDelay)))
  some ({ left with slots := slots }, { right with slots := [] },
    { st with links := st.links.removeAfter left.addr right.addr })

/-- `shift_left_leaf`: how the leaves are left, and the key that separates them. -/
def shiftLeftLeaf (c : Traits) (left right : LeafNode K) (leftDelay rightDelay : Int) :
    Option (LeafNode K × K × LeafNode K) := do
  let shiftnum := (right.slots.length - left.slots.length) / 2
  let slots ← fits c.leafSlots
    (left.slots ++ (right.slots.take shiftnum).map (plus (rightDelay - leftDelay)))
  let left := { left with slots := slots }
  let key ← left.keys.getLast?
  some (left, key, { right with slots := right.slots.drop shiftnum })

/-- `shift_right_leaf`. -/
def shiftRightLeaf (c : Traits) (left right : LeafNode K) (leftDelay rightDelay : Int) :
    Option (LeafNode K × K × LeafNode K) := do
  let shiftnum := (left.slots.length - right.slots.length) / 2
  let rest := left.slots.length - shiftnum
  let slots ← fits c.leafSlots
    ((left.slots.drop rest).map (plus (leftDelay - rightDelay)) ++ right.slots)
  let left := { left with slots := left.slots.take rest }
  let key ← left.keys.getLast?
  some (left, key, { right with slots := slots })

section Inner

variable {n : Nat}

/-- `merge_inner`: the right node is left without keys. -/
def mergeInner (c : Traits) (left right : InnerNode K (Node K n)) (parentKey : K)
    (leftDelay rightDelay : Int) :
    Option (InnerNode K (Node K n) × InnerNode K (Node K n)) := do
  let delayDiff := (right.delay + rightDelay) - (left.delay + leftDelay)
  let moved := right.childid.map fun child => addDelay n child delayDiff
  let slotkey ← fits c.innerSlots (left.slotkey ++ parentKey :: right.slotkey)
  let childid ← fits (c.innerSlots + 1) (left.childid ++ moved)
  some (updateSubtreeSize { left with slotkey := slotkey, childid := childid },
    { right with slotkey := [], childid := moved.take 1, subtreeSize := 0 })

/-- `shift_left_inner`. -/
def shiftLeftInner (c : Traits) (left right : InnerNode K (Node K n)) (parentKey : K)
    (leftDelay rightDelay : Int) :
    Option (InnerNode K (Node K n) × K × InnerNode K (Node K n)) := do
  let shiftnum := (right.slotkey.length - left.slotkey.length) / 2
  let delayDiff := (right.delay + rightDelay) - (left.delay + leftDelay)
  let moved := (right.childid.take shiftnum).map fun child => addDelay n child delayDiff
  -- with nothing to shift, the end of what is copied would lie before its begin
  let last ← if shiftnum = 0 then none else some (shiftnum - 1)
  let slotkey ← fits c.innerSlots (left.slotkey ++ parentKey :: right.slotkey.take last)
  let childid ← fits (c.innerSlots + 1) (left.childid ++ moved)
  let key ← right.slotkey[last]?
  some (updateSubtreeSize { left with slotkey := slotkey, childid := childid }, key,
    updateSubtreeSize { right with
      slotkey := right.slotkey.drop shiftnum, childid := right.childid.drop shiftnum })

/-- `shift_right_inner`. -/
def shiftRightInner (c : Traits) (left right : InnerNode K (Node K n)) (parentKey : K)
    (leftDelay rightDelay : Int) :
    Option (InnerNode K (Node K n) × K × InnerNode K (Node K n)) := do
  let shiftnum := (left.slotkey.length - right.slotkey.length) / 2
  let rest := left.slotkey.length - shiftnum
  let delayDiff := (left.delay + leftDelay) - (right.delay + rightDelay)
  let moved := (left.childid.drop (rest + 1)).map fun child => addDelay n child delayDiff
  let _ ← if shiftnum = 0 then none else some (shiftnum - 1)
  let slotkey ← fits c.innerSlots (left.slotkey.drop (rest + 1) ++ parentKey :: right.slotkey)
  let childid ← fits (c.innerSlots + 1) (moved ++ right.childid)
  let key ← left.slotkey[rest]?
  some (updateSubtreeSize { left with
      slotkey := left.slotkey.take rest, childid := left.childid.take (rest + 1) }, key,
    updateSubtreeSize { right with slotkey := slotkey, childid := childid })

end Inner

/-- `merge_leaves` or `merge_inner`. -/
def mergeNodes (c : Traits) : (n : Nat) → Node K n → Node K n → K → Int → Int → Store →
    Option (Node K n × Node K n × Store)
  | 0, left, right, _, leftDelay, rightDelay, st => mergeLeaves c left right leftDelay rightDelay st
  | _ + 1, left, right, parentKey, leftDelay, rightDelay, st => do
      let (left, right) ← mergeInner c left right parentKey leftDelay rightDelay
      some (left, right, st)

/-- `shift_left_leaf` or `shift_left_inner`. -/
def shiftLeft (c : Traits) : (n : Nat) → Node K n → Node K n → K → Int → Int →
    Option (Node K n × K × Node K n)
  | 0, left, right, _, leftDelay, rightDelay => shiftLeftLeaf c left right leftDelay rightDelay
  | _ + 1, left, right, parentKey, leftDelay, rightDelay =>
      shiftLeftInner c left right parentKey leftDelay rightDelay

/-- `shift_right_leaf` or `shift_right_inner`. -/
def shiftRight (c : Traits) : (n : Nat) → Node K n → Node K n → K → Int → Int →
    Option (Node K n × K × Node K n)
  | 0, left, right, _, leftDelay, rightDelay => shiftRightLeaf c left right leftDelay rightDelay
  | _ + 1, left, right, parentKey, leftDelay, rightDelay =>
      shiftRightInner c left right parentKey leftDelay rightDelay

/-! ## §2 — which of them -/

/-- What a node asks its parent for. -/
inductive Fix where
  | none
  /-- A root without slots is taken away. -/
  | root
  | mergeLeft
  | mergeRight
  | shiftLeft
  | shiftRight
  deriving DecidableEq, Repr

/-- Where a node hangs: its slot in the parent, and the parent's `slotuse`. -/
structure Place where
  slot : Nat
  slotuse : Nat

/-- The choice after an erasure; `left` and `right` are the slots that the neighbours use. A neighbour has
the same parent if the slot is not the first, or not the last. -/
def chooseFix (slotmin own : Nat) (left right : Option Nat) (place : Option Place) : Fix :=
  let leftIsSibling := place.any fun p => decide (0 < p.slot)
  let rightIsSibling := place.any fun p => decide (p.slot < p.slotuse)
  if own < slotmin ∧ ¬ (place.isNone ∧ 1 ≤ own) then
    match left, right with
    | none, none => .root
    | left, right =>
        let leftFew := left.any fun slots => decide (slots ≤ slotmin)
        let rightFew := right.any fun slots => decide (slots ≤ slotmin)
        if (left.isNone ∨ leftFew) ∧ (right.isNone ∨ rightFew) then
          if leftIsSibling then .mergeLeft else .mergeRight
        else if leftFew ∧ (right.isSome ∧ ¬ rightFew) then
          if rightIsSibling then .shiftLeft else .mergeLeft
        else if (left.isSome ∧ ¬ leftFew) ∧ rightFew then
          if leftIsSibling then .shiftRight else .mergeRight
        else if leftIsSibling ∧ rightIsSibling then
          if left.getD 0 ≤ right.getD 0 then .shiftLeft else .shiftRight
        else if leftIsSibling then .shiftRight else .shiftLeft
  else .none

/-- Two children side by side, and the key between them. -/
def window {n : Nat} (inner : InnerNode K (Node K n)) (slot : Nat) : Option (Node K n × K × Node K n) := do
  let left ← inner.childid[slot]?
  let key ← inner.slotkey[slot]?
  let right ← inner.childid[slot + 1]?
  some (left, key, right)

/-- Both are changed. -/
def setWindow {n : Nat} (inner : InnerNode K (Node K n)) (slot : Nat) (left right : Node K n) :
    InnerNode K (Node K n) :=
  { inner with childid := (inner.childid.set slot left).set (slot + 1) right }

/-- What a child asked for is done; whether nodes were merged, `btree_fixmerge`, is handed on. The children
of one node have the same delay above them. -/
def applyFix (c : Traits) {n : Nat} (inner : InnerNode K (Node K n)) (slot : Nat) (delay : Int)
    (st : Store) : Fix → Option (InnerNode K (Node K n) × Bool × Store)
  | .none => some (inner, false, st)
  | .root => none
  | .mergeLeft => if slot = 0 then none else merge (slot - 1)
  | .mergeRight => merge slot
  | .shiftLeft => do
      let (left, key, right) ← window inner slot
      let (left, key, right) ← shiftLeft c n left right key delay delay
      some ({ setWindow inner slot left right with slotkey := inner.slotkey.set slot key }, false, st)
  | .shiftRight =>
      if slot = 0 then none
      else do
        let (left, key, right) ← window inner (slot - 1)
        let (left, key, right) ← shiftRight c n left right key delay delay
        some ({ setWindow inner (slot - 1) left right with
          slotkey := inner.slotkey.set (slot - 1) key }, false, st)
where
  /-- The children at `slot` and behind it. -/
  merge (slot : Nat) : Option (InnerNode K (Node K n) × Bool × Store) := do
    let (left, key, right) ← window inner slot
    let (left, right, st) ← mergeNodes c n left right key delay delay st
    some (setWindow inner slot left right, true, st)

/-- `free_node`. -/
def freeNode (n : Nat) (st : Store) : Store :=
  if n = 0 then { st with leaves := st.leaves - 1 } else { st with innerNodes := st.innerNodes - 1 }

/-- The last key of a leaf. -/
def leafLastKey : (n : Nat) → Node K n → Option K
  | 0, leaf => leaf.keys.getLast?
  | _ + 1, _ => none

/-- After `btree_fixmerge`: the child that was emptied is removed, and above leaves the key before it is
fixed. -/
def removeMerged (c : Traits) {n : Nat} (inner : InnerNode K (Node K n)) (slot : Nat) (st : Store) :
    Option (InnerNode K (Node K n) × Store) := do
  let child ← inner.childid[slot]?
  let slot := if slotuse n child ≠ 0 then slot + 1 else slot
  if 1 ≤ slot ∧ slot ≤ inner.slotkey.length then
    let inner := updateSubtreeSize { inner with
      slotkey := inner.slotkey.eraseIdx (slot - 1), childid := inner.childid.eraseIdx slot }
    let st := freeNode n st
    if inner.level = 1 then
      let child ← inner.childid[slot - 1]?
      let key ← leafLastKey n child
      if slot - 1 < c.innerSlots then
        some ({ inner with slotkey := inner.slotkey.set (slot - 1) key }, st)
      else none
    else some (inner, st)
  else none

/-! ## §3 — `erase_iter_descend` -/

/-- The result of an erasure below a node: the node, the key that is now its last one if that has changed,
what the node asks its parent for, and the delay of the item. -/
structure Erased (K : Type) (n : Nat) where
  node : Node K n
  lastkey : Option K
  fix : Fix
  delay : Int

/-- `erase_iter_descend` at a leaf; the inner `none` is `btree_not_found`. -/
def eraseLeaf (c : Traits) (iter : Iter) (leaf : LeafNode K) (delay : Int) (left right : Option (LeafNode K))
    (place : Option Place) : Option (Option (Erased K 0)) :=
  if leaf.addr ≠ iter.currLeaf then some none
  else
    match leaf.slots[iter.currSlot]? with
    | none => some none
    | some item => do
        let leaf := { leaf with slots := leaf.slots.eraseIdx iter.currSlot }
        let hasSeparator := place.any fun p => decide (p.slot < p.slotuse)
        let lastkey ←
          if iter.currSlot = leaf.slots.length then
            match leaf.keys.getLast? with
            | some key => some (some key)
            -- the key before the first slot would be written to the parent
            | none => if hasSeparator then none else some none
          else some none
        let fix := chooseFix c.leafSlotmin leaf.slots.length (left.map fun l => l.slots.length)
          (right.map fun r => r.slots.length) place
        some (some ⟨leaf, lastkey, fix, delay + item.2⟩)

/-- The left neighbour of a child: its sibling, or the last child but one of the node's neighbour. -/
def leftNeighbour {n : Nat} (inner : InnerNode K (Node K n)) (left : Option (InnerNode K (Node K n)))
    (slot : Nat) : Option (Option (Node K n)) :=
  if slot = 0 then
    match left with
    | none => some none
    | some left => if left.slotkey.length = 0 then none else (left.childid[left.slotkey.length - 1]?).map some
  else (inner.childid[slot - 1]?).map some

/-- The right neighbour of a child: its sibling, or the first child of the node's neighbour. -/
def rightNeighbour {n : Nat} (inner : InnerNode K (Node K n)) (right : Option (InnerNode K (Node K n)))
    (slot : Nat) : Option (Option (Node K n)) :=
  if slot = inner.slotkey.length then
    match right with
    | none => some none
    | some right => (right.childid[0]?).map some
  else (inner.childid[slot + 1]?).map some

/-- The loop over the children from `slot` on; it has found nothing once a key behind it is greater. -/
def searchChildren {β : Type} [LinearOrder K] (slotkey : List K) (key : K)
    (descend : Nat → Option (Option β)) : (turns slot : Nat) → Option (Option (Nat × β))
  | 0, _ => some none
  | turns + 1, slot => do
      match ← descend slot with
      | some r => some (some (slot, r))
      | none =>
          if (slotkey[slot]?).any fun k => decide (k < key) then some none
          else searchChildren slotkey key descend turns (slot + 1)

/-- `erase_iter_descend` at an inner node, after a child has been searched with success. -/
def eraseInner (c : Traits) {n : Nat} (inner : InnerNode K (Node K n)) (delay : Int)
    (left right : Option (InnerNode K (Node K n))) (place : Option Place) (slot : Nat)
    (found : Erased K n) (st : Store) : Option (Erased K (n + 1) × Store) := do
  let inner := { inner with childid := inner.childid.set slot found.node }
  -- the child writes its last key to the slot before it is balanced, or hands it on
  let (inner, lastkey) :=
    if slot < inner.slotkey.length then
      match found.lastkey with
      | some key => ({ inner with slotkey := inner.slotkey.set slot key }, none)
      | none => (inner, none)
    else (inner, found.lastkey)
  let (inner, fixmerge, st) ← applyFix c inner slot (delay + inner.delay) st found.fix
  let inner := updateSubtreeSize inner
  let (inner, st) ← if fixmerge then removeMerged c inner slot st else some (inner, st)
  let fix := chooseFix c.innerSlotmin inner.slotkey.length (left.map fun l => l.slotkey.length)
    (right.map fun r => r.slotkey.length) place
  some (⟨inner, lastkey, fix, found.delay⟩, st)

variable [LinearOrder K]

/-- `erase_iter_descend`; `key` is `iter.key()`. -/
def eraseIterDescend (c : Traits) (iter : Iter) (key : Option K) : (n : Nat) → Node K n → Int →
    Option (Node K n) → Option (Node K n) → Option Place → Store → Option (Option (Erased K n × Store))
  | 0, leaf, delay, left, right, place, st => do
      match ← eraseLeaf c iter leaf delay left right place with
      | none => some none
      | some r => some (some (r, st))
  | n + 1, inner, delay, left, right, place, st => do
      let key' ← key
      let slot ← findLower c.binsearchInner inner.slotkey key'
      let descend (slot : Nat) : Option (Option (Erased K n × Store)) := do
        let child ← inner.childid[slot]?
        let myleft ← leftNeighbour inner left slot
        let myright ← rightNeighbour inner right slot
        eraseIterDescend c iter key n child (delay + inner.delay) myleft myright
          (some ⟨slot, inner.slotkey.length⟩) st
      match ← searchChildren inner.slotkey key' descend (inner.slotkey.length + 1 - slot) slot with
      | none => some none
      | some (slot, found, st) => do
          let r ← eraseInner c inner delay left right place slot found st
          some (some r)

/-! ## §4 — the tree -/

/-- The leaf at an address. -/
def leafAt : (n : Nat) → Node K n → Nat → Option (LeafNode K)
  | 0, leaf, a => if leaf.addr = a then some leaf else none
  | n + 1, inner, a => inner.childid.findSome? fun child => leafAt n child a

/-- `*it` and `it.key()`. -/
def Iter.deref {n : Nat} (root : Node K n) (iter : Iter) : Option K := do
  let leaf ← leafAt n root iter.currLeaf
  leaf.keys[iter.currSlot]?

/-- `erase`: a root that is left without slots is freed, and its only child takes its place. The delay of an
item is not negative when it is cast. -/
def Tree.erase (c : Traits) (t : Tree K) (iter : Iter) : Option ((Bool × Nat) × Tree K) :=
  match t.root with
  | none => some ((false, 0), t)
  | some ⟨n, root⟩ => do
      match ← eraseIterDescend c iter (iter.deref root) n root 0 none none none t.store with
      | none => some ((false, 0), t)
      | some (r, st) =>
          let st := { st with size := st.size - 1 }
          match n, r with
          | 0, r =>
              if r.fix = .root then
                let links := { st.links with head := none, tail := none }
                some ((true, r.delay.toNat), ⟨none, { freeNode 0 st with links := links }⟩)
              else some ((true, r.delay.toNat), ⟨some ⟨0, r.node⟩, st⟩)
          | n + 1, r =>
              let inner : InnerNode K (Node K n) := r.node
              if r.fix = .root then do
                let child ← inner.childid.head?
                some ((true, r.delay.toNat), ⟨some ⟨n, addDelay n child inner.delay⟩, freeNode (n + 1) st⟩)
              else some ((true, r.delay.toNat), ⟨some ⟨n + 1, inner⟩, st⟩)

/-- The first loop of `erase_val`: the items that are passed are counted and delayed. -/
def passDescend (c : Traits) (v : K) : (n : Nat) → Node K n → Option (Node K n × Nat × Iter)
  | 0, (leaf : LeafNode K) => do
      let slot ← findLower c.binsearchLeaf leaf.keys v
      let leaf : LeafNode K := { leaf with
        slots := (leaf.slots.take slot).map (plus 1) ++ leaf.slots.drop slot }
      some (leaf, slot, ⟨leaf.addr, slot⟩)
  | n + 1, inner => do
      let slot ← findLower c.binsearchInner inner.slotkey v
      let child ← inner.childid[slot]?
      let (child, rank, iter) ← passDescend c v n child
      let passed := inner.childid.take slot
      let inner : InnerNode K (Node K n) := { inner with
        childid := passed.map (addDelay n · 1) ++ child :: inner.childid.drop (slot + 1) }
      some (inner, (passed.map (getSubtreeSize n)).sum + rank, iter)

/-- `++it`. -/
def Iter.succ {n : Nat} (root : Node K n) (next : Nat → Option Nat) (iter : Iter) : Option Iter := do
  let leaf ← leafAt n root iter.currLeaf
  if iter.currSlot + 1 < leaf.slots.length then some ⟨iter.currLeaf, iter.currSlot + 1⟩
  else
    match next iter.currLeaf with
    | some leaf => some ⟨leaf, 0⟩
    | none => some ⟨iter.currLeaf, leaf.slots.length⟩

/-- The second loop of `erase_val`, as long as there are items to look at. -/
def seek {n : Nat} (root : Node K n) (next : Nat → Option Nat) (v : K) : (turns : Nat) → Iter → Option Iter
  | 0, _ => none
  | turns + 1, iter => do
      let key ← iter.deref root
      if key = v then some iter
      else seek root next v turns (← iter.succ root next)

/-- `erase_val`. -/
def Tree.eraseVal (c : Traits) (t : Tree K) (v : K) : Option ((Bool × Nat × Nat) × Tree K) :=
  match t.root with
  | none => some ((false, 0, 0), t)
  | some ⟨n, root⟩ => do
      let (root, rank, iter) ← passDescend c v n root
      let iter ← seek root t.store.links.next v t.store.size iter
      let ((success, delay), t) ← Tree.erase c ⟨some ⟨n, root⟩, t.store⟩ iter
      some ((success, rank, delay), t)

/-- `get_rank`, from a node down. -/
def rankDescend (c : Traits) (key : K) : (n : Nat) → Node K n → Option Nat
  | 0, (leaf : LeafNode K) => findLower c.binsearchLeaf leaf.keys key
  | n + 1, inner => do
      let slot ← findLower c.binsearchInner inner.slotkey key
      let child ← inner.childid[slot]?
      let rank ← rankDescend c key n child
      some (((inner.childid.take slot).map (getSubtreeSize n)).sum + rank)

/-- `get_rank`. -/
def Tree.getRank (c : Traits) (t : Tree K) (key : K) : Option Nat :=
  match t.root with
  | none => some 0
  | some ⟨n, root⟩ => rankDescend c key n root

/-- `increase_global_delay`. -/
def Tree.increaseGlobalDelay (t : Tree K) : Tree K :=
  { t with root := t.root.map fun root => ⟨root.1, addDelay root.1 root.2 1⟩ }

end RelaxedConcurrentFifo.ReplayTree
