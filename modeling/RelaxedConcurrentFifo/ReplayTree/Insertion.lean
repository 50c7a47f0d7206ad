/-
# RelaxedConcurrentFifo.ReplayTree.Insertion — `insert`

The descent goes to the child that `find_lower` names. A leaf that is full is split in two before the item
goes into one of them, and so is an inner node that is full before it takes the new child of a child.
-/
import RelaxedConcurrentFifo.ReplayTree.Nodes

namespace RelaxedConcurrentFifo.ReplayTree

open RelaxedConcurrentFifo.Lib.LinkedLists

variable {K : Type}

/-! ## §1 — leaves -/

/-- What an insertion hands up: the node, and a new node behind it with the key that separates them. -/
structure Inserted (K : Type) (n : Nat) where
  node : Node K n
  split : Option (K × Node K n)
  iter : Iter
  store : Store

/-- `split_leaf_node`. -/
def splitLeafNode (leaf : LeafNode K) (st : Store) :
    Option (LeafNode K × K × LeafNode K × Store) := do
  let mid := leaf.slots.length / 2
  let left := { leaf with slots := leaf.slots.take mid }
  let newleaf : LeafNode K := ⟨st.fresh, 0, leaf.slots.drop mid⟩
  let newkey ← left.keys.getLast?
  some (left, newkey, newleaf,
    { st with
      leaves := st.leaves + 1, links := st.links.insertAfter leaf.addr st.fresh, fresh := st.fresh + 1 })

/-- The slots from `slot` on are moved up, and the item is put there. -/
def LeafNode.insertSlot (c : Traits) (leaf : LeafNode K) (slot : Nat) (item : K × Int) :
    Option (LeafNode K) :=
  if slot ≤ leaf.slots.length ∧ leaf.slots.length < c.leafSlots then
    some { leaf with slots := leaf.slots.insertIdx slot item }
  else none

variable [LinearOrder K]

/-- `insert_descend` at a leaf. -/
def insertLeaf (c : Traits) (key : K) (leaf : LeafNode K) (delay : Int) (st : Store) :
    Option (Inserted K 0) := do
  let slot ← findLower c.binsearchLeaf leaf.keys key
  if leaf.slots.length = c.leafSlots then
    let (left, splitkey, right, st) ← splitLeafNode leaf st
    if left.slots.length ≤ slot then
      let slot := slot - left.slots.length
      let right ← right.insertSlot c slot (key, -delay)
      some ⟨left, some (splitkey, right), ⟨right.addr, slot⟩, st⟩
    else
      let left ← left.insertSlot c slot (key, -delay)
      -- at the last slot of the old node, the item is what separates the two
      let splitkey := if slot = left.slots.length - 1 then key else splitkey
      some ⟨left, some (splitkey, right), ⟨left.addr, slot⟩, st⟩
  else
    let leaf ← leaf.insertSlot c slot (key, -delay)
    some ⟨leaf, none, ⟨leaf.addr, slot⟩, st⟩

/-! ## §2 — inner nodes -/

section Inner

omit [LinearOrder K]

variable {n : Nat}

/-- `split_inner_node`. -/
def splitInnerNode (inner : InnerNode K (Node K n)) (addslot : Nat) :
    Option (InnerNode K (Node K n) × K × InnerNode K (Node K n)) := do
  let half := inner.slotkey.length / 2
  let mid := if addslot ≤ half ∧ half > inner.slotkey.length - (half + 1) then half - 1 else half
  let newinner := { inner with
    slotkey := inner.slotkey.drop (mid + 1), childid := inner.childid.drop (mid + 1) }
  let left := { inner with slotkey := inner.slotkey.take mid, childid := inner.childid.take (mid + 1) }
  let newkey ← inner.slotkey[mid]?
  some (updateSubtreeSize left, newkey, updateSubtreeSize newinner)

/-- Keys and children from `slot` on are moved up, and the new ones are put there. -/
def InnerNode.insertSlot (c : Traits) (inner : InnerNode K (Node K n)) (slot : Nat) (newkey : K)
    (newchild : Node K n) : Option (InnerNode K (Node K n)) :=
  if slot ≤ inner.slotkey.length ∧ inner.slotkey.length < c.innerSlots then
    some { inner with
      slotkey := inner.slotkey.insertIdx slot newkey, childid := inner.childid.insertIdx (slot + 1) newchild }
  else none

/-- `insert_descend` at an inner node, once the child at `slot` was split. -/
def insertChild (c : Traits) (inner : InnerNode K (Node K n)) (slot : Nat) (newkey : K)
    (newchild : Node K n) (st : Store) :
    Option (InnerNode K (Node K n) × Option (K × InnerNode K (Node K n)) × Store) :=
  if inner.slotkey.length = c.innerSlots then do
    let (left, splitkey, right) ← splitInnerNode inner slot
    let st := { st with innerNodes := st.innerNodes + 1 }
    if slot = left.slotkey.length + 1 ∧ left.slotkey.length < right.slotkey.length then
      -- the split is where the new child belongs, and its key becomes the split key
      let first ← right.childid.head?
      if left.slotkey.length < c.innerSlots then
        let left := { left with slotkey := left.slotkey ++ [splitkey], childid := left.childid ++ [first] }
        let right := { right with childid := newchild :: right.childid.tail }
        some (updateSubtreeSize left, some (newkey, updateSubtreeSize right), st)
      else none
    else if slot ≥ left.slotkey.length + 1 then
      let right ← right.insertSlot c (slot - (left.slotkey.length + 1)) newkey newchild
      some (left, some (splitkey, updateSubtreeSize right), st)
    else
      let left ← left.insertSlot c slot newkey newchild
      some (updateSubtreeSize left, some (splitkey, right), st)
  else do
    let inner ← inner.insertSlot c slot newkey newchild
    some (updateSubtreeSize inner, none, st)

end Inner

/-- `insert_descend`. -/
def insertDescend (c : Traits) (key : K) : (n : Nat) → Node K n → Int → Store → Option (Inserted K n)
  | 0, leaf, delay, st => insertLeaf c key leaf delay st
  | n + 1, inner, delay, st => do
      let slot ← findLower c.binsearchInner inner.slotkey key
      let child ← inner.childid[slot]?
      let r ← insertDescend c key n child (delay + inner.delay) st
      let inner : InnerNode K (Node K n) := { inner with childid := inner.childid.set slot r.node }
      match r.split with
      | none => some ⟨updateSubtreeSize inner, none, r.iter, r.store⟩
      | some (newkey, newchild) =>
          let (left, split, st) ← insertChild c inner slot newkey newchild r.store
          some ⟨left, split, r.iter, st⟩

/-! ## §3 — the tree -/

/-- The root; an empty tree gets a leaf. -/
def Tree.rootOrLeaf (t : Tree K) : ((n : Nat) × Node K n) × Store :=
  match t.root with
  | some root => (root, t.store)
  | none =>
      let a := t.store.fresh
      (⟨0, (⟨a, 0, []⟩ : LeafNode K)⟩,
        { t.store with
          leaves := t.store.leaves + 1
          links := ⟨some a, some a, Function.update t.store.links.next a none,
            Function.update t.store.links.prev a none⟩
          fresh := a + 1 })

/-- `insert`, which is `insert_start`. -/
def Tree.insert (c : Traits) (t : Tree K) (key : K) : Option (Iter × Tree K) := do
  let (⟨n, root⟩, st) := t.rootOrLeaf
  let r ← insertDescend c key n root 0 st
  match r.split with
  | none => some (r.iter, ⟨some ⟨n, r.node⟩, { r.store with size := r.store.size + 1 }⟩)
  | some (newkey, newchild) =>
      let newroot : InnerNode K (Node K n) := ⟨level n r.node + 1, 0, 0, [newkey], [r.node, newchild]⟩
      some (r.iter, ⟨some ⟨n + 1, updateSubtreeSize newroot⟩,
        { r.store with size := r.store.size + 1, innerNodes := r.store.innerNodes + 1 }⟩)

end RelaxedConcurrentFifo.ReplayTree
