/-
# RelaxedConcurrentFifo.ReplayTree.Items — what a node stands for, and what holds of it

`items` is the list of the values below a node with their delays, as far as the node itself accounts for
them. `Inside` is the invariant of a node apart from how many slots it uses itself; what is below it is
`Filled`. It says nothing about the order of the items: that is one statement about `items`, from which
the order in each node follows.
-/
import RelaxedConcurrentFifo.Lib.SortedBlocks
import RelaxedConcurrentFifo.ReplayTree.Nodes

namespace RelaxedConcurrentFifo.ReplayTree

open RelaxedConcurrentFifo.Lib.KeyedLists
open RelaxedConcurrentFifo.Lib.LinkedLists
open RelaxedConcurrentFifo.Lib.SortedBlocks

variable {K : Type} {c : Traits} {n : Nat}

/-! ## §1 — items, leaves and inner nodes -/

/-- The values below a node, with the delays that the node and what is below it give them. -/
def items : (n : Nat) → Node K n → List (K × Int)
  | 0, leaf => leaf.slots
  | n + 1, inner => (inner.childid.flatMap (items n)).map (plus inner.delay)

/-- The addresses of the leaves below a node. -/
def leaves : (n : Nat) → Node K n → List Nat
  | 0, leaf => [leaf.addr]
  | n + 1, inner => inner.childid.flatMap (leaves n)

/-- How many inner nodes there are, the node itself included. -/
def innerCount : (n : Nat) → Node K n → Nat
  | 0, _ => 0
  | n + 1, inner => (inner.childid.map (innerCount n)).sum + 1

/-- `slotmin` of the leaves, or of the inner nodes. -/
def Traits.slotmin (c : Traits) : Nat → Nat
  | 0 => c.leafSlotmin
  | _ + 1 => c.innerSlotmin

/-- `slotmax`. -/
def Traits.slotmax (c : Traits) : Nat → Nat
  | 0 => c.leafSlots
  | _ + 1 => c.innerSlots

theorem Traits.four_le_slotmin (c : Traits) (n : Nat) : 4 ≤ c.slotmin n := by
  have hleaf := c.leafSlots_ge
  have hinner := c.innerSlots_ge
  cases n with
  | zero =>
      show 4 ≤ c.leafSlots / 2
      omega
  | succ n =>
      show 4 ≤ c.innerSlots / 2
      omega

theorem Traits.two_slotmin_le (c : Traits) (n : Nat) : 2 * c.slotmin n ≤ c.slotmax n := by
  cases n with
  | zero =>
      show 2 * (c.leafSlots / 2) ≤ c.leafSlots
      omega
  | succ n =>
      show 2 * (c.innerSlots / 2) ≤ c.innerSlots
      omega

/-! ## §2 — the invariant -/

/-- A node that is not the root uses enough slots, and no more than there are. -/
def Filled (c : Traits) (n : Nat) (t : Node K n) : Prop :=
  c.slotmin n ≤ slotuse n t ∧ slotuse n t ≤ c.slotmax n

/-- An inner node with children that are `Good`. -/
structure InnerOk {n : Nat} (Good : Node K n → Prop) (inner : InnerNode K (Node K n)) : Prop where
  level : inner.level = n + 1
  subtreeSize : inner.subtreeSize = (inner.childid.map (getSubtreeSize n)).sum
  separated : Separated (blockLast (items n)) inner.slotkey inner.childid
  children : ∀ child ∈ inner.childid, Good child

/-- The invariant of a node, apart from its own number of slots. -/
def Inside (c : Traits) : (n : Nat) → Node K n → Prop
  | 0, leaf => leaf.level = 0
  | n + 1, inner => InnerOk (fun child => Inside c n child ∧ Filled c n child) inner

/-- What the store knows of the leaves `ls`, and of `inner` many inner nodes. -/
structure StoreOk (st : Store) (ls : List Nat) (inner : Nat) : Prop where
  linked : Linked st.links ls
  fresh : ∀ a ∈ ls, a < st.fresh
  leaves : st.leaves = ls.length
  innerNodes : st.innerNodes = inner

/-! ## §3 — delays -/

@[simp] theorem fst_plus (d : Int) (p : K × Int) : (plus d p).1 = p.1 := rfl

theorem plus_plus (d e : Int) (l : List (K × Int)) : (l.map (plus d)).map (plus e) = l.map (plus (d + e)) := by
  simp [plus, Function.comp_def, Int.add_assoc]

@[simp] theorem map_plus_zero (l : List (K × Int)) : l.map (plus 0) = l := by
  have hid : plus (K := K) 0 = id := by
    funext p
    simp [plus]
  rw [hid, List.map_id]

theorem flatMap_map_plus {α : Type} (l : List α) (f : α → List (K × Int)) (d : Int) :
    l.flatMap (fun x => (f x).map (plus d)) = (l.flatMap f).map (plus d) := by
  rw [List.map_flatMap]

@[simp] theorem items_addDelay (n : Nat) (t : Node K n) (d : Int) :
    items n (addDelay n t d) = (items n t).map (plus d) := by
  cases n with
  | zero => rfl
  | succ n => exact (plus_plus t.delay d _).symm

@[simp] theorem slotuse_addDelay (n : Nat) (t : Node K n) (d : Int) :
    slotuse n (addDelay n t d) = slotuse n t := by
  cases n with
  | zero => exact List.length_map _
  | succ n => rfl

@[simp] theorem leaves_addDelay (n : Nat) (t : Node K n) (d : Int) :
    leaves n (addDelay n t d) = leaves n t := by
  cases n <;> rfl

@[simp] theorem innerCount_addDelay (n : Nat) (t : Node K n) (d : Int) :
    innerCount n (addDelay n t d) = innerCount n t := by
  cases n <;> rfl

@[simp] theorem getSubtreeSize_addDelay (n : Nat) (t : Node K n) (d : Int) :
    getSubtreeSize n (addDelay n t d) = getSubtreeSize n t := by
  cases n with
  | zero => exact List.length_map _
  | succ n => rfl

theorem Inside.addDelay {t : Node K n} (h : Inside c n t) (d : Int) : Inside c n (addDelay n t d) := by
  cases n with
  | zero => exact h
  | succ n => exact ⟨h.level, h.subtreeSize, h.separated, h.children⟩

theorem Filled.addDelay {t : Node K n} (h : Filled c n t) (d : Int) : Filled c n (addDelay n t d) := by
  unfold Filled
  rw [slotuse_addDelay]
  exact h

/-! ## §4 — sizes -/

theorem Inside.level_eq {t : Node K n} (h : Inside c n t) : level n t = n := by
  cases n with
  | zero => exact h
  | succ n => exact h.level

/-- **`subtree_size` is the number of items.** -/
theorem Inside.getSubtreeSize_eq {t : Node K n} (h : Inside c n t) :
    getSubtreeSize n t = (items n t).length := by
  induction n with
  | zero => rfl
  | succ n ih =>
      show t.subtreeSize = ((t.childid.flatMap (items n)).map (plus t.delay)).length
      rw [h.subtreeSize, List.length_map, List.length_flatMap]
      congr 1
      apply List.map_congr_left
      intro child hchild
      exact ih (h.children child hchild).1

/-- A node that uses slots has items. -/
theorem Inside.items_ne_nil {t : Node K n} (h : Inside c n t) (huse : 1 ≤ slotuse n t) :
    items n t ≠ [] := by
  induction n with
  | zero => exact List.ne_nil_of_length_pos huse
  | succ n ih =>
      have hlength : t.childid.length = t.slotkey.length + 1 := h.separated.length_eq
      obtain ⟨child, children, hchildren⟩ :=
        List.exists_cons_of_ne_nil (List.ne_nil_of_length_eq_add_one hlength)
      obtain ⟨hchild, hfilled⟩ := h.children child (by simp [hchildren])
      have hpos := c.four_le_slotmin n
      have hmin : c.slotmin n ≤ slotuse n child := hfilled.1
      have hitems := ih hchild (by omega)
      intro hnil
      have hflat : t.childid.flatMap (items n) = [] := List.map_eq_nil_iff.mp hnil
      rw [hchildren, List.flatMap_cons] at hflat
      exact hitems (List.append_eq_nil_iff.mp hflat).1

theorem Filled.items_ne_nil {t : Node K n} (h : Filled c n t) (hinside : Inside c n t) :
    items n t ≠ [] := by
  have hpos := c.four_le_slotmin n
  have hmin := h.1
  exact hinside.items_ne_nil (by omega)

@[simp] theorem updateSubtreeSize_slotkey (inner : InnerNode K (Node K n)) :
    (updateSubtreeSize inner).slotkey = inner.slotkey := rfl

@[simp] theorem updateSubtreeSize_childid (inner : InnerNode K (Node K n)) :
    (updateSubtreeSize inner).childid = inner.childid := rfl

@[simp] theorem updateSubtreeSize_delay (inner : InnerNode K (Node K n)) :
    (updateSubtreeSize inner).delay = inner.delay := rfl

@[simp] theorem updateSubtreeSize_level (inner : InnerNode K (Node K n)) :
    (updateSubtreeSize inner).level = inner.level := rfl

/-- A node whose size has just been updated. -/
theorem innerOk_updateSubtreeSize {Good : Node K n → Prop} {inner : InnerNode K (Node K n)}
    (hlevel : inner.level = n + 1) (hseparated : Separated (blockLast (items n)) inner.slotkey inner.childid)
    (hchildren : ∀ child ∈ inner.childid, Good child) : InnerOk Good (updateSubtreeSize inner) :=
  ⟨hlevel, rfl, hseparated, hchildren⟩

/-! ## §5 — a node with other children -/

/-- An inner node that has been given other keys and children. -/
def withChildren (inner : InnerNode K (Node K n)) (keys : List K) (children : List (Node K n)) :
    InnerNode K (Node K n) :=
  updateSubtreeSize { inner with slotkey := keys, childid := children }

section WithChildren

variable {inner : InnerNode K (Node K n)} {keys : List K} {children : List (Node K n)}

theorem items_withChildren :
    items (n + 1) (withChildren inner keys children) =
      (children.flatMap (items n)).map (plus inner.delay) := rfl

theorem inside_withChildren (hlevel : inner.level = n + 1)
    (hseparated : Separated (blockLast (items n)) keys children)
    (hchildren : ∀ child ∈ children, Inside c n child ∧ Filled c n child) :
    Inside c (n + 1) (withChildren inner keys children) :=
  innerOk_updateSubtreeSize hlevel hseparated hchildren

/-- The last key below a node is that of its last child. -/
theorem blockLast_inner (inner : InnerNode K (Node K n))
    (hchildren : ∀ child ∈ inner.childid, Inside c n child ∧ Filled c n child) :
    blockLast (items (n + 1)) inner = inner.childid.getLast?.bind (blockLast (items n)) := by
  have hne : ∀ child ∈ inner.childid, items n child ≠ [] := fun child hmem =>
    (hchildren child hmem).2.items_ne_nil (hchildren child hmem).1
  rw [← lastKey_flatMap hne]
  exact lastKey_map (fst_plus inner.delay) _

end WithChildren

/-! ## §6 — the way to a key -/

/-- The search in a leaf ends where the keys below `key` do. -/
theorem findLower_leaf [LinearOrder K] {leaf : LeafNode K} (hsorted : SortedKeys leaf.slots) (key : K) :
    findLower c.binsearchLeaf leaf.keys key = some (below key leaf.slots).length := by
  have hcut : leaf.keys = (below key leaf.slots).map Prod.fst ++ (notBelow key leaf.slots).map Prod.fst := by
    rw [← List.map_append, below_append_notBelow]
    rfl
  rw [hcut, findLower_append, List.length_map]
  · intro k hk
    obtain ⟨p, hp, rfl⟩ := List.mem_map.mp hk
    exact lt_of_mem_below hp
  · intro k hk
    obtain ⟨p, hp, rfl⟩ := List.mem_map.mp hk
    exact hsorted.le_of_mem_notBelow hp

/-- Where `v` belongs below an inner node: the child, and what is on both sides of it. -/
structure Routed [LinearOrder K] (c : Traits) (inner : InnerNode K (Node K n)) (v : K)
    (keys keys' : List K) (before : List (Node K n)) (child : Node K n) (after : List (Node K n)) : Prop where
  slotkey : inner.slotkey = keys ++ keys'
  childid : inner.childid = before ++ child :: after
  length : before.length = keys.length
  find : findLower c.binsearchInner inner.slotkey v = some keys.length
  lasts : before.map (blockLast (items n)) = keys.map some
  separated : Separated (blockLast (items n)) keys' (child :: after)
  keys_le : ∀ k ∈ keys', v ≤ k
  lt : ∀ p ∈ before.flatMap (items n), p.1 < v
  le : ∀ p ∈ after.flatMap (items n), v ≤ p.1
  sorted : SortedKeys (items n child)

section Routes

variable [LinearOrder K] {inner : InnerNode K (Node K n)} {v : K} {keys keys' : List K}
  {before after : List (Node K n)} {child : Node K n}

theorem sorted_children (hsorted : SortedKeys (items (n + 1) inner)) :
    SortedKeys (inner.childid.flatMap (items n)) := (sortedKeys_map (fst_plus inner.delay)).mp hsorted

/-- **The descent finds the child to which a key belongs.** -/
theorem exists_routed {Good : Node K n → Prop} (h : InnerOk Good inner)
    (hsorted : SortedKeys (items (n + 1) inner)) (v : K) :
    ∃ keys keys' before child after, Routed c inner v keys keys' before child after := by
  have hchildren := sorted_children hsorted
  have hpairwise := pairwise_of_separated h.separated hchildren
  have hcut : inner.slotkey.takeWhile (· < v) ++ inner.slotkey.dropWhile (· < v) = inner.slotkey :=
    List.takeWhile_append_dropWhile
  have hkeys : ∀ k ∈ inner.slotkey.takeWhile (· < v), k < v := fun k hk => by
    simpa using List.mem_takeWhile_imp hk
  have hkeys' : ∀ k ∈ inner.slotkey.dropWhile (· < v), v ≤ k := by
    intro k hk
    rw [← hcut] at hpairwise
    obtain ⟨-, htail, -⟩ := List.pairwise_append.mp hpairwise
    cases hdrop : inner.slotkey.dropWhile (· < v) with
    | nil =>
        rw [hdrop] at hk
        cases hk
    | cons k₀ rest =>
        have hfirst : v ≤ k₀ := by
          have hnot := List.head_dropWhile_not (fun k : K => decide (k < v)) (l := inner.slotkey) (by simp [hdrop])
          simpa [hdrop] using hnot
        rw [hdrop] at hk htail
        rcases List.mem_cons.mp hk with rfl | hk
        · exact hfirst
        · exact hfirst.trans ((List.pairwise_cons.mp htail).1 k hk)
  generalize inner.slotkey.takeWhile (· < v) = keys at hcut hkeys
  generalize inner.slotkey.dropWhile (· < v) = keys' at hcut hkeys'
  obtain ⟨before, child, after, hchildid, hlength, hbefore, hafter⟩ :=
    Separated.focus (hcut ▸ h.separated : Separated (blockLast (items n)) (keys ++ keys') inner.childid)
  obtain ⟨hlt, hle, hchild⟩ := route hbefore hafter hkeys hkeys' (hchildid ▸ hchildren)
  refine ⟨keys, keys', before, child, after, hcut.symm, hchildid, hlength, ?_, hbefore, hafter, hkeys', hlt,
    hle, hchild⟩
  rw [← hcut, findLower_append _ hkeys hkeys']

namespace Routed

theorem getElem? (h : Routed c inner v keys keys' before child after) :
    inner.childid[keys.length]? = some child := by
  rw [h.childid, ← h.length, List.getElem?_append_right (Nat.le_refl _), Nat.sub_self, List.getElem?_cons_zero]

theorem set (h : Routed c inner v keys keys' before child after) (t : Node K n) :
    inner.childid.set keys.length t = before ++ t :: after := by
  rw [h.childid, ← h.length, List.set_append_right _ _ (Nat.le_refl _), Nat.sub_self, List.set_cons_zero]

theorem slot_le (h : Routed c inner v keys keys' before child after) :
    keys.length ≤ inner.slotkey.length := by
  rw [h.slotkey, List.length_append]
  exact Nat.le_add_right _ _

theorem mem (h : Routed c inner v keys keys' before child after) : child ∈ inner.childid := by
  rw [h.childid]
  exact List.mem_append_right _ List.mem_cons_self

/-- The items below an inner node, around the child. -/
theorem items_eq (h : Routed c inner v keys keys' before child after) :
    inner.childid.flatMap (items n) =
      before.flatMap (items n) ++ items n child ++ after.flatMap (items n) := by
  rw [h.childid, List.flatMap_append, List.flatMap_cons, List.append_assoc]

end Routed

end Routes

/-! ## §7 — trees -/

/-- The values of a tree with their delays. -/
def Tree.contents (t : Tree K) : List (K × Int) := t.root.elim [] fun root => items root.1 root.2

/-- The addresses of the leaves of a tree. -/
def Tree.leafAddrs (t : Tree K) : List Nat := t.root.elim [] fun root => leaves root.1 root.2

/-- The number of inner nodes of a tree. -/
def Tree.innerNodes (t : Tree K) : Nat := t.root.elim 0 fun root => innerCount root.1 root.2

/-- The root is well formed, and uses a slot. -/
structure RootOk (c : Traits) (n : Nat) (root : Node K n) : Prop where
  inside : Inside c n root
  used : 1 ≤ slotuse n root
  fits : slotuse n root ≤ c.slotmax n

/-- **The invariant of a tree.** -/
structure TreeOk [LinearOrder K] (c : Traits) (t : Tree K) : Prop where
  root : ∀ root, t.root = some root → RootOk c root.1 root.2
  sorted : SortedKeys t.contents
  store : StoreOk t.store t.leafAddrs t.innerNodes
  size : t.store.size = t.contents.length

theorem treeOk_of_root [LinearOrder K] {root : Node K n} {st : Store} {l : List (K × Int)}
    (hroot : RootOk c n root) (hitems : items n root = l) (hsorted : SortedKeys l)
    (hstore : StoreOk st (leaves n root) (innerCount n root)) (hsize : st.size = l.length) :
    TreeOk c ⟨some ⟨n, root⟩, st⟩ := by
  subst hitems
  refine ⟨?_, hsorted, hstore, hsize⟩
  intro root' hroot'
  cases hroot'
  exact hroot

theorem treeOk_empty [LinearOrder K] (c : Traits) : TreeOk c (Tree.empty : Tree K) := by
  refine ⟨?_, List.Pairwise.nil, ⟨⟨List.nodup_nil, rfl, rfl⟩, ?_, rfl, rfl⟩, rfl⟩
  · intro root hroot
    cases hroot
  · intro a ha
    cases ha

end RelaxedConcurrentFifo.ReplayTree
