/-
# RelaxedConcurrentFifo.ReplayTree.Nodes — the nodes of `replay_tree.hpp`, and what they stand for

A leaf holds keys and their delays, an inner node holds children, a separator between each two of them,
the number of items below it, and a delay of its own. The delay of an item is the one in its leaf plus
those of the inner nodes on the path to it.

A node of level `n` is one whose children are nodes of level `n - 1`; `Node` says so in its type, next to
the field `level` that the code keeps. Leaves are known by their addresses, and the chain of leaves is a
doubly linked list of addresses.
-/
import RelaxedConcurrentFifo.Lib.LinkedLists
import Mathlib.Algebra.GroupWithZero.Nat
import Mathlib.Order.Lattice

namespace RelaxedConcurrentFifo.ReplayTree

open RelaxedConcurrentFifo.Lib.LinkedLists

/-! ## §1 — nodes -/

/-- `replay_tree_default_traits`: the capacities, and for which nodes `sizeof(*n) > binsearch_threshold`. -/
structure Traits where
  leafSlots : Nat
  innerSlots : Nat
  binsearchLeaf : Bool
  binsearchInner : Bool
  leafSlots_ge : 8 ≤ leafSlots
  innerSlots_ge : 8 ≤ innerSlots

/-- `leaf_slotmin`. -/
def Traits.leafSlotmin (c : Traits) : Nat := c.leafSlots / 2

/-- `inner_slotmin`. -/
def Traits.innerSlotmin (c : Traits) : Nat := c.innerSlots / 2

/-- `leaf_node`: of `slotdata` and `delays`, the first `slotuse` entries. -/
structure LeafNode (K : Type) where
  addr : Nat
  level : Nat
  slots : List (K × Int)

/-- `inner_node`: the first `slotuse` entries of `slotkey`, and one more of `childid`. -/
structure InnerNode (K C : Type) where
  level : Nat
  subtreeSize : Nat
  delay : Int
  slotkey : List K
  childid : List C

/-- A node whose leaves are `n` levels below it. -/
@[reducible] def Node (K : Type) : Nat → Type
  | 0 => LeafNode K
  | n + 1 => InnerNode K (Node K n)

/-- `ReplayTree::stats_`, the chain of the leaves with `head_leaf_` and `tail_leaf_`, and the address that
the next leaf will have. -/
structure Store where
  size : Nat
  leaves : Nat
  innerNodes : Nat
  links : Links Nat
  fresh : Nat

/-- `ReplayTree`: `root_` may be a `nullptr`. -/
structure Tree (K : Type) where
  root : Option ((n : Nat) × Node K n)
  store : Store

/-- The default constructor. -/
def Tree.empty {K : Type} : Tree K :=
  ⟨none, ⟨0, 0, 0, ⟨none, none, fun _ => none, fun _ => none⟩, 0⟩⟩

/-- A `TreeIterator`. -/
structure Iter where
  currLeaf : Nat
  currSlot : Nat
  deriving DecidableEq, Repr

variable {K : Type}

/-- `leaf->key(s)` for the used slots. -/
def LeafNode.keys (leaf : LeafNode K) : List K := leaf.slots.map Prod.fst

/-- `n->slotuse`. -/
def slotuse : (n : Nat) → Node K n → Nat
  | 0, leaf => leaf.slots.length
  | _ + 1, inner => inner.slotkey.length

/-- `n->level`. -/
def level : (n : Nat) → Node K n → Nat
  | 0, leaf => leaf.level
  | _ + 1, inner => inner.level

/-- `get_subtree_size`. -/
def getSubtreeSize : (n : Nat) → Node K n → Nat
  | 0, leaf => leaf.slots.length
  | _ + 1, inner => inner.subtreeSize

/-- `update_subtree_size`. -/
def updateSubtreeSize {n : Nat} (inner : InnerNode K (Node K n)) : InnerNode K (Node K n) :=
  { inner with subtreeSize := (inner.childid.map (getSubtreeSize n)).sum }

/-- The delay of a slot plus `d`. -/
def plus (d : Int) (p : K × Int) : K × Int := (p.1, p.2 + d)

/-- `add_delay`. -/
def addDelay : (n : Nat) → Node K n → Int → Node K n
  | 0, leaf, d => { leaf with slots := leaf.slots.map (plus d) }
  | _ + 1, inner, d => { inner with delay := inner.delay + d }

/-! ## §2 — `find_lower` -/

section Search

variable [LinearOrder K]

/-- The linear search. -/
def linearSearch (key : K) : List K → Nat
  | [] => 0
  | k :: keys => if k < key then linearSearch key keys + 1 else 0

/-- The binary search; the range is halved in each turn. -/
def binarySearch (keys : List K) (key : K) : (turns lo hi : Nat) → Option Nat
  | 0, lo, _ => some lo
  | turns + 1, lo, hi =>
      if lo < hi then do
        let mid := (lo + hi) / 2
        let k ← keys[mid]?
        if key ≤ k then binarySearch keys key turns lo mid else binarySearch keys key turns (mid + 1) hi
      else some lo

/-- `find_lower`; a slot that is read is one in use. -/
def findLower (binsearch : Bool) (keys : List K) (key : K) : Option Nat :=
  if binsearch then
    if keys.length = 0 then some 0 else binarySearch keys key keys.length 0 keys.length
  else some (linearSearch key keys)

theorem linearSearch_append {key : K} {A B : List K} (hA : ∀ k ∈ A, k < key) (hB : ∀ k ∈ B, key ≤ k) :
    linearSearch key (A ++ B) = A.length := by
  induction A with
  | nil =>
      cases B with
      | nil => rfl
      | cons k B => simp [linearSearch, not_lt.mpr (hB k List.mem_cons_self)]
  | cons k A ih =>
      obtain ⟨hk, hA⟩ := List.forall_mem_cons.mp hA
      simp [linearSearch, hk, ih hA]

/-- The range always holds the place that is looked for. -/
theorem binarySearch_eq {key : K} {keys : List K} {place : Nat}
    (hplace : ∀ i k, keys[i]? = some k → (k < key ↔ i < place)) (turns : Nat) :
    ∀ lo hi, lo ≤ place → place ≤ hi → hi ≤ keys.length → hi - lo ≤ turns →
      binarySearch keys key turns lo hi = some place := by
  induction turns with
  | zero =>
      intro lo hi hlo hhi _ hturns
      rw [binarySearch]
      congr 1
      omega
  | succ turns ih =>
      intro lo hi hlo hhi hlen hturns
      rw [binarySearch]
      split
      · rename_i hlt
        have hmid : (lo + hi) / 2 < keys.length := by omega
        have hget := List.getElem?_eq_getElem hmid
        have hside := hplace _ _ hget
        simp only [hget, Option.bind_eq_bind, Option.bind_some]
        split
        · rename_i hle
          have : ¬ (lo + hi) / 2 < place := fun h => absurd (hside.mpr h) (not_lt.mpr hle)
          exact ih lo _ hlo (by omega) (by omega) (by omega)
        · rename_i hnot
          have : (lo + hi) / 2 < place := hside.mp (not_le.mp hnot)
          exact ih _ hi (by omega) hhi hlen (by omega)
      · congr 1
        omega

/-- **Both searches find where the keys below `key` end.** -/
theorem findLower_append (binsearch : Bool) {key : K} {A B : List K} (hA : ∀ k ∈ A, k < key)
    (hB : ∀ k ∈ B, key ≤ k) : findLower binsearch (A ++ B) key = some A.length := by
  unfold findLower
  split
  · split
    · rename_i hnil
      rw [List.length_append] at hnil
      congr 1
      omega
    · refine binarySearch_eq (fun i k hk => ?_) _ 0 _ (Nat.zero_le _) ?_ (Nat.le_refl _) (by omega)
      · by_cases hi : i < A.length
        · rw [List.getElem?_append_left hi] at hk
          exact iff_of_true (hA k (List.mem_of_getElem? hk)) hi
        · rw [List.getElem?_append_right (Nat.le_of_not_lt hi)] at hk
          exact iff_of_false (not_lt.mpr (hB k (List.mem_of_getElem? hk))) hi
      · simp
  · rw [linearSearch_append hA hB]

end Search

end RelaxedConcurrentFifo.ReplayTree
