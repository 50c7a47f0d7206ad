/-
# RelaxedConcurrentFifo.ReplayTree.Invariant — the representation invariant, node by node

`RepInv` says of every node of a tree what `verify_node` looks at, and of the chain of the leaves what
`verify_leaflinks` does, and that `subtree_size` is right. It holds after any operations, and the model of
an operation returns a result only if it reads and writes inside the arrays of the nodes.
-/
import RelaxedConcurrentFifo.ReplayTree.Refinement

namespace RelaxedConcurrentFifo.ReplayTree

open RelaxedConcurrentFifo.Lib.KeyedLists
open RelaxedConcurrentFifo.Lib.LinkedLists
open RelaxedConcurrentFifo.Lib.SortedBlocks

variable {K : Type} {c : Traits} {n : Nat}

/-! ## §1 — the nodes of a tree -/

/-- The nodes of the tree with this root. -/
inductive NodeOf (root : (n : Nat) × Node K n) : (n : Nat) × Node K n → Prop
  | root : NodeOf root root
  | child {n : Nat} {inner : InnerNode K (Node K n)} {child : Node K n} (h : NodeOf root ⟨n + 1, inner⟩)
      (hchild : child ∈ inner.childid) : NodeOf root ⟨n, child⟩

/-- The leaves below a node, from left to right. -/
def leafNodes : (n : Nat) → Node K n → List (LeafNode K)
  | 0, leaf => [leaf]
  | n + 1, inner => inner.childid.flatMap (leafNodes n)

theorem map_addr_leafNodes (n : Nat) (t : Node K n) : (leafNodes n t).map LeafNode.addr = leaves n t := by
  induction n with
  | zero => rfl
  | succ n ih =>
      show (t.childid.flatMap (leafNodes n)).map LeafNode.addr = t.childid.flatMap (leaves n)
      rw [List.map_flatMap]
      congr 1
      funext child
      exact ih child

theorem flatMap_keys_leafNodes (n : Nat) (t : Node K n) :
    (leafNodes n t).flatMap LeafNode.keys = (items n t).map Prod.fst := by
  induction n with
  | zero => exact List.flatMap_singleton _ _
  | succ n ih =>
      show (t.childid.flatMap (leafNodes n)).flatMap LeafNode.keys =
        ((t.childid.flatMap (items n)).map (plus t.delay)).map Prod.fst
      rw [List.map_map, List.flatMap_assoc, List.map_flatMap]
      congr 1
      funext child
      exact ih child

/-- The list of the leaves is complete. -/
theorem mem_leafNodes {root : (n : Nat) × Node K n} {leaf : LeafNode K} :
    leaf ∈ leafNodes root.1 root.2 ↔ NodeOf root ⟨0, leaf⟩ := by
  constructor
  · have hbelow : ∀ (n : Nat) (t : Node K n), NodeOf root ⟨n, t⟩ → leaf ∈ leafNodes n t →
        NodeOf root ⟨0, leaf⟩ := by
      intro n
      induction n with
      | zero =>
          intro t ht hmem
          obtain rfl := List.mem_singleton.mp hmem
          exact ht
      | succ n ih =>
          intro t ht hmem
          obtain ⟨child, hchild, hmem⟩ := List.mem_flatMap.mp hmem
          exact ih child (.child ht hchild) hmem
    exact hbelow root.1 root.2 .root
  · intro h
    have habove : ∀ node, NodeOf root node →
        ∀ leaf ∈ leafNodes node.1 node.2, leaf ∈ leafNodes root.1 root.2 := by
      intro node hnode
      induction hnode with
      | root => exact fun _ hmem => hmem
      | child _ hchild ih => exact fun leaf hmem => ih leaf (List.mem_flatMap.mpr ⟨_, hchild, hmem⟩)
    exact habove _ h leaf (List.mem_singleton_self leaf)

/-! ## §2 — the invariant -/

variable [LinearOrder K]

/-- **The representation invariant.** -/
structure RepInv (c : Traits) (t : Tree K) : Prop where
  /-- A tree without a root has nothing. -/
  empty : t.root = none → t.store.links.head = none ∧ t.store.links.tail = none ∧ t.store.size = 0 ∧
    t.store.leaves = 0 ∧ t.store.innerNodes = 0
  /-- Leaves are at level 0. -/
  leafLevel : ∀ root leaf, t.root = some root → NodeOf root ⟨0, leaf⟩ → leaf.level = 0
  /-- Children are one level below their parent, and there is one more of them than keys. -/
  childLevel : ∀ root n (inner : InnerNode K (Node K n)), t.root = some root → NodeOf root ⟨n + 1, inner⟩ →
    inner.childid.length = inner.slotkey.length + 1 ∧ ∀ child ∈ inner.childid, level n child + 1 = inner.level
  /-- The root uses a slot, and no more than there are. -/
  rootSlots : ∀ root, t.root = some root → 1 ≤ slotuse root.1 root.2 ∧ slotuse root.1 root.2 ≤ c.slotmax root.1
  /-- Other nodes use at least `slotmin` of them. -/
  slots : ∀ root n (inner : InnerNode K (Node K n)), t.root = some root → NodeOf root ⟨n + 1, inner⟩ →
    ∀ child ∈ inner.childid, c.slotmin n ≤ slotuse n child ∧ slotuse n child ≤ c.slotmax n
  /-- The keys of a leaf are sorted. -/
  leafKeys : ∀ root leaf, t.root = some root → NodeOf root ⟨0, leaf⟩ → leaf.keys.Pairwise (· ≤ ·)
  /-- The keys of an inner node are sorted. -/
  innerKeys : ∀ root n (inner : InnerNode K (Node K n)), t.root = some root → NodeOf root ⟨n + 1, inner⟩ →
    inner.slotkey.Pairwise (· ≤ ·)
  /-- Each key is the largest one below the child before it, and not above those below the next. -/
  separators : ∀ root n (inner : InnerNode K (Node K n)), t.root = some root → NodeOf root ⟨n + 1, inner⟩ →
    ∀ i k, inner.slotkey[i]? = some k → ∃ child next, inner.childid[i]? = some child ∧
      inner.childid[i + 1]? = some next ∧ (∃ p ∈ items n child, p.1 = k) ∧ (∀ p ∈ items n child, p.1 ≤ k) ∧
        ∀ p ∈ items n next, k ≤ p.1
  /-- `subtree_size` is the number of items. -/
  subtreeSizes : ∀ root n (inner : InnerNode K (Node K n)), t.root = some root → NodeOf root ⟨n + 1, inner⟩ →
    inner.subtreeSize = (items (n + 1) inner).length
  /-- Forwards and backwards, the chain visits each leaf once, in the order of their keys. -/
  chain : ∀ root, t.root = some root →
    Segment t.store.links.next t.store.links.head ((leafNodes root.1 root.2).map LeafNode.addr) none ∧
    Segment t.store.links.prev t.store.links.tail ((leafNodes root.1 root.2).map LeafNode.addr).reverse none ∧
    ((leafNodes root.1 root.2).map LeafNode.addr).Nodup ∧
    ((leafNodes root.1 root.2).flatMap LeafNode.keys).Pairwise (· ≤ ·) ∧
    ∀ leaf, leaf ∈ leafNodes root.1 root.2 ↔ NodeOf root ⟨0, leaf⟩
  /-- The statistics count items, leaves and inner nodes. -/
  stats : ∀ root, t.root = some root → t.store.size = (items root.1 root.2).length ∧
    t.store.leaves = (leafNodes root.1 root.2).length ∧ t.store.innerNodes = innerCount root.1 root.2

/-- What holds of the root holds of every node. -/
theorem NodeOf.inside {root node : (n : Nat) × Node K n} (h : NodeOf root node)
    (hroot : Inside c root.1 root.2) (hsorted : SortedKeys (items root.1 root.2)) :
    Inside c node.1 node.2 ∧ SortedKeys (items node.1 node.2) := by
  induction h with
  | root => exact ⟨hroot, hsorted⟩
  | @child n inner child _ hchild ih =>
      obtain ⟨hinner, hitems⟩ := ih
      refine ⟨(hinner.children child hchild).1, ?_⟩
      obtain ⟨before, after, hsplit⟩ := List.append_of_mem hchild
      have hchildren := sorted_children hitems
      rw [hsplit, List.flatMap_append, List.flatMap_cons] at hchildren
      exact (List.pairwise_append.mp (List.pairwise_append.mp hchildren).2.1).1

/-- **A well-formed tree meets the invariant.** -/
theorem TreeOk.repInv {t : Tree K} (h : TreeOk c t) : RepInv c t := by
  obtain ⟨root, st⟩ := t
  have hnode : ∀ root' node, root = some root' → NodeOf root' node →
      Inside c node.1 node.2 ∧ SortedKeys (items node.1 node.2) := by
    rintro root' node rfl hnode
    exact hnode.inside (h.root root' rfl).inside h.sorted
  refine ⟨?_, ?_, ?_, ?_, ?_, ?_, ?_, ?_, ?_, ?_, ?_⟩
  · rintro rfl
    exact ⟨h.store.linked.forward, h.store.linked.backward, h.size, h.store.leaves, h.store.innerNodes⟩
  · exact fun root' leaf hroot hleaf => (hnode root' ⟨0, leaf⟩ hroot hleaf).1
  · intro root' n inner hroot hinner
    have hinside : Inside c (n + 1) inner := (hnode root' _ hroot hinner).1
    refine ⟨hinside.separated.length_eq, fun child hchild => ?_⟩
    rw [(hinside.children child hchild).1.level_eq, hinside.level]
  · intro root' hroot
    exact ⟨(h.root root' hroot).used, (h.root root' hroot).fits⟩
  · intro root' n inner hroot hinner child hchild
    have hinside : Inside c (n + 1) inner := (hnode root' _ hroot hinner).1
    exact (hinside.children child hchild).2
  · intro root' leaf hroot hleaf
    have hsorted : SortedKeys leaf.slots := (hnode root' ⟨0, leaf⟩ hroot hleaf).2
    exact List.pairwise_map.mpr hsorted
  · intro root' n inner hroot hinner
    obtain ⟨hinside, hsorted⟩ := hnode root' _ hroot hinner
    exact pairwise_of_separated (InnerOk.separated hinside) (sorted_children hsorted)
  · intro root' n inner hroot hinner i k hk
    obtain ⟨hinside, hsorted⟩ := hnode root' _ hroot hinner
    exact separator_spec (InnerOk.separated hinside) (sorted_children hsorted) hk
  · intro root' n inner hroot hinner
    have hinside : Inside c (n + 1) inner := (hnode root' _ hroot hinner).1
    exact hinside.getSubtreeSize_eq
  · rintro root' rfl
    have hlinked : Linked st.links (leaves root'.1 root'.2) := h.store.linked
    rw [map_addr_leafNodes, flatMap_keys_leafNodes]
    exact ⟨hlinked.forward, hlinked.backward, hlinked.nodup, List.pairwise_map.mpr h.sorted,
      fun _ => mem_leafNodes⟩
  · rintro root' rfl
    have hleaves : st.leaves = (leaves root'.1 root'.2).length := h.store.leaves
    rw [← map_addr_leafNodes, List.length_map] at hleaves
    exact ⟨h.size, hleaves, h.store.innerNodes⟩

/-- **No operation leaves the arrays of the nodes, and the invariant holds after each of them.** -/
theorem repInv_of_ops (c : Traits) (ops : List (Op K)) (h : Possible ops []) :
    ∃ answers t, runOps c ops (Tree.empty : Tree K) = some (answers, t) ∧ RepInv c t := by
  obtain ⟨t, hrun, hrepresents⟩ := (represents_empty c).run h
  exact ⟨_, t, hrun, hrepresents.ok.repInv⟩

theorem repInv_of_ops_splitMerge :
    ∃ answers t, runOps minTraits splitMerge Tree.empty = some (answers, t) ∧ RepInv minTraits t :=
  repInv_of_ops minTraits splitMerge possible_splitMerge

end RelaxedConcurrentFifo.ReplayTree
