/-
# RelaxedConcurrentFifo.ReplayTree.Balancing — merging two nodes, and shifting slots between them

The two nodes are children of one parent, next to each other. Whatever is moved takes the delay with it by
which the nodes differ, so the items of the two are the same ones as before, in the same order.
-/
import RelaxedConcurrentFifo.ReplayTree.Erasure
import RelaxedConcurrentFifo.ReplayTree.Items

namespace RelaxedConcurrentFifo.ReplayTree

open RelaxedConcurrentFifo.Lib.KeyedLists
open RelaxedConcurrentFifo.Lib.LinkedLists
open RelaxedConcurrentFifo.Lib.SortedBlocks

variable {K : Type} {c : Traits} {n : Nat}

/-! ## §1 — children that change their parent -/

/-- Moved from a node with delay `source` to one with `target`, children stand for what they stood for. -/
theorem flatMap_items_moved (children : List (Node K n)) (source target : Int) :
    ((children.map fun child => addDelay n child (source - target)).flatMap (items n)).map (plus target) =
      (children.flatMap (items n)).map (plus source) := by
  rw [List.flatMap_map]
  simp only [items_addDelay]
  rw [flatMap_map_plus, plus_plus]
  congr 2
  omega

theorem separated_moved {keys : List K} {children : List (Node K n)} (d : Int)
    (h : Separated (blockLast (items n)) keys children) :
    Separated (blockLast (items n)) keys (children.map fun child => addDelay n child d) := by
  refine h.map fun child => ?_
  rw [blockLast, items_addDelay]
  exact lastKey_map (fst_plus d) _

theorem good_moved {children : List (Node K n)} (d : Int)
    (h : ∀ child ∈ children, Inside c n child ∧ Filled c n child) :
    ∀ child ∈ children.map (fun child => addDelay n child d), Inside c n child ∧ Filled c n child := by
  intro child hchild
  obtain ⟨child, hmem, rfl⟩ := List.mem_map.mp hchild
  exact ⟨(h child hmem).1.addDelay d, (h child hmem).2.addDelay d⟩

@[simp] theorem flatMap_leaves_moved (children : List (Node K n)) (d : Int) :
    (children.map fun child => addDelay n child d).flatMap (leaves n) = children.flatMap (leaves n) := by
  rw [List.flatMap_map]
  simp only [leaves_addDelay]

@[simp] theorem innerCount_moved (children : List (Node K n)) (d : Int) :
    (children.map fun child => addDelay n child d).map (innerCount n) = children.map (innerCount n) := by
  rw [List.map_map]
  simp [Function.comp_def]

theorem getLast?_moved {children : List (Node K n)} (d : Int) :
    (children.map fun child => addDelay n child d).getLast?.bind (blockLast (items n)) =
      children.getLast?.bind (blockLast (items n)) := by
  rw [List.getLast?_map]
  cases children.getLast? with
  | none => rfl
  | some child =>
      show blockLast (items n) (addDelay n child d) = blockLast (items n) child
      rw [blockLast, items_addDelay]
      exact lastKey_map (fst_plus d) _

/-- An inner node, cut behind a key. -/
theorem exists_cut {inner : InnerNode K (Node K n)}
    (h : Separated (blockLast (items n)) inner.slotkey inner.childid) {i : Nat}
    (hi : i < inner.slotkey.length) :
    ∃ k, inner.slotkey[i]? = some k ∧ inner.slotkey.take i ++ k :: inner.slotkey.drop (i + 1) = inner.slotkey ∧
      Separated (blockLast (items n)) (inner.slotkey.take i) (inner.childid.take (i + 1)) ∧
      (inner.childid.take (i + 1)).getLast?.bind (blockLast (items n)) = some k ∧
      Separated (blockLast (items n)) (inner.slotkey.drop (i + 1)) (inner.childid.drop (i + 1)) := by
  have hcut : inner.slotkey.take i ++ inner.slotkey[i] :: inner.slotkey.drop (i + 1) = inner.slotkey := by
    rw [← List.drop_eq_getElem_cons hi, List.take_append_drop]
  have hlength := h.length_eq
  have hsplit : Separated (blockLast (items n))
      (inner.slotkey.take i ++ inner.slotkey[i] :: inner.slotkey.drop (i + 1))
      (inner.childid.take (i + 1) ++ inner.childid.drop (i + 1)) := by
    rw [hcut, List.take_append_drop]
    exact h
  refine ⟨inner.slotkey[i], List.getElem?_eq_getElem hi, hcut, hsplit.split ?_⟩
  rw [List.length_take_of_le (by omega), List.length_take_of_le hi.le]

/-! ## §2 — merging -/

/-- What two neighbours are merged to; the number of inner nodes still counts the right one. -/
structure Merged (c : Traits) (n : Nat) (left right : Node K n) (st : Store) (left' right' : Node K n)
    (st' : Store) : Prop where
  inside : Inside c n left'
  used : slotuse n left' = slotuse n left + slotuse n right + min n 1
  emptied : slotuse n right' = 0
  sameItems : items n left' = items n left ++ items n right
  store : ∀ l l' m, StoreOk st (l ++ (leaves n left ++ leaves n right) ++ l')
      (m + (innerCount n left + innerCount n right)) →
    StoreOk (freeNode n st') (l ++ leaves n left' ++ l') (m + innerCount n left')
  size : st'.size = st.size

theorem fits_eq {α : Type} {slots : Nat} {l : List α} (h : l.length ≤ slots) : fits slots l = some l :=
  if_pos h

/-- The link to the right leaf is taken out, and the leaf is freed. -/
theorem StoreOk.removeLeaf {st : Store} {l l' : List Nat} {a b m : Nat}
    (h : StoreOk st (l ++ a :: b :: l') m) :
    StoreOk (freeNode 0 { st with links := st.links.removeAfter a b }) (l ++ a :: l') m := by
  refine ⟨h.linked.removeAfter, ?_, ?_, h.innerNodes⟩
  · intro x hx
    refine h.fresh x ?_
    simp only [List.mem_append, List.mem_cons] at hx ⊢
    tauto
  · show st.leaves - 1 = (l ++ a :: l').length
    rw [h.leaves]
    simp only [List.length_append, List.length_cons]
    omega

theorem mergeLeaves_spec {left right : LeafNode K} (hlevel : left.level = 0) (d : Int) (st : Store)
    (hfit : left.slots.length + right.slots.length ≤ c.leafSlots) :
    ∃ left' right' st', mergeLeaves c left right d d st = some (left', right', st') ∧
      Merged c 0 left right st left' right' st' := by
  have hfits : fits c.leafSlots (left.slots ++ right.slots.map (plus (d - d))) =
      some (left.slots ++ right.slots) := by
    rw [Int.sub_self, map_plus_zero]
    exact fits_eq (by rwa [List.length_append])
  unfold mergeLeaves
  rw [hfits]
  refine ⟨_, _, _, rfl, hlevel, List.length_append, rfl, rfl, ?_, rfl⟩
  intro l l' m hst
  have hst' : StoreOk st (l ++ left.addr :: right.addr :: l') m := by
    simpa [leaves, innerCount] using hst
  simpa [leaves, innerCount] using hst'.removeLeaf

theorem mergeInner_spec {left right : InnerNode K (Node K n)} {key : K} (hleft : Inside c (n + 1) left)
    (hright : Inside c (n + 1) right) (hkey : blockLast (items (n + 1)) left = some key) (d : Int)
    (hfit : left.slotkey.length + right.slotkey.length + 1 ≤ c.innerSlots) (st : Store) :
    ∃ left' right', mergeInner c left right key d d = some (left', right') ∧
      Merged c (n + 1) left right st left' right' st := by
  have hl := hleft.separated.length_eq
  have hr := hright.separated.length_eq
  -- what is above both nodes does not matter for the children that change their parent
  have hdiff : (right.delay + d) - (left.delay + d) = right.delay - left.delay := by omega
  have hkeys : fits c.innerSlots (left.slotkey ++ key :: right.slotkey) =
      some (left.slotkey ++ key :: right.slotkey) := by
    apply fits_eq
    rw [List.length_append, List.length_cons]
    omega
  have hchildren : fits (c.innerSlots + 1) (left.childid ++
      right.childid.map fun child => addDelay n child (right.delay - left.delay)) = some (left.childid ++
        right.childid.map fun child => addDelay n child (right.delay - left.delay)) := by
    apply fits_eq
    rw [List.length_append, List.length_map]
    omega
  unfold mergeInner
  simp only [hdiff, hkeys, hchildren, Option.bind_eq_bind, Option.bind_some]
  have hlast := (blockLast_inner left hleft.children).symm.trans hkey
  refine ⟨_, _, rfl, innerOk_updateSubtreeSize hleft.level
    (hleft.separated.joined hlast (separated_moved _ hright.separated)) ?_, ?_, rfl, ?_, ?_, rfl⟩
  · intro child hchild
    rcases List.mem_append.mp hchild with hchild | hchild
    · exact hleft.children child hchild
    · exact good_moved _ hright.children child hchild
  · show (left.slotkey ++ key :: right.slotkey).length = left.slotkey.length + right.slotkey.length + min (n + 1) 1
    rw [List.length_append, List.length_cons]
    omega
  · show ((left.childid ++ right.childid.map fun child =>
        addDelay n child (right.delay - left.delay)).flatMap (items n)).map (plus left.delay) =
      (left.childid.flatMap (items n)).map (plus left.delay) ++
        (right.childid.flatMap (items n)).map (plus right.delay)
    rw [List.flatMap_append, List.map_append, flatMap_items_moved]
  · intro l l' m hst
    have hleaves : leaves (n + 1) (updateSubtreeSize { left with
        slotkey := left.slotkey ++ key :: right.slotkey
        childid := left.childid ++
          right.childid.map fun child => addDelay n child (right.delay - left.delay) }) =
        leaves (n + 1) left ++ leaves (n + 1) right := by
      simp [leaves]
    have hcount : innerCount (n + 1) (updateSubtreeSize { left with
        slotkey := left.slotkey ++ key :: right.slotkey
        childid := left.childid ++
          right.childid.map fun child => addDelay n child (right.delay - left.delay) }) + 1 =
        innerCount (n + 1) left + innerCount (n + 1) right := by
      simp only [innerCount, updateSubtreeSize_childid, List.map_append, innerCount_moved, List.sum_append]
      omega
    rw [hleaves]
    refine ⟨hst.linked, hst.fresh, hst.leaves, ?_⟩
    have hinner := hst.innerNodes
    show st.innerNodes - 1 = _
    omega

/-- **Merging two neighbours.** -/
theorem mergeNodes_spec (n : Nat) {left right : Node K n} {key : K} (hleft : Inside c n left)
    (hright : Inside c n right) (hkey : blockLast (items n) left = some key) (d : Int) (st : Store)
    (hfit : slotuse n left + slotuse n right + 1 ≤ c.slotmax n) :
    ∃ left' right' st', mergeNodes c n left right key d d st = some (left', right', st') ∧
      Merged c n left right st left' right' st' := by
  cases n with
  | zero => exact mergeLeaves_spec hleft d st (Nat.le_of_succ_le hfit)
  | succ n =>
      obtain ⟨left', right', heq, hmerged⟩ := mergeInner_spec hleft hright hkey d hfit st
      refine ⟨left', right', st, ?_, hmerged⟩
      rw [mergeNodes, heq]
      rfl

/-! ## §3 — shifting -/

/-- Two neighbours between which slots were shifted, and the key that now separates them. -/
structure Shifted (c : Traits) (n : Nat) (left right left' : Node K n) (key' : K) (right' : Node K n) :
    Prop where
  inside : Inside c n left'
  inside' : Inside c n right'
  last : blockLast (items n) left' = some key'
  sameItems : items n left' ++ items n right' = items n left ++ items n right
  sameLeaves : leaves n left' ++ leaves n right' = leaves n left ++ leaves n right
  sameCount : innerCount n left' + innerCount n right' = innerCount n left + innerCount n right

/-- `key` is kept when it is the last one. -/
theorem lastKey_of_getLast? {leaf : LeafNode K} {key : K} (h : leaf.keys.getLast? = some key) :
    blockLast (items 0) leaf = some key := by
  rw [← h]
  exact List.getLast?_map.symm

theorem exists_getLast?_keys (leaf : LeafNode K) (h : 1 ≤ leaf.slots.length) :
    ∃ key, leaf.keys.getLast? = some key := by
  have hne : leaf.keys ≠ [] := List.ne_nil_of_length_pos (by rwa [LeafNode.keys, List.length_map])
  exact ⟨_, List.getLast?_eq_some_getLast hne⟩

theorem shiftLeftLeaf_spec {left right : LeafNode K} (hleft : left.level = 0) (hright : right.level = 0)
    (d : Int) (hfew : left.slots.length + 2 ≤ right.slots.length) (hfit : right.slots.length ≤ c.leafSlots) :
    ∃ left' key' right', shiftLeftLeaf c left right d d = some (left', key', right') ∧
      Shifted c 0 left right left' key' right' ∧
      left'.slots.length = left.slots.length + (right.slots.length - left.slots.length) / 2 ∧
      right'.slots.length = right.slots.length - (right.slots.length - left.slots.length) / 2 := by
  have hcut := List.take_append_drop ((right.slots.length - left.slots.length) / 2) right.slots
  have hfront : (right.slots.take ((right.slots.length - left.slots.length) / 2)).length =
      (right.slots.length - left.slots.length) / 2 := List.length_take_of_le (by omega)
  have hback : (right.slots.drop ((right.slots.length - left.slots.length) / 2)).length =
      right.slots.length - (right.slots.length - left.slots.length) / 2 := List.length_drop
  unfold shiftLeftLeaf
  dsimp only
  generalize right.slots.take ((right.slots.length - left.slots.length) / 2) = front at hcut hfront ⊢
  generalize right.slots.drop ((right.slots.length - left.slots.length) / 2) = back at hcut hback ⊢
  have hfits : fits c.leafSlots (left.slots ++ front.map (plus (d - d))) = some (left.slots ++ front) := by
    rw [Int.sub_self, map_plus_zero]
    apply fits_eq
    rw [List.length_append]
    omega
  have hlength : (left.slots ++ front).length = left.slots.length + front.length := List.length_append
  obtain ⟨key, hkey⟩ := exists_getLast?_keys { left with slots := left.slots ++ front }
    (by show 1 ≤ (left.slots ++ front).length; omega)
  rw [hfits]
  simp only [Option.bind_eq_bind, Option.bind_some, hkey]
  refine ⟨_, _, _, rfl, ⟨hleft, hright, lastKey_of_getLast? hkey, ?_, rfl, rfl⟩, ?_, hback⟩
  · show (left.slots ++ front) ++ back = left.slots ++ right.slots
    rw [List.append_assoc, hcut]
  · show (left.slots ++ front).length = _
    rw [hlength, hfront]

theorem shiftRightLeaf_spec {left right : LeafNode K} (hleft : left.level = 0) (hright : right.level = 0)
    (d : Int) (hfew : right.slots.length + 2 ≤ left.slots.length) (hfit : left.slots.length ≤ c.leafSlots) :
    ∃ left' key' right', shiftRightLeaf c left right d d = some (left', key', right') ∧
      Shifted c 0 left right left' key' right' ∧
      left'.slots.length = left.slots.length - (left.slots.length - right.slots.length) / 2 ∧
      right'.slots.length = right.slots.length + (left.slots.length - right.slots.length) / 2 := by
  unfold shiftRightLeaf
  dsimp only
  generalize hrest : left.slots.length - (left.slots.length - right.slots.length) / 2 = rest
  have hcut := List.take_append_drop rest left.slots
  have hfront : (left.slots.take rest).length = rest := List.length_take_of_le (by omega)
  have hback : (left.slots.drop rest).length = left.slots.length - rest := List.length_drop
  generalize left.slots.take rest = front at hcut hfront ⊢
  generalize left.slots.drop rest = back at hcut hback ⊢
  have hlength : (back ++ right.slots).length = back.length + right.slots.length := List.length_append
  have hfits : fits c.leafSlots (back.map (plus (d - d)) ++ right.slots) = some (back ++ right.slots) := by
    rw [Int.sub_self, map_plus_zero]
    apply fits_eq
    omega
  obtain ⟨key, hkey⟩ := exists_getLast?_keys { left with slots := front }
    (by show 1 ≤ front.length; omega)
  rw [hfits]
  simp only [Option.bind_eq_bind, Option.bind_some, hkey]
  refine ⟨_, _, _, rfl, ⟨hleft, hright, lastKey_of_getLast? hkey, ?_, rfl, rfl⟩, hfront, ?_⟩
  · show front ++ (back ++ right.slots) = left.slots ++ right.slots
    rw [← List.append_assoc, hcut]
  · show (back ++ right.slots).length = _
    omega

section ShiftInner

variable {left right : InnerNode K (Node K n)} {key : K}

/-- Children are put behind those of `left`; `back` keeps the rest of `right`. -/
theorem shifted_left (hleft : Inside c (n + 1) left) (hright : Inside c (n + 1) right)
    (hkey : blockLast (items (n + 1)) left = some key) {ka kb : List K} {ca cb : List (Node K n)} {k : K}
    (hchildren : ca ++ cb = right.childid) (hfront : Separated (blockLast (items n)) ka ca)
    (hlast : ca.getLast?.bind (blockLast (items n)) = some k)
    (hback : Separated (blockLast (items n)) kb cb) :
    Shifted c (n + 1) left right
      (updateSubtreeSize { left with
        slotkey := left.slotkey ++ key :: ka
        childid := left.childid ++ ca.map fun child => addDelay n child (right.delay - left.delay) }) k
      (updateSubtreeSize { right with slotkey := kb, childid := cb }) := by
  have hgood : ∀ child ∈ ca ++ cb, Inside c n child ∧ Filled c n child := hchildren ▸ hright.children
  have hjoin := (blockLast_inner left hleft.children).symm.trans hkey
  have hmoved : ∀ child ∈ left.childid ++ ca.map (fun child => addDelay n child (right.delay - left.delay)),
      Inside c n child ∧ Filled c n child := by
    intro child hchild
    rcases List.mem_append.mp hchild with hchild | hchild
    · exact hleft.children child hchild
    · exact good_moved _ (fun child hmem => hgood child (List.mem_append_left _ hmem)) child hchild
  refine ⟨innerOk_updateSubtreeSize hleft.level
      (hleft.separated.joined hjoin (separated_moved _ hfront)) hmoved,
    innerOk_updateSubtreeSize hright.level hback
      fun child hmem => hgood child (List.mem_append_right _ hmem), ?_, ?_, ?_, ?_⟩
  · rw [blockLast_inner _ hmoved, updateSubtreeSize_childid, List.getLast?_append_of_ne_nil, getLast?_moved, hlast]
    exact fun hnil => List.ne_nil_of_length_eq_add_one hfront.length_eq (List.map_eq_nil_iff.mp hnil)
  · show ((left.childid ++ ca.map fun child =>
          addDelay n child (right.delay - left.delay)).flatMap (items n)).map (plus left.delay) ++
        (cb.flatMap (items n)).map (plus right.delay) =
      (left.childid.flatMap (items n)).map (plus left.delay) ++
        (right.childid.flatMap (items n)).map (plus right.delay)
    rw [← hchildren, List.flatMap_append, List.map_append, flatMap_items_moved, List.flatMap_append,
      List.map_append, List.append_assoc]
  · simp [leaves, ← hchildren]
  · simp only [innerCount, updateSubtreeSize_childid, ← hchildren, List.map_append, innerCount_moved,
      List.sum_append]
    omega

/-- Children are put in front of those of `right`. -/
theorem shifted_right (hleft : Inside c (n + 1) left) (hright : Inside c (n + 1) right)
    (hkey : blockLast (items (n + 1)) left = some key) {ka kb : List K} {ca cb : List (Node K n)} {k : K}
    (hchildren : ca ++ cb = left.childid) (hfront : Separated (blockLast (items n)) ka ca)
    (hlast : ca.getLast?.bind (blockLast (items n)) = some k)
    (hback : Separated (blockLast (items n)) kb cb) :
    Shifted c (n + 1) left right
      (updateSubtreeSize { left with slotkey := ka, childid := ca }) k
      (updateSubtreeSize { right with
        slotkey := kb ++ key :: right.slotkey
        childid := (cb.map fun child => addDelay n child (left.delay - right.delay)) ++ right.childid }) := by
  have hgood : ∀ child ∈ ca ++ cb, Inside c n child ∧ Filled c n child := hchildren ▸ hleft.children
  have hjoin : cb.getLast?.bind (blockLast (items n)) = some key := by
    rw [← hkey, blockLast_inner left hleft.children, ← hchildren,
      List.getLast?_append_of_ne_nil _ (List.ne_nil_of_length_eq_add_one hback.length_eq)]
  have hca : ∀ child ∈ ca, Inside c n child ∧ Filled c n child :=
    fun child hmem => hgood child (List.mem_append_left _ hmem)
  refine ⟨innerOk_updateSubtreeSize hleft.level hfront hca, innerOk_updateSubtreeSize hright.level ?_ ?_,
    (blockLast_inner _ hca).trans hlast, ?_, ?_, ?_⟩
  · exact (separated_moved _ hback).joined ((getLast?_moved _).trans hjoin) hright.separated
  · intro child hchild
    rcases List.mem_append.mp hchild with hchild | hchild
    · exact good_moved _ (fun child hmem => hgood child (List.mem_append_right _ hmem)) child hchild
    · exact hright.children child hchild
  · show (ca.flatMap (items n)).map (plus left.delay) ++ (((cb.map fun child =>
          addDelay n child (left.delay - right.delay)) ++ right.childid).flatMap (items n)).map
            (plus right.delay) =
      (left.childid.flatMap (items n)).map (plus left.delay) ++
        (right.childid.flatMap (items n)).map (plus right.delay)
    rw [← hchildren, List.flatMap_append, List.map_append, flatMap_items_moved, List.flatMap_append,
      List.map_append, List.append_assoc]
  · simp [leaves, ← hchildren]
  · simp only [innerCount, updateSubtreeSize_childid, ← hchildren, List.map_append, innerCount_moved,
      List.sum_append]
    omega

theorem shiftLeftInner_spec (hleft : Inside c (n + 1) left) (hright : Inside c (n + 1) right)
    (hkey : blockLast (items (n + 1)) left = some key) (d : Int)
    (hfew : left.slotkey.length + 2 ≤ right.slotkey.length) (hfit : right.slotkey.length ≤ c.innerSlots) :
    ∃ left' key' right', shiftLeftInner c left right key d d = some (left', key', right') ∧
      Shifted c (n + 1) left right left' key' right' ∧
      left'.slotkey.length = left.slotkey.length + (right.slotkey.length - left.slotkey.length) / 2 ∧
      right'.slotkey.length = right.slotkey.length - (right.slotkey.length - left.slotkey.length) / 2 := by
  obtain ⟨i, hi⟩ : ∃ i, (right.slotkey.length - left.slotkey.length) / 2 = i + 1 :=
    Nat.exists_eq_add_one.mpr (by omega)
  obtain ⟨k, hk, hcut, hfront, hlast, hback⟩ := exists_cut hright.separated (i := i) (by omega)
  have hl := hleft.separated.length_eq
  have hka : (right.slotkey.take i).length = i := List.length_take_of_le (by omega)
  have hkb : (right.slotkey.drop (i + 1)).length = right.slotkey.length - (i + 1) := List.length_drop
  have hdiff : (right.delay + d) - (left.delay + d) = right.delay - left.delay := by omega
  have hkeys : fits c.innerSlots (left.slotkey ++ key :: right.slotkey.take i) =
      some (left.slotkey ++ key :: right.slotkey.take i) := by
    apply fits_eq
    rw [List.length_append, List.length_cons]
    omega
  have hca := hfront.length_eq
  have hfits : fits (c.innerSlots + 1) (left.childid ++ (right.childid.take (i + 1)).map fun child =>
      addDelay n child (right.delay - left.delay)) = some (left.childid ++
        (right.childid.take (i + 1)).map fun child => addDelay n child (right.delay - left.delay)) := by
    apply fits_eq
    rw [List.length_append, List.length_map]
    omega
  unfold shiftLeftInner
  simp only [hi, hdiff, Nat.succ_ne_zero, if_false, Nat.add_sub_cancel, hkeys, hfits, hk, Option.bind_eq_bind,
    Option.bind_some]
  refine ⟨_, _, _, rfl, shifted_left hleft hright hkey (List.take_append_drop _ _) hfront hlast hback, ?_, hkb⟩
  show (left.slotkey ++ key :: right.slotkey.take i).length = _
  rw [List.length_append, List.length_cons, hka]

theorem shiftRightInner_spec (hleft : Inside c (n + 1) left) (hright : Inside c (n + 1) right)
    (hkey : blockLast (items (n + 1)) left = some key) (d : Int)
    (hfew : right.slotkey.length + 2 ≤ left.slotkey.length) (hfit : left.slotkey.length ≤ c.innerSlots) :
    ∃ left' key' right', shiftRightInner c left right key d d = some (left', key', right') ∧
      Shifted c (n + 1) left right left' key' right' ∧
      left'.slotkey.length = left.slotkey.length - (left.slotkey.length - right.slotkey.length) / 2 ∧
      right'.slotkey.length = right.slotkey.length + (left.slotkey.length - right.slotkey.length) / 2 := by
  have hshift : ¬ (left.slotkey.length - right.slotkey.length) / 2 = 0 := by omega
  generalize hrest : left.slotkey.length - (left.slotkey.length - right.slotkey.length) / 2 = rest
  obtain ⟨k, hk, hcut, hfront, hlast, hback⟩ := exists_cut hleft.separated (i := rest) (by omega)
  have hr := hright.separated.length_eq
  have hka : (left.slotkey.take rest).length = rest := List.length_take_of_le (by omega)
  have hkb : (left.slotkey.drop (rest + 1)).length = left.slotkey.length - (rest + 1) := List.length_drop
  have hdiff : (left.delay + d) - (right.delay + d) = left.delay - right.delay := by omega
  have hcb := hback.length_eq
  have hkeys : fits c.innerSlots (left.slotkey.drop (rest + 1) ++ key :: right.slotkey) =
      some (left.slotkey.drop (rest + 1) ++ key :: right.slotkey) := by
    apply fits_eq
    rw [List.length_append, List.length_cons]
    omega
  have hfits : fits (c.innerSlots + 1) ((left.childid.drop (rest + 1)).map (fun child =>
      addDelay n child (left.delay - right.delay)) ++ right.childid) = some ((left.childid.drop (rest + 1)).map
        (fun child => addDelay n child (left.delay - right.delay)) ++ right.childid) := by
    apply fits_eq
    rw [List.length_append, List.length_map]
    omega
  unfold shiftRightInner
  simp only [hrest, hdiff, if_neg hshift, hkeys, hfits, hk, Option.bind_eq_bind, Option.bind_some]
  refine ⟨_, _, _, rfl, shifted_right hleft hright hkey (List.take_append_drop _ _) hfront hlast hback, hka, ?_⟩
  show (left.slotkey.drop (rest + 1) ++ key :: right.slotkey).length = _
  rw [List.length_append, List.length_cons, hkb]
  omega

end ShiftInner

/-- **Shifting slots to the left neighbour.** -/
theorem shiftLeft_spec (n : Nat) {left right : Node K n} {key : K} (hleft : Inside c n left)
    (hright : Inside c n right) (hkey : blockLast (items n) left = some key) (d : Int)
    (hfew : slotuse n left + 2 ≤ slotuse n right) (hfit : slotuse n right ≤ c.slotmax n) :
    ∃ left' key' right', shiftLeft c n left right key d d = some (left', key', right') ∧
      Shifted c n left right left' key' right' ∧
      slotuse n left' = slotuse n left + (slotuse n right - slotuse n left) / 2 ∧
      slotuse n right' = slotuse n right - (slotuse n right - slotuse n left) / 2 := by
  cases n with
  | zero => exact shiftLeftLeaf_spec hleft hright d hfew hfit
  | succ n => exact shiftLeftInner_spec hleft hright hkey d hfew hfit

/-- **Shifting slots to the right neighbour.** -/
theorem shiftRight_spec (n : Nat) {left right : Node K n} {key : K} (hleft : Inside c n left)
    (hright : Inside c n right) (hkey : blockLast (items n) left = some key) (d : Int)
    (hfew : slotuse n right + 2 ≤ slotuse n left) (hfit : slotuse n left ≤ c.slotmax n) :
    ∃ left' key' right', shiftRight c n left right key d d = some (left', key', right') ∧
      Shifted c n left right left' key' right' ∧
      slotuse n left' = slotuse n left - (slotuse n left - slotuse n right) / 2 ∧
      slotuse n right' = slotuse n right + (slotuse n left - slotuse n right) / 2 := by
  cases n with
  | zero => exact shiftRightLeaf_spec hleft hright d hfew hfit
  | succ n => exact shiftRightInner_spec hleft hright hkey d hfew hfit

end RelaxedConcurrentFifo.ReplayTree
