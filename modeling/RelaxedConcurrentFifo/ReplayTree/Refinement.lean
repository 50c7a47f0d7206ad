/-
# RelaxedConcurrentFifo.ReplayTree.Refinement — the tree is a sorted list of values with delays

The abstract state is a list of values, each with the delay that it has accumulated. `Op.spec` says what
each operation does to it; `Op.run` is the operation of the tree. Whatever operations are run one after
the other, both give the same answers, as long as each value that is to be erased is there.
-/
import RelaxedConcurrentFifo.ReplayTree.ErasureRefine
import RelaxedConcurrentFifo.ReplayTree.InsertionRefine

namespace RelaxedConcurrentFifo.ReplayTree

open RelaxedConcurrentFifo.Lib.KeyedLists
open RelaxedConcurrentFifo.Lib.LinkedLists
open RelaxedConcurrentFifo.Lib.SortedBlocks

variable {K : Type} [LinearOrder K] {c : Traits} {n : Nat} {v : K}

/-! ## §1 — the first loop of `erase_val` -/

/-- Delays that are added at two places may be added in any order. -/
theorem passBelow_plus (v : K) (d : Int) (l : List (K × Int)) :
    passBelow v (· + 1) (l.map (plus d)) = (passBelow v (· + 1) l).map (plus d) := by
  rw [passBelow, passBelow, List.map_map, List.map_map]
  apply List.map_congr_left
  intro p _
  by_cases hp : p.1 < v
  · simp only [Function.comp_apply, hp, if_true, plus]
    congr 1
    omega
  · simp only [Function.comp_apply, fst_plus, hp, if_false]

/-- What the descent to `v` leaves of `t`, and what it has found. -/
structure Passed (c : Traits) (n : Nat) (v : K) (t t' : Node K n) (rank : Nat) (iter : Iter) : Prop where
  inside : Inside c n t'
  used : slotuse n t' = slotuse n t
  sameLeaves : leaves n t' = leaves n t
  sameCount : innerCount n t' = innerCount n t
  passed : items n t' = passBelow v (· + 1) (items n t)
  rank_eq : rank = (below v (items n t)).length
  leads : Leads c v n t' iter

namespace Passed

variable {t t' : Node K n} {rank : Nat} {iter : Iter}

theorem last (h : Passed c n v t t' rank iter) : blockLast (items n) t' = blockLast (items n) t := by
  rw [blockLast, h.passed]
  exact lastKey_passBelow _

theorem size (h : Passed c n v t t' rank iter) (hinside : Inside c n t) :
    getSubtreeSize n t' = getSubtreeSize n t := by
  rw [h.inside.getSubtreeSize_eq, hinside.getSubtreeSize_eq, h.passed, length_passBelow]

theorem filled (h : Passed c n v t t' rank iter) (hfilled : Filled c n t) : Filled c n t' := by
  rw [Filled, h.used]
  exact hfilled

end Passed

omit [LinearOrder K] in
/-- The children that are passed hold that many items. -/
theorem sum_getSubtreeSize {children : List (Node K n)} (h : ∀ child ∈ children, Inside c n child) :
    (children.map (getSubtreeSize n)).sum = (children.flatMap (items n)).length := by
  rw [List.length_flatMap]
  congr 1
  exact List.map_congr_left fun child hchild => (h child hchild).getSubtreeSize_eq

namespace Routed

variable {inner : InnerNode K (Node K n)} {keys keys' : List K} {before after : List (Node K n)}
  {child : Node K n}

theorem take_eq (h : Routed c inner v keys keys' before child after) :
    inner.childid.take keys.length = before := by
  rw [h.childid, ← h.length, List.take_left]

theorem drop_eq (h : Routed c inner v keys keys' before child after) :
    inner.childid.drop (keys.length + 1) = after := by
  rw [h.childid, ← h.length, ← List.drop_drop, List.drop_left, List.drop_one, List.tail_cons]

/-- What is below `v` in an inner node. -/
theorem length_below (h : Routed c inner v keys keys' before child after) :
    (below v (items (n + 1) inner)).length =
      (before.flatMap (items n)).length + (below v (items n child)).length := by
  show (below v ((inner.childid.flatMap (items n)).map (plus inner.delay))).length = _
  rw [below_map (fst_plus inner.delay), List.length_map, h.items_eq, (cut_append h.lt h.le).1,
    List.length_append]

/-- The children that are passed are below `v`, and all of them count. -/
theorem rank_eq (h : Routed c inner v keys keys' before child after) (hinside : Inside c (n + 1) inner) :
    ((inner.childid.take keys.length).map (getSubtreeSize n)).sum + (below v (items n child)).length =
      (below v (items (n + 1) inner)).length := by
  rw [h.take_eq, h.length_below, sum_getSubtreeSize]
  intro t ht
  refine (hinside.children t ?_).1
  rw [h.childid]
  exact List.mem_append_left _ ht

end Routed

/-- The descent at a leaf. -/
theorem passLeaf_spec {leaf : LeafNode K} (hinside : Inside c 0 leaf) (hsorted : SortedKeys leaf.slots) :
    ∃ leaf' rank iter, passDescend c v 0 leaf = some (leaf', rank, iter) ∧
      Passed c 0 v leaf leaf' rank iter := by
  have hpassed : (leaf.slots.take (below v leaf.slots).length).map (plus 1) ++
      leaf.slots.drop (below v leaf.slots).length = passBelow v (· + 1) leaf.slots := by
    rw [take_length_below, drop_length_below, hsorted.passBelow_eq]
    rfl
  have hdescend : passDescend c v 0 leaf = some (({ leaf with slots := passBelow v (· + 1) leaf.slots } :
      LeafNode K), (below v leaf.slots).length, ⟨leaf.addr, (below v leaf.slots).length⟩) := by
    rw [passDescend, findLower_leaf hsorted v]
    simp only [Option.bind_eq_bind, Option.bind_some, hpassed]
  have hlength : (passBelow v (· + 1) leaf.slots).length = leaf.slots.length := length_passBelow _
  have hsorted' : SortedKeys (passBelow v (· + 1) leaf.slots) := sortedKeys_passBelow.mpr hsorted
  refine ⟨_, _, _, hdescend, hinside, hlength, rfl, rfl, rfl, rfl, rfl, ?_⟩
  rw [findLower_leaf hsorted' v, below_passBelow, length_passBelow]

/-- An inner node after the descent to one of its children. -/
theorem passInner {inner : InnerNode K (Node K n)} {keys keys' : List K} {before after : List (Node K n)}
    {child child' : Node K n} {rank : Nat} {iter : Iter} (hinside : Inside c (n + 1) inner)
    (hroute : Routed c inner v keys keys' before child after) (hchild : Passed c n v child child' rank iter) :
    Passed c (n + 1) v inner
      { inner with childid := before.map (fun t => addDelay n t 1) ++ child' :: after }
      (((inner.childid.take keys.length).map (getSubtreeSize n)).sum + rank) iter := by
  have hgood : ∀ t ∈ before ++ child :: after, Inside c n t ∧ Filled c n t :=
    hroute.childid ▸ hinside.children
  obtain ⟨hinside', hfilled⟩ := hinside.children child hroute.mem
  -- a delay changes no key
  have hlasts : (before.map fun t => addDelay n t 1).map (blockLast (items n)) = keys.map some := by
    rw [← hroute.lasts, List.map_map]
    apply List.map_congr_left
    intro t _
    rw [Function.comp_apply, blockLast, items_addDelay]
    exact lastKey_map (fst_plus 1) _
  refine ⟨⟨hinside.level, ?_, ?_, ?_⟩, rfl, ?_, ?_, ?_, ?_, ?_⟩
  · show inner.subtreeSize = ((before.map (fun t => addDelay n t 1) ++ child' :: after).map (getSubtreeSize n)).sum
    rw [hinside.subtreeSize, hroute.childid]
    simp [Function.comp_def, hchild.size hinside']
  · show Separated (blockLast (items n)) inner.slotkey (before.map (fun t => addDelay n t 1) ++ child' :: after)
    rw [hroute.slotkey]
    exact Separated.append_left hlasts (hroute.separated.replace_head hchild.last)
  · intro t ht
    simp only [List.mem_append, List.mem_map, List.mem_cons] at ht hgood
    rcases ht with ⟨t', ht', rfl⟩ | rfl | ht
    · obtain ⟨hin, hfill⟩ := hgood t' (.inl ht')
      exact ⟨hin.addDelay 1, hfill.addDelay 1⟩
    · exact ⟨hchild.inside, hchild.filled hfilled⟩
    · exact hgood t (.inr (.inr ht))
  · show (before.map (fun t => addDelay n t 1) ++ child' :: after).flatMap (leaves n) =
      inner.childid.flatMap (leaves n)
    rw [hroute.childid, List.flatMap_append, flatMap_leaves_moved, List.flatMap_append, List.flatMap_cons,
      List.flatMap_cons, hchild.sameLeaves]
  · show ((before.map (fun t => addDelay n t 1) ++ child' :: after).map (innerCount n)).sum + 1 =
      (inner.childid.map (innerCount n)).sum + 1
    rw [hroute.childid, List.map_append, innerCount_moved, List.map_append, List.map_cons, List.map_cons,
      hchild.sameCount]
  · show ((before.map (fun t => addDelay n t 1) ++ child' :: after).flatMap (items n)).map (plus inner.delay) =
      passBelow v (· + 1) ((inner.childid.flatMap (items n)).map (plus inner.delay))
    rw [passBelow_plus, hroute.items_eq, passBelow_append, passBelow_append, passBelow_of_lt hroute.lt,
      passBelow_of_le hroute.le, ← hchild.passed, List.flatMap_append, List.flatMap_cons, List.flatMap_map]
    simp only [items_addDelay]
    rw [flatMap_map_plus, List.append_assoc]
    rfl
  · rw [hchild.rank_eq, hroute.rank_eq hinside]
  · refine ⟨keys.length, child', hroute.find, ?_, hchild.leads⟩
    show (before.map (fun t => addDelay n t 1) ++ child' :: after)[keys.length]? = some child'
    have hlength : (before.map fun t => addDelay n t 1).length = keys.length := by
      rw [List.length_map, hroute.length]
    rw [← hlength, List.getElem?_append_right (Nat.le_refl _), Nat.sub_self, List.getElem?_cons_zero]

/-- **The descent counts the items below `v`, adds 1 to their delays and leads to the first of the others.** -/
theorem passDescend_spec (c : Traits) (v : K) (n : Nat) :
    ∀ t : Node K n, Inside c n t → SortedKeys (items n t) →
      ∃ t' rank iter, passDescend c v n t = some (t', rank, iter) ∧ Passed c n v t t' rank iter := by
  induction n with
  | zero =>
      intro leaf hinside hsorted
      exact passLeaf_spec hinside hsorted
  | succ n ih =>
      intro inner hinside hsorted
      obtain ⟨keys, keys', before, child, after, hroute⟩ := exists_routed (c := c) hinside hsorted v
      obtain ⟨child', rank, iter, hdescend, hok⟩ := ih child (hinside.children child hroute.mem).1 hroute.sorted
      refine ⟨_, _, _, ?_, passInner hinside hroute hok⟩
      rw [passDescend]
      simp only [hroute.find, hroute.getElem?, hdescend, hroute.drop_eq, Option.bind_eq_bind, Option.bind_some]
      rw [hroute.take_eq]

/-- **`get_rank` is the number of items below the key.** -/
theorem rankDescend_spec (c : Traits) (v : K) (n : Nat) :
    ∀ t : Node K n, Inside c n t → SortedKeys (items n t) →
      rankDescend c v n t = some (below v (items n t)).length := by
  induction n with
  | zero =>
      intro leaf hinside hsorted
      exact findLower_leaf hsorted v
  | succ n ih =>
      intro inner hinside hsorted
      obtain ⟨keys, keys', before, child, after, hroute⟩ := exists_routed (c := c) hinside hsorted v
      have hchild := ih child (hinside.children child hroute.mem).1 hroute.sorted
      rw [rankDescend]
      simp only [hroute.find, hroute.getElem?, hchild, Option.bind_eq_bind, Option.bind_some]
      rw [hroute.rank_eq hinside]

/-! ## §2 — the operations of the tree -/

/-- `size()` of a tree that is not empty. -/
theorem seek_first {root : Node K n} {next : Nat → Option Nat} {iter : Iter} (h : iter.deref root = some v)
    {turns : Nat} (hturns : 1 ≤ turns) : seek root next v turns iter = some iter := by
  obtain ⟨turns, rfl⟩ := Nat.exists_eq_add_one.mpr hturns
  rw [seek, h]
  exact if_pos rfl

/-- **`erase_val`**: the rank of the value, and its delay; what is below it is delayed. -/
theorem eraseVal_spec {t : Tree K} (h : TreeOk c t) {d : Int} {B : List (K × Int)}
    (hitem : notBelow v t.contents = (v, d) :: B) :
    ∃ t', Tree.eraseVal c t v = some ((true, (below v t.contents).length, d.toNat), t') ∧ TreeOk c t' ∧
      t'.contents = passBelow v (· + 1) (removeAt v t.contents) := by
  obtain ⟨root, st⟩ := t
  cases root with
  | none => cases hitem
  | some root =>
      obtain ⟨n, root⟩ := root
      obtain ⟨hinside, hused, hfits⟩ := h.root ⟨n, root⟩ rfl
      have hsorted : SortedKeys (items n root) := h.sorted
      have hstore : StoreOk st (leaves n root) (innerCount n root) := h.store
      have hsize : st.size = (items n root).length := h.size
      replace hitem : notBelow v (items n root) = (v, d) :: B := hitem
      obtain ⟨root', rank, iter, hdescend, hok⟩ := passDescend_spec c v n root hinside hsorted
      have htree : TreeOk c ⟨some ⟨n, root'⟩, st⟩ := by
        refine treeOk_of_root ⟨hok.inside, ?_, ?_⟩ hok.passed (sortedKeys_passBelow.mpr hsorted) ?_ ?_
        · rw [hok.used]
          exact hused
        · rw [hok.used]
          exact hfits
        · rw [hok.sameLeaves, hok.sameCount]
          exact hstore
        · rw [length_passBelow]
          exact hsize
      have hitem' : notBelow v (items n root') = (v, d) :: passBelow v (· + 1) B := by
        rw [hok.passed, notBelow_passBelow, hitem, passBelow_cons_self]
      have hsorted' : SortedKeys (items n root') := htree.sorted
      have hnodup : (leaves n root').Nodup := by
        rw [hok.sameLeaves]
        exact hstore.linked.nodup
      have hderef := hok.leads.deref hok.inside hsorted' hnodup hitem'
      have hpos : 1 ≤ st.size := by
        rw [hsize, ← length_removeAt hitem]
        exact Nat.le_add_left 1 _
      obtain ⟨t', herase, htree', hcontents⟩ := erase_spec htree hok.leads hitem'
      refine ⟨t', ?_, htree', ?_⟩
      · unfold Tree.eraseVal
        simp only [hdescend, Option.bind_eq_bind, Option.bind_some, seek_first hderef hpos, herase, hok.rank_eq]
        rfl
      · rw [hcontents, hok.passed, removeAt_passBelow]
        rfl

/-- **`get_rank`**. -/
theorem getRank_spec {t : Tree K} (h : TreeOk c t) (key : K) :
    Tree.getRank c t key = some (below key t.contents).length := by
  obtain ⟨root, st⟩ := t
  cases root with
  | none => rfl
  | some root => exact rankDescend_spec c key root.1 root.2 (h.root root rfl).inside h.sorted

/-- **`increase_global_delay`**. -/
theorem increaseGlobalDelay_spec {t : Tree K} (h : TreeOk c t) :
    TreeOk c t.increaseGlobalDelay ∧ t.increaseGlobalDelay.contents = t.contents.map (plus 1) := by
  obtain ⟨root, st⟩ := t
  cases root with
  | none => exact ⟨⟨(fun _ heq => by cases heq), h.sorted, h.store, h.size⟩, rfl⟩
  | some root =>
      obtain ⟨n, root⟩ := root
      obtain ⟨hinside, hused, hfits⟩ := h.root ⟨n, root⟩ rfl
      have hcontents := items_addDelay n root 1
      refine ⟨treeOk_of_root ⟨hinside.addDelay 1, ?_, ?_⟩ hcontents
        ((sortedKeys_map (fst_plus 1)).mpr h.sorted) ?_ ?_, hcontents⟩
      · rw [slotuse_addDelay]
        exact hused
      · rw [slotuse_addDelay]
        exact hfits
      · rw [leaves_addDelay, innerCount_addDelay]
        exact h.store
      · rw [List.length_map]
        exact h.size

/-! ## §3 — sequences of operations -/

/-- The operations of a tree. -/
inductive Op (K : Type) where
  | insert (x : K)
  | eraseVal (v : K)
  | getRank (k : K)
  | increaseGlobalDelay
  | size

/-- What they return; the iterator of `insert` is not used. -/
inductive Answer where
  | done
  | erased (success : Bool) (rank delay : Nat)
  | count (n : Nat)
  deriving DecidableEq, Repr

/-- An operation on a tree. -/
def Op.run (c : Traits) (t : Tree K) : Op K → Option (Answer × Tree K)
  | .insert x => do
      let (_, t) ← t.insert c x
      some (.done, t)
  | .eraseVal v => do
      let ((success, rank, delay), t) ← t.eraseVal c v
      some (.erased success rank delay, t)
  | .getRank k => do
      let rank ← t.getRank c k
      some (.count rank, t)
  | .increaseGlobalDelay => some (.done, t.increaseGlobalDelay)
  | .size => some (.count t.store.size, t)

/-- The same operation on a list of values with delays. -/
def Op.spec (l : List (K × Nat)) : Op K → Answer × List (K × Nat)
  | .insert x =>
      (.done, l.takeWhile (fun p => decide (p.1 < x)) ++ (x, 0) :: l.dropWhile (fun p => decide (p.1 < x)))
  | .eraseVal v =>
      (.erased true (l.countP fun p => decide (p.1 < v))
        (((l.find? fun p => decide (p.1 = v)).map Prod.snd).getD 0),
        (l.eraseP fun p => decide (p.1 = v)).map fun p => if p.1 < v then (p.1, p.2 + 1) else p)
  | .getRank k => (.count (l.countP fun p => decide (p.1 < k)), l)
  | .increaseGlobalDelay => (.done, l.map fun p => (p.1, p.2 + 1))
  | .size => (.count l.length, l)

/-- A value that is to be erased is there. -/
def Op.Possible (l : List (K × Nat)) : Op K → Prop
  | .eraseVal v => v ∈ l.map Prod.fst
  | _ => True

/-- Operations one after the other. -/
def runOps (c : Traits) : List (Op K) → Tree K → Option (List Answer × Tree K)
  | [], t => some ([], t)
  | op :: ops, t => do
      let (answer, t) ← op.run c t
      let (answers, t) ← runOps c ops t
      some (answer :: answers, t)

/-- The same on a list. -/
def specOps : List (Op K) → List (K × Nat) → List Answer × List (K × Nat)
  | [], l => ([], l)
  | op :: ops, l =>
      let (answer, l) := op.spec l
      let (answers, l) := specOps ops l
      (answer :: answers, l)

/-- Each value that is to be erased is there by then. -/
def Possible : List (Op K) → List (K × Nat) → Prop
  | [], _ => True
  | op :: ops, l => op.Possible l ∧ Possible ops (op.spec l).2

/-- The delays of a list as the tree counts them. -/
def toInt (p : K × Nat) : K × Int := (p.1, (p.2 : Int))

omit [LinearOrder K] in
theorem fst_toInt (p : K × Nat) : (toInt p).1 = p.1 := rfl

/-- A well-formed tree that stands for a list. -/
structure Represents (c : Traits) (t : Tree K) (l : List (K × Nat)) : Prop where
  ok : TreeOk c t
  contents : t.contents = l.map toInt

namespace Represents

variable {t : Tree K} {l : List (K × Nat)}

theorem sorted (h : Represents c t l) : SortedKeys l := by
  have hsorted := h.ok.sorted
  rw [h.contents] at hsorted
  exact (sortedKeys_map fst_toInt).mp hsorted

theorem size (h : Represents c t l) : t.store.size = l.length := by
  rw [h.ok.size, h.contents, List.length_map]

theorem insert (h : Represents c t l) (x : K) :
    ∃ iter t', Tree.insert c t x = some (iter, t') ∧ Represents c t' (insertAt x 0 l) := by
  obtain ⟨iter, t', hinsert, hok, hcontents⟩ := insert_spec h.ok x
  have hmap : (insertAt x 0 l).map toInt = insertAt x 0 (l.map toInt) := insertAt_map fst_toInt x 0 l
  refine ⟨iter, t', hinsert, hok, ?_⟩
  rw [hcontents, h.contents, hmap]

theorem eraseVal (h : Represents c t l) {d : Nat} {B : List (K × Nat)} (hitem : notBelow v l = (v, d) :: B) :
    ∃ t', Tree.eraseVal c t v = some ((true, l.countP (fun p => decide (p.1 < v)), d), t') ∧
      Represents c t' (passBelow v (· + 1) (removeAt v l)) := by
  have hitem' : notBelow v t.contents = (v, (d : Int)) :: B.map toInt := by
    rw [h.contents, notBelow_map fst_toInt, hitem]
    rfl
  obtain ⟨t', herase, hok, hcontents⟩ := eraseVal_spec h.ok hitem'
  have hrank : (below v t.contents).length = l.countP fun p => decide (p.1 < v) := by
    rw [h.contents, below_map fst_toInt, List.length_map, h.sorted.countP_lt]
  rw [hrank, Int.toNat_natCast] at herase
  refine ⟨t', herase, hok, ?_⟩
  rw [hcontents, h.contents, ← removeAt_map fst_toInt, passBelow, passBelow, List.map_map, List.map_map]
  apply List.map_congr_left
  intro p _
  by_cases hp : p.1 < v
  · simp [toInt, hp]
  · simp [toInt, hp]

/-- **Each operation gives the answer of the list, and changes the tree as it changes the list.** -/
theorem step (h : Represents c t l) (op : Op K) (hpossible : op.Possible l) :
    ∃ t', op.run c t = some ((op.spec l).1, t') ∧ Represents c t' (op.spec l).2 := by
  cases op with
  | insert x =>
      obtain ⟨iter, t', hinsert, h'⟩ := h.insert x
      refine ⟨t', ?_, h'⟩
      simp only [Op.run, hinsert, Option.bind_eq_bind, Option.bind_some, Op.spec]
  | eraseVal v =>
      obtain ⟨d, B, hitem⟩ := h.sorted.notBelow_of_mem hpossible
      obtain ⟨t', herase, h'⟩ := h.eraseVal hitem
      have hdelay : ((l.find? fun p => decide (p.1 = v)).map Prod.snd).getD 0 = d := by
        rw [h.sorted.find?_eq hpossible, hitem]
        rfl
      refine ⟨t', ?_, ?_⟩
      · simp only [Op.run, herase, Option.bind_eq_bind, Option.bind_some, Op.spec, hdelay]
      · rw [h.sorted.removeAt_eq_eraseP hpossible] at h'
        exact h'
  | getRank k =>
      refine ⟨t, ?_, h⟩
      simp only [Op.run, getRank_spec h.ok, Option.bind_eq_bind, Option.bind_some, Op.spec]
      rw [h.contents, below_map fst_toInt, List.length_map, h.sorted.countP_lt]
  | increaseGlobalDelay =>
      obtain ⟨hok, hcontents⟩ := increaseGlobalDelay_spec h.ok
      refine ⟨_, rfl, hok, ?_⟩
      rw [hcontents, h.contents, Op.spec, List.map_map, List.map_map]
      rfl
  | size =>
      refine ⟨t, ?_, h⟩
      rw [Op.run, Op.spec, h.size]

theorem run {ops : List (Op K)} (h : Represents c t l) (hpossible : Possible ops l) :
    ∃ t', runOps c ops t = some ((specOps ops l).1, t') ∧ Represents c t' (specOps ops l).2 := by
  induction ops generalizing t l with
  | nil => exact ⟨t, rfl, h⟩
  | cons op ops ih =>
      obtain ⟨hop, hops⟩ := hpossible
      obtain ⟨t₁, hstep, h₁⟩ := h.step op hop
      obtain ⟨t', hrun, h'⟩ := ih h₁ hops
      refine ⟨t', ?_, h'⟩
      rw [runOps, hstep]
      simp only [Option.bind_eq_bind, Option.bind_some, hrun]
      rfl

end Represents

theorem represents_empty (c : Traits) : Represents c (Tree.empty : Tree K) [] := ⟨treeOk_empty c, rfl⟩

/-- **The tree refines a sorted list**: whatever operations are run, every answer is that of the list, and
the values of the tree with the delays along their paths are those of the list. -/
theorem refines_sortedList (c : Traits) (ops : List (Op K)) (h : Possible ops []) :
    ∃ t, runOps c ops (Tree.empty : Tree K) = some ((specOps ops []).1, t) ∧
      t.contents = (specOps ops []).2.map (fun p => (p.1, (p.2 : Int))) ∧ SortedKeys (specOps ops []).2 := by
  obtain ⟨t, hrun, hrepresents⟩ := (represents_empty c).run h
  exact ⟨t, hrun, hrepresents.contents, hrepresents.sorted⟩

/-- The smallest nodes that the default traits give. -/
def minTraits : Traits := ⟨8, 8, false, false, Nat.le_refl 8, Nat.le_refl 8⟩

/-- The ninth value splits the leaf. Then 1 leaves its half too small, which is given a value of the
other; after 9, 2 leaves it too small again, and the halves are merged. -/
def splitMerge : List (Op Nat) :=
  [.insert 1, .insert 2, .insert 3, .insert 4, .insert 5, .insert 6, .insert 7, .insert 8, .insert 9,
    .increaseGlobalDelay, .eraseVal 1, .insert 9, .getRank 5, .eraseVal 9, .eraseVal 2, .eraseVal 3, .size]

example : (runOps minTraits (splitMerge.take 14) Tree.empty).map (fun p => p.2.store.leaves) = some 2 := by
  decide +kernel

example : (runOps minTraits (splitMerge.take 15) Tree.empty).map (fun p => p.2.store.leaves) = some 1 := by
  decide +kernel

theorem possible_splitMerge : Possible splitMerge [] := by
  simp [splitMerge, Possible, Op.Possible, Op.spec]

theorem refines_sortedList_splitMerge :
    ∃ t, runOps minTraits splitMerge Tree.empty =
      some (List.replicate 10 .done ++ [.erased true 0 1, .done, .count 3, .erased true 7 0,
        .erased true 0 2, .erased true 0 2, .count 6], t) ∧
        t.contents = [(4, 2), (5, 2), (6, 2), (7, 2), (8, 2), (9, 1)] ∧
        SortedKeys [((4 : Nat), 2), (5, 2), (6, 2), (7, 2), (8, 2), (9, 1)] :=
  refines_sortedList minTraits splitMerge possible_splitMerge

end RelaxedConcurrentFifo.ReplayTree
