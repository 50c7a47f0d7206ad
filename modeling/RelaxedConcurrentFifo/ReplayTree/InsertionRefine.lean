/-
# RelaxedConcurrentFifo.ReplayTree.InsertionRefine — `insert` puts an item to its place

Whatever is split on the way, the nodes that an insertion leaves behind stand for the items of the old node
with the new one among them, and each of them is well formed. The delay that the leaf is given makes up for
those of the nodes above it.
-/
import RelaxedConcurrentFifo.ReplayTree.Insertion
import RelaxedConcurrentFifo.ReplayTree.Items

namespace RelaxedConcurrentFifo.ReplayTree

open RelaxedConcurrentFifo.Lib.KeyedLists
open RelaxedConcurrentFifo.Lib.LinkedLists
open RelaxedConcurrentFifo.Lib.SortedBlocks

variable {K : Type} {c : Traits} {n : Nat}

/-! ## §1 — what an insertion leaves -/

/-- The node, and the one that was split off. -/
def Inserted.nodes (r : Inserted K n) : List (Node K n) := r.node :: (r.split.map Prod.snd).toList

/-- The key between the two. -/
def Inserted.keys (r : Inserted K n) : List K := (r.split.map Prod.fst).toList

/-- What an insertion into `t` leaves. -/
structure InsertedOk [LinearOrder K] (c : Traits) (n : Nat) (key : K) (delay : Int) (t : Node K n)
    (st : Store) (r : Inserted K n) : Prop where
  inside : ∀ t' ∈ r.nodes, Inside c n t'
  grown : r.split = none → slotuse n t ≤ slotuse n r.node ∧ slotuse n r.node ≤ c.slotmax n
  filled : ∀ k t', r.split = some (k, t') →
    Filled c n r.node ∧ Filled c n t' ∧ blockLast (items n) r.node = some k
  items : r.nodes.flatMap (items n) = insertAt key (-delay) (items n t)
  store : ∀ l l' m, StoreOk st (l ++ leaves n t ++ l') (m + innerCount n t) →
    StoreOk r.store (l ++ r.nodes.flatMap (leaves n) ++ l') (m + (r.nodes.map (innerCount n)).sum)
  size : r.store.size = st.size

theorem StoreOk.addLeaf {st : Store} {l l' : List Nat} {a m : Nat} (h : StoreOk st (l ++ a :: l') m) :
    StoreOk { st with
      leaves := st.leaves + 1, links := st.links.insertAfter a st.fresh, fresh := st.fresh + 1 }
      (l ++ a :: st.fresh :: l') m := by
  have hnew : st.fresh ∉ l ++ a :: l' := fun hmem => Nat.lt_irrefl _ (h.fresh _ hmem)
  refine ⟨h.linked.insertAfter hnew, ?_, ?_, h.innerNodes⟩
  · intro b hb
    have hold : b = st.fresh ∨ b ∈ l ++ a :: l' := by
      simp only [List.mem_append, List.mem_cons] at hb ⊢
      tauto
    rcases hold with rfl | hold
    · exact Nat.lt_succ_self _
    · exact (h.fresh b hold).trans (Nat.lt_succ_self _)
  · show st.leaves + 1 = _
    rw [h.leaves]
    simp [Nat.add_assoc]

/-! ## §2 — leaves -/

section Leaves

variable [LinearOrder K] {key : K} {leaf : LeafNode K} {delay : Int} {st : Store}

/-- Putting an item to the place that was found. -/
theorem insertIdx_below (key : K) (d : Int) (l : List (K × Int)) :
    l.insertIdx (below key l).length (key, d) = insertAt key d l := by
  have hplace := insertIdx_append_right (below key l) (notBelow key l) 0 (key, d)
  rw [below_append_notBelow, Nat.add_zero, List.insertIdx_zero] at hplace
  exact hplace

theorem length_below_le (key : K) (l : List (K × Int)) : (below key l).length ≤ l.length := by
  have hcut := congrArg List.length (below_append_notBelow key l)
  rw [List.length_append] at hcut
  omega

omit [LinearOrder K] in
theorem getLast?_keys (leaf : LeafNode K) : leaf.keys.getLast? = lastKey leaf.slots := List.getLast?_map

omit [LinearOrder K] in
theorem lastKey_eq_some {l : List (K × Int)} (h : l ≠ []) : ∃ k, lastKey l = some k :=
  ⟨(l.getLast h).1, by simp [lastKey, List.getLast?_eq_some_getLast h]⟩

omit [LinearOrder K] in
/-- An item that is not put at the end does not change the last key. -/
theorem lastKey_insertIdx {l : List (K × Int)} {i : Nat} (hi : i < l.length) (p : K × Int) :
    lastKey (l.insertIdx i p) = lastKey l := by
  have hne : l.drop i ≠ [] := by
    intro hnil
    have := List.drop_eq_nil_iff.mp hnil
    omega
  have hcut : l.take i ++ p :: l.drop i = (l.take i ++ [p]) ++ l.drop i := by simp
  rw [insertIdx_eq l hi.le, hcut, lastKey_append_of_ne_nil _ hne,
    ← lastKey_append_of_ne_nil (l.take i) hne, List.take_append_drop]

omit [LinearOrder K] in
theorem splitLeafNode_eq (leaf : LeafNode K) (st : Store) (hlen : 2 ≤ leaf.slots.length) :
    ∃ k, lastKey (leaf.slots.take (leaf.slots.length / 2)) = some k ∧
      splitLeafNode leaf st = some ({ leaf with slots := leaf.slots.take (leaf.slots.length / 2) }, k,
        ⟨st.fresh, 0, leaf.slots.drop (leaf.slots.length / 2)⟩,
        { st with
          leaves := st.leaves + 1, links := st.links.insertAfter leaf.addr st.fresh,
          fresh := st.fresh + 1 }) := by
  have hne : leaf.slots.take (leaf.slots.length / 2) ≠ [] := by
    apply List.ne_nil_of_length_pos
    rw [List.length_take]
    omega
  obtain ⟨k, hk⟩ := lastKey_eq_some hne
  refine ⟨k, hk, ?_⟩
  simp only [splitLeafNode, getLast?_keys, hk, Option.bind_eq_bind, Option.bind_some]

omit [LinearOrder K] in
theorem LeafNode.insertSlot_eq {slot : Nat} (hslot : slot ≤ leaf.slots.length)
    (hroom : leaf.slots.length < c.leafSlots) (item : K × Int) :
    leaf.insertSlot c slot item = some { leaf with slots := leaf.slots.insertIdx slot item } :=
  if_pos ⟨hslot, hroom⟩

/-- **An insertion into a leaf.** -/
theorem insertLeaf_spec (hlevel : leaf.level = 0) (hfit : leaf.slots.length ≤ c.leafSlots)
    (hsorted : SortedKeys leaf.slots) (delay : Int) (st : Store) :
    ∃ r, insertLeaf c key leaf delay st = some r ∧ InsertedOk c 0 key delay leaf st r := by
  have hfind := findLower_leaf (c := c) hsorted key
  have hslot := length_below_le key leaf.slots
  have hplace := insertIdx_below key (-delay) leaf.slots
  have hge := c.leafSlots_ge
  generalize (below key leaf.slots).length = slot at hfind hslot hplace
  unfold insertLeaf
  rw [hfind]
  simp only [Option.bind_eq_bind, Option.bind_some]
  -- a full leaf is split first, and the slot then lies in one of its halves
  by_cases hfull : leaf.slots.length = c.leafSlots
  · rw [if_pos hfull]
    obtain ⟨k, hk, hsplit⟩ := splitLeafNode_eq leaf st (by omega)
    rw [hsplit]
    simp only [Option.bind_some]
    have hmid : (leaf.slots.take (leaf.slots.length / 2)).length = leaf.slots.length / 2 :=
      List.length_take_of_le (by omega)
    have hrest : (leaf.slots.drop (leaf.slots.length / 2)).length =
        leaf.slots.length - leaf.slots.length / 2 := List.length_drop
    have hcut := List.take_append_drop (leaf.slots.length / 2) leaf.slots
    have hmin : c.slotmin 0 = c.leafSlots / 2 := rfl
    have hmax : c.slotmax 0 = c.leafSlots := rfl
    generalize leaf.slots.take (leaf.slots.length / 2) = front at hk hmid hcut ⊢
    generalize leaf.slots.drop (leaf.slots.length / 2) = back at hrest hcut ⊢
    rw [← hcut] at hplace
    -- at the cut itself the item goes to the right half
    by_cases hside : front.length ≤ slot
    · rw [if_pos hside]
      have hinto : slot - front.length ≤ back.length := by omega
      rw [LeafNode.insertSlot_eq hinto (by show back.length < _; omega)]
      refine ⟨_, rfl, ?_, (fun heq => by cases heq), ?_, ?_, ?_, rfl⟩
      · simp [Inserted.nodes, Inside, hlevel]
      · intro k' t' heq
        cases heq
        refine ⟨⟨?_, ?_⟩, ⟨?_, ?_⟩, hk⟩
        all_goals
          simp only [slotuse, List.length_insertIdx_of_le_length hinto, hmin, hmax]
          omega
      · have hitems := insertIdx_append_right front back (slot - front.length) (key, -delay)
        rw [Nat.add_sub_cancel' hside, hplace, hcut] at hitems
        simp [Inserted.nodes, items, hitems]
      · intro l l' m hst
        simp only [leaves, innerCount, Inserted.nodes] at hst ⊢
        simpa using (by simpa using hst : StoreOk st (l ++ leaf.addr :: l') m).addLeaf
    · rw [if_neg hside]
      have hinto : slot < front.length := Nat.lt_of_not_le hside
      rw [LeafNode.insertSlot_eq hinto.le (by show front.length < _; omega)]
      have hlength : (front.insertIdx slot (key, -delay)).length = front.length + 1 :=
        List.length_insertIdx_of_le_length hinto.le _
      have hnot : ¬ slot = (front.insertIdx slot (key, -delay)).length - 1 := by omega
      simp only [Option.bind_some, if_neg hnot]
      refine ⟨_, rfl, ?_, (fun heq => by cases heq), ?_, ?_, ?_, rfl⟩
      · simp [Inserted.nodes, Inside, hlevel]
      · intro k' t' heq
        cases heq
        refine ⟨⟨?_, ?_⟩, ⟨?_, ?_⟩, (lastKey_insertIdx hinto _).trans hk⟩
        all_goals
          simp only [slotuse, hlength, hmin, hmax]
          omega
      · have hitems := insertIdx_append_left front back hinto.le (key, -delay)
        rw [hplace, hcut] at hitems
        simp [Inserted.nodes, items, hitems]
      · intro l l' m hst
        simp only [leaves, innerCount, Inserted.nodes] at hst ⊢
        simpa using (by simpa using hst : StoreOk st (l ++ leaf.addr :: l') m).addLeaf
  · rw [if_neg hfull, LeafNode.insertSlot_eq hslot (by omega)]
    have hlength : (leaf.slots.insertIdx slot (key, -delay)).length = leaf.slots.length + 1 :=
      List.length_insertIdx_of_le_length hslot _
    refine ⟨_, rfl, ?_, fun _ => ⟨?_, ?_⟩, (fun _ _ heq => by cases heq), ?_, ?_, rfl⟩
    · simp [Inserted.nodes, Inside, hlevel]
    · simp only [slotuse, hlength]
      omega
    · show (leaf.slots.insertIdx slot (key, -delay)).length ≤ c.leafSlots
      omega
    · simp [Inserted.nodes, items, hplace]
    · intro l l' m hst
      simpa [Inserted.nodes, leaves, innerCount] using hst

end Leaves

/-! ## §3 — inner nodes -/

/-- How an inner node is left that was to take `keys` and `children`. -/
inductive Attached (c : Traits) (inner : InnerNode K (Node K n)) (keys : List K)
    (children : List (Node K n)) (st : Store) :
    InnerNode K (Node K n) → Option (K × InnerNode K (Node K n)) → Store → Prop
  | kept (hfit : keys.length ≤ c.innerSlots) :
      Attached c inner keys children st (withChildren inner keys children) none st
  | split {kl kr : List K} {cl cr : List (Node K n)} {k : K} (hkeys : kl ++ k :: kr = keys)
      (hchildren : cl ++ cr = children) (hlength : cl.length = kl.length + 1)
      (hleft : c.innerSlotmin ≤ kl.length ∧ kl.length ≤ c.innerSlots)
      (hright : c.innerSlotmin ≤ kr.length ∧ kr.length ≤ c.innerSlots) :
      Attached c inner keys children st (withChildren inner kl cl) (some (k, withChildren inner kr cr))
        { st with innerNodes := st.innerNodes + 1 }

theorem splitInnerNode_eq (inner : InnerNode K (Node K n)) (addslot : Nat)
    (hlen : 2 ≤ inner.slotkey.length) (hchildren : inner.childid.length = inner.slotkey.length + 1) :
    ∃ kl k kr cl cr, inner.slotkey = kl ++ k :: kr ∧ inner.childid = cl ++ cr ∧
      cl.length = kl.length + 1 ∧ cr.length = kr.length + 1 ∧
      kl.length = (if addslot ≤ inner.slotkey.length / 2 ∧
        inner.slotkey.length / 2 > inner.slotkey.length - (inner.slotkey.length / 2 + 1) then
          inner.slotkey.length / 2 - 1 else inner.slotkey.length / 2) ∧
      splitInnerNode inner addslot = some (withChildren inner kl cl, k, withChildren inner kr cr) := by
  unfold splitInnerNode
  dsimp only
  generalize hmid : (if addslot ≤ inner.slotkey.length / 2 ∧
    inner.slotkey.length / 2 > inner.slotkey.length - (inner.slotkey.length / 2 + 1) then
      inner.slotkey.length / 2 - 1 else inner.slotkey.length / 2) = mid
  have hlt : mid < inner.slotkey.length := by
    rw [← hmid]
    split <;> omega
  have hget := List.getElem?_eq_getElem hlt
  refine ⟨inner.slotkey.take mid, inner.slotkey[mid], inner.slotkey.drop (mid + 1),
    inner.childid.take (mid + 1), inner.childid.drop (mid + 1), ?_, ?_, ?_, ?_, ?_, ?_⟩
  · rw [← List.drop_eq_getElem_cons hlt, List.take_append_drop]
  · rw [List.take_append_drop]
  · rw [List.length_take_of_le (by omega), List.length_take_of_le hlt.le]
  · rw [List.length_drop, List.length_drop]
    omega
  · exact List.length_take_of_le hlt.le
  · rw [hget]
    rfl

/-- **A new child of a node, and its key, are put behind the child at `slot`.** -/
theorem insertChild_spec (inner : InnerNode K (Node K n)) {slot : Nat}
    (hchildren : inner.childid.length = inner.slotkey.length + 1)
    (hfit : inner.slotkey.length ≤ c.innerSlots) (hslot : slot ≤ inner.slotkey.length) (newkey : K)
    (newchild : Node K n) (st : Store) :
    ∃ left split st', insertChild c inner slot newkey newchild st = some (left, split, st') ∧
      Attached c inner (inner.slotkey.insertIdx slot newkey)
        (inner.childid.insertIdx (slot + 1) newchild) st left split st' := by
  have hge := c.innerSlots_ge
  have hmin : c.innerSlotmin = c.innerSlots / 2 := rfl
  unfold insertChild
  by_cases hfull : inner.slotkey.length = c.innerSlots
  · rw [if_pos hfull]
    obtain ⟨kl, k, kr, cl, cr, hkeys, hchildid, hcl, hcr, hmid, hsplit⟩ :=
      splitInnerNode_eq inner slot (by omega) hchildren
    have hlength := congrArg List.length hkeys
    rw [List.length_append, List.length_cons] at hlength
    rw [hsplit]
    simp only [Option.bind_eq_bind, Option.bind_some]
    have hleftkeys : (withChildren inner kl cl).slotkey = kl := rfl
    have hrightkeys : (withChildren inner kr cr).slotkey = kr := rfl
    have hrightchildren : (withChildren inner kr cr).childid = cr := rfl
    -- the middle is one lower when the new key goes left and the left half would be the larger one
    have hhalf : (slot ≤ c.innerSlots / 2 ∧ c.innerSlots / 2 > c.innerSlots - (c.innerSlots / 2 + 1) ∧
          kl.length + 1 = c.innerSlots / 2) ∨
        (¬ (slot ≤ c.innerSlots / 2 ∧ c.innerSlots / 2 > c.innerSlots - (c.innerSlots / 2 + 1)) ∧
          kl.length = c.innerSlots / 2) := by
      rw [hfull] at hmid
      split at hmid
      · rename_i huneven
        exact .inl ⟨huneven.1, huneven.2, by omega⟩
      · rename_i heven
        exact .inr ⟨heven, hmid⟩
    clear hmid
    rw [hleftkeys, hrightkeys, hrightchildren]
    -- the new key falls right behind the cut: it goes up itself, and the right half gives its first
    -- child to the left one
    by_cases hspecial : slot = kl.length + 1 ∧ kl.length < kr.length
    · rw [if_pos hspecial]
      obtain ⟨hslot', hfewer⟩ := hspecial
      obtain ⟨first, rest, rfl⟩ := List.exists_cons_of_ne_nil (List.ne_nil_of_length_eq_add_one hcr)
      simp only [List.head?_cons, Option.bind_some, List.tail_cons]
      rw [if_pos (by omega)]
      have hk : (kl ++ [k]) ++ newkey :: kr = inner.slotkey.insertIdx slot newkey := by
        have hplace := insertIdx_append_right (kl ++ [k]) kr 0 newkey
        have hcut : inner.slotkey = (kl ++ [k]) ++ kr := by simp [hkeys]
        rw [hcut, hslot']
        simpa using hplace.symm
      have hc : (cl ++ [first]) ++ newchild :: rest = inner.childid.insertIdx (slot + 1) newchild := by
        have hplace := insertIdx_append_right (cl ++ [first]) rest 0 newchild
        have hcut : inner.childid = (cl ++ [first]) ++ rest := by simp [hchildid]
        have hindex : slot + 1 = (cl ++ [first]).length + 0 := by simp [hcl, hslot']
        rw [hcut, hindex, hplace, List.insertIdx_zero]
      refine ⟨_, _, _, rfl, .split hk hc ?_ ?_ ?_⟩
      · show (cl ++ [first]).length = (kl ++ [k]).length + 1
        simp [hcl]
      · simp only [List.length_append, List.length_singleton]
        omega
      · omega
    · rw [if_neg hspecial]
      -- otherwise the new key goes into the half where its slot lies
      by_cases hside : slot ≥ kl.length + 1
      · rw [if_pos hside]
        have hinto : slot - (kl.length + 1) ≤ kr.length := by omega
        have hinsert : (withChildren inner kr cr).insertSlot c (slot - (kl.length + 1)) newkey newchild =
            some { withChildren inner kr cr with
              slotkey := kr.insertIdx (slot - (kl.length + 1)) newkey,
              childid := cr.insertIdx (slot - (kl.length + 1) + 1) newchild } :=
          if_pos ⟨hinto, by show kr.length < _; omega⟩
        rw [hinsert]
        have hk : kl ++ k :: kr.insertIdx (slot - (kl.length + 1)) newkey =
            inner.slotkey.insertIdx slot newkey := by
          have hplace := insertIdx_append_right (kl ++ [k]) kr (slot - (kl.length + 1)) newkey
          have hcut : inner.slotkey = (kl ++ [k]) ++ kr := by simp [hkeys]
          have hindex : slot = (kl ++ [k]).length + (slot - (kl.length + 1)) := by
            simp only [List.length_append, List.length_singleton]
            omega
          rw [hcut]
          conv_rhs => rw [hindex, hplace]
          simp
        have hc : cl ++ cr.insertIdx (slot - (kl.length + 1) + 1) newchild =
            inner.childid.insertIdx (slot + 1) newchild := by
          have hplace := insertIdx_append_right cl cr (slot - (kl.length + 1) + 1) newchild
          have hindex : slot + 1 = cl.length + (slot - (kl.length + 1) + 1) := by omega
          rw [hchildid, hindex, hplace]
        refine ⟨_, _, _, rfl, .split hk hc hcl ?_ ?_⟩
        · omega
        · rw [List.length_insertIdx_of_le_length hinto]
          omega
      · rw [if_neg hside]
        have hinto : slot ≤ kl.length := by omega
        have hinsert : (withChildren inner kl cl).insertSlot c slot newkey newchild =
            some { withChildren inner kl cl with
              slotkey := kl.insertIdx slot newkey, childid := cl.insertIdx (slot + 1) newchild } :=
          if_pos ⟨hinto, by show kl.length < _; omega⟩
        rw [hinsert]
        have hk : kl.insertIdx slot newkey ++ k :: kr = inner.slotkey.insertIdx slot newkey := by
          rw [hkeys, insertIdx_append_left kl (k :: kr) hinto]
        have hc : cl.insertIdx (slot + 1) newchild ++ cr = inner.childid.insertIdx (slot + 1) newchild := by
          rw [hchildid, insertIdx_append_left cl cr (by omega)]
        refine ⟨_, _, _, rfl, .split hk hc ?_ ?_ ?_⟩
        · rw [List.length_insertIdx_of_le_length hinto,
            List.length_insertIdx_of_le_length (by omega), hcl]
        · rw [List.length_insertIdx_of_le_length hinto]
          omega
        · omega
  · rw [if_neg hfull]
    have hinsert : inner.insertSlot c slot newkey newchild = some { inner with
        slotkey := inner.slotkey.insertIdx slot newkey,
        childid := inner.childid.insertIdx (slot + 1) newchild } := if_pos ⟨hslot, by omega⟩
    rw [hinsert]
    refine ⟨_, _, _, rfl, .kept ?_⟩
    rw [List.length_insertIdx_of_le_length hslot]
    omega

/-! ## §4 — what the two nodes stand for -/

/-- **Whether a node could take its keys and children or was split, nothing is lost.** -/
theorem Attached.insertedOk [LinearOrder K] {inner left : InnerNode K (Node K n)} {keys : List K}
    {children : List (Node K n)} {st st' : Store} {split : Option (K × InnerNode K (Node K n))}
    (h : Attached c inner keys children st left split st') (hlevel : inner.level = n + 1)
    (hseparated : Separated (blockLast (items n)) keys children)
    (hchildren : ∀ child ∈ children, Inside c n child ∧ Filled c n child)
    (hgrown : inner.slotkey.length ≤ keys.length) {key : K} {delay : Int} {st₀ : Store}
    (hitems : children.flatMap (items n) =
      insertAt key (-(delay + inner.delay)) (inner.childid.flatMap (items n)))
    (hstore : ∀ l l' m, StoreOk st₀ (l ++ leaves (n + 1) inner ++ l') (m + innerCount (n + 1) inner) →
      StoreOk st (l ++ children.flatMap (leaves n) ++ l') (m + ((children.map (innerCount n)).sum + 1)))
    (hsize : st.size = st₀.size) (iter : Iter) :
    InsertedOk c (n + 1) key delay inner st₀ ⟨left, split, iter, st'⟩ := by
  have hplaced : (children.flatMap (items n)).map (plus inner.delay) =
      insertAt key (-delay) (items (n + 1) inner) := by
    rw [hitems, insertAt_map (fst_plus inner.delay)]
    congr 1
    show -(delay + inner.delay) + inner.delay = -delay
    omega
  -- the parts share the delay of the old node, so its items are the same in either case
  cases h with
  | kept hfit =>
      refine ⟨?_, fun _ => ⟨hgrown, hfit⟩, (fun _ _ heq => by cases heq), ?_, ?_, hsize⟩
      · intro t' ht'
        obtain rfl := List.mem_singleton.mp ht'
        exact inside_withChildren hlevel hseparated hchildren
      · rw [← hplaced]
        exact List.append_nil _
      · intro l l' m hst
        have hleaves := hstore l l' m hst
        simp only [Inserted.nodes, Option.map_none, Option.toList_none, List.flatMap_cons, List.flatMap_nil,
          List.append_nil, List.map_cons, List.map_nil, List.sum_cons, List.sum_nil]
        exact hleaves
  | @split kl kr cl cr k hkeys hparts hlength hleft hright =>
      subst hkeys hparts
      obtain ⟨hsepl, hlast, hsepr⟩ := hseparated.split hlength
      have hcl : ∀ child ∈ cl, Inside c n child ∧ Filled c n child :=
        fun child hmem => hchildren child (List.mem_append_left _ hmem)
      have hcr : ∀ child ∈ cr, Inside c n child ∧ Filled c n child :=
        fun child hmem => hchildren child (List.mem_append_right _ hmem)
      refine ⟨?_, (fun heq => by cases heq), ?_, ?_, ?_, hsize⟩
      · intro t' ht'
        rcases List.mem_cons.mp ht' with rfl | ht'
        · exact inside_withChildren hlevel hsepl hcl
        · obtain rfl := List.mem_singleton.mp ht'
          exact inside_withChildren hlevel hsepr hcr
      · intro k' t' heq
        cases heq
        refine ⟨hleft, hright, ?_⟩
        exact (blockLast_inner (withChildren inner kl cl) hcl).trans hlast
      · rw [← hplaced]
        simp [Inserted.nodes, items_withChildren]
      · intro l l' m hst
        have hleaves := hstore l l' m hst
        refine ⟨?_, ?_, ?_, ?_⟩
        · simpa [Inserted.nodes, leaves, withChildren] using hleaves.linked
        · simpa [Inserted.nodes, leaves, withChildren] using hleaves.fresh
        · simpa [Inserted.nodes, leaves, withChildren] using hleaves.leaves
        · have hinner := hleaves.innerNodes
          simp only [Inserted.nodes, innerCount, withChildren, updateSubtreeSize_childid, Option.map_some,
            Option.toList_some, List.map_append, List.sum_append, List.map_cons, List.map_nil, List.sum_cons,
            List.sum_nil] at hinner ⊢
          omega

/-! ## §5 — the descent -/

section Descent

variable [LinearOrder K] {key : K}

/-- The last key of the nodes that an insertion leaves, if the new one is not above it. -/
theorem lastKey_nodes {delay : Int} {t : Node K n} {st : Store} {r : Inserted K n}
    (h : InsertedOk c n key delay t st r) {k : K} (hlast : blockLast (items n) t = some k) (hle : key ≤ k) :
    lastKey (r.nodes.flatMap (items n)) = some k := by
  rw [h.items]
  exact lastKey_insertAt hlast hle

/-- The nodes that an insertion leaves, in the place of the node. -/
theorem separated_nodes {delay : Int} {child : Node K n} {st : Store} {r : Inserted K n}
    (h : InsertedOk c n key delay child st r) {keys' : List K} {after : List (Node K n)}
    (hafter : Separated (blockLast (items n)) keys' (child :: after)) (hle : ∀ k ∈ keys', key ≤ k) :
    Separated (blockLast (items n)) (r.keys ++ keys') (r.nodes ++ after) := by
  have hlast := fun k => lastKey_nodes h (k := k)
  obtain ⟨node, split, iter, st'⟩ := r
  cases split with
  | none =>
      cases hafter with
      | single => exact .single _
      | @cons k keys _ after hchild hrest =>
          refine .cons ?_ hrest
          have := hlast k hchild (hle k List.mem_cons_self)
          simpa [Inserted.nodes, blockLast] using this
  | some p =>
      obtain ⟨k, t'⟩ := p
      obtain ⟨-, hfilled, hnode⟩ := h.filled k t' rfl
      have hinside : Inside c n t' := h.inside t' (by simp [Inserted.nodes])
      refine .cons hnode ?_
      cases hafter with
      | single => exact .single _
      | @cons k' keys _ after hchild hrest =>
          refine .cons ?_ hrest
          have := hlast k' hchild (hle k' List.mem_cons_self)
          simp only [Inserted.nodes, Option.map_some, Option.toList_some, List.flatMap_cons, List.flatMap_nil,
            List.append_nil] at this
          rwa [lastKey_append_of_ne_nil _ (hfilled.items_ne_nil hinside)] at this

/-- All of them use as many slots as they should. -/
theorem good_nodes {delay : Int} {child : Node K n} {st : Store} {r : Inserted K n}
    (h : InsertedOk c n key delay child st r) (hmin : c.slotmin n ≤ slotuse n child) :
    ∀ t' ∈ r.nodes, Inside c n t' ∧ Filled c n t' := by
  intro t' ht'
  refine ⟨h.inside t' ht', ?_⟩
  obtain ⟨node, split, iter, st'⟩ := r
  cases split with
  | none =>
      obtain rfl : t' = node := List.mem_singleton.mp ht'
      obtain ⟨hgrown, hfit⟩ := h.grown rfl
      exact ⟨hmin.trans hgrown, hfit⟩
  | some p =>
      obtain ⟨hnode, hright, -⟩ := h.filled p.1 p.2 rfl
      rcases List.mem_cons.mp ht' with rfl | ht'
      · exact hnode
      · obtain rfl := List.mem_singleton.mp ht'
        exact hright

/-- An inner node, after an insertion into its child. -/
theorem insertDescend_succ {inner : InnerNode K (Node K n)} {keys keys' : List K}
    {before after : List (Node K n)} {child : Node K n} {delay : Int} {st : Store} {r : Inserted K n}
    (hroute : Routed c inner key keys keys' before child after)
    (hchild : insertDescend c key n child (delay + inner.delay) st = some r)
    (hlength : inner.childid.length = inner.slotkey.length + 1) (hfit : inner.slotkey.length ≤ c.innerSlots) :
    ∃ left split st', insertDescend c key (n + 1) inner delay st = some ⟨left, split, r.iter, st'⟩ ∧
      Attached c inner (keys ++ (r.keys ++ keys')) (before ++ (r.nodes ++ after)) r.store left split st' := by
  obtain ⟨node, split, iter, st'⟩ := r
  cases split with
  | none =>
      have hunfold : insertDescend c key (n + 1) inner delay st =
          some ⟨updateSubtreeSize { inner with childid := before ++ node :: after }, none, iter, st'⟩ := by
        rw [insertDescend, hroute.find]
        simp only [Option.bind_eq_bind, Option.bind_some, hroute.getElem?, hchild, hroute.set]
      have hnode : updateSubtreeSize { inner with childid := before ++ node :: after } =
          withChildren inner (keys ++ ([] ++ keys')) (before ++ ([node] ++ after)) := by
        rw [List.nil_append, ← hroute.slotkey]
        rfl
      rw [hunfold]
      refine ⟨_, _, _, rfl, ?_⟩
      show Attached c inner (keys ++ ([] ++ keys')) (before ++ ([node] ++ after)) st' _ _ _
      rw [hnode]
      refine .kept ?_
      rwa [List.nil_append, ← hroute.slotkey]
  | some p =>
      obtain ⟨newkey, newchild⟩ := p
      have hkeys : inner.slotkey.insertIdx keys.length newkey = keys ++ ([newkey] ++ keys') := by
        rw [hroute.slotkey]
        exact insertIdx_append_right keys keys' 0 newkey
      have hchildren : (before ++ node :: after).insertIdx (keys.length + 1) newchild =
          before ++ ([node, newchild] ++ after) := by
        have hplace := insertIdx_append_right (before ++ [node]) after 0 newchild
        have hindex : keys.length + 1 = (before ++ [node]).length + 0 := by
          rw [← hroute.length]
          simp
        have hconcat : before ++ node :: after = (before ++ [node]) ++ after := by simp
        rw [hindex, hconcat, hplace]
        simp
      have hcount : (before ++ node :: after).length = inner.slotkey.length + 1 := by
        rw [← hlength, hroute.childid]
        simp
      obtain ⟨left, split, st'', hinsert, hattached⟩ : ∃ left split st'',
          insertChild c { inner with childid := before ++ node :: after } keys.length newkey newchild st' =
            some (left, split, st'') ∧
          Attached c { inner with childid := before ++ node :: after }
            (inner.slotkey.insertIdx keys.length newkey)
            ((before ++ node :: after).insertIdx (keys.length + 1) newchild) st' left split st'' :=
        insertChild_spec { inner with childid := before ++ node :: after } hcount hfit hroute.slot_le newkey newchild st'
      refine ⟨left, split, st'', ?_, ?_⟩
      · rw [insertDescend, hroute.find]
        simp only [Option.bind_eq_bind, Option.bind_some, hroute.getElem?, hchild, hroute.set, hinsert]
      · rw [hkeys, hchildren] at hattached
        cases hattached with
        | kept hfit' => exact .kept hfit'
        | split h₁ h₂ h₃ h₄ h₅ => exact .split h₁ h₂ h₃ h₄ h₅

/-- **`insert_descend` puts the item to its place, whatever is split.** -/
theorem insertDescend_spec (c : Traits) (key : K) (n : Nat) :
    ∀ (t : Node K n) (delay : Int) (st : Store), Inside c n t → slotuse n t ≤ c.slotmax n →
      SortedKeys (items n t) →
        ∃ r, insertDescend c key n t delay st = some r ∧ InsertedOk c n key delay t st r := by
  induction n with
  | zero =>
      intro leaf delay st hinside hfit hsorted
      exact insertLeaf_spec hinside hfit hsorted delay st
  | succ n ih =>
      intro inner delay st hinside hfit hsorted
      obtain ⟨keys, keys', before, child, after, hroute⟩ := exists_routed (c := c) hinside hsorted key
      obtain ⟨hchild, hfilled⟩ := hinside.children child hroute.mem
      obtain ⟨r, hr, hok⟩ := ih child (delay + inner.delay) st hchild hfilled.2 hroute.sorted
      obtain ⟨left, split, st', hinsert, hattached⟩ :=
        insertDescend_succ hroute hr hinside.separated.length_eq hfit
      refine ⟨_, hinsert, hattached.insertedOk hinside.level ?_ ?_ ?_ ?_ ?_ hok.size r.iter⟩
      · exact Separated.append_left hroute.lasts (separated_nodes hok hroute.separated hroute.keys_le)
      · intro t' ht'
        have hold : ∀ t'' ∈ before ++ child :: after, Inside c n t'' ∧ Filled c n t'' :=
          hroute.childid ▸ hinside.children
        rcases List.mem_append.mp ht' with ht' | ht'
        · exact hold t' (List.mem_append_left _ ht')
        · rcases List.mem_append.mp ht' with ht' | ht'
          · exact good_nodes hok hfilled.1 t' ht'
          · exact hold t' (List.mem_append_right _ (List.mem_cons_of_mem _ ht'))
      · rw [hroute.slotkey]
        simp only [List.length_append]
        omega
      · rw [hroute.items_eq, insertAt_append hroute.lt hroute.le, ← hok.items]
        simp
      · intro l l' m hst
        have hchildren : leaves (n + 1) inner = before.flatMap (leaves n) ++ leaves n child ++
            after.flatMap (leaves n) := by
          rw [leaves, hroute.childid]
          simp
        have hcount : innerCount (n + 1) inner = (before.map (innerCount n)).sum + (innerCount n child +
            (after.map (innerCount n)).sum) + 1 := by
          rw [innerCount, hroute.childid]
          simp
        rw [hchildren, hcount] at hst
        have hput := hok.store (l ++ before.flatMap (leaves n)) (after.flatMap (leaves n) ++ l')
          (m + (before.map (innerCount n)).sum + (after.map (innerCount n)).sum + 1)
          (by convert hst using 1 <;> [simp; omega])
        convert hput using 1
        · simp
        · simp only [List.map_append, List.sum_append]
          omega

end Descent

/-! ## §6 — the tree -/

section Trees

variable [LinearOrder K] {key : K}

/-- **A root that was split gets a parent.** -/
theorem rootOk_newRoot {st : Store} {root : Node K n} {r : Inserted K n}
    (h : InsertedOk c n key 0 root st r) {newkey : K} {newchild : Node K n}
    (hsplit : r.split = some (newkey, newchild)) :
    RootOk c (n + 1) (withChildren ⟨level n r.node + 1, 0, 0, [], []⟩ [newkey] [r.node, newchild]) := by
  obtain ⟨hnode, hnew, hlast⟩ := h.filled newkey newchild hsplit
  have hinside : ∀ t' ∈ [r.node, newchild], Inside c n t' := by
    intro t' ht'
    refine h.inside t' ?_
    rw [Inserted.nodes, hsplit]
    exact ht'
  have hroom := c.four_le_slotmin (n + 1)
  have hmax := c.two_slotmin_le (n + 1)
  refine ⟨inside_withChildren ?_ (.cons hlast (.single newchild)) fun t' ht' => ⟨hinside t' ht', ?_⟩,
    Nat.le_refl 1, ?_⟩
  · show level n r.node + 1 = n + 1
    rw [(hinside r.node List.mem_cons_self).level_eq]
  · rcases List.mem_cons.mp ht' with rfl | ht'
    · exact hnode
    · obtain rfl := List.mem_singleton.mp ht'
      exact hnew
  · show 1 ≤ c.slotmax (n + 1)
    omega

/-- The tree that an insertion below the root leaves. -/
theorem insert_root {t : Tree K} {n : Nat} {root : Node K n} {st : Store} {r : Inserted K n}
    (hroot : t.rootOrLeaf = (⟨n, root⟩, st)) (hdescend : insertDescend c key n root 0 st = some r)
    (hr : InsertedOk c n key 0 root st r) (hstore : StoreOk st (leaves n root) (innerCount n root))
    (hsorted : SortedKeys (items n root)) (hsize : st.size = (items n root).length)
    (hused : r.split = none → 1 ≤ slotuse n r.node) :
    ∃ iter t', Tree.insert c t key = some (iter, t') ∧ TreeOk c t' ∧
      t'.contents = insertAt key 0 (items n root) := by
  have hitems := hr.items
  rw [Int.neg_zero] at hitems
  have hleaves := hr.store [] [] 0 (by simpa using hstore)
  have hlength := length_insertAt key (0 : Int) (items n root)
  have hsorted' : SortedKeys (insertAt key (0 : Int) (items n root)) := hsorted.insertAt
  have hcount : r.store.size + 1 = (insertAt key (0 : Int) (items n root)).length := by
    rw [hlength, hr.size, hsize]
  unfold Tree.insert
  rw [hroot]
  simp only [hdescend, Option.bind_eq_bind, Option.bind_some]
  cases hsplit : r.split with
  | none =>
      have hnodes : r.nodes = [r.node] := by rw [Inserted.nodes, hsplit]; rfl
      rw [hnodes] at hitems hleaves
      have hcontents : items n r.node = insertAt key 0 (items n root) := by simpa using hitems
      have hroot' : RootOk c n r.node := by
        refine ⟨hr.inside r.node ?_, hused hsplit, (hr.grown hsplit).2⟩
        rw [hnodes]
        exact List.mem_singleton_self _
      refine ⟨_, _, rfl, treeOk_of_root hroot' hcontents hsorted' ⟨?_, ?_, ?_, ?_⟩ hcount, hcontents⟩
      · simpa using hleaves.linked
      · simpa using hleaves.fresh
      · simpa using hleaves.leaves
      · simpa using hleaves.innerNodes
  | some p =>
      obtain ⟨newkey, newchild⟩ := p
      have hnodes : r.nodes = [r.node, newchild] := by rw [Inserted.nodes, hsplit]; rfl
      rw [hnodes] at hitems hleaves
      have hcontents : items (n + 1) (withChildren ⟨level n r.node + 1, 0, 0, [], []⟩ [newkey]
          [r.node, newchild]) = insertAt key 0 (items n root) := by
        rw [items_withChildren, map_plus_zero]
        exact hitems
      have hstore' : StoreOk r.store (leaves n r.node ++ (leaves n newchild ++ []))
          (innerCount n r.node + (innerCount n newchild + 0)) := by
        simpa using hleaves
      refine ⟨_, _, rfl, treeOk_of_root (rootOk_newRoot hr hsplit) hcontents hsorted'
        ⟨hstore'.linked, hstore'.fresh, hstore'.leaves, ?_⟩ hcount, hcontents⟩
      exact congrArg (· + 1) hstore'.innerNodes

/-- **`insert` puts the value to its place, with the delay 0.** -/
theorem insert_spec {t : Tree K} (h : TreeOk c t) (key : K) :
    ∃ iter t', Tree.insert c t key = some (iter, t') ∧ TreeOk c t' ∧
      t'.contents = insertAt key 0 t.contents := by
  obtain ⟨root, st⟩ := t
  cases root with
  | none =>
      have hlength : st.leaves = 0 := h.store.leaves
      have hinner : st.innerNodes = 0 := h.store.innerNodes
      have hsize : st.size = 0 := h.size
      have hleaf : Inside c 0 (⟨st.fresh, 0, []⟩ : LeafNode K) := rfl
      obtain ⟨r, hr, hok⟩ := insertDescend_spec c key 0 (⟨st.fresh, 0, []⟩ : LeafNode K) 0
        (Tree.rootOrLeaf (⟨none, st⟩ : Tree K)).2 hleaf (Nat.zero_le _) List.Pairwise.nil
      refine insert_root (t := ⟨none, st⟩) rfl hr hok ⟨?_, ?_, ?_, hinner⟩ List.Pairwise.nil hsize ?_
      · exact Linked.singleton _ _ _ (Function.update_self _ _ _) (Function.update_self _ _ _)
      · intro a ha
        obtain rfl := List.mem_singleton.mp ha
        exact Nat.lt_succ_self _
      · show st.leaves + 1 = 1
        rw [hlength]
      · intro hsplit
        have hitems := hok.items
        rw [Inserted.nodes, hsplit] at hitems
        have hcount := congrArg List.length hitems
        rw [length_insertAt] at hcount
        simpa [items, slotuse] using hcount.ge
  | some root =>
      obtain ⟨n, root⟩ := root
      obtain ⟨hinside, hused, hfits⟩ := h.root ⟨n, root⟩ rfl
      obtain ⟨r, hr, hok⟩ := insertDescend_spec c key n root 0 st hinside hfits h.sorted
      exact insert_root (t := ⟨some ⟨n, root⟩, st⟩) rfl hr hok h.store h.sorted h.size
        fun hsplit => hused.trans (hok.grown hsplit).1

end Trees

end RelaxedConcurrentFifo.ReplayTree
