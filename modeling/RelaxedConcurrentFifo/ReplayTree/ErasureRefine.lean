/-
# RelaxedConcurrentFifo.ReplayTree.ErasureRefine — `erase` takes out the item of the iterator

The iterator was made by a descent to a value, and `erase` descends the same way. On the way back each node
is left one slot short at most; what it asks for, and the key that it hands up, are what its parent needs
to be well formed again.
-/
import RelaxedConcurrentFifo.ReplayTree.Repair

namespace RelaxedConcurrentFifo.ReplayTree

open RelaxedConcurrentFifo.Lib.KeyedLists
open RelaxedConcurrentFifo.Lib.LinkedLists
open RelaxedConcurrentFifo.Lib.SortedBlocks

variable {K : Type} {c : Traits} {n : Nat}

/-! ## §1 — what an erasure leaves -/

/-- How a node hangs in its tree: it is the root, or it has a place and the neighbours that go with it. -/
inductive Hangs (c : Traits) (n : Nat) (t : Node K n) :
    Option (Node K n) → Option (Node K n) → Option Place → Prop
  | root : Hangs c n t none none none
  | child {left right : Option (Node K n)} {p : Place} (hfilled : Filled c n t) (huse : 1 ≤ p.slotuse)
      (hslot : p.slot ≤ p.slotuse) (hleft : 0 < p.slot → left.isSome)
      (hright : p.slot < p.slotuse → right.isSome)
      (hgood : ∀ t', left = some t' ∨ right = some t' → Inside c n t' ∧ Filled c n t') :
      Hangs c n t left right (some p)

theorem Hangs.filled {t : Node K n} {left right : Option (Node K n)} {p : Place}
    (h : Hangs c n t left right (some p)) : Filled c n t := by
  cases h with
  | child hfilled => exact hfilled

variable [LinearOrder K] {v : K}

/-- The descent to `v` ends at the iterator. -/
def Leads (c : Traits) (v : K) : (n : Nat) → Node K n → Iter → Prop
  | 0, leaf, iter => iter.currLeaf = leaf.addr ∧ findLower c.binsearchLeaf leaf.keys v = some iter.currSlot
  | n + 1, inner, iter =>
      ∃ slot child, findLower c.binsearchInner inner.slotkey v = some slot ∧
        inner.childid[slot]? = some child ∧ Leads c v n child iter

/-- What the erasure of the first item that is not below `v` leaves of `t`. -/
structure ErasedOk (c : Traits) (n : Nat) (v : K) (delay : Int) (t : Node K n) (left right : Option (Node K n))
    (place : Option Place) (st : Store) (r : Erased K n) (st' : Store) : Prop where
  inside : Inside c n r.node
  used : slotuse n t ≤ slotuse n r.node + 1
  used' : slotuse n r.node ≤ slotuse n t
  fix : r.fix = chooseFix (c.slotmin n) (slotuse n r.node) (left.map (slotuse n)) (right.map (slotuse n)) place
  last : items n r.node ≠ [] → blockLast (items n) r.node = r.lastkey.or (blockLast (items n) t)
  removed : items n r.node = removeAt v (items n t)
  itemDelay : ∀ d, (notBelow v (items n t)).head? = some (v, d) → r.delay = delay + d
  store : ∀ l l' m, StoreOk st (l ++ leaves n t ++ l') (m + innerCount n t) →
    StoreOk st' (l ++ leaves n r.node ++ l') (m + innerCount n r.node)
  size : st'.size = st.size

/-! ## §2 — leaves -/

/-- **The item is taken out of its leaf.** -/
theorem eraseLeaf_spec {leaf : LeafNode K} {iter : Iter} {left right : Option (LeafNode K)}
    {place : Option Place} (hlevel : leaf.level = 0) (hsorted : SortedKeys leaf.slots)
    (hleads : Leads c v 0 leaf iter) {d : Int} {B : List (K × Int)} (hitem : notBelow v leaf.slots = (v, d) :: B)
    (hhangs : Hangs c 0 leaf left right place) (delay : Int) (st : Store) :
    ∃ r, eraseLeaf c iter leaf delay left right place = some (some r) ∧
      ErasedOk c 0 v delay leaf left right place st r st := by
  obtain ⟨haddr, hfind⟩ := hleads
  have hslot : iter.currSlot = (below v leaf.slots).length := by
    rw [findLower_leaf hsorted v] at hfind
    exact (Option.some.inj hfind).symm
  have hcut : leaf.slots = below v leaf.slots ++ (v, d) :: B := by
    rw [← hitem, below_append_notBelow]
  have hremoved : removeAt v leaf.slots = below v leaf.slots ++ B := by
    rw [removeAt, hitem, List.tail_cons]
  generalize below v leaf.slots = A at hslot hcut hremoved
  have hget : leaf.slots[iter.currSlot]? = some (v, d) := by
    rw [hslot, hcut, List.getElem?_append_right (Nat.le_refl _), Nat.sub_self, List.getElem?_cons_zero]
  have herase : leaf.slots.eraseIdx iter.currSlot = A ++ B := by
    rw [hslot, hcut, List.eraseIdx_append_of_length_le (Nat.le_refl _), Nat.sub_self, List.eraseIdx_cons_zero]
  have hlength : leaf.slots.length = (A ++ B).length + 1 := by
    rw [hcut, List.length_append, List.length_append, List.length_cons]
    omega
  -- only the new last key depends on whether the last item was taken
  have hok : ∀ lastkey : Option K, (A ++ B ≠ [] → lastKey (A ++ B) = lastkey.or (lastKey leaf.slots)) →
      ErasedOk c 0 v delay leaf left right place st
        ⟨{ leaf with slots := A ++ B }, lastkey, chooseFix c.leafSlotmin (A ++ B).length
          (left.map fun l => l.slots.length) (right.map fun r => r.slots.length) place, delay + d⟩ st := by
    intro lastkey hlast
    have hused : (A ++ B).length ≤ leaf.slots.length := Nat.le_of_succ_le hlength.ge
    refine ⟨hlevel, hlength.le, hused, rfl, hlast, hremoved.symm, ?_, fun _ _ _ hst => hst, rfl⟩
    intro d' hd'
    rw [show items 0 leaf = leaf.slots from rfl, hitem] at hd'
    cases hd'
    rfl
  unfold eraseLeaf
  rw [if_neg (not_not.mpr haddr.symm), hget]
  simp only [herase, Option.bind_eq_bind]
  -- a last key is reported only if the item taken was the last one
  by_cases hend : iter.currSlot = (A ++ B).length
  · have hB : B = [] := by
      rw [hslot, List.length_append] at hend
      exact List.length_eq_zero_iff.mp (by omega)
    rw [if_pos hend]
    cases hkey : LeafNode.keys { leaf with slots := A ++ B } |>.getLast? with
    | some key =>
        refine ⟨_, rfl, hok (some key) fun _ => ?_⟩
        exact lastKey_of_getLast? hkey
    | none =>
        have hnil : A ++ B = [] := by
          have hnone := List.getLast?_eq_none_iff.mp hkey
          exact List.map_eq_nil_iff.mp hnone
        -- a leaf with a parent keeps some item
        have hroot : place = none := by
          cases place with
          | none => rfl
          | some p =>
              have hmin := c.four_le_slotmin 0
              have hslots : c.slotmin 0 ≤ leaf.slots.length := hhangs.filled.1
              rw [hlength, hnil, List.length_nil] at hslots
              omega
        subst hroot
        exact ⟨_, rfl, hok none fun hne => absurd hnil hne⟩
  · have hB : B ≠ [] := by
      rintro rfl
      rw [hslot, List.append_nil] at hend
      exact hend rfl
    rw [if_neg hend]
    refine ⟨_, rfl, hok none fun _ => ?_⟩
    have hrest : leaf.slots = (A ++ [(v, d)]) ++ B := by
      rw [hcut]
      simp
    rw [hrest, lastKey_append_of_ne_nil _ hB, lastKey_append_of_ne_nil _ hB, Option.none_or]

/-! ## §3 — neighbours -/

section Neighbours

variable {inner : InnerNode K (Node K n)} {left right : Option (InnerNode K (Node K n))} {place : Option Place}
  {before after : List (Node K n)} {child : Node K n}

omit [LinearOrder K] in
/-- The neighbours of a root, and those of another node, are well formed. -/
theorem Hangs.good {t : Node K n} {left right : Option (Node K n)} {place : Option Place}
    (h : Hangs c n t left right place) {t' : Node K n} (ht' : left = some t' ∨ right = some t') :
    Inside c n t' ∧ Filled c n t' := by
  cases h with
  | root =>
      rcases ht' with ht' | ht'
      · cases ht'
      · cases ht'
  | child _ _ _ _ _ hgood => exact hgood t' ht'

omit [LinearOrder K] in
/-- **The left neighbour of a child can be read.** -/
theorem exists_leftNeighbour (h : Inside c (n + 1) inner) (hchildid : inner.childid = before ++ child :: after)
    (hgood : ∀ l, left = some l → Inside c (n + 1) l ∧ Filled c (n + 1) l) :
    ∃ l, leftNeighbour inner left before.length = some l ∧ (0 < before.length → l.isSome) ∧
      (∀ init t, before = init ++ [t] → l = some t) ∧ ∀ t, l = some t → Inside c n t ∧ Filled c n t := by
  unfold leftNeighbour
  rcases List.eq_nil_or_concat before with rfl | ⟨init, t, rfl⟩
  · rw [if_pos List.length_nil]
    cases left with
    | none =>
        refine ⟨none, rfl, fun hpos => absurd hpos (Nat.lt_irrefl 0), fun init t heq => ?_, fun _ heq => ?_⟩
        · simp at heq
        · cases heq
    | some l =>
        obtain ⟨hinside, hfilled⟩ := hgood l rfl
        have hmin := c.four_le_slotmin (n + 1)
        have hslots : c.slotmin (n + 1) ≤ l.slotkey.length := hfilled.1
        have hlength := hinside.separated.length_eq
        have hlt : l.slotkey.length - 1 < l.childid.length := by omega
        have hget := List.getElem?_eq_getElem hlt
        refine ⟨some l.childid[l.slotkey.length - 1], ?_, fun _ => rfl, fun init t heq => ?_, fun t heq => ?_⟩
        · show (if l.slotkey.length = 0 then none else l.childid[l.slotkey.length - 1]?.map some) = _
          rw [if_neg (by omega), hget]
          rfl
        · simp at heq
        · obtain rfl := Option.some.inj heq
          exact hinside.children _ (List.getElem_mem hlt)
  · rw [List.concat_eq_append] at hchildid ⊢
    have hlength : (init ++ [t]).length = init.length + 1 := List.length_append
    have hget : inner.childid[(init ++ [t]).length - 1]? = some t := by
      rw [hlength, Nat.add_sub_cancel, hchildid, List.append_assoc, List.getElem?_append_right (Nat.le_refl _),
        Nat.sub_self]
      rfl
    rw [if_neg (by omega), hget]
    refine ⟨some t, rfl, fun _ => rfl, fun init' t' heq => ?_, fun t' heq => ?_⟩
    · obtain ⟨-, heq⟩ := List.append_inj' heq rfl
      rw [List.singleton_inj.mp heq]
    · obtain rfl := Option.some.inj heq
      exact h.children t (by rw [hchildid]; simp)

omit [LinearOrder K] in
/-- **The right neighbour of a child can be read.** -/
theorem exists_rightNeighbour (h : Inside c (n + 1) inner)
    (hchildid : inner.childid = before ++ child :: after)
    (hgood : ∀ r, right = some r → Inside c (n + 1) r ∧ Filled c (n + 1) r) :
    ∃ r, rightNeighbour inner right before.length = some r ∧
      (before.length < inner.slotkey.length → r.isSome) ∧
      (∀ t rest, after = t :: rest → r = some t) ∧ ∀ t, r = some t → Inside c n t ∧ Filled c n t := by
  have hlength := h.separated.length_eq
  rw [hchildid, List.length_append, List.length_cons] at hlength
  unfold rightNeighbour
  cases after with
  | nil =>
      rw [List.length_nil] at hlength
      have hlast : before.length = inner.slotkey.length := by omega
      rw [if_pos hlast]
      cases right with
      | none =>
          refine ⟨none, rfl, fun hlt => absurd hlt (by omega), fun t rest heq => ?_, fun _ heq => ?_⟩
          · cases heq
          · cases heq
      | some r =>
          obtain ⟨hinside, hfilled⟩ := hgood r rfl
          have hlength' := hinside.separated.length_eq
          have hlt : 0 < r.childid.length := by omega
          have hget := List.getElem?_eq_getElem hlt
          refine ⟨some r.childid[0], ?_, fun _ => rfl, fun t rest heq => ?_, fun t heq => ?_⟩
          · show r.childid[0]?.map some = _
            rw [hget]
            rfl
          · cases heq
          · obtain rfl := Option.some.inj heq
            exact hinside.children _ (List.getElem_mem hlt)
  | cons t rest =>
      rw [List.length_cons] at hlength
      have hget : inner.childid[before.length + 1]? = some t := by
        rw [hchildid, List.getElem?_append_right (Nat.le_add_right _ 1), Nat.add_sub_cancel_left]
        rfl
      rw [if_neg (by omega), hget]
      refine ⟨some t, rfl, fun _ => rfl, fun t' rest' heq => ?_, fun t' heq => ?_⟩
      · rw [(List.cons.inj heq).1]
      · obtain rfl := Option.some.inj heq
        exact h.children t (by rw [hchildid]; simp)

end Neighbours

/-! ## §4 — inner nodes -/

/-- What an inner node does first: the child is changed, and its last key is written or handed on. -/
def writeLastkey (inner : InnerNode K (Node K n)) (slot : Nat) (found : Erased K n) :
    InnerNode K (Node K n) × Option K :=
  let inner := { inner with childid := inner.childid.set slot found.node }
  if slot < inner.slotkey.length then
    match found.lastkey with
    | some key => ({ inner with slotkey := inner.slotkey.set slot key }, none)
    | none => (inner, none)
  else (inner, found.lastkey)

omit [LinearOrder K] in
theorem eraseInner_eq (inner : InnerNode K (Node K n)) (delay : Int)
    (left right : Option (InnerNode K (Node K n))) (place : Option Place) (slot : Nat) (found : Erased K n)
    (st : Store) {written inner' : InnerNode K (Node K n)} {lastkey : Option K} {st' : Store}
    (hwrite : writeLastkey inner slot found = (written, lastkey))
    (hrepair : repair c written slot (delay + written.delay) st found.fix = some (inner', st')) :
    eraseInner c inner delay left right place slot found st =
      some (⟨inner', lastkey, chooseFix c.innerSlotmin inner'.slotkey.length
        (left.map fun l => l.slotkey.length) (right.map fun r => r.slotkey.length) place, found.delay⟩, st') := by
  let result (w : InnerNode K (Node K n) × Option K) (x : InnerNode K (Node K n) × Store) :
      Option (Erased K (n + 1) × Store) :=
    some (⟨x.1, w.2, chooseFix c.innerSlotmin x.1.slotkey.length (left.map fun l => l.slotkey.length)
      (right.map fun r => r.slotkey.length) place, found.delay⟩, x.2)
  have hfold : eraseInner c inner delay left right place slot found st =
      (applyFix c (writeLastkey inner slot found).1 slot (delay + (writeLastkey inner slot found).1.delay) st
        found.fix).bind fun x =>
          if x.2.1 then
            (removeMerged c (updateSubtreeSize x.1) slot x.2.2).bind (result (writeLastkey inner slot found))
          else result (writeLastkey inner slot found) (updateSubtreeSize x.1, x.2.2) := rfl
  rw [hfold, hwrite]
  simp only [repair, Option.bind_eq_bind] at hrepair ⊢
  cases happly : applyFix c written slot (delay + written.delay) st found.fix with
  | none =>
      rw [happly] at hrepair
      cases hrepair
  | some applied =>
      obtain ⟨inner'', fixmerge, st''⟩ := applied
      rw [happly] at hrepair
      simp only [Option.bind_some] at hrepair ⊢
      cases fixmerge with
      | true =>
          rw [if_pos rfl] at hrepair ⊢
          rw [hrepair]
          rfl
      | false =>
          rw [if_neg Bool.false_ne_true] at hrepair ⊢
          obtain ⟨rfl, rfl⟩ := Prod.mk.inj (Option.some.inj hrepair)
          rfl

/-- The node between the two steps: its keys fit its children again. -/
theorem writeLastkey_spec {inner : InnerNode K (Node K n)} {keys keys' : List K}
    {before after : List (Node K n)} {child : Node K n} (h : Inside c (n + 1) inner)
    (hfit : inner.slotkey.length ≤ c.innerSlots) (hroute : Routed c inner v keys keys' before child after)
    {found : Erased K n} (hfound : Inside c n found.node) (hused : slotuse n child ≤ slotuse n found.node + 1)
    (hused' : slotuse n found.node ≤ slotuse n child)
    (hlast : items n found.node ≠ [] →
      blockLast (items n) found.node = found.lastkey.or (blockLast (items n) child)) :
    ∃ written lastkey, writeLastkey inner before.length found = (written, lastkey) ∧
      Loose c written before found.node after ∧ written.delay = inner.delay ∧
      written.slotkey.length = inner.slotkey.length ∧
      lastKey ((before ++ found.node :: after).flatMap (items n)) =
        lastkey.or (lastKey (inner.childid.flatMap (items n))) := by
  obtain ⟨hinside, hfilled⟩ := h.children child hroute.mem
  have hmin := c.four_le_slotmin n
  have hkept := hfilled.1
  have hkept' := hfilled.2
  have hne : items n found.node ≠ [] := hfound.items_ne_nil (by omega)
  have hset : inner.childid.set before.length found.node = before ++ found.node :: after := by
    rw [hroute.length]
    exact hroute.set found.node
  have hothers : ∀ t ∈ before ++ after, Inside c n t ∧ Filled c n t := by
    intro t ht
    refine h.children t ?_
    rw [hroute.childid]
    simp only [List.mem_append, List.mem_cons] at ht ⊢
    tauto
  -- any keys that separate the children from here on make the node whole again
  have hloose : ∀ keys'' : List K, keys''.length = keys'.length →
      Separated (blockLast (items n)) keys'' (found.node :: after) →
      Loose c { inner with slotkey := keys ++ keys'', childid := before ++ found.node :: after } before
        found.node after := by
    intro keys'' hlength hseparated
    refine ⟨h.level, ?_, rfl, Separated.append_left hroute.lasts hseparated, hfound, by omega, by omega,
      hothers⟩
    rw [hroute.slotkey, List.length_append] at hfit
    show (keys ++ keys'').length ≤ c.innerSlots
    rw [List.length_append, hlength]
    exact hfit
  have hlastAfter : ∀ node : Node K n, after ≠ [] →
      lastKey ((before ++ node :: after).flatMap (items n)) = lastKey (after.flatMap (items n)) := by
    intro node hafter
    have hitems : after.flatMap (items n) ≠ [] := by
      obtain ⟨t, rest, rfl⟩ := List.exists_cons_of_ne_nil hafter
      obtain ⟨ht, hfilled'⟩ := hothers t (by simp)
      intro hnil
      exact hfilled'.items_ne_nil ht (List.append_eq_nil_iff.mp (List.flatMap_cons ▸ hnil)).1
    rw [List.flatMap_append, List.flatMap_cons, ← List.append_assoc, lastKey_append_of_ne_nil _ hitems]
  have hslotkey := hroute.slotkey
  unfold writeLastkey
  simp only [hset]
  -- without a key behind the child its last key is passed on to the parent
  cases hseparated : keys' with
  | nil =>
      subst hseparated
      have hafter : after = [] := Separated.nil_iff.mp hroute.separated
      subst hafter
      rw [List.append_nil] at hslotkey
      have hlength : before.length = inner.slotkey.length := by rw [hslotkey, hroute.length]
      rw [if_neg (by omega)]
      have hsame : ({ inner with childid := before ++ [found.node] } : InnerNode K (Node K n)) =
          { inner with slotkey := keys ++ [], childid := before ++ [found.node] } := by
        rw [List.append_nil, ← hslotkey]
      refine ⟨_, _, rfl, ?_, rfl, rfl, ?_⟩
      · rw [hsame]
        exact hloose [] rfl (.single _)
      · have hold : items n child ≠ [] := hfilled.items_ne_nil hinside
        rw [blockLast_append_singleton (items n) before hne, hroute.childid,
          blockLast_append_singleton (items n) before hold]
        exact hlast hne
  | cons k rest =>
      subst hseparated
      have hlt : before.length < inner.slotkey.length := by
        rw [hslotkey, hroute.length, List.length_append, List.length_cons]
        omega
      obtain ⟨hchild, hrest⟩ := Separated.cons_iff.mp hroute.separated
      have hafter : after ≠ [] := by
        rintro rfl
        cases hrest
      have hkey : blockLast (items n) found.node = found.lastkey.or (some k) := hchild ▸ hlast hne
      have hsum : lastKey ((before ++ found.node :: after).flatMap (items n)) =
          (none : Option K).or (lastKey (inner.childid.flatMap (items n))) := by
        rw [hroute.childid, hlastAfter _ hafter, hlastAfter _ hafter, Option.none_or]
      rw [if_pos hlt]
      cases hlastkey : found.lastkey with
      | some key =>
          rw [hlastkey, Option.some_or] at hkey
          have hwritten : inner.slotkey.set before.length key = keys ++ key :: rest := by
            rw [hslotkey, hroute.length, List.set_append_right _ _ (Nat.le_refl _), Nat.sub_self,
              List.set_cons_zero]
          refine ⟨_, none, rfl, ?_, rfl, List.length_set, hsum⟩
          rw [hwritten]
          exact hloose (key :: rest) rfl (.cons hkey hrest)
      | none =>
          rw [hlastkey, Option.none_or] at hkey
          have hsame : ({ inner with childid := before ++ found.node :: after } : InnerNode K (Node K n)) =
              { inner with slotkey := keys ++ k :: rest, childid := before ++ found.node :: after } := by
            rw [← hslotkey]
          refine ⟨_, none, rfl, ?_, rfl, rfl, hsum⟩
          rw [hsame]
          exact hloose (k :: rest) rfl (.cons hkey hrest)

/-- The value is below the child to which the descent leads. -/
theorem Routed.notBelow_child {inner : InnerNode K (Node K n)} {keys keys' : List K}
    {before after : List (Node K n)} {child : Node K n} (hroute : Routed c inner v keys keys' before child after)
    {d : Int} {B : List (K × Int)} (hitem : notBelow v (items (n + 1) inner) = (v, d) :: B) :
    ∃ B', notBelow v (items n child) = (v, d - inner.delay) :: B' := by
  have hmap : notBelow v (items (n + 1) inner) =
      (notBelow v (items n child) ++ after.flatMap (items n)).map (plus inner.delay) := by
    show notBelow v ((inner.childid.flatMap (items n)).map (plus inner.delay)) = _
    rw [notBelow_map (fst_plus inner.delay), hroute.items_eq, (cut_append hroute.lt hroute.le).2]
  have hne : notBelow v (items n child) ≠ [] := by
    cases hseparated : keys' with
    | nil =>
        subst hseparated
        obtain rfl : after = [] := Separated.nil_iff.mp hroute.separated
        intro hnil
        rw [hitem, hnil] at hmap
        cases hmap
    | cons k rest =>
        subst hseparated
        exact notBelow_ne_nil (Separated.cons_iff.mp hroute.separated).1 (hroute.keys_le k List.mem_cons_self)
  obtain ⟨p, B', hB'⟩ := List.exists_cons_of_ne_nil hne
  rw [hitem, hB', List.cons_append, List.map_cons] at hmap
  have hhead := (List.cons.inj hmap).1
  have hkey : v = p.1 := congrArg Prod.fst hhead
  have hdelay : d = p.2 + inner.delay := congrArg Prod.snd hhead
  refine ⟨B', ?_⟩
  rw [hB', hkey, hdelay, Int.add_sub_cancel]

/-- **An inner node, once the item was taken out of one of its children.** -/
theorem eraseInner_spec {inner : InnerNode K (Node K n)} {keys keys' : List K} {before after : List (Node K n)}
    {child : Node K n} {delay : Int} {left right : Option (InnerNode K (Node K n))} {place : Option Place}
    {myleft myright : Option (Node K n)} {found : Erased K n} {st st₁ : Store} (h : Inside c (n + 1) inner)
    (hfit : inner.slotkey.length ≤ c.innerSlots) (hused : 1 ≤ inner.slotkey.length)
    (hroute : Routed c inner v keys keys' before child after)
    (hmyleft : 0 < before.length → myleft.isSome) (hleft : ∀ init t, before = init ++ [t] → myleft = some t)
    (hmyright : before.length < inner.slotkey.length → myright.isSome)
    (hright : ∀ t rest, after = t :: rest → myright = some t)
    (hfound : ErasedOk c n v (delay + inner.delay) child myleft myright
      (some ⟨before.length, inner.slotkey.length⟩) st found st₁)
    {d : Int} {B : List (K × Int)} (hitem : notBelow v (items (n + 1) inner) = (v, d) :: B) :
    ∃ r st', eraseInner c inner delay left right place before.length found st₁ = some (r, st') ∧
      ErasedOk c (n + 1) v delay inner left right place st r st' := by
  obtain ⟨B', hchild⟩ := hroute.notBelow_child hitem
  obtain ⟨written, lastkey, hwrite, hloose, hdelay, hlength, hlast⟩ := writeLastkey_spec h hfit hroute
    hfound.inside hfound.used hfound.used' hfound.last
  have hslot : before.length ≤ inner.slotkey.length := by
    rw [hroute.length]
    exact hroute.slot_le
  have hfitting : Fitting (c.slotmin n) (slotuse n found.node) (myleft.map (slotuse n)) (myright.map (slotuse n))
      ⟨before.length, written.slotkey.length⟩ found.fix := by
    rw [hfound.fix, hlength]
    refine chooseFix_fitting _ _ hused hslot ?_ ?_
    · exact fun hpos => by simpa using hmyleft hpos
    · exact fun hlt => by simpa using hmyright hlt
  obtain ⟨inner', st', hrepair, hrepaired⟩ := repair_spec hloose
    (fun init t heq => by rw [hleft init t heq]; rfl) (fun t rest heq => by rw [hright t rest heq]; rfl)
    hfitting (delay + written.delay) st₁
  -- neither of the two steps touches an item
  have hitems : items (n + 1) inner' = removeAt v (items (n + 1) inner) := by
    show (inner'.childid.flatMap (items n)).map (plus inner'.delay) =
      removeAt v ((inner.childid.flatMap (items n)).map (plus inner.delay))
    have hsplit : written.childid.flatMap (items n) =
        before.flatMap (items n) ++ items n found.node ++ after.flatMap (items n) := by
      rw [hloose.childid]
      simp
    rw [hrepaired.sameItems, hrepaired.delay, hdelay, hsplit, hfound.removed, hroute.items_eq,
      ← removeAt_map (fst_plus inner.delay), removeAt_append hroute.lt hroute.le]
    rw [hchild]
    exact List.cons_ne_nil _ _
  refine ⟨_, st', eraseInner_eq inner delay left right place before.length found st₁ hwrite hrepair, hrepaired.inside,
    ?_, ?_, rfl, fun _ => ?_, hitems, ?_, ?_, hrepaired.size.trans hfound.size⟩
  · show inner.slotkey.length ≤ inner'.slotkey.length + 1
    exact hlength ▸ hrepaired.used
  · show inner'.slotkey.length ≤ inner.slotkey.length
    exact hlength ▸ hrepaired.used'
  · have hnew : blockLast (items (n + 1)) inner' = lastKey (written.childid.flatMap (items n)) := by
      rw [← hrepaired.sameItems]
      exact lastKey_map (fst_plus inner'.delay) _
    have hold : blockLast (items (n + 1)) inner = lastKey (inner.childid.flatMap (items n)) :=
      lastKey_map (fst_plus inner.delay) _
    rw [hnew, hold, hloose.childid]
    exact hlast
  · intro d' hd'
    rw [hitem] at hd'
    have hsame : d = d' := by
      injection hd' with hpair
      exact congrArg Prod.snd hpair
    have hfind := hfound.itemDelay (d - inner.delay) (by rw [hchild]; rfl)
    show found.delay = delay + d'
    omega
  · intro l l' m hst
    have hleaves : leaves (n + 1) inner =
        before.flatMap (leaves n) ++ leaves n child ++ after.flatMap (leaves n) := by
      rw [leaves, hroute.childid]
      simp
    have hcount : innerCount (n + 1) inner = (before.map (innerCount n)).sum + (innerCount n child +
        (after.map (innerCount n)).sum) + 1 := by
      rw [innerCount, hroute.childid]
      simp
    rw [hleaves, hcount] at hst
    have hput := hfound.store (l ++ before.flatMap (leaves n)) (after.flatMap (leaves n) ++ l')
      (m + (before.map (innerCount n)).sum + (after.map (innerCount n)).sum + 1)
      (by convert hst using 1 <;> [simp; omega])
    have hdone := hrepaired.store l l' (m + 1) (by
      rw [hloose.childid]
      convert hput using 1
      · simp
      · simp only [List.map_append, List.map_cons, List.sum_append, List.sum_cons]
        omega)
    show StoreOk st' (l ++ inner'.childid.flatMap (leaves n) ++ l')
      (m + ((inner'.childid.map (innerCount n)).sum + 1))
    convert hdone using 1
    omega

/-! ## §5 — the descent -/

theorem searchChildren_first {β : Type} {slotkey : List K} {key : K}
    {descend : Nat → Option (Option β)} {turns slot : Nat} (r : β) (hturns : 1 ≤ turns)
    (h : descend slot = some (some r)) :
    searchChildren slotkey key descend turns slot = some (some (slot, r)) := by
  obtain ⟨turns, rfl⟩ := Nat.exists_eq_add_one.mpr hturns
  rw [searchChildren, h]
  rfl

/-- **`erase_iter_descend` takes out the item that the iterator was led to.** -/
theorem eraseIterDescend_spec (c : Traits) (v : K) (iter : Iter) (n : Nat) :
    ∀ (t : Node K n) (delay : Int) (left right : Option (Node K n)) (place : Option Place) (st : Store),
      Inside c n t → 1 ≤ slotuse n t → slotuse n t ≤ c.slotmax n → SortedKeys (items n t) → Leads c v n t iter →
        (∃ d B, notBelow v (items n t) = (v, d) :: B) → Hangs c n t left right place →
          ∃ r st', eraseIterDescend c iter (some v) n t delay left right place st = some (some (r, st')) ∧
            ErasedOk c n v delay t left right place st r st' := by
  induction n with
  | zero =>
      intro leaf delay left right place st hinside _ _ hsorted hleads ⟨d, B, hitem⟩ hhangs
      obtain ⟨r, hr, hok⟩ := eraseLeaf_spec hinside hsorted hleads hitem hhangs delay st
      refine ⟨r, st, ?_, hok⟩
      rw [eraseIterDescend, hr]
      rfl
  | succ n ih =>
      intro inner delay left right place st hinside hused hfit hsorted hleads ⟨d, B, hitem⟩ hhangs
      obtain ⟨keys, keys', before, child, after, hroute⟩ := exists_routed (c := c) hinside hsorted v
      obtain ⟨hchild, hfilled⟩ := hinside.children child hroute.mem
      obtain ⟨slot, child', hfind, hget, hlead⟩ := hleads
      -- the key and the iterator lead to the same child
      obtain rfl : keys.length = slot := Option.some.inj (hroute.find.symm.trans hfind)
      obtain rfl : child = child' := Option.some.inj (hroute.getElem?.symm.trans hget)
      obtain ⟨myleft, hmyleft, hleftSome, hleft, hleftGood⟩ := exists_leftNeighbour hinside hroute.childid
        fun l heq => hhangs.good (.inl heq)
      obtain ⟨myright, hmyright, hrightSome, hright, hrightGood⟩ := exists_rightNeighbour hinside hroute.childid
        fun r heq => hhangs.good (.inr heq)
      have hslot : before.length ≤ inner.slotkey.length := by
        rw [hroute.length]
        exact hroute.slot_le
      have hturns : 1 ≤ inner.slotkey.length + 1 - keys.length := by
        have := hroute.slot_le
        omega
      have hmin := c.four_le_slotmin n
      have hkept := hfilled.1
      have hchildHangs : Hangs c n child myleft myright (some ⟨before.length, inner.slotkey.length⟩) := by
        refine .child hfilled hused hslot hleftSome hrightSome fun t' ht' => ?_
        rcases ht' with ht' | ht'
        · exact hleftGood t' ht'
        · exact hrightGood t' ht'
      obtain ⟨B', hitem'⟩ := hroute.notBelow_child hitem
      obtain ⟨found, st₁, hdescend, hfound⟩ := ih child (delay + inner.delay) myleft myright
        (some ⟨before.length, inner.slotkey.length⟩) st hchild (by omega) hfilled.2 hroute.sorted hlead
        ⟨_, B', hitem'⟩ hchildHangs
      obtain ⟨r, st', herase, hok⟩ := eraseInner_spec hinside hfit hused hroute hleftSome hleft hrightSome
        hright hfound hitem
      refine ⟨r, st', ?_, hok⟩
      rw [eraseIterDescend]
      simp only [Option.bind_eq_bind, Option.bind_some, hroute.find]
      -- so the search over the children ends with the first one
      rw [searchChildren_first (found, st₁) hturns]
      · simp only [Option.bind_some, ← hroute.length, herase]
      · rw [← hroute.length] at hget ⊢
        simp only [hget, hmyleft, hmyright, hdescend, Option.bind_some]

/-! ## §6 — `erase` -/

/-- The item, and the list without it. -/
theorem length_removeAt {l : List (K × Int)} {d : Int} {B : List (K × Int)} (h : notBelow v l = (v, d) :: B) :
    (removeAt v l).length + 1 = l.length := by
  conv_rhs => rw [← below_append_notBelow v l]
  rw [removeAt, h, List.tail_cons, List.length_append, List.length_append, List.length_cons]
  omega

/-- The address of the iterator is that of a leaf. -/
theorem Leads.mem_leaves {n : Nat} {t : Node K n} {iter : Iter} (h : Leads c v n t iter) :
    iter.currLeaf ∈ leaves n t := by
  induction n with
  | zero => exact List.mem_singleton.mpr h.1
  | succ n ih =>
      obtain ⟨slot, child, -, hget, hlead⟩ := h
      exact List.mem_flatMap.mpr ⟨child, List.mem_of_getElem? hget, ih hlead⟩

omit [LinearOrder K] in
theorem leafAt_eq_none {n : Nat} {t : Node K n} {a : Nat} (h : a ∉ leaves n t) : leafAt n t a = none := by
  induction n with
  | zero => exact if_neg fun heq => h (List.mem_singleton.mpr heq.symm)
  | succ n ih =>
      refine List.findSome?_eq_none_iff.mpr fun child hchild => ih fun hmem => h ?_
      exact List.mem_flatMap.mpr ⟨child, hchild, hmem⟩

/-- **The iterator stands at the value.** -/
theorem Leads.deref {n : Nat} {t : Node K n} {iter : Iter} (h : Leads c v n t iter) (hinside : Inside c n t)
    (hsorted : SortedKeys (items n t)) (hnodup : (leaves n t).Nodup) {d : Int} {B : List (K × Int)}
    (hitem : notBelow v (items n t) = (v, d) :: B) : iter.deref t = some v := by
  have hleaf : ∃ leaf : LeafNode K, leafAt n t iter.currLeaf = some leaf ∧
      leaf.keys[iter.currSlot]? = some v := by
    induction n generalizing d B with
    | zero =>
        obtain ⟨haddr, hfind⟩ := h
        refine ⟨t, if_pos haddr.symm, ?_⟩
        rw [findLower_leaf hsorted v] at hfind
        obtain hslot := Option.some.inj hfind
        have hcut : t.keys = (below v t.slots).map Prod.fst ++ v :: B.map Prod.fst := by
          have hslots := below_append_notBelow v t.slots
          rw [show notBelow v t.slots = (v, d) :: B from hitem] at hslots
          rw [LeafNode.keys]
          conv_lhs => rw [← hslots]
          rw [List.map_append, List.map_cons]
        rw [hcut, ← hslot, List.getElem?_append_right (by rw [List.length_map]), List.length_map, Nat.sub_self]
        rfl
    | succ n ih =>
        obtain ⟨keys, keys', before, child, after, hroute⟩ := exists_routed (c := c) hinside hsorted v
        obtain ⟨slot, child', hfind, hget, hlead⟩ := h
        obtain rfl : keys.length = slot := Option.some.inj (hroute.find.symm.trans hfind)
        obtain rfl : child = child' := Option.some.inj (hroute.getElem?.symm.trans hget)
        have hsplit : leaves (n + 1) t = before.flatMap (leaves n) ++ (leaves n child ++ after.flatMap (leaves n)) := by
          rw [leaves, hroute.childid, List.flatMap_append, List.flatMap_cons]
        rw [hsplit] at hnodup
        have hdisjoint := List.disjoint_of_nodup_append hnodup
        obtain ⟨B', hitem'⟩ := hroute.notBelow_child hitem
        obtain ⟨leaf, hat, hkey⟩ := ih hlead (hinside.children child hroute.mem).1 hroute.sorted
          (List.nodup_append.mp (List.nodup_append.mp hnodup).2.1).1 hitem'
        refine ⟨leaf, ?_, hkey⟩
        have hbefore : before.findSome? (fun child => leafAt n child iter.currLeaf) = none := by
          refine List.findSome?_eq_none_iff.mpr fun t' ht' => leafAt_eq_none fun hmem => ?_
          exact hdisjoint (List.mem_flatMap.mpr ⟨t', ht', hmem⟩) (List.mem_append_left _ hlead.mem_leaves)
        show t.childid.findSome? (fun child => leafAt n child iter.currLeaf) = some leaf
        rw [hroute.childid, List.findSome?_append, hbefore, Option.none_or, List.findSome?_cons, hat]
  obtain ⟨leaf, hat, hkey⟩ := hleaf
  rw [Iter.deref, hat]
  exact hkey

/-- **`erase` takes the item of the iterator out of the tree, and says what its delay was.** -/
theorem erase_spec {root : Node K n} {st : Store} {iter : Iter} (h : TreeOk c ⟨some ⟨n, root⟩, st⟩)
    (hleads : Leads c v n root iter) {d : Int} {B : List (K × Int)}
    (hitem : notBelow v (items n root) = (v, d) :: B) :
    ∃ t', Tree.erase c ⟨some ⟨n, root⟩, st⟩ iter = some ((true, d.toNat), t') ∧ TreeOk c t' ∧
      t'.contents = removeAt v (items n root) := by
  obtain ⟨hinside, hused, hfits⟩ := h.root ⟨n, root⟩ rfl
  have hsorted : SortedKeys (items n root) := h.sorted
  have hstore : StoreOk st (leaves n root) (innerCount n root) := h.store
  have hsize : st.size = (items n root).length := h.size
  have hderef := hleads.deref hinside hsorted hstore.linked.nodup hitem
  obtain ⟨r, st', hdescend, hok⟩ := eraseIterDescend_spec c v iter n root 0 none none none st hinside hused hfits
    hsorted hleads ⟨d, B, hitem⟩ .root
  have hdelay : r.delay = d := (hok.itemDelay d (by rw [hitem]; rfl)).trans (Int.zero_add d)
  have hmin := c.four_le_slotmin n
  have hfix := hok.fix.trans (chooseFix_root (by omega))
  have hsorted' : SortedKeys (removeAt v (items n root)) := hsorted.removeAt
  have hsize' : st'.size - 1 = (removeAt v (items n root)).length := by
    rw [hok.size, hsize, ← length_removeAt hitem, Nat.add_sub_cancel]
  have hstore' := hok.store [] [] 0 (by simpa using hstore)
  rw [List.nil_append, List.append_nil, Nat.zero_add] at hstore'
  have hfits' : slotuse n r.node ≤ c.slotmax n := hok.used'.trans hfits
  unfold Tree.erase
  simp only [hderef, hdescend, Option.bind_eq_bind, Option.bind_some]
  -- an empty root goes: with the tree, or in favour of its only child
  by_cases hempty : slotuse n r.node = 0
  · rw [if_pos hempty] at hfix
    have hitems := hok.removed
    cases n with
    | zero =>
        have hnil : items 0 r.node = [] := List.length_eq_zero_iff.mp hempty
        simp only [hfix, if_true, hdelay]
        refine ⟨_, rfl, ⟨?_, List.Pairwise.nil, ⟨⟨List.nodup_nil, rfl, rfl⟩, ?_, ?_, hstore'.innerNodes⟩, ?_⟩, ?_⟩
        · intro root' hroot'
          cases hroot'
        · intro a ha
          cases ha
        · show st'.leaves - 1 = 0
          rw [hstore'.leaves]
          rfl
        · show st'.size - 1 = 0
          rw [hsize', ← hitems, hnil]
          rfl
        · rw [← hitems, hnil]
          rfl
    | succ n =>
        have hone : r.node.childid.length = 0 + 1 := by
          rw [hok.inside.separated.length_eq]
          exact congrArg (· + 1) hempty
        obtain ⟨child, hchild⟩ := List.length_eq_one_iff.mp hone
        obtain ⟨hgood, hfilled⟩ := hok.inside.children child (by rw [hchild]; exact List.mem_cons_self)
        have hminChild := c.four_le_slotmin n
        have hkept := hfilled.1
        -- the child takes over the delay of the root
        have hcontents : items n (addDelay n child r.node.delay) = removeAt v (items (n + 1) root) := by
          rw [items_addDelay, ← hitems]
          show _ = (r.node.childid.flatMap (items n)).map (plus r.node.delay)
          rw [hchild, List.flatMap_singleton]
        have hleaves : leaves (n + 1) r.node = leaves n (addDelay n child r.node.delay) := by
          rw [leaves_addDelay]
          show r.node.childid.flatMap (leaves n) = _
          rw [hchild, List.flatMap_singleton]
        have hcount : innerCount (n + 1) r.node = innerCount n (addDelay n child r.node.delay) + 1 := by
          rw [innerCount_addDelay]
          show (r.node.childid.map (innerCount n)).sum + 1 = _
          rw [hchild]
          simp
        rw [hleaves, hcount] at hstore'
        have hroot' : RootOk c n (addDelay n child r.node.delay) := by
          refine ⟨hgood.addDelay _, ?_, ?_⟩
          · rw [slotuse_addDelay]
            omega
          · rw [slotuse_addDelay]
            exact hfilled.2
        simp only [hfix, if_true, hchild, List.head?_cons, Option.bind_some, hdelay]
        refine ⟨_, rfl, treeOk_of_root hroot' hcontents hsorted'
          ⟨hstore'.linked, hstore'.fresh, hstore'.leaves, ?_⟩ hsize', hcontents⟩
        show st'.innerNodes - 1 = _
        rw [hstore'.innerNodes, Nat.add_sub_cancel]
  · rw [if_neg hempty] at hfix
    have hroot' : RootOk c n r.node := ⟨hok.inside, Nat.pos_of_ne_zero hempty, hfits'⟩
    have hnot : ¬ r.fix = .root := by
      rw [hfix]
      exact Fix.noConfusion
    have htree : TreeOk c ⟨some ⟨n, r.node⟩, { st' with size := st'.size - 1 }⟩ :=
      treeOk_of_root hroot' hok.removed hsorted'
        ⟨hstore'.linked, hstore'.fresh, hstore'.leaves, hstore'.innerNodes⟩ hsize'
    cases n with
    | zero =>
        simp only [if_neg hnot, hdelay]
        exact ⟨_, rfl, htree, hok.removed⟩
    | succ n =>
        simp only [if_neg hnot, hdelay]
        exact ⟨_, rfl, htree, hok.removed⟩

end RelaxedConcurrentFifo.ReplayTree
