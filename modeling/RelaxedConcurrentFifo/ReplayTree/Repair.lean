/-
# RelaxedConcurrentFifo.ReplayTree.Repair — a child with too few slots

After an erasure below it, a child may use one slot less than it should. What it then asks its parent for
fits what its neighbours use: a sibling that uses few slots is merged with it, and one that uses more gives
some of them away. Either way the parent stands for the same items as before, and all of its children use
enough slots; the parent itself may have lost one.
-/
import RelaxedConcurrentFifo.ReplayTree.Balancing

namespace RelaxedConcurrentFifo.ReplayTree

open RelaxedConcurrentFifo.Lib.KeyedLists
open RelaxedConcurrentFifo.Lib.LinkedLists
open RelaxedConcurrentFifo.Lib.SortedBlocks

variable {K : Type} {c : Traits} {n : Nat}

/-! ## §1 — the choice -/

/-- A choice that fits what the node and its neighbours use. -/
inductive Fitting (slotmin own : Nat) (left right : Option Nat) (p : Place) : Fix → Prop
  | none (hown : slotmin ≤ own) : Fitting slotmin own left right p .none
  | mergeLeft {slots : Nat} (hown : own < slotmin) (hslot : 0 < p.slot) (hleft : left = some slots)
      (hfew : slots ≤ slotmin) : Fitting slotmin own left right p .mergeLeft
  | mergeRight {slots : Nat} (hown : own < slotmin) (hslot : p.slot < p.slotuse) (hright : right = some slots)
      (hfew : slots ≤ slotmin) : Fitting slotmin own left right p .mergeRight
  | shiftLeft {slots : Nat} (hown : own < slotmin) (hslot : p.slot < p.slotuse) (hright : right = some slots)
      (hmore : slotmin < slots) : Fitting slotmin own left right p .shiftLeft
  | shiftRight {slots : Nat} (hown : own < slotmin) (hslot : 0 < p.slot) (hleft : left = some slots)
      (hmore : slotmin < slots) : Fitting slotmin own left right p .shiftRight

/-- **A node that is not the root never asks for what its neighbours cannot give.** -/
theorem chooseFix_fitting (slotmin own : Nat) {left right : Option Nat} {p : Place} (huse : 1 ≤ p.slotuse)
    (hslot : p.slot ≤ p.slotuse) (hleft : 0 < p.slot → left.isSome) (hright : p.slot < p.slotuse → right.isSome) :
    Fitting slotmin own left right p (chooseFix slotmin own left right (some p)) := by
  unfold chooseFix
  by_cases hown : own < slotmin
  · simp only [hown, Option.isNone_some, Bool.false_eq_true, false_and, not_false_iff, and_self, if_true,
      Option.any_some, decide_eq_true_eq]
    rcases left with _ | l
    · have hfirst : ¬ 0 < p.slot := fun h => by simpa using hleft h
      have hsibling : p.slot < p.slotuse := by omega
      rcases right with _ | r
      · exact absurd (hright hsibling) (by simp)
      · by_cases hr : r ≤ slotmin
        · simpa [hr, hfirst] using .mergeRight hown hsibling rfl hr
        · simpa [hr, hfirst] using .shiftLeft hown hsibling rfl (by omega)
    · rcases right with _ | r
      · have hlast : ¬ p.slot < p.slotuse := fun h => by simpa using hright h
        have hsibling : 0 < p.slot := by omega
        by_cases hl : l ≤ slotmin
        · simpa [hl, hsibling] using .mergeLeft hown hsibling rfl hl
        · simpa [hl, hsibling, hlast] using .shiftRight hown hsibling rfl (by omega)
      · by_cases hfirst : 0 < p.slot
        · by_cases hlast : p.slot < p.slotuse
          · by_cases hl : l ≤ slotmin
            · by_cases hr : r ≤ slotmin
              · simpa [hl, hr, hfirst] using .mergeLeft hown hfirst rfl hl
              · simpa [hl, hr, hlast] using .shiftLeft hown hlast rfl (by omega)
            · by_cases hr : r ≤ slotmin
              · simpa [hl, hr, hfirst] using .shiftRight hown hfirst rfl (by omega)
              · by_cases hle : l ≤ r
                · simpa [hl, hr, hfirst, hlast, hle] using .shiftLeft hown hlast rfl (by omega)
                · simpa [hl, hr, hfirst, hlast, hle] using .shiftRight hown hfirst rfl (by omega)
          · by_cases hl : l ≤ slotmin
            · have hmerge : Fitting slotmin own (some l) (some r) p .mergeLeft := .mergeLeft hown hfirst rfl hl
              by_cases hr : r ≤ slotmin
              · simpa [hl, hr, hfirst, hlast] using hmerge
              · simpa [hl, hr, hfirst, hlast] using hmerge
            · simpa [hl, hfirst, hlast] using .shiftRight hown hfirst rfl (by omega)
        · have hlast : p.slot < p.slotuse := by omega
          by_cases hr : r ≤ slotmin
          · have hmerge : Fitting slotmin own (some l) (some r) p .mergeRight := .mergeRight hown hlast rfl hr
            by_cases hl : l ≤ slotmin
            · simpa [hl, hr, hfirst, hlast] using hmerge
            · simpa [hl, hr, hfirst, hlast] using hmerge
          · simpa [hr, hfirst, hlast] using .shiftLeft hown hlast rfl (by omega)
  · simpa [hown] using .none (by omega)

/-- At the root, nothing is done unless there are no slots left. -/
theorem chooseFix_root {slotmin own : Nat} (hmin : 1 ≤ slotmin) :
    chooseFix slotmin own none none none = if own = 0 then .root else .none := by
  unfold chooseFix
  by_cases hown : own = 0
  · have hlt : own < slotmin := by omega
    simp [hown]
    omega
  · have hge : 1 ≤ own := by omega
    simp [hown, hge]

/-! ## §2 — two children side by side -/

/-- The children `left` and `right`, the key between them, and what is around them. -/
structure Window (inner : InnerNode K (Node K n)) (before : List (Node K n)) (left right : Node K n)
    (after : List (Node K n)) (ka : List K) (key : K) (kb : List K) : Prop where
  childid : inner.childid = before ++ left :: right :: after
  slotkey : inner.slotkey = ka ++ key :: kb
  length : before.length = ka.length
  lasts : before.map (blockLast (items n)) = ka.map some
  last : blockLast (items n) left = some key
  separated : Separated (blockLast (items n)) kb (right :: after)

theorem exists_window {inner : InnerNode K (Node K n)} {before after : List (Node K n)} {left right : Node K n}
    (h : Separated (blockLast (items n)) inner.slotkey inner.childid)
    (hchildid : inner.childid = before ++ left :: right :: after) :
    ∃ ka key kb, Window inner before left right after ka key kb := by
  have hlength := h.length_eq
  rw [hchildid] at hlength h
  have hlt : before.length < inner.slotkey.length := by
    simp only [List.length_append, List.length_cons] at hlength
    omega
  have hcut : inner.slotkey.take before.length ++ inner.slotkey[before.length] ::
      inner.slotkey.drop (before.length + 1) = inner.slotkey := by
    rw [← List.drop_eq_getElem_cons hlt, List.take_append_drop]
  have htake : before.length = (inner.slotkey.take before.length).length := by
    rw [List.length_take_of_le hlt.le]
  rw [← hcut] at h
  obtain ⟨hlasts, hrest⟩ := h.of_append_left htake
  obtain ⟨hlast, hseparated⟩ := Separated.cons_iff.mp hrest
  exact ⟨_, _, _, hchildid, hcut.symm, htake, hlasts, hlast, hseparated⟩

namespace Window

variable {inner : InnerNode K (Node K n)} {before after : List (Node K n)} {left right : Node K n}
  {ka kb : List K} {key : K}

theorem window_eq (h : Window inner before left right after ka key kb) :
    window inner ka.length = some (left, key, right) := by
  have hleft : inner.childid[ka.length]? = some left := by
    rw [h.childid, ← h.length, List.getElem?_append_right (Nat.le_refl _), Nat.sub_self, List.getElem?_cons_zero]
  have hkey : inner.slotkey[ka.length]? = some key := by
    rw [h.slotkey, List.getElem?_append_right (Nat.le_refl _), Nat.sub_self, List.getElem?_cons_zero]
  have hright : inner.childid[ka.length + 1]? = some right := by
    rw [h.childid, ← h.length, List.getElem?_append_right (Nat.le_add_right _ 1), Nat.add_sub_cancel_left,
      List.getElem?_cons_succ, List.getElem?_cons_zero]
  simp only [window, hleft, hkey, hright, Option.bind_eq_bind, Option.bind_some]

theorem setWindow_eq (h : Window inner before left right after ka key kb) (left' right' : Node K n) :
    setWindow inner ka.length left' right' = { inner with childid := before ++ left' :: right' :: after } := by
  unfold setWindow
  rw [h.childid, ← h.length, List.set_append_right _ _ (Nat.le_refl _), Nat.sub_self, List.set_cons_zero,
    List.set_append_right _ _ (Nat.le_add_right _ 1), Nat.add_sub_cancel_left, List.set_cons_succ, List.set_cons_zero]

theorem set_slotkey (h : Window inner before left right after ka key kb) (key' : K) :
    inner.slotkey.set ka.length key' = ka ++ key' :: kb := by
  rw [h.slotkey, List.set_append_right _ _ (Nat.le_refl _), Nat.sub_self, List.set_cons_zero]

end Window

/-! ## §3 — after a merge -/

/-- The last key of `left` is the one that it should have been already. -/
theorem set_lastKey {after : List (Node K n)} {left right : Node K n} (ka : List K) {kb : List K} {key : K}
    (hseparated : Separated (blockLast (items n)) kb (right :: after))
    (hlast : blockLast (items n) left = blockLast (items n) right) (hkey : blockLast (items n) left = some key) :
    (ka ++ kb).set ka.length key = ka ++ kb := by
  rw [List.set_append_right _ _ (Nat.le_refl _), Nat.sub_self]
  cases hseparated with
  | single => rfl
  | @cons k kb _ after hright hrest =>
      have hsame : key = k := Option.some.inj (hkey.symm.trans (hlast.trans hright))
      rw [hsame, List.set_cons_zero]

/-- **The child that was emptied goes, with the key before it.** -/
theorem removeMerged_spec {inner : InnerNode K (Node K n)} {before after : List (Node K n)}
    {left right left' right' : Node K n} {ka kb : List K} {key : K}
    (h : Window inner before left right after ka key kb) (hlevel : inner.level = n + 1)
    (hfit : inner.slotkey.length ≤ c.innerSlots) (hlast : blockLast (items n) left' = blockLast (items n) right)
    (hused : 1 ≤ slotuse n left') (hright : slotuse n right' = 0) {slot : Nat}
    (hslot : slot = ka.length ∨ slot = ka.length + 1) (st : Store) :
    removeMerged c (updateSubtreeSize { inner with childid := before ++ left' :: right' :: after }) slot st =
      some (withChildren inner (ka ++ kb) (before ++ left' :: after), freeNode n st) := by
  have hat : (before ++ left' :: right' :: after)[ka.length]? = some left' := by
    rw [← h.length, List.getElem?_append_right (Nat.le_refl _), Nat.sub_self, List.getElem?_cons_zero]
  have hbehind : (before ++ left' :: right' :: after)[ka.length + 1]? = some right' := by
    rw [← h.length, List.getElem?_append_right (Nat.le_add_right _ 1), Nat.add_sub_cancel_left,
      List.getElem?_cons_succ, List.getElem?_cons_zero]
  have hchild : ∃ child, (before ++ left' :: right' :: after)[slot]? = some child ∧
      (if slotuse n child ≠ 0 then slot + 1 else slot) = ka.length + 1 := by
    rcases hslot with rfl | rfl
    · refine ⟨left', hat, ?_⟩
      rw [if_pos (by omega)]
    · refine ⟨right', hbehind, ?_⟩
      rw [if_neg (by omega)]
  obtain ⟨child, hget, hemptied⟩ := hchild
  have hroom : ka.length + 1 ≤ inner.slotkey.length := by
    rw [h.slotkey, List.length_append, List.length_cons]
    omega
  have hkeys : inner.slotkey.eraseIdx ka.length = ka ++ kb := by
    rw [h.slotkey, List.eraseIdx_append_of_length_le (Nat.le_refl _), Nat.sub_self, List.eraseIdx_cons_zero]
  have hchildren : (before ++ left' :: right' :: after).eraseIdx (ka.length + 1) = before ++ left' :: after := by
    rw [← h.length, List.eraseIdx_append_of_length_le (Nat.le_add_right _ 1), Nat.add_sub_cancel_left,
      List.eraseIdx_cons_succ, List.eraseIdx_cons_zero]
  unfold removeMerged
  simp only [updateSubtreeSize_childid, updateSubtreeSize_slotkey, updateSubtreeSize_level, hget, hemptied,
    Option.bind_eq_bind, Option.bind_some, Nat.add_sub_cancel, hkeys, hchildren]
  rw [if_pos ⟨Nat.le_add_left 1 _, hroom⟩]
  cases n with
  | zero =>
      rw [if_pos hlevel]
      obtain ⟨key', hkey'⟩ := exists_getLast?_keys left' hused
      have hget' : (before ++ left' :: after)[ka.length]? = some left' := by
        rw [← h.length, List.getElem?_append_right (Nat.le_refl _), Nat.sub_self, List.getElem?_cons_zero]
      have hset := set_lastKey ka h.separated hlast (lastKey_of_getLast? hkey')
      simp only [hget', leafLastKey, hkey', Option.bind_some]
      rw [if_pos (by omega), hset]
      rfl
  | succ n =>
      have hnot : ¬ inner.level = 1 := by omega
      rw [if_neg hnot]
      rfl

/-! ## §4 — a child is repaired -/

/-- An inner node with a child that may use a slot less than it should. -/
structure Loose (c : Traits) (inner : InnerNode K (Node K n)) (before : List (Node K n)) (child : Node K n)
    (after : List (Node K n)) : Prop where
  level : inner.level = n + 1
  fits : inner.slotkey.length ≤ c.innerSlots
  childid : inner.childid = before ++ child :: after
  separated : Separated (blockLast (items n)) inner.slotkey inner.childid
  inside : Inside c n child
  used : c.slotmin n ≤ slotuse n child + 1
  used' : slotuse n child ≤ c.slotmax n
  others : ∀ t ∈ before ++ after, Inside c n t ∧ Filled c n t

/-- What has become of it. -/
structure Repaired (c : Traits) (inner : InnerNode K (Node K n)) (st : Store)
    (inner' : InnerNode K (Node K n)) (st' : Store) : Prop where
  inside : Inside c (n + 1) inner'
  delay : inner'.delay = inner.delay
  used : inner.slotkey.length ≤ inner'.slotkey.length + 1
  used' : inner'.slotkey.length ≤ inner.slotkey.length
  sameItems : inner'.childid.flatMap (items n) = inner.childid.flatMap (items n)
  store : ∀ l l' m,
    StoreOk st (l ++ inner.childid.flatMap (leaves n) ++ l') (m + (inner.childid.map (innerCount n)).sum) →
      StoreOk st' (l ++ inner'.childid.flatMap (leaves n) ++ l') (m + (inner'.childid.map (innerCount n)).sum)
  size : st'.size = st.size

/-- The part of `erase_iter_descend` that does what a child has asked for. -/
def repair (c : Traits) (inner : InnerNode K (Node K n)) (slot : Nat) (delay : Int) (st : Store) (fix : Fix) :
    Option (InnerNode K (Node K n) × Store) := do
  let (inner, fixmerge, st) ← applyFix c inner slot delay st fix
  let inner := updateSubtreeSize inner
  if fixmerge then removeMerged c inner slot st else some (inner, st)

section Repairs

variable {inner : InnerNode K (Node K n)} {before after : List (Node K n)} {left right left' right' : Node K n}
  {ka kb : List K} {key key' : K} {st st' : Store} {d : Int}

theorem repair_shiftLeft (h : Window inner before left right after ka key kb)
    (hshift : shiftLeft c n left right key d d = some (left', key', right')) :
    repair c inner ka.length d st .shiftLeft =
      some (withChildren inner (ka ++ key' :: kb) (before ++ left' :: right' :: after), st) := by
  simp only [repair, applyFix, h.window_eq, hshift, h.setWindow_eq, h.set_slotkey, Option.bind_eq_bind,
    Option.bind_some]
  rfl

theorem repair_shiftRight (h : Window inner before left right after ka key kb)
    (hshift : shiftRight c n left right key d d = some (left', key', right')) :
    repair c inner (ka.length + 1) d st .shiftRight =
      some (withChildren inner (ka ++ key' :: kb) (before ++ left' :: right' :: after), st) := by
  simp only [repair, applyFix, Nat.succ_ne_zero, if_false, Nat.add_sub_cancel, h.window_eq, hshift,
    h.setWindow_eq, h.set_slotkey, Option.bind_eq_bind, Option.bind_some]
  rfl

theorem merge_eq (h : Window inner before left right after ka key kb)
    (hmerge : mergeNodes c n left right key d d st = some (left', right', st')) :
    applyFix.merge c inner d st ka.length =
      some ({ inner with childid := before ++ left' :: right' :: after }, true, st') := by
  simp only [applyFix.merge, h.window_eq, hmerge, h.setWindow_eq, Option.bind_eq_bind, Option.bind_some]

/-- **Merging, whichever of the two neighbours asked for it.** -/
theorem repair_merge (h : Window inner before left right after ka key kb) (hlevel : inner.level = n + 1)
    (hfit : inner.slotkey.length ≤ c.innerSlots)
    (hmerge : mergeNodes c n left right key d d st = some (left', right', st'))
    (hmerged : Merged c n left right st left' right' st') (hused : 1 ≤ slotuse n left)
    (hlast : blockLast (items n) left' = blockLast (items n) right) :
    repair c inner ka.length d st .mergeRight =
        some (withChildren inner (ka ++ kb) (before ++ left' :: after), freeNode n st') ∧
      repair c inner (ka.length + 1) d st .mergeLeft =
        some (withChildren inner (ka ++ kb) (before ++ left' :: after), freeNode n st') := by
  have hused' : 1 ≤ slotuse n left' := by
    rw [hmerged.used]
    omega
  constructor
  · simp only [repair, applyFix, merge_eq h hmerge, Option.bind_eq_bind, Option.bind_some, if_true]
    exact removeMerged_spec h hlevel hfit hlast hused' hmerged.emptied (.inl rfl) st'
  · simp only [repair, applyFix, Nat.succ_ne_zero, if_false, Nat.add_sub_cancel, merge_eq h hmerge,
      Option.bind_eq_bind, Option.bind_some, if_true]
    exact removeMerged_spec h hlevel hfit hlast hused' hmerged.emptied (.inr rfl) st'

/-- Shifting between two neighbours repairs the parent if both then use enough slots. -/
theorem Shifted.repaired (h : Shifted c n left right left' key' right')
    (hwindow : Window inner before left right after ka key kb) (hlevel : inner.level = n + 1)
    (hothers : ∀ t ∈ before ++ after, Inside c n t ∧ Filled c n t) (hright : items n right ≠ [])
    (hleft' : Filled c n left') (hright' : Filled c n right') (st : Store) :
    Repaired c inner st (withChildren inner (ka ++ key' :: kb) (before ++ left' :: right' :: after)) st := by
  have hlast : blockLast (items n) right' = blockLast (items n) right := by
    have hsame := congrArg lastKey h.sameItems
    rwa [lastKey_append_of_ne_nil _ (hright'.items_ne_nil h.inside'), lastKey_append_of_ne_nil _ hright] at hsame
  have hseparated : Separated (blockLast (items n)) (ka ++ key' :: kb) (before ++ left' :: right' :: after) :=
    Separated.append_left hwindow.lasts (.cons h.last (hwindow.separated.replace_head hlast))
  have hkeys : (ka ++ key' :: kb).length = inner.slotkey.length := by
    rw [hwindow.slotkey, List.length_append, List.length_append, List.length_cons, List.length_cons]
  refine ⟨inside_withChildren hlevel hseparated ?_, rfl, hkeys ▸ Nat.le_succ _, Nat.le_of_eq hkeys, ?_, ?_, rfl⟩
  · intro t ht
    simp only [List.mem_append, List.mem_cons] at ht hothers
    rcases ht with ht | rfl | rfl | ht
    · exact hothers t (.inl ht)
    · exact ⟨h.inside, hleft'⟩
    · exact ⟨h.inside', hright'⟩
    · exact hothers t (.inr ht)
  · rw [hwindow.childid]
    show (before ++ left' :: right' :: after).flatMap (items n) = _
    simp only [List.flatMap_append, List.flatMap_cons]
    rw [← List.append_assoc (items n left'), h.sameItems, List.append_assoc]
  · intro l l' m hst
    have hleaves : (before ++ left' :: right' :: after).flatMap (leaves n) =
        inner.childid.flatMap (leaves n) := by
      rw [hwindow.childid]
      simp only [List.flatMap_append, List.flatMap_cons]
      rw [← List.append_assoc (leaves n left'), h.sameLeaves, List.append_assoc]
    have hcount : ((before ++ left' :: right' :: after).map (innerCount n)).sum =
        (inner.childid.map (innerCount n)).sum := by
      have hsame := h.sameCount
      rw [hwindow.childid]
      simp only [List.map_append, List.map_cons, List.sum_append, List.sum_cons]
      omega
    show StoreOk st (l ++ (before ++ left' :: right' :: after).flatMap (leaves n) ++ l')
      (m + ((before ++ left' :: right' :: after).map (innerCount n)).sum)
    rw [hleaves, hcount]
    exact hst

/-- Merging two neighbours repairs the parent if the node then uses enough slots. -/
theorem Merged.repaired (h : Merged c n left right st left' right' st')
    (hwindow : Window inner before left right after ka key kb) (hlevel : inner.level = n + 1)
    (hothers : ∀ t ∈ before ++ after, Inside c n t ∧ Filled c n t)
    (hlast : blockLast (items n) left' = blockLast (items n) right) (hleft' : Filled c n left') :
    Repaired c inner st (withChildren inner (ka ++ kb) (before ++ left' :: after)) (freeNode n st') := by
  have hseparated : Separated (blockLast (items n)) (ka ++ kb) (before ++ left' :: after) :=
    Separated.append_left hwindow.lasts (hwindow.separated.replace_head hlast)
  have hkeys : (ka ++ kb).length + 1 = inner.slotkey.length := by
    rw [hwindow.slotkey, List.length_append, List.length_append, List.length_cons]
    omega
  refine ⟨inside_withChildren hlevel hseparated ?_, rfl, Nat.le_of_eq hkeys.symm,
    hkeys ▸ Nat.le_succ _, ?_, ?_, ?_⟩
  · intro t ht
    simp only [List.mem_append, List.mem_cons] at ht hothers
    rcases ht with ht | rfl | ht
    · exact hothers t (.inl ht)
    · exact ⟨h.inside, hleft'⟩
    · exact hothers t (.inr ht)
  · rw [hwindow.childid]
    show (before ++ left' :: after).flatMap (items n) = _
    simp only [List.flatMap_append, List.flatMap_cons]
    rw [h.sameItems, List.append_assoc]
  · intro l l' m hst
    rw [hwindow.childid] at hst
    have hput := h.store (l ++ before.flatMap (leaves n)) (after.flatMap (leaves n) ++ l')
      (m + (before.map (innerCount n)).sum + (after.map (innerCount n)).sum) (by
        convert hst using 1
        · simp
        · simp only [List.map_append, List.map_cons, List.sum_append, List.sum_cons]
          omega)
    show StoreOk _ (l ++ (before ++ left' :: after).flatMap (leaves n) ++ l')
      (m + ((before ++ left' :: after).map (innerCount n)).sum)
    convert hput using 1
    · simp
    · simp only [List.map_append, List.map_cons, List.sum_append, List.sum_cons]
      omega
  · rw [← h.size]
    unfold freeNode
    split <;> rfl

end Repairs

/-- **A parent can do whatever a child may ask for, and is repaired by it.** -/
theorem repair_spec {inner : InnerNode K (Node K n)} {before after : List (Node K n)} {child : Node K n}
    (h : Loose c inner before child after) {left right : Option Nat}
    (hleft : ∀ init l, before = init ++ [l] → left = some (slotuse n l))
    (hright : ∀ r rest, after = r :: rest → right = some (slotuse n r)) {fix : Fix}
    (hfix : Fitting (c.slotmin n) (slotuse n child) left right ⟨before.length, inner.slotkey.length⟩ fix)
    (d : Int) (st : Store) :
    ∃ inner' st', repair c inner before.length d st fix = some (inner', st') ∧
      Repaired c inner st inner' st' := by
  have hmin := c.four_le_slotmin n
  have hmax := c.two_slotmin_le n
  have hused := h.used
  have hchild : items n child ≠ [] := h.inside.items_ne_nil (by omega)
  have hlength := h.separated.length_eq
  rw [h.childid, List.length_append, List.length_cons] at hlength
  have hfront : 0 < before.length → ∃ init l, before = init ++ [l] := by
    intro hpos
    rcases List.eq_nil_or_concat before with rfl | ⟨init, l, rfl⟩
    · exact absurd hpos (Nat.lt_irrefl 0)
    · exact ⟨init, l, List.concat_eq_append⟩
  have hback : before.length < inner.slotkey.length → ∃ r rest, after = r :: rest := by
    intro hlt
    exact List.exists_cons_of_ne_nil (List.ne_nil_of_length_pos (by omega))
  have hothers := h.others
  -- one case for each fix a child may ask for; the neighbour it names is there
  cases hfix with
  | none hown =>
      refine ⟨updateSubtreeSize inner, st, rfl, innerOk_updateSubtreeSize h.level h.separated ?_, rfl,
        Nat.le_succ _, Nat.le_refl _, rfl, fun _ _ _ hst => hst, rfl⟩
      intro t ht
      rw [h.childid] at ht
      simp only [List.mem_append, List.mem_cons] at ht hothers
      rcases ht with ht | rfl | ht
      · exact hothers t (.inl ht)
      · exact ⟨h.inside, hown, h.used'⟩
      · exact hothers t (.inr ht)
  | @mergeLeft slots hown hslot hsome hfew =>
      obtain ⟨init, l, rfl⟩ := hfront hslot
      have hslots : slots = slotuse n l := Option.some.inj (hsome.symm.trans (hleft init l rfl))
      obtain ⟨hl, hfilled⟩ := hothers l (by simp)
      -- the two children and the key between them, apart from the rest of the parent
      obtain ⟨ka, key, kb, hwindow⟩ := exists_window h.separated
        (h.childid.trans (List.append_assoc init [l] (child :: after)))
      have hfit : slotuse n l + slotuse n child + 1 ≤ c.slotmax n := by omega
      obtain ⟨left', right', st', hmerge, hmerged⟩ := mergeNodes_spec n hl h.inside hwindow.last d st hfit
      have hlast : blockLast (items n) left' = blockLast (items n) child := by
        rw [blockLast, hmerged.sameItems, lastKey_append_of_ne_nil _ hchild]
        rfl
      have hpos : 1 ≤ slotuse n l := by
        have := hfilled.1
        omega
      have hslot' : (init ++ [l]).length = ka.length + 1 := by
        rw [← hwindow.length, List.length_append]
        rfl
      rw [hslot']
      refine ⟨_, _, (repair_merge hwindow h.level h.fits hmerge hmerged hpos hlast).2,
        hmerged.repaired hwindow h.level ?_ hlast ?_⟩
      · intro t ht
        refine hothers t ?_
        simp only [List.mem_append] at ht ⊢
        tauto
      · have hkept := hfilled.1
        rw [Filled, hmerged.used]
        omega
  | @mergeRight slots hown hslot hsome hfew =>
      obtain ⟨r, rest, rfl⟩ := hback hslot
      have hslots : slots = slotuse n r := Option.some.inj (hsome.symm.trans (hright r rest rfl))
      obtain ⟨hr, hfilled⟩ := hothers r (by simp)
      obtain ⟨ka, key, kb, hwindow⟩ := exists_window h.separated h.childid
      have hfit : slotuse n child + slotuse n r + 1 ≤ c.slotmax n := by omega
      obtain ⟨left', right', st', hmerge, hmerged⟩ := mergeNodes_spec n h.inside hr hwindow.last d st hfit
      have hlast : blockLast (items n) left' = blockLast (items n) r := by
        rw [blockLast, hmerged.sameItems, lastKey_append_of_ne_nil _ (hfilled.items_ne_nil hr)]
        rfl
      have hpos : 1 ≤ slotuse n child := by omega
      rw [hwindow.length]
      refine ⟨_, _, (repair_merge hwindow h.level h.fits hmerge hmerged hpos hlast).1,
        hmerged.repaired hwindow h.level ?_ hlast ?_⟩
      · intro t ht
        refine hothers t ?_
        simp only [List.mem_append, List.mem_cons] at ht ⊢
        tauto
      · have hkept := hfilled.1
        rw [Filled, hmerged.used]
        omega
  | @shiftLeft slots hown hslot hsome hmore =>
      obtain ⟨r, rest, rfl⟩ := hback hslot
      have hslots : slots = slotuse n r := Option.some.inj (hsome.symm.trans (hright r rest rfl))
      obtain ⟨hr, hfilled⟩ := hothers r (by simp)
      have hkept := hfilled.2
      obtain ⟨ka, key, kb, hwindow⟩ := exists_window h.separated h.childid
      obtain ⟨left', key', right', hshift, hshifted, hleft', hright'⟩ :=
        shiftLeft_spec n h.inside hr hwindow.last d (by omega) hkept
      rw [hwindow.length]
      refine ⟨_, _, repair_shiftLeft hwindow hshift,
        hshifted.repaired hwindow h.level ?_ (hfilled.items_ne_nil hr) ?_ ?_ st⟩
      · intro t ht
        refine hothers t ?_
        simp only [List.mem_append, List.mem_cons] at ht ⊢
        tauto
      · rw [Filled, hleft']
        omega
      · rw [Filled, hright']
        omega
  | @shiftRight slots hown hslot hsome hmore =>
      obtain ⟨init, l, rfl⟩ := hfront hslot
      have hslots : slots = slotuse n l := Option.some.inj (hsome.symm.trans (hleft init l rfl))
      obtain ⟨hl, hfilled⟩ := hothers l (by simp)
      have hkept := hfilled.2
      obtain ⟨ka, key, kb, hwindow⟩ := exists_window h.separated
        (h.childid.trans (List.append_assoc init [l] (child :: after)))
      obtain ⟨left', key', right', hshift, hshifted, hleft', hright'⟩ :=
        shiftRight_spec n hl h.inside hwindow.last d (by omega) hkept
      have hslot' : (init ++ [l]).length = ka.length + 1 := by
        rw [← hwindow.length, List.length_append]
        rfl
      rw [hslot']
      refine ⟨_, _, repair_shiftRight hwindow hshift, hshifted.repaired hwindow h.level ?_ hchild ?_ ?_ st⟩
      · intro t ht
        refine hothers t ?_
        simp only [List.mem_append] at ht ⊢
        tauto
      · rw [Filled, hleft']
        omega
      · rw [Filled, hright']
        omega

end RelaxedConcurrentFifo.ReplayTree
