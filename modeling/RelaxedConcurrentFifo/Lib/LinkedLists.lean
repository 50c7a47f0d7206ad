/-
# RelaxedConcurrentFifo.Lib.LinkedLists — doubly linked lists of nodes

The nodes of a doubly linked list carry a pointer to the next and one to the previous node, and the list
has pointers to its first and its last node. `Segment` says which nodes one passes from one pointer to
another; `Linked` says it of the whole list, in both directions.

The two changes of a list are made around a node `a` of it: a new node is put right behind `a`, or the
node behind `a` is taken out.
-/
import Mathlib.Data.List.Nodup
import Mathlib.Logic.Function.Basic

namespace RelaxedConcurrentFifo.Lib.LinkedLists

variable {A : Type}

/-! ## §1 — segments -/

/-- From `first`, the pointers lead through `l` to `last`. -/
def Segment (next : A → Option A) : Option A → List A → Option A → Prop
  | first, [], last => first = last
  | first, a :: l, last => first = some a ∧ Segment next (next a) l last

section Segments

variable {next next' : A → Option A} {first last : Option A} {l l' : List A} {a : A}

@[simp] theorem segment_nil : Segment next first [] last ↔ first = last := Iff.rfl

@[simp] theorem segment_cons :
    Segment next first (a :: l) last ↔ first = some a ∧ Segment next (next a) l last := Iff.rfl

theorem segment_append :
    Segment next first (l ++ l') last ↔ ∃ mid, Segment next first l mid ∧ Segment next mid l' last := by
  induction l generalizing first with
  | nil => simp
  | cons a l ih => simp [ih, and_assoc]

/-- Only the pointers of the nodes that are passed matter. -/
theorem Segment.congr (h : Segment next first l last) (hsame : ∀ a ∈ l, next' a = next a) :
    Segment next' first l last := by
  induction l generalizing first with
  | nil => exact h
  | cons a l ih =>
      obtain ⟨hfirst, hrest⟩ := h
      obtain ⟨ha, hl⟩ := List.forall_mem_cons.mp hsame
      refine ⟨hfirst, ?_⟩
      rw [ha]
      exact ih hrest hl

theorem Segment.first_eq (h : Segment next first l none) : first = l.head? := by
  cases l with
  | nil => exact h
  | cons a l => exact h.1

end Segments

/-! ## §2 — lists -/

/-- The pointers of a list and of its nodes. -/
structure Links (A : Type) where
  head : Option A
  tail : Option A
  next : A → Option A
  prev : A → Option A

/-- In both directions, the pointers lead through the nodes of `l`. -/
structure Linked (s : Links A) (l : List A) : Prop where
  nodup : l.Nodup
  forward : Segment s.next s.head l none
  backward : Segment s.prev s.tail l.reverse none

namespace Linked

variable {s : Links A} {l r : List A} {a b : A}

/-- The list with one node. -/
theorem singleton (a : A) (next prev : A → Option A) (hnext : next a = none) (hprev : prev a = none) :
    Linked ⟨some a, some a, next, prev⟩ [a] := by
  refine ⟨List.nodup_singleton a, ?_, ?_⟩
  · simp [hnext]
  · simp [hprev]

/-- What lies before and behind a node. -/
theorem around (h : Linked s (l ++ a :: r)) :
    Segment s.next s.head l (some a) ∧ Segment s.next (s.next a) r none ∧
      Segment s.prev s.tail r.reverse (some a) ∧ Segment s.prev (s.prev a) l.reverse none := by
  obtain ⟨_, hl, rfl, hr⟩ := segment_append.mp h.forward
  have hback := h.backward
  rw [List.reverse_append, List.reverse_cons, List.append_assoc] at hback
  obtain ⟨_, hr', hmid⟩ := segment_append.mp hback
  obtain ⟨rfl, hl'⟩ := hmid
  exact ⟨hl, hr, hr', hl'⟩

theorem next_eq (h : Linked s (l ++ a :: r)) : s.next a = r.head? := h.around.2.1.first_eq

theorem not_mem (h : Linked s (l ++ a :: r)) : a ∉ l ∧ a ∉ r := by
  have hnodup := List.nodup_middle.mp h.nodup
  have hnot := (List.nodup_cons.mp hnodup).1
  exact ⟨fun hl => hnot (List.mem_append_left r hl), fun hr => hnot (List.mem_append_right l hr)⟩

end Linked

/-! ## §3 — changes -/

variable [DecidableEq A]

namespace Links

/-- `b` is put behind `a`. -/
def insertAfter (s : Links A) (a b : A) : Links A where
  head := s.head
  tail := if s.next a = none then some b else s.tail
  next := Function.update (Function.update s.next b (s.next a)) a (some b)
  prev :=
    let prev := match s.next a with
      | none => s.prev
      | some c => Function.update s.prev c (some b)
    Function.update prev b (some a)

/-- `b`, which follows `a`, is taken out. -/
def removeAfter (s : Links A) (a b : A) : Links A where
  head := s.head
  tail := if s.next b = none then some a else s.tail
  next := Function.update s.next a (s.next b)
  prev := match s.next b with
    | none => s.prev
    | some c => Function.update s.prev c (some a)

end Links

namespace Linked

variable {s : Links A} {l r : List A} {a b : A}

theorem insertAfter (h : Linked s (l ++ a :: r)) (hb : b ∉ l ++ a :: r) :
    Linked (s.insertAfter a b) (l ++ a :: b :: r) := by
  obtain ⟨hl, hr, hr', hl'⟩ := h.around
  obtain ⟨hal, har⟩ := h.not_mem
  have hbl : b ∉ l := fun hmem => hb (List.mem_append_left _ hmem)
  have hba : b ≠ a := fun heq => hb (by simp [heq])
  have hbr : b ∉ r := fun hmem => hb (by simp [hmem])
  have hnextOther : ∀ x, x ≠ a → x ≠ b → (s.insertAfter a b).next x = s.next x := by
    intro x hxa hxb
    simp [Links.insertAfter, Function.update_of_ne hxa, Function.update_of_ne hxb]
  refine ⟨?_, ?_, ?_⟩
  · have hnodup : (b :: (l ++ a :: r)).Nodup := List.nodup_cons.mpr ⟨hb, h.nodup⟩
    have hperm : (b :: (l ++ a :: r)).Perm (l ++ a :: b :: r) := by
      have hmiddle : (b :: ((l ++ [a]) ++ r)).Perm ((l ++ [a]) ++ b :: r) := List.perm_middle.symm
      simpa using hmiddle
    exact hperm.nodup_iff.mp hnodup
  · refine segment_append.mpr ⟨some a, ?_, rfl, ?_⟩
    · exact hl.congr fun x hx =>
        hnextOther x (fun heq => hal (heq ▸ hx)) (fun heq => hbl (heq ▸ hx))
    · refine ⟨by simp [Links.insertAfter], ?_⟩
      have hnext : (s.insertAfter a b).next b = s.next a := by
        simp [Links.insertAfter, Function.update_of_ne hba]
      rw [hnext]
      exact hr.congr fun x hx =>
        hnextOther x (fun heq => har (heq ▸ hx)) (fun heq => hbr (heq ▸ hx))
  · have hprevb : (s.insertAfter a b).prev b = some a := by simp [Links.insertAfter]
    have hbefore : Segment (s.insertAfter a b).prev (some a) (a :: l.reverse) none := by
      refine ⟨rfl, ?_⟩
      have hnext := h.next_eq
      have hsame : ∀ x, x ∉ r → x ≠ b → (s.insertAfter a b).prev x = s.prev x := by
        intro x hxr hxb
        cases r with
        | nil =>
            rw [List.head?_nil] at hnext
            simp [Links.insertAfter, hnext, Function.update_of_ne hxb]
        | cons c r =>
            rw [List.head?_cons] at hnext
            have hxc : x ≠ c := fun heq => hxr (by simp [heq])
            simp [Links.insertAfter, hnext, Function.update_of_ne hxb, Function.update_of_ne hxc]
      rw [hsame a har hba.symm]
      refine hl'.congr fun x hx => hsame x ?_ ?_
      · intro hxr
        have hdisjoint := List.disjoint_of_nodup_append h.nodup
        exact hdisjoint (List.mem_reverse.mp hx) (List.mem_cons_of_mem a hxr)
      · exact fun heq => hbl (heq ▸ List.mem_reverse.mp hx)
    have hreverse : (l ++ a :: b :: r).reverse = r.reverse ++ b :: a :: l.reverse := by simp
    rw [hreverse]
    refine segment_append.mpr ⟨some b, ?_, rfl, ?_⟩
    · have hnext := h.next_eq
      cases r with
      | nil =>
          rw [List.head?_nil] at hnext
          simp [Links.insertAfter, hnext]
      | cons c r =>
          rw [List.head?_cons] at hnext
          rw [List.reverse_cons] at hr' ⊢
          obtain ⟨_, hr'', rfl, -⟩ := segment_append.mp hr'
          have hbc : b ≠ c := fun heq => hbr (by simp [heq])
          have hcr : c ∉ r := by
            have hnodup := (List.nodup_append.mp h.nodup).2.1
            exact (List.nodup_cons.mp (List.nodup_cons.mp hnodup).2).1
          refine segment_append.mpr ⟨some c, ?_, rfl, ?_⟩
          · have htail : (s.insertAfter a b).tail = s.tail := by simp [Links.insertAfter, hnext]
            rw [htail]
            refine hr''.congr fun x hx => ?_
            have hxr : x ∈ r := List.mem_reverse.mp hx
            have hxb : x ≠ b := fun heq => hbr (by simp [← heq, hxr])
            have hxc : x ≠ c := fun heq => hcr (heq ▸ hxr)
            simp [Links.insertAfter, hnext, Function.update_of_ne hxb, Function.update_of_ne hxc]
          · show (s.insertAfter a b).prev c = some b
            simp [Links.insertAfter, hnext, Function.update_of_ne hbc.symm]
    · show Segment _ ((s.insertAfter a b).prev b) _ none
      rw [hprevb]
      exact hbefore

theorem removeAfter (h : Linked s (l ++ a :: b :: r)) : Linked (s.removeAfter a b) (l ++ a :: r) := by
  obtain ⟨hl, ⟨-, hr⟩, hr', hl'⟩ := h.around
  obtain ⟨hal, har⟩ := h.not_mem
  have hsplit : l ++ a :: b :: r = (l ++ [a]) ++ b :: r := by simp
  have hb : Linked s ((l ++ [a]) ++ b :: r) := hsplit ▸ h
  obtain ⟨-, -, hrb, -⟩ := hb.around
  have hnext := hb.next_eq
  have hdisjoint := List.disjoint_of_nodup_append h.nodup
  refine ⟨?_, ?_, ?_⟩
  · refine h.nodup.sublist ?_
    exact (List.Sublist.refl l).append ((List.sublist_cons_self b r).cons_cons a)
  · refine segment_append.mpr ⟨some a, ?_, rfl, ?_⟩
    · refine hl.congr fun x hx => ?_
      have hxa : x ≠ a := fun heq => hal (heq ▸ hx)
      simp [Links.removeAfter, Function.update_of_ne hxa]
    · have hnexta : (s.removeAfter a b).next a = s.next b := by simp [Links.removeAfter]
      rw [hnexta]
      refine hr.congr fun x hx => ?_
      have hxa : x ≠ a := fun heq => har (heq ▸ List.mem_cons_of_mem b hx)
      simp [Links.removeAfter, Function.update_of_ne hxa]
  · have hsame : ∀ x, x ∉ r → (s.removeAfter a b).prev x = s.prev x := by
      intro x hxr
      cases r with
      | nil =>
          rw [List.head?_nil] at hnext
          simp [Links.removeAfter, hnext]
      | cons c r =>
          rw [List.head?_cons] at hnext
          have hxc : x ≠ c := fun heq => hxr (by simp [heq])
          simp [Links.removeAfter, hnext, Function.update_of_ne hxc]
    have hbefore : Segment (s.removeAfter a b).prev (some a) (a :: l.reverse) none := by
      refine ⟨rfl, ?_⟩
      rw [hsame a fun hmem => har (List.mem_cons_of_mem b hmem)]
      refine hl'.congr fun x hx => hsame x fun hxr => ?_
      exact hdisjoint (List.mem_reverse.mp hx) (List.mem_cons_of_mem a (List.mem_cons_of_mem b hxr))
    have hreverse : (l ++ a :: r).reverse = r.reverse ++ a :: l.reverse := by simp
    rw [hreverse]
    refine segment_append.mpr ⟨some a, ?_, hbefore⟩
    cases r with
    | nil =>
        rw [List.head?_nil] at hnext
        simp [Links.removeAfter, hnext]
    | cons c r =>
        rw [List.head?_cons] at hnext
        rw [List.reverse_cons] at hrb ⊢
        obtain ⟨_, hrb', rfl, -⟩ := segment_append.mp hrb
        have hcr : c ∉ r := by
          have hnodup := (List.nodup_append.mp hb.nodup).2.1
          exact (List.nodup_cons.mp (List.nodup_cons.mp hnodup).2).1
        refine segment_append.mpr ⟨some c, ?_, rfl, ?_⟩
        · have htail : (s.removeAfter a b).tail = s.tail := by simp [Links.removeAfter, hnext]
          rw [htail]
          refine hrb'.congr fun x hx => ?_
          have hxc : x ≠ c := fun heq => hcr (heq ▸ List.mem_reverse.mp hx)
          simp [Links.removeAfter, hnext, Function.update_of_ne hxc]
        · show (s.removeAfter a b).prev c = some a
          simp [Links.removeAfter, hnext]

end Linked

end RelaxedConcurrentFifo.Lib.LinkedLists
