/-
# RelaxedConcurrentFifo.Lib.KeyedLists — lists of keyed entries, cut at the first key not below a bound

An ordered collection is a list of pairs `(key, data)`. Everything an ordered collection does with a
key `v` happens at one place of the list: where the entries below `v` end. `insertAt` and `removeAt`
work there, and they only see the part of the list around that place: entries known to be below `v`
on the left and entries known not to be on the right may be added and taken away.
-/
import Mathlib.Data.List.TakeWhile
import Mathlib.Order.Lattice
import Mathlib.Tactic.Conv

namespace RelaxedConcurrentFifo.Lib.KeyedLists

variable {K β : Type} [LinearOrder K]

/-! ## §1 — sorted lists and their cut -/

/-- The keys never decrease. -/
def SortedKeys (l : List (K × β)) : Prop := l.Pairwise (fun p q => p.1 ≤ q.1)

/-- The entries before the first one whose key is not below `v`. -/
def below (v : K) (l : List (K × β)) : List (K × β) := l.takeWhile (fun p => decide (p.1 < v))

/-- The first entry whose key is not below `v`, and all after it. -/
def notBelow (v : K) (l : List (K × β)) : List (K × β) := l.dropWhile (fun p => decide (p.1 < v))

@[simp] theorem below_append_notBelow (v : K) (l : List (K × β)) :
    below v l ++ notBelow v l = l := List.takeWhile_append_dropWhile

theorem lt_of_mem_below {v : K} {l : List (K × β)} {p : K × β} (h : p ∈ below v l) : p.1 < v := by
  have := List.mem_takeWhile_imp h
  simpa using this

theorem take_length_below (v : K) (l : List (K × β)) : l.take (below v l).length = below v l :=
  (List.prefix_iff_eq_take.mp (List.takeWhile_prefix _)).symm

theorem drop_length_below (v : K) (l : List (K × β)) : l.drop (below v l).length = notBelow v l := by
  have hcut := (List.take_append_drop (below v l).length l).trans (below_append_notBelow v l).symm
  rw [take_length_below] at hcut
  exact List.append_cancel_left hcut

/-- Entries known to lie on one side of `v` do not take part in the cut. -/
theorem cut_append {v : K} {A C B : List (K × β)} (hA : ∀ p ∈ A, p.1 < v) (hB : ∀ p ∈ B, v ≤ p.1) :
    below v (A ++ C ++ B) = A ++ below v C ∧ notBelow v (A ++ C ++ B) = notBelow v C ++ B := by
  have hA' : ∀ p ∈ A, decide (p.1 < v) = true := fun p hp => decide_eq_true (hA p hp)
  have hB' : below v B = [] ∧ notBelow v B = B := by
    cases B with
    | nil => exact ⟨rfl, rfl⟩
    | cons b B =>
        have hb : ¬ b.1 < v := not_lt.mpr (hB b List.mem_cons_self)
        simp [below, notBelow, hb]
  rw [List.append_assoc]
  rw [below, notBelow, List.takeWhile_append_of_pos hA', List.dropWhile_append_of_pos hA',
    List.takeWhile_append, List.dropWhile_append]
  constructor
  · split_ifs with hall
    · rw [← below, hB'.1, List.append_nil, below]
      have hlen := List.takeWhile_append_dropWhile (p := fun p : K × β => decide (p.1 < v)) (l := C)
      have hnil : C.dropWhile (fun p : K × β => decide (p.1 < v)) = [] := by
        have := congrArg List.length hlen
        rw [List.length_append] at this
        exact List.length_eq_zero_iff.mp (by omega)
      rw [hnil, List.append_nil] at hlen
      rw [hlen]
    · rfl
  · split_ifs with hnil
    · rw [← notBelow, hB'.2, notBelow, List.isEmpty_iff.mp hnil, List.nil_append]
    · rfl

/-- In a sorted list the cut separates the keys below `v` from the others. -/
theorem SortedKeys.le_of_mem_notBelow {v : K} {l : List (K × β)} (h : SortedKeys l) {p : K × β}
    (hp : p ∈ notBelow v l) : v ≤ p.1 := by
  induction l with
  | nil => simp [notBelow] at hp
  | cons a l ih =>
      obtain ⟨ha, hl⟩ := List.pairwise_cons.mp h
      by_cases hav : a.1 < v
      · rw [notBelow, List.dropWhile_cons_of_pos (by simpa using hav)] at hp
        exact ih hl hp
      · rw [notBelow, List.dropWhile_cons_of_neg (by simpa using hav)] at hp
        rcases List.mem_cons.mp hp with rfl | hp
        · exact not_lt.mp hav
        · exact (not_lt.mp hav).trans (ha p hp)

theorem SortedKeys.countP_lt {v : K} {l : List (K × β)} (h : SortedKeys l) :
    l.countP (fun p => decide (p.1 < v)) = (below v l).length := by
  conv_lhs => rw [← below_append_notBelow v l]
  rw [List.countP_append]
  have hbelow : (below v l).countP (fun p => decide (p.1 < v)) = (below v l).length :=
    List.countP_eq_length.mpr fun p hp => decide_eq_true (lt_of_mem_below hp)
  have hrest : (notBelow v l).countP (fun p => decide (p.1 < v)) = 0 :=
    List.countP_eq_zero.mpr fun p hp => by simpa using h.le_of_mem_notBelow hp
  rw [hbelow, hrest, Nat.add_zero]

/-- If `v` occurs in a sorted list, it is the first key that is not below `v`. -/
theorem SortedKeys.notBelow_of_mem {v : K} {l : List (K × β)} (h : SortedKeys l)
    (hv : v ∈ l.map Prod.fst) : ∃ d B, notBelow v l = (v, d) :: B := by
  obtain ⟨p, hp, rfl⟩ := List.mem_map.mp hv
  have hp' : p ∈ notBelow p.1 l := by
    rw [← below_append_notBelow p.1 l, List.mem_append] at hp
    rcases hp with hp | hp
    · exact absurd (lt_of_mem_below hp) (lt_irrefl _)
    · exact hp
  obtain ⟨a, B, hB⟩ := List.exists_cons_of_ne_nil (List.ne_nil_of_mem hp')
  have hsub : SortedKeys (a :: B) := by
    rw [← hB]
    exact h.sublist (List.dropWhile_sublist _)
  have hle : a.1 ≤ p.1 := by
    rw [hB] at hp'
    rcases List.mem_cons.mp hp' with rfl | hmem
    · exact le_refl _
    · exact (List.pairwise_cons.mp hsub).1 p hmem
  have hge : p.1 ≤ a.1 := h.le_of_mem_notBelow (by rw [hB]; exact List.mem_cons_self)
  exact ⟨a.2, B, by rw [hB, ← le_antisymm hle hge]⟩

/-! ## §2 — inserting and removing at the cut -/

/-- `(v, d)` placed before the first entry whose key is not below `v`. -/
def insertAt (v : K) (d : β) (l : List (K × β)) : List (K × β) := below v l ++ (v, d) :: notBelow v l

/-- The first entry whose key is not below `v` taken out. -/
def removeAt (v : K) (l : List (K × β)) : List (K × β) := below v l ++ (notBelow v l).tail

theorem insertAt_append {v : K} {d : β} {A C B : List (K × β)} (hA : ∀ p ∈ A, p.1 < v)
    (hB : ∀ p ∈ B, v ≤ p.1) : insertAt v d (A ++ C ++ B) = A ++ insertAt v d C ++ B := by
  obtain ⟨h₁, h₂⟩ := cut_append (C := C) hA hB
  rw [insertAt, h₁, h₂, insertAt]
  simp

theorem removeAt_append {v : K} {A C B : List (K × β)} (hA : ∀ p ∈ A, p.1 < v)
    (hB : ∀ p ∈ B, v ≤ p.1) (hC : notBelow v C ≠ []) :
    removeAt v (A ++ C ++ B) = A ++ removeAt v C ++ B := by
  obtain ⟨h₁, h₂⟩ := cut_append (C := C) hA hB
  rw [removeAt, h₁, h₂, removeAt, List.tail_append_of_ne_nil hC]
  simp

theorem SortedKeys.insertAt {v : K} {d : β} {l : List (K × β)} (h : SortedKeys l) :
    SortedKeys (KeyedLists.insertAt v d l) := by
  have hl : SortedKeys (below v l ++ notBelow v l) := by rwa [below_append_notBelow]
  obtain ⟨h₁, h₂, h₃⟩ := List.pairwise_append.mp hl
  refine List.pairwise_append.mpr ⟨h₁, List.pairwise_cons.mpr ⟨?_, h₂⟩, ?_⟩
  · exact fun p hp => h.le_of_mem_notBelow hp
  · intro p hp q hq
    rcases List.mem_cons.mp hq with rfl | hq
    · exact (lt_of_mem_below hp).le
    · exact h₃ p hp q hq

theorem removeAt_sublist (v : K) (l : List (K × β)) : (removeAt v l).Sublist l := by
  conv_rhs => rw [← below_append_notBelow v l]
  exact (List.Sublist.refl _).append (List.tail_sublist _)

theorem SortedKeys.removeAt {v : K} {l : List (K × β)} (h : SortedKeys l) :
    SortedKeys (KeyedLists.removeAt v l) := h.sublist (removeAt_sublist v l)

theorem length_insertAt (v : K) (d : β) (l : List (K × β)) :
    (insertAt v d l).length = l.length + 1 := by
  conv_rhs => rw [← below_append_notBelow v l]
  simp only [insertAt, List.length_append, List.length_cons]
  omega

/-- For a key that occurs in a sorted list, `removeAt` takes out its first occurrence. -/
theorem SortedKeys.removeAt_eq_eraseP {v : K} {l : List (K × β)} (h : SortedKeys l)
    (hv : v ∈ l.map Prod.fst) : KeyedLists.removeAt v l = l.eraseP (fun p => decide (p.1 = v)) := by
  obtain ⟨d, B, hB⟩ := h.notBelow_of_mem hv
  have hnot : ∀ p ∈ below v l, ¬ decide (p.1 = v) = true := fun p hp => by
    simpa using (lt_of_mem_below hp).ne
  conv_rhs => rw [← below_append_notBelow v l]
  rw [List.eraseP_append_right _ hnot, hB, List.eraseP_cons_of_pos (by simp), KeyedLists.removeAt, hB,
    List.tail_cons]

theorem SortedKeys.find?_eq {v : K} {l : List (K × β)} (h : SortedKeys l)
    (hv : v ∈ l.map Prod.fst) :
    l.find? (fun p => decide (p.1 = v)) = (notBelow v l).head? := by
  obtain ⟨d, B, hB⟩ := h.notBelow_of_mem hv
  have hnot : (below v l).find? (fun p => decide (p.1 = v)) = none :=
    List.find?_eq_none.mpr fun p hp => by simpa using (lt_of_mem_below hp).ne
  conv_lhs => rw [← below_append_notBelow v l]
  rw [List.find?_append, hnot, hB, List.find?_cons_of_pos (by simp), Option.none_or, List.head?_cons]

/-! ## §3 — changing the data -/

section Data

variable {γ : Type} {g : K × β → K × γ}

theorem below_map (hg : ∀ p, (g p).1 = p.1) (v : K) (l : List (K × β)) :
    below v (l.map g) = (below v l).map g := by
  simp [below, List.takeWhile_map, Function.comp_def, hg]

theorem notBelow_map (hg : ∀ p, (g p).1 = p.1) (v : K) (l : List (K × β)) :
    notBelow v (l.map g) = (notBelow v l).map g := by
  simp [notBelow, List.dropWhile_map, Function.comp_def, hg]

theorem insertAt_map (hg : ∀ p, (g p).1 = p.1) (v : K) (d : β) (l : List (K × β)) :
    (insertAt v d l).map g = insertAt v (g (v, d)).2 (l.map g) := by
  have hv : g (v, d) = (v, (g (v, d)).2) := Prod.ext (hg _) rfl
  simp only [insertAt, List.map_append, List.map_cons, below_map hg, notBelow_map hg, ← hv]

theorem removeAt_map (hg : ∀ p, (g p).1 = p.1) (v : K) (l : List (K × β)) :
    (removeAt v l).map g = removeAt v (l.map g) := by
  simp only [removeAt, List.map_append, List.map_tail, below_map hg, notBelow_map hg]

theorem sortedKeys_map (hg : ∀ p, (g p).1 = p.1) {l : List (K × β)} :
    SortedKeys (l.map g) ↔ SortedKeys l := by
  simp [SortedKeys, List.pairwise_map, hg]

/-- The data of the entries below `v` changed. -/
def passBelow (v : K) (f : β → β) (l : List (K × β)) : List (K × β) :=
  l.map fun p => if p.1 < v then (p.1, f p.2) else p

variable {f : β → β} {v : K}

theorem passBelow_append (l l' : List (K × β)) :
    passBelow v f (l ++ l') = passBelow v f l ++ passBelow v f l' := List.map_append

theorem passBelow_of_lt {l : List (K × β)} (h : ∀ p ∈ l, p.1 < v) :
    passBelow v f l = l.map fun p => (p.1, f p.2) := by
  apply List.map_congr_left
  intro p hp
  rw [if_pos (h p hp)]

theorem passBelow_of_le {l : List (K × β)} (h : ∀ p ∈ l, v ≤ p.1) : passBelow v f l = l := by
  have hsame : passBelow v f l = l.map id := by
    apply List.map_congr_left
    intro p hp
    rw [if_neg (not_lt.mpr (h p hp))]
    rfl
  rw [hsame, List.map_id]

theorem fst_passBelow (p : K × β) : (if p.1 < v then (p.1, f p.2) else p).1 = p.1 := by
  split <;> rfl

@[simp] theorem length_passBelow (l : List (K × β)) : (passBelow v f l).length = l.length := List.length_map _

theorem below_passBelow (w : K) (l : List (K × β)) :
    below w (passBelow v f l) = passBelow v f (below w l) := below_map fst_passBelow w l

theorem notBelow_passBelow (w : K) (l : List (K × β)) :
    notBelow w (passBelow v f l) = passBelow v f (notBelow w l) := notBelow_map fst_passBelow w l

theorem removeAt_passBelow (w : K) (l : List (K × β)) :
    removeAt w (passBelow v f l) = passBelow v f (removeAt w l) := (removeAt_map fst_passBelow w l).symm

theorem sortedKeys_passBelow {l : List (K × β)} : SortedKeys (passBelow v f l) ↔ SortedKeys l :=
  sortedKeys_map fst_passBelow

/-- The first entry that is not below `v` is not changed. -/
theorem passBelow_cons_self (v : K) (d : β) (l : List (K × β)) :
    passBelow v f ((v, d) :: l) = (v, d) :: passBelow v f l := by
  simp [passBelow]

/-- The data of a sorted list changed up to the cut. -/
theorem SortedKeys.passBelow_eq {l : List (K × β)} (h : SortedKeys l) :
    passBelow v f l = (below v l).map (fun p => (p.1, f p.2)) ++ notBelow v l := by
  conv_lhs => rw [← below_append_notBelow v l]
  rw [passBelow_append, passBelow_of_lt fun p hp => lt_of_mem_below hp,
    passBelow_of_le fun p hp => h.le_of_mem_notBelow hp]

end Data

/-! ## §4 — the last key -/

/-- The key of the last entry. -/
def lastKey (l : List (K × β)) : Option K := l.getLast?.map Prod.fst

omit [LinearOrder K] in
theorem lastKey_append_of_ne_nil (l : List (K × β)) {l' : List (K × β)} (h : l' ≠ []) :
    lastKey (l ++ l') = lastKey l' := by
  simp [lastKey, List.getLast?_append, List.getLast?_eq_some_getLast h]

omit [LinearOrder K] in
theorem lastKey_map {γ : Type} {g : K × β → K × γ} (hg : ∀ p, (g p).1 = p.1) (l : List (K × β)) :
    lastKey (l.map g) = lastKey l := by
  simp [lastKey, List.getLast?_map, Function.comp_def, hg]

theorem lastKey_passBelow {v : K} {f : β → β} (l : List (K × β)) : lastKey (passBelow v f l) = lastKey l :=
  lastKey_map fst_passBelow l

omit [LinearOrder K] in
theorem exists_of_lastKey {l : List (K × β)} {k : K} (h : lastKey l = some k) :
    ∃ init d, l = init ++ [(k, d)] := by
  obtain ⟨p, hp, rfl⟩ := Option.map_eq_some_iff.mp h
  obtain ⟨init, rfl⟩ := List.getLast?_eq_some_iff.mp hp
  exact ⟨init, p.2, rfl⟩

/-- In a sorted list, no key is greater than the last one. -/
theorem SortedKeys.le_lastKey {l : List (K × β)} (h : SortedKeys l) {k : K} (hk : lastKey l = some k)
    {p : K × β} (hp : p ∈ l) : p.1 ≤ k := by
  obtain ⟨init, d, rfl⟩ := exists_of_lastKey hk
  rcases List.mem_append.mp hp with hp | hp
  · exact (List.pairwise_append.mp h).2.2 p hp _ List.mem_cons_self
  · rw [List.mem_singleton.mp hp]

/-- A list whose last key is not below `v` has an entry that is not. -/
theorem notBelow_ne_nil {v k : K} {l : List (K × β)} (hk : lastKey l = some k) (hle : v ≤ k) :
    notBelow v l ≠ [] := by
  obtain ⟨init, d, rfl⟩ := exists_of_lastKey hk
  intro hnil
  have hall := List.dropWhile_eq_nil_iff.mp hnil (k, d) (by simp)
  exact not_lt.mpr hle (of_decide_eq_true hall)

/-- Inserting before the last entry does not change the last key. -/
theorem lastKey_insertAt {v k : K} {d : β} {l : List (K × β)} (hk : lastKey l = some k) (hle : v ≤ k) :
    lastKey (insertAt v d l) = some k := by
  have hne := notBelow_ne_nil hk hle
  have hsplit : insertAt v d l = (below v l ++ [(v, d)]) ++ notBelow v l := by simp [insertAt]
  rw [hsplit, lastKey_append_of_ne_nil _ hne, ← hk]
  conv_rhs => rw [← below_append_notBelow v l]
  rw [lastKey_append_of_ne_nil _ hne]

end RelaxedConcurrentFifo.Lib.KeyedLists
