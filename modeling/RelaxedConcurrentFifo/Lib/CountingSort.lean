/-
# RelaxedConcurrentFifo.Lib.CountingSort — counting sort with moving cursors

Items with a key below `n` are counted by key, the counts are turned into the places where the items of
each key start, and each item goes to the place its key's cursor points to, which then moves on. The
cursors end where the items of the next key start.

`placeAll_sorted` is the whole statement: no access is out of bounds, and the items of each key stand
together, in the order they came in.
-/
import Mathlib.Data.List.Count
import Mathlib.Data.List.Induction
import Mathlib.Algebra.GroupWithZero.Nat
import Mathlib.Algebra.Order.BigOperators.Group.List

namespace RelaxedConcurrentFifo.Lib.CountingSort

variable {β γ : Type*}

/-! ## §1 — the algorithm -/

/-- `++cursors[k]`. -/
def bump (cursors : List Nat) (k : Nat) : List Nat := cursors.modify k (· + 1)

/-- `std::exclusive_scan`. -/
def exclusiveScan (init : Nat) : List Nat → List Nat
  | [] => []
  | x :: xs => init :: exclusiveScan (init + x) xs

/-- `out[cursors[k]++] = v`, unless it is out of bounds. -/
def place (cursors : List Nat) (out : List β) (item : Nat × β) : Option (List Nat × List β) :=
  match cursors[item.1]? with
  | some pos => if pos < out.length then some (bump cursors item.1, out.set pos item.2) else none
  | none => none

def placeAll (cursors : List Nat) (out : List β) : List (Nat × β) → Option (List Nat × List β)
  | [] => some (cursors, out)
  | item :: items => (place cursors out item).bind fun s => placeAll s.1 s.2 items

theorem placeAll_concat (cursors : List Nat) (out : List β) (items : List (Nat × β))
    (item : Nat × β) : placeAll cursors out (items ++ [item]) =
      (placeAll cursors out items).bind fun s => place s.1 s.2 item := by
  induction items generalizing cursors out with
  | nil =>
      show (place cursors out item).bind (fun s => some (s.1, s.2)) = place cursors out item
      cases place cursors out item <;> rfl
  | cons x items ih =>
      show (place cursors out x).bind (fun s => placeAll s.1 s.2 (items ++ [item])) =
        ((place cursors out x).bind fun s => placeAll s.1 s.2 items).bind fun s => place s.1 s.2 item
      rw [Option.bind_assoc]
      congr 1
      funext s
      exact ih s.1 s.2

/-- The places do not depend on the values. -/
theorem placeAll_map (f : β → γ) (cursors : List Nat) (out : List β) (items : List (Nat × β)) :
    placeAll cursors (out.map f) (items.map (Prod.map id f)) =
      (placeAll cursors out items).map (Prod.map id (List.map f)) := by
  induction items generalizing cursors out with
  | nil => rfl
  | cons x items ih =>
      have hplace : place cursors (out.map f) (Prod.map id f x) =
          (place cursors out x).map (Prod.map id (List.map f)) := by
        unfold place
        show (match cursors[x.1]? with
          | some pos => if pos < (out.map f).length then
              some (bump cursors x.1, (out.map f).set pos (f x.2)) else none
          | none => none) = _
        cases cursors[x.1]? with
        | none => rfl
        | some pos =>
            dsimp only
            rw [List.length_map]
            split
            · rw [← List.map_set]
              rfl
            · rfl
      rw [List.map_cons, placeAll, hplace, placeAll]
      cases place cursors out x with
      | none => rfl
      | some s => exact ih s.1 s.2

/-- An entry in front of the cursors, which no key points to. -/
theorem placeAll_cons (front : Nat) (cursors : List Nat) (out : List β) (items : List (Nat × β)) :
    placeAll (front :: cursors) out (items.map (Prod.map (· + 1) id)) =
      (placeAll cursors out items).map (Prod.map (front :: ·) id) := by
  induction items generalizing cursors out with
  | nil => rfl
  | cons x items ih =>
      have hplace : place (front :: cursors) out (Prod.map (· + 1) id x) =
          (place cursors out x).map (Prod.map (front :: ·) id) := by
        unfold place
        show (match cursors[x.1]? with
          | some pos => if pos < out.length then
              some (front :: bump cursors x.1, out.set pos x.2) else none
          | none => none) = _
        cases cursors[x.1]? with
        | none => rfl
        | some pos =>
            dsimp only
            split <;> rfl
      rw [List.map_cons, placeAll, hplace, placeAll]
      cases place cursors out x with
      | none => rfl
      | some s => exact ih s.1 s.2

/-! ## §2 — counts and starts -/

/-- How many items have the key `k`. -/
def count (l : List (Nat × β)) (k : Nat) : Nat := l.countP fun x => x.1 == k

/-- How many items have a smaller key: where those of `k` start. -/
def start (l : List (Nat × β)) (k : Nat) : Nat := l.countP fun x => decide (x.1 < k)

/-- The items of the key `k`. -/
def ofKey (l : List (Nat × β)) (k : Nat) : List β := (l.filter fun x => x.1 == k).map Prod.snd

variable {l done : List (Nat × β)} {n k k' : Nat}

theorem length_ofKey (l : List (Nat × β)) (k : Nat) : (ofKey l k).length = count l k := by
  unfold ofKey count
  rw [List.length_map, List.countP_eq_length_filter]

theorem start_zero (l : List (Nat × β)) : start l 0 = 0 := by
  unfold start
  exact List.countP_eq_zero.mpr fun x _ => by simp

theorem start_succ (l : List (Nat × β)) (k : Nat) : start l (k + 1) = start l k + count l k := by
  induction l with
  | nil => rfl
  | cons x l ih =>
      unfold start count at ih ⊢
      simp only [List.countP_cons, decide_eq_true_eq, beq_iff_eq]
      rw [ih]
      split <;> split <;> split <;> omega

theorem start_le (h : k ≤ k') : start l k ≤ start l k' := by
  induction k', h using Nat.le_induction with
  | base => exact Nat.le_refl _
  | succ k' _ ih =>
      rw [start_succ]
      omega

theorem start_add_count_le (h : k < k') : start l k + count l k ≤ start l k' := by
  rw [← start_succ]
  exact start_le h

theorem start_le_length (l : List (Nat × β)) (k : Nat) : start l k ≤ l.length :=
  List.countP_le_length

/-- All items have smaller keys. -/
theorem start_eq_length (hkeys : ∀ x ∈ l, x.1 < n) : start l n = l.length :=
  List.countP_eq_length.mpr fun x hx => decide_eq_true (hkeys x hx)

/-- Each place belongs to one of the keys. -/
theorem exists_key_of_lt_start {i : Nat} (h : i < start l n) :
    ∃ k < n, start l k ≤ i ∧ i < start l k + count l k := by
  induction n with
  | zero =>
      rw [start_zero] at h
      cases h
  | succ n ih =>
      by_cases hlt : i < start l n
      · obtain ⟨k, hk, hplace⟩ := ih hlt
        exact ⟨k, hk.trans (Nat.lt_succ_self n), hplace⟩
      · rw [start_succ] at h
        exact ⟨n, Nat.lt_succ_self n, Nat.le_of_not_lt hlt, h⟩

theorem getElem?_bump (cursors : List Nat) (i j : Nat) :
    (bump cursors i)[j]? = if i = j then cursors[j]?.map (· + 1) else cursors[j]? := by
  unfold bump
  rw [List.getElem?_modify]
  split
  · rfl
  · exact Option.map_id_apply

@[simp] theorem length_bump (cursors : List Nat) (i : Nat) : (bump cursors i).length = cursors.length :=
  List.length_modify _ _ _

/-- Counting, from no count at all. -/
theorem getElem?_counts (l : List (Nat × β)) (n : Nat) {k : Nat} (hk : k < n) :
    ((l.map Prod.fst).foldl bump (List.replicate n 0))[k]? = some (count l k) := by
  induction l using List.reverseRecOn with
  | nil => simp [hk, count]
  | append_singleton l x ih =>
      rw [List.map_append, List.foldl_append]
      show (bump ((l.map Prod.fst).foldl bump (List.replicate n 0)) x.1)[k]? = _
      rw [getElem?_bump, ih]
      unfold count
      rw [List.countP_append, List.countP_singleton]
      by_cases hx : x.1 = k
      · simp [hx]
      · simp [hx]

theorem length_counts (keys : List Nat) (n : Nat) :
    (keys.foldl bump (List.replicate n 0)).length = n := by
  induction keys using List.reverseRecOn with
  | nil => exact List.length_replicate
  | append_singleton keys x ih =>
      rw [List.foldl_append]
      exact (length_bump _ _).trans ih

@[simp] theorem length_exclusiveScan (init : Nat) (xs : List Nat) :
    (exclusiveScan init xs).length = xs.length := by
  induction xs generalizing init with
  | nil => rfl
  | cons x xs ih => exact congrArg Nat.succ (ih (init + x))

theorem getElem?_exclusiveScan (init : Nat) (xs : List Nat) {k : Nat} (hk : k < xs.length) :
    (exclusiveScan init xs)[k]? = some (init + (xs.take k).sum) := by
  induction xs generalizing init k with
  | nil => cases hk
  | cons x xs ih =>
      cases k with
      | zero => rfl
      | succ k =>
          show (exclusiveScan (init + x) xs)[k]? = _
          rw [ih (init + x) (Nat.lt_of_succ_lt_succ hk), List.take_succ_cons, List.sum_cons]
          exact congrArg some (Nat.add_assoc init x _)

/-- The scan turns counts into starts. -/
theorem sum_take_counts {counts : List Nat} (hcounts : ∀ k < n, counts[k]? = some (count l k)) :
    ∀ k ≤ n, (counts.take k).sum = start l k := by
  intro k hk
  induction k with
  | zero => exact (start_zero l).symm
  | succ k ih =>
      rw [List.take_add_one, hcounts k hk, Option.toList_some, List.sum_append, ih (by omega),
        start_succ]
      simp

/-! ## §3 — the items in their places -/

/-- After some of the items: where the cursors stand, and what is in place. -/
structure Placed (n : Nat) (l done : List (Nat × β)) (cursors : List Nat) (out : List β) : Prop where
  length_cursors : cursors.length = n
  cursor : ∀ k < n, cursors[k]? = some (start l k + count done k)
  length_out : out.length = l.length
  item : ∀ k j v, (ofKey done k)[j]? = some v → out[start l k + j]? = some v

theorem count_append (l l' : List (Nat × β)) (k : Nat) : count (l ++ l') k = count l k + count l' k :=
  List.countP_append

theorem ofKey_concat (l : List (Nat × β)) (x : Nat × β) (k : Nat) :
    ofKey (l ++ [x]) k = if x.1 = k then ofKey l k ++ [x.2] else ofKey l k := by
  unfold ofKey
  rw [List.filter_append, List.map_append]
  by_cases hx : x.1 = k
  · simp [hx]
  · simp [hx]

/-- One item is put to its place. -/
theorem Placed.step {cursors : List Nat} {out : List β} {x : Nat × β} {todo : List (Nat × β)}
    (h : Placed n l done cursors out) (hl : l = done ++ x :: todo) (hx : x.1 < n) :
    ∃ s, place cursors out x = some s ∧ Placed n l (done ++ [x]) s.1 s.2 := by
  have hcount : ∀ k, count l k = count done k + ((if x.1 = k then 1 else 0) + count todo k) := by
    intro k
    rw [hl, count_append]
    unfold count
    rw [List.countP_cons]
    simp [Nat.add_comm]
  have hroom : start l x.1 + count done x.1 < out.length := by
    have hle := start_le_length l (x.1 + 1)
    rw [start_succ, hcount x.1, if_pos rfl] at hle
    rw [h.length_out]
    omega
  refine ⟨(bump cursors x.1, out.set (start l x.1 + count done x.1) x.2), ?_, ?_⟩
  · unfold place
    rw [h.cursor x.1 hx]
    exact if_pos hroom
  · refine ⟨(length_bump _ _).trans h.length_cursors, ?_, ?_, ?_⟩
    · intro k hk
      show (bump cursors x.1)[k]? = _
      rw [getElem?_bump, h.cursor k hk, count_append]
      by_cases hxk : x.1 = k
      · simp [hxk, count, Nat.add_assoc]
      · simp [hxk, count]
    · exact List.length_set.trans h.length_out
    · intro k j v hj
      show (out.set (start l x.1 + count done x.1) x.2)[start l k + j]? = some v
      rw [ofKey_concat] at hj
      by_cases hxk : x.1 = k
      · subst hxk
        rw [if_pos rfl] at hj
        by_cases hjlt : j < (ofKey done x.1).length
        · rw [List.getElem?_append_left hjlt] at hj
          rw [length_ofKey] at hjlt
          rw [List.getElem?_set_ne (by omega)]
          exact h.item x.1 j v hj
        · rw [List.getElem?_append_right (Nat.le_of_not_lt hjlt)] at hj
          obtain ⟨hzero, hv⟩ := List.getElem?_eq_some_iff.mp hj
          simp only [List.length_singleton, Nat.lt_one_iff] at hzero
          have hjeq : j = count done x.1 := by
            rw [length_ofKey] at hjlt hzero
            omega
          rw [hjeq, List.getElem?_set_self hroom]
          simpa using hv
      · -- the places of another key are not those of this one
        rw [if_neg hxk] at hj
        have hjlt := (List.getElem?_eq_some_iff.mp hj).1
        rw [length_ofKey] at hjlt
        have hne : start l x.1 + count done x.1 ≠ start l k + j := by
          have hself := hcount x.1
          have hother := hcount k
          rw [if_pos rfl] at hself
          rcases Nat.lt_or_gt_of_ne hxk with hlt | hlt
          · have := start_add_count_le (l := l) hlt
            omega
          · have := start_add_count_le (l := l) hlt
            omega
        rw [List.getElem?_set_ne hne]
        exact h.item k j v hj

theorem Placed.all {cursors : List Nat} {out : List β} (h : Placed n l [] cursors out)
    (hkeys : ∀ x ∈ l, x.1 < n) :
    ∀ done todo, l = done ++ todo →
      ∃ s, placeAll cursors out done = some s ∧ Placed n l done s.1 s.2 := by
  intro done
  induction done using List.reverseRecOn with
  | nil => exact fun _ _ => ⟨(cursors, out), rfl, h⟩
  | append_singleton done x ih =>
      intro todo hl
      have hl' : l = done ++ x :: todo := by rw [hl, List.append_assoc]; rfl
      obtain ⟨s, hs, hplaced⟩ := ih (x :: todo) hl'
      obtain ⟨s', hs', hplaced'⟩ := hplaced.step hl' (hkeys x (by rw [hl']; simp))
      refine ⟨s', ?_, hplaced'⟩
      rw [placeAll_concat, hs]
      exact hs'

/-- The items of each key stand together, in the order they came in, and the cursors stand behind
them. -/
structure Sorted (n : Nat) (l : List (Nat × β)) (cursors : List Nat) (out : List β) : Prop where
  length_cursors : cursors.length = n
  cursor : ∀ k < n, cursors[k]? = some (start l (k + 1))
  length_out : out.length = l.length
  slice : ∀ k, (out.drop (start l k)).take (count l k) = ofKey l k

/-- **Counting, scanning and placing sorts by key, stably and inside the bounds.** -/
theorem placeAll_sorted (l : List (Nat × β)) (hkeys : ∀ x ∈ l, x.1 < n) {out : List β}
    (hout : out.length = l.length) :
    ∃ s, placeAll (exclusiveScan 0 ((l.map Prod.fst).foldl bump (List.replicate n 0))) out l =
      some s ∧ Sorted n l s.1 s.2 := by
  have hcounts : ∀ k < n, ((l.map Prod.fst).foldl bump (List.replicate n 0))[k]? = some (count l k) :=
    fun k hk => getElem?_counts l n hk
  have hlength := length_counts (l.map Prod.fst) n
  have hfirst : Placed n l [] (exclusiveScan 0 ((l.map Prod.fst).foldl bump (List.replicate n 0))) out := by
    refine ⟨(length_exclusiveScan _ _).trans hlength, fun k hk => ?_, hout, fun k j v hj => ?_⟩
    · rw [getElem?_exclusiveScan 0 _ (by omega), sum_take_counts hcounts k (Nat.le_of_lt hk),
        Nat.zero_add]
      rfl
    · cases hj
  obtain ⟨s, hs, hplaced⟩ := hfirst.all hkeys l [] (List.append_nil l).symm
  refine ⟨s, hs, hplaced.length_cursors, fun k hk => ?_, hplaced.length_out, fun k => ?_⟩
  · rw [hplaced.cursor k hk, start_succ]
  · apply List.ext_getElem?
    intro j
    by_cases hj : j < count l k
    · obtain ⟨v, hv⟩ : ∃ v, (ofKey l k)[j]? = some v := by
        rw [← length_ofKey] at hj
        exact ⟨_, List.getElem?_eq_getElem hj⟩
      rw [List.getElem?_take_of_lt hj, List.getElem?_drop, hplaced.item k j v hv, hv]
    · have hle := Nat.le_of_not_lt hj
      rw [List.getElem?_take_eq_none hle, List.getElem?_eq_none (by rw [length_ofKey]; exact hle)]

end RelaxedConcurrentFifo.Lib.CountingSort
