/-
# RelaxedConcurrentFifo.Lib.SortedBlocks — a sorted list in blocks, with separators between them

An ordered collection may be kept in blocks, one after the other, with a separator between each two of
them: the last key of the block before it. `Separated` says this of a list of keys and a list of blocks,
whatever the blocks are made of; `content` is the list that a block stands for.

A key that is looked for among the separators leads to the one block where it belongs. What is before that
block is below the key, what is behind it is not.
-/
import RelaxedConcurrentFifo.Lib.KeyedLists

namespace RelaxedConcurrentFifo.Lib.SortedBlocks

open RelaxedConcurrentFifo.Lib.KeyedLists

variable {K C β : Type}

/-! ## §1 — places of a list -/

theorem insertIdx_append_right (l l' : List C) (i : Nat) (x : C) :
    (l ++ l').insertIdx (l.length + i) x = l ++ l'.insertIdx i x := by
  induction l with
  | nil => simp
  | cons y l ih =>
      have hindex : (y :: l).length + i = (l.length + i) + 1 := by
        rw [List.length_cons]
        omega
      rw [hindex, List.cons_append, List.insertIdx_succ_cons, ih, List.cons_append]

theorem insertIdx_append_left (l l' : List C) {i : Nat} (hi : i ≤ l.length) (x : C) :
    (l ++ l').insertIdx i x = l.insertIdx i x ++ l' := by
  induction l generalizing i with
  | nil =>
      obtain rfl : i = 0 := Nat.le_zero.mp hi
      simp
  | cons y l ih =>
      cases i with
      | zero => simp
      | succ i => simp [ih (Nat.le_of_succ_le_succ hi)]

theorem insertIdx_eq (l : List C) {i : Nat} (hi : i ≤ l.length) (x : C) :
    l.insertIdx i x = l.take i ++ x :: l.drop i := by
  have hlength : (l.take i).length = i := List.length_take_of_le hi
  have hplace := insertIdx_append_right (l.take i) (l.drop i) 0 x
  rw [List.take_append_drop, hlength, Nat.add_zero, List.insertIdx_zero] at hplace
  exact hplace

/-! ## §2 — separators -/

/-- Each key is the last one of the block before it. -/
inductive Separated (last : C → Option K) : List K → List C → Prop
  | single (block : C) : Separated last [] [block]
  | cons {k : K} {keys : List K} {block : C} {blocks : List C} (hlast : last block = some k)
      (hrest : Separated last keys blocks) : Separated last (k :: keys) (block :: blocks)

namespace Separated

variable {last : C → Option K} {keys keys' : List K} {blocks blocks' : List C} {k : K} {block block' : C}

theorem length_eq (h : Separated last keys blocks) : blocks.length = keys.length + 1 := by
  induction h with
  | single => rfl
  | cons _ _ ih => simp [ih]

/-- The block behind the first keys, and what is around it. -/
theorem focus (h : Separated last (keys ++ keys') blocks) :
    ∃ before block after, blocks = before ++ block :: after ∧ before.length = keys.length ∧
      before.map last = keys.map some ∧ Separated last keys' (block :: after) := by
  induction keys generalizing blocks with
  | nil =>
      cases h with
      | single block => exact ⟨[], block, [], rfl, rfl, rfl, .single block⟩
      | @cons k keys block blocks hlast hrest => exact ⟨[], block, blocks, rfl, rfl, rfl, .cons hlast hrest⟩
  | cons k keys ih =>
      cases h with
      | @cons _ _ first blocks hlast hrest =>
          obtain ⟨before, block, after, rfl, hlength, hbefore, hafter⟩ := ih hrest
          exact ⟨first :: before, block, after, rfl, by simp [hlength], by simp [hlast, hbefore], hafter⟩

/-- Blocks with their keys put in front. -/
theorem append_left {before : List C} (hbefore : before.map last = keys.map some)
    (h : Separated last keys' blocks) : Separated last (keys ++ keys') (before ++ blocks) := by
  induction keys generalizing before with
  | nil =>
      obtain rfl : before = [] := by simpa using hbefore
      exact h
  | cons k keys ih =>
      cases before with
      | nil => simp at hbefore
      | cons block before =>
          obtain ⟨hblock, hbefore⟩ := List.cons.inj hbefore
          exact .cons hblock (ih hbefore)

theorem of_append_left {before : List C} (hlength : before.length = keys.length)
    (h : Separated last (keys ++ keys') (before ++ blocks)) :
    before.map last = keys.map some ∧ Separated last keys' blocks := by
  obtain ⟨before', block, after, heq, hlength', hbefore, hafter⟩ := h.focus
  obtain ⟨rfl, rfl⟩ := List.append_inj heq (hlength.trans hlength'.symm)
  exact ⟨hbefore, hafter⟩

/-- Two lists of blocks with a key between them. -/
theorem joined (h : Separated last keys blocks) (hlast : blocks.getLast?.bind last = some k)
    (h' : Separated last keys' blocks') : Separated last (keys ++ k :: keys') (blocks ++ blocks') := by
  induction h with
  | single block => exact .cons hlast h'
  | @cons _ _ first blocks hfirst hrest ih =>
      have hne : blocks ≠ [] := List.ne_nil_of_length_eq_add_one hrest.length_eq
      rw [List.getLast?_cons_of_ne_nil hne] at hlast
      exact .cons hfirst (ih hlast)

/-- The two sides of a key. -/
theorem split (h : Separated last (keys ++ k :: keys') (blocks ++ blocks'))
    (hlength : blocks.length = keys.length + 1) :
    Separated last keys blocks ∧ blocks.getLast?.bind last = some k ∧ Separated last keys' blocks' := by
  have hconcat : keys ++ k :: keys' = (keys ++ [k]) ++ keys' := by simp
  rw [hconcat] at h
  obtain ⟨hblocks, hrest⟩ := h.of_append_left (by simp [hlength])
  have hne := List.ne_nil_of_length_eq_add_one hlength
  obtain ⟨init, block, rfl⟩ : ∃ init block, blocks = init ++ [block] :=
    ⟨_, _, (List.dropLast_concat_getLast hne).symm⟩
  simp only [List.map_append, List.map_cons, List.map_nil] at hblocks
  obtain ⟨hinit, hlast⟩ := List.append_inj' hblocks rfl
  refine ⟨?_, ?_, hrest⟩
  · have hsingle : Separated last (keys ++ []) (init ++ [block]) := append_left hinit (.single block)
    simpa using hsingle
  · simpa using hlast

/-- A block and the key behind it changed. -/
theorem cons_iff {after : List C} : Separated last (k :: keys) (block :: after) ↔
    last block = some k ∧ Separated last keys after := by
  constructor
  · intro h
    cases h with
    | cons hlast hrest => exact ⟨hlast, hrest⟩
  · rintro ⟨hlast, hrest⟩
    exact .cons hlast hrest

theorem nil_iff {after : List C} : Separated last [] (block :: after) ↔ after = [] := by
  constructor
  · intro h
    cases h
    rfl
  · rintro rfl
    exact .single block

theorem replace_head {after : List C} (h : Separated last keys (block :: after))
    (hlast : last block' = last block) : Separated last keys (block' :: after) := by
  cases h with
  | single => exact .single block'
  | cons hblock hrest => exact .cons (hlast.trans hblock) hrest

/-- The blocks changed, but not their last keys. -/
theorem map {C' : Type} {last' : C' → Option K} {f : C → C'} (hf : ∀ block, last' (f block) = last block)
    (h : Separated last keys blocks) : Separated last' keys (blocks.map f) := by
  induction h with
  | single block => exact .single (f block)
  | cons hlast hrest ih => exact .cons ((hf _).trans hlast) ih

end Separated

/-! ## §3 — blocks of a sorted list -/

section Sorted

variable {content : C → List (K × β)} {keys keys' : List K} {blocks : List C} {v : K}

/-- The last key of a block. -/
def blockLast (content : C → List (K × β)) (block : C) : Option K := lastKey (content block)

/-- The last block, if it has entries, is the one with the last key. -/
theorem blockLast_append_singleton (content : C → List (K × β)) (init : List C) {block : C}
    (hne : content block ≠ []) : lastKey ((init ++ [block]).flatMap content) = blockLast content block := by
  rw [List.flatMap_append, List.flatMap_singleton, lastKey_append_of_ne_nil _ hne]
  rfl

theorem lastKey_flatMap (hne : ∀ block ∈ blocks, content block ≠ []) :
    lastKey (blocks.flatMap content) = blocks.getLast?.bind (blockLast content) := by
  rcases List.eq_nil_or_concat blocks with rfl | ⟨init, block, rfl⟩
  · rfl
  · rw [List.concat_eq_append] at hne ⊢
    rw [blockLast_append_singleton content init (hne block (by simp))]
    simp

/-- Each separator is the key of an entry. -/
theorem mem_of_separated (h : Separated (blockLast content) keys blocks) {k : K} (hk : k ∈ keys) :
    ∃ p ∈ blocks.flatMap content, p.1 = k := by
  induction h with
  | single => cases hk
  | @cons k' keys block blocks hlast hrest ih =>
      rcases List.mem_cons.mp hk with rfl | hk
      · obtain ⟨init, d, hcontent⟩ := exists_of_lastKey hlast
        exact ⟨(k, d), by simp [hcontent], rfl⟩
      · obtain ⟨p, hp, hpk⟩ := ih hk
        exact ⟨p, by simp only [List.flatMap_cons, List.mem_append]; exact .inr hp, hpk⟩

variable [LinearOrder K]

/-- **The separators of a sorted list are sorted.** -/
theorem pairwise_of_separated (h : Separated (blockLast content) keys blocks)
    (hsorted : SortedKeys (blocks.flatMap content)) : keys.Pairwise (· ≤ ·) := by
  induction h with
  | single => exact List.Pairwise.nil
  | @cons k keys block blocks hlast hrest ih =>
      rw [List.flatMap_cons] at hsorted
      obtain ⟨-, hblocks, hcross⟩ := List.pairwise_append.mp hsorted
      refine List.pairwise_cons.mpr ⟨fun k' hk' => ?_, ih hblocks⟩
      obtain ⟨init, d, hcontent⟩ := exists_of_lastKey hlast
      obtain ⟨p, hp, rfl⟩ := mem_of_separated hrest hk'
      exact hcross (k, d) (by simp [hcontent]) p hp

/-- **A separator of a sorted list** is the largest key of its block, and not above those of the next. -/
theorem separator_spec (h : Separated (blockLast content) keys blocks)
    (hsorted : SortedKeys (blocks.flatMap content)) {i : Nat} {k : K} (hk : keys[i]? = some k) :
    ∃ block next, blocks[i]? = some block ∧ blocks[i + 1]? = some next ∧ (∃ p ∈ content block, p.1 = k) ∧
      (∀ p ∈ content block, p.1 ≤ k) ∧ ∀ p ∈ content next, k ≤ p.1 := by
  induction h generalizing i with
  | single => cases hk
  | @cons k' keys block blocks hlast hrest ih =>
      rw [List.flatMap_cons] at hsorted
      obtain ⟨hblock, hblocks, hcross⟩ := List.pairwise_append.mp hsorted
      cases i with
      | zero =>
          obtain rfl : k' = k := Option.some.inj hk
          obtain ⟨next, blocks, rfl⟩ := List.exists_cons_of_ne_nil
            (List.ne_nil_of_length_eq_add_one hrest.length_eq)
          obtain ⟨init, d, hcontent⟩ := exists_of_lastKey hlast
          have hmem : (k', d) ∈ content block := by simp [hcontent]
          refine ⟨block, next, rfl, rfl, ⟨(k', d), hmem, rfl⟩, fun p hp => SortedKeys.le_lastKey hblock hlast hp,
            fun p hp => hcross _ hmem p ?_⟩
          rw [List.flatMap_cons]
          exact List.mem_append_left _ hp
      | succ i => exact ih hblocks hk

/-- The entries before a block are not above the separators before it. -/
theorem lt_of_before {before : List C} (hbefore : before.map (blockLast content) = keys.map some)
    (hkeys : ∀ k ∈ keys, k < v) (hsorted : SortedKeys (before.flatMap content)) :
    ∀ p ∈ before.flatMap content, p.1 < v := by
  intro p hp
  obtain ⟨block, hblock, hp⟩ := List.mem_flatMap.mp hp
  have hlast : blockLast content block ∈ keys.map some := hbefore ▸ List.mem_map_of_mem hblock
  obtain ⟨k, hk, heq⟩ := List.mem_map.mp hlast
  have hsub : SortedKeys (content block) := by
    obtain ⟨before₁, before₂, rfl⟩ := List.append_of_mem hblock
    rw [List.flatMap_append, List.flatMap_cons] at hsorted
    exact (List.pairwise_append.mp (List.pairwise_append.mp hsorted).2.1).1
  exact (hsub.le_lastKey heq.symm hp).trans_lt (hkeys k hk)

/-- **A key leads to one block**: the entries before it are below the key, and those behind it are not. -/
theorem route {before after : List C} {block : C} (hbefore : before.map (blockLast content) = keys.map some)
    (hafter : Separated (blockLast content) keys' (block :: after)) (hkeys : ∀ k ∈ keys, k < v)
    (hkeys' : ∀ k ∈ keys', v ≤ k) (hsorted : SortedKeys ((before ++ block :: after).flatMap content)) :
    (∀ p ∈ before.flatMap content, p.1 < v) ∧ (∀ p ∈ after.flatMap content, v ≤ p.1) ∧
      SortedKeys (content block) := by
  rw [List.flatMap_append, List.flatMap_cons] at hsorted
  obtain ⟨hfront, hback, -⟩ := List.pairwise_append.mp hsorted
  obtain ⟨hblock, -, hcross⟩ := List.pairwise_append.mp hback
  refine ⟨lt_of_before hbefore hkeys hfront, fun p hp => ?_, hblock⟩
  cases hafter with
  | single => cases hp
  | @cons k _ _ _ hlast _ =>
      obtain ⟨init, d, hcontent⟩ := exists_of_lastKey hlast
      exact (hkeys' k List.mem_cons_self).trans (hcross (k, d) (by simp [hcontent]) p hp)

end Sorted

end RelaxedConcurrentFifo.Lib.SortedBlocks
