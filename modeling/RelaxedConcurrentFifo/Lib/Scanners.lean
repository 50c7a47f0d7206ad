/-
# RelaxedConcurrentFifo.Lib.Scanners — scanners with a bare cursor, and decimal numbers

A scanner that is written with a bare pointer knows where it stands and not where the text ends. It goes
on with a value from a later place, gives up with an error, or looks BEHIND the end. The text from the
cursor on is a list, and the last outcome is that a character of the empty list was asked for.

Each scanner comes with two facts: the texts it accepts, as concatenations (`_eq_found`), and the
texts it runs out of (`_eq_overrun`). Those of a sequence of scanners follow from those of its parts
(`bind_eq_found`, `bind_eq_overrun`).
-/
import Mathlib.Data.List.Basic
import Mathlib.Data.List.TakeWhile
import Mathlib.Data.Nat.Init

namespace RelaxedConcurrentFifo.Lib.Scanners

variable {C E α β : Type*}

/-! ## §1 — outcomes -/

/-- What a scanner comes to. -/
inductive Scan (C E α : Type*) where
  | found (a : α) (rest : List C)
  | failed (e : E)
  | overrun
  deriving DecidableEq, Repr

namespace Scan

/-- The next scanner starts where the last one has stopped. -/
def bind (x : Scan C E α) (f : α → List C → Scan C E β) : Scan C E β :=
  match x with
  | .found a rest => f a rest
  | .failed e => .failed e
  | .overrun => .overrun

@[simp] theorem found_bind (a : α) (rest : List C) (f : α → List C → Scan C E β) :
    (Scan.found a rest).bind f = f a rest := rfl

@[simp] theorem failed_bind (e : E) (f : α → List C → Scan C E β) :
    (Scan.failed e).bind f = .failed e := rfl

@[simp] theorem overrun_bind (f : α → List C → Scan C E β) :
    (Scan.overrun : Scan C E α).bind f = .overrun := rfl

theorem bind_eq_found {x : Scan C E α} {f : α → List C → Scan C E β} {b : β} {rest : List C} :
    x.bind f = .found b rest ↔ ∃ a mid, x = .found a mid ∧ f a mid = .found b rest := by
  constructor
  · intro h
    cases x with
    | found a mid => exact ⟨a, mid, rfl, h⟩
    | failed e => cases h
    | overrun => cases h
  · rintro ⟨a, mid, rfl, h⟩
    exact h

theorem bind_eq_overrun {x : Scan C E α} {f : α → List C → Scan C E β} :
    x.bind f = .overrun ↔ x = .overrun ∨ ∃ a mid, x = .found a mid ∧ f a mid = .overrun := by
  constructor
  · intro h
    cases x with
    | found a mid => exact .inr ⟨a, mid, rfl, h⟩
    | failed e => cases h
    | overrun => exact .inl rfl
  · rintro (rfl | ⟨a, mid, rfl, h⟩)
    · rfl
    · exact h

end Scan

/-! ## §2 — skipping -/

/-- All of the text has `p`. -/
def All (p : C → Bool) (s : List C) : Prop := ∀ x ∈ s, p x = true

/-- The text goes on, and with a character that has not `p`. -/
def GoesOn (p : C → Bool) (s : List C) : Prop := ∃ y t, s = y :: t ∧ p y = false

/-- The text is at its end, or goes on with a character that has not `p`. -/
def Stops (p : C → Bool) (s : List C) : Prop := ∀ y ∈ s.head?, p y = false

variable {p : C → Bool} {s sp rest : List C}

@[simp] theorem all_nil : All p [] := nofun

@[simp] theorem all_cons {x : C} : All p (x :: s) ↔ p x = true ∧ All p s := List.forall_mem_cons

@[simp] theorem stops_nil : Stops p [] := nofun

@[simp] theorem stops_cons {y : C} : Stops p (y :: s) ↔ p y = false := by
  constructor
  · intro h
    exact h y rfl
  · intro h z hz
    cases hz
    exact h

@[simp] theorem goesOn_nil : ¬ GoesOn p ([] : List C) := nofun

@[simp] theorem goesOn_cons {y : C} : GoesOn p (y :: s) ↔ p y = false := by
  constructor
  · rintro ⟨_, _, heq, h⟩
    cases heq
    exact h
  · intro h
    exact ⟨y, s, rfl, h⟩

theorem GoesOn.stops (h : GoesOn p s) : Stops p s := by
  obtain ⟨y, t, rfl, hy⟩ := h
  exact stops_cons.mpr hy

/-- `while (p(*it)) ++it;`. -/
def skipWhile (E : Type*) (p : C → Bool) : List C → Scan C E Unit
  | [] => .overrun
  | x :: s => if p x then skipWhile E p s else .found () (x :: s)

@[simp] theorem skipWhile_append (hsp : All p sp) :
    skipWhile E p (sp ++ rest) = skipWhile E p rest := by
  induction sp with
  | nil => rfl
  | cons x sp ih =>
      obtain ⟨hx, hsp⟩ := all_cons.mp hsp
      rw [List.cons_append, skipWhile, if_pos hx]
      exact ih hsp

theorem skipWhile_of_goesOn (h : GoesOn p s) : skipWhile E p s = .found () s := by
  obtain ⟨y, t, rfl, hy⟩ := h
  rw [skipWhile, hy]
  rfl

theorem skipWhile_eq_overrun : skipWhile E p s = .overrun ↔ All p s := by
  induction s with
  | nil => exact iff_of_true rfl all_nil
  | cons x s ih =>
      rw [skipWhile, all_cons]
      by_cases hx : p x = true
      · rw [if_pos hx, ih]
        exact (and_iff_right hx).symm
      · rw [if_neg hx]
        exact iff_of_false nofun fun h => hx h.1

theorem skipWhile_eq_found {u : Unit} :
    skipWhile E p s = .found u rest ↔ ∃ sp, s = sp ++ rest ∧ All p sp ∧ GoesOn p rest := by
  constructor
  · intro h
    induction s with
    | nil => cases h
    | cons x s ih =>
        rw [skipWhile] at h
        split at h
        · rename_i hx
          obtain ⟨sp, rfl, hsp, hrest⟩ := ih h
          exact ⟨x :: sp, rfl, all_cons.mpr ⟨hx, hsp⟩, hrest⟩
        · rename_i hx
          cases h
          exact ⟨[], rfl, all_nil, goesOn_cons.mpr (Bool.not_eq_true _ |>.mp hx)⟩
  · rintro ⟨sp, rfl, hsp, hrest⟩
    rw [skipWhile_append hsp, skipWhile_of_goesOn hrest]

theorem takeWhile_append_of_stops (hsp : All p sp) (hrest : Stops p rest) :
    (sp ++ rest).takeWhile p = sp := by
  rw [List.takeWhile_append_of_pos hsp]
  cases rest with
  | nil => simp
  | cons y t => rw [List.takeWhile_cons_of_neg (by simp [stops_cons.mp hrest]), List.append_nil]

theorem dropWhile_append_of_stops (hsp : All p sp) (hrest : Stops p rest) :
    (sp ++ rest).dropWhile p = rest := by
  rw [List.dropWhile_append_of_pos hsp]
  cases rest with
  | nil => rfl
  | cons y t => exact List.dropWhile_cons_of_neg (by simp [stops_cons.mp hrest])

theorem all_takeWhile (p : C → Bool) (s : List C) : All p (s.takeWhile p) :=
  fun _ hx => List.mem_takeWhile_imp hx

theorem stops_dropWhile (p : C → Bool) (s : List C) : Stops p (s.dropWhile p) := by
  induction s with
  | nil => exact stops_nil
  | cons x s ih =>
      by_cases hx : p x = true
      · rw [List.dropWhile_cons_of_pos hx]
        exact ih
      · rw [List.dropWhile_cons_of_neg hx, stops_cons]
        exact Bool.not_eq_true _ |>.mp hx

/-! ## §3 — decimal numbers -/

/-- The number that a sequence of digits stands for. -/
def digitsValue (ds : List Char) : Nat := ds.foldl (fun n d => n * 10 + (d.toNat - '0'.toNat)) 0

theorem digitsValue_concat (ds : List Char) (d : Char) :
    digitsValue (ds ++ [d]) = digitsValue ds * 10 + (d.toNat - '0'.toNat) := by
  unfold digitsValue
  rw [List.foldl_append]
  rfl

theorem digitValue_digitChar {n : Nat} (h : n < 10) : (Nat.digitChar n).toNat - '0'.toNat = n := by
  revert h
  revert n
  decide

/-- A number that is printed and read again. -/
theorem digitsValue_toDigits (n : Nat) : digitsValue (Nat.toDigits 10 n) = n := by
  induction n using Nat.strongRecOn with
  | ind n ih =>
      by_cases hn : n < 10
      · rw [Nat.toDigits_of_lt_base hn]
        show 0 * 10 + ((Nat.digitChar n).toNat - '0'.toNat) = n
        rw [digitValue_digitChar hn]
        omega
      · rw [Nat.toDigits_of_base_le (by decide) (Nat.le_of_not_lt hn), digitsValue_concat,
          ih (n / 10) (by omega), digitValue_digitChar (Nat.mod_lt n (by decide))]
        omega

theorem all_toDigits (n : Nat) : All Char.isDigit (Nat.toDigits 10 n) :=
  fun _ hd => Nat.isDigit_of_mem_toDigits (by decide) (by decide) hd

theorem toDigits_ne_nil (n : Nat) : Nat.toDigits 10 n ≠ [] := by
  by_cases hn : n < 10
  · rw [Nat.toDigits_of_lt_base hn]
    exact List.cons_ne_nil _ _
  · rw [Nat.toDigits_of_base_le (by decide) (Nat.le_of_not_lt hn)]
    exact List.append_ne_nil_of_right_ne_nil _ (List.cons_ne_nil _ _)

end RelaxedConcurrentFifo.Lib.Scanners
