/-
# RelaxedConcurrentFifo.GraphFile.Unix — the constructor of `graph.unix.cpp`

The file is mapped into memory and read with the cursor `it`. A byte is the character with its code, and
the text from the cursor on is a list. Only `from_chars` is told where the text ends: the other loops
look at `*it` until they see what they wait for, and `Scan.overrun` is that they look at `end`.

Every part of the reader comes with the texts it accepts and the texts it runs out of.
-/
import RelaxedConcurrentFifo.GraphFile.Adjacency
import RelaxedConcurrentFifo.Lib.Scanners

namespace RelaxedConcurrentFifo.GraphFile

open RelaxedConcurrentFifo.Bfs (Edge)
open RelaxedConcurrentFifo.Lib.CountingSort
open RelaxedConcurrentFifo.Lib.Scanners
open RelaxedConcurrentFifo.Lib.Words

/-! ## §1 — characters and numbers -/

/-- `std::isspace`: blank, and tab to carriage return. -/
def isSpace (x : Char) : Bool := x == ' ' || ('\t' ≤ x && x ≤ '\r')

/-- `std::from_chars` for a `std::size_t`: the value, if there is one, and where it stops. -/
def fromChars (s : List Char) : Option Nat × List Char :=
  let ds := s.takeWhile Char.isDigit
  (if ds ≠ [] ∧ digitsValue ds < 2 ^ 64 then some (digitsValue ds) else none, s.dropWhile Char.isDigit)

/-- The minus sign, if there is one, and what follows it. -/
def splitMinus : List Char → Bool × List Char
  | '-' :: t => (true, t)
  | s => (false, s)

def signedValue (negative : Bool) (ds : List Char) : Int :=
  if negative then -(digitsValue ds : Int) else digitsValue ds

/-- The number is a `long long`. -/
def IsLongLong (w : Int) : Prop := -2 ^ 63 ≤ w ∧ w < 2 ^ 63

instance (w : Int) : Decidable (IsLongLong w) := inferInstanceAs (Decidable (_ ∧ _))

/-- `std::from_chars` for a `long long`. Where there is no number it stops at once. -/
def fromCharsSigned (s : List Char) : Option Int × List Char :=
  let t := (splitMinus s).2
  let ds := t.takeWhile Char.isDigit
  let value := signedValue (splitMinus s).1 ds
  if ds = [] then (none, s)
  else (if IsLongLong value then some value else none, t.dropWhile Char.isDigit)

/-! ## §2 — the reader -/

/-- `while (*it == 'c') { ++it; while (*it++ != '\n') {} }`; the flag is set inside of a line. -/
def skipComments : Bool → List Char → Scan Char Error Unit
  | _, [] => .overrun
  | false, x :: s => if x = 'c' then skipComments true s else .found () (x :: s)
  | true, x :: s => skipComments (x != '\n') s

/-- `while (isspace(*it)) ++it;`. -/
def skipSpaces (s : List Char) : Scan Char Error Unit := skipWhile Error isSpace s

/-- `while (isspace(*++it));`. -/
def skipSpacesNext (s : List Char) : Scan Char Error Unit := skipSpaces s.tail

/-- A number, or the exception. -/
def readNumber (e : Error) (s : List Char) : Scan Char Error Nat :=
  match (fromChars s).1 with
  | some v => .found v (fromChars s).2
  | none => .failed e

/-- The word after the `p`, unless there is a digit. -/
def skipWord : List Char → Scan Char Error Unit
  | [] => .overrun
  | x :: s =>
      if x.isDigit then .found () (x :: s)
      else (skipWhile Error (fun y => !isSpace y) s).bind fun _ s => skipSpacesNext s

/-- The line with the numbers of nodes and edges, if it begins with a `p`. -/
def readHeader : List Char → Scan Char Error (Nat × Nat)
  | [] => .overrun
  | x :: s =>
      if x = 'p' then
        (skipSpaces s).bind fun _ s =>
        (skipWord s).bind fun _ s =>
        (readNumber .numberOfNodes s).bind fun numNodes s =>
        (skipSpacesNext s).bind fun _ s =>
        (readNumber .numberOfEdges s).bind fun numEdges s =>
        (skipSpaces s).bind fun _ s => .found (numNodes, numEdges) s
      else .found (0, 0) (x :: s)

/-- The letter of an edge and the space after it; the second is not looked at if the first is wrong. -/
def readTag : List Char → Scan Char Error Unit
  | [] => .overrun
  | x :: s =>
      if x ≠ 'a' ∧ x ≠ 'e' then .failed .edgeFormat
      else
        match s with
        | [] => .overrun
        | y :: s => if isSpace y then .found () s else .failed .edgeFormat

/-- The number of a node, less one. -/
def readNode (numNodes : Nat) (parse invalid : Error) (s : List Char) : Scan Char Error Nat :=
  (readNumber parse s).bind fun v s =>
  if numNodes ≤ sub64 v 1 then .failed invalid else .found (sub64 v 1) s

/-- One edge. Its source is counted in `nodes`, which has `size` entries, before the target is read. A
weight that cannot be read stays 0. -/
def readEdge (numNodes size : Nat) (s : List Char) : Scan Char Error (Nat × Edge) :=
  (skipSpaces s).bind fun _ s =>
  (readTag s).bind fun _ s =>
  (readNode numNodes .parseSource .source s).bind fun first s =>
  if first + 1 < size then
    (skipSpaces s).bind fun _ s =>
    (readNode numNodes .parseTarget .target s).bind fun target s =>
    (skipSpaces s).bind fun _ s =>
    .found (first, ⟨target, (fromCharsSigned s).1.getD 0⟩) (fromCharsSigned s).2
  else .overrun

/-- The loop over the edges, with `nodes` and `edge_list`. -/
def readEdges (numNodes : Nat) : Nat → List Nat → List (Nat × Edge) → List Char →
    Scan Char Error (List Nat × List (Nat × Edge))
  | 0, nodes, edgeList, s => .found (nodes, edgeList) s
  | k + 1, nodes, edgeList, s =>
      (readEdge numNodes nodes.length s).bind fun edge s =>
      readEdges numNodes k (bump nodes (edge.1 + 1)) (edgeList ++ [edge]) s

/-- The file, up to the last edge. -/
def readFile (mem : Memory) (file : List Char) : Scan Char Error (List Nat × List (Nat × Edge)) :=
  (skipComments false file).bind fun _ s =>
  (readHeader s).bind fun counts s =>
  (skipComments false s).bind fun _ s =>
  if mem.Fits counts.1 counts.2 then
    readEdges counts.1 counts.2 (List.replicate (nodesSize counts.1) 0) [] s
  else .failed .allocation

/-- `Graph::Graph`, from the content of the file. -/
def Graph.unix (mem : Memory) (file : List Char) : Outcome :=
  if file = [] then .throws .mmapFailed
  else
    match readFile mem file with
    | .found (nodes, edgeList) _ =>
        match build nodes edgeList with
        | some g => .returned g
        | none => .undefined
    | .failed e => .throws e
    | .overrun => .undefined

/-! ## §3 — the texts its parts accept -/

theorem isDigit_of_isSpace {x : Char} (h : isSpace x = true) : x.isDigit = false := by
  have hcode : x.toNat ≤ 32 := by
    unfold isSpace at h
    simp only [Bool.or_eq_true, beq_iff_eq, Bool.and_eq_true, decide_eq_true_eq] at h
    rcases h with rfl | ⟨-, h⟩
    · decide
    · exact (Char.le_def.mp h : x.toNat ≤ 13).trans (by decide)
  rw [Char.isDigit, Bool.and_eq_false_iff]
  refine .inl (decide_eq_false fun hle => ?_)
  have : 48 ≤ x.toNat := hle
  omega

theorem isSpace_of_isDigit {x : Char} (h : x.isDigit = true) : isSpace x = false := by
  by_contra hspace
  have := isDigit_of_isSpace (Bool.not_eq_false _ |>.mp hspace)
  rw [h] at this
  cases this

/-- Spaces that the text ends with. -/
theorem stops_isDigit_of_all {sp : List Char} (hsp : All isSpace sp) : Stops Char.isDigit sp := by
  cases sp with
  | nil => exact stops_nil
  | cons x sp => exact stops_cons.mpr (isDigit_of_isSpace (all_cons.mp hsp).1)

/-- Digits that `from_chars` reads as `v`. -/
structure Number (ds : List Char) (v : Nat) : Prop where
  ne_nil : ds ≠ []
  digits : All Char.isDigit ds
  value : digitsValue ds = v
  lt : v < 2 ^ 64

theorem Number.goesOn {ds : List Char} {v : Nat} (h : Number ds v) (rest : List Char) :
    GoesOn isSpace (ds ++ rest) := by
  obtain ⟨x, t, rfl⟩ := List.exists_cons_of_ne_nil h.ne_nil
  exact goesOn_cons.mpr (isSpace_of_isDigit (all_cons.mp h.digits).1)

theorem fromChars_append {ds rest : List Char} {v : Nat} (h : Number ds v)
    (hrest : Stops Char.isDigit rest) : fromChars (ds ++ rest) = (some v, rest) := by
  unfold fromChars
  rw [takeWhile_append_of_stops h.digits hrest, dropWhile_append_of_stops h.digits hrest]
  dsimp only
  rw [if_pos ⟨h.ne_nil, h.value.symm ▸ h.lt⟩, h.value]

theorem readNumber_append {ds rest : List Char} {v : Nat} (e : Error) (h : Number ds v)
    (hrest : Stops Char.isDigit rest) : readNumber e (ds ++ rest) = .found v rest := by
  unfold readNumber
  rw [fromChars_append h hrest]

theorem readNumber_eq_found {e : Error} {s rest : List Char} {v : Nat} :
    readNumber e s = .found v rest ↔
      ∃ ds, s = ds ++ rest ∧ Number ds v ∧ Stops Char.isDigit rest := by
  constructor
  · intro h
    unfold readNumber at h
    split at h
    · rename_i w hw
      cases h
      unfold fromChars at hw
      dsimp only at hw
      split at hw
      · rename_i hds
        cases hw
        exact ⟨s.takeWhile Char.isDigit, (List.takeWhile_append_dropWhile).symm,
          ⟨hds.1, all_takeWhile _ _, rfl, hds.2⟩, stops_dropWhile _ _⟩
      · cases hw
    · cases h
  · rintro ⟨ds, rfl, hnumber, hrest⟩
    exact readNumber_append e hnumber hrest

theorem readNumber_ne_overrun (e : Error) (s : List Char) : readNumber e s ≠ .overrun := by
  unfold readNumber
  split <;> exact nofun

/-- Lines that begin with a `c`. -/
inductive Comments : List Char → Prop
  | nil : Comments []
  | line {body rest : List Char} (hbody : '\n' ∉ body) (h : Comments rest) :
      Comments ('c' :: body ++ '\n' :: rest)

theorem Comments.goesOn_append {cs rest : List Char} (h : Comments cs) {p : Char → Bool}
    (hc : p 'c' = false) (hrest : GoesOn p rest) : GoesOn p (cs ++ rest) := by
  cases h with
  | nil => exact hrest
  | line hbody hcs => exact goesOn_cons.mpr hc

theorem skipComments_of_notMem {s : List Char} (h : '\n' ∉ s) : skipComments true s = .overrun := by
  induction s with
  | nil => rfl
  | cons x s ih =>
      obtain ⟨hx, hs⟩ := not_or.mp (mt List.mem_cons.mpr h)
      rw [skipComments, bne_iff_ne.mpr (Ne.symm hx)]
      exact ih hs

theorem skipComments_line {body rest : List Char} (h : '\n' ∉ body) :
    skipComments true (body ++ '\n' :: rest) = skipComments false rest := by
  induction body with
  | nil => rfl
  | cons x body ih =>
      obtain ⟨hx, hbody⟩ := not_or.mp (mt List.mem_cons.mpr h)
      rw [List.cons_append, skipComments, bne_iff_ne.mpr (Ne.symm hx)]
      exact ih hbody

theorem skipComments_append {cs : List Char} (h : Comments cs) (rest : List Char) :
    skipComments false (cs ++ rest) = skipComments false rest := by
  induction h with
  | nil => rfl
  | line hbody _ ih =>
      rw [List.append_assoc, List.cons_append, List.cons_append, skipComments, if_pos rfl,
        skipComments_line hbody]
      exact ih

theorem skipComments_of_goesOn {s : List Char} (h : GoesOn (· == 'c') s) :
    skipComments false s = .found () s := by
  obtain ⟨y, t, rfl, hy⟩ := h
  exact if_neg (beq_eq_false_iff_ne.mp hy)

/-- What is left after the comments: nothing, a line that does not end, or something else. -/
theorem comments_cases (s : List Char) :
    ∃ cs rest, s = cs ++ rest ∧ Comments cs ∧
      (rest = [] ∨ (∃ body, rest = 'c' :: body ∧ '\n' ∉ body) ∨ GoesOn (· == 'c') rest) := by
  induction hlength : s.length using Nat.strongRecOn generalizing s with
  | ind k ih =>
      cases s with
      | nil => exact ⟨[], [], rfl, .nil, .inl rfl⟩
      | cons x s =>
          by_cases hx : x = 'c'
          · subst hx
            by_cases hline : '\n' ∈ s
            · obtain ⟨body, t, rfl, hbody⟩ := List.eq_append_cons_of_mem hline
              obtain ⟨cs, rest, rfl, hcs, hrest⟩ := ih t.length (by
                rw [← hlength, List.length_cons, List.length_append, List.length_cons]
                omega) t rfl
              refine ⟨'c' :: body ++ '\n' :: cs, rest, ?_, .line hbody hcs, hrest⟩
              rw [List.append_assoc]
              rfl
            · exact ⟨[], 'c' :: s, rfl, .nil, .inr (.inl ⟨s, rfl, hline⟩)⟩
          · exact ⟨[], x :: s, rfl, .nil, .inr (.inr (goesOn_cons.mpr (beq_eq_false_iff_ne.mpr hx)))⟩

/-- The comments do not come to an end. -/
def CutComments (s : List Char) : Prop :=
  ∃ cs, Comments cs ∧ (s = cs ∨ ∃ body, s = cs ++ 'c' :: body ∧ '\n' ∉ body)

theorem CutComments.overrun {s : List Char} (h : CutComments s) : skipComments false s = .overrun := by
  obtain ⟨cs, hcs, rfl | ⟨body, rfl, hbody⟩⟩ := h
  · rw [← List.append_nil s, skipComments_append hcs]
    rfl
  · rw [skipComments_append hcs, skipComments, if_pos rfl]
    exact skipComments_of_notMem hbody

theorem skipComments_cases (s : List Char) :
    CutComments s ∨ ∃ cs rest, s = cs ++ rest ∧ Comments cs ∧ GoesOn (· == 'c') rest := by
  obtain ⟨cs, rest, rfl, hcs, hrest⟩ := comments_cases s
  rcases hrest with rfl | ⟨body, rfl, hbody⟩ | hrest
  · exact .inl ⟨cs, hcs, .inl (List.append_nil cs)⟩
  · exact .inl ⟨cs, hcs, .inr ⟨body, rfl, hbody⟩⟩
  · exact .inr ⟨cs, rest, rfl, hcs, hrest⟩

theorem skipComments_eq_found {s rest : List Char} {u : Unit} :
    skipComments false s = .found u rest ↔
      ∃ cs, s = cs ++ rest ∧ Comments cs ∧ GoesOn (· == 'c') rest := by
  constructor
  · intro h
    rcases skipComments_cases s with hcut | ⟨cs, rest', rfl, hcs, hrest⟩
    · rw [hcut.overrun] at h
      cases h
    · rw [skipComments_append hcs, skipComments_of_goesOn hrest] at h
      cases h
      exact ⟨cs, rfl, hcs, hrest⟩
  · rintro ⟨cs, rfl, hcs, hrest⟩
    rw [skipComments_append hcs, skipComments_of_goesOn hrest]

theorem skipComments_eq_overrun {s : List Char} :
    skipComments false s = .overrun ↔ CutComments s := by
  refine ⟨fun h => ?_, CutComments.overrun⟩
  rcases skipComments_cases s with hcut | ⟨cs, rest, rfl, hcs, hrest⟩
  · exact hcut
  · rw [skipComments_append hcs, skipComments_of_goesOn hrest] at h
    cases h

theorem skipSpaces_append {sp rest : List Char} (hsp : All isSpace sp) (hrest : GoesOn isSpace rest) :
    skipSpaces (sp ++ rest) = .found () rest :=
  skipWhile_eq_found.mpr ⟨sp, rfl, hsp, hrest⟩

/-- Nothing, or a word and the spaces behind it. -/
inductive WordText : List Char → Prop
  | none : WordText []
  | word {w sp : List Char} (hne : w ≠ []) (hword : All (fun y => !isSpace y) w)
      (hfirst : Stops Char.isDigit w) (hsp : All isSpace sp) (hspaces : sp ≠ []) : WordText (w ++ sp)

theorem goesOn_of_word {w : List Char} (hne : w ≠ []) (hword : All (fun y => !isSpace y) w)
    (rest : List Char) : GoesOn isSpace (w ++ rest) := by
  obtain ⟨x, t, rfl⟩ := List.exists_cons_of_ne_nil hne
  exact goesOn_cons.mpr (by simpa using (all_cons.mp hword).1)

theorem WordText.goesOn {word ds : List Char} {v : Nat} (h : WordText word) (hds : Number ds v)
    (rest : List Char) : GoesOn isSpace (word ++ (ds ++ rest)) := by
  cases h with
  | none => exact hds.goesOn rest
  | word hne hword _ _ _ =>
      rw [List.append_assoc]
      exact goesOn_of_word hne hword _

theorem skipWord_append {word ds : List Char} {v : Nat} (h : WordText word) (hds : Number ds v)
    (rest : List Char) : skipWord (word ++ (ds ++ rest)) = .found () (ds ++ rest) := by
  cases h with
  | none =>
      obtain ⟨x, t, rfl⟩ := List.exists_cons_of_ne_nil hds.ne_nil
      exact if_pos (all_cons.mp hds.digits).1
  | @word w sp hne hword hfirst hsp hspaces =>
      obtain ⟨x, w, rfl⟩ := List.exists_cons_of_ne_nil hne
      obtain ⟨y, sp, rfl⟩ := List.exists_cons_of_ne_nil hspaces
      obtain ⟨hy, hsp⟩ := all_cons.mp hsp
      have hskip : skipWhile Error (fun y => !isSpace y) (w ++ (y :: (sp ++ (ds ++ rest)))) =
          .found () (y :: (sp ++ (ds ++ rest))) :=
        skipWhile_eq_found.mpr ⟨w, rfl, (all_cons.mp hword).2, goesOn_cons.mpr (by simp [hy])⟩
      rw [List.append_assoc, List.cons_append, skipWord, stops_cons.mp hfirst, List.cons_append,
        hskip]
      exact skipSpaces_append hsp (hds.goesOn rest)

theorem skipWord_found {s rest : List Char} {u : Unit} (hs : GoesOn isSpace s)
    (h : skipWord s = .found u rest) : ∃ word, s = word ++ rest ∧ WordText word := by
  obtain ⟨x, t, rfl, hx⟩ := hs
  rw [skipWord] at h
  split at h
  · cases h
    exact ⟨[], rfl, .none⟩
  · rename_i hdigit
    obtain ⟨_, mid, hword, hspaces⟩ := Scan.bind_eq_found.mp h
    obtain ⟨w, rfl, hw, y, t, rfl, hy⟩ := skipWhile_eq_found.mp hword
    obtain ⟨sp, ht, hsp, -⟩ := skipWhile_eq_found.mp hspaces
    obtain rfl : t = sp ++ rest := ht
    refine ⟨(x :: w) ++ (y :: sp), by simp, .word (List.cons_ne_nil _ _) ?_ ?_ ?_ (List.cons_ne_nil _ _)⟩
    · exact all_cons.mpr ⟨by simp [hx], hw⟩
    · exact stops_cons.mpr (Bool.not_eq_true _ |>.mp hdigit)
    · exact all_cons.mpr ⟨by simpa using hy, hsp⟩

/-- A header that announces `n` nodes and `m` edges; `sep` is the character behind the number of
nodes. -/
def HeaderText (word : List Char) (sep : Char) (n m : Nat) (s rest : List Char) : Prop :=
  ∃ sp ds sp₁ ds' sp₂, s = 'p' :: (sp ++ (word ++ (ds ++ sep :: (sp₁ ++ (ds' ++ (sp₂ ++ rest)))))) ∧
    All isSpace sp ∧ WordText word ∧ Number ds n ∧ sep.isDigit = false ∧ All isSpace sp₁ ∧
    Number ds' m ∧ Stops Char.isDigit (sp₂ ++ rest) ∧ All isSpace sp₂ ∧ GoesOn isSpace rest

theorem HeaderText.found {word : List Char} {sep : Char} {n m : Nat} {s rest : List Char}
    (h : HeaderText word sep n m s rest) : readHeader s = .found (n, m) rest := by
  obtain ⟨sp, ds, sp₁, ds', sp₂, rfl, hsp, hword, hds, hsep, hsp₁, hds', hstop, hsp₂, hrest⟩ := h
  have hstop' : Stops Char.isDigit (sep :: (sp₁ ++ (ds' ++ (sp₂ ++ rest)))) := stops_cons.mpr hsep
  have hnodes := readNumber_append .numberOfNodes hds hstop'
  have hedges := readNumber_append .numberOfEdges hds' hstop
  have hnext : skipSpacesNext (sep :: (sp₁ ++ (ds' ++ (sp₂ ++ rest)))) =
      .found () (ds' ++ (sp₂ ++ rest)) := skipSpaces_append hsp₁ (hds'.goesOn _)
  simp only [readHeader, if_true, skipSpaces_append hsp (hword.goesOn hds _),
    skipWord_append hword hds, Scan.found_bind, hnodes, hnext, hedges, skipSpaces_append hsp₂ hrest]

theorem readHeader_found {s rest : List Char} {counts : Nat × Nat}
    (h : readHeader s = .found counts rest) :
    (∃ word sep, HeaderText word sep counts.1 counts.2 s rest) ∨
      (GoesOn (· == 'p') s ∧ counts = (0, 0) ∧ rest = s) := by
  cases s with
  | nil => cases h
  | cons x s =>
      -- a text that does not go on with `p` is read as the header of an empty graph
      rw [readHeader] at h
      split at h
      · rename_i hx
        subst hx
        left
        obtain ⟨_, s₁, h₁, h⟩ := Scan.bind_eq_found.mp h
        obtain ⟨_, s₂, h₂, h⟩ := Scan.bind_eq_found.mp h
        obtain ⟨n, s₃, h₃, h⟩ := Scan.bind_eq_found.mp h
        obtain ⟨_, s₄, h₄, h⟩ := Scan.bind_eq_found.mp h
        obtain ⟨m, s₅, h₅, h⟩ := Scan.bind_eq_found.mp h
        obtain ⟨_, s₆, h₆, h⟩ := Scan.bind_eq_found.mp h
        cases h
        obtain ⟨sp, rfl, hsp, hs₁⟩ := skipWhile_eq_found.mp h₁
        obtain ⟨word, rfl, hword⟩ := skipWord_found hs₁ h₂
        obtain ⟨ds, rfl, hds, hstop⟩ := readNumber_eq_found.mp h₃
        obtain ⟨sp₁, htail, hsp₁, -⟩ := skipWhile_eq_found.mp h₄
        obtain ⟨ds', rfl, hds', hstop'⟩ := readNumber_eq_found.mp h₅
        obtain ⟨sp₂, rfl, hsp₂, hrest⟩ := skipWhile_eq_found.mp h₆
        -- the reader skips one character behind the first number without looking at it
        cases s₃ with
        | nil =>
            have := List.append_eq_nil_iff.mp htail.symm
            exact absurd (List.append_eq_nil_iff.mp this.2).1 hds'.ne_nil
        | cons sep t =>
            obtain rfl : t = _ := htail
            exact ⟨word, sep, sp, ds, sp₁, ds', sp₂, rfl, hsp, hword, hds, stops_cons.mp hstop, hsp₁,
              hds', hstop', hsp₂, hrest⟩
      · rename_i hx
        cases h
        exact .inr ⟨goesOn_cons.mpr (beq_eq_false_iff_ne.mpr hx), rfl, rfl⟩

theorem readNode_append {n x : Nat} {ds rest : List Char} (parse invalid : Error)
    (hds : Number ds (x + 1)) (hx : x < n) (hstop : Stops Char.isDigit rest) :
    readNode n parse invalid (ds ++ rest) = .found x rest := by
  have hlt := hds.lt
  have hsub : sub64 (x + 1) 1 = x := by
    unfold sub64
    omega
  rw [readNode, readNumber_append parse hds hstop, Scan.found_bind, hsub,
    if_neg (Nat.not_le.mpr hx)]

theorem readNode_eq_found {n x : Nat} {parse invalid : Error} {s rest : List Char} (hn : n < 2 ^ 64) :
    readNode n parse invalid s = .found x rest ↔
      ∃ ds, s = ds ++ rest ∧ Number ds (x + 1) ∧ x < n ∧ Stops Char.isDigit rest := by
  constructor
  · intro h
    obtain ⟨v, mid, hv, hnode⟩ := Scan.bind_eq_found.mp h
    obtain ⟨ds, rfl, hds, hstop⟩ := readNumber_eq_found.mp hv
    split at hnode
    · cases hnode
    · rename_i hlt
      injection hnode with hx hmid
      subst hx hmid
      have hv := hds.lt
      have hsucc : sub64 v 1 + 1 = v := by
        unfold sub64 at hlt ⊢
        omega
      exact ⟨ds, rfl, hsucc.symm ▸ hds, Nat.lt_of_not_le hlt, hstop⟩
  · rintro ⟨ds, rfl, hds, hx, hstop⟩
    exact readNode_append parse invalid hds hx hstop

theorem readNode_ne_overrun (n : Nat) (parse invalid : Error) (s : List Char) :
    readNode n parse invalid s ≠ .overrun := by
  intro h
  rcases Scan.bind_eq_overrun.mp h with h | ⟨v, mid, -, h⟩
  · exact readNumber_ne_overrun _ _ h
  · split at h <;> cases h

def IsTag (x : Char) : Prop := x = 'a' ∨ x = 'e'

theorem readTag_eq_found {s rest : List Char} {u : Unit} :
    readTag s = .found u rest ↔ ∃ tag y, s = tag :: y :: rest ∧ IsTag tag ∧ isSpace y = true := by
  constructor
  · intro h
    unfold readTag at h
    split at h
    · cases h
    · split at h
      · cases h
      · rename_i tag s htag
        split at h
        · cases h
        · rename_i y s
          split at h
          · rename_i hy
            cases h
            refine ⟨tag, y, rfl, ?_, hy⟩
            by_contra hnot
            exact htag (not_or.mp hnot)
          · cases h
  · rintro ⟨tag, y, rfl, htag, hy⟩
    rw [readTag, if_neg fun h => htag.elim h.1 h.2]
    exact if_pos hy

theorem readTag_eq_overrun {s : List Char} :
    readTag s = .overrun ↔ s = [] ∨ ∃ tag, s = [tag] ∧ IsTag tag := by
  constructor
  · intro h
    unfold readTag at h
    split at h
    · exact .inl rfl
    · split at h
      · cases h
      · rename_i tag s htag
        split at h
        · refine .inr ⟨tag, rfl, ?_⟩
          by_contra hnot
          exact htag (not_or.mp hnot)
        · split at h <;> cases h
  · rintro (rfl | ⟨tag, rfl, htag⟩)
    · rfl
    · rw [readTag, if_neg fun h => htag.elim h.1 h.2]

/-- An edge, up to its source. -/
def SourceText (n first : Nat) (s rest : List Char) : Prop :=
  ∃ sp tag y ds, s = sp ++ tag :: y :: (ds ++ rest) ∧ All isSpace sp ∧ IsTag tag ∧ isSpace y = true ∧
    Number ds (first + 1) ∧ first < n ∧ Stops Char.isDigit rest

/-- The target of an edge, after its source. -/
def TargetText (n target : Nat) (s rest : List Char) : Prop :=
  ∃ sp ds, s = sp ++ (ds ++ rest) ∧ All isSpace sp ∧ Number ds (target + 1) ∧ target < n ∧
    Stops Char.isDigit rest

/-- An edge, up to where its weight is looked for. -/
def EdgeText (n first target : Nat) (s rest : List Char) : Prop :=
  ∃ s₁ s₂ sp, SourceText n first s s₁ ∧ TargetText n target s₁ s₂ ∧ s₂ = sp ++ rest ∧
    All isSpace sp ∧ GoesOn isSpace rest

/-- The text ends within an edge, or its source is counted out of bounds. -/
inductive CutEdge (n size : Nat) : List Char → Prop
  | blank {s : List Char} (hs : All isSpace s) : CutEdge n size s
  | tag {sp : List Char} {tag : Char} (hsp : All isSpace sp) (htag : IsTag tag) :
      CutEdge n size (sp ++ [tag])
  | source {first : Nat} {s rest : List Char} (hsource : SourceText n first s rest)
      (hrest : All isSpace rest) : CutEdge n size s
  | target {first target : Nat} {s s' rest : List Char} (hsource : SourceText n first s s')
      (htarget : TargetText n target s' rest) (hrest : All isSpace rest) : CutEdge n size s
  | bounds {first : Nat} {s rest : List Char} (hsource : SourceText n first s rest)
      (hsize : size ≤ first + 1) : CutEdge n size s

/-- An edge of the file; there is no weight if it cannot be read. -/
structure Entry where
  first : Nat
  target : Nat
  weight : Option Int
  deriving DecidableEq, Repr

/-- The entry of `edge_list`. -/
def Entry.edge (entry : Entry) : Nat × Edge := (entry.first, ⟨entry.target, entry.weight.getD 0⟩)

/-- One edge after the other. -/
inductive EdgesText (n : Nat) : List Entry → List Char → List Char → Prop
  | nil {s : List Char} : EdgesText n [] s s
  | cons {first target : Nat} {s s' rest : List Char} {entries : List Entry}
      (h : EdgeText n first target s s') (hrest : EdgesText n entries (fromCharsSigned s').2 rest) :
      EdgesText n (⟨first, target, (fromCharsSigned s').1⟩ :: entries) s rest

theorem EdgesText.nodes_lt {n : Nat} {entries : List Entry} {s rest : List Char}
    (h : EdgesText n entries s rest) : ∀ entry ∈ entries, entry.first < n ∧ entry.target < n := by
  induction h with
  | nil => exact nofun
  | cons hedge _ ih =>
      obtain ⟨_, _, _, ⟨_, _, _, _, _, _, _, _, _, hfirst, -⟩, ⟨_, _, _, _, _, htarget, -⟩, -⟩ := hedge
      exact List.forall_mem_cons.mpr ⟨⟨hfirst, htarget⟩, ih⟩

/-- The text ends within one of `k` edges. -/
inductive CutEdges (n size : Nat) : Nat → List Char → Prop
  | here {k : Nat} {s : List Char} (h : CutEdge n size s) : CutEdges n size (k + 1) s
  | later {first target k : Nat} {s s' : List Char} (h : EdgeText n first target s s')
      (hcut : CutEdges n size k (fromCharsSigned s').2) : CutEdges n size (k + 1) s

section Edges

variable {n size : Nat}

/-- After a source, the reader is at its count. -/
def readAfterSource (n size first : Nat) (s : List Char) : Scan Char Error (Nat × Edge) :=
  if first + 1 < size then
    (skipSpaces s).bind fun _ s =>
    (readNode n .parseTarget .target s).bind fun target s =>
    (skipSpaces s).bind fun _ s =>
    .found (first, ⟨target, (fromCharsSigned s).1.getD 0⟩) (fromCharsSigned s).2
  else .overrun

theorem SourceText.readEdge {first : Nat} {s rest : List Char} (h : SourceText n first s rest) :
    readEdge n size s = readAfterSource n size first rest := by
  obtain ⟨sp, tag, y, ds, rfl, hsp, htag, hy, hds, hfirst, hstop⟩ := h
  have hspaces : GoesOn isSpace (tag :: y :: (ds ++ rest)) := by
    rw [goesOn_cons]
    rcases htag with rfl | rfl <;> decide
  have htagged : readTag (tag :: y :: (ds ++ rest)) = .found () (ds ++ rest) :=
    readTag_eq_found.mpr ⟨tag, y, rfl, htag, hy⟩
  rw [GraphFile.readEdge, skipSpaces_append hsp hspaces, Scan.found_bind, htagged, Scan.found_bind,
    readNode_append _ _ hds hfirst hstop, Scan.found_bind]
  rfl

variable (hn : n < 2 ^ 64)

include hn

/-- What a reader of an edge comes to before the source is counted. -/
theorem readEdge_cases (size : Nat) (s : List Char) :
    (∃ first rest, SourceText n first s rest) ∨ (∃ e, readEdge n size s = .failed e) ∨
      (readEdge n size s = .overrun ∧ CutEdge n size s) := by
  unfold readEdge
  cases hspaces : skipSpaces s with
  | failed e => exact .inr (.inl ⟨e, rfl⟩)
  | overrun => exact .inr (.inr ⟨rfl, .blank (skipWhile_eq_overrun.mp hspaces)⟩)
  | found u s₁ =>
      obtain ⟨sp, rfl, hsp, hs₁⟩ := skipWhile_eq_found.mp hspaces
      rw [Scan.found_bind]
      cases htag : readTag s₁ with
      | failed e => exact .inr (.inl ⟨e, rfl⟩)
      | overrun =>
          refine .inr (.inr ⟨rfl, ?_⟩)
          rcases readTag_eq_overrun.mp htag with rfl | ⟨tag, rfl, histag⟩
          · exact absurd hs₁ goesOn_nil
          · exact .tag hsp histag
      | found u s₂ =>
          obtain ⟨tag, y, rfl, histag, hy⟩ := readTag_eq_found.mp htag
          rw [Scan.found_bind]
          cases hnode : readNode n .parseSource .source s₂ with
          | failed e => exact .inr (.inl ⟨e, rfl⟩)
          | overrun => exact absurd hnode (readNode_ne_overrun _ _ _ _)
          | found first s₃ =>
              obtain ⟨ds, rfl, hds, hfirst, hstop⟩ := (readNode_eq_found hn).mp hnode
              exact .inl ⟨first, s₃, sp, tag, y, ds, rfl, hsp, histag, hy, hds, hfirst, hstop⟩

theorem readEdge_eq_found {edge : Nat × Edge} {s rest : List Char} :
    readEdge n size s = .found edge rest ↔
      ∃ target s', EdgeText n edge.1 target s s' ∧ edge.1 + 1 < size ∧
        edge.2 = ⟨target, (fromCharsSigned s').1.getD 0⟩ ∧ rest = (fromCharsSigned s').2 := by
  constructor
  · intro h
    rcases readEdge_cases hn size s with ⟨first, s₁, hsource⟩ | ⟨e, hfailed⟩ | ⟨hoverrun, -⟩
    · rw [hsource.readEdge, readAfterSource] at h
      split at h
      · rename_i hsize
        obtain ⟨_, s₂, h₂, h⟩ := Scan.bind_eq_found.mp h
        obtain ⟨target, s₃, h₃, h⟩ := Scan.bind_eq_found.mp h
        obtain ⟨_, s₄, h₄, h⟩ := Scan.bind_eq_found.mp h
        cases h
        obtain ⟨sp, rfl, hsp, -⟩ := skipWhile_eq_found.mp h₂
        obtain ⟨ds, rfl, hds, htarget, hstop⟩ := (readNode_eq_found hn).mp h₃
        obtain ⟨sp', rfl, hsp', hrest⟩ := skipWhile_eq_found.mp h₄
        exact ⟨target, s₄, ⟨_, _, sp', hsource, ⟨sp, ds, rfl, hsp, hds, htarget, hstop⟩, rfl, hsp', hrest⟩,
          hsize, rfl, rfl⟩
      · cases h
    · rw [hfailed] at h
      cases h
    · rw [hoverrun] at h
      cases h
  · rintro ⟨target, s', ⟨s₁, s₂, sp', hsource, ⟨sp, ds, rfl, hsp, hds, htarget, hstop⟩, rfl, hsp', hrest⟩,
      hsize, hedge, rfl⟩
    rw [hsource.readEdge, readAfterSource, if_pos hsize, skipSpaces_append hsp (hds.goesOn _),
      Scan.found_bind, readNode_append _ _ hds htarget hstop, Scan.found_bind,
      skipSpaces_append hsp' hrest, Scan.found_bind, ← hedge]

theorem readEdge_eq_overrun {s : List Char} : readEdge n size s = .overrun ↔ CutEdge n size s := by
  constructor
  · intro h
    -- up to the source node, and then what follows it
    rcases readEdge_cases hn size s with ⟨first, s₁, hsource⟩ | ⟨e, hfailed⟩ | ⟨-, hcut⟩
    · rw [hsource.readEdge, readAfterSource] at h
      split at h
      · rcases Scan.bind_eq_overrun.mp h with hblank | ⟨_, s₂, h₂, hnode⟩
        · exact .source hsource (skipWhile_eq_overrun.mp hblank)
        · obtain ⟨sp, rfl, hsp, -⟩ := skipWhile_eq_found.mp h₂
          rcases Scan.bind_eq_overrun.mp hnode with hnode | ⟨target, s₃, h₃, hweight⟩
          · exact absurd hnode (readNode_ne_overrun _ _ _ _)
          · obtain ⟨ds, rfl, hds, htarget, hstop⟩ := (readNode_eq_found hn).mp h₃
            rcases Scan.bind_eq_overrun.mp hweight with hblank | ⟨_, s₄, -, hfound⟩
            · exact .target hsource ⟨sp, ds, rfl, hsp, hds, htarget, hstop⟩
                (skipWhile_eq_overrun.mp hblank)
            · cases hfound
      · rename_i hsize
        exact .bounds hsource (Nat.le_of_not_lt hsize)
    · rw [hfailed] at h
      cases h
    · exact hcut
  · intro h
    cases h with
    | blank hs => rw [readEdge, skipSpaces, skipWhile_eq_overrun.mpr hs, Scan.overrun_bind]
    | @tag sp tag hsp htag =>
        have hspaces : GoesOn isSpace [tag] := by
          rw [goesOn_cons]
          rcases htag with rfl | rfl <;> decide
        rw [readEdge, skipSpaces_append hsp hspaces, Scan.found_bind,
          readTag_eq_overrun.mpr (.inr ⟨tag, rfl, htag⟩), Scan.overrun_bind]
    | source hsource hrest =>
        rw [hsource.readEdge, readAfterSource, skipSpaces, skipWhile_eq_overrun.mpr hrest]
        split <;> rfl
    | target hsource htarget hrest =>
        obtain ⟨sp, ds, rfl, hsp, hds, htarget, hstop⟩ := htarget
        rw [hsource.readEdge, readAfterSource]
        split
        · rw [skipSpaces_append hsp (hds.goesOn _), Scan.found_bind,
            readNode_append _ _ hds htarget hstop, Scan.found_bind, skipSpaces,
            skipWhile_eq_overrun.mpr hrest, Scan.overrun_bind]
        · rfl
    | bounds hsource hsize =>
        rw [hsource.readEdge, readAfterSource, if_neg (Nat.not_lt.mpr hsize)]

theorem readEdges_eq_found {k : Nat} {nodes : List Nat} {edgeList : List (Nat × Edge)}
    {s rest : List Char} {result : List Nat × List (Nat × Edge)} :
    readEdges n k nodes edgeList s = .found result rest ↔
      ∃ entries : List Entry, entries.length = k ∧ EdgesText n entries s rest ∧
        (∀ entry ∈ entries, entry.first + 1 < nodes.length) ∧
        result = ((entries.map (·.first + 1)).foldl bump nodes, edgeList ++ entries.map Entry.edge) := by
  induction k generalizing nodes edgeList s with
  | zero =>
      constructor
      · intro h
        cases h
        exact ⟨[], rfl, .nil, nofun, by simp⟩
      · rintro ⟨entries, hlength, htext, -, rfl⟩
        obtain rfl := List.length_eq_zero_iff.mp hlength
        cases htext
        simp [readEdges]
  | succ k ih =>
      constructor
      · intro h
        obtain ⟨edge, mid, hedge, hrest⟩ := Scan.bind_eq_found.mp h
        obtain ⟨target, s', htext, hsize, hvalue, rfl⟩ := (readEdge_eq_found hn).mp hedge
        obtain ⟨entries, hlength, htexts, hsizes, rfl⟩ := ih.mp hrest
        refine ⟨⟨edge.1, target, (fromCharsSigned s').1⟩ :: entries, by simp [hlength],
          .cons htext htexts, ?_, ?_⟩
        · -- counting an edge does not change how many nodes there are
          rw [length_bump] at hsizes
          exact List.forall_mem_cons.mpr ⟨hsize, hsizes⟩
        · have hentry : edge = Entry.edge ⟨edge.1, target, (fromCharsSigned s').1⟩ := by
            unfold Entry.edge
            rw [← hvalue]
          rw [List.map_cons, List.map_cons, ← hentry]
          simp
      · rintro ⟨entries, hlength, htext, hsizes, rfl⟩
        cases htext with
        | nil => cases hlength
        | @cons first target _ s' _ entries h htexts =>
            obtain ⟨hsize, hsizes⟩ := List.forall_mem_cons.mp hsizes
            refine Scan.bind_eq_found.mpr ⟨Entry.edge ⟨first, target, (fromCharsSigned s').1⟩, _,
              (readEdge_eq_found hn).mpr ⟨target, s', h, hsize, rfl, rfl⟩, ih.mpr ⟨entries,
                Nat.succ.inj hlength, htexts, ?_, ?_⟩⟩
            · rw [length_bump]
              exact hsizes
            · simp [Entry.edge]

theorem readEdges_eq_overrun {k : Nat} {nodes : List Nat} {edgeList : List (Nat × Edge)}
    {s : List Char} :
    readEdges n k nodes edgeList s = .overrun ↔ CutEdges n nodes.length k s := by
  induction k generalizing nodes edgeList s with
  | zero => exact iff_of_false nofun nofun
  | succ k ih =>
      constructor
      · intro h
        rcases Scan.bind_eq_overrun.mp h with h | ⟨edge, mid, hedge, hrest⟩
        · exact .here ((readEdge_eq_overrun hn).mp h)
        · obtain ⟨target, s', htext, hsize, -, rfl⟩ := (readEdge_eq_found hn).mp hedge
          have hcut := ih.mp hrest
          rw [length_bump] at hcut
          exact .later htext hcut
      · intro h
        cases h with
        | here hcut => exact Scan.bind_eq_overrun.mpr (.inl ((readEdge_eq_overrun hn).mpr hcut))
        | @later first target _ _ s' htext hcut =>
            by_cases hsize : first + 1 < nodes.length
            · refine Scan.bind_eq_overrun.mpr (.inr ⟨(first, _), _,
                (readEdge_eq_found hn).mpr ⟨target, s', htext, hsize, rfl, rfl⟩, ih.mpr ?_⟩)
              rw [length_bump]
              exact hcut
            · -- the source is counted out of bounds already
              obtain ⟨s₁, _, _, hsource, -⟩ := htext
              exact Scan.bind_eq_overrun.mpr (.inl ((readEdge_eq_overrun hn).mpr
                (.bounds hsource (Nat.le_of_not_lt hsize))))

end Edges

/-- The header, or something else in its place. -/
def HeaderOf (n m : Nat) (s rest : List Char) : Prop :=
  (∃ word sep, HeaderText word sep n m s rest) ∨ (GoesOn (· == 'p') s ∧ n = 0 ∧ m = 0 ∧ rest = s)

theorem readHeader_eq_found {s rest : List Char} {counts : Nat × Nat} :
    readHeader s = .found counts rest ↔ HeaderOf counts.1 counts.2 s rest := by
  constructor
  · intro h
    rcases readHeader_found h with htext | ⟨hs, rfl, rfl⟩
    · exact .inl htext
    · exact .inr ⟨hs, rfl, rfl, rfl⟩
  · rintro (⟨word, sep, htext⟩ | ⟨⟨x, t, rfl, hx⟩, hn, hm, rfl⟩)
    · exact htext.found
    · rw [readHeader, if_neg (beq_eq_false_iff_ne.mp hx)]
      exact congrArg₂ Scan.found (Prod.ext hn.symm hm.symm) rfl

theorem HeaderOf.lt {n m : Nat} {s rest : List Char} (h : HeaderOf n m s rest) : n < 2 ^ 64 := by
  rcases h with ⟨_, _, _, ds, _, _, _, _, _, _, hds, _⟩ | ⟨_, rfl, _⟩
  · exact hds.lt
  · decide

/-- The comments, the header and the comments after it. -/
def Preamble (n m : Nat) (file rest : List Char) : Prop :=
  ∃ cs s cs', file = cs ++ s ∧ Comments cs ∧ GoesOn (· == 'c') s ∧ HeaderOf n m s (cs' ++ rest) ∧
    Comments cs' ∧ GoesOn (· == 'c') rest

/-- What the reader has gone through when it is at the edges. -/
theorem Preamble.readFile {mem : Memory} {n m : Nat} {file rest : List Char}
    (h : Preamble n m file rest) :
    readFile mem file =
      if mem.Fits n m then readEdges n m (List.replicate (nodesSize n) 0) [] rest
      else .failed .allocation := by
  obtain ⟨cs, s, cs', rfl, hcs, hs, hheader, hcs', hrest⟩ := h
  have hfound : readHeader s = .found (n, m) (cs' ++ rest) := readHeader_eq_found.mpr hheader
  rw [GraphFile.readFile, skipComments_append hcs, skipComments_of_goesOn hs, Scan.found_bind, hfound,
    Scan.found_bind, skipComments_append hcs', skipComments_of_goesOn hrest, Scan.found_bind]

theorem Preamble.lt {n m : Nat} {file rest : List Char} (h : Preamble n m file rest) : n < 2 ^ 64 := by
  obtain ⟨_, _, _, _, _, _, hheader, _⟩ := h
  exact hheader.lt

/-- The edges of the file, as the reader goes through them. -/
structure FileText (mem : Memory) (n : Nat) (entries : List Entry) (file rest : List Char) : Prop where
  text : ∃ s, Preamble n entries.length file s ∧ EdgesText n entries s rest
  fits : mem.Fits n entries.length
  bounds : ∀ entry ∈ entries, entry.first + 1 < nodesSize n

/-- The counts of the entries are those of their edges. -/
theorem countEntries (size : Nat) (entries : List Entry) :
    (entries.map (·.first + 1)).foldl bump (List.replicate size 0) =
      countNodes size (entries.map Entry.edge) := by
  unfold countNodes
  rw [List.map_map]
  rfl

/-- **The files that are read to the end**, and what is read. -/
theorem readFile_eq_found {mem : Memory} {file rest : List Char}
    {result : List Nat × List (Nat × Edge)} :
    readFile mem file = .found result rest ↔
      ∃ n entries, FileText mem n entries file rest ∧
        result = (countNodes (nodesSize n) (entries.map Entry.edge), entries.map Entry.edge) := by
  constructor
  · intro h
    unfold readFile at h
    obtain ⟨_, s, hcomments, h⟩ := Scan.bind_eq_found.mp h
    obtain ⟨⟨n, m⟩, mid, hheader, h⟩ := Scan.bind_eq_found.mp h
    obtain ⟨_, s', hcomments', hedges⟩ := Scan.bind_eq_found.mp h
    obtain ⟨cs, rfl, hcs, hs⟩ := skipComments_eq_found.mp hcomments
    obtain ⟨cs', rfl, hcs', hs'⟩ := skipComments_eq_found.mp hcomments'
    have hheader := readHeader_eq_found.mp hheader
    split at hedges
    · rename_i hfits
      obtain ⟨entries, rfl, htext, hbounds, rfl⟩ := (readEdges_eq_found hheader.lt).mp hedges
      rw [List.length_replicate] at hbounds
      refine ⟨n, entries, ⟨⟨s', ⟨cs, s, cs', rfl, hcs, hs, hheader, hcs', hs'⟩, htext⟩, hfits, hbounds⟩,
        ?_⟩
      rw [List.nil_append, countEntries]
    · cases hedges
  · rintro ⟨n, entries, ⟨⟨s, hpreamble, htext⟩, hfits, hbounds⟩, rfl⟩
    rw [hpreamble.readFile, if_pos hfits, readEdges_eq_found hpreamble.lt]
    refine ⟨entries, rfl, htext, ?_, ?_⟩
    · rw [List.length_replicate]
      exact hbounds
    · rw [List.nil_append, countEntries]

/-- The constructor has read the file and built the graph. -/
theorem unix_eq_returned {mem : Memory} {file : List Char} {g : Graph}
    (h : Graph.unix mem file = .returned g) :
    file ≠ [] ∧ ∃ result rest, readFile mem file = .found result rest ∧
      build result.1 result.2 = some g := by
  unfold Graph.unix at h
  split at h
  · cases h
  · rename_i hfile
    refine ⟨hfile, ?_⟩
    cases hread : readFile mem file with
    | failed e => rw [hread] at h; cases h
    | overrun => rw [hread] at h; cases h
    | found result rest =>
        rw [hread] at h
        dsimp only at h
        cases hbuild : build result.1 result.2 with
        | none => rw [hbuild] at h; cases h
        | some g' =>
            rw [hbuild] at h
            cases h
            exact ⟨result, rest, rfl, hbuild⟩

end RelaxedConcurrentFifo.GraphFile
