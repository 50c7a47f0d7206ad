/-
# RelaxedConcurrentFifo.GraphFile.Dimacs — printed graphs, and reading them again

The text of a graph in the DIMACS format: a line `p sp n m`, and a line `a u v w` for each edge, with
nodes numbered from 1; comments may stand before the header and right after it.

The constructor of `graph.unix.cpp` inverts the printer as long as the vectors can be allocated: what it
returns is the compressed adjacency of the list of edges.
-/
import RelaxedConcurrentFifo.GraphFile.Truncation

namespace RelaxedConcurrentFifo.GraphFile

open RelaxedConcurrentFifo.Bfs (Edge)
open RelaxedConcurrentFifo.Lib.CountingSort
open RelaxedConcurrentFifo.Lib.Scanners

/-! ## §1 — the printer -/

/-- `a u v w`. -/
structure Line where
  source : Nat
  target : Nat
  weight : Int
  deriving DecidableEq, Repr

def decimal (v : Nat) : List Char := Nat.toDigits 10 v

def decimalInt (w : Int) : List Char := if w < 0 then '-' :: decimal w.natAbs else decimal w.natAbs

def printComments (bodies : List (List Char)) : List Char :=
  bodies.flatMap fun body => 'c' :: body ++ ['\n']

def printHeader (n m : Nat) : List Char :=
  ['p', ' ', 's', 'p', ' '] ++ (decimal n ++ ' ' :: (decimal m ++ ['\n']))

def printLine (line : Line) : List Char :=
  'a' :: ' ' :: (decimal line.source ++ ' ' :: (decimal line.target ++ ' ' :: decimalInt line.weight))

/-- The lines, with newlines between them. -/
def printLines : List Line → List Char
  | [] => []
  | [line] => printLine line
  | line :: lines => printLine line ++ '\n' :: printLines lines

/-- The text of a graph; the last line may end in a newline. -/
def dimacs (before after : List (List Char)) (n : Nat) (lines : List Line) (newline : Bool) : List Char :=
  printComments before ++ (printHeader n lines.length ++ (printComments after ++
    (printLines lines ++ if newline then ['\n'] else [])))

/-- The nodes are among `1` to `n`, and the weight has 64 bits. -/
structure Line.Valid (n : Nat) (line : Line) : Prop where
  source_pos : 1 ≤ line.source
  source_le : line.source ≤ n
  target_pos : 1 ≤ line.target
  target_le : line.target ≤ n
  weight : IsLongLong line.weight

instance (n : Nat) (line : Line) : Decidable (line.Valid n) :=
  decidable_of_iff ((1 ≤ line.source ∧ line.source ≤ n) ∧ (1 ≤ line.target ∧ line.target ≤ n) ∧
      IsLongLong line.weight)
    ⟨fun h => ⟨h.1.1, h.1.2, h.2.1.1, h.2.1.2, h.2.2⟩, fun h => ⟨⟨h.1, h.2⟩, ⟨h.3, h.4⟩, h.5⟩⟩

/-- The edge that a line stands for. -/
def Line.edge (line : Line) : Edge := ⟨line.target - 1, line.weight⟩

/-- The compressed adjacency of a list of edges. -/
structure Compressed (n : Nat) (lines : List Line) (g : Graph) : Prop where
  length_nodes : g.nodes.length = n + 1
  nodes_zero : g.nodes[0]? = some 0
  nodes_mono : g.nodes.Pairwise (· ≤ ·)
  nodes_last : g.nodes[n]? = some lines.length
  length_edges : g.edges.length = lines.length
  slice : ∀ x lo hi, x < n → g.nodes[x]? = some lo → g.nodes[x + 1]? = some hi →
    (g.edges.drop lo).take (hi - lo) = (lines.filter fun line => line.source == x + 1).map Line.edge

/-! ## §2 — numbers and lines are read again -/

theorem number_decimal {v : Nat} (h : v < 2 ^ 64) : Number (decimal v) v :=
  ⟨toDigits_ne_nil v, all_toDigits v, digitsValue_toDigits v, h⟩

theorem splitMinus_digits {ds : List Char} (hds : All Char.isDigit ds) (rest : List Char)
    (hne : ds ≠ []) : splitMinus (ds ++ rest) = (false, ds ++ rest) := by
  obtain ⟨x, t, rfl⟩ := List.exists_cons_of_ne_nil hne
  have hx := (all_cons.mp hds).1
  rw [List.cons_append]
  unfold splitMinus
  split
  · rename_i heq
    cases heq
    cases hx
  · rfl

theorem fromCharsSigned_decimalInt {w : Int} {rest : List Char} (hw : IsLongLong w)
    (hrest : Stops Char.isDigit rest) :
    fromCharsSigned (decimalInt w ++ rest) = (some w, rest) := by
  have hds := all_toDigits w.natAbs
  have hne := toDigits_ne_nil w.natAbs
  unfold decimalInt decimal
  split
  · rename_i hneg
    have hvalue : signedValue true (Nat.toDigits 10 w.natAbs) = w := by
      rw [signedValue, if_pos rfl, digitsValue_toDigits]
      omega
    unfold fromCharsSigned
    simp only [List.cons_append, splitMinus, takeWhile_append_of_stops hds hrest,
      dropWhile_append_of_stops hds hrest, if_neg hne, hvalue, if_pos hw]
  · rename_i hpos
    have hvalue : signedValue false (Nat.toDigits 10 w.natAbs) = w := by
      rw [signedValue, if_neg (by decide), digitsValue_toDigits]
      omega
    unfold fromCharsSigned
    simp only [splitMinus_digits hds rest hne, takeWhile_append_of_stops hds hrest,
      dropWhile_append_of_stops hds hrest, if_neg hne, hvalue, if_pos hw]

theorem goesOn_decimalInt (w : Int) (rest : List Char) : GoesOn isSpace (decimalInt w ++ rest) := by
  unfold decimalInt
  split
  · exact goesOn_cons.mpr (by decide)
  · obtain ⟨x, t, heq⟩ := List.exists_cons_of_ne_nil (toDigits_ne_nil w.natAbs)
    have hx := all_toDigits w.natAbs x (by rw [heq]; exact List.mem_cons_self)
    unfold decimal
    rw [heq]
    exact goesOn_cons.mpr (isSpace_of_isDigit hx)

/-- The entry that is read from a line. -/
def Line.entry (line : Line) : Entry := ⟨line.source - 1, line.target - 1, some line.weight⟩

theorem stops_blank (s : List Char) : Stops Char.isDigit (' ' :: s) := stops_cons.mpr (by decide)

theorem edgeText_printLine {n : Nat} (hn : n < 2 ^ 64) {line : Line} (h : line.Valid n)
    {sp : List Char} (hsp : All isSpace sp) (rest : List Char) :
    EdgeText n (line.source - 1) (line.target - 1) (sp ++ (printLine line ++ rest))
      (decimalInt line.weight ++ rest) := by
  have hsource : Number (decimal line.source) (line.source - 1 + 1) := by
    rw [Nat.sub_add_cancel h.source_pos]
    exact number_decimal (h.source_le.trans_lt hn)
  have htarget : Number (decimal line.target) (line.target - 1 + 1) := by
    rw [Nat.sub_add_cancel h.target_pos]
    exact number_decimal (h.target_le.trans_lt hn)
  have hblank : All isSpace [' '] := all_cons.mpr ⟨by decide, all_nil⟩
  refine ⟨' ' :: (decimal line.target ++ ' ' :: (decimalInt line.weight ++ rest)),
    ' ' :: (decimalInt line.weight ++ rest), [' '], ?_, ?_, rfl, hblank, goesOn_decimalInt _ _⟩
  · refine ⟨sp, 'a', ' ', decimal line.source, ?_, hsp, .inl rfl, by decide, hsource, ?_, stops_blank _⟩
    · simp [printLine]
    · have := h.source_pos
      have := h.source_le
      omega
  · refine ⟨[' '], decimal line.target, rfl, hblank, htarget, ?_, stops_blank _⟩
    have := h.target_pos
    have := h.target_le
    omega

theorem edgesText_printLines {n : Nat} (hn : n < 2 ^ 64) {lines : List Line} (hne : lines ≠ [])
    (hvalid : ∀ line ∈ lines, line.Valid n) {rest : List Char} (hrest : Stops Char.isDigit rest)
    {sp : List Char} (hsp : All isSpace sp) :
    EdgesText n (lines.map Line.entry) (sp ++ (printLines lines ++ rest)) rest := by
  induction lines generalizing sp with
  | nil => exact absurd rfl hne
  | cons line lines ih =>
      obtain ⟨hline, hlines⟩ := List.forall_mem_cons.mp hvalid
      have hread : ∀ rest', Stops Char.isDigit rest' →
          fromCharsSigned (decimalInt line.weight ++ rest') = (some line.weight, rest') :=
        fun rest' h => fromCharsSigned_decimalInt hline.weight h
      have hentry : ∀ rest', Stops Char.isDigit rest' → line.entry =
          ⟨line.source - 1, line.target - 1, (fromCharsSigned (decimalInt line.weight ++ rest')).1⟩ := by
        intro rest' h
        rw [hread rest' h]
        rfl
      rw [List.map_cons]
      -- the newline of a line is the blank the next one starts with; the last line has none
      cases lines with
      | nil =>
          rw [hentry rest hrest]
          refine .cons (edgeText_printLine hn hline hsp rest) ?_
          rw [hread rest hrest]
          exact .nil
      | cons next lines =>
          have hstop : Stops Char.isDigit ('\n' :: (printLines (next :: lines) ++ rest)) :=
            stops_cons.mpr (by decide)
          have hnewline : All isSpace ['\n'] := all_cons.mpr ⟨by decide, all_nil⟩
          have hnext := ih (List.cons_ne_nil _ _) hlines hnewline
          have htext : printLines (line :: next :: lines) ++ rest =
              printLine line ++ '\n' :: (printLines (next :: lines) ++ rest) := by
            rw [printLines, List.append_assoc]
            · rfl
            · exact nofun
          rw [hentry _ hstop, htext]
          refine .cons (edgeText_printLine hn hline hsp _) ?_
          rw [hread _ hstop]
          exact hnext

theorem comments_printComments {bodies : List (List Char)} (h : ∀ body ∈ bodies, '\n' ∉ body) :
    Comments (printComments bodies) := by
  induction bodies with
  | nil => exact .nil
  | cons body bodies ih =>
      obtain ⟨hbody, hbodies⟩ := List.forall_mem_cons.mp h
      have htext : printComments (body :: bodies) = 'c' :: body ++ '\n' :: printComments bodies := by
        simp [printComments]
      rw [htext]
      exact .line hbody (ih hbodies)

theorem headerText_printHeader {n m : Nat} (hn : n < 2 ^ 64) (hm : m < 2 ^ 64) {rest : List Char}
    (hrest : GoesOn isSpace rest) :
    HeaderText ['s', 'p', ' '] ' ' n m (printHeader n m ++ rest) rest := by
  have hblank : All isSpace [' '] := all_cons.mpr ⟨by decide, all_nil⟩
  have hletters : All (fun y => !isSpace y) ['s', 'p'] :=
    all_cons.mpr ⟨by decide, all_cons.mpr ⟨by decide, all_nil⟩⟩
  have hword : WordText (['s', 'p'] ++ [' ']) :=
    .word (by decide) hletters (stops_cons.mpr (by decide)) hblank (by decide)
  have hnewline : All isSpace ['\n'] := all_cons.mpr ⟨by decide, all_nil⟩
  have hsep : Char.isDigit ' ' = false := by decide
  have hstop : Stops Char.isDigit (['\n'] ++ rest) := stops_cons.mpr (by decide)
  refine ⟨[' '], decimal n, [], decimal m, ['\n'], ?_, hblank, hword, number_decimal hn, hsep, all_nil,
    number_decimal hm, hstop, hnewline, hrest⟩
  simp [printHeader]

/-! ## §3 — the graph -/

theorem goesOn_printLines {lines : List Line} (hne : lines ≠ []) {p : Char → Bool}
    (ha : p 'a' = false) (rest : List Char) : GoesOn p (printLines lines ++ rest) := by
  obtain ⟨line, lines, rfl⟩ := List.exists_cons_of_ne_nil hne
  cases lines <;> exact goesOn_cons.mpr ha

theorem fileText_dimacs {mem : Memory} {n : Nat} {lines : List Line} (hne : lines ≠ [])
    (hvalid : ∀ line ∈ lines, line.Valid n) {before after : List (List Char)}
    (hbefore : ∀ body ∈ before, '\n' ∉ body) (hafter : ∀ body ∈ after, '\n' ∉ body) (newline : Bool)
    (hnodes : n + 1 ≤ mem.maxNodes) (hedges : lines.length ≤ mem.maxEdges) :
    FileText mem n (lines.map Line.entry) (dimacs before after n lines newline)
      (if newline then ['\n'] else []) := by
  have hmaxNodes := mem.maxNodes_lt
  have hmaxEdges := mem.maxEdges_lt
  have hn : n < 2 ^ 64 := by omega
  have hm : lines.length < 2 ^ 64 := by omega
  have hsize : nodesSize n = n + 1 := nodesSize_of_lt (by omega)
  have hrest : Stops Char.isDigit (if newline then ['\n'] else []) := by
    cases newline
    · exact stops_nil
    · exact stops_cons.mpr (by decide)
  have hafter := comments_printComments hafter
  have hspaces : GoesOn isSpace (printComments after ++
      (printLines lines ++ if newline then ['\n'] else [])) :=
    hafter.goesOn_append (by decide) (goesOn_printLines hne (by decide) _)
  refine ⟨⟨printLines lines ++ (if newline then ['\n'] else []), ?_, ?_⟩, ?_, ?_⟩
  · refine ⟨printComments before, printHeader n lines.length ++ (printComments after ++
      (printLines lines ++ if newline then ['\n'] else [])), printComments after, rfl,
      comments_printComments hbefore, goesOn_cons.mpr (by decide), .inl ⟨['s', 'p', ' '], ' ', ?_⟩, hafter,
      goesOn_printLines hne (by decide) _⟩
    rw [List.length_map]
    exact headerText_printHeader hn hm hspaces
  · exact edgesText_printLines hn hne hvalid hrest all_nil
  · rw [Memory.Fits, List.length_map, hsize]
    exact ⟨hnodes, hedges⟩
  · intro entry hentry
    obtain ⟨line, hline, rfl⟩ := List.mem_map.mp hentry
    rw [hsize]
    have hpos := (hvalid line hline).source_pos
    have hle := (hvalid line hline).source_le
    show line.source - 1 + 1 < n + 1
    omega

/-- Starting at `0`, and counting up to all edges. -/
theorem Adjacency.compressed {n : Nat} {lines : List Line} {g : Graph}
    (hvalid : ∀ line ∈ lines, line.Valid n)
    (h : Adjacency n ((lines.map Line.entry).map Entry.edge) g) : Compressed n lines g := by
  have hlength : ((lines.map Line.entry).map Entry.edge).length = lines.length := by
    rw [List.length_map, List.length_map]
  have hkeys : ∀ edge ∈ (lines.map Line.entry).map Entry.edge, edge.1 < n := by
    intro edge hedge
    obtain ⟨entry, hentry, rfl⟩ := List.mem_map.mp hedge
    obtain ⟨line, hline, rfl⟩ := List.mem_map.mp hentry
    have hpos := (hvalid line hline).source_pos
    have hle := (hvalid line hline).source_le
    show line.source - 1 < n
    omega
  -- nodes are numbered from one in the file and from zero in the graph
  have hofKey : ∀ x, ofKey ((lines.map Line.entry).map Entry.edge) x =
      (lines.filter fun line => line.source == x + 1).map Line.edge := by
    intro x
    have hsame : ∀ line ∈ lines, (line.entry.edge.1 == x) = (line.source == x + 1) := by
      intro line hline
      have hpos := (hvalid line hline).source_pos
      show (line.source - 1 == x) = (line.source == x + 1)
      rw [Bool.eq_iff_iff, beq_iff_eq, beq_iff_eq]
      omega
    unfold ofKey
    rw [List.map_map, List.filter_map, List.map_map]
    congr 1
    exact List.filter_congr hsame
  refine ⟨h.length_nodes, ?_, ?_, ?_, ?_, ?_⟩
  · rw [h.offset 0 (Nat.zero_le n), start_zero]
  · rw [List.pairwise_iff_getElem]
    intro i j hi hj hij
    rw [h.length_nodes] at hi hj
    have hoffset := fun x (hx : x < n + 1) =>
      List.getElem?_eq_some_iff.mp (h.offset x (Nat.le_of_lt_succ hx))
    obtain ⟨hi', hieq⟩ := hoffset i hi
    obtain ⟨hj', hjeq⟩ := hoffset j hj
    rw [hieq, hjeq]
    exact start_le hij.le
  · rw [h.offset n (Nat.le_refl n), start_eq_length hkeys, hlength]
  · exact h.length_edges.trans hlength
  · intro x lo hi hx hlo hhi
    rw [h.offset x hx.le] at hlo
    rw [h.offset (x + 1) hx, start_succ] at hhi
    cases hlo
    cases hhi
    rw [Nat.add_sub_cancel_left, h.slice x hx, hofKey]

/-- **The constructor inverts the printer**, as long as the vectors can be allocated. -/
theorem unix_dimacs (mem : Memory) (n : Nat) (lines : List Line) (hne : lines ≠ [])
    (hvalid : ∀ line ∈ lines, line.Valid n) (before after : List (List Char))
    (hbefore : ∀ body ∈ before, '\n' ∉ body) (hafter : ∀ body ∈ after, '\n' ∉ body) (newline : Bool)
    (hnodes : n + 1 ≤ mem.maxNodes) (hedges : lines.length ≤ mem.maxEdges) :
    ∃ g, Graph.unix mem (dimacs before after n lines newline) = .returned g ∧ Compressed n lines g := by
  have htext := fileText_dimacs hne hvalid hbefore hafter newline hnodes hedges
  have hlt := mem.maxNodes_lt
  obtain ⟨g, hg, hadjacency⟩ := build_of_fileText htext (by omega)
  refine ⟨g, ?_, hadjacency.compressed hvalid⟩
  have hfile : dimacs before after n lines newline ≠ [] := by
    intro h
    have hheader := (List.append_eq_nil_iff.mp (List.append_eq_nil_iff.mp h).2).1
    cases hheader
  have hread := readFile_eq_found.mpr ⟨n, _, htext, rfl⟩
  rw [Graph.unix, if_neg hfile, hread]
  dsimp only
  rw [hg]

/-- Comments, three nodes and three edges, one of them twice. -/
theorem unix_dimacs_commented :
    ∃ g, Graph.unix thousand (dimacs [[' ', 'x'], []] [['y']] 3 [⟨3, 1, -5⟩, ⟨1, 2, 2⟩, ⟨3, 1, -5⟩] true) =
      .returned g ∧ Compressed 3 [⟨3, 1, -5⟩, ⟨1, 2, 2⟩, ⟨3, 1, -5⟩] g := by
  exact unix_dimacs thousand 3 _ (by decide) (by decide) _ _ (by decide) (by decide) true (by decide)
    (by decide)

/-- 2^64 nodes and one edge: the number of nodes is not a `std::size_t`. -/
theorem not_unix_dimacs_huge :
    ¬ ∀ (n : Nat) (lines : List Line), 1 ≤ n → lines ≠ [] → (∀ line ∈ lines, line.Valid n) →
      ∀ before after : List (List Char), (∀ body ∈ before, '\n' ∉ body) →
        (∀ body ∈ after, '\n' ∉ body) →
        ∃ mem g, Graph.unix mem (dimacs before after n lines true) = .returned g ∧
          Compressed n lines g := by
  intro h
  obtain ⟨mem, g, hg, -⟩ := h (2 ^ 64) [⟨1, 1, 0⟩] (by decide) (by decide) (by decide) [] []
    nofun nofun
  have hthrows : Graph.unix mem (dimacs [] [] (2 ^ 64) [⟨1, 1, 0⟩] true) = .throws .numberOfNodes := by
    have hcomments : skipComments false (dimacs [] [] (2 ^ 64) [⟨1, 1, 0⟩] true) =
        .found () (dimacs [] [] (2 ^ 64) [⟨1, 1, 0⟩] true) := by decide +kernel
    have hheader : readHeader (dimacs [] [] (2 ^ 64) [⟨1, 1, 0⟩] true) = .failed .numberOfNodes := by
      decide +kernel
    have hread : readFile mem (dimacs [] [] (2 ^ 64) [⟨1, 1, 0⟩] true) = .failed .numberOfNodes := by
      rw [readFile, hcomments, Scan.found_bind, hheader, Scan.failed_bind]
    rw [Graph.unix, if_neg (by decide +kernel), hread]
  rw [hthrows] at hg
  cases hg

end RelaxedConcurrentFifo.GraphFile
