/-
# RelaxedConcurrentFifo.GraphFile.Truncation — files that end where the reader still looks

The loops of `graph.unix.cpp` look at `*it` until they see what they wait for, so each place of the file
that is followed by such a loop must not be its end. `Truncated` lists these places: in or after
comments, in the header and after each of its parts, and in or after each part of an edge up to its
weight. One case has nothing to do with the end of the file: with 2^64 - 1 nodes, `num_nodes + 1` is 0, and
`nodes` is left at the first access.
-/
import RelaxedConcurrentFifo.GraphFile.Unix

namespace RelaxedConcurrentFifo.GraphFile

open RelaxedConcurrentFifo.Bfs (Edge)
open RelaxedConcurrentFifo.Lib.CountingSort
open RelaxedConcurrentFifo.Lib.Scanners

/-! ## §1 — headers that are cut -/

/-- The word after the `p`, which does not begin with a digit. -/
structure Word (w : List Char) : Prop where
  ne_nil : w ≠ []
  noSpace : All (fun y => !isSpace y) w
  noDigit : Stops Char.isDigit w

/-- The text ends in the header, or with the spaces after it. -/
inductive CutHeader : List Char → Prop
  | blank {sp : List Char} (hsp : All isSpace sp) : CutHeader ('p' :: sp)
  | word {sp w sp' : List Char} (hsp : All isSpace sp) (hw : Word w) (hsp' : All isSpace sp') :
      CutHeader ('p' :: (sp ++ (w ++ sp')))
  | nodes {sp word ds : List Char} {n : Nat} (hsp : All isSpace sp) (hword : WordText word)
      (hds : Number ds n) : CutHeader ('p' :: (sp ++ (word ++ ds)))
  | afterNodes {sp word ds sp' : List Char} {n : Nat} {sep : Char} (hsp : All isSpace sp)
      (hword : WordText word) (hds : Number ds n) (hsep : sep.isDigit = false)
      (hsp' : All isSpace sp') : CutHeader ('p' :: (sp ++ (word ++ (ds ++ sep :: sp'))))
  | edges {sp word ds sp₁ ds' sp₂ : List Char} {n m : Nat} {sep : Char} (hsp : All isSpace sp)
      (hword : WordText word) (hds : Number ds n) (hsep : sep.isDigit = false)
      (hsp₁ : All isSpace sp₁) (hds' : Number ds' m) (hsp₂ : All isSpace sp₂) :
      CutHeader ('p' :: (sp ++ (word ++ (ds ++ sep :: (sp₁ ++ (ds' ++ sp₂))))))

theorem skipSpaces_eq_overrun {s : List Char} : skipSpaces s = .overrun ↔ All isSpace s :=
  skipWhile_eq_overrun

/-- A word that the text ends with. -/
theorem skipWord_eq_overrun {s : List Char} (hs : GoesOn isSpace s) :
    skipWord s = .overrun ↔ ∃ w sp, s = w ++ sp ∧ Word w ∧ All isSpace sp := by
  obtain ⟨x, t, rfl, hx⟩ := hs
  rw [skipWord]
  split
  · rename_i hdigit
    refine iff_of_false (fun heq => by cases heq) ?_
    rintro ⟨w, sp, heq, hw, -⟩
    obtain ⟨y, w, rfl⟩ := List.exists_cons_of_ne_nil hw.ne_nil
    cases heq
    exact absurd hdigit (by simp [stops_cons.mp hw.noDigit])
  · rename_i hdigit
    have hdigit : x.isDigit = false := Bool.not_eq_true _ |>.mp hdigit
    constructor
    · intro h
      rcases Scan.bind_eq_overrun.mp h with h | ⟨_, mid, hword, hspaces⟩
      · -- the word itself, or the blanks behind it, go on to the end
        refine ⟨x :: t, [], (List.append_nil _).symm, ⟨List.cons_ne_nil _ _, ?_, ?_⟩, all_nil⟩
        · exact all_cons.mpr ⟨by simp [hx], skipWhile_eq_overrun.mp h⟩
        · exact stops_cons.mpr hdigit
      · obtain ⟨w, rfl, hw, y, t, rfl, hy⟩ := skipWhile_eq_found.mp hword
        have ht : All isSpace t := skipSpaces_eq_overrun.mp hspaces
        refine ⟨x :: w, y :: t, rfl, ⟨List.cons_ne_nil _ _, ?_, stops_cons.mpr hdigit⟩, ?_⟩
        · exact all_cons.mpr ⟨by simp [hx], hw⟩
        · exact all_cons.mpr ⟨by simpa using hy, ht⟩
    · rintro ⟨w, sp, heq, hw, hsp⟩
      obtain ⟨y, w, rfl⟩ := List.exists_cons_of_ne_nil hw.ne_nil
      rw [List.cons_append] at heq
      obtain ⟨rfl, rfl⟩ := List.cons.inj heq
      rw [skipWhile_append (all_cons.mp hw.noSpace).2]
      cases sp with
      | nil => rfl
      | cons y sp =>
          obtain ⟨hy, hsp⟩ := all_cons.mp hsp
          rw [skipWhile_of_goesOn (goesOn_cons.mpr (by simp [hy])), Scan.found_bind]
          exact skipSpaces_eq_overrun.mpr hsp

theorem CutHeader.overrun {s : List Char} (h : CutHeader s) : readHeader s = .overrun := by
  cases h with
  | blank hsp => rw [readHeader, if_pos rfl, skipSpaces_eq_overrun.mpr hsp, Scan.overrun_bind]
  | @word sp w sp' hsp hw hsp' =>
      have hgoes := goesOn_of_word hw.ne_nil hw.noSpace sp'
      rw [readHeader, if_pos rfl, skipSpaces_append hsp hgoes, Scan.found_bind,
        (skipWord_eq_overrun hgoes).mpr ⟨w, sp', rfl, hw, hsp'⟩, Scan.overrun_bind]
  | @nodes sp word ds n hsp hword hds =>
      rw [← List.append_nil ds, readHeader, if_pos rfl, skipSpaces_append hsp (hword.goesOn hds _),
        Scan.found_bind, skipWord_append hword hds, Scan.found_bind, readNumber_append _ hds stops_nil,
        Scan.found_bind]
      rfl
  | afterNodes hsp hword hds hsep hsp' =>
      rw [readHeader, if_pos rfl, skipSpaces_append hsp (hword.goesOn hds _), Scan.found_bind,
        skipWord_append hword hds, Scan.found_bind, readNumber_append _ hds (stops_cons.mpr hsep),
        Scan.found_bind, skipSpacesNext, List.tail_cons, skipSpaces_eq_overrun.mpr hsp',
        Scan.overrun_bind]
  | edges hsp hword hds hsep hsp₁ hds' hsp₂ =>
      rw [readHeader, if_pos rfl, skipSpaces_append hsp (hword.goesOn hds _), Scan.found_bind,
        skipWord_append hword hds, Scan.found_bind, readNumber_append _ hds (stops_cons.mpr hsep),
        Scan.found_bind, skipSpacesNext, List.tail_cons, skipSpaces_append hsp₁ (hds'.goesOn _),
        Scan.found_bind, readNumber_append _ hds' (stops_isDigit_of_all hsp₂), Scan.found_bind,
        skipSpaces_eq_overrun.mpr hsp₂, Scan.overrun_bind]

/-- **The headers that the reader runs out of.** -/
theorem readHeader_eq_overrun {s : List Char} :
    readHeader s = .overrun ↔ s = [] ∨ CutHeader s := by
  constructor
  · intro h
    cases s with
    | nil => exact .inl rfl
    | cons x s =>
        right
        rw [readHeader] at h
        split at h
        · rename_i hx
          subst hx
          rcases Scan.bind_eq_overrun.mp h with hcut | ⟨_, s₁, h₁, hafter⟩
          · exact .blank (skipSpaces_eq_overrun.mp hcut)
          obtain ⟨sp, rfl, hsp, hs₁⟩ := skipWhile_eq_found.mp h₁
          rcases Scan.bind_eq_overrun.mp hafter with hcut | ⟨_, s₂, h₂, hnodes⟩
          · obtain ⟨w, sp', rfl, hw, hsp'⟩ := (skipWord_eq_overrun hs₁).mp hcut
            exact .word hsp hw hsp'
          obtain ⟨word, rfl, hword⟩ := skipWord_found hs₁ h₂
          rcases Scan.bind_eq_overrun.mp hnodes with hcut | ⟨n, s₃, h₃, hspaces⟩
          · exact absurd hcut (readNumber_ne_overrun _ _)
          obtain ⟨ds, rfl, hds, hstop⟩ := readNumber_eq_found.mp h₃
          rcases Scan.bind_eq_overrun.mp hspaces with hcut | ⟨_, s₄, h₄, hedges⟩
          · cases s₃ with
            | nil =>
                rw [List.append_nil]
                exact .nodes hsp hword hds
            | cons sep sp' =>
                exact .afterNodes hsp hword hds (stops_cons.mp hstop) (skipSpaces_eq_overrun.mp hcut)
          obtain ⟨sp₁, htail, hsp₁, hs₄⟩ := skipWhile_eq_found.mp h₄
          rcases Scan.bind_eq_overrun.mp hedges with hcut | ⟨m, s₅, h₅, hspaces'⟩
          · exact absurd hcut (readNumber_ne_overrun _ _)
          obtain ⟨ds', rfl, hds', -⟩ := readNumber_eq_found.mp h₅
          rcases Scan.bind_eq_overrun.mp hspaces' with hcut | ⟨_, s₆, -, hfound⟩
          · cases s₃ with
            | nil =>
                have := List.append_eq_nil_iff.mp htail.symm
                exact absurd (List.append_eq_nil_iff.mp this.2).1 hds'.ne_nil
            | cons sep t =>
                obtain rfl : t = _ := htail
                exact .edges hsp hword hds (stops_cons.mp hstop) hsp₁ hds'
                  (skipSpaces_eq_overrun.mp hcut)
          · cases hfound
        · cases h
  · rintro (rfl | h)
    · rfl
    · exact h.overrun

/-! ## §2 — files that are cut -/

/-- The file ends where the reader still looks, or announces 2^64 - 1 nodes. -/
inductive Truncated (mem : Memory) : List Char → Prop
  | comments {file : List Char} (hcut : CutComments file) : Truncated mem file
  | header {cs s : List Char} (hcs : Comments cs) (hcut : CutHeader s) : Truncated mem (cs ++ s)
  | afterHeader {cs word s rest : List Char} {sep : Char} {n m : Nat} (hcs : Comments cs)
      (hheader : HeaderText word sep n m s rest) (hcut : CutComments rest) : Truncated mem (cs ++ s)
  | edges {n m : Nat} {file rest : List Char} (hpreamble : Preamble n m file rest)
      (hfits : mem.Fits n m) (hcut : CutEdges n (nodesSize n) m rest) : Truncated mem file
  | noNodes {file rest : List Char} (hpreamble : Preamble (2 ^ 64 - 1) 0 file rest) : Truncated mem file

theorem nodesSize_of_lt {n : Nat} (h : n + 1 < 2 ^ 64) : nodesSize n = n + 1 := Nat.mod_eq_of_lt h

theorem nodesSize_max : nodesSize (2 ^ 64 - 1) = 0 := by decide

theorem CutHeader.goesOn {s : List Char} (h : CutHeader s) : GoesOn (· == 'c') s := by
  cases h <;> exact goesOn_cons.mpr (by decide)

theorem HeaderText.goesOn {word s rest : List Char} {sep : Char} {n m : Nat}
    (h : HeaderText word sep n m s rest) : GoesOn (· == 'c') s := by
  obtain ⟨sp, ds, sp₁, ds', sp₂, rfl, -⟩ := h
  exact goesOn_cons.mpr (by decide)

/-- The reader looks behind the end. -/
theorem readFile_overrun {mem : Memory} {file : List Char} (h : readFile mem file = .overrun) :
    Truncated mem file := by
  unfold readFile at h
  rcases Scan.bind_eq_overrun.mp h with hcut | ⟨_, s, hcomments, hheader⟩
  · exact .comments (skipComments_eq_overrun.mp hcut)
  obtain ⟨cs, rfl, hcs, hs⟩ := skipComments_eq_found.mp hcomments
  rcases Scan.bind_eq_overrun.mp hheader with hcut | ⟨⟨n, m⟩, mid, hfound, hcomments'⟩
  · rcases readHeader_eq_overrun.mp hcut with rfl | hcut
    · exact absurd hs goesOn_nil
    · exact .header hcs hcut
  have hheader := readHeader_eq_found.mp hfound
  rcases Scan.bind_eq_overrun.mp hcomments' with hcut | ⟨_, s', hfound', hedges⟩
  · rcases hheader with ⟨word, sep, htext⟩ | ⟨-, -, -, rfl⟩
    · exact .afterHeader hcs htext (skipComments_eq_overrun.mp hcut)
    · -- without a header, the same text has been looked at before
      rw [skipComments_of_goesOn hs] at hcut
      cases hcut
  obtain ⟨cs', rfl, hcs', hs'⟩ := skipComments_eq_found.mp hfound'
  split at hedges
  · rename_i hfits
    have hcut := (readEdges_eq_overrun hheader.lt).mp hedges
    rw [List.length_replicate] at hcut
    exact .edges ⟨cs, s, cs', rfl, hcs, hs, hheader, hcs', hs'⟩ hfits hcut
  · cases hedges

/-- What has been read gives a graph, unless `nodes` has no entries. -/
theorem build_of_fileText {mem : Memory} {n : Nat} {entries : List Entry} {file rest : List Char}
    (h : FileText mem n entries file rest) (hn : n + 1 < 2 ^ 64) :
    ∃ g, build (countNodes (nodesSize n) (entries.map Entry.edge)) (entries.map Entry.edge) = some g ∧
      Adjacency n (entries.map Entry.edge) g := by
  have hbounds := h.bounds
  rw [nodesSize_of_lt hn] at hbounds ⊢
  apply build_countNodes
  intro edge hedge
  obtain ⟨entry, hmem, rfl⟩ := List.mem_map.mp hedge
  exact Nat.lt_of_succ_lt_succ (hbounds entry hmem)

/-- Without entries in `nodes`, the first edge is counted out of bounds. -/
theorem FileText.eq_nil_of_max {mem : Memory} {entries : List Entry} {file rest : List Char}
    (h : FileText mem (2 ^ 64 - 1) entries file rest) : entries = [] := by
  refine List.eq_nil_iff_forall_not_mem.mpr fun entry hmem => ?_
  have hbound := h.bounds entry hmem
  rw [nodesSize_max] at hbound
  cases hbound

/-- **Files for which the behaviour of the constructor is undefined.** -/
theorem unix_eq_undefined {mem : Memory} {file : List Char} (hfile : file ≠ []) :
    Graph.unix mem file = .undefined ↔ Truncated mem file := by
  unfold Graph.unix
  rw [if_neg hfile]
  constructor
  · intro h
    cases hread : readFile mem file with
    | failed e => rw [hread] at h; cases h
    | overrun => exact readFile_overrun hread
    | found result rest =>
        obtain ⟨n, entries, htext, rfl⟩ := readFile_eq_found.mp hread
        rw [hread] at h
        dsimp only at h
        obtain ⟨s, hpreamble, -⟩ := htext.text
        have hlt := hpreamble.lt
        by_cases hn : n + 1 < 2 ^ 64
        · obtain ⟨g, hg, -⟩ := build_of_fileText htext hn
          rw [hg] at h
          cases h
        · -- `n + 1` has wrapped, so that the vector of nodes is empty
          obtain rfl : n = 2 ^ 64 - 1 := by omega
          obtain rfl := htext.eq_nil_of_max
          exact .noNodes hpreamble
  · intro h
    have hoverrun : readFile mem file = .overrun ∨ ∃ rest, readFile mem file = .found ([], []) rest := by
      cases h with
      | comments hcut =>
          left
          rw [readFile, hcut.overrun, Scan.overrun_bind]
      | header hcs hcut =>
          left
          rw [readFile, skipComments_append hcs, skipComments_of_goesOn hcut.goesOn, Scan.found_bind,
            hcut.overrun, Scan.overrun_bind]
      | afterHeader hcs hheader hcut =>
          left
          rw [readFile, skipComments_append hcs, skipComments_of_goesOn hheader.goesOn, Scan.found_bind,
            hheader.found, Scan.found_bind, hcut.overrun, Scan.overrun_bind]
      | edges hpreamble hfits hcut =>
          left
          rw [hpreamble.readFile, if_pos hfits, readEdges_eq_overrun hpreamble.lt, List.length_replicate]
          exact hcut
      | @noNodes _ rest hpreamble =>
          have hfits : mem.Fits (2 ^ 64 - 1) 0 := by
            refine ⟨?_, Nat.zero_le _⟩
            rw [nodesSize_max]
            exact Nat.zero_le _
          refine .inr ⟨rest, ?_⟩
          rw [hpreamble.readFile, if_pos hfits, nodesSize_max]
          rfl
    rcases hoverrun with hread | ⟨rest, hread⟩
    · rw [hread]
    · rw [hread]
      rfl

/-- The constructor ends as it should. -/
def Graph.unixEnds (mem : Memory) (file : List Char) : Prop :=
  (∃ g, Graph.unix mem file = .returned g) ∨ ∃ e, Graph.unix mem file = .throws e

/-- **The constructor stays inside the file, and returns or throws, exactly if the file is not cut off
where the reader still looks.** -/
theorem unixEnds_iff (mem : Memory) (file : List Char) (hfile : file ≠ []) :
    Graph.unixEnds mem file ↔ ¬ Truncated mem file := by
  rw [← unix_eq_undefined hfile]
  unfold Graph.unixEnds
  cases Graph.unix mem file with
  | returned g => exact iff_of_true (.inl ⟨g, rfl⟩) nofun
  | throws e => exact iff_of_true (.inr ⟨e, rfl⟩) nofun
  | undefined => exact iff_of_false (by rintro (⟨_, h⟩ | ⟨_, h⟩) <;> cases h) fun h => h rfl

/-- Room for a thousand nodes and edges. -/
def thousand : Memory := ⟨1000, 1000, by decide, by decide⟩

/-- The sample graph of the repository. -/
def sampleFile : List Char := "p sp 3 3\na 1 2 2\na 1 3 3\na 2 2 3\n".toList

/-- It is not cut off. -/
theorem unixEnds_iff_sample : sampleFile ≠ [] ∧ ¬ Truncated thousand sampleFile := by
  have hfile : sampleFile ≠ [] := by decide +kernel
  refine ⟨hfile, (unixEnds_iff thousand sampleFile hfile).mp (.inl ?_)⟩
  exact ⟨⟨[0, 2, 3, 3], [⟨1, 2⟩, ⟨2, 3⟩, ⟨1, 3⟩]⟩, by decide +kernel⟩

/-- Three nodes and no edges: the reader looks for something after the last line. -/
theorem not_unixEnds_noEdges :
    ¬ ∀ mem file, file ≠ [] → Graph.unixEnds mem file := by
  intro h
  have hundefined : Graph.unix thousand "p sp 3 0\n".toList = .undefined := by decide +kernel
  rcases h thousand "p sp 3 0\n".toList (by decide +kernel) with ⟨g, hg⟩ | ⟨e, he⟩
  · rw [hundefined] at hg
    cases hg
  · rw [hundefined] at he
    cases he

/-! ## §3 — the graph that the searches are given -/

/-- What has been read is the adjacency of the edges in the file. -/
theorem unix_adjacency {mem : Memory} {file : List Char} {g : Graph}
    (h : Graph.unix mem file = .returned g) :
    ∃ n entries rest, FileText mem n entries file rest ∧ Adjacency n (entries.map Entry.edge) g := by
  obtain ⟨hfile, result, rest, hread, hbuild⟩ := unix_eq_returned h
  obtain ⟨n, entries, htext, rfl⟩ := readFile_eq_found.mp hread
  have hn : n + 1 < 2 ^ 64 := by
    by_contra hnot
    obtain ⟨s, hpreamble, hedges⟩ := htext.text
    have hlt := hpreamble.lt
    obtain rfl : n = 2 ^ 64 - 1 := by omega
    obtain rfl := htext.eq_nil_of_max
    rw [(unix_eq_undefined hfile).mpr (.noNodes hpreamble)] at h
    cases h
  obtain ⟨g', hg', hadjacency⟩ := build_of_fileText htext hn
  rw [hbuild] at hg'
  cases hg'
  exact ⟨n, entries, rest, htext, hadjacency⟩

/-- **A graph that has been read is one for the searches**: no offset points past the edges, and every
edge ends at a node. -/
theorem unix_searchable {mem : Memory} {file : List Char} {g : Graph}
    (h : Graph.unix mem file = .returned g) :
    ∃ g' : Bfs.Graph, g'.nodes = g.nodes.toArray ∧ g'.edges = g.edges.toArray ∧
      ∀ e ∈ g'.edges, e.target < g'.numNodes := by
  obtain ⟨n, entries, rest, htext, hadjacency⟩ := unix_adjacency h
  obtain ⟨s, -, hedges⟩ := htext.text
  have hoffsets : ∀ offset ∈ g.nodes.toArray, offset ≤ g.edges.toArray.size := by
    intro offset hmem
    exact hadjacency.offset_le (List.mem_toArray.mp hmem)
  refine ⟨⟨g.nodes.toArray, g.edges.toArray, hoffsets⟩, rfl, rfl, fun e hmem => ?_⟩
  have hnum : Bfs.Graph.numNodes ⟨g.nodes.toArray, g.edges.toArray, hoffsets⟩ = n := by
    have hsize : g.nodes.toArray.size = n + 1 := hadjacency.length_nodes
    unfold Bfs.Graph.numNodes
    rw [if_neg (by rw [Array.isEmpty_iff_size_eq_zero, hsize]; omega), hsize, Nat.add_sub_cancel]
  have hsources : ∀ edge ∈ entries.map Entry.edge, edge.1 < n := by
    intro edge hedge
    obtain ⟨entry, hentry, rfl⟩ := List.mem_map.mp hedge
    exact (hedges.nodes_lt entry hentry).1
  obtain ⟨x, hx⟩ := hadjacency.exists_source hsources (List.mem_toArray.mp hmem)
  obtain ⟨entry, hentry, heq⟩ := List.mem_map.mp hx
  obtain ⟨-, rfl⟩ := Prod.mk.inj heq
  rw [hnum]
  exact (hedges.nodes_lt entry hentry).2

end RelaxedConcurrentFifo.GraphFile
