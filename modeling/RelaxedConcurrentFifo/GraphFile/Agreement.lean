/-
# RelaxedConcurrentFifo.GraphFile.Agreement — where the two constructors agree

Both constructors are meant to read the same files. They part where one of them asks for less than the
other: for the header, for the word in it, and for what stands between its numbers. With a header that
has a word there are three differences, and no others: the stream may read another number of edges, or
none, behind a character that is no space; it fails at a weight that cannot be read; and its loop over
comments does not end if nothing else follows.
-/
import RelaxedConcurrentFifo.GraphFile.Portable
import RelaxedConcurrentFifo.GraphFile.Dimacs

namespace RelaxedConcurrentFifo.GraphFile

open RelaxedConcurrentFifo.Bfs (Edge)
open RelaxedConcurrentFifo.Lib.CountingSort
open RelaxedConcurrentFifo.Lib.Scanners
open RelaxedConcurrentFifo.Lib.Words

/-! ## §1 — what a stream reads -/

namespace Stream

variable {s : Stream} {sp t rest : List Char}

/-- The stream is good and has `rest` to extract. -/
structure Ready (s : Stream) (rest : List Char) : Prop where
  rest : s.rest = rest
  eof : s.eof = false
  fail : s.fail = false

theorem Ready.good (h : Ready s rest) : s.good = true := by
  unfold Stream.good
  rw [h.eof, h.fail]
  rfl

theorem ready_opened (file : List Char) : Ready (opened file) file := ⟨rfl, rfl, rfl⟩

theorem Ready.moveTo (h : Ready s rest) (t : List Char) : Ready (s.moveTo t) t := ⟨rfl, h.eof, h.fail⟩

theorem Ready.sentry (h : Ready s (sp ++ t)) (hsp : All isSpace sp) (ht : GoesOn isSpace t) :
    s.sentry = .ok t := by
  unfold Stream.sentry
  rw [if_pos h.good, h.rest, dropWhile_append_of_stops hsp ht.stops]
  obtain ⟨x, t, rfl, -⟩ := ht
  rfl

theorem sentry_of_not_good (h : s.good = false) : s.sentry = .error { s with fail := true } := by
  unfold Stream.sentry
  rw [h]
  rfl

/-- Only spaces are left. -/
theorem Ready.sentry_blank (h : Ready s sp) (hsp : All isSpace sp) :
    ∃ s', s.sentry = .error s' ∧ s'.good = false := by
  have hdrop : s.rest.dropWhile isSpace = [] := by
    rw [h.rest, ← List.append_nil sp]
    exact dropWhile_append_of_stops hsp stops_nil
  unfold Stream.sentry
  rw [if_pos h.good, hdrop]
  exact ⟨_, rfl, rfl⟩

theorem Ready.last_moveTo {x : Char} (h : Ready s (sp ++ x :: t)) : (s.moveTo t).last = some x := by
  have htake : s.rest.take (s.rest.length - t.length) = sp ++ [x] := by
    have htext : s.rest = (sp ++ [x]) ++ t := by
      rw [h.rest, List.append_assoc]
      rfl
    rw [htext, List.length_append, Nat.add_sub_cancel]
    exact List.take_left
  unfold Stream.moveTo
  rw [htake, List.getLast?_concat]
  rfl

theorem Ready.getChar {x : Char} (h : Ready s (sp ++ x :: t)) (hsp : All isSpace sp)
    (hx : isSpace x = false) : s.getChar = (some x, s.moveTo t) := by
  unfold Stream.getChar
  rw [h.sentry hsp (goesOn_cons.mpr hx)]

theorem getChar_of_not_good (h : s.good = false) : s.getChar = (none, { s with fail := true }) := by
  unfold Stream.getChar
  rw [sentry_of_not_good h]

theorem Ready.getChar_blank (h : Ready s sp) (hsp : All isSpace sp) :
    ∃ s', s.getChar = (none, s') ∧ s'.good = false := by
  obtain ⟨s', hs', hgood⟩ := h.sentry_blank hsp
  refine ⟨s', ?_, hgood⟩
  unfold Stream.getChar
  rw [hs']

theorem Ready.getWord {w : List Char} {y : Char} (h : Ready s (sp ++ (w ++ y :: t)))
    (hsp : All isSpace sp) (hne : w ≠ []) (hw : All (fun x => !isSpace x) w) (hy : isSpace y = true) :
    Ready s.getWord (y :: t) := by
  have hstop : Stops (fun x => !isSpace x) (y :: t) := stops_cons.mpr (by simp [hy])
  unfold Stream.getWord
  rw [h.sentry hsp (goesOn_of_word hne hw _)]
  dsimp only
  rw [dropWhile_append_of_stops hw hstop]
  exact ⟨rfl, rfl, h.fail⟩

theorem splitSign_digits {ds : List Char} (hds : All Char.isDigit ds) (hne : ds ≠ []) (t : List Char) :
    splitSign (ds ++ t) = (false, ds ++ t) := by
  obtain ⟨x, ds, rfl⟩ := List.exists_cons_of_ne_nil hne
  have hx := (all_cons.mp hds).1
  rw [List.cons_append]
  unfold splitSign
  split
  · rename_i heq
    cases heq
    cases hx
  · rename_i heq
    cases heq
    cases hx
  · rfl

/-- A number, with or without a sign. -/
theorem Ready.getUnsigned_signed {ds : List Char} {v : Nat} {negative : Bool} (old : Nat)
    (h : Ready s (sp ++ t)) (hsp : All isSpace sp) (ht : GoesOn isSpace t)
    (hsign : splitSign t = (negative, ds ++ rest)) (hds : Number ds v)
    (hstop : Stops Char.isDigit rest) (hrest : rest ≠ []) :
    (s.getUnsigned old).1 = (if negative then sub64 0 v else v) ∧
      Ready (s.getUnsigned old).2 rest := by
  have hscan : scanNumber t = (negative, ds, rest) := by
    unfold scanNumber
    rw [hsign]
    dsimp only
    rw [takeWhile_append_of_stops hds.digits hstop, dropWhile_append_of_stops hds.digits hstop]
  have hconvert : convertUnsigned negative v = .ok (if negative then sub64 0 v else v) :=
    if_pos hds.lt
  have hresult : s.getUnsigned old =
      (if negative then sub64 0 v else v, { s.moveTo rest with eof := rest.isEmpty }) := by
    unfold Stream.getUnsigned getNumber
    rw [h.sentry hsp ht]
    dsimp only
    rw [hscan]
    dsimp only
    rw [if_neg hds.ne_nil, hds.value, hconvert]
  rw [hresult]
  exact ⟨rfl, rfl, List.isEmpty_eq_false_iff.mpr hrest, h.fail⟩

theorem Ready.getUnsigned {ds : List Char} {v : Nat} (old : Nat) (h : Ready s (sp ++ (ds ++ rest)))
    (hsp : All isSpace sp) (hds : Number ds v) (hstop : Stops Char.isDigit rest) (hrest : rest ≠ []) :
    (s.getUnsigned old).1 = v ∧ Ready (s.getUnsigned old).2 rest :=
  h.getUnsigned_signed old hsp (hds.goesOn rest) (splitSign_digits hds.digits hds.ne_nil _) hds hstop
    hrest

/-- Where no digit stands the number is set to 0, and the stream fails. -/
theorem Ready.getUnsigned_fail (old : Nat) (h : Ready s (sp ++ t)) (hsp : All isSpace sp)
    (ht : GoesOn isSpace t) (hno : (splitSign t).2.takeWhile Char.isDigit = []) :
    (s.getUnsigned old).1 = 0 ∧ (s.getUnsigned old).2.good = false := by
  unfold Stream.getUnsigned getNumber
  rw [h.sentry hsp ht]
  dsimp only [scanNumber]
  rw [if_pos hno]
  exact ⟨rfl, Bool.and_false _⟩

theorem getUnsigned_of_not_good (old : Nat) (h : s.good = false) :
    s.getUnsigned old = (old, { s with fail := true }) := by
  unfold Stream.getUnsigned getNumber
  rw [sentry_of_not_good h]

/-- The two ways to look at a sign differ for a plus sign only. -/
theorem splitSign_eq (h : t.head? ≠ some '+') : splitSign t = splitMinus t := by
  unfold splitSign splitMinus
  split
  · rfl
  · exact absurd rfl h
  · rename_i hminus _
    split
    · exact absurd rfl (hminus _)
    · rfl

theorem convertSigned_ok {negative : Bool} {ds : List Char} (h : IsLongLong (signedValue negative ds)) :
    ∃ value, convertSigned negative (digitsValue ds) = .ok value := by
  unfold IsLongLong signedValue at h
  unfold convertSigned
  cases negative with
  | true =>
      rw [if_pos rfl] at h
      exact ⟨_, by rw [if_pos rfl, if_pos (by omega)]⟩
  | false =>
      rw [if_neg (by decide)] at h
      exact ⟨_, by rw [if_neg (by decide), if_pos (by omega)]⟩

theorem convertSigned_error {negative : Bool} {ds : List Char}
    (h : ¬ IsLongLong (signedValue negative ds)) :
    ∃ bound, convertSigned negative (digitsValue ds) = .error bound := by
  unfold IsLongLong signedValue at h
  unfold convertSigned
  cases negative with
  | true =>
      rw [if_pos rfl] at h
      exact ⟨_, by rw [if_pos rfl, if_neg (by omega)]⟩
  | false =>
      rw [if_neg (by decide)] at h
      exact ⟨_, by rw [if_neg (by decide), if_neg (by omega)]⟩

/-- A weight that the other constructor reads. -/
theorem Ready.getSigned {w : Int} (old : Int) (h : Ready s (sp ++ t)) (hsp : All isSpace sp)
    (ht : GoesOn isSpace t) (hread : (fromCharsSigned t).1 = some w) (hrest : (fromCharsSigned t).2 ≠ []) :
    Ready (s.getSigned old).2 (fromCharsSigned t).2 := by
  have hplus : t.head? ≠ some '+' := by
    intro hhead
    obtain ⟨x, t, rfl, -⟩ := ht
    cases hhead
    cases hread
  unfold fromCharsSigned at hread hrest ⊢
  dsimp only at hread hrest ⊢
  by_cases hne : (splitMinus t).2.takeWhile Char.isDigit = []
  · rw [if_pos hne] at hread
    cases hread
  · rw [if_neg hne] at hread hrest ⊢
    dsimp only at hread hrest ⊢
    have hrange : IsLongLong (signedValue (splitMinus t).1
        ((splitMinus t).2.takeWhile Char.isDigit)) := by
      by_contra hnot
      rw [if_neg hnot] at hread
      cases hread
    obtain ⟨value, hvalue⟩ := convertSigned_ok hrange
    unfold Stream.getSigned getNumber
    rw [h.sentry hsp ht]
    dsimp only [scanNumber]
    rw [splitSign_eq hplus, if_neg hne, hvalue]
    exact ⟨rfl, List.isEmpty_eq_false_iff.mpr hrest, h.fail⟩

/-- A weight that the other constructor does not read. -/
theorem Ready.getSigned_fail (old : Int) (h : Ready s (sp ++ t)) (hsp : All isSpace sp)
    (ht : GoesOn isSpace t) (hread : (fromCharsSigned t).1 = none) (hplus : t.head? ≠ some '+') :
    (s.getSigned old).2.good = false := by
  unfold Stream.getSigned getNumber
  rw [h.sentry hsp ht]
  dsimp only [scanNumber]
  rw [splitSign_eq hplus]
  by_cases hne : (splitMinus t).2.takeWhile Char.isDigit = []
  · rw [if_pos hne]
    exact Bool.and_false _
  · unfold fromCharsSigned at hread
    dsimp only at hread
    rw [if_neg hne] at hread ⊢
    have hrange : ¬ IsLongLong (signedValue (splitMinus t).1
        ((splitMinus t).2.takeWhile Char.isDigit)) := by
      intro hrange
      dsimp only at hread
      rw [if_pos hrange] at hread
      cases hread
    obtain ⟨bound, hbound⟩ := convertSigned_error hrange
    rw [hbound]
    exact Bool.and_false _

end Stream

/-! ## §2 — the loops over comments -/

/-- After comments and spaces, the text goes on with `final`. -/
inductive Settles : List Char → List Char → Prop
  | stop {s : List Char} (hspace : GoesOn isSpace s) (hc : GoesOn (· == 'c') s) : Settles s s
  | line {body sp t final : List Char} (hbody : '\n' ∉ body) (hsp : All isSpace sp)
      (h : Settles t final) : Settles ('c' :: body ++ '\n' :: (sp ++ t)) final

theorem Settles.goesOn {t final : List Char} (h : Settles t final) : GoesOn isSpace t := by
  cases h with
  | stop hspace _ => exact hspace
  | line _ _ _ => exact goesOn_cons.mpr (by decide)

theorem all_ne_newline {body : List Char} (h : '\n' ∉ body) : All (fun x => x != '\n') body :=
  fun _ hx => bne_iff_ne.mpr fun heq => h (heq ▸ hx)

theorem Stream.Ready.ignoreLine {s : Stream} {body t : List Char} (h : Ready s (body ++ '\n' :: t))
    (hbody : '\n' ∉ body) : s.ignoreLine = s.moveTo t := by
  unfold Stream.ignoreLine
  rw [if_pos h.good, h.rest,
    dropWhile_append_of_stops (all_ne_newline hbody) (stops_cons.mpr (by decide))]

theorem Stream.Ready.ignoreLine_cut {s : Stream} {t : List Char} (h : Ready s t) (ht : '\n' ∉ t) :
    s.ignoreLine.good = false := by
  have hdrop : s.rest.dropWhile (fun x => x != '\n') = [] := by
    rw [h.rest, ← List.append_nil t]
    exact dropWhile_append_of_stops (all_ne_newline ht) stops_nil
  unfold Stream.ignoreLine
  rw [if_pos h.good, hdrop]
  rfl

theorem commentLoop_of_ne {c : Char} (hc : c ≠ 'c') (fuel : Nat) (s : Stream) :
    commentLoop fuel c s = some (c, s) := by
  cases fuel <;> exact if_neg hc

theorem commentLoop_add {c : Char} {s : Stream} {r : Char × Stream} {fuel : Nat} (k : Nat)
    (h : commentLoop fuel c s = some r) : commentLoop (fuel + k) c s = some r := by
  induction fuel generalizing c s with
  | zero =>
      by_cases hc : c = 'c'
      · rw [commentLoop, if_pos hc] at h
        cases h
      · rw [commentLoop_of_ne hc] at h ⊢
        exact h
  | succ fuel ih =>
      by_cases hc : c = 'c'
      · rw [commentLoop, if_pos hc] at h
        rw [Nat.succ_add, commentLoop, if_pos hc]
        exact ih h
      · rw [commentLoop_of_ne hc] at h ⊢
        exact h

theorem commentLoop_unique {c : Char} {s : Stream} {r r' : Char × Stream} {fuel fuel' : Nat}
    (h : commentLoop fuel c s = some r) (h' : commentLoop fuel' c s = some r') : r = r' := by
  have hsum := commentLoop_add fuel' h
  rw [Nat.add_comm, commentLoop_add fuel h'] at hsum
  exact (Option.some.inj hsum).symm

/-- With a stream that has failed, the loop goes on for ever. -/
theorem commentLoop_stuck {s : Stream} (h : s.good = false) (fuel : Nat) :
    commentLoop fuel 'c' s = none := by
  induction fuel generalizing s with
  | zero => rfl
  | succ fuel ih =>
      have hignore : s.ignoreLine = { s with fail := true } := by
        unfold Stream.ignoreLine
        rw [h]
        rfl
      have hgood : s.ignoreLine.good = false := by
        rw [hignore]
        exact Bool.and_false _
      rw [commentLoop, if_pos rfl, Stream.getChar_of_not_good hgood]
      exact ih (Bool.and_false _)

/-- The loop comes to where the text settles. -/
theorem commentLoop_settles {text final : List Char} (h : Settles text final) :
    ∀ {x : Char} {t : List Char} {s : Stream}, text = x :: t → s.Ready t → s.last = some x →
      ∃ fuel y t' s', commentLoop fuel x s = some (y, s') ∧ final = y :: t' ∧ s'.Ready t' ∧
        s'.last = some y := by
  induction h with
  | stop _ hc =>
      rintro x t s rfl hready hlast
      have hx : x ≠ 'c' := beq_eq_false_iff_ne.mp ((goesOn_cons (p := (· == 'c'))).mp hc)
      exact ⟨0, x, t, s, commentLoop_of_ne hx 0 s, rfl, hready, hlast⟩
  | @line body sp t₁ final hbody hsp hsettles ih =>
      intro x t s heq hready hlast
      obtain ⟨rfl, rfl⟩ := List.cons.inj (heq.symm.trans List.cons_append)
      obtain ⟨y, t₂, rfl, hy⟩ := hsettles.goesOn
      have hmoved := hready.moveTo (sp ++ y :: t₂)
      obtain ⟨fuel, hfuel⟩ := ih rfl (hmoved.moveTo t₂) hmoved.last_moveTo
      refine ⟨fuel + 1, ?_⟩
      rw [commentLoop, if_pos rfl, hready.ignoreLine hbody, hmoved.getChar hsp hy]
      exact hfuel

/-- If the text does not settle, the loop does not end. -/
theorem commentLoop_endless {x : Char} {t : List Char} {s : Stream} (hx : isSpace x = false)
    (hready : s.Ready t) (hno : ∀ final, ¬ Settles (x :: t) final) (fuel : Nat) :
    commentLoop fuel x s = none := by
  induction fuel generalizing x t s with
  | zero =>
      obtain rfl : x = 'c' := by
        by_contra hc
        exact hno _ (.stop (goesOn_cons.mpr hx) (goesOn_cons.mpr (beq_eq_false_iff_ne.mpr hc)))
      rfl
  | succ fuel ih =>
      obtain rfl : x = 'c' := by
        by_contra hc
        exact hno _ (.stop (goesOn_cons.mpr hx) (goesOn_cons.mpr (beq_eq_false_iff_ne.mpr hc)))
      rw [commentLoop, if_pos rfl]
      by_cases hline : '\n' ∈ t
      · obtain ⟨body, t₁, rfl, hbody⟩ := List.eq_append_cons_of_mem hline
        rw [hready.ignoreLine hbody]
        have hmoved := hready.moveTo t₁
        have hsplit : t₁ = t₁.takeWhile isSpace ++ t₁.dropWhile isSpace :=
          List.takeWhile_append_dropWhile.symm
        have hsp := all_takeWhile isSpace t₁
        have hstop := stops_dropWhile isSpace t₁
        generalize t₁.takeWhile isSpace = sp at hsplit hsp
        generalize t₁.dropWhile isSpace = t₂ at hsplit hstop
        subst hsplit
        cases t₂ with
        | nil =>
            rw [List.append_nil] at hmoved ⊢
            obtain ⟨s', hs', hgood⟩ := hmoved.getChar_blank hsp
            rw [hs']
            exact commentLoop_stuck hgood fuel
        | cons y t₂ =>
            have hy := stops_cons.mp hstop
            rw [hmoved.getChar hsp hy]
            exact ih hy (hmoved.moveTo t₂) fun final h => hno final (.line hbody hsp h)
      · rw [Stream.getChar_of_not_good (hready.ignoreLine_cut hline)]
        apply commentLoop_stuck
        exact Bool.and_false _

/-- Comment lines settle where what follows them does. -/
theorem Comments.settles {cs sp t final : List Char} (hcs : Comments cs) (hsp : All isSpace sp)
    (ht : Settles t final) (hgoes : GoesOn isSpace (cs ++ (sp ++ t))) :
    Settles (cs ++ (sp ++ t)) final := by
  induction hcs with
  | nil =>
      cases sp with
      | nil => exact ht
      | cons x sp =>
          have hx := goesOn_cons.mp hgoes
          rw [(all_cons.mp hsp).1] at hx
          cases hx
  | @line body rest hbody hrest ih =>
      have htext : 'c' :: body ++ '\n' :: rest ++ (sp ++ t) =
          'c' :: body ++ '\n' :: ([] ++ (rest ++ (sp ++ t))) := by
        rw [List.append_assoc]
        rfl
      rw [htext]
      cases hrest with
      | nil =>
          show Settles ('c' :: body ++ '\n' :: (sp ++ t)) final
          exact .line hbody hsp ht
      | line hbody' hrest' =>
          exact .line hbody all_nil (ih (goesOn_cons.mpr (by decide)))

/-! ## §3 — the edges -/

section Edges

variable {n size first target : Nat} {s : Stream} {c : Char} {text rest : List Char}

theorem EdgeText.ne_nil (h : EdgeText n first target text rest) : text ≠ [] := by
  obtain ⟨_, _, _, ⟨sp, tag, y, ds, rfl, -⟩, -⟩ := h
  simp

theorem isSpace_tag {tag : Char} (h : IsTag tag) : isSpace tag = false := by
  rcases h with rfl | rfl <;> decide

theorem sub64_succ_one {x : Nat} (h : x + 1 < 2 ^ 64) : sub64 (x + 1) 1 = x := by
  unfold sub64
  omega

/-- One edge is read up to its weight. -/
theorem extractEdge_ready (hready : s.Ready text) (htext : EdgeText n first target text rest)
    (hsize : first + 1 < size) :
    ∃ tag sp, ∃ s' : Stream, IsTag tag ∧ All isSpace sp ∧ GoesOn isSpace rest ∧ s'.Ready (sp ++ rest) ∧
      extractEdge n size c s =
        .ok ((first, ⟨target, (s'.getSigned 0).1⟩), tag, (s'.getSigned 0).2) := by
  obtain ⟨s₁, s₂, sp₃, ⟨sp, tag, y, ds, rfl, hsp, htag, hy, hds, hfirst, hstop⟩,
    ⟨sp₂, ds', rfl, hsp₂, hds', htarget, hstop'⟩, rfl, hsp₃, hrest⟩ := htext
  have hne : sp₂ ++ (ds' ++ (sp₃ ++ rest)) ≠ [] := by
    simp [hds'.ne_nil]
  have hne' : sp₃ ++ rest ≠ [] := by
    obtain ⟨x, t, rfl, -⟩ := hrest
    simp
  have htagged := hready.getChar hsp (isSpace_tag htag)
  have hmoved : (s.moveTo (y :: (ds ++ (sp₂ ++ (ds' ++ (sp₃ ++ rest)))))).Ready
      ([y] ++ (ds ++ (sp₂ ++ (ds' ++ (sp₃ ++ rest))))) := hready.moveTo _
  have hblank : All isSpace [y] := all_cons.mpr ⟨hy, all_nil⟩
  obtain ⟨hsource, hready₁⟩ := hmoved.getUnsigned 0 hblank hds hstop hne
  obtain ⟨htarget', hready₂⟩ := hready₁.getUnsigned 0 hsp₂ hds' hstop' hne'
  refine ⟨tag, sp₃, _, htag, hsp₃, hrest, hready₂, ?_⟩
  unfold extractEdge
  rw [htagged]
  dsimp only [Option.getD_some]
  rw [if_neg fun h => htag.elim h.1 h.2, hsource, sub64_succ_one hds.lt, if_neg (Nat.not_le.mpr hfirst),
    if_pos hsize, htarget', sub64_succ_one hds'.lt, if_neg (Nat.not_le.mpr htarget)]

/-- An edge without its weight. -/
def dropWeight (e : Edge) : Edge := ⟨e.target, 0⟩

/-- Edges whose weights can be read, but for the last. -/
theorem extractEdges_ready {entries : List Entry} (htext : EdgesText n entries text rest) :
    ∀ (s : Stream) (c : Char) (nodes : List Nat) (edgeList : List (Nat × Edge)),
      (entries ≠ [] → s.Ready text) → (∀ entry ∈ entries, entry.first + 1 < nodes.length) →
      (∀ entry ∈ entries.dropLast, entry.weight ≠ none) →
      ∃ edges : List (Nat × Edge),
        extractEdges n entries.length nodes edgeList c s =
          .ok ((entries.map (·.first + 1)).foldl bump nodes, edgeList ++ edges) ∧
        edges.map (Prod.map id dropWeight) =
          (entries.map Entry.edge).map (Prod.map id dropWeight) := by
  induction htext with
  | nil =>
      intro s c nodes edgeList _ _ _
      exact ⟨[], by simp [extractEdges], rfl⟩
  | @cons first target text s' rest entries hedge hedges ih =>
      intro s c nodes edgeList hready hsizes hweights
      obtain ⟨hsize, hsizes⟩ := List.forall_mem_cons.mp hsizes
      obtain ⟨tag, sp, s₁, htag, hsp, hgoes, hready₁, hextract⟩ :=
        extractEdge_ready (c := c) (hready (List.cons_ne_nil _ _)) hedge hsize
      have hready₂ : entries ≠ [] → (s₁.getSigned 0).2.Ready (fromCharsSigned s').2 := by
        intro hne
        have hweight : (fromCharsSigned s').1 ≠ none := by
          refine hweights ⟨first, target, (fromCharsSigned s').1⟩ ?_
          rw [List.dropLast_cons_of_ne_nil hne]
          exact List.mem_cons_self
        obtain ⟨w, hw⟩ := Option.ne_none_iff_exists'.mp hweight
        refine hready₁.getSigned 0 hsp hgoes hw ?_
        cases hedges with
        | nil => exact absurd rfl hne
        | cons hnext _ => exact hnext.ne_nil
      have hweights' : ∀ entry ∈ entries.dropLast, entry.weight ≠ none := by
        intro entry hentry
        refine hweights entry ?_
        cases entries with
        | nil => cases hentry
        | cons e es => exact List.mem_cons_of_mem _ hentry
      obtain ⟨edges, hextracts, hedges'⟩ := ih (s₁.getSigned 0).2 tag (bump nodes (first + 1))
        (edgeList ++ [(first, ⟨target, (s₁.getSigned 0).1⟩)]) hready₂ (by rwa [length_bump]) hweights'
      refine ⟨(first, ⟨target, (s₁.getSigned 0).1⟩) :: edges, ?_, ?_⟩
      · rw [List.length_cons, extractEdges, hextract]
        dsimp only
        rw [hextracts]
        simp
      · rw [List.map_cons, hedges']
        rfl

/-- Where a weight cannot be read and another edge follows, there is no plus sign. -/
theorem head_ne_plus {s' : List Char} (hgoes : GoesOn isSpace s') (hread : (fromCharsSigned s').1 = none)
    (hnext : EdgeText n first target (fromCharsSigned s').2 rest) : s'.head? ≠ some '+' := by
  intro hhead
  obtain ⟨x, t, rfl, hx⟩ := hgoes
  cases hhead
  obtain ⟨_, _, _, ⟨sp, tag, y, ds, heq, hsp, htag, -⟩, -⟩ := hnext
  have hstay : (fromCharsSigned ('+' :: t)).2 = '+' :: t := rfl
  rw [hstay] at heq
  cases sp with
  | nil =>
      cases heq
      rcases htag with h | h <;> cases h
  | cons y sp =>
      cases heq
      have := (all_cons.mp hsp).1
      rw [hx] at this
      cases this

/-- A stream that has failed gives no edge. -/
theorem extractEdge_stuck {tag : Char} (hn : n < 2 ^ 64) (htag : IsTag tag) (h : s.good = false) :
    extractEdge n size tag s = .error (.throws .source) := by
  have hlast : n ≤ sub64 0 1 := by
    unfold sub64
    omega
  have hgood : ({ s with fail := true } : Stream).good = false := Bool.and_false _
  unfold extractEdge
  rw [Stream.getChar_of_not_good h]
  dsimp only [Option.getD_none]
  rw [if_neg fun h => htag.elim h.1 h.2, Stream.getUnsigned_of_not_good 0 hgood, if_pos hlast]

/-- With a weight that cannot be read, and an edge after it, the constructor throws. -/
theorem extractEdges_throws (hn : n < 2 ^ 64) {entries : List Entry}
    (htext : EdgesText n entries text rest) :
    ∀ (s : Stream) (c : Char) (nodes : List Nat) (edgeList : List (Nat × Edge)),
      s.Ready text → (∀ entry ∈ entries, entry.first + 1 < nodes.length) →
      (∃ entry ∈ entries.dropLast, entry.weight = none) →
      extractEdges n entries.length nodes edgeList c s = .error (.throws .source) := by
  induction htext with
  | nil =>
      rintro s c nodes edgeList _ _ ⟨entry, hentry, -⟩
      cases hentry
  | @cons first target text s' rest entries hedge hedges ih =>
      intro s c nodes edgeList hready hsizes hfails
      obtain ⟨hsize, hsizes⟩ := List.forall_mem_cons.mp hsizes
      obtain ⟨tag, sp, s₁, htag, hsp, hgoes, hready₁, hextract⟩ :=
        extractEdge_ready (c := c) hready hedge hsize
      have hne : entries ≠ [] := by
        rintro rfl
        obtain ⟨entry, hentry, -⟩ := hfails
        cases hentry
      rw [List.length_cons, extractEdges, hextract]
      dsimp only
      cases hweight : (fromCharsSigned s').1 with
      | none =>
          -- the next edge is not read
          cases hedges with
          | nil => exact absurd rfl hne
          | cons hnext _ =>
              have hstuck := hready₁.getSigned_fail 0 hsp hgoes hweight
                (head_ne_plus hgoes hweight hnext)
              rw [List.length_cons, extractEdges, extractEdge_stuck hn htag hstuck]
      | some w =>
          refine ih _ tag _ _ (hready₁.getSigned 0 hsp hgoes hweight ?_) (by rwa [length_bump]) ?_
          · cases hedges with
            | nil => exact absurd rfl hne
            | cons hnext _ => exact hnext.ne_nil
          · obtain ⟨entry, hentry, hnone⟩ := hfails
            rw [List.dropLast_cons_of_ne_nil hne] at hentry
            rcases List.mem_cons.mp hentry with rfl | hentry
            · rw [hweight] at hnone
              cases hnone
            · exact ⟨entry, hentry, hnone⟩

end Edges

/-! ## §4 — the header -/

/-- A header that announces `n` nodes and `m` edges, with `gap` between the two numbers. -/
def HeaderGap (word gap : List Char) (n m : Nat) (s rest : List Char) : Prop :=
  ∃ sp ds ds' sp₂, s = 'p' :: (sp ++ (word ++ (ds ++ (gap ++ (ds' ++ (sp₂ ++ rest)))))) ∧
    All isSpace sp ∧ WordText word ∧ Number ds n ∧
    (∃ sep sp₁, gap = sep :: sp₁ ∧ sep.isDigit = false ∧ All isSpace sp₁) ∧
    Number ds' m ∧ Stops Char.isDigit (sp₂ ++ rest) ∧ All isSpace sp₂ ∧ GoesOn isSpace rest

theorem headerText_iff_gap {word s rest : List Char} {n m : Nat} :
    (∃ sep, HeaderText word sep n m s rest) ↔ ∃ gap, HeaderGap word gap n m s rest := by
  constructor
  · rintro ⟨sep, sp, ds, sp₁, ds', sp₂, heq, hsp, hword, hds, hsep, hsp₁, hds', hstop, hsp₂, hrest⟩
    exact ⟨sep :: sp₁, sp, ds, ds', sp₂, heq, hsp, hword, hds, ⟨sep, sp₁, rfl, hsep, hsp₁⟩, hds',
      hstop, hsp₂, hrest⟩
  · rintro ⟨gap, sp, ds, ds', sp₂, heq, hsp, hword, hds, ⟨sep, sp₁, rfl, hsep, hsp₁⟩, hds', hstop,
      hsp₂, hrest⟩
    exact ⟨sep, sp, ds, sp₁, ds', sp₂, heq, hsp, hword, hds, hsep, hsp₁, hds', hstop, hsp₂, hrest⟩

/-- The header stands behind the comments, and has a word. -/
def WordHeader (n m : Nat) (gap file after : List Char) : Prop :=
  ∃ cs s word, file = cs ++ s ∧ Comments cs ∧ HeaderGap word gap n m s after ∧ word ≠ []

/-- A file with such a header, and its edges as the constructor of `graph.unix.cpp` reads them. -/
structure WordFile (n : Nat) (entries : List Entry) (gap after file : List Char) : Prop where
  header : WordHeader n entries.length gap file after
  edges : ∃ cs s rest, after = cs ++ s ∧ Comments cs ∧ GoesOn (· == 'c') s ∧ EdgesText n entries s rest

/-- What the stream makes of the number `m` behind that gap; `none` is that it fails. -/
def countRead (gap : List Char) (m : Nat) : Option Nat :=
  if gap.all isSpace ∨ gap = ['+'] then some m
  else if gap = ['-'] then some (sub64 0 m)
  else none

theorem splitSign_of_ne {x : Char} {t : List Char} (hminus : x ≠ '-') (hplus : x ≠ '+') :
    Stream.splitSign (x :: t) = (false, x :: t) := by
  unfold Stream.splitSign
  split
  · rename_i heq
    exact absurd (List.cons.inj heq).1 hminus
  · rename_i heq
    exact absurd (List.cons.inj heq).1 hplus
  · rfl

section Header

variable {n m : Nat} {gap file after : List Char}

theorem WordHeader.preamble (h : WordHeader n m gap file after) {cs s : List Char}
    (hafter : after = cs ++ s) (hcs : Comments cs) (hs : GoesOn (· == 'c') s) :
    Preamble n m file s := by
  obtain ⟨cs', s', word, rfl, hcs', hgap, -⟩ := h
  subst hafter
  obtain ⟨sep, htext⟩ := headerText_iff_gap.mpr ⟨gap, hgap⟩
  exact ⟨cs', s', cs, rfl, hcs', htext.goesOn, .inl ⟨word, sep, htext⟩, hcs, hs⟩

/-- The stream is behind the `p` of a header, and reads its word and the number of nodes. -/
theorem headerGap_nodes {word t : List Char} {s : Stream} (htext : HeaderGap word gap n m ('p' :: t) after)
    (hword : word ≠ []) (hready : s.Ready t) :
    (s.getWord.getUnsigned 0).1 = n ∧ ∃ ds' sp₂,
      (s.getWord.getUnsigned 0).2.Ready (gap ++ (ds' ++ (sp₂ ++ after))) ∧
      (∃ sep sp₁, gap = sep :: sp₁ ∧ sep.isDigit = false ∧ All isSpace sp₁) ∧ Number ds' m ∧
      Stops Char.isDigit (sp₂ ++ after) ∧ All isSpace sp₂ ∧ GoesOn isSpace after := by
  obtain ⟨sp, ds, ds', sp₂, heq, hsp, hwordText, hds, hgap, hds', hstop, hsp₂, hafter⟩ := htext
  obtain ⟨-, rfl⟩ := List.cons.inj heq
  cases hwordText with
  | none => exact absurd rfl hword
  | @word w spw hne hw hfirst hspw hspaces =>
      obtain ⟨y, spw, rfl⟩ := List.exists_cons_of_ne_nil hspaces
      have hreadyWord : s.getWord.Ready ((y :: spw) ++ (ds ++ (gap ++ (ds' ++ (sp₂ ++ after))))) := by
        rw [List.append_assoc] at hready
        exact hready.getWord hsp hne hw (all_cons.mp hspw).1
      have hstopGap : Stops Char.isDigit (gap ++ (ds' ++ (sp₂ ++ after))) := by
        obtain ⟨sep, sp₁, rfl, hsep, -⟩ := hgap
        exact stops_cons.mpr hsep
      have hne' : gap ++ (ds' ++ (sp₂ ++ after)) ≠ [] := by
        obtain ⟨sep, sp₁, rfl, -⟩ := hgap
        exact List.cons_ne_nil _ _
      obtain ⟨hn, hready₁⟩ := hreadyWord.getUnsigned 0 hspw hds hstopGap hne'
      exact ⟨hn, ds', sp₂, hready₁, hgap, hds', hstop, hsp₂, hafter⟩

/-- A number of edges is read behind the gap. -/
theorem Stream.Ready.getCount {ds rest : List Char} {m' : Nat} {s : Stream}
    (h : s.Ready (gap ++ (ds ++ rest))) (hcount : countRead gap m = some m')
    (hds : Number ds m) (hstop : Stops Char.isDigit rest) (hrest : rest ≠ []) :
    (s.getUnsigned 0).1 = m' ∧ (s.getUnsigned 0).2.Ready rest := by
  unfold countRead at hcount
  split at hcount
  · rename_i hsame
    cases hcount
    rcases hsame with hspaces | rfl
    · exact h.getUnsigned 0 (List.all_eq_true.mp hspaces) hds hstop hrest
    · exact Ready.getUnsigned_signed 0 (show Ready s ([] ++ _) from h) all_nil
        (goesOn_cons.mpr (by decide)) (show splitSign _ = (false, ds ++ _) from rfl) hds hstop hrest
  · split at hcount
    · rename_i hminus
      cases hcount
      subst hminus
      exact Ready.getUnsigned_signed 0 (show Ready s ([] ++ _) from h) all_nil
        (goesOn_cons.mpr (by decide)) (show splitSign _ = (true, ds ++ _) from rfl) hds hstop hrest
    · cases hcount

/-- Behind any other gap no number is read. -/
theorem Stream.Ready.getCount_fail {rest : List Char} {s : Stream} (h : s.Ready (gap ++ rest))
    (hgap : ∃ sep sp₁, gap = sep :: sp₁ ∧ sep.isDigit = false ∧ All isSpace sp₁)
    (hcount : countRead gap m = none) :
    (s.getUnsigned 0).1 = 0 ∧ (s.getUnsigned 0).2.good = false := by
  obtain ⟨sep, sp₁, rfl, hdigit, hsp₁⟩ := hgap
  unfold countRead at hcount
  split at hcount
  · cases hcount
  · rename_i hother
    obtain ⟨hspaces, hplus⟩ := not_or.mp hother
    split at hcount
    · cases hcount
    · rename_i hminus
      have hsep : isSpace sep = false := by
        by_contra hspace
        exact hspaces (List.all_eq_true.mpr (all_cons.mpr ⟨eq_true_of_ne_false hspace, hsp₁⟩))
      have hsign : sp₁ ≠ [] → (sp₁ ++ rest).takeWhile Char.isDigit = [] := by
        intro hne
        obtain ⟨y, sp₁, rfl⟩ := List.exists_cons_of_ne_nil hne
        exact List.takeWhile_cons_of_neg (by rw [isDigit_of_isSpace (all_cons.mp hsp₁).1]; decide)
      refine Ready.getUnsigned_fail 0 (show Ready s ([] ++ _) from h) all_nil (goesOn_cons.mpr hsep) ?_
      rcases eq_or_ne sep '-' with rfl | hnotMinus
      · exact hsign fun hnil => hminus (by rw [hnil])
      · rcases eq_or_ne sep '+' with rfl | hnotPlus
        · exact hsign fun hnil => hplus (by rw [hnil])
        · show (Stream.splitSign (sep :: (sp₁ ++ rest))).2.takeWhile Char.isDigit = []
          rw [splitSign_of_ne hnotMinus hnotPlus]
          exact List.takeWhile_cons_of_neg (by rw [hdigit]; decide)

/-- The rest of the constructor, behind the `p`. -/
def Graph.portableHeader (mem : Memory) (fuel : Nat) (s : Stream) : Option Outcome :=
  let numNodes := s.getWord.getUnsigned 0
  let numEdges := numNodes.2.getUnsigned 0
  let next := numEdges.2.getChar
  (commentLoop fuel (next.1.getD 'p') next.2).bind fun r =>
    some (Graph.portableEdges mem numNodes.1 numEdges.1 r.1 r.2.unget)

/-- The rest of the constructor, when the first character after the header has been read. -/
def Graph.portableAfter (mem : Memory) (n m fuel : Nat) (c : Char) (s : Stream) : Option Outcome :=
  (commentLoop fuel c s).bind fun r => some (Graph.portableEdges mem n m r.1 r.2.unget)

/-- The constructor up to the `p`. -/
theorem WordHeader.portable (h : WordHeader n m gap file after) (mem : Memory) :
    ∃ word t, ∃ s : Stream, ∃ fuel₀, HeaderGap word gap n m ('p' :: t) after ∧ word ≠ [] ∧
      s.Ready t ∧
      (∀ fuel, fuel₀ ≤ fuel → Graph.portable mem fuel file = Graph.portableHeader mem fuel s) ∧
      (∀ fuel, Graph.portable mem fuel file = none ∨
        Graph.portable mem fuel file = Graph.portableHeader mem fuel s) := by
  obtain ⟨cs, text, word, rfl, hcs, htext, hword⟩ := h
  obtain ⟨t, rfl⟩ : ∃ t, text = 'p' :: t := by
    obtain ⟨_, _, _, _, heq, -⟩ := htext
    exact ⟨_, heq⟩
  have hsettles : Settles (cs ++ 'p' :: t) ('p' :: t) := by
    refine hcs.settles all_nil (.stop (goesOn_cons.mpr (by decide)) (goesOn_cons.mpr (by decide))) ?_
    exact hcs.goesOn_append (by decide) (goesOn_cons.mpr (by decide))
  obtain ⟨x₀, t₀, hfile, hx₀⟩ := hsettles.goesOn
  have hopened : (Stream.opened (cs ++ 'p' :: t)).Ready ([] ++ x₀ :: t₀) := hfile ▸ Stream.ready_opened _
  have hstart := hopened.getChar all_nil hx₀
  obtain ⟨fuel₀, y, t', s', hloop, heq, hready, -⟩ :=
    commentLoop_settles hsettles hfile (hopened.moveTo t₀) hopened.last_moveTo
  obtain ⟨rfl, rfl⟩ := List.cons.inj heq
  have hrun : ∀ fuel, commentLoop fuel x₀ ((Stream.opened (cs ++ 'p' :: t)).moveTo t₀) = some ('p', s') →
      Graph.portable mem fuel (cs ++ 'p' :: t) = Graph.portableHeader mem fuel s' := by
    intro fuel hfuel
    unfold Graph.portable
    rw [hstart]
    dsimp only
    rw [hfuel, Option.bind_some]
    dsimp only
    rw [if_neg (by decide)]
    rfl
  refine ⟨word, t, s', fuel₀, htext, hword, hready, fun fuel hfuel => ?_, fun fuel => ?_⟩
  · obtain ⟨k, rfl⟩ := Nat.exists_eq_add_of_le hfuel
    exact hrun _ (commentLoop_add k hloop)
  · cases hfuel : commentLoop fuel x₀ ((Stream.opened (cs ++ 'p' :: t)).moveTo t₀) with
    | none =>
        left
        unfold Graph.portable
        rw [hstart]
        dsimp only
        rw [hfuel, Option.bind_none]
    | some r =>
        obtain rfl := commentLoop_unique hfuel hloop
        exact .inr (hrun fuel hfuel)

/-- With a number of edges that the stream reads, up to the first character after the header. -/
theorem portableHeader_counted {word t : List Char} {m' : Nat} {s : Stream}
    (htext : HeaderGap word gap n m ('p' :: t) after) (hword : word ≠ []) (hready : s.Ready t)
    (hcount : countRead gap m = some m') (mem : Memory) :
    ∃ x t', ∃ s' : Stream, after = x :: t' ∧ isSpace x = false ∧ s'.Ready t' ∧ s'.last = some x ∧
      ∀ fuel, Graph.portableHeader mem fuel s = Graph.portableAfter mem n m' fuel x s' := by
  obtain ⟨hn, ds', sp₂, hready₁, -, hds', hstop, hsp₂, ⟨x, t', rfl, hx⟩⟩ :=
    headerGap_nodes htext hword hready
  obtain ⟨hm, hready₂⟩ := hready₁.getCount hcount hds' hstop (by simp)
  refine ⟨x, t', _, rfl, hx, hready₂.moveTo t', hready₂.last_moveTo, fun fuel => ?_⟩
  unfold Graph.portableHeader
  dsimp only
  rw [hn, hm, hready₂.getChar hsp₂ hx]
  rfl

/-- Without one there are no edges, and nothing more is read. -/
theorem portableHeader_failed {word t : List Char} {s : Stream}
    (htext : HeaderGap word gap n m ('p' :: t) after) (hword : word ≠ []) (hready : s.Ready t)
    (hcount : countRead gap m = none) (mem : Memory) :
    ∃ s' : Stream, ∀ fuel,
      Graph.portableHeader mem fuel s = some (Graph.portableEdges mem n 0 'p' s') := by
  obtain ⟨hn, ds', sp₂, hready₁, hgap, -⟩ := headerGap_nodes htext hword hready
  obtain ⟨hm, hgood⟩ := hready₁.getCount_fail hgap hcount
  refine ⟨Stream.unget { ((s.getWord.getUnsigned 0).2.getUnsigned 0).2 with fail := true },
    fun fuel => ?_⟩
  unfold Graph.portableHeader
  dsimp only
  rw [hn, hm, Stream.getChar_of_not_good hgood]
  dsimp only [Option.getD_none]
  rw [commentLoop_of_ne (by decide), Option.bind_some]

end Header

/-! ## §5 — agreement -/

/-- The portable constructor returns the same nodes and the same targets. -/
def Graph.PortableAgrees (mem : Memory) (file : List Char) (g : Graph) : Prop :=
  ∃ fuel g', Graph.portable mem fuel file = some (.returned g') ∧ g'.nodes = g.nodes ∧
    g'.edges.map Edge.target = g.edges.map Edge.target

/-- What both constructors need behind a word: the same number of edges, something after the comments
that follow the header, and every weight but the last one in reach; or that there are no edges, and the
stream reads no number. -/
def Readable (entries : List Entry) (gap after : List Char) : Prop :=
  (countRead gap entries.length = some entries.length ∧ (∃ final, Settles after final) ∧
      ∀ entry ∈ entries.dropLast, entry.weight ≠ none) ∨
    (countRead gap entries.length = none ∧ entries = [])

def Common (file : List Char) : Prop :=
  ∃ n entries gap after, WordFile n entries gap after file ∧ Readable entries gap after

section Agreement

variable {mem : Memory} {n : Nat} {entries : List Entry} {gap after file rest text : List Char}
  {g : Graph}

/-- A file that has been read has been read as its text says. -/
theorem WordFile.fileText (h : WordFile n entries gap after file)
    (hunix : Graph.unix mem file = .returned g) :
    (∃ rest, FileText mem n entries file rest) ∧ n + 1 < 2 ^ 64 := by
  obtain ⟨cs, s, rest, hafter, hcs, hs, htext⟩ := h.edges
  have hpreamble := h.header.preamble hafter hcs hs
  obtain ⟨hfile, result, rest', hread, -⟩ := unix_eq_returned hunix
  have hfits : mem.Fits n entries.length := by
    by_contra hnot
    rw [hpreamble.readFile, if_neg hnot] at hread
    cases hread
  have hn : n + 1 < 2 ^ 64 := by
    by_contra hnot
    have hlt := hpreamble.lt
    obtain rfl : n = 2 ^ 64 - 1 := by omega
    have htruncated : Truncated mem file := by
      cases htext with
      | nil => exact .noNodes hpreamble
      | cons hedge _ =>
          obtain ⟨_, _, _, hsource, -⟩ := hedge
          refine .edges hpreamble hfits (.here (.bounds hsource ?_))
          rw [nodesSize_max]
          exact Nat.zero_le _
    rw [(unix_eq_undefined hfile).mpr htruncated] at hunix
    cases hunix
  refine ⟨⟨rest, ⟨s, hpreamble, htext⟩, hfits, fun entry hentry => ?_⟩, hn⟩
  rw [nodesSize_of_lt hn]
  exact Nat.succ_lt_succ (htext.nodes_lt entry hentry).1

/-- A file with a word in its header that has been read has its edges. -/
theorem WordHeader.wordFile {m : Nat} (h : WordHeader n m gap file after)
    (hunix : Graph.unix mem file = .returned g) : ∃ entries, WordFile n entries gap after file := by
  obtain ⟨-, result, rest, hread, -⟩ := unix_eq_returned hunix
  obtain ⟨n', entries, htext, -⟩ := readFile_eq_found.mp hread
  obtain ⟨s, ⟨cs, s₁, cs', rfl, hcs, hs₁, hheader, hcs', hs⟩, hedges⟩ := htext.text
  have hword := h
  obtain ⟨cs₀, s₀, word, heq, hcs₀, hgap, -⟩ := h
  obtain ⟨sep, hheader₀⟩ := headerText_iff_gap.mpr ⟨gap, hgap⟩
  -- both decompositions are those of the reader
  have hsame : s₁ = s₀ := by
    have hskip := skipComments_append hcs s₁
    rw [heq, skipComments_append hcs₀, skipComments_of_goesOn hs₁,
      skipComments_of_goesOn hheader₀.goesOn] at hskip
    exact ((Scan.found.inj hskip).2).symm
  subst hsame
  have hfound : readHeader s₁ = .found (n', entries.length) (cs' ++ s) := readHeader_eq_found.mpr hheader
  rw [hheader₀.found] at hfound
  obtain ⟨hcounts, rfl⟩ := Scan.found.inj hfound
  obtain ⟨rfl, rfl⟩ := Prod.mk.inj hcounts
  exact ⟨entries, hword, cs', s, rest, rfl, hcs', hs, hedges⟩

/-- Where edges follow, the text settles at the first of them. -/
theorem WordFile.settles (h : WordFile n entries gap after file) (hne : entries ≠ []) :
    ∃ final rest, Settles after final ∧ EdgesText n entries final rest := by
  have hspace : GoesOn isSpace after := by
    obtain ⟨_, _, _, _, _, ⟨_, _, _, _, _, _, _, _, _, _, _, _, hafter⟩, -⟩ := h.header
    exact hafter
  obtain ⟨cs, s, rest, rfl, hcs, hs, htext⟩ := h.edges
  cases htext with
  | nil => exact absurd rfl hne
  | cons hedge hedges =>
      obtain ⟨s₁, s₂, sp₂, ⟨sp, tag, y, ds, rfl, hsp, htag, hy, hds, hfirst, hstop⟩, htarget⟩ := hedge
      refine ⟨tag :: y :: (ds ++ s₁), rest, hcs.settles hsp (.stop ?_ ?_) hspace, .cons ?_ hedges⟩
      · exact goesOn_cons.mpr (isSpace_tag htag)
      · refine goesOn_cons.mpr ?_
        rcases htag with rfl | rfl <;> decide
      · exact ⟨s₁, s₂, sp₂, ⟨[], tag, y, ds, rfl, all_nil, htag, hy, hds, hfirst, hstop⟩, htarget⟩

theorem Stream.Ready.unget {s : Stream} {x : Char} {t : List Char} (h : Ready s t)
    (hlast : s.last = some x) : Ready s.unget (x :: t) := by
  unfold Stream.unget
  rw [h.fail, hlast]
  exact ⟨congrArg (x :: ·) h.rest, rfl, rfl⟩

/-- The counts and edges that have been read, up to the weights, give the same nodes and targets. -/
theorem build_dropWeight {nodes : List Nat} {edgeList edgeList' : List (Nat × Edge)}
    (hbuild : build nodes edgeList = some g)
    (hsame : edgeList'.map (Prod.map id dropWeight) = edgeList.map (Prod.map id dropWeight)) :
    ∃ g', build nodes edgeList' = some g' ∧ g'.nodes = g.nodes ∧
      g'.edges.map Edge.target = g.edges.map Edge.target := by
  have htargets : ∀ edges : List Edge, (edges.map dropWeight).map Edge.target = edges.map Edge.target := by
    intro edges
    rw [List.map_map]
    rfl
  have hmapped := build_map dropWeight rfl nodes edgeList'
  rw [hsame, build_map dropWeight rfl nodes edgeList, hbuild] at hmapped
  cases hbuild' : build nodes edgeList' with
  | none => rw [hbuild'] at hmapped; cases hmapped
  | some g' =>
      rw [hbuild'] at hmapped
      obtain ⟨hnodes, hedges⟩ := Graph.mk.inj (Option.some.inj hmapped)
      refine ⟨g', rfl, hnodes.symm, ?_⟩
      rw [← htargets g'.edges, ← hedges, htargets]

/-- What the stream reads as another number of edges is too large for a vector. -/
theorem not_fits_of_countRead {m m' : Nat} (hfits : mem.Fits n m) (hcount : countRead gap m = some m')
    (hne : m' ≠ m) : ¬ mem.Fits n m' := by
  have hmax := mem.maxEdges_lt
  have hle := hfits.2
  unfold countRead at hcount
  split at hcount
  · exact absurd (Option.some.inj hcount).symm hne
  · split at hcount
    · have hm' := Option.some.inj hcount
      unfold sub64 at hm'
      rintro ⟨-, hle'⟩
      omega
    · cases hcount

/-- The stream reads the number of edges. -/
theorem WordFile.agrees_iff_of_count (h : WordFile n entries gap after file)
    (hunix : Graph.unix mem file = .returned g)
    (hcount : countRead gap entries.length = some entries.length) :
    Graph.PortableAgrees mem file g ↔
      (∃ final, Settles after final) ∧ ∀ entry ∈ entries.dropLast, entry.weight ≠ none := by
  obtain ⟨⟨rest, htext⟩, hn⟩ := h.fileText hunix
  have hbounds : ∀ entry ∈ entries, entry.first + 1 < (List.replicate (nodesSize n) 0).length := by
    rw [List.length_replicate]
    exact htext.bounds
  obtain ⟨word, _, s₀, fuel₀, hgap, hword, hready₀, hlarge, hany⟩ := h.header.portable mem
  obtain ⟨x, t, s, hafter, hx, hready, hlast, hheader⟩ :=
    portableHeader_counted hgap hword hready₀ hcount mem
  constructor
  · rintro ⟨fuel, g', hportable, -, -⟩
    have hrun : Graph.portableAfter mem n entries.length fuel x s = some (.returned g') := by
      rcases hany fuel with hnone | hsame
      · rw [hnone] at hportable
        cases hportable
      · rw [← hheader, ← hsame, hportable]
    refine ⟨?_, fun entry hentry hnone => ?_⟩
    · by_contra hno
      rw [hafter] at hno
      rw [Graph.portableAfter, commentLoop_endless hx hready (fun final h => hno ⟨final, h⟩)] at hrun
      cases hrun
    · have hne : entries ≠ [] := by
        rintro rfl
        cases hentry
      obtain ⟨final, rest', hsettles, hedges⟩ := h.settles hne
      obtain ⟨fuel₁, y, t', s', hloop, rfl, hready', hlast'⟩ :=
        commentLoop_settles hsettles hafter hready hlast
      have hthrows := extractEdges_throws (by omega) hedges s'.unget y _ [] (hready'.unget hlast') hbounds
        ⟨entry, hentry, hnone⟩
      unfold Graph.portableAfter at hrun
      cases hloop' : commentLoop fuel x s with
      | none => rw [hloop'] at hrun; cases hrun
      | some r =>
          obtain rfl := commentLoop_unique hloop' hloop
          rw [hloop', Option.bind_some, Graph.portableEdges, if_pos htext.fits, hthrows] at hrun
          cases hrun
  · rintro ⟨hsettles, hweights⟩
    obtain ⟨final, rest', hsettles, hedges⟩ : ∃ final rest', Settles after final ∧
        (entries ≠ [] → EdgesText n entries final rest') := by
      by_cases hne : entries = []
      · obtain ⟨final, hsettles⟩ := hsettles
        exact ⟨final, final, hsettles, fun hnot => absurd hne hnot⟩
      · obtain ⟨final, rest', hsettles, hedges⟩ := h.settles hne
        exact ⟨final, rest', hsettles, fun _ => hedges⟩
    obtain ⟨fuel₁, y, t', s', hloop, rfl, hready', hlast'⟩ :=
      commentLoop_settles hsettles hafter hready hlast
    have hextract : ∃ edges : List (Nat × Edge),
        extractEdges n entries.length (List.replicate (nodesSize n) 0) [] y s'.unget =
          .ok ((entries.map (·.first + 1)).foldl bump (List.replicate (nodesSize n) 0), edges) ∧
        edges.map (Prod.map id dropWeight) = (entries.map Entry.edge).map (Prod.map id dropWeight) := by
      by_cases hne : entries = []
      · subst hne
        exact ⟨[], rfl, rfl⟩
      · exact extractEdges_ready (hedges hne) s'.unget y _ [] (fun _ => hready'.unget hlast') hbounds
          hweights
    obtain ⟨edges, hextract, hsame⟩ := hextract
    obtain ⟨-, result, rest'', hread, hbuild⟩ := unix_eq_returned hunix
    have hresult := readFile_eq_found.mpr ⟨n, entries, htext, rfl⟩
    rw [hread] at hresult
    obtain ⟨rfl, -⟩ := Scan.found.inj hresult
    obtain ⟨g', hg', hnodes, htargets⟩ := build_dropWeight hbuild hsame
    refine ⟨fuel₀ + fuel₁, g', ?_, hnodes, htargets⟩
    rw [hlarge _ (Nat.le_add_right _ _), hheader, Graph.portableAfter, Nat.add_comm fuel₀,
      commentLoop_add fuel₀ hloop, Option.bind_some, Graph.portableEdges, if_pos htext.fits, hextract]
    dsimp only
    rw [countEntries, hg']

/-- The stream reads another number of edges, and cannot make room for them. -/
theorem WordFile.not_agrees_of_count {m' : Nat} (h : WordFile n entries gap after file)
    (hunix : Graph.unix mem file = .returned g)
    (hcount : countRead gap entries.length = some m') (hne : m' ≠ entries.length) :
    ¬ Graph.PortableAgrees mem file g := by
  obtain ⟨⟨rest, htext⟩, -⟩ := h.fileText hunix
  obtain ⟨word, _, s₀, fuel₀, hgap, hword, hready₀, -, hany⟩ := h.header.portable mem
  obtain ⟨x, t, s, -, -, -, -, hheader⟩ := portableHeader_counted hgap hword hready₀ hcount mem
  rintro ⟨fuel, g', hportable, -, -⟩
  rcases hany fuel with hnone | hsame
  · rw [hnone] at hportable
    cases hportable
  · rw [hsame, hheader, Graph.portableAfter] at hportable
    cases hloop : commentLoop fuel x s with
    | none => rw [hloop] at hportable; cases hportable
    | some r =>
        rw [hloop, Option.bind_some, Graph.portableEdges,
          if_neg (not_fits_of_countRead htext.fits hcount hne)] at hportable
        cases hportable

/-- The stream reads no number of edges, and returns a graph without any. -/
theorem WordFile.agrees_iff_of_fail (h : WordFile n entries gap after file)
    (hunix : Graph.unix mem file = .returned g) (hcount : countRead gap entries.length = none) :
    Graph.PortableAgrees mem file g ↔ entries = [] := by
  obtain ⟨⟨rest, htext⟩, hn⟩ := h.fileText hunix
  obtain ⟨word, _, s₀, fuel₀, hgap, hword, hready₀, hlarge, hany⟩ := h.header.portable mem
  obtain ⟨s, hheader⟩ := portableHeader_failed hgap hword hready₀ hcount mem
  have hfits : mem.Fits n 0 := ⟨htext.fits.1, Nat.zero_le _⟩
  obtain ⟨-, result, rest', hread, hbuild⟩ := unix_eq_returned hunix
  have hresult := readFile_eq_found.mpr ⟨n, entries, htext, rfl⟩
  rw [hread] at hresult
  obtain ⟨rfl, -⟩ := Scan.found.inj hresult
  have hedges : ∀ g, Graph.portableEdges mem n 0 'p' s = .returned g ↔
      build (List.replicate (nodesSize n) 0) [] = some g := by
    intro g
    unfold Graph.portableEdges
    rw [if_pos hfits, extractEdges]
    dsimp only
    cases build (List.replicate (nodesSize n) 0) [] with
    | none => exact ⟨nofun, nofun⟩
    | some g₁ => exact ⟨fun h => by cases h; rfl, fun h => by cases h; rfl⟩
  constructor
  · rintro ⟨fuel, g', hportable, -, htargets⟩
    rcases hany fuel with hnone | hsame
    · rw [hnone] at hportable
      cases hportable
    · rw [hsame, hheader] at hportable
      have hnil := (hedges g').mp (Option.some.inj hportable)
      obtain ⟨g₂, hg₂, hadjacency⟩ := build_of_fileText htext hn
      rw [hbuild] at hg₂
      obtain rfl := Option.some.inj hg₂
      obtain ⟨g₃, hg₃, hempty⟩ :=
        build_countNodes (show ∀ edge ∈ ([] : List (Nat × Edge)), edge.1 < n from nofun)
      rw [← nodesSize_of_lt hn] at hg₃
      obtain rfl := Option.some.inj (hnil.symm.trans hg₃)
      have hlength := congrArg List.length htargets
      rw [List.length_map, List.length_map, hempty.length_edges, hadjacency.length_edges,
        List.length_map] at hlength
      exact List.length_eq_zero_iff.mp hlength.symm
  · rintro rfl
    refine ⟨fuel₀, g, ?_, rfl, rfl⟩
    rw [hlarge _ (Nat.le_refl _), hheader, (hedges g).mpr hbuild]

/-- **With a word in the header, the constructors agree exactly on what both need.** -/
theorem WordFile.agrees_iff (h : WordFile n entries gap after file)
    (hunix : Graph.unix mem file = .returned g) :
    Graph.PortableAgrees mem file g ↔ Readable entries gap after := by
  unfold Readable
  cases hcount : countRead gap entries.length with
  | none =>
      rw [h.agrees_iff_of_fail hunix hcount]
      simp
  | some m' =>
      by_cases hsame : m' = entries.length
      · rw [h.agrees_iff_of_count hunix (hsame ▸ hcount)]
        simp [hsame]
      · simp [hsame, h.not_agrees_of_count hunix hcount hsame]

/-- Something else stands where the header should. -/
def NoHeader (file : List Char) : Prop :=
  ∃ cs x t, file = cs ++ x :: t ∧ Comments cs ∧ isSpace x = false ∧ x ≠ 'c' ∧ x ≠ 'p'

theorem NoHeader.not_agrees (h : NoHeader file) : ¬ Graph.PortableAgrees mem file g := by
  obtain ⟨cs, x, t, rfl, hcs, hspace, hc, hp⟩ := h
  have hnoC : GoesOn (· == 'c') (x :: t) := goesOn_cons.mpr (beq_eq_false_iff_ne.mpr hc)
  have hgoes : GoesOn isSpace (cs ++ x :: t) := by
    cases hcs with
    | nil => exact goesOn_cons.mpr hspace
    | line _ _ => exact goesOn_cons.mpr (by decide)
  have hsettles : Settles (cs ++ x :: t) (x :: t) :=
    hcs.settles all_nil (.stop (goesOn_cons.mpr hspace) hnoC) hgoes
  obtain ⟨x₀, t₀, hfile, hx₀⟩ := hgoes
  have hopened : (Stream.opened (cs ++ x :: t)).Ready ([] ++ x₀ :: t₀) := hfile ▸ Stream.ready_opened _
  have hstart := hopened.getChar all_nil hx₀
  obtain ⟨fuel₀, y, t', s', hloop, heq, -⟩ :=
    commentLoop_settles hsettles hfile (hopened.moveTo t₀) hopened.last_moveTo
  obtain ⟨rfl, rfl⟩ := List.cons.inj heq
  rintro ⟨fuel, g', hportable, -⟩
  unfold Graph.portable at hportable
  rw [hstart] at hportable
  dsimp only at hportable
  cases hloop' : commentLoop fuel x₀ ((Stream.opened (cs ++ x :: t)).moveTo t₀) with
  | none => rw [hloop', Option.bind_none] at hportable; cases hportable
  | some r =>
      obtain rfl := commentLoop_unique hloop' hloop
      rw [hloop', Option.bind_some] at hportable
      dsimp only at hportable
      rw [if_pos hp] at hportable
      cases hportable

/-- **The constructors agree on every file with what both need**, and, where the header stands behind
the comments and has a word, or is missing, on no other file. -/
theorem portable_agrees (mem : Memory) (file : List Char) (g : Graph)
    (hunix : Graph.unix mem file = .returned g) :
    (Common file → Graph.PortableAgrees mem file g) ∧
      ((∃ n m gap after, WordHeader n m gap file after) ∨ NoHeader file →
        Graph.PortableAgrees mem file g → Common file) := by
  constructor
  · rintro ⟨n, entries, gap, after, hfile, hreadable⟩
    exact (hfile.agrees_iff hunix).mpr hreadable
  · rintro (⟨n, m, gap, after, hheader⟩ | hnone) hagrees
    · obtain ⟨entries, hfile⟩ := hheader.wordFile hunix
      exact ⟨n, entries, gap, after, hfile, (hfile.agrees_iff hunix).mp hagrees⟩
    · exact absurd hagrees hnone.not_agrees

end Agreement

/-- The sample graph of the repository, and its file. -/
def sampleLines : List Line := [⟨1, 2, 2⟩, ⟨1, 3, 3⟩, ⟨2, 2, 3⟩]

def sampleGraph : Graph := ⟨[0, 2, 3, 3], [⟨1, 2⟩, ⟨2, 3⟩, ⟨1, 3⟩]⟩

/-- It has what both need. -/
theorem portable_agrees_sample :
    Graph.unix thousand (dimacs [] [] 3 sampleLines true) = .returned sampleGraph ∧
      Common (dimacs [] [] 3 sampleLines true) := by
  have hunix : Graph.unix thousand (dimacs [] [] 3 sampleLines true) = .returned sampleGraph := by
    decide +kernel
  have hlines : GoesOn isSpace (printLines sampleLines ++ ['\n']) :=
    goesOn_printLines (by decide) (by decide) _
  obtain ⟨gap, hgap⟩ := headerText_iff_gap.mp
    ⟨' ', headerText_printHeader (n := 3) (m := 3) (by decide) (by decide) hlines⟩
  refine ⟨hunix, (portable_agrees thousand _ sampleGraph hunix).2
    (.inl ⟨3, 3, gap, _, [], _, ['s', 'p', ' '], rfl, .nil, hgap, by decide⟩) ?_⟩
  exact ⟨0, sampleGraph, by decide +kernel, rfl, rfl⟩

/-- Two edges, and the first has no weight. -/
def weightless : List Char := "p sp 3 2\ne 1 2\ne 2 3 1\n".toList

theorem portable_weightless (fuel : Nat) :
    Graph.portable thousand fuel weightless = some (.throws .source) := by
  have hstart : (Stream.opened weightless).getChar = (some 'p', ⟨weightless.tail, some 'p', false, false⟩) := by
    decide +kernel
  have hnext : (((Stream.getWord ⟨weightless.tail, some 'p', false, false⟩).getUnsigned 0).2.getUnsigned
      0).2.getChar = (some 'e', ⟨" 1 2\ne 2 3 1\n".toList, some 'e', false, false⟩) := by decide +kernel
  unfold Graph.portable
  rw [hstart]
  dsimp only
  rw [commentLoop_of_ne (by decide), Option.bind_some]
  dsimp only
  rw [if_neg (by decide), hnext]
  dsimp only [Option.getD_some]
  rw [commentLoop_of_ne (by decide), Option.bind_some]
  decide +kernel

/-- One constructor returns the graph, the other one throws. -/
theorem not_portable_agrees_weightless :
    ¬ ∀ mem file g, Graph.unix mem file = .returned g → Graph.PortableAgrees mem file g := by
  intro h
  have hunix : Graph.unix thousand weightless = .returned ⟨[0, 1, 2, 2], [⟨1, 0⟩, ⟨2, 1⟩]⟩ := by
    decide +kernel
  obtain ⟨fuel, g', hportable, -⟩ := h thousand weightless _ hunix
  rw [portable_weightless] at hportable
  cases hportable

end RelaxedConcurrentFifo.GraphFile
