/-
# RelaxedConcurrentFifo.GraphFile.Portable — the constructor of `graph.portable.cpp`

The file is read with the extractions of `std::ifstream`. A stream that has failed extracts nothing any
more, and what was to be read keeps its value; a number that cannot be read is set, to 0 or to the bound
it exceeds, and fails the stream.

`while (c == 'c')` does not come to an end once the stream has failed with a `c` in hand. The loops
over comments take the number of their rounds as an argument, and a constructor that has not returned
after any number of rounds does not return.
-/
import RelaxedConcurrentFifo.GraphFile.Unix

namespace RelaxedConcurrentFifo.GraphFile

open RelaxedConcurrentFifo.Bfs (Edge)
open RelaxedConcurrentFifo.Lib.CountingSort
open RelaxedConcurrentFifo.Lib.Scanners
open RelaxedConcurrentFifo.Lib.Words

/-! ## §1 — input streams -/

/-- What has not been extracted yet, the character extracted last, `eofbit`, and `failbit` or
`badbit`. -/
structure Stream where
  rest : List Char
  last : Option Char
  eof : Bool
  fail : Bool
  deriving DecidableEq, Repr

namespace Stream

def opened (file : List Char) : Stream := ⟨file, none, false, false⟩

def good (s : Stream) : Bool := !s.eof && !s.fail

/-- All characters up to `rest` are extracted. -/
def moveTo (s : Stream) (rest : List Char) : Stream :=
  { s with rest := rest, last := (s.rest.take (s.rest.length - rest.length)).getLast?.or s.last }

/-- The sentry of a formatted extraction: the text after the spaces, or the stream with `failbit`. -/
def sentry (s : Stream) : Except Stream (List Char) :=
  if s.good then
    match s.rest.dropWhile isSpace with
    | [] => .error { s.moveTo [] with eof := true, fail := true }
    | x :: t => .ok (x :: t)
  else .error { s with fail := true }

/-- `>> c`, which extracts a character or fails. -/
def getChar (s : Stream) : Option Char × Stream :=
  match s.sentry with
  | .ok (x :: t) => (some x, s.moveTo t)
  | .ok [] => (none, s)
  | .error s => (none, s)

/-- `>> skip`, which extracts a word. -/
def getWord (s : Stream) : Stream :=
  match s.sentry with
  | .ok t =>
      let rest := t.dropWhile fun x => !isSpace x
      { s.moveTo rest with eof := rest.isEmpty }
  | .error s => s

/-- The sign, if there is one, and what follows it. -/
def splitSign : List Char → Bool × List Char
  | '-' :: t => (true, t)
  | '+' :: t => (false, t)
  | s => (false, s)

/-- The number that a signed extraction reads: its sign and digits, and where it stops. -/
def scanNumber (t : List Char) : Bool × List Char × List Char :=
  ((splitSign t).1, (splitSign t).2.takeWhile Char.isDigit, (splitSign t).2.dropWhile Char.isDigit)

/-- `>>` for a variable with the value `old`; `convert` gives the value of sign and digits, or the bound
that is exceeded. -/
def getNumber {α : Type} (zero : α) (convert : Bool → Nat → Except α α) (old : α) (s : Stream) :
    α × Stream :=
  match s.sentry with
  | .error s => (old, s)
  | .ok t =>
      let number := scanNumber t
      let s := { s.moveTo number.2.2 with eof := number.2.2.isEmpty }
      if number.2.1 = [] then (zero, { s with fail := true })
      else
        match convert number.1 (digitsValue number.2.1) with
        | .ok value => (value, s)
        | .error bound => (bound, { s with fail := true })

/-- `std::size_t`: a minus sign negates modulo 2^64. -/
def convertUnsigned (negative : Bool) (v : Nat) : Except Nat Nat :=
  if v < 2 ^ 64 then .ok (if negative then sub64 0 v else v) else .error (2 ^ 64 - 1)

/-- `long long`. -/
def convertSigned (negative : Bool) (v : Nat) : Except Int Int :=
  if negative then (if v ≤ 2 ^ 63 then .ok (-v) else .error (-2 ^ 63))
  else (if v < 2 ^ 63 then .ok v else .error (2 ^ 63 - 1))

def getUnsigned (old : Nat) (s : Stream) : Nat × Stream := s.getNumber 0 convertUnsigned old

def getSigned (old : Int) (s : Stream) : Int × Stream := s.getNumber 0 convertSigned old

/-- `ignore(std::numeric_limits<std::streamsize>::max(), '\n')`. -/
def ignoreLine (s : Stream) : Stream :=
  if s.good then
    match s.rest.dropWhile fun x => x != '\n' with
    | [] => { s.moveTo [] with eof := true }
    | _ :: t => s.moveTo t
  else { s with fail := true }

/-- `unget()`, after clearing `eofbit`. -/
def unget (s : Stream) : Stream :=
  if s.fail then { s with eof := false }
  else
    match s.last with
    | some x => { s with rest := x :: s.rest, eof := false }
    | none => { s with eof := false, fail := true }

end Stream

/-! ## §2 — the constructor -/

/-- `while (c == 'c') { file.ignore(...); file >> c; }`, in at most `fuel` rounds. -/
def commentLoop : Nat → Char → Stream → Option (Char × Stream)
  | 0, c, s => if c = 'c' then none else some (c, s)
  | fuel + 1, c, s =>
      if c = 'c' then
        let next := s.ignoreLine.getChar
        commentLoop fuel (next.1.getD c) next.2
      else some (c, s)

/-- One edge. Its source is counted in `nodes`, which has `size` entries. -/
def extractEdge (numNodes size : Nat) (c : Char) (s : Stream) :
    Except Outcome ((Nat × Edge) × Char × Stream) :=
  let tag := s.getChar
  let c := tag.1.getD c
  if c ≠ 'a' ∧ c ≠ 'e' then .error (.throws .edgeFormat)
  else
    let source := tag.2.getUnsigned 0
    let first := sub64 source.1 1
    if numNodes ≤ first then .error (.throws .source)
    else if first + 1 < size then
      let target := source.2.getUnsigned 0
      if numNodes ≤ sub64 target.1 1 then .error (.throws .target)
      else
        let weight := target.2.getSigned 0
        .ok ((first, ⟨sub64 target.1 1, weight.1⟩), c, weight.2)
    else .error .undefined

/-- The loop over the edges, with `nodes` and `edge_list`. -/
def extractEdges (numNodes : Nat) : Nat → List Nat → List (Nat × Edge) → Char → Stream →
    Except Outcome (List Nat × List (Nat × Edge))
  | 0, nodes, edgeList, _, _ => .ok (nodes, edgeList)
  | k + 1, nodes, edgeList, c, s =>
      match extractEdge numNodes nodes.length c s with
      | .error outcome => .error outcome
      | .ok (edge, c, s) =>
          extractEdges numNodes k (bump nodes (edge.1 + 1)) (edgeList ++ [edge]) c s

/-- After the comments that follow the header. -/
def Graph.portableEdges (mem : Memory) (numNodes numEdges : Nat) (c : Char) (s : Stream) : Outcome :=
  if mem.Fits numNodes numEdges then
    match extractEdges numNodes numEdges (List.replicate (nodesSize numNodes) 0) [] c s with
    | .error outcome => outcome
    | .ok (nodes, edgeList) =>
        match build nodes edgeList with
        | some g => .returned g
        | none => .undefined
  else .throws .allocation

/-- `Graph::Graph`, from the content of the file. Without a first character `c` is read unset. -/
def Graph.portable (mem : Memory) (fuel : Nat) (file : List Char) : Option Outcome :=
  let start := (Stream.opened file).getChar
  match start.1 with
  | none => some .undefined
  | some c =>
      (commentLoop fuel c start.2).bind fun (c, s) =>
      if c ≠ 'p' then some (.throws .graphFormat)
      else
        let numNodes := s.getWord.getUnsigned 0
        let numEdges := numNodes.2.getUnsigned 0
        let next := numEdges.2.getChar
        (commentLoop fuel (next.1.getD c) next.2).bind fun (c, s) =>
        some (Graph.portableEdges mem numNodes.1 numEdges.1 c s.unget)

end RelaxedConcurrentFifo.GraphFile
