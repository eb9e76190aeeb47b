import OsProjects.Lib.Decimal
import OsProjects.Lib.ForkJoin

/-!
# Sums of pairs, by processes and by threads

`numgen.c`, `fork.c` and `thread.c`, for `M = MAX_PROCESSES`. `numgen` writes the
file `temp.txt`; both other programs read it and have `M` workers add two of its
numbers each. Parent and workers are programs of `Lib.ForkJoin`: any interleaving
of their steps is an execution.

* a child process of `fork.c` works on its own copy of `nums` and `i`, and its sum
  reaches the parent as an exit status, in eight bits;
* a thread of `thread.c` gets the address of its task and reads the task when it
  runs, from the array that the parent goes on writing.

Calls that fail are in `PairSums.Failures`; the time measurement is not modelled. A sum
that leaves the range of `int` is taken to wrap.
-/

namespace OsProjects.PairSums

open Lib.Decimal Lib.ForkJoin

variable {M : Nat}

/-- The lines with `count` numbers from `first` on. -/
def numberLines (first count : Nat) : List Char :=
  (List.range' first count).flatMap fun i => printInt i ++ ['\n']

/-- What `numgen` leaves in `temp.txt`. -/
def numgen (M : Nat) : List Char := numberLines 1 (M * 2)

/-- The first `n` iterations of the loop in `read_input`: what is in `out` and what
of the file is still to be read. -/
def readNumbers (file : List Char) : (n : Nat) → Option (Vector Int32 n × List Char)
  | 0 => some (#v[], file)
  | n + 1 =>
      match readNumbers file n with
      | none => none
      | some (out, rest) =>
          match scanInt rest with
          | none => none
          | some (number, rest) => some (out.push (Int32.ofInt number), rest)

/-- `read_input`. -/
def readInput (M : Nat) (file : List Char) : Option (Vector Int32 (2 * M)) :=
  (readNumbers file (2 * M)).map Prod.fst

/-! ## `fork.c` -/

/-- `_exit`: the parent sees the low eight bits of the status. -/
def exitStatus (status : Int32) : UInt8 := UInt8.ofBitVec (status.toBitVec.setWidth 8)

/-- The child process `i`. -/
def child (nums : Vector Int32 (2 * M)) (i : Fin M) : UInt8 :=
  exitStatus ((nums[2 * i.val] + nums[2 * i.val + 1]) &&& 0xFF)

/-- `WEXITSTATUS`. -/
def wExitStatus (st : UInt8) : Int32 := Int32.ofNat st.toNat

/-- `main` of `fork.c`, after the input is read. -/
def forkMain (nums : Vector Int32 (2 * M)) :
    Program M Unit (Vector Int32 (2 * M) × Fin M) UInt8 Int32 where
  create _ i := ((), (nums, i))
  work _ copy := child copy.1 copy.2
  collect total st := total + wExitStatus st

/-- Every execution of `fork.c` on this file waits for all children and prints
this total. -/
def ForkPrints (M : Nat) (file : List Char) (total : Int32) : Prop :=
  ∃ nums, readInput M file = some nums ∧
    AlwaysEndsIn (Step (forkMain nums)) (fun s => s.joined = M ∧ s.total = total) (start () 0)

/-! ## `thread.c` -/

structure Task where
  a : Int32
  b : Int32

def worker (t : Task) : Int32 := t.a + t.b

/-- What the parent writes to `tasks[i]`. -/
def taskOf (nums : Vector Int32 (2 * M)) (i : Fin M) : Task :=
  ⟨nums[2 * i.val], nums[2 * i.val + 1]⟩

/-- `main` of `thread.c`, after the input is read. The memory is the array `tasks`,
and a thread is given an index of it. -/
def threadMain (nums : Vector Int32 (2 * M)) : Program M (Fin M → Task) (Fin M) Int32 Int32 where
  create tasks i := (Function.update tasks i (taskOf nums i), i)
  work tasks arg := worker (tasks arg)
  collect total res := total + res

/-- Every execution of `thread.c` on this file joins all threads and prints this
total, whatever is in the array `tasks` at first. -/
def ThreadPrints (M : Nat) (file : List Char) (total : Int32) : Prop :=
  ∃ nums, readInput M file = some nums ∧ ∀ tasks,
    AlwaysEndsIn (Step (threadMain nums)) (fun s => s.joined = M ∧ s.total = total)
      (start tasks 0)

end OsProjects.PairSums
