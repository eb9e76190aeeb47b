import Mathlib.Data.List.FinRange
import Mathlib.Data.List.Sort
import Mathlib.Logic.Function.Basic
import Mathlib.Tactic
import OsProjects.Lib.Loops

/-!
# The CPU scheduling simulator

`cpu_scheduler.c`: the process table, the Gantt segments and their chart, the
statistics and Round Robin. The process table `P[0..N-1]` is a function on
`Fin N`, and a loop `for (i = 0; i < N; i++)` runs over `List.finRange N`. The
array of the segments is in `Sched.Segments`, and `main` in `Sched.Main`.

Two things are assumed.

* **The clock is exact.** Times are integers that count tenths of a millisecond,
  so the tolerance `1e-9` of the comparisons is not needed; `arrival` and `burst`
  stay in milliseconds, as in the source. The source has `double`s, which are
  rounded. All results but those on the queue's array rest on this; for these
  `Sched.Clock` has the loop of `simulate_RR` on any clock.
* **The queue has no end.** The array of the source has room for `MAX_TASKS`
  pushes in a run, and behind the first push that leaves it the source does not
  do what the model does. What `Completion`, `Tiling`, `Fairness`, `LargeQuantum`
  and `Gantt` say of Round Robin rests on this; `QueueBounds` says when the pushes
  stay inside, which `Switches` and `Main` have as a condition.
-/

namespace OsProjects.Sched

open OsProjects.Lib.Loops

/-- Milliseconds in tenths. -/
def ms (n : Int) : Int := 10 * n

/-- `CS_OVERHEAD`, 0.1 ms. -/
def csOverhead : Int := 1

/-- `PID_IDLE` -/
def pidIdle : Int := -1

/-- `PID_CS` -/
def pidCs : Int := -2

structure Proc where
  pid : Int
  arrival : Int
  burst : Int
  remain : Int
  firstStart : Int
  finish : Int
  started : Bool
  done : Bool
  deriving Repr, DecidableEq

/-- One line of the input file: a task as `main` reads it. -/
structure Task where
  pid : Int
  arrival : Int
  burst : Int
  deriving Repr, DecidableEq

/-- The entry `main` makes for a task. -/
def Task.load (t : Task) : Proc where
  pid := t.pid
  arrival := t.arrival
  burst := t.burst
  remain := ms t.burst
  firstStart := 0
  finish := 0
  started := false
  done := false

/-- `cmp_arrival` -/
def cmpArrival (x y : Task) : Int :=
  if x.arrival ≠ y.arrival then x.arrival - y.arrival else x.pid - y.pid

/-- The tasks in the order of the process table, after `qsort` in `main`. -/
def sortTasks (tasks : List Task) : List Task :=
  tasks.insertionSort fun x y => cmpArrival x y ≤ 0

/-- `Segment`; `stop` is the field `end`. -/
structure Segment where
  start : Int
  stop : Int
  pid : Int
  deriving Repr, DecidableEq

/-- `add_seg`. -/
def addSeg (segs : List Segment) (start stop pid : Int) : List Segment :=
  if stop ≤ start then segs
  else
    match segs.getLast? with
    | some last =>
        if last.stop = start ∧ last.pid = pid then segs.dropLast ++ [{ last with stop := stop }]
        else segs ++ [⟨start, stop, pid⟩]
    | none => segs ++ [⟨start, stop, pid⟩]

section Table

variable {N : Nat} (P : Fin N → Proc)

/-- `all_done`. -/
def allDone : Bool := (List.finRange N).all fun i => (P i).done

/-- One iteration of the loop of `next_arrival_after`. -/
def earlierArrival (now : Int) (found : Option (Fin N)) (i : Fin N) : Option (Fin N) :=
  if (P i).done = false ∧ ms (P i).arrival > now then
    match found with
    | none => some i
    | some j => if (P i).arrival < (P j).arrival then some i else some j
  else found

/-- `next_arrival_after`; `none` is `-1`. -/
def nextArrivalAfter (now : Int) : Option (Fin N) :=
  (List.finRange N).foldl (earlierArrival P now) none

end Table

/-! ## The chart -/

/-- `ceil(t - 1e-9)` for a time in tenths: the first whole millisecond that is not
before it. -/
def ceilMs (t : Int) : Int := (t + 9) / 10

/-- `INT_MAX` -/
def intMax : Int := 2 ^ 31 - 1

/-- The conversion of a whole `double` to an `int`, which is undefined outside its
range. -/
def toInt (n : Int) : Option Int := if -intMax - 1 ≤ n ∧ n ≤ intMax then some n else none

/-- The `pid` of the cell at `t` ms: that of the first segment around it, and
`PID_IDLE` if there is none. -/
def ganttPid (segs : List Segment) (t : Nat) : Int :=
  match segs.find? fun seg => seg.start ≤ ms t && seg.stop > ms t with
  | some seg => seg.pid
  | none => pidIdle

/-- The cells that `print_gantt` prints, if `(int)ceil(makespan-1e-9)` is defined; it
skips those in a context switch. -/
def ganttCells (segs : List Segment) (makespan : Int) : Option (List Int) :=
  (toInt (ceilMs makespan)).map fun bound =>
    ((List.range bound.toNat).map (ganttPid segs)).filter fun pid => pid ≠ pidCs

/-- `print_gantt` -/
def printGantt (segs : List Segment) (makespan : Int) : Option String :=
  (ganttCells segs makespan).map fun cells =>
    "Gantt Chart:\n|" ++ String.join (cells.map fun pid => " P" ++ toString pid ++ " |") ++ "\n"

/-! ## Statistics -/

/-- What `print_stats` prints: averages in milliseconds, and a percentage. -/
structure Stats where
  avgW : ℚ
  avgT : ℚ
  avgR : ℚ
  util : ℚ
  deriving Repr, DecidableEq

section Statistics

variable {N : Nat} (P : Fin N → Proc)

/-- The sum of a time over the tasks, in milliseconds. -/
def sumTime (time : Proc → Int) : ℚ := ((List.finRange N).map fun i => time (P i)).sum / 10

/-- `finish_max`, in tenths of a millisecond. -/
def finishMax : Int :=
  (List.finRange N).foldl (fun m i => if (P i).finish > m then (P i).finish else m) 0

/-- `print_stats` -/
def printStats : Stats where
  avgW := sumTime P (fun p => p.finish - ms p.arrival - ms p.burst) / N
  avgT := sumTime P (fun p => p.finish - ms p.arrival) / N
  avgR := sumTime P (fun p => p.firstStart - ms p.arrival) / N
  util :=
    if finishMax P > 0 then sumTime P (fun p => ms p.burst) / (finishMax P / 10) * 100 else 0

end Statistics

/-! ## Round Robin -/

/-- The queue: the array up to the rear index, which is its length, and the
front index. It has no end. -/
structure Queue (N : Nat) where
  q : List (Fin N)
  f : Nat
  front_le : f ≤ q.length
  deriving Repr, DecidableEq

namespace Queue

variable {N : Nat}

/-- `q_init` -/
def init : Queue N := ⟨[], 0, Nat.le_refl 0⟩

/-- `q_push` -/
def push (Q : Queue N) (x : Fin N) : Queue N where
  q := Q.q ++ [x]
  f := Q.f
  front_le := by
    have hle := Q.front_le
    rw [List.length_append]
    omega

/-- `q_pop`; `none` when the queue is empty. -/
def pop (Q : Queue N) : Option (Fin N × Queue N) :=
  if h : Q.f < Q.q.length then some (Q.q[Q.f], ⟨Q.q, Q.f + 1, h⟩) else none

/-- Pushing, in index order, all tasks that satisfy a condition. -/
def pushWhere (Q : Queue N) (cond : Fin N → Bool) : Queue N :=
  (List.finRange N).foldl (fun Q i => if cond i then Q.push i else Q) Q

end Queue

/-- `enqueue_arrivals`: the unfinished tasks that arrive in `(start, stop]`. -/
def enqueueArrivals {N : Nat} (P : Fin N → Proc) (Q : Queue N) (start stop : Int) : Queue N :=
  Q.pushWhere fun i => !(P i).done && start < ms (P i).arrival && ms (P i).arrival ≤ stop

/-- The locals of `simulate_RR`, the process table and the segments. -/
structure RRState (N : Nat) where
  now : Int
  Q : Queue N
  prev : Int
  P : Fin N → Proc
  segs : List Segment

section RoundRobin

variable {N : Nat} (tq : Int)

/-- A switch is charged when another task ran last. -/
def RRState.switches (s : RRState N) (k : Fin N) : Bool :=
  s.prev != (s.P k).pid && s.prev != pidIdle

/-- Step 5: the time after the switch to `k`. -/
def RRState.afterSwitch (s : RRState N) (k : Fin N) : Int :=
  if s.switches k then s.now + csOverhead else s.now

/-- Step 5: the segments after the switch to `k`. -/
def RRState.switchSegs (s : RRState N) (k : Fin N) : List Segment :=
  if s.switches k then addSeg s.segs s.now (s.now + csOverhead) pidCs else s.segs

/-- Step 6: the first execution is recorded. -/
def Proc.start (p : Proc) (now : Int) : Proc :=
  if p.started then p else { p with firstStart := now, started := true }

/-- Steps 7 and 8: the task has run for `runFor`, until `endTime`. -/
def Proc.ran (p : Proc) (runFor endTime : Int) : Proc :=
  if p.remain - runFor ≤ 0 then { p with remain := 0, done := true, finish := endTime }
  else { p with remain := p.remain - runFor }

/-- What the popped task `k` is given of the CPU. -/
def RRState.runFor (s : RRState N) (k : Fin N) : Int := min (ms tq) (s.P k).remain

/-- Steps 5 to 8 of the loop: the popped task `k` runs for a quantum. -/
def RRState.dispatch (s : RRState N) (k : Fin N) : RRState N :=
  let now := s.afterSwitch k
  let endTime := now + s.runFor tq k
  let Q := enqueueArrivals s.P s.Q now endTime
  { now := endTime
    Q := if (s.P k).remain - s.runFor tq k ≤ 0 then Q else Q.push k
    prev := (s.P k).pid
    P := Function.update s.P k (((s.P k).start now).ran (s.runFor tq k) endTime)
    segs := addSeg (s.switchSegs k) now endTime (s.P k).pid }

/-- The queue is empty: idle until the task `j` arrives. -/
def RRState.refill (s : RRState N) (j : Fin N) : RRState N :=
  let now := ms (s.P j).arrival
  { s with
    now
    segs := addSeg s.segs s.now now pidIdle
    prev := pidIdle
    Q := s.Q.pushWhere fun i => !(s.P i).done && ms (s.P i).arrival ≤ now }

/-- One iteration of `while (!all_done())`; `none` leaves the loop. -/
def rrBody (s : RRState N) : Option (RRState N) :=
  if allDone s.P then none
  else
    match s.Q.pop with
    | none => (nextArrivalAfter s.P s.now).map s.refill
    | some (k, Q) =>
        if (s.P k).done then some { s with Q }
        else some (RRState.dispatch tq { s with Q } k)

/-- Step 1: the time of the first arrival. -/
def rrStart (P : Fin N → Proc) : Int :=
  match nextArrivalAfter P (ms (-1)) with
  | some nx => if (P nx).arrival > 0 then ms (P nx).arrival else 0
  | none => 0

/-- `simulate_RR` before its loop. -/
def rrInit (P : Fin N → Proc) : RRState N where
  now := rrStart P
  Q := Queue.init.pushWhere fun i => ms (P i).arrival ≤ rrStart P
  prev := pidIdle
  P := P
  segs := addSeg [] 0 (rrStart P) pidIdle

/-- `simulate_RR`: the state in which the loop is left, if it takes less than
`fuel` iterations. -/
def simulateRR (fuel : Nat) (P : Fin N → Proc) : Option (RRState N) :=
  loop (rrBody tq) fuel (rrInit P)

end RoundRobin

end OsProjects.Sched
