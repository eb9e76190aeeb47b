import OsProjects.Lib.Runs

/-!
# Tasks and the process tracer

What `_do_fork` and `copy_process` of the modified `fork.c` do to the family of tasks and
to the new field `fork_count`, starting from the task in `init_task.c`, and what
`process_tracer` of `Process_tracer.c` prints of it. A pointer to a task is its pid; an
object that is not there is a bad pointer.

The other causes for which `copy_process` fails are not modelled: the result says whether
it fails, or which pid is allocated. Nor are the end of tasks, which is not part of
`fork.c`, and `ptrace`, so `parent` and `real_parent` are the same.
-/

namespace OsProjects.ProcTree

open OsProjects.Lib.Runs

/-- The fields of `task_struct` that are read here. -/
structure Task where
  pid : Int
  comm : String
  state : Int
  groupLeader : Int
  parent : Int
  children : List Int
  nvcsw : UInt64
  nivcsw : UInt64
  forkCount : Int32
  deriving DecidableEq, Repr

/-- The tasks by pid. -/
abbrev Tasks := Int → Option Task

def taskRunning : Int := 0x0000
def taskInterruptible : Int := 0x0001
def taskUninterruptible : Int := 0x0002
def exitDead : Int := 0x0010
def exitZombie : Int := 0x0020

/-- `TASK_WAKEKILL | __TASK_STOPPED` -/
def taskStopped : Int := 0x0104

def esrch : Int := 3

/-- `init_task`, its own parent. -/
def initTask : Task where
  pid := 0
  comm := "swapper"
  state := taskRunning
  groupLeader := 0
  parent := 0
  children := []
  nvcsw := 0
  nivcsw := 0
  forkCount := 0

/-- The tasks before the first fork. -/
def boot : Tasks := fun pid => if pid = 0 then some initTask else none

/-! ## Forking -/

/-- A change to the task with this pid. -/
def modify (s : Tasks) (pid : Int) (f : Task → Task) : Tasks :=
  fun q => if q = pid then (s q).map f else s q

/-- `CLONE_PARENT` and `CLONE_THREAD`. -/
structure CloneFlags where
  parent : Bool
  thread : Bool
  deriving DecidableEq, Repr

/-- The copy of `current` that `copy_process` makes. It counts no context switches, but
still has the `fork_count` of the original. -/
def dupTask (current : Task) (flags : CloneFlags) (pid : Int) : Task :=
  { current with
    pid := pid
    state := taskRunning
    groupLeader := if flags.thread then current.groupLeader else pid
    parent := if flags.parent || flags.thread then current.parent else current.pid
    children := []
    nvcsw := 0
    nivcsw := 0 }

/-- `copy_process` with the pid that it allocates: the copy, if it leads a thread group, is
appended to the children of its parent. -/
def copyProcess (s : Tasks) (current : Task) (flags : CloneFlags) (pid : Int) : Tasks :=
  let p := dupTask current flags pid
  let s :=
    if flags.thread then s
    else modify s p.parent fun q => { q with children := q.children ++ [pid] }
  Function.update s pid (some p)

/-- `_do_fork`, with what `copy_process` comes to: an error, or the new pid. -/
def doFork (s : Tasks) (current : Task) (flags : CloneFlags) : Except Int Int → Int × Tasks
  | .error err => (-err, s)
  | .ok pid =>
      let s := copyProcess s current flags pid
      let s := modify s pid fun p => { p with forkCount := 0 }
      let s := modify s current.pid fun p => { p with forkCount := p.forkCount + 1 }
      (pid, s)

inductive Event
  /-- The task `cur` forks. -/
  | fork (cur : Int) (flags : CloneFlags) (result : Except Int Int)
  /-- The task runs: it may be renamed, switched and put to sleep. -/
  | runs (cur : Int) (comm : String) (state : Int) (nvcsw nivcsw : UInt64)

/-- The tasks along their history. There is no next state where the event cannot happen: a
task that does not exist does nothing, and the pid of a new one is positive and free. -/
def machine : Machine Tasks Event Int where
  step s
    | .fork cur flags result =>
        match s cur, result with
        | none, _ => none
        | some current, .error err => some (doFork s current flags (.error err))
        | some current, .ok pid =>
            if 0 < pid ∧ s pid = none then some (doFork s current flags (.ok pid)) else none
    | .runs cur comm state nvcsw nivcsw =>
        match s cur with
        | none => none
        | some _ =>
            some (0, modify s cur fun t =>
              { t with comm := comm, state := state, nvcsw := nvcsw, nivcsw := nivcsw })

/-! ## The tracer -/

/-- `state_to_string` -/
def stateToString (state : Int) : String :=
  if state = taskRunning then "Running or ready"
  else if state = taskInterruptible then "Wait"
  else if state = taskUninterruptible then "Wait with ignoring all signals"
  else if state = taskStopped then "Stopped"
  else if state = exitZombie then "Zombie process"
  else if state = exitDead then "DEAD"
  else "etc"

/-- What `process_tracer` prints of a task. -/
structure Report where
  pid : Int
  comm : String
  state : String
  groupLeader : Int × String
  switches : UInt64
  forks : Int32
  parent : Int × String
  siblings : List (Int × String)
  children : List (Int × String)
  deriving DecidableEq, Repr

/-- `[%d] %s` -/
def bracketed (task : Int × String) : String := "[" ++ toString task.1 ++ "] " ++ task.2

/-- One of the two lists of relatives. -/
def relatives (tasks : List (Int × String)) (kind nobody : String) : List String :=
  tasks.map (fun task => "[OSLab.]    > " ++ bracketed task ++ "\n") ++
    if tasks.length = 0 then ["[OSLab.]    > It has no " ++ nobody ++ ".\n"]
    else ["[OSLab.]    > This process has " ++ toString tasks.length ++ " " ++ kind ++ "\n"]

def Report.lines (r : Report) : List String :=
  ["[OSLab.] ##### TASK INFORMATION of ''" ++ bracketed (r.pid, r.comm) ++ "'' #####\n",
    "[OSLab.] - task state : " ++ r.state ++ "\n",
    "[OSLab.] - Process Group Leader : " ++ bracketed r.groupLeader ++ "\n",
    "[OSLab.] - # of context-switch(es) : " ++ toString r.switches ++ "\n",
    "[OSLab.] - Number of calling fork() : " ++ toString r.forks ++ "\n",
    "[OSLab.] - its parent process : " ++ bracketed r.parent ++ "\n",
    "[OSLab.] - its sibling process(es) : \n"] ++
  relatives r.siblings "sibling process(es)" "sibling" ++
  ["[OSLab.] - its child process(es) : \n"] ++
  relatives r.children "child process(es)" "child" ++
  ["[OSLab.] ##### END OF INFORMATION #####\n"]

/-- The pid and the name that a pointer leads to. -/
def named (s : Tasks) (pid : Int) : Option (Int × String) :=
  (s pid).map fun t => (t.pid, t.comm)

/-- What is printed of a task, by following its pointers. The head line has the pid that
was asked for. -/
def taskReport (s : Tasks) (traceTask : Int) (task : Task) : Option Report := do
  let groupLeader ← named s task.groupLeader
  let parent ← s task.parent
  let siblings ← parent.children.mapM (named s)
  let children ← task.children.mapM (named s)
  return {
    pid := traceTask
    comm := task.comm
    state := stateToString task.state
    groupLeader := groupLeader
    switches := task.nvcsw + task.nivcsw
    forks := task.forkCount
    parent := (parent.pid, parent.comm)
    siblings := siblings.filter fun sibling => sibling.1 ≠ task.pid
    children := children }

/-- `pid_task(find_vpid(pid), PIDTYPE_PID)`; the first task has no entry in the table of
pids. -/
def pidTask (s : Tasks) (pid : Int) : Option Task := if pid = 0 then none else s pid

/-- `process_tracer`: the return value and the lines printed. -/
def processTracer (s : Tasks) (traceTask : Int) : Option (Int × List String) :=
  match pidTask s traceTask with
  | none => some (-esrch, [])
  | some task => (taskReport s traceTask task).map fun report => (traceTask, report.lines)

end OsProjects.ProcTree
