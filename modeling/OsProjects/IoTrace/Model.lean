import Mathlib.Data.List.Basic
import Mathlib.Tactic

/-!
# The I/O tracer

`iotracehooking.c` and `my_ftrace` of `ftracehooking.c`. The tracer replaces five
entries of the system-call table by its hooks and keeps the replaced pointers in
`real_openat` .. `real_close`; each hook counts the call and passes it on through
its saved pointer.

`kallsyms_lookup_name` is taken to return the table, and the page-permission
helpers to succeed. Table entry 336, through which `my_ftrace` itself is called,
is in `Hooks.Modules`.
-/

namespace OsProjects.IoTrace

/-- The five calls that are hooked. -/
inductive Syscall
  | openat | read | write | lseek | close
  deriving DecidableEq, Repr

/-- What a table entry or a saved pointer can point to: the kernel's handler of
a call, or the hook `ftrace_*` for it. -/
inductive Handler
  | kernel (c : Syscall)
  | ftrace (c : Syscall)
  deriving DecidableEq, Repr

/-- The registers the hooks read. -/
structure PtRegs where
  /-- The string at `regs->si`; `none` if it cannot be read. -/
  si : Option (List UInt8)
  dx : UInt64
  deriving DecidableEq, Repr

structure IoTraceStats where
  openCount : Int32
  closeCount : Int32
  readCount : Int32
  writeCount : Int32
  lseekCount : Int32
  readBytes : UInt64
  writeBytes : UInt64
  /-- `filename` up to its first NUL. -/
  filename : List UInt8
  deriving DecidableEq, Repr

/-- `memset(&stats, 0, sizeof(stats))`. -/
def IoTraceStats.zero : IoTraceStats := ⟨0, 0, 0, 0, 0, 0, 0, []⟩

/-- The globals of the two modules, and the five entries of the table. -/
structure State where
  tracedPid : Int
  stats : IoTraceStats
  /-- `syscall_table` is not `NULL`. -/
  syscallTable : Bool
  /-- `real_openat` .. `real_close`; `none` is `NULL`. -/
  real : Syscall → Option Handler
  table : Syscall → Handler

/-- The process that executes the current system call. -/
structure Task where
  pid : Int
  comm : String
  deriving DecidableEq, Repr

/-- The lines the tracer prints to the kernel log. -/
inductive Printk
  | moduleLoaded
  | moduleUnloaded
  | tracingStart (pid : Int)
  | bytes (comm : String) (filename : List UInt8) (readBytes writeBytes : UInt64)
  | counts (opens closes reads writes lseeks : Int32)
  | traceEnd (pid : Int)
  deriving DecidableEq, Repr

/-! ## The hooks -/

/-- What `ftrace_openat` records: the call, and the name of the first file. -/
def ftraceOpenat (regs : PtRegs) (stats : IoTraceStats) : IoTraceStats :=
  let stats := { stats with openCount := stats.openCount + 1 }
  match stats.filename, regs.si with
  | [], some name => { stats with filename := (name.takeWhile (· ≠ 0)).take 255 }
  | _, _ => stats

/-- What `ftrace_read` records: the call and the bytes asked for. -/
def ftraceRead (regs : PtRegs) (stats : IoTraceStats) : IoTraceStats :=
  { stats with readCount := stats.readCount + 1, readBytes := stats.readBytes + regs.dx }

def ftraceWrite (regs : PtRegs) (stats : IoTraceStats) : IoTraceStats :=
  { stats with writeCount := stats.writeCount + 1, writeBytes := stats.writeBytes + regs.dx }

def ftraceLseek (_ : PtRegs) (stats : IoTraceStats) : IoTraceStats :=
  { stats with lseekCount := stats.lseekCount + 1 }

def ftraceClose (_ : PtRegs) (stats : IoTraceStats) : IoTraceStats :=
  { stats with closeCount := stats.closeCount + 1 }

/-- The hook of a call, before it passes the call on. -/
def ftrace : Syscall → PtRegs → IoTraceStats → IoTraceStats
  | .openat => ftraceOpenat
  | .read => ftraceRead
  | .write => ftraceWrite
  | .lseek => ftraceLseek
  | .close => ftraceClose

def enoent : Int := 2

section Calls

-- `kern`: the kernel's handlers, on the rest `κ` of the kernel's state
variable {κ : Type} (kern : Syscall → PtRegs → κ → Int × κ)

/-- Calling through a function pointer. Every hook takes one more frame of the
kernel stack, of which there are `depth`; `none` is a stack overflow. -/
def call : (depth : Nat) → Handler → PtRegs → State × κ → Option (Int × State × κ)
  | 0, _, _, _ => none
  | _ + 1, .kernel c, regs, (s, k) => some ((kern c regs k).1, s, (kern c regs k).2)
  | depth + 1, .ftrace c, regs, (s, k) =>
      let s := { s with stats := ftrace c regs s.stats }
      match s.real c with
      | some h => call depth h regs (s, k)
      | none => some (-enoent, s, k)

/-- A process makes the system call `c`. -/
def syscall (depth : Nat) (c : Syscall) (regs : PtRegs) (s : State × κ) :
    Option (Int × State × κ) :=
  call kern depth (s.1.table c) regs s

end Calls

/-! ## Trace control -/

/-- `start_io_trace`. -/
def startIoTrace (pid : Int) (s : State) : List Printk × State :=
  ([.tracingStart pid],
    { s with
      tracedPid := pid
      syscallTable := true
      real := fun c => some (s.table c)
      table := .ftrace })

/-- `stop_io_trace`, called by the process `current`. -/
def stopIoTrace (current : Task) (s : State) : List Printk × State :=
  if s.syscallTable = false then ([], s)
  else
    ([.bytes current.comm s.stats.filename s.stats.readBytes s.stats.writeBytes,
      .counts s.stats.openCount s.stats.closeCount s.stats.readCount s.stats.writeCount
        s.stats.lseekCount,
      .traceEnd current.pid],
      { s with table := fun c => (s.real c).getD (s.table c) })

/-- `my_ftrace`: the return value, what is printed, and the new state. -/
def myFtrace (current : Task) (pid : Int) (s : State) : Int × List Printk × State :=
  if s.tracedPid ≠ 0 ∧ pid = s.tracedPid then
    let (log, s) := stopIoTrace current s
    (0, log, { s with tracedPid := 0 })
  else if pid > 0 then
    let (log, s) := startIoTrace pid s
    (0, log, s)
  else (0, [], s)

/-- `iotrace_init`. -/
def iotraceInit (s : State) : Int × List Printk × State :=
  (0, [.moduleLoaded], { s with stats := .zero })

/-- `iotrace_exit`. -/
def iotraceExit (current : Task) (s : State) : List Printk × State :=
  let (log, s) := stopIoTrace current s
  (log ++ [.moduleUnloaded], s)

/-- The globals as the loader leaves them, with the kernel's handlers in the
table. -/
def loaded : State where
  tracedPid := 0
  stats := .zero
  syscallTable := false
  real := fun _ => none
  table := .kernel

end OsProjects.IoTrace
