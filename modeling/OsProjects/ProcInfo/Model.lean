import Mathlib.Data.List.Basic
import Mathlib.Tactic

/-!
# The process table in `/proc`

`proc_info.c` creates the file `processInfo`. Reading it gives a table with a row
for every process, or for the one process whose pid has been written to it.

The handlers share three globals. One of them, `oslab_is_processed`, stands in
for the position in the file, which the handlers ignore: a read returns the start
of the table if the flag is clear and nothing if it is set.

A character is a byte. `copy_to_user` and `kzalloc` may fail; what the list of
processes looks like during the read is an argument.
-/

namespace OsProjects.ProcInfo

/-- What `append_info` reads from a `task_struct`. -/
structure TaskStruct where
  pid : Int32
  /-- The pid of `real_parent`; `none` if that is `NULL`. -/
  parent : Option Int32
  uid : UInt32
  gid : UInt32
  /-- The times of `task_cputime`, in jiffies. -/
  utimeTicks : UInt64
  stimeTicks : UInt64
  /-- `task_state_to_char`. -/
  state : Char
  comm : List Char
  deriving DecidableEq, Repr

/-! ## Formatting -/

/-- `%-ns`: filled up with blanks on the right. -/
def padRight (n : Nat) (text : List Char) : List Char :=
  text ++ List.replicate (n - text.length) ' '

/-- `%lu`. -/
def decimal (n : Nat) : List Char := Nat.toDigits 10 n

/-- `%d`. -/
def signedDecimal (i : Int32) : List Char :=
  if i < 0 then "-".toList ++ decimal i.toInt.natAbs else decimal i.toInt.natAbs

/-- The columns of a line, separated by blanks. -/
def line (columns : List (List Char)) : List Char :=
  List.intercalate " ".toList columns ++ "\n".toList

def stateStr (state : Char) : String :=
  match state with
  | 'R' => "(running)"
  | 'S' => "(sleeping)"
  | 'D' => "(disk sleep)"
  | 'T' => "(stopped)"
  | 't' => "(tracing stop)"
  | 'X' => "(dead)"
  | 'Z' => "(zombie)"
  | 'P' => "(parked)"
  | 'I' => "(idle)"
  | _ => ""

/-- The row of a process. The ids of user and group are unsigned and printed
with `%d`. -/
def row (p : TaskStruct) : List Char :=
  line [padRight 7 (signedDecimal p.pid), padRight 7 (signedDecimal (p.parent.getD 0)),
    padRight 7 (signedDecimal p.uid.toInt32), padRight 7 (signedDecimal p.gid.toInt32),
    padRight 10 (decimal p.utimeTicks.toNat), padRight 10 (decimal p.stimeTicks.toNat),
    padRight 1 [p.state], padRight 15 (stateStr p.state).toList, p.comm]

def header : List Char :=
  line [padRight 7 "Pid".toList, padRight 7 "PPid".toList, padRight 7 "Uid".toList,
    padRight 7 "Gid".toList, padRight 10 "utime".toList, padRight 10 "stime".toList,
    padRight 17 "State".toList, "Name".toList]

def ruler : List Char := List.replicate 93 '-' ++ "\n".toList

/-! ## The kernel buffer -/

def bufSize : Nat := 4096 * 50

/-- The first `offset` bytes of `buf`; there is always room for a NUL. -/
structure Buffer where
  text : List Char
  fits : text.length < bufSize

def Buffer.empty : Buffer := ⟨[], by decide⟩

/-- `offset += scnprintf(buf + offset, buf_size - offset, ...)`: what does not fit
before the NUL is cut. -/
def Buffer.scnprintf (buf : Buffer) (text : List Char) : Buffer where
  text := buf.text ++ text.take (bufSize - buf.text.length - 1)
  fits := by
    have hfits := buf.fits
    rw [List.length_append, List.length_take]
    omega

/-- `append_info`. -/
def appendInfo (buf : Buffer) (p : TaskStruct) : Buffer := buf.scnprintf (row p)

/-- The loop over all processes, which is left 200 bytes before the end. -/
def appendAll : Buffer → List TaskStruct → Buffer
  | buf, [] => buf
  | buf, p :: tasks =>
      let buf := appendInfo buf p
      if buf.text.length ≥ bufSize - 200 then buf else appendAll buf tasks

/-- The loop that looks for one process. -/
def appendFiltered (filterPid : Int32) (buf : Buffer) (tasks : List TaskStruct) : Buffer :=
  match tasks.find? fun p => p.pid = filterPid with
  | some p => appendInfo buf p
  | none => buf

/-! ## The handlers -/

/-- The globals. -/
structure State where
  oslabIsProcessed : Bool
  filterPid : Int32
  writeFlag : Bool
  deriving DecidableEq, Repr

/-- The globals as the loader leaves them. -/
def loaded : State := ⟨false, -1, false⟩

inductive Errno
  | enomem | efault
  deriving DecidableEq, Repr

def oslabOpen (s : State) : State := { s with oslabIsProcessed := false }

/-- The table that `oslab_read` builds. -/
def buildTable (tasks : List TaskStruct) (s : State) : Buffer :=
  let buf := (Buffer.empty.scnprintf header).scnprintf ruler
  if s.writeFlag = false ∨ s.filterPid = -1 then appendAll buf tasks
  else appendFiltered s.filterPid buf tasks

/-- `oslab_read`: the bytes copied to the user, whose number is the return value,
or an error. `kzalloc` and `copyToUser` say whether those calls succeed. -/
def oslabRead (kzalloc copyToUser : Bool) (tasks : List TaskStruct) (len : Nat) (s : State) :
    Except Errno (List Char) × State :=
  if s.oslabIsProcessed then (.ok [], s)
  else if !kzalloc then (.error .enomem, s)
  else if !copyToUser then (.error .efault, s)
  else (.ok ((buildTable tasks s).text.take len), { s with oslabIsProcessed := true })

end OsProjects.ProcInfo
