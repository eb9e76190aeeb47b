import OsProjects.Lib.Decimal
import OsProjects.Lib.Runs
import OsProjects.ProcInfo.Rows

/-!
# The process table as a device

Any number of clients open the file, read it and write a pid to it, and each call may
fail for lack of memory or at a bad address. What a read answers is decided by two
calls of the past, the last open or read and the last write; what is left allocated is
a buffer for each read that fails at its copy (`device_history`).

`buf` in `oslab_write` has 32 bytes. A write of more, or of 32 with the NUL that
follows, goes beyond it: there the device has no next state.
-/

namespace OsProjects.ProcInfo

open OsProjects.Lib.Decimal OsProjects.Lib.Runs

/-! ## Writing a pid -/

/-- `_kstrtoull(s, 10, _)`: digits, with a newline behind them or not. -/
def kstrtoull (text : List Char) : Option Nat :=
  match scanNat text with
  | some (n, rest) => if (rest = [] ∨ rest = ['\n']) ∧ n < 2 ^ 64 then some n else none
  | none => none

/-- `kstrtoll(s, 10, _)`. -/
def kstrtoll : (text : List Char) → Option Int
  | '-' :: digits => (kstrtoull digits).bind fun n => if n ≤ 2 ^ 63 then some (-n) else none
  | '+' :: digits => (kstrtoull digits).bind fun n => if n < 2 ^ 63 then some n else none
  | digits => (kstrtoull digits).bind fun n => if n < 2 ^ 63 then some n else none

/-- `kstrtoint(s, 10, _)`; `none` where it returns an error. -/
def kstrtoint (text : List Char) : Option Int32 :=
  (kstrtoll text).bind fun v =>
    if -2 ^ 31 ≤ v ∧ v < 2 ^ 31 then some (Int32.ofInt v) else none

/-- The string in `buf`. -/
def cText (data : List Char) : List Char := data.takeWhile (· ≠ '\x00')

/-- `sizeof(buf)` in `oslab_write`. -/
def pidBufSize : Nat := 32

/-- The stores of `oslab_write` are within `buf`. -/
def WriteFits (copyFromUser : Bool) (data : List Char) : Prop :=
  data.length < pidBufSize ∨ data.length = pidBufSize ∧ copyFromUser = false

instance (copyFromUser : Bool) (data : List Char) : Decidable (WriteFits copyFromUser data) :=
  inferInstanceAs (Decidable (_ ∨ _))

/-- `oslab_write`: the return value or an error, and the globals. -/
def oslabWrite (copyFromUser : Bool) (data : List Char) (s : State) :
    Option (Except Errno Nat × State) :=
  if ¬ WriteFits copyFromUser data then none
  else if !copyFromUser then some (.error .efault, s)
  else
    some (.ok data.length,
      { s with filterPid := (kstrtoint (cText data)).getD (-1), writeFlag := true })

/-! ## The device -/

/-- A call of some client, with what the kernel does on its behalf: whether the
allocation and the copies succeed, and the list of processes. -/
inductive DeviceCall
  | oslabOpen
  | oslabRead (kzalloc copyToUser : Bool) (tasks : List TaskStruct) (len : Nat)
  | oslabWrite (copyFromUser : Bool) (data : List Char)

/-- What a call returns, and the bytes a read copies. -/
inductive Answer
  | opened
  | copied (text : List Char)
  | written (len : Nat)
  | failed (errno : Errno)
  deriving DecidableEq, Repr

/-- The globals, and how many buffers are allocated. -/
structure Device where
  globals : State
  buffers : Nat
  deriving DecidableEq, Repr

def Device.loaded : Device := ⟨ProcInfo.loaded, 0⟩

/-- The buffers that a call of `oslab_read` allocates and does not free: where
`copy_to_user` fails, `kfree` is not reached. -/
def lostBuffers (kzalloc copyToUser : Bool) (s : State) : Nat :=
  if s.oslabIsProcessed then 0 else if !kzalloc then 0 else if !copyToUser then 1 else 0

def deviceMachine : Machine Device DeviceCall Answer where
  step d call :=
    match call with
    | .oslabOpen => some (.opened, { d with globals := ProcInfo.oslabOpen d.globals })
    | .oslabRead kzalloc copyToUser tasks len =>
        let r := ProcInfo.oslabRead kzalloc copyToUser tasks len d.globals
        some (match r.1 with
          | .ok text => .copied text
          | .error e => .failed e,
          ⟨r.2, d.buffers + lostBuffers kzalloc copyToUser d.globals⟩)
    | .oslabWrite copyFromUser data =>
        (ProcInfo.oslabWrite copyFromUser data d.globals).map fun r =>
          (match r.1 with
            | .ok len => .written len
            | .error e => .failed e,
            { d with globals := r.2 })

/-! ## The history of the calls -/

/-- The process a text asks for; `none` is all of them. -/
def requested (data : List Char) : Option Int32 :=
  match kstrtoint (cText data) with
  | some pid => if pid = -1 then none else some pid
  | none => none

/-- What a call does to the filter. -/
def DeviceCall.setsFilter : DeviceCall → Option (Option Int32)
  | .oslabWrite true data => some (requested data)
  | _ => none

/-- What a call does to the end of the file. -/
def DeviceCall.setsEnd : DeviceCall → Option Bool
  | .oslabOpen => some false
  | .oslabRead true true _ _ => some true
  | _ => none

def DeviceCall.Fits : DeviceCall → Prop
  | .oslabWrite copyFromUser data => WriteFits copyFromUser data
  | _ => True

/-- The process that the last write asks for. -/
def filterAfter (calls : List DeviceCall) : Option Int32 :=
  (calls.filterMap DeviceCall.setsFilter).getLast?.join

/-- The last call that opens the file or reads it through has been a read. -/
def endedAfter (calls : List DeviceCall) : Bool :=
  (calls.filterMap DeviceCall.setsEnd).getLast?.getD false

/-- The table for a filter. -/
def tableFor (tasks : List TaskStruct) (filter : Option Int32) : List Char :=
  let buf := (Buffer.empty.scnprintf header).scnprintf ruler
  match filter with
  | none => (appendAll buf tasks).text
  | some pid => (appendFiltered pid buf tasks).text

/-- The read fails at its copy. -/
def LosesBuffer : DeviceCall × Answer → Bool
  | (.oslabRead _ _ _ _, .failed .efault) => true
  | _ => false

/-! ## One call -/

/-- The filter in the globals. -/
def State.filter (s : State) : Option Int32 :=
  if s.writeFlag = false ∨ s.filterPid = -1 then none else some s.filterPid

variable {d d' : Device} {call : DeviceCall} {calls : List DeviceCall} {o : Answer}
  {outs : List Answer}

theorem buildTable_text (tasks : List TaskStruct) (s : State) :
    (buildTable tasks s).text = tableFor tasks s.filter := by
  unfold buildTable State.filter
  by_cases hall : s.writeFlag = false ∨ s.filterPid = -1
  · simp only [if_pos hall]
    rfl
  · simp only [if_neg hall]
    rfl

theorem requested_eq (data : List Char) (s : State) :
    State.filter { s with filterPid := (kstrtoint (cText data)).getD (-1), writeFlag := true } =
      requested data := by
  unfold State.filter requested
  cases kstrtoint (cText data) with
  | none => rfl
  | some pid => simp

/-- The globals are what the calls so far have made them. -/
structure History (calls : List DeviceCall) (d : Device) : Prop where
  ended : d.globals.oslabIsProcessed = endedAfter calls
  filter : d.globals.filter = filterAfter calls

theorem History.loaded : History [] .loaded := ⟨rfl, rfl⟩

theorem endedAfter_concat (calls : List DeviceCall) (call : DeviceCall) :
    endedAfter (calls ++ [call]) = call.setsEnd.getD (endedAfter calls) := by
  unfold endedAfter
  cases hcall : call.setsEnd with
  | none => simp [List.filterMap_append, hcall]
  | some b => simp [List.filterMap_append, hcall]

theorem filterAfter_concat (calls : List DeviceCall) (call : DeviceCall) :
    filterAfter (calls ++ [call]) = call.setsFilter.getD (filterAfter calls) := by
  unfold filterAfter
  cases hcall : call.setsFilter with
  | none => simp [List.filterMap_append, hcall]
  | some filter => simp [List.filterMap_append, hcall]

theorem History.concat (h : History calls d)
    (hended : d'.globals.oslabIsProcessed = call.setsEnd.getD d.globals.oslabIsProcessed)
    (hfilter : d'.globals.filter = call.setsFilter.getD d.globals.filter) :
    History (calls ++ [call]) d' where
  ended := by rw [endedAfter_concat, hended, h.ended]
  filter := by rw [filterAfter_concat, hfilter, h.filter]

theorem device_read (d : Device) (kzalloc copyToUser : Bool) (tasks : List TaskStruct)
    (len : Nat) :
    deviceMachine.step d (.oslabRead kzalloc copyToUser tasks len) = some (
      if d.globals.oslabIsProcessed then (.copied [], d)
      else if !kzalloc then (.failed .enomem, d)
      else if !copyToUser then (.failed .efault, ⟨d.globals, d.buffers + 1⟩)
      else (.copied ((tableFor tasks d.globals.filter).take len),
        ⟨{ d.globals with oslabIsProcessed := true }, d.buffers⟩)) := by
  rw [← buildTable_text]
  unfold deviceMachine ProcInfo.oslabRead lostBuffers
  dsimp only
  split_ifs <;> rfl

theorem device_write {data : List Char} (d : Device) (hfits : WriteFits true data) :
    deviceMachine.step d (.oslabWrite true data) =
      some (.written data.length,
        ⟨{ d.globals with
            filterPid := (kstrtoint (cText data)).getD (-1)
            writeFlag := true }, d.buffers⟩) := by
  show (ProcInfo.oslabWrite true data d.globals).map _ = _
  rw [ProcInfo.oslabWrite, if_neg (not_not.mpr hfits)]
  rfl

theorem device_write_failed {data : List Char} (d : Device) (hfits : WriteFits false data) :
    deviceMachine.step d (.oslabWrite false data) = some (.failed .efault, d) := by
  show (ProcInfo.oslabWrite false data d.globals).map _ = _
  rw [ProcInfo.oslabWrite, if_neg (not_not.mpr hfits)]
  rfl

/-- A call keeps to the history, and loses a buffer exactly if it is a read that fails
at its copy. -/
theorem History.step (h : History calls d) (hfits : call.Fits) :
    ∃ o d', deviceMachine.step d call = some (o, d') ∧ History (calls ++ [call]) d' ∧
      d'.buffers = d.buffers + (LosesBuffer (call, o)).toNat := by
  cases call with
  | oslabOpen => exact ⟨_, _, rfl, h.concat rfl rfl, rfl⟩
  | oslabRead kzalloc copyToUser tasks len =>
      refine ⟨_, _, device_read d kzalloc copyToUser tasks len, ?_⟩
      cases hflag : d.globals.oslabIsProcessed with
      | true =>
          refine ⟨h.concat ?_ rfl, rfl⟩
          show d.globals.oslabIsProcessed = _
          rw [hflag]
          cases kzalloc <;> cases copyToUser <;> rfl
      | false =>
          cases kzalloc with
          | false => exact ⟨h.concat rfl rfl, rfl⟩
          | true =>
              cases copyToUser with
              | false => exact ⟨h.concat rfl rfl, rfl⟩
              | true => exact ⟨h.concat rfl rfl, rfl⟩
  | oslabWrite copyFromUser data =>
      cases copyFromUser with
      | false => exact ⟨_, _, device_write_failed d hfits, h.concat rfl rfl, rfl⟩
      | true =>
          exact ⟨_, _, device_write d hfits, h.concat rfl (requested_eq data d.globals), rfl⟩

theorem fits_of_step {r : Answer × Device} (hstep : deviceMachine.step d call = some r) :
    call.Fits := by
  cases call with
  | oslabOpen => trivial
  | oslabRead kzalloc copyToUser tasks len => trivial
  | oslabWrite copyFromUser data =>
      obtain ⟨r', hwrite, -⟩ := Option.map_eq_some_iff.mp hstep
      unfold ProcInfo.oslabWrite at hwrite
      split_ifs at hwrite with hfits
      · exact hfits
      · exact hfits

/-! ## Whole runs -/

theorem History.run {past : List DeviceCall} (h : History past d)
    (hfits : ∀ call ∈ calls, call.Fits) :
    ∃ outs d', deviceMachine.run d calls = some (outs, d') ∧ History (past ++ calls) d' ∧
      d'.buffers = d.buffers + (calls.zip outs).countP LosesBuffer := by
  induction calls generalizing past d with
  | nil => exact ⟨[], d, rfl, by rwa [List.append_nil], rfl⟩
  | cons call calls ih =>
      obtain ⟨o, d₁, hstep, hnext, hlost⟩ := h.step (hfits call List.mem_cons_self)
      obtain ⟨outs, d', hrun, hlast, hbuffers⟩ :=
        ih hnext fun c hc => hfits c (List.mem_cons_of_mem call hc)
      refine ⟨o :: outs, d', ?_, ?_, ?_⟩
      · rw [Machine.run_cons_of_step hstep, hrun]
        rfl
      · rwa [List.append_assoc] at hlast
      · rw [hbuffers, hlost, List.zip_cons_cons, List.countP_cons]
        cases LosesBuffer (call, o) with
        | false => simp
        | true => simp [Nat.add_comm, Nat.add_left_comm]

theorem fits_of_run (hrun : deviceMachine.run d calls = some (outs, d')) :
    ∀ call ∈ calls, call.Fits := by
  induction calls generalizing d outs with
  | nil => exact fun _ hcall => absurd hcall List.not_mem_nil
  | cons call calls ih =>
      obtain ⟨o, d₁, outs', hstep, hrest, -⟩ := Machine.run_cons_inv hrun
      intro c hc
      rcases List.mem_cons.mp hc with rfl | hc
      · exact fits_of_step hstep
      · exact ih hrest c hc

/-- What a read through answers behind some calls. -/
theorem History.read (h : History calls d) (tasks : List TaskStruct) (len : Nat) :
    ∃ d', deviceMachine.step d (.oslabRead true true tasks len) =
        some (.copied (if endedAfter calls then []
          else (tableFor tasks (filterAfter calls)).take len), d') ∧
      d'.buffers = d.buffers := by
  rw [device_read, h.ended, h.filter]
  cases endedAfter calls with
  | true => exact ⟨_, rfl, rfl⟩
  | false => exact ⟨_, rfl, rfl⟩

/-- **What a read answers.** Calls of any clients stay inside the arrays exactly if
every write fits into its buffer. Behind them a read through gives nothing if the last
open or read through has been a read, and otherwise the table for the process that the
last write asks for, cut to the length; and one buffer is left allocated for each read
that has failed at its copy, and none for anything else. -/
theorem device_history (calls : List DeviceCall) :
    (∀ call ∈ calls, call.Fits) ↔
      ∃ outs d, deviceMachine.run .loaded calls = some (outs, d) ∧
        (∀ tasks len, ∃ d', deviceMachine.step d (.oslabRead true true tasks len) =
          some (.copied (if endedAfter calls then []
            else (tableFor tasks (filterAfter calls)).take len), d') ∧
          d'.buffers = d.buffers) ∧
        d.buffers = (calls.zip outs).countP LosesBuffer := by
  constructor
  · intro hfits
    obtain ⟨outs, d, hrun, hlast, hbuffers⟩ := History.loaded.run hfits
    rw [List.nil_append] at hlast
    exact ⟨outs, d, hrun, hlast.read, by rw [hbuffers, Device.loaded, Nat.zero_add]⟩
  · rintro ⟨outs, d, hrun, -⟩
    exact fits_of_run hrun

end OsProjects.ProcInfo
