import OsProjects.IoTrace.Model
import OsProjects.Lib.Runs

/-!
# Integrity of the system-call table

Seen from outside the tracer is in one of two phases: idle, with the kernel's
handlers in the table, or tracing one process, with the hooks in the table and
the handlers saved. `my_ftrace` moves between them (`Phase.next`) as long as no
second process is started while one is traced; `table_integrity_iff` shows that
exactly these runs keep the table intact.
-/

namespace OsProjects.IoTrace

open OsProjects.Lib.Runs

/-! ## The two phases -/

inductive Phase
  | idle
  | tracing (pid : Int)
  deriving DecidableEq, Repr

/-- What `my_ftrace(pid)` is for: the traced pid again stops the trace, a pid
starts one. -/
def Phase.next (pid : Int) : Phase → Phase
  | .idle => if pid > 0 then .tracing pid else .idle
  | .tracing traced => if pid = traced then .idle else .tracing traced

/-- The state of the modules in each phase. -/
def Phase.Holds : Phase → State → Prop
  | .idle, s => s.tracedPid = 0 ∧ s.table = .kernel ∧ ∀ c h, s.real c = some h → h = .kernel c
  | .tracing pid, s =>
      s.tracedPid = pid ∧ 0 < pid ∧ s.syscallTable = true ∧ s.table = .ftrace ∧
        ∀ c, s.real c = some (.kernel c)

/-- A second process is started while one is traced. -/
def Overlaps (s : State) (pid : Int) : Prop :=
  s.tracedPid ≠ 0 ∧ pid > 0 ∧ pid ≠ s.tracedPid

theorem stopIoTrace_table (current : Task) (s : State) (c : Syscall) :
    (stopIoTrace current s).2.table c =
      if s.syscallTable = false then s.table c else (s.real c).getD (s.table c) := by
  unfold stopIoTrace
  split <;> rfl

/-- Stopping in either phase puts the kernel's handlers into the table. -/
theorem Phase.Holds.stop_table {phase : Phase} {s : State} (h : phase.Holds s)
    (current : Task) : (stopIoTrace current s).2.table = .kernel := by
  funext c
  rw [stopIoTrace_table]
  cases phase with
  | idle =>
      obtain ⟨-, htable, hreal⟩ := h
      split
      · rw [htable]
      · cases hc : s.real c with
        | none => simp [htable]
        | some handler => simpa using hreal c handler hc
  | tracing pid =>
      obtain ⟨-, -, hfound, -, hreal⟩ := h
      rw [if_neg (by simp [hfound]), hreal c]
      rfl

theorem stopIoTrace_real (current : Task) (s : State) :
    (stopIoTrace current s).2.real = s.real := by
  unfold stopIoTrace
  split <;> rfl

/-- In either phase a saved pointer is the kernel's handler. -/
theorem Phase.Holds.real_kernel {phase : Phase} {s : State} (h : phase.Holds s) {c : Syscall}
    {handler : Handler} (hc : s.real c = some handler) : handler = .kernel c := by
  cases phase with
  | idle => exact h.2.2 c handler hc
  | tracing pid => exact (Option.some.inj ((h.2.2.2.2 c).symm.trans hc)).symm

theorem myFtrace_stop (current : Task) {s : State} (h : s.tracedPid ≠ 0) :
    (myFtrace current s.tracedPid s).2.2 =
      { (stopIoTrace current s).2 with tracedPid := 0 } := by
  unfold myFtrace
  rw [if_pos ⟨h, rfl⟩]

theorem myFtrace_start (current : Task) {s : State} {pid : Int}
    (h : ¬ (s.tracedPid ≠ 0 ∧ pid = s.tracedPid)) (hpos : pid > 0) :
    (myFtrace current pid s).2.2 = (startIoTrace pid s).2 := by
  unfold myFtrace
  rw [if_neg h, if_pos hpos]

theorem myFtrace_ignored (current : Task) {s : State} {pid : Int}
    (h : ¬ (s.tracedPid ≠ 0 ∧ pid = s.tracedPid)) (hpos : ¬ pid > 0) :
    (myFtrace current pid s).2.2 = s := by
  unfold myFtrace
  rw [if_neg h, if_neg hpos]

/-- Without an overlap `my_ftrace` follows the phases. -/
theorem Phase.Holds.next {phase : Phase} {s : State} (h : phase.Holds s) (current : Task)
    {pid : Int} (hok : ¬ Overlaps s pid) :
    (phase.next pid).Holds (myFtrace current pid s).2.2 := by
  cases phase with
  | idle =>
      obtain ⟨hpid, htable, hsaved⟩ := h
      have hrunning : ¬ (s.tracedPid ≠ 0 ∧ pid = s.tracedPid) := fun hs => hs.1 hpid
      by_cases hpos : pid > 0
      · rw [myFtrace_start current hrunning hpos]
        show (if pid > 0 then Phase.tracing pid else .idle).Holds _
        rw [if_pos hpos]
        exact ⟨rfl, hpos, rfl, rfl, fun c => by simp [startIoTrace, htable]⟩
      · rw [myFtrace_ignored current hrunning hpos]
        show (if pid > 0 then Phase.tracing pid else .idle).Holds _
        rw [if_neg hpos]
        exact ⟨hpid, htable, hsaved⟩
  | tracing traced =>
      have hstop := h.stop_table current
      obtain ⟨rfl, hpos, hfound, htable, hsaved⟩ := h
      show (if pid = s.tracedPid then Phase.idle else .tracing s.tracedPid).Holds _
      by_cases heq : pid = s.tracedPid
      · subst heq
        rw [if_pos rfl, myFtrace_stop current (by omega)]
        refine ⟨rfl, hstop, fun c handler hc => ?_⟩
        have hc : (stopIoTrace current s).2.real c = some handler := hc
        rw [stopIoTrace_real, hsaved c] at hc
        exact (Option.some.inj hc).symm
      · -- any other pid is not positive, and nothing happens
        have hneg : ¬ pid > 0 := fun hp => hok ⟨by omega, hp, heq⟩
        rw [if_neg heq, myFtrace_ignored current (fun hs => heq hs.2) hneg]
        exact ⟨rfl, hpos, hfound, htable, hsaved⟩

/-! ## Runs -/

section Integrity

variable {κ : Type} (kern : Syscall → PtRegs → κ → Int × κ)

/-- The table is intact: no saved pointer is a hook, a hooked call reaches the
kernel's handler after one hook and returns its result, and stopping the trace
(also by unloading the module) restores the kernel's handlers. -/
structure Intact (s : State) : Prop where
  saved : ∀ c hooked, s.real c ≠ some (.ftrace hooked)
  through : ∀ c regs k, s.table c ≠ .kernel c →
    syscall kern 2 c regs (s, k) =
      some ((kern c regs k).1, { s with stats := ftrace c regs s.stats }, (kern c regs k).2)
  stopped : ∀ current, (stopIoTrace current s).2.table = .kernel
  unloaded : ∀ current, (iotraceExit current s).2.table = .kernel

theorem Phase.Holds.intact {phase : Phase} {s : State} (h : phase.Holds s) :
    Intact kern s where
  saved c hooked hc := by cases h.real_kernel hc
  through c regs k htable := by
    cases phase with
    | idle => exact absurd (congrFun h.2.1 c) htable
    | tracing pid =>
        obtain ⟨-, -, -, hhook, hsaved⟩ := h
        have hentry : s.table c = .ftrace c := congrFun hhook c
        simp only [syscall, hentry, call, hsaved c]
  stopped := h.stop_table
  unloaded := h.stop_table

end Integrity

/-- The tracer as a machine that answers `my_ftrace(pid)` calls. -/
def ftraceMachine : Machine State (Task × Int) (Int × List Printk) where
  step s call :=
    let (ret, log, s) := myFtrace call.1 call.2 s
    some ((ret, log), s)

/-- **Table integrity.** A sequence of `my_ftrace` calls leaves the table intact
in every state reached exactly when no call starts a process while another one
is traced. -/
theorem table_integrity_iff {κ : Type} (kern : Syscall → PtRegs → κ → Int × κ)
    (calls : List (Task × Int)) :
    (∀ pre log s, pre <+: calls → ftraceMachine.run loaded pre = some (log, s) →
        Intact kern s) ↔
      ftraceMachine.Along (fun s call => ¬ Overlaps s call.2) loaded calls := by
  refine Machine.reached_iff_along (fun s => ∃ phase : Phase, phase.Holds s) (Intact kern)
    ?_ ?_ ?_ ⟨.idle, rfl, rfl, by simp [loaded]⟩
  · rintro s ⟨current, pid⟩ ⟨phase, h⟩ hok
    exact ⟨_, _, rfl, phase.next pid, h.next current hok⟩
  · rintro s ⟨phase, h⟩
    exact h.intact kern
  · rintro s ⟨current, pid⟩ ⟨phase, h⟩ hbad
    obtain ⟨htraced, hpos, hne⟩ := not_not.mp hbad
    refine ⟨_, _, rfl, fun hintact => hintact.saved .openat .openat ?_⟩
    -- the second start saves the hooks that the first one installed
    cases phase with
    | idle => exact absurd h.1 htraced
    | tracing traced =>
        show (myFtrace current pid s).2.2.real .openat = _
        rw [myFtrace_start current (fun hs => hne hs.2) hpos]
        simp [startIoTrace, h.2.2.2.1]

/-- Starting process 2 while process 1 is traced saves the hooks as the
original pointers: `ftrace_read` would call itself. -/
theorem table_integrity_two_starts :
    ¬ ∀ pre log s, pre <+: [((⟨10, "test"⟩ : Task), (1 : Int)), (⟨10, "test"⟩, 2)] →
      ftraceMachine.run loaded pre = some (log, s) →
        Intact (fun _ _ (k : Unit) => (0, k)) s := by
  intro h
  exact (h _ _ _ (List.prefix_refl _) rfl).saved .read .read rfl

end OsProjects.IoTrace
