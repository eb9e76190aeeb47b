import OsProjects.IoTrace.Report

/-!
# Loading and unloading the tracer

The two modules of the tracer over their whole life: they are loaded and unloaded, also
while a process is traced, `my_ftrace` is called, and processes make system calls. The
tracer changes no system call exactly when no process is started while another one is
traced (`transparent_iff`); then a whole run of the processes is the run without the tracer
(`tracer_transparent`).

The module loader refuses to load a module twice, to load `ftracehooking` without the
symbols that `iotracehooking` exports, and to unload `iotracehooking` while they are in use.
The globals of a module start anew each time it is loaded, and a call to a hook of a module
that is not there is a fault. Calls are taken one after the other: none sleeps in a hook
while the modules change. What `ftracehooking` prints when it is loaded and unloaded is in
`Hooks.Modules`.
-/

namespace OsProjects.IoTrace

open OsProjects.Lib.Runs

def eexist : Int := 17
def ewouldblock : Int := 11

/-- A kernel in which the modules are loaded and unloaded. -/
structure Host (κ : Type) where
  io : State
  /-- `iotracehooking` is loaded. -/
  iotrace : Bool
  /-- `ftracehooking` is loaded. -/
  ftrace : Bool
  kernel : κ

/-- What is done with the modules. -/
inductive ModuleEvent
  | insmodIotrace
  | insmodFtrace
  | rmmodFtrace
  | rmmodIotrace (current : Task)
  /-- The system call 336. -/
  | osFtrace (current : Task) (pid : Int)

inductive HostEvent
  | module (e : ModuleEvent)
  | syscall (c : Syscall) (regs : PtRegs)

/-- What is returned, what the tracer prints and the new state. -/
def moduleStep {κ : Type} (σ : Host κ) : ModuleEvent → (Int × List Printk) × Host κ
  | .insmodIotrace =>
      if σ.iotrace then ((-eexist, []), σ)
      else
        let (ret, log, io) := iotraceInit { loaded with table := σ.io.table }
        ((ret, log), { σ with io := io, iotrace := true })
  | .insmodFtrace =>
      if σ.ftrace then ((-eexist, []), σ)
      else if σ.iotrace then ((0, []), { σ with ftrace := true })
      else ((-enoent, []), σ)
  | .rmmodFtrace =>
      if σ.ftrace then ((0, []), { σ with ftrace := false })
      else ((-enoent, []), σ)
  | .rmmodIotrace current =>
      if σ.iotrace = false then ((-enoent, []), σ)
      else if σ.ftrace then ((-ewouldblock, []), σ)
      else
        let (log, io) := iotraceExit current σ.io
        ((0, log), { σ with io := io, iotrace := false })
  | .osFtrace current pid =>
      if σ.ftrace then
        let (ret, log, io) := myFtrace current pid σ.io
        ((ret, log), { σ with io := io })
      else ((0, []), σ)

section Machine

variable {κ : Type} (kern : Syscall → PtRegs → κ → Int × κ) (depth : Nat)

/-- The stack has room for a hook and the kernel's handler. -/
def hostMachine : Machine (Host κ) HostEvent (Int × List Printk) where
  step σ
    | .module e => some (moduleStep σ e)
    | .syscall c regs =>
        if σ.iotrace = false ∧ σ.io.table c ≠ .kernel c then none
        else
          (syscall kern (depth + 2) c regs (σ.io, σ.kernel)).map fun (ret, io, k) =>
            ((ret, []), { σ with io := io, kernel := k })

/-- A kernel without the modules. -/
def booted (k : κ) : Host κ := ⟨loaded, false, false, k⟩

/-- No process is started while another one is traced. -/
def NoOverlap (σ : Host κ) : HostEvent → Prop
  | .module (.osFtrace _ pid) => σ.ftrace = true → ¬ Overlaps σ.io pid
  | _ => True

instance (σ : Host κ) : (e : HostEvent) → Decidable (NoOverlap σ e)
  | .module (.osFtrace _ _) => inferInstanceAs (Decidable (_ → ¬ (_ ∧ _ ∧ _)))
  | .module (.insmodIotrace) | .module (.rmmodIotrace _) | .module (.insmodFtrace)
  | .module (.rmmodFtrace) | .syscall _ _ => isTrue trivial

/-- Every system call does what the kernel does, and without the tracer the table is the
kernel's. -/
structure Transparent (σ : Host κ) : Prop where
  calls : ∀ c regs, ∃ io, (hostMachine kern depth).step σ (.syscall c regs) =
    some (((kern c regs σ.kernel).1, []), { σ with io := io, kernel := (kern c regs σ.kernel).2 })
  clean : σ.iotrace = false → σ.io.table = .kernel

/-- While the tracer is loaded it is in one of its phases; when it is not, the table is the
kernel's. -/
structure Settled (σ : Host κ) : Prop where
  phase : σ.iotrace = true → ∃ phase : Phase, phase.Holds σ.io
  clean : σ.iotrace = false → σ.io.table = .kernel
  needs : σ.ftrace = true → σ.iotrace = true

variable {σ : Host κ}

theorem settled_booted (k : κ) : Settled (booted k) :=
  ⟨fun h => Bool.noConfusion h, fun _ => rfl, fun h => Bool.noConfusion h⟩

/-! ## System calls -/

/-- In every phase a call reaches the kernel, and the phase stays. -/
theorem Phase.Holds.syscall {phase : Phase} {s : State} (h : phase.Holds s) (c : Syscall)
    (regs : PtRegs) (k : κ) : ∃ t, phase.Holds t ∧
      IoTrace.syscall kern (depth + 2) c regs (s, k) =
        some ((kern c regs k).1, t, (kern c regs k).2) := by
  cases phase with
  | idle =>
      have hentry : s.table c = .kernel c := congrFun h.2.1 c
      exact ⟨s, h, by simp [IoTrace.syscall, call, hentry]⟩
  | tracing pid =>
      have hentry : s.table c = .ftrace c := congrFun h.2.2.2.1 c
      have hsaved := h.2.2.2.2 c
      refine ⟨{ s with stats := IoTrace.ftrace c regs s.stats }, h.with_stats _, ?_⟩
      simp [IoTrace.syscall, call, hentry, hsaved]

theorem Settled.syscall (h : Settled σ) (c : Syscall) (regs : PtRegs) :
    ∃ io, (hostMachine kern depth).step σ (.syscall c regs) =
        some (((kern c regs σ.kernel).1, []),
          { σ with io := io, kernel := (kern c regs σ.kernel).2 }) ∧
      Settled { σ with io := io, kernel := (kern c regs σ.kernel).2 } := by
  by_cases hloaded : σ.iotrace = true
  · obtain ⟨phase, hphase⟩ := h.phase hloaded
    obtain ⟨t, ht, hcall⟩ := hphase.syscall kern depth c regs σ.kernel
    refine ⟨t, by simp [hostMachine, hloaded, hcall], fun _ => ⟨phase, ht⟩, ?_, h.needs⟩
    exact fun hnot => absurd (hloaded.symm.trans hnot) (by simp)
  · rw [Bool.not_eq_true] at hloaded
    have hentry : σ.io.table c = .kernel c := congrFun (h.clean hloaded) c
    exact ⟨σ.io, by simp [hostMachine, IoTrace.syscall, call, hentry], h.phase, h.clean, h.needs⟩

theorem Settled.transparent (h : Settled σ) : Transparent kern depth σ where
  calls c regs := by
    obtain ⟨io, hstep, -⟩ := h.syscall kern depth c regs
    exact ⟨io, hstep⟩
  clean := h.clean

/-- A hook that has itself saved as the original call does not return. -/
theorem call_loops {s : State} {c : Syscall} (h : s.real c = some (.ftrace c)) (regs : PtRegs)
    (k : κ) : call kern depth (.ftrace c) regs (s, k) = none := by
  induction depth generalizing s with
  | zero => rfl
  | succ depth ih =>
      simp only [call, h]
      exact ih h

/-! ## The modules -/

theorem moduleStep_kernel (σ : Host κ) (e : ModuleEvent) :
    (moduleStep σ e).2.kernel = σ.kernel := by
  cases e <;> (dsimp only [moduleStep]; split_ifs <;> rfl)

theorem Settled.module (h : Settled σ) (e : ModuleEvent) (hok : NoOverlap σ (.module e)) :
    Settled (moduleStep σ e).2 := by
  cases e with
  | insmodIotrace =>
      dsimp only [moduleStep]
      split_ifs with hloaded
      · exact h
      · -- the globals are new, and the table is the kernel's
        rw [Bool.not_eq_true] at hloaded
        refine ⟨fun _ => ⟨.idle, rfl, h.clean hloaded, fun c handler hreal => ?_⟩, ?_, fun _ => rfl⟩
        · cases hreal
        · exact fun hnot => Bool.noConfusion hnot
  | insmodFtrace =>
      dsimp only [moduleStep]
      split_ifs with hftrace hloaded
      · exact h
      · exact ⟨h.phase, h.clean, fun _ => hloaded⟩
      · exact h
  | rmmodFtrace =>
      dsimp only [moduleStep]
      split_ifs with hftrace
      · exact ⟨h.phase, h.clean, fun hnot => Bool.noConfusion hnot⟩
      · exact h
  | rmmodIotrace current =>
      dsimp only [moduleStep]
      split_ifs with hgone hftrace
      · exact h
      · exact h
      · -- `iotrace_exit` stops the trace first
        obtain ⟨phase, hphase⟩ := h.phase (by simpa using hgone)
        refine ⟨fun hnot => Bool.noConfusion hnot, fun _ => hphase.stop_table current, ?_⟩
        exact fun hnot => absurd hnot hftrace
  | osFtrace current pid =>
      dsimp only [moduleStep]
      split_ifs with hftrace
      · obtain ⟨phase, hphase⟩ := h.phase (h.needs hftrace)
        refine ⟨fun _ => ⟨phase.next pid, hphase.next current (hok hftrace)⟩, ?_, h.needs⟩
        exact fun hnot => absurd ((h.needs hftrace).symm.trans hnot) (by simp)
      · exact h

theorem Settled.step (h : Settled σ) (e : HostEvent) (hok : NoOverlap σ e) :
    ∃ out τ, (hostMachine kern depth).step σ e = some (out, τ) ∧ Settled τ := by
  cases e with
  | module e => exact ⟨_, _, rfl, h.module e hok⟩
  | syscall c regs =>
      obtain ⟨io, hstep, hτ⟩ := h.syscall kern depth c regs
      exact ⟨_, _, hstep, hτ⟩

/-- After an overlapping start every call runs out of stack. -/
theorem Settled.overlap (h : Settled σ) (current : Task) {pid : Int}
    (hftrace : σ.ftrace = true) (hover : Overlaps σ.io pid) :
    ¬ Transparent kern depth (moduleStep σ (.osFtrace current pid)).2 := by
  intro htransparent
  obtain ⟨htraced, hpos, hne⟩ := hover
  obtain ⟨phase, hphase⟩ := h.phase (h.needs hftrace)
  cases phase with
  | idle => exact htraced hphase.1
  | tracing traced =>
      -- the second start finds the hooks in the table and saves them
      have hstart : (moduleStep σ (.osFtrace current pid)).2 =
          { σ with io := (startIoTrace pid σ.io).2 } := by
        rw [← myFtrace_start current (fun hs => hne hs.2) hpos]
        simp [moduleStep, hftrace]
      obtain ⟨io, hcall⟩ := htransparent.calls .read ⟨none, 0⟩
      have hloops : IoTrace.syscall kern (depth + 2) .read ⟨none, 0⟩
          ((startIoTrace pid σ.io).2, σ.kernel) = none :=
        call_loops kern _ (by simp [startIoTrace, hphase.2.2.2.1]) _ _
      rw [hstart] at hcall
      simp [hostMachine, h.needs hftrace, hloops] at hcall

end Machine

/-- **Transparency, state by state.** However the modules are loaded, unloaded and used,
every system call is the kernel's in every state that is reached, and the table is the
kernel's whenever the tracer is not loaded, exactly if no process is started while another
one is traced. -/
theorem transparent_iff {κ : Type} (kern : Syscall → PtRegs → κ → Int × κ) (depth : Nat) (k : κ)
    (events : List HostEvent) :
    (∀ pre out σ, pre <+: events → (hostMachine kern depth).run (booted k) pre = some (out, σ) →
        Transparent kern depth σ) ↔
      (hostMachine kern depth).Along NoOverlap (booted k) events := by
  refine Machine.reached_iff_along Settled (Transparent kern depth) ?_ ?_ ?_ (settled_booted k)
  · intro σ e h hok
    exact h.step kern depth e hok
  · intro σ h
    exact h.transparent kern depth
  · intro σ e h hbad
    cases e with
    | syscall c regs => exact absurd trivial hbad
    | module e =>
        cases e with
        | osFtrace current pid =>
            obtain ⟨hftrace, hover⟩ := Classical.not_imp.mp hbad
            exact ⟨_, _, rfl, h.overlap kern depth current hftrace (not_not.mp hover)⟩
        | _ => exact absurd trivial hbad

/-! ## Whole runs -/

section Plain

variable {κ : Type} (kern : Syscall → PtRegs → κ → Int × κ)

/-- The system calls of a run, answered by the kernel alone. -/
def plainRun : κ → List HostEvent → List Int × κ
  | k, [] => ([], k)
  | k, .module _ :: events => plainRun k events
  | k, .syscall c regs :: events =>
      ((kern c regs k).1 :: (plainRun (kern c regs k).2 events).1,
        (plainRun (kern c regs k).2 events).2)

/-- What the system calls of a run return. -/
def returned : List HostEvent → List (Int × List Printk) → List Int
  | .syscall _ _ :: events, out :: outs => out.1 :: returned events outs
  | .module _ :: events, _ :: outs => returned events outs
  | _, _ => []

variable {kern} {depth : Nat}

theorem Settled.run {σ : Host κ} {events : List HostEvent} (h : Settled σ)
    (hok : (hostMachine kern depth).Along NoOverlap σ events) :
    ∃ out τ, (hostMachine kern depth).run σ events = some (out, τ) ∧
      (returned events out, τ.kernel) = plainRun kern σ.kernel events ∧ Settled τ := by
  induction events generalizing σ with
  | nil => exact ⟨[], σ, rfl, rfl, h⟩
  | cons e events ih =>
      obtain ⟨hfirst, hrest⟩ := hok
      cases e with
      | module e =>
          have hstep : (hostMachine kern depth).step σ (.module e) =
              some ((moduleStep σ e).1, (moduleStep σ e).2) := rfl
          obtain ⟨out, τ, hrun, hplain, hτ⟩ := ih (h.module e hfirst) (hrest _ _ hstep)
          refine ⟨_, τ, by rw [Machine.run_cons_of_step hstep, hrun]; rfl, ?_, hτ⟩
          rw [moduleStep_kernel] at hplain
          exact hplain
      | syscall c regs =>
          obtain ⟨io, hstep, hnext⟩ := h.syscall kern depth c regs
          obtain ⟨out, τ, hrun, hplain, hτ⟩ := ih hnext (hrest _ _ hstep)
          refine ⟨_, τ, by rw [Machine.run_cons_of_step hstep, hrun]; rfl, ?_, hτ⟩
          rw [plainRun, ← hplain]
          rfl

end Plain

/-- **Transparency of a run.** If no process is started while another one is traced, the
system calls of the run return what they would return without the tracer and leave the
same kernel, and the table is the kernel's if the tracer is not loaded in the end. -/
theorem tracer_transparent {κ : Type} (kern : Syscall → PtRegs → κ → Int × κ) (depth : Nat)
    (k : κ) (events : List HostEvent)
    (hok : (hostMachine kern depth).Along NoOverlap (booted k) events) :
    ∃ out σ, (hostMachine kern depth).run (booted k) events = some (out, σ) ∧
      (returned events out, σ.kernel) = plainRun kern k events ∧
      (σ.iotrace = false → σ.io.table = .kernel) := by
  obtain ⟨out, σ, hrun, hplain, hσ⟩ := (settled_booted k).run hok
  exact ⟨out, σ, hrun, hplain, hσ.clean⟩

/-- The tracer is loaded, started for process 5, and unloaded without being stopped. -/
def loadAndTrace : List HostEvent :=
  [.module .insmodIotrace, .module .insmodFtrace, .module (.osFtrace ⟨5, "test"⟩ 5),
    .syscall .read ⟨none, 3⟩, .module .rmmodFtrace, .module (.rmmodIotrace ⟨9, "rmmod"⟩),
    .syscall .read ⟨none, 3⟩]

theorem tracer_transparent_unload :
    ∃ out σ, (hostMachine threeBytes 0).run (booted ()) loadAndTrace = some (out, σ) ∧
      (returned loadAndTrace out, σ.kernel) = ([3, 3], ()) ∧
      (σ.iotrace = false → σ.io.table = .kernel) :=
  tracer_transparent threeBytes 0 () loadAndTrace (by decide)

end OsProjects.IoTrace
