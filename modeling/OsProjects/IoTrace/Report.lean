import OsProjects.IoTrace.Integrity

/-!
# The report of the tracer

`stop_io_trace` prints how often each call was made and how many bytes were read
and written. The numbers are kept by the hooks, which run for every process, are
reset only when the module is loaded, and add the bytes a caller asks for. A
`Session` keeps beside them what the traced process really does; the report is
true at every moment exactly when every step of the run is `Faithful`.
-/

namespace OsProjects.IoTrace

open OsProjects.Lib.Runs

/-! ## What should be reported -/

/-- The numbers of a report. Only `read` and `write` have bytes. -/
@[ext] structure Report where
  count : Syscall → Int
  bytes : Syscall → Int

def Syscall.transfers : Syscall → Bool
  | .read | .write => true
  | _ => false

/-- What the traced process has done since the trace was started: its calls,
with what they returned. -/
structure Session where
  pid : Int
  calls : List (Syscall × Int)
  deriving DecidableEq, Repr

/-- The number of the calls, and the sum of what they transferred. -/
def Session.report (session : Session) : Report where
  count c := ((session.calls.filter fun call => call.1 = c).length : Nat)
  bytes c :=
    if c.transfers then
      ((session.calls.filter fun call => call.1 = c).map fun call => max 0 call.2).sum
    else 0

/-- A process makes a call that returns `ret`. -/
def Session.observe (pid : Int) (c : Syscall) (ret : Int) (session : Session) : Session :=
  if pid = session.pid then { session with calls := session.calls ++ [(c, ret)] } else session

/-- A trace is started or stopped, as in `Phase.next`. -/
def nextSession (pid : Int) : Option Session → Option Session
  | none => if pid > 0 then some ⟨pid, []⟩ else none
  | some session => if pid = session.pid then none else some session

def phaseOf : Option Session → Phase
  | none => .idle
  | some session => .tracing session.pid

theorem phaseOf_nextSession (pid : Int) (session : Option Session) :
    phaseOf (nextSession pid session) = (phaseOf session).next pid := by
  cases session with
  | none =>
      show phaseOf (if _ then _ else _) = if _ then _ else _
      split_ifs <;> rfl
  | some session =>
      show phaseOf (if _ then _ else _) = if _ then _ else _
      split_ifs <;> rfl

/-! ## What is reported -/

def IoTraceStats.count (stats : IoTraceStats) : Syscall → Int32
  | .openat => stats.openCount
  | .read => stats.readCount
  | .write => stats.writeCount
  | .lseek => stats.lseekCount
  | .close => stats.closeCount

def IoTraceStats.bytes (stats : IoTraceStats) : Syscall → UInt64
  | .read => stats.readBytes
  | .write => stats.writeBytes
  | _ => 0

/-- The numbers as `%d` and `%zd` print them. -/
def IoTraceStats.report (stats : IoTraceStats) : Report where
  count c := (stats.count c).toInt
  bytes c := (stats.bytes c).toInt64.toInt

/-- The numbers in the lines of `stop_io_trace`. -/
def printed : List Printk → Option Report
  | [.bytes _ filename readBytes writeBytes, .counts opens closes reads writes lseeks,
      .traceEnd _] =>
      some (IoTraceStats.report
        ⟨opens, closes, reads, writes, lseeks, readBytes, writeBytes, filename⟩)
  | _ => none

theorem printed_stop (current : Task) {s : State} (h : s.syscallTable = true) :
    printed (stopIoTrace current s).1 = some s.stats.report := by
  unfold stopIoTrace
  rw [if_neg (by simp [h])]
  rfl

/-! ## The hooks -/

theorem int32_succ_iff (x : Int32) : (x + 1).toInt = x.toInt + 1 ↔ x.toInt + 1 < 2 ^ 31 := by
  have hlt := x.toInt_lt
  have hge := x.le_toInt
  have hone : (1 : Int32).toInt = 1 := rfl
  rw [Int32.toInt_add, hone, Int.bmod_def]
  omega

theorem int32_succ_ne (x : Int32) : (x + 1).toInt ≠ x.toInt := by
  have hlt := x.toInt_lt
  have hge := x.le_toInt
  have hone : (1 : Int32).toInt = 1 := rfl
  rw [Int32.toInt_add, hone, Int.bmod_def]
  omega

theorem uint64_toInt (x : UInt64) : x.toInt64.toInt = (x.toNat : Int).bmod (2 ^ 64) :=
  BitVec.toInt_eq_toNat_bmod _

/-- A sum of bytes is what `%zd` should print if it is the sum of the bytes asked
for and below 2⁶³. -/
theorem uint64_add_iff (x y : UInt64) {n : Int} (hn : 0 ≤ n) :
    (x + y).toInt64.toInt = x.toInt64.toInt + n ↔
      n = y.toNat ∧ x.toInt64.toInt + y.toNat < 2 ^ 63 := by
  have hxlt := x.toNat_lt
  have hylt := y.toNat_lt
  rw [uint64_toInt, uint64_toInt x, UInt64.toNat_add]
  push_cast
  simp only [Int.bmod_def]
  omega

theorem ftraceOpenat_eq (regs : PtRegs) (stats : IoTraceStats) : ∃ name,
    ftraceOpenat regs stats =
      { stats with openCount := stats.openCount + 1, filename := name } := by
  dsimp only [ftraceOpenat]
  split
  · exact ⟨_, rfl⟩
  · exact ⟨stats.filename, rfl⟩

/-- The hook of a call adds one to the counter of that call. -/
theorem count_ftrace (c : Syscall) (regs : PtRegs) (stats : IoTraceStats) :
    (ftrace c regs stats).count = Function.update stats.count c (stats.count c + 1) := by
  funext d
  cases c with
  | openat =>
      obtain ⟨name, heq⟩ := ftraceOpenat_eq regs stats
      show (ftraceOpenat regs stats).count d = _
      rw [heq]
      cases d <;> rfl
  | read => cases d <;> rfl
  | write => cases d <;> rfl
  | lseek => cases d <;> rfl
  | close => cases d <;> rfl

/-- The hooks of `read` and `write` add the bytes asked for. -/
theorem bytes_ftrace (c : Syscall) (regs : PtRegs) (stats : IoTraceStats) :
    (ftrace c regs stats).bytes =
      Function.update stats.bytes c (stats.bytes c + if c.transfers then regs.dx else 0) := by
  funext d
  cases c with
  | openat =>
      obtain ⟨name, heq⟩ := ftraceOpenat_eq regs stats
      show (ftraceOpenat regs stats).bytes d = _
      rw [heq]
      cases d <;> rfl
  | read => cases d <;> rfl
  | write => cases d <;> rfl
  | lseek => cases d <;> rfl
  | close => cases d <;> rfl

theorem report_ftrace (c : Syscall) (regs : PtRegs) (stats : IoTraceStats) :
    (ftrace c regs stats).report =
      ⟨Function.update stats.report.count c (stats.count c + 1).toInt,
        Function.update stats.report.bytes c
          (stats.bytes c + if c.transfers then regs.dx else 0).toInt64.toInt⟩ := by
  have hcount := Function.comp_update Int32.toInt stats.count c (stats.count c + 1)
  have hbytes := Function.comp_update (fun x : UInt64 => x.toInt64.toInt) stats.bytes c
    (stats.bytes c + if c.transfers then regs.dx else 0)
  rw [← count_ftrace] at hcount
  rw [← bytes_ftrace] at hbytes
  exact Report.ext hcount hbytes

theorem report_observe (session : Session) (c : Syscall) (ret : Int) :
    (session.observe session.pid c ret).report =
      ⟨Function.update session.report.count c (session.report.count c + 1),
        Function.update session.report.bytes c
          (session.report.bytes c + if c.transfers then max 0 ret else 0)⟩ := by
  unfold Session.observe
  rw [if_pos rfl]
  refine Report.ext (funext fun d => ?_) (funext fun d => ?_)
  · by_cases hd : d = c
    · subst hd
      simp [Session.report]
    · simp [Session.report, Function.update_of_ne hd, Ne.symm hd]
  · by_cases hd : d = c
    · subst hd
      cases htransfers : d.transfers <;> simp [Session.report, htransfers]
    · simp [Session.report, Function.update_of_ne hd, Ne.symm hd]

/-! ## Whether a call keeps the report true -/

/-- A call of the traced process that is counted as it should be: the counter has
room, and the call transfers all it asks for. -/
def CountedRight (stats : IoTraceStats) (c : Syscall) (regs : PtRegs) (ret : Int) : Prop :=
  stats.report.count c + 1 < 2 ^ 31 ∧
    (c.transfers = true →
      max 0 ret = regs.dx.toNat ∧ stats.report.bytes c + regs.dx.toNat < 2 ^ 63)

section Hook

variable {stats : IoTraceStats} {session : Session} (c : Syscall) (regs : PtRegs) (ret : Int)

/-- A call of the traced process. -/
theorem report_own_iff (h : stats.report = session.report) :
    (ftrace c regs stats).report = (session.observe session.pid c ret).report ↔
      CountedRight stats c regs ret := by
  have hcount : (stats.count c + 1).toInt = session.report.count c + 1 ↔
      stats.report.count c + 1 < 2 ^ 31 := by
    rw [← h]
    exact int32_succ_iff _
  have hbytes : (stats.bytes c + if c.transfers then regs.dx else 0).toInt64.toInt =
      session.report.bytes c + (if c.transfers then max 0 ret else 0) ↔
        (c.transfers = true →
          max 0 ret = regs.dx.toNat ∧ stats.report.bytes c + regs.dx.toNat < 2 ^ 63) := by
    rw [← h]
    cases htransfers : c.transfers with
    | true =>
        rw [if_pos rfl, if_pos rfl, forall_prop_of_true rfl]
        exact uint64_add_iff (stats.bytes c) regs.dx (le_max_left 0 ret)
    | false => simp [IoTraceStats.report]
  rw [report_ftrace, report_observe, Report.mk.injEq, h,
    (Function.update_injective _ c).eq_iff, (Function.update_injective _ c).eq_iff, hcount, hbytes]
  rw [CountedRight, h]

/-- A call of another process. -/
theorem report_foreign (h : stats.report = session.report) {pid : Int} (hpid : pid ≠ session.pid) :
    (ftrace c regs stats).report ≠ (session.observe pid c ret).report := by
  intro heq
  unfold Session.observe at heq
  rw [if_neg hpid, ← h, report_ftrace] at heq
  have hcount : Function.update stats.report.count c (stats.count c + 1).toInt c =
      stats.report.count c := congrFun (congrArg Report.count heq) c
  rw [Function.update_self] at hcount
  exact int32_succ_ne _ hcount

end Hook

/-! ## Runs -/

/-- A process makes a system call, or controls the trace. -/
inductive Event
  | syscall (task : Task) (c : Syscall) (regs : PtRegs)
  | myFtrace (current : Task) (pid : Int)

/-- The system, with the session beside it. -/
structure System (κ : Type) where
  state : State
  kernel : κ
  session : Option Session

section Machine

variable {κ : Type} (kern : Syscall → PtRegs → κ → Int × κ) (depth : Nat)

/-- The answer to an event is what the call returns and what is printed. The
stack has room for a hook and the kernel's handler. -/
def traceMachine : Machine (System κ) Event (Int × List Printk) where
  step σ
    | .syscall task c regs =>
        (syscall kern (depth + 2) c regs (σ.state, σ.kernel)).map fun (ret, s, k) =>
          ((ret, []), ⟨s, k, σ.session.map (Session.observe task.pid c ret)⟩)
    | .myFtrace current pid =>
        let (ret, log, s) := myFtrace current pid σ.state
        some ((ret, log), ⟨s, σ.kernel, nextSession pid σ.session⟩)

/-- The modules have just been loaded. -/
def started (k : κ) : System κ := ⟨loaded, k, none⟩

/-- A trace is stopped before another one is started. -/
def Sequential (σ : System κ) : Event → Prop
  | .syscall _ _ _ => True
  | .myFtrace _ pid => ¬ Overlaps σ.state pid

instance (σ : System κ) : (e : Event) → Decidable (Sequential σ e)
  | .syscall _ _ _ => isTrue trivial
  | .myFtrace _ _ => inferInstanceAs (Decidable (¬ (_ ∧ _ ∧ _)))

/-- Stopping the trace now prints what the traced process has done since the
start. -/
def ReportsTruth (σ : System κ) : Prop :=
  ∀ current session, σ.session = some session →
    printed (myFtrace current session.pid σ.state).2.1 = some session.report

/-- While a process is traced it makes all the calls, and they are counted right;
a trace is started with the statistics at zero. -/
def Faithful (σ : System κ) : Event → Prop
  | .syscall task c regs => σ.state.tracedPid ≠ 0 →
      task.pid = σ.state.tracedPid ∧
        CountedRight σ.state.stats c regs (kern c regs σ.kernel).1
  | .myFtrace _ pid => σ.state.tracedPid = 0 → pid > 0 →
      σ.state.stats.report = ⟨fun _ => 0, fun _ => 0⟩

/-- The modules are in the phase of the session, and the statistics are those of
the session. -/
structure Accurate (σ : System κ) : Prop where
  phase : (phaseOf σ.session).Holds σ.state
  stats : ∀ session, σ.session = some session → σ.state.stats.report = session.report

variable {σ : System κ}

theorem reportsTruth_iff (h : (phaseOf σ.session).Holds σ.state) :
    ReportsTruth σ ↔
      ∀ session, σ.session = some session → σ.state.stats.report = session.report := by
  have hprinted : ∀ current session, σ.session = some session →
      printed (myFtrace current session.pid σ.state).2.1 = some σ.state.stats.report := by
    intro current session hsession
    rw [hsession] at h
    obtain ⟨hpid, hpos, hfound, -⟩ := h
    unfold myFtrace
    rw [if_pos ⟨by omega, hpid.symm⟩]
    exact printed_stop current hfound
  constructor
  · intro htruth session hsession
    have hstop := htruth ⟨0, ""⟩ session hsession
    rw [hprinted _ session hsession] at hstop
    exact Option.some.inj hstop
  · intro hstats current session hsession
    rw [hprinted current session hsession, hstats session hsession]

/-- While nothing is traced a call goes straight to the kernel. -/
theorem step_syscall_idle (h : Phase.idle.Holds σ.state) (hsession : σ.session = none)
    (task : Task) (c : Syscall) (regs : PtRegs) :
    (traceMachine kern depth).step σ (.syscall task c regs) =
      some (((kern c regs σ.kernel).1, []), ⟨σ.state, (kern c regs σ.kernel).2, none⟩) := by
  have htable : σ.state.table c = .kernel c := congrFun h.2.1 c
  simp [traceMachine, syscall, call, htable, hsession]

/-- While a process is traced every call is counted first. -/
theorem step_syscall_tracing {session : Session} (h : (Phase.tracing session.pid).Holds σ.state)
    (hsession : σ.session = some session) (task : Task) (c : Syscall) (regs : PtRegs) :
    (traceMachine kern depth).step σ (.syscall task c regs) =
      some (((kern c regs σ.kernel).1, []),
        ⟨{ σ.state with stats := ftrace c regs σ.state.stats }, (kern c regs σ.kernel).2,
          some (session.observe task.pid c (kern c regs σ.kernel).1)⟩) := by
  obtain ⟨-, -, -, htable, hsaved⟩ := h
  have htable : σ.state.table c = .ftrace c := congrFun htable c
  simp [traceMachine, syscall, call, htable, hsaved c, hsession]

theorem Session.observe_pid (session : Session) (pid : Int) (c : Syscall) (ret : Int) :
    (session.observe pid c ret).pid = session.pid := by
  unfold Session.observe
  split_ifs <;> rfl

/-- A hook changes the statistics only. -/
theorem Phase.Holds.with_stats {phase : Phase} {s : State} (h : phase.Holds s)
    (stats : IoTraceStats) : phase.Holds { s with stats := stats } := by
  cases phase with
  | idle => exact h
  | tracing pid => exact h

theorem myFtrace_stats (current : Task) (pid : Int) (s : State) :
    (myFtrace current pid s).2.2.stats = s.stats := by
  unfold myFtrace
  split_ifs
  · show (stopIoTrace current s).2.stats = s.stats
    unfold stopIoTrace
    split_ifs <;> rfl
  · rfl
  · rfl

theorem Session.report_nil (pid : Int) :
    (⟨pid, []⟩ : Session).report = ⟨fun _ => 0, fun _ => 0⟩ := by
  refine Report.ext (funext fun c => rfl) (funext fun c => ?_)
  show (if c.transfers then _ else _) = 0
  split_ifs <;> rfl

/-- After a call of any process. -/
theorem Accurate.syscall_iff {session : Session} (h : Accurate σ)
    (hsession : σ.session = some session) (task : Task) (c : Syscall) (regs : PtRegs) (ret : Int) :
    (ftrace c regs σ.state.stats).report = (session.observe task.pid c ret).report ↔
      (σ.state.tracedPid ≠ 0 →
        task.pid = σ.state.tracedPid ∧ CountedRight σ.state.stats c regs ret) := by
  have hphase := h.phase
  rw [hsession] at hphase
  obtain ⟨htraced, hpos, -⟩ := hphase
  have hreport := h.stats session hsession
  rw [htraced, forall_prop_of_true (by omega)]
  by_cases hpid : task.pid = session.pid
  · rw [hpid, and_iff_right rfl]
    exact report_own_iff c regs ret hreport
  · exact iff_of_false (report_foreign c regs ret hreport hpid) fun hown => hpid hown.1

/-- After a call of `my_ftrace`. -/
theorem Accurate.myFtrace_iff (h : Accurate σ) (pid : Int) :
    (∀ session, nextSession pid σ.session = some session →
        σ.state.stats.report = session.report) ↔
      (σ.state.tracedPid = 0 → pid > 0 →
        σ.state.stats.report = ⟨fun _ => 0, fun _ => 0⟩) := by
  have hphase := h.phase
  cases hsession : σ.session with
  | none =>
      rw [hsession] at hphase
      rw [forall_prop_of_true hphase.1]
      show (∀ session, (if pid > 0 then some _ else none) = some session → _) ↔ _
      split_ifs with hpos
      · rw [forall_prop_of_true hpos, ← Session.report_nil pid]
        refine ⟨fun hall => hall _ rfl, fun hzero session heq => ?_⟩
        rw [← Option.some.inj heq]
        exact hzero
      · exact iff_of_true (fun _ hnone => by simp at hnone) fun hpid => absurd hpid hpos
  | some session =>
      rw [hsession] at hphase
      obtain ⟨htraced, hpos, -⟩ := hphase
      refine iff_of_true (fun session' hnext => ?_) fun hzero => absurd hzero (by omega)
      replace hnext : (if pid = session.pid then none else some session) = some session' := hnext
      split_ifs at hnext
      rw [← Option.some.inj hnext]
      exact h.stats session hsession

/-- A step that keeps the calls apart stays in the phase of the session, and the
statistics stay those of the session exactly if it is faithful. -/
theorem Accurate.step (h : Accurate σ) (e : Event) (hseq : Sequential σ e) :
    ∃ out τ, (traceMachine kern depth).step σ e = some (out, τ) ∧
      (phaseOf τ.session).Holds τ.state ∧ (ReportsTruth τ ↔ Faithful kern σ e) := by
  cases e with
  | syscall task c regs =>
      cases hsession : σ.session with
      | none =>
          have hphase := h.phase
          rw [hsession] at hphase
          refine ⟨_, _, step_syscall_idle kern depth hphase hsession task c regs, hphase, ?_⟩
          -- nothing is traced, and a call is faithful while no pid is recorded
          exact iff_of_true (fun _ _ hnone => by simp at hnone) fun hne => absurd hphase.1 hne
      | some session =>
          have hphase := h.phase
          rw [hsession] at hphase
          -- the hooks count the call whoever makes it; the session may not
          have hnext : (Phase.tracing
              (session.observe task.pid c (kern c regs σ.kernel).1).pid).Holds
                { σ.state with stats := ftrace c regs σ.state.stats } := by
            rw [Session.observe_pid]
            exact hphase.with_stats _
          refine ⟨_, _, step_syscall_tracing kern depth hphase hsession task c regs, hnext, ?_⟩
          refine (reportsTruth_iff (by exact hnext)).trans
            (Iff.trans ?_ (h.syscall_iff hsession task c regs (kern c regs σ.kernel).1))
          refine ⟨fun hall => hall _ rfl, fun hreport session' heq => ?_⟩
          rw [← Option.some.inj heq]
          exact hreport
  | myFtrace current pid =>
      have hnext : (phaseOf (nextSession pid σ.session)).Holds
          (myFtrace current pid σ.state).2.2 := by
        rw [phaseOf_nextSession]
        exact h.phase.next current hseq
      refine ⟨_, _, rfl, hnext, ?_⟩
      rw [reportsTruth_iff hnext]
      show (∀ session, _ → (myFtrace current pid σ.state).2.2.stats.report = _) ↔ _
      rw [myFtrace_stats]
      exact h.myFtrace_iff pid

end Machine

/-- **Accuracy of the report.** In a run that stops each trace before it starts
another, a stop prints the truth at every moment exactly when every step is
faithful. -/
theorem report_truth_iff {κ : Type} (kern : Syscall → PtRegs → κ → Int × κ) (depth : Nat) (k : κ)
    (events : List Event)
    (hseq : (traceMachine kern depth).Along Sequential (started k) events) :
    (∀ pre out σ, pre <+: events → (traceMachine kern depth).run (started k) pre = some (out, σ) →
        ReportsTruth σ) ↔
      (traceMachine kern depth).Along (Faithful kern) (started k) events := by
  refine Machine.reached_iff_along_within Sequential Accurate ReportsTruth ?_ ?_ ?_ ?_ hseq
  · intro σ e h hseq hfaithful
    obtain ⟨out, τ, hstep, hphase, htruth⟩ := h.step kern depth e hseq
    exact ⟨out, τ, hstep, hphase, (reportsTruth_iff hphase).mp (htruth.mpr hfaithful)⟩
  · intro σ h
    exact (reportsTruth_iff h.phase).mpr h.stats
  · intro σ e h hseq hmisleading
    obtain ⟨out, τ, hstep, -, htruth⟩ := h.step kern depth e hseq
    exact ⟨out, τ, hstep, fun hτ => hmisleading (htruth.mp hτ)⟩
  · exact ⟨⟨rfl, rfl, by simp [started, loaded]⟩, fun session hnone => by simp [started] at hnone⟩

/-- Process 5 traces itself and reads, asking for `n` bytes. -/
def readerEvents (n : UInt64) : List Event :=
  [.myFtrace ⟨5, "test"⟩ 5, .syscall ⟨5, "test"⟩ .read ⟨none, n⟩]

/-- Every call returns 3. -/
def threeBytes (_ : Syscall) (_ : PtRegs) (k : Unit) : Int × Unit := (3, k)

/-- Process 5 reads and stops its trace; then process 7 reads, has itself traced and
writes, while process 5 goes on reading. -/
def twoSessions : List Event :=
  readerEvents 3 ++ [.myFtrace ⟨5, "test"⟩ 5, .syscall ⟨7, "cat"⟩ .read ⟨none, 3⟩,
    .myFtrace ⟨7, "cat"⟩ 7, .syscall ⟨7, "cat"⟩ .write ⟨none, 3⟩,
    .syscall ⟨5, "test"⟩ .read ⟨none, 3⟩]

theorem report_truth_two_sessions :
    (∀ pre out σ, pre <+: twoSessions →
        (traceMachine threeBytes 0).run (started ()) pre = some (out, σ) → ReportsTruth σ) ↔
      (traceMachine threeBytes 0).Along (Faithful threeBytes) (started ()) twoSessions :=
  report_truth_iff threeBytes 0 () twoSessions (by decide)

/-- The process asks for 100 bytes and gets 3; 100 are reported. -/
theorem report_counts_requested :
    ¬ ∀ pre out σ, pre <+: readerEvents 100 →
      (traceMachine threeBytes 0).run (started ()) pre = some (out, σ) → ReportsTruth σ := by
  intro h
  have htruth := h _ _ _ (List.prefix_refl _) rfl ⟨5, "test"⟩ ⟨5, [(.read, 3)]⟩ rfl
  have hbytes := congrArg (Option.map fun report : Report => report.bytes .read) htruth
  exact absurd hbytes (by decide)

end OsProjects.IoTrace
