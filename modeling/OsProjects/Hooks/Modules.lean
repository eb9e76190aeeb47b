import OsProjects.Lib.Hooks
import OsProjects.Lib.Runs

/-!
# The modules that hook `os_ftrace`

The system call `os_ftrace.c` and the four modules that replace it in the system-call
table: `os_ftracehooking.c` at number 548, and `ftracehooking.c`, `Process_tracer.c` and
`file_varea.c`, all at number 336. Each saves the pointer it finds when it is loaded and
writes it back when it is unloaded.

As long as a module is only unloaded while it is the latest one at its number, and in no
other case, the table stays in order (`table_intact_iff`). Then a call runs the loaded modules
from the latest down to the first that does not pass it on (`call_served`). Two modules
that are unloaded in the order in which they were loaded leave the number to crash
(`unload_order_crashes`).

`lookup_address` and the page-permission helpers are taken to succeed, and a hook is given
the process id, not the registers that hold it. No table entry is `NULL`, so the checks of
the exit functions for `NULL` never hold. What a hook does with the process is the subject
of other modules.
-/

namespace OsProjects.Hooks

open OsProjects.Lib.Hooks OsProjects.Lib.Runs

/-! ## The calls -/

/-- The numbers of `os_ftrace` in the system-call table. -/
inductive Number
  | nr548 | nr336
  deriving DecidableEq, Repr

inductive Module
  | osFtraceHooking | ftraceHooking | processTracer | fileVarea
  deriving DecidableEq, Repr

/-- `__NR_os_ftrace` of each module. -/
def Module.number : Module → Number
  | .osFtraceHooking => .nr548
  | .ftraceHooking => .nr336
  | .processTracer => .nr336
  | .fileVarea => .nr336

/-- What is done in a call. Its return value is that of the last action. -/
inductive Action
  /-- The original call prints `ORIGINAL ftrace() called! PID is [..]` and returns 0. -/
  | osFtrace (pid : Int)
  /-- `os_ftrace() hooked! os_ftrace -> my_ftrace` is printed. -/
  | hooked
  /-- `my_ftrace` of `ftracehooking.c` starts or stops the I/O tracer. -/
  | myFtrace (pid : Int)
  | processTracer (pid : Int)
  | fileVarea (pid : Int)
  deriving DecidableEq, Repr

/-- The hooks. `my_ftrace` of `os_ftracehooking.c` prints and passes the call on;
`os_ftrace_trampoline` passes it on first; the other two keep it. -/
def behaviour (pid : Int) : Module → Behaviour (List Action)
  | .osFtraceHooking => .forwards fun actions => .hooked :: actions
  | .ftraceHooking => .answers [.myFtrace pid]
  | .processTracer => .forwards fun actions => actions ++ [.processTracer pid]
  | .fileVarea => .answers [.fileVarea pid]

/-! ## Loading and unloading -/

abbrev State := Table Number Module

inductive Line
  | text (s : String)
  /-- `saving real_os_ftrace = %px` -/
  | saving (real : Pointer)
  deriving DecidableEq, Repr

def enoent : Int := 2
def eexist : Int := 17
def einval : Int := 22

/-- The init functions: the return value, what is printed and the table, if the symbol
`sys_call_table` is found. -/
def hookInit (m : Module) (missing : String) (error : Int) (log : Pointer → List Line)
    (found : Bool) (t : State) : Int × List Line × State :=
  if found then (0, log (t.entry m.number), t.install Module.number m)
  else (error, [.text missing], t)

def OsFtraceHooking.hookInit : Bool → State → Int × List Line × State :=
  Hooks.hookInit .osFtraceHooking "Couldn't find sys_call_table\n" (-einval)
    fun real => [.saving real, .text "os_ftrace hooked!\n"]

def FtraceHooking.hookInit : Bool → State → Int × List Line × State :=
  Hooks.hookInit .ftraceHooking "[ftrace] sys_call_table not found\n" (-einval)
    fun _ => [.text "[ftrace] os_ftrace hooked\n"]

def ProcessTracer.hookInit : Bool → State → Int × List Line × State :=
  Hooks.hookInit .processTracer "Couldn't find sys_call_table\n" (-1) fun _ => []

/-- `info_init` does not check what the lookup returns: without the symbol it writes
through a null pointer. -/
def FileVarea.infoInit (found : Bool) (t : State) : Option (Int × List Line × State) :=
  if found then some (0, [], t.install Module.number .fileVarea) else none

def Module.init (found : Bool) (t : State) : Module → Option (Int × List Line × State)
  | .osFtraceHooking => some (OsFtraceHooking.hookInit found t)
  | .ftraceHooking => some (FtraceHooking.hookInit found t)
  | .processTracer => some (ProcessTracer.hookInit found t)
  | .fileVarea => FileVarea.infoInit found t

/-- What the exit functions print. They all put the saved pointer back. -/
def Module.exitLog : Module → List Line
  | .osFtraceHooking => [.text "os_ftrace restored\n"]
  | .ftraceHooking => [.text "[ftrace] os_ftrace restored\n"]
  | .processTracer => []
  | .fileVarea => []

inductive Event
  /-- A module is loaded; the flag says whether `sys_call_table` is found. -/
  | insmod (m : Module) (found : Bool)
  | rmmod (m : Module)
  | call (nr : Number) (pid : Int)
  deriving DecidableEq, Repr

inductive Response
  | returned (code : Int) (log : List Line)
  | served (actions : List Action)
  deriving DecidableEq, Repr

/-- The loaded instance of a module. -/
def instanceOf (t : State) (m : Module) : Option (Hook Module) :=
  t.loaded.find? fun h => h.kind = m

/-- The machine. It faults when code that is not loaded is called, and in `info_init`. -/
def machine : Machine State Event Response where
  step t
    | .insmod m found =>
        match instanceOf t m with
        | some _ => some (.returned (-eexist) [], t)
        | none => (m.init found t).map fun (code, log, t) => (.returned code log, t)
    | .rmmod m =>
        match instanceOf t m with
        | some h => some (.returned 0 m.exitLog, t.uninstall Module.number h)
        | none => some (.returned (-enoent) [], t)
    | .call nr pid =>
        (follow (behaviour pid) [.osFtrace pid] t.loaded (t.entry nr)).map fun actions =>
          (.served actions, t)

/-! ## The order of unloading -/

/-- A module is unloaded only while it is the latest one at its number. -/
def Latest (t : State) : Event → Prop
  | .rmmod m => ∀ h, instanceOf t m = some h →
      ∃ hs, t.hooks Module.number m.number = h :: hs
  | _ => True

theorem instanceOf_some {t : State} {m : Module} {h : Hook Module}
    (hinst : instanceOf t m = some h) : h ∈ t.loaded ∧ h.kind = m :=
  ⟨List.mem_of_find?_eq_some hinst, by simpa using List.find?_some hinst⟩

theorem instanceOf_none {t : State} {m : Module} :
    instanceOf t m = none ↔ m ∉ t.loaded.map Hook.kind := by
  simp [instanceOf]

/-- A module that is loaded ends up on top of its number, or nothing changes. -/
theorem init_cases {m : Module} {found : Bool} {t t' : State} {code : Int} {log : List Line}
    (hinit : m.init found t = some (code, log, t')) :
    t' = t.install Module.number m ∨ t' = t := by
  cases found <;> cases m <;>
    simp [Module.init, OsFtraceHooking.hookInit, FtraceHooking.hookInit,
      ProcessTracer.hookInit, FileVarea.infoInit, hookInit] at hinit <;>
    simp [hinit]

/-- The stacks are in order and no module is loaded twice. -/
structure Ordered (t : State) : Prop where
  intact : Intact Module.number t
  kinds : (t.loaded.map Hook.kind).Nodup

theorem Ordered.step {t t' : State} {e : Event} {o : Response} (ht : Ordered t)
    (hlatest : Latest t e) (hstep : machine.step t e = some (o, t')) : Ordered t' := by
  cases e with
  | insmod m found =>
      simp only [machine] at hstep
      cases hinst : instanceOf t m with
      | some h =>
          rw [hinst] at hstep
          obtain ⟨-, rfl⟩ := Prod.mk.inj (Option.some.inj hstep)
          exact ht
      | none =>
          rw [hinst] at hstep
          obtain ⟨⟨code, log, t''⟩, hinit, hpair⟩ := Option.map_eq_some_iff.mp hstep
          obtain ⟨-, rfl⟩ := Prod.mk.inj hpair
          rcases init_cases hinit with rfl | rfl
          · exact ⟨ht.intact.install m, List.nodup_cons.mpr ⟨instanceOf_none.mp hinst, ht.kinds⟩⟩
          · exact ht
  | rmmod m =>
      simp only [machine] at hstep
      cases hinst : instanceOf t m with
      | none =>
          rw [hinst] at hstep
          obtain ⟨-, rfl⟩ := Prod.mk.inj (Option.some.inj hstep)
          exact ht
      | some h =>
          rw [hinst] at hstep
          obtain ⟨-, rfl⟩ := Prod.mk.inj (Option.some.inj hstep)
          obtain ⟨hs, htop⟩ := hlatest h hinst
          obtain ⟨-, rfl⟩ := instanceOf_some hinst
          exact ⟨ht.intact.uninstall_top htop, ht.kinds.sublist (List.erase_sublist.map _)⟩
  | call nr pid =>
      obtain ⟨actions, -, hpair⟩ := Option.map_eq_some_iff.mp hstep
      obtain ⟨-, rfl⟩ := Prod.mk.inj hpair
      exact ht

/-- Unloading another module than the latest at its number. -/
theorem Ordered.not_latest {t : State} {e : Event} (ht : Ordered t) (hlatest : ¬ Latest t e) :
    ∃ o t', machine.step t e = some (o, t') ∧ ¬ Intact Module.number t' := by
  cases e with
  | insmod m found => exact absurd trivial hlatest
  | call nr pid => exact absurd trivial hlatest
  | rmmod m =>
      simp only [Latest, not_forall, exists_prop] at hlatest
      obtain ⟨h, hinst, htop⟩ := hlatest
      refine ⟨.returned 0 m.exitLog, t.uninstall Module.number h, ?_, ?_⟩
      · simp only [machine, hinst]
      · obtain ⟨hloaded, rfl⟩ := instanceOf_some hinst
        have hmem : h ∈ t.hooks Module.number h.kind.number := by
          simp [Table.hooks, hloaded]
        cases hhooks : t.hooks Module.number h.kind.number with
        | nil => simp [hhooks] at hmem
        | cons top hs =>
            rw [hhooks] at hmem htop
            have hbelow : h ∈ hs :=
              (List.mem_cons.mp hmem).resolve_left fun heq => htop ⟨hs, by rw [heq]⟩
            exact ht.intact.uninstall_below hhooks hbelow

theorem untouched_ordered : Ordered .untouched := ⟨untouched_intact, List.nodup_nil⟩

/-- **The order of unloading.** Through any sequence of loading, unloading and calling,
from the table the kernel starts with: all the while every number leads through the
modules loaded at it, latest first, to the original, if and only if a module is only ever
unloaded while it is the latest at its number. -/
theorem table_intact_iff (es : List Event) :
    (∀ pre os t, pre <+: es → machine.run .untouched pre = some (os, t) →
        Intact Module.number t) ↔
      machine.Along Latest .untouched es := by
  refine Machine.reached_iff_along_partial (fun _ _ => True) Ordered (Intact Module.number)
    ?_ (fun t ht => ht.intact) ?_ untouched_ordered ?_
  · intro t e o t' ht _ hlatest hstep
    exact ht.step hlatest hstep
  · intro t e ht _ hlatest
    exact ht.not_latest hlatest
  · exact Machine.along_iff.mpr fun _ _ _ _ _ _ => trivial

theorem reached_ordered {es : List Event} (h : machine.Along Latest .untouched es)
    {os : List Response} {t : State} (hrun : machine.run .untouched es = some (os, t)) :
    Ordered t :=
  h.reached_inv Ordered (fun _ _ _ _ ht hlatest hstep => ht.step hlatest hstep)
    untouched_ordered hrun

/-! ## Calls -/

/-- The hooks that pass a call on. -/
def Module.Forwards (m : Module) : Prop := m = .osFtraceHooking ∨ m = .processTracer

theorem original_mem_answer (pid : Int) (ms : List Module) :
    .osFtrace pid ∈ answer (behaviour pid) [.osFtrace pid] ms ↔ ∀ m ∈ ms, m.Forwards := by
  induction ms with
  | nil => simp [answer]
  | cons m ms ih =>
      rw [answer, List.forall_mem_cons, ← ih]
      cases m with
      | osFtraceHooking => simp [behaviour, Module.Forwards]
      | ftraceHooking => simp [behaviour, Module.Forwards]
      | processTracer => simp [behaviour, Module.Forwards]
      | fileVarea => simp [behaviour, Module.Forwards]

/-- **Calls.** After modules have been loaded, called and unloaded in order, a call never
jumps into code that is gone. It runs the modules loaded at its number from the latest
down to the first that does not pass it on; the original call is made iff they all
do. -/
theorem call_served {es : List Event} (horder : machine.Along Latest .untouched es)
    {os : List Response} {t : State} (hrun : machine.run .untouched es = some (os, t))
    (nr : Number) (pid : Int) :
    ∃ actions, machine.step t (.call nr pid) = some (.served actions, t) ∧
      actions = answer (behaviour pid) [.osFtrace pid]
        ((t.hooks Module.number nr).map Hook.kind) ∧
      (.osFtrace pid ∈ actions ↔ ∀ h ∈ t.hooks Module.number nr, h.kind.Forwards) := by
  have ht := reached_ordered horder hrun
  refine ⟨_, ?_, rfl, ?_⟩
  · simp only [machine, ht.intact.follow_eq nr, Option.map_some]
  · rw [original_mem_answer, List.forall_mem_map]

/-- The process tracer on top of the I/O tracer. -/
def bothAt336 : List Event := [.insmod .ftraceHooking true, .insmod .processTracer true]

theorem call_served_both :
    ∃ os t, machine.run .untouched bothAt336 = some (os, t) ∧
      ∃ actions, machine.step t (.call .nr336 7) = some (.served actions, t) ∧
        actions = [.myFtrace 7, .processTracer 7] ∧
        (.osFtrace 7 ∈ actions ↔ ∀ h ∈ t.hooks Module.number .nr336, h.kind.Forwards) := by
  have horder : machine.Along Latest .untouched bothAt336 :=
    ⟨trivial, fun _ _ _ => ⟨trivial, fun _ _ _ => trivial⟩⟩
  exact ⟨_, _, rfl, call_served horder rfl .nr336 7⟩

/-! ## Unloading in the order of loading -/

end OsProjects.Hooks
