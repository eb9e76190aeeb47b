import OsProjects.Lib.Workload
import OsProjects.Sched.Switches

/-!
# Busy and idle periods of FCFS and SJF

FCFS and SJF run the same tasks in different orders. With the switch before it
counted as part of a task's cost, each loop is a work-conserving server
(`Busy`), so its busy periods, and with them the idle segments and the final
time, do not depend on the order.
-/

namespace OsProjects.Sched

open OsProjects.Lib.Loops OsProjects.Lib.Workload

variable {N : Nat} {tasks : Fin N → Task} {π : Policy N} {s u t : SimState N} {k : Fin N}

/-! ## One iteration -/

/-- The tasks that are done. -/
def SimState.doneSet (s : SimState N) : Finset (Fin N) := {i | (s.P i).done = true}

theorem SimState.mem_doneSet {i : Fin N} : i ∈ s.doneSet ↔ (s.P i).done = true := by
  simp [doneSet]

/-- A task that is done at the end of the iteration that runs it is the only new
one. -/
theorem Serves.doneSet_eq {r : Int} (hu : s.awaitReady = some u) (h : Serves u k r t)
    (hdone : (t.P k).done = true) : t.doneSet = insert k s.doneSet := by
  ext i
  rw [Finset.mem_insert, SimState.mem_doneSet, SimState.mem_doneSet]
  by_cases hi : i = k
  · simp [hi, hdone]
  · rw [h.P_of_ne hi, SimState.awaitReady_P hu]
    simp [hi]

/-- What every iteration of FCFS and SJF keeps, besides the service. A task is
started only to be completed, and `prev_pid` names a completed one. -/
structure RunInv (tasks : Fin N → Task) (s : SimState N) : Prop where
  inv : SimInv tasks s
  law : Switching s.segs s.prev
  first : s.prev = pidIdle → s = simInit fun i => (tasks i).load
  unstarted : ∀ i, (s.P i).done = false → (s.P i).started = false
  arrived : ∀ i, (s.P i).done = true → ms (tasks i).arrival ≤ s.now
  prev_done : ∀ i, s.prev = (tasks i).pid → (s.P i).done = true

/-- The iteration that takes `s` to `t`: it waits until `u` and runs the task
`k` completely. -/
structure RunsTask (tasks : Fin N → Task) (s u : SimState N) (k : Fin N) (t : SimState N) :
    Prop where
  waits : s.awaitReady = some u
  ready : ready u.P u.now k = true
  serves : Serves u k (ms (tasks k).burst) t
  prev : t.prev = (tasks k).pid
  now : t.now = u.now + (if s.prev = pidIdle then 0 else csOverhead) + ms (tasks k).burst
  fresh : k ∉ s.doneSet
  doneSet : t.doneSet = insert k s.doneSet

theorem runInv_init (htasks : TasksOk tasks) : RunInv tasks (simInit fun i => (tasks i).load) where
  inv := simInit_inv htasks
  law := switching_idle (by simp [simInit])
  first _ := rfl
  unstarted _ _ := rfl
  arrived i hdone := by simp [simInit, Task.load] at hdone
  prev_done i hprev := absurd hprev (htasks.pid_ne_idle i)

theorem RunInv.iteration (htasks : TasksOk tasks) (h : RunInv tasks s)
    (hbody : simBody π.pick SimState.runToEnd s = some t) :
    ∃ u k, RunsTask tasks s u k t ∧ π.pick u.P u.now = some k := by
  obtain ⟨u, k, hu, hk, rfl⟩ := simBody_some hbody
  have hinvu := h.inv.awaitReady htasks hu
  have hready := π.picks_ready u.P u.now k hk
  have hP := SimState.awaitReady_P hu
  obtain ⟨hundone, -⟩ := ready_iff.mp hready
  have hundones : (s.P k).done = false := hP ▸ hundone
  -- the task has not run before
  have hremain : (u.P k).remain = ms (tasks k).burst := by
    rw [hP]
    exact (h.inv.task k).fresh (h.unstarted k hundones)
  have hserves := runToEnd_serves ((hinvu.task k).remain_pos hundone)
  have hdone : ((u.runToEnd k).P k).done = true := by
    rw [hserves.done_iff hundone]
    simp
  refine ⟨u, k, ⟨hu, hready, hremain ▸ hserves, ?_, ?_, ?_, hserves.doneSet_eq hu hdone⟩, hk⟩
  · rw [runToEnd_prev, (hinvu.task k).pid]
  · have hne : s.prev ≠ (u.P k).pid := fun heq => by
      have hk := h.prev_done k (heq.trans (hinvu.task k).pid)
      simp [hk] at hundones
    rw [hserves.now, SimState.switchTo_now, SimState.awaitReady_prev hu, hremain]
    by_cases hidle : s.prev = pidIdle
    · rw [if_neg (fun hs => hs.2 hidle), if_pos hidle]
      omega
    · rw [if_pos ⟨hne, hidle⟩, if_neg hidle]
  · rw [SimState.mem_doneSet, hundones]
    simp

namespace RunsTask

variable (h : RunsTask tasks s u k t)

include h

theorem now_le : s.now ≤ u.now ∧ u.now < t.now := by
  have hwait := (SimState.awaitReady_some h.waits).2.1
  have hpos := h.serves.pos
  have hswitch := SimState.now_le_switchTo (s := u) (k := k)
  have hnow := h.serves.now
  omega

theorem P_of_ne {i : Fin N} (hi : i ≠ k) : t.P i = s.P i := by
  rw [h.serves.P_of_ne hi, SimState.awaitReady_P h.waits]

theorem prev_ne (htasks : TasksOk tasks) : t.prev ≠ pidIdle := by
  rw [h.prev]
  exact (htasks.pid_ne_idle k).symm

theorem done_self : (t.P k).done = true := by
  rw [← SimState.mem_doneSet, h.doneSet]
  exact Finset.mem_insert_self k _

theorem arrived (hinv : SimInv tasks s) : ms (tasks k).arrival ≤ u.now := by
  have harrived := (ready_iff.mp h.ready).2
  rw [SimState.awaitReady_P h.waits] at harrived
  rwa [(hinv.task k).arrival] at harrived

theorem unserved_lt : t.unserved < s.unserved := by
  have hlt := h.serves.unserved_lt
  unfold SimState.unserved at hlt ⊢
  rwa [SimState.awaitReady_P h.waits] at hlt

end RunsTask

theorem RunInv.step (htasks : TasksOk tasks) (h : RunInv tasks s)
    (hruns : RunsTask tasks s u k t) : RunInv tasks t := by
  have hinvu := h.inv.awaitReady htasks hruns.waits
  obtain ⟨hwait, hrun⟩ := hruns.now_le
  refine ⟨hinvu.serves htasks hruns.ready hruns.serves, ?_, fun hidle => ?_, fun i hi => ?_,
    fun i hi => ?_, fun i hprev => ?_⟩
  · rw [hruns.prev, ← (hinvu.task k).pid]
    exact h.law.serves htasks hinvu hruns.waits hruns.serves
  · exact absurd (hidle.symm.trans hruns.prev) (htasks.pid_ne_idle k)
  · have hne : i ≠ k := fun heq => by simp [heq, hruns.done_self] at hi
    rw [hruns.P_of_ne hne] at hi ⊢
    exact h.unstarted i hi
  · by_cases hik : i = k
    · have harrived := hruns.arrived h.inv
      rw [hik]
      omega
    · rw [hruns.P_of_ne hik] at hi
      have harrived := h.arrived i hi
      omega
  · rw [← htasks.pid_inj k i (hruns.prev.symm.trans hprev)]
    exact hruns.done_self

/-! ## Busy periods -/

/-- The time a task occupies the CPU, with the switch before it. -/
def Task.cost (task : Task) : Int := ms task.burst + csOverhead

theorem TasksOk.cost_nonneg (htasks : TasksOk tasks) (i : Fin N) : 0 ≤ (tasks i).cost := by
  have hburst := htasks.burst_pos i
  simp only [Task.cost, ms, csOverhead]
  omega

/-- The simulator is in the busy period that began at `start`. -/
def InPeriod (tasks : Fin N → Task) (start base : Int) (s : SimState N) : Prop :=
  Busy (fun i => ms (tasks i).arrival) (fun i => (tasks i).cost) start base s.doneSet s.now

theorem SimState.awaitReady_of_ready (h : anyReady s.P s.now = true) : s.awaitReady = some s := by
  unfold awaitReady
  rw [if_pos h]

theorem InPeriod.step (htasks : TasksOk tasks) (hinv : RunInv tasks s) {start base : Int}
    (h : InPeriod tasks start base s) (hprev : s.prev ≠ pidIdle)
    (hready : anyReady s.P s.now = true) (hruns : RunsTask tasks s u k t) :
    InPeriod tasks start base t := by
  obtain rfl : s = u :=
    Option.some.inj ((SimState.awaitReady_of_ready hready).symm.trans hruns.waits)
  have hserve := h.serve htasks.cost_nonneg hruns.fresh (hruns.arrived hinv.inv)
  rw [← hruns.doneSet] at hserve
  have hnow : t.now = s.now + (tasks k).cost := by
    rw [hruns.now, if_neg hprev, Task.cost]
    omega
  unfold InPeriod
  rw [hnow]
  exact hserve

/-- Nothing has run yet, or all tasks that have arrived are done. -/
def AtRest (tasks : Fin N → Task) (s : SimState N) : Prop :=
  s.prev = pidIdle ∨ ∀ i, i ∉ s.doneSet ↔ s.now < ms (tasks i).arrival

/-- Waiting does not pass over an arrival. -/
theorem SimState.awaitReady_le (hu : s.awaitReady = some u) {i : Fin N}
    (hundone : (s.P i).done = false) (hlater : s.now ≤ ms (s.P i).arrival) :
    u.now ≤ ms (s.P i).arrival := by
  unfold awaitReady at hu
  split_ifs at hu with hready
  · rwa [← Option.some.inj hu]
  · obtain ⟨nx, hnx, rfl⟩ := Option.map_eq_some_iff.mp hu
    have hle := nextArrivalAfter_le hnx hundone (anyReady_false (by simpa using hready) hundone)
    show 10 * (s.P nx).arrival ≤ 10 * (s.P i).arrival
    omega

/-- After the waiting, the tasks that are done are those that arrived before. -/
theorem AtRest.opens (harrival : ∀ i, 0 ≤ (tasks i).arrival) (hinv : RunInv tasks s)
    (hrest : AtRest tasks s) (hu : s.awaitReady = some u) (i : Fin N) :
    i ∈ s.doneSet ↔ ms (tasks i).arrival < u.now := by
  rw [SimState.mem_doneSet]
  have hle : (s.P i).done = false → s.now ≤ ms (tasks i).arrival →
      u.now ≤ ms (tasks i).arrival := by
    rw [← (hinv.inv.task i).arrival]
    exact SimState.awaitReady_le hu
  rcases hrest with hidle | hrest
  · rw [hinv.first hidle] at hle ⊢
    have hpos := harrival i
    have hlater := hle rfl (by show (0 : Int) ≤ 10 * (tasks i).arrival; omega)
    simpa [simInit, Task.load] using hlater
  · refine ⟨fun hdone => ?_, fun hlt => ?_⟩
    · -- some task is ready after the waiting, and none was before
      obtain ⟨j, hj⟩ := anyReady_iff.mp (SimState.awaitReady_some hu).2.2
      obtain ⟨hundone, harrived⟩ := ready_iff.mp hj
      rw [(hinv.inv.task j).arrival] at harrived
      have hlate := (hrest j).mp (by simp [SimState.mem_doneSet, hundone])
      have hearly := hinv.arrived i hdone
      omega
    · by_contra hundone
      have hundone : (s.P i).done = false := by simpa using hundone
      have hlate := (hrest i).mp (by simp [SimState.mem_doneSet, hundone])
      have := hle hundone hlate.le
      omega

/-- The first task of a busy period. The very first one of all needs no
switch. -/
theorem AtRest.begins (htasks : TasksOk tasks) (harrival : ∀ i, 0 ≤ (tasks i).arrival)
    (hinv : RunInv tasks s) (hrest : AtRest tasks s) (hruns : RunsTask tasks s u k t) :
    InPeriod tasks u.now (u.now + if s.prev = pidIdle then -csOverhead else 0) t := by
  have hopens := hrest.opens harrival hinv hruns.waits
  have hk : ms (tasks k).arrival = u.now := by
    have hle := hruns.arrived hinv.inv
    have hge : ¬ ms (tasks k).arrival < u.now := fun hlt => hruns.fresh ((hopens k).mpr hlt)
    omega
  have hburst := htasks.burst_pos k
  have hbase : u.now ≤ (u.now + if s.prev = pidIdle then -csOverhead else 0) + (tasks k).cost := by
    simp only [Task.cost, ms, csOverhead]
    split_ifs <;> omega
  have hbegin := Busy.begin htasks.cost_nonneg hopens hk hbase
  rw [← hruns.doneSet] at hbegin
  have hnow : t.now = u.now + (if s.prev = pidIdle then -csOverhead else 0) + (tasks k).cost := by
    rw [hruns.now, Task.cost]
    split_ifs <;> omega
  unfold InPeriod
  rw [hnow]
  exact hbegin

/-! ## Idle segments and switches -/

def idleSegs (segs : List Segment) : List Segment := segs.filter fun seg => seg.pid = pidIdle

/-- Only idle periods change the idle segments, only switches the switches. -/
theorem filter_addSeg_of_ne {segs : List Segment} {start stop pid p : Int} (hne : pid ≠ p) :
    (addSeg segs start stop pid).filter (fun seg => seg.pid = p) =
      segs.filter fun seg => seg.pid = p := by
  by_cases hlt : start < stop
  · rcases addSeg_cases segs pid hlt with heq | ⟨front, last, rfl, -, hpid, heq⟩
    · rw [heq, List.filter_append]
      simp [hne]
    · rw [heq, List.filter_append, List.filter_append]
      simp [hpid, hne]
  · rw [addSeg_of_le (not_lt.mp hlt)]

theorem switchLengths_addSeg {segs : List Segment} {start stop pid : Int} (hne : pid ≠ pidCs) :
    switchLengths (addSeg segs start stop pid) = switchLengths segs := by
  unfold switchLengths
  rw [filter_addSeg_of_ne hne]

theorem RunInv.last_ne (hinv : RunInv tasks s) {pid : Int} (hpid : pid < 0) :
    ∀ last ∈ s.segs.getLast?, last.pid ≠ pid := by
  intro last hlast
  rcases hinv.law.last with ⟨hidle, -⟩ | ⟨front, x, hsegs, hx, -⟩
  · rw [hinv.first hidle] at hlast
    simp [simInit] at hlast
  · rw [hsegs] at hlast
    obtain rfl : x = last := by simpa using hlast
    omega

/-- The idle segment an iteration adds. -/
theorem RunsTask.idleSegs_eq (htasks : TasksOk tasks) (hinv : RunInv tasks s)
    (hruns : RunsTask tasks s u k t) :
    idleSegs t.segs =
      idleSegs s.segs ++ if s.now < u.now then [⟨s.now, u.now, pidIdle⟩] else [] := by
  have hinvu := hinv.inv.awaitReady htasks hruns.waits
  have hpid : (u.P k).pid ≠ pidIdle := by
    rw [(hinvu.task k).pid]
    exact (htasks.pid_ne_idle k).symm
  unfold idleSegs
  rw [hruns.serves.segs_eq hruns.waits, filter_addSeg_of_ne hpid, filter_addSeg_of_ne (by decide)]
  split_ifs with hlt
  · rw [addSeg_append hlt (hinv.last_ne (by decide)), List.filter_append]
    rfl
  · rw [addSeg_of_le (not_lt.mp hlt), List.append_nil]

/-- The switch an iteration adds. -/
theorem RunsTask.switchLengths_eq (htasks : TasksOk tasks) (hinv : RunInv tasks s)
    (hruns : RunsTask tasks s u k t) :
    switchLengths t.segs =
      switchLengths s.segs ++ if s.prev = pidIdle then [] else [csOverhead] := by
  have hinvu := hinv.inv.awaitReady htasks hruns.waits
  have hpid : (u.P k).pid ≠ pidCs := by
    rw [(hinvu.task k).pid]
    exact (htasks.pid_ne_cs k).symm
  have hswitch : (u.switchTo k).now = u.now + if s.prev = pidIdle then 0 else csOverhead := by
    have hnow := hruns.now
    have hserves := hruns.serves.now
    omega
  rw [hruns.serves.segs_eq hruns.waits, hswitch, switchLengths_addSeg hpid]
  rcases hinv.law.last with ⟨hidle, -⟩ | ⟨front, x, hsegs, hx, hprev⟩
  · rw [if_pos hidle, if_pos hidle, add_zero, addSeg_of_le le_rfl, switchLengths_addSeg (by decide),
      List.append_nil]
  · have hne : s.prev ≠ pidIdle := by
      rw [← hprev]
      simp only [pidIdle]
      omega
    obtain ⟨gap, hgap, -, hlengths⟩ := record_gap front hx s.now u.now (u.now + csOverhead)
    rw [if_neg hne, if_neg hne, hsegs, hgap, switchLengths_append, hlengths]
    simp [csOverhead]

/-! ## Whole runs -/

/-- A busy period goes on until the simulator is at rest. -/
theorem InPeriod.reaches_rest (htasks : TasksOk tasks) {start base : Int} (hinv : RunInv tasks s)
    (h : InPeriod tasks start base s) (hprev : s.prev ≠ pidIdle) :
    ∃ e, Reaches (simBody π.pick SimState.runToEnd) s e ∧ RunInv tasks e ∧
      InPeriod tasks start base e ∧ e.prev ≠ pidIdle ∧ idleSegs e.segs = idleSegs s.segs ∧
      (∀ i, i ∉ e.doneSet ↔ e.now < ms (tasks i).arrival) ∧ e.unserved ≤ s.unserved := by
  induction hn : s.unserved using Nat.strong_induction_on generalizing s with
  | _ n ih =>
      by_cases hready : anyReady s.P s.now = true
      · obtain ⟨j, hj⟩ := anyReady_iff.mp hready
        obtain ⟨t, hbody⟩ := π.goes_on (ready_iff.mp hj).1
        obtain ⟨u, k, hruns, -⟩ := hinv.iteration htasks hbody
        have hnext := h.step htasks hinv hprev hready hruns
        have hlt := hruns.unserved_lt
        obtain ⟨e, hreach, hinve, hperiod, hpreve, hidlee, hrest, hle⟩ :=
          ih t.unserved (hn ▸ hlt) (hinv.step htasks hruns) hnext (hruns.prev_ne htasks) rfl
        refine ⟨e, .head hbody hreach, hinve, hperiod, hpreve, ?_, hrest, by omega⟩
        -- no idle period was added
        obtain rfl : s = u :=
          Option.some.inj ((SimState.awaitReady_of_ready hready).symm.trans hruns.waits)
        have hidle := hruns.idleSegs_eq htasks hinv
        rw [if_neg (lt_irrefl _), List.append_nil] at hidle
        rw [hidlee, hidle]
      · refine ⟨s, .refl s, hinv, h, hprev, rfl, fun i => ⟨fun hi => ?_, fun hlt hi => ?_⟩,
          by omega⟩
        · rw [SimState.mem_doneSet, Bool.not_eq_true] at hi
          rw [← (hinv.inv.task i).arrival]
          exact anyReady_false (by simpa using hready) hi
        · have harrived := hinv.arrived i (SimState.mem_doneSet.mp hi)
          omega

/-- Two simulators at rest at the same time, with the same tasks done and the
same idle segments. -/
structure SameRest (tasks : Fin N → Task) (s s' : SimState N) : Prop where
  inv : RunInv tasks s
  inv' : RunInv tasks s'
  rest : AtRest tasks s
  now : s.now = s'.now
  prev : s.prev = pidIdle ↔ s'.prev = pidIdle
  doneSet : s.doneSet = s'.doneSet
  idle : idleSegs s.segs = idleSegs s'.segs

theorem SameRest.rest' {s' : SimState N} (h : SameRest tasks s s') : AtRest tasks s' := by
  rcases h.rest with hprev | hrest
  · exact Or.inl (h.prev.mp hprev)
  · right
    rwa [h.doneSet, h.now] at hrest

/-- They wait until the same time. -/
theorem SameRest.waits {s' u' : SimState N} (harrival : ∀ i, 0 ≤ (tasks i).arrival)
    (h : SameRest tasks s s') (hu : s.awaitReady = some u) (hu' : s'.awaitReady = some u') :
    u.now = u'.now := by
  have hopens := h.rest.opens harrival h.inv hu
  have hopens' := h.rest'.opens harrival h.inv' hu'
  rw [← h.doneSet] at hopens'
  -- the first ready task of one arrives no earlier than the other's
  obtain ⟨j, hj⟩ := anyReady_iff.mp (SimState.awaitReady_some hu).2.2
  obtain ⟨hundone, harrived⟩ := ready_iff.mp hj
  obtain ⟨j', hj'⟩ := anyReady_iff.mp (SimState.awaitReady_some hu').2.2
  obtain ⟨hundone', harrived'⟩ := ready_iff.mp hj'
  have hfresh : j ∉ s.doneSet := by simp [SimState.mem_doneSet, hundone]
  have hfresh' : j' ∉ s.doneSet := by
    rw [h.doneSet]
    simp [SimState.mem_doneSet, hundone']
  rw [(h.inv.inv.task j).arrival] at harrived
  rw [(h.inv'.inv.task j').arrival] at harrived'
  rw [hopens'] at hfresh
  rw [hopens] at hfresh'
  omega

variable {π' : Policy N} {s' t' : SimState N}

/-- From the same rest both simulators come to the same rest again. -/
theorem SameRest.next {v v' : SimState N} (htasks : TasksOk tasks)
    (harrival : ∀ i, 0 ≤ (tasks i).arrival) (h : SameRest tasks s s')
    (hbody : simBody π.pick SimState.runToEnd s = some v)
    (hbody' : simBody π'.pick SimState.runToEnd s' = some v') :
    ∃ e e', Reaches (simBody π.pick SimState.runToEnd) v e ∧
      Reaches (simBody π'.pick SimState.runToEnd) v' e' ∧ SameRest tasks e e' ∧
      e.unserved < s.unserved := by
  obtain ⟨u, k, hruns, -⟩ := h.inv.iteration htasks hbody
  obtain ⟨u', k', hruns', -⟩ := h.inv'.iteration htasks hbody'
  have hperiod := h.rest.begins htasks harrival h.inv hruns
  have hperiod' := h.rest'.begins htasks harrival h.inv' hruns'
  simp only [← h.waits harrival hruns.waits hruns'.waits, ← h.prev] at hperiod'
  obtain ⟨e, hreach, hinv, hrest, hpreve, hidle, hiff, hle⟩ :=
    hperiod.reaches_rest (π := π) htasks (h.inv.step htasks hruns) (hruns.prev_ne htasks)
  obtain ⟨e', hreach', hinv', hrest', hpreve', hidle', hiff', -⟩ :=
    hperiod'.reaches_rest (π := π') htasks (h.inv'.step htasks hruns') (hruns'.prev_ne htasks)
  have hlt := hruns.unserved_lt
  obtain ⟨hnow, hdone⟩ := Busy.rest_unique hrest (fun i => (hiff i).mp) hrest' fun i => (hiff' i).mp
  refine ⟨e, e', hreach, hreach', ⟨hinv, hinv', Or.inr hiff, hnow, ?_, hdone, ?_⟩, by omega⟩
  · simp [hpreve, hpreve']
  · rw [hidle, hidle', hruns.idleSegs_eq htasks h.inv, hruns'.idleSegs_eq htasks h.inv', h.idle,
      h.now, h.waits harrival hruns.waits hruns'.waits]

/-- So both end at the same time with the same idle segments. -/
theorem SameRest.ends (htasks : TasksOk tasks) (harrival : ∀ i, 0 ≤ (tasks i).arrival)
    (h : SameRest tasks s s')
    (ht : Reaches (simBody π.pick SimState.runToEnd) s t)
    (hexit : simBody π.pick SimState.runToEnd t = none)
    (ht' : Reaches (simBody π'.pick SimState.runToEnd) s' t')
    (hexit' : simBody π'.pick SimState.runToEnd t' = none) :
    t.now = t'.now ∧ idleSegs t.segs = idleSegs t'.segs := by
  induction hn : s.unserved using Nat.strong_induction_on generalizing s s' with
  | _ n ih =>
      cases hbody : simBody π.pick SimState.runToEnd s with
      | none =>
          have hall' : simBody π'.pick SimState.runToEnd s' = none := by
            have hall : allDone s'.P = true := by
              refine allDone_iff.mpr fun i => SimState.mem_doneSet.mp ?_
              rw [← h.doneSet, SimState.mem_doneSet]
              exact π.all_done_at_exit hbody i
            simp [simBody, hall]
          obtain rfl := ht.eq_of_exit hbody
          obtain rfl := ht'.eq_of_exit hall'
          exact ⟨h.now, h.idle⟩
      | some v =>
          obtain ⟨v', hbody'⟩ : ∃ v', simBody π'.pick SimState.runToEnd s' = some v' := by
            obtain ⟨u, k, hruns, -⟩ := h.inv.iteration htasks hbody
            refine π'.goes_on (i := k) ?_
            rw [← Bool.not_eq_true, ← SimState.mem_doneSet, ← h.doneSet]
            exact hruns.fresh
          obtain ⟨e, e', hreach, hreach', hsame, hlt⟩ := h.next htasks harrival hbody hbody'
          have het := Reaches.to_exit (.head hbody hreach) ht hexit
          have het' := Reaches.to_exit (.head hbody' hreach') ht' hexit'
          exact ih e.unserved (hn ▸ hlt) hsame het het' rfl

/-! ## Utilization -/

theorem foldl_finish_le {P : Fin N → Proc} {l : List (Fin N)} {m b : Int} (hm : m ≤ b)
    (hle : ∀ i, (P i).finish ≤ b) :
    l.foldl (fun m i => if (P i).finish > m then (P i).finish else m) m ≤ b := by
  induction l generalizing m with
  | nil => exact hm
  | cons i l ih =>
      refine ih ?_
      show (if (P i).finish > m then (P i).finish else m) ≤ b
      split_ifs
      · exact hle i
      · exact hm

theorem le_foldl_finish {P : Fin N → Proc} {l : List (Fin N)} {m b : Int}
    (h : b ≤ m ∨ ∃ i ∈ l, b ≤ (P i).finish) :
    b ≤ l.foldl (fun m i => if (P i).finish > m then (P i).finish else m) m := by
  induction l generalizing m with
  | nil => simpa using h
  | cons i l ih =>
      refine ih ?_
      show b ≤ (if (P i).finish > m then (P i).finish else m) ∨ _
      rcases h with h | ⟨j, hj, h⟩
      · left
        split_ifs <;> omega
      · rcases List.mem_cons.mp hj with rfl | hj
        · left
          split_ifs <;> omega
        · exact Or.inr ⟨j, hj, h⟩

theorem finishMax_eq {P : Fin N → Proc} {m : Int} (hle : ∀ i, (P i).finish ≤ m)
    (hlast : m = 0 ∨ ∃ i, (P i).finish = m) (hm : 0 ≤ m) : finishMax P = m := by
  refine le_antisymm (foldl_finish_le hm hle) (le_foldl_finish ?_)
  rcases hlast with rfl | ⟨i, hi⟩
  · exact Or.inl le_rfl
  · exact Or.inr ⟨i, List.mem_finRange i, hi.ge⟩

/-- Each task but the first was charged a switch, and the last one to finish
finished now. -/
structure ChargeInv (s : SimState N) : Prop where
  now_nonneg : 0 ≤ s.now
  switches : switchLengths s.segs = List.replicate (s.doneSet.card - 1) csOverhead
  finish_le : ∀ i, (s.P i).finish ≤ s.now
  last : s.prev = pidIdle ∨ ∃ i ∈ s.doneSet, (s.P i).finish = s.now

theorem RunsTask.finish_self (hruns : RunsTask tasks s u k t) : (t.P k).finish = t.now := by
  have hdone := hruns.done_self
  rw [hruns.serves.done_iff (ready_iff.mp hruns.ready).1] at hdone
  rw [hruns.serves.P_self, Proc.ran_start_finish hdone]

theorem ChargeInv.step (htasks : TasksOk tasks) (hinv : RunInv tasks s) (h : ChargeInv s)
    (hruns : RunsTask tasks s u k t) : ChargeInv t := by
  obtain ⟨hwait, hrun⟩ := hruns.now_le
  refine ⟨by have := h.now_nonneg; omega, ?_, fun i => ?_,
    Or.inr ⟨k, SimState.mem_doneSet.mpr hruns.done_self, hruns.finish_self⟩⟩
  · rw [hruns.switchLengths_eq htasks hinv, h.switches, hruns.doneSet,
      Finset.card_insert_of_notMem hruns.fresh, Nat.add_sub_cancel]
    rcases h.last with hidle | ⟨i, hi, -⟩
    · have hempty : s.doneSet = ∅ := by
        rw [hinv.first hidle]
        simp [SimState.doneSet, simInit, Task.load]
      simp [hempty, hidle]
    · have hne : s.prev ≠ pidIdle := fun hidle => by
        rw [hinv.first hidle] at hi
        simp [SimState.mem_doneSet, simInit, Task.load] at hi
      have hcard := Finset.card_pos.mpr ⟨i, hi⟩
      rw [if_neg hne, ← List.replicate_succ']
      congr 1
      omega
  · by_cases hi : i = k
    · rw [hi, hruns.finish_self]
    · have hle := h.finish_le i
      rw [hruns.P_of_ne hi]
      omega

theorem chargeInv_init (tasks : Fin N → Task) : ChargeInv (simInit fun i => (tasks i).load) where
  now_nonneg := le_rfl
  switches := by simp [switchLengths, simInit, SimState.doneSet, Task.load]
  finish_le _ := le_rfl
  last := Or.inl rfl

/-- The state in which FCFS or SJF ends. -/
theorem runToEnd_final (htasks : TasksOk tasks) (π : Policy N) :
    ∃ fuel t, loop (simBody π.pick SimState.runToEnd) fuel (simInit fun i => (tasks i).load) =
      some t ∧ RunInv tasks t ∧ ChargeInv t := by
  obtain ⟨fuel, t, hloop⟩ := simBody_terminates (π := π) htasks runToEnd_servesReady
  refine ⟨fuel, t, hloop, (loop_some hloop).1.inv (fun s => RunInv tasks s ∧ ChargeInv s) ?_
    ⟨runInv_init htasks, chargeInv_init tasks⟩⟩
  intro s t h hbody
  obtain ⟨u, k, hruns, -⟩ := h.1.iteration htasks hbody
  exact ⟨h.1.step htasks hruns, h.2.step htasks h.1 hruns⟩

theorem ChargeInv.finishMax_eq (hinv : RunInv tasks s) (h : ChargeInv s) :
    finishMax s.P = s.now := by
  refine OsProjects.Sched.finishMax_eq h.finish_le ?_ h.now_nonneg
  rcases h.last with hidle | ⟨i, -, hi⟩
  · left
    rw [hinv.first hidle]
    rfl
  · exact Or.inr ⟨i, hi⟩

theorem printStats_util (hinv : RunInv tasks s) (h : ChargeInv s) :
    (printStats s.P).util =
      if s.now > 0 then
        sumTime (fun i => (tasks i).load) (fun p => ms p.burst) / (s.now / 10) * 100
      else 0 := by
  have hburst : sumTime s.P (fun p => ms p.burst) =
      sumTime (fun i => (tasks i).load) fun p => ms p.burst := by
    unfold sumTime
    congr 3
    exact List.map_congr_left fun i _ => congrArg ms (hinv.inv.task i).burst
  show (if finishMax s.P > 0 then _ else _) = _
  rw [h.finishMax_eq hinv, hburst]

/-- **Busy periods.** FCFS and SJF end at the same time, with the same idle
segments, one switch less than tasks, and the same CPU utilization. -/
theorem fcfs_sjf_same_periods (htasks : TasksOk tasks) (harrival : ∀ i, 0 ≤ (tasks i).arrival) :
    ∃ fuel t fuel' t', simulateFCFS fuel (fun i => (tasks i).load) = some t ∧
      simulateSJF fuel' (fun i => (tasks i).load) = some t' ∧
      t.now = t'.now ∧ idleSegs t.segs = idleSegs t'.segs ∧
      switchLengths t.segs = List.replicate (N - 1) csOverhead ∧
      switchLengths t'.segs = List.replicate (N - 1) csOverhead ∧
      (printStats t.P).util = (printStats t'.P).util := by
  obtain ⟨fuel, t, hloop, hinv, hcharge⟩ := runToEnd_final htasks fcfs
  obtain ⟨fuel', t', hloop', hinv', hcharge'⟩ := runToEnd_final htasks sjf
  obtain ⟨hreach, hexit⟩ := loop_some hloop
  obtain ⟨hreach', hexit'⟩ := loop_some hloop'
  have hstart := runInv_init htasks
  obtain ⟨hnow, hidle⟩ := SameRest.ends htasks harrival
    ⟨hstart, hstart, Or.inl rfl, rfl, Iff.rfl, rfl, rfl⟩ hreach hexit hreach' hexit'
  have hall : t.doneSet = Finset.univ := Finset.eq_univ_of_forall fun i =>
    SimState.mem_doneSet.mpr (fcfs.all_done_at_exit hexit i)
  have hall' : t'.doneSet = Finset.univ := Finset.eq_univ_of_forall fun i =>
    SimState.mem_doneSet.mpr (sjf.all_done_at_exit hexit' i)
  have hswitches := hcharge.switches
  have hswitches' := hcharge'.switches
  rw [hall, Finset.card_univ, Fintype.card_fin] at hswitches
  rw [hall', Finset.card_univ, Fintype.card_fin] at hswitches'
  refine ⟨fuel, t, fuel', t', hloop, hloop', hnow, hidle, hswitches, hswitches', ?_⟩
  rw [printStats_util hinv hcharge, printStats_util hinv' hcharge', hnow]

/-- Two tasks at once, and two more after a gap. -/
def twoPeriods : Fin 4 → Task := ![⟨0, 0, 5⟩, ⟨1, 0, 2⟩, ⟨2, 9, 4⟩, ⟨3, 10, 1⟩]

theorem fcfs_sjf_same_two_periods :
    ∃ fuel t fuel' t', simulateFCFS fuel (fun i => (twoPeriods i).load) = some t ∧
      simulateSJF fuel' (fun i => (twoPeriods i).load) = some t' ∧
      t.now = t'.now ∧ idleSegs t.segs = idleSegs t'.segs ∧
      switchLengths t.segs = List.replicate (4 - 1) csOverhead ∧
      switchLengths t'.segs = List.replicate (4 - 1) csOverhead ∧
      (printStats t.P).util = (printStats t'.P).util :=
  fcfs_sjf_same_periods ⟨by decide, by decide, by decide⟩ (by decide)

end OsProjects.Sched
