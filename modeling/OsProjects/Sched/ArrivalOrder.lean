import OsProjects.Sched.BusyPeriods

/-!
# FCFS on the sorted table

`main` sorts the table by arrival, then by pid. On a table in this order FCFS
runs the tasks in the order of their indices (`dispatchesFCFS`), and the times it
gives them satisfy a recurrence (`FcfsTimes`).
-/

namespace OsProjects.Sched

open OsProjects.Lib.Loops OsProjects.Lib.Select

variable {N : Nat} {tasks : Fin N → Task} {s u t : SimState N} {k : Fin N}

/-! ## The order -/

/-- The table is in the order of `cmp_arrival`, without ties. -/
def InOrder (tasks : Fin N → Task) : Prop := ∀ i j, i < j → cmpArrival (tasks i) (tasks j) < 0

theorem InOrder.arrival_le (h : InOrder tasks) {i j : Fin N} (hij : i ≤ j) :
    (tasks i).arrival ≤ (tasks j).arrival := by
  rcases hij.eq_or_lt with rfl | hlt
  · exact le_rfl
  · have hcmp := h i j hlt
    unfold cmpArrival at hcmp
    split_ifs at hcmp <;> omega

theorem cmpArrival_total (x y : Task) : cmpArrival x y ≤ 0 ∨ cmpArrival y x ≤ 0 := by
  unfold cmpArrival
  split_ifs <;> omega

theorem cmpArrival_trans {x y z : Task} (hxy : cmpArrival x y ≤ 0) (hyz : cmpArrival y z ≤ 0) :
    cmpArrival x z ≤ 0 := by
  unfold cmpArrival at hxy hyz ⊢
  split_ifs at hxy hyz ⊢ <;> omega

/-- The table `main` passes to the simulators. -/
def mainTable (tasks : List Task) : Fin (sortTasks tasks).length → Task := (sortTasks tasks).get

theorem sortTasks_pids_nodup {tasks : List Task} (hpids : (tasks.map Task.pid).Nodup) :
    ((sortTasks tasks).map Task.pid).Nodup := by
  have hperm : (sortTasks tasks).Perm tasks := List.perm_insertionSort _ tasks
  exact (hperm.map Task.pid).nodup_iff.mpr hpids

/-- Sorting keeps the tasks, and with distinct pids it leaves no ties. -/
theorem mainTable_inOrder {tasks : List Task} (hpids : (tasks.map Task.pid).Nodup) :
    InOrder (mainTable tasks) := by
  have htotal : Std.Total fun x y : Task => cmpArrival x y ≤ 0 := ⟨cmpArrival_total⟩
  have htrans : IsTrans Task fun x y => cmpArrival x y ≤ 0 := ⟨fun _ _ _ => cmpArrival_trans⟩
  have hsorted := List.pairwise_insertionSort (fun x y : Task => cmpArrival x y ≤ 0) tasks
  have hnodup := sortTasks_pids_nodup hpids
  intro i j hij
  have hle := List.pairwise_iff_getElem.mp hsorted i j i.isLt j.isLt hij
  have hne := List.pairwise_iff_getElem.mp (List.pairwise_map.mp hnodup) i j i.isLt j.isLt hij
  show cmpArrival (sortTasks tasks)[i] (sortTasks tasks)[j] < 0
  replace hle : cmpArrival (sortTasks tasks)[i] (sortTasks tasks)[j] ≤ 0 := hle
  replace hne : (sortTasks tasks)[i].pid ≠ (sortTasks tasks)[j].pid := hne
  unfold cmpArrival at hle ⊢
  split_ifs at hle ⊢ <;> omega

/-- A list of tasks as `main` reads it. -/
structure TaskListOk (tasks : List Task) : Prop where
  pids : (tasks.map Task.pid).Nodup
  pid_nonneg : ∀ task ∈ tasks, 0 ≤ task.pid
  arrival_nonneg : ∀ task ∈ tasks, 0 ≤ task.arrival
  burst_pos : ∀ task ∈ tasks, 1 ≤ task.burst

theorem mainTable_mem {tasks : List Task} (i : Fin (sortTasks tasks).length) :
    mainTable tasks i ∈ tasks :=
  (List.mem_insertionSort _).mp (List.get_mem (sortTasks tasks) i)

theorem TaskListOk.mainTable {tasks : List Task} (h : TaskListOk tasks) :
    TasksOk (mainTable tasks) where
  pid_inj i j hpid := by
    have hnodup := List.pairwise_map.mp (sortTasks_pids_nodup h.pids)
    by_contra hne
    rcases lt_or_gt_of_ne hne with hlt | hlt
    · exact List.pairwise_iff_getElem.mp hnodup i j i.isLt j.isLt hlt hpid
    · exact List.pairwise_iff_getElem.mp hnodup j i j.isLt i.isLt hlt hpid.symm
  pid_nonneg i := h.pid_nonneg _ (mainTable_mem i)
  burst_pos i := h.burst_pos _ (mainTable_mem i)

/-! ## FCFS runs the tasks in order -/

theorem SimInv.beforeFCFS_iff (h : SimInv tasks u) (i j : Fin N) :
    (u.P i).beforeFCFS (u.P j) = true ↔ cmpArrival (tasks i) (tasks j) < 0 := by
  rw [Proc.beforeFCFS_iff, (h.task i).arrival, (h.task j).arrival, (h.task i).pid, (h.task j).pid]
  unfold cmpArrival
  split_ifs <;> omega

/-- Before the task that `pick_FCFS` picks all tasks are done. -/
theorem pickFCFS_first (horder : InOrder tasks) (hinv : SimInv tasks u)
    (hk : pickFCFS u.P u.now = some k) {i : Fin N} (hi : i < k) : (u.P i).done = true := by
  by_contra hundone
  have hundone : (u.P i).done = false := by simpa using hundone
  obtain ⟨-, harrived⟩ := ready_iff.mp (select_mem hk).2
  have hle := horder.arrival_le hi.le
  rw [(hinv.task k).arrival] at harrived
  have hready : ready u.P u.now i = true := by
    refine ready_iff.mpr ⟨hundone, ?_⟩
    rw [(hinv.task i).arrival]
    simp only [ms] at harrived ⊢
    omega
  have hbefore := (hinv.beforeFCFS_iff i k).mpr (horder i k hi)
  simp [pickFCFS_best hk hready] at hbefore

/-- The times of the tasks before `m`, as FCFS gives them. -/
structure FcfsTimes (tasks : Fin N → Task) (m : Nat) (P : Fin N → Proc) : Prop where
  first : ∀ i, i.val < m → i.val = 0 → (P i).firstStart = ms (tasks i).arrival
  next : ∀ i j, j.val < m → j.val = i.val + 1 →
    (P j).firstStart = max (P i).finish (ms (tasks j).arrival) + csOverhead
  finish : ∀ i, i.val < m → (P i).finish = (P i).firstStart + ms (tasks i).burst

/-- Every task starts after the ones before it. -/
theorem FcfsTimes.firstStart_lt {P : Fin N → Proc} (h : FcfsTimes tasks N P)
    (hburst : ∀ i, 1 ≤ (tasks i).burst) {i j : Fin N} (hij : i < j) :
    (P i).firstStart < (P j).firstStart := by
  obtain ⟨d, hd⟩ := Nat.exists_eq_add_of_lt (Fin.lt_def.mp hij)
  clear hij
  induction d generalizing j with
  | zero =>
      have hnext := h.next i j j.isLt (by omega)
      have hfinish := h.finish i i.isLt
      have hpos := hburst i
      simp only [ms, csOverhead] at hnext hfinish
      omega
  | succ d ih =>
      obtain ⟨l, hl⟩ : ∃ l : Fin N, l.val = i.val + d + 1 :=
        ⟨⟨i.val + d + 1, by have := j.isLt; omega⟩, rfl⟩
      have hlt := ih hl
      have hnext := h.next l j j.isLt (by omega)
      have hfinish := h.finish l l.isLt
      have hpos := hburst l
      simp only [ms, csOverhead] at hnext hfinish
      omega

/-- No task starts before it arrives. -/
theorem FcfsTimes.arrival_le {P : Fin N → Proc} (h : FcfsTimes tasks N P) (i : Fin N) :
    ms (tasks i).arrival ≤ (P i).firstStart := by
  by_cases hi : i.val = 0
  · rw [h.first i i.isLt hi]
  · have hnext := h.next ⟨i.val - 1, by have := i.isLt; omega⟩ i i.isLt (by simp; omega)
    simp only [csOverhead] at hnext
    omega

/-- The first `m` tasks have run, in order. -/
structure FcfsInv (tasks : Fin N → Task) (m : Nat) (s : SimState N) : Prop where
  run : RunInv tasks s
  done : ∀ i, (s.P i).done = true ↔ i.val < m
  prev : s.prev = pidIdle ↔ m = 0
  now : ∀ i, i.val + 1 = m → (s.P i).finish = s.now
  times : FcfsTimes tasks m s.P

theorem fcfsInv_init (htasks : TasksOk tasks) :
    FcfsInv tasks 0 (simInit fun i => (tasks i).load) where
  run := runInv_init htasks
  done i := by simp [simInit, Task.load]
  prev := by simp [simInit]
  now i hi := by omega
  times := ⟨fun i hi => by omega, fun i j hj => by omega, fun i hi => by omega⟩

/-- The task that runs next is the task `m`. -/
theorem FcfsInv.next_task (htasks : TasksOk tasks) (horder : InOrder tasks) {m : Nat}
    (h : FcfsInv tasks m s) (hruns : RunsTask tasks s u k t) (hk : pickFCFS u.P u.now = some k) :
    k.val = m := by
  have hinvu := h.run.inv.awaitReady htasks hruns.waits
  have hfresh : ¬ k.val < m := by
    rw [← h.done k, ← SimState.mem_doneSet]
    exact hruns.fresh
  by_contra hne
  have hm : m < N := by
    have hk := k.isLt
    omega
  have hdone := pickFCFS_first horder hinvu hk (i := ⟨m, hm⟩) (Fin.mk_lt_of_lt_val (by omega))
  rw [SimState.awaitReady_P hruns.waits, h.done] at hdone
  exact lt_irrefl m hdone

/-- The wait is for the task that runs next. -/
theorem RunsTask.waits_for (hinv : RunInv tasks s) (hruns : RunsTask tasks s u k t) :
    u.now = max s.now (ms (tasks k).arrival) := by
  have harrived := hruns.arrived hinv.inv
  have hundone : (s.P k).done = false := by
    have hfresh := hruns.fresh
    rw [SimState.mem_doneSet] at hfresh
    simpa using hfresh
  have harrival := (hinv.inv.task k).arrival
  by_cases hlater : s.now ≤ ms (tasks k).arrival
  · have hle := SimState.awaitReady_le hruns.waits hundone (by rw [harrival]; exact hlater)
    rw [harrival] at hle
    omega
  · have hready : anyReady s.P s.now = true := by
      refine anyReady_iff.mpr ⟨k, ready_iff.mpr ⟨hundone, ?_⟩⟩
      rw [harrival]
      omega
    have heq := Option.some.inj ((SimState.awaitReady_of_ready hready).symm.trans hruns.waits)
    rw [← heq]
    omega

theorem RunsTask.firstStart_self (hinv : RunInv tasks s) (hruns : RunsTask tasks s u k t) :
    (t.P k).firstStart = u.now + if s.prev = pidIdle then 0 else csOverhead := by
  have hstarted : (u.P k).started = false := by
    rw [SimState.awaitReady_P hruns.waits]
    refine hinv.unstarted k ?_
    have hfresh := hruns.fresh
    rw [SimState.mem_doneSet] at hfresh
    simpa using hfresh
  have hnow := hruns.now
  have hserves := hruns.serves.now
  rw [hruns.serves.P_self, Proc.ran_start_firstStart, hstarted]
  show (u.switchTo k).now = _
  omega

theorem FcfsInv.step (htasks : TasksOk tasks) (harrival : ∀ i, 0 ≤ (tasks i).arrival)
    (horder : InOrder tasks) {m : Nat} (h : FcfsInv tasks m s) (hruns : RunsTask tasks s u k t)
    (hk : pickFCFS u.P u.now = some k) : FcfsInv tasks (m + 1) t := by
  have hkm := h.next_task htasks horder hruns hk
  have hstart := hruns.firstStart_self h.run
  have hwait := hruns.waits_for h.run
  have hfinish := hruns.finish_self
  have hother : ∀ i : Fin N, i.val < m → t.P i = s.P i := fun i hi => by
    refine hruns.P_of_ne fun heq => ?_
    rw [heq] at hi
    omega
  have hself : ∀ i : Fin N, i.val < m + 1 → ¬ i.val < m → i = k := fun i hi hge =>
    Fin.ext (by omega)
  refine ⟨h.run.step htasks hruns, fun i => ?_, ?_, fun i hi => ?_, ?_⟩
  · rw [← SimState.mem_doneSet, hruns.doneSet, Finset.mem_insert, SimState.mem_doneSet, h.done i,
      Fin.ext_iff]
    omega
  · simp [hruns.prev_ne htasks]
  · obtain rfl := hself i (by omega) (by omega)
    exact hfinish
  · refine ⟨fun i hi hzero => ?_, fun i j hj hij => ?_, fun i hi => ?_⟩
    · by_cases him : i.val < m
      · rw [hother i him]
        exact h.times.first i him hzero
      · -- the very first task: no switch, and the clock was at 0
        obtain rfl := hself i hi him
        have hidle : s.prev = pidIdle := h.prev.mpr (by omega)
        have hnow : s.now = 0 := by rw [h.run.first hidle]; rfl
        have hpos := harrival i
        rw [hstart, if_pos hidle, hwait, hnow, add_zero]
        refine max_eq_right ?_
        show (0 : Int) ≤ 10 * (tasks i).arrival
        omega
    · by_cases hjm : j.val < m
      · rw [hother j hjm, hother i (by omega)]
        exact h.times.next i j hjm hij
      · obtain rfl := hself j hj hjm
        have hprev : s.prev ≠ pidIdle := fun hidle => by
          have hm := h.prev.mp hidle
          omega
        rw [hstart, if_neg hprev, hwait, hother i (by omega), h.now i (by omega)]
    · by_cases him : i.val < m
      · rw [hother i him]
        exact h.times.finish i him
      · obtain rfl := hself i hi him
        rw [hfinish, hstart, hruns.now]

/-- FCFS gives all tasks their times. -/
theorem fcfs_times (htasks : TasksOk tasks) (harrival : ∀ i, 0 ≤ (tasks i).arrival)
    (horder : InOrder tasks) :
    ∃ fuel t, simulateFCFS fuel (fun i => (tasks i).load) = some t ∧ FcfsTimes tasks N t.P := by
  obtain ⟨fuel, t, hloop⟩ := simBody_terminates (π := fcfs) htasks runToEnd_servesReady
  obtain ⟨hreach, hexit⟩ := loop_some hloop
  have hstate := hreach.inv (fun s => ∃ m, FcfsInv tasks m s) (fun s t h hbody => by
      obtain ⟨m, h⟩ := h
      obtain ⟨u, k, hruns, hk⟩ := h.run.iteration htasks hbody
      exact ⟨m + 1, h.step htasks harrival horder hruns hk⟩) ⟨0, fcfsInv_init htasks⟩
  obtain ⟨m, hinv⟩ := hstate
  have hall : ∀ i : Fin N, i.val < m := fun i =>
    (hinv.done i).mp (fcfs.all_done_at_exit hexit i)
  exact ⟨fuel, t, hloop, fun i _ => hinv.times.first i (hall i),
    fun i j _ => hinv.times.next i j (hall j), fun i _ => hinv.times.finish i (hall i)⟩

/-! ## The order of the dispatches -/

/-- The task that the iteration from `s` dispatches. -/
def SimState.picked (pick : (Fin N → Proc) → Int → Option (Fin N)) (s : SimState N) :
    Option (Fin N) :=
  s.awaitReady.bind fun u => pick u.P u.now

/-- The tasks that `simulate_FCFS` dispatches, in order. -/
def dispatchesFCFS (fuel : Nat) (P : Fin N → Proc) : List (Fin N) :=
  trace fcfsBody (SimState.picked pickFCFS) fuel (simInit P)

/-- Only distinct pids can make the order of `cmp_arrival` strict. -/
theorem TasksOk.inOrder (htasks : TasksOk tasks)
    (hsorted : ∀ i j, i < j → cmpArrival (tasks i) (tasks j) ≤ 0) : InOrder tasks := by
  intro i j hij
  have hle := hsorted i j hij
  have hpid : (tasks i).pid ≠ (tasks j).pid := fun heq => hij.ne (htasks.pid_inj i j heq)
  unfold cmpArrival at hle ⊢
  split_ifs at hle ⊢ <;> omega

/-- When the first `m` tasks have run, the others follow in order. -/
theorem FcfsInv.dispatches (htasks : TasksOk tasks) (harrival : ∀ i, 0 ≤ (tasks i).arrival)
    (horder : InOrder tasks) {m fuel : Nat} (h : FcfsInv tasks m s)
    (hloop : loop fcfsBody fuel s = some t) :
    trace fcfsBody (SimState.picked pickFCFS) fuel s = (List.finRange N).drop m := by
  induction fuel generalizing s m with
  | zero => simp [loop] at hloop
  | succ fuel ih =>
      cases hbody : fcfsBody s with
      | none =>
          have hall : ∀ i : Fin N, i.val < m := fun i =>
            (h.done i).mp (fcfs.all_done_at_exit hbody i)
          have hm : N ≤ m := by
            by_contra hlt
            exact lt_irrefl m (hall ⟨m, by omega⟩)
          rw [trace_exit hbody, List.drop_eq_nil_of_le (by simpa using hm)]
      | some s' =>
          obtain ⟨u, k, hruns, hk⟩ := h.run.iteration (π := fcfs) htasks hbody
          have hpicked : s.picked pickFCFS = some k := by
            rw [SimState.picked, hruns.waits]
            exact hk
          have hkm := h.next_task htasks horder hruns hk
          have hrest : loop fcfsBody fuel s' = some t := by
            rw [loop, hbody] at hloop
            exact hloop
          have hm : m < (List.finRange N).length := by
            rw [List.length_finRange, ← hkm]
            exact k.isLt
          rw [trace_step hbody, hpicked, ih (h.step htasks harrival horder hruns hk) hrest,
            List.drop_eq_getElem_cons hm]
          simp [← hkm]

/-- On a table sorted by arrival and pid, the loop dispatches the tasks in the
order of the table, at the times of the recurrence. -/
theorem fcfs_recurrence (htasks : TasksOk tasks) (harrival : ∀ i, 0 ≤ (tasks i).arrival)
    (hsorted : ∀ i j, i < j → cmpArrival (tasks i) (tasks j) ≤ 0) :
    ∃ fuel t, simulateFCFS fuel (fun i => (tasks i).load) = some t ∧
      dispatchesFCFS fuel (fun i => (tasks i).load) = List.finRange N ∧
      FcfsTimes tasks N t.P := by
  have horder := htasks.inOrder hsorted
  obtain ⟨fuel, t, hloop, htimes⟩ := fcfs_times htasks harrival horder
  exact ⟨fuel, t, hloop, (fcfsInv_init htasks).dispatches htasks harrival horder hloop, htimes⟩

/-- Two tasks with an idle gap before the second. -/
theorem fcfs_recurrence_two :
    ∃ fuel t, simulateFCFS fuel (fun i => (![⟨1, 0, 2⟩, ⟨2, 5, 1⟩] i : Task).load) = some t ∧
      dispatchesFCFS fuel (fun i => (![⟨1, 0, 2⟩, ⟨2, 5, 1⟩] i : Task).load) = [0, 1] ∧
      FcfsTimes ![⟨1, 0, 2⟩, ⟨2, 5, 1⟩] 2 t.P :=
  fcfs_recurrence ⟨by decide, by decide, by decide⟩ (by decide) (by decide)

end OsProjects.Sched
