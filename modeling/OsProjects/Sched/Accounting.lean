import OsProjects.Sched.Simultaneous

/-!
# Where the time goes

Every moment up to the end is spent on a task, idle, or in a context switch, and the
CPU of FCFS, SJF and SRTF is idle only while no task is ready. So the makespan is the
sum of the bursts, the idle time and the switching time, and the utilization that
`print_stats` prints is the share of the bursts in it (`time_accounted`).
-/

namespace OsProjects.Sched

open OsProjects.Lib.Loops

variable {N : Nat} {tasks : Fin N → Task} {s u t : SimState N} {k : Fin N} {r : Int}

/-! ## Recorded time -/

/-- The time recorded for the tasks, for idling and for switching. -/
def recorded (tasks : Fin N → Task) (segs : List Segment) : Int :=
  ∑ i, segTotal (tasks i).pid segs + segTotal pidIdle segs + segTotal pidCs segs

theorem recorded_addSeg_untasked (htasks : TasksOk tasks) {segs : List Segment}
    {start stop pid : Int} (h : start ≤ stop) (hpid : pid = pidIdle ∨ pid = pidCs) :
    recorded tasks (addSeg segs start stop pid) = recorded tasks segs + (stop - start) := by
  have htask : ∀ i, segTotal (tasks i).pid (addSeg segs start stop pid) =
      segTotal (tasks i).pid segs := by
    intro i
    have hne : pid ≠ (tasks i).pid := by
      rcases hpid with rfl | rfl
      · exact htasks.pid_ne_idle i
      · exact htasks.pid_ne_cs i
    rw [segTotal_addSeg _ _ h, if_neg hne, add_zero]
  rw [recorded, recorded, Finset.sum_congr rfl fun i _ => htask i, segTotal_addSeg _ _ h,
    segTotal_addSeg _ _ h]
  rcases hpid with rfl | rfl
  · rw [if_pos rfl, if_neg (by decide)]
    omega
  · rw [if_neg (by decide), if_pos rfl]
    omega

theorem recorded_addSeg_task (htasks : TasksOk tasks) {segs : List Segment} {start stop : Int}
    (h : start ≤ stop) (k : Fin N) :
    recorded tasks (addSeg segs start stop (tasks k).pid) =
      recorded tasks segs + (stop - start) := by
  have htask : ∀ i, segTotal (tasks i).pid (addSeg segs start stop (tasks k).pid) =
      segTotal (tasks i).pid segs + if i = k then stop - start else 0 := by
    intro i
    have hiff : (tasks k).pid = (tasks i).pid ↔ i = k :=
      ⟨fun heq => (htasks.pid_inj k i heq).symm, fun heq => by rw [heq]⟩
    rw [segTotal_addSeg _ _ h]
    simp only [hiff]
  rw [recorded, recorded, Finset.sum_congr rfl fun i _ => htask i, Finset.sum_add_distrib,
    Finset.sum_ite_eq' Finset.univ k, if_pos (Finset.mem_univ k), segTotal_addSeg _ _ h,
    segTotal_addSeg _ _ h, if_neg (htasks.pid_ne_idle k).symm, if_neg (htasks.pid_ne_cs k).symm]
  omega

/-! ## What every iteration keeps -/

/-- All time is recorded, no task has finished later than now, and no task was ready
in an idle period. -/
structure TimeInv (tasks : Fin N → Task) (s : SimState N) : Prop where
  inv : SimInv tasks s
  now_nonneg : 0 ≤ s.now
  spent : s.now = recorded tasks s.segs
  total_nonneg : ∀ pid, 0 ≤ segTotal pid s.segs
  finish_le : ∀ i, (s.P i).finish ≤ s.now
  last : ∀ seg ∈ s.segs.getLast?, seg.pid ≠ pidIdle
  idle : ∀ seg ∈ s.segs, seg.pid = pidIdle → ∀ i,
    (s.P i).done = true ∧ (s.P i).finish ≤ seg.start ∨ seg.stop ≤ ms (tasks i).arrival

/-- Waiting is over when the first of the unfinished tasks arrives. -/
theorem awaitReady_le_arrival (hu : s.awaitReady = some u) (hlt : s.now < u.now) {i : Fin N}
    (hundone : (s.P i).done = false) : u.now ≤ ms (s.P i).arrival := by
  unfold SimState.awaitReady at hu
  split_ifs at hu with hready
  · cases hu
    exact absurd hlt (lt_irrefl _)
  · obtain ⟨nx, hnx, rfl⟩ := Option.map_eq_some_iff.mp hu
    have hlater := anyReady_false (by simpa using hready) hundone
    have hle := nextArrivalAfter_le hnx hundone hlater
    show ms (s.P nx).arrival ≤ _
    unfold ms
    omega

theorem Proc.ran_start_finish_eq {p : Proc} {now runFor endTime : Int} :
    ((p.start now).ran runFor endTime).finish =
      if p.remain - runFor ≤ 0 then endTime else p.finish := by
  unfold start ran
  split_ifs <;> rfl

theorem getLast_addSeg {segs : List Segment} {start stop pid : Int} (h : start < stop) :
    ∀ seg ∈ (addSeg segs start stop pid).getLast?, seg.pid = pid := by
  intro seg hseg
  rcases addSeg_cases segs pid h with heq | ⟨front, last, -, -, hpid, heq⟩
  · rw [heq, List.getLast?_concat] at hseg
    cases hseg
    rfl
  · rw [heq, List.getLast?_concat] at hseg
    cases hseg
    exact hpid

theorem segTotal_addSeg_nonneg {segs : List Segment} {start stop : Int} (hle : start ≤ stop)
    (h : ∀ pid, 0 ≤ segTotal pid segs) (pid p : Int) :
    0 ≤ segTotal p (addSeg segs start stop pid) := by
  have hp := h p
  rw [segTotal_addSeg _ _ hle]
  split_ifs <;> omega

/-- The idle segments after an iteration: those from before, and the period in which
it has waited. -/
theorem idle_after_step (htasks : TasksOk tasks) (h : TimeInv tasks s)
    (hu : s.awaitReady = some u) (hserves : Serves u k r t) (hk : (u.P k).pid = (tasks k).pid)
    {seg : Segment} (hseg : seg ∈ t.segs) (hidle : seg.pid = pidIdle) :
    seg ∈ s.segs ∨ s.now < u.now ∧ seg = ⟨s.now, u.now, pidIdle⟩ := by
  have hmem : seg ∈ u.segs := by
    rw [hserves.segs, SimState.switchTo_segs, hk] at hseg
    rcases mem_addSeg hseg with hseg | ⟨hpid, -⟩
    · rcases mem_addSeg hseg with hseg | ⟨hpid, -⟩
      · exact hseg
      · exact absurd (hidle.symm.trans hpid) (by decide)
    · exact absurd (hidle.symm.trans hpid) (htasks.pid_ne_idle k)
  rw [SimState.awaitReady_segs hu] at hmem
  by_cases hlt : s.now < u.now
  · rw [addSeg_append hlt h.last, List.mem_append, List.mem_singleton] at hmem
    exact hmem.imp_right fun heq => ⟨hlt, heq⟩
  · rw [addSeg_of_le (not_lt.mp hlt)] at hmem
    exact Or.inl hmem

variable {π : Policy N} {run : SimState N → Fin N → SimState N}

theorem TimeInv.step (htasks : TasksOk tasks) (hrun : ServesReady tasks run)
    (h : TimeInv tasks s) (hbody : simBody π.pick run s = some t) : TimeInv tasks t := by
  obtain ⟨u, k, r, hu, hinv, -, hready, hserves⟩ := h.inv.iteration htasks hrun hbody
  have hwait := (SimState.awaitReady_some hu).2.1
  have hswitch := SimState.now_le_switchTo (s := u) (k := k)
  have hnow := hserves.now
  have hpos := hserves.pos
  have hnonneg := h.now_nonneg
  have hpid := (hinv.task k).pid
  have hundone : (s.P k).done = false := by
    rw [← SimState.awaitReady_P hu]
    exact (ready_iff.mp hready).1
  have hother : ∀ i, i ≠ k → t.P i = s.P i := by
    intro i hi
    rw [hserves.P_of_ne hi, SimState.awaitReady_P hu]
  refine ⟨hinv.serves htasks hready hserves, by omega, ?_, ?_, ?_, ?_, ?_⟩
  · rw [hserves.segs, hpid, recorded_addSeg_task htasks (by omega), SimState.switchTo_segs,
      recorded_addSeg_untasked htasks hswitch (.inr rfl), SimState.awaitReady_segs hu,
      recorded_addSeg_untasked htasks hwait (.inl rfl), ← h.spent]
    omega
  · intro p
    rw [hserves.segs, SimState.switchTo_segs, SimState.awaitReady_segs hu]
    have hidle := segTotal_addSeg_nonneg hwait h.total_nonneg pidIdle
    exact segTotal_addSeg_nonneg (by omega) (segTotal_addSeg_nonneg hswitch hidle pidCs) _ p
  · intro i
    by_cases hi : i = k
    · have hfinish := h.finish_le k
      rw [hi, hserves.P_self, Proc.ran_start_finish_eq, SimState.awaitReady_P hu]
      split_ifs
      · exact le_rfl
      · omega
    · have hfinish := h.finish_le i
      rw [hother i hi]
      omega
  · intro seg hseg
    rw [hserves.segs] at hseg
    rw [getLast_addSeg (by omega) seg hseg, hpid]
    exact (htasks.pid_ne_idle k).symm
  · intro seg hseg hidle i
    have harrival : (s.P i).arrival = (tasks i).arrival := (h.inv.task i).arrival
    rcases idle_after_step htasks h hu hserves hpid hseg hidle with hold | ⟨hlt, rfl⟩
    · by_cases hi : i = k
      · refine Or.inr ((h.idle seg hold hidle i).resolve_left fun hdone => ?_)
        rw [hi, hundone] at hdone
        exact absurd hdone.1 (by decide)
      · rw [hother i hi]
        exact h.idle seg hold hidle i
    · cases hdone : (s.P i).done with
      | true =>
          have hi : i ≠ k := fun heq => by simp [heq, hundone] at hdone
          rw [hother i hi]
          exact Or.inl ⟨hdone, h.finish_le i⟩
      | false =>
          right
          rw [← harrival]
          exact awaitReady_le_arrival hu hlt hdone

/-! ## At the end -/

theorem TimeInv.finishMax_eq (h : TimeInv tasks t) (hlast : ∃ i, (t.P i).finish = t.now) :
    finishMax t.P = t.now :=
  Sched.finishMax_eq h.finish_le (Or.inr hlast) h.now_nonneg

end OsProjects.Sched
