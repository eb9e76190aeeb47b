import Mathlib.Data.Real.Basic
import OsProjects.Sched.Preemption

/-!
# SRTF runs the task with the least remaining time

The policy as the finished schedule shows it: at every instant at which a task
executes, no task that has arrived and is not finished has less left. Instants
are real numbers, in tenths of a millisecond; what a task has left at an instant
is read off the segments (`remainingAt`).
-/

namespace OsProjects.Sched

open OsProjects.Lib.Loops

/-! ## Instants -/

/-- The time recorded for a pid before the instant `x`. -/
noncomputable def servedBefore (pid : Int) (segs : List Segment) (x : ℝ) : ℝ :=
  (segs.map fun seg => if seg.pid = pid then max 0 (min (seg.stop : ℝ) x - seg.start) else 0).sum

/-- A segment of the pid covers the instant `x`. -/
def Executes (segs : List Segment) (pid : Int) (x : ℝ) : Prop :=
  ∃ seg ∈ segs, seg.pid = pid ∧ (seg.start : ℝ) ≤ x ∧ x < seg.stop

/-- What the task has left at the instant `x`. -/
noncomputable def remainingAt (task : Task) (segs : List Segment) (x : ℝ) : ℝ :=
  ms task.burst - servedBefore task.pid segs x

section Instants

variable {segs : List Segment} {start stop p pid : Int} {x : ℝ}

theorem servedBefore_append (segs' : List Segment) :
    servedBefore pid (segs ++ segs') x = servedBefore pid segs x + servedBefore pid segs' x := by
  simp [servedBefore]

theorem servedBefore_singleton (seg : Segment) :
    servedBefore pid [seg] x =
      if seg.pid = pid then max 0 (min (seg.stop : ℝ) x - seg.start) else 0 := by
  simp [servedBefore]

/-- The part of an interval before `x`, when the interval is cut in two. -/
theorem before_split {a b c : ℝ} (hab : a ≤ b) (hbc : b ≤ c) :
    max 0 (min c x - a) = max 0 (min b x - a) + max 0 (min c x - b) := by
  rcases le_total x b with hx | hx
  · have hnone : x - b ≤ 0 := by linarith
    rw [min_eq_right hx, min_eq_right (hx.trans hbc), max_eq_left hnone, add_zero]
  · have hc : b ≤ min c x := le_min hbc hx
    rw [min_eq_left hx, max_eq_right (by linarith), max_eq_right (by linarith),
      max_eq_right (by linarith)]
    ring

theorem servedBefore_addSeg (hproper : ∀ seg ∈ segs, seg.start < seg.stop) (hle : start ≤ stop) :
    servedBefore pid (addSeg segs start stop p) x =
      servedBefore pid segs x + if p = pid then max 0 (min (stop : ℝ) x - start) else 0 := by
  rcases hle.eq_or_lt with rfl | hlt
  · have hnone : min (start : ℝ) x - start ≤ 0 := by linarith [min_le_left (start : ℝ) x]
    rw [addSeg_of_le le_rfl, max_eq_left hnone, ite_self, add_zero]
  rcases addSeg_cases segs p hlt with heq | ⟨front, last, rfl, rfl, rfl, heq⟩
  · rw [heq, servedBefore_append, servedBefore_singleton]
  · have hlast : (last.start : ℝ) ≤ last.stop := Int.cast_le.mpr (hproper last (by simp)).le
    rw [heq, servedBefore_append, servedBefore_append, servedBefore_singleton,
      servedBefore_singleton]
    split_ifs
    · rw [before_split hlast (Int.cast_le.mpr hle), add_assoc]
    · ring

theorem executes_append (segs' : List Segment) :
    Executes (segs ++ segs') pid x ↔ Executes segs pid x ∨ Executes segs' pid x := by
  simp [Executes, or_and_right, exists_or]

theorem executes_singleton (seg : Segment) :
    Executes [seg] pid x ↔ seg.pid = pid ∧ (seg.start : ℝ) ≤ x ∧ x < seg.stop := by
  simp [Executes]

theorem executes_addSeg (hproper : ∀ seg ∈ segs, seg.start < seg.stop) :
    Executes (addSeg segs start stop p) pid x ↔
      Executes segs pid x ∨ p = pid ∧ (start : ℝ) ≤ x ∧ x < stop := by
  by_cases hlt : start < stop
  · rcases addSeg_cases segs p hlt with heq | ⟨front, last, rfl, rfl, rfl, heq⟩
    · rw [heq, executes_append, executes_singleton]
    · have hlast : (last.start : ℝ) ≤ last.stop := Int.cast_le.mpr (hproper last (by simp)).le
      have hstop : (last.stop : ℝ) < stop := Int.cast_lt.mpr hlt
      rw [heq, executes_append, executes_append, executes_singleton, executes_singleton, or_assoc]
      refine or_congr_right ⟨?_, ?_⟩
      · rintro ⟨hpid, hstart, hx⟩
        rcases lt_or_ge x last.stop with hbefore | hafter
        · exact Or.inl ⟨hpid, hstart, hbefore⟩
        · exact Or.inr ⟨hpid, hafter, hx⟩
      · rintro (⟨hpid, hstart, hx⟩ | ⟨hpid, hstart, hx⟩)
        · exact ⟨hpid, hstart, hx.trans hstop⟩
        · exact ⟨hpid, hlast.trans hstart, hx⟩
  · have hempty : ¬ ((start : ℝ) ≤ x ∧ x < stop) := by
      rintro ⟨hstart, hx⟩
      exact hlt (Int.cast_lt.mp (hstart.trans_lt hx))
    rw [addSeg_of_le (not_lt.mp hlt)]
    tauto

/-- After the last segment all that is recorded is past. -/
theorem servedBefore_eq_segTotal (hproper : ∀ seg ∈ segs, seg.start < seg.stop)
    (hpast : ∀ seg ∈ segs, (seg.stop : ℝ) ≤ x) : servedBefore pid segs x = segTotal pid segs := by
  unfold servedBefore segTotal
  rw [Int.cast_list_sum, List.map_map]
  congr 1
  refine List.map_congr_left fun seg hseg => ?_
  have hlength : (seg.start : ℝ) ≤ seg.stop := Int.cast_le.mpr (hproper seg hseg).le
  simp only [Function.comp_apply]
  split_ifs
  · rw [min_eq_left (hpast seg hseg), max_eq_right (by linarith)]
    push_cast
    rfl
  · simp

end Instants

/-! ## The policy -/

variable {N : Nat} {tasks : Fin N → Task} {s u t : SimState N} {k : Fin N}

/-- At every instant at which a task executes, no task that has arrived and is
not finished has less left. -/
def ShortestRuns (tasks : Fin N → Task) (segs : List Segment) : Prop :=
  ∀ p q x, Executes segs (tasks p).pid x → (ms (tasks q).arrival : ℝ) ≤ x →
    0 < remainingAt (tasks q) segs x →
    remainingAt (tasks p) segs x ≤ remainingAt (tasks q) segs x

section Iteration

variable {r : Int} {x : ℝ} (htasks : TasksOk tasks) (htiled : s.Tiled)
  (hu : s.awaitReady = some u) (hserves : Serves u k r t) (i : Fin N)

include htasks htiled hu hserves

/-- Waiting and switching are not recorded for a task. -/
theorem Serves.servedBefore_eq :
    servedBefore (tasks i).pid t.segs x = servedBefore (tasks i).pid s.segs x +
      if (u.P k).pid = (tasks i).pid then max 0 (min (t.now : ℝ) x - (u.switchTo k).now)
      else 0 := by
  have hpos := hserves.pos
  have hnow := hserves.now
  have htiledu := htiled.awaitReady hu
  rw [hserves.segs, servedBefore_addSeg (htiledu.switchTo k).1.proper (by omega),
    SimState.switchTo_segs, servedBefore_addSeg htiledu.1.proper SimState.now_le_switchTo,
    if_neg (htasks.pid_ne_cs i), SimState.awaitReady_segs hu,
    servedBefore_addSeg htiled.1.proper (SimState.awaitReady_some hu).2.1,
    if_neg (htasks.pid_ne_idle i), add_zero, add_zero]

theorem Serves.executes_iff : Executes t.segs (tasks i).pid x ↔ Executes s.segs (tasks i).pid x ∨
    (u.P k).pid = (tasks i).pid ∧ ((u.switchTo k).now : ℝ) ≤ x ∧ x < t.now := by
  have htiledu := htiled.awaitReady hu
  rw [hserves.segs, executes_addSeg (htiledu.switchTo k).1.proper, SimState.switchTo_segs,
    executes_addSeg htiledu.1.proper, SimState.awaitReady_segs hu, executes_addSeg htiled.1.proper]
  simp [htasks.pid_ne_idle i, htasks.pid_ne_cs i]

end Iteration

/-- From now on, what a task has left is its field `remain`. -/
theorem remainingAt_of_now_le (hinv : SimInv tasks s) (htiled : s.Tiled) {x : ℝ}
    (hx : (s.now : ℝ) ≤ x) (i : Fin N) : remainingAt (tasks i) s.segs x = (s.P i).remain := by
  have hserved := (hinv.task i).served
  have hpast : ∀ seg ∈ s.segs, (seg.stop : ℝ) ≤ x := fun seg hseg =>
    (Int.cast_le.mpr (htiled.1.tilesFrom.stop_le seg hseg)).trans hx
  rw [remainingAt, servedBefore_eq_segTotal htiled.1.proper hpast, ← hserved]
  push_cast
  ring

section Step

variable (htasks : TasksOk tasks) (htiled : s.Tiled) (hstep : SrtfStep tasks s u k t) {x : ℝ}

include htasks htiled hstep

/-- The past does not change. -/
theorem SrtfStep.remainingAt_past (hx : x < s.now) (i : Fin N) :
    remainingAt (tasks i) t.segs x = remainingAt (tasks i) s.segs x := by
  obtain ⟨hwait, hswitch, -⟩ := hstep.now_lt
  have hafter : (s.now : ℝ) ≤ (u.switchTo k).now := Int.cast_le.mpr (by omega)
  have hnone : min (t.now : ℝ) x - (u.switchTo k).now ≤ 0 := by
    linarith [min_le_right (t.now : ℝ) x]
  rw [remainingAt, remainingAt,
    hstep.serves.servedBefore_eq htasks htiled hstep.waits i, max_eq_left hnone, ite_self, add_zero]

/-- While `k` runs, it alone has less and less left. -/
theorem SrtfStep.remainingAt_during (hinv : SimInv tasks s) (hfrom : ((u.switchTo k).now : ℝ) ≤ x)
    (huntil : x < t.now) (i : Fin N) : remainingAt (tasks i) t.segs x =
      (u.P i).remain - if i = k then x - (u.switchTo k).now else 0 := by
  obtain ⟨hwait, hswitch, -⟩ := hstep.now_lt
  have hafter : (s.now : ℝ) ≤ x :=
    (Int.cast_le.mpr (show s.now ≤ (u.switchTo k).now by omega)).trans hfrom
  have hpid : (u.P k).pid = (tasks i).pid ↔ i = k := by
    rw [(hstep.inv.task k).pid]
    exact ⟨fun heq => (htasks.pid_inj k i heq).symm, fun heq => by rw [heq]⟩
  have hleft := remainingAt_of_now_le hinv htiled hafter i
  rw [← SimState.awaitReady_P hstep.waits] at hleft
  rw [remainingAt, hstep.serves.servedBefore_eq htasks htiled hstep.waits i, ← hleft, remainingAt,
    min_eq_right huntil.le, max_eq_right (by linarith)]
  simp only [hpid]
  ring

theorem ShortestRuns.step (hinv : SrtfInv tasks s) (h : ShortestRuns tasks s.segs) :
    ShortestRuns tasks t.segs := by
  intro p q x hexecutes harrived hunfinished
  rw [hstep.serves.executes_iff htasks htiled hstep.waits p] at hexecutes
  rcases hexecutes with hold | ⟨hpid, hfrom, huntil⟩
  · -- an instant of the past
    have hx : x < s.now := by
      obtain ⟨seg, hseg, -, -, hstop⟩ := hold
      exact hstop.trans_le (Int.cast_le.mpr (htiled.1.tilesFrom.stop_le seg hseg))
    rw [hstep.remainingAt_past htasks htiled hx] at hunfinished ⊢
    rw [hstep.remainingAt_past htasks htiled hx]
    exact h p q x hold harrived hunfinished
  · -- an instant at which `k` runs
    obtain rfl : k = p := htasks.pid_inj k p ((hstep.inv.task k).pid.symm.trans hpid)
    have hleft := hstep.remainingAt_during htasks htiled hinv.inv hfrom huntil
    by_cases hq : q = k
    · rw [hq]
    rw [hleft q, if_neg hq, sub_zero] at hunfinished ⊢
    rw [hleft k, if_pos rfl]
    have hundone : (u.P q).done = false := by
      rw [← Bool.not_eq_true]
      intro hdone
      rw [(hstep.inv.task q).remain_done hdone] at hunfinished
      simp at hunfinished
    have hready := hinv.ready_of_arrived hstep hundone
      (Int.cast_lt.mp (harrived.trans_lt huntil))
    have hleast : ((u.P k).remain : ℝ) ≤ (u.P q).remain :=
      Int.cast_le.mpr (hstep.picks_least hready)
    linarith

end Step

/-- **The SRTF policy.** Whenever a task executes, it has the least remaining
time of all tasks that have arrived. -/
theorem srtf_shortest_runs (htasks : TasksOk tasks) :
    ∃ fuel t, simulateSRTF fuel (fun i => (tasks i).load) = some t ∧ ShortestRuns tasks t.segs := by
  obtain ⟨fuel, t, hloop⟩ := simBody_terminates (π := srtf) htasks runToEvent_servesReady
  obtain ⟨hreach, -⟩ := loop_some hloop
  have hstate := hreach.inv (fun s => SrtfInv tasks s ∧ s.Tiled ∧ ShortestRuns tasks s.segs)
    (fun s t h hbody => by
      obtain ⟨hinv, htiled, hshortest⟩ := h
      obtain ⟨u, k, hstep⟩ := hinv.inv.srtfStep htasks hbody
      exact ⟨hinv.step htasks hstep, simBody_tiled (fun u k h => h.runToEvent k) htiled hbody,
        hshortest.step htasks htiled hstep hinv⟩)
    ⟨srtfInv_init htasks, simInit_tiled fun i => (htasks.burst_pos i).trans' Int.one_nonneg,
      fun p q x hexecutes => by simp [Executes, simInit] at hexecutes⟩
  exact ⟨fuel, t, hloop, hstate.2.2⟩

theorem srtf_shortest_runs_preempt :
    ∃ fuel t, simulateSRTF fuel (fun i => (preemptTasks i).load) = some t ∧
      ShortestRuns preemptTasks t.segs :=
  srtf_shortest_runs ⟨by decide, by decide, by decide⟩

end OsProjects.Sched
