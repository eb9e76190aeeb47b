import OsProjects.Sched.Horizon
import OsProjects.Sched.Tiling

/-!
# The Gantt chart

`print_gantt` looks at the segments once a millisecond. Switches of 0.1 ms shift
the segments of the tasks away from the whole milliseconds, but their lengths
stay whole, and an interval of `n` ms contains `n` whole milliseconds wherever it
starts (`length_cells`). Because the segments tile the time line, each of them
shows its own cells and no others (`count_cells`).

The number of cells is computed as an `int`. A makespan that does not fit has no
chart, although arrivals and bursts are `int`s themselves.
-/

namespace OsProjects.Sched

open OsProjects.Lib.Loops

/-! ## Cells of a tiling -/

section Cells

variable {a b m pid : Int} {segs : List Segment} {seg : Segment}

/-- The whole milliseconds from `a` up to, but not including, `b`. -/
def cells (a b : Int) : List Nat :=
  List.range' (ceilMs a).toNat ((ceilMs b).toNat - (ceilMs a).toNat)

theorem mem_cells {t : Nat} : t ∈ cells a b ↔ a ≤ ms t ∧ ms t < b := by
  unfold cells ceilMs ms
  rw [List.mem_range'_1]
  omega

theorem cells_split (ham : a ≤ m) (hmb : m ≤ b) : cells a b = cells a m ++ cells m b := by
  have hlow : (ceilMs a).toNat ≤ (ceilMs m).toNat := by
    unfold ceilMs
    omega
  have hhigh : (ceilMs m).toNat ≤ (ceilMs b).toNat := by
    unfold ceilMs
    omega
  have hmid : (ceilMs a).toNat + 1 * ((ceilMs m).toNat - (ceilMs a).toNat) = (ceilMs m).toNat := by
    omega
  have hsum : (ceilMs b).toNat - (ceilMs a).toNat =
      ((ceilMs m).toNat - (ceilMs a).toNat) + ((ceilMs b).toNat - (ceilMs m).toNat) := by
    omega
  unfold cells
  rw [hsum, ← List.range'_append, hmid]

/-- A whole number of milliseconds has as many cells, wherever it starts. -/
theorem length_cells (ha : 0 ≤ a) (hab : a ≤ b) (hwhole : (10 : Int) ∣ b - a) :
    ms (cells a b).length = b - a := by
  unfold cells ceilMs ms
  rw [List.length_range']
  omega

theorem ganttPid_inside {t : Nat} {rest : List Segment} (hstart : seg.start ≤ ms t)
    (hstop : ms t < seg.stop) : ganttPid (seg :: rest) t = seg.pid := by
  unfold ganttPid
  rw [List.find?_cons_of_pos (by simp [hstart, hstop])]

theorem ganttPid_after {t : Nat} {rest : List Segment} (hstop : seg.stop ≤ ms t) :
    ganttPid (seg :: rest) t = ganttPid rest t := by
  unfold ganttPid
  rw [List.find?_cons_of_neg (by simp [hstop])]

/-- The cells of the first segment show its pid. -/
theorem count_first (seg : Segment) (rest : List Segment) (pid : Int) :
    (cells seg.start seg.stop).countP (fun t => ganttPid (seg :: rest) t == pid) =
      if seg.pid = pid then (cells seg.start seg.stop).length else 0 := by
  have hshows : ∀ t ∈ cells seg.start seg.stop, ganttPid (seg :: rest) t = seg.pid := by
    intro t ht
    obtain ⟨hstart, hstop⟩ := mem_cells.mp ht
    exact ganttPid_inside hstart hstop
  split_ifs with hpid
  · refine List.countP_eq_length.mpr fun t ht => ?_
    rw [hshows t ht]
    exact beq_iff_eq.mpr hpid
  · refine List.countP_eq_zero.mpr fun t ht => ?_
    rw [hshows t ht, beq_iff_eq]
    exact hpid

/-- A pid has as many cells as milliseconds have been recorded for it. -/
theorem count_cells (h : TilesFrom a segs b) (ha : 0 ≤ a)
    (hwhole : ∀ seg ∈ segs, seg.pid = pid → (10 : Int) ∣ seg.stop - seg.start) :
    ms ((cells a b).countP fun t => ganttPid segs t == pid) = segTotal pid segs := by
  induction h with
  | nil => simp [cells, ms, segTotal]
  | @cons b seg rest hproper hrest ih =>
      -- the cells of the first segment, then those of the others
      have hothers : (cells seg.stop b).countP (fun t => ganttPid (seg :: rest) t == pid) =
          (cells seg.stop b).countP fun t => ganttPid rest t == pid := by
        refine List.countP_congr fun t ht => ?_
        rw [ganttPid_after (mem_cells.mp ht).1]
      have hih := ih (ha.trans hproper) fun x hx => hwhole x (List.mem_cons_of_mem seg hx)
      have htotal : segTotal pid (seg :: rest) =
          (if seg.pid = pid then seg.stop - seg.start else 0) + segTotal pid rest := by
        simp [segTotal]
      rw [cells_split hproper hrest.le, List.countP_append, count_first, hothers, htotal, ← hih]
      split_ifs with hpid
      · have hlength := length_cells ha hproper (hwhole seg List.mem_cons_self hpid)
        unfold ms at hlength ⊢
        push_cast
        omega
      · simp

theorem toInt_eq_some_iff {n bound : Int} :
    toInt n = some bound ↔ (-intMax - 1 ≤ n ∧ n ≤ intMax) ∧ n = bound := by
  unfold toInt
  split_ifs with hint
  · exact ⟨fun heq => ⟨hint, Option.some.inj heq⟩, fun heq => congrArg some heq.2⟩
  · exact ⟨fun heq => absurd heq (by simp), fun heq => absurd heq.1 hint⟩

/-- The chart of a makespan that is not negative has a bound when it fits an `int`. -/
theorem ganttCells_eq_some_iff {makespan : Int} (hpos : 0 ≤ makespan) {shown : List Int} :
    ganttCells segs makespan = some shown ↔ makespan ≤ ms intMax ∧
      shown = ((cells 0 makespan).map (ganttPid segs)).filter fun pid => pid ≠ pidCs := by
  have hrange : List.range (ceilMs makespan).toNat = cells 0 makespan := by
    rw [List.range_eq_range']
    rfl
  have hfits : (-intMax - 1 ≤ ceilMs makespan ∧ ceilMs makespan ≤ intMax) ↔
      makespan ≤ ms intMax := by
    unfold ceilMs ms intMax
    omega
  unfold ganttCells
  rw [Option.map_eq_some_iff, ← hrange]
  constructor
  · rintro ⟨bound, hbound, rfl⟩
    obtain ⟨hint, rfl⟩ := toInt_eq_some_iff.mp hbound
    exact ⟨hfits.mp hint, rfl⟩
  · rintro ⟨hle, rfl⟩
    exact ⟨_, toInt_eq_some_iff.mpr ⟨hfits.mpr hle, rfl⟩, rfl⟩

/-- **The chart of a tiling.** A pid of whole segments has as many cells as
milliseconds have been recorded for it. -/
theorem Tiles.count_ganttCells {now : Int} (h : Tiles segs now) (hpid : 0 ≤ pid)
    (hwhole : ∀ seg ∈ segs, seg.pid = pid → (10 : Int) ∣ seg.stop - seg.start) :
    ms ((((cells 0 now).map (ganttPid segs)).filter fun pid => pid ≠ pidCs).count pid) =
      segTotal pid segs := by
  have hcs : pid ≠ pidCs := by
    unfold pidCs
    omega
  rw [List.count_filter (by simpa using hcs), List.count_eq_countP, List.countP_map]
  exact count_cells h.tilesFrom le_rfl hwhole

end Cells

/-! ## Whole milliseconds -/

/-- The segments of the tasks last whole milliseconds. -/
def WholeSegs (segs : List Segment) : Prop :=
  ∀ seg ∈ segs, 0 ≤ seg.pid → (10 : Int) ∣ seg.stop - seg.start

theorem WholeSegs.addSeg {segs : List Segment} {start stop pid : Int} (h : WholeSegs segs)
    (hwhole : 0 ≤ pid → (10 : Int) ∣ stop - start) : WholeSegs (addSeg segs start stop pid) := by
  by_cases hlt : start < stop
  · intro seg hseg hpid
    rcases addSeg_cases segs pid hlt with heq | ⟨front, last, rfl, hstop, hlast, heq⟩
    · rw [heq, List.mem_append, List.mem_singleton] at hseg
      rcases hseg with hseg | rfl
      · exact h seg hseg hpid
      · exact hwhole hpid
    · rw [heq, List.mem_append, List.mem_singleton] at hseg
      rcases hseg with hseg | rfl
      · exact h seg (List.mem_append_left _ hseg) hpid
      · -- the interval makes a whole segment longer
        have hold := h last (by simp) hpid
        have hnew := hwhole (hlast ▸ hpid)
        show (10 : Int) ∣ stop - last.start
        omega
  · rw [addSeg_of_le (not_lt.mp hlt)]
    exact h

/-- There is a chart, with a cell for every millisecond of each task that is done. -/
def ChartShows {N : Nat} (tasks : Fin N → Task) (P : Fin N → Proc) (segs : List Segment)
    (makespan : Int) : Prop :=
  ∃ shown, ganttCells segs makespan = some shown ∧
    ∀ i, (P i).done = true → (shown.count (tasks i).pid : Int) = (tasks i).burst

/-- From the latest arrival on, 1.1 times the sum of the bursts is within the range of
an `int`. -/
def FitsInt {N : Nat} (tasks : Fin N → Task) : Prop :=
  ∃ last, 0 ≤ last ∧ (∀ i, (tasks i).arrival ≤ last) ∧
    10 * last + 11 * ∑ i, (tasks i).burst ≤ 10 * intMax

variable {N : Nat} {tq : Int} {tasks : Fin N → Task}

theorem chartShows_iff_of_served {P : Fin N → Proc} {segs : List Segment} {now : Int}
    (htasks : TasksOk tasks) (htiles : Tiles segs now) (hwhole : WholeSegs segs)
    (hserved : ∀ i, (P i).done = true → segTotal (tasks i).pid segs = ms (tasks i).burst) :
    ChartShows tasks P segs now ↔ now ≤ ms intMax := by
  have hpos := htiles.tilesFrom.le
  constructor
  · rintro ⟨shown, hshown, -⟩
    exact ((ganttCells_eq_some_iff hpos).mp hshown).1
  · intro hle
    refine ⟨_, (ganttCells_eq_some_iff hpos).mpr ⟨hle, rfl⟩, fun i hdone => ?_⟩
    have hpid := htasks.pid_nonneg i
    have hcount := htiles.count_ganttCells hpid fun seg hseg heq => hwhole seg hseg (heq ▸ hpid)
    rw [hserved i hdone] at hcount
    unfold ms at hcount
    omega

/-! ## The simulators -/

section NonPreemptive

variable {s u t : SimState N} {k : Fin N}

theorem RunsTask.wholeSegs (hruns : RunsTask tasks s u k t) (h : WholeSegs s.segs) :
    WholeSegs t.segs := by
  have hnow := hruns.serves.now
  rw [hruns.serves.segs_eq hruns.waits]
  refine ((h.addSeg ?_).addSeg ?_).addSeg fun _ => ?_
  · simp [pidIdle]
  · simp [pidCs]
  · rw [hnow, add_sub_cancel_left]
    exact Dvd.intro _ rfl

theorem runToEnd_chart (htasks : TasksOk tasks) (π : Policy N) :
    ∃ fuel t, loop (simBody π.pick SimState.runToEnd) fuel (simInit fun i => (tasks i).load) =
      some t ∧ (ChartShows tasks t.P t.segs t.now ↔ t.now ≤ ms intMax) ∧
        (FitsInt tasks → t.now ≤ ms intMax) := by
  obtain ⟨fuel, t, hloop⟩ := simBody_terminates (π := π) htasks runToEnd_servesReady
  obtain ⟨hreach, hexit⟩ := loop_some hloop
  have hstate := hreach.inv (fun s => RunInv tasks s ∧ s.Tiled ∧ WholeSegs s.segs)
    (fun s t h hbody => by
      obtain ⟨hinv, htiled, hwhole⟩ := h
      obtain ⟨u, k, hruns, -⟩ := hinv.iteration htasks hbody
      refine ⟨hinv.step htasks hruns, ?_, hruns.wholeSegs hwhole⟩
      exact simBody_tiled (fun u k h => (h.switchTo k).complete k) htiled hbody)
    ⟨runInv_init htasks, simInit_tiled fun i => (htasks.burst_pos i).trans' Int.one_nonneg,
      fun _ hseg => by simp [simInit] at hseg⟩
  obtain ⟨hinv, htiled, hwhole⟩ := hstate
  have hserved := hinv.inv.fullyServed (π.all_done_at_exit hexit)
  refine ⟨fuel, t, hloop, ?_, ?_⟩
  · exact chartShows_iff_of_served htasks htiled.1 hwhole fun i _ => (hserved i).2.1
  · rintro ⟨last, hlast, harrival, hfits⟩
    exact (runToEnd_now_le htasks hlast harrival hreach).trans hfits

end NonPreemptive

section RoundRobin

variable {s t : RRState N}

theorem wholeSegs_dispatch (h : WholeSegs s.segs) (hremain : WholeRemain s) (k : Fin N) :
    WholeSegs (s.dispatch tq k).segs := by
  show WholeSegs (addSeg (s.switchSegs k) _ (s.afterSwitch k + s.runFor tq k) _)
  rw [RRState.switchSegs_eq]
  refine (h.addSeg ?_).addSeg fun _ => ?_
  · simp [pidCs]
  · rw [add_sub_cancel_left]
    exact hremain.runFor k

theorem WholeSegs.rrStep (h : WholeSegs s.segs) (hremain : WholeRemain s)
    (hstep : RRStep tq s t) : WholeSegs t.segs := by
  cases hstep with
  | passOver => exact h
  | @run k Q => exact wholeSegs_dispatch (s := { s with Q := Q }) h hremain k
  | idle => exact h.addSeg (by simp [pidIdle])

theorem rr_chart (htasks : TasksOk tasks) (htq : 1 ≤ tq) :
    ∃ fuel t, simulateRR tq fuel (fun i => (tasks i).load) = some t ∧
      (ChartShows tasks t.P t.segs (endTime t.segs) ↔ endTime t.segs ≤ ms intMax) ∧
        (FitsInt tasks → endTime t.segs ≤ ms intMax) := by
  obtain ⟨fuel, t, hloop⟩ := rr_terminates htasks.burst_pos htq
  obtain ⟨hreach, -⟩ := loop_some hloop
  have hinit : WholeSegs (rrInit fun i => (tasks i).load).segs := by
    rw [rrInit_segs]
    exact WholeSegs.addSeg (fun _ hseg => by simp at hseg) (by simp [pidIdle])
  have hstate := hreach.inv
    (fun s => RRInv tasks s ∧ s.Tiled ∧ WholeSegs s.segs ∧ WholeRemain s)
    (fun s t h hbody => by
      obtain ⟨hinv, htiled, hwhole, hremain⟩ := h
      have hstep := rrBody_some hbody
      exact ⟨hinv.step htasks htq hstep, rr_tiled htq htiled hbody, hwhole.rrStep hremain hstep,
        hremain.step hstep⟩)
    ⟨rrInit_inv htasks, rrInit_tiled fun i => (htasks.burst_pos i).trans' Int.one_nonneg, hinit,
      fun i => Dvd.intro _ rfl⟩
  obtain ⟨hinv, htiled, hwhole, -⟩ := hstate
  refine ⟨fuel, t, hloop, ?_⟩
  rw [htiled.1.last]
  refine ⟨chartShows_iff_of_served htasks htiled.1 hwhole fun i hdone => ?_, ?_⟩
  · have hserved := hinv.served i
    rwa [hinv.remain_done i hdone, add_zero] at hserved
  · rintro ⟨last, hlast, harrival, hfits⟩
    exact (rr_now_le htasks htq hlast harrival hreach).trans hfits

end RoundRobin

/-- **Fidelity of the chart.** FCFS, SJF and Round Robin print exactly as many
cells for each task that is done as its burst has milliseconds, if and only if the
makespan is not above `INT_MAX`. The first two pass `now` to `print_gantt`, Round Robin
the end of the last segment. -/
theorem gantt_faithful (htasks : TasksOk tasks) (htq : 1 ≤ tq) :
    (∃ fuel t, simulateFCFS fuel (fun i => (tasks i).load) = some t ∧
      (ChartShows tasks t.P t.segs t.now ↔ t.now ≤ ms intMax) ∧
      (FitsInt tasks → t.now ≤ ms intMax)) ∧
    (∃ fuel t, simulateSJF fuel (fun i => (tasks i).load) = some t ∧
      (ChartShows tasks t.P t.segs t.now ↔ t.now ≤ ms intMax) ∧
      (FitsInt tasks → t.now ≤ ms intMax)) ∧
    ∃ fuel t, simulateRR tq fuel (fun i => (tasks i).load) = some t ∧
      (ChartShows tasks t.P t.segs (endTime t.segs) ↔ endTime t.segs ≤ ms intMax) ∧
      (FitsInt tasks → endTime t.segs ≤ ms intMax) :=
  ⟨runToEnd_chart htasks fcfs, runToEnd_chart htasks sjf, rr_chart htasks htq⟩

theorem gantt_faithful_late :
    FitsInt lateTasks ∧
    (∃ fuel t, simulateFCFS fuel (fun i => (lateTasks i).load) = some t ∧
      ChartShows lateTasks t.P t.segs t.now) ∧
    (∃ fuel t, simulateSJF fuel (fun i => (lateTasks i).load) = some t ∧
      ChartShows lateTasks t.P t.segs t.now) ∧
    ∃ fuel t, simulateRR 1 fuel (fun i => (lateTasks i).load) = some t ∧
      ChartShows lateTasks t.P t.segs (endTime t.segs) := by
  have hfits : FitsInt lateTasks := ⟨11, by decide, by decide, by decide⟩
  obtain ⟨⟨f₁, t₁, hfcfs, hshows₁, hle₁⟩, ⟨f₂, t₂, hsjf, hshows₂, hle₂⟩,
    ⟨f₃, t₃, hrr, hshows₃, hle₃⟩⟩ := gantt_faithful
      (⟨by decide, by decide, by decide⟩ : TasksOk lateTasks) (by decide : (1 : Int) ≤ 1)
  exact ⟨hfits, ⟨f₁, t₁, hfcfs, hshows₁.mpr (hle₁ hfits)⟩,
    ⟨f₂, t₂, hsjf, hshows₂.mpr (hle₂ hfits)⟩, ⟨f₃, t₃, hrr, hshows₃.mpr (hle₃ hfits)⟩⟩

/-- Two tasks of 1 ms with a switch between them: the switch covers the cell at
1 ms only from 1.0 to 1.1, and the cell is skipped. -/
example : printGantt [⟨0, 10, 0⟩, ⟨10, 11, pidCs⟩, ⟨11, 21, 1⟩] 21 =
    some "Gantt Chart:\n| P0 | P1 |\n" := by decide +kernel

/-- A task of `INT_MAX` ms that arrives at 1 ms. -/
def hugeTask : Fin 1 → Task := ![⟨0, 1, 2147483647⟩]

/-- It ends at 2³¹ ms, which is no `int`. -/
theorem gantt_overflows :
    ¬ ∃ fuel t, simulateFCFS fuel (fun i => (hugeTask i).load) = some t ∧
      ChartShows hugeTask t.P t.segs t.now := by
  rintro ⟨fuel, t, hloop, shown, hshown, -⟩
  have hrun : (simulateFCFS 2 fun i => (hugeTask i).load).map SimState.now =
      some 21474836480 := by decide +kernel
  obtain ⟨u, hu, hnow⟩ := Option.map_eq_some_iff.mp hrun
  rw [← loop_unique hloop hu, hnow] at hshown
  have hfits := ((ganttCells_eq_some_iff (by decide)).mp hshown).1
  exact absurd hfits (by decide)

end OsProjects.Sched
