import OsProjects.Sched.QueueBounds
import OsProjects.Sched.Service

/-!
# Context-switch accounting

The law: between two successive process segments of different pids there is
exactly one context switch, of 0.1 ms, and there is none anywhere else
(`UniformSwitches`). FCFS and SJF keep it, because `prev_pid` is the pid of the
last process segment at all times (`Switching`). SRTF forgets the pid when a
task completes and Round Robin when its queue is empty; the next task then
starts without a switch, which no later iteration makes good (`Unswitched`).
-/

namespace OsProjects.Sched

open OsProjects.Lib.Loops

/-! ## The law -/

/-- No process segment. -/
def TaskFree (segs : List Segment) : Prop := ∀ seg ∈ segs, ¬ 0 ≤ seg.pid

/-- The lengths of the context switches. -/
def switchLengths (segs : List Segment) : List Int :=
  (segs.filter fun seg => seg.pid = pidCs).map fun seg => seg.stop - seg.start

/-- There is no switch before the first process segment and none after the last
one; between two successive ones there is one if the pids differ, else none. -/
structure UniformSwitches (segs : List Segment) : Prop where
  before : ∀ front back, segs = front ++ back → TaskFree front → switchLengths front = []
  between : ∀ front x gap y back, segs = front ++ x :: (gap ++ y :: back) → 0 ≤ x.pid →
    0 ≤ y.pid → TaskFree gap → switchLengths gap = if x.pid = y.pid then [] else [csOverhead]
  after : ∀ front back, segs = front ++ back → TaskFree back → switchLengths back = []

/-- The law so far. `prev` is the pid of the last segment, a process segment, or
everything before was idle. -/
structure Switching (segs : List Segment) (prev : Int) : Prop where
  before : ∀ front back, segs = front ++ back → TaskFree front → switchLengths front = []
  between : ∀ front x gap y back, segs = front ++ x :: (gap ++ y :: back) → 0 ≤ x.pid →
    0 ≤ y.pid → TaskFree gap → switchLengths gap = if x.pid = y.pid then [] else [csOverhead]
  last : (prev = pidIdle ∧ ∀ seg ∈ segs, seg.pid = pidIdle) ∨
    ∃ front x, segs = front ++ [x] ∧ 0 ≤ x.pid ∧ x.pid = prev

variable {segs front gap : List Segment} {x y : Segment} {prev pid start stop : Int}

theorem switchLengths_append (segs segs' : List Segment) :
    switchLengths (segs ++ segs') = switchLengths segs ++ switchLengths segs' := by
  simp [switchLengths]

theorem switchLengths_idle (h : ∀ seg ∈ segs, seg.pid = pidIdle) : switchLengths segs = [] := by
  simp only [switchLengths, List.map_eq_nil_iff, List.filter_eq_nil_iff, decide_eq_true_eq]
  intro seg hseg
  rw [h seg hseg]
  decide

/-- A process segment before a task-free end. -/
theorem split_before_gap {l front back : List Segment} (hgap : TaskFree gap) (hy : 0 ≤ y.pid)
    (h : l ++ gap = front ++ y :: back) :
    ∃ back', l = front ++ y :: back' ∧ back = back' ++ gap := by
  rcases List.append_eq_append_iff.mp h with ⟨rest, -, hin⟩ | ⟨rest, hl, hback⟩
  · exact absurd hy (hgap y (by rw [hin]; simp))
  · cases rest with
    | nil => exact absurd hy (hgap y (by rw [← List.nil_append gap, ← hback]; simp))
    | cons z rest =>
        obtain ⟨rfl, rfl⟩ := List.cons.inj hback
        exact ⟨rest, hl, rfl⟩

/-- The last process segment, and what follows it, is determined. -/
theorem last_task_unique {front front' gap' : List Segment} (hgap : TaskFree gap)
    (hgap' : TaskFree gap') (hx : 0 ≤ x.pid) (hy : 0 ≤ y.pid)
    (h : front ++ [x] ++ gap = front' ++ y :: gap') : x = y ∧ gap = gap' := by
  obtain ⟨rest, hl, rfl⟩ := split_before_gap hgap hy h
  rcases List.eq_nil_or_concat' rest with rfl | ⟨rest, z, rfl⟩
  · obtain ⟨-, hxy⟩ := List.append_inj' hl rfl
    exact ⟨by simpa using hxy, rfl⟩
  · -- the last element would be `x`, in the task-free end
    have hl : front ++ [x] = (front' ++ y :: rest) ++ [z] := by simpa using hl
    obtain ⟨-, hxz⟩ := List.append_inj' hl rfl
    have hz : x = z := by simpa using hxz
    exact absurd hx (hgap' x (by rw [hz]; simp))

theorem Switching.uniform (h : Switching segs prev) : UniformSwitches segs where
  before := h.before
  between := h.between
  after front back heq hfree := by
    rcases h.last with ⟨-, hidle⟩ | ⟨front', x, hlast, hx, -⟩
    · refine switchLengths_idle fun seg hseg => hidle seg ?_
      rw [heq]
      exact List.mem_append_right _ hseg
    · rcases List.eq_nil_or_concat' back with rfl | ⟨back, z, rfl⟩
      · rfl
      · have hz : x = z := by
          have hends := congrArg List.getLast? (hlast.symm.trans heq)
          simpa using hends
        exact absurd hx (hfree x (by rw [hz]; simp))

theorem switching_idle (h : ∀ seg ∈ segs, seg.pid = pidIdle) : Switching segs pidIdle where
  before front back heq _ :=
    switchLengths_idle fun seg hseg => h seg (by rw [heq]; exact List.mem_append_left _ hseg)
  between front x gap y back heq hx := by
    have hidle := h x (by rw [heq]; simp)
    rw [hidle] at hx
    simp [pidIdle] at hx
  last := Or.inl ⟨rfl, h⟩

/-- The next process segment, with the switch it needs before it. -/
theorem Switching.append (h : Switching segs prev) (gap : List Segment) (y : Segment)
    (hgap : TaskFree gap) (hy : 0 ≤ y.pid)
    (hswitch : switchLengths gap = if prev = y.pid ∨ prev = pidIdle then [] else [csOverhead]) :
    Switching (segs ++ gap ++ [y]) y.pid where
  before front back heq hfree := by
    -- a task-free front ends before `y`, and in `segs` if that has a process segment
    obtain ⟨rest, hrest, -⟩ : ∃ rest, segs ++ gap = front ++ rest ∧ back = rest ++ [y] := by
      rcases List.eq_nil_or_concat' back with rfl | ⟨back, z, rfl⟩
      · rw [List.append_nil] at heq
        exact absurd hy (hfree y (by rw [← heq]; simp))
      · rw [← List.append_assoc] at heq
        obtain ⟨hfront, hz⟩ := List.append_inj' heq rfl
        exact ⟨back, hfront, by rw [hz]⟩
    rcases h.last with ⟨rfl, hidle⟩ | ⟨pre, x, rfl, hx, -⟩
    · have hnone : switchLengths (front ++ rest) = [] := by
        rw [← hrest, switchLengths_append, switchLengths_idle hidle, hswitch]
        simp
      rw [switchLengths_append] at hnone
      exact (List.append_eq_nil_iff.mp hnone).1
    · rcases List.append_eq_append_iff.mp hrest with ⟨rest', hfront, -⟩ | ⟨rest', hpre, -⟩
      · exact absurd hx (hfree x (by rw [hfront]; simp))
      · exact h.before front rest' hpre hfree
  between front x gap' y' back heq hx hy' hfree := by
    rcases List.eq_nil_or_concat' back with rfl | ⟨back, z, rfl⟩
    · -- `y` is the second of the two
      have heq : segs ++ gap ++ [y] = (front ++ x :: gap') ++ [y'] := by simpa using heq
      obtain ⟨hrest, hyy⟩ := List.append_inj' heq rfl
      obtain rfl : y = y' := by simpa using hyy
      rcases h.last with ⟨rfl, hidle⟩ | ⟨pre, x', rfl, hx', rfl⟩
      · obtain ⟨back', hsegs, -⟩ := split_before_gap hgap hx hrest
        have hpid := hidle x (by rw [hsegs]; simp)
        rw [hpid] at hx
        simp [pidIdle] at hx
      · obtain ⟨rfl, rfl⟩ := last_task_unique hgap hfree hx' hx hrest
        rw [hswitch]
        have hne : x'.pid ≠ pidIdle := by simp only [pidIdle]; omega
        simp [hne]
    · have heq : segs ++ gap ++ [y] = (front ++ x :: (gap' ++ y' :: back)) ++ [z] := by
        simpa using heq
      obtain ⟨hrest, -⟩ := List.append_inj' heq rfl
      have hrest : segs ++ gap = (front ++ x :: gap') ++ y' :: back := by simpa using hrest
      obtain ⟨back', hsegs, -⟩ := split_before_gap hgap hy' hrest
      exact h.between front x gap' y' back' (by simpa using hsegs) hx hy' hfree
  last := Or.inr ⟨segs ++ gap, y, rfl, hy, rfl⟩

/-- The last process segment is made longer. -/
theorem Switching.extend (h : Switching (front ++ [x]) prev) (hx : 0 ≤ x.pid) :
    Switching (front ++ [{ x with stop := stop }]) x.pid where
  before pre back heq hfree := by
    rcases List.eq_nil_or_concat' back with rfl | ⟨back, z, rfl⟩
    · rw [List.append_nil] at heq
      exact absurd hx (hfree { x with stop := stop } (by rw [← heq]; simp))
    · rw [← List.append_assoc] at heq
      obtain ⟨hfront, -⟩ := List.append_inj' heq rfl
      exact h.before pre (back ++ [x]) (by rw [hfront, List.append_assoc]) hfree
  between pre a gap b back heq ha hb hfree := by
    rcases List.eq_nil_or_concat' back with rfl | ⟨back, z, rfl⟩
    · have heq : front ++ [{ x with stop := stop }] = (pre ++ a :: gap) ++ [b] := by simpa using heq
      obtain ⟨hfront, hlast⟩ := List.append_inj' heq rfl
      obtain rfl : { x with stop := stop } = b := by simpa using hlast
      exact h.between pre a gap x [] (by rw [hfront]; simp) ha hx hfree
    · have heq : front ++ [{ x with stop := stop }] = (pre ++ a :: (gap ++ b :: back)) ++ [z] := by
        simpa using heq
      obtain ⟨hfront, -⟩ := List.append_inj' heq rfl
      exact h.between pre a gap b (back ++ [x]) (by rw [hfront]; simp) ha hb hfree
  last := Or.inr ⟨front, { x with stop := stop }, rfl, hx, rfl⟩

/-! ## Recording an iteration -/

/-- An interval of another pid than the last segment's is appended. -/
theorem addSeg_append (h : start < stop) (hlast : ∀ last ∈ segs.getLast?, last.pid ≠ pid) :
    addSeg segs start stop pid = segs ++ [⟨start, stop, pid⟩] := by
  rcases addSeg_cases segs pid h with heq | ⟨front, last, rfl, -, hpid, -⟩
  · exact heq
  · exact absurd hpid (hlast last (by simp))

/-- Behind a process segment an idle period and a switch are appended. -/
theorem record_gap (front : List Segment) (hx : 0 ≤ x.pid) (t₀ t₁ t₂ : Int) :
    ∃ gap, addSeg (addSeg (front ++ [x]) t₀ t₁ pidIdle) t₁ t₂ pidCs = front ++ [x] ++ gap ∧
      TaskFree gap ∧ switchLengths gap = if t₁ < t₂ then [t₂ - t₁] else [] := by
  have hidle : ∃ idle, addSeg (front ++ [x]) t₀ t₁ pidIdle = front ++ [x] ++ idle ∧
      ∀ seg ∈ idle, seg.pid = pidIdle := by
    by_cases h : t₀ < t₁
    · refine ⟨_, addSeg_append h fun last hlast => ?_, by simp⟩
      obtain rfl : x = last := by simpa using hlast
      simp only [pidIdle]
      omega
    · exact ⟨[], by rw [addSeg_of_le (not_lt.mp h), List.append_nil], by simp⟩
  obtain ⟨idle, hidle, hpid⟩ := hidle
  rw [hidle]
  by_cases h : t₁ < t₂
  · refine ⟨idle ++ [⟨t₁, t₂, pidCs⟩], ?_, ?_, ?_⟩
    · rw [addSeg_append h, List.append_assoc]
      intro last hlast
      rcases List.eq_nil_or_concat' idle with rfl | ⟨idle, z, rfl⟩
      · obtain rfl : x = last := by simpa using hlast
        simp only [pidCs]
        omega
      · rw [← List.append_assoc, List.getLast?_concat] at hlast
        rw [← Option.some.inj hlast, hpid z (by simp)]
        decide
    · intro seg hseg
      rcases List.mem_append.mp hseg with hseg | hseg
      · rw [hpid seg hseg]
        decide
      · rw [List.mem_singleton.mp hseg]
        show ¬ 0 ≤ pidCs
        decide
    · rw [switchLengths_append, switchLengths_idle hpid, if_pos h]
      rfl
  · refine ⟨idle, by rw [addSeg_of_le (not_lt.mp h)], fun seg hseg => ?_, ?_⟩
    · rw [hpid seg hseg]
      decide
    · rw [switchLengths_idle hpid, if_neg h]

/-- When a process ran last, no merging takes place behind a gap; without a gap
the last segment may be extended. -/
theorem addSeg_after_gap (hgap : TaskFree gap) (hpid : 0 ≤ pid) (h : start < stop)
    (hne : gap = [] → x.pid ≠ pid) :
    addSeg (front ++ [x] ++ gap) start stop pid =
      front ++ [x] ++ gap ++ [⟨start, stop, pid⟩] := by
  refine addSeg_append h fun last hlast => ?_
  rcases List.eq_nil_or_concat' gap with rfl | ⟨gap, z, rfl⟩
  · obtain rfl : x = last := by simpa using hlast
    exact hne rfl
  · rw [← List.append_assoc, List.getLast?_concat] at hlast
    have hz := hgap z (by simp)
    rw [← Option.some.inj hlast]
    omega

/-- An iteration records an idle period, a switch if the pid differs from
`prev`, and the process. -/
theorem Switching.record (h : Switching segs prev) (hpid : 0 ≤ pid) (t₀ t₁ : Int) {t₂ t₃ : Int}
    (hswitch : t₂ = if prev ≠ pid ∧ prev ≠ pidIdle then t₁ + csOverhead else t₁) (hrun : t₂ < t₃) :
    Switching (addSeg (addSeg (addSeg segs t₀ t₁ pidIdle) t₁ t₂ pidCs) t₂ t₃ pid) pid := by
  rcases h.last with ⟨rfl, hidle⟩ | ⟨front, x, rfl, hx, rfl⟩
  · -- nothing but idle periods before
    rw [if_neg (by simp)] at hswitch
    subst hswitch
    rw [addSeg_of_le (le_refl t₂)]
    have hquiet : ∀ seg ∈ addSeg segs t₀ t₂ pidIdle, seg.pid = pidIdle := by
      intro seg hseg
      rcases mem_addSeg hseg with hold | ⟨hnew, -⟩
      · exact hidle seg hold
      · exact hnew
    have hnext := (switching_idle hquiet).append [] ⟨t₂, t₃, pid⟩ (by simp [TaskFree]) hpid
      (by simp [switchLengths])
    rw [List.append_nil] at hnext
    rwa [addSeg_append hrun]
    intro last hlast
    rw [hquiet last (List.mem_of_getLast? hlast)]
    simp only [pidIdle]
    omega
  · have hne : x.pid ≠ pidIdle := by simp only [pidIdle]; omega
    obtain ⟨gap, hgap, hfree, hlengths⟩ := record_gap front hx t₀ t₁ t₂
    have hlengths : switchLengths gap =
        if x.pid = pid ∨ x.pid = pidIdle then [] else [csOverhead] := by
      rw [hlengths, hswitch]
      by_cases heq : x.pid = pid
      · simp [heq]
      · simp [heq, hne, csOverhead]
    rw [hgap]
    -- without a gap, `add_seg` may extend the segment of the same process
    by_cases hmerge : gap = [] ∧ x.pid = pid
    · obtain ⟨rfl, rfl⟩ := hmerge
      rw [List.append_nil]
      rw [addSeg_concat hrun]
      split_ifs
      · exact h.extend hx
      · have hnext := h.append [] ⟨t₂, t₃, x.pid⟩ (by simp [TaskFree]) hx
          (by simp [switchLengths])
        rwa [List.append_nil] at hnext
    · rw [addSeg_after_gap hfree hpid hrun fun hnil heq => hmerge ⟨hnil, heq⟩]
      exact h.append gap ⟨t₂, t₃, pid⟩ hfree hpid hlengths

/-! ## The law broken -/

/-- Two successive process segments of different pids without a switch. -/
def Unswitched (segs : List Segment) : Prop :=
  ∃ front x gap y back, segs = front ++ x :: (gap ++ y :: back) ∧ 0 ≤ x.pid ∧ 0 ≤ y.pid ∧
    TaskFree gap ∧ x.pid ≠ y.pid ∧ switchLengths gap = []

theorem Unswitched.not_uniform (h : Unswitched segs) : ¬ UniformSwitches segs := by
  obtain ⟨front, x, gap, y, back, heq, hx, hy, hfree, hne, hnone⟩ := h
  intro huniform
  have hlengths := huniform.between front x gap y back heq hx hy hfree
  rw [if_neg hne, hnone] at hlengths
  simp at hlengths

/-- What is recorded later does not repair it. -/
theorem Unswitched.addSeg (h : Unswitched segs) : Unswitched (addSeg segs start stop pid) := by
  by_cases hlt : start < stop
  · obtain ⟨front, x, gap, y, back, rfl, hrest⟩ := h
    rcases addSeg_cases (front ++ x :: (gap ++ y :: back)) pid hlt with
      heq | ⟨pre, last, hpre, -, -, heq⟩
    · rw [heq]
      exact ⟨front, x, gap, y, back ++ [⟨start, stop, pid⟩], by simp, hrest⟩
    · rw [heq]
      rcases List.eq_nil_or_concat' back with rfl | ⟨back, z, rfl⟩
      · have hpre : (front ++ x :: gap) ++ [y] = pre ++ [last] := by simpa using hpre
        obtain ⟨rfl, hy⟩ := List.append_inj' hpre rfl
        obtain rfl : y = last := by simpa using hy
        exact ⟨front, x, gap, { y with stop := stop }, [], by simp, hrest⟩
      · have hpre : (front ++ x :: (gap ++ y :: back)) ++ [z] = pre ++ [last] := by simpa using hpre
        obtain ⟨rfl, -⟩ := List.append_inj' hpre rfl
        exact ⟨front, x, gap, y, back ++ [{ last with stop := stop }], by simp, hrest⟩
  · rw [addSeg_of_le (not_lt.mp hlt)]
    exact h

/-- Another process starts without a switch, possibly after an idle period. -/
theorem unswitched_record (front : List Segment) (hx : 0 ≤ x.pid) (hpid : 0 ≤ pid)
    (hne : x.pid ≠ pid) (t₀ : Int) {t₁ t₂ : Int} (hrun : t₁ < t₂) :
    Unswitched (addSeg (addSeg (front ++ [x]) t₀ t₁ pidIdle) t₁ t₂ pid) := by
  obtain ⟨gap, hgap, hfree, hlengths⟩ := record_gap front hx t₀ t₁ t₁
  rw [addSeg_of_le (le_refl t₁)] at hgap
  rw [if_neg (lt_irrefl t₁)] at hlengths
  rw [hgap, addSeg_after_gap hfree hpid hrun fun _ => hne]
  exact ⟨front, x, gap, ⟨t₁, t₂, pid⟩, [], by simp, hx, hpid, hfree, hne, hlengths⟩

/-! ## FCFS and SJF -/

section Simulators

variable {N : Nat} {tasks : Fin N → Task} {s u t : SimState N} {k : Fin N} {r : Int}

/-- The three intervals an iteration can record. -/
theorem Serves.segs_eq (hu : s.awaitReady = some u) (hserves : Serves u k r t) :
    t.segs = addSeg (addSeg (addSeg s.segs s.now u.now pidIdle) u.now (u.switchTo k).now pidCs)
      (u.switchTo k).now t.now (u.P k).pid := by
  rw [hserves.segs, SimState.switchTo_segs, SimState.awaitReady_segs hu]

theorem SimInv.pid_nonneg (htasks : TasksOk tasks) (h : SimInv tasks s) (i : Fin N) :
    0 ≤ (s.P i).pid := by
  rw [(h.task i).pid]
  exact htasks.pid_nonneg i

/-- An iteration keeps the law as long as `prev` names the last process. -/
theorem Switching.serves (htasks : TasksOk tasks) (hinv : SimInv tasks u)
    (h : Switching s.segs s.prev) (hu : s.awaitReady = some u) (hserves : Serves u k r t) :
    Switching t.segs (u.P k).pid := by
  have hpos := hserves.pos
  rw [hserves.segs_eq hu]
  refine h.record (hinv.pid_nonneg htasks k) s.now u.now ?_ ?_
  · rw [SimState.switchTo_now, SimState.awaitReady_prev hu]
  · rw [hserves.now]
    omega

theorem runToEnd_prev : (u.runToEnd k).prev = (u.P k).pid := by
  show (((u.switchTo k).P k).start _).pid = _
  rw [SimState.switchTo_P]
  exact Proc.start_pid

theorem runToEnd_switching {π : Policy N} (htasks : TasksOk tasks)
    (h : SimInv tasks s ∧ Switching s.segs s.prev)
    (hbody : simBody π.pick SimState.runToEnd s = some t) :
    SimInv tasks t ∧ Switching t.segs t.prev := by
  obtain ⟨hinv, hswitching⟩ := h
  refine ⟨hinv.step htasks runToEnd_servesReady hbody, ?_⟩
  obtain ⟨u, k, hu, hk, rfl⟩ := simBody_some hbody
  have hinvu := hinv.awaitReady htasks hu
  obtain ⟨hundone, -⟩ := ready_iff.mp (π.picks_ready u.P u.now k hk)
  rw [runToEnd_prev]
  exact hswitching.serves htasks hinvu hu (runToEnd_serves ((hinvu.task k).remain_pos hundone))

theorem nonPreemptive_uniform (htasks : TasksOk tasks) (π : Policy N) :
    ∃ fuel t, loop (simBody π.pick SimState.runToEnd) fuel (simInit fun i => (tasks i).load) =
      some t ∧ UniformSwitches t.segs := by
  obtain ⟨fuel, t, hloop⟩ := simBody_terminates (π := π) htasks runToEnd_servesReady
  obtain ⟨hreach, -⟩ := loop_some hloop
  have hswitching := hreach.inv (fun s => SimInv tasks s ∧ Switching s.segs s.prev)
    (fun _ _ h => runToEnd_switching htasks h)
    ⟨simInit_inv htasks, switching_idle (by simp [simInit])⟩
  exact ⟨fuel, t, hloop, hswitching.2.uniform⟩

/-! ## SRTF -/

/-- The states of SRTF: no task is done and the law holds so far; only the task
of the last segment is done, and its pid is forgotten; or the law is broken,
which takes two tasks. -/
def SrtfSwitching (s : SimState N) : Prop :=
  ((∀ i, (s.P i).done = false) ∧ Switching s.segs s.prev) ∨
    (∃ i, (s.P i).done = true ∧ (∀ j, j ≠ i → (s.P j).done = false) ∧ s.prev = pidIdle ∧
      Switching s.segs (s.P i).pid) ∨
    1 < N ∧ Unswitched s.segs

theorem Switching.last_task (h : Switching segs pid) (hpid : 0 ≤ pid) :
    ∃ front x, segs = front ++ [x] ∧ 0 ≤ x.pid ∧ x.pid = pid := by
  rcases h.last with ⟨rfl, -⟩ | hlast
  · simp [pidIdle] at hpid
  · exact hlast

theorem runToEvent_prev :
    (u.runToEvent k).prev = if ((u.runToEvent k).P k).done then pidIdle else (u.P k).pid := by
  have hP : (u.runToEvent k).P k = ((u.preempt k).P k).ran
      ((u.preempt k).nextEvent k - (u.preempt k).now) ((u.preempt k).nextEvent k) :=
    Function.update_self _ _ _
  have hpid : ((u.preempt k).P k).pid = (u.P k).pid := by
    rw [SimState.preempt_P_self]
    split_ifs
    · exact Proc.start_pid
    · rfl
  rw [hP, ← hpid, ← Proc.ran_pid]
  rfl

theorem Serves.unswitched (hu : s.awaitReady = some u) (hserves : Serves u k r t)
    (h : Unswitched s.segs) : Unswitched t.segs := by
  rw [hserves.segs_eq hu]
  exact h.addSeg.addSeg.addSeg

theorem srtf_switching (htasks : TasksOk tasks) (h : SimInv tasks s ∧ SrtfSwitching s)
    (hbody : srtfBody s = some t) : SimInv tasks t ∧ SrtfSwitching t := by
  obtain ⟨hinv, hswitching⟩ := h
  have hinvt : SimInv tasks t := hinv.step (π := srtf) htasks runToEvent_servesReady hbody
  refine ⟨hinvt, ?_⟩
  obtain ⟨u, k, hu, hk, rfl⟩ := simBody_some hbody
  have hinvu := hinv.awaitReady htasks hu
  have hready := srtf.picks_ready u.P u.now k hk
  obtain ⟨hundone, -⟩ := ready_iff.mp hready
  obtain ⟨r, hserves⟩ := runToEvent_servesReady u k hinvu hready
  have hP := SimState.awaitReady_P hu
  have hother : ∀ j, j ≠ k → (u.runToEvent k).P j = s.P j := fun j hj => by
    rw [hserves.P_of_ne hj, hP]
  have hpid : ((u.runToEvent k).P k).pid = (u.P k).pid := by
    rw [(hinvt.task k).pid, (hinvu.task k).pid]
  rcases hswitching with ⟨hnone, hlaw⟩ | ⟨i, hdone, hnone, hprev, hlaw⟩ | ⟨htwo, hbroken⟩
  · have hnext := hlaw.serves htasks hinvu hu hserves
    by_cases hk : ((u.runToEvent k).P k).done = true
    · refine Or.inr (Or.inl ⟨k, hk, fun j hj => ?_, ?_, hpid ▸ hnext⟩)
      · rw [hother j hj]
        exact hnone j
      · rw [runToEvent_prev, if_pos hk]
    · refine Or.inl ⟨fun j => ?_, ?_⟩
      · by_cases hj : j = k
        · simpa [hj] using hk
        · rw [hother j hj]
          exact hnone j
      · rw [runToEvent_prev, if_neg hk]
        exact hnext
  · -- the next task starts without a switch
    have hik : k ≠ i := by
      rintro rfl
      rw [hP] at hundone
      simp [hundone] at hdone
    have hne : (s.P i).pid ≠ (u.P k).pid := by
      rw [(hinv.task i).pid, (hinvu.task k).pid]
      exact fun heq => hik (htasks.pid_inj i k heq).symm
    refine Or.inr (Or.inr ⟨?_, ?_⟩)
    · exact Fin.nontrivial_iff_two_le.mp ⟨k, i, hik⟩
    · obtain ⟨front, x, hsegs, hx, hxpid⟩ := hlaw.last_task (hinv.pid_nonneg htasks i)
      have hnow : (u.switchTo k).now = u.now := by
        rw [SimState.switchTo_now, SimState.awaitReady_prev hu, hprev]
        simp
      have hpos := hserves.pos
      have hend := hserves.now
      rw [hserves.segs_eq hu, hnow, addSeg_of_le le_rfl, hsegs]
      exact unswitched_record front hx (hinvu.pid_nonneg htasks k) (hxpid ▸ hne) s.now (by omega)
  · exact Or.inr (Or.inr ⟨htwo, hserves.unswitched hu hbroken⟩)

theorem srtf_uniform_iff (htasks : TasksOk tasks) :
    ∃ fuel t, simulateSRTF fuel (fun i => (tasks i).load) = some t ∧
      (UniformSwitches t.segs ↔ N ≤ 1) := by
  obtain ⟨fuel, t, hloop⟩ := simBody_terminates (π := srtf) htasks runToEvent_servesReady
  obtain ⟨hreach, hexit⟩ := loop_some hloop
  have hdone := srtf.all_done_at_exit hexit
  have hstate := hreach.inv (fun s => SimInv tasks s ∧ SrtfSwitching s)
    (fun _ _ h => srtf_switching htasks h)
    ⟨simInit_inv htasks, Or.inl ⟨fun _ => rfl, (switching_idle (by simp [simInit]))⟩⟩
  refine ⟨fuel, t, hloop, ?_⟩
  rcases hstate.2 with ⟨hnone, hlaw⟩ | ⟨i, -, hnone, -, hlaw⟩ | ⟨htwo, hbroken⟩
  · refine ⟨fun _ => ?_, fun _ => hlaw.uniform⟩
    by_contra hN
    simpa [hdone] using hnone ⟨0, by omega⟩
  · refine ⟨fun _ => ?_, fun _ => hlaw.uniform⟩
    by_contra hN
    have : Nontrivial (Fin N) := Fin.nontrivial_iff_two_le.mpr (by omega)
    obtain ⟨j, hj⟩ := exists_ne i
    simpa [hdone] using hnone j hj
  · exact ⟨fun huniform => absurd huniform hbroken.not_uniform, fun hN => absurd htwo (by omega)⟩

end Simulators

/-! ## Round Robin -/

section RoundRobin

variable {N : Nat} {tq : Int} {tasks : Fin N → Task} {s t : RRState N}

theorem RRInv.pid_nonneg (htasks : TasksOk tasks) (h : RRInv tasks s) (i : Fin N) :
    0 ≤ (s.P i).pid := by
  rw [h.pid i]
  exact htasks.pid_nonneg i

theorem Queue.exists_pop {Q : Queue N} (h : Q.items ≠ []) :
    ∃ k Q', Q.pop = some (k, Q') ∧ k ∈ Q.items := by
  cases hpop : Q.pop with
  | none => exact absurd (pop_none hpop) h
  | some popped =>
      obtain ⟨k, Q'⟩ := popped
      exact ⟨k, Q', rfl, by rw [pop_some hpop]; exact List.mem_cons_self⟩

/-- What `prev` tells: when it names no task, an unfinished one is next in the
queue; a task it names is done or in the queue. -/
structure PrevOk (s : RRState N) : Prop where
  front : s.prev = pidIdle → (∀ i, (s.P i).done = true) ∨
    ∃ k Q, s.Q.pop = some (k, Q) ∧ (s.P k).done = false
  queued : ∀ i, s.prev = (s.P i).pid → (s.P i).done = true ∨ i ∈ s.Q.items

theorem rrInit_arrived (tasks : Fin N → Task) (i : Fin N) :
    ∃ j, ms (tasks j).arrival ≤ rrStart fun i => (tasks i).load := by
  unfold rrStart
  cases hnx : nextArrivalAfter (fun i => (tasks i).load) (ms (-1)) with
  | some nx =>
      refine ⟨nx, ?_⟩
      show (10 : Int) * (tasks nx).arrival ≤ if (tasks nx).arrival > 0 then 10 * _ else 0
      split_ifs with hpos
      · exact le_rfl
      · omega
  | none =>
      refine ⟨i, (nextArrivalAfter_none hnx i rfl).trans ?_⟩
      show ms (-1) ≤ 0
      decide

theorem rrInit_prevOk (htasks : TasksOk tasks) : PrevOk (rrInit fun i => (tasks i).load) where
  front _ := by
    by_cases hN : N = 0
    · left
      intro i
      exact absurd i.isLt (by omega)
    · right
      obtain ⟨j, hj⟩ := rrInit_arrived tasks ⟨0, by omega⟩
      have hmem : j ∈ (rrInit fun i => (tasks i).load).Q.items :=
        Queue.mem_items_pushWhere.mpr (Or.inr (decide_eq_true hj))
      obtain ⟨k, Q, hpop, -⟩ := Queue.exists_pop (List.ne_nil_of_mem hmem)
      exact ⟨k, Q, hpop, rfl⟩
  queued i hprev := absurd hprev (htasks.pid_ne_idle i)

theorem PrevOk.step (htasks : TasksOk tasks) (hinv : RRInv tasks s) (h : PrevOk s)
    (hstep : RRStep tq s t) : PrevOk t := by
  cases hstep with
  | @passOver k Q hpop hdone =>
      refine ⟨fun hprev => ?_, fun i hprev => ?_⟩
      · rcases h.front hprev with hall | ⟨k', Q', hpop', hundone⟩
        · exact Or.inl hall
        · rw [hpop] at hpop'
          obtain ⟨rfl, -⟩ := Prod.mk.inj (Option.some.inj hpop')
          simp [hdone] at hundone
      · rcases h.queued i hprev with hi | hi
        · exact Or.inl hi
        · rw [Queue.pop_some hpop] at hi
          rcases List.mem_cons.mp hi with rfl | hi
          · exact Or.inl hdone
          · exact Or.inr hi
  | @run k Q hpop hundone =>
      have hprev : (RRState.dispatch tq { s with Q := Q } k).prev = (tasks k).pid := hinv.pid k
      refine ⟨fun hidle => ?_, fun i hi => ?_⟩
      · exact absurd (hidle.symm.trans hprev) (htasks.pid_ne_idle k)
      · -- the task that ran is done or pushed again
        have hpid : ((RRState.dispatch tq { s with Q := Q } k).P i).pid = (tasks i).pid :=
          (dispatch_pid i).trans (hinv.pid i)
        obtain rfl : k = i := htasks.pid_inj k i (hprev.symm.trans (hi.trans hpid))
        rw [dispatch_done_iff (s := { s with Q := Q }) hundone]
        by_cases hdone : (s.P k).remain - RRState.runFor tq { s with Q := Q } k ≤ 0
        · exact Or.inl hdone
        · exact Or.inr (mem_dispatch_items.mpr (Or.inr (Or.inr ⟨rfl, hdone⟩)))
  | @idle j hpop hj =>
      obtain ⟨hundone, -⟩ := nextArrivalAfter_some hj
      refine ⟨fun _ => Or.inr ?_, fun i hi => ?_⟩
      · have hmem : j ∈ (s.refill j).Q.items :=
          refill_covered j hundone le_rfl
        obtain ⟨k, Q, hpop', hk⟩ := Queue.exists_pop (List.ne_nil_of_mem hmem)
        refine ⟨k, Q, hpop', ?_⟩
        rcases Queue.mem_items_pushWhere.mp hk with hk | hk
        · rw [Queue.pop_none hpop] at hk
          simp at hk
        · simp only [Bool.and_eq_true, Bool.not_eq_true'] at hk
          exact hk.1
      · exact absurd (hi.trans (hinv.pid i)) (htasks.pid_ne_idle i)

theorem Switching.dispatch (htasks : TasksOk tasks) (htq : 1 ≤ tq) (hinv : RRInv tasks s)
    (h : Switching s.segs s.prev) {k : Fin N} (hundone : (s.P k).done = false) :
    Switching (s.dispatch tq k).segs (s.dispatch tq k).prev := by
  have hrun := RRState.runFor_pos htq (hinv.remain_pos k hundone)
  have hnext := h.record (hinv.pid_nonneg htasks k) s.now s.now (s.afterSwitch_eq k)
    (by omega : s.afterSwitch k < s.afterSwitch k + s.runFor tq k)
  rw [addSeg_of_le (le_refl s.now), ← RRState.switchSegs_eq] at hnext
  exact hnext

/-- The queue has been refilled after the task of the last process segment
completed, and no other has run since; or the law is broken already. -/
def Broken (s : RRState N) : Prop :=
  (s.prev = pidIdle ∧ (∃ i, (s.P i).done = false) ∧
      ∃ front x t₀, s.segs = addSeg (front ++ [x]) t₀ s.now pidIdle ∧ 0 ≤ x.pid ∧
        ∀ i, (s.P i).done = false → x.pid ≠ (s.P i).pid) ∨
    Unswitched s.segs

/-- With no task named by `prev` the queue is not empty. -/
theorem PrevOk.not_refills (h : PrevOk s) (hprev : s.prev = pidIdle) : ¬ Refills s := by
  rintro ⟨hpop, i, hundone, -⟩
  rcases h.front hprev with hall | ⟨k, Q, hpop', -⟩
  · simp [hall i] at hundone
  · simp [hpop] at hpop'

/-- Refilling the queue forgets the task of the last segment, which is done. -/
theorem Switching.refill (hprev : PrevOk s) (h : Switching s.segs s.prev)
    (hpop : s.Q.pop = none) {j : Fin N} (hj : nextArrivalAfter s.P s.now = some j) :
    Broken (s.refill j) := by
  have hnext := nextArrivalAfter_some hj
  rcases h.last with ⟨hidle, -⟩ | ⟨front, x, hsegs, hx, hxprev⟩
  · exact absurd ⟨hpop, j, hnext⟩ (hprev.not_refills hidle)
  · refine Or.inl ⟨rfl, ⟨j, hnext.1⟩, front, x, s.now, ?_, hx, fun i hundone heq => ?_⟩
    · rw [← hsegs]
      rfl
    · rcases hprev.queued i (hxprev.symm.trans heq) with hdone | hmem
      · simp [RRState.refill, hdone] at hundone
      · rw [Queue.pop_none hpop] at hmem
        simp at hmem

/-- Once broken, the law stays broken. -/
theorem Broken.step (htasks : TasksOk tasks) (htq : 1 ≤ tq) (hinv : RRInv tasks s)
    (hprev : PrevOk s) (h : Broken s) (hstep : RRStep tq s t) : Broken t := by
  cases hstep with
  | passOver => exact h
  | @run k Q hpop hundone =>
      right
      have hrun := RRState.runFor_pos (s := { s with Q := Q }) htq (hinv.remain_pos k hundone)
      show Unswitched (addSeg (RRState.switchSegs { s with Q := Q } k) _ _ _)
      rw [RRState.switchSegs_eq]
      rcases h with ⟨hidle, -, front, x, t₀, hsegs, hx, hne⟩ | hbroken
      · have hnow := RRState.afterSwitch_idle (s := { s with Q := Q }) hidle k
        have hbreak := unswitched_record front hx (hinv.pid_nonneg htasks k) (hne k hundone) t₀
          (by omega : s.now < s.now + RRState.runFor tq { s with Q := Q } k)
        rw [← hsegs] at hbreak
        rw [hnow, addSeg_of_le le_rfl]
        exact hbreak
      · exact hbroken.addSeg.addSeg
  | idle hpop hj =>
      rcases h with ⟨hidle, -⟩ | hbroken
      · exact absurd ⟨hpop, _, nextArrivalAfter_some hj⟩ (hprev.not_refills hidle)
      · exact Or.inr hbroken.addSeg

/-- Without a refill the law is kept. -/
theorem Switching.rrStep (htasks : TasksOk tasks) (htq : 1 ≤ tq) (hinv : RRInv tasks s)
    (h : Switching s.segs s.prev) (hrefills : ¬ Refills s) (hstep : RRStep tq s t) :
    Switching t.segs t.prev := by
  cases hstep with
  | passOver => exact h
  | @run k Q hpop hundone =>
      refine Switching.dispatch (s := { s with Q := Q }) htasks htq (hinv.withQueue ?_) h hundone
      intro i hi
      rw [Queue.pop_some hpop]
      exact List.mem_cons_of_mem _ hi
  | idle hpop hj => exact absurd ⟨hpop, _, nextArrivalAfter_some hj⟩ hrefills

theorem Refills.broken (hprev : PrevOk s) (h : Switching s.segs s.prev)
    (hrefills : Refills s) (hstep : RRStep tq s t) : Broken t := by
  cases hstep with
  | passOver hpop => simp [hrefills.1] at hpop
  | run hpop => simp [hrefills.1] at hpop
  | idle hpop hj => exact h.refill hprev hpop hj

/-- What every iteration of Round Robin keeps. -/
structure RRSwitching (tasks : Fin N → Task) (s : RRState N) : Prop where
  inv : RRInv tasks s
  prev : PrevOk s
  law : Switching s.segs s.prev ∨ Broken s

theorem RRSwitching.step (htasks : TasksOk tasks) (htq : 1 ≤ tq) (h : RRSwitching tasks s)
    (hstep : RRStep tq s t) : RRSwitching tasks t := by
  refine ⟨h.inv.step htasks htq hstep, h.prev.step htasks h.inv hstep, ?_⟩
  rcases h.law with hlaw | hbroken
  · by_cases hrefills : Refills s
    · exact Or.inr (hrefills.broken h.prev hlaw hstep)
    · exact Or.inl (hlaw.rrStep htasks htq h.inv hrefills hstep)
  · exact Or.inr (hbroken.step htasks htq h.inv h.prev hstep)

theorem rrInit_switching (P : Fin N → Proc) : Switching (rrInit P).segs pidIdle := by
  refine switching_idle fun seg hseg => ?_
  rw [rrInit_segs] at hseg
  rcases mem_addSeg hseg with hold | ⟨hpid, -⟩
  · simp at hold
  · exact hpid

/-- A refilled queue still holds an unfinished task when the loop is left. -/
theorem Broken.unswitched_at_exit (hprev : PrevOk s) (h : Broken s) (hexit : rrBody tq s = none) :
    Unswitched s.segs := by
  rcases h with ⟨hidle, ⟨i, hundone⟩, -⟩ | hbroken
  · exfalso
    rcases rrBody_none hexit with hall | ⟨hempty, -⟩
    · simp [hall i] at hundone
    · rcases hprev.front hidle with hall | ⟨k, Q, hpop, -⟩
      · simp [hall i] at hundone
      · simp [Queue.pop_some hpop] at hempty
  · exact hbroken

theorem rr_uniform_iff (htasks : TasksOk tasks) (htq : 1 ≤ tq) :
    ∃ fuel t, simulateRR tq fuel (fun i => (tasks i).load) = some t ∧
      (UniformSwitches t.segs ↔
        ∀ u, Reaches (rrBody tq) (rrInit fun i => (tasks i).load) u → ¬ Refills u) := by
  obtain ⟨fuel, t, hloop⟩ := rr_terminates htasks.burst_pos htq
  obtain ⟨hreach, hexit⟩ := loop_some hloop
  have hinit : RRSwitching tasks (rrInit fun i => (tasks i).load) :=
    ⟨rrInit_inv htasks, rrInit_prevOk htasks, Or.inl (rrInit_switching _)⟩
  have hstep : ∀ a b, RRSwitching tasks a → rrBody tq a = some b → RRSwitching tasks b :=
    fun a b h hbody => h.step htasks htq (rrBody_some hbody)
  refine ⟨fuel, t, hloop, fun huniform u hu hrefills => ?_, fun hnever => ?_⟩
  · -- from the refill on the law is broken
    have hinvu := hu.inv _ hstep hinit
    have hgoes : rrBody tq u ≠ none := hrefills.goes_on
    obtain ⟨v, hbody⟩ := Option.ne_none_iff_exists'.mp hgoes
    have hvt : Reaches (rrBody tq) v t := (hu.to_exit hreach hexit).next hexit hbody
    have hbroken : RRSwitching tasks v ∧ Broken v := by
      refine ⟨hstep u v hinvu hbody, ?_⟩
      rcases hinvu.law with hlaw | hbroken
      · exact hrefills.broken hinvu.prev hlaw (rrBody_some hbody)
      · exact hbroken.step htasks htq hinvu.inv hinvu.prev (rrBody_some hbody)
    have hend := hvt.inv (fun s => RRSwitching tasks s ∧ Broken s)
      (fun a b h hbody => ⟨hstep a b h.1 hbody,
        h.2.step htasks htq h.1.inv h.1.prev (rrBody_some hbody)⟩) hbroken
    exact (hend.2.unswitched_at_exit hend.1.prev hexit).not_uniform huniform
  · have hkeep : ∀ a b, RRInv tasks a → Switching a.segs a.prev → ¬ Refills a →
        rrBody tq a = some b → Switching b.segs b.prev :=
      fun a b hinv hlaw hrefills hbody => hlaw.rrStep htasks htq hinv hrefills (rrBody_some hbody)
    have hlaw := hreach.keep_of_no_repair
      (fun a b h hbody => RRInv.step htasks htq h (rrBody_some hbody)) hkeep hinit.inv
      (rrInit_switching _) hnever
    exact hlaw.uniform

end RoundRobin

/-- **Context-switch accounting.** FCFS and SJF keep the law on all tasks, and SRTF
exactly when there are not two of them. Round Robin keeps it, on tasks for whose turns
its queue has room, exactly when the queue is never found empty with a task still to
come. -/
theorem switch_accounting {N : Nat} {tasks : Fin N → Task} {tq : Int} (htasks : TasksOk tasks)
    (htq : 1 ≤ tq) :
    (∃ fuel t, simulateFCFS fuel (fun i => (tasks i).load) = some t ∧ UniformSwitches t.segs) ∧
      (∃ fuel t, simulateSJF fuel (fun i => (tasks i).load) = some t ∧ UniformSwitches t.segs) ∧
      (∃ fuel t, simulateSRTF fuel (fun i => (tasks i).load) = some t ∧
        (UniformSwitches t.segs ↔ N ≤ 1)) ∧
      (∑ i, (tasks i).turns tq ≤ maxTasks →
        (∀ u, Reaches (rrBody tq) (rrInit fun i => (tasks i).load) u →
          u.Q.q.length ≤ maxTasks) ∧
        ∃ fuel t, simulateRR tq fuel (fun i => (tasks i).load) = some t ∧
          (UniformSwitches t.segs ↔
            ∀ u, Reaches (rrBody tq) (rrInit fun i => (tasks i).load) u → ¬ Refills u)) := by
  refine ⟨nonPreemptive_uniform htasks fcfs, nonPreemptive_uniform htasks sjf,
    srtf_uniform_iff htasks, fun hroom => ⟨fun u hu => ?_, rr_uniform_iff htasks htq⟩⟩
  exact_mod_cast (RRState.rear_le_turns htasks.burst_pos htq hu).trans hroom

/-- Two tasks with a gap between them. -/
def apartTasks : Fin 2 → Task := ![⟨0, 0, 1⟩, ⟨1, 5, 1⟩]

theorem switch_accounting_apart :
    (∃ fuel t, simulateFCFS fuel (fun i => (apartTasks i).load) = some t ∧
      UniformSwitches t.segs) ∧
    (∃ fuel t, simulateSJF fuel (fun i => (apartTasks i).load) = some t ∧
      UniformSwitches t.segs) ∧
    (∃ fuel t, simulateSRTF fuel (fun i => (apartTasks i).load) = some t ∧
      (UniformSwitches t.segs ↔ 2 ≤ 1)) ∧
    ∑ i, (apartTasks i).turns 2 ≤ maxTasks ∧
    (∀ u, Reaches (rrBody 2) (rrInit fun i => (apartTasks i).load) u →
      u.Q.q.length ≤ maxTasks) ∧
    ∃ fuel t, simulateRR 2 fuel (fun i => (apartTasks i).load) = some t ∧
      (UniformSwitches t.segs ↔
        ∀ u, Reaches (rrBody 2) (rrInit fun i => (apartTasks i).load) u → ¬ Refills u) := by
  have hroom : ∑ i, (apartTasks i).turns 2 ≤ maxTasks := by decide
  obtain ⟨hfcfs, hsjf, hsrtf, hrr⟩ := switch_accounting
    (⟨by decide, by decide, by decide⟩ : TasksOk apartTasks) (by decide : (1 : Int) ≤ 2)
  exact ⟨hfcfs, hsjf, hsrtf, hroom, hrr hroom⟩

/-- SRTF records task 0 until 1 ms and task 1 from 5 ms on, with no switch. -/
theorem srtf_charges_no_switch :
    ¬ ∃ fuel t, simulateSRTF fuel (fun i => (apartTasks i).load) = some t ∧
      UniformSwitches t.segs := by
  rintro ⟨fuel, t, hloop, huniform⟩
  have hrun : (simulateSRTF 3 fun i => (apartTasks i).load).map SimState.segs =
      some [⟨0, 10, 0⟩, ⟨10, 50, pidIdle⟩, ⟨50, 60, 1⟩] := by decide +kernel
  obtain ⟨u, hu, hsegs⟩ := Option.map_eq_some_iff.mp hrun
  rw [← loop_unique hloop hu, hsegs] at huniform
  have hbroken : Unswitched [⟨0, 10, 0⟩, ⟨10, 50, pidIdle⟩, ⟨50, 60, 1⟩] := by
    refine ⟨[], ⟨0, 10, 0⟩, [⟨10, 50, pidIdle⟩], ⟨50, 60, 1⟩, [], rfl, ?_⟩
    simp [TaskFree, switchLengths, pidIdle, pidCs]
  exact hbroken.not_uniform huniform

end OsProjects.Sched
