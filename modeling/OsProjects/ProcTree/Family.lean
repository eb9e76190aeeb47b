import Mathlib.Data.List.Basic
import OsProjects.ProcTree.Model

/-!
# What the process tracer says of the family

However tasks have forked, the tracer follows no bad pointer, and its reports fit together
(`tracer_family`): a task that leads a thread group is listed as a child of exactly the
task it names as its parent, and as a sibling of exactly the other tasks with this parent.
The number of forks in a report is the number of times the task has successfully called
`_do_fork`, for threads as well as for processes (`tracer_forks`).
-/

namespace OsProjects.ProcTree

open OsProjects.Lib.Runs

/-! ## The tasks after a fork -/

/-- What a successful fork of `current` does to the task with pid `q`. -/
def afterFork (current : Task) (flags : CloneFlags) (pid q : Int) (t : Task) : Task :=
  { t with
    children :=
      if flags.thread = false ∧ q = (dupTask current flags pid).parent then t.children ++ [pid]
      else t.children
    forkCount := if q = current.pid then t.forkCount + 1 else t.forkCount }

theorem doFork_new {s : Tasks} {current : Task} {flags : CloneFlags} {pid : Int}
    (hne : current.pid ≠ pid) :
    (doFork s current flags (.ok pid)).2 pid =
      some { dupTask current flags pid with forkCount := 0 } := by
  simp [doFork, modify, copyProcess, Ne.symm hne]

theorem doFork_old {s : Tasks} {current : Task} {flags : CloneFlags} {pid q : Int}
    (hq : q ≠ pid) :
    (doFork s current flags (.ok pid)).2 q = (s q).map (afterFork current flags pid q) := by
  have hcopy : copyProcess s current flags pid q = (s q).map fun t =>
      { t with children :=
          if flags.thread = false ∧ q = (dupTask current flags pid).parent then
            t.children ++ [pid]
          else t.children } := by
    unfold copyProcess
    rw [Function.update_of_ne hq]
    cases hthread : flags.thread with
    | true => simp
    | false =>
        by_cases hparent : q = (dupTask current flags pid).parent
        · simp [modify, hparent]
        · simp [modify, hparent]
  show modify (modify (copyProcess s current flags pid) pid _) current.pid _ q = _
  unfold modify
  by_cases hcur : q = current.pid
  · rw [if_pos hcur, if_neg hq, hcopy, Option.map_map]
    congr 1
    funext t
    simp [afterFork, hcur]
  · rw [if_neg hcur, if_neg hq, hcopy]
    congr 1
    funext t
    simp [afterFork, hcur]

/-! ## The family -/

/-- Pointers lead to tasks, and a task is in the list of children of its parent if it leads
its thread group, and in no other list. The first task is in no list. -/
structure WellFormed (s : Tasks) : Prop where
  pid_eq : ∀ {q t}, s q = some t → t.pid = q
  parent : ∀ {q t}, s q = some t → ∃ p, s t.parent = some p
  leader : ∀ {q t}, s q = some t → ∃ l, s t.groupLeader = some l
  children : ∀ {q t c}, s q = some t →
    (c ∈ t.children ↔ c ≠ 0 ∧ ∃ u, s c = some u ∧ u.parent = q ∧ u.groupLeader = c)

theorem boot_wellFormed : WellFormed boot := by
  have hboot : ∀ {q t}, boot q = some t → q = 0 ∧ t = initTask := by
    intro q t h
    unfold boot at h
    split at h
    · exact ⟨‹_›, (Option.some.inj h).symm⟩
    · cases h
  constructor
  · intro q t h
    obtain ⟨rfl, rfl⟩ := hboot h
    rfl
  · intro q t h
    obtain ⟨rfl, rfl⟩ := hboot h
    exact ⟨_, rfl⟩
  · intro q t h
    obtain ⟨rfl, rfl⟩ := hboot h
    exact ⟨_, rfl⟩
  · intro q t c h
    obtain ⟨rfl, rfl⟩ := hboot h
    constructor
    · intro hc
      simp [initTask] at hc
    · rintro ⟨hc, u, hu, -⟩
      exact absurd (hboot hu).1 hc

section Fork

variable {s : Tasks} {current : Task} {cur pid : Int} {flags : CloneFlags}

/-- A task after the fork is the new one, or one from before. -/
theorem doFork_cases (hcur : s cur = some current) (hpid : current.pid = cur)
    (hfree : s pid = none) {q : Int} {t : Task}
    (ht : (doFork s current flags (.ok pid)).2 q = some t) :
    (q = pid ∧ t = { dupTask current flags pid with forkCount := 0 }) ∨
      q ≠ pid ∧ ∃ t₀, s q = some t₀ ∧ t = afterFork current flags pid q t₀ := by
  by_cases hq : q = pid
  · subst hq
    have hne : current.pid ≠ q := by
      rintro rfl
      rw [hpid, hcur] at hfree
      cases hfree
    rw [doFork_new hne] at ht
    exact .inl ⟨rfl, (Option.some.inj ht).symm⟩
  · rw [doFork_old hq] at ht
    obtain ⟨t₀, hold, heq⟩ := Option.map_eq_some_iff.mp ht
    exact .inr ⟨hq, t₀, hold, heq.symm⟩

/-- No task goes away. -/
theorem doFork_keeps (hfree : s pid = none) {q : Int} {t : Task} (ht : s q = some t) :
    (doFork s current flags (.ok pid)).2 q = some (afterFork current flags pid q t) := by
  have hq : q ≠ pid := by
    rintro rfl
    rw [hfree] at ht
    cases ht
  rw [doFork_old hq, ht]
  rfl

variable (h : WellFormed s) (hcur : s cur = some current) (hfree : s pid = none)

include h hcur

theorem WellFormed.dup_parent : ∃ p, s (dupTask current flags pid).parent = some p := by
  have hpid := h.pid_eq hcur
  show ∃ p, s (if flags.parent || flags.thread then current.parent else current.pid) = some p
  split
  · exact h.parent hcur
  · exact ⟨current, by rw [hpid, hcur]⟩

include hfree

/-- The copy leads its group unless it is a thread. -/
theorem WellFormed.dup_leads :
    (dupTask current flags pid).groupLeader = pid ↔ flags.thread = false := by
  obtain ⟨l, hl⟩ := h.leader hcur
  cases hthread : flags.thread with
  | false => simp [dupTask, hthread]
  | true =>
      simp only [dupTask, hthread, if_true, reduceCtorEq, iff_false]
      intro heq
      rw [heq, hfree] at hl
      cases hl

theorem WellFormed.fork (hpos : 0 < pid) : WellFormed (doFork s current flags (.ok pid)).2 := by
  have hpid := h.pid_eq hcur
  have hcases := @doFork_cases s current cur pid flags hcur hpid hfree
  have hkeeps := @doFork_keeps s current pid flags hfree
  obtain ⟨p, hp⟩ := @WellFormed.dup_parent s current cur pid flags h hcur
  have hleads := @WellFormed.dup_leads s current cur pid flags h hcur hfree
  have hnone : ∀ {q t}, s q = some t → q ≠ pid := by
    rintro q t ht rfl
    rw [hfree] at ht
    cases ht
  refine ⟨fun {q t} ht => ?_, fun {q t} ht => ?_, fun {q t} ht => ?_, fun {q t c} ht => ?_⟩
  · rcases hcases ht with ⟨rfl, rfl⟩ | ⟨-, t₀, hold, rfl⟩
    · rfl
    · show t₀.pid = q
      exact h.pid_eq hold
  · rcases hcases ht with ⟨rfl, rfl⟩ | ⟨-, t₀, hold, rfl⟩
    · exact ⟨_, hkeeps hp⟩
    · obtain ⟨p, hp⟩ := h.parent hold
      exact ⟨_, hkeeps hp⟩
  · rcases hcases ht with ⟨rfl, rfl⟩ | ⟨-, t₀, hold, rfl⟩
    · show ∃ l, (doFork s current flags (.ok q)).2 (dupTask current flags q).groupLeader = some l
      cases hthread : flags.thread with
      | false =>
          rw [hleads.mpr hthread]
          exact ⟨_, ht⟩
      | true =>
          obtain ⟨l, hl⟩ := h.leader hcur
          have hlead : (dupTask current flags q).groupLeader = current.groupLeader := by
            simp [dupTask, hthread]
          rw [hlead]
          exact ⟨_, hkeeps hl⟩
    · obtain ⟨l, hl⟩ := h.leader hold
      exact ⟨_, hkeeps hl⟩
  · rcases hcases ht with ⟨rfl, rfl⟩ | ⟨hq, t₀, hold, rfl⟩
    · -- nobody has the new task as its parent
      refine ⟨fun hc => absurd hc (by simp [dupTask]), ?_⟩
      rintro ⟨-, u, hu, hparent, -⟩
      rcases hcases hu with ⟨rfl, rfl⟩ | ⟨-, u₀, hold, rfl⟩
      · exact absurd hparent (hnone hp)
      · obtain ⟨p', hp'⟩ := h.parent hold
        exact absurd hparent (hnone hp')
    · by_cases hc : c = pid
      · subst hc
        have hnot : c ∉ t₀.children := by
          intro hmem
          obtain ⟨-, u, hu, -⟩ := (h.children hold).mp hmem
          exact hnone hu rfl
        have hnew : c ∈ (afterFork current flags c q t₀).children ↔
            flags.thread = false ∧ q = (dupTask current flags c).parent := by
          simp only [afterFork]
          split
          · simp [*]
          · simp [*]
        rw [hnew]
        constructor
        · rintro ⟨hthread, rfl⟩
          have hne : current.pid ≠ c := by rw [hpid]; exact hnone hcur
          exact ⟨by omega, _, doFork_new hne, rfl, hleads.mpr hthread⟩
        · rintro ⟨-, u, hu, hparent, hleader⟩
          rcases hcases hu with ⟨-, rfl⟩ | ⟨hne, -⟩
          · exact ⟨hleads.mp hleader, hparent.symm⟩
          · exact absurd rfl hne
      · have hmem : c ∈ (afterFork current flags pid q t₀).children ↔ c ∈ t₀.children := by
          simp only [afterFork]
          split
          · simp [hc]
          · rfl
        rw [hmem, h.children hold]
        refine and_congr_right fun _ => ⟨?_, ?_⟩
        · rintro ⟨u, hu, hparent, hleader⟩
          exact ⟨_, hkeeps hu, hparent, hleader⟩
        · rintro ⟨u, hu, hparent, hleader⟩
          rcases hcases hu with ⟨rfl, -⟩ | ⟨-, u₀, hold', rfl⟩
          · exact absurd rfl hc
          · exact ⟨u₀, hold', hparent, hleader⟩

end Fork

/-- Running changes nothing in the family. -/
theorem WellFormed.modify {s : Tasks} (h : WellFormed s) (cur : Int) {f : Task → Task}
    (hf : ∀ t, (f t).pid = t.pid ∧ (f t).parent = t.parent ∧
      (f t).groupLeader = t.groupLeader ∧ (f t).children = t.children) :
    WellFormed (modify s cur f) := by
  have hcases : ∀ {q t}, ProcTree.modify s cur f q = some t → ∃ t₀, s q = some t₀ ∧
      t.pid = t₀.pid ∧ t.parent = t₀.parent ∧ t.groupLeader = t₀.groupLeader ∧
        t.children = t₀.children := by
    intro q t ht
    unfold ProcTree.modify at ht
    split at ht
    · obtain ⟨t₀, hold, rfl⟩ := Option.map_eq_some_iff.mp ht
      exact ⟨t₀, hold, hf t₀⟩
    · exact ⟨t, ht, rfl, rfl, rfl, rfl⟩
  have hkeeps : ∀ {q t₀}, s q = some t₀ → ∃ t, ProcTree.modify s cur f q = some t ∧
      t.parent = t₀.parent ∧ t.groupLeader = t₀.groupLeader := by
    intro q t₀ hold
    unfold ProcTree.modify
    split
    · exact ⟨f t₀, by rw [hold]; rfl, (hf t₀).2.1, (hf t₀).2.2.1⟩
    · exact ⟨t₀, hold, rfl, rfl⟩
  refine ⟨fun {q t} ht => ?_, fun {q t} ht => ?_, fun {q t} ht => ?_, fun {q t c} ht => ?_⟩
  all_goals obtain ⟨t₀, hold, hpid, hparent, hleader, hchildren⟩ := hcases ht
  · rw [hpid]
    exact h.pid_eq hold
  · obtain ⟨p, hp⟩ := h.parent hold
    obtain ⟨p', hp', -⟩ := hkeeps hp
    exact ⟨p', hparent ▸ hp'⟩
  · obtain ⟨l, hl⟩ := h.leader hold
    obtain ⟨l', hl', -⟩ := hkeeps hl
    exact ⟨l', hleader ▸ hl'⟩
  · rw [hchildren, h.children hold]
    refine and_congr_right fun _ => ⟨?_, ?_⟩
    · rintro ⟨u, hu, hup, hul⟩
      obtain ⟨u', hu', hup', hul'⟩ := hkeeps hu
      exact ⟨u', hu', hup'.trans hup, hul'.trans hul⟩
    · rintro ⟨u, hu, hup, hul⟩
      obtain ⟨u₀, hold', -, hup', hul', -⟩ := hcases hu
      exact ⟨u₀, hold', hup'.symm.trans hup, hul'.symm.trans hul⟩

/-- What can happen in a step. -/
theorem step_cases {s s' : Tasks} {e : Event} {o : Int}
    (hstep : machine.step s e = some (o, s')) :
    (∃ cur flags err, e = .fork cur flags (.error err) ∧ s' = s) ∨
      (∃ cur flags pid current, e = .fork cur flags (.ok pid) ∧ s cur = some current ∧
        0 < pid ∧ s pid = none ∧ s' = (doFork s current flags (.ok pid)).2) ∨
      ∃ cur comm state nvcsw nivcsw, e = .runs cur comm state nvcsw nivcsw ∧
        s' = modify s cur fun t =>
          { t with comm := comm, state := state, nvcsw := nvcsw, nivcsw := nivcsw } := by
  cases e with
  | fork cur flags result =>
      simp only [machine] at hstep
      cases hcur : s cur with
      | none => simp [hcur] at hstep
      | some current =>
          cases result with
          | error err =>
              rw [hcur] at hstep
              exact .inl ⟨cur, flags, err, rfl, (Prod.mk.inj (Option.some.inj hstep)).2.symm⟩
          | ok pid =>
              simp only [hcur] at hstep
              split at hstep
              · rename_i hnew
                have hs' := (Prod.mk.inj (Option.some.inj hstep)).2.symm
                exact .inr (.inl ⟨cur, flags, pid, current, rfl, hcur, hnew.1, hnew.2, hs'⟩)
              · cases hstep
  | runs cur comm state nvcsw nivcsw =>
      simp only [machine] at hstep
      cases hcur : s cur with
      | none => simp [hcur] at hstep
      | some current =>
          simp only [hcur] at hstep
          have hs' := (Prod.mk.inj (Option.some.inj hstep)).2.symm
          exact .inr (.inr ⟨cur, comm, state, nvcsw, nivcsw, rfl, hs'⟩)

theorem WellFormed.step {s s' : Tasks} {e : Event} {o : Int} (h : WellFormed s)
    (hstep : machine.step s e = some (o, s')) : WellFormed s' := by
  rcases step_cases hstep with ⟨cur, flags, err, -, rfl⟩ |
    ⟨cur, flags, pid, current, -, hcur, hpos, hfree, rfl⟩ | ⟨cur, comm, _, _, _, -, rfl⟩
  · exact h
  · exact h.fork hcur hfree hpos
  · exact h.modify cur fun t => ⟨rfl, rfl, rfl, rfl⟩

theorem reached_wellFormed {es : List Event} {os : List Int} {s : Tasks}
    (hrun : machine.run boot es = some (os, s)) : WellFormed s := by
  have halong : machine.Along (fun _ _ => True) boot es :=
    Machine.along_iff.mpr fun _ _ _ _ _ _ => trivial
  exact halong.reached_inv WellFormed (fun _ _ _ _ hs _ hstep => hs.step hstep)
    boot_wellFormed hrun

/-! ## The reports -/

/-- Pointers that lead to tasks can be followed. -/
theorem mapM_named {s : Tasks} (h : WellFormed s) {pids : List Int}
    (hpids : ∀ c ∈ pids, ∃ u, s c = some u) :
    ∃ names, pids.mapM (named s) = some names ∧ names.map Prod.fst = pids := by
  induction pids with
  | nil => exact ⟨[], rfl, rfl⟩
  | cons c pids ih =>
      obtain ⟨⟨u, hu⟩, hrest⟩ := List.forall_mem_cons.mp hpids
      obtain ⟨names, hnames, hfst⟩ := ih hrest
      refine ⟨(u.pid, u.comm) :: names, ?_, ?_⟩
      · rw [List.mapM_cons, hnames, named, hu]
        rfl
      · rw [List.map_cons, hfst, h.pid_eq hu]

/-- What a report is made of. -/
structure Describes (s : Tasks) (task : Task) (r : Report) : Prop where
  pid : r.pid = task.pid
  leader : r.groupLeader.1 = task.groupLeader
  forks : r.forks = task.forkCount
  parent : r.parent.1 = task.parent
  siblings : ∃ p, s task.parent = some p ∧
    r.siblings.map Prod.fst = p.children.filter (· ≠ task.pid)
  children : r.children.map Prod.fst = task.children

theorem WellFormed.report {s : Tasks} (h : WellFormed s) {pid : Int} {task : Task}
    (htask : s pid = some task) : ∃ r, taskReport s pid task = some r ∧ Describes s task r := by
  obtain ⟨p, hp⟩ := h.parent htask
  obtain ⟨l, hl⟩ := h.leader htask
  have hlisted : ∀ {q t}, s q = some t → ∀ c ∈ t.children, ∃ u, s c = some u := by
    intro q t ht c hc
    obtain ⟨-, u, hu, -⟩ := (h.children ht).mp hc
    exact ⟨u, hu⟩
  obtain ⟨siblings, hsiblings, hsfst⟩ := mapM_named h (hlisted hp)
  obtain ⟨children, hchildren, hcfst⟩ := mapM_named h (hlisted htask)
  have hleader : named s task.groupLeader = some (l.pid, l.comm) := by rw [named, hl]; rfl
  refine ⟨⟨pid, task.comm, stateToString task.state, (l.pid, l.comm),
    task.nvcsw + task.nivcsw, task.forkCount, (p.pid, p.comm),
    siblings.filter fun sibling => sibling.1 ≠ task.pid, children⟩, ?_,
    ⟨(h.pid_eq htask).symm, h.pid_eq hl, rfl, h.pid_eq hp, ⟨p, hp, ?_⟩, hcfst⟩⟩
  · simp only [taskReport, hleader, hp, hsiblings, hchildren, Option.bind_eq_bind,
      Option.bind_some]
    rfl
  · rw [← hsfst, List.filter_map]
    rfl

theorem WellFormed.tracer {s : Tasks} (h : WellFormed s) {pid : Int} {task : Task}
    (htask : pidTask s pid = some task) :
    ∃ r, taskReport s pid task = some r ∧ processTracer s pid = some (pid, r.lines) ∧
      s pid = some task ∧ pid ≠ 0 ∧ Describes s task r := by
  have hne : pid ≠ 0 := by
    rintro rfl
    cases htask
  have hsome : s pid = some task := by rwa [pidTask, if_neg hne] at htask
  obtain ⟨r, hr, hdescribes⟩ := h.report hsome
  refine ⟨r, hr, ?_, hsome, hne, hdescribes⟩
  rw [processTracer, htask]
  show (taskReport s pid task).map _ = _
  rw [hr]
  rfl

/-- **The reports fit together.** After any history of forks, the tracer reports on every
task but the first; and a task that leads its thread group is among the children of those
tasks it names as its parent, and among the siblings of the other tasks that name the
same parent. -/
theorem tracer_family {es : List Event} {os : List Int} {s : Tasks}
    (hrun : machine.run boot es = some (os, s)) {a b : Int} {ta tb : Task}
    (ha : pidTask s a = some ta) (hb : pidTask s b = some tb) :
    ∃ ra rb, processTracer s a = some (a, ra.lines) ∧ taskReport s a ta = some ra ∧
      processTracer s b = some (b, rb.lines) ∧ taskReport s b tb = some rb ∧
      (rb.groupLeader.1 = b →
        (b ∈ ra.children.map Prod.fst ↔ rb.parent.1 = a) ∧
        (b ∈ ra.siblings.map Prod.fst ↔ b ≠ a ∧ rb.parent.1 = ra.parent.1)) := by
  have h := reached_wellFormed hrun
  obtain ⟨ra, hra, htracea, hsa, -, hda⟩ := h.tracer ha
  obtain ⟨rb, hrb, htraceb, hsb, hne, hdb⟩ := h.tracer hb
  refine ⟨ra, rb, htracea, hra, htraceb, hrb, fun hlead => ?_⟩
  rw [hdb.leader] at hlead
  -- a leader is in the list of its parent and in no other
  have hlisted : ∀ {q t}, s q = some t → (b ∈ t.children ↔ tb.parent = q) := by
    intro q t ht
    rw [h.children ht]
    constructor
    · rintro ⟨-, u, hu, hparent, -⟩
      rw [hsb] at hu
      rw [Option.some.inj hu]
      exact hparent
    · intro hparent
      exact ⟨hne, tb, hsb, hparent, hlead⟩
  obtain ⟨p, hp, hsiblings⟩ := hda.siblings
  rw [hda.children, hdb.parent, hda.parent, hsiblings, List.mem_filter, hlisted hsa, hlisted hp,
    h.pid_eq hsa]
  simp [and_comm]

/-- The first process and its two children. -/
def firstForks : List Event :=
  [.fork 0 ⟨false, false⟩ (.ok 1), .fork 1 ⟨false, false⟩ (.ok 2),
    .fork 1 ⟨false, false⟩ (.ok 3)]

theorem tracer_family_first :
    ∃ os s ta tb ra rb, machine.run boot firstForks = some (os, s) ∧
      processTracer s 2 = some (2, ra.lines) ∧ taskReport s 2 ta = some ra ∧
      processTracer s 3 = some (3, rb.lines) ∧ taskReport s 3 tb = some rb ∧
      rb.groupLeader.1 = 3 ∧ (3 ∈ ra.children.map Prod.fst ↔ rb.parent.1 = 2) ∧
      (3 ∈ ra.siblings.map Prod.fst ↔ (3 : Int) ≠ 2 ∧ rb.parent.1 = ra.parent.1) := by
  obtain ⟨os, s, hrun, ta, tb, ha, hb, hlead⟩ : ∃ os s, machine.run boot firstForks =
      some (os, s) ∧ ∃ ta tb, pidTask s 2 = some ta ∧ pidTask s 3 = some tb ∧
        tb.groupLeader = 3 := ⟨_, _, rfl, _, _, rfl, rfl, rfl⟩
  obtain ⟨ra, rb, hlines, hra, hlines', hrb, hfits⟩ := tracer_family hrun ha hb
  obtain ⟨rb', hrb', -, -, -, hdb⟩ := (reached_wellFormed hrun).tracer hb
  obtain rfl : rb = rb' := Option.some.inj (hrb.symm.trans hrb')
  have hlead' : rb.groupLeader.1 = 3 := hdb.leader.trans hlead
  exact ⟨os, s, ta, tb, ra, rb, hrun, hlines, hra, hlines', hrb, hlead', hfits hlead'⟩

/-! ## The number of forks -/

/-- A successful fork of the task. -/
def forkedBy (pid : Int) : Event → Bool
  | .fork cur _ (.ok _) => cur = pid
  | _ => false

/-- The count of a task, or of one that is still to come. -/
def forksOf (s : Tasks) (q : Int) : Int32 := (s q).elim 0 Task.forkCount

theorem WellFormed.forksOf_step {s s' : Tasks} {e : Event} {o : Int} (h : WellFormed s)
    (hstep : machine.step s e = some (o, s')) (q : Int) :
    forksOf s' q = forksOf s q + if forkedBy q e then 1 else 0 := by
  rcases step_cases hstep with ⟨cur, flags, err, rfl, rfl⟩ |
    ⟨cur, flags, pid, current, rfl, hcur, hpos, hfree, rfl⟩ | ⟨cur, comm, _, _, _, rfl, rfl⟩
  · simp [forkedBy]
  · have hpid := h.pid_eq hcur
    have hforked : ∀ q, s q = none → forkedBy q (.fork cur flags (.ok pid)) = false := by
      intro q hq
      have hne : cur ≠ q := by
        rintro rfl
        rw [hq] at hcur
        cases hcur
      simp [forkedBy, hne]
    by_cases hq : q = pid
    · subst hq
      have hne : current.pid ≠ q := by
        rintro rfl
        rw [hpid, hcur] at hfree
        cases hfree
      rw [forksOf, forksOf, doFork_new hne, hfree, hforked q hfree]
      rfl
    · rw [forksOf, forksOf, doFork_old hq]
      cases hold : s q with
      | none =>
          rw [hforked q hold]
          rfl
      | some t =>
          by_cases hqc : q = cur
          · simp [afterFork, forkedBy, hpid, hqc]
          · simp [afterFork, forkedBy, hpid, hqc, Ne.symm hqc]
  · by_cases hq : q = cur
    · subst hq
      cases hold : s q with
      | none => simp [forksOf, ProcTree.modify, hold, forkedBy]
      | some t => simp [forksOf, ProcTree.modify, hold, forkedBy]
    · simp [forksOf, ProcTree.modify, hq, forkedBy]

theorem WellFormed.forksOf_run {es : List Event} :
    ∀ {s s' : Tasks} {os : List Int}, WellFormed s → machine.run s es = some (os, s') →
      ∀ q, forksOf s' q = forksOf s q + Int32.ofNat (es.countP (forkedBy q)) := by
  induction es with
  | nil =>
      intro s s' os _ hrun q
      obtain ⟨-, rfl⟩ := Prod.mk.inj (Option.some.inj hrun)
      simp
  | cons e es ih =>
      intro s s' os h hrun q
      obtain ⟨o, t, os', hstep, hrest, -⟩ := Machine.run_cons_inv hrun
      rw [ih (h.step hstep) hrest q, h.forksOf_step hstep q, List.countP_cons, Int32.ofNat_add,
        Int32.add_assoc, Int32.add_comm (Int32.ofNat _)]
      congr 2
      split <;> rfl

/-- **The number of forks** that the tracer prints for a task is the number of times the
task has successfully called `_do_fork`, as an `int`. -/
theorem tracer_forks {es : List Event} {os : List Int} {s : Tasks}
    (hrun : machine.run boot es = some (os, s)) {pid : Int} {task : Task}
    (htask : pidTask s pid = some task) :
    ∃ r, processTracer s pid = some (pid, r.lines) ∧ taskReport s pid task = some r ∧
      r.forks = Int32.ofNat (es.countP (forkedBy pid)) := by
  obtain ⟨r, hr, htrace, hsome, hne, hdescribes⟩ := (reached_wellFormed hrun).tracer htask
  refine ⟨r, htrace, hr, ?_⟩
  have hcount := boot_wellFormed.forksOf_run hrun pid
  rw [forksOf, hsome, forksOf, boot, if_neg hne] at hcount
  rw [hdescribes.forks]
  simpa using hcount

theorem tracer_forks_first :
    ∃ os s task r, machine.run boot firstForks = some (os, s) ∧ task.pid = 1 ∧
      processTracer s 1 = some (1, r.lines) ∧ taskReport s 1 task = some r ∧ r.forks = 2 := by
  obtain ⟨os, s, hrun, task, htask, hpid⟩ : ∃ os s, machine.run boot firstForks =
      some (os, s) ∧ ∃ task, pidTask s 1 = some task ∧ task.pid = 1 :=
    ⟨_, _, rfl, _, rfl, rfl⟩
  obtain ⟨r, hlines, hr, hforks⟩ := tracer_forks hrun htask
  exact ⟨os, s, task, r, hrun, hpid, hlines, hr, hforks⟩

end OsProjects.ProcTree
