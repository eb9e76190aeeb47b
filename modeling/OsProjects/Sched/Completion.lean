import OsProjects.Sched.RoundRobin

/-!
# Completion of Round Robin

The loop of `simulate_RR` always ends (`rr_terminates`). An unfinished task that
has arrived is in the queue (`Covered`) until a context switch skips an arrival
(`Skips`); from then on the task is lost (`Lost`) unless the queue runs empty
while another task is still to come (`Refills`).
-/

namespace OsProjects.Sched

open OsProjects.Lib.Loops

variable {N : Nat} {tq : Int} {tasks : Fin N → Task} {s t : RRState N}

/-! ## The initial state -/

theorem rrStart_nonneg (P : Fin N → Proc) : 0 ≤ rrStart P := by
  unfold rrStart
  split
  · next nx _ =>
      split
      · next hpos =>
          show (0 : Int) ≤ 10 * (P nx).arrival
          omega
      · exact le_refl 0
  · exact le_refl 0

theorem rrInit_segs (P : Fin N → Proc) :
    (rrInit P).segs = addSeg [] 0 (rrStart P) pidIdle := rfl

theorem mem_rrInit_items {P : Fin N → Proc} {i : Fin N} :
    i ∈ (rrInit P).Q.items ↔ ms (P i).arrival ≤ rrStart P := by
  show i ∈ (Queue.pushWhere _ _).items ↔ _
  rw [Queue.mem_items_pushWhere]
  simp [Queue.items, Queue.init]

theorem rrInit_inv (htasks : TasksOk tasks) :
    RRInv tasks (rrInit fun i => (tasks i).load) where
  pid _ := rfl
  arrival _ := rfl
  remain_pos i _ := by
    have hpos := htasks.burst_pos i
    show (0 : Int) < 10 * (tasks i).burst
    omega
  remain_done _ hdone := by simp [rrInit, Task.load] at hdone
  queued i hi := mem_rrInit_items.mp hi
  past seg hseg := by
    rw [rrInit_segs] at hseg
    rcases mem_addSeg hseg with hold | ⟨-, hstop, -⟩
    · simp at hold
    · exact hstop.le
  served i := by
    rw [rrInit_segs, segTotal_idle htasks (rrStart_nonneg _)]
    simp [segTotal, rrInit, Task.load]
  after i seg hseg hpid := by
    rw [rrInit_segs] at hseg
    simpa using mem_idle_segs htasks hseg hpid
  before i hdone := by simp [rrInit, Task.load] at hdone

/-! ## Termination -/

theorem now_le_dispatch (s : RRState N) {k : Fin N} (htq : 1 ≤ tq) (hpos : 0 < (s.P k).remain) :
    s.now ≤ (s.dispatch tq k).now := by
  have hle := s.now_le_afterSwitch k
  have hrun := RRState.runFor_pos htq hpos
  show s.now ≤ s.afterSwitch k + s.runFor tq k
  omega

/-- What the tasks in the queue and the unfinished ones have in common with
those `main` reads. Unlike `RRInv`, it does not need distinct pids. -/
structure QueueOk (s : RRState N) : Prop where
  remain_pos : ∀ i, (s.P i).done = false → 0 < (s.P i).remain
  arrived : ∀ i ∈ s.Q.items, ms (s.P i).arrival ≤ s.now

theorem rrInit_queueOk (hburst : ∀ i, 1 ≤ (tasks i).burst) :
    QueueOk (rrInit fun i => (tasks i).load) where
  remain_pos i _ := by
    have hpos := hburst i
    show (0 : Int) < 10 * (tasks i).burst
    omega
  arrived _ hi := mem_rrInit_items.mp hi

theorem QueueOk.step (htq : 1 ≤ tq) (h : QueueOk s) (hstep : RRStep tq s t) : QueueOk t := by
  cases hstep with
  | @passOver k Q hpop _ =>
      refine ⟨h.remain_pos, fun i hi => h.arrived i ?_⟩
      rw [Queue.pop_some hpop]
      exact List.mem_cons_of_mem k hi
  | @run k Q hpop hundone =>
      have hitems := Queue.pop_some hpop
      have hnow := now_le_dispatch { s with Q := Q } htq (h.remain_pos k hundone)
      refine ⟨dispatch_remain_pos hundone h.remain_pos, fun i hi => ?_⟩
      rw [dispatch_arrival]
      rcases mem_dispatch_items.mp hi with hi | ⟨-, -, hi⟩ | ⟨rfl, -⟩
      · exact (h.arrived i (hitems ▸ List.mem_cons_of_mem k hi)).trans hnow
      · exact hi
      · exact (h.arrived i (hitems ▸ List.mem_cons_self)).trans hnow
  | @idle j hpop _ =>
      refine ⟨h.remain_pos, fun i hi => ?_⟩
      rcases Queue.mem_items_pushWhere.mp hi with hi | hi
      · simp [Queue.pop_none hpop] at hi
      · exact (show _ ∧ ms (s.P i).arrival ≤ ms (s.P j).arrival by simpa using hi).2

/-- Unserved time, then arrivals to come, then tasks in the queue. -/
def rrMeasure (s : RRState N) : Nat × Nat × Nat :=
  (∑ i, (s.P i).remain.toNat,
    (Finset.univ.filter fun i => (s.P i).done = false ∧ s.now < ms (s.P i).arrival).card,
    s.Q.items.length)

def rrMeasureLt : Nat × Nat × Nat → Nat × Nat × Nat → Prop :=
  Prod.Lex (· < ·) (Prod.Lex (· < ·) (· < ·))

theorem rrMeasureLt_wf : WellFounded rrMeasureLt :=
  WellFounded.prod_lex Nat.lt_wfRel.wf (WellFounded.prod_lex Nat.lt_wfRel.wf Nat.lt_wfRel.wf)

/-- A quantum serves the task that runs. -/
theorem remain_dispatch_lt (htq : 1 ≤ tq) {k : Fin N} (hpos : 0 < (s.P k).remain) :
    ∑ i, ((s.dispatch tq k).P i).remain.toNat < ∑ i, (s.P i).remain.toNat := by
  have hrun := RRState.runFor_pos htq hpos
  have hk : ((s.dispatch tq k).P k).remain.toNat < (s.P k).remain.toNat := by
    rw [dispatch_remain_self]
    omega
  refine Finset.sum_lt_sum (fun i _ => ?_) ⟨k, Finset.mem_univ k, hk⟩
  by_cases hi : i = k
  · exact hi ▸ hk.le
  · rw [dispatch_P_of_ne hi]

theorem rrMeasure_step (htq : 1 ≤ tq) (h : QueueOk s) (hstep : RRStep tq s t) :
    rrMeasureLt (rrMeasure t) (rrMeasure s) := by
  cases hstep with
  | @passOver k Q hpop _ =>
      refine Prod.Lex.right _ (Prod.Lex.right _ ?_)
      show Q.items.length < s.Q.items.length
      rw [Queue.pop_some hpop]
      simp
  | run _ hundone => exact Prod.Lex.left _ _ (remain_dispatch_lt htq (h.remain_pos _ hundone))
  | @idle j _ hj =>
      obtain ⟨hundone, hlater⟩ := nextArrivalAfter_some hj
      refine Prod.Lex.right _ (Prod.Lex.left _ _ (Finset.card_lt_card ?_))
      -- `j` was still to come and no longer is
      refine Finset.ssubset_iff_of_subset (fun i hi => ?_) |>.mpr ⟨j, ?_, ?_⟩
      · simp only [Finset.mem_filter, Finset.mem_univ, true_and] at hi ⊢
        exact ⟨hi.1, hlater.trans hi.2⟩
      · simpa using ⟨hundone, hlater⟩
      · intro hmem
        exact lt_irrefl _ (Finset.mem_filter.mp hmem).2.2

theorem rr_terminates (hburst : ∀ i, 1 ≤ (tasks i).burst) (htq : 1 ≤ tq) :
    ∃ fuel t, simulateRR tq fuel (fun i => (tasks i).load) = some t :=
  exists_loop rrMeasureLt_wf rrMeasure QueueOk
    (fun _ _ h hbody => ⟨h.step htq (rrBody_some hbody),
      rrMeasure_step htq h (rrBody_some hbody)⟩)
    (rrInit_queueOk hburst)

/-- The entry of a finished task does not change any more. -/
theorem done_fixed (hreach : Reaches (rrBody tq) s t) {i : Fin N} (hdone : (s.P i).done = true) :
    t.P i = s.P i := by
  refine hreach.inv (fun u => u.P i = s.P i) ?_ rfl
  intro a b ha hbody
  cases rrBody_some hbody with
  | passOver => exact ha
  | @run k Q _ hundone =>
      rw [dispatch_P_of_ne]
      · exact ha
      · rintro rfl
        rw [ha, hdone] at hundone
        simp at hundone
  | idle => exact ha

/-! ## Skipped arrivals -/

/-- Every unfinished task that has arrived is in the queue. -/
def Covered (s : RRState N) : Prop :=
  ∀ i, (s.P i).done = false → ms (s.P i).arrival ≤ s.now → i ∈ s.Q.items

/-- The iteration charges a context switch, and an unfinished task arrives
during it. -/
def Skips (s : RRState N) : Prop :=
  ∃ k Q, s.Q.pop = some (k, Q) ∧ (s.P k).done = false ∧ s.switches k = true ∧
    ∃ i, (s.P i).done = false ∧ s.now < ms (s.P i).arrival ∧
      ms (s.P i).arrival ≤ s.now + csOverhead

/-- It is the task `i` that arrives during the context switch. -/
def SkipsTask (i : Fin N) (s : RRState N) : Prop :=
  ∃ k Q, s.Q.pop = some (k, Q) ∧ (s.P k).done = false ∧ s.switches k = true ∧
    (s.P i).done = false ∧ s.now < ms (s.P i).arrival ∧ ms (s.P i).arrival ≤ s.now + csOverhead

theorem skips_iff : Skips s ↔ ∃ i, SkipsTask i s := by
  constructor
  · rintro ⟨k, Q, hpop, hk, hswitch, i, hi⟩
    exact ⟨i, k, Q, hpop, hk, hswitch, hi⟩
  · rintro ⟨i, k, Q, hpop, hk, hswitch, hi⟩
    exact ⟨k, Q, hpop, hk, hswitch, i, hi⟩

/-- The queue is empty and an unfinished task is still to come. -/
def Refills (s : RRState N) : Prop :=
  s.Q.pop = none ∧ ∃ i, (s.P i).done = false ∧ s.now < ms (s.P i).arrival

/-- The task `i` has arrived, is not finished and not in the queue. -/
def Lost (i : Fin N) (s : RRState N) : Prop :=
  (s.P i).done = false ∧ ms (s.P i).arrival ≤ s.now ∧ i ∉ s.Q.items

/-- The task `i` is not lost. -/
def CoveredTask (i : Fin N) (s : RRState N) : Prop :=
  (s.P i).done = false → ms (s.P i).arrival ≤ s.now → i ∈ s.Q.items

theorem rrInit_covered (P : Fin N → Proc) : Covered (rrInit P) := by
  intro i _ harrived
  exact mem_rrInit_items.mpr harrived

theorem refill_covered {j : Fin N} : Covered (s.refill j) := by
  intro i hundone harrived
  refine Queue.mem_items_pushWhere.mpr (Or.inr ?_)
  rw [Bool.and_eq_true, Bool.not_eq_true', decide_eq_true_eq]
  exact ⟨hundone, harrived⟩

/-- Only a skip of the task loses it. -/
theorem CoveredTask.step {i : Fin N} (h : CoveredTask i s) (hskip : ¬ SkipsTask i s)
    (hstep : RRStep tq s t) : CoveredTask i t := by
  cases hstep with
  | @passOver k Q hpop hdone =>
      intro hundone harrived
      have hmem := h hundone harrived
      rw [Queue.pop_some hpop] at hmem
      rcases List.mem_cons.mp hmem with rfl | hmem
      · exact absurd hdone (by simpa using hundone)
      · exact hmem
  | @run k Q hpop hk =>
      intro hundone harrived
      refine mem_dispatch_items.mpr ?_
      by_cases hi : i = k
      · subst hi
        exact Or.inr (Or.inr ⟨rfl, (dispatch_undone_iff hk).mp hundone⟩)
      rw [dispatch_P_of_ne hi] at hundone harrived
      by_cases hold : ms (s.P i).arrival ≤ s.now
      · -- it was in the queue behind `k`
        have hmem := h hundone hold
        rw [Queue.pop_some hpop] at hmem
        exact Or.inl ((List.mem_cons.mp hmem).resolve_left hi)
      · refine Or.inr (Or.inl ⟨hundone, ?_, harrived⟩)
        -- it did not arrive during the switch
        show RRState.afterSwitch _ k < _
        unfold RRState.afterSwitch
        split_ifs with hswitch
        · by_contra hlate
          exact hskip ⟨k, Q, hpop, hk, hswitch, hundone, by omega, by simpa using hlate⟩
        · exact not_le.mp hold
  | idle => exact refill_covered i

/-- A lost task stays lost until the queue is refilled. -/
theorem Lost.step {i : Fin N} (htq : 1 ≤ tq) (hok : QueueOk s) (h : Lost i s)
    (hrefill : ¬ Refills s) (hstep : RRStep tq s t) : Lost i t := by
  obtain ⟨hundone, harrived, hmissing⟩ := h
  cases hstep with
  | passOver hpop _ =>
      rw [Queue.pop_some hpop] at hmissing
      exact ⟨hundone, harrived, fun hmem => hmissing (List.mem_cons_of_mem _ hmem)⟩
  | @run k Q hpop hk =>
      rw [Queue.pop_some hpop] at hmissing
      have hi : i ≠ k := fun heq => hmissing (heq ▸ List.mem_cons_self)
      have hle := RRState.now_le_afterSwitch { s with Q := Q } k
      have hnow := now_le_dispatch { s with Q := Q } htq (hok.remain_pos k hk)
      refine ⟨by rwa [dispatch_P_of_ne hi], ?_, fun hmem => ?_⟩
      · rw [dispatch_P_of_ne hi]
        exact harrived.trans hnow
      · rcases mem_dispatch_items.mp hmem with hmem | ⟨-, hlater, -⟩ | ⟨heq, -⟩
        · exact hmissing (List.mem_cons_of_mem _ hmem)
        · exact absurd hlater (not_lt.mpr (harrived.trans hle))
        · exact hi heq
  | idle hpop hj => exact absurd ⟨hpop, _, nextArrivalAfter_some hj⟩ hrefill

/-- A task that arrives during a context switch is lost. -/
theorem SkipsTask.lost {i : Fin N} (htq : 1 ≤ tq) (hok : QueueOk s) (h : SkipsTask i s) :
    ∃ t, rrBody tq s = some t ∧ Lost i t := by
  obtain ⟨k, Q, hpop, hk, hswitch, hundone, hlater, hsoon⟩ := h
  have hitems := Queue.pop_some hpop
  have hbody : rrBody tq s = some (RRState.dispatch tq { s with Q := Q } k) := rrBody_run hpop hk
  -- nothing in the queue is still to come
  have hqueued : ∀ x ∈ s.Q.items, x ≠ i := by
    rintro x hx rfl
    have hq := hok.arrived x hx
    omega
  have hi : i ≠ k := (hqueued k (hitems ▸ List.mem_cons_self)).symm
  have hafter : RRState.afterSwitch { s with Q := Q } k = s.now + csOverhead := if_pos hswitch
  have hrun := RRState.runFor_pos (s := { s with Q := Q }) htq (hok.remain_pos k hk)
  refine ⟨_, hbody, by rwa [dispatch_P_of_ne hi], ?_, fun hmem => ?_⟩
  · rw [dispatch_P_of_ne hi]
    show ms (s.P i).arrival ≤ RRState.afterSwitch { s with Q := Q } k + _
    omega
  · rcases mem_dispatch_items.mp hmem with hmem | ⟨-, hwindow, -⟩ | ⟨heq, -⟩
    · exact hqueued i (hitems ▸ List.mem_cons_of_mem _ hmem) rfl
    · rw [hafter] at hwindow
      exact absurd hsoon (not_le.mpr hwindow)
    · exact hi heq

theorem Refills.goes_on (h : Refills s) : rrBody tq s ≠ none := by
  obtain ⟨hpop, i, hundone, hlater⟩ := h
  intro hnone
  rcases rrBody_none hnone with hall | ⟨-, hpast⟩
  · simp [hall i] at hundone
  · exact absurd (hpast i hundone) (not_le.mpr hlater)

theorem Refills.covered (h : Refills s) (hstep : RRStep tq s t) : Covered t := by
  cases hstep with
  | passOver hpop => simp [h.1] at hpop
  | run hpop => simp [h.1] at hpop
  | idle => exact refill_covered

/-- When the loop is left, a task that is not lost is done. -/
theorem CoveredTask.done {i : Fin N} (h : CoveredTask i s) (hexit : rrBody tq s = none) :
    (s.P i).done = true := by
  rcases rrBody_none hexit with hall | ⟨hempty, hpast⟩
  · exact hall i
  · by_contra hundone
    have hundone : (s.P i).done = false := by simpa using hundone
    have hmem := h hundone (hpast i hundone)
    rw [hempty] at hmem
    simp at hmem

/-! ## Completion -/

/-- Every task is done, its segments add up to its burst, and they lie between
its arrival and its finish. -/
def Completes (tasks : Fin N → Task) (s : RRState N) : Prop :=
  ∀ i, (s.P i).done = true ∧ segTotal (tasks i).pid s.segs = ms (tasks i).burst ∧
    ∀ seg ∈ s.segs, seg.pid = (tasks i).pid →
      ms (tasks i).arrival ≤ seg.start ∧ seg.stop ≤ (s.P i).finish

theorem RRInv.completes (h : RRInv tasks s) (hdone : ∀ i, (s.P i).done = true) :
    Completes tasks s := by
  intro i
  have hserved := h.served i
  rw [h.remain_done i (hdone i)] at hserved
  exact ⟨hdone i, by omega, fun seg hseg hpid =>
    ⟨h.after i seg hseg hpid, h.before i (hdone i) seg hseg hpid⟩⟩

/-- A task is done at the end exactly when, each time it is skipped, the queue
is refilled later. -/
theorem done_iff_repaired (hburst : ∀ i, 1 ≤ (tasks i).burst) (htq : 1 ≤ tq)
    (hreach : Reaches (rrBody tq) (rrInit fun i => (tasks i).load) t) (hexit : rrBody tq t = none)
    (i : Fin N) : (t.P i).done = true ↔
      Repaired (rrBody tq) (SkipsTask i) Refills (rrInit fun i => (tasks i).load) := by
  have hinit := rrInit_queueOk hburst
  have hok : ∀ a b : RRState N, QueueOk a → rrBody tq a = some b → QueueOk b :=
    fun a b h hbody => h.step htq (rrBody_some hbody)
  refine ⟨fun hdone => ?_, fun hrepaired => CoveredTask.done ?_ hexit⟩
  · intro u hu hskips
    by_contra hnever
    -- the task is still lost at the exit
    have hoku := hu.inv QueueOk hok hinit
    obtain ⟨v, hbody, hlost⟩ := hskips.lost htq hoku
    have hvt : Reaches (rrBody tq) v t := (hu.to_exit hreach hexit).next hexit hbody
    have hlost := hvt.keep_of_no_repair hok
      (fun a b h hl hr hstep => Lost.step htq h hl hr (rrBody_some hstep))
      (hok u v hoku hbody) hlost
      (fun w hw hrefills => hnever ⟨w, .head hbody hw, hrefills⟩)
    simpa [hdone] using hlost.1
  · exact good_at_exit hok (fun a b _ hc hs hstep => CoveredTask.step hc hs (rrBody_some hstep))
      (fun a b _ hr hstep => hr.covered (rrBody_some hstep) i) (fun a hr => hr.goes_on)
      hinit (rrInit_covered _ i) hrepaired hreach hexit

/-- **Completion.** `simulate_RR` always ends. It ends with every task complete
exactly when every iteration in which a task arrives during the context switch
is later followed by one that finds the queue empty and a task still to come. -/
theorem rr_completes_iff (htasks : TasksOk tasks) (htq : 1 ≤ tq) :
    ∃ fuel t, simulateRR tq fuel (fun i => (tasks i).load) = some t ∧
      (Completes tasks t ↔
        Repaired (rrBody tq) Skips Refills (rrInit fun i => (tasks i).load)) := by
  obtain ⟨fuel, t, hloop⟩ := rr_terminates htasks.burst_pos htq
  obtain ⟨hreach, hexit⟩ := loop_some hloop
  have hdone := done_iff_repaired htasks.burst_pos htq hreach hexit
  have hinv := hreach.inv (RRInv tasks)
    (fun a b h hbody => h.step htasks htq (rrBody_some hbody)) (rrInit_inv htasks)
  refine ⟨fuel, t, hloop, fun hcompletes => ?_, fun hrepaired => ?_⟩
  · intro u hu hskips
    obtain ⟨i, hi⟩ := skips_iff.mp hskips
    exact (hdone i).mp (hcompletes i).1 u hu hi
  · apply hinv.completes
    intro i
    exact (hdone i).mpr fun u hu hi => hrepaired u hu (skips_iff.mpr ⟨i, hi⟩)

/-- Two tasks share the CPU from the start; the third arrives at 11 ms, during
their tenth context switch if the quantum is 1 ms. -/
def lateTasks : Fin 3 → Task := ![⟨0, 0, 6⟩, ⟨1, 0, 5⟩, ⟨2, 11, 1⟩]

theorem rr_completes_late_tasks :
    ∃ fuel t, simulateRR 6 fuel (fun i => (lateTasks i).load) = some t ∧
      (Completes lateTasks t ↔
        Repaired (rrBody 6) Skips Refills (rrInit fun i => (lateTasks i).load)) :=
  rr_completes_iff ⟨by decide, by decide, by decide⟩ (by decide)

theorem rr_loses_arrival :
    ¬ ∃ fuel t, simulateRR 1 fuel (fun i => (lateTasks i).load) = some t ∧
      Completes lateTasks t := by
  rintro ⟨fuel, t, hloop, hcompletes⟩
  have hrun : (simulateRR 1 12 fun i => (lateTasks i).load).map (fun s => (s.P 2).done) =
      some false := by decide +kernel
  obtain ⟨u, hu, hundone⟩ := Option.map_eq_some_iff.mp hrun
  rw [loop_unique hloop hu, (hcompletes 2).1] at hundone
  exact absurd hundone (by decide)

end OsProjects.Sched
