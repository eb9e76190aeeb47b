import OsProjects.Sched.Policies
import OsProjects.Sched.RoundRobin

/-!
# One iteration of FCFS, SJF and SRTF

What the parts of an iteration do: waiting for a ready task only moves the clock
forward over a recorded idle period (`awaitReady_some`), and so does the context
switch (`switchTo_now`); every `pick_*` finds a task that is ready, if there is
one (`Policy`).
-/

namespace OsProjects.Sched

open OsProjects.Lib.Loops OsProjects.Lib.Select

variable {N : Nat}

/-! ## Selection -/

theorem ready_iff {P : Fin N → Proc} {now : Int} {i : Fin N} :
    ready P now i = true ↔ (P i).done = false ∧ ms (P i).arrival ≤ now := by
  simp [ready]

theorem anyReady_iff {P : Fin N → Proc} {now : Int} :
    anyReady P now = true ↔ ∃ i, ready P now i = true := by
  simp [anyReady]

theorem anyReady_false {P : Fin N → Proc} {now : Int} (h : anyReady P now = false) {i : Fin N}
    (hundone : (P i).done = false) : now < ms (P i).arrival := by
  by_contra hle
  have hready := anyReady_iff.mpr ⟨i, ready_iff.mpr ⟨hundone, not_lt.mp hle⟩⟩
  simp [h] at hready

/-- A selection that picks a ready task whenever there is one. -/
structure Policy (N : Nat) where
  pick : (Fin N → Proc) → Int → Option (Fin N)
  picks_ready : ∀ P now k, pick P now = some k → ready P now k = true
  finds : ∀ P now, anyReady P now = true → ∃ k, pick P now = some k

/-- The loop of the `pick_*` is such a selection, whatever it compares. -/
def Policy.by (before : Proc → Proc → Bool) : Policy N where
  pick P now := pickBy P now before
  picks_ready P now k h := (select_mem h).2
  finds P now h := by
    obtain ⟨i, hi⟩ := anyReady_iff.mp h
    exact select_isSome (List.mem_finRange i) hi

def fcfs : Policy N := .by Proc.beforeFCFS

def sjf : Policy N := .by Proc.beforeSJF

def srtf : Policy N := .by Proc.beforeSRTF

theorem Proc.beforeFCFS_iff {p q : Proc} :
    p.beforeFCFS q = true ↔ p.arrival < q.arrival ∨ p.arrival = q.arrival ∧ p.pid < q.pid := by
  simp [Proc.beforeFCFS]

theorem Proc.beforeSJF_iff {p q : Proc} :
    p.beforeSJF q = true ↔ p.burst < q.burst ∨ p.burst = q.burst ∧ p.beforeFCFS q = true := by
  simp [Proc.beforeSJF]

theorem Proc.beforeSRTF_iff {p q : Proc} :
    p.beforeSRTF q = true ↔
      p.remain < q.remain ∨ p.remain = q.remain ∧ p.beforeFCFS q = true := by
  simp [Proc.beforeSRTF]

section Best

variable {P : Fin N → Proc} {now : Int} {k i : Fin N}

/-- No ready task comes before the one picked. -/
theorem pickBy_best {before : Proc → Proc → Bool} (hirrefl : ∀ p, before p p = false)
    (htrans : ∀ p q r, before p q = true → before q r = true → before p r = true)
    (hk : pickBy P now before = some k) (hi : ready P now i = true) :
    before (P i) (P k) = false := by
  have hbest := select_best (fun j => hirrefl (P j)) (fun x y z => htrans (P x) (P y) (P z)) hk
    (List.mem_finRange i) hi
  exact hbest

theorem pickFCFS_best (hk : pickFCFS P now = some k) (hi : ready P now i = true) :
    (P i).beforeFCFS (P k) = false := by
  refine pickBy_best (fun p => by simp [Proc.beforeFCFS]) (fun p q r hpq hqr => ?_) hk hi
  rw [Proc.beforeFCFS_iff] at hpq hqr ⊢
  omega

theorem pickSJF_best (hk : pickSJF P now = some k) (hi : ready P now i = true) :
    (P i).beforeSJF (P k) = false := by
  refine pickBy_best (fun p => by simp [Proc.beforeSJF, Proc.beforeFCFS])
    (fun p q r hpq hqr => ?_) hk hi
  rw [Proc.beforeSJF_iff, Proc.beforeFCFS_iff] at hpq hqr ⊢
  omega

theorem pickSRTF_best (hk : pickSRTF P now = some k) (hi : ready P now i = true) :
    (P i).beforeSRTF (P k) = false := by
  refine pickBy_best (fun p => by simp [Proc.beforeSRTF, Proc.beforeFCFS])
    (fun p q r hpq hqr => ?_) hk hi
  rw [Proc.beforeSRTF_iff, Proc.beforeFCFS_iff] at hpq hqr ⊢
  omega

end Best

/-- `next_arrival_after` is a scan for the earliest arrival. -/
theorem nextArrivalAfter_eq_select (P : Fin N → Proc) (now : Int) :
    nextArrivalAfter P now =
      select (fun i => !(P i).done && now < ms (P i).arrival)
        (fun i j => (P i).arrival < (P j).arrival) (List.finRange N) := by
  unfold nextArrivalAfter select
  congr 1
  funext found i
  unfold earlierArrival Lib.Select.pass
  cases found <;> simp

/-- No unfinished task that is still to come arrives before the one found. -/
theorem nextArrivalAfter_le {P : Fin N → Proc} {now : Int} {j i : Fin N}
    (h : nextArrivalAfter P now = some j) (hundone : (P i).done = false)
    (hlater : now < ms (P i).arrival) : (P j).arrival ≤ (P i).arrival := by
  rw [nextArrivalAfter_eq_select] at h
  have hbest := select_best (x := i) (by simp) (fun x y z hxy hyz => ?_) h (List.mem_finRange i)
    (by simp [hundone, hlater])
  · simpa using hbest
  · simp only [decide_eq_true_eq] at hxy hyz ⊢
    exact hxy.trans hyz

/-! ## Waiting and switching -/

namespace SimState

variable {s u t : SimState N} {k : Fin N}

/-- Waiting moves the clock to a time at which a task is ready, and records the
idle period. -/
theorem awaitReady_some (h : s.awaitReady = some u) :
    u = { s with now := u.now, segs := addSeg s.segs s.now u.now pidIdle } ∧
      s.now ≤ u.now ∧ anyReady s.P u.now = true := by
  unfold awaitReady at h
  split_ifs at h with hready
  · obtain rfl := Option.some.inj h
    exact ⟨by rw [addSeg_of_le le_rfl], le_rfl, hready⟩
  · obtain ⟨nx, hnx, rfl⟩ := Option.map_eq_some_iff.mp h
    obtain ⟨hundone, hlater⟩ := nextArrivalAfter_some hnx
    exact ⟨rfl, hlater.le, anyReady_iff.mpr ⟨nx, ready_iff.mpr ⟨hundone, le_rfl⟩⟩⟩

theorem awaitReady_P (h : s.awaitReady = some u) : u.P = s.P := by
  rw [(awaitReady_some h).1]

theorem awaitReady_prev (h : s.awaitReady = some u) : u.prev = s.prev := by
  rw [(awaitReady_some h).1]

theorem awaitReady_segs (h : s.awaitReady = some u) :
    u.segs = addSeg s.segs s.now u.now pidIdle :=
  congrArg segs (awaitReady_some h).1

/-- While a task is unfinished, waiting succeeds. -/
theorem awaitReady_isSome (h : allDone s.P = false) : ∃ u, s.awaitReady = some u := by
  unfold awaitReady
  split_ifs with hready
  · exact ⟨s, rfl⟩
  · cases hnx : nextArrivalAfter s.P s.now with
    | some nx => exact ⟨_, rfl⟩
    | none =>
        obtain ⟨i, hi⟩ : ∃ i, (s.P i).done = false := by simpa [allDone] using h
        have hlater := anyReady_false (by simpa using hready) hi
        exact absurd (nextArrivalAfter_none hnx i hi) (not_le.mpr hlater)

theorem switchTo_P : (s.switchTo k).P = s.P := by
  unfold switchTo
  split_ifs <;> rfl

theorem switchTo_now :
    (s.switchTo k).now =
      if s.prev ≠ (s.P k).pid ∧ s.prev ≠ pidIdle then s.now + csOverhead else s.now := by
  unfold switchTo
  split_ifs <;> rfl

theorem now_le_switchTo : s.now ≤ (s.switchTo k).now := by
  rw [switchTo_now]
  unfold csOverhead
  split_ifs <;> omega

theorem switchTo_segs :
    (s.switchTo k).segs = addSeg s.segs s.now (s.switchTo k).now pidCs := by
  unfold switchTo
  split_ifs
  · rfl
  · rw [addSeg_of_le le_rfl]

/-- The next event is not later than the end of `k`, and later than now unless
`k` has nothing left to run. -/
theorem nextEvent_le : s.nextEvent k ≤ s.now + (s.P k).remain := by
  unfold nextEvent
  split
  · exact le_rfl
  · exact min_le_left _ _

theorem now_le_nextEvent (h : 0 ≤ (s.P k).remain) : s.now ≤ s.nextEvent k := by
  unfold nextEvent
  split
  · omega
  · next nx hnx => exact le_min (by omega) (nextArrivalAfter_some hnx).2.le

theorem now_lt_nextEvent (h : 0 < (s.P k).remain) : s.now < s.nextEvent k := by
  unfold nextEvent
  split
  · omega
  · next nx hnx => exact lt_min (by omega) (nextArrivalAfter_some hnx).2

theorem preempt_now : (s.preempt k).now = (s.switchTo k).now := by
  unfold preempt
  split_ifs with hprev
  · rfl
  · rw [switchTo_now, if_neg (fun h => hprev h.1)]

theorem preempt_segs : (s.preempt k).segs = (s.switchTo k).segs := by
  unfold preempt
  split_ifs with hprev
  · rfl
  · rw [switchTo_segs, switchTo_now, if_neg (fun h => hprev h.1), addSeg_of_le le_rfl]

theorem preempt_P_of_ne {i : Fin N} (h : i ≠ k) : (s.preempt k).P i = s.P i := by
  unfold preempt
  split_ifs
  · exact Function.update_of_ne h _ _
  · rfl

theorem preempt_P_self :
    (s.preempt k).P k =
      if s.prev ≠ (s.P k).pid then (s.P k).start (s.switchTo k).now else s.P k := by
  unfold preempt
  split_ifs
  · exact Function.update_self _ _ _
  · rfl

/-- A switch changes no more of a task than the record of its first start. -/
theorem preempt_keeps (i : Fin N) : ∃ first started,
    (s.preempt k).P i = { s.P i with firstStart := first, started := started } := by
  by_cases hi : i = k
  · subst hi
    rw [preempt_P_self]
    unfold Proc.start
    split_ifs
    · exact ⟨_, _, rfl⟩
    · exact ⟨_, _, rfl⟩
    · exact ⟨_, _, rfl⟩
  · rw [preempt_P_of_ne hi]
    exact ⟨_, _, rfl⟩

theorem preempt_arrival (i : Fin N) : ((s.preempt k).P i).arrival = (s.P i).arrival := by
  obtain ⟨_, _, heq⟩ := s.preempt_keeps (k := k) i
  rw [heq]

theorem preempt_done (i : Fin N) : ((s.preempt k).P i).done = (s.P i).done := by
  obtain ⟨_, _, heq⟩ := s.preempt_keeps (k := k) i
  rw [heq]

theorem preempt_remain (i : Fin N) : ((s.preempt k).P i).remain = (s.P i).remain := by
  obtain ⟨_, _, heq⟩ := s.preempt_keeps (k := k) i
  rw [heq]

end SimState

/-! ## The loop body -/

variable {pick : (Fin N → Proc) → Int → Option (Fin N)}
  {run : SimState N → Fin N → SimState N} {s t : SimState N}

/-- An iteration waits, picks a task and runs it. -/
theorem simBody_some (h : simBody pick run s = some t) :
    ∃ u k, s.awaitReady = some u ∧ pick u.P u.now = some k ∧ t = run u k := by
  unfold simBody at h
  split_ifs at h
  obtain ⟨u, hu, h⟩ := Option.bind_eq_some_iff.mp h
  obtain ⟨k, hk, rfl⟩ := Option.map_eq_some_iff.mp h
  exact ⟨u, k, hu, hk, rfl⟩

/-- While a task is unfinished, the iteration finds one that is ready. -/
theorem Policy.progress (π : Policy N) (h : allDone s.P = false) :
    ∃ u k, s.awaitReady = some u ∧ π.pick u.P u.now = some k := by
  obtain ⟨u, hu⟩ := SimState.awaitReady_isSome h
  have hready := (SimState.awaitReady_some hu).2.2
  rw [← SimState.awaitReady_P hu] at hready
  obtain ⟨k, hk⟩ := π.finds u.P u.now hready
  exact ⟨u, k, hu, hk⟩

theorem Policy.goes_on (π : Policy N) {i : Fin N} (h : (s.P i).done = false) :
    ∃ t, simBody π.pick run s = some t := by
  have hall : allDone s.P = false := by
    rw [← Bool.not_eq_true, allDone_iff]
    intro hall
    simp [hall i] at h
  obtain ⟨u, k, hu, hk⟩ := π.progress hall
  exact ⟨run u k, by simp [simBody, hall, hu, hk]⟩

theorem Policy.all_done_at_exit (π : Policy N) (h : simBody π.pick run s = none) (i : Fin N) :
    (s.P i).done = true := by
  by_contra hundone
  have hgoes : ∃ t, simBody π.pick run s = some t := π.goes_on (by simpa using hundone)
  simp [h] at hgoes

end OsProjects.Sched
