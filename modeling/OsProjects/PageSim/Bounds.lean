import OsProjects.PageSim.Optimality

/-!
# Bounds on the fault counts

How the four counts relate to the references alone, to another number of frames, and to
the counts of the two halves of a sequence:

* every page costs one fault, no reference costs two, and with a frame for every page
  nothing else is paid (`simulate_compulsory`);
* against OPT on fewer frames, FIFO, LRU and Clock are better than `F`-competitive
  (`simulate_augmented`);
* LRU and OPT lose at most `F` faults by starting over with empty frames
  (`simulate_restart`).
-/

namespace OsProjects.PageSim

open OsProjects.Lib.Paging

variable {F G : Nat} {refs : List Int}

/-! ## The simulators as policies and schedules -/

theorem notMem_ne (hrefs : -1 ∉ refs) : ∀ p ∈ refs, p ≠ -1 := fun _ hp heq => hrefs (heq ▸ hp)

theorem simulateFifo_eq (hF : 1 ≤ F) (hrefs : -1 ∉ refs) :
    simulateFifo F refs = (fifoQueue F).faults [] refs := by
  rw [simulateFifo, (fifo_invariant hF).faults_foldl hrefs (fifoInit_inv hF), Pager.faults,
    (fifo_simulation hF).faultPages_eq ⟨fifoInit_inv hF, rfl⟩ (notMem_ne hrefs)]
  exact Nat.zero_add _

theorem simulateLru_eq (hF : 1 ≤ F) (hrefs : -1 ∉ refs) :
    simulateLru F refs = (lruStack F).faults [] refs := by
  rw [simulateLru, (lru_invariant hF).faults_foldl hrefs ⟨_, lruInit_rel F⟩, Pager.faults,
    (lru_simulation hF).faultPages_eq (lruInit_rel F) (notMem_ne hrefs)]
  exact Nat.zero_add _

theorem simulateClock_eq (hF : 1 ≤ F) (hrefs : -1 ∉ refs) :
    simulateClock F refs = (secondChance F).faults [] refs := by
  rw [simulateClock, clock_invariant.faults_foldl hrefs (clockInit_inv hF), Pager.faults,
    clock_simulation.faultPages_eq ⟨clockInit_inv hF, rfl⟩ (notMem_ne hrefs)]
  exact Nat.zero_add _

/-- The four counts, in the order in which `main` takes them. -/
def faultCounts (F : Nat) (refs : List Int) : List Nat :=
  [simulateOpt F refs, simulateFifo F refs, simulateLru F refs, simulateClock F refs]

theorem faultCounts_schedule (hF : 1 ≤ F) (hrefs : -1 ∉ refs) :
    ∀ n ∈ faultCounts F refs, ∃ T, Schedule F ∅ refs T n := by
  obtain ⟨_, hopt⟩ := simulateOpt_furthest hF hrefs
  obtain ⟨_, hfifo⟩ := (fifo_invariant hF).schedule_init hrefs (fifoInit_inv hF) rfl
  obtain ⟨_, hlru⟩ := (lru_invariant hF).schedule_init hrefs ⟨_, lruInit_rel F⟩ rfl
  obtain ⟨_, hclock⟩ := clock_invariant.schedule_init hrefs (clockInit_inv hF) rfl
  simp only [faultCounts, List.forall_mem_cons]
  exact ⟨⟨_, hopt.schedule⟩, ⟨_, hfifo⟩, ⟨_, hlru⟩, ⟨_, hclock⟩, by simp⟩

/-! ## Compulsory faults -/

/-- A conservative policy with a frame for every page loads each page once. -/
theorem conservative_faults_le {σ : Type} {P : Pager Int σ} {s : σ} (h : P.Conservative F s)
    (hfew : refs.toFinset.card ≤ F) : P.faults s refs ≤ refs.toFinset.card :=
  h.window_faults_le_card [] refs hfew

/-- **Compulsory faults.** Each of the four counts lies between the number of pages and
the number of references, and is the number of pages if there is a frame for each. -/
theorem simulate_compulsory (hF : 1 ≤ F) (hrefs : -1 ∉ refs) :
    ∀ n ∈ faultCounts F refs, refs.toFinset.card ≤ n ∧ n ≤ refs.length ∧
      (refs.toFinset.card ≤ F → n = refs.toFinset.card) := by
  intro n hn
  obtain ⟨T, hsched⟩ := faultCounts_schedule hF hrefs n hn
  refine ⟨hsched.card_le_faults, hsched.faults_le_length, fun hfew => ?_⟩
  have hfifo := conservative_faults_le (fifoQueue_conservative F hF) hfew
  have hlru := conservative_faults_le (lruStack_conservative F) hfew
  have hclock := conservative_faults_le (secondChance_conservative F hF) hfew
  rw [← simulateFifo_eq hF hrefs] at hfifo
  rw [← simulateLru_eq hF hrefs] at hlru
  rw [← simulateClock_eq hF hrefs] at hclock
  refine Nat.le_antisymm ?_ hsched.card_le_faults
  simp only [faultCounts, List.mem_cons, List.not_mem_nil, or_false] at hn
  rcases hn with rfl | rfl | rfl | rfl
  · -- OPT needs no more than any of the others
    obtain ⟨_, hopt⟩ := simulateOpt_furthest hF hrefs
    obtain ⟨_, hother⟩ := faultCounts_schedule hF hrefs (simulateLru F refs) (by simp [faultCounts])
    exact (hopt.faults_le (Nat.le_refl F) hother).trans hlru
  · exact hfifo
  · exact hlru
  · exact hclock

theorem simulate_compulsory_three :
    ([7, 8, 7, 9, 8] : List Int).toFinset.card = 3 ∧
      ∀ n ∈ faultCounts 3 [7, 8, 7, 9, 8], [7, 8, 7, 9, 8].toFinset.card ≤ n ∧ n ≤ 5 ∧
        ([7, 8, 7, 9, 8].toFinset.card ≤ 3 →
          n = ([7, 8, 7, 9, 8] : List Int).toFinset.card) :=
  ⟨by decide, simulate_compulsory (by decide) (by decide)⟩

/-! ## OPT on fewer frames -/

theorem augmented_aux {σ : Type} {P : Pager Int σ} {s : σ} (h : P.Conservative F s)
    (hG : 1 ≤ G) (hGF : G ≤ F) (hrefs : -1 ∉ refs) :
    (F - G + 1) * P.faults s refs ≤ F * simulateOpt G refs := by
  obtain ⟨_, hopt⟩ := simulateOpt_furthest hG hrefs
  exact h.faults_le_fewer hG hGF hopt.schedule

/-- **Resource augmentation.** On `F` frames FIFO, LRU and Clock fault at most
`F / (F - G + 1)` times as often as OPT on `G ≤ F` frames. -/
theorem simulate_augmented (hG : 1 ≤ G) (hGF : G ≤ F) (hrefs : -1 ∉ refs) :
    (F - G + 1) * simulateFifo F refs ≤ F * simulateOpt G refs ∧
      (F - G + 1) * simulateLru F refs ≤ F * simulateOpt G refs ∧
      (F - G + 1) * simulateClock F refs ≤ F * simulateOpt G refs := by
  have hF : 1 ≤ F := hG.trans hGF
  rw [simulateFifo_eq hF hrefs, simulateLru_eq hF hrefs, simulateClock_eq hF hrefs]
  exact ⟨augmented_aux (fifoQueue_conservative F hF) hG hGF hrefs,
    augmented_aux (lruStack_conservative F) hG hGF hrefs,
    augmented_aux (secondChance_conservative F hF) hG hGF hrefs⟩

/-- Four frames against two: the factor is `4 / 3`. -/
theorem simulate_augmented_double :
    3 * simulateFifo 4 [1, 2, 3, 4, 5, 1, 2] ≤ 4 * simulateOpt 2 [1, 2, 3, 4, 5, 1, 2] ∧
      3 * simulateLru 4 [1, 2, 3, 4, 5, 1, 2] ≤ 4 * simulateOpt 2 [1, 2, 3, 4, 5, 1, 2] ∧
      3 * simulateClock 4 [1, 2, 3, 4, 5, 1, 2] ≤ 4 * simulateOpt 2 [1, 2, 3, 4, 5, 1, 2] :=
  simulate_augmented (F := 4) (G := 2) (by decide) (by decide) (by decide)

/-! ## Starting over -/

/-- A schedule that starts with pages in its frames is ahead by so many pages. -/
theorem ahead_empty (S : Finset Int) : Ahead S ∅ refs S.card := by
  intro t
  have := usedWithin_le_card S refs t
  omega

theorem simulateLru_restart (hF : 1 ≤ F) {front back : List Int} (hfront : -1 ∉ front)
    (hback : -1 ∉ back) :
    simulateLru F (front ++ back) ≤ simulateLru F front + simulateLru F back ∧
      simulateLru F front + simulateLru F back ≤ simulateLru F (front ++ back) + F := by
  have hboth : -1 ∉ front ++ back := by simp [hfront, hback]
  have hnodup : ((lruStack F).run [] front).Nodup :=
    (lruStack F).run_induction List.Nodup (fun _ => True) (fun s p _ h => touch_nodup s p h)
      List.nodup_nil (fun _ _ => trivial)
  have hmore := lruStack_faults_append_le F back [] ((lruStack F).run [] front)
  have hless := lruStack_faults_le_append F back [] ((lruStack F).run [] front) hnodup
  rw [List.nil_append] at hmore hless
  rw [simulateLru_eq hF hboth, simulateLru_eq hF hfront, simulateLru_eq hF hback,
    Pager.faults_append]
  rw [List.length_nil] at hless
  omega

theorem simulateOpt_restart (hF : 1 ≤ F) {front back : List Int} (hfront : -1 ∉ front)
    (hback : -1 ∉ back) :
    simulateOpt F (front ++ back) ≤ simulateOpt F front + simulateOpt F back ∧
      simulateOpt F front + simulateOpt F back ≤ simulateOpt F (front ++ back) + F := by
  have hboth : -1 ∉ front ++ back := by simp [hfront, hback]
  obtain ⟨_, hoptFront⟩ := simulateOpt_furthest hF hfront
  obtain ⟨_, hoptBack⟩ := simulateOpt_furthest hF hback
  obtain ⟨_, hoptBoth⟩ := simulateOpt_furthest hF hboth
  constructor
  · -- serve `back` with what `front` leaves in the frames
    have hS := hoptFront.schedule.card_le (by simp)
    obtain ⟨_, k, hwarm, hk⟩ := hoptBack.schedule.warm (Finset.empty_subset _) hS
    have := hoptBoth.faults_le (Nat.le_refl F) (hoptFront.schedule.append hwarm)
    omega
  · obtain ⟨S, m, k, hfirst, hsecond, hsum⟩ := hoptBoth.schedule.split
    have hS := hfirst.card_le (by simp)
    have hm := hoptFront.faults_le (Nat.le_refl F) hfirst
    have hk := hoptBack.faults_le_add (Nat.le_refl F) hsecond hS (ahead_empty S)
    omega

/-- **Starting over.** Serving a sequence in two runs, each from empty frames, saves LRU
and OPT no fault and costs them at most one for each frame. -/
theorem simulate_restart (hF : 1 ≤ F) (front back : List Int) (hrefs : -1 ∉ front ++ back) :
    (simulateLru F (front ++ back) ≤ simulateLru F front + simulateLru F back ∧
        simulateLru F front + simulateLru F back ≤ simulateLru F (front ++ back) + F) ∧
      simulateOpt F (front ++ back) ≤ simulateOpt F front + simulateOpt F back ∧
        simulateOpt F front + simulateOpt F back ≤ simulateOpt F (front ++ back) + F := by
  have hfront : -1 ∉ front := fun hm => hrefs (List.mem_append_left back hm)
  have hback : -1 ∉ back := fun hm => hrefs (List.mem_append_right front hm)
  exact ⟨simulateLru_restart hF hfront hback, simulateOpt_restart hF hfront hback⟩

theorem simulate_restart_halves :
    (simulateLru 2 [1, 2, 3, 3, 2, 1] ≤ simulateLru 2 [1, 2, 3] + simulateLru 2 [3, 2, 1] ∧
        simulateLru 2 [1, 2, 3] + simulateLru 2 [3, 2, 1] ≤
          simulateLru 2 [1, 2, 3, 3, 2, 1] + 2) ∧
      simulateOpt 2 [1, 2, 3, 3, 2, 1] ≤ simulateOpt 2 [1, 2, 3] + simulateOpt 2 [3, 2, 1] ∧
        simulateOpt 2 [1, 2, 3] + simulateOpt 2 [3, 2, 1] ≤
          simulateOpt 2 [1, 2, 3, 3, 2, 1] + 2 :=
  simulate_restart (by decide) [1, 2, 3] [3, 2, 1] (by decide)

end OsProjects.PageSim
