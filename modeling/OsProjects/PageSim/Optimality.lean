import OsProjects.PageSim.Queues
import OsProjects.PageSim.Lru

/-!
# OPT against the other policies

`simulate_opt` replaces the first frame that is never referenced again and
otherwise the frame with the strictly furthest next reference. Either way the
victim is a furthest one (`optVictim_furthest`), so the run is a
`FurthestSchedule` and no demand-paging schedule faults less often
(`simulateOpt_optimal`), not even one with fewer frames
(`simulateOpt_more_frames`). Conversely FIFO, LRU and Clock are conservative
(`simulate_conservative`) and fault at most `F` times as often
(`simulate_competitive`).
-/

namespace OsProjects.PageSim

open OsProjects.Lib.Paging

/-! ## The victim scan -/

/-- A page is within the next `t` references iff its next use is. -/
theorem mem_take_iff_of_next {rest : List Int} {x : Int} {next : Nat}
    (h : rest.findIdx? (· == x) = some next) (t : Nat) : x ∈ rest.take t ↔ next < t := by
  obtain ⟨hlt, hx, hfirst⟩ := List.findIdx?_eq_some_iff_getElem.mp h
  constructor
  · intro hmem
    obtain ⟨k, hk, hkx⟩ := List.getElem_of_mem hmem
    rw [List.length_take] at hk
    rw [List.getElem_take] at hkx
    by_contra hle
    exact hfirst k (by omega) (by simp [hkx])
  · intro hnt
    have hx' : rest[next] = x := by simpa using hx
    rw [List.mem_take_iff_getElem]
    exact ⟨next, by omega, hx'⟩

/-- The scan from frame `i` on, given what it knows of the frames `seen` before:
each of them is used again, no later than `furthest`, and `found` is the one
used then. The result is a furthest frame of all. -/
theorem optScan_furthest (rest : List Int) (frames : List Int) :
    ∀ (seen : List Int) (found : Nat) (furthest : Int), seen ++ frames ≠ [] →
      (∀ x ∈ seen, ∃ next : Nat, rest.findIdx? (· == x) = some next ∧ (next : Int) ≤ furthest) →
      (seen = [] ∧ furthest < 0 ∨ ∃ (f : Int) (next : Nat), seen[found]? = some f ∧
        rest.findIdx? (· == f) = some next ∧ furthest = next) →
      ∃ f, (seen ++ frames)[optScan rest frames seen.length found furthest]? = some f ∧
        ∀ x ∈ seen ++ frames, ∀ t, f ∈ rest.take t → x ∈ rest.take t := by
  induction frames with
  | nil =>
      intro seen found furthest hne hseen hfound
      obtain ⟨f, next, hf, hnext, hfur⟩ := hfound.resolve_left (fun h => hne (by simp [h.1]))
      refine ⟨f, by simpa [optScan] using hf, fun x hx t hft => ?_⟩
      obtain ⟨next', hnext', hle⟩ := hseen x (by simpa using hx)
      rw [mem_take_iff_of_next hnext] at hft
      rw [mem_take_iff_of_next hnext']
      omega
  | cons frame frames ih =>
      intro seen found furthest hne hseen hfound
      unfold optScan
      cases hnext : rest.findIdx? (· == frame) with
      | none =>
          -- never referenced again: no prefix of the rest holds it
          refine ⟨frame, by simp, fun x _ t hft => ?_⟩
          rw [List.findIdx?_eq_none_iff] at hnext
          exact absurd (hnext frame (List.mem_of_mem_take hft)) (by simp)
      | some next =>
          have happ : seen ++ frame :: frames = (seen ++ [frame]) ++ frames := by simp
          have hlen : seen.length + 1 = (seen ++ [frame]).length := by simp
          rw [happ, hlen]
          simp only
          split
          · rename_i hgt
            apply ih (seen ++ [frame]) seen.length next (by simp)
            · intro x hx
              rcases List.mem_append.mp hx with hx | hx
              · obtain ⟨next', hnext', hle⟩ := hseen x hx
                exact ⟨next', hnext', by omega⟩
              · rw [List.mem_singleton.mp hx]
                exact ⟨next, hnext, Int.le_refl _⟩
            · exact .inr ⟨frame, next, by simp, hnext, rfl⟩
          · rename_i hle
            apply ih (seen ++ [frame]) found furthest (by simp)
            · intro x hx
              rcases List.mem_append.mp hx with hx | hx
              · exact hseen x hx
              · rw [List.mem_singleton.mp hx]
                exact ⟨next, hnext, by omega⟩
            · obtain ⟨f, next', hf, hnext', hfur⟩ := hfound.resolve_left (by omega)
              refine .inr ⟨f, next', ?_, hnext', hfur⟩
              rw [List.getElem?_append_left (List.getElem?_eq_some_iff.mp hf).1]
              exact hf

theorem optVictim_furthest {F : Nat} (hF : 1 ≤ F) {s : Sim} (h : s.Ok F)
    (hfull : ¬ s.filled < F) (rest : List Int) :
    ∃ (hv : optVictim rest s.frames < s.resident.length),
      optVictim rest s.frames < F ∧
        Furthest s.resident.toFinset rest s.resident[optVictim rest s.frames] := by
  have hres := h.frames_eq_of_full hfull
  have hne : s.frames ≠ [] := fun heq => by
    have := h.length
    rw [heq] at this
    simp at this
    omega
  obtain ⟨f, hf, hfur⟩ := optScan_furthest rest s.frames [] 0 (-1) (by simpa using hne)
    (by simp) (.inl ⟨rfl, by omega⟩)
  obtain ⟨hlt, hfv⟩ := List.getElem?_eq_some_iff.mp
    (show s.frames[optVictim rest s.frames]? = some f by simpa [optVictim] using hf)
  have hlt' : optVictim rest s.frames < s.resident.length := by rw [← hres]; exact hlt
  have hfv' : s.resident[optVictim rest s.frames] = f := by
    rw [← hfv]
    congr 1
    exact hres.symm
  refine ⟨hlt', by rw [← h.length]; exact hlt, ?_⟩
  intro x hx t
  rw [hfv']
  exact hfur x (by simpa [hres] using hx) t

/-! ## The run as a schedule -/

theorem optStep_hit {F : Nat} {s : Sim} {p : Int} (hp : p ∈ s.frames) (rest : List Int) :
    optStep F s p rest = s := by
  unfold optStep
  cases hfind : findInFrames s.frames p with
  | none => exact absurd hp (findInFrames_none.mp hfind)
  | some i => rfl

theorem optStep_miss {F : Nat} {s : Sim} {p : Int} (hp : p ∉ s.frames) (rest : List Int) :
    optStep F s p rest =
      if s.filled < F then s.fill p else s.replace (optVictim rest s.frames) p := by
  unfold optStep
  rw [findInFrames_none.mpr hp]

/-- `simulate_opt` evicts furthest pages throughout. -/
theorem optRun_furthest {F : Nat} (hF : 1 ≤ F) {refs : List Int} (hrefs : -1 ∉ refs) :
    ∀ {s : Sim}, s.Ok F →
      ∃ n, FurthestSchedule F s.resident.toFinset refs
          (optRun F s refs).resident.toFinset n ∧
        (optRun F s refs).faults = s.faults + n := by
  induction refs with
  | nil => intro s _; exact ⟨0, .nil, rfl⟩
  | cons p rest ih =>
      intro s h
      have hp : p ≠ -1 := fun heq => hrefs (by simp [heq])
      have hrest : -1 ∉ rest := fun hm => hrefs (List.mem_cons_of_mem p hm)
      have hcard : s.resident.toFinset.card = s.filled := by
        rw [List.toFinset_card_of_nodup h.nodup, h.length_resident]
      by_cases hmem : p ∈ s.frames
      · obtain ⟨n, hsched, hn⟩ := ih hrest h
        rw [optRun, optStep_hit hmem]
        exact ⟨n, .hit (by simpa using (h.mem_frames hp).mp hmem) hsched, hn⟩
      · have hnew : p ∉ s.resident.toFinset := by
          simpa using fun hm => hmem ((h.mem_frames hp).mpr hm)
        rw [optRun, optStep_miss hmem]
        split
        · rename_i hroom
          obtain ⟨n, hsched, hn⟩ := ih hrest (h.fill hroom hp hmem)
          rw [fill_toFinset h hroom] at hsched
          refine ⟨1 + n, .fill hnew (by omega) hsched, ?_⟩
          rw [hn]
          exact Nat.add_assoc _ 1 n
        · rename_i hfull
          obtain ⟨hlt, _, hfar⟩ := optVictim_furthest hF h hfull rest
          obtain ⟨n, hsched, hn⟩ := ih hrest (h.replace hfull (optVictim rest s.frames) hp hmem)
          rw [replace_toFinset h hfull hlt] at hsched
          refine ⟨1 + n, .evict hnew (by omega) (by simp) hfar hsched, ?_⟩
          rw [hn]
          exact Nat.add_assoc _ 1 n

theorem simulateOpt_furthest {F : Nat} (hF : 1 ≤ F) {refs : List Int} (hrefs : -1 ∉ refs) :
    ∃ T, FurthestSchedule F ∅ refs T (simulateOpt F refs) := by
  obtain ⟨n, hsched, hn⟩ := optRun_furthest hF hrefs (Sim.init_ok F)
  have hcount : simulateOpt F refs = n := by rw [simulateOpt, hn]; exact Nat.zero_add n
  exact ⟨_, hcount ▸ hsched⟩

/-- A simulator started on empty frames is a schedule from the empty set. -/
theorem SimInvariant.schedule_init {σ : Type} {F : Nat} {step : σ → Int → σ} {sim : σ → Sim}
    {Inv : σ → Prop} (h : SimInvariant F step sim Inv) {refs : List Int} (hrefs : -1 ∉ refs)
    {s : σ} (hs : Inv s) (hinit : sim s = Sim.init F) :
    ∃ T, Schedule F ∅ refs T (sim (refs.foldl step s)).faults := by
  obtain ⟨n, hsched, hn⟩ := h.schedule hrefs hs
  rw [hinit] at hsched hn
  have hcount : (sim (refs.foldl step s)).faults = n := by rw [hn]; exact Nat.zero_add n
  exact ⟨_, hcount ▸ hsched⟩

/-- **OPT is optimal.** No demand-paging schedule on initially empty frames has
fewer faults than `simulate_opt`, in particular none of the other three
simulators. -/
theorem simulateOpt_optimal {F : Nat} (hF : 1 ≤ F) {refs : List Int} (hrefs : -1 ∉ refs) :
    (∀ T n, Schedule F ∅ refs T n → simulateOpt F refs ≤ n) ∧
      simulateOpt F refs ≤ simulateFifo F refs ∧
      simulateOpt F refs ≤ simulateLru F refs ∧
      simulateOpt F refs ≤ simulateClock F refs := by
  obtain ⟨T, hopt⟩ := simulateOpt_furthest hF hrefs
  have hle : ∀ U n, Schedule F ∅ refs U n → simulateOpt F refs ≤ n :=
    fun U n hsched => hopt.faults_le (Nat.le_refl F) hsched
  obtain ⟨_, hfifo⟩ := (fifo_invariant hF).schedule_init hrefs (fifoInit_inv hF) rfl
  obtain ⟨_, hlru⟩ := (lru_invariant hF).schedule_init hrefs ⟨_, lruInit_rel F⟩ rfl
  obtain ⟨_, hclock⟩ := clock_invariant.schedule_init hrefs (clockInit_inv hF) rfl
  exact ⟨hle, hle _ _ hfifo, hle _ _ hlru, hle _ _ hclock⟩

theorem simulateOpt_optimal_trace :
    simulateOpt 2 [1, 2, 3, 1] ≤ simulateFifo 2 [1, 2, 3, 1] :=
  (simulateOpt_optimal (by decide) (by decide)).2.1

/-- **No Belady anomaly.** One more frame never costs `simulate_opt` a fault: its
run on `F` frames is a schedule, and the run on `F + 1` frames evicts furthest
pages only. -/
theorem simulateOpt_more_frames {F : Nat} (hF : 1 ≤ F) {refs : List Int} (hrefs : -1 ∉ refs) :
    simulateOpt (F + 1) refs ≤ simulateOpt F refs := by
  obtain ⟨_, hmore⟩ := simulateOpt_furthest (Nat.le_succ_of_le hF) hrefs
  obtain ⟨_, hfewer⟩ := simulateOpt_furthest hF hrefs
  exact hmore.faults_le (Nat.le_succ F) hfewer.schedule

/-- On these references FIFO has the anomaly between three and four frames. -/
theorem simulateOpt_more_frames_trace :
    simulateOpt 4 [1, 2, 3, 4, 1, 2, 5, 1, 2, 3, 4, 5] ≤
      simulateOpt 3 [1, 2, 3, 4, 1, 2, 5, 1, 2, 3, 4, 5] := by
  apply simulateOpt_more_frames
  · decide
  · decide

/-! ## Competitiveness -/

/-- A simulator in lock step with a conservative policy faults at most `F` times
as often as OPT. -/
theorem faults_le_mul_opt {σ τ : Type} {F : Nat} (hF : 1 ≤ F) {step : σ → Int → σ}
    {sim : σ → Sim} {Inv : σ → Prop} (h : SimInvariant F step sim Inv)
    {Q : Pager Int τ} {rel : σ → τ → Prop}
    (hsim : (simPager step sim).Simulation Q (· ≠ -1) rel) {t : τ}
    (hcons : Q.Conservative F t) {refs : List Int} (hrefs : -1 ∉ refs) {s : σ} (hs : Inv s)
    (hrel : rel s t) (hzero : (sim s).faults = 0) :
    (sim (refs.foldl step s)).faults ≤ F * simulateOpt F refs := by
  obtain ⟨T, hopt⟩ := simulateOpt_furthest hF hrefs
  rw [h.faults_foldl hrefs hs, hzero, Nat.zero_add, Pager.faults,
    hsim.faultPages_eq hrel (fun _ hp heq => hrefs (heq ▸ hp))]
  exact hcons.faults_le hF hopt.schedule

/-- **Competitiveness.** FIFO, LRU and Clock fault at most `F` times as often as
OPT on the same frames and references. -/
theorem simulate_competitive {F : Nat} (hF : 1 ≤ F) {refs : List Int} (hrefs : -1 ∉ refs) :
    simulateFifo F refs ≤ F * simulateOpt F refs ∧
      simulateLru F refs ≤ F * simulateOpt F refs ∧
      simulateClock F refs ≤ F * simulateOpt F refs :=
  ⟨faults_le_mul_opt hF (fifo_invariant hF) (fifo_simulation hF) (fifoQueue_conservative F hF)
      hrefs (fifoInit_inv hF) ⟨fifoInit_inv hF, rfl⟩ rfl,
    faults_le_mul_opt hF (lru_invariant hF) (lru_simulation hF) (lruStack_conservative F)
      hrefs ⟨_, lruInit_rel F⟩ (lruInit_rel F) rfl,
    faults_le_mul_opt hF clock_invariant clock_simulation (secondChance_conservative F hF)
      hrefs (clockInit_inv hF) ⟨clockInit_inv hF, rfl⟩ rfl⟩

theorem simulate_competitive_trace :
    simulateClock 2 [1, 2, 3, 1] ≤ 2 * simulateOpt 2 [1, 2, 3, 1] :=
  (simulate_competitive (by decide) (by decide)).2.2

/-! ## Windows with few pages -/

/-- The pages at whose references the fault counter goes up. -/
def countedFaults {σ : Type} (step : σ → Int → σ) (sim : σ → Sim) : σ → List Int → List Int
  | _, [] => []
  | s, p :: refs =>
      if (sim (step s p)).faults > (sim s).faults then
        p :: countedFaults step sim (step s p) refs
      else countedFaults step sim (step s p) refs

theorem SimInvariant.countedFaults_eq {σ : Type} {F : Nat} {step : σ → Int → σ} {sim : σ → Sim}
    {Inv : σ → Prop} (h : SimInvariant F step sim Inv) {refs : List Int} (hrefs : -1 ∉ refs)
    {s : σ} (hs : Inv s) :
    countedFaults step sim s refs = (simPager step sim).faultPages s refs := by
  induction refs generalizing s with
  | nil => rfl
  | cons p refs ih =>
      have hp : p ≠ -1 := fun heq => hrefs (by simp [heq])
      have hrest := ih (fun hm => hrefs (List.mem_cons_of_mem p hm)) (h.keep hp hs)
      have hcount : (sim (step s p)).faults > (sim s).faults ↔
          (simPager step sim).miss s p = true := by
        rw [h.faults_step hp hs]
        split_ifs with hmiss
        · simp [hmiss]
        · simp [hmiss]
      rw [countedFaults, Pager.faultPages, hrest, if_congr hcount rfl rfl]
      rfl

/-- A simulator in lock step with a conservative policy faults at most once on
each page of a window with at most `F` pages. -/
theorem SimInvariant.window_faults {σ τ : Type} {F : Nat} {step : σ → Int → σ} {sim : σ → Sim}
    {Inv : σ → Prop} (h : SimInvariant F step sim Inv) {Q : Pager Int τ} {rel : σ → τ → Prop}
    (hsim : (simPager step sim).Simulation Q (· ≠ -1) rel) {t : τ} (hcons : Q.Conservative F t)
    {front window : List Int} (hfront : -1 ∉ front) (hwindow : -1 ∉ window)
    (hfew : window.toFinset.card ≤ F) {s : σ} (hs : Inv s) (hrel : rel s t) (p : Int) :
    (countedFaults step sim (front.foldl step s) window).count p ≤ 1 := by
  have hafter := hsim.run hrel fun q hq heq => hfront (heq ▸ hq)
  rw [h.countedFaults_eq hwindow (h.foldl hfront hs)]
  refine List.nodup_iff_count_le_one.mp ?_ p
  show ((simPager step sim).faultPages ((simPager step sim).run s front) window).Nodup
  rw [hsim.faultPages_eq hafter fun q hq heq => hwindow (heq ▸ hq)]
  exact hcons front window hfew

/-- **Conservative behaviour.** Whatever was referenced before, FIFO, LRU and
Clock fault at most once on each page while at most `F` distinct pages are
referenced. -/
theorem simulate_conservative {F : Nat} (hF : 1 ≤ F) (front window back : List Int)
    (hrefs : -1 ∉ front ++ window ++ back) (hfew : window.toFinset.card ≤ F) (p : Int) :
    (countedFaults (fifoStep F) FifoState.toSim (front.foldl (fifoStep F) (fifoInit F))
        window).count p ≤ 1 ∧
      (countedFaults (lruStep F) LruState.toSim (front.foldl (lruStep F) (lruInit F))
        window).count p ≤ 1 ∧
      (countedFaults (clockStep F) ClockState.toSim (front.foldl (clockStep F) (clockInit F))
        window).count p ≤ 1 := by
  have hfront : -1 ∉ front := fun hm => hrefs (by simp [hm])
  have hwindow : -1 ∉ window := fun hm => hrefs (by simp [hm])
  refine ⟨?_, ?_, ?_⟩
  · exact (fifo_invariant hF).window_faults (fifo_simulation hF) (fifoQueue_conservative F hF)
      hfront hwindow hfew (fifoInit_inv hF) ⟨fifoInit_inv hF, rfl⟩ p
  · exact (lru_invariant hF).window_faults (lru_simulation hF) (lruStack_conservative F)
      hfront hwindow hfew ⟨_, lruInit_rel F⟩ (lruInit_rel F) p
  · exact clock_invariant.window_faults clock_simulation (secondChance_conservative F hF)
      hfront hwindow hfew (clockInit_inv hF) ⟨clockInit_inv hF, rfl⟩ p

/-- Three frames, filled with other pages, and a window of three pages. -/
theorem simulate_conservative_window :
    (countedFaults (clockStep 3) ClockState.toSim
      ([1, 2, 3, 4].foldl (clockStep 3) (clockInit 3)) [2, 5, 6, 2, 5, 6]).count 2 ≤ 1 :=
  (simulate_conservative (F := 3) (by decide) [1, 2, 3, 4] [2, 5, 6, 2, 5, 6] [1] (by decide)
    (by decide) 2).2.2

end OsProjects.PageSim
