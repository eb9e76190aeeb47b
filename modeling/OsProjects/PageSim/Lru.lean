import OsProjects.Lib.Policies
import OsProjects.PageSim.Frames

/-!
# LRU by timestamps is the recency stack

`simulate_lru` stamps every frame with the position of its last reference and
replaces the frame with the smallest stamp. The stamped pages, sorted by stamp,
are the top of the recency stack (`LruRel`), so the simulator is exact LRU: a
stack algorithm, whose resident sets are nested in the number of frames.
-/

namespace OsProjects.PageSim

open OsProjects.Lib.Paging OsProjects.Lib.Ring

/-! ## The victim loop -/

/-- A scan that keeps the smaller of two candidates returns a smallest one. -/
theorem foldl_argmin (f : Nat → Int) (candidates : List Nat) (start : Nat) :
    let v := candidates.foldl (fun victim i => if f i < f victim then i else victim) start
    (v = start ∨ v ∈ candidates) ∧ f v ≤ f start ∧ ∀ i ∈ candidates, f v ≤ f i := by
  induction candidates generalizing start with
  | nil => simp
  | cons i candidates ih =>
      simp only [List.foldl_cons, List.mem_cons, forall_eq_or_imp]
      by_cases hlt : f i < f start
      · rw [if_pos hlt]
        obtain ⟨hmem, hbest, hall⟩ := ih i
        exact ⟨.inr hmem, by omega, hbest, hall⟩
      · rw [if_neg hlt]
        obtain ⟨hmem, hbest, hall⟩ := ih start
        exact ⟨hmem.imp id .inr, hbest, by omega, hall⟩

theorem lruVictim_spec {F : Nat} (hF : 1 ≤ F) (last : List Int) :
    lruVictim F last < F ∧ ∀ i < F, last.getD (lruVictim F last) 0 ≤ last.getD i 0 := by
  obtain ⟨hmem, hzero, hall⟩ :=
    foldl_argmin (fun i => last.getD i 0) (List.range' 1 (F - 1)) 0
  refine ⟨?_, fun i hi => ?_⟩
  · rcases hmem with hmem | hmem
    · show lruVictim F last < F
      rw [lruVictim, hmem]
      omega
    · have := List.mem_range'_1.mp hmem
      show lruVictim F last < F
      rw [lruVictim]
      omega
  · by_cases h0 : i = 0
    · subst h0
      exact hzero
    · exact hall i (List.mem_range'_1.mpr (by omega))

/-! ## Stamped pages -/

/-- The filled frames with their timestamps. -/
def LruState.stamped (s : LruState) : List (Int × Int) :=
  (s.frames.zip s.last).take s.filled

/-- The frame table against the recency stack: sorted by timestamp, latest
first, the stamped pages are the `F` topmost ones. -/
structure LruRel (F : Nat) (s : LruState) (stack : List Int) : Prop where
  ok : s.toSim.Ok F
  length_last : s.last.length = F
  stack_nodup : stack.Nodup
  filled_eq : s.filled = min F stack.length
  sorted : ∃ l : List (Int × Int), l.map Prod.fst = stack.take F ∧
    (l.map Prod.snd).Pairwise (· > ·) ∧ (∀ e ∈ l, e.2 < s.t) ∧ s.stamped.Perm l

theorem lruInit_rel (F : Nat) : LruRel F (lruInit F) [] where
  ok := Sim.init_ok F
  length_last := by simp [lruInit]
  stack_nodup := List.nodup_nil
  filled_eq := by simp [lruInit, Sim.init]
  sorted := ⟨[], by simp, by simp, by simp, by simp [LruState.stamped, lruInit, Sim.init]⟩

theorem LruRel.stamped_fst {F : Nat} {s : LruState} {stack : List Int}
    (h : LruRel F s stack) : s.stamped.map Prod.fst = s.resident := by
  rw [LruState.stamped, List.map_take, List.map_fst_zip]
  · rfl
  · rw [h.ok.length, h.length_last]

/-- The resident pages are the `F` topmost pages of the stack. -/
theorem LruRel.resident_perm {F : Nat} {s : LruState} {stack : List Int}
    (h : LruRel F s stack) : s.resident.Perm (stack.take F) := by
  obtain ⟨l, hfst, _, _, hperm⟩ := h.sorted
  rw [← h.stamped_fst, ← hfst]
  exact hperm.map Prod.fst

theorem LruRel.length_stamped {F : Nat} {s : LruState} {stack : List Int}
    (h : LruRel F s stack) : s.stamped.length = s.filled := by
  rw [← h.ok.length_resident, ← h.stamped_fst, List.length_map]

theorem LruRel.mem_frames {F : Nat} {s : LruState} {stack : List Int}
    (h : LruRel F s stack) {p : Int} (hp : p ≠ -1) : p ∈ s.frames ↔ p ∈ stack.take F := by
  rw [h.ok.mem_frames hp, h.resident_perm.mem_iff]

/-- Restamping one frame: the new stamp is the latest, the others keep their
order. -/
theorem stamped_update {stamped l : List (Int × Int)} {i : Nat} {t : Nat} {p : Int}
    (hi : i < stamped.length) (hperm : stamped.Perm l)
    {before after : List (Int × Int)} (hsplit : l = before ++ stamped[i] :: after)
    (hsorted : (l.map Prod.snd).Pairwise (· > ·)) (hlate : ∀ e ∈ l, e.2 < (t : Int)) :
    (((p, (t : Int)) :: (before ++ after)).map Prod.snd).Pairwise (· > ·) ∧
      (∀ e ∈ (p, (t : Int)) :: (before ++ after), e.2 < ((t + 1 : Nat) : Int)) ∧
      (stamped.set i (p, t)).Perm ((p, (t : Int)) :: (before ++ after)) := by
  subst hsplit
  have hsub : (before ++ after).Sublist (before ++ stamped[i] :: after) :=
    List.Sublist.append_left (List.sublist_cons_self _ _) before
  refine ⟨?_, ?_, ?_⟩
  · rw [List.map_cons, List.pairwise_cons]
    refine ⟨?_, hsorted.sublist (hsub.map Prod.snd)⟩
    intro b hb
    obtain ⟨e, he, rfl⟩ := List.mem_map.mp hb
    exact hlate e (hsub.subset he)
  · intro e he
    rcases List.mem_cons.mp he with rfl | he
    · push_cast; omega
    · have := hlate e (hsub.subset he)
      push_cast
      omega
  · refine (List.set_perm_cons_eraseIdx hi _).trans (List.Perm.cons _ ?_)
    have hrest := (List.getElem_cons_eraseIdx_perm hi).trans
      (hperm.trans List.perm_middle)
    exact (List.perm_cons _).mp hrest

/-! ## The stack under one reference -/

/-- A hit rearranges the `F` topmost pages among themselves. -/
theorem take_touch_of_mem {F : Nat} {stack : List Int} {p : Int} (hp : p ∈ stack.take F) :
    (touch stack p).take F = touch (stack.take F) p := by
  have hlen : (touch (stack.take F) p).length = (stack.take F).length := by
    have := List.length_pos_of_mem hp
    simp only [touch, List.length_cons, List.length_erase_of_mem hp]
    omega
  conv_lhs => rw [← List.take_append_drop F stack, touch_append, if_pos hp]
  by_cases hF : F ≤ stack.length
  · rw [List.take_left' (by rw [hlen, List.length_take]; omega)]
  · rw [List.drop_of_length_le (by omega), List.append_nil,
      List.take_of_length_le (by rw [hlen, List.length_take]; omega)]

/-- A miss puts the page on top and lets the lowest of the `F` topmost sink. -/
theorem take_touch_of_notMem {F : Nat} {stack : List Int} {p : Int} (hF : 1 ≤ F)
    (hp : p ∉ stack.take F) : (touch stack p).take F = p :: stack.take (F - 1) := by
  obtain ⟨k, rfl⟩ : ∃ k, F = k + 1 := ⟨F - 1, by omega⟩
  conv_lhs => rw [← List.take_append_drop (k + 1) stack, touch_append, if_neg hp]
  rw [touch, List.erase_of_not_mem hp, List.cons_append, List.take_succ_cons]
  congr 1
  by_cases hle : k ≤ stack.length
  · rw [List.take_append_of_le_length (by rw [List.length_take]; omega), List.take_take]
    congr 1
    omega
  · have hshort : stack.take (k + 1) = stack := List.take_of_length_le (by omega)
    rw [hshort, List.drop_of_length_le (by omega)]
    simp

/-! ## One reference -/

theorem lruStep_hit {F : Nat} {s : LruState} {p : Int} {i : Nat}
    (hfind : findInFrames s.frames p = some i) :
    lruStep F s p = { s with last := s.last.set i s.t, t := s.t + 1 } := by
  unfold lruStep
  rw [hfind]

theorem lruStep_miss {F : Nat} {s : LruState} {p : Int} (hp : p ∉ s.frames) :
    lruStep F s p =
      if s.filled < F then
        { toSim := s.fill p, last := s.last.set s.filled s.t, t := s.t + 1 }
      else
        { toSim := s.replace (lruVictim F s.last) p
          last := s.last.set (lruVictim F s.last) s.t
          t := s.t + 1 } := by
  unfold lruStep
  rw [findInFrames_none.mpr hp]

theorem LruRel.hit {F : Nat} {s : LruState} {stack : List Int} (h : LruRel F s stack)
    {p : Int} (hp : p ≠ -1) {i : Nat} (hfind : findInFrames s.frames p = some i) :
    LruRel F (lruStep F s p) (touch stack p) := by
  obtain ⟨l, hfst, hsorted, hlate, hperm⟩ := h.sorted
  have hres := h.ok.find_resident hp hfind
  have hmem : p ∈ stack.take F := h.resident_perm.mem_iff.mp (List.mem_of_getElem? hres)
  obtain ⟨hi, hpage⟩ := List.getElem?_eq_some_iff.mp (findInFrames_some hfind)
  have hlt : i < s.stamped.length := by
    rw [h.length_stamped, ← h.ok.length_resident]
    exact (List.getElem?_eq_some_iff.mp hres).1
  have hpi : s.stamped[i].1 = p := by simp [LruState.stamped, hpage]
  obtain ⟨before, after, hsplit⟩ := List.append_of_mem (hperm.subset (List.getElem_mem hlt))
  obtain ⟨hsorted', hlate', hperm'⟩ := stamped_update (p := p) hlt hperm hsplit hsorted hlate
  rw [lruStep_hit hfind]
  refine ⟨h.ok, by simpa using h.length_last, touch_nodup stack p h.stack_nodup, ?_,
    (p, s.t) :: (before ++ after), ?_, hsorted', hlate', ?_⟩
  · -- the stack keeps its length
    have hpos := List.length_pos_of_mem (List.mem_of_mem_take hmem)
    show s.filled = _
    rw [h.filled_eq, touch, List.length_cons,
      List.length_erase_of_mem (List.mem_of_mem_take hmem)]
    congr 1
    omega
  · have hnodup : (l.map Prod.fst).Nodup :=
      hfst ▸ h.stack_nodup.sublist (List.take_sublist F stack)
    have hl : l.map Prod.fst = before.map Prod.fst ++ p :: after.map Prod.fst := by
      rw [hsplit, List.map_append, List.map_cons, hpi]
    rw [hl] at hnodup
    rw [take_touch_of_mem hmem, touch, ← hfst, hl]
    have hbefore : p ∉ before.map Prod.fst := fun hm =>
      (List.nodup_append.mp hnodup).2.2 p hm p (by simp) rfl
    rw [List.erase_append_right _ hbefore, List.erase_cons_head]
    simp
  · show ((s.frames.zip (s.last.set i s.t)).take s.filled).Perm _
    rw [zip_set_right hi, hpage, List.take_set]
    exact hperm'

theorem LruRel.fill {F : Nat} {s : LruState} {stack : List Int} (h : LruRel F s stack)
    {p : Int} (hp : p ≠ -1) (hmem : p ∉ s.frames) (hroom : s.filled < F) :
    LruRel F (lruStep F s p) (touch stack p) := by
  obtain ⟨l, hfst, hsorted, hlate, hperm⟩ := h.sorted
  have hlen : stack.length < F := by have := h.filled_eq; omega
  have hall : stack.take F = stack := List.take_of_length_le (by omega)
  have hnew : p ∉ stack := fun hm => hmem ((h.mem_frames hp).mpr (hall.symm ▸ hm))
  have htouch : touch stack p = p :: stack := by rw [touch, List.erase_of_not_mem hnew]
  have h1 := h.ok.length
  have h2 := h.length_last
  rw [lruStep_miss hmem, if_pos hroom]
  refine ⟨h.ok.fill hroom hp hmem, by simpa using h.length_last,
    touch_nodup stack p h.stack_nodup, ?_, (p, s.t) :: l, ?_, ?_, ?_, ?_⟩
  · show s.filled + 1 = _
    rw [htouch, List.length_cons, h.filled_eq]
    omega
  · rw [htouch, List.take_of_length_le (by simp; omega), List.map_cons, hfst, hall]
  · rw [List.map_cons, List.pairwise_cons]
    refine ⟨fun b hb => ?_, hsorted⟩
    obtain ⟨e, he, rfl⟩ := List.mem_map.mp hb
    exact hlate e he
  · intro e he
    show e.2 < ((s.t + 1 : Nat) : Int)
    rcases List.mem_cons.mp he with rfl | he
    · push_cast; omega
    · have := hlate e he
      push_cast
      omega
  · show (((s.frames.set s.filled p).zip (s.last.set s.filled s.t)).take (s.filled + 1)).Perm _
    rw [zip_set, take_set_succ (by simp; omega)]
    exact (List.perm_append_singleton _ _).trans (hperm.cons _)

theorem LruRel.replace {F : Nat} (hF : 1 ≤ F) {s : LruState} {stack : List Int}
    (h : LruRel F s stack) {p : Int} (hp : p ≠ -1) (hmem : p ∉ s.frames)
    (hfull : ¬ s.filled < F) : LruRel F (lruStep F s p) (touch stack p) := by
  obtain ⟨l, hfst, hsorted, hlate, hperm⟩ := h.sorted
  obtain ⟨hv, hmin⟩ := lruVictim_spec hF s.last
  have h1 := h.ok.length
  have h2 := h.length_last
  have hlen : F ≤ stack.length := by have := h.filled_eq; omega
  have hfilled : s.filled = F := by have := h.ok.filled_le; omega
  have hstamped : s.stamped = s.frames.zip s.last := by
    rw [LruState.stamped, List.take_of_length_le (by simp; omega)]
  have hlt : lruVictim F s.last < s.stamped.length := by rw [h.length_stamped]; omega
  obtain ⟨before, after, hsplit⟩ := List.append_of_mem (hperm.subset (List.getElem_mem hlt))
  -- the victim carries the smallest stamp, so nothing follows it in the sorted list
  have hafter : after = [] := by
    rcases after with _ | ⟨e, after⟩
    · rfl
    · exfalso
      have hgt : s.stamped[lruVictim F s.last].2 > e.2 := by
        rw [hsplit, List.map_append, List.map_cons, List.map_cons] at hsorted
        exact List.rel_of_pairwise_cons (List.pairwise_append.mp hsorted).2.1 (by simp)
      have he : e ∈ s.stamped := hperm.mem_iff.mpr (by rw [hsplit]; simp)
      obtain ⟨i, hi, rfl⟩ := List.getElem_of_mem he
      have hiF : i < F := by rw [h.length_stamped] at hi; omega
      have hle := hmin i hiF
      rw [List.getD_eq_getElem?_getD, List.getD_eq_getElem?_getD,
        List.getElem?_eq_getElem (by omega), List.getElem?_eq_getElem (by omega)] at hle
      simp only [LruState.stamped, List.getElem_take, List.getElem_zip] at hgt
      simp only [Option.getD_some] at hle
      omega
  obtain ⟨hsorted', hlate', hperm'⟩ := stamped_update (p := p) hlt hperm hsplit hsorted hlate
  rw [lruStep_miss hmem, if_neg hfull]
  refine ⟨h.ok.replace hfull _ hp hmem, by simpa using h.length_last,
    touch_nodup stack p h.stack_nodup, ?_, (p, s.t) :: (before ++ after), ?_, hsorted',
    hlate', ?_⟩
  · show s.filled = _
    have hge : stack.length ≤ (touch stack p).length := by
      rw [touch, List.length_cons, List.length_erase]
      split <;> omega
    omega
  · rw [take_touch_of_notMem hF (fun hm => hmem ((h.mem_frames hp).mpr hm))]
    subst hafter
    have hdrop : before.map Prod.fst = (stack.take F).dropLast := by
      rw [← hfst, hsplit]
      simp
    rw [List.append_nil, List.map_cons, hdrop, List.dropLast_eq_take, List.take_take,
      List.length_take]
    congr 2
    omega
  · show (((s.frames.set _ p).zip (s.last.set _ s.t)).take s.filled).Perm _
    rw [zip_set, List.take_set]
    exact hperm'

theorem LruRel.step {F : Nat} (hF : 1 ≤ F) {s : LruState} {stack : List Int}
    (h : LruRel F s stack) {p : Int} (hp : p ≠ -1) :
    LruRel F (lruStep F s p) (touch stack p) := by
  cases hfind : findInFrames s.frames p with
  | some i => exact h.hit hp hfind
  | none =>
      have hmem := findInFrames_none.mp hfind
      by_cases hroom : s.filled < F
      · exact h.fill hp hmem hroom
      · exact h.replace hF hp hmem hroom

theorem lru_invariant {F : Nat} (hF : 1 ≤ F) :
    SimInvariant F (lruStep F) LruState.toSim (fun s => ∃ stack, LruRel F s stack) where
  ok := by
    rintro s ⟨stack, h⟩
    exact h.ok
  table := by
    rintro s p hp ⟨stack, h⟩
    cases hfind : findInFrames s.frames p with
    | some i =>
        rw [lruStep_hit hfind]
        exact .hit (List.mem_of_getElem? (findInFrames_some hfind))
    | none =>
        have hmem := findInFrames_none.mp hfind
        rw [lruStep_miss hmem]
        split
        · exact .fill hmem ‹_›
        · exact .replace hmem ‹_› (lruVictim_spec hF s.last).1
  keep := by
    rintro s p hp ⟨stack, h⟩
    exact ⟨touch stack p, h.step hF hp⟩

/-- `simulate_lru` in lock step with the recency stack. -/
theorem lru_simulation {F : Nat} (hF : 1 ≤ F) :
    (simPager (lruStep F) LruState.toSim).Simulation (lruStack F) (· ≠ -1) (LruRel F) where
  miss {s stack p} hp h := by
    rw [Bool.eq_iff_iff, simPager_miss, h.mem_frames hp]
    simp only [lruStack, decide_eq_true_eq]
  step hp h := h.step hF hp

/-! ## Exactness -/

/-- The state after a sequence of references. -/
def lruAfter (F : Nat) (refs : List Int) : LruState := refs.foldl (lruStep F) (lruInit F)

theorem lruAfter_rel {F : Nat} (hF : 1 ≤ F) {refs : List Int} (hrefs : -1 ∉ refs) :
    LruRel F (lruAfter F refs) (refs.foldl touch []) :=
  (lru_simulation hF).run (lruInit_rel F) (fun _ hp heq => hrefs (heq ▸ hp))

/-- A reference faults iff its page is not among the `F` most recent. -/
theorem lruAfter_faults_iff {F : Nat} (hF : 1 ≤ F) {refs : List Int} (hrefs : -1 ∉ refs)
    {p : Int} (hp : p ≠ -1) :
    (lruStep F (lruAfter F refs) p).faults = (lruAfter F refs).faults + 1 ↔
      p ∉ (refs.foldl touch []).take F := by
  have hrel := lruAfter_rel hF hrefs
  rw [(lru_invariant hF).faults_step hp ⟨_, hrel⟩, (lru_simulation hF).miss hp hrel]
  by_cases hmem : p ∈ (refs.foldl touch []).take F
  · simp [lruStack, hmem]
  · simp [lruStack, hmem]

/-- More frames, fewer faults: the `F` topmost pages are among the `F + 1`
topmost. -/
theorem simulateLru_succ_le {F : Nat} (hF : 1 ≤ F) {refs : List Int} (hrefs : -1 ∉ refs) :
    simulateLru (F + 1) refs ≤ simulateLru F refs := by
  have hcount : ∀ {G : Nat}, 1 ≤ G → simulateLru G refs = (lruStack G).faults [] refs := by
    intro G hG
    rw [simulateLru, (lru_invariant hG).faults_foldl hrefs ⟨_, lruInit_rel G⟩, Pager.faults,
      (lru_simulation hG).faultPages_eq (lruInit_rel G) (fun _ hp heq => hrefs (heq ▸ hp))]
    exact Nat.zero_add _
  have hstack : ∀ stack : List Int,
      (lruStack (F + 1)).faults stack refs ≤ (lruStack F).faults stack refs := by
    clear hcount hrefs
    induction refs with
    | nil => intro stack; exact Nat.le_refl _
    | cons p refs ih =>
        intro stack
        have htail := ih (touch stack p)
        have hmiss : (lruStack (F + 1)).miss stack p = true →
            (lruStack F).miss stack p = true := by
          simp only [lruStack, decide_eq_true_eq]
          exact fun hout hin => hout ((List.take_subset_take_left stack (Nat.le_succ F)) hin)
        rw [Pager.faults_cons, Pager.faults_cons]
        show _ + (lruStack (F + 1)).faults (touch stack p) refs ≤
          _ + (lruStack F).faults (touch stack p) refs
        split
        · rename_i hout
          rw [if_pos (hmiss hout)]
          omega
        · omega
  rw [hcount hF, hcount (Nat.le_succ_of_le hF)]
  exact hstack []

/-- **`simulate_lru` is exact LRU.** After any references the filled frames hold,
without duplicates, exactly the `min F d` most recently referenced of the `d`
distinct pages so far (`List.dedup` keeps last occurrences, so the reversed list
starts with the latest page); the next reference faults iff its page was never
referenced or at least `F` distinct others were referenced since; the resident
set grows with the number of frames, and the fault count does not. -/
theorem lru_exact {F : Nat} (hF : 1 ≤ F) {refs : List Int} (hrefs : -1 ∉ refs) :
    (lruAfter F refs).resident.Nodup ∧
      (lruAfter F refs).filled = min F refs.dedup.length ∧
      (lruAfter F refs).resident.Perm (refs.dedup.reverse.take F) ∧
      (∀ p, p ≠ -1 →
        ((lruStep F (lruAfter F refs) p).faults = (lruAfter F refs).faults + 1 ↔
          p ∉ refs ∨ ∃ before since, refs = before ++ p :: since ∧ p ∉ since ∧
            F ≤ since.toFinset.card)) ∧
      (lruAfter F refs).resident ⊆ (lruAfter (F + 1) refs).resident ∧
      simulateLru (F + 1) refs ≤ simulateLru F refs := by
  have hrel := lruAfter_rel hF hrefs
  have hrel' := lruAfter_rel (Nat.le_succ_of_le hF) hrefs
  have hstack := foldl_touch_eq_dedup refs
  refine ⟨hrel.ok.nodup, ?_, ?_, ?_, ?_, simulateLru_succ_le hF hrefs⟩
  · rw [hrel.filled_eq, hstack, List.length_reverse]
  · rw [← hstack]
    exact hrel.resident_perm
  · intro p hp
    rw [lruAfter_faults_iff hF hrefs hp, notMem_take_stack_iff]
  · intro x hx
    rw [hrel.resident_perm.mem_iff] at hx
    rw [hrel'.resident_perm.mem_iff]
    exact List.take_subset_take_left _ (Nat.le_succ F) hx

/-- On the reference string of Belady's anomaly a fourth frame does not hurt LRU. -/
theorem lru_exact_belady :
    simulateLru 4 [1, 2, 3, 4, 1, 2, 5, 1, 2, 3, 4, 5] ≤
      simulateLru 3 [1, 2, 3, 4, 1, 2, 5, 1, 2, 3, 4, 5] :=
  (lru_exact (by decide) (by decide)).2.2.2.2.2

end OsProjects.PageSim
