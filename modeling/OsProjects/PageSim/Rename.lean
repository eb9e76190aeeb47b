import OsProjects.PageSim.Model
import OsProjects.PageSim.Frames

/-!
# Renaming the pages

`read_input` accepts any integer as a page number, also the sentinel `-1` that
marks an empty frame. A renaming of the pages therefore keeps the fault counts
only while it does not touch the sentinel: the two runs are in lock step
(`Lockstep`) as long as no page is the sentinel on one side only, and again
once every frame is filled. `rename_agrees_iff` says exactly when the counts
agree after every reference.
-/

namespace OsProjects.PageSim

open OsProjects.Lib.Ring

/-- The four simulators count the same faults on two reference sequences. -/
def SameCounts (F : Nat) (refs refs' : List Int) : Prop :=
  simulateOpt F refs' = simulateOpt F refs ∧ simulateFifo F refs' = simulateFifo F refs ∧
    simulateLru F refs' = simulateLru F refs ∧ simulateClock F refs' = simulateClock F refs

/-- The renaming takes the page `p` neither to nor from the sentinel. -/
def KeepsSentinel (r : Int → Int) (p : Int) : Prop := p = -1 ↔ r p = -1

/-- Every page that meets the sentinel on one side only is first referenced
after `F` other pages, when no frame is empty any more. -/
def SentinelLate (F : Nat) (r : Int → Int) (pre refs : List Int) : Prop :=
  ∀ front p back, refs = front ++ p :: back →
    KeepsSentinel r p ∨ F ≤ (pre ++ front).toFinset.card

/-! ## Frame tables in lock step -/

/-- The frame tables of a run over `pre` and of the renamed run. -/
structure Lockstep (F : Nat) (r : Int → Int) (pre : List Int) (s s' : Sim) : Prop where
  faults : s'.faults = s.faults
  filled : s'.filled = s.filled
  filled_le : s.filled ≤ F
  length : s.resident.length = s.filled
  frames : s.frames = s.resident ++ List.replicate (F - s.filled) (-1)
  frames' : s'.frames = s.resident.map r ++ List.replicate (F - s.filled) (-1)
  nodup : s.resident.Nodup
  sub : ∀ x ∈ s.resident, x ∈ pre
  clean : s.filled < F → ∀ x ∈ s.resident, x ≠ -1 ∧ r x ≠ -1
  covers : s.filled < F → ∀ x ∈ pre, x ≠ -1 → x ∈ s.resident
  keeps : s.filled < F → ∀ x ∈ pre, KeepsSentinel r x

theorem Lockstep.init (F : Nat) (r : Int → Int) : Lockstep F r [] (.init F) (.init F) where
  faults := rfl
  filled := rfl
  filled_le := Nat.zero_le F
  length := rfl
  frames := by rw [Sim.init_resident]; simp [Sim.init]
  frames' := by rw [Sim.init_resident]; simp [Sim.init]
  nodup := by simp
  sub := by simp
  clean := by simp
  covers := by simp
  keeps := by simp

variable {F : Nat} {r : Int → Int} {pre : List Int} {s s' : Sim} {p : Int}

/-- Searching a list for a page and its image for the renamed page. -/
theorem findIdx?_map_rename {pages : List Int} (hr : ∀ x ∈ pages, r x = r p → x = p) :
    (pages.map r).findIdx? (· == r p) = pages.findIdx? (· == p) := by
  induction pages with
  | nil => rfl
  | cons x pages ih =>
      have hhead : (r x == r p) = (x == p) := by
        rw [Bool.eq_iff_iff, beq_iff_eq, beq_iff_eq]
        exact ⟨hr x (by simp), congrArg r⟩
      rw [List.map_cons, List.findIdx?_cons, List.findIdx?_cons, hhead,
        ih (fun y hy => hr y (List.mem_cons_of_mem x hy))]

theorem findIdx?_replicate_sentinel {q : Int} (hq : q ≠ -1) (n : Nat) :
    (List.replicate n (-1 : Int)).findIdx? (· == q) = none := by
  rw [List.findIdx?_eq_none_iff]
  intro x hx
  rw [List.eq_of_mem_replicate hx]
  simpa using fun h => hq h.symm

/-- With every frame filled, the tables are the resident pages. -/
theorem Lockstep.frames_of_full (h : Lockstep F r pre s s') (hfull : ¬ s.filled < F) :
    s.frames = s.resident ∧ s'.frames = s.resident.map r := by
  have hzero : F - s.filled = 0 := by omega
  constructor
  · have hframes := h.frames
    rwa [hzero, List.replicate_zero, List.append_nil] at hframes
  · have hframes := h.frames'
    rwa [hzero, List.replicate_zero, List.append_nil] at hframes

/-- With every frame filled, or a page that keeps clear of the sentinel, both
searches give the same answer. -/
theorem Lockstep.find_eq (h : Lockstep F r pre s s')
    (hr : ∀ x ∈ pre, r x = r p → x = p) (hp : KeepsSentinel r p ∨ ¬ s.filled < F) :
    findInFrames s'.frames (r p) = findInFrames s.frames p := by
  have hres := findIdx?_map_rename (fun x hx => hr x (h.sub x hx))
  by_cases hroom : s.filled < F
  · have hkeep := hp.resolve_right (not_not.mpr hroom)
    unfold findInFrames
    rw [h.frames', h.frames, List.findIdx?_append, List.findIdx?_append, hres,
      List.length_map]
    congr 2
    by_cases hp1 : p = -1
    · rw [hkeep.mp hp1, hp1]
    · rw [findIdx?_replicate_sentinel hp1,
        findIdx?_replicate_sentinel (fun heq => hp1 (hkeep.mpr heq))]
  · obtain ⟨hframes, hframes'⟩ := h.frames_of_full hroom
    unfold findInFrames
    rw [hframes', hframes]
    exact hres

theorem Lockstep.keeps_concat (h : Lockstep F r pre s s') (hroom : s.filled < F)
    (hp : KeepsSentinel r p) : ∀ x ∈ pre ++ [p], KeepsSentinel r x := by
  intro x hx
  rcases List.mem_append.mp hx with hx | hx
  · exact h.keeps hroom x hx
  · exact List.mem_singleton.mp hx ▸ hp

theorem Lockstep.hit (h : Lockstep F r pre s s') (hmem : p ∈ s.frames)
    (hp : KeepsSentinel r p ∨ ¬ s.filled < F) : Lockstep F r (pre ++ [p]) s s' where
  faults := h.faults
  filled := h.filled
  filled_le := h.filled_le
  length := h.length
  frames := h.frames
  frames' := h.frames'
  nodup := h.nodup
  sub x hx := List.mem_append_left _ (h.sub x hx)
  clean := h.clean
  covers hroom x hx hx1 := by
    rcases List.mem_append.mp hx with hx | hx
    · exact h.covers hroom x hx hx1
    · rw [List.mem_singleton.mp hx] at hx1 ⊢
      rw [h.frames] at hmem
      rcases List.mem_append.mp hmem with hmem | hmem
      · exact hmem
      · exact absurd (List.eq_of_mem_replicate hmem) hx1
  keeps hroom := h.keeps_concat hroom (hp.resolve_right (not_not.mpr hroom))

/-- A miss while frames are empty is not a reference to the sentinel on either
side: the sentinel is found in the first empty frame. -/
theorem Lockstep.ne_sentinel (h : Lockstep F r pre s s') (hroom : s.filled < F)
    (hnew : p ∉ s.frames) : p ≠ -1 := by
  rintro rfl
  apply hnew
  rw [h.frames, List.mem_append, List.mem_replicate]
  exact Or.inr ⟨by omega, rfl⟩

/-- The first empty frame comes right after the filled ones. -/
theorem set_first_empty {pages : List Int} {i : Nat} (hi : i = pages.length) (n : Nat) (q : Int) :
    (pages ++ List.replicate (n + 1) (-1)).set i q =
      (pages ++ [q]) ++ List.replicate n (-1) := by
  rw [hi, List.set_append_right _ _ le_rfl, List.replicate_succ]
  simp

theorem Lockstep.fill_resident (h : Lockstep F r pre s s') (hroom : s.filled < F) (p : Int) :
    (s.fill p).resident = s.resident ++ [p] := by
  have hlen : s.filled < s.frames.length := by
    rw [h.frames, List.length_append, h.length, List.length_replicate]
    omega
  exact take_set_succ hlen p

theorem Lockstep.fill (h : Lockstep F r pre s s') (hroom : s.filled < F)
    (hp : KeepsSentinel r p) (hnew : p ∉ s.frames) :
    Lockstep F r (pre ++ [p]) (s.fill p) (s'.fill (r p)) := by
  have hres := h.fill_resident hroom p
  have hp1 := h.ne_sentinel hroom hnew
  have hsplit : F - s.filled = F - (s.filled + 1) + 1 := by omega
  refine
    { faults := congrArg (· + 1) h.faults
      filled := congrArg (· + 1) h.filled
      filled_le := hroom
      length := ?_
      frames := ?_
      frames' := ?_
      nodup := ?_
      sub := ?_
      clean := ?_
      covers := ?_
      keeps := ?_ }
  · rw [hres, List.length_append, h.length]
    rfl
  · show s.frames.set s.filled p = _
    rw [hres, h.frames, hsplit]
    exact set_first_empty h.length.symm _ p
  · show s'.frames.set s'.filled (r p) = _
    rw [hres, h.frames', h.filled, hsplit, List.map_append]
    exact set_first_empty (by rw [List.length_map, h.length]) _ (r p)
  · rw [hres]
    refine List.Nodup.append h.nodup (by simp) ?_
    intro x hx hxp
    rw [List.mem_singleton.mp hxp] at hx
    exact hnew (h.frames ▸ List.mem_append_left _ hx)
  · rw [hres]
    intro x hx
    rcases List.mem_append.mp hx with hx | hx
    · exact List.mem_append_left _ (h.sub x hx)
    · exact List.mem_append_right _ hx
  · rw [hres]
    intro _ x hx
    rcases List.mem_append.mp hx with hx | hx
    · exact h.clean hroom x hx
    · rw [List.mem_singleton.mp hx]
      exact ⟨hp1, fun heq => hp1 (hp.mpr heq)⟩
  · rw [hres]
    intro _ x hx hx1
    rcases List.mem_append.mp hx with hx | hx
    · exact List.mem_append_left _ (h.covers hroom x hx hx1)
    · exact List.mem_append_right _ hx
  · exact fun _ => h.keeps_concat hroom hp

theorem Lockstep.replace (h : Lockstep F r pre s s') (hfull : ¬ s.filled < F) (i : Nat)
    (hnew : p ∉ s.frames) :
    Lockstep F r (pre ++ [p]) (s.replace i p) (s'.replace i (r p)) := by
  have hzero : F - s.filled = 0 := by omega
  obtain ⟨hframes, hframes'⟩ := h.frames_of_full hfull
  have hres : (s.replace i p).resident = s.resident.set i p := by
    show (s.frames.set i p).take s.filled = _
    rw [hframes, ← h.length, List.take_of_length_le (by simp)]
  refine
    { faults := congrArg (· + 1) h.faults
      filled := h.filled
      filled_le := h.filled_le
      length := ?_
      frames := ?_
      frames' := ?_
      nodup := ?_
      sub := ?_
      clean := fun hroom => absurd hroom hfull
      covers := fun hroom => absurd hroom hfull
      keeps := fun hroom => absurd hroom hfull }
  · rw [hres, List.length_set]
    exact h.length
  · show s.frames.set i p = _ ++ List.replicate (F - s.filled) (-1)
    rw [hres, hzero, List.replicate_zero, List.append_nil, hframes]
  · show s'.frames.set i (r p) = _ ++ List.replicate (F - s.filled) (-1)
    rw [hres, hzero, List.replicate_zero, List.append_nil, hframes', List.map_set]
  · rw [hres]
    exact h.nodup.set (hframes ▸ hnew)
  · rw [hres]
    intro x hx
    rcases List.mem_or_eq_of_mem_set hx with hx | rfl
    · exact List.mem_append_left _ (h.sub x hx)
    · exact List.mem_append_right _ (List.mem_singleton_self x)

/-! ## The simulators in lock step -/

/-- A page that meets the sentinel on one side only comes when the frames are
filled: until then every page so far is still resident. -/
theorem Lockstep.keeps_or_full (h : Lockstep F r pre s s')
    (hr : ∀ x ∈ pre, r x = r p → x = p)
    (hp : KeepsSentinel r p ∨ F ≤ pre.toFinset.card) :
    KeepsSentinel r p ∨ ¬ s.filled < F := by
  refine or_iff_not_imp_left.mpr fun hbad hroom => ?_
  -- the sentinel is not among the pages so far: it would be its own image, and `p` too
  have hfresh : -1 ∉ pre := by
    intro hmem
    have hfix : r (-1) = -1 := (h.keeps hroom (-1) hmem).mp rfl
    have hp1 : p ≠ -1 := by
      rintro rfl
      exact hbad (h.keeps hroom (-1) hmem)
    refine hbad ⟨fun heq => absurd heq hp1, fun heq => ?_⟩
    exact (hr (-1) hmem (hfix.trans heq.symm)).symm
  have hsub : pre.toFinset ⊆ s.resident.toFinset := by
    intro x hx
    have hx := List.mem_toFinset.mp hx
    exact List.mem_toFinset.mpr (h.covers hroom x hx (fun heq => hfresh (heq ▸ hx)))
  have hcard := (Finset.card_le_card hsub).trans s.resident.toFinset_card_le
  have hmany := hp.resolve_left hbad
  have hlen := h.length
  omega

/-- An iteration whose branch is decided by the search and by `filled`, and
whose victim does not depend on the page numbers, keeps the lock step. -/
inductive SameMove (F : Nat) (s s' : Sim) (p q : Int) : Sim → Sim → Prop
  | hit : p ∈ s.frames → SameMove F s s' p q s s'
  | fill : p ∉ s.frames → s.filled < F → SameMove F s s' p q (s.fill p) (s'.fill q)
  | replace (i : Nat) : p ∉ s.frames → ¬ s.filled < F →
      SameMove F s s' p q (s.replace i p) (s'.replace i q)

theorem Lockstep.move (h : Lockstep F r pre s s') (hp : KeepsSentinel r p ∨ ¬ s.filled < F)
    {t t' : Sim} (hmove : SameMove F s s' p (r p) t t') : Lockstep F r (pre ++ [p]) t t' := by
  cases hmove with
  | hit hmem => exact h.hit hmem hp
  | fill hnew hroom => exact h.fill hroom (hp.resolve_right (not_not.mpr hroom)) hnew
  | replace i hnew hfull => exact h.replace hfull i hnew

theorem mem_of_find {frames : List Int} {i : Nat} (h : findInFrames frames p = some i) :
    p ∈ frames :=
  List.mem_of_getElem? (findInFrames_some h)

/-- An online simulator whose other locals (compared by `same`) never depend on
the page numbers. -/
structure Oblivious {σ : Type} (F : Nat) (step : σ → Int → σ) (sim : σ → Sim)
    (same : σ → σ → Prop) : Prop where
  step : ∀ {a a' : σ} {p q : Int}, same a a' → (sim a').filled = (sim a).filled →
    findInFrames (sim a').frames q = findInFrames (sim a).frames p →
    SameMove F (sim a) (sim a') p q (sim (step a p)) (sim (step a' q)) ∧
      same (step a p) (step a' q)

theorem SentinelLate.head {refs : List Int} (h : SentinelLate F r pre (p :: refs)) :
    KeepsSentinel r p ∨ F ≤ pre.toFinset.card := by
  simpa using h [] p refs rfl

theorem SentinelLate.tail {refs : List Int} (h : SentinelLate F r pre (p :: refs)) :
    SentinelLate F r (pre ++ [p]) refs := by
  intro front q back hrefs
  have hq := h (p :: front) q back (by rw [hrefs, List.cons_append])
  rwa [List.append_assoc, List.singleton_append]

theorem Oblivious.foldl {σ : Type} {step : σ → Int → σ} {sim : σ → Sim} {same : σ → σ → Prop}
    (ho : Oblivious F step sim same) {refs : List Int} {a a' : σ}
    (hr : Set.InjOn r {x | x ∈ pre ++ refs}) (hlate : SentinelLate F r pre refs)
    (h : Lockstep F r pre (sim a) (sim a')) (hsame : same a a') :
    Lockstep F r (pre ++ refs) (sim (refs.foldl step a)) (sim ((refs.map r).foldl step a')) := by
  induction refs generalizing pre a a' with
  | nil => simpa using h
  | cons p refs ih =>
      have hinj : ∀ x ∈ pre, r x = r p → x = p := fun x hx heq =>
        hr (List.mem_append_left _ hx) (by simp) heq
      have hp := h.keeps_or_full hinj hlate.head
      obtain ⟨hmove, hsame⟩ := ho.step hsame h.filled (h.find_eq hinj hp)
      have hrest := ih (by simpa using hr) hlate.tail (h.move hp hmove) hsame
      rwa [List.append_assoc, List.singleton_append] at hrest

theorem fifo_oblivious (F : Nat) :
    Oblivious F (fifoStep F) FifoState.toSim (fun a a' => a'.idx = a.idx) where
  step {a a' p q} hsame hfilled hfind := by
    unfold fifoStep
    rw [hfind]
    cases hcase : findInFrames a.frames p with
    | some i => exact ⟨.hit (mem_of_find hcase), hsame⟩
    | none =>
        have hnew := findInFrames_none.mp hcase
        simp only [hfilled]
        by_cases hroom : a.filled < F
        · simp only [if_pos hroom]
          exact ⟨.fill hnew hroom, hsame⟩
        · simp only [if_neg hroom, hsame]
          exact ⟨.replace a.idx hnew hroom, trivial⟩

theorem lru_oblivious (F : Nat) :
    Oblivious F (lruStep F) LruState.toSim (fun a a' => a'.last = a.last ∧ a'.t = a.t) where
  step {a a' p q} hsame hfilled hfind := by
    obtain ⟨hlast, ht⟩ := hsame
    unfold lruStep
    rw [hfind]
    cases hcase : findInFrames a.frames p with
    | some i => exact ⟨.hit (mem_of_find hcase), by simp [hlast, ht]⟩
    | none =>
        have hnew := findInFrames_none.mp hcase
        simp only [hfilled]
        by_cases hroom : a.filled < F
        · simp only [if_pos hroom]
          exact ⟨.fill hnew hroom, by simp [hlast, ht]⟩
        · simp only [if_neg hroom, hlast]
          exact ⟨.replace _ hnew hroom, by simp [ht]⟩

/-- The sweep looks at the bits and the hand only. -/
theorem clockSweep_oblivious (F : Nat) (p q : Int) (a a' : ClockState)
    (hrefb : a'.refb = a.refb) (hhand : a'.hand = a.hand) :
    ∃ i, (clockSweep F p a).toSim = ⟨a.frames.set i p, a.faults, a.filled⟩ ∧
      (clockSweep F q a').toSim = ⟨a'.frames.set i q, a'.faults, a'.filled⟩ ∧
      (clockSweep F q a').refb = (clockSweep F p a).refb ∧
      (clockSweep F q a').hand = (clockSweep F p a).hand := by
  induction a using clockSweep.induct F generalizing a' with
  | case1 a hbit ih =>
      have hbit' : a'.refb.getD a'.hand false = true := by rw [hrefb, hhand]; exact hbit
      rw [clockSweep, if_pos hbit, clockSweep.eq_1 F q a', if_pos hbit']
      exact ih { a' with refb := a'.refb.set a'.hand false, hand := (a'.hand + 1) % F }
        (by rw [hrefb, hhand]) (by rw [hhand])
  | case2 a hbit =>
      have hbit' : ¬ a'.refb.getD a'.hand false = true := by rw [hrefb, hhand]; exact hbit
      rw [clockSweep, if_neg hbit, clockSweep.eq_1 F q a', if_neg hbit']
      exact ⟨a.hand, rfl, by rw [hhand], by simp only [hrefb, hhand], by simp only [hhand]⟩

theorem clock_oblivious (F : Nat) :
    Oblivious F (clockStep F) ClockState.toSim
      (fun a a' => a'.refb = a.refb ∧ a'.hand = a.hand) where
  step {a a' p q} hsame hfilled hfind := by
    obtain ⟨hrefb, hhand⟩ := hsame
    unfold clockStep
    rw [hfind]
    cases hcase : findInFrames a.frames p with
    | some i => exact ⟨.hit (mem_of_find hcase), by simp [hrefb, hhand]⟩
    | none =>
        have hnew := findInFrames_none.mp hcase
        by_cases hroom : a.filled < F
        · simp only [hfilled, if_pos hroom]
          exact ⟨.fill hnew hroom, by simp [hrefb, hhand]⟩
        · have hroom' : ¬ a'.filled < F := by rwa [hfilled]
          simp only [if_neg hroom, if_neg hroom']
          obtain ⟨i, hsim, hsim', hbits, hhands⟩ := clockSweep_oblivious F p q
            { a with faults := a.faults + 1 } { a' with faults := a'.faults + 1 } hrefb hhand
          rw [hsim, hsim']
          exact ⟨.replace i hnew hroom, hbits, hhands⟩

/-- The victim scan of OPT compares next uses, which a renaming keeps. -/
theorem optScan_rename {rest frames : List Int}
    (hr : ∀ x ∈ rest, ∀ y ∈ frames, r x = r y → x = y) (i found : Nat) (furthest : Int) :
    optScan (rest.map r) (frames.map r) i found furthest =
      optScan rest frames i found furthest := by
  induction frames generalizing i found furthest with
  | nil => rfl
  | cons frame frames ih =>
      have hnext := findIdx?_map_rename (fun x hx => hr x hx frame (by simp))
      have hrest := ih (fun x hx y hy => hr x hx y (List.mem_cons_of_mem frame hy))
      rw [List.map_cons, optScan, optScan, hnext]
      cases rest.findIdx? (· == frame) with
      | none => rfl
      | some next =>
          show (if _ then _ else _) = (if _ then _ else _)
          rw [hrest, hrest]

theorem Lockstep.opt_step (h : Lockstep F r pre s s') {rest : List Int}
    (hr : Set.InjOn r {x | x ∈ pre ++ p :: rest})
    (hp : KeepsSentinel r p ∨ ¬ s.filled < F) :
    SameMove F s s' p (r p) (optStep F s p rest) (optStep F s' (r p) (rest.map r)) := by
  have hinj : ∀ x ∈ pre, r x = r p → x = p := fun x hx heq =>
    hr (List.mem_append_left _ hx) (by simp) heq
  unfold optStep
  rw [h.find_eq hinj hp]
  cases hcase : findInFrames s.frames p with
  | some i => exact .hit (mem_of_find hcase)
  | none =>
      have hnew := findInFrames_none.mp hcase
      simp only [h.filled]
      by_cases hroom : s.filled < F
      · simp only [if_pos hroom]
        exact .fill hnew hroom
      · simp only [if_neg hroom]
        obtain ⟨hframes, hframes'⟩ := h.frames_of_full hroom
        have hvictim : optVictim (rest.map r) s'.frames = optVictim rest s.frames := by
          rw [hframes', hframes]
          refine optScan_rename (fun x hx y hy heq => ?_) 0 0 (-1)
          exact hr (by simp [hx]) (List.mem_append_left _ (h.sub y hy)) heq
        rw [hvictim]
        exact .replace _ hnew hroom

theorem Lockstep.opt_run {refs : List Int} (hr : Set.InjOn r {x | x ∈ pre ++ refs})
    (hlate : SentinelLate F r pre refs) (h : Lockstep F r pre s s') :
    Lockstep F r (pre ++ refs) (optRun F s refs) (optRun F s' (refs.map r)) := by
  induction refs generalizing pre s s' with
  | nil => simpa [optRun] using h
  | cons p refs ih =>
      have hinj : ∀ x ∈ pre, r x = r p → x = p := fun x hx heq =>
        hr (List.mem_append_left _ hx) (by simp) heq
      have hp := h.keeps_or_full hinj hlate.head
      have hrest := ih (by simpa using hr) hlate.tail (h.move hp (h.opt_step hr hp))
      rwa [List.append_assoc, List.singleton_append] at hrest

/-! ## When the counts agree -/

theorem SentinelLate.sameCounts {refs : List Int} (hr : Set.InjOn r {x | x ∈ refs})
    (hlate : SentinelLate F r [] refs) : SameCounts F refs (refs.map r) :=
  ⟨((Lockstep.init F r).opt_run hr hlate).faults,
    ((fifo_oblivious F).foldl hr hlate (Lockstep.init F r) rfl).faults,
    ((lru_oblivious F).foldl hr hlate (Lockstep.init F r) ⟨rfl, rfl⟩).faults,
    ((clock_oblivious F).foldl hr hlate (Lockstep.init F r) ⟨rfl, rfl⟩).faults⟩

theorem SentinelLate.of_keeps {refs : List Int} (h : ∀ x ∈ refs, KeepsSentinel r x) :
    SentinelLate F r pre refs :=
  fun _ _ _ hrefs => Or.inl (h _ (by simp [hrefs]))

theorem SentinelLate.of_isPrefix {refs refs' : List Int} (hsub : refs' <+: refs)
    (hlate : SentinelLate F r pre refs) : SentinelLate F r pre refs' := by
  obtain ⟨rest, rfl⟩ := hsub
  intro front p back hrefs
  exact hlate front p (back ++ rest) (by rw [hrefs, List.append_assoc, List.cons_append])

theorem fifoStep_faults (F : Nat) (a : FifoState) (p : Int) :
    (fifoStep F a p).faults = a.faults + if p ∈ a.frames then 0 else 1 := by
  unfold fifoStep
  cases hcase : findInFrames a.frames p with
  | some i => simp [mem_of_find hcase]
  | none =>
      have hnew := findInFrames_none.mp hcase
      by_cases hroom : a.filled < F <;> simp [hroom, hnew, Sim.fill, Sim.replace]

/-- The first page that meets the sentinel on one side only, referenced while a
frame is empty, hits in one run and faults in the other. -/
theorem simulateFifo_differs {front : List Int} (hr : Set.InjOn r {x | x ∈ front ++ [p]})
    (hkeep : ∀ x ∈ front, KeepsSentinel r x) (hbad : ¬ KeepsSentinel r p)
    (hfew : front.toFinset.card < F) :
    simulateFifo F ((front ++ [p]).map r) ≠ simulateFifo F (front ++ [p]) := by
  have hlock : Lockstep F r ([] ++ front) (front.foldl (fifoStep F) (fifoInit F)).toSim
      ((front.map r).foldl (fifoStep F) (fifoInit F)).toSim :=
    (fifo_oblivious F).foldl (hr.mono fun x hx => List.mem_append_left _ hx)
      (SentinelLate.of_keeps hkeep) (Lockstep.init F r) rfl
  simp only [simulateFifo, List.map_append, List.foldl_append, List.map_cons, List.map_nil,
    List.foldl_cons, List.foldl_nil]
  generalize List.foldl (fifoStep F) (fifoInit F) front = a at hlock ⊢
  generalize List.foldl (fifoStep F) (fifoInit F) (front.map r) = a' at hlock ⊢
  have hroom : a.filled < F := by
    have hsub : a.resident.toFinset ⊆ front.toFinset := fun x hx =>
      List.mem_toFinset.mpr (hlock.sub x (List.mem_toFinset.mp hx))
    have hcard := Finset.card_le_card hsub
    rw [List.toFinset_card_of_nodup hlock.nodup, hlock.length] at hcard
    omega
  -- the empty frames hold -1, so a page that is not resident hits exactly if it is -1
  have hempty : F - a.filled ≠ 0 := by omega
  have hfresh : p ∉ front := fun hm => hbad (hkeep p hm)
  have hmem : p ∈ a.frames ↔ p = -1 := by
    have hp : p ∉ a.resident := fun hm => hfresh (hlock.sub p hm)
    rw [hlock.frames, List.mem_append, List.mem_replicate]
    simp [hp, hempty]
  have hmem' : r p ∈ a'.frames ↔ r p = -1 := by
    have hp : r p ∉ a.resident.map r := by
      intro hm
      obtain ⟨x, hx, heq⟩ := List.mem_map.mp hm
      have hx := hlock.sub x hx
      exact hfresh (hr (List.mem_append_left _ hx) (by simp) heq ▸ hx)
    rw [hlock.frames', List.mem_append, List.mem_replicate]
    simp [hp, hempty]
  rw [fifoStep_faults, fifoStep_faults, hlock.faults, if_congr hmem rfl rfl,
    if_congr hmem' rfl rfl]
  split_ifs with hq hp hp
  · exact absurd ⟨fun _ => hq, fun _ => hp⟩ hbad
  · omega
  · omega
  · exact absurd ⟨fun heq => absurd heq hp, fun heq => absurd heq hq⟩ hbad

/-- If a page comes too early, so does the first one of its kind. -/
theorem exists_first_early {refs : List Int} (h : ¬ SentinelLate F r [] refs) :
    ∃ front p, front ++ [p] <+: refs ∧ (∀ x ∈ front, KeepsSentinel r x) ∧
      ¬ KeepsSentinel r p ∧ front.toFinset.card < F := by
  simp only [SentinelLate, not_forall, not_or, not_le] at h
  obtain ⟨front, p, back, hrefs, hbad, hfew⟩ := h
  induction hn : front.length using Nat.strong_induction_on generalizing front p back with
  | h n ih =>
      by_cases hkeep : ∀ x ∈ front, KeepsSentinel r x
      · exact ⟨front, p, ⟨back, by simp [hrefs]⟩, hkeep, hbad, hfew⟩
      · -- an earlier page of the kind: `front` up to it is shorter
        simp only [not_forall] at hkeep
        obtain ⟨x, hx, hxbad⟩ := hkeep
        obtain ⟨front', mid, rfl⟩ := List.append_of_mem hx
        refine ih front'.length (by simp [← hn]) front' x (mid ++ p :: back)
          (by simp [hrefs]) hxbad (lt_of_le_of_lt (Finset.card_le_card ?_) hfew) rfl
        intro y hy
        simp only [List.nil_append, List.mem_toFinset, List.mem_append] at hy ⊢
        exact Or.inl hy

/-- **Page identity.** Every sequence keeps its counts under an injective
renaming exactly when the renaming fixes the sentinel; and one sequence keeps
them after each of its references exactly when no page is mapped to or from the
sentinel while a frame may be empty. -/
theorem rename_agrees_iff (hF : 1 ≤ F) (hr : Function.Injective r) :
    ((∀ refs, SameCounts F refs (refs.map r)) ↔ r (-1) = -1) ∧
      ∀ refs, (∀ pre, pre <+: refs → SameCounts F pre (pre.map r)) ↔
        SentinelLate F r [] refs := by
  have hlate : ∀ refs, (∀ pre, pre <+: refs → SameCounts F pre (pre.map r)) ↔
      SentinelLate F r [] refs := by
    refine fun refs => ⟨fun hsame => ?_, fun h pre hsub => (h.of_isPrefix hsub).sameCounts hr.injOn⟩
    by_contra h
    obtain ⟨front, p, hsub, hkeep, hbad, hfew⟩ := exists_first_early h
    exact simulateFifo_differs hr.injOn hkeep hbad hfew (hsame _ hsub).2.1
  refine ⟨⟨fun hsame => ?_, fun hfix refs => ?_⟩, hlate⟩
  · have hone := (hlate [-1]).mp (fun pre _ => hsame pre)
    exact (hone.head.resolve_right (by simpa using Nat.pos_iff_ne_zero.mp hF)).mp rfl
  · refine SentinelLate.sameCounts hr.injOn (SentinelLate.of_keeps fun x _ => ?_)
    exact ⟨fun heq => heq ▸ hfix, fun heq => hr (heq.trans hfix.symm)⟩

/-- Renaming by `x ↦ -2 - x` fixes the sentinel. -/
theorem rename_agrees_reflect :
    SameCounts 2 [4, 7, -1, 4] ([4, 7, -1, 4].map fun x => -2 - x) :=
  (rename_agrees_iff (by decide) fun _ _ h => by simpa using h).1.mpr (by decide) _

/-- The renaming `x ↦ x + 6` takes the sentinel to the page `5`: the one
reference of the sequence hits an empty frame, its image faults. -/
theorem rename_differs_sentinel :
    ¬ ∀ F refs r, 1 ≤ F → F ≤ 1000 → Function.Injective r → SameCounts F refs (refs.map r) := by
  intro h
  have hfifo := (h 1 [-1] (· + 6) (by decide) (by decide) (add_left_injective 6)).2.1
  revert hfifo
  decide

end OsProjects.PageSim
