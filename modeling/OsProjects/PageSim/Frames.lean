import OsProjects.PageSim.Model
import OsProjects.Lib.Paging
import OsProjects.Lib.Ring

/-!
# The frame table

What the four simulators have in common: how a reference can change the frame
table (`Sim.Step`), the invariant of the table on inputs without the page `-1`
(`Sim.Ok`), and its reading as a demand-paging schedule. Each simulator is then
described by one lemma saying that its iteration is a `Sim.Step`.
-/

namespace OsProjects.PageSim

open OsProjects.Lib.Paging OsProjects.Lib.Ring

/-! ## Searching the frames -/

theorem findInFrames_none {frames : List Int} {p : Int} :
    findInFrames frames p = none ↔ p ∉ frames := by
  simp only [findInFrames, List.findIdx?_eq_none_iff, beq_eq_false_iff_ne]
  exact ⟨fun h hp => h p hp rfl, fun h x hx heq => h (heq ▸ hx)⟩

theorem findInFrames_some {frames : List Int} {p : Int} {i : Nat}
    (h : findInFrames frames p = some i) : frames[i]? = some p := by
  obtain ⟨hlt, hpi, _⟩ := List.findIdx?_eq_some_iff_getElem.mp h
  rw [List.getElem?_eq_getElem hlt]
  simpa using hpi

/-! ## What a reference can do -/

/-- The effect of one reference on the frame table, whichever the simulator: a
hit leaves it alone, a miss fills the next empty frame, and a miss on a full
table replaces one frame. -/
inductive Sim.Step (F : Nat) (s : Sim) (p : Int) : Sim → Prop
  | hit : p ∈ s.frames → Sim.Step F s p s
  | fill : p ∉ s.frames → s.filled < F → Sim.Step F s p (s.fill p)
  | replace {i : Nat} : p ∉ s.frames → ¬ s.filled < F → i < F →
      Sim.Step F s p (s.replace i p)

/-- The frame table without the page `-1`: the filled frames come first and hold
distinct pages, the others hold the sentinel. -/
structure Sim.Ok (F : Nat) (s : Sim) : Prop where
  length : s.frames.length = F
  filled_le : s.filled ≤ F
  empty : s.frames.drop s.filled = List.replicate (F - s.filled) (-1)
  nodup : s.resident.Nodup
  noSentinel : -1 ∉ s.resident

@[simp] theorem Sim.init_resident (F : Nat) : (Sim.init F).resident = [] := rfl

theorem Sim.init_ok (F : Nat) : (Sim.init F).Ok F where
  length := by simp [Sim.init]
  filled_le := Nat.zero_le F
  empty := by simp [Sim.init]
  nodup := by simp
  noSentinel := by simp

theorem Sim.Ok.length_resident {F : Nat} {s : Sim} (h : s.Ok F) :
    s.resident.length = s.filled := by
  have h1 := h.length
  have h2 := h.filled_le
  simp only [Sim.resident, List.length_take]
  omega

/-- A page other than the sentinel is in the table iff it is resident. -/
theorem Sim.Ok.mem_frames {F : Nat} {s : Sim} (h : s.Ok F) {p : Int} (hp : p ≠ -1) :
    p ∈ s.frames ↔ p ∈ s.resident := by
  rw [← List.take_append_drop s.filled s.frames, h.empty, List.mem_append]
  show p ∈ s.resident ∨ _ ↔ _
  simp [hp]

/-- Where a page is found, it is resident at that index. -/
theorem Sim.Ok.find_resident {F : Nat} {s : Sim} (h : s.Ok F) {p : Int} (hp : p ≠ -1)
    {i : Nat} (hfind : findInFrames s.frames p = some i) : s.resident[i]? = some p := by
  have hget := findInFrames_some hfind
  by_cases hlt : i < s.filled
  · rw [Sim.resident, List.getElem?_take_of_lt hlt, hget]
  · -- past the filled frames there is nothing but the sentinel
    have hdrop : (s.frames.drop s.filled)[i - s.filled]? = some p := by
      rw [List.getElem?_drop, Nat.add_sub_cancel' (by omega), hget]
    rw [h.empty, List.getElem?_replicate] at hdrop
    split at hdrop
    · exact absurd (Option.some.inj hdrop).symm hp
    · simp at hdrop

/-- Once every frame is filled, the table is the list of resident pages. -/
theorem Sim.Ok.frames_eq_of_full {F : Nat} {s : Sim} (h : s.Ok F) (hfull : ¬ s.filled < F) :
    s.frames = s.resident := by
  have h1 := h.length
  rw [Sim.resident, List.take_of_length_le (by omega)]

theorem Sim.fill_resident {F : Nat} {s : Sim} (h : s.Ok F) (hroom : s.filled < F) (p : Int) :
    (s.fill p).resident = s.resident ++ [p] := by
  have h1 := h.length
  show (s.frames.set s.filled p).take (s.filled + 1) = s.frames.take s.filled ++ [p]
  exact take_set_succ (by omega) p

theorem Sim.replace_resident {F : Nat} {s : Sim} (h : s.Ok F) (hfull : ¬ s.filled < F)
    (i : Nat) (p : Int) : (s.replace i p).resident = s.resident.set i p := by
  have h1 := h.length
  show (s.frames.set i p).take s.filled = (s.frames.take s.filled).set i p
  rw [List.take_of_length_le (by simp; omega), List.take_of_length_le (by omega)]

theorem Sim.Ok.fill {F : Nat} {s : Sim} (h : s.Ok F) (hroom : s.filled < F) {p : Int}
    (hp : p ≠ -1) (hnew : p ∉ s.frames) : (s.fill p).Ok F where
  length := by simpa [Sim.fill] using h.length
  filled_le := hroom
  empty := by
    show (s.frames.set s.filled p).drop (s.filled + 1) = _
    rw [List.drop_set_of_lt (by omega : s.filled < s.filled + 1), ← List.drop_drop, h.empty]
    simp [Nat.sub_sub, Sim.fill]
  nodup := by
    rw [Sim.fill_resident h hroom]
    have hres : p ∉ s.resident := fun hm => hnew ((h.mem_frames hp).mpr hm)
    exact List.Nodup.append h.nodup (by simp) (by simpa using hres)
  noSentinel := by
    rw [Sim.fill_resident h hroom]
    simpa using ⟨h.noSentinel, fun heq => hp heq.symm⟩

theorem Sim.Ok.replace {F : Nat} {s : Sim} (h : s.Ok F) (hfull : ¬ s.filled < F) (i : Nat)
    {p : Int} (hp : p ≠ -1) (hnew : p ∉ s.frames) : (s.replace i p).Ok F where
  length := by simpa [Sim.replace] using h.length
  filled_le := h.filled_le
  empty := by
    have h1 := h.length
    show (s.frames.set i p).drop s.filled = List.replicate (F - s.filled) (-1)
    rw [List.drop_of_length_le (by simp; omega), Nat.sub_eq_zero_of_le (by omega)]
    rfl
  nodup := by
    rw [Sim.replace_resident h hfull]
    have hres : p ∉ s.resident := fun hm => hnew ((h.mem_frames hp).mpr hm)
    exact h.nodup.set hres
  noSentinel := by
    rw [Sim.replace_resident h hfull]
    intro hmem
    rcases List.mem_or_eq_of_mem_set hmem with hmem | heq
    · exact h.noSentinel hmem
    · exact hp heq.symm

/-- Exactly the references that miss are counted. -/
theorem Sim.Step.faults {F : Nat} {s s' : Sim} {p : Int} (hstep : Sim.Step F s p s') :
    s'.faults = s.faults + if p ∉ s.frames then 1 else 0 := by
  cases hstep with
  | hit hmem => rw [if_neg (not_not.mpr hmem)]; rfl
  | fill hnew => rw [if_pos hnew]; rfl
  | replace hnew => rw [if_pos hnew]; rfl

/-- A page that is not there replaces exactly the page in frame `i`. -/
theorem toFinset_set {pages : List Int} (hnodup : pages.Nodup) {i : Nat}
    (hi : i < pages.length) (p : Int) :
    (pages.set i p).toFinset = insert p (pages.toFinset.erase pages[i]) := by
  ext x
  simp only [List.mem_toFinset, Finset.mem_insert, Finset.mem_erase]
  constructor
  · intro hx
    obtain ⟨j, hj, rfl⟩ := List.getElem_of_mem hx
    rw [List.length_set] at hj
    by_cases hji : i = j
    · left; simp [hji]
    · right
      rw [List.getElem_set_ne hji]
      exact ⟨fun heq => hji ((hnodup.getElem_inj_iff.mp heq).symm), List.getElem_mem hj⟩
  · rintro (rfl | ⟨hne, hx⟩)
    · exact List.mem_set hi x
    · obtain ⟨j, hj, rfl⟩ := List.getElem_of_mem hx
      have hji : i ≠ j := by rintro rfl; exact hne rfl
      rw [← List.getElem_set_ne hji (by simpa using hj)]
      exact List.getElem_mem _

theorem fill_toFinset {F : Nat} {s : Sim} (h : s.Ok F) (hroom : s.filled < F) {p : Int} :
    (s.fill p).resident.toFinset = insert p s.resident.toFinset := by
  rw [Sim.fill_resident h hroom]
  ext x
  simp

theorem replace_toFinset {F : Nat} {s : Sim} (h : s.Ok F) (hfull : ¬ s.filled < F) {i : Nat}
    (hi : i < s.resident.length) {p : Int} :
    (s.replace i p).resident.toFinset =
      insert p (s.resident.toFinset.erase s.resident[i]) := by
  rw [Sim.replace_resident h hfull, toFinset_set h.nodup hi]

/-- Read as resident sets, one reference is a demand-paging step, and the fault
counter counts its faults. -/
theorem Sim.Step.demand {F : Nat} {s s' : Sim} {p : Int} (hstep : Sim.Step F s p s')
    (hp : p ≠ -1) (h : s.Ok F) :
    ∃ m, DemandStep F s.resident.toFinset p s'.resident.toFinset m ∧
      s'.faults = s.faults + m := by
  have hcard : s.resident.toFinset.card = s.filled := by
    rw [List.toFinset_card_of_nodup h.nodup, h.length_resident]
  cases hstep with
  | hit hmem => exact ⟨0, .hit (List.mem_toFinset.mpr ((h.mem_frames hp).mp hmem)), rfl⟩
  | fill hnew hroom =>
      have hres : p ∉ s.resident.toFinset := fun hm =>
        hnew ((h.mem_frames hp).mpr (List.mem_toFinset.mp hm))
      exact ⟨1, fill_toFinset h hroom ▸ .fill hres (by omega), rfl⟩
  | @replace i hnew hfull hi =>
      have hres : p ∉ s.resident.toFinset := fun hm =>
        hnew ((h.mem_frames hp).mpr (List.mem_toFinset.mp hm))
      have hlt : i < s.resident.length := by rw [h.length_resident]; omega
      exact ⟨1, replace_toFinset h hfull hlt ▸ .evict hres (by omega)
        (List.mem_toFinset.mpr (List.getElem_mem hlt)), rfl⟩

/-! ## Simulators as pagers -/

/-- A simulator whose iteration is `step`, as an online policy; `sim` projects
its state to the frame table. -/
def simPager {σ : Type} (step : σ → Int → σ) (sim : σ → Sim) : Pager Int σ where
  step := step
  miss s p := (findInFrames (sim s).frames p).isNone

/-- An invariant under which every iteration is a `Sim.Step`, on inputs without
the page `-1`. -/
structure SimInvariant {σ : Type} (F : Nat) (step : σ → Int → σ) (sim : σ → Sim)
    (Inv : σ → Prop) : Prop where
  ok : ∀ {s}, Inv s → (sim s).Ok F
  table : ∀ {s p}, p ≠ -1 → Inv s → Sim.Step F (sim s) p (sim (step s p))
  keep : ∀ {s p}, p ≠ -1 → Inv s → Inv (step s p)

variable {σ : Type} {F : Nat} {step : σ → Int → σ} {sim : σ → Sim} {Inv : σ → Prop}

theorem simPager_miss (step : σ → Int → σ) (sim : σ → Sim) (s : σ) (p : Int) :
    (simPager step sim).miss s p = true ↔ p ∉ (sim s).frames := by
  show (findInFrames (sim s).frames p).isNone = true ↔ _
  rw [Option.isNone_iff_eq_none, findInFrames_none]

/-- The invariant along a run. -/
theorem SimInvariant.foldl (h : SimInvariant F step sim Inv) {refs : List Int}
    (hrefs : -1 ∉ refs) {s : σ} (hs : Inv s) : Inv (refs.foldl step s) :=
  (simPager step sim).run_induction Inv (· ≠ -1) (fun _ _ hp hs => h.keep hp hs) hs
    (fun _ hp heq => hrefs (heq ▸ hp))

/-- The fault counter moves exactly on the references that miss. -/
theorem SimInvariant.faults_step (h : SimInvariant F step sim Inv) {s : σ} {p : Int}
    (hp : p ≠ -1) (hs : Inv s) :
    (sim (step s p)).faults =
      (sim s).faults + if (simPager step sim).miss s p then 1 else 0 := by
  rw [(h.table hp hs).faults, if_congr (simPager_miss step sim s p) rfl rfl]

/-- The fault counter counts the faults of the pager. -/
theorem SimInvariant.faults_foldl (h : SimInvariant F step sim Inv) {refs : List Int}
    (hrefs : -1 ∉ refs) {s : σ} (hs : Inv s) :
    (sim (refs.foldl step s)).faults =
      (sim s).faults + (simPager step sim).faults s refs := by
  induction refs generalizing s with
  | nil => rfl
  | cons p refs ih =>
      have hp : p ≠ -1 := fun heq => hrefs (by simp [heq])
      have htail := ih (fun hm => hrefs (List.mem_cons_of_mem p hm)) (h.keep hp hs)
      rw [List.foldl_cons, htail, h.faults_step hp hs, Pager.faults_cons]
      show _ = (sim s).faults + (_ + (simPager step sim).faults (step s p) refs)
      omega

/-- Every simulator run is a demand-paging schedule. -/
theorem SimInvariant.schedule (h : SimInvariant F step sim Inv) {refs : List Int}
    (hrefs : -1 ∉ refs) {s : σ} (hs : Inv s) :
    ∃ n, Schedule F (sim s).resident.toFinset refs
        (sim (refs.foldl step s)).resident.toFinset n ∧
      (sim (refs.foldl step s)).faults = (sim s).faults + n := by
  induction refs generalizing s with
  | nil => exact ⟨0, .nil, rfl⟩
  | cons p refs ih =>
      have hp : p ≠ -1 := fun heq => hrefs (by simp [heq])
      obtain ⟨n, hsched, hn⟩ := ih (fun hm => hrefs (List.mem_cons_of_mem p hm)) (h.keep hp hs)
      obtain ⟨m, hdemand, hm⟩ := (h.table hp hs).demand hp (h.ok hs)
      refine ⟨m + n, .cons hdemand hsched, ?_⟩
      rw [List.foldl_cons, hn, hm]
      omega

end OsProjects.PageSim
