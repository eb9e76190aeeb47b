import Mathlib.Data.Finset.Card
import Mathlib.Data.List.Dedup
import Mathlib.Data.List.Rotate
import Mathlib.Tactic

/-!
# Demand paging over an arbitrary page type

What the page-replacement results rest on, stated without any simulator:

* **schedules** — `Schedule F R refs T n` serves `refs` from the resident set
  `R` with `F` frames and `n` faults, the evicted page being arbitrary; a
  schedule that always evicts a page whose next use is furthest away
  (`FurthestSchedule`) never faults more often (`FurthestSchedule.faults_le`);
* **policies** — a `Pager` is a deterministic online policy; `faultPages` lists
  the pages it faults on, and two pagers in lock step fault on the same
  references (`Pager.Simulation.faultPages_eq`);
* **conservative policies** — a pager that faults at most once on each page of
  every window of at most `F` distinct pages has at most `F` times the faults
  of any schedule (`Pager.Conservative.faults_le`), and fewer times those of a
  schedule with fewer frames (`Pager.Conservative.faults_le_fewer`).
-/

namespace OsProjects.Lib.Paging

variable {α : Type*}

section Schedules

variable [DecidableEq α]

/-! ## Schedules -/

/-- One reference served on demand: a hit changes nothing, a miss loads the
page into an empty frame while one exists and otherwise in place of an
arbitrary resident page. The last index is the number of faults. -/
inductive DemandStep (F : Nat) (R : Finset α) (p : α) : Finset α → Nat → Prop
  | hit : p ∈ R → DemandStep F R p R 0
  | fill : p ∉ R → R.card < F → DemandStep F R p (insert p R) 1
  | evict {v : α} : p ∉ R → F ≤ R.card → v ∈ R →
      DemandStep F R p (insert p (R.erase v)) 1

/-- A demand-paging schedule: resident set, references, final resident set and
total number of faults. -/
inductive Schedule (F : Nat) : Finset α → List α → Finset α → Nat → Prop
  | nil {R : Finset α} : Schedule F R [] R 0
  | cons {R S T : Finset α} {p : α} {refs : List α} {m n : Nat} :
      DemandStep F R p S m → Schedule F S refs T n → Schedule F R (p :: refs) T (m + n)

theorem DemandStep.mem {F : Nat} {R S : Finset α} {p : α} {m : Nat}
    (h : DemandStep F R p S m) : p ∈ S := by
  cases h with
  | hit hp => exact hp
  | fill => exact Finset.mem_insert_self _ _
  | evict => exact Finset.mem_insert_self _ _

theorem DemandStep.card_le {F : Nat} {R S : Finset α} {p : α} {m : Nat}
    (h : DemandStep F R p S m) (hR : R.card ≤ F) : S.card ≤ F := by
  cases h with
  | hit => exact hR
  | fill hp hlt => rw [Finset.card_insert_of_notMem hp]; omega
  | @evict v hp _ hv =>
      have hlt : (R.erase v).card < R.card := Finset.card_erase_lt_of_mem hv
      have hle := Finset.card_insert_le p (R.erase v)
      omega

/-- A step that faults brings in nothing but the referenced page. -/
theorem DemandStep.erase_subset {F : Nat} {R S : Finset α} {p : α} {m : Nat}
    (h : DemandStep F R p S m) : S.erase p ⊆ R := by
  intro x hx
  obtain ⟨hne, hxS⟩ := Finset.mem_erase.mp hx
  cases h with
  | hit => exact hxS
  | fill => exact (Finset.mem_insert.mp hxS).resolve_left hne
  | evict =>
      exact Finset.mem_of_mem_erase ((Finset.mem_insert.mp hxS).resolve_left hne)

/-! ## Furthest next use -/

/-- How many pages of `R` are referenced within the first `t` entries of
`refs`. -/
def usedWithin (R : Finset α) (refs : List α) (t : Nat) : Nat :=
  (R.filter (· ∈ refs.take t)).card

/-- `v` is referenced no sooner than any page of `R`: whenever `v` occurs in a
prefix of the remaining references, so does every page of `R`. -/
def Furthest (R : Finset α) (rest : List α) (v : α) : Prop :=
  ∀ x ∈ R, ∀ t, v ∈ rest.take t → x ∈ rest.take t

/-- A demand-paging schedule whose victims are all `Furthest`. -/
inductive FurthestSchedule (F : Nat) : Finset α → List α → Finset α → Nat → Prop
  | nil {R : Finset α} : FurthestSchedule F R [] R 0
  | hit {R T : Finset α} {p : α} {refs : List α} {n : Nat} : p ∈ R →
      FurthestSchedule F R refs T n → FurthestSchedule F R (p :: refs) T n
  | fill {R T : Finset α} {p : α} {refs : List α} {n : Nat} : p ∉ R → R.card < F →
      FurthestSchedule F (insert p R) refs T n →
      FurthestSchedule F R (p :: refs) T (1 + n)
  | evict {R T : Finset α} {p v : α} {refs : List α} {n : Nat} : p ∉ R →
      F ≤ R.card → v ∈ R → Furthest R refs v →
      FurthestSchedule F (insert p (R.erase v)) refs T n →
      FurthestSchedule F R (p :: refs) T (1 + n)

/-- The furthest-next-use schedule is one of the demand-paging schedules. -/
theorem FurthestSchedule.schedule {F : Nat} {R T : Finset α} {refs : List α} {n : Nat}
    (h : FurthestSchedule F R refs T n) : Schedule F R refs T n := by
  induction h with
  | nil => exact .nil
  | hit hp _ ih => simpa using Schedule.cons (.hit hp) ih
  | fill hp hlt _ ih => exact .cons (.fill hp hlt) ih
  | evict hp hle hv _ _ ih => exact .cons (.evict hp hle hv) ih

theorem usedWithin_mono {R S : Finset α} (h : R ⊆ S) (refs : List α) (t : Nat) :
    usedWithin R refs t ≤ usedWithin S refs t :=
  Finset.card_le_card (Finset.filter_subset_filter _ h)

theorem usedWithin_le_card (R : Finset α) (refs : List α) (t : Nat) :
    usedWithin R refs t ≤ R.card :=
  Finset.card_filter_le _ _

/-- Setting the page just referenced aside: its own next use counts alike in
every resident set that holds it. -/
theorem usedWithin_of_mem {R : Finset α} {p : α} (hp : p ∈ R) (refs : List α) (t : Nat) :
    usedWithin R refs t =
      usedWithin (R.erase p) refs t + if p ∈ refs.take t then 1 else 0 := by
  unfold usedWithin
  conv_lhs => rw [← Finset.insert_erase hp]
  rw [Finset.filter_insert]
  split
  · rw [Finset.card_insert_of_notMem]
    simp
  · rfl

/-- One step back in time: off the referenced page, membership in a prefix is
shifted by one. -/
theorem usedWithin_cons_of_notMem {R : Finset α} {p : α} (hp : p ∉ R) (refs : List α)
    (t : Nat) : usedWithin R (p :: refs) (t + 1) = usedWithin R refs t := by
  unfold usedWithin
  congr 1
  apply Finset.filter_congr
  intro x hx
  have hne : x ≠ p := fun h => hp (h ▸ hx)
  simp [hne]

theorem usedWithin_cons_of_mem {R : Finset α} {p : α} (hp : p ∈ R) (refs : List α)
    (t : Nat) :
    usedWithin R (p :: refs) (t + 1) = usedWithin (R.erase p) refs t + 1 := by
  rw [usedWithin_of_mem hp, usedWithin_cons_of_notMem (Finset.notMem_erase p R)]
  simp

/-- Evicting a furthest page costs nothing inside any window, unless the window
already reaches every resident page. -/
theorem usedWithin_erase_furthest {R : Finset α} {rest : List α} {v : α}
    (hv : Furthest R rest v) (t : Nat) :
    usedWithin (R.erase v) rest t = usedWithin R rest t ∨
      usedWithin (R.erase v) rest t = (R.erase v).card := by
  by_cases hmem : v ∈ rest.take t
  · right
    unfold usedWithin
    rw [Finset.filter_true_of_mem]
    intro x hx
    exact hv x (Finset.mem_of_mem_erase hx) t hmem
  · left
    unfold usedWithin
    rw [Finset.filter_erase, Finset.erase_eq_of_notMem]
    simp [hmem]

/-- How far a schedule may be ahead of the furthest-next-use one: in no window
of the remaining references does `S` hold more than `d` pages that `R` lacks. -/
def Ahead (S R : Finset α) (refs : List α) (d : Nat) : Prop :=
  ∀ t, usedWithin S refs t ≤ usedWithin R refs t + d

/-- After a reference both resident sets hold the page, so the lead can be
compared with that page set aside. -/
theorem Ahead.of_erase {S R : Finset α} {p : α} {refs : List α} {d : Nat}
    (hS : p ∈ S) (hR : p ∈ R)
    (h : ∀ t, usedWithin (S.erase p) refs t ≤ usedWithin (R.erase p) refs t + d) :
    Ahead S R refs d := by
  intro t
  rw [usedWithin_of_mem hS, usedWithin_of_mem hR]
  have := h t
  omega

/-- What a miss of the furthest-next-use schedule keeps: every window loses
nothing, or is already served by a full set of frames. -/
theorem usedWithin_after_miss {F : Nat} {R R' : Finset α} {p : α} {refs : List α}
    (hp : p ∉ R)
    (hmiss : R' = insert p R ∨
      ∃ v ∈ R, F ≤ R.card ∧ Furthest R refs v ∧ R' = insert p (R.erase v)) (t : Nat) :
    usedWithin R (p :: refs) (t + 1) ≤ usedWithin (R'.erase p) refs t ∨
      F ≤ usedWithin (R'.erase p) refs t + 1 := by
  rw [usedWithin_cons_of_notMem hp]
  rcases hmiss with rfl | ⟨v, hv, hfull, hfar, rfl⟩
  · left
    rw [Finset.erase_insert hp]
  · have hpe : p ∉ R.erase v := fun h => hp (Finset.mem_of_mem_erase h)
    rw [Finset.erase_insert hpe]
    rcases usedWithin_erase_furthest hfar t with h | h
    · left; omega
    · right
      rw [h, Finset.card_erase_of_mem hv]
      omega

/-- An arbitrary schedule never gains on the rest of the references: whether it
hits or misses, off the referenced page it holds no more than before. -/
theorem DemandStep.usedWithin_le {G : Nat} {S S' : Finset α} {p : α} {m : Nat}
    (h : DemandStep G S p S' m) (refs : List α) (t : Nat) :
    usedWithin (S'.erase p) refs t + 1 ≤ usedWithin S (p :: refs) (t + 1) + m := by
  have hmiss : p ∉ S → usedWithin (S'.erase p) refs t ≤ usedWithin S (p :: refs) (t + 1) := by
    intro hp
    rw [usedWithin_cons_of_notMem hp]
    exact usedWithin_mono h.erase_subset refs t
  cases h with
  | hit hp => rw [usedWithin_cons_of_mem hp]
  | fill hp => have := hmiss hp; omega
  | evict hp => have := hmiss hp; omega

/-- A hit of the furthest-next-use schedule against `m` faults of the other
moves the lead by `m`. -/
theorem Ahead.after_hit {G : Nat} {S S' R : Finset α} {p : α} {refs : List α}
    {d m : Nat} (hp : p ∈ R) (hstep : DemandStep G S p S' m)
    (h : Ahead S R (p :: refs) d) : Ahead S' R refs (d + m) := by
  apply Ahead.of_erase hstep.mem hp
  intro t
  have hlead := h (t + 1)
  have hle := hstep.usedWithin_le refs t
  rw [usedWithin_cons_of_mem hp] at hlead
  omega

/-- A miss of the furthest-next-use schedule is paid for by a miss of the other
or by one page of its lead. -/
theorem Ahead.after_miss {F G : Nat} {S S' R R' : Finset α} {p : α} {refs : List α}
    {d m : Nat} (hGF : G ≤ F) (hS : S.card ≤ G) (hp : p ∉ R) (hR' : p ∈ R')
    (hmiss : R' = insert p R ∨
      ∃ v ∈ R, F ≤ R.card ∧ Furthest R refs v ∧ R' = insert p (R.erase v))
    (hstep : DemandStep G S p S' m) (h : Ahead S R (p :: refs) d) :
    ∃ e, e + 1 = d + m ∧ Ahead S' R' refs e := by
  -- the window of length one already sees the page that `R` lacks
  have hpos : 1 ≤ d + m := by
    have h1 := h (0 + 1)
    have h2 := hstep.usedWithin_le refs 0
    rw [usedWithin_cons_of_notMem hp] at h1
    have h3 : usedWithin R refs 0 = 0 := by simp [usedWithin]
    omega
  refine ⟨d + m - 1, by omega, Ahead.of_erase hstep.mem hR' ?_⟩
  intro t
  have hlead := h (t + 1)
  have hle := hstep.usedWithin_le refs t
  rcases usedWithin_after_miss hp hmiss t with hkeep | hfull
  · omega
  · have h1 := usedWithin_le_card (S'.erase p) refs t
    have h2 := hstep.card_le hS
    have h3 : (S'.erase p).card < S'.card := Finset.card_erase_lt_of_mem hstep.mem
    omega

/-- A schedule that is at most `d` pages ahead saves at most `d` faults. -/
theorem FurthestSchedule.faults_le_add {F G : Nat} (hGF : G ≤ F) {R T : Finset α}
    {refs : List α} {n : Nat} (h : FurthestSchedule F R refs T n) :
    ∀ {S U : Finset α} {m d : Nat}, Schedule G S refs U m → S.card ≤ G →
      Ahead S R refs d → n ≤ m + d := by
  induction h with
  | nil => intros; omega
  | hit hp _ ih =>
      intro S U m d hsched hS hahead
      cases hsched with
      | cons hstep htail =>
          have := ih htail (hstep.card_le hS) (hahead.after_hit hp hstep)
          omega
  | fill hp _ _ ih =>
      intro S U m d hsched hS hahead
      cases hsched with
      | cons hstep htail =>
          obtain ⟨e, he, hlead⟩ := hahead.after_miss hGF hS hp
            (Finset.mem_insert_self _ _) (.inl rfl) hstep
          have := ih htail (hstep.card_le hS) hlead
          omega
  | evict hp hfull hv hfar _ ih =>
      intro S U m d hsched hS hahead
      cases hsched with
      | cons hstep htail =>
          obtain ⟨e, he, hlead⟩ := hahead.after_miss hGF hS hp
            (Finset.mem_insert_self _ _) (.inr ⟨_, hv, hfull, hfar, rfl⟩) hstep
          have := ih htail (hstep.card_le hS) hlead
          omega

/-- Evicting the page with the furthest next use is optimal, also against
schedules with fewer frames. -/
theorem FurthestSchedule.faults_le {F G : Nat} (hGF : G ≤ F) {T U : Finset α}
    {refs : List α} {n m : Nat} (h : FurthestSchedule F ∅ refs T n)
    (hother : Schedule G ∅ refs U m) : n ≤ m := by
  have := h.faults_le_add hGF (d := 0) hother (by simp) (by intro t; simp [usedWithin])
  omega

/-! ## What the references cost -/

/-- What a schedule has done since its resident set was `R₀`: it referenced
`window`, the pages of the window outside `R₀` have cost a fault each, and what
is resident now was in `R₀` or in the window. -/
structure Served (R₀ : Finset α) (window : List α) (k : Nat) (R : Finset α) : Prop where
  resident : R ⊆ R₀ ∪ window.toFinset
  missed : (window.toFinset \ R₀).card ≤ k

theorem Served.start (R : Finset α) : Served R [] 0 R := ⟨by simp, by simp⟩

theorem Served.step {G : Nat} {R₀ R S : Finset α} {window : List α} {p : α} {k j : Nat}
    (h : Served R₀ window k R) (hstep : DemandStep G R p S j) :
    Served R₀ (window ++ [p]) (k + j) S := by
  have hwindow : (window ++ [p]).toFinset = insert p window.toFinset := by
    ext x; simp
  have hgrow : (insert p window.toFinset \ R₀).card ≤ (window.toFinset \ R₀).card + 1 := by
    have hsub : insert p window.toFinset \ R₀ ⊆ insert p (window.toFinset \ R₀) := by
      intro x hx
      simp only [Finset.mem_sdiff, Finset.mem_insert] at hx ⊢
      tauto
    exact (Finset.card_le_card hsub).trans (Finset.card_insert_le _ _)
  rw [← hwindow] at hgrow
  constructor
  · intro x hx
    by_cases hxp : x = p
    · simp [hxp]
    · have hold := h.resident (hstep.erase_subset (Finset.mem_erase.mpr ⟨hxp, hx⟩))
      rw [hwindow]
      simp only [Finset.mem_union, Finset.mem_insert] at hold ⊢
      tauto
  · cases hstep with
    | hit hp =>
        -- a page that is hit was in `R₀` or has been counted
        have hsub : (window ++ [p]).toFinset \ R₀ ⊆ window.toFinset \ R₀ := by
          intro x hx
          have hpage := Finset.mem_union.mp (h.resident hp)
          rw [hwindow] at hx
          simp only [Finset.mem_sdiff, Finset.mem_insert] at hx ⊢
          rcases hx with ⟨rfl | hxw, hnew⟩
          · exact ⟨hpage.resolve_left hnew, hnew⟩
          · exact ⟨hxw, hnew⟩
        exact (Finset.card_le_card hsub).trans h.missed
    | fill => exact hgrow.trans (Nat.add_le_add_right h.missed 1)
    | evict => exact hgrow.trans (Nat.add_le_add_right h.missed 1)

/-- The pages of the window were resident at its start or have cost a fault. -/
theorem Served.card_le {R₀ R : Finset α} {window : List α} {k : Nat}
    (h : Served R₀ window k R) : window.toFinset.card ≤ R₀.card + k := by
  have hsplit := Finset.card_sdiff_add_card_inter window.toFinset R₀
  have hinter : (window.toFinset ∩ R₀).card ≤ R₀.card :=
    Finset.card_le_card Finset.inter_subset_right
  have := h.missed
  omega

theorem Schedule.served {F : Nat} {R T : Finset α} {refs : List α} {n : Nat}
    (h : Schedule F R refs T n) :
    ∀ {R₀ : Finset α} {window : List α} {k : Nat}, Served R₀ window k R →
      Served R₀ (window ++ refs) (k + n) T := by
  induction h with
  | nil =>
      intro R₀ window k hserved
      simpa using hserved
  | cons hstep _ ih =>
      intro R₀ window k hserved
      simpa [Nat.add_assoc] using ih (hserved.step hstep)

/-- Every page is loaded once at least. -/
theorem Schedule.card_le_faults {F : Nat} {T : Finset α} {refs : List α} {n : Nat}
    (h : Schedule F ∅ refs T n) : refs.toFinset.card ≤ n := by
  simpa using (h.served (.start ∅)).card_le

theorem Schedule.faults_le_length {F : Nat} {R T : Finset α} {refs : List α} {n : Nat}
    (h : Schedule F R refs T n) : n ≤ refs.length := by
  induction h with
  | nil => exact Nat.le_refl 0
  | cons hstep _ ih =>
      cases hstep with
      | hit => exact Nat.le_trans (by omega) (Nat.le_succ_of_le ih)
      | fill => rw [List.length_cons]; omega
      | evict => rw [List.length_cons]; omega

theorem Schedule.card_le {F : Nat} {R T : Finset α} {refs : List α} {n : Nat}
    (h : Schedule F R refs T n) (hR : R.card ≤ F) : T.card ≤ F := by
  induction h with
  | nil => exact hR
  | cons hstep _ ih => exact ih (hstep.card_le hR)

theorem Schedule.append {F : Nat} {R S T : Finset α} {front back : List α} {m n : Nat}
    (hfront : Schedule F R front S m) (hback : Schedule F S back T n) :
    Schedule F R (front ++ back) T (m + n) := by
  induction hfront with
  | nil => simpa using hback
  | cons hstep _ ih => simpa [Nat.add_assoc] using Schedule.cons hstep (ih hback)

theorem Schedule.split {F : Nat} {T : Finset α} {front back : List α} :
    ∀ {R : Finset α} {n : Nat}, Schedule F R (front ++ back) T n →
      ∃ S m k, Schedule F R front S m ∧ Schedule F S back T k ∧ m + k = n := by
  induction front with
  | nil =>
      intro R n h
      exact ⟨R, 0, n, .nil, h, Nat.zero_add n⟩
  | cons p front ih =>
      intro R n h
      cases h with
      | cons hstep htail =>
          obtain ⟨S, m, k, hfront, hback, hsum⟩ := ih htail
          exact ⟨S, _, k, .cons hstep hfront, hback, by omega⟩

/-- One reference with more pages resident. -/
theorem DemandStep.warm {F : Nat} {R S : Finset α} {p : α} {m : Nat} (h : DemandStep F R p S m)
    {R' : Finset α} (hsub : R ⊆ R') (hR' : R'.card ≤ F) :
    ∃ S' k, DemandStep F R' p S' k ∧ S ⊆ S' ∧ k ≤ m := by
  by_cases hp : p ∈ R'
  · have hS : S ⊆ R' := by
      intro x hx
      by_cases hxp : x = p
      · exact hxp ▸ hp
      · exact hsub (h.erase_subset (Finset.mem_erase.mpr ⟨hxp, hx⟩))
    exact ⟨R', 0, .hit hp, hS, Nat.zero_le m⟩
  · cases h with
    | hit hmem => exact absurd (hsub hmem) hp
    | fill _ hroom =>
        by_cases hroom' : R'.card < F
        · exact ⟨_, 1, .fill hp hroom', Finset.insert_subset_insert p hsub, Nat.le_refl 1⟩
        · -- a page that `R` does not hold makes room
          obtain ⟨v, hv, hvR⟩ := Finset.exists_mem_notMem_of_card_lt_card
            (show R.card < R'.card by omega)
          refine ⟨_, 1, .evict hp (by omega) hv, Finset.insert_subset_insert p ?_, Nat.le_refl 1⟩
          intro x hx
          exact Finset.mem_erase.mpr ⟨fun heq => hvR (heq ▸ hx), hsub hx⟩
    | evict _ hfull hv =>
        -- `R'` has no room for anything else
        have heq : R = R' := Finset.eq_of_subset_of_card_le hsub (hR'.trans hfull)
        subst heq
        exact ⟨_, 1, .evict hp hfull hv, Finset.Subset.refl _, Nat.le_refl 1⟩

/-- Pages that are resident at the start cost nothing. -/
theorem Schedule.warm {F : Nat} {R T : Finset α} {refs : List α} {n : Nat}
    (h : Schedule F R refs T n) :
    ∀ {R' : Finset α}, R ⊆ R' → R'.card ≤ F → ∃ T' k, Schedule F R' refs T' k ∧ k ≤ n := by
  induction h with
  | nil =>
      intro R' _ _
      exact ⟨R', 0, .nil, Nat.le_refl 0⟩
  | cons hstep _ ih =>
      intro R' hsub hR'
      obtain ⟨S', j, hstep', hsub', hj⟩ := hstep.warm hsub hR'
      obtain ⟨T', k, htail, hk⟩ := ih hsub' (hstep'.card_le hR')
      exact ⟨T', j + k, .cons hstep' htail, by omega⟩

end Schedules

/-! ## Policies -/

/-- A deterministic online policy: how a reference changes the state, and
whether it faults there. -/
structure Pager (α σ : Type*) where
  step : σ → α → σ
  miss : σ → α → Bool

namespace Pager

variable {σ τ : Type*}

/-- The state after a sequence of references. -/
def run (P : Pager α σ) (s : σ) (refs : List α) : σ := refs.foldl P.step s

/-- The pages faulted on, in order. -/
def faultPages (P : Pager α σ) : σ → List α → List α
  | _, [] => []
  | s, p :: refs =>
      if P.miss s p then p :: P.faultPages (P.step s p) refs
      else P.faultPages (P.step s p) refs

/-- The number of faults. -/
def faults (P : Pager α σ) (s : σ) (refs : List α) : Nat := (P.faultPages s refs).length

@[simp] theorem run_nil (P : Pager α σ) (s : σ) : P.run s [] = s := rfl

@[simp] theorem run_cons (P : Pager α σ) (s : σ) (p : α) (refs : List α) :
    P.run s (p :: refs) = P.run (P.step s p) refs := rfl

theorem faultPages_append (P : Pager α σ) (s : σ) (front back : List α) :
    P.faultPages s (front ++ back) =
      P.faultPages s front ++ P.faultPages (P.run s front) back := by
  induction front generalizing s with
  | nil => rfl
  | cons p front ih =>
      simp only [List.cons_append, faultPages, run_cons, ih]
      split <;> simp

theorem faults_cons (P : Pager α σ) (s : σ) (p : α) (refs : List α) :
    P.faults s (p :: refs) = (if P.miss s p then 1 else 0) + P.faults (P.step s p) refs := by
  simp only [faults, faultPages]
  split
  · rw [List.length_cons, Nat.add_comm]
  · rw [Nat.zero_add]

theorem faults_append (P : Pager α σ) (s : σ) (front back : List α) :
    P.faults s (front ++ back) = P.faults s front + P.faults (P.run s front) back := by
  simp [faults, faultPages_append]

theorem faultPages_subset (P : Pager α σ) (s : σ) (refs : List α) :
    P.faultPages s refs ⊆ refs := by
  induction refs generalizing s with
  | nil => simp [faultPages]
  | cons p refs ih =>
      simp only [faultPages]
      split
      · exact List.cons_subset_cons p (ih _)
      · exact fun x hx => List.mem_cons_of_mem p (ih _ hx)

/-- What holds of the start state and survives every step holds after every
run. -/
theorem run_induction (P : Pager α σ) (Inv : σ → Prop) (ok : α → Prop)
    (step : ∀ s p, ok p → Inv s → Inv (P.step s p)) {s : σ} (start : Inv s)
    {refs : List α} (hok : ∀ p ∈ refs, ok p) : Inv (P.run s refs) := by
  induction refs generalizing s with
  | nil => exact start
  | cons p refs ih =>
      exact ih (step s p (hok p (by simp)) start)
        (fun q hq => hok q (List.mem_cons_of_mem p hq))

/-- `rel` relates two policies in lock step on the references satisfying `ok`. -/
structure Simulation (P : Pager α σ) (Q : Pager α τ) (ok : α → Prop)
    (rel : σ → τ → Prop) : Prop where
  miss : ∀ {s t p}, ok p → rel s t → P.miss s p = Q.miss t p
  step : ∀ {s t p}, ok p → rel s t → rel (P.step s p) (Q.step t p)

theorem Simulation.run {P : Pager α σ} {Q : Pager α τ} {ok : α → Prop}
    {rel : σ → τ → Prop} (h : Simulation P Q ok rel) {s : σ} {t : τ} (start : rel s t)
    {refs : List α} (hok : ∀ p ∈ refs, ok p) : rel (P.run s refs) (Q.run t refs) := by
  induction refs generalizing s t with
  | nil => exact start
  | cons p refs ih =>
      exact ih (h.step (hok p (by simp)) start)
        (fun q hq => hok q (List.mem_cons_of_mem p hq))

/-- Policies in lock step fault on the same references. -/
theorem Simulation.faultPages_eq {P : Pager α σ} {Q : Pager α τ} {ok : α → Prop}
    {rel : σ → τ → Prop} (h : Simulation P Q ok rel) {s : σ} {t : τ} (start : rel s t)
    {refs : List α} (hok : ∀ p ∈ refs, ok p) :
    P.faultPages s refs = Q.faultPages t refs := by
  induction refs generalizing s t with
  | nil => rfl
  | cons p refs ih =>
      have hp : ok p := hok p (by simp)
      have hrest := ih (h.step hp start) (fun q hq => hok q (List.mem_cons_of_mem p hq))
      simp only [faultPages, h.miss hp start, hrest]

/-! ## Conservative policies -/

variable [DecidableEq α]

/-- From `s`, no window of at most `F` distinct pages faults twice on a page. -/
def Conservative (P : Pager α σ) (F : Nat) (s : σ) : Prop :=
  ∀ front window : List α, window.toFinset.card ≤ F →
    (P.faultPages (P.run s front) window).Nodup

theorem Conservative.window_faults_le_card {P : Pager α σ} {F : Nat} {s : σ}
    (h : P.Conservative F s) (front window : List α) (hw : window.toFinset.card ≤ F) :
    P.faults (P.run s front) window ≤ window.toFinset.card := by
  have hnodup := h front window hw
  rw [faults, ← List.toFinset_card_of_nodup hnodup]
  apply Finset.card_le_card
  intro x hx
  exact List.mem_toFinset.mpr (P.faultPages_subset _ _ (List.mem_toFinset.mp hx))

/-- The phase argument, carried along a schedule on `G` frames. `front` holds
the finished phases, for which the schedule has paid with its first `m` faults,
`F` for each page of `R₀` included; `window` is the current phase and began with
`R₀` resident. -/
theorem Conservative.faults_le_fewer_aux {P : Pager α σ} {F G : Nat} {s : σ}
    (h : P.Conservative F s) (hG : 1 ≤ G) (hGF : G ≤ F)
    {R T : Finset α} {refs : List α} {n : Nat} (hsched : Schedule G R refs T n) :
    ∀ (front window : List α) (R₀ : Finset α) (m k : Nat), window.toFinset.card ≤ F →
      R.card ≤ G → Served R₀ window k R →
      (F - G + 1) * P.faults s front + F * R₀.card ≤ F * m →
      (F - G + 1) * P.faults s (front ++ window ++ refs) ≤ F * (m + k + n) := by
  induction hsched with
  | nil =>
      intro front window R₀ m k hw _ hserved hpaid
      have hwin := h.window_faults_le_card front window hw
      have hlast : (F - G + 1) * P.faults (P.run s front) window ≤ F * (R₀.card + k) :=
        Nat.mul_le_mul (by omega) (hwin.trans hserved.card_le)
      rw [List.append_nil, faults_append]
      linarith
  | @cons R S T p refs j n hstep _ ih =>
      intro front window R₀ m k hw hR hserved hpaid
      have hS := hstep.card_le hR
      by_cases hgrow : (window ++ [p]).toFinset.card ≤ F
      · -- the page still belongs to the current phase
        have := ih front (window ++ [p]) R₀ m (k + j) hgrow hS (hserved.step hstep) hpaid
        simpa [Nat.add_assoc] using this
      · -- the page opens a new phase; the old one and the page cost `F + 1`
        -- faults, up to the pages that were resident at its start
        have hcost := (hserved.step hstep).card_le
        have hwin := h.window_faults_le_card front window hw
        have hpaid' : (F - G + 1) * P.faults s (front ++ window) + F * S.card ≤
            F * (m + (k + j)) := by
          have hphase : F * (F + 1) ≤ F * (R₀.card + (k + j)) :=
            Nat.mul_le_mul_left F (by omega)
          have hrest : F * S.card ≤ F * G := Nat.mul_le_mul_left F hS
          have hfull : (F - G + 1) * P.faults (P.run s front) window ≤ (F - G + 1) * F :=
            Nat.mul_le_mul_left _ (hwin.trans hw)
          have hsplit : (F - G + 1) * F + F * G = F * (F + 1) := by
            obtain ⟨d, rfl⟩ := Nat.exists_eq_add_of_le hGF
            simp only [Nat.add_sub_cancel_left]
            ring
          rw [faults_append]
          linarith
        have := ih (front ++ window) [p] S (m + (k + j)) 0 (by simp; omega) hS
          ?_ hpaid'
        · simpa [Nat.add_assoc] using this
        · exact ⟨by simp, by simp [hstep.mem]⟩

/-- **Resource augmentation.** A conservative policy on `F` frames has at most
`F / (F - G + 1)` times the faults of any schedule on `G ≤ F` frames. -/
theorem Conservative.faults_le_fewer {P : Pager α σ} {F G : Nat} {s : σ}
    (h : P.Conservative F s) (hG : 1 ≤ G) (hGF : G ≤ F) {T : Finset α} {refs : List α}
    {n : Nat} (hsched : Schedule G ∅ refs T n) :
    (F - G + 1) * P.faults s refs ≤ F * n := by
  have := h.faults_le_fewer_aux hG hGF hsched [] [] ∅ 0 0 (by simp) (by simp)
    (.start ∅) (by simp [faults, faultPages])
  simpa using this

/-- A conservative policy has at most `F` times the faults of any schedule. -/
theorem Conservative.faults_le {P : Pager α σ} {F : Nat} {s : σ}
    (h : P.Conservative F s) (hF : 1 ≤ F) {T : Finset α} {refs : List α} {n : Nat}
    (hsched : Schedule F ∅ refs T n) : P.faults s refs ≤ F * n := by
  simpa using h.faults_le_fewer hF (Nat.le_refl F) hsched

end Pager

end OsProjects.Lib.Paging
