import Mathlib.Data.List.DropRight
import OsProjects.Lib.Paging

/-!
# The classical replacement policies as pagers

FIFO, LRU and second chance in their textbook form: a queue, a recency stack and
a queue with one reference bit per page. All three are conservative
(`fifoQueue_conservative`, `lruStack_conservative`, `secondChance_conservative`),
so the bound of `Pager.Conservative.faults_le` applies to any implementation in
lock step with one of them.
-/

namespace OsProjects.Lib.Paging

variable {α : Type*} [DecidableEq α]

/-! ## The window rule -/

/-- To show a policy conservative, carry a window predicate from a fresh window
on: `W seen loaded s` speaks of the references `seen` in the window, the pages
`loaded` by its faults, and the state `s`. -/
theorem Pager.conservative_of_window {σ : Type*} {P : Pager α σ} {F : Nat} {s₀ : σ}
    (Inv : σ → Prop) (W : List α → List α → σ → Prop)
    (keep : ∀ s p, Inv s → Inv (P.step s p)) (start : Inv s₀)
    (fresh : ∀ s, Inv s → W [] [] s)
    (hit : ∀ seen loaded s p, W seen loaded s → (seen ++ [p]).toFinset.card ≤ F →
      P.miss s p = false → W (seen ++ [p]) loaded (P.step s p))
    (miss : ∀ seen loaded s p, W seen loaded s → (seen ++ [p]).toFinset.card ≤ F →
      P.miss s p = true → p ∉ loaded ∧ W (seen ++ [p]) (loaded ++ [p]) (P.step s p)) :
    P.Conservative F s₀ := by
  -- the faults so far and those still to come, as one duplicate-free list
  have carry : ∀ (window seen loaded : List α) (s : σ), W seen loaded s →
      (seen ++ window).toFinset.card ≤ F → loaded.Nodup →
      (loaded ++ P.faultPages s window).Nodup := by
    intro window
    induction window with
    | nil => intro seen loaded s _ _ hnodup; simpa [faultPages] using hnodup
    | cons p window ih =>
        intro seen loaded s hW hcard hnodup
        have hsplit : seen ++ p :: window = (seen ++ [p]) ++ window := by simp
        have hnow : (seen ++ [p]).toFinset.card ≤ F := by
          refine le_trans (Finset.card_le_card fun x hx => ?_) hcard
          rw [hsplit, List.mem_toFinset]
          exact List.mem_append_left _ (List.mem_toFinset.mp hx)
        rw [hsplit] at hcard
        cases hm : P.miss s p with
        | false =>
            simp only [faultPages, hm]
            exact ih _ _ _ (hit seen loaded s p hW hnow hm) hcard hnodup
        | true =>
            obtain ⟨hnew, hW'⟩ := miss seen loaded s p hW hnow hm
            have hnodup' : (loaded ++ [p]).Nodup :=
              List.Nodup.append hnodup (by simp) (by simpa using hnew)
            have := ih _ _ _ hW' hcard hnodup'
            simpa [faultPages, hm] using this
  intro front window hcard
  have hInv : Inv (P.run s₀ front) :=
    P.run_induction Inv (fun _ => True) (fun s p _ => keep s p) start (by simp)
  simpa using carry window [] [] _ (fresh _ hInv) (by simpa using hcard) List.nodup_nil

/-- Distinct pages that all lie in a window are at most as many as its distinct
pages. -/
theorem length_le_of_nodup_subset {l seen : List α} (hnodup : l.Nodup) (hsub : l ⊆ seen) :
    l.length ≤ seen.toFinset.card := by
  rw [← List.toFinset_card_of_nodup hnodup]
  apply Finset.card_le_card
  intro x hx
  exact List.mem_toFinset.mpr (hsub (List.mem_toFinset.mp hx))

/-! ## FIFO -/

/-- First in, first out: the resident pages in order of loading, oldest first. -/
def fifoQueue (F : Nat) : Pager α (List α) where
  step q p :=
    if p ∈ q then q
    else if q.length < F then q ++ [p]
    else q.tail ++ [p]
  miss q p := decide (p ∉ q)

theorem fifoQueue_nodup (F : Nat) (q : List α) (p : α) (h : q.Nodup) :
    ((fifoQueue F).step q p).Nodup := by
  simp only [fifoQueue]
  split
  · exact h
  · rename_i hp
    split
    · exact List.Nodup.append h (by simp) (by simpa using hp)
    · refine List.Nodup.append (h.sublist (List.tail_sublist q)) (by simp) ?_
      simpa using fun hmem => hp (List.mem_of_mem_tail hmem)

theorem fifoQueue_length (F : Nat) (hF : 1 ≤ F) (q : List α) (p : α) (h : q.length ≤ F) :
    ((fifoQueue F).step q p).length ≤ F := by
  simp only [fifoQueue]
  split
  · exact h
  · split
    · simpa using by omega
    · simp only [List.length_append, List.length_tail, List.length_singleton]
      omega

/-- The queue lists the pages loaded last: those it began with and those faulted
on since, as far as they fit. -/
theorem fifoQueue_run (F : Nat) (hF : 1 ≤ F) (refs : List α) :
    ∀ q : List α, q.length ≤ F →
      (fifoQueue F).run q refs = (q ++ (fifoQueue F).faultPages q refs).rtake F := by
  induction refs with
  | nil =>
      intro q hq
      simp [Pager.faultPages, List.rtake, Nat.sub_eq_zero_of_le hq]
  | cons p refs ih =>
      intro q hq
      rw [Pager.run_cons, ih _ (fifoQueue_length F hF q p hq)]
      by_cases hp : p ∈ q
      · simp [Pager.faultPages, fifoQueue, hp]
      · by_cases hroom : q.length < F
        · simp [Pager.faultPages, fifoQueue, hp, hroom]
        · -- the page that leaves a full queue is no longer among the last `F`
          obtain ⟨old, rest, rfl⟩ := List.exists_cons_of_length_pos (by omega : 0 < q.length)
          simp only [List.length_cons] at hq hroom
          have hlen : rest.length + 1 = F := by omega
          have hstep : (fifoQueue F).step (old :: rest) p = rest ++ [p] := by
            simp [fifoQueue, hp, hlen]
          have hmiss : (fifoQueue F).miss (old :: rest) p = true := by simp [fifoQueue, hp]
          rw [Pager.faultPages, if_pos hmiss, hstep]
          generalize (fifoQueue F).faultPages (rest ++ [p]) refs = later
          have hdrop : (old :: rest ++ p :: later).length - F =
              (rest ++ p :: later).length - F + 1 := by
            simp only [List.length_cons, List.length_append]
            omega
          rw [List.append_assoc, List.singleton_append, List.rtake, List.rtake, hdrop]
          rfl

/-- The pages loaded in a window stay at the end of the queue: it takes `F`
further loads to push one of them out. -/
theorem fifoQueue_conservative (F : Nat) (hF : 1 ≤ F) :
    (fifoQueue F : Pager α (List α)).Conservative F [] := by
  refine Pager.conservative_of_window
    (fun q => q.Nodup ∧ q.length ≤ F)
    (fun seen loaded q => q.Nodup ∧ q.length ≤ F ∧ loaded ⊆ seen ∧
      ∃ old, q = old ++ loaded)
    (fun q p h => ⟨fifoQueue_nodup F q p h.1, fifoQueue_length F hF q p h.2⟩)
    (by simp) ?_ ?_ ?_
  · intro q hq
    exact ⟨hq.1, hq.2, by simp, q, by simp⟩
  · intro seen loaded q p ⟨hnodup, hlen, hsub, hold⟩ _ hm
    have hp : p ∈ q := by simpa [fifoQueue] using hm
    refine ⟨fifoQueue_nodup F q p hnodup, fifoQueue_length F hF q p hlen,
      fun x hx => List.mem_append_left _ (hsub hx), ?_⟩
    simpa [fifoQueue, hp] using hold
  · intro seen loaded q p ⟨hnodup, hlen, hsub, old, hold⟩ hcard hm
    have hp : p ∉ q := by simpa [fifoQueue] using hm
    have hpl : p ∉ loaded := fun h => hp (hold ▸ List.mem_append_right _ h)
    have hsub' : loaded ++ [p] ⊆ seen ++ [p] := by
      intro x hx
      rcases List.mem_append.mp hx with hx | hx
      · exact List.mem_append_left _ (hsub hx)
      · exact List.mem_append_right _ hx
    refine ⟨hpl, fifoQueue_nodup F q p hnodup, fifoQueue_length F hF q p hlen, hsub', ?_⟩
    by_cases hroom : q.length < F
    · refine ⟨old, ?_⟩
      simp only [fifoQueue, if_neg hp, if_pos hroom]
      rw [hold, List.append_assoc]
    · -- a full queue still has a page from before the window at its head
      have hloaded : loaded.Nodup := (hold ▸ hnodup).of_append_right
      have hcount := length_le_of_nodup_subset
        (List.Nodup.append hloaded (by simp) (by simpa using hpl)) hsub'
      have hne : old ≠ [] := by
        rintro rfl
        simp only [List.nil_append] at hold
        simp only [List.length_append, List.length_singleton, ← hold] at hcount
        omega
      refine ⟨old.tail, ?_⟩
      simp only [fifoQueue, if_neg hp, if_neg hroom]
      rw [hold, List.tail_append_of_ne_nil hne, List.append_assoc]

/-! ## LRU -/

/-- A page moves to the top of the recency stack when it is referenced. -/
def touch (stack : List α) (p : α) : List α := p :: stack.erase p

/-- Least recently used: the stack holds every page seen so far, most recent
first, and the `F` topmost ones are resident. -/
def lruStack (F : Nat) : Pager α (List α) where
  step := touch
  miss stack p := decide (p ∉ stack.take F)

theorem touch_nodup (stack : List α) (p : α) (h : stack.Nodup) : (touch stack p).Nodup :=
  List.nodup_cons.mpr ⟨h.not_mem_erase, h.erase p⟩

theorem mem_touch {stack : List α} {p x : α} : x ∈ touch stack p ↔ x = p ∨ x ∈ stack := by
  by_cases hx : x = p
  · simp [touch, hx]
  · simp [touch, hx, List.mem_erase_of_ne hx]

/-- A reference rearranges the top of the stack and pulls at most the referenced
page out of the rest. -/
theorem touch_append (recent old : List α) (p : α) :
    touch (recent ++ old) p = touch recent p ++ if p ∈ recent then old else old.erase p := by
  by_cases hp : p ∈ recent
  · simp [touch, hp, List.erase_append_left old hp]
  · simp [touch, hp, List.erase_append_right old hp, List.erase_of_not_mem hp]

/-- One more reference of a window: the top of the stack stays the window's
pages. -/
theorem touch_recent {seen stack : List α}
    (h : ∃ recent old, stack = recent ++ old ∧ recent.Nodup ∧ ∀ x, x ∈ recent ↔ x ∈ seen)
    (p : α) :
    ∃ recent old, touch stack p = recent ++ old ∧ recent.Nodup ∧
      ∀ x, x ∈ recent ↔ x ∈ seen ++ [p] := by
  obtain ⟨recent, old, rfl, hnodup, hiff⟩ := h
  refine ⟨touch recent p, _, touch_append recent old p, touch_nodup recent p hnodup, ?_⟩
  intro x
  rw [mem_touch, hiff x, List.mem_append, List.mem_singleton, or_comm]

/-- While other pages are referenced, a page sinks below exactly those. -/
theorem foldl_touch_below {p : α} {refs : List α} (hp : p ∉ refs) :
    ∀ recent old : List α, recent.Nodup → p ∉ recent →
      ∃ recent' old', refs.foldl touch (recent ++ p :: old) = recent' ++ p :: old' ∧
        recent'.Nodup ∧ ∀ x, x ∈ recent' ↔ x ∈ recent ∨ x ∈ refs := by
  induction refs with
  | nil =>
      intro recent old hnodup _
      exact ⟨recent, old, rfl, hnodup, by simp⟩
  | cons q refs ih =>
      intro recent old hnodup hrec
      have hqp : q ≠ p := fun heq => hp (by simp [heq])
      have hstep : ∃ old', touch (recent ++ p :: old) q = touch recent q ++ p :: old' := by
        rw [touch_append]
        split
        · exact ⟨old, rfl⟩
        · exact ⟨old.erase q, by rw [List.erase_cons_tail (by simpa using hqp.symm)]⟩
      obtain ⟨old', hold⟩ := hstep
      obtain ⟨recent'', old'', heq, hnodup'', hiff⟩ :=
        ih (fun hm => hp (List.mem_cons_of_mem q hm)) _ old' (touch_nodup recent q hnodup)
          (fun hm => (mem_touch.mp hm).elim (fun h => hqp h.symm) hrec)
      refine ⟨recent'', old'', ?_, hnodup'', ?_⟩
      · rw [List.foldl_cons, hold]
        exact heq
      · intro x
        rw [hiff x, mem_touch, List.mem_cons]
        tauto

theorem dedup_concat (refs : List α) (p : α) :
    (refs ++ [p]).dedup = refs.dedup.erase p ++ [p] := by
  induction refs with
  | nil => simp
  | cons x refs ih =>
      by_cases hx : x ∈ refs
      · rw [List.cons_append, List.dedup_cons_of_mem (List.mem_append_left _ hx),
          List.dedup_cons_of_mem hx, ih]
      · by_cases hxp : x = p
        · subst hxp
          rw [List.cons_append, List.dedup_cons_of_mem (by simp), ih,
            List.dedup_cons_of_notMem hx, List.erase_cons_head,
            List.erase_of_not_mem (by simpa using hx)]
        · rw [List.cons_append, List.dedup_cons_of_notMem (by simp [hx, hxp]), ih,
            List.dedup_cons_of_notMem hx, List.erase_cons_tail (by simpa using hxp),
            List.cons_append]

/-- The stack lists the distinct pages by their last reference, latest first. -/
theorem foldl_touch_eq_dedup (refs : List α) :
    refs.foldl touch [] = refs.dedup.reverse := by
  induction refs using List.reverseRecOn with
  | nil => rfl
  | append_singleton refs p ih =>
      rw [List.foldl_append, ih, dedup_concat, List.reverse_append]
      show p :: refs.dedup.reverse.erase p = p :: (refs.dedup.erase p).reverse
      rw [(List.nodup_dedup refs).erase_eq_filter,
        (List.nodup_reverse.mpr (List.nodup_dedup refs)).erase_eq_filter, List.filter_reverse]

theorem mem_foldl_touch {refs stack : List α} {x : α} :
    x ∈ refs.foldl touch stack ↔ x ∈ stack ∨ x ∈ refs := by
  induction refs generalizing stack with
  | nil => simp
  | cons p refs ih => rw [List.foldl_cons, ih, mem_touch, List.mem_cons]; tauto

/-- A page is among the `F` topmost iff fewer than `F` distinct pages were
referenced since its last reference. -/
theorem mem_take_stack_iff {F : Nat} {before since : List α} {p : α} (hp : p ∉ since) :
    p ∈ ((before ++ p :: since).foldl touch []).take F ↔ since.toFinset.card < F := by
  obtain ⟨recent, old, hstack, hnodup, hiff⟩ :=
    foldl_touch_below hp [] ((before.foldl touch []).erase p) List.nodup_nil (by simp)
  have hrec : p ∉ recent := fun hm => hp (by simpa using (hiff p).mp hm)
  have hlen : recent.length = since.toFinset.card := by
    rw [← List.toFinset_card_of_nodup hnodup]
    congr 1
    ext x
    simpa using hiff x
  have hrun : (before ++ p :: since).foldl touch [] = recent ++ p :: old := by
    rw [List.foldl_append, List.foldl_cons]
    exact hstack
  rw [hrun, ← hlen]
  constructor
  · intro hmem
    by_contra hle
    rw [List.take_append_of_le_length (by omega)] at hmem
    exact hrec (List.mem_of_mem_take hmem)
  · intro hlt
    obtain ⟨k, hk⟩ : ∃ k, F - recent.length = k + 1 := ⟨F - recent.length - 1, by omega⟩
    rw [List.take_append, hk, List.take_succ_cons]
    simp

/-- A page is out of the `F` topmost iff it was never referenced or at least `F`
distinct pages were referenced after its last reference. -/
theorem notMem_take_stack_iff {F : Nat} {refs : List α} {p : α} :
    p ∉ (refs.foldl touch []).take F ↔
      p ∉ refs ∨ ∃ before since, refs = before ++ p :: since ∧ p ∉ since ∧
        F ≤ since.toFinset.card := by
  constructor
  · intro hout
    by_cases hp : p ∈ refs
    · -- split the references at the last one to `p`
      obtain ⟨since, before, hsplit, hlast⟩ :=
        List.eq_append_cons_of_mem (List.mem_reverse.mpr hp)
      have hrefs : refs = before.reverse ++ p :: since.reverse := by
        rw [← List.reverse_reverse refs, hsplit]
        simp
      have hlast' : p ∉ since.reverse := by simpa using hlast
      refine .inr ⟨before.reverse, since.reverse, hrefs, hlast', ?_⟩
      rw [hrefs, mem_take_stack_iff hlast'] at hout
      omega
    · exact .inl hp
  · rintro (hp | ⟨before, since, rfl, hsince, hF⟩)
    · intro hmem
      have := mem_foldl_touch.mp (List.mem_of_mem_take hmem)
      simp [hp] at this
    · rw [mem_take_stack_iff hsince]
      omega

/-- The pages of a window fill the top of the stack. -/
theorem lruStack_conservative (F : Nat) :
    (lruStack F : Pager α (List α)).Conservative F [] := by
  refine Pager.conservative_of_window (fun stack => stack.Nodup)
    (fun seen loaded stack => loaded ⊆ seen ∧
      ∃ recent old, stack = recent ++ old ∧ recent.Nodup ∧ ∀ x, x ∈ recent ↔ x ∈ seen)
    touch_nodup (by simp) ?_ ?_ ?_
  · intro stack _
    exact ⟨by simp, [], stack, by simp⟩
  · intro seen loaded stack p ⟨hsub, hrec⟩ _ _
    exact ⟨fun x hx => List.mem_append_left _ (hsub hx), touch_recent hrec p⟩
  · intro seen loaded stack p ⟨hsub, hrec⟩ hcard hm
    refine ⟨?_, ?_, touch_recent hrec p⟩
    · -- a page of the window would still be among the `F` topmost
      intro hp
      obtain ⟨recent, old, rfl, hnodup, hiff⟩ := hrec
      have hlen : recent.length ≤ F :=
        (length_le_of_nodup_subset hnodup
          (fun x hx => List.mem_append_left _ ((hiff x).mp hx))).trans hcard
      have hnot : p ∉ (recent ++ old).take F := by simpa [lruStack] using hm
      rw [List.take_append, List.take_of_length_le hlen] at hnot
      exact hnot (List.mem_append_left _ ((hiff p).mpr (hsub hp)))
    · intro x hx
      rcases List.mem_append.mp hx with hx | hx
      · exact List.mem_append_left _ (hsub hx)
      · exact List.mem_append_right _ hx

omit [DecidableEq α] in
/-- A page of the stack `recent` that is resident with `old` below it is resident
without. -/
theorem mem_take_of_append {F : Nat} {recent old : List α} {p : α}
    (hnodup : (recent ++ old).Nodup) (hp : p ∈ recent) :
    p ∈ (recent ++ old).take F ↔ p ∈ recent.take F := by
  rw [List.take_append, List.mem_append, or_iff_left]
  intro hold
  exact List.disjoint_of_nodup_append hnodup hp (List.mem_of_mem_take hold)

/-- Pages below the stack only help. -/
theorem lruStack_faults_append_le (F : Nat) (refs recent old : List α) :
    (lruStack F).faults (recent ++ old) refs ≤ (lruStack F).faults recent refs := by
  induction refs generalizing recent old with
  | nil => exact Nat.le_refl _
  | cons p refs ih =>
      have htail := ih (touch recent p) (if p ∈ recent then old else old.erase p)
      rw [← touch_append] at htail
      have hmiss : (lruStack F).miss (recent ++ old) p = true →
          (lruStack F).miss recent p = true := by
        simp only [lruStack, decide_eq_true_eq, List.take_append, List.mem_append]
        tauto
      rw [Pager.faults_cons, Pager.faults_cons]
      refine Nat.add_le_add ?_ htail
      by_cases hout : (lruStack F).miss (recent ++ old) p = true
      · rw [if_pos hout, if_pos (hmiss hout)]
      · rw [if_neg hout]
        exact Nat.zero_le _

/-- They save at most one fault for each frame that `recent` leaves to them. -/
theorem lruStack_faults_le_append (F : Nat) (refs : List α) :
    ∀ recent old : List α, (recent ++ old).Nodup →
      (lruStack F).faults recent refs ≤
        (lruStack F).faults (recent ++ old) refs + (F - recent.length) := by
  induction refs with
  | nil => intro recent old _; exact Nat.zero_le _
  | cons p refs ih =>
      intro recent old hnodup
      have htail := ih (touch recent p) (if p ∈ recent then old else old.erase p)
        (touch_append recent old p ▸ touch_nodup _ p hnodup)
      rw [← touch_append] at htail
      rw [Pager.faults_cons, Pager.faults_cons]
      change _ + (lruStack F).faults (touch recent p) refs ≤
        _ + (lruStack F).faults (touch (recent ++ old) p) refs + _
      by_cases hp : p ∈ recent
      · have hsame : (lruStack F).miss (recent ++ old) p = (lruStack F).miss recent p := by
          simp only [lruStack, mem_take_of_append hnodup hp]
        have hlen : (touch recent p).length = recent.length := by
          rw [touch, List.length_cons, List.length_erase_of_mem hp]
          have := List.length_pos_of_mem hp
          omega
        rw [hsame]
        omega
      · have hlen : (touch recent p).length = recent.length + 1 := by
          rw [touch, List.length_cons, List.erase_of_not_mem hp]
        by_cases hout : (lruStack F).miss (recent ++ old) p = true
        · rw [if_pos hout]
          split <;> omega
        · -- the page is in a frame that `recent` does not fill
          have hroom : recent.length < F := by
            by_contra hfull
            have htop : (recent ++ old).take F = recent.take F := by
              rw [List.take_append_of_le_length (by omega)]
            apply hout
            simp only [lruStack, decide_eq_true_eq, htop]
            exact fun hm => hp (List.mem_of_mem_take hm)
          split <;> omega

/-! ## Second chance -/

/-- Give every page with its bit set a second chance: it moves from the head to
the tail with the bit cleared, until the head has bit 0. -/
def sweep : List (α × Bool) → List (α × Bool)
  | [] => []
  | (x, true) :: q => sweep (q ++ [(x, false)])
  | (x, false) :: q => (x, false) :: q
termination_by q => q.countP (·.2)
decreasing_by simp

/-- Set the bit of a page. -/
def markPage (p : α) (e : α × Bool) : α × Bool := if e.1 = p then (e.1, true) else e

/-- Second chance: a FIFO queue with one bit per page, set on a hit and on
loading. -/
def secondChance (F : Nat) : Pager α (List (α × Bool)) where
  step q p :=
    if p ∈ q.map Prod.fst then q.map (markPage p)
    else if q.length < F then q ++ [(p, true)]
    else (sweep q).tail ++ [(p, true)]
  miss q p := decide (p ∉ q.map Prod.fst)

@[simp] theorem markPage_fst (p : α) (e : α × Bool) : (markPage p e).1 = e.1 := by
  unfold markPage
  split <;> rfl

@[simp] theorem map_markPage_fst (p : α) (q : List (α × Bool)) :
    (q.map (markPage p)).map Prod.fst = q.map Prod.fst := by
  simp [Function.comp_def]

/-- In a queue of distinct pages only one entry is marked. -/
theorem map_markPage_eq_set {q : List (α × Bool)} (hnodup : (q.map Prod.fst).Nodup) {i : Nat}
    {p : α} (hi : (q.map Prod.fst)[i]? = some p) : q.map (markPage p) = q.set i (p, true) := by
  induction q generalizing i with
  | nil => simp at hi
  | cons e q ih =>
      rw [List.map_cons, List.nodup_cons] at hnodup
      cases i with
      | zero =>
          have he : e.1 = p := by simpa using hi
          have hrest : q.map (markPage p) = q := by
            conv_rhs => rw [← List.map_id q]
            apply List.map_congr_left
            intro y hy
            have hne : y.1 ≠ p := fun heq =>
              hnodup.1 (List.mem_map.mpr ⟨y, hy, heq.trans he.symm⟩)
            rw [markPage, if_neg hne, id]
          rw [List.map_cons, hrest, markPage, if_pos he, he]
          rfl
      | succ i =>
          have hi' : (q.map Prod.fst)[i]? = some p := by simpa using hi
          have hne : e.1 ≠ p := fun heq =>
            hnodup.1 (heq ▸ List.mem_of_getElem? hi')
          rw [List.map_cons, ih hnodup.2 hi', markPage, if_neg hne]
          rfl

omit [DecidableEq α] in
/-- A sweep only reorders the pages. -/
theorem sweep_perm (q : List (α × Bool)) :
    ((sweep q).map Prod.fst).Perm (q.map Prod.fst) := by
  fun_induction sweep q with
  | case1 => exact List.Perm.refl _
  | case2 x q ih =>
      refine ih.trans ?_
      rw [List.map_append, List.map_cons]
      exact List.perm_append_singleton x (q.map Prod.fst)
  | case3 => exact List.Perm.refl _

omit [DecidableEq α] in
@[simp] theorem length_sweep (q : List (α × Bool)) : (sweep q).length = q.length := by
  simpa using (sweep_perm q).length_eq

omit [DecidableEq α] in
/-- The head of a swept queue has bit 0. -/
theorem sweep_head (q : List (α × Bool)) (h : q ≠ []) :
    ∃ x rest, sweep q = (x, false) :: rest := by
  fun_induction sweep q with
  | case1 => exact absurd rfl h
  | case2 x q ih => exact ih (by simp)
  | case3 x q => exact ⟨x, q, rfl⟩

/-- The pages of the queue are distinct and at most `F`. -/
def QueueOk (F : Nat) (q : List (α × Bool)) : Prop :=
  (q.map Prod.fst).Nodup ∧ q.length ≤ F

theorem secondChance_ok (F : Nat) (hF : 1 ≤ F) (q : List (α × Bool)) (p : α)
    (h : QueueOk F q) : QueueOk F ((secondChance F).step q p) := by
  obtain ⟨hnodup, hlen⟩ := h
  simp only [secondChance]
  split
  · exact ⟨by rw [map_markPage_fst]; exact hnodup, by simpa using hlen⟩
  · rename_i hp
    split
    · refine ⟨?_, by simpa using by omega⟩
      rw [List.map_append]
      exact List.Nodup.append hnodup (by simp) (by simpa using hp)
    · refine ⟨?_, ?_⟩
      · have hswept : ((sweep q).map Prod.fst).Nodup := (sweep_perm q).nodup_iff.mpr hnodup
        rw [List.map_append, List.map_tail]
        refine List.Nodup.append (hswept.sublist (List.tail_sublist _)) (by simp) ?_
        have hp' : p ∉ ((sweep q).map Prod.fst).tail := fun hmem =>
          hp ((sweep_perm q).mem_iff.mp (List.mem_of_mem_tail hmem))
        simpa using hp'
      · simp only [List.length_append, List.length_tail, length_sweep,
          List.length_singleton]
        omega

/-- Why a page `p` loaded in the window is still safe. Either the hand has not
reached it since (its bit is set and whatever was passed over after it was
loaded has bit 0 or was referenced), or the hand has passed it once, and then
everything passed over since was referenced in the window. -/
def Guarded (seen : List α) (p : α) (q : List (α × Bool)) : Prop :=
  ∃ ahead b behind, q = ahead ++ (p, b) :: behind ∧
    ((b = true ∧ ∀ y ∈ behind, y.1 ∈ seen ∨ y.2 = false) ∨
      ((∀ y ∈ ahead, y.1 ∈ seen ∨ y.2 = false) ∧ ∀ y ∈ behind, y.1 ∈ seen))

omit [DecidableEq α] in
/-- Moving the head to the tail with its bit cleared keeps a page guarded. -/
theorem Guarded.rotate {seen : List α} {p x : α} {q : List (α × Bool)}
    (h : Guarded seen p ((x, true) :: q)) : Guarded seen p (q ++ [(x, false)]) := by
  obtain ⟨ahead, b, behind, hq, hcase⟩ := h
  cases ahead with
  | nil =>
      -- the guarded page itself is passed over for the first or a later time
      simp only [List.nil_append, List.cons.injEq, Prod.mk.injEq] at hq
      obtain ⟨⟨rfl, rfl⟩, rfl⟩ := hq
      refine ⟨q, false, [], rfl, .inr ⟨?_, by simp⟩⟩
      rcases hcase with ⟨_, hbehind⟩ | ⟨_, hbehind⟩
      · exact hbehind
      · exact fun y hy => .inl (hbehind y hy)
  | cons a ahead =>
      simp only [List.cons_append, List.cons.injEq] at hq
      obtain ⟨rfl, rfl⟩ := hq
      refine ⟨ahead, b, behind ++ [(x, false)], by simp, ?_⟩
      rcases hcase with ⟨hb, hbehind⟩ | ⟨hahead, hbehind⟩
      · left
        refine ⟨hb, fun y hy => ?_⟩
        rcases List.mem_append.mp hy with hy | hy
        · exact hbehind y hy
        · exact .inr (by simp_all)
      · right
        refine ⟨fun y hy => hahead y (List.mem_cons_of_mem _ hy), fun y hy => ?_⟩
        rcases List.mem_append.mp hy with hy | hy
        · exact hbehind y hy
        · -- its bit was set, so it was referenced in the window
          have hx := hahead (x, true) (by simp)
          simp_all

omit [DecidableEq α] in
/-- A sweep keeps a page guarded. -/
theorem Guarded.sweep {seen : List α} {p : α} {q : List (α × Bool)}
    (h : Guarded seen p q) : Guarded seen p (Paging.sweep q) := by
  fun_induction Paging.sweep q with
  | case1 => exact h
  | case2 x q ih => exact ih h.rotate
  | case3 => exact h

/-- A hit only sets the bit of a page that now belongs to the window. -/
theorem Guarded.hit {seen : List α} {p : α} {q : List (α × Bool)}
    (h : Guarded seen p q) (x : α) : Guarded (seen ++ [x]) p (q.map (markPage x)) := by
  obtain ⟨ahead, b, behind, rfl, hcase⟩ := h
  have hmark : ∀ y : α × Bool, y.1 ∈ seen ∨ y.2 = false →
      (markPage x y).1 ∈ seen ++ [x] ∨ (markPage x y).2 = false := by
    intro y hy
    unfold markPage
    split
    · rename_i heq
      exact .inl (by simp [heq])
    · exact hy.imp (List.mem_append_left _) id
  refine ⟨ahead.map (markPage x), (markPage x (p, b)).2, behind.map (markPage x), ?_, ?_⟩
  · rw [List.map_append, List.map_cons]
    congr 2
    exact Prod.ext (markPage_fst x (p, b)) rfl
  · simp only [List.forall_mem_map]
    rcases hcase with ⟨rfl, hbehind⟩ | ⟨hahead, hbehind⟩
    · left
      refine ⟨?_, fun y hy => hmark y (hbehind y hy)⟩
      unfold markPage
      split <;> rfl
    · right
      refine ⟨fun y hy => hmark y (hahead y hy), fun y hy => ?_⟩
      rw [markPage_fst]
      exact List.mem_append_left _ (hbehind y hy)

omit [DecidableEq α] in
/-- Loading a page of the window behind a guarded page. -/
theorem Guarded.load {seen : List α} {p : α} {q : List (α × Bool)}
    (h : Guarded seen p q) (x : α) : Guarded (seen ++ [x]) p (q ++ [(x, true)]) := by
  obtain ⟨ahead, b, behind, rfl, hcase⟩ := h
  refine ⟨ahead, b, behind ++ [(x, true)], by simp, ?_⟩
  have hlift : ∀ y : α × Bool, y.1 ∈ seen ∨ y.2 = false → y.1 ∈ seen ++ [x] ∨ y.2 = false :=
    fun y hy => hy.imp (List.mem_append_left _) id
  rcases hcase with ⟨hb, hbehind⟩ | ⟨hahead, hbehind⟩
  · left
    refine ⟨hb, fun y hy => ?_⟩
    rcases List.mem_append.mp hy with hy | hy
    · exact hlift y (hbehind y hy)
    · exact .inl (by simp_all)
  · right
    refine ⟨fun y hy => hlift y (hahead y hy), fun y hy => ?_⟩
    rcases List.mem_append.mp hy with hy | hy
    · exact List.mem_append_left _ (hbehind y hy)
    · simp_all

omit [DecidableEq α] in
/-- Removing a head other than the guarded page. -/
theorem Guarded.drop {seen : List α} {p x : α} {q : List (α × Bool)}
    (h : Guarded seen p ((x, false) :: q)) (hne : p ≠ x) : Guarded seen p q := by
  obtain ⟨ahead, b, behind, hq, hcase⟩ := h
  cases ahead with
  | nil => simp_all
  | cons a ahead =>
      simp only [List.cons_append, List.cons.injEq] at hq
      obtain ⟨rfl, rfl⟩ := hq
      exact ⟨ahead, b, behind, rfl, hcase.imp id
        (fun h => ⟨fun y hy => h.1 y (List.mem_cons_of_mem _ hy), h.2⟩)⟩

omit [DecidableEq α] in
/-- A guarded page at the head with bit 0 has only pages of the window behind
it. -/
theorem Guarded.behind_seen {seen : List α} {p : α} {q : List (α × Bool)}
    (h : Guarded seen p ((p, false) :: q)) (hp : p ∉ q.map Prod.fst) :
    ∀ y ∈ q, y.1 ∈ seen := by
  obtain ⟨ahead, b, behind, hq, hcase⟩ := h
  cases ahead with
  | nil =>
      simp only [List.nil_append, List.cons.injEq, Prod.mk.injEq, true_and] at hq
      obtain ⟨rfl, rfl⟩ := hq
      simpa using hcase
  | cons a ahead =>
      simp only [List.cons_append, List.cons.injEq] at hq
      obtain ⟨-, rfl⟩ := hq
      simp at hp

/-- The victim of a full queue is not a page loaded in the window: otherwise the
window would hold all `F` resident pages and the new one. -/
theorem guarded_ne_victim {F : Nat} {seen : List α} {q rest : List (α × Bool)} {p x v : α}
    (hok : QueueOk F q) (hfull : ¬ q.length < F) (hp : p ∉ q.map Prod.fst)
    (hswept : sweep q = (v, false) :: rest) (hcard : (seen ++ [p]).toFinset.card ≤ F)
    (hx : x ∈ seen) (hguard : Guarded seen x q) : x ≠ v := by
  rintro rfl
  have hperm := sweep_perm q
  have hnodup : ((sweep q).map Prod.fst).Nodup := hperm.nodup_iff.mpr hok.1
  have hguard' := hguard.sweep
  rw [hswept] at hguard' hperm hnodup
  rw [List.map_cons, List.nodup_cons] at hnodup
  have hbehind := hguard'.behind_seen hnodup.1
  have hpv : p ∉ x :: rest.map Prod.fst := fun h => hp (hperm.mem_iff.mp h)
  have hsub : p :: x :: rest.map Prod.fst ⊆ seen ++ [p] := by
    intro y hy
    simp only [List.mem_cons, List.mem_map] at hy
    rcases hy with rfl | rfl | ⟨e, he, rfl⟩
    · simp
    · exact List.mem_append_left _ hx
    · exact List.mem_append_left _ (hbehind e he)
  have hcount := length_le_of_nodup_subset
    (List.nodup_cons.mpr ⟨hpv, List.nodup_cons.mpr hnodup⟩) hsub
  have hlen : rest.length + 1 = q.length := by
    have := length_sweep q
    rw [hswept] at this
    simpa using this
  simp only [List.length_cons, List.length_map] at hcount
  omega

/-- The two-revolution argument: a page loaded in the window is evicted only
after the hand has passed it twice, and by then the window is full. -/
theorem secondChance_conservative (F : Nat) (hF : 1 ≤ F) :
    (secondChance F : Pager α (List (α × Bool))).Conservative F [] := by
  refine Pager.conservative_of_window (QueueOk F)
    (fun seen loaded q => QueueOk F q ∧ loaded ⊆ seen ∧ ∀ x ∈ loaded, Guarded seen x q)
    (secondChance_ok F hF) (by simp [QueueOk]) ?_ ?_ ?_
  · intro q hq
    exact ⟨hq, by simp, by simp⟩
  · intro seen loaded q p ⟨hok, hsub, hguard⟩ _ hm
    have hp : p ∈ q.map Prod.fst := by
      simpa only [secondChance, decide_eq_false_iff_not, not_not] using hm
    refine ⟨secondChance_ok F hF q p hok, fun x hx => List.mem_append_left _ (hsub hx), ?_⟩
    intro x hx
    simp only [secondChance, if_pos hp]
    exact (hguard x hx).hit p
  · intro seen loaded q p ⟨hok, hsub, hguard⟩ hcard hm
    have hp : p ∉ q.map Prod.fst := by simpa [secondChance] using hm
    -- a guarded page is in the queue, so the page that faults is not one
    have hpl : p ∉ loaded := by
      intro hmem
      obtain ⟨ahead, b, behind, rfl, _⟩ := hguard p hmem
      simp at hp
    refine ⟨hpl, secondChance_ok F hF q p hok, ?_, ?_⟩
    · intro x hx
      rcases List.mem_append.mp hx with hx | hx
      · exact List.mem_append_left _ (hsub hx)
      · exact List.mem_append_right _ hx
    · intro x hx
      simp only [secondChance, if_neg hp]
      split
      · rcases List.mem_append.mp hx with hx | hx
        · exact (hguard x hx).load p
        · rw [List.mem_singleton.mp hx]
          exact ⟨q, true, [], rfl, .inl ⟨rfl, by simp⟩⟩
      · rename_i hfull
        obtain ⟨v, rest, hswept⟩ := sweep_head q (by rintro rfl; simp at hfull; omega)
        rw [hswept, List.tail_cons]
        rcases List.mem_append.mp hx with hx | hx
        · have hne := guarded_ne_victim hok hfull hp hswept hcard (hsub hx) (hguard x hx)
          have hg := (hguard x hx).sweep
          rw [hswept] at hg
          exact (hg.drop hne).load p
        · rw [List.mem_singleton.mp hx]
          exact ⟨rest, true, [], rfl, .inl ⟨rfl, by simp⟩⟩

end OsProjects.Lib.Paging
