import Mathlib.Algebra.BigOperators.Group.Finset.Basic
import Mathlib.Algebra.Order.BigOperators.Group.Finset
import Mathlib.Tactic

/-!
# Busy periods of a work-conserving server

Jobs arrive at given times and cost a given time each; the server never idles
while a job that has arrived is unserved. In which order it serves them does not
matter for when it runs out of work: the busy period ends at the first time at
which the jobs that have arrived cost no more than the time that has passed
(`Busy.rest_unique`). For how long the jobs wait it does matter: in total they
wait least when the cheaper ones go first (`totalDelay_le_of_perm`).
-/

namespace OsProjects.Lib.Workload

variable {ι : Type} [Fintype ι] [DecidableEq ι] {arrival cost : ι → Int}

/-- The cost of the jobs that arrive from `start` to `t`. -/
def demand (arrival cost : ι → Int) (start t : Int) : Int :=
  ∑ i with start ≤ arrival i ∧ arrival i ≤ t, cost i

/-- A busy period from `start` on. The jobs in `served` have been served; those
of this period took from `base` to `now`, and at no time in between the server
had caught up with the arrivals. -/
structure Busy (arrival cost : ι → Int) (start base : Int) (served : Finset ι) (now : Int) :
    Prop where
  early : ∀ i, arrival i < start → i ∈ served
  arrived : ∀ i ∈ served, arrival i ≤ now
  now_eq : now = base + ∑ i ∈ served with start ≤ arrival i, cost i
  start_le : start ≤ now
  backlog : ∀ t, start ≤ t → t < now → t < base + demand arrival cost start t

variable {start base now : Int} {served : Finset ι} {k : ι}

/-- Serving one more job. -/
theorem Busy.serve (h : Busy arrival cost start base served now) (hcost : ∀ i, 0 ≤ cost i)
    (hk : k ∉ served) (harrived : arrival k ≤ now) :
    Busy arrival cost start base (insert k served) (now + cost k) := by
  have hlate : start ≤ arrival k := not_lt.mp fun hlt => hk (h.early k hlt)
  have hk' : k ∉ {i ∈ served | start ≤ arrival i} := fun hmem => hk (Finset.mem_filter.mp hmem).1
  have hsum : ∑ i ∈ insert k served with start ≤ arrival i, cost i =
      cost k + ∑ i ∈ served with start ≤ arrival i, cost i := by
    rw [Finset.filter_insert, if_pos hlate, Finset.sum_insert hk']
  have hnow := h.now_eq
  have hpos := hcost k
  refine ⟨fun i hi => Finset.mem_insert_of_mem (h.early i hi), fun i hi => ?_, ?_, ?_, ?_⟩
  · rcases Finset.mem_insert.mp hi with rfl | hi
    · omega
    · have hi := h.arrived i hi
      omega
  · rw [hsum]
    omega
  · have hstart := h.start_le
    omega
  · intro t hstart ht
    by_cases hold : t < now
    · exact h.backlog t hstart hold
    · -- all that has been served, `k` included, had arrived by then
      have hle : ∑ i ∈ insert k served with start ≤ arrival i, cost i ≤
          demand arrival cost start t := by
        refine Finset.sum_le_sum_of_subset_of_nonneg (fun i hi => ?_) fun i _ _ => hcost i
        obtain ⟨hi, hlate⟩ := Finset.mem_filter.mp hi
        refine Finset.mem_filter.mpr ⟨Finset.mem_univ i, hlate, ?_⟩
        rcases Finset.mem_insert.mp hi with rfl | hi
        · omega
        · have hi := h.arrived i hi
          omega
      rw [hsum] at hle
      omega

/-- A period begins with the job that arrives at `start`, when all earlier jobs
have been served. The first job may cost less than its `cost`: `base` is then
before `start`. -/
theorem Busy.begin (hcost : ∀ i, 0 ≤ cost i) (hserved : ∀ i, i ∈ served ↔ arrival i < start)
    (harrived : arrival k = start) (hbase : start ≤ base + cost k) :
    Busy arrival cost start base (insert k served) (base + cost k) := by
  have hsum : ∑ i ∈ insert k served with start ≤ arrival i, cost i = cost k := by
    have hfilter : {i ∈ insert k served | start ≤ arrival i} = {k} := by
      ext i
      simp only [Finset.mem_filter, Finset.mem_insert, Finset.mem_singleton, hserved]
      refine ⟨fun h => ?_, fun h => ?_⟩
      · rcases h.1 with h' | h'
        · exact h'
        · exact absurd h' (not_lt.mpr h.2)
      · exact ⟨Or.inl h, by rw [h]; exact harrived.ge⟩
    rw [hfilter, Finset.sum_singleton]
  refine ⟨fun i hi => Finset.mem_insert_of_mem ((hserved i).mpr hi), fun i hi => ?_, ?_, hbase, ?_⟩
  · rcases Finset.mem_insert.mp hi with rfl | hi
    · omega
    · have hi := (hserved i).mp hi
      omega
  · rw [hsum]
  · intro t hstart ht
    have hle : ∑ i ∈ {k}, cost i ≤ demand arrival cost start t := by
      refine Finset.sum_le_sum_of_subset_of_nonneg (fun i hi => ?_) fun i _ _ => hcost i
      obtain rfl := Finset.mem_singleton.mp hi
      exact Finset.mem_filter.mpr ⟨Finset.mem_univ i, harrived.ge, by omega⟩
    rw [Finset.sum_singleton] at hle
    omega

/-- The server has caught up with the arrivals. -/
theorem Busy.caught_up (h : Busy arrival cost start base served now)
    (hrest : ∀ i, i ∉ served → now < arrival i) : base + demand arrival cost start now = now := by
  have hfilter : demand arrival cost start now = ∑ i ∈ served with start ≤ arrival i, cost i := by
    refine Finset.sum_congr ?_ fun _ _ => rfl
    ext i
    simp only [Finset.mem_filter, Finset.mem_univ, true_and]
    refine ⟨fun hi => ⟨?_, hi.1⟩, fun hi => ⟨hi.2, h.arrived i hi.1⟩⟩
    by_contra hunserved
    exact absurd (hrest i hunserved) (not_lt.mpr hi.2)
  rw [hfilter]
  exact h.now_eq.symm

/-- When a busy period ends, and with which jobs served, does not depend on the
order of service. -/
theorem Busy.rest_unique {served' : Finset ι} {now' : Int}
    (h : Busy arrival cost start base served now) (hrest : ∀ i, i ∉ served → now < arrival i)
    (h' : Busy arrival cost start base served' now')
    (hrest' : ∀ i, i ∉ served' → now' < arrival i) : now = now' ∧ served = served' := by
  have hnow : now = now' := by
    have hend := h.caught_up hrest
    have hend' := h'.caught_up hrest'
    rcases lt_trichotomy now now' with hlt | heq | hlt
    · have hlate := h'.backlog now h.start_le hlt
      omega
    · exact heq
    · have hlate := h.backlog now' h'.start_le hlt
      omega
  refine ⟨hnow, ?_⟩
  ext i
  refine ⟨fun hi => ?_, fun hi => ?_⟩
  · by_contra hunserved
    have hearly := h.arrived i hi
    have hlate := hrest' i hunserved
    omega
  · by_contra hunserved
    have hearly := h'.arrived i hi
    have hlate := hrest i hunserved
    omega

section Order

variable {α : Type} [AddCommMonoid α] [PartialOrder α] [IsOrderedAddMonoid α]

/-- The time that jobs with these costs, served one after the other, wait in
total: each delays all that come behind it. -/
def totalDelay : List α → α
  | [] => 0
  | c :: rest => rest.length • c + totalDelay rest

omit [PartialOrder α] [IsOrderedAddMonoid α] in
/-- A job waits for those before it and delays those behind it. -/
theorem totalDelay_middle (front back : List α) (c : α) :
    totalDelay (front ++ c :: back) =
      totalDelay (front ++ back) + front.sum + back.length • c := by
  induction front with
  | nil => simp [totalDelay, add_comm]
  | cons d front ih =>
      have hlength : (front ++ c :: back).length = (front ++ back).length + 1 := by
        simp [Nat.add_assoc]
      rw [List.cons_append, List.cons_append, totalDelay, totalDelay, ih, hlength, succ_nsmul,
        List.sum_cons]
      abel

/-- **Cheapest first.** The exchange is to move the cheapest job to the front. -/
theorem totalDelay_le_of_perm {l l' : List α} (hsorted : l.Pairwise (· ≤ ·)) (hperm : l.Perm l') :
    totalDelay l ≤ totalDelay l' := by
  induction l generalizing l' with
  | nil => rw [hperm.nil_eq]
  | cons c rest ih =>
      obtain ⟨hfirst, hsorted⟩ := List.pairwise_cons.mp hsorted
      obtain ⟨front, back, rfl⟩ := List.append_of_mem (hperm.subset List.mem_cons_self)
      have hrest : rest.Perm (front ++ back) := (hperm.trans List.perm_middle).cons_inv
      have hfront : front.length • c ≤ front.sum :=
        List.card_nsmul_le_sum front c fun d hd =>
          hfirst d (hrest.mem_iff.mpr (List.mem_append_left back hd))
      rw [totalDelay, totalDelay_middle]
      calc rest.length • c + totalDelay rest
          ≤ rest.length • c + totalDelay (front ++ back) := by
            gcongr
            exact ih hsorted hrest
        _ = totalDelay (front ++ back) + front.length • c + back.length • c := by
            rw [hrest.length_eq, List.length_append, add_nsmul]
            abel
        _ ≤ totalDelay (front ++ back) + front.sum + back.length • c := by
            gcongr

end Order

end OsProjects.Lib.Workload
