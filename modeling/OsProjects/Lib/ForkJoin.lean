import Mathlib.Data.Fintype.Card
import Mathlib.Data.List.FinRange
import Mathlib.Logic.Relation
import Mathlib.Tactic

/-!
# Fork and join

A parent creates `n` workers, one after the other, and then joins them in the
same order, adding up what they return. The workers run at any time in between:
an execution is any interleaving of the three kinds of step (`Step`).

* **`AlwaysEndsIn`** — every execution is finite and can stop only in a state
  with a given property.
* **`always_ends`** — when what a worker returns does not depend on the moment at
  which it runs (`Separated`), every execution joins all workers and collects the
  same results in the same order.
-/

namespace OsProjects.Lib.ForkJoin

/-! ## Executions that end -/

section Ends

variable {σ : Type} {step : σ → σ → Prop} {post post' : σ → Prop} {s : σ}

/-- Every execution from `s` is finite, and it can stop only where `post`
holds. -/
def AlwaysEndsIn (step : σ → σ → Prop) (post : σ → Prop) (s : σ) : Prop :=
  Acc (fun b a => step a b) s ∧
    ∀ t, Relation.ReflTransGen step s t → (∀ u, ¬ step t u) → post t

theorem exists_end (h : Acc (fun b a => step a b) s) :
    ∃ t, Relation.ReflTransGen step s t ∧ ∀ u, ¬ step t u := by
  induction h with
  | intro s _ ih =>
      by_cases hstuck : ∃ u, step s u
      · obtain ⟨u, hu⟩ := hstuck
        obtain ⟨t, hreach, hend⟩ := ih u hu
        exact ⟨t, .head hu hreach, hend⟩
      · exact ⟨s, .refl, fun u hu => hstuck ⟨u, hu⟩⟩

/-- Some execution ends, so what holds at the ends is consistent. -/
theorem AlwaysEndsIn.exists_both (h : AlwaysEndsIn step post s) (h' : AlwaysEndsIn step post' s) :
    ∃ t, post t ∧ post' t := by
  obtain ⟨t, hreach, hend⟩ := exists_end h.1
  exact ⟨t, h.2 t hreach hend, h'.2 t hreach hend⟩

/-- An invariant, a measure that every step decreases and a step wherever `post`
does not hold. -/
theorem alwaysEndsIn_of_inv (Inv : σ → Prop) (measure : σ → Nat)
    (hkeep : ∀ a b, Inv a → step a b → Inv b ∧ measure b < measure a)
    (hgoes : ∀ a, Inv a → post a ∨ ∃ b, step a b) (hs : Inv s) : AlwaysEndsIn step post s := by
  refine ⟨?_, fun t hreach hend => ?_⟩
  · induction hm : measure s using Nat.strong_induction_on generalizing s with
    | h m ih =>
        refine ⟨s, fun b hb => ?_⟩
        obtain ⟨hinv, hlt⟩ := hkeep s b hs hb
        exact ih (measure b) (hm ▸ hlt) hinv rfl
  · have hinv : Inv t := by
      clear hend
      induction hreach with
      | refl => exact hs
      | tail _ hstep ih => exact (hkeep _ _ ih hstep).1
    rcases hgoes t hinv with hpost | ⟨u, hu⟩
    · exact hpost
    · exact absurd hu (hend u)

end Ends

/-! ## The program -/

/-- Where a worker is. -/
inductive Worker (Arg Res : Type)
  | absent
  | running (arg : Arg)
  | finished (res : Res)
  deriving DecidableEq

/-- What the parent does to create a worker, what the worker does, and what the
parent does with its result. Parent and workers share a memory, in which only the
parent writes. -/
structure Program (n : Nat) (Mem Arg Res Total : Type) where
  create : Mem → Fin n → Mem × Arg
  work : Mem → Arg → Res
  collect : Total → Res → Total

structure State (n : Nat) (Mem Arg Res Total : Type) where
  mem : Mem
  created : Nat
  worker : Fin n → Worker Arg Res
  joined : Nat
  total : Total

variable {n : Nat} {Mem Arg Res Total : Type} (prog : Program n Mem Arg Res Total)

/-- One step of the parent or of a worker. The parent joins the workers in the
order of their creation, and waits for the next one. -/
inductive Step : State n Mem Arg Res Total → State n Mem Arg Res Total → Prop
  | create (s : State n Mem Arg Res Total) (h : s.created < n) :
      Step s { s with
        mem := (prog.create s.mem ⟨s.created, h⟩).1
        created := s.created + 1
        worker := Function.update s.worker ⟨s.created, h⟩
          (.running (prog.create s.mem ⟨s.created, h⟩).2) }
  | finish (s : State n Mem Arg Res Total) {i : Fin n} {arg : Arg} : s.worker i = .running arg →
      Step s { s with
        worker := Function.update s.worker i (.finished (prog.work s.mem arg)) }
  | join (s : State n Mem Arg Res Total) (h : s.joined < n) {res : Res} : s.created = n →
      s.worker ⟨s.joined, h⟩ = .finished res →
      Step s { s with
        joined := s.joined + 1
        total := prog.collect s.total res }

/-- Before the first worker is created. -/
def start (mem : Mem) (total : Total) : State n Mem Arg Res Total :=
  ⟨mem, 0, fun _ => .absent, 0, total⟩

/-- The memory after the first `c` creations. -/
def memAfter (mem : Mem) : (c : Nat) → Mem
  | 0 => mem
  | c + 1 => if h : c < n then (prog.create (memAfter mem c) ⟨c, h⟩).1 else memAfter mem c

/-- What the worker `i` is created with. -/
def argOf (mem : Mem) (i : Fin n) : Arg := (prog.create (memAfter prog mem i) i).2

/-- What a worker returns does not depend on when it runs. -/
def Separated (mem : Mem) (result : Fin n → Res) : Prop :=
  ∀ (i : Fin n) (c : Nat), i.val < c → prog.work (memAfter prog mem c) (argOf prog mem i) = result i

/-- What the parent has collected after `j` joins. -/
def collected (result : Fin n → Res) (total : Total) (j : Nat) : Total :=
  ((List.finRange n).take j).foldl (fun total i => prog.collect total (result i)) total

/-! ## Every execution collects the same -/

/-- A worker that is created has the argument it was created with or has returned
its result. -/
def WorkerOk (mem : Mem) (result : Fin n → Res) (created : Nat) (i : Fin n)
    (worker : Worker Arg Res) : Prop :=
  worker = .absent ∧ created ≤ i.val ∨ i.val < created ∧
    (worker = .running (argOf prog mem i) ∨ worker = .finished (result i))

/-- Where an execution can be: the memory is that of the creations so far, and the
parent has collected the results of the workers it has joined. -/
structure Inv (mem : Mem) (result : Fin n → Res) (total : Total)
    (s : State n Mem Arg Res Total) : Prop where
  mem_eq : s.mem = memAfter prog mem s.created
  created : s.created ≤ n
  worker : ∀ i, WorkerOk prog mem result s.created i (s.worker i)
  joined : s.joined ≤ n
  total_eq : s.total = collected prog result total s.joined

open scoped Classical in
/-- The steps still to come: two for each worker to be created, one for each that
is running, and a join for each. -/
noncomputable def stepsLeft (s : State n Mem Arg Res Total) : Nat :=
  2 * (n - s.created) + (Finset.univ.filter fun i => ∃ arg, s.worker i = .running arg).card +
    (n - s.joined)

variable {prog} {mem : Mem} {result : Fin n → Res} {total : Total}
  {s t : State n Mem Arg Res Total}

theorem start_inv : Inv prog mem result total (start mem total) where
  mem_eq := rfl
  created := Nat.zero_le n
  worker _ := Or.inl ⟨rfl, Nat.zero_le _⟩
  joined := Nat.zero_le n
  total_eq := rfl

theorem collected_succ {j : Nat} (h : j < n) :
    collected prog result total (j + 1) =
      prog.collect (collected prog result total j) (result ⟨j, h⟩) := by
  unfold collected
  have hj : j < (List.finRange n).length := by simpa using h
  rw [List.take_succ_eq_append_getElem hj, List.foldl_append]
  simp

theorem Inv.step (hsep : Separated prog mem result) (h : Inv prog mem result total s)
    (hstep : Step prog s t) : Inv prog mem result total t := by
  cases hstep with
  | create hlt =>
      refine ⟨?_, hlt, fun i => ?_, h.joined, h.total_eq⟩
      · show (prog.create s.mem _).1 = memAfter prog mem (s.created + 1)
        rw [memAfter, dif_pos hlt, ← h.mem_eq]
      · show WorkerOk prog mem result (s.created + 1) i (Function.update s.worker _ _ i)
        by_cases hi : i = ⟨s.created, hlt⟩
        · subst hi
          right
          refine ⟨Nat.lt_succ_self _, Or.inl ?_⟩
          rw [Function.update_self, argOf, ← h.mem_eq]
        · have hne : i.val ≠ s.created := fun heq => hi (Fin.ext heq)
          rw [Function.update_of_ne hi]
          rcases h.worker i with ⟨habsent, hge⟩ | ⟨hlt, hworker⟩
          · exact Or.inl ⟨habsent, by omega⟩
          · exact Or.inr ⟨by omega, hworker⟩
  | @finish i arg hrunning =>
      refine ⟨h.mem_eq, h.created, fun j => ?_, h.joined, h.total_eq⟩
      show WorkerOk prog mem result s.created j (Function.update s.worker i _ j)
      by_cases hj : j = i
      · subst hj
        rw [Function.update_self]
        rcases h.worker j with ⟨habsent, -⟩ | ⟨hlt, harg | hres⟩
        · simp [habsent] at hrunning
        · -- it returns its result, whichever memory it sees
          rw [harg] at hrunning
          obtain rfl := Worker.running.inj hrunning
          right
          refine ⟨hlt, Or.inr ?_⟩
          rw [h.mem_eq, hsep j s.created hlt]
        · simp [hres] at hrunning
      · rw [Function.update_of_ne hj]
        exact h.worker j
  | @join hlt res hall hfinished =>
      refine ⟨h.mem_eq, h.created, h.worker, hlt, ?_⟩
      show prog.collect s.total res = _
      rcases h.worker ⟨s.joined, hlt⟩ with ⟨habsent, -⟩ | ⟨-, harg | hres⟩
      · simp [habsent] at hfinished
      · simp [harg] at hfinished
      · rw [hres] at hfinished
        rw [collected_succ hlt, ← h.total_eq, Worker.finished.inj hfinished]

theorem stepsLeft_lt (hstep : Step prog s t) : stepsLeft t < stepsLeft s := by
  classical
  cases hstep with
  | create hlt =>
      -- at most the new worker is running in addition
      have hcard : (Finset.univ.filter fun i => ∃ arg, Function.update s.worker ⟨s.created, hlt⟩
          (.running (prog.create s.mem ⟨s.created, hlt⟩).2) i = .running arg).card ≤
          (Finset.univ.filter fun i => ∃ arg, s.worker i = .running arg).card + 1 := by
        refine (Finset.card_le_card fun i hi => ?_).trans (Finset.card_insert_le ⟨s.created, hlt⟩ _)
        rw [Finset.mem_insert]
        by_cases heq : i = ⟨s.created, hlt⟩
        · exact Or.inl heq
        · simp only [Finset.mem_filter, Finset.mem_univ, true_and,
            Function.update_of_ne heq] at hi ⊢
          exact Or.inr hi
      simp only [stepsLeft]
      omega
  | @finish i arg hrunning =>
      have hcard : (Finset.univ.filter fun j => ∃ arg', Function.update s.worker i
          (.finished (prog.work s.mem arg)) j = .running arg').card <
          (Finset.univ.filter fun j => ∃ arg, s.worker j = .running arg).card := by
        apply Finset.card_lt_card
        refine Finset.ssubset_iff_of_subset (fun j hj => ?_) |>.mpr ⟨i, ?_, ?_⟩
        · by_cases heq : j = i
          · simp [heq] at hj
          · simpa [heq] using hj
        · simpa using ⟨arg, hrunning⟩
        · simp
      simp only [stepsLeft]
      omega
  | join hlt =>
      simp only [stepsLeft]
      omega

theorem Inv.goes_on (h : Inv prog mem result total s) (hmore : s.joined < n) :
    ∃ t, Step prog s t := by
  by_cases hcreate : s.created < n
  · exact ⟨_, .create s hcreate⟩
  · have hall : s.created = n := le_antisymm h.created (not_lt.mp hcreate)
    rcases h.worker ⟨s.joined, hmore⟩ with ⟨-, hge⟩ | ⟨-, harg | hres⟩
    · rw [hall] at hge
      exact absurd hmore (not_lt.mpr hge)
    · exact ⟨_, .finish s harg⟩
    · exact ⟨_, .join s hmore hall hres⟩

/-- **Fork and join.** Every execution ends, with all workers joined and their
results collected in order. -/
theorem always_ends (hsep : Separated prog mem result) (total : Total) :
    AlwaysEndsIn (Step prog)
      (fun s => s.joined = n ∧ s.total = collected prog result total n) (start mem total) := by
  refine alwaysEndsIn_of_inv (Inv prog mem result total) stepsLeft
    (fun a b h hstep => ⟨h.step hsep hstep, stepsLeft_lt hstep⟩) (fun a h => ?_) start_inv
  by_cases hmore : a.joined < n
  · exact Or.inr (h.goes_on hmore)
  · have hall : a.joined = n := le_antisymm h.joined (not_lt.mp hmore)
    have htotal := h.total_eq
    rw [hall] at htotal
    exact Or.inl ⟨hall, htotal⟩

end OsProjects.Lib.ForkJoin
