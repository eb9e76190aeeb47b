import Mathlib.Data.List.Basic
import Mathlib.Tactic

/-!
# Runs of a machine

A machine answers events with an output and a new state, or stops with a fault.
A run feeds it a list of events; `Along` says that a condition on the state
before each step and the event holds at every step of the run.

* **`Along.run_inv`** — an invariant kept by every step that meets the condition
  holds after every such run, and the run does not fault.
* **`Along.reached_inv`** — the same where a step may fault.
* **`Along.lockstep`** — two runs whose states stay related.
* **`along_iff`** — the condition, at every prefix of the run.
* **`reached_iff_along_partial`** — where a step that misses the condition breaks
  a property, the property holds in every state reached iff the condition holds
  along the run.
* **`run_bisim`** — two machines that answer every event alike, on different states.
* **`Along.refines`** — a machine whose steps can be followed by those of a
  specification: its runs are runs of the specification.
-/

namespace OsProjects.Lib.Runs

variable {σ ε ω : Type}

/-- A deterministic machine; `none` is a fault. -/
structure Machine (σ ε ω : Type) where
  step : σ → ε → Option (ω × σ)

namespace Machine

variable (M : Machine σ ε ω)

/-- The outputs and the final state of a run. -/
def run : σ → List ε → Option (List ω × σ)
  | s, [] => some ([], s)
  | s, e :: es =>
      (M.step s e).bind fun a => (run a.2 es).map fun r => (a.1 :: r.1, r.2)

/-- Every step of the run meets `ok`. -/
def Along (ok : σ → ε → Prop) : σ → List ε → Prop
  | _, [] => True
  | s, e :: es => ok s e ∧ ∀ o s', M.step s e = some (o, s') → Along ok s' es

variable {M} {ok : σ → ε → Prop} {s t : σ} {e : ε} {es : List ε} {o : ω} {os : List ω}

/-- Whether a condition holds along a run can be computed. -/
instance decidableAlong [∀ s e, Decidable (ok s e)] :
    (s : σ) → (es : List ε) → Decidable (M.Along ok s es)
  | _, [] => isTrue trivial
  | s, e :: es =>
      match hstep : M.step s e with
      | none => decidable_of_iff (ok s e)
          ⟨fun hok => ⟨hok, fun o t h => by simp [hstep] at h⟩, And.left⟩
      | some (o, t) =>
          have := decidableAlong t es
          decidable_of_iff (ok s e ∧ M.Along ok t es)
            ⟨fun h => ⟨h.1, fun o' t' h' => by cases hstep.symm.trans h'; exact h.2⟩,
              fun h => ⟨h.1, h.2 o t hstep⟩⟩

@[simp] theorem run_nil : M.run s [] = some ([], s) := rfl

theorem run_cons_of_step (hstep : M.step s e = some (o, t)) :
    M.run s (e :: es) = (M.run t es).map fun r => (o :: r.1, r.2) := by
  rw [run, hstep]
  rfl

theorem run_cons_inv {r : List ω × σ} (h : M.run s (e :: es) = some r) :
    ∃ o t os, M.step s e = some (o, t) ∧ M.run t es = some (os, r.2) ∧ r.1 = o :: os := by
  cases hstep : M.step s e with
  | none => simp [run, hstep] at h
  | some a =>
      obtain ⟨o, t⟩ := a
      rw [run_cons_of_step hstep, Option.map_eq_some_iff] at h
      obtain ⟨⟨os, u⟩, hrest, rfl⟩ := h
      exact ⟨o, t, os, rfl, hrest, rfl⟩

/-- An invariant kept by every step that meets the condition: the run does not
fault and ends in the invariant. -/
theorem Along.run_inv (Inv : σ → Prop)
    (hkeep : ∀ s e, Inv s → ok s e → ∃ o t, M.step s e = some (o, t) ∧ Inv t)
    (hs : Inv s) (h : M.Along ok s es) : ∃ os t, M.run s es = some (os, t) ∧ Inv t := by
  induction es generalizing s with
  | nil => exact ⟨[], s, rfl, hs⟩
  | cons e es ih =>
      obtain ⟨hok, hrest⟩ := h
      obtain ⟨o, t, hstep, ht⟩ := hkeep s e hs hok
      obtain ⟨os, u, hrun, hu⟩ := ih ht (hrest o t hstep)
      exact ⟨o :: os, u, by rw [run_cons_of_step hstep, hrun]; rfl, hu⟩

/-- The same for a machine that may fault: wherever the run ends, the invariant
holds. -/
theorem Along.reached_inv (Inv : σ → Prop)
    (hkeep : ∀ s e o t, Inv s → ok s e → M.step s e = some (o, t) → Inv t)
    (hs : Inv s) (h : M.Along ok s es) (hrun : M.run s es = some (os, t)) : Inv t := by
  induction es generalizing s os with
  | nil =>
      obtain ⟨-, rfl⟩ := Prod.mk.inj (Option.some.inj hrun)
      exact hs
  | cons e es ih =>
      obtain ⟨hok, hrest⟩ := h
      obtain ⟨o, u, os', hstep, hrun', -⟩ := run_cons_inv hrun
      exact ih (hkeep s e o u hs hok hstep) (hrest o u hstep) hrun'

/-- The condition holds along a run iff it holds at the end of each of its
prefixes. -/
theorem along_iff : M.Along ok s es ↔
    ∀ pre e os t, pre ++ [e] <+: es → M.run s pre = some (os, t) → ok t e := by
  induction es generalizing s with
  | nil => simp [Along]
  | cons e es ih =>
      constructor
      · rintro ⟨hok, hrest⟩ pre d os t hsub hrun
        cases pre with
        | nil =>
            obtain ⟨-, rfl⟩ := Prod.mk.inj (Option.some.inj hrun)
            obtain ⟨rest, heq⟩ := hsub
            obtain rfl : d = e := by simpa using (List.cons.inj heq).1
            exact hok
        | cons b pre =>
            obtain ⟨rest, heq⟩ := hsub
            obtain ⟨rfl, htail⟩ := List.cons.inj heq
            obtain ⟨o, u, os', hstep, hrest', -⟩ := run_cons_inv hrun
            exact ih.mp (hrest o u hstep) pre d os' t ⟨rest, htail⟩ hrest'
      · intro h
        refine ⟨h [] e [] s ⟨es, rfl⟩ rfl, fun o u hstep => ih.mpr ?_⟩
        rintro pre d os t ⟨rest, heq⟩ hrun
        refine h (e :: pre) d (o :: os) t ⟨rest, by rw [← heq]; rfl⟩ ?_
        rw [run_cons_of_step hstep, hrun]
        rfl

theorem Along.of_isPrefix {es' : List ε} (h : M.Along ok s es) (hsub : es' <+: es) :
    M.Along ok s es' :=
  along_iff.mpr fun pre e os t hpre hrun =>
    along_iff.mp h pre e os t (hpre.trans hsub) hrun

theorem Along.mono {ok' : σ → ε → Prop} (h : M.Along ok s es)
    (himp : ∀ s e, ok s e → ok' s e) : M.Along ok' s es :=
  along_iff.mpr fun pre e os t hpre hrun => himp t e (along_iff.mp h pre e os t hpre hrun)

theorem Along.and {ok' : σ → ε → Prop} (h : M.Along ok s es) (h' : M.Along ok' s es) :
    M.Along (fun s e => ok s e ∧ ok' s e) s es :=
  along_iff.mpr fun pre e os t hpre hrun =>
    ⟨along_iff.mp h pre e os t hpre hrun, along_iff.mp h' pre e os t hpre hrun⟩

/-- The events of the run may be used in the condition. -/
theorem Along.with_mem (h : M.Along ok s es) :
    M.Along (fun s e => e ∈ es ∧ ok s e) s es :=
  along_iff.mpr fun pre e os t hpre hrun =>
    ⟨hpre.subset (by simp), along_iff.mp h pre e os t hpre hrun⟩

/-- Two runs in lock-step: where related events keep the states related, the
second run does not fault before the first one, and the outputs are related
position by position. -/
theorem Along.lockstep {s' : σ} {es' : List ε} (R : σ → σ → Prop) (E : ε → ε → Prop)
    (Q : ε → ω → ω → Prop)
    (hstep : ∀ s s' e e' o t, R s s' → E e e' → ok s e → M.step s e = some (o, t) →
      ∃ o' t', M.step s' e' = some (o', t') ∧ R t t' ∧ Q e o o')
    (hs : R s s') (hes : List.Forall₂ E es es') (h : M.Along ok s es)
    (hrun : M.run s es = some (os, t)) :
    ∃ os' t', M.run s' es' = some (os', t') ∧
      ∀ (k : Nat) e, es[k]? = some e → ∃ o o', os[k]? = some o ∧ os'[k]? = some o' ∧ Q e o o' := by
  induction hes generalizing s s' os with
  | nil =>
      refine ⟨[], s', rfl, fun k e he => ?_⟩
      rw [List.getElem?_nil] at he
      cases he
  | @cons e e' es es' hee _ ih =>
      obtain ⟨hok, hrest⟩ := h
      obtain ⟨o, u, os', hfirst, hrun', hos⟩ := run_cons_inv hrun
      obtain rfl : os = o :: os' := hos
      obtain ⟨o', u', hfirst', hu, hQ⟩ := hstep s s' e e' o u hs hee hok hfirst
      obtain ⟨qs, t', hsecond, hout⟩ := ih hu (hrest o u hfirst) hrun'
      refine ⟨o' :: qs, t', by rw [run_cons_of_step hfirst', hsecond]; rfl, ?_⟩
      intro k d hd
      cases k with
      | zero =>
          obtain rfl : e = d := by simpa using hd
          exact ⟨o, o', rfl, rfl, hQ⟩
      | succ k => exact hout k d (by simpa using hd)

section Reached

variable (allowed : σ → ε → Prop) (Inv P : σ → Prop)

/-- Among the steps allowed in a run, those that meet the condition keep an
invariant that implies the property, the others break the property: then it
holds in all states reached exactly when the condition holds along the run. -/
theorem reached_iff_along_partial
    (hkeep : ∀ s e o t, Inv s → allowed s e → ok s e → M.step s e = some (o, t) → Inv t)
    (hP : ∀ s, Inv s → P s)
    (hbreak : ∀ s e, Inv s → allowed s e → ¬ ok s e → ∃ o t, M.step s e = some (o, t) ∧ ¬ P t)
    (hs : Inv s) (hallowed : M.Along allowed s es) :
    (∀ pre os t, pre <+: es → M.run s pre = some (os, t) → P t) ↔ M.Along ok s es := by
  constructor
  · intro hreach
    induction es generalizing s with
    | nil => trivial
    | cons e es ih =>
        obtain ⟨hmay, hallowed⟩ := hallowed
        have hok : ok s e := by
          by_contra hbad
          obtain ⟨o, t, hstep, hnot⟩ := hbreak s e hs hmay hbad
          refine hnot (hreach [e] [o] t ⟨es, rfl⟩ ?_)
          rw [run_cons_of_step hstep]
          rfl
        refine ⟨hok, fun o t hstep => ?_⟩
        refine ih (hkeep s e o t hs hmay hok hstep) (hallowed o t hstep)
          fun pre os u hsub hrun => hreach (e :: pre) (o :: os) u ?_ ?_
        · obtain ⟨rest, rfl⟩ := hsub
          exact ⟨rest, rfl⟩
        · rw [run_cons_of_step hstep, hrun]
          rfl
  · intro h pre os t hsub hrun
    exact hP t (((hallowed.and h).of_isPrefix hsub).reached_inv Inv
      (fun s e o t hs hboth => hkeep s e o t hs hboth.1 hboth.2) hs hrun)

/-- The same where the allowed steps that meet the condition do not fault. -/
theorem reached_iff_along_within
    (hkeep : ∀ s e, Inv s → allowed s e → ok s e → ∃ o t, M.step s e = some (o, t) ∧ Inv t)
    (hP : ∀ s, Inv s → P s)
    (hbreak : ∀ s e, Inv s → allowed s e → ¬ ok s e → ∃ o t, M.step s e = some (o, t) ∧ ¬ P t)
    (hs : Inv s) (hallowed : M.Along allowed s es) :
    (∀ pre os t, pre <+: es → M.run s pre = some (os, t) → P t) ↔ M.Along ok s es := by
  refine reached_iff_along_partial allowed Inv P ?_ hP hbreak hs hallowed
  intro s e o t hs hmay hok hstep
  obtain ⟨o', t', hstep', ht⟩ := hkeep s e hs hmay hok
  rw [hstep] at hstep'
  obtain ⟨-, rfl⟩ := Prod.mk.inj (Option.some.inj hstep')
  exact ht

/-- The same where every step is allowed. -/
theorem reached_iff_along
    (hkeep : ∀ s e, Inv s → ok s e → ∃ o t, M.step s e = some (o, t) ∧ Inv t)
    (hP : ∀ s, Inv s → P s)
    (hbreak : ∀ s e, Inv s → ¬ ok s e → ∃ o t, M.step s e = some (o, t) ∧ ¬ P t)
    (hs : Inv s) :
    (∀ pre os t, pre <+: es → M.run s pre = some (os, t) → P t) ↔ M.Along ok s es := by
  refine reached_iff_along_within (fun _ _ => True) Inv P (fun s e hs _ => hkeep s e hs) hP
    (fun s e hs _ => hbreak s e hs) hs ?_
  exact along_iff.mpr fun _ _ _ _ _ _ => trivial

end Reached

/-- Two machines that stop together and otherwise give the same output and stay
related: their runs do the same. -/
theorem run_bisim {τ : Type} {N : Machine τ ε ω} {u : τ} (R : σ → τ → Prop) (allowed : ε → Prop)
    (hstep : ∀ s u e, R s u → allowed e →
      (M.step s e = none ∧ N.step u e = none) ∨
        ∃ o s' u', M.step s e = some (o, s') ∧ N.step u e = some (o, u') ∧ R s' u')
    (hs : R s u) (hes : ∀ e ∈ es, allowed e) :
    (M.run s es = none ∧ N.run u es = none) ∨
      ∃ os s' u', M.run s es = some (os, s') ∧ N.run u es = some (os, u') ∧ R s' u' := by
  induction es generalizing s u with
  | nil => exact Or.inr ⟨[], s, u, rfl, rfl, hs⟩
  | cons e es ih =>
      rcases hstep s u e hs (hes e List.mem_cons_self) with
        ⟨hM, hN⟩ | ⟨o, s', u', hM, hN, hrel⟩
      · refine Or.inl ⟨?_, ?_⟩
        · rw [run, hM, Option.bind_none]
        · rw [run, hN, Option.bind_none]
      · rw [run_cons_of_step hM, run_cons_of_step hN]
        rcases ih hrel fun d hd => hes d (List.mem_cons_of_mem e hd) with
          ⟨hM', hN'⟩ | ⟨os, s'', u'', hM', hN', hrel'⟩
        · exact Or.inl ⟨by rw [hM', Option.map_none], by rw [hN', Option.map_none]⟩
        · exact Or.inr ⟨o :: os, s'', u'', by rw [hM', Option.map_some],
            by rw [hN', Option.map_some], hrel'⟩

end Machine

/-! ## Specifications -/

/-- A specification says which outputs and new states an event may lead to. -/
structure Spec (τ ε ω : Type) where
  step : τ → ε → ω → τ → Prop

/-- The runs a specification allows. -/
inductive Spec.Run {τ : Type} (S : Spec τ ε ω) : τ → List ε → List ω → τ → Prop
  | nil (a : τ) : Run S a [] [] a
  | cons {a b c : τ} {e : ε} {o : ω} {es : List ε} {os : List ω} :
      S.step a e o b → Run S b es os c → Run S a (e :: es) (o :: os) c

/-- Forward simulation along a run. -/
theorem Machine.Along.refines {τ : Type} {M : Machine σ ε ω} {S : Spec τ ε ω}
    {ok : σ → ε → Prop} {s t : σ} {a : τ} {es : List ε} {os : List ω} (R : σ → τ → Prop)
    (hstep : ∀ s e o s' a, R s a → ok s e → M.step s e = some (o, s') →
      ∃ a', S.step a e o a' ∧ R s' a')
    (hs : R s a) (h : M.Along ok s es) (hrun : M.run s es = some (os, t)) :
    ∃ b, S.Run a es os b ∧ R t b := by
  induction es generalizing s a os with
  | nil =>
      obtain ⟨rfl, rfl⟩ := Prod.mk.inj (Option.some.inj hrun)
      exact ⟨a, .nil a, hs⟩
  | cons e es ih =>
      obtain ⟨hok, hrest⟩ := h
      obtain ⟨o, u, os', hfirst, hrun', hos⟩ := Machine.run_cons_inv hrun
      obtain rfl : os = o :: os' := hos
      obtain ⟨a', ha', hu⟩ := hstep s e o u a hs hok hfirst
      obtain ⟨b, hb, ht⟩ := ih hu (hrest o u hfirst) hrun'
      exact ⟨b, .cons ha' hb, ht⟩

end OsProjects.Lib.Runs
