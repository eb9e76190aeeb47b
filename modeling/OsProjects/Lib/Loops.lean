import Mathlib.Logic.Relation
import Mathlib.Tactic

/-!
# While loops

A loop is the function `body` that performs one iteration, or gives `none` when
the loop is left. `loop` runs it with fuel; `Reaches` relates the states at the
loop head.

* **`exists_loop`** — a loop whose iterations decrease a measure is left.
* **`good_at_exit`** — a property that some iterations break and others repair
  holds at the exit when every break is followed by a repair.
* **`trace`** — the labels of the iterations, in order; a loop with the same
  iterations has the same outcome (`loop_congr`).
-/

namespace OsProjects.Lib.Loops

variable {σ : Type} {body : σ → Option σ}

/-- The state in which the loop is left, if that takes less than `fuel`
iterations. -/
def loop (body : σ → Option σ) : (fuel : Nat) → σ → Option σ
  | 0, _ => none
  | fuel + 1, s =>
      match body s with
      | none => some s
      | some t => loop body fuel t

/-- Some number of iterations leads from one state to the other. -/
def Reaches (body : σ → Option σ) : σ → σ → Prop :=
  Relation.ReflTransGen fun a b => body a = some b

theorem Reaches.refl (s : σ) : Reaches body s s := Relation.ReflTransGen.refl

theorem Reaches.head {s t u : σ} (hstep : body s = some t) (h : Reaches body t u) :
    Reaches body s u :=
  Relation.ReflTransGen.head hstep h

/-- The body is a function: after its first iteration a path is at the next
state. -/
theorem Reaches.eq_or_next {s t u : σ} (h : Reaches body s u) (hstep : body s = some t) :
    u = s ∨ Reaches body t u := by
  rcases Relation.ReflTransGen.cases_head h with rfl | ⟨t', hstep', hrest⟩
  · exact Or.inl rfl
  · rw [hstep] at hstep'
    exact Or.inr (Option.some.inj hstep' ▸ hrest)

theorem Reaches.eq_of_exit {s u : σ} (h : Reaches body s u) (hexit : body s = none) : u = s := by
  rcases Relation.ReflTransGen.cases_head h with rfl | ⟨t, hstep, -⟩
  · rfl
  · simp [hexit] at hstep

/-- The path to the exit goes through the next state. -/
theorem Reaches.next {s t u : σ} (h : Reaches body s t) (hexit : body t = none)
    (hstep : body s = some u) : Reaches body u t := by
  rcases h.eq_or_next hstep with rfl | hrest
  · simp [hexit] at hstep
  · exact hrest

/-- Every state on the way to the exit reaches it. -/
theorem Reaches.to_exit {s t u : σ} (hu : Reaches body s u) (ht : Reaches body s t)
    (hexit : body t = none) : Reaches body u t := by
  induction hu with
  | refl => exact ht
  | tail _ hstep ih => exact ih.next hexit hstep

/-- An invariant of the body holds in every state reached. -/
theorem Reaches.inv (Inv : σ → Prop) (hkeep : ∀ s t, Inv s → body s = some t → Inv t)
    {s t : σ} (h : Reaches body s t) (hs : Inv s) : Inv t := by
  induction h with
  | refl => exact hs
  | tail _ hstep ih => exact hkeep _ _ ih hstep

theorem loop_some {fuel : Nat} {s t : σ} (h : loop body fuel s = some t) :
    Reaches body s t ∧ body t = none := by
  induction fuel generalizing s with
  | zero => simp [loop] at h
  | succ fuel ih =>
      rw [loop] at h
      cases hbody : body s with
      | none =>
          rw [hbody] at h
          obtain rfl : s = t := Option.some.inj h
          exact ⟨.refl s, hbody⟩
      | some u =>
          rw [hbody] at h
          obtain ⟨hreach, hexit⟩ := ih h
          exact ⟨.head hbody hreach, hexit⟩

/-- The fuel does not change the outcome. -/
theorem loop_unique {fuel fuel' : Nat} {s t t' : σ} (h : loop body fuel s = some t)
    (h' : loop body fuel' s = some t') : t' = t := by
  obtain ⟨hreach, hexit⟩ := loop_some h
  obtain ⟨hreach', hexit'⟩ := loop_some h'
  exact (hreach.to_exit hreach' hexit').eq_of_exit hexit

/-- A loop whose iterations decrease a well-founded measure is left. -/
theorem exists_loop {α : Type} {lt : α → α → Prop} (hwf : WellFounded lt) (measure : σ → α)
    (Inv : σ → Prop)
    (hdec : ∀ s t, Inv s → body s = some t → Inv t ∧ lt (measure t) (measure s))
    {s : σ} (hs : Inv s) : ∃ fuel t, loop body fuel s = some t := by
  induction hm : measure s using hwf.induction generalizing s with
  | h m ih =>
      cases hbody : body s with
      | none => exact ⟨1, s, by simp [loop, hbody]⟩
      | some u =>
          obtain ⟨hu, hlt⟩ := hdec s u hs hbody
          obtain ⟨fuel, t, hloop⟩ := ih (measure u) (hm ▸ hlt) hu rfl
          exact ⟨fuel + 1, t, by rw [loop, hbody]; exact hloop⟩

section Repair

variable {Inv Good Break Repair : σ → Prop}

/-- Every break on the way from `s` is later repaired. -/
def Repaired (body : σ → Option σ) (Break Repair : σ → Prop) (s : σ) : Prop :=
  ∀ u, Reaches body s u → Break u → ∃ v, Reaches body u v ∧ Repair v

/-- A property that only breaking iterations lose and repairing iterations
restore holds at the exit, if every break is later repaired. -/
theorem good_at_exit (hinv : ∀ s t, Inv s → body s = some t → Inv t)
    (hkeep : ∀ s t, Inv s → Good s → ¬ Break s → body s = some t → Good t)
    (hrepair : ∀ s t, Inv s → Repair s → body s = some t → Good t)
    (hgoes : ∀ s, Repair s → body s ≠ none)
    {s t : σ} (hs : Inv s) (hgood : Good s) (hrepaired : Repaired body Break Repair s)
    (hreach : Reaches body s t) (hexit : body t = none) : Good t := by
  -- carried along the path: the property holds or a repair is still to come
  have hstate : Inv t ∧ (Good t ∨ ∃ v, Reaches body t v ∧ Repair v) := by
    clear hexit
    induction hreach with
    | refl => exact ⟨hs, Or.inl hgood⟩
    | @tail a b ha hstep ih =>
        obtain ⟨hinva, hor⟩ := ih
        refine ⟨hinv a b hinva hstep, ?_⟩
        have hpending : ∀ v, Reaches body a v → Repair v →
            Good b ∨ ∃ v, Reaches body b v ∧ Repair v := by
          intro v hav hv
          rcases hav.eq_or_next hstep with rfl | hbv
          · exact Or.inl (hrepair _ b hinva hv hstep)
          · exact Or.inr ⟨v, hbv, hv⟩
        rcases hor with hgooda | ⟨v, hav, hv⟩
        · by_cases hbreak : Break a
          · obtain ⟨v, hav, hv⟩ := hrepaired a ha hbreak
            exact hpending v hav hv
          · exact Or.inl (hkeep a b hinva hgooda hbreak hstep)
        · exact hpending v hav hv
  rcases hstate.2 with hgood | ⟨v, htv, hv⟩
  · exact hgood
  · exact absurd (htv.eq_of_exit hexit ▸ hexit) (hgoes v hv)

/-- What only a repair can end goes on when no repair comes. -/
theorem Reaches.keep_of_no_repair {Lost : σ → Prop}
    (hinv : ∀ s t, Inv s → body s = some t → Inv t)
    (hlost : ∀ s t, Inv s → Lost s → ¬ Repair s → body s = some t → Lost t)
    {s t : σ} (hs : Inv s) (hlosts : Lost s) (hnever : ∀ v, Reaches body s v → ¬ Repair v)
    (hreach : Reaches body s t) : Lost t := by
  have hstate : Inv t ∧ Lost t := by
    induction hreach with
    | refl => exact ⟨hs, hlosts⟩
    | @tail a b ha hstep ih =>
        exact ⟨hinv a b ih.1 hstep, hlost a b ih.1 ih.2 (hnever a ha) hstep⟩
  exact hstate.2

end Repair

section Labels

variable {α : Type} {label : σ → Option α}

/-- What the first `n` iterations do, where `label` says what the iteration from
a state does. -/
def trace (body : σ → Option σ) (label : σ → Option α) : (n : Nat) → σ → List α
  | 0, _ => []
  | n + 1, s =>
      match body s with
      | none => []
      | some t => (label s).toList ++ trace body label n t

theorem trace_step {n : Nat} {s t : σ} (hstep : body s = some t) :
    trace body label (n + 1) s = (label s).toList ++ trace body label n t := by
  rw [trace, hstep]

theorem trace_exit {n : Nat} {s : σ} (hexit : body s = none) : trace body label n s = [] := by
  cases n with
  | zero => rfl
  | succ n => rw [trace, hexit]

/-- A label of the trace comes from an iteration, and the labels behind it are
the trace from the next state. -/
theorem trace_split {n : Nat} {s : σ} {before after : List α} {a : α}
    (h : trace body label n s = before ++ a :: after) :
    ∃ u t m, Reaches body s u ∧ label u = some a ∧ body u = some t ∧
      trace body label m t = after := by
  induction n generalizing s before with
  | zero => simp [trace] at h
  | succ n ih =>
      cases hstep : body s with
      | none => simp [trace_exit hstep] at h
      | some t =>
          rw [trace_step hstep] at h
          cases hlabel : label s with
          | none =>
              rw [hlabel] at h
              obtain ⟨u, t', m, hreach, hrest⟩ := ih h
              exact ⟨u, t', m, .head hstep hreach, hrest⟩
          | some b =>
              rw [hlabel] at h
              cases before with
              | nil =>
                  obtain ⟨rfl, htail⟩ := List.cons.inj h
                  exact ⟨s, t, n, .refl s, hlabel, hstep, htail⟩
              | cons c before =>
                  obtain ⟨u, t', m, hreach, hrest⟩ := ih (List.cons.inj h).2
                  exact ⟨u, t', m, .head hstep hreach, hrest⟩

/-- Two bodies that agree in the states of an invariant have the same runs. -/
theorem loop_congr {body' : σ → Option σ} (Inv : σ → Prop)
    (hkeep : ∀ s t, Inv s → body s = some t → Inv t) (heq : ∀ s, Inv s → body s = body' s)
    {fuel : Nat} {s : σ} (hs : Inv s) : loop body fuel s = loop body' fuel s := by
  induction fuel generalizing s with
  | zero => rfl
  | succ fuel ih =>
      rw [loop, loop, ← heq s hs]
      cases hstep : body s with
      | none => rfl
      | some t => exact ih (hkeep s t hs hstep)

end Labels

end OsProjects.Lib.Loops
