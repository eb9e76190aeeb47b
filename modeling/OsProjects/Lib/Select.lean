import Mathlib.Data.List.MinMax
import Mathlib.Tactic

/-!
# Selecting the best element of an array

The loop that scans an array and remembers the best eligible element seen so
far, with a strict comparison so that the first of several equal elements
stays. It finds an element exactly when one is eligible (`select_eq_none`), and
no eligible element is better than the one it finds (`select_best`).
-/

namespace OsProjects.Lib.Select

variable {α : Type} (eligible : α → Bool) (better : α → α → Bool)

/-- One iteration of the scan. -/
def pass (best : Option α) (x : α) : Option α :=
  if eligible x then
    match best with
    | none => some x
    | some y => if better x y then some x else some y
  else best

/-- The scan of a whole array. -/
def select (l : List α) : Option α := l.foldl (pass eligible better) none

variable {eligible better} {l : List α} {x y : α}

theorem select_eq_argAux :
    select eligible better l =
      (l.filter eligible).foldl (List.argAux fun x y => better x y = true) none := by
  rw [List.foldl_filter]
  unfold select
  congr 1
  funext best x
  unfold pass
  cases best <;> rfl

theorem select_eq_none : select eligible better l = none ↔ ∀ x ∈ l, eligible x = false := by
  rw [select_eq_argAux, List.foldl_argAux_eq_none]
  simp

theorem select_isSome (hmem : x ∈ l) (hx : eligible x = true) :
    ∃ y, select eligible better l = some y := by
  cases h : select eligible better l with
  | some y => exact ⟨y, rfl⟩
  | none => simp [select_eq_none.mp h x hmem] at hx

theorem pass_foldl_mem {best : Option α} (h : l.foldl (pass eligible better) best = some y) :
    best = some y ∨ y ∈ l ∧ eligible y = true := by
  induction l generalizing best with
  | nil => exact Or.inl h
  | cons x l ih =>
      rcases ih h with hpass | ⟨hmem, hy⟩
      · -- the scan ended with what it had after `x`
        unfold pass at hpass
        split_ifs at hpass with hx
        · cases best with
          | none => exact Or.inr ⟨by simp [Option.some.inj hpass], Option.some.inj hpass ▸ hx⟩
          | some z =>
              replace hpass : (if better x z then some x else some z) = some y := hpass
              split_ifs at hpass
              · exact Or.inr ⟨by simp [Option.some.inj hpass], Option.some.inj hpass ▸ hx⟩
              · exact Or.inl hpass
        · exact Or.inl hpass
      · exact Or.inr ⟨List.mem_cons_of_mem x hmem, hy⟩

theorem select_mem (h : select eligible better l = some y) : y ∈ l ∧ eligible y = true := by
  rcases pass_foldl_mem h with h | h
  · simp at h
  · exact h

/-- Nothing eligible is better than the element found. -/
theorem select_best (hirrefl : ∀ x, better x x = false)
    (htrans : ∀ x y z, better x y = true → better y z = true → better x z = true)
    (h : select eligible better l = some y) (hmem : x ∈ l) (hx : eligible x = true) :
    better x y = false := by
  rw [select_eq_argAux] at h
  have hbest := List.not_of_mem_foldl_argAux (fun x y => better x y = true)
    ⟨fun x hx => by simp [hirrefl x] at hx⟩ ⟨htrans⟩
    (List.mem_filter.mpr ⟨hmem, hx⟩) h
  simpa using hbest

end OsProjects.Lib.Select
