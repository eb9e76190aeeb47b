import Mathlib.Algebra.Order.Round
import Mathlib.Tactic

/-!
# Rounding to the nearest number

A machine computes the exact result of an operation and rounds it to a nearest number that
it can represent. Which numbers these are and how ties are broken is left open.

* **`Rounding.round_mono`** — rounding keeps the order.
* **`Rounding.le_round_add`** — adding what is not negative does not lead back.
-/

namespace OsProjects.Lib.Nearest

structure Rounding (K : Type) [Field K] [LinearOrder K] where
  representable : Set K
  round : K → K
  round_mem : ∀ x, round x ∈ representable
  nearest : ∀ x, ∀ d ∈ representable, |round x - x| ≤ |d - x|
  zero_mem : 0 ∈ representable

namespace Rounding

variable {K : Type} [Field K] [LinearOrder K] [IsStrictOrderedRing K] (ρ : Rounding K) {x d : K}

theorem round_of_mem (hx : x ∈ ρ.representable) : ρ.round x = x := by
  have hle := ρ.nearest x x hx
  rw [sub_self, abs_zero] at hle
  exact sub_eq_zero.mp (abs_eq_zero.mp (le_antisymm hle (abs_nonneg _)))

theorem round_mono : Monotone ρ.round := by
  intro x y hxy
  by_contra hlt
  rw [not_le] at hlt
  -- with the results in the wrong order, `x` is above their middle and `y` below it
  have hx : ρ.round y + ρ.round x ≤ 2 * x := by
    have hsq := sq_le_sq.mpr (ρ.nearest x _ (ρ.round_mem y))
    nlinarith
  have hy : 2 * y ≤ ρ.round y + ρ.round x := by
    have hsq := sq_le_sq.mpr (ρ.nearest y _ (ρ.round_mem x))
    nlinarith
  obtain rfl : x = y := by linarith
  exact lt_irrefl _ hlt

theorem le_round_add (hx : x ∈ ρ.representable) (hd : 0 ≤ d) : x ≤ ρ.round (x + d) :=
  calc x = ρ.round x := (ρ.round_of_mem hx).symm
    _ ≤ ρ.round (x + d) := ρ.round_mono (le_add_of_nonneg_right hd)

theorem round_nonneg (hx : 0 ≤ x) : 0 ≤ ρ.round x :=
  (ρ.le_round_add ρ.zero_mem hx).trans_eq (by rw [zero_add])

end Rounding

/-- Rounding to a multiple of `unit`, as in a fixed-point format. -/
def gridRounding {K : Type} [Field K] [LinearOrder K] [IsStrictOrderedRing K] [FloorRing K]
    (unit : K) (hunit : 0 < unit) : Rounding K where
  representable := Set.range fun z : ℤ => z * unit
  round x := round (x / unit) * unit
  round_mem x := ⟨_, rfl⟩
  nearest := by
    rintro x _ ⟨z, rfl⟩
    have hle := round_le (x / unit) z
    have hscale : ∀ y : K, |y * unit - x| = |x / unit - y| * unit := fun y => by
      rw [← abs_of_pos hunit, ← abs_mul, abs_of_pos hunit, abs_sub_comm, sub_mul,
        div_mul_cancel₀ x hunit.ne']
    rw [hscale, hscale]
    exact mul_le_mul_of_nonneg_right hle hunit.le
  zero_mem := ⟨0, by simp⟩

end OsProjects.Lib.Nearest
