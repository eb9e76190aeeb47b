import Mathlib.Data.List.Basic
import Mathlib.Tactic

/-!
# Growable arrays

An array that lives in one block of memory and is reallocated when the block is full. A
`Block` knows which of its cells have been written; reading another cell, or a cell
outside the block, gives nothing, and neither does writing outside it. `Holds` relates a
block to the list of its elements: appending never fails, and the room taken and the
cells copied stay linear in the number of elements (`Holds.push`).
-/

namespace OsProjects.Lib.Growable

variable {α : Type*}

/-- A block of memory whose first `used` cells are in use. A cell is `none` until it is
written; `moved` counts the cells that reallocation has copied. -/
structure Block (α : Type*) where
  cells : List (Option α)
  used : Nat
  moved : Nat
  deriving DecidableEq, Repr

namespace Block

def cap (b : Block α) : Nat := b.cells.length

/-- A new block of `cap` cells. -/
def alloc (cap : Nat) : Block α := ⟨List.replicate cap none, 0, 0⟩

def read (b : Block α) (i : Nat) : Option α := b.cells[i]?.join

def write (b : Block α) (i : Nat) (x : α) : Option (Block α) :=
  if i < b.cap then some { b with cells := b.cells.set i (some x) } else none

def realloc (b : Block α) (cap : Nat) : Block α :=
  { b with
    cells := b.cells.take cap ++ List.replicate (cap - b.cap) none
    moved := b.moved + min b.cap cap }

/-- Use the next cell. -/
def store (b : Block α) (x : α) : Option (Block α) :=
  (b.write b.used x).map fun b => { b with used := b.used + 1 }

/-- Append an element, after growing a full block to `grow` of its size. -/
def push (grow : Nat → Nat) (b : Block α) (x : α) : Option (Block α) :=
  (if b.used = b.cap then b.realloc (grow b.cap) else b).store x

/-- The cells in use, read one after the other. -/
def contents (b : Block α) : Option (List α) := (List.range b.used).mapM b.read

/-- The block holds the elements of `l`; it has at most twice as many cells, or `first`,
and no more cells than these have been copied. -/
structure Holds (first : Nat) (b : Block α) (l : List α) : Prop where
  used : b.used = l.length
  cells : ∃ free, b.cells = l.map some ++ free
  cap_le : b.cap ≤ max first (2 * l.length)
  moved_le : b.moved ≤ b.cap

variable {first : Nat} {b : Block α} {l : List α}

theorem Holds.used_le_cap (h : b.Holds first l) : b.used ≤ b.cap := by
  obtain ⟨free, hcells⟩ := h.cells
  rw [h.used, cap, hcells, List.length_append, List.length_map]
  exact Nat.le_add_right _ _

theorem Holds.read (h : b.Holds first l) {i : Nat} (hi : i < l.length) :
    b.read i = some l[i] := by
  obtain ⟨free, hcells⟩ := h.cells
  simp [Block.read, hcells, List.getElem?_append_left, hi]

theorem Holds.contents (h : b.Holds first l) : b.contents = some l := by
  have hread : ∀ n ≤ l.length, (List.range n).mapM b.read = some (l.take n) := by
    intro n
    induction n with
    | zero => intro _; rfl
    | succ n ih =>
        intro hn
        rw [List.range_succ, List.mapM_append, ih (by omega), List.mapM_cons, h.read hn,
          List.mapM_nil, List.take_succ_eq_append_getElem hn]
        rfl
  rw [Block.contents, h.used, hread l.length (Nat.le_refl _), List.take_length]

/-- A block is grown to at least twice its size, and to no more than that or `first`. -/
structure Grows (first : Nat) (grow : Nat → Nat) (c : Nat) : Prop where
  lt : c < grow c
  double_le : 2 * c ≤ grow c
  le : grow c ≤ max first (2 * c)

theorem cap_realloc {c : Nat} (h : b.cap ≤ c) : (b.realloc c).cap = c := by
  rw [cap] at h
  simp only [realloc, cap, List.length_append, List.length_take, List.length_replicate]
  omega

theorem Holds.realloc {grow : Nat → Nat} (h : b.Holds first l) (hfull : b.used = b.cap)
    (hgrow : Grows first grow b.cap) : (b.realloc (grow b.cap)).Holds first l := by
  obtain ⟨free, hcells⟩ := h.cells
  have hlt := hgrow.lt
  refine ⟨h.used, ?_, ?_, ?_⟩
  · refine ⟨free ++ List.replicate (grow b.cap - b.cap) none, ?_⟩
    show b.cells.take (grow b.cap) ++ _ = _
    rw [List.take_of_length_le hlt.le, hcells, List.append_assoc]
  · rw [cap_realloc hlt.le, ← h.used, hfull]
    exact hgrow.le
  · rw [cap_realloc hlt.le]
    show b.moved + min b.cap (grow b.cap) ≤ grow b.cap
    have hmoved := h.moved_le
    have hdouble := hgrow.double_le
    omega

theorem Holds.store (h : b.Holds first l) (hroom : b.used < b.cap) (x : α) :
    ∃ b', b.store x = some b' ∧ b'.Holds first (l ++ [x]) ∧ b'.cap = b.cap := by
  obtain ⟨free, hcells⟩ := h.cells
  obtain ⟨cell, free, rfl⟩ : ∃ cell rest, free = cell :: rest := by
    apply List.exists_cons_of_ne_nil
    rintro rfl
    rw [h.used, cap, hcells] at hroom
    simp at hroom
  have hset : b.cells.set b.used (some x) = (l ++ [x]).map some ++ free := by
    rw [hcells, h.used, List.set_append_right _ _ (by simp)]
    simp
  have hcap : b.cap = l.length + 1 + free.length := by
    rw [cap, hcells]
    simp only [List.length_append, List.length_map, List.length_cons]
    omega
  refine ⟨⟨b.cells.set b.used (some x), b.used + 1, b.moved⟩, ?_, ⟨?_, ⟨free, hset⟩, ?_, ?_⟩, ?_⟩
  · rw [Block.store, write, if_pos hroom]
    rfl
  · simp [h.used]
  · have := h.cap_le
    simp only [cap, List.length_set, List.length_append, List.length_singleton] at this ⊢
    omega
  · have := h.moved_le
    simpa [cap] using this
  · simp [cap]

/-- **Appending** never fails; the elements stay in the block, which does not shrink. -/
theorem Holds.push {grow : Nat → Nat} (h : b.Holds first l) (hgrow : Grows first grow b.cap)
    (x : α) : ∃ b', b.push grow x = some b' ∧ b'.Holds first (l ++ [x]) ∧ b.cap ≤ b'.cap := by
  have hlt := hgrow.lt
  have hused := h.used_le_cap
  by_cases hfull : b.used = b.cap
  · have hcap := cap_realloc hlt.le
    obtain ⟨b', hstore, hholds, hsame⟩ :=
      (h.realloc hfull hgrow).store (show b.used < (b.realloc (grow b.cap)).cap by omega) x
    exact ⟨b', by rw [Block.push, if_pos hfull, hstore], hholds, by omega⟩
  · obtain ⟨b', hstore, hholds, hsame⟩ := h.store (by omega) x
    exact ⟨b', by rw [Block.push, if_neg hfull, hstore], hholds, by omega⟩

end Block

end OsProjects.Lib.Growable
