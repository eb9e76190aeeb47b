import Mathlib.Data.List.Nodup
import Mathlib.Tactic

/-!
# Chains through a table of links

A table gives every cell a link: the pointer to another cell, or the end mark.
`Chain table v l` says that following the links from `v` visits exactly the
cells `l` and then meets the end mark.

* **`Chain.unique`**, **`Chain.nodup`** — the table determines the chain, and a
  chain that ends visits no cell twice.
* **`Chain.frame`** — a chain depends on the links of its own cells only.
* **`Chain.splice`** — a chain continued by relinking its last cell.
* **`Chain.reroute`** — a chain some of whose cells have been relinked.
-/

namespace OsProjects.Lib

/-- How cells are named in the table: injective pointers, and an end mark that
is none of them. -/
structure Pointers (ι ν : Type) where
  ptr : ι → ν
  eof : ν
  ptr_inj : ∀ {i j}, ptr i = ptr j → i = j
  ptr_ne_eof : ∀ i, ptr i ≠ eof

namespace Pointers

variable {ι ν : Type}

/-- The links from `v` lead through the cells `l` to the end mark. -/
inductive Chain (L : Pointers ι ν) (table : ι → ν) : ν → List ι → Prop
  | eof : Chain L table L.eof []
  | link {i l} : Chain L table (table i) l → Chain L table (L.ptr i) (i :: l)

variable {L : Pointers ι ν} {table table' : ι → ν} {v : ν} {l l' : List ι} {i : ι}

theorem Chain.eq_eof (h : L.Chain table v []) : v = L.eof := by
  cases h
  rfl

theorem Chain.eq_ptr (h : L.Chain table v (i :: l)) : v = L.ptr i := by
  cases h
  rfl

theorem Chain.tail (h : L.Chain table v (i :: l)) : L.Chain table (table i) l := by
  cases h with
  | link hrest => exact hrest

theorem Chain.unique (h : L.Chain table v l) (h' : L.Chain table v l') : l = l' := by
  induction h generalizing l' with
  | eof =>
      cases l' with
      | nil => rfl
      | cons j l' => exact absurd h'.eq_ptr.symm (L.ptr_ne_eof j)
  | @link i l _ ih =>
      cases l' with
      | nil => exact absurd h'.eq_eof (L.ptr_ne_eof i)
      | cons j l' =>
          obtain rfl := L.ptr_inj h'.eq_ptr
          rw [ih h'.tail]

/-- The chain from a cell in the middle. -/
theorem Chain.from_mem {front back : List ι} (h : L.Chain table v (front ++ i :: back)) :
    L.Chain table (L.ptr i) (i :: back) := by
  induction front generalizing v with
  | nil => exact h.eq_ptr ▸ h
  | cons j front ih => exact ih h.tail

/-- Coming back to a cell, the chain would never end. -/
theorem Chain.nodup (h : L.Chain table v l) : l.Nodup := by
  induction h with
  | eof => exact List.nodup_nil
  | @link i l hrest ih =>
      refine List.nodup_cons.mpr ⟨fun hmem => ?_, ih⟩
      obtain ⟨front, back, rfl⟩ := List.append_of_mem hmem
      have heq := hrest.unique hrest.from_mem.tail
      have hlen := congrArg List.length heq
      simp only [List.length_append, List.length_cons] at hlen
      omega

/-- Only the links of its own cells matter to a chain. -/
theorem Chain.frame (h : L.Chain table v l) (hsame : ∀ i ∈ l, table' i = table i) :
    L.Chain table' v l := by
  induction h with
  | eof => exact .eof
  | @link i l _ ih =>
      refine .link ?_
      rw [hsame i List.mem_cons_self]
      exact ih fun j hj => hsame j (List.mem_cons_of_mem i hj)

theorem Chain.last_link {last : ι} (h : L.Chain table v (l ++ [last])) :
    table last = L.eof :=
  h.from_mem.tail.eq_eof

/-- The chain up to its last cell, continued by another one from there. -/
theorem Chain.splice {last : ι} {rest : List ι} (h : L.Chain table v (l ++ [last]))
    (hsame : ∀ i ∈ l, table' i = table i)
    (hrest : L.Chain table' (L.ptr last) (last :: rest)) :
    L.Chain table' v (l ++ last :: rest) := by
  induction l generalizing v with
  | nil => exact h.eq_ptr ▸ hrest
  | cons i l ih =>
      have hi := hsame i List.mem_cons_self
      rw [h.eq_ptr]
      refine .link ?_
      rw [hi]
      exact ih h.tail fun j hj => hsame j (List.mem_cons_of_mem i hj)

/-- The new way of a chain: it never meets a changed cell, or it goes the old way
up to the first one and from there through cells of `onward`. -/
def Rerouted (changed onward old new : List ι) : Prop :=
  new = old ∧ (∀ i ∈ old, i ∉ changed) ∨
    ∃ front i back rest, old = front ++ i :: back ∧ i ∈ changed ∧
      (∀ j ∈ front, j ∉ changed) ∧ new = front ++ i :: rest ∧ rest ⊆ onward

theorem Rerouted.subset {changed onward old new : List ι} (h : Rerouted changed onward old new) :
    new ⊆ old ++ onward := by
  rcases h with ⟨rfl, -⟩ | ⟨front, i, back, rest, rfl, -, -, rfl, hrest⟩
  · exact List.subset_append_left _ _
  · intro j hj
    rcases List.mem_append.mp hj with hfront | htail
    · simp [hfront]
    · rcases List.mem_cons.mp htail with rfl | hj
      · simp
      · exact List.mem_append_right _ (hrest hj)

/-- A chain that meets no changed cell has not changed. -/
theorem Rerouted.eq_of_disjoint {changed onward old new : List ι}
    (h : Rerouted changed onward old new) (hdisjoint : old.Disjoint changed) : new = old := by
  rcases h with ⟨heq, -⟩ | ⟨front, i, back, rest, rfl, hi, -⟩
  · exact heq
  · exact absurd hi (hdisjoint (by simp))

/-- When every changed cell still leads to the end mark, so does every chain. -/
theorem Chain.reroute [DecidableEq ι] {changed onward : List ι} (h : L.Chain table v l)
    (hsame : ∀ i, i ∉ changed → table' i = table i)
    (honward : ∀ i ∈ changed, ∃ rest, L.Chain table' (L.ptr i) (i :: rest) ∧ rest ⊆ onward) :
    ∃ l', L.Chain table' v l' ∧ Rerouted changed onward l l' := by
  induction h with
  | eof => exact ⟨[], .eof, Or.inl ⟨rfl, by simp⟩⟩
  | @link i l _ ih =>
      by_cases hi : i ∈ changed
      · obtain ⟨rest, hchain, hrest⟩ := honward i hi
        exact ⟨i :: rest, hchain, Or.inr ⟨[], i, l, rest, rfl, hi, by simp, rfl, hrest⟩⟩
      · obtain ⟨l', hchain, hroute⟩ := ih
        rw [← hsame i hi] at hchain
        refine ⟨i :: l', .link hchain, ?_⟩
        rcases hroute with ⟨rfl, hnone⟩ | ⟨front, j, back, rest, rfl, hj, hfront, rfl, hrest⟩
        · exact Or.inl ⟨rfl, by simpa [hi] using hnone⟩
        · exact Or.inr ⟨i :: front, j, back, rest, rfl, hj, by simpa [hi] using hfront, rfl, hrest⟩

/-- A link inside a chain points to a later cell of the chain or is the end
mark. -/
theorem Chain.link_of_mem {first : ι} (h : L.Chain table v (first :: l)) (hi : i ∈ first :: l) :
    table i = L.eof ∨ ∃ j ∈ l, table i = L.ptr j := by
  obtain ⟨front, back, hsplit⟩ := List.append_of_mem hi
  rw [hsplit] at h
  have hrest := h.from_mem.tail
  cases back with
  | nil => exact Or.inl hrest.eq_eof
  | cons j back =>
      refine Or.inr ⟨j, ?_, hrest.eq_ptr⟩
      cases front with
      | nil =>
          obtain ⟨-, rfl⟩ := List.cons.inj hsplit
          exact List.mem_cons_self
      | cons k front =>
          obtain ⟨-, rfl⟩ := List.cons.inj hsplit
          simp

end Pointers

end OsProjects.Lib
