import Mathlib.Data.List.Rotate
import Mathlib.Tactic

/-!
# Circular arrays

An array read cyclically from an index is a queue: the entry at the index is its
head, and overwriting that entry and moving the index on by one is removing the
head and appending at the tail.
-/

namespace OsProjects.Lib.Ring

variable {α β : Type*}

/-- The entry at the index is the head of the queue. -/
theorem rotate_eq_cons {l : List α} {i : Nat} (hi : i < l.length) :
    l.rotate i = l[i] :: (l.rotate i).tail := by
  rw [List.rotate_eq_drop_append_take hi.le, List.drop_eq_getElem_cons hi]
  rfl

/-- The first entries after the next free one is written. -/
theorem take_set_succ {l : List α} {n : Nat} (hn : n < l.length) (x : α) :
    (l.set n x).take (n + 1) = l.take n ++ [x] := by
  rw [List.take_add_one, List.getElem?_set_self hn, List.take_set_of_le (Nat.le_refl n)]
  rfl

/-- Overwrite the entry at the index and move on. -/
theorem rotate_set_next {l : List α} {i n : Nat} (hn : l.length = n) (hi : i < n) (x : α) :
    (l.set i x).rotate ((i + 1) % n) = (l.rotate i).tail ++ [x] := by
  have hmod : (l.set i x).rotate ((i + 1) % n) = (l.set i x).rotate (i + 1) := by
    conv_rhs => rw [← List.rotate_mod, List.length_set, hn]
  rw [← hn] at hi
  rw [hmod, List.rotate_eq_drop_append_take (by simp; omega),
    List.rotate_eq_drop_append_take hi.le, List.drop_set_of_lt (Nat.lt_succ_self i),
    take_set_succ hi, List.drop_eq_getElem_cons hi, List.cons_append, List.tail_cons,
    List.append_assoc]

/-- Parallel arrays, written at the same index. -/
theorem zip_set (l : List α) (m : List β) (i : Nat) (x : α) (y : β) :
    (l.set i x).zip (m.set i y) = (l.zip m).set i (x, y) := by
  induction l generalizing m i with
  | nil => simp
  | cons a l ih =>
      cases m with
      | nil => simp
      | cons b m =>
          cases i with
          | zero => simp
          | succ i => simp [ih]

/-- Only the second of two parallel arrays is written. -/
theorem zip_set_right {l : List α} {i : Nat} (hi : i < l.length) (m : List β) (y : β) :
    l.zip (m.set i y) = (l.zip m).set i (l[i], y) := by
  conv_lhs => rw [← List.set_getElem_self hi]
  exact zip_set l m i l[i] y

end OsProjects.Lib.Ring
