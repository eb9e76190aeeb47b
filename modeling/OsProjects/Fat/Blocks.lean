import OsProjects.Fat.Model
import OsProjects.Lib.Chain

/-!
# Blocks and chains

The FAT as a table of links, and the two loops that only follow them: the walk
ends at the last block of the chain, the freeing loop clears exactly the chain.
-/

namespace OsProjects.Fat

open OsProjects.Lib

abbrev Table := Fin numBlocks → Int
abbrev Area := Fin numBlocks → Fin blockSize → UInt8

/-- Block numbers as pointers, `0xFFFF` as the end mark. -/
def blockPtr : Pointers (Fin numBlocks) Int where
  ptr := ofBlock
  eof := eof
  ptr_inj {i j} h := Fin.ext (by simpa [ofBlock] using h)
  ptr_ne_eof i h := by
    have hlt := i.isLt
    have hbound := numBlocks_eq
    have hval : (i.val : Int) = 0xFFFF := h
    omega

@[simp] theorem toBlock_ofBlock (b : Fin numBlocks) : toBlock (ofBlock b) = some b := by
  have hlt := b.isLt
  have h : 0 ≤ (b.val : Int) ∧ (b.val : Int) < numBlocks := by omega
  simp [toBlock, ofBlock, h]

theorem ofBlock_ne_eof (b : Fin numBlocks) : ofBlock b ≠ eof := blockPtr.ptr_ne_eof b

theorem toBlock_eof : toBlock eof = none := by
  have hbound := numBlocks_eq
  rw [toBlock, dif_neg]
  rw [eof]
  omega

variable {fat : Table} {area : Area} {v : Int} {l : List (Fin numBlocks)} {b last : Fin numBlocks}

/-! ## The walk and the freeing loop -/

/-- With at least as many steps as there are links, the walk ends at the last
block. -/
theorem walk_chain {front : List (Fin numBlocks)} {steps : Nat}
    (h : blockPtr.Chain fat v (front ++ [last])) (hsteps : front.length ≤ steps) :
    walk fat steps v = some (ofBlock last) := by
  induction front generalizing v steps with
  | nil =>
      obtain rfl := h.eq_ptr
      cases steps with
      | zero => rfl
      | succ steps =>
          have hlast : fat last = eof := h.tail.eq_eof
          show walk fat (steps + 1) (ofBlock last) = _
          simp [walk, hlast]
  | cons b front ih =>
      obtain rfl := h.eq_ptr
      cases steps with
      | zero => simp at hsteps
      | succ steps =>
          have hnext : fat b ≠ eof := by
            cases front with
            | nil => exact h.tail.eq_ptr ▸ ofBlock_ne_eof last
            | cons c front => exact h.tail.eq_ptr ▸ ofBlock_ne_eof c
          have hrest : walk fat steps (fat b) = some (ofBlock last) :=
            ih h.tail (by simpa using hsteps)
          show walk fat (steps + 1) (ofBlock b) = _
          simp [walk, hnext, hrest]

/-- The freeing loop clears exactly the chain it follows. -/
theorem freeLoop_chain {fuel : Nat} (h : blockPtr.Chain fat v l) (hfuel : l.length < fuel) :
    freeLoop fuel fat v = some fun b => if b ∈ l then 0 else fat b := by
  induction l generalizing fat v fuel with
  | nil =>
      obtain rfl := h.eq_eof
      cases fuel with
      | zero => simp at hfuel
      | succ fuel =>
          show freeLoop (fuel + 1) fat eof = _
          simp [freeLoop]
  | cons b l ih =>
      obtain rfl := h.eq_ptr
      have hnodup := List.nodup_cons.mp h.nodup
      cases fuel with
      | zero => simp at hfuel
      | succ fuel =>
          -- the rest of the chain does not see that `b` is cleared
          have hrest : blockPtr.Chain (Function.update fat b 0) (fat b) l :=
            h.tail.frame fun i hi =>
              Function.update_of_ne (fun heq : i = b => hnodup.1 (heq ▸ hi)) _ _
          have hfree := ih hrest (by simpa using hfuel)
          show freeLoop (fuel + 1) fat (ofBlock b) = _
          rw [freeLoop, if_neg (ofBlock_ne_eof b), toBlock_ofBlock]
          show freeLoop fuel (Function.update fat b 0) (fat b) = _
          rw [hfree]
          congr 1
          funext c
          by_cases hc : c ∈ l
          · simp [hc]
          · by_cases hcb : c = b
            · simp [hcb, hnodup.1]
            · simp [hc, hcb]

end OsProjects.Fat
