import OsProjects.Fat.Operations

/-!
# Linked files

`Linked s chain` says that the chains of the live files are what `chain` gives,
that they share no block and that none of their blocks is marked free. Every
operation works on one slot, so what it has to keep is stated once, for a change
of one slot (`Linked.change_slot`).
-/

namespace OsProjects.Fat

open OsProjects.Lib

/-- The chain of each slot. -/
abbrev Chains := Fin maxFileNum → List (Fin numBlocks)

structure Linked (s : FileSystem) (chain : Chains) : Prop where
  names : s.DistinctNames
  chains : ∀ i, s.Live i → blockPtr.Chain s.fatTable (s.directory i).startBlock (chain i)
  disjoint : ∀ i j, s.Live i → s.Live j → i ≠ j → (chain i).Disjoint (chain j)
  used : ∀ i, s.Live i → ∀ b ∈ chain i, s.fatTable b ≠ 0

variable {s t : FileSystem} {chain : Chains} {filename data : List UInt8} {i : Fin maxFileNum}
  {front l new : List (Fin numBlocks)} {b last : Fin numBlocks} {n : Nat}

/-- A name that no other slot has may be given to slot `i`. -/
theorem FileSystem.DistinctNames.change_slot (h : s.DistinctNames)
    (hdir : ∀ j, j ≠ i → t.directory j = s.directory j)
    (hname : t.Live i → ∀ j, j ≠ i → (s.directory j).filename ≠ (t.directory i).filename) :
    t.DistinctNames := by
  intro j k hj heq
  by_contra hne
  by_cases hji : j = i
  · subst hji
    rw [hdir k hne] at heq
    exact hname hj k hne heq
  · have hsj : s.Live j := by rwa [FileSystem.Live, hdir j hji] at hj
    by_cases hki : k = i
    · subst hki
      have hk : t.Live k := by
        rw [FileSystem.Live, heq]
        exact hj
      rw [hdir j hji] at heq
      exact hname hk j hji heq.symm
    · rw [hdir j hji, hdir k hki] at heq
      exact hne (h j k hsj heq)

/-- Slot `i` gets the chain `l` (if it is live afterwards), made of its old
blocks and of free ones; the other slots and their blocks are left alone. -/
theorem Linked.change_slot (h : Linked s chain)
    (hdir : ∀ j, j ≠ i → t.directory j = s.directory j)
    (hframe : ∀ j, j ≠ i → s.Live j → ∀ b ∈ chain j, t.fatTable b = s.fatTable b)
    (hname : t.Live i → ∀ j, j ≠ i → (s.directory j).filename ≠ (t.directory i).filename)
    (hchain : t.Live i → blockPtr.Chain t.fatTable (t.directory i).startBlock l)
    (hfrom : t.Live i → ∀ b ∈ l, s.fatTable b = 0 ∨ s.Live i ∧ b ∈ chain i)
    (hused : t.Live i → ∀ b ∈ l, t.fatTable b ≠ 0) :
    Linked t (Function.update chain i l) := by
  have hlive : ∀ j, j ≠ i → t.Live j → s.Live j := by
    intro j hj hlive
    rwa [FileSystem.Live, hdir j hj] at hlive
  -- the blocks of `l` were free or in the old chain of `i`, so no other file has them
  have hapart : ∀ j, j ≠ i → t.Live i → s.Live j → l.Disjoint (chain j) := by
    intro j hj hi hsj b hb hbj
    rcases hfrom hi b hb with hfree | ⟨hsi, hbi⟩
    · exact h.used j hsj b hbj hfree
    · exact h.disjoint i j hsi hsj hj.symm hbi hbj
  refine ⟨h.names.change_slot hdir hname, ?_, ?_, ?_⟩
  · intro j hj
    by_cases hji : j = i
    · subst hji
      rw [Function.update_self]
      exact hchain hj
    · rw [Function.update_of_ne hji, hdir j hji]
      exact (h.chains j (hlive j hji hj)).frame (hframe j hji (hlive j hji hj))
  · intro j k hj hk hne
    by_cases hji : j = i
    · subst hji
      rw [Function.update_self, Function.update_of_ne hne.symm]
      exact hapart k hne.symm hj (hlive k hne.symm hk)
    · rw [Function.update_of_ne hji]
      by_cases hki : k = i
      · subst hki
        rw [Function.update_self]
        exact (hapart j hji hk (hlive j hji hj)).symm
      · rw [Function.update_of_ne hki]
        exact h.disjoint j k (hlive j hji hj) (hlive k hki hk) hne
  · intro j hj b hb
    by_cases hji : j = i
    · subst hji
      rw [Function.update_self] at hb
      exact hused hj b hb
    · rw [Function.update_of_ne hji] at hb
      rw [hframe j hji (hlive j hji hj) b hb]
      exact h.used j (hlive j hji hj) b hb

/-! ## The three operations that change the state -/

theorem Linked.created (h : Linked s chain) (hfind : findFile s filename = none)
    (hfree : s.fatTable b = 0) :
    Linked (created s filename i b) (Function.update chain i [b]) := by
  have hblock : (Fat.created s filename i b).fatTable b = eof := Function.update_self _ _ _
  refine h.change_slot (fun j hj => created_other hj) ?_ ?_ ?_ ?_ ?_
  · intro j _ hj c hc
    refine Function.update_of_ne ?_ _ _
    rintro rfl
    exact h.used j hj c hc hfree
  · intro _ j _
    rw [created_self]
    exact findFile_none hfind j
  · intro _
    rw [created_self]
    refine .link ?_
    rw [hblock]
    exact .eof
  · intro _ c hc
    rw [List.mem_singleton.mp hc]
    exact Or.inl hfree
  · intro _ c hc
    rw [List.mem_singleton.mp hc, hblock]
    exact eof_ne_zero

theorem Linked.removed (h : Linked s chain) (hlive : s.Live i) :
    Linked (removed s i (chain i)) (Function.update chain i []) := by
  have hdead : ¬ (Fat.removed s i (chain i)).Live i := by
    rw [FileSystem.Live, removed_self]
    exact not_not_intro rfl
  refine h.change_slot (fun j hj => removed_other hj) ?_ (fun hi => absurd hi hdead)
    (fun hi => absurd hi hdead) (fun hi => absurd hi hdead) (fun hi => absurd hi hdead)
  intro j hj hsj c hc
  exact if_neg fun hci => h.disjoint i j hlive hsj hj.symm hci hc

/-- The blocks of a file are neither the block of another file from which that one
grows nor newly allocated. -/
theorem Linked.notMem_grown {j : Fin maxFileNum} {p : Fin numBlocks} (h : Linked s chain)
    (hlive : s.Live i) (hp : p ∈ chain i) (hnew : ∀ c ∈ new, s.fatTable c = 0 ∨ c = p)
    (hj : j ≠ i) (hsj : s.Live j) (hb : b ∈ chain j) : b ≠ p ∧ b ∉ new := by
  have hne : b ≠ p := by
    rintro rfl
    exact h.disjoint i j hlive hsj hj.symm hp hb
  refine ⟨hne, fun hmem => ?_⟩
  rcases hnew b hmem with hfree | heq
  · exact h.used j hsj b hb hfree
  · exact hne heq

/-- The blocks before the last one are not newly allocated either. -/
theorem Linked.notMem_grown_front (h : Linked s chain) (hlive : s.Live i)
    (hi : chain i = front ++ [last]) (hnew : ∀ c ∈ new, s.fatTable c = 0 ∨ c = last)
    (hb : b ∈ front) : b ≠ last ∧ b ∉ new := by
  have hnodup := (h.chains i hlive).nodup
  rw [hi] at hnodup
  have hne : b ≠ last := by
    rintro rfl
    exact (List.disjoint_of_nodup_append hnodup) hb (List.mem_singleton_self b)
  refine ⟨hne, fun hmem => ?_⟩
  rcases hnew b hmem with hfree | heq
  · exact h.used i hlive b (by simp [hi, hb]) hfree
  · exact hne heq

/-- However many blocks are allocated behind it, a file keeps its blocks before the
last one. -/
theorem Linked.extend_front (h : Linked s chain) (hlive : s.Live i)
    (hi : chain i = front ++ [last]) (hb : b ∈ front) :
    (extend n s.fatTable last).1 b = s.fatTable b := by
  obtain ⟨hne, hnew⟩ := h.notMem_grown_front hlive hi (fun _ => extend_fresh) hb
  exact extend_same hne hnew

/-- And the other files keep their chains. -/
theorem Linked.extend_other {j : Fin maxFileNum} (h : Linked s chain) (hlive : s.Live i)
    (hi : chain i = front ++ [last]) (hj : j ≠ i) (hsj : s.Live j) :
    blockPtr.Chain (extend n s.fatTable last).1 (s.directory j).startBlock (chain j) := by
  have hlast : last ∈ chain i := by simp [hi]
  refine (h.chains j hsj).frame fun c hc => ?_
  obtain ⟨hne, hnew⟩ := h.notMem_grown hlive hlast (fun _ => extend_fresh) hj hsj hc
  exact extend_same hne hnew

section Append

variable (h : Linked s chain) (hlive : s.Live i) (hi : chain i = front ++ [last])
  (hgrown : Grown s.fatTable last n t.fatTable new)

include h hlive hi hgrown

/-- The chain of a grown file. -/
theorem Linked.grown_chain :
    blockPtr.Chain t.fatTable (s.directory i).startBlock (front ++ last :: new) := by
  have hold := h.chains i hlive
  rw [hi] at hold
  refine hold.splice (fun c hc => ?_) hgrown.chain
  obtain ⟨hne, hnew⟩ :=
    h.notMem_grown_front hlive hi (fun _ => hgrown.taken) hc
  exact hgrown.same c hne hnew

/-- A file that has grown without linking block 0. -/
theorem Linked.grown (hzero : s.fatTable 0 ≠ 0 ∨ new = [])
    (hdir : ∀ j, j ≠ i → t.directory j = s.directory j)
    (hname : (t.directory i).filename = (s.directory i).filename)
    (hstart : (t.directory i).startBlock = (s.directory i).startBlock) :
    Linked t (Function.update chain i (front ++ last :: new)) := by
  have hchain := h.grown_chain hlive hi hgrown
  have hlast : last ∈ chain i := by simp [hi]
  refine h.change_slot hdir ?_ ?_ (fun _ => hstart ▸ hchain) ?_ ?_
  · intro j hj hsj c hc
    obtain ⟨hne, hnew⟩ := h.notMem_grown hlive hlast (fun _ => hgrown.taken) hj hsj hc
    exact hgrown.same c hne hnew
  · intro _ j hj heq
    rw [hname] at heq
    exact hj (h.names i j hlive heq)
  · intro _ c hc
    rcases List.mem_append.mp hc with hfront | hrest
    · exact Or.inr ⟨hlive, by simp [hi, hfront]⟩
    · rcases List.mem_cons.mp hrest with rfl | hmem
      · exact Or.inr ⟨hlive, by simp [hi]⟩
      · exact Or.inl (hgrown.fresh c hmem)
  · intro _ c hc
    rcases List.mem_append.mp hc with hfront | hrest
    · obtain ⟨hne, hnew⟩ :=
        h.notMem_grown_front hlive hi (fun _ => hgrown.taken) hfront
      rw [hgrown.same c hne hnew]
      exact h.used i hlive c (by simp [hi, hfront])
    · -- an entry 0 here would be a link to block 0
      rcases hgrown.chain.link_of_mem hrest with heof | ⟨d, hd, hlink⟩
      · rw [heof]
        exact eof_ne_zero
      · rw [hlink]
        intro hd0
        have hd0 : d = 0 := ofBlock_eq_zero.mp hd0
        rcases hzero with hused | hnil
        · exact hused (hgrown.fresh 0 (hd0 ▸ hd))
        · rw [hnil] at hd
          exact List.not_mem_nil hd

end Append

/-! ## A disk with two files -/

/-- The file `a` has 40 bytes in the blocks 0 and 2, the file `b` has 5 bytes in block 1. -/
def twoFiles : FileSystem where
  fatTable := fun b => if b = 0 then 2 else if b = 1 ∨ b = 2 then eof else 0
  directory := fun j => if j = 0 then ⟨[97], 0, 40⟩ else if j = 1 then ⟨[98], 1, 5⟩ else ⟨[], 0, 0⟩
  dataArea := fun b _ => if b = 1 then 121 else 120

def twoChains : Chains := fun i => if i = 0 then [0, 2] else [1]

theorem twoFiles_live {i : Fin maxFileNum} : twoFiles.Live i ↔ i = 0 ∨ i = 1 := by
  constructor
  · intro hi
    by_contra hne
    obtain ⟨hzero, hone⟩ := not_or.mp hne
    have hempty : twoFiles.directory i = ⟨[], 0, 0⟩ := (if_neg hzero).trans (if_neg hone)
    rw [FileSystem.Live, hempty] at hi
    exact hi rfl
  · rintro (rfl | rfl)
    · exact List.cons_ne_nil 97 []
    · exact List.cons_ne_nil 98 []

theorem twoFiles_linked : Linked twoFiles twoChains where
  names := by
    intro i j hi heq
    have hj : twoFiles.Live j := by
      rw [FileSystem.Live, heq]
      exact hi
    rcases twoFiles_live.mp hi with rfl | rfl <;> rcases twoFiles_live.mp hj with rfl | rfl
    · rfl
    · exact absurd heq (by decide)
    · exact absurd heq (by decide)
    · rfl
  chains := by
    intro i hi
    have hone : blockPtr.Chain twoFiles.fatTable (twoFiles.fatTable 1) [] := .eof
    have htwo : blockPtr.Chain twoFiles.fatTable (twoFiles.fatTable 2) [] := .eof
    rcases twoFiles_live.mp hi with rfl | rfl
    · have hrest : blockPtr.Chain twoFiles.fatTable (twoFiles.fatTable 0) [2] := .link htwo
      exact .link hrest
    · exact .link hone
  disjoint := by
    intro i j hi hj hne
    have hapart : List.Disjoint [(0 : Fin numBlocks), 2] [1] := by
      intro b hb hone
      rw [List.mem_singleton.mp hone] at hb
      exact absurd hb (by decide)
    rcases twoFiles_live.mp hi with rfl | rfl <;> rcases twoFiles_live.mp hj with rfl | rfl
    · exact absurd rfl hne
    · exact hapart
    · exact hapart.symm
    · exact absurd rfl hne
  used := by
    intro i _ b hb
    have hused : b = 0 ∨ b = 2 ∨ b = 1 := by
      unfold twoChains at hb
      split_ifs at hb <;> simp at hb <;> tauto
    rcases hused with rfl | rfl | rfl
    · show (2 : Int) ≠ 0
      decide
    · exact eof_ne_zero
    · exact eof_ne_zero

end OsProjects.Fat
