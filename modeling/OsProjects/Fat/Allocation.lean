import OsProjects.Fat.Blocks

/-!
# Allocation

`find_free_block`, and what repeated allocations do to a file (`extend`). The
value 0 marks a free block, and block 0 is a block like any other. As long as an
allocation does not link block 0 the file just grows (`extend_grown`). When it
does, the last block of the file carries the free mark: nothing is lost until
that block is handed out a second time, which cuts the file (`extend_cut`).
-/

namespace OsProjects.Fat

open OsProjects.Lib

variable {fat fat' : Table} {b : Fin numBlocks} {new : List (Fin numBlocks)} {n : Nat}

/-- The free blocks in the order in which they are found. -/
@[irreducible] def freeBlocks (fat : Table) : List (Fin numBlocks) :=
  (List.finRange numBlocks).filter fun i => fat i == 0

theorem mem_freeBlocks : b ∈ freeBlocks fat ↔ fat b = 0 := by
  unfold freeBlocks
  rw [List.mem_filter, beq_iff_eq]
  exact and_iff_right (List.mem_finRange b)

theorem freeBlocks_nodup (fat : Table) : (freeBlocks fat).Nodup := by
  unfold freeBlocks
  exact (List.nodup_finRange numBlocks).filter _

theorem findFreeBlock_eq (fat : Table) : findFreeBlock fat = (freeBlocks fat).head? := by
  unfold freeBlocks findFreeBlock
  exact List.head?_filter.symm

/-- Up to `n` blocks are allocated and linked behind `b`. -/
def extend : (n : Nat) → Table → Fin numBlocks → Table × List (Fin numBlocks)
  | 0, fat, _ => (fat, [])
  | n + 1, fat, b =>
      match findFreeBlock fat with
      | none => (fat, [])
      | some new =>
          ((extend n (linkBlock fat b new) new).1, new :: (extend n (linkBlock fat b new) new).2)

theorem linkBlock_new (fat : Table) (b new : Fin numBlocks) : linkBlock fat b new new = eof :=
  Function.update_self _ _ _

theorem linkBlock_old {new : Fin numBlocks} (h : b ≠ new) :
    linkBlock fat b new b = ofBlock new := by
  rw [linkBlock, Function.update_of_ne h, Function.update_self]

theorem linkBlock_other {new c : Fin numBlocks} (hb : c ≠ b) (hnew : c ≠ new) :
    linkBlock fat b new c = fat c := by
  rw [linkBlock, Function.update_of_ne hnew, Function.update_of_ne hb]

theorem eof_ne_zero : eof ≠ 0 := by decide

theorem ofBlock_eq_zero : ofBlock b = 0 ↔ b = 0 := by
  rw [ofBlock, Fin.ext_iff]
  simp

/-- Linking a free block other than block 0 removes it from the free blocks. -/
theorem freeBlocks_linkBlock {new : Fin numBlocks} {rest : List (Fin numBlocks)}
    (hfree : freeBlocks fat = new :: rest) (hb : fat b ≠ 0) (hnew : new ≠ 0) :
    freeBlocks (linkBlock fat b new) = rest := by
  have hnodup := freeBlocks_nodup fat
  have hzero : fat new = 0 := mem_freeBlocks.mp (hfree ▸ List.mem_cons_self)
  have hbnew : b ≠ new := fun heq => hb (heq ▸ hzero)
  have hfilter : freeBlocks (linkBlock fat b new) = (freeBlocks fat).filter (· ≠ new) := by
    unfold freeBlocks
    rw [List.filter_filter]
    refine List.filter_congr fun c _ => ?_
    by_cases hc : c = new
    · simp [hc, linkBlock_new, eof_ne_zero]
    · by_cases hcb : c = b
      · subst hcb
        simp [hc, linkBlock_old hbnew, ofBlock_eq_zero, hnew, hb]
      · simp [hc, linkBlock_other hcb hc]
  rw [hfree] at hfilter hnodup
  rw [hfilter, List.filter_cons_of_neg (by simp)]
  refine List.filter_eq_self.mpr fun c hc => ?_
  simpa using fun heq : c = new => (List.nodup_cons.mp hnodup).1 (heq ▸ hc)

theorem freeBlocks_sorted (fat : Table) : (freeBlocks fat).Pairwise (· < ·) := by
  unfold freeBlocks
  exact (List.pairwise_lt_finRange numBlocks).filter _

/-- In a sorted list, a member is among the first `n` iff fewer than `n` members
are smaller. -/
theorem mem_take_of_sorted {α : Type} [LinearOrder α] {l : List α} (h : l.Pairwise (· < ·))
    {x : α} (hx : x ∈ l) (n : Nat) : x ∈ l.take n ↔ (l.filter (· < x)).length < n := by
  obtain ⟨front, back, rfl⟩ := List.append_of_mem hx
  rw [List.pairwise_append, List.pairwise_cons] at h
  obtain ⟨-, ⟨hback, -⟩, hfront⟩ := h
  have hlow : ∀ y ∈ front, y < x := fun y hy => hfront y hy x List.mem_cons_self
  have hfilter : (front ++ x :: back).filter (· < x) = front := by
    rw [List.filter_append, List.filter_eq_self.mpr (fun y hy => by simpa using hlow y hy),
      List.filter_eq_nil_iff.mpr, List.append_nil]
    intro y hy
    rcases List.mem_cons.mp hy with rfl | hy
    · simp
    · simpa using (hback y hy).le
  rw [hfilter, List.take_append, List.mem_append]
  constructor
  · rintro (hmem | hmem)
    · exact absurd (hlow x (List.mem_of_mem_take hmem)) (lt_irrefl x)
    · by_contra hle
      rw [Nat.sub_eq_zero_of_le (not_lt.mp hle)] at hmem
      simp at hmem
  · intro hlt
    obtain ⟨m, hm⟩ : ∃ m, n - front.length = m + 1 := ⟨n - front.length - 1, by omega⟩
    rw [hm]
    exact Or.inr (by simp)

/-- The number of free blocks before `b`. -/
def freeBelow (fat : Table) (b : Fin numBlocks) : Nat :=
  ((freeBlocks fat).filter (· < b)).length

theorem freeBelow_le (fat : Table) (b : Fin numBlocks) :
    freeBelow fat b ≤ (freeBlocks fat).length :=
  List.length_filter_le _ _

theorem length_freeBlocks_le (fat : Table) : (freeBlocks fat).length ≤ numBlocks := by
  have hcard := (freeBlocks_nodup fat).length_le_card
  rwa [Fintype.card_fin] at hcard

theorem length_extend_le (n : Nat) (fat : Table) (b : Fin numBlocks) :
    (extend n fat b).2.length ≤ n := by
  induction n generalizing fat b with
  | zero => exact Nat.le_refl 0
  | succ n ih =>
      rw [extend]
      cases findFreeBlock fat with
      | none => exact Nat.zero_le _
      | some new => exact Nat.succ_le_succ (ih _ _)

/-- An allocation changes the block it starts from and the blocks it takes. -/
theorem extend_same {c : Fin numBlocks} (hcb : c ≠ b) (hc : c ∉ (extend n fat b).2) :
    (extend n fat b).1 c = fat c := by
  induction n generalizing fat b with
  | zero => rfl
  | succ n ih =>
      rw [extend] at hc ⊢
      cases hfree : findFreeBlock fat with
      | none => rfl
      | some new =>
          rw [hfree] at hc
          obtain ⟨hnew, hrest⟩ := not_or.mp (mt List.mem_cons.mpr hc)
          show (extend n (linkBlock fat b new) new).1 c = fat c
          rw [ih hnew hrest, linkBlock_other hcb hnew]

/-- It takes blocks that are marked free; the block it starts from may have
become one of them. -/
theorem extend_fresh {c : Fin numBlocks} (hc : c ∈ (extend n fat b).2) :
    fat c = 0 ∨ c = b := by
  induction n generalizing fat b with
  | zero => exact absurd hc List.not_mem_nil
  | succ n ih =>
      rw [extend] at hc
      cases hfree : findFreeBlock fat with
      | none =>
          rw [hfree] at hc
          exact absurd hc List.not_mem_nil
      | some new =>
          rw [hfree] at hc
          have hzero : fat new = 0 := by
            rw [findFreeBlock_eq] at hfree
            exact mem_freeBlocks.mp (List.mem_of_head? hfree)
          rcases List.mem_cons.mp hc with rfl | hrest
          · exact Or.inl hzero
          · by_cases hcb : c = b
            · exact Or.inr hcb
            · refine Or.inl ?_
              by_cases hnew : c = new
              · rw [hnew, hzero]
              · rcases ih hrest with hlink | heq
                · rwa [linkBlock_other hcb hnew] at hlink
                · exact absurd heq hnew

/-- Block 0 is found first. -/
theorem findFreeBlock_zero (hzero : fat 0 = 0) : findFreeBlock fat = some 0 := by
  have hmem : (0 : Fin numBlocks) ∈ freeBlocks fat := mem_freeBlocks.mpr hzero
  have hsorted := freeBlocks_sorted fat
  rw [findFreeBlock_eq]
  cases hfree : freeBlocks fat with
  | nil => simp [hfree] at hmem
  | cons c rest =>
      rw [hfree] at hmem hsorted
      rcases List.mem_cons.mp hmem with h0 | h0
      · rw [List.head?_cons, h0]
      · have hlt := (List.pairwise_cons.mp hsorted).1 0 h0
        exact absurd hlt (Fin.not_lt_zero c)

theorem linkBlock_zero_zero : linkBlock fat b 0 0 ≠ 0 := by
  rw [linkBlock_new]
  exact eof_ne_zero

/-- After an allocation block 0 is not free. -/
theorem linkBlock_found {new : Fin numBlocks} (hfree : findFreeBlock fat = some new) :
    linkBlock fat b new 0 ≠ 0 := by
  by_cases hnew : new = 0
  · rw [hnew]
    exact linkBlock_zero_zero
  · have hzero : fat 0 ≠ 0 := fun h0 =>
      hnew (Option.some.inj (hfree.symm.trans (findFreeBlock_zero h0)))
    by_cases hb : 0 = b
    · rw [hb, linkBlock_old (fun heq => hnew (heq.symm.trans hb.symm))]
      exact fun heq => hnew (ofBlock_eq_zero.mp heq)
    · rw [linkBlock_other hb (Ne.symm hnew)]
      exact hzero

/-- Without block 0 among the free blocks, allocation takes the first free
blocks and chains them behind `b`. -/
theorem extend_spec (n : Nat) (hzero : fat 0 ≠ 0) (hb : fat b = eof) :
    (extend n fat b).2 = (freeBlocks fat).take n ∧
      blockPtr.Chain (extend n fat b).1 (ofBlock b) (b :: (extend n fat b).2) := by
  induction n generalizing fat b with
  | zero =>
      refine ⟨rfl, .link ?_⟩
      show blockPtr.Chain fat (fat b) []
      rw [hb]
      exact .eof
  | succ n ih =>
      have hne : fat b ≠ 0 := hb ▸ eof_ne_zero
      cases hfree : freeBlocks fat with
      | nil =>
          have hnone : findFreeBlock fat = none := by
            rw [findFreeBlock_eq, hfree, List.head?_nil]
          simp only [extend, hnone]
          refine ⟨rfl, .link ?_⟩
          rw [hb]
          exact .eof
      | cons new rest =>
          have hsome : findFreeBlock fat = some new := by
            rw [findFreeBlock_eq, hfree, List.head?_cons]
          have hnewfree : fat new = 0 := mem_freeBlocks.mp (hfree ▸ List.mem_cons_self)
          have hnew : new ≠ 0 := fun heq => hzero (heq ▸ hnewfree)
          have hbnew : b ≠ new := fun heq => hne (heq ▸ hnewfree)
          have hrestfree := freeBlocks_linkBlock hfree hne hnew
          obtain ⟨hblocks, hchain⟩ := ih (linkBlock_found hsome) (linkBlock_new fat b new)
          simp only [extend, hsome]
          rw [hrestfree] at hblocks
          -- the blocks allocated later are free ones, so `b` keeps its link to `new`
          have hbfresh : b ∉ (extend n (linkBlock fat b new) new).2 := by
            rw [hblocks]
            intro hmem
            have hfreeb : b ∈ freeBlocks fat :=
              hfree ▸ List.mem_cons_of_mem new (List.mem_of_mem_take hmem)
            exact hne (mem_freeBlocks.mp hfreeb)
          refine ⟨by rw [hblocks, List.take_succ_cons], .link ?_⟩
          rw [extend_same hbnew hbfresh, linkBlock_old hbnew]
          exact hchain

/-- The chain behind `b` has grown by blocks that were free. -/
structure Grown (fat : Table) (b : Fin numBlocks) (n : Nat) (fat' : Table)
    (new : List (Fin numBlocks)) : Prop where
  chain : blockPtr.Chain fat' (ofBlock b) (b :: new)
  fresh : ∀ c ∈ new, fat c = 0
  same : ∀ c, c ≠ b → c ∉ new → fat' c = fat c
  count : new.length = min n (freeBlocks fat).length

theorem Grown.taken {c : Fin numBlocks} (h : Grown fat b n fat' new) (hc : c ∈ new) :
    fat c = 0 ∨ c = b :=
  Or.inl (h.fresh c hc)

theorem extend_grown_of_zero_used (n : Nat) (hzero : fat 0 ≠ 0) (hb : fat b = eof) :
    Grown fat b n (extend n fat b).1 (extend n fat b).2 := by
  obtain ⟨hblocks, hchain⟩ := extend_spec n hzero hb
  refine ⟨hchain, fun c hc => ?_, fun c hcb hc => extend_same hcb hc, ?_⟩
  · rw [hblocks] at hc
    exact mem_freeBlocks.mp (List.mem_of_mem_take hc)
  · rw [hblocks, List.length_take]

/-! ## Block 0 is free -/

theorem extend_zero (hzero : fat 0 = 0) :
    extend (n + 1) fat b =
      ((extend n (linkBlock fat b 0) 0).1, 0 :: (extend n (linkBlock fat b 0) 0).2) := by
  rw [extend, findFreeBlock_zero hzero]

theorem linkBlock_zero_iff {c : Fin numBlocks} (hc : c ≠ b) :
    linkBlock fat b 0 c = 0 ↔ fat c = 0 ∧ c ≠ 0 := by
  by_cases h0 : c = 0
  · subst h0
    exact ⟨fun h => absurd h linkBlock_zero_zero, fun h => absurd rfl h.2⟩
  · rw [linkBlock_other hc h0]
    exact ⟨fun h => ⟨h, h0⟩, fun h => h.1⟩

section Zero

variable (hzero : fat 0 = 0) (hb : fat b = eof)

include hzero hb

theorem ne_zero_of_zero_free : b ≠ 0 := by
  rintro rfl
  exact eof_ne_zero (hb.symm.trans hzero)

/-- Linked to block 0, `b` is marked free. -/
theorem linkBlock_zero_self : linkBlock fat b 0 b = 0 := by
  rw [linkBlock_old (ne_zero_of_zero_free hzero hb)]
  rfl

/-- Among the free blocks that come before `b`, only block 0 is gone. -/
theorem filter_linkBlock_zero :
    ((freeBlocks (linkBlock fat b 0)).filter (· < b)).length + 1 = freeBelow fat b := by
  have hb0 := ne_zero_of_zero_free hzero hb
  have hmem : (0 : Fin numBlocks) ∈ (freeBlocks fat).filter (· < b) := by
    rw [List.mem_filter, mem_freeBlocks]
    exact ⟨hzero, decide_eq_true (lt_of_le_of_ne (Fin.zero_le b) hb0.symm)⟩
  have hnodup := (freeBlocks_nodup fat).filter (· < b)
  have herase : ((freeBlocks fat).filter (· < b)).erase 0 =
      (freeBlocks (linkBlock fat b 0)).filter (· < b) := by
    rw [hnodup.erase_eq_filter]
    unfold freeBlocks
    rw [List.filter_filter, List.filter_filter, List.filter_filter]
    refine List.filter_congr fun c _ => ?_
    by_cases hcb : c = b
    · simp [hcb]
    · have hiff : linkBlock fat b 0 c = 0 ↔ fat c = 0 ∧ c ≠ 0 := linkBlock_zero_iff hcb
      rw [Bool.eq_iff_iff, Bool.and_eq_true, Bool.and_eq_true, Bool.and_eq_true,
        decide_eq_true_iff, beq_iff_eq, beq_iff_eq, bne_iff_ne, hiff]
      exact ⟨fun h => ⟨h.1.2, h.2, h.1.1⟩, fun h => ⟨⟨h.2.2, h.1⟩, h.2.1⟩⟩
  rw [← herase, List.length_erase_of_mem hmem]
  have hpos := List.length_pos_of_mem hmem
  rw [freeBelow]
  omega

/-- Whether `b` is handed out again behind block 0. -/
theorem mem_extend_zero : b ∈ (extend n (linkBlock fat b 0) 0).2 ↔ freeBelow fat b < n + 1 := by
  obtain ⟨hblocks, -⟩ :=
    extend_spec n linkBlock_zero_zero (linkBlock_new fat b 0)
  have hfree : b ∈ freeBlocks (linkBlock fat b 0) :=
    mem_freeBlocks.mpr (linkBlock_zero_self hzero hb)
  have hbelow := filter_linkBlock_zero hzero hb
  rw [hblocks, mem_take_of_sorted (freeBlocks_sorted _) hfree]
  omega

theorem extend_grown_of_few (hfew : n + 1 ≤ freeBelow fat b) :
    Grown fat b (n + 1) (extend (n + 1) fat b).1 (extend (n + 1) fat b).2 := by
  have hb0 := ne_zero_of_zero_free hzero hb
  obtain ⟨hblocks, hchain⟩ :=
    extend_spec n linkBlock_zero_zero (linkBlock_new fat b 0)
  have hkept : b ∉ (extend n (linkBlock fat b 0) 0).2 := by
    rw [mem_extend_zero hzero hb]
    omega
  refine ⟨?_, fun c hc => ?_, fun c hcb hc => extend_same hcb hc, ?_⟩
  · -- `b` still holds 0, which is the pointer to block 0
    rw [extend_zero hzero]
    refine .link ?_
    show blockPtr.Chain _ ((extend n (linkBlock fat b 0) 0).1 b) _
    rw [extend_same hb0 hkept, linkBlock_old hb0]
    exact hchain
  · refine (extend_fresh hc).resolve_right ?_
    rintro rfl
    rw [extend_zero hzero] at hc
    rcases List.mem_cons.mp hc with h0 | hmem
    · exact hb0 h0
    · exact hkept hmem
  · have hbelow := filter_linkBlock_zero hzero hb
    have hlen := List.length_filter_le (· < b) (freeBlocks (linkBlock fat b 0))
    have hle := freeBelow_le fat b
    rw [extend_zero hzero, List.length_cons, hblocks, List.length_take]
    omega

/-- The last block is handed out again: the file is cut behind it, and at least
two of the allocated blocks, block 0 one of them, are not in it. -/
theorem extend_cut (hmany : freeBelow fat b < n + 1) :
    ∃ tail, blockPtr.Chain (extend (n + 1) fat b).1 (ofBlock b) (b :: tail) ∧ 0 ∉ tail ∧
      tail.length + 2 ≤ (extend (n + 1) fat b).2.length := by
  obtain ⟨-, hchain⟩ := extend_spec n linkBlock_zero_zero (linkBlock_new fat b 0)
  obtain ⟨front, tail, hsplit⟩ := List.append_of_mem ((mem_extend_zero hzero hb).mpr hmany)
  rw [hsplit] at hchain
  refine ⟨tail, ?_, ?_, ?_⟩
  · rw [extend_zero hzero]
    rw [← List.cons_append] at hchain
    exact hchain.from_mem
  · intro hmem
    apply (List.nodup_cons.mp hchain.nodup).1
    simp [hmem]
  · rw [extend_zero hzero, List.length_cons, hsplit, List.length_append, List.length_cons]
    omega

omit hb in
/-- Block 0 has been taken. -/
theorem extend_zero_used : (extend (n + 1) fat b).1 0 ≠ 0 := by
  obtain ⟨-, hchain⟩ := extend_spec n linkBlock_zero_zero (linkBlock_new fat b 0)
  rw [extend_zero hzero]
  show (extend n (linkBlock fat b 0) 0).1 0 ≠ 0
  rcases hchain.link_of_mem List.mem_cons_self with heof | ⟨c, hc, hlink⟩
  · rw [heof]
    exact eof_ne_zero
  · rw [hlink]
    intro hc0
    obtain rfl : c = 0 := ofBlock_eq_zero.mp hc0
    exact (List.nodup_cons.mp hchain.nodup).1 hc

end Zero

/-- At most one block is handed out twice. -/
theorem length_extend_le_numBlocks (n : Nat) (hb : fat b = eof) :
    (extend n fat b).2.length ≤ numBlocks + 1 := by
  by_cases hzero : fat 0 = 0
  · cases n with
    | zero => exact Nat.zero_le _
    | succ n =>
        obtain ⟨hblocks, -⟩ := extend_spec n linkBlock_zero_zero (linkBlock_new fat b 0)
        have hfree := length_freeBlocks_le (linkBlock fat b 0)
        rw [extend_zero hzero, List.length_cons, hblocks, List.length_take]
        omega
  · obtain ⟨hblocks, -⟩ := extend_spec n hzero hb
    have hfree := length_freeBlocks_le fat
    rw [hblocks, List.length_take]
    omega

/-- From the middle of a chain there may be one more. -/
theorem length_extend_le_of_any (n : Nat) (fat : Table) (b : Fin numBlocks) :
    (extend n fat b).2.length ≤ numBlocks + 2 := by
  cases n with
  | zero => exact Nat.zero_le _
  | succ n =>
      rw [extend]
      cases findFreeBlock fat with
      | none => exact Nat.zero_le _
      | some new => exact Nat.succ_le_succ (length_extend_le_numBlocks n (linkBlock_new fat b new))

/-- When the file just grows. -/
theorem extend_grown (hb : fat b = eof) (hok : n = 0 ∨ fat 0 ≠ 0 ∨ n ≤ freeBelow fat b) :
    Grown fat b n (extend n fat b).1 (extend n fat b).2 := by
  by_cases hzero : fat 0 = 0
  · cases n with
    | zero =>
        refine ⟨.link ?_, fun c hc => absurd hc List.not_mem_nil, fun _ _ _ => rfl, ?_⟩
        · show blockPtr.Chain fat (fat b) []
          rw [hb]
          exact .eof
        · rw [Nat.zero_min]
          rfl
    | succ n =>
        refine extend_grown_of_few hzero hb ?_
        rcases hok with h | h | h
        · omega
        · exact absurd hzero h
        · exact h
  · exact extend_grown_of_zero_used n hzero hb

end OsProjects.Fat
