import OsProjects.Fat.Range

/-!
# `delete_file` terminates

The loop of `delete_file` ends if the file has a chain, and it clears what it
follows. Another file that shares a block with the deleted one then leads to
block 0, so its chain depends on what block 0 leads to.

An append keeps all chains (`Rewired.threads`), but it can make two of them
share their ends: when block 0 has been linked, the block in front of it is marked
free, and another file may get it. The blocks behind it, block 0 first, are then
lost to all files. This happens at most once before one of the two files is
deleted (`OnePair`), and at that moment the lost blocks become the end of the
other one.
-/

namespace OsProjects.Fat

open OsProjects.Lib OsProjects.Lib.Runs Pointers

variable {s t : FileSystem} {chain : Chains} {i : Fin maxFileNum} {fat : Table} {v : Int}
  {b : Fin numBlocks} {l lost : List (Fin numBlocks)}

/-! ## The invariant -/

/-- Every file has a chain. -/
def Threads (s : FileSystem) (chain : Chains) : Prop :=
  ∀ i, s.Live i → blockPtr.Chain s.fatTable (s.directory i).startBlock (chain i)

def AllApart (s : FileSystem) (chain : Chains) : Prop :=
  ∀ i j, s.Live i → s.Live j → i ≠ j → (chain i).Disjoint (chain j)

/-- Only `f` and `g` may share blocks, and block 0 leads through lost blocks,
which are in no file. -/
structure OnePair (s : FileSystem) (chain : Chains) (f g : Fin maxFileNum)
    (lost : List (Fin numBlocks)) : Prop where
  apart : ∀ i j, s.Live i → s.Live j → i ≠ j → s(i, j) ≠ s(f, g) → (chain i).Disjoint (chain j)
  lost_chain : blockPtr.Chain s.fatTable (ofBlock 0) (0 :: lost)
  avoids : ∀ i, s.Live i → (chain i).Disjoint (0 :: lost)

def Deletable (s : FileSystem) : Prop :=
  ∃ chain, Threads s chain ∧ (AllApart s chain ∨ ∃ f g lost, OnePair s chain f g lost)

/-- An entry 0 inside a chain is a link to block 0. -/
theorem chain_behind_zero {front back : List (Fin numBlocks)}
    (h : blockPtr.Chain fat v (front ++ b :: back)) (hb : fat b = 0) :
    ∃ lost, back = 0 :: lost ∧ blockPtr.Chain fat (ofBlock 0) (0 :: lost) := by
  have hrest := h.from_mem.tail
  rw [hb] at hrest
  cases back with
  | nil => exact absurd hrest.eq_eof (ofBlock_ne_eof 0)
  | cons c lost =>
      obtain rfl : 0 = c := blockPtr.ptr_inj hrest.eq_ptr
      exact ⟨lost, rfl, hrest⟩

theorem zero_mem_of_entry_zero (h : blockPtr.Chain fat v l) (hmem : b ∈ l) (hb : fat b = 0) :
    0 ∈ l := by
  obtain ⟨front, back, rfl⟩ := List.append_of_mem hmem
  obtain ⟨lost, rfl, -⟩ := chain_behind_zero h hb
  simp

/-- The blocks that block 0 leads to are not marked free. -/
theorem lost_used (h : blockPtr.Chain fat (ofBlock 0) (0 :: lost)) (hb : b ∈ 0 :: lost) :
    fat b ≠ 0 := by
  intro hzero
  rcases h.link_of_mem hb with heof | ⟨c, hc, hlink⟩
  · exact eof_ne_zero (heof.symm.trans hzero)
  · obtain rfl : c = 0 := ofBlock_eq_zero.mp (hlink.symm.trans hzero)
    exact (List.nodup_cons.mp h.nodup).1 hc

/-- A chain whose changed blocks were marked free loses block 0 and what is
behind it. -/
theorem loses_zero {changed new : List (Fin numBlocks)} (h : blockPtr.Chain fat v l)
    (hroute : Rerouted changed changed l new) (hmeets : ¬ l.Disjoint changed)
    (hfree : ∀ b ∈ l, b ∈ changed → fat b = 0) :
    ∃ lost, blockPtr.Chain fat (ofBlock 0) (0 :: lost) ∧ 0 :: lost ⊆ l ∧
      (0 :: lost).Disjoint changed ∧ new.Disjoint (0 :: lost) := by
  rcases hroute with ⟨-, hnone⟩ | ⟨front, c, back, rest, rfl, hc, -, rfl, hrest⟩
  · exact absurd (fun b hb hbc => hnone b hb hbc) hmeets
  · obtain ⟨lost, rfl, hlost⟩ := chain_behind_zero h (hfree c (by simp) hc)
    have hin : 0 :: lost ⊆ front ++ c :: 0 :: lost := by
      intro b hb
      exact List.mem_append_right _ (List.mem_cons_of_mem c hb)
    have hunchanged : (0 :: lost).Disjoint changed := by
      intro b hb hbc
      exact lost_used hlost hb (hfree b (hin hb) hbc)
    refine ⟨lost, hlost, hin, hunchanged, ?_⟩
    intro b hbnew hb
    rcases List.mem_append.mp hbnew with hbfront | hbrest
    · exact List.disjoint_of_nodup_append h.nodup hbfront (List.mem_cons_of_mem c hb)
    · -- from `c` on, the new chain runs through changed blocks only
      rcases List.mem_cons.mp hbrest with rfl | hbrest
      · exact hunchanged hb hc
      · exact hunchanged hb (hrest hbrest)

theorem OnePair.used {f g : Fin maxFileNum} (h : OnePair s chain f g lost) (hs : Threads s chain)
    (hi : s.Live i) (hb : b ∈ chain i) : s.fatTable b ≠ 0 := by
  intro hzero
  exact h.avoids i hi (zero_mem_of_entry_zero (hs i hi) hb hzero) List.mem_cons_self

/-- When every changed entry still leads to the end mark, so does every file. -/
theorem Threads.reroute {changed onward : List (Fin numBlocks)} (hs : Threads s chain)
    (hsame : ∀ b, b ∉ changed → fat b = s.fatTable b)
    (honward : ∀ b ∈ changed, ∃ rest,
      blockPtr.Chain fat (ofBlock b) (b :: rest) ∧ rest ⊆ onward) :
    ∃ chain' : Chains, ∀ j, s.Live j →
      blockPtr.Chain fat (s.directory j).startBlock (chain' j) ∧
        Rerouted changed onward (chain j) (chain' j) := by
  have hroutes : ∀ j, ∃ l', s.Live j →
      blockPtr.Chain fat (s.directory j).startBlock l' ∧
        Rerouted changed onward (chain j) l' := by
    intro j
    by_cases hj : s.Live j
    · obtain ⟨l', hl', hroute⟩ := (hs j hj).reroute hsame honward
      exact ⟨l', fun _ => ⟨hl', hroute⟩⟩
    · -- the chain of a slot that is not in use does not matter
      exact ⟨[], fun hlive => absurd hlive hj⟩
  choose chain' hchain' using hroutes
  exact ⟨chain', hchain'⟩

/-! ## Creating and appending -/

/-- Slot `h` gets the chain `l`. The changed blocks were marked free or in the
old chain of `h`, and all of them lead to the end mark. -/
structure Rewired (s t : FileSystem) (chain : Chains) (h : Fin maxFileNum)
    (changed l : List (Fin numBlocks)) : Prop where
  others : ∀ j, j ≠ h → t.directory j = s.directory j
  same : ∀ b, b ∉ changed → t.fatTable b = s.fatTable b
  onward : ∀ b ∈ changed,
    ∃ rest, blockPtr.Chain t.fatTable (ofBlock b) (b :: rest) ∧ rest ⊆ changed
  source : ∀ b ∈ changed, s.fatTable b = 0 ∨ s.Live h ∧ b ∈ chain h
  own : blockPtr.Chain t.fatTable (t.directory h).startBlock l
  own_source : ∀ b ∈ l, b ∈ changed ∨ s.Live h ∧ b ∈ chain h

section Rewire

variable {h : Fin maxFileNum} {changed : List (Fin numBlocks)} (hs : Threads s chain)
  (hrew : Rewired s t chain h changed l)

include hrew

theorem Rewired.live {j : Fin maxFileNum} (hj : j ≠ h) (hlive : t.Live j) : s.Live j := by
  rwa [FileSystem.Live, hrew.others j hj] at hlive

include hs

/-- All files keep a chain. -/
theorem Rewired.threads : ∃ chain', Threads t chain' ∧ chain' h = l ∧
    ∀ j, j ≠ h → s.Live j → Rerouted changed changed (chain j) (chain' j) := by
  obtain ⟨chain', hchain'⟩ := hs.reroute hrew.same hrew.onward
  refine ⟨Function.update chain' h l, fun j hj => ?_, Function.update_self _ _ _,
    fun j hj hlive => ?_⟩
  · by_cases hjh : j = h
    · rw [hjh, Function.update_self]
      exact hrew.own
    · rw [Function.update_of_ne hjh, hrew.others j hjh]
      exact (hchain' j (hrew.live hjh hj)).1
  · rw [Function.update_of_ne hj]
    exact (hchain' j hlive).2

omit hs

variable {chain' : Chains} (hown : chain' h = l)
  (hroute : ∀ j, j ≠ h → s.Live j → Rerouted changed changed (chain j) (chain' j))

include hown hroute

/-- Where the blocks of a new chain come from. -/
theorem Rewired.from_old {j : Fin maxFileNum} (hj : t.Live j) (hb : b ∈ chain' j) :
    b ∈ changed ∨ s.Live j ∧ b ∈ chain j := by
  by_cases hjh : j = h
  · subst hjh
    rw [hown] at hb
    exact hrew.own_source b hb
  · have hlive := hrew.live hjh hj
    rcases List.mem_append.mp ((hroute j hjh hlive).subset hb) with hold | hnew
    · exact Or.inr ⟨hlive, hold⟩
    · exact Or.inl hnew

/-- A file that meets no changed block stays apart from what it was apart from. -/
theorem Rewired.apart_of_untouched {j k : Fin maxFileNum} (hj : t.Live j) (hk : t.Live k)
    (hkh : k ≠ h) (huntouched : (chain k).Disjoint changed)
    (hapart : s.Live j → s.Live k → (chain j).Disjoint (chain k)) :
    (chain' j).Disjoint (chain' k) := by
  have hlive := hrew.live hkh hk
  rw [(hroute k hkh hlive).eq_of_disjoint huntouched]
  intro b hbj hbk
  rcases hrew.from_old hown hroute hj hbj with hnew | ⟨hsj, hold⟩
  · exact huntouched hbk hnew
  · exact hapart hsj hlive hold hbk

include hs

theorem AllApart.rewire (hapart : AllApart s chain) :
    AllApart t chain' ∨ ∃ f g lost, OnePair t chain' f g lost := by
  have hfree : ∀ j, j ≠ h → s.Live j → ∀ b ∈ chain j, b ∈ changed → s.fatTable b = 0 := by
    intro j hj hlive b hb hnew
    refine (hrew.source b hnew).resolve_right ?_
    rintro ⟨hsh, hbh⟩
    exact hapart j h hlive hsh hj hb hbh
  by_cases htouched : ∃ f, f ≠ h ∧ s.Live f ∧ ¬ (chain f).Disjoint changed
  · -- `f` and `h` are the pair: `f` loses block 0 and what is behind it
    right
    obtain ⟨f, hf, hlive, hmeets⟩ := htouched
    obtain ⟨lost, hlost, hin, hunchanged, hgone⟩ :=
      loses_zero (hs f hlive) (hroute f hf hlive) hmeets (hfree f hf hlive)
    have hothers : ∀ j k, t.Live j → t.Live k → j ≠ k → k ∉ s(f, h) →
        (chain' j).Disjoint (chain' k) := by
      intro j k hj hk hne hnot
      rw [Sym2.mem_iff, not_or] at hnot
      obtain ⟨hkf, hkh⟩ := hnot
      have hlivek := hrew.live hkh hk
      refine hrew.apart_of_untouched hown hroute hj hk hkh ?_
        fun hsj hsk => hapart j k hsj hsk hne
      -- a second file would have to contain block 0, which is in `f`
      intro b hb hbc
      have hzero := zero_mem_of_entry_zero (hs k hlivek) hb (hfree k hkh hlivek b hb hbc)
      exact hapart k f hlivek hlive hkf hzero (hin List.mem_cons_self)
    refine ⟨f, h, lost, ?_, hlost.frame fun b hb => hrew.same b (hunchanged hb), ?_⟩
    · intro j k hj hk hne hpair
      by_cases hkin : k ∈ s(f, h)
      · refine (hothers k j hk hj hne.symm fun hjin => ?_).symm
        exact hpair ((Sym2.mem_and_mem_iff hne).mp ⟨hjin, hkin⟩).symm
      · exact hothers j k hj hk hne hkin
    · intro j hj b hbj hb
      by_cases hjf : j = f
      · rw [hjf] at hbj
        exact hgone hbj hb
      · rcases hrew.from_old hown hroute hj hbj with hbc | ⟨hsj, hbold⟩
        · exact hunchanged hb hbc
        · exact hapart j f hsj hlive hjf hbold (hin hb)
  · left
    push Not at htouched
    intro j k hj hk hne
    by_cases hkh : k = h
    · have hjh : j ≠ h := fun heq => hne (heq.trans hkh.symm)
      exact (hrew.apart_of_untouched hown hroute hk hj hjh (htouched j hjh (hrew.live hjh hj))
        fun hsk hsj => hapart k j hsk hsj hne.symm).symm
    · exact hrew.apart_of_untouched hown hroute hj hk hkh (htouched k hkh (hrew.live hkh hk))
        fun hsj hsk => hapart j k hsj hsk hne

theorem OnePair.rewire {f g : Fin maxFileNum} (hpair : OnePair s chain f g lost) :
    OnePair t chain' f g lost := by
  have hshared : ∀ j, j ≠ h → s.Live j → ¬ (chain j).Disjoint changed → s(j, h) = s(f, g) := by
    intro j hj hlive hmeets
    by_contra hne
    refine hmeets fun b hb hbc => ?_
    rcases hrew.source b hbc with hzero | ⟨hsh, hbh⟩
    · exact hpair.used hs hlive hb hzero
    · exact hpair.apart j h hlive hsh hj hne hb hbh
  have hunchanged : ∀ b ∈ 0 :: lost, b ∉ changed := by
    intro b hb hbc
    rcases hrew.source b hbc with hzero | ⟨hsh, hbh⟩
    · exact lost_used hpair.lost_chain hb hzero
    · exact hpair.avoids h hsh hbh hb
  refine ⟨?_, hpair.lost_chain.frame fun b hb => hrew.same b (hunchanged b hb), ?_⟩
  · intro j k hj hk hne hnot
    by_cases hk' : k ≠ h ∧ (chain k).Disjoint changed
    · exact hrew.apart_of_untouched hown hroute hj hk hk'.1 hk'.2
        fun hsj hsk => hpair.apart j k hsj hsk hne hnot
    by_cases hj' : j ≠ h ∧ (chain j).Disjoint changed
    · exact (hrew.apart_of_untouched hown hroute hk hj hj'.1 hj'.2 fun hsk hsj =>
        hpair.apart k j hsk hsj hne.symm fun heq => hnot (Sym2.eq_swap.trans heq)).symm
    -- two files that both meet the changed blocks are the pair
    exfalso
    by_cases hjh : j = h
    · subst hjh
      have hkh : k ≠ j := hne.symm
      exact hnot (Sym2.eq_swap.trans (hshared k hkh (hrew.live hkh hk) fun hd => hk' ⟨hkh, hd⟩))
    · have hjshared := hshared j hjh (hrew.live hjh hj) fun hd => hj' ⟨hjh, hd⟩
      by_cases hkh : k = h
      · rw [hkh] at hnot
        exact hnot hjshared
      · have hkshared := hshared k hkh (hrew.live hkh hk) fun hd => hk' ⟨hkh, hd⟩
        exact hne (Sym2.congr_left.mp (hjshared.trans hkshared.symm))
  · intro j hj b hbj hb
    rcases hrew.from_old hown hroute hj hbj with hnew | ⟨hsj, hold⟩
    · exact hunchanged b hb hnew
    · exact hpair.avoids j hsj hold hb

omit hown hroute

/-- A rewired disk can still be deleted from. -/
theorem Rewired.deletable (hshape : AllApart s chain ∨ ∃ f g lost, OnePair s chain f g lost) :
    Deletable t := by
  obtain ⟨chain', hthreads, hown, hroute⟩ := hrew.threads hs
  refine ⟨chain', hthreads, ?_⟩
  rcases hshape with hapart | ⟨f, g, lost, hpair⟩
  · exact hapart.rewire hs hrew hown hroute
  · exact Or.inr ⟨f, g, lost, hpair.rewire hs hrew hown hroute⟩

end Rewire

/-- A new file, whose block may still be in the chain of another one. -/
theorem rewired_created {filename : List UInt8} (hfree : s.fatTable b = 0) :
    Rewired s (created s filename i b) chain i [b] [b] := by
  have hchain : blockPtr.Chain (created s filename i b).fatTable (ofBlock b) [b] := by
    refine .link ?_
    show blockPtr.Chain _ (Function.update s.fatTable b eof b) []
    rw [Function.update_self]
    exact .eof
  refine ⟨fun j hj => created_other hj, ?_, ?_, ?_, ?_, ?_⟩
  · intro c hc
    exact Function.update_of_ne (fun heq => hc (List.mem_singleton.mpr heq)) _ _
  · intro c hc
    rw [List.mem_singleton.mp hc]
    exact ⟨[], hchain, List.nil_subset _⟩
  · intro c hc
    rw [List.mem_singleton.mp hc]
    exact Or.inl hfree
  · rw [created_self]
    exact hchain
  · intro c hc
    exact Or.inl hc

/-- Wherever an allocation starts, all blocks it links lead to the end mark. -/
theorem extend_onward (n : Nat) (fat : Table) (p : Fin numBlocks) :
    (extend n fat p).2 = [] ∧ (extend n fat p).1 = fat ∨
      ∀ c ∈ p :: (extend n fat p).2, ∃ rest,
        blockPtr.Chain (extend n fat p).1 (ofBlock c) (c :: rest) ∧
          rest ⊆ (extend n fat p).2 := by
  cases n with
  | zero => exact Or.inl ⟨rfl, rfl⟩
  | succ n =>
      rw [extend]
      cases hfree : findFreeBlock fat with
      | none => exact Or.inl ⟨rfl, rfl⟩
      | some new =>
          right
          -- block 0 is not free any more, so the rest of the allocation is a chain
          obtain ⟨-, hchain⟩ := extend_spec n (linkBlock_found hfree) (linkBlock_new fat p new)
          have hall : ∀ c ∈ new :: (extend n (linkBlock fat p new) new).2, ∃ rest,
              blockPtr.Chain (extend n (linkBlock fat p new) new).1 (ofBlock c) (c :: rest) ∧
                rest ⊆ new :: (extend n (linkBlock fat p new) new).2 := by
            intro c hc
            obtain ⟨front, back, hsplit⟩ := List.append_of_mem hc
            rw [hsplit] at hchain ⊢
            exact ⟨back, hchain.from_mem, by simp⟩
          intro c hc
          rcases List.mem_cons.mp hc with rfl | hc
          · by_cases hmem : c ∈ new :: (extend n (linkBlock fat c new) new).2
            · exact hall c hmem
            · obtain ⟨hne, hrest⟩ := not_or.mp (mt List.mem_cons.mpr hmem)
              refine ⟨_, .link ?_, List.Subset.refl _⟩
              show blockPtr.Chain _ ((extend n (linkBlock fat c new) new).1 c) _
              rw [extend_same hne hrest, linkBlock_old hne]
              exact hchain
          · exact hall c hc

/-- An append at any block of the file, the last one or not. -/
theorem rewired_appended {p : Fin numBlocks} {data : List UInt8} (hs : Threads s chain)
    (hlive : s.Live i) (hp : p ∈ chain i) :
    ∃ changed l, Rewired s (appended s i p data) chain i changed l := by
  have hstart := appended_startBlock s i i p data
  rcases extend_onward (blocksFor (data.length - (32 - (s.directory i).size % 32))) s.fatTable p
    with ⟨-, hfat⟩ | honward
  · refine ⟨[], chain i, fun j hj => appended_other hj, fun c _ => congrFun hfat c, by simp,
      by simp, ?_, fun c hc => Or.inr ⟨hlive, hc⟩⟩
    rw [hstart]
    exact (hs i hlive).frame fun c _ => congrFun hfat c
  · have hsame : ∀ c, c ∉ p :: (appendAlloc s i p data.length).2 →
        (appended s i p data).fatTable c = s.fatTable c := by
      intro c hc
      obtain ⟨hne, hnew⟩ := not_or.mp (mt List.mem_cons.mpr hc)
      exact extend_same hne hnew
    have honward' : ∀ c ∈ p :: (appendAlloc s i p data.length).2, ∃ rest,
        blockPtr.Chain (appended s i p data).fatTable (ofBlock c) (c :: rest) ∧
          rest ⊆ p :: (appendAlloc s i p data.length).2 := by
      intro c hc
      obtain ⟨rest, hchain, hrest⟩ := honward c hc
      exact ⟨rest, hchain, List.Subset.trans hrest (List.subset_cons_self p _)⟩
    obtain ⟨l, hl, hroute⟩ := (hs i hlive).reroute hsame honward'
    refine ⟨p :: (appendAlloc s i p data.length).2, l, fun j hj => appended_other hj, hsame,
      honward', ?_, hstart ▸ hl, ?_⟩
    · intro c hc
      rcases List.mem_cons.mp hc with rfl | hc
      · exact Or.inr ⟨hlive, hp⟩
      · refine (extend_fresh hc).imp_right fun heq => ?_
        rw [heq]
        exact ⟨hlive, hp⟩
    · intro c hc
      rcases List.mem_append.mp (hroute.subset hc) with hold | hnew
      · exact Or.inr ⟨hlive, hold⟩
      · exact Or.inl hnew

/-! ## Deleting -/

section Remove

variable {d : Fin maxFileNum} (hs : Threads s chain) (hd : s.Live d)

theorem removed_live {j : Fin maxFileNum} (hj : (removed s d l).Live j) : j ≠ d ∧ s.Live j := by
  have hne : j ≠ d := by
    rintro rfl
    rw [FileSystem.Live, removed_self] at hj
    exact hj rfl
  rw [FileSystem.Live, removed_other hne] at hj
  exact ⟨hne, hj⟩

theorem removed_other_block (hb : b ∉ l) : (removed s d l).fatTable b = s.fatTable b := if_neg hb

/-- A file that is apart from the deleted one keeps its chain. -/
theorem removed_chain {j : Fin maxFileNum} (hs : Threads s chain)
    (hj : (removed s d (chain d)).Live j) (hapart : (chain j).Disjoint (chain d)) :
    blockPtr.Chain (removed s d (chain d)).fatTable
      ((removed s d (chain d)).directory j).startBlock (chain j) := by
  obtain ⟨hne, hlive⟩ := removed_live hj
  rw [removed_other hne]
  exact (hs j hlive).frame fun b hb => removed_other_block (hapart hb)

include hd

variable {f g : Fin maxFileNum}

/-- The blocks that are in no file are not touched. -/
theorem OnePair.removed_lost (hpair : OnePair s chain f g lost) :
    blockPtr.Chain (removed s d (chain d)).fatTable (ofBlock 0) (0 :: lost) :=
  hpair.lost_chain.frame fun _ hb => removed_other_block fun hbd => hpair.avoids d hd hbd hb

include hs

theorem AllApart.removed (hapart : AllApart s chain) : Deletable (removed s d (chain d)) := by
  refine ⟨chain, fun j hj => ?_, Or.inl fun j k hj hk hne => ?_⟩
  · obtain ⟨hne, hlive⟩ := removed_live hj
    exact removed_chain hs hj (hapart j d hlive hd hne)
  · exact hapart j k (removed_live hj).2 (removed_live hk).2 hne

/-- A file of the pair is deleted: the other one gets the lost blocks. -/
theorem OnePair.removed_one (hpair : OnePair s chain f g lost) (hmem : d ∈ s(f, g)) :
    Deletable (removed s d (chain d)) := by
  have honward : ∀ b ∈ chain d, ∃ rest,
      blockPtr.Chain (Fat.removed s d (chain d)).fatTable (ofBlock b) (b :: rest) ∧
        rest ⊆ 0 :: lost := by
    intro b hb
    refine ⟨0 :: lost, .link ?_, List.Subset.refl _⟩
    rw [show (Fat.removed s d (chain d)).fatTable b = 0 from if_pos hb]
    exact hpair.removed_lost hd
  obtain ⟨chain', hchain'⟩ := hs.reroute (fun b hb => removed_other_block hb) honward
  -- at most one file was in a pair with `d`; all others have their old chain
  have hapart : ∀ j k, s.Live j → s.Live k → j ≠ d → k ≠ d → j ≠ k → s(k, d) ≠ s(f, g) →
      (chain' j).Disjoint (chain' k) := by
    intro j k hj hk hjd hkd hne hnot
    have hkeep := (hchain' k hk).2.eq_of_disjoint (hpair.apart k d hk hd hkd hnot)
    rw [hkeep]
    intro b hbj hbk
    rcases List.mem_append.mp ((hchain' j hj).2.subset hbj) with hold | hnew
    · refine hpair.apart j k hj hk hne (fun heq => ?_) hold hbk
      rw [← heq, Sym2.mem_iff] at hmem
      rcases hmem with rfl | rfl
      · exact hjd rfl
      · exact hkd rfl
    · exact hpair.avoids k hk hbk hnew
  refine ⟨chain', fun j hj => ?_, Or.inl fun j k hj hk hne => ?_⟩
  · obtain ⟨hjd, hlive⟩ := removed_live hj
    rw [removed_other hjd]
    exact (hchain' j hlive).1
  · obtain ⟨hjd, hsj⟩ := removed_live hj
    obtain ⟨hkd, hsk⟩ := removed_live hk
    by_cases hnot : s(k, d) = s(f, g)
    · refine (hapart k j hsk hsj hkd hjd hne.symm fun heq => ?_).symm
      exact hne (Sym2.congr_left.mp (heq.trans hnot.symm))
    · exact hapart j k hsj hsk hjd hkd hne hnot

theorem OnePair.removed (hpair : OnePair s chain f g lost) :
    Deletable (removed s d (chain d)) := by
  by_cases hmem : d ∈ s(f, g)
  · exact hpair.removed_one hs hd hmem
  · have hnot : ∀ j, s(j, d) ≠ s(f, g) := fun j heq => hmem (heq ▸ Sym2.mem_mk_right j d)
    refine ⟨chain, fun j hj => ?_, Or.inr ⟨f, g, lost, ?_, hpair.removed_lost hd, ?_⟩⟩
    · obtain ⟨hne, hlive⟩ := removed_live hj
      exact removed_chain hs hj (hpair.apart j d hlive hd hne (hnot j))
    · intro j k hj hk
      exact hpair.apart j k (removed_live hj).2 (removed_live hk).2
    · intro j hj
      exact hpair.avoids j (removed_live hj).2

end Remove

/-! ## Runs -/

/-- The seek loop stays in the chain. -/
theorem walk_mem (h : blockPtr.Chain fat v l) (hne : l ≠ []) (steps : Nat) :
    ∃ p ∈ l, walk fat steps v = some (ofBlock p) := by
  induction h generalizing steps with
  | eof => exact absurd rfl hne
  | @link b l hrest ih =>
      cases steps with
      | zero => exact ⟨b, List.mem_cons_self, rfl⟩
      | succ steps =>
          by_cases heof : fat b = eof
          · refine ⟨b, List.mem_cons_self, ?_⟩
            show walk fat (steps + 1) (ofBlock b) = _
            simp [walk, heof]
          · obtain ⟨p, hp, hwalk⟩ := ih (fun hnil => heof (hnil ▸ hrest).eq_eof) steps
            refine ⟨p, List.mem_cons_of_mem b hp, ?_⟩
            show walk fat (steps + 1) (ofBlock b) = _
            simp [walk, heof, hwalk]

theorem Threads.nonempty (hs : Threads s chain) (hsafe : RangeSafe s) (hi : s.Live i) :
    chain i ≠ [] := by
  intro hnil
  have hchain := hs i hi
  rw [hnil] at hchain
  obtain ⟨b, hb⟩ := InRange.exists_block (hsafe.starts i)
  exact ofBlock_ne_eof b (hb.symm.trans hchain.eq_eof)

theorem Deletable.step {filename : List UInt8} (h : Deletable s) (hsafe : RangeSafe s)
    (hname : filename ≠ []) (heffect : Effect s filename t) : Deletable t := by
  obtain ⟨chain, hs, hshape⟩ := h
  cases heffect with
  | unchanged => exact ⟨chain, hs, hshape⟩
  | created _ _ hfree => exact (rewired_created hfree).deletable hs hshape
  | @appended i last data hfind hwalk =>
      have hlive := findFile_live hfind hname
      obtain ⟨p, hp, hwalk'⟩ := walk_mem (hs i hlive) (hs.nonempty hsafe hlive)
        ((s.directory i).size / blockSize)
      obtain rfl : last = p := blockPtr.ptr_inj (Option.some.inj (hwalk.symm.trans hwalk'))
      obtain ⟨changed, l, hrew⟩ := rewired_appended hs hlive hp
      exact hrew.deletable hs hshape
  | @removed i fat hfind hfree =>
      have hlive := findFile_live hfind hname
      -- the loop has cleared the chain of the file
      have hcleared := freeLoop_chain (hs i hlive)
        (by have hle := length_chain_le (hs i hlive); omega : (chain i).length < numBlocks + 2)
      obtain rfl := Option.some.inj (hfree.symm.trans hcleared)
      rcases hshape with hapart | ⟨f, g, lost, hpair⟩
      · exact hapart.removed hs hlive
      · exact hpair.removed hs hlive

theorem Deletable.zero : Deletable .zero := by
  have hdead : ∀ i, ¬ FileSystem.zero.Live i := fun i hi => hi rfl
  exact ⟨fun _ => [], fun i hi => absurd hi (hdead i), Or.inl fun i _ hi => absurd hi (hdead i)⟩

theorem deletable_of_run {cmds : List Command} {outs : List (Int × List Line)}
    (hnames : ∀ cmd ∈ cmds, cmd.filename ≠ [])
    (hrun : fatMachine.run .zero cmds = some (outs, t)) : Deletable t := by
  have hany : fatMachine.Along (fun _ _ => True) .zero cmds :=
    Machine.along_iff.mpr fun _ _ _ _ _ _ => trivial
  have hinv : RangeSafe t ∧ Deletable t := by
    refine hany.with_mem.reached_inv (fun s => RangeSafe s ∧ Deletable s) ?_
      ⟨RangeSafe.zero, Deletable.zero⟩ hrun
    intro s cmd o u h hok hstep
    have heffect := (h.1.effect (fatMachine_step.mp hstep)).1
    exact ⟨h.1.step heffect, h.2.step h.1 (hnames cmd hok.1) heffect⟩
  exact hinv.2

/-- **Termination of `delete_file`.** In every state reached with non-empty names,
deleting a file follows a chain `l` to its end and clears it. -/
theorem delete_terminates {cmds : List Command} {outs : List (Int × List Line)}
    (hnames : ∀ cmd ∈ cmds, cmd.filename ≠ [])
    (hrun : fatMachine.run .zero cmds = some (outs, t)) {filename : List UInt8}
    (hname : filename ≠ []) :
    (∃ r, deleteFile filename t = some r) ∧
      ∀ i, findFile t filename = some i → ∃ l,
        blockPtr.Chain t.fatTable (t.directory i).startBlock l ∧
          deleteFile filename t = some (0, [.deleted filename], removed t i l) := by
  obtain ⟨chain, hs, -⟩ := deletable_of_run hnames hrun
  have hfound : ∀ i, findFile t filename = some i →
      deleteFile filename t = some (0, [.deleted filename], removed t i (chain i)) :=
    fun i hfind => deleteFile_eq hfind (hs i (findFile_live hfind hname))
  constructor
  · cases hfind : findFile t filename with
    | none => exact ⟨_, deleteFile_none hfind⟩
    | some i => exact ⟨_, hfound i hfind⟩
  · intro i hfind
    exact ⟨chain i, hs i (findFile_live hfind hname), hfound i hfind⟩

/-- File `b` links block 0 and loses it to `c`, with which it then shares its
block; when `b` is deleted, `c` leads to block 0. -/
def sharingCommands : List Command :=
  [.create [97], .create [98], .delete [97], .write [98] (List.replicate 33 120), .create [99],
    .delete [98]]

theorem delete_terminates_sharing :
    ∃ outs t, fatMachine.run .zero sharingCommands = some (outs, t) ∧
      ∃ r, deleteFile [99] t = some r := by
  have hsome : (fatMachine.run .zero sharingCommands).isSome = true := by decide +kernel
  obtain ⟨⟨outs, t⟩, hrun⟩ := Option.isSome_iff_exists.mp hsome
  exact ⟨outs, t, hrun, (delete_terminates (by decide) hrun (by decide)).1⟩

end OsProjects.Fat
