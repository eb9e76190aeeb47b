import Mathlib.Data.List.TakeWhile
import OsProjects.Fat.Allocation

/-!
# Contents

The bytes along a chain, and what the writing and the reading loop do to them.
`appendLoop_eq` describes the writing loop for every FAT: it links as many
blocks as the data need and the FAT has (`extend`), and then fills them in order.
-/

namespace OsProjects.Fat

open OsProjects.Lib

variable {fat : Table} {area area' : Area} {v : Int} {l : List (Fin numBlocks)}
  {b last : Fin numBlocks} {s s' : FileSystem}

/-! ## Bytes of a block and of a chain -/

def blockBytes (area : Area) (b : Fin numBlocks) : List UInt8 := List.ofFn (area b)

/-- The data of the blocks of a chain, one after the other. -/
def chainBytes (area : Area) (l : List (Fin numBlocks)) : List UInt8 :=
  l.flatMap (blockBytes area)

@[simp] theorem length_blockBytes : (blockBytes area b).length = 32 :=
  List.length_ofFn

@[simp] theorem chainBytes_nil : chainBytes area [] = [] := rfl

@[simp] theorem chainBytes_cons :
    chainBytes area (b :: l) = blockBytes area b ++ chainBytes area l := rfl

theorem chainBytes_append (l l' : List (Fin numBlocks)) :
    chainBytes area (l ++ l') = chainBytes area l ++ chainBytes area l' :=
  List.flatMap_append

@[simp] theorem length_chainBytes : (chainBytes area l).length = 32 * l.length := by
  induction l with
  | nil => rfl
  | cons b l ih =>
      rw [chainBytes_cons, List.length_append, length_blockBytes, ih, List.length_cons]
      omega

theorem chainBytes_congr (h : ∀ b ∈ l, area' b = area b) :
    chainBytes area' l = chainBytes area l := by
  induction l with
  | nil => rfl
  | cons b l ih =>
      rw [chainBytes_cons, chainBytes_cons, ih fun c hc => h c (List.mem_cons_of_mem b hc),
        blockBytes, blockBytes, h b List.mem_cons_self]

theorem memcpy_other {c : Fin numBlocks} {offset : Nat} {src : List UInt8} (h : c ≠ b) :
    memcpy area b offset src c = area c :=
  Function.update_of_ne h _ _

theorem memcpy_nil {offset : Nat} : memcpy area b offset [] = area := by
  funext c
  by_cases h : c = b
  · subst h
    funext j
    simp [memcpy]
  · exact memcpy_other h

/-- Overwriting a range of an array, on the list of its elements. -/
theorem ofFn_overwrite {α : Type} {n : Nat} (f : Fin n → α) {offset : Nat} {src : List α}
    (h : offset + src.length ≤ n) :
    (List.ofFn fun j => if offset ≤ j.val then src.getD (j.val - offset) (f j) else f j) =
      (List.ofFn f).take offset ++ (src ++ (List.ofFn f).drop (offset + src.length)) := by
  refine List.ext_getElem (by simp; omega) fun j hj hj' => ?_
  rw [List.getElem_ofFn]
  by_cases hlow : offset ≤ j
  · rw [if_pos hlow, List.getElem_append_right (by simp; omega)]
    by_cases hin : j - offset < src.length
    · rw [List.getElem_append_left (by simp; omega)]
      simp [List.getD_eq_getElem?_getD, hin, Nat.min_eq_left (by omega : offset ≤ n)]
    · rw [List.getElem_append_right (by simp; omega)]
      simp only [List.getD_eq_getElem?_getD, List.getElem?_eq_none (not_lt.mp hin),
        Option.getD_none, List.getElem_drop, List.getElem_ofFn]
      congr 2
      simp
      omega
  · rw [if_neg hlow, List.getElem_append_left (by simp at hj ⊢; omega)]
    simp

/-- Copying within a block replaces the bytes from `offset` on. -/
theorem blockBytes_memcpy {offset : Nat} {src : List UInt8} (h : offset + src.length ≤ 32) :
    blockBytes (memcpy area b offset src) b =
      (blockBytes area b).take offset ++
        (src ++ (blockBytes area b).drop (offset + src.length)) := by
  rw [blockBytes, memcpy, Function.update_self]
  exact ofFn_overwrite (area b) h

/-! ## The writing loop -/

/-- The number of blocks that hold `n` bytes. -/
def blocksFor (n : Nat) : Nat := (n + 31) / 32

/-- Filling fresh blocks one after the other. -/
def fillBlocks (area : Area) : List (Fin numBlocks) → List UInt8 → Area
  | [], _ => area
  | b :: l, data => fillBlocks (memcpy area b 0 (data.take 32)) l (data.drop 32)

theorem fillBlocks_other {c : Fin numBlocks} {data : List UInt8} (h : c ∉ l) :
    fillBlocks area l data c = area c := by
  induction l generalizing area data with
  | nil => rfl
  | cons b l ih =>
      obtain ⟨hb, hl⟩ := not_or.mp (mt List.mem_cons.mpr h)
      rw [fillBlocks, ih hl, memcpy_other hb]

/-- The filled blocks begin with the data. -/
theorem fillBlocks_bytes {data : List UInt8} (hnodup : l.Nodup) :
    data.take (32 * l.length) <+: chainBytes (fillBlocks area l data) l := by
  induction l generalizing area data with
  | nil => simp
  | cons b l ih =>
      obtain ⟨hb, hl⟩ := List.nodup_cons.mp hnodup
      have hblock : blockBytes (fillBlocks area (b :: l) data) b =
          data.take 32 ++ (blockBytes area b).drop (data.take 32).length := by
        rw [blockBytes, fillBlocks, fillBlocks_other hb, ← blockBytes,
          blockBytes_memcpy (by simp)]
        simp
      rw [chainBytes_cons, hblock]
      by_cases hlen : data.length ≤ 32
      · -- the data end in this block
        rw [List.take_of_length_le (by simp; omega), List.take_of_length_le hlen,
          List.append_assoc]
        exact List.prefix_append _ _
      · have hfull : (blockBytes area b).drop (data.take 32).length = [] :=
          List.drop_of_length_le (by simp; omega)
        rw [hfull, List.append_nil, List.length_cons, Nat.mul_add, Nat.add_comm, Nat.mul_one,
          List.take_add]
        exact (List.prefix_append_right_inj _).mpr (ih hl)

/-- Filling up the last block and then new ones appends to the bytes of the
chain. -/
theorem append_bytes (area : Area) (data : List UInt8) {front new : List (Fin numBlocks)}
    {offset : Nat} (hoffset : offset < 32) (hnodup : (front ++ last :: new).Nodup) :
    (chainBytes area (front ++ [last])).take (32 * front.length + offset) ++
        data.take (32 - offset + 32 * new.length) <+:
      chainBytes (fillBlocks (memcpy area last offset (data.take (32 - offset))) new
        (data.drop (32 - offset))) (front ++ last :: new) := by
  obtain ⟨-, htail, hapart⟩ := List.nodup_append.mp hnodup
  obtain ⟨hlast, hnew⟩ := List.nodup_cons.mp htail
  have hfront : chainBytes (fillBlocks (memcpy area last offset (data.take (32 - offset))) new
      (data.drop (32 - offset))) front = chainBytes area front := by
    refine chainBytes_congr fun c hc => ?_
    rw [fillBlocks_other fun hmem => hapart c hc c (List.mem_cons_of_mem last hmem) rfl,
      memcpy_other fun heq => hapart c hc last List.mem_cons_self heq]
  have hblock : blockBytes (fillBlocks (memcpy area last offset (data.take (32 - offset))) new
      (data.drop (32 - offset))) last =
        (blockBytes area last).take offset ++ (data.take (32 - offset) ++
          (blockBytes area last).drop (offset + (data.take (32 - offset)).length)) := by
    rw [blockBytes, fillBlocks_other hlast, ← blockBytes, blockBytes_memcpy]
    rw [List.length_take]
    omega
  have hold : (chainBytes area (front ++ [last])).take (32 * front.length + offset) =
      chainBytes area front ++ (blockBytes area last).take offset := by
    rw [chainBytes_append, ← length_chainBytes, List.take_length_add_append,
      chainBytes_cons, chainBytes_nil, List.append_nil]
  rw [hold, chainBytes_append, chainBytes_cons, hfront, hblock]
  simp only [List.append_assoc, List.prefix_append_right_inj]
  by_cases hfits : data.length ≤ 32 - offset
  · rw [List.take_of_length_le (by omega), List.take_of_length_le hfits]
    exact List.prefix_append _ _
  · -- the last block is full, and the rest of the data are in the new blocks
    have hfull : (blockBytes area last).drop (offset + (data.take (32 - offset)).length) = [] :=
      List.drop_of_length_le (by simp; omega)
    rw [hfull, List.nil_append, List.take_add, List.prefix_append_right_inj]
    exact fillBlocks_bytes hnew

/-- The line printed when fewer blocks were found than needed. -/
def partialLine (filename : List UInt8) (needed found : Nat) : List Line :=
  if found < needed then [.partialAppend filename] else []

theorem appendLoop_nil (filename : List UInt8) (fuel : Nat) (block : Int) (offset : Nat) :
    appendLoop filename fuel s block offset [] = (.done [] [], s) := by
  cases fuel <;> rfl

/-- The writing loop stops when there is no room. -/
theorem appendLoop_full_disk (filename : List UInt8) {fuel offset : Nat} {data : List UInt8}
    (hdata : data ≠ []) (hroom : makeRoom s b offset = none) :
    appendLoop filename (fuel + 1) s (ofBlock b) offset data =
      (.done data [.partialAppend filename], s) := by
  cases data with
  | nil => exact absurd rfl hdata
  | cons x data => simp only [appendLoop, toBlock_ofBlock, hroom]

/-- One iteration of the writing loop. -/
theorem appendLoop_step (filename : List UInt8) {fuel offset offset' : Nat}
    {data : List UInt8} {b' : Fin numBlocks} (hdata : data ≠ [])
    (hroom : makeRoom s b offset = some (s', b', offset')) :
    appendLoop filename (fuel + 1) s (ofBlock b) offset data =
      appendLoop filename fuel
        { s' with
          dataArea := memcpy s'.dataArea b' offset'
            (data.take (min data.length (blockSize - offset'))) }
        (ofBlock b') (offset' + min data.length (blockSize - offset'))
        (data.drop (min data.length (blockSize - offset'))) := by
  cases data with
  | nil => exact absurd rfl hdata
  | cons x data => simp only [appendLoop, toBlock_ofBlock, hroom]

theorem blocksFor_pos {n : Nat} (h : 0 < n) : blocksFor n = blocksFor (n - 32) + 1 := by
  unfold blocksFor
  omega

/-- The writing loop behind a full block: it allocates the blocks the data need
and fills them. -/
theorem appendLoop_full (filename : List UInt8) {fuel : Nat} {data : List UInt8}
    (hfuel : data.length ≤ fuel) :
    appendLoop filename fuel s (ofBlock b) 32 data =
      (.done (data.drop (32 * (extend (blocksFor data.length) s.fatTable b).2.length))
          (partialLine filename (blocksFor data.length)
            (extend (blocksFor data.length) s.fatTable b).2.length),
        { s with
          fatTable := (extend (blocksFor data.length) s.fatTable b).1
          dataArea :=
            fillBlocks s.dataArea (extend (blocksFor data.length) s.fatTable b).2 data }) := by
  induction fuel generalizing s b data with
  | zero =>
      obtain rfl : data = [] := List.length_eq_zero_iff.mp (by omega)
      rw [appendLoop_nil]
      rfl
  | succ fuel ih =>
      by_cases hdata : data = []
      · subst hdata
        rw [appendLoop_nil]
        rfl
      have hpos : 0 < data.length := List.length_pos_iff.mpr hdata
      rw [blocksFor_pos hpos]
      cases hfree : findFreeBlock s.fatTable with
      | none =>
          have hroom : makeRoom s b 32 = none := by simp [makeRoom, blockSize_eq, hfree]
          have hext : extend (blocksFor (data.length - 32) + 1) s.fatTable b =
              (s.fatTable, []) := by rw [extend, hfree]
          rw [appendLoop_full_disk filename hdata hroom, hext]
          simp [partialLine, fillBlocks]
      | some new =>
          have hroom : makeRoom s b 32 =
              some ({ s with fatTable := linkBlock s.fatTable b new }, new, 0) := by
            simp [makeRoom, blockSize_eq, hfree]
          rw [appendLoop_step filename hdata hroom, extend, hfree]
          simp only [blockSize_eq, Nat.sub_zero, Nat.zero_add]
          by_cases hlen : data.length ≤ 32
          · -- everything fits into the new block
            rw [Nat.min_eq_left hlen, List.drop_length, appendLoop_nil, List.take_length]
            have hneed : blocksFor (data.length - 32) = 0 := by unfold blocksFor; omega
            rw [hneed]
            simp only [extend, List.length_singleton, Nat.mul_one, fillBlocks, partialLine]
            rw [List.drop_of_length_le hlen, List.take_of_length_le hlen]
            simp
          · have hrest : (data.drop 32).length = data.length - 32 := List.length_drop
            rw [Nat.min_eq_right (by omega), ih (by omega), hrest]
            simp only [List.drop_drop, List.length_cons, fillBlocks, partialLine,
              Nat.add_lt_add_iff_right]
            congr 3
            omega

/-- The writing loop: the data first fill the current block, and what remains
goes to the blocks that are allocated behind it. -/
theorem appendLoop_eq (filename : List UInt8) {offset : Nat} {data : List UInt8}
    (hoffset : offset < 32) :
    appendLoop filename data.length s (ofBlock b) offset data =
      (.done ((data.drop (32 - offset)).drop
            (32 * (extend (blocksFor (data.length - (32 - offset))) s.fatTable b).2.length))
          (partialLine filename (blocksFor (data.length - (32 - offset)))
            (extend (blocksFor (data.length - (32 - offset))) s.fatTable b).2.length),
        { s with
          fatTable := (extend (blocksFor (data.length - (32 - offset))) s.fatTable b).1
          dataArea := fillBlocks (memcpy s.dataArea b offset (data.take (32 - offset)))
            (extend (blocksFor (data.length - (32 - offset))) s.fatTable b).2
            (data.drop (32 - offset)) }) := by
  by_cases hdata : data = []
  · subst hdata
    rw [appendLoop_nil]
    simp [blocksFor, extend, fillBlocks, partialLine, memcpy_nil]
  obtain ⟨fuel, hfuel⟩ : ∃ fuel, data.length = fuel + 1 :=
    ⟨data.length - 1, by have := List.length_pos_iff.mpr hdata; omega⟩
  have hroom : makeRoom s b offset = some (s, b, offset) := by
    rw [makeRoom, if_neg (by rw [blockSize_eq]; omega)]
  rw [hfuel, appendLoop_step filename hdata hroom, ← hfuel]
  simp only [blockSize_eq]
  by_cases hlen : data.length ≤ 32 - offset
  · have hneed : blocksFor (data.length - (32 - offset)) = 0 := by unfold blocksFor; omega
    rw [Nat.min_eq_left hlen, List.drop_length, appendLoop_nil, hneed, List.take_length,
      List.take_of_length_le hlen, List.drop_of_length_le hlen]
    simp [extend, fillBlocks, partialLine]
  · have hrest : (data.drop (32 - offset)).length = data.length - (32 - offset) :=
      List.length_drop
    rw [Nat.min_eq_right (by omega), Nat.add_sub_cancel' hoffset.le,
      appendLoop_full filename (by omega), hrest]

/-! ## The reading loop -/

theorem printed_cons (line : Line) (lines : List Line) :
    printed (line :: lines) = line.content ++ printed lines := rfl

theorem printed_append (lines lines' : List Line) :
    printed (lines ++ lines') = printed lines ++ printed lines' :=
  List.flatMap_append

/-- One iteration of the reading loop. -/
theorem readLoop_step {fuel remaining : Nat} (hremaining : 0 < remaining) :
    readLoop s (fuel + 1) (ofBlock b) remaining =
      (.bytes (printBlock (s.dataArea b) (min remaining 32)) ::
          (readLoop s fuel (s.fatTable b) (remaining - min remaining 32)).1,
        (readLoop s fuel (s.fatTable b) (remaining - min remaining 32)).2) := by
  have hgo : ¬ (ofBlock b = eof ∨ remaining = 0) := by
    rintro (heq | heq)
    · exact ofBlock_ne_eof b heq
    · omega
  rw [readLoop, if_neg hgo, toBlock_ofBlock]
  rfl

theorem readLoop_stop {fuel remaining : Nat} (h : v = eof ∨ remaining = 0) :
    readLoop s fuel v remaining = ([], true) := by
  cases fuel with
  | zero => rfl
  | succ fuel => rw [readLoop, if_pos h]

theorem printBlock_eq {n : Nat} (h : ∀ x ∈ (blockBytes area b).take n, x ≠ 0) :
    printBlock (area b) n = (blockBytes area b).take n := by
  rw [printBlock]
  exact List.takeWhile_eq_self_iff.mpr fun x hx => by simpa using h x hx

/-- Bytes of a chain, read block by block. -/
theorem take_chainBytes_cons (area : Area) (b : Fin numBlocks) (l : List (Fin numBlocks))
    (n : Nat) : (chainBytes area (b :: l)).take n =
      (blockBytes area b).take (min n 32) ++ (chainBytes area l).take (n - min n 32) := by
  rw [chainBytes_cons, List.take_append, length_blockBytes]
  by_cases h : n ≤ 32
  · rw [Nat.min_eq_left h, Nat.sub_self, Nat.sub_eq_zero_of_le h]
  · have hblock : (blockBytes area b).take n = (blockBytes area b).take 32 := by
      rw [List.take_of_length_le (by simp; omega), List.take_of_length_le (by simp)]
    rw [Nat.min_eq_right (by omega), hblock]

/-- Along a chain the reading loop meets no bad block number. -/
theorem readLoop_ok {fuel remaining : Nat} (h : blockPtr.Chain s.fatTable v l) :
    (readLoop s fuel v remaining).2 = true := by
  induction l generalizing v fuel remaining with
  | nil => rw [readLoop_stop (Or.inl h.eq_eof)]
  | cons b l ih =>
      obtain rfl := h.eq_ptr
      cases fuel with
      | zero => rfl
      | succ fuel =>
          by_cases hzero : remaining = 0
          · rw [readLoop_stop (Or.inr hzero)]
          · show (readLoop s (fuel + 1) (ofBlock b) remaining).2 = true
            rw [readLoop_step (by omega)]
            exact ih h.tail

/-- The reading loop prints the bytes of the chain, if they contain no NUL. -/
theorem readLoop_printed {fuel remaining : Nat} (h : blockPtr.Chain s.fatTable v l)
    (hfuel : remaining ≤ fuel) (hbytes : ∀ x ∈ (chainBytes s.dataArea l).take remaining, x ≠ 0) :
    printed (readLoop s fuel v remaining).1 = (chainBytes s.dataArea l).take remaining := by
  induction l generalizing v fuel remaining with
  | nil =>
      rw [readLoop_stop (Or.inl h.eq_eof)]
      simp [printed]
  | cons b l ih =>
      obtain rfl := h.eq_ptr
      by_cases hzero : remaining = 0
      · rw [readLoop_stop (Or.inr hzero), hzero]
        rfl
      · obtain ⟨fuel, rfl⟩ : ∃ n, fuel = n + 1 := ⟨fuel - 1, by omega⟩
        rw [take_chainBytes_cons] at hbytes ⊢
        have hblock := printBlock_eq fun x hx => hbytes x (List.mem_append_left _ hx)
        have hrest : printed (readLoop s fuel (s.fatTable b) (remaining - min remaining 32)).1 =
            (chainBytes s.dataArea l).take (remaining - min remaining 32) :=
          ih h.tail (by omega) fun x hx => hbytes x (List.mem_append_right _ hx)
        show printed (readLoop s (fuel + 1) (ofBlock b) remaining).1 = _
        rw [readLoop_step (by omega), printed_cons, hrest]
        show printBlock _ _ ++ _ = _
        rw [hblock]

/-- Whatever the bytes are, no more than the blocks of the chain are printed. -/
theorem length_readLoop_le {fuel remaining : Nat} (h : blockPtr.Chain s.fatTable v l) :
    (printed (readLoop s fuel v remaining).1).length ≤ 32 * l.length := by
  induction l generalizing v fuel remaining with
  | nil =>
      rw [readLoop_stop (Or.inl h.eq_eof)]
      simp [printed]
  | cons b l ih =>
      obtain rfl := h.eq_ptr
      by_cases hstop : remaining = 0 ∨ fuel = 0
      · have hnil : (readLoop s fuel (ofBlock b) remaining).1 = [] := by
          rcases hstop with hzero | rfl
          · rw [readLoop_stop (Or.inr hzero)]
          · rfl
        show (printed (readLoop s fuel (ofBlock b) remaining).1).length ≤ _
        rw [hnil]
        simp [printed]
      · obtain ⟨fuel, rfl⟩ : ∃ n, fuel = n + 1 := ⟨fuel - 1, by omega⟩
        have hrest : (printed (readLoop s fuel (s.fatTable b)
            (remaining - min remaining 32)).1).length ≤ 32 * l.length := ih h.tail
        have hblock : (printBlock (s.dataArea b) (min remaining 32)).length ≤ 32 := by
          refine (List.takeWhile_sublist _).length_le.trans ?_
          simp only [List.length_take]
          omega
        show (printed (readLoop s (fuel + 1) (ofBlock b) remaining).1).length ≤ _
        rw [readLoop_step (by omega), printed_cons, List.length_append, List.length_cons]
        show (printBlock _ _).length + _ ≤ _
        omega

/-- What the reading loop prints depends on the links of its chain and on the
bytes it is to read only. -/
theorem readLoop_congr {fuel remaining : Nat} (h : blockPtr.Chain s.fatTable v l)
    (hfat : ∀ b ∈ l, s'.fatTable b = s.fatTable b)
    (hbytes : (chainBytes s'.dataArea l).take remaining =
      (chainBytes s.dataArea l).take remaining) :
    readLoop s' fuel v remaining = readLoop s fuel v remaining := by
  induction l generalizing v fuel remaining with
  | nil => rw [readLoop_stop (Or.inl h.eq_eof), readLoop_stop (Or.inl h.eq_eof)]
  | cons b l ih =>
      obtain rfl := h.eq_ptr
      cases fuel with
      | zero => rfl
      | succ fuel =>
          by_cases hzero : remaining = 0
          · rw [readLoop_stop (Or.inr hzero), readLoop_stop (Or.inr hzero)]
          · rw [take_chainBytes_cons, take_chainBytes_cons] at hbytes
            obtain ⟨hblock, hrest⟩ := List.append_inj hbytes (by simp)
            show readLoop s' (fuel + 1) (ofBlock b) remaining =
              readLoop s (fuel + 1) (ofBlock b) remaining
            rw [readLoop_step (by omega), readLoop_step (by omega), hfat b List.mem_cons_self,
              ih h.tail (fun c hc => hfat c (List.mem_cons_of_mem b hc)) hrest]
            have hprint : printBlock (s'.dataArea b) (min remaining 32) =
                printBlock (s.dataArea b) (min remaining 32) := congrArg _ hblock
            rw [hprint]

end OsProjects.Fat
