import OsProjects.Fat.Linked

/-!
# The append law

What `read_file` prints after `write_file`, in a state whose files have as many
blocks as their sizes need. The new data follow the old content unless

* the old size is a positive multiple of 32: the walk ends at the last block with
  offset 0, and the data overwrite it;
* block 0 gets linked and the last block, now marked free, is handed out again:
  the file is cut;
* `data_len` is not the length of the data.

**`append_law_iff`** says that these are all the exceptions.
-/

namespace OsProjects.Fat

open OsProjects.Lib

/-- Linked files of the lengths that their sizes need, without NUL bytes. -/
structure WellFormed (s : FileSystem) (chain : Chains) : Prop extends Linked s chain where
  lengths : ∀ i, s.Live i → (chain i).length = max 1 (blocksFor (s.directory i).size)
  bytes : ∀ i, s.Live i →
    ∀ x ∈ (chainBytes s.dataArea (chain i)).take (s.directory i).size, x ≠ 0

/-- The room for `data` behind `content`: the rest of the chain and the free
blocks. -/
def appendRoom (s : FileSystem) (l : List (Fin numBlocks)) (content data : List UInt8) : Nat :=
  min data.length (32 * l.length - content.length + 32 * (freeBlocks s.fatTable).length)

/-- Writing `data` returns 0; then the file shows `content` and the first `k`
bytes of `data`, and has that size. -/
def AppendLaw (s : FileSystem) (i : Fin maxFileNum) (content data : List UInt8) (k : Nat) :
    Prop :=
  ∃ lines t lines', writeFile (s.directory i).filename data s = some (0, lines, t) ∧
    readFile (s.directory i).filename t = some (0, lines', t) ∧
    printed lines' = content ++ data.take k ∧ (t.directory i).size = content.length + k

/-- With `n` bytes to be written: they include the first `k` ones, and they do not
start in a full last block nor free the last block on the way. -/
def AppendsCleanly (s : FileSystem) (i : Fin maxFileNum) (last : Fin numBlocks) (n k : Nat) :
    Prop :=
  k ≤ n ∧
    (n = 0 ∨
      ((s.directory i).size = 0 ∨ (s.directory i).size % 32 ≠ 0) ∧
        (n ≤ 32 - (s.directory i).size % 32 ∨ s.fatTable 0 ≠ 0 ∨
          blocksFor (n - (32 - (s.directory i).size % 32)) ≤ freeBelow s.fatTable last))

/-- After writing `bytes` the file shows `content` and the first `k` bytes of
`data`, and has that size. -/
def Shows (s : FileSystem) (i : Fin maxFileNum) (last : Fin numBlocks)
    (bytes content data : List UInt8) (k : Nat) : Prop :=
  printed (readLines (appended s i last bytes) (s.directory i).filename i) =
      content ++ data.take k ∧
    (s.directory i).size + appendedLen s i last bytes.length = content.length + k

variable {s : FileSystem} {chain : Chains} {data bytes content : List UInt8} {i : Fin maxFileNum}
  {front l : List (Fin numBlocks)} {last : Fin numBlocks} {k : Nat}

theorem WellFormed.size_le (h : WellFormed s chain) (hlive : s.Live i) :
    (s.directory i).size ≤ 32 * (chain i).length := by
  have hlen := h.lengths i hlive
  rw [blocksFor] at hlen
  omega

theorem WellFormed.length_content (h : WellFormed s chain) (hlive : s.Live i) :
    ((chainBytes s.dataArea (chain i)).take (s.directory i).size).length =
      (s.directory i).size := by
  have hsize := h.size_le hlive
  rw [List.length_take, length_chainBytes]
  omega

/-- What `read_file` prints for a file. -/
theorem WellFormed.printed_content (h : WellFormed s chain) (hlive : s.Live i)
    (filename : List UInt8) : printed (readLines s filename i) =
      (chainBytes s.dataArea (chain i)).take (s.directory i).size := by
  rw [printed_readLines]
  exact readLoop_printed (h.chains i hlive) (Nat.le_refl _) (h.bytes i hlive)

section

variable (h : WellFormed s chain) (hlive : s.Live i) (hi : chain i = front ++ [last])

include h hlive hi

theorem WellFormed.length_front :
    front.length + 1 = max 1 (((s.directory i).size + 31) / 32) := by
  have hlen := h.lengths i hlive
  rwa [hi, List.length_append, List.length_singleton, blocksFor] at hlen

theorem WellFormed.chain_eq :
    blockPtr.Chain s.fatTable (s.directory i).startBlock (front ++ [last]) :=
  hi ▸ h.chains i hlive

/-- The law in terms of the state after the append, whatever chain it has. -/
theorem WellFormed.appendLaw_iff
    (hchain : blockPtr.Chain (appended s i last (toAppend data)).fatTable
      (s.directory i).startBlock l) :
    AppendLaw s i content data k ↔ Shows s i last (toAppend data) content data k := by
  have hfind := findFile_of_live h.names hlive
  have hwalk : front.length ≤ (s.directory i).size / 32 := by
    have hlen := h.length_front hlive hi
    omega
  have hwrite : writeFile (s.directory i).filename data s =
      some (0, appendLines s (s.directory i).filename i last (toAppend data).length,
        appended s i last (toAppend data)) := by
    rw [writeFile_eq hfind (h.chain_eq hlive hi) hwalk]
    exact if_pos (appended_size_lt (h.chains i hlive) (h.size_le hlive) last _)
  have hread : readFile (s.directory i).filename (appended s i last (toAppend data)) =
      some (0, readLines (appended s i last (toAppend data)) (s.directory i).filename i,
        appended s i last (toAppend data)) := by
    apply readFile_eq
    · rw [findFile_congr fun j => appended_filename s i j last (toAppend data)]
      exact hfind
    · rw [appended_self]
      exact hchain
  constructor
  · rintro ⟨lines, t, lines', hw, hr, hprint, hsize⟩
    rw [hwrite] at hw
    cases hw
    rw [hread] at hr
    cases hr
    rw [appended_self] at hsize
    exact ⟨hprint, hsize⟩
  · rintro ⟨hprint, hsize⟩
    refine ⟨_, _, _, hwrite, hread, hprint, ?_⟩
    rw [appended_self]
    exact hsize

omit h hlive hi in
/-- With too few blocks for its new size the file cannot show everything. -/
theorem not_shows
    (hchain : blockPtr.Chain (appended s i last bytes).fatTable (s.directory i).startBlock l)
    (hshort : 32 * l.length < (s.directory i).size + appendedLen s i last bytes.length)
    (hk : k ≤ data.length) : ¬ Shows s i last bytes content data k := by
  rintro ⟨hprint, hsize⟩
  have hle : (printed (readLines (appended s i last bytes)
      (s.directory i).filename i)).length ≤ 32 * l.length := by
    rw [printed_readLines, appended_self]
    exact length_readLoop_le hchain
  rw [hprint, List.length_append, List.length_take] at hle
  omega

/-- The file just grows: it shows its old content and the bytes written. -/
theorem WellFormed.printed_appended
    (hgrown : Grown s.fatTable last
      (blocksFor (data.length - (32 - (s.directory i).size % 32)))
      (appended s i last data).fatTable (appendAlloc s i last data.length).2)
    (hdata : ∀ x ∈ data, x ≠ 0)
    (hmid : data = [] ∨ (s.directory i).size = 0 ∨ (s.directory i).size % 32 ≠ 0)
    (filename : List UInt8) :
    printed (readLines (appended s i last data) filename i) =
      (chainBytes s.dataArea (chain i)).take (s.directory i).size ++
        data.take (appendedLen s i last data.length) := by
  have hchain := h.toLinked.grown_chain hlive hi hgrown
  have hbytes := h.bytes i hlive
  have hlen := h.length_front hlive hi
  have hsplit : data = [] ∨ (s.directory i).size =
      32 * front.length + (s.directory i).size % 32 := by
    refine hmid.imp_right fun hmid => ?_
    omega
  have hcontent := appended_content hsplit (by omega) hchain.nodup
  rw [hi] at hbytes ⊢
  rw [printed_readLines, appended_self, ← hcontent]
  refine readLoop_printed hchain (Nat.le_refl _) ?_
  intro x hx
  have hx : x ∈ (chainBytes s.dataArea (front ++ [last])).take (s.directory i).size ++
      data.take (appendedLen s i last data.length) := hcontent ▸ hx
  rcases List.mem_append.mp hx with hold | hnew
  · exact hbytes x hold
  · exact hdata x (List.mem_of_mem_take hnew)

/-- The last block is handed out again: the file loses blocks. -/
theorem WellFormed.cut_chain {n : Nat} (hzero : s.fatTable 0 = 0)
    (hmany : freeBelow s.fatTable last < blocksFor (n - (32 - (s.directory i).size % 32))) :
    ∃ tail, blockPtr.Chain (appendAlloc s i last n).1 (s.directory i).startBlock
        (front ++ last :: tail) ∧
      tail.length + 2 ≤ (appendAlloc s i last n).2.length := by
  obtain ⟨m, hm⟩ : ∃ m, blocksFor (n - (32 - (s.directory i).size % 32)) = m + 1 :=
    ⟨_, (Nat.succ_pred_eq_of_pos (by omega)).symm⟩
  have hchain := h.chain_eq hlive hi
  rw [hm] at hmany
  rw [appendAlloc, hm]
  obtain ⟨tail, htail, -, hlen⟩ := extend_cut hzero hchain.last_link hmany
  exact ⟨tail, hchain.splice (fun _ => h.toLinked.extend_front hlive hi) htail, hlen⟩

end

/-- The file just grows: nothing is allocated, or block 0 is in use, or enough free
blocks lie before the last one. -/
def Grows (s : FileSystem) (i : Fin maxFileNum) (last : Fin numBlocks) (n : Nat) : Prop :=
  blocksFor (n - (32 - (s.directory i).size % 32)) = 0 ∨ s.fatTable 0 ≠ 0 ∨
    blocksFor (n - (32 - (s.directory i).size % 32)) ≤ freeBelow s.fatTable last

section

variable (h : WellFormed s chain) (hlive : s.Live i) (hi : chain i = front ++ [last])

include h hlive hi

theorem WellFormed.grown (hok : Grows s i last bytes.length) :
    Grown s.fatTable last (blocksFor (bytes.length - (32 - (s.directory i).size % 32)))
      (appended s i last bytes).fatTable (appendAlloc s i last bytes.length).2 :=
  extend_grown (h.chain_eq hlive hi).last_link hok

theorem WellFormed.exists_chain (bytes : List UInt8) :
    ∃ l, blockPtr.Chain (appended s i last bytes).fatTable (s.directory i).startBlock l := by
  by_cases hok : Grows s i last bytes.length
  · exact ⟨_, h.toLinked.grown_chain hlive hi (h.grown hlive hi hok)⟩
  · obtain ⟨-, hzero, hmany⟩ := (by simpa only [Grows, not_or, not_not, not_le] using hok)
    obtain ⟨tail, hchain, -⟩ := h.cut_chain hlive hi hzero hmany
    exact ⟨_, hchain⟩

/-- A full last block is overwritten from its start. -/
theorem WellFormed.not_shows_full (hok : Grows s i last bytes.length) (hne : bytes.length ≠ 0)
    (hpos : (s.directory i).size ≠ 0) (hmod : (s.directory i).size % 32 = 0)
    (hk : k ≤ data.length) : ¬ Shows s i last bytes content data k := by
  have hlen := h.length_front hlive hi
  refine not_shows (h.toLinked.grown_chain hlive hi (h.grown hlive hi hok)) ?_ hk
  rw [List.length_append, List.length_cons]
  by_cases hnone : (appendAlloc s i last bytes.length).2 = []
  · rw [appendedLen, hnone, List.length_nil]
    omega
  · have hwritten := lt_appendedLen hnone
    omega

theorem WellFormed.not_shows_cut (hcut : ¬ Grows s i last bytes.length)
    (hk : k ≤ data.length) : ¬ Shows s i last bytes content data k := by
  obtain ⟨-, hzero, hmany⟩ := (by simpa only [Grows, not_or, not_not, not_le] using hcut)
  obtain ⟨tail, hchain, htail⟩ := h.cut_chain hlive hi hzero hmany
  have hlen := h.length_front hlive hi
  have hwritten := lt_appendedLen (List.length_pos_iff.mp (by omega :
    0 < (appendAlloc s i last bytes.length).2.length))
  refine not_shows hchain ?_ hk
  rw [List.length_append, List.length_cons]
  omega

/-- Away from the boundary the file shows what was written, and that is all there
is room for. -/
theorem WellFormed.shows_iff_of_grows (hok : Grows s i last bytes.length)
    (hmid : bytes.length = 0 ∨ (s.directory i).size = 0 ∨ (s.directory i).size % 32 ≠ 0)
    (hbytes : bytes <+: data) (hdata : ∀ x ∈ data, x ≠ 0)
    (hroom : k = min data.length (32 * (front.length + 1) - (s.directory i).size +
      32 * (freeBlocks s.fatTable).length)) :
    Shows s i last bytes ((chainBytes s.dataArea (chain i)).take (s.directory i).size) data k ↔
      k ≤ bytes.length := by
  have hgrown := h.grown hlive hi hok
  have hlen := h.length_front hlive hi
  have hle := hbytes.length_le
  have hcount := hgrown.count
  rw [blocksFor] at hcount
  rw [Shows, h.printed_appended hlive hi hgrown (fun x hx => hdata x (hbytes.subset hx))
    (hmid.imp_left List.length_eq_zero_iff.mp), h.length_content hlive]
  constructor
  · rintro ⟨-, hw⟩
    have hwritten : appendedLen s i last bytes.length ≤ bytes.length := Nat.min_le_left _ _
    omega
  · intro hk
    have hw : appendedLen s i last bytes.length = k := by
      rw [appendedLen]
      omega
    have htake : bytes.take k = data.take k := by
      refine (hbytes.take k).eq_of_length ?_
      rw [List.length_take, List.length_take]
      omega
    rw [hw, htake]
    exact ⟨rfl, rfl⟩

theorem WellFormed.shows_iff (hbytes : bytes <+: data) (hdata : ∀ x ∈ data, x ≠ 0)
    (hroom : k = min data.length (32 * (front.length + 1) - (s.directory i).size +
      32 * (freeBlocks s.fatTable).length)) :
    Shows s i last bytes ((chainBytes s.dataArea (chain i)).take (s.directory i).size) data k ↔
      AppendsCleanly s i last bytes.length k := by
  have hk : k ≤ data.length := by omega
  rw [AppendsCleanly]
  by_cases hok : Grows s i last bytes.length
  · by_cases hmid : bytes.length = 0 ∨ (s.directory i).size = 0 ∨ (s.directory i).size % 32 ≠ 0
    · rw [h.shows_iff_of_grows hlive hi hok hmid hbytes hdata hroom]
      rw [Grows, blocksFor] at hok
      rw [blocksFor]
      omega
    · refine iff_of_false ?_ (by omega)
      exact h.not_shows_full hlive hi hok (by omega) (by omega) (by omega) hk
  · refine iff_of_false (h.not_shows_cut hlive hi hok hk) ?_
    rw [Grows, blocksFor] at hok
    rw [blocksFor]
    omega

end

/-- In a well-formed state, appending follows the law exactly if it is clean. -/
theorem append_law_iff (h : WellFormed s chain) (hlive : s.Live i)
    (hlast : (chain i).getLast? = some last) (hdata : ∀ x ∈ data, x ≠ 0) :
    ∃ lines, readFile (s.directory i).filename s = some (0, lines, s) ∧
      (AppendLaw s i (printed lines) data (appendRoom s (chain i) (printed lines) data) ↔
        AppendsCleanly s i last (toAppend data).length
          (appendRoom s (chain i) (printed lines) data)) := by
  obtain ⟨front, hi⟩ := List.getLast?_eq_some_iff.mp hlast
  refine ⟨_, readFile_eq (findFile_of_live h.names hlive) (h.chains i hlive), ?_⟩
  obtain ⟨l, hchain⟩ := h.exists_chain hlive hi (toAppend data)
  rw [h.printed_content hlive, h.appendLaw_iff hlive hi hchain]
  apply h.shows_iff hlive hi (toAppend_isPrefix data) hdata
  rw [appendRoom, h.length_content hlive, hi, List.length_append, List.length_singleton]

/-- A disk with one file, of `size` bytes in block 0. -/
def oneFile (size : Nat) : FileSystem where
  fatTable := fun b => if b = 0 then eof else 0
  directory := fun j => if j = 0 then ⟨[97], 0, size⟩ else ⟨[], 0, 0⟩
  dataArea := fun _ _ => 120

theorem oneFile_live (size : Nat) : (oneFile size).Live 0 := List.cons_ne_nil 97 []

theorem oneFile_wellFormed {size : Nat} (hsize : size ≤ 32) :
    WellFormed (oneFile size) fun _ => [0] := by
  have honly : ∀ j, (oneFile size).Live j → j = 0 := by
    intro j hj
    by_contra hne
    have hempty : (oneFile size).directory j = ⟨[], 0, 0⟩ := if_neg hne
    rw [FileSystem.Live, hempty] at hj
    exact hj rfl
  refine { names := ?_, chains := ?_, disjoint := ?_, used := ?_, lengths := ?_, bytes := ?_ }
  · intro j k hj heq
    rw [honly j hj] at heq ⊢
    apply honly k
    rw [FileSystem.Live, heq]
    exact oneFile_live size
  · intro j hj
    rw [honly j hj]
    have hend : blockPtr.Chain (oneFile size).fatTable ((oneFile size).fatTable 0) [] := .eof
    exact .link hend
  · intro j k hj hk hne
    exact absurd ((honly j hj).trans (honly k hk).symm) hne
  · intro j _ b hb
    rw [List.mem_singleton.mp hb]
    exact eof_ne_zero
  · intro j hj
    rw [honly j hj]
    show 1 = max 1 (blocksFor size)
    rw [blocksFor]
    omega
  · intro j _ x hx
    have hmem : x ∈ blockBytes (oneFile size).dataArea 0 := by
      simpa using List.mem_of_mem_take hx
    obtain ⟨k, rfl⟩ := List.mem_ofFn.mp hmem
    show (120 : UInt8) ≠ 0
    decide

/-- An append from the last byte of a block into a new block. -/
theorem append_law_new_block :
    WellFormed (oneFile 31) (fun _ => [0]) ∧
      ∃ lines, readFile ((oneFile 31).directory 0).filename (oneFile 31) =
          some (0, lines, oneFile 31) ∧
        (AppendLaw (oneFile 31) 0 (printed lines) [121, 122]
            (appendRoom (oneFile 31) [0] (printed lines) [121, 122]) ↔
          AppendsCleanly (oneFile 31) 0 0 (toAppend [121, 122]).length
            (appendRoom (oneFile 31) [0] (printed lines) [121, 122])) := by
  have h : WellFormed (oneFile 31) fun _ => [0] := oneFile_wellFormed (by omega)
  refine ⟨h, append_law_iff h (oneFile_live 31) rfl ?_⟩
  intro x hx
  rcases List.mem_pair.mp hx with rfl | rfl
  · decide
  · decide

/-- One byte appended to a file of exactly one block: it replaces the first byte
of the file. -/
theorem append_overwrites_block :
    WellFormed (oneFile 32) (fun _ => [0]) ∧ (oneFile 32).Live 0 ∧
      ∃ lines, readFile ((oneFile 32).directory 0).filename (oneFile 32) =
          some (0, lines, oneFile 32) ∧
        ¬ AppendLaw (oneFile 32) 0 (printed lines) [121]
          (appendRoom (oneFile 32) [0] (printed lines) [121]) := by
  have h : WellFormed (oneFile 32) fun _ => [0] := oneFile_wellFormed (by decide)
  have hlive := oneFile_live 32
  have hi : (fun _ => [0] : Chains) 0 = [] ++ [0] := rfl
  have hbyte : toAppend [121] = [121] := by decide +kernel
  refine ⟨h, hlive, _, readFile_eq (findFile_of_live h.names hlive) (h.chains 0 hlive), ?_⟩
  obtain ⟨l, hchain⟩ := h.exists_chain hlive hi (toAppend [121])
  rw [h.appendLaw_iff hlive hi hchain, hbyte]
  exact h.not_shows_full hlive hi (Or.inl rfl) (by decide) (by decide) (by decide)
    (Nat.min_le_left _ _)

end OsProjects.Fat
