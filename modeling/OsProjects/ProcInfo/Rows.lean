import OsProjects.ProcInfo.Model

/-!
# Complete rows

`oslab_read` stops 200 bytes before the end of its buffer. No row is that long,
so `scnprintf` never cuts one: without a filter the buffer holds the header and
the complete rows of the first processes (`unfiltered_rows_complete`).
-/

namespace OsProjects.ProcInfo

/-! ## How long a row can be -/

theorem length_padRight_le {n k : Nat} {text : List Char} (hn : n ≤ k) (htext : text.length ≤ k) :
    (padRight n text).length ≤ k := by
  rw [padRight, List.length_append, List.length_replicate]
  omega

theorem length_decimal_le {n k : Nat} (hk : 0 < k) (hn : n < 10 ^ k) :
    (decimal n).length ≤ k :=
  (Nat.length_toDigits_le_iff (by decide) hk).mpr hn

theorem length_ticks_le (ticks : UInt64) : (decimal ticks.toNat).length ≤ 20 := by
  apply length_decimal_le (by decide)
  have hlt := ticks.toNat_lt
  omega

/-- A sign and ten digits. -/
theorem length_signedDecimal_le (i : Int32) : (signedDecimal i).length ≤ 11 := by
  have hdigits : (decimal i.toInt.natAbs).length ≤ 10 := by
    apply length_decimal_le (by decide)
    have hlow := i.le_toInt
    have hhigh := i.toInt_lt
    omega
  unfold signedDecimal
  split
  · rw [List.length_append]
    have hsign : "-".toList.length = 1 := rfl
    omega
  · omega

theorem length_stateStr_le (state : Char) : (stateStr state).toList.length ≤ 15 := by
  unfold stateStr
  split <;> decide

theorem length_row_le {p : TaskStruct} (hcomm : p.comm.length ≤ 15) : (row p).length ≤ 124 := by
  have hid : ∀ i : Int32, (padRight 7 (signedDecimal i)).length ≤ 11 := fun i =>
    length_padRight_le (by decide) (length_signedDecimal_le i)
  have htime : ∀ ticks : UInt64, (padRight 10 (decimal ticks.toNat)).length ≤ 20 := fun ticks =>
    length_padRight_le (by decide) (length_ticks_le ticks)
  have hpid := hid p.pid
  have hppid := hid (p.parent.getD 0)
  have huid := hid p.uid.toInt32
  have hgid := hid p.gid.toInt32
  have hutime := htime p.utimeTicks
  have hstime := htime p.stimeTicks
  have hletter : (padRight 1 [p.state]).length = 1 := rfl
  have hstate : (padRight 15 (stateStr p.state).toList).length ≤ 15 :=
    length_padRight_le (Nat.le_refl 15) (length_stateStr_le p.state)
  have hblank : " ".toList.length = 1 := rfl
  have hnewline : "\n".toList.length = 1 := rfl
  simp only [row, line, List.intercalate, List.intersperse, List.flatten_cons, List.flatten_nil,
    List.length_append, List.append_nil]
  omega

/-! ## The buffer -/

theorem scnprintf_text {buf : Buffer} {text : List Char}
    (hroom : buf.text.length + text.length < bufSize) :
    (buf.scnprintf text).text = buf.text ++ text := by
  show buf.text ++ text.take _ = _
  rw [List.take_of_length_le (by omega)]

theorem appendAll_cons (buf : Buffer) (p : TaskStruct) (tasks : List TaskStruct) :
    appendAll buf (p :: tasks) =
      if (appendInfo buf p).text.length ≥ bufSize - 200 then appendInfo buf p
      else appendAll (appendInfo buf p) tasks :=
  rfl

/-- The loop over all processes, started with more than 200 bytes left. -/
theorem appendAll_rows (tasks : List TaskStruct) (hcomm : ∀ p ∈ tasks, p.comm.length ≤ 15) :
    ∀ buf : Buffer, buf.text.length < bufSize - 200 →
      ∃ front back, tasks = front ++ back ∧
        (appendAll buf tasks).text = buf.text ++ front.flatMap row ∧
        (back ≠ [] → bufSize - 200 ≤ (buf.text ++ front.flatMap row).length) := by
  induction tasks with
  | nil =>
      intro buf _
      have hnone : (appendAll buf []).text = buf.text ++ [].flatMap row := by
        rw [List.flatMap_nil, List.append_nil]
        rfl
      exact ⟨[], [], rfl, hnone, fun h => absurd rfl h⟩
  | cons p tasks ih =>
      intro buf hroom
      have hrow := length_row_le (hcomm p (List.mem_cons_self ..))
      have htext : (appendInfo buf p).text = buf.text ++ row p := scnprintf_text (by omega)
      rw [appendAll_cons]
      split
      · -- the margin is reached: the loop is left after this row
        refine ⟨[p], tasks, rfl, ?_, fun _ => ?_⟩
        · rw [htext, List.flatMap_singleton]
        · rw [List.flatMap_singleton, ← htext]
          assumption
      · obtain ⟨front, back, rfl, hrows, hmargin⟩ :=
          ih (fun q hq => hcomm q (List.mem_cons_of_mem p hq)) (appendInfo buf p) (by omega)
        rw [htext, List.append_assoc, ← List.flatMap_cons] at hrows hmargin
        exact ⟨p :: front, back, rfl, hrows, hmargin⟩

/-- **No row is cut.** Without a filter the buffer holds the two header lines and
the complete rows of a prefix of the processes. After every row it still has
room, and the prefix is the whole list unless its rows reach the last 200
bytes. -/
theorem unfiltered_rows_complete (tasks : List TaskStruct)
    (hcomm : ∀ p ∈ tasks, p.comm.length ≤ 15) (s : State)
    (hall : s.writeFlag = false ∨ s.filterPid = -1) :
    ∃ front back, tasks = front ++ back ∧
      (buildTable tasks s).text = header ++ ruler ++ front.flatMap row ∧
      (∀ seen, seen <+: front → (header ++ ruler ++ seen.flatMap row).length < bufSize) ∧
      (back ≠ [] → bufSize - 200 ≤ (header ++ ruler ++ front.flatMap row).length) := by
  have hlen : (header ++ ruler).length < bufSize - 200 := by decide +kernel
  have hheader : (Buffer.empty.scnprintf header).text = header := by
    apply scnprintf_text
    decide +kernel
  have hlines : ((Buffer.empty.scnprintf header).scnprintf ruler).text = header ++ ruler := by
    rw [scnprintf_text, hheader]
    rw [hheader, ← List.length_append]
    omega
  obtain ⟨front, back, htasks, htext, hmargin⟩ :=
    appendAll_rows tasks hcomm ((Buffer.empty.scnprintf header).scnprintf ruler)
      (by rw [hlines]; exact hlen)
  rw [hlines] at htext hmargin
  have hbuilt : (buildTable tasks s).text = header ++ ruler ++ front.flatMap row := by
    rw [buildTable, if_pos hall]
    exact htext
  refine ⟨front, back, htasks, hbuilt, ?_, hmargin⟩
  rintro seen ⟨later, rfl⟩
  have hfits := (buildTable tasks s).fits
  rw [hbuilt, List.flatMap_append, ← List.append_assoc, List.length_append] at hfits
  omega

/-- Three processes. -/
def threeTasks : List TaskStruct :=
  [⟨1, none, 0, 0, 12, 34, 'S', "init".toList⟩, ⟨2, some 1, 0, 0, 0, 7, 'I', "kthreadd".toList⟩,
    ⟨871, some 1, 1000, 1000, 560, 91, 'R', "a.very.long.nam".toList⟩]

theorem unfiltered_rows_complete_three :
    ∃ front back, threeTasks = front ++ back ∧
      (buildTable threeTasks loaded).text = header ++ ruler ++ front.flatMap row ∧
      (∀ seen, seen <+: front → (header ++ ruler ++ seen.flatMap row).length < bufSize) ∧
      (back ≠ [] → bufSize - 200 ≤ (header ++ ruler ++ front.flatMap row).length) := by
  have hcomm : ∀ p ∈ threeTasks, p.comm.length ≤ 15 := by decide +kernel
  exact unfiltered_rows_complete threeTasks hcomm loaded (.inl rfl)

end OsProjects.ProcInfo
