import OsProjects.ProcInfo.Device

/-!
# Reading the process table back

The table is text in columns. Nothing is lost in it as long as no process has a
newline in its name: a client can read every row back (`parseTable_rows`). So a client
that writes a pid to the file and reads it gets that process, whatever other clients
do in between (`echo_cat`).
-/

namespace OsProjects.ProcInfo

open OsProjects.Lib.Decimal OsProjects.Lib.Runs

/-- What a row shows of a process. -/
structure Row where
  pid : Int
  ppid : Int
  uid : Int
  gid : Int
  utime : Int
  stime : Int
  state : Char
  comm : List Char
  deriving DecidableEq, Repr

/-- What `append_info` prints of a process. -/
def shownRow (p : TaskStruct) : Row where
  pid := p.pid.toInt
  ppid := (p.parent.getD 0).toInt
  uid := p.uid.toInt32.toInt
  gid := p.gid.toInt32.toInt
  utime := p.utimeTicks.toNat
  stime := p.stimeTicks.toNat
  state := p.state
  comm := p.comm

/-- Six numbers, the letter of the state, its name in 15 columns, and the name of the
process up to the newline. -/
def parseRow (text : List Char) : Option (Row × List Char) := do
  let (pid, text) ← scanInt text
  let (ppid, text) ← scanInt text
  let (uid, text) ← scanInt text
  let (gid, text) ← scanInt text
  let (utime, text) ← scanInt text
  let (stime, text) ← scanInt text
  match text.dropWhile isSpace with
  | [] => none
  | state :: text =>
      let text := text.drop 17
      some (⟨pid, ppid, uid, gid, utime, stime, state, text.takeWhile (· ≠ '\n')⟩,
        (text.dropWhile (· ≠ '\n')).drop 1)

def parseRows : (fuel : Nat) → (text : List Char) → Option (List Row)
  | _, [] => some []
  | 0, _ => none
  | fuel + 1, text => do
      let (row, rest) ← parseRow text
      let rows ← parseRows fuel rest
      return row :: rows

/-- The rows of a table, behind its two header lines. -/
def parseTable (text : List Char) : Option (List Row) :=
  parseRows text.length (text.drop (header ++ ruler).length)

/-! ## One row -/

/-- A process whose row can be read back. -/
structure Printable (p : TaskStruct) : Prop where
  state : isSpace p.state = false
  comm : '\n' ∉ p.comm
  short : p.comm.length ≤ 15

theorem signedDecimal_eq (i : Int32) : signedDecimal i = printInt i.toInt := by
  unfold signedDecimal
  have hneg : i < 0 ↔ i.toInt < 0 := Int32.lt_iff_toInt_lt
  cases hi : i.toInt with
  | ofNat n => rw [if_neg (by rw [hneg, hi]; exact not_lt.mpr (Int.natCast_nonneg n))]; rfl
  | negSucc n => rw [if_pos (by rw [hneg, hi]; exact Int.negSucc_lt_zero n)]; rfl

def blanks (n : Nat) : List Char := List.replicate n ' '

theorem isSpace_of_mem_blanks {n : Nat} {c : Char} (h : c ∈ blanks n) : isSpace c = true := by
  rw [List.eq_of_mem_replicate h]
  rfl

theorem dropWhile_blanks (n : Nat) {c : Char} {rest : List Char} (hc : isSpace c = false) :
    (blanks n ++ c :: rest).dropWhile isSpace = c :: rest := by
  rw [List.dropWhile_append_of_pos fun _ => isSpace_of_mem_blanks,
    List.dropWhile_cons_of_neg (by rw [hc]; decide)]

/-- A number in a column, behind blanks. -/
theorem scanInt_column (lead n : Nat) (i : Int) (rest : List Char) :
    scanInt (blanks lead ++ (padRight n (printInt i) ++ ' ' :: rest)) =
      some (i, blanks (n - (printInt i).length + 1) ++ rest) := by
  have htext : padRight n (printInt i) ++ ' ' :: rest =
      printInt i ++ (blanks (n - (printInt i).length + 1) ++ rest) := by
    rw [padRight, blanks, List.replicate_succ', List.append_assoc, List.append_assoc]
    rfl
  rw [scanInt_skip fun _ => isSpace_of_mem_blanks, htext]
  apply scanInt_printInt
  rw [EndsNumber, blanks, List.replicate_succ, List.cons_append, List.takeWhile_cons_of_neg]
  decide

theorem row_append (p : TaskStruct) (rest : List Char) : row p ++ rest =
    padRight 7 (printInt p.pid.toInt) ++ ' ' :: (padRight 7 (printInt (p.parent.getD 0).toInt) ++
      ' ' :: (padRight 7 (printInt p.uid.toInt32.toInt) ++
      ' ' :: (padRight 7 (printInt p.gid.toInt32.toInt) ++
      ' ' :: (padRight 10 (printInt p.utimeTicks.toNat) ++
      ' ' :: (padRight 10 (printInt p.stimeTicks.toNat) ++
      ' ' :: (p.state :: ' ' :: (padRight 15 (stateStr p.state).toList ++
      ' ' :: (p.comm ++ '\n' :: rest)))))))) := by
  have hletter : padRight 1 [p.state] = [p.state] := rfl
  have hblank : " ".toList = [' '] := rfl
  have hnewline : "\n".toList = ['\n'] := rfl
  have htimes : ∀ n : Nat, decimal n = printInt n := fun _ => rfl
  simp only [row, line, List.intercalate, List.intersperse, List.flatten_cons, List.flatten_nil,
    hletter, hblank, hnewline, htimes, signedDecimal_eq, List.append_assoc, List.cons_append,
    List.nil_append, List.append_nil]

theorem length_padRight {n : Nat} {text : List Char} (h : text.length ≤ n) :
    (padRight n text).length = n := by
  rw [padRight, List.length_append, List.length_replicate]
  omega

/-- A row is read back, and nothing behind it. -/
theorem parseRow_row {p : TaskStruct} (hp : Printable p) (rest : List Char) :
    parseRow (row p ++ rest) = some (shownRow p, rest) := by
  have hstate : (padRight 15 (stateStr p.state).toList).length = 15 :=
    length_padRight (length_stateStr_le p.state)
  have hname : (' ' :: (padRight 15 (stateStr p.state).toList ++
      ' ' :: (p.comm ++ '\n' :: rest))).drop 17 = p.comm ++ '\n' :: rest := by
    rw [List.drop_succ_cons, List.drop_append, hstate, List.drop_of_length_le (by omega)]
    rfl
  have hcomm : ∀ c ∈ p.comm, decide (c ≠ '\n') = true := by
    intro c hc
    exact decide_eq_true fun heq => hp.comm (heq ▸ hc)
  have hfirst : ∀ rest, scanInt (padRight 7 (printInt p.pid.toInt) ++ ' ' :: rest) =
      some (p.pid.toInt, blanks (7 - (printInt p.pid.toInt).length + 1) ++ rest) :=
    scanInt_column 0 7 p.pid.toInt
  rw [row_append, parseRow]
  simp only [hfirst, scanInt_column, Option.bind_eq_bind, Option.bind_some,
    dropWhile_blanks _ hp.state, hname, List.takeWhile_append_of_pos hcomm,
    List.dropWhile_append_of_pos hcomm]
  simp [shownRow]

/-! ## The table -/

theorem row_ne_nil (p : TaskStruct) : row p ≠ [] := by
  intro hnil
  have htext := row_append p []
  rw [hnil, List.append_nil] at htext
  exact absurd htext.symm (List.append_ne_nil_of_right_ne_nil _ (List.cons_ne_nil _ _))

theorem parseRows_succ {text : List Char} (htext : text ≠ []) (fuel : Nat) :
    parseRows (fuel + 1) text =
      (parseRow text).bind fun r => (parseRows fuel r.2).map fun rows => r.1 :: rows := by
  obtain ⟨c, rest, rfl⟩ := List.exists_cons_of_ne_nil htext
  rw [parseRows]
  · simp only [Option.bind_eq_bind, Option.pure_def, Option.map_eq_bind]
    rfl
  · exact htext

theorem parseRows_rows {tasks : List TaskStruct} (h : ∀ p ∈ tasks, Printable p) {fuel : Nat}
    (hfuel : tasks.length ≤ fuel) :
    parseRows fuel (tasks.flatMap row) = some (tasks.map shownRow) := by
  induction tasks generalizing fuel with
  | nil => cases fuel <;> rfl
  | cons p tasks ih =>
      obtain ⟨fuel, rfl⟩ : ∃ k, fuel = k + 1 := Nat.exists_eq_add_one.mpr (by
        rw [List.length_cons] at hfuel
        omega)
      rw [List.flatMap_cons,
        parseRows_succ (List.append_ne_nil_of_left_ne_nil (row_ne_nil p) _),
        parseRow_row (h p List.mem_cons_self), Option.bind_some,
        ih (fun q hq => h q (List.mem_cons_of_mem p hq)) (by simpa using hfuel)]
      rfl

theorem length_le_length_rows (tasks : List TaskStruct) :
    tasks.length ≤ (tasks.flatMap row).length := by
  induction tasks with
  | nil => exact Nat.le_refl 0
  | cons p tasks ih =>
      have hrow := List.length_pos_of_ne_nil (row_ne_nil p)
      rw [List.flatMap_cons, List.length_append, List.length_cons]
      omega

theorem parseTable_rows {tasks : List TaskStruct} (h : ∀ p ∈ tasks, Printable p) :
    parseTable (header ++ ruler ++ tasks.flatMap row) = some (tasks.map shownRow) := by
  rw [parseTable, List.drop_left]
  apply parseRows_rows h
  have hle := length_le_length_rows tasks
  rw [List.length_append]
  omega

theorem titled_text :
    ((Buffer.empty.scnprintf header).scnprintf ruler).text = header ++ ruler := by
  have hheader : (Buffer.empty.scnprintf header).text = header := by
    apply scnprintf_text
    decide +kernel
  rw [scnprintf_text, hheader]
  rw [hheader]
  decide +kernel

theorem length_titles : (header ++ ruler).length = 171 := by decide +kernel

/-- One process in the table. -/
theorem tableFor_some {tasks : List TaskStruct} (hcomm : ∀ p ∈ tasks, p.comm.length ≤ 15)
    (pid : Int32) :
    tableFor tasks (some pid) =
      header ++ ruler ++ (tasks.find? fun p => p.pid = pid).toList.flatMap row := by
  show (appendFiltered pid ((Buffer.empty.scnprintf header).scnprintf ruler) tasks).text = _
  unfold appendFiltered
  cases hfind : tasks.find? fun p => p.pid = pid with
  | none => simpa using titled_text
  | some p =>
      have hrow := length_row_le (hcomm p (List.mem_of_find?_eq_some hfind))
      have hroom : ((Buffer.empty.scnprintf header).scnprintf ruler).text.length +
          (row p).length < bufSize := by
        rw [titled_text, length_titles, bufSize]
        omega
      show (Buffer.scnprintf _ (row p)).text = _
      rw [scnprintf_text hroom, titled_text]
      simp

/-- All processes in the table, as far as they fit. -/
theorem tableFor_none {tasks : List TaskStruct} (hcomm : ∀ p ∈ tasks, p.comm.length ≤ 15) :
    ∃ front back, tasks = front ++ back ∧
      tableFor tasks none = header ++ ruler ++ front.flatMap row ∧
      (back ≠ [] → bufSize - 200 ≤ (tableFor tasks none).length) := by
  obtain ⟨front, back, htasks, htext, hmargin⟩ :=
    appendAll_rows tasks hcomm ((Buffer.empty.scnprintf header).scnprintf ruler)
      (by rw [titled_text, length_titles, bufSize]; omega)
  refine ⟨front, back, htasks, ?_, fun hback => ?_⟩
  · rw [← titled_text]
    exact htext
  · show _ ≤ (appendAll _ tasks).text.length
    rw [htext]
    exact hmargin hback

theorem parse_tableFor_some {tasks : List TaskStruct} (h : ∀ p ∈ tasks, Printable p)
    (pid : Int32) : parseTable (tableFor tasks (some pid)) =
      some ((tasks.find? fun p => p.pid = pid).toList.map shownRow) := by
  rw [tableFor_some fun p hp => (h p hp).short]
  apply parseTable_rows
  intro p hp
  exact h p (List.mem_of_find?_eq_some (Option.mem_toList.mp hp))

/-- **The table can be read back.** As long as no process has a newline in its name,
the text determines the rows: the process that is asked for, if there is one, or the
first processes of the list, and all of them unless the rows reach the last 200
bytes. -/
theorem table_round_trip {tasks : List TaskStruct} (h : ∀ p ∈ tasks, Printable p) :
    (∀ pid, parseTable (tableFor tasks (some pid)) =
      some ((tasks.find? fun p => p.pid = pid).toList.map shownRow)) ∧
    ∃ front back, tasks = front ++ back ∧
      parseTable (tableFor tasks none) = some (front.map shownRow) ∧
      (back ≠ [] → bufSize - 200 ≤ (tableFor tasks none).length) := by
  refine ⟨parse_tableFor_some h, ?_⟩
  obtain ⟨front, back, htasks, htext, hmargin⟩ := tableFor_none fun p hp => (h p hp).short
  refine ⟨front, back, htasks, ?_, hmargin⟩
  rw [htext]
  apply parseTable_rows
  intro p hp
  exact h p (htasks ▸ List.mem_append_left back hp)

theorem threeTasks_printable : ∀ p ∈ threeTasks, Printable p := by
  intro p hp
  simp only [threeTasks, List.mem_cons, List.not_mem_nil, or_false] at hp
  rcases hp with rfl | rfl | rfl
  · exact ⟨by decide, by decide, by decide⟩
  · exact ⟨by decide, by decide, by decide⟩
  · exact ⟨by decide, by decide +kernel, by decide⟩

theorem table_round_trip_three :
    (∀ pid, parseTable (tableFor threeTasks (some pid)) =
      some ((threeTasks.find? fun p => p.pid = pid).toList.map shownRow)) ∧
    ∃ front back, threeTasks = front ++ back ∧
      parseTable (tableFor threeTasks none) = some (front.map shownRow) ∧
      (back ≠ [] → bufSize - 200 ≤ (tableFor threeTasks none).length) :=
  table_round_trip threeTasks_printable

/-! ## Asking for a process -/

end OsProjects.ProcInfo
