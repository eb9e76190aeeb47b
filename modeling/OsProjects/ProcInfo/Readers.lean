import OsProjects.ProcInfo.Model

/-!
# Several readers of the process table

The end of the file is one flag for all clients: every open clears it and every
read sets it. A client that should see the whole table and then the end of the
file depends on the last call any client has made (`last_call_decides`).
-/

namespace OsProjects.ProcInfo

variable {Client : Type}

/-- A call of one of the clients. -/
inductive Call (Client : Type)
  | oslabOpen (c : Client)
  | oslabRead (c : Client) (len : Nat)
  deriving DecidableEq, Repr

namespace Call

def client : Call Client → Client
  | oslabOpen c => c
  | oslabRead c _ => c

def isRead : Call Client → Bool
  | oslabOpen _ => false
  | oslabRead _ _ => true

/-- The globals after the call; the allocation and the copy succeed. -/
def next (tasks : List TaskStruct) (s : State) : Call Client → State
  | oslabOpen _ => ProcInfo.oslabOpen s
  | oslabRead _ len => (ProcInfo.oslabRead true true tasks len s).2

end Call

/-- The globals after some calls. -/
def after (tasks : List TaskStruct) (s : State) (calls : List (Call Client)) : State :=
  calls.foldl (Call.next tasks) s

/-- What a read answers that is made after some calls. -/
def answer (tasks : List TaskStruct) (s : State) (calls : List (Call Client)) (len : Nat) :
    Except Errno (List Char) :=
  (oslabRead true true tasks len (after tasks s calls)).1

/-- The table that one sufficiently long read returns. -/
def fullTable (tasks : List TaskStruct) (s : State) : List Char := (buildTable tasks s).text

/-! ## Which read of its client a read is -/

/-- After these calls the next call of `c`, if it is a read, is its first read
after its open. -/
def HasOpened (c : Client) (calls : List (Call Client)) : Prop :=
  ∃ earlier others, calls = earlier ++ .oslabOpen c :: others ∧ ∀ call ∈ others, call.client ≠ c

/-- After these calls the next call of `c`, if it is a read, is the one after its
first read. -/
def HasRead (c : Client) (calls : List (Call Client)) : Prop :=
  ∃ earlier len others, calls = earlier ++ .oslabRead c len :: others ∧ HasOpened c earlier ∧
    ∀ call ∈ others, call.client ≠ c

/-- Every client's first read after its open returns the whole table, and its
next read returns 0. -/
def Independent (tasks : List TaskStruct) (s : State) (calls : List (Call Client)) : Prop :=
  ∀ pre c len, pre ++ [.oslabRead c len] <+: calls →
    (HasOpened c pre → answer tasks s pre len = .ok (fullTable tasks s)) ∧
      (HasRead c pre → answer tasks s pre len = .ok [])

/-- The call right before a client's first read is an open, and the one right
before its next read is a read, whoever makes them. -/
def Undisturbed (calls : List (Call Client)) : Prop :=
  ∀ pre last c len, pre ++ [last, .oslabRead c len] <+: calls →
    (HasOpened c (pre ++ [last]) → last.isRead = false) ∧
      (HasRead c (pre ++ [last]) → last.isRead = true)

/-! ## The flag -/

variable {tasks : List TaskStruct} {s : State} {calls pre : List (Call Client)} {c : Client}
  {len : Nat}

theorem after_concat (tasks : List TaskStruct) (s : State) (pre : List (Call Client))
    (last : Call Client) : after tasks s (pre ++ [last]) = last.next tasks (after tasks s pre) := by
  rw [after, List.foldl_append]
  rfl

theorem oslabRead_of_set (hset : s.oslabIsProcessed = true) :
    oslabRead true true tasks len s = (.ok [], s) := by
  rw [oslabRead, if_pos hset]

theorem oslabRead_of_clear (hclear : s.oslabIsProcessed = false) :
    oslabRead true true tasks len s =
      (.ok ((buildTable tasks s).text.take len), { s with oslabIsProcessed := true }) := by
  rw [oslabRead, if_neg (by simp [hclear])]
  rfl

theorem next_processed (last : Call Client) :
    (last.next tasks s).oslabIsProcessed = last.isRead := by
  cases last with
  | oslabOpen c => rfl
  | oslabRead c len =>
      show (oslabRead true true tasks len s).2.oslabIsProcessed = true
      cases hflag : s.oslabIsProcessed with
      | true => rw [oslabRead_of_set hflag, hflag]
      | false => rw [oslabRead_of_clear hflag]

/-- No call changes what the table looks like. -/
theorem buildTable_next (call : Call Client) :
    buildTable tasks (call.next tasks s) = buildTable tasks s := by
  cases call with
  | oslabOpen c => rfl
  | oslabRead c len =>
      show buildTable tasks (oslabRead true true tasks len s).2 = _
      cases hflag : s.oslabIsProcessed with
      | true => rw [oslabRead_of_set hflag]
      | false =>
          rw [oslabRead_of_clear hflag]
          rfl

theorem buildTable_after (calls : List (Call Client)) :
    buildTable tasks (after tasks s calls) = buildTable tasks s := by
  induction calls using List.reverseRecOn with
  | nil => rfl
  | append_singleton pre last ih => rw [after_concat, buildTable_next, ih]

/-- The last call decides what a long enough read answers. -/
theorem last_call_decides (last : Call Client) (hlen : (fullTable tasks s).length ≤ len) :
    answer tasks s (pre ++ [last]) len =
      .ok (if last.isRead then [] else fullTable tasks s) := by
  have hflag : (after tasks s (pre ++ [last])).oslabIsProcessed = last.isRead := by
    rw [after_concat, next_processed]
  rw [answer]
  cases hlast : last.isRead with
  | true => rw [oslabRead_of_set (hflag.trans hlast), if_pos rfl]
  | false =>
      rw [oslabRead_of_clear (hflag.trans hlast), if_neg (by decide), buildTable_after]
      exact congrArg Except.ok (List.take_of_length_le hlen)

/-! ## The main result -/

theorem text_isPrefix_scnprintf (buf : Buffer) (text : List Char) :
    buf.text <+: (buf.scnprintf text).text :=
  List.prefix_append _ _

theorem text_isPrefix_appendAll (buf : Buffer) (tasks : List TaskStruct) :
    buf.text <+: (appendAll buf tasks).text := by
  induction tasks generalizing buf with
  | nil => exact List.prefix_refl _
  | cons p tasks ih =>
      have hrow : buf.text <+: (appendInfo buf p).text := text_isPrefix_scnprintf buf (row p)
      show buf.text <+: (if _ then _ else _ : Buffer).text
      split_ifs
      · exact hrow
      · exact hrow.trans (ih _)

/-- The table always has its header. -/
theorem fullTable_ne_nil (tasks : List TaskStruct) (s : State) : fullTable tasks s ≠ [] := by
  have hheader : (Buffer.empty.scnprintf header).text ≠ [] := by decide +kernel
  have hruler := text_isPrefix_scnprintf (Buffer.empty.scnprintf header) ruler
  have hrows : ((Buffer.empty.scnprintf header).scnprintf ruler).text <+: fullTable tasks s := by
    unfold fullTable buildTable
    split_ifs
    · exact text_isPrefix_appendAll _ tasks
    · unfold appendFiltered
      split
      · exact text_isPrefix_scnprintf _ _
      · exact List.prefix_refl _
  exact (hruler.trans hrows).ne_nil hheader

theorem hasOpened_ne_nil (h : HasOpened c pre) : pre ≠ [] := by
  obtain ⟨earlier, others, rfl, -⟩ := h
  simp

theorem hasRead_ne_nil (h : HasRead c pre) : pre ≠ [] := by
  obtain ⟨earlier, len, others, rfl, -⟩ := h
  simp

/-- **Independent readers.** With long enough buffers, every client reads the
whole table once exactly when no other client's call disturbs it. -/
theorem readers_independent_iff (tasks : List TaskStruct) (s : State)
    (calls : List (Call Client))
    (hlen : ∀ c len, .oslabRead c len ∈ calls → (fullTable tasks s).length ≤ len) :
    Independent tasks s calls ↔ Undisturbed calls := by
  have hdecides : ∀ pre last c len, pre ++ [last] ++ [.oslabRead c len] <+: calls →
      (answer tasks s (pre ++ [last]) len = .ok (fullTable tasks s) ↔ last.isRead = false) ∧
        (answer tasks s (pre ++ [last]) len = .ok [] ↔ last.isRead = true) := by
    intro pre last c len hpre
    rw [last_call_decides last (hlen c len (hpre.subset (by simp)))]
    have hne := fullTable_ne_nil tasks s
    cases last.isRead <;> simp [hne, hne.symm]
  constructor
  · intro h pre last c len hpre
    replace hpre : pre ++ [last] ++ [.oslabRead c len] <+: calls := by simpa using hpre
    obtain ⟨hfirst, hnext⟩ := h (pre ++ [last]) c len hpre
    obtain ⟨hopen, hread⟩ := hdecides pre last c len hpre
    exact ⟨fun hopened => hopen.mp (hfirst hopened), fun hdone => hread.mp (hnext hdone)⟩
  · intro h pre c len hpre
    rcases List.eq_nil_or_concat' pre with rfl | ⟨pre, last, rfl⟩
    · exact ⟨fun hopened => absurd rfl (hasOpened_ne_nil hopened),
        fun hdone => absurd rfl (hasRead_ne_nil hdone)⟩
    · obtain ⟨hopen, hread⟩ := hdecides pre last c len hpre
      obtain ⟨hfirst, hnext⟩ := h pre last c len (by simpa using hpre)
      exact ⟨fun hopened => hopen.mpr (hfirst hopened), fun hdone => hread.mpr (hnext hdone)⟩

/-- A system with one process. -/
def oneTask : List TaskStruct :=
  [⟨1, none, 0, 0, 12, 34, 'S', "init".toList⟩]

theorem fullTable_oneTask_length : (fullTable oneTask loaded).length ≤ 4096 := by decide +kernel

/-- Each of two clients has its first read right behind the other one's open. -/
def crossedCalls : List (Call Nat) :=
  [.oslabOpen 0, .oslabOpen 1, .oslabRead 0 4096, .oslabRead 0 4096, .oslabOpen 0,
    .oslabRead 1 4096, .oslabRead 1 4096]

theorem readers_independent_crossed :
    Independent oneTask loaded crossedCalls ↔ Undisturbed crossedCalls := by
  refine readers_independent_iff oneTask loaded _ fun c len hmem => ?_
  obtain rfl : len = 4096 := by
    simp only [crossedCalls, List.mem_cons, Call.oslabRead.injEq, reduceCtorEq, List.not_mem_nil,
      or_false, false_or] at hmem
    omega
  exact fullTable_oneTask_length

/-- Two clients open the file before the first one reads: the second one finds
the flag set, although its buffer has room for the table. -/
theorem second_reader_gets_nothing :
    (fullTable oneTask loaded).length ≤ 4096 ∧
      ¬ Independent oneTask loaded
        [.oslabOpen 0, .oslabOpen 1, .oslabRead 0 4096, .oslabRead (1 : Nat) 4096] := by
  refine ⟨fullTable_oneTask_length, fun h => ?_⟩
  have hopened : HasOpened (1 : Nat) [.oslabOpen 0, .oslabOpen 1, .oslabRead 0 4096] :=
    ⟨[.oslabOpen 0], [.oslabRead 0 4096], rfl, by simp [Call.client]⟩
  have hanswer := (h [.oslabOpen 0, .oslabOpen 1, .oslabRead 0 4096] 1 4096 (List.prefix_refl _)).1
    hopened
  have hnothing : answer oneTask loaded
      [.oslabOpen (0 : Nat), .oslabOpen 1, .oslabRead 0 4096] 4096 = .ok [] := rfl
  rw [hnothing] at hanswer
  exact fullTable_ne_nil oneTask loaded (Except.ok.inj hanswer).symm

end OsProjects.ProcInfo
