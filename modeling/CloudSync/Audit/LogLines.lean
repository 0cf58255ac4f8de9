import CloudSync.Worker

/-!
# Lines of the audit log

`write_audit_entry` prints the user name and the filename of a request as they are,
in columns that are filled up with blanks, and the logger thread copies the pipe to
`audit.log` piece by piece.  Nothing is lost on the way (`auditLogger_pipe`), so what
can go wrong is what the fields say: a newline in one of them ends the line, a blank at
the end of a short one is taken for filling, and a column in one of them can be taken
for the operation (`auditLog_iff`).
-/

namespace CloudSync

open CText

/-! ## Entries -/

/-- The results `process_task` records. -/
def auditResults : List Bytes :=
  [text "SUCCESS", text "ERROR", text "DENIED", text "LOCKED", text "NOT_FOUND",
    text "LOCK_ACQUIRED", text "NOT_LOCK_HOLDER", text "UNLOCKED", text "FAILED",
    text "VERSION_NOT_FOUND"]

/-- A call to `write_audit_entry`, and the time it prints. -/
structure AuditCall where
  now : Bytes
  username : Bytes
  operation : Operation
  filename : Bytes
  result : Bytes
  now_length : now.length ≤ 31
  now_text : ∀ b ∈ now, b ≠ 0 ∧ b ≠ 10 ∧ b ≠ 93
  username_length : username.length < maxUsername
  username_text : (0 : UInt8) ∉ username
  filename_length : filename.length < maxFilename
  filename_text : (0 : UInt8) ∉ filename
  result_word : result ∈ auditResults

namespace AuditCall

variable (c : AuditCall)

/-- What the call writes to the pipe. -/
def entry : Bytes := auditEntry c.now c.username (operationToString c.operation) c.filename c.result

/-- `filename[0] ? filename : "(none)"` -/
def shownName : Bytes := if c.filename = [] then text "(none)" else c.filename

/-- The columns between the time and the arrow. -/
def columns : Bytes :=
  padRight 10 c.username ++
    32 :: (padRight 10 (operationToString c.operation) ++ 32 :: padRight 20 c.shownName)

/-- The line of the call, without its newline. -/
def line : Bytes := 91 :: (c.now ++ 93 :: 32 :: (c.columns ++ (text " → " ++ c.result)))

end AuditCall

theorem auditResult_text {result : Bytes} (hresult : result ∈ auditResults) :
    result.length ≤ 17 ∧ (0 : UInt8) ∉ result ∧ (10 : UInt8) ∉ result ∧ (226 : UInt8) ∉ result := by
  have hall : ∀ r ∈ auditResults, r.length ≤ 17 ∧ (0 : UInt8) ∉ r ∧ (10 : UInt8) ∉ r ∧
      (226 : UInt8) ∉ r := by decide
  exact hall result hresult

theorem operationToString_text (op : Operation) :
    (operationToString op).length ≤ 10 ∧ (0 : UInt8) ∉ operationToString op ∧
      (10 : UInt8) ∉ operationToString op ∧ (32 : UInt8) ∉ operationToString op := by
  cases op with
  | other code => exact (by decide : (text "UNKNOWN").length ≤ 10 ∧ (0 : UInt8) ∉ text "UNKNOWN" ∧
      (10 : UInt8) ∉ text "UNKNOWN" ∧ (32 : UInt8) ∉ text "UNKNOWN")
  | _ => decide

namespace AuditCall

variable (c : AuditCall)

theorem shownName_length : c.shownName.length < maxFilename := by
  unfold shownName
  split
  · decide
  · exact c.filename_length

theorem columns_length : c.columns.length =
    max 10 c.username.length + max 20 c.shownName.length + 12 := by
  have hop := (operationToString_text c.operation).1
  simp only [columns, List.length_append, List.length_cons, padRight_length]
  omega

/-- A byte of the line that `write_audit_entry` does not put there itself. -/
theorem mem_line {b : UInt8} (hnow : b ∉ c.now) (hop : b ∉ operationToString c.operation)
    (hresult : b ∉ c.result) (hown : b ∉ text "[] (none) → ") :
    b ∈ c.line ↔ b ∈ c.username ∨ b ∈ c.filename := by
  obtain ⟨hopen, hclose, hblank, hnone, harrow⟩ : b ≠ 91 ∧ b ≠ 93 ∧ b ≠ 32 ∧
      b ∉ text "(none)" ∧ b ∉ text " → " := by
    have hbytes : text "[] (none) → " = [91, 93, 32] ++ text "(none)" ++ text " → " := by decide
    rw [hbytes] at hown
    simp only [List.mem_append, List.mem_cons, List.not_mem_nil, or_false, not_or] at hown
    exact ⟨hown.1.1.1, hown.1.1.2.1, hown.1.1.2.2, hown.1.2, hown.2⟩
  have hname : b ∈ c.shownName ↔ b ∈ c.filename := by
    unfold shownName
    split
    · next hempty => simp [hempty, hnone]
    · rfl
  simp only [line, columns, List.mem_cons, List.mem_append, mem_padRight hblank, hname, hopen,
    hclose, hblank, hnow, hop, hresult, harrow, false_or, or_false]

theorem line_no_nul : (0 : UInt8) ∉ c.line := by
  rw [c.mem_line (fun h => (c.now_text 0 h).1 rfl) (operationToString_text _).2.1
    (auditResult_text c.result_word).2.1 (by decide)]
  exact not_or.mpr ⟨c.username_text, c.filename_text⟩

/-- The line is one line if and only if neither name has a newline. -/
theorem line_no_lf :
    (10 : UInt8) ∉ c.line ↔ (10 : UInt8) ∉ c.username ∧ (10 : UInt8) ∉ c.filename := by
  rw [c.mem_line (fun h => (c.now_text 10 h).2.1 rfl) (operationToString_text _).2.2.1
    (auditResult_text c.result_word).2.2.1 (by decide), not_or]

/-- The entry is never cut short. -/
theorem entry_eq : c.entry = c.line ++ [10] := by
  have hprinted : text "[" ++ c.now ++ text "] " ++ padRight 10 c.username ++ text " " ++
      padRight 10 (operationToString c.operation) ++ text " " ++ padRight 20 c.shownName ++
      text " → " ++ c.result ++ text "\n" = c.line ++ [10] := by
    have hopen : text "[" = [91] := by decide
    have hclose : text "] " = [93, 32] := by decide
    have hblank : text " " = [32] := by decide
    have hnewline : text "\n" = [10] := by decide
    rw [hopen, hclose, hblank, hnewline]
    simp [line, columns]
  have hshort : (c.line ++ [10]).length ≤ maxAuditEntry - 1 := by
    have hnow := c.now_length
    have husername := c.username_length
    have hname := c.shownName_length
    have hresult := (auditResult_text c.result_word).1
    have harrow : (text " → ").length = 5 := by decide
    unfold maxUsername at husername
    unfold maxFilename at hname
    simp only [line, List.length_append, List.length_cons, List.length_nil, columns_length, harrow]
    unfold maxAuditEntry
    omega
  show snprintf maxAuditEntry _ = _
  rw [show (if c.filename = [] then text "(none)" else c.filename) = c.shownName from rfl, hprinted,
    snprintf, List.take_of_length_le hshort]

end AuditCall

/-! ## The logger -/

/-- The loop of `audit_logger_thread` over what its reads return: every buffer is
printed as a string. -/
def auditLoggerThread (log : Bytes) : List Bytes → Bytes
  | [] => log
  | buf :: rest => auditLoggerThread (log ++ cstr buf) rest

/-- The reads take all that is in the pipe, each at least one byte and at most as
many as the buffer holds. -/
structure Reads (stream : Bytes) (reads : List Bytes) : Prop where
  whole : reads.flatten = stream
  sizes : ∀ buf ∈ reads, 0 < buf.length ∧ buf.length ≤ maxAuditEntry - 1

/-- What the calls write to the pipe, one after the other. -/
def auditPipe (calls : List AuditCall) : Bytes := (calls.map AuditCall.entry).flatten

theorem auditPipe_eq (calls : List AuditCall) :
    auditPipe calls = (calls.map fun c => c.line ++ [10]).flatten := by
  unfold auditPipe
  rw [List.map_congr_left fun c _ => c.entry_eq]

theorem auditPipe_no_nul (calls : List AuditCall) : (0 : UInt8) ∉ auditPipe calls := by
  rw [auditPipe_eq]
  intro hmem
  obtain ⟨bytes, hbytes, hnul⟩ := List.mem_flatten.mp hmem
  obtain ⟨c, -, rfl⟩ := List.mem_map.mp hbytes
  rcases List.mem_append.mp hnul with h | h
  · exact c.line_no_nul h
  · exact absurd h (by decide)

/-- However the pipe is cut into reads, it arrives in the log. -/
theorem auditLogger_pipe {calls : List AuditCall} {reads : List Bytes} (log : Bytes)
    (hreads : Reads (auditPipe calls) reads) :
    auditLoggerThread log reads = log ++ auditPipe calls := by
  have hnul := auditPipe_no_nul calls
  rw [← hreads.whole] at hnul ⊢
  clear hreads
  induction reads generalizing log with
  | nil => rw [List.flatten_nil, List.append_nil, auditLoggerThread]
  | cons buf rest ih =>
      rw [List.flatten_cons, List.mem_append, not_or] at hnul
      have hbuf : cstr buf = buf := cstr_of_not_mem hnul.1
      rw [auditLoggerThread, ih _ hnul.2, hbuf, List.flatten_cons, List.append_assoc]

/-! ## What the log says -/

/-- What is added to the log is one line a call, in order. -/
def OneLineEach (calls : List AuditCall) (added : Bytes) : Prop :=
  fields 10 added = calls.map AuditCall.line ++ [[]]

theorem fields_lines {lines : List Bytes} (hlines : ∀ line ∈ lines, (10 : UInt8) ∉ line) :
    fields 10 (lines.map (· ++ [10])).flatten = lines ++ [[]] := by
  induction lines with
  | nil => rfl
  | cons line rest ih =>
      obtain ⟨hline, hrest⟩ := List.forall_mem_cons.mp hlines
      rw [List.map_cons, List.flatten_cons, List.append_assoc, List.singleton_append,
        fields_append_sep, fields_of_not_mem hline, ih hrest, List.singleton_append,
        List.cons_append]

theorem oneLineEach_iff (calls : List AuditCall) :
    OneLineEach calls (auditPipe calls) ↔
      ∀ c ∈ calls, (10 : UInt8) ∉ c.username ∧ (10 : UInt8) ∉ c.filename := by
  constructor
  · intro hlines c hc
    apply c.line_no_lf.mp
    have hmem : c.line ∈ fields 10 (auditPipe calls) := by
      rw [hlines]
      exact List.mem_append_left _ (List.mem_map_of_mem hc)
    exact not_mem_of_mem_fields hmem
  · intro hnames
    have hlines : ∀ line ∈ calls.map AuditCall.line, (10 : UInt8) ∉ line := by
      intro line hline
      obtain ⟨c, hc, rfl⟩ := List.mem_map.mp hline
      exact c.line_no_lf.mpr (hnames c hc)
    have hfields := fields_lines hlines
    rw [List.map_map] at hfields
    unfold OneLineEach
    rw [auditPipe_eq]
    exact hfields

namespace AuditCall

variable (c : AuditCall)

/-- The user name that is read in the line: what the first column is filled up with is not
part of it. -/
def readUsername : Bytes := unpad 10 (padRight 10 c.username)

/-- The filename that is read in the line, none if it is `(none)`. -/
def readFilename : Bytes :=
  if unpad 20 (padRight 20 c.shownName) = text "(none)" then []
  else unpad 20 (padRight 20 c.shownName)

/-- The names can be read as they are. -/
structure Legible : Prop where
  username : c.username.length ≤ 10 → c.username.getLast? ≠ some 32
  filename : c.filename.length ≤ 20 → c.filename.getLast? ≠ some 32
  named : c.filename ≠ text "(none)"

end AuditCall

/-- To read the line of `c'` is to read the fields of `c`. -/
structure ReadsAs (c' c : AuditCall) : Prop where
  now : c'.now = c.now
  username : c'.readUsername = c.username
  operation : operationToString c'.operation = operationToString c.operation
  filename : c'.readFilename = c.filename
  result : c'.result = c.result

/-- A line says of no call but its own that it has been made: whoever the line is the line
of, what is read in it are the fields of the call itself. -/
def NoOtherRecord (c : AuditCall) : Prop := ∀ c' : AuditCall, c'.line = c.line → ReadsAs c' c

/-- From byte `p` of the columns on there is the column of an operation between two
blanks, and what is before and after it fits a user name and a filename. -/
def OperationAt (columns : Bytes) (p : ℕ) : Prop :=
  10 ≤ p ∧ p < maxUsername ∧ ∃ op rest, columns.drop p =
    32 :: (padRight 10 (operationToString op) ++ 32 :: rest) ∧
      20 ≤ rest.length ∧ rest.length < maxFilename

/-- The only place in the columns where an operation can be read is behind the user
name. -/
def OneReading (c : AuditCall) : Prop :=
  ∀ p, OperationAt c.columns p → p = (padRight 10 c.username).length

theorem padRight_of_le {width : ℕ} {s : Bytes} (hs : width ≤ s.length) : padRight width s = s := by
  rw [padRight, Nat.sub_eq_zero_of_le hs, List.replicate_zero, List.append_nil]

theorem padRight_inj {width : ℕ} {s s' : Bytes} (hs : (32 : UInt8) ∉ s) (hs' : (32 : UInt8) ∉ s')
    (h : padRight width s = padRight width s') : s = s' := by
  have hword : ∀ {s : Bytes}, (32 : UInt8) ∉ s → (padRight width s).takeWhile (· != 32) = s := by
    intro s hs
    rw [padRight, List.takeWhile_append_of_pos fun b hb => by
      simpa using fun h : b = 32 => hs (h ▸ hb)]
    cases width - s.length with
    | zero => simp
    | succ n => simp [List.replicate_succ]
  rw [← hword hs, h, hword hs']

namespace AuditCall

variable {c c' : AuditCall}

/-- A line determines its time, its columns and its result. -/
theorem columns_of_line (h : c'.line = c.line) :
    c'.now = c.now ∧ c'.columns = c.columns ∧ c'.result = c.result := by
  have harrow : text " → " = [32, 226, 134, 146, 32] := by decide
  have hopened := (List.cons.inj h).2
  obtain ⟨hnow, hrest⟩ := append_sep_inj (fun h => (c'.now_text 93 h).2.2 rfl)
    (fun h => (c.now_text 93 h).2.2 rfl) hopened
  have hclosed := (List.cons.inj hrest).2
  rw [harrow] at hclosed
  have hend : (c'.columns ++ [32]) ++ 226 :: ([134, 146, 32] ++ c'.result) =
      (c.columns ++ [32]) ++ 226 :: ([134, 146, 32] ++ c.result) := by simpa using hclosed
  have hword : ∀ c : AuditCall, (226 : UInt8) ∉ [134, 146, 32] ++ c.result := by
    intro c hmem
    rcases List.mem_append.mp hmem with h | h
    · exact absurd h (by decide)
    · exact (auditResult_text c.result_word).2.2.2 h
  obtain ⟨hcolumns, hresult⟩ := sep_append_inj (hword c') (hword c) hend
  exact ⟨hnow, List.append_cancel_right hcolumns, List.append_cancel_left hresult⟩

theorem take_columns (c : AuditCall) :
    c.columns.take (padRight 10 c.username).length = padRight 10 c.username := List.take_left

theorem drop_columns (c : AuditCall) : c.columns.drop (padRight 10 c.username).length =
    32 :: (padRight 10 (operationToString c.operation) ++ 32 :: padRight 20 c.shownName) :=
  List.drop_left

/-- The operation of the call itself can be read behind its user name. -/
theorem operationAt_own (c : AuditCall) : OperationAt c.columns (padRight 10 c.username).length := by
  have husername := c.username_length
  have hname := c.shownName_length
  unfold OperationAt maxUsername maxFilename at *
  refine ⟨?_, ?_, c.operation, _, c.drop_columns, ?_, ?_⟩ <;> rw [padRight_length] <;> omega

theorem operationColumn_length (op : Operation) :
    (padRight 10 (operationToString op)).length = 10 := by
  rw [padRight_length, max_eq_left (operationToString_text op).1]

/-- Calls with one line and user names of one width fill the columns in the same way. -/
theorem columns_of_width (h : c'.line = c.line)
    (hwidth : (padRight 10 c'.username).length = (padRight 10 c.username).length) :
    padRight 10 c'.username = padRight 10 c.username ∧
      operationToString c'.operation = operationToString c.operation ∧
      padRight 20 c'.shownName = padRight 20 c.shownName := by
  obtain ⟨-, hcolumns, -⟩ := columns_of_line h
  have hrest : padRight 10 (operationToString c'.operation) ++ 32 :: padRight 20 c'.shownName =
      padRight 10 (operationToString c.operation) ++ 32 :: padRight 20 c.shownName := by
    have hdrop := c'.drop_columns
    rw [hwidth, hcolumns, c.drop_columns] at hdrop
    exact (List.cons.inj hdrop).2.symm
  obtain ⟨hop, hname⟩ := List.append_inj hrest
    ((operationColumn_length _).trans (operationColumn_length _).symm)
  refine ⟨?_, ?_, (List.cons.inj hname).2⟩
  · rw [← c'.take_columns, hwidth, hcolumns, c.take_columns]
  · exact padRight_inj (operationToString_text _).2.2.2 (operationToString_text _).2.2.2 hop

theorem readFilename_iff (c : AuditCall) : c.readFilename = c.filename ↔
    (c.filename.length ≤ 20 → c.filename.getLast? ≠ some 32) ∧ c.filename ≠ text "(none)" := by
  unfold readFilename shownName
  by_cases hempty : c.filename = []
  · rw [if_pos hempty, if_pos (by decide), hempty]
    exact ⟨fun _ => ⟨by simp, by decide⟩, fun _ => rfl⟩
  · rw [if_neg hempty, ← unpad_padRight_iff]
    split
    · next hnone =>
      refine ⟨fun h => absurd h.symm hempty, fun h => absurd ?_ h.2⟩
      rw [← h.1, hnone]
    · next hnone =>
      refine ⟨fun h => ⟨h, ?_⟩, fun h => h.1⟩
      rwa [← h]

/-- Names are legible if and only if they are what is read in the line. -/
theorem legible_iff (c : AuditCall) :
    c.Legible ↔ c.readUsername = c.username ∧ c.readFilename = c.filename := by
  rw [readFilename_iff, readUsername, unpad_padRight_iff]
  exact ⟨fun h => ⟨h.username, h.filename, h.named⟩, fun h => ⟨h.1, h.2.1, h.2.2⟩⟩

/-- The user name that is read in the line fills its column as the call's own does. -/
theorem width_of_readUsername (h : c'.readUsername = c.username) :
    (padRight 10 c'.username).length = (padRight 10 c.username).length := by
  rw [← h, readUsername, unpad]
  split
  · next hshort =>
    have hread := (List.rdropWhile_prefix (p := (· == 32)) (padRight 10 c'.username)).length_le
    rw [padRight_length] at hshort hread
    rw [padRight_length, padRight_length]
    omega
  · rw [padRight_length 10 (padRight 10 _), padRight_length]
    omega

/-- The call that records the operation at byte `p` of the columns. -/
theorem exists_of_operationAt (c : AuditCall) {p : ℕ} (hp : OperationAt c.columns p) :
    ∃ c' : AuditCall, c'.line = c.line ∧ (padRight 10 c'.username).length = p := by
  obtain ⟨hlong, hshort, op, rest, hdrop, hrest, hrest'⟩ := hp
  have hnul : (0 : UInt8) ∉ c.columns := by
    intro hmem
    apply c.line_no_nul
    unfold line
    simp [hmem]
  have hlength : (c.columns.take p).length = p := by
    have hall := congrArg List.length hdrop
    rw [List.length_drop, List.length_cons] at hall
    rw [List.length_take]
    omega
  have hmem : ∀ b ∈ rest, b ∈ c.columns := by
    intro b hb
    apply List.mem_of_mem_drop (i := p)
    rw [hdrop]
    simp [hb]
  have hne : rest ≠ [] := by
    rintro rfl
    simp at hrest
  let c' : AuditCall :=
    { now := c.now
      username := c.columns.take p
      operation := op
      filename := rest
      result := c.result
      now_length := c.now_length
      now_text := c.now_text
      username_length := hlength.symm ▸ hshort
      username_text := fun h => hnul (List.mem_of_mem_take h)
      filename_length := hrest'
      filename_text := fun h => hnul (hmem 0 h)
      result_word := c.result_word }
  have hwidth : padRight 10 c'.username = c.columns.take p := padRight_of_le (by
    show 10 ≤ (c.columns.take p).length
    omega)
  have hcolumns : c'.columns = c.columns := by
    have hname : padRight 20 c'.shownName = rest := by
      show padRight 20 (if rest = [] then _ else rest) = rest
      rw [if_neg hne, padRight_of_le hrest]
    unfold columns
    rw [hwidth, hname]
    calc c.columns.take p ++ 32 :: (padRight 10 (operationToString op) ++ 32 :: rest)
        = c.columns.take p ++ c.columns.drop p := by rw [hdrop]
      _ = c.columns := List.take_append_drop p c.columns
  refine ⟨c', ?_, by rw [hwidth, hlength]⟩
  unfold line
  rw [hcolumns]

/-- The line says of no other call that it has been made if and only if the names can be
read as they are, and there is no other place in the columns where an operation can be
read. -/
theorem noOtherRecord_iff (c : AuditCall) : NoOtherRecord c ↔ c.Legible ∧ OneReading c := by
  constructor
  · intro hown
    refine ⟨c.legible_iff.mpr ⟨(hown c rfl).username, (hown c rfl).filename⟩, fun p hp => ?_⟩
    obtain ⟨c', hline, hwidth⟩ := c.exists_of_operationAt hp
    rw [← hwidth, width_of_readUsername (hown c' hline).username]
  · rintro ⟨hlegible, hone⟩ c' hline
    obtain ⟨hnow, hcolumns, hresult⟩ := columns_of_line hline
    have hread := c'.operationAt_own
    rw [hcolumns] at hread
    obtain ⟨husername, hop, hname⟩ := columns_of_width hline (hone _ hread)
    obtain ⟨hreadUser, hreadName⟩ := c.legible_iff.mp hlegible
    refine ⟨hnow, ?_, hop, ?_, hresult⟩
    · rwa [readUsername, husername]
    · rwa [readFilename, hname]

end AuditCall

/-- In the columns of a call whose names fit them nothing else can be read. -/
theorem oneReading_of_short {c : AuditCall} (husername : c.username.length ≤ 10)
    (hfilename : c.filename.length ≤ 20) : OneReading c := by
  have hname : c.shownName.length ≤ 20 := by
    unfold AuditCall.shownName
    split
    · decide
    · exact hfilename
  rintro p ⟨hlong, -, op, rest, hdrop, hrest, -⟩
  have hlength := congrArg List.length hdrop
  rw [List.length_drop, c.columns_length, List.length_cons, List.length_append,
    AuditCall.operationColumn_length, List.length_cons] at hlength
  rw [padRight_length]
  omega

/-- The log grows by one line for each call, printed with its own fields, and none of
them says of another call that it has been made. -/
def Unforged (calls : List AuditCall) (added : Bytes) : Prop :=
  OneLineEach calls added ∧ ∀ c ∈ calls, NoOtherRecord c

/-- However its reads cut the pipe, the logger adds one line for each call if and only
if no user name and no filename has a newline, and the log is not forged if and only if
besides in every call's columns its names and nothing else can be read. -/
theorem auditLog_iff {calls : List AuditCall} {reads : List Bytes} (log : Bytes)
    (hreads : Reads (auditPipe calls) reads) :
    ∃ added, auditLoggerThread log reads = log ++ added ∧
      (OneLineEach calls added ↔
        ∀ c ∈ calls, (10 : UInt8) ∉ c.username ∧ (10 : UInt8) ∉ c.filename) ∧
      (Unforged calls added ↔
        ∀ c ∈ calls, ((10 : UInt8) ∉ c.username ∧ (10 : UInt8) ∉ c.filename) ∧
          c.Legible ∧ OneReading c) := by
  refine ⟨auditPipe calls, auditLogger_pipe log hreads, oneLineEach_iff calls, ?_⟩
  unfold Unforged
  rw [oneLineEach_iff]
  constructor
  · rintro ⟨hnames, hown⟩ c hc
    exact ⟨hnames c hc, c.noOtherRecord_iff.mp (hown c hc)⟩
  · intro h
    exact ⟨fun c hc => (h c hc).1, fun c hc => c.noOtherRecord_iff.mpr (h c hc).2⟩

/-- A `DOWNLOAD` of a file that is not there. -/
def failedDownload (username filename : Bytes) (husername : username.length < maxUsername)
    (hnul : (0 : UInt8) ∉ username) (hfilename : filename.length < maxFilename)
    (hnul' : (0 : UInt8) ∉ filename) : AuditCall where
  now := text "2026-01-01 00:00:00"
  username := username
  operation := .download
  filename := filename
  result := text "NOT_FOUND"
  now_length := by decide
  now_text := by decide +kernel
  username_length := husername
  username_text := hnul
  filename_length := hfilename
  filename_text := hnul'
  result_word := by decide

theorem username_eve : (text "eve").length < maxUsername := by decide

theorem username_eve_text : (0 : UInt8) ∉ text "eve" := by decide

theorem filename_a_text : (0 : UInt8) ∉ text "a" := by decide

/-- An attempt to download `a`. -/
def plainDownload : AuditCall :=
  failedDownload (text "eve") (text "a") username_eve username_eve_text filename_a filename_a_text

/-- An entry that arrives in two reads. -/
theorem auditLog_plain : ∃ added,
    auditLoggerThread [] [(auditPipe [plainDownload]).take 5, (auditPipe [plainDownload]).drop 5] =
        [] ++ added ∧ Unforged [plainDownload] added := by
  have hreads : Reads (auditPipe [plainDownload])
      [(auditPipe [plainDownload]).take 5, (auditPipe [plainDownload]).drop 5] := by
    constructor
    · rw [List.flatten_cons, List.flatten_singleton, List.take_append_drop]
    · decide +kernel
  obtain ⟨added, hadded, -, hiff⟩ := auditLog_iff [] hreads
  refine ⟨added, hadded, hiff.mpr fun c hc => ?_⟩
  obtain rfl := List.mem_singleton.mp hc
  exact ⟨⟨by decide, by decide⟩, ⟨by decide, by decide, by decide⟩,
    oneReading_of_short (by decide) (by decide)⟩

/-- A filename with a line of its own. -/
def forgingName : AuditCall :=
  failedDownload (text "eve") (text "x\n[2026-01-01 00:00:00] bob DELETE a → SUCCESS\n") (by decide)
    (by decide) (by decide) (by decide)

/-- A user name with the columns of a deletion by `bob`, and a filename that fills its
column. -/
def forgingUser : AuditCall :=
  failedDownload (text "bob        DELETE    ") (text "x") (by decide) (by decide) (by decide)
    (by decide)

/-- A user name that differs from `bob` in a blank only. -/
def blankUser : AuditCall :=
  failedDownload (text "bob ") (text "a") (by decide) (by decide) filename_a filename_a_text

/-- The first of these downloads adds a line on a deletion by `bob`, the line of the
second is that of a deletion by `bob`, and the line of the third that of a download by
`bob`. -/
theorem forged_lines :
    Reads (auditPipe [forgingName]) [auditPipe [forgingName]] ∧
      (fields 10 (auditLoggerThread [] [auditPipe [forgingName]])).drop 1 =
        [text "[2026-01-01 00:00:00] bob DELETE a → SUCCESS", text " → NOT_FOUND", []] ∧
      ¬ OneLineEach [forgingName] (auditPipe [forgingName]) ∧ ¬ NoOtherRecord forgingUser ∧
      ¬ NoOtherRecord blankUser := by
  refine ⟨⟨by rw [List.flatten_singleton], by decide +kernel⟩, by decide +kernel, ?_, ?_, ?_⟩
  · rw [oneLineEach_iff]
    intro hnames
    exact absurd (hnames forgingName (List.mem_singleton_self _)).2 (by decide)
  · rw [AuditCall.noOtherRecord_iff]
    rintro ⟨-, hone⟩
    have hread : OperationAt forgingUser.columns 10 := by
      refine ⟨le_rfl, by decide, .delete, forgingUser.columns.drop 22, ?_, ?_, ?_⟩ <;>
        decide +kernel
    exact absurd (hone 10 hread) (by decide +kernel)
  · rw [AuditCall.noOtherRecord_iff]
    rintro ⟨hlegible, -⟩
    exact hlegible.username (by decide) (by decide)

end CloudSync
