import CloudSync.Replies.Buffers

/-!
# Which entries of the log are shown

`read_audit_log` is to show the newest entries, but it reads the log from the front and
stops when the buffer is nearly full.  So it shows the oldest, and they are the newest
only if all are shown, or if the log happens to end with the lines it begins with
(`shows_newest_iff`).
-/

namespace CloudSync

open CText

/-- A log of complete lines and perhaps a last one without a newline. -/
def logOf (lines : List Bytes) (last : Bytes) : Bytes :=
  (lines.map (· ++ [10])).flatten ++ last

def entriesOf (lines : List Bytes) (last : Bytes) : List Bytes :=
  lines ++ if last = [] then [] else [last]

/-- The text shows, below the heading, the rows of the last entries, as many as are
counted, and none only if there are none. -/
structure ShowsNewest (entries : List Bytes) (reply : ℕ × Bytes) : Prop where
  count : reply.1 ≤ entries.length
  rows : (auditReport maxFileSize).heading ++
    ((entries.drop (entries.length - reply.1)).map auditRow).flatten <+: reply.2
  none : reply.1 = 0 → entries = []

/-! ## The rows -/

theorem auditRow_newline {line : Bytes} (hline : (10 : UInt8) ∉ line) :
    auditRow (line ++ [10]) = auditRow line := by
  have hshown : (cstr (line ++ [10])).takeWhile (· != 10) = (cstr line).takeWhile (· != 10) := by
    by_cases hnul : (0 : UInt8) ∈ line
    · -- the newline is behind the NUL
      have hcut : cstr (line ++ [10]) = cstr line := by
        refine (List.takeWhile_append ..).trans (if_neg fun hall => ?_)
        exact absurd hnul fun h => by
          have hkept := List.takeWhile_eq_self_iff.mp (List.takeWhile_prefix _ |>.eq_of_length hall)
          exact absurd (hkept 0 h) (by decide)
      rw [hcut]
    · have hnul' : (0 : UInt8) ∉ line ++ [10] := by
        rw [List.mem_append, not_or]
        exact ⟨hnul, by decide⟩
      have hkept : ∀ b ∈ line, (b != 10) = true := fun b hb => by
        rw [bne_iff_ne]
        exact ne_of_mem_of_not_mem hb hline
      rw [cstr_of_not_mem hnul', cstr_of_not_mem hnul, List.takeWhile_append_of_pos hkept,
        List.takeWhile_eq_self_iff.mpr hkept]
      simp
  rw [auditRow, auditRow, hshown]

theorem auditRow_endsIn (line : Bytes) : EndsIn 10 (auditRow line) := by
  refine ⟨text "║ " ++ padRight 72 ((cstr line).takeWhile (· != 10)) ++ text " ║", ?_, ?_⟩
  · rw [List.mem_append, List.mem_append, mem_padRight (by decide), not_or, not_or]
    refine ⟨⟨by decide, fun h => ?_⟩, by decide⟩
    exact absurd (List.mem_takeWhile_imp h) (by decide)
  · rw [auditRow, List.append_assoc _ (text " ║")]
    rfl

theorem auditRow_length (line : Bytes) :
    (auditRow line).length = 4 + max 72 ((cstr line).takeWhile (· != 10)).length + 5 :=
  length_append_of (length_append_of (text_length_of rfl) (padRight_length _ _))
    (text_length_of rfl)

/-- A line that fits its column. -/
theorem auditRow_length_of_le {line : Bytes} (hline : line.length ≤ 72) :
    (auditRow line).length = 81 := by
  have hshown : ((cstr line).takeWhile (· != 10)).length ≤ line.length :=
    (List.takeWhile_prefix _).length_le.trans (List.takeWhile_prefix _).length_le
  rw [auditRow_length]
  omega

/-- With its newline, if it has one, each line is shorter than `MAX_AUDIT_ENTRY`. -/
structure ShortLog (lines : List Bytes) (last : Bytes) : Prop where
  lines : ∀ line ∈ lines, (10 : UInt8) ∉ line ∧ line.length + 1 < maxAuditEntry
  last : (10 : UInt8) ∉ last ∧ last.length < maxAuditEntry

section Log

variable {lines : List Bytes} {last : Bytes}

/-- `fgets` reads the entries one by one. -/
theorem fgetsAll_logOf (hlog : ShortLog lines last) :
    (fgetsAll maxAuditEntry (logOf lines last)).map auditRow =
      (entriesOf lines last).map auditRow := by
  obtain ⟨hlines, hlast⟩ := hlog
  induction lines with
  | nil =>
      have hread : fgetsAll maxAuditEntry last = if last = [] then [] else [last] :=
        fgetsAll_of_not_mem hlast.1 hlast.2
      exact congrArg (List.map auditRow) hread
  | cons line rest ih =>
      obtain ⟨hnewline, hshort⟩ := hlines line List.mem_cons_self
      have hcons : logOf (line :: rest) last = line ++ 10 :: logOf rest last := by
        simp [logOf]
      rw [hcons, fgetsAll_line hnewline hshort, List.map_cons, auditRow_newline hnewline,
        ih fun l hl => hlines l (List.mem_cons_of_mem _ hl)]
      rfl

variable (lines last) in
/-- The rows of the entries. -/
def entryRows : List Bytes := (entriesOf lines last).map auditRow

theorem readAuditLog_logOf (hlog : ShortLog lines last)
    {c : ℕ} (hcut : Cut (auditReport maxFileSize).limit (auditReport maxFileSize).heading.length
      (entryRows lines last) c) :
    (readAuditLog (some (logOf lines last)) maxFileSize).1 = c ∧
      (readAuditLog (some (logOf lines last)) maxFileSize).2 =
        ((auditReport maxFileSize).layout ((entryRows lines last).take c)).flatten.take
          (maxFileSize - 1) := by
  rw [readAuditLog_eq, fgetsAll_logOf hlog]
  have hprinted : (auditReport maxFileSize).printed ((entriesOf lines last).map auditRow) =
      (entryRows lines last).take c := Report.printed_eq hcut
  rw [hprinted]
  exact ⟨List.length_take_of_le hcut.le, Report.output_eq _ _⟩

/-- The rows of the newest entries are those printed, and they are in the text whole. -/
theorem ShowsNewest.repeats (hlog : ShortLog lines last)
    {c : ℕ} (hcut : Cut (auditReport maxFileSize).limit (auditReport maxFileSize).heading.length
      (entryRows lines last) c)
    (h : ShowsNewest (entriesOf lines last) (readAuditLog (some (logOf lines last)) maxFileSize)) :
    offsetAt (auditReport maxFileSize).heading.length (entryRows lines last) c < maxFileSize ∧
      (entryRows lines last).take c =
        (entryRows lines last).drop ((entryRows lines last).length - c) := by
  obtain ⟨hcount, htext⟩ := readAuditLog_logOf hlog hcut
  have hrows := h.rows
  have hle := h.count
  rw [hcount] at hle
  rw [hcount, htext, List.map_drop] at hrows
  obtain ⟨hfront, hlength⟩ := List.prefix_take_iff.mp hrows
  have hentries : (entriesOf lines last).length = (entryRows lines last).length :=
    (List.length_map _).symm
  rw [hentries] at hfront hlength hle
  change _ ++ ((entryRows lines last).drop ((entryRows lines last).length - c)).flatten <+: _
    at hfront
  change (_ ++ ((entryRows lines last).drop ((entryRows lines last).length - c)).flatten).length ≤ _
    at hlength
  rw [Report.layout_flatten, List.append_assoc, List.append_assoc,
    List.prefix_append_right_inj] at hfront
  have hends : ∀ row ∈ entryRows lines last, EndsIn 10 row := by
    intro row hrow
    obtain ⟨line, -, rfl⟩ := List.mem_map.mp hrow
    exact auditRow_endsIn line
  have hsame : (entryRows lines last).drop ((entryRows lines last).length - c) =
      (entryRows lines last).take c := by
    refine eq_of_flatten_prefix ?_ (fun row hrow => hends row (List.mem_of_mem_drop hrow))
      (fun row hrow => hends row (List.mem_of_mem_take hrow)) hfront
    rw [List.length_drop, List.length_take]
    omega
  refine ⟨?_, hsame.symm⟩
  rw [hsame, List.length_append] at hlength
  have hsize : 0 < maxFileSize := by decide
  unfold offsetAt
  omega

/-- The newest entries are shown if and only if the rows up to the cut fit, and they are
the rows of the last entries. -/
theorem shows_newest_iff (hlog : ShortLog lines last) :
    ShowsNewest (entriesOf lines last) (readAuditLog (some (logOf lines last)) maxFileSize) ↔
      ∃ c, Cut (auditReport maxFileSize).limit (auditReport maxFileSize).heading.length
          (entryRows lines last) c ∧
        offsetAt (auditReport maxFileSize).heading.length (entryRows lines last) c < maxFileSize ∧
        (entryRows lines last).take c =
          (entryRows lines last).drop ((entryRows lines last).length - c) := by
  constructor
  · intro h
    obtain ⟨c, hcut, -⟩ := exists_cut (auditReport maxFileSize).limit
      (auditReport maxFileSize).heading.length (entryRows lines last)
    exact ⟨c, hcut, h.repeats hlog hcut⟩
  · rintro ⟨c, hcut, hfits, hsame⟩
    obtain ⟨hcount, htext⟩ := readAuditLog_logOf hlog hcut
    have hentries : (entriesOf lines last).length = (entryRows lines last).length :=
      (List.length_map _).symm
    refine ⟨?_, ?_, fun hzero => ?_⟩
    · rw [hcount, hentries]
      exact hcut.le
    · rw [hcount, htext, List.map_drop, hentries]
      change _ ++ ((entryRows lines last).drop ((entryRows lines last).length - c)).flatten <+: _
      rw [← hsame]
      refine List.prefix_take_iff.mpr ⟨?_, ?_⟩
      · rw [Report.layout_flatten, List.append_assoc]
        exact List.prefix_append _ _
      · rw [List.length_append]
        exact Nat.le_sub_one_of_lt hfits
    · -- the heading alone leaves room for a row
      rw [hcount] at hzero
      subst hzero
      by_contra hne
      have hpos : 0 < (entryRows lines last).length :=
        hentries ▸ List.length_pos_iff.mpr hne
      have hreached := hcut.reached hpos
      rw [offsetAt_zero, auditReport_heading_length] at hreached
      exact absurd hreached (by decide)

/-- The offsets in a log of lines that fit their column. -/
theorem entryOffset_of_le (hlines : ∀ line ∈ entriesOf lines last, line.length ≤ 72) (j : ℕ) :
    offsetAt (auditReport maxFileSize).heading.length (entryRows lines last) j =
      537 + min j (entryRows lines last).length * 81 := by
  have hrows : ∀ row ∈ entryRows lines last, row.length = 81 := by
    intro row hrow
    obtain ⟨line, hline, rfl⟩ := List.mem_map.mp hrow
    exact auditRow_length_of_le (hlines line hline)
  rw [offsetAt_of_uniform hrows, auditReport_heading_length]

end Log

/-- The limit of the loop of `read_audit_log`. -/
theorem auditReport_limit : (auditReport maxFileSize).limit = 3584 := rfl

/-- Of a log that fits all entries are shown. -/
theorem shows_newest_two :
    ShowsNewest (entriesOf [text "one", text "two"] [])
      (readAuditLog (some (logOf [text "one", text "two"] [])) maxFileSize) := by
  have hoffset := @entryOffset_of_le [text "one", text "two"] [] (by decide)
  have hlength : (entryRows [text "one", text "two"] []).length = 2 := rfl
  rw [hlength] at hoffset
  refine (shows_newest_iff ⟨by decide, by decide⟩).mpr ⟨2, ⟨le_rfl, fun j hj => ?_, ?_⟩, ?_, rfl⟩
  · rw [hoffset, auditReport_limit]
    omega
  · exact fun h => absurd h (lt_irrefl 2)
  · rw [hoffset]
    decide

/-- A line of one byte. -/
def shortEntry (k : ℕ) : Bytes := [UInt8.ofNat (48 + k)]

/-- Of 50 entries the first 38 are shown. -/
theorem shows_oldest_of_fifty :
    (readAuditLog (some (logOf ((List.range 50).map shortEntry) [])) maxFileSize).1 = 38 ∧
      ¬ ShowsNewest (entriesOf ((List.range 50).map shortEntry) [])
        (readAuditLog (some (logOf ((List.range 50).map shortEntry) [])) maxFileSize) := by
  have hlog : ShortLog ((List.range 50).map shortEntry) [] := ⟨by decide, by decide⟩
  have hoffset := @entryOffset_of_le ((List.range 50).map shortEntry) [] (by decide)
  have hlength : (entryRows ((List.range 50).map shortEntry) []).length = 50 := rfl
  rw [hlength] at hoffset
  have hcut : Cut (auditReport maxFileSize).limit (auditReport maxFileSize).heading.length
      (entryRows ((List.range 50).map shortEntry) []) 38 := by
    refine ⟨by rw [hlength]; decide, fun j hj => ?_, fun _ => ?_⟩
    · rw [hoffset, auditReport_limit]
      omega
    · rw [hoffset, auditReport_limit]
      decide
  refine ⟨(readAuditLog_logOf hlog hcut).1, fun h => ?_⟩
  -- the first row shown is that of the first entry, not that of the thirteenth
  have hfirst := congrArg List.head? (h.repeats hlog hcut).2
  rw [hlength] at hfirst
  exact absurd hfirst (by decide +kernel)

end CloudSync
