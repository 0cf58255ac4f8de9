import CloudSync.FileManager
import CloudSync.Ipc
import CloudSync.Lib.Reports
import CloudSync.State.Records
import CloudSync.State.Storage

/-!
# The offset in the replies

`list_all_files`, `list_versions` and `read_audit_log` print a report into a buffer of
`MAX_FILE_SIZE` bytes (`listAllFiles_eq`, `listVersions_eq`, `readAuditLog_eq`).  Their
loops stop 120, 100 and 512 bytes before the end.  A row of versions is shorter than
its margin; a row of files or of the log need not be, and then the offset passes the
end of the buffer and `max_size - offset` is negative (`replies_within_iff`).
-/

namespace CloudSync

open CText Calls Calls.Prog Files ExchangeSort

/-! ## The reports -/

/-- What `list_all_files` prints. -/
def listReport (maxSize : ℕ) : Report where
  heading :=
    text "\n╔════════════════════╦═══════╦════════╦════════════════╦═════════════════╗\n" ++
      text "║ Filename           ║ Ver   ║ Size   ║ Owner          ║ Lock Status     ║\n" ++
      text "╠════════════════════╬═══════╬════════╬════════════════╬═════════════════╣\n"
  limit := maxSize - 120
  noRows := text "║              (no files stored)                                        ║\n"
  footing count :=
    text "╚════════════════════╩═══════╩════════╩════════════════╩═════════════════╝\n" ++
      text "  Total files: " ++ decimal count ++ text "\n"

set_option maxRecDepth 2000 in
theorem listReport_heading_length (maxSize : ℕ) :
    (listReport maxSize).heading.length = 224 + 87 + 223 :=
  length_append_of (length_append_of (text_length_of rfl) (text_length_of rfl))
    (text_length_of rfl)

set_option maxRecDepth 2000 in
theorem listReport_noRows_length (maxSize : ℕ) : (listReport maxSize).noRows.length = 78 :=
  text_length_of rfl

/-- The rows of the active files, in slot order. -/
def fileRows (metaArray : MetaArray) (slots : List Slot) : List Bytes :=
  (slots.filter fun i => (metaArray i).isActive).map fun i => listRow (metaArray i)

theorem listRows_eq (metaArray : MetaArray) (maxSize : ℕ) (slots : List Slot) (out : Output)
    (count : ℕ) :
    listRows metaArray maxSize slots (out, count) =
      (out.printAll maxSize (rowsBelow (maxSize - 120) out.offset (fileRows metaArray slots)),
        count + (rowsBelow (maxSize - 120) out.offset (fileRows metaArray slots)).length) := by
  induction slots generalizing out count with
  | nil => rfl
  | cons i rest ih =>
      rw [listRows]
      by_cases hroom : (out.offset : ℤ) < maxSize - 120
      · rw [if_pos hroom]
        by_cases hactive : (metaArray i).isActive = true
        · have hrows : fileRows metaArray (i :: rest) =
              listRow (metaArray i) :: fileRows metaArray rest := by
            simp [fileRows, hactive]
          rw [hrows, rowsBelow, if_pos hactive, if_pos hroom, ih, List.length_cons]
          simp only [Output.print, Output.printAll_cons]
          rw [Nat.add_right_comm, Nat.add_assoc]
        · have hrows : fileRows metaArray (i :: rest) = fileRows metaArray rest := by
            simp [fileRows, hactive]
          rw [hrows, if_neg hactive, ih]
      · rw [if_neg hroom, rowsBelow_of_le hroom]
        rfl

/-- `list_all_files` prints its report on the active files. -/
theorem listAllFiles_eq (metaArray : MetaArray) (maxSize : ℕ) :
    listAllFiles metaArray maxSize =
      (((listReport maxSize).printed (fileRows metaArray (List.finRange maxFiles))).length,
        (listReport maxSize).output maxSize
          ((listReport maxSize).printed (fileRows metaArray (List.finRange maxFiles)))) := by
  simp only [listAllFiles, listRows_eq, Report.output_of_loop, Report.printed, listReport,
    Output.empty_print_offset, Nat.zero_add]

/-- The row of a line of the log. -/
def auditRow (line : Bytes) : Bytes :=
  text "║ " ++ padRight 72 ((cstr line).takeWhile (· != 10)) ++ text " ║\n"

/-- What `read_audit_log` prints. -/
def auditReport (maxSize : ℕ) : Report where
  heading :=
    text "\n╔══════════════════════════════════════════════════════════════════════════╗\n" ++
      text "║                              AUDIT LOG                                ║\n" ++
      text "╠══════════════════════════════════════════════════════════════════════════╣\n"
  limit := maxSize - maxAuditEntry
  noRows := text "║                          (no entries yet)                              ║\n"
  footing count :=
    text "╚══════════════════════════════════════════════════════════════════════════╝\n" ++
      text " Total entries: " ++ decimal count ++ text "\n"

set_option maxRecDepth 2000 in
theorem auditReport_heading_length (maxSize : ℕ) :
    (auditReport maxSize).heading.length = 230 + 78 + 229 :=
  length_append_of (length_append_of (text_length_of rfl) (text_length_of rfl))
    (text_length_of rfl)

set_option maxRecDepth 2000 in
theorem auditReport_noRows_length (maxSize : ℕ) : (auditReport maxSize).noRows.length = 79 :=
  text_length_of rfl

theorem auditRows_eq (maxSize : ℕ) (lines : List Bytes) (out : Output) (count : ℕ) :
    auditRows maxSize lines (out, count) =
      (out.printAll maxSize (rowsBelow (maxSize - maxAuditEntry) out.offset (lines.map auditRow)),
        count + (rowsBelow (maxSize - maxAuditEntry) out.offset (lines.map auditRow)).length) := by
  induction lines generalizing out count with
  | nil => rfl
  | cons line rest ih =>
      rw [auditRows, List.map_cons, rowsBelow]
      by_cases hroom : (out.offset : ℤ) < maxSize - maxAuditEntry
      · rw [if_pos hroom, if_pos hroom, List.length_cons, Output.printAll_cons]
        show auditRows maxSize rest (out.print maxSize (auditRow line), count + 1) = _
        rw [ih, Nat.add_right_comm, Nat.add_assoc]
        rfl
      · rw [if_neg hroom, if_neg hroom]
        rfl

/-- `read_audit_log` prints its report on the lines `fgets` reads. -/
theorem readAuditLog_eq (file : Bytes) (maxSize : ℕ) :
    readAuditLog (some file) maxSize =
      (((auditReport maxSize).printed ((fgetsAll maxAuditEntry file).map auditRow)).length,
        (auditReport maxSize).output maxSize
          ((auditReport maxSize).printed ((fgetsAll maxAuditEntry file).map auditRow))) := by
  simp only [readAuditLog, auditRows_eq, Report.output_of_loop, Report.printed, auditReport,
    Output.empty_print_offset, Nat.zero_add]

/-- The row of a version, given what `stat` says of its size. -/
def versionRow (modified : Bytes) (name : Bytes) (size : ℕ) : Bytes :=
  text "║ v" ++ padRight 4 (decimal (atoi (name.drop 1))) ++ text " ║ " ++
    padLeft 7 (decimal size) ++ text "B    ║ " ++ padRight 15 modified ++ text " ║\n"

/-- What `list_versions` prints. -/
def versionReport (filename : Bytes) (maxSize : ℕ) : Report where
  heading :=
    text "\n╔═══════════════════════════════════════╗\n" ++
      text "║       VERSION HISTORY: " ++ padRight 14 filename ++ text " ║\n" ++
      text "╠═══════╦═════════════╦═════════════════╣\n" ++
      text "║ Ver   ║ Size        ║ Date            ║\n" ++
      text "╠═══════╬═════════════╬═════════════════╣\n"
  limit := maxSize - 100
  noRows := text "║       (no versions stored)            ║\n"
  footing count :=
    text "╚═══════╩═════════════╩═════════════════╝\n" ++
      text " Total versions: " ++ decimal count ++ text " (max kept: " ++
      decimal maxVersions ++ text ")\n"

/-- The rows `list_versions` prints: as long as the offset is below the limit, one for
each entry that `stat` finds. -/
def printedVersions (dir : Bytes) (limit : ℤ) (modified : Bytes → Bytes) :
    List Bytes → ℕ → Prog Sys (List Bytes)
  | [], _ => return []
  | name :: rest, offset => do
      if (offset : ℤ) < limit then
        let fpath := snprintf 512 (dir ++ 47 :: name)
        match ← perform (.stat fpath) with
        | none => printedVersions dir limit modified rest offset
        | some size =>
            let row := versionRow (modified fpath) name size
            let rows ← printedVersions dir limit modified rest (offset + row.length)
            return row :: rows
      else return []

theorem versionRows_eq (dir : Bytes) (maxSize : ℕ) (modified : Bytes → Bytes) (names : List Bytes)
    (out : Output) (count : ℕ) :
    versionRows dir maxSize modified names (out, count) =
      printedVersions dir (maxSize - 100) modified names out.offset >>= fun rows =>
        return (out.printAll maxSize rows, count + rows.length) := by
  induction names generalizing out count with
  | nil => rfl
  | cons name rest ih =>
      simp only [versionRows, printedVersions, perform_bind, pure_eq_ret]
      by_cases hroom : (out.offset : ℤ) < maxSize - 100
      · rw [if_pos hroom, if_pos hroom, call_bind]
        congr 1
        funext answer
        cases answer with
        | none => exact ih _ _
        | some size =>
            let row := versionRow (modified (snprintf 512 (dir ++ 47 :: name))) name size
            change versionRows dir maxSize modified rest (out.print maxSize row, count + 1) =
              (printedVersions dir (maxSize - 100) modified rest (out.offset + row.length) >>=
                fun rows => Prog.ret (row :: rows)) >>= _
            rw [ih, bind_assoc]
            congr 1
            funext rows
            rw [ret_bind, List.length_cons, Output.printAll_cons, Nat.add_right_comm, Nat.add_assoc]
            rfl
      · rw [if_neg hroom, if_neg hroom]
        rfl

/-- The rows `list_versions` prints, if there is a directory. -/
def shownVersions (filename : Bytes) (maxSize : ℕ) (modified : Bytes → Bytes) :
    Prog Sys (Option (List Bytes)) := do
  let dir := versionDirPath filename
  match ← perform (.readdir dir) with
  | none => return none
  | some entries =>
      let sorted := exchangeSort
        (fun a b : Bytes => decide (atoi (a.drop 1) < atoi (b.drop 1))) (versionEntries entries)
      let rows ← printedVersions dir (maxSize - 100) modified sorted
        (versionReport filename maxSize).heading.length
      return some rows

/-- What `list_versions` answers when these rows are printed. -/
def versionsReply (filename : Bytes) (maxSize : ℕ) : Option (List Bytes) → ℤ × Bytes
  | none => (-1, snprintf maxSize
      (text "File '" ++ filename ++ text "' not found or has no history.\n"))
  | some rows => (rows.length, (versionReport filename maxSize).output maxSize rows)

/-- `list_versions` prints its report on the entries `stat` finds. -/
theorem listVersions_eq (filename : Bytes) (maxSize : ℕ) (modified : Bytes → Bytes) :
    listVersions filename maxSize modified = shownVersions filename maxSize modified >>=
      fun shown => return versionsReply filename maxSize shown := by
  simp only [listVersions, shownVersions, perform_bind, call_bind]
  congr 1
  funext answer
  cases answer with
  | none => rfl
  | some entries =>
      simp only [versionRows_eq, versionsReply, Report.output_of_loop, versionReport,
        Output.empty_print_offset, Nat.zero_add, bind_assoc, pure_eq_ret, ret_bind]

/-! ## A row of versions fits the margin -/

/-- The columns have room for an `int`, a `long` and a time, and no more is printed. -/
theorem versionRow_length {modified : Bytes} (hmodified : modified.length < 32) (name : Bytes)
    {size : ℕ} (hsize : size < 2 ^ 63) : (versionRow modified name size).length ≤ 100 := by
  have hversion : (decimal (atoi (name.drop 1))).length ≤ 11 := decimal_length_le (int32_range _)
  have hdigits : (decimal size).length ≤ 19 := decimalNat_length_le (by decide) (by omega)
  have hlengths : (text "║ v").length = 5 ∧ (text " ║ ").length = 5 ∧ (text "B    ║ ").length = 9 ∧
      (text " ║\n").length = 5 :=
    ⟨text_length_of rfl, text_length_of rfl, text_length_of rfl, text_length_of rfl⟩
  simp only [versionRow, List.length_append, padRight_length, padLeft_length]
  omega

/-- No file is longer than a `long` can say. -/
def LongSizes (t : Tree) : Prop := ∀ p bytes, t.bytes? p = some bytes → bytes.length < 2 ^ 63

theorem LongSizes.stat {t : Tree} (h : LongSizes t) {p : Path} {size : ℕ}
    (hstat : t.stat p = some size) : size < 2 ^ 63 := by
  unfold Tree.stat at hstat
  split at hstat
  · obtain rfl := Option.some.inj hstat
    decide
  · obtain ⟨bytes, hbytes, rfl⟩ := Option.map_eq_some_iff.mp hstat
    exact h p bytes hbytes

/-- `stat` changes nothing, and says a size only where there is a file. -/
theorem exec_stat (c : Conditions) (path : Bytes) (t : Tree) :
    (disk.exec c (.stat path) t).2 = t ∧
      ∀ size ∈ (disk.exec c (.stat path) t).1, t.stat (resolve path) = some size := by
  simp only [disk]
  split
  · exact ⟨rfl, fun size hsize => absurd hsize (Option.not_mem_none size)⟩
  · exact ⟨rfl, fun size hsize => hsize⟩

variable {t : Tree} {modified : Bytes → Bytes} {filename : Bytes}

theorem printedVersions_fit (hsizes : LongSizes t) (hmodified : ∀ path, (modified path).length < 32)
    (dir : Bytes) {maxSize : ℕ} (names : List Bytes) {offset : ℕ} (hoffset : offset ≤ maxSize) :
    wp disk (fun _ => True) (printedVersions dir (maxSize - 100) modified names offset)
      (fun rows _ => offset + rows.flatten.length ≤ maxSize) t := by
  induction names generalizing offset with
  | nil => exact hoffset
  | cons name rest ih =>
      simp only [printedVersions, perform_bind, pure_eq_ret]
      split
      · next hroom =>
        intro c _
        obtain ⟨hsame, hanswer⟩ := exec_stat c (snprintf 512 (dir ++ 47 :: name)) t
        rw [hsame]
        cases hstat : (disk.exec c (.stat (snprintf 512 (dir ++ 47 :: name))) t).1 with
        | none => exact ih hoffset
        | some size =>
            have hrow := versionRow_length (hmodified (snprintf 512 (dir ++ 47 :: name))) name
              (hsizes.stat (hanswer size hstat))
            refine wp_bind.mpr (wp_mono (ih (by omega)) fun rows _ hrows => ?_)
            rw [wp_ret, List.flatten_cons, List.length_append]
            omega
      · exact hoffset

set_option maxRecDepth 2000 in
theorem versionReport_heading_length (filename : Bytes) (maxSize : ℕ) :
    (versionReport filename maxSize).heading.length =
      125 + 27 + max 14 filename.length + 5 + 124 + 50 + 124 :=
  length_append_of (length_append_of (length_append_of (length_append_of (length_append_of
    (length_append_of (text_length_of rfl) (text_length_of rfl)) (padRight_length _ _))
      (text_length_of rfl)) (text_length_of rfl)) (text_length_of rfl)) (text_length_of rfl)

theorem versionReport_noRows_length (filename : Bytes) (maxSize : ℕ) :
    (versionReport filename maxSize).noRows.length = 46 :=
  text_length_of rfl

/-- `list_versions` stays within its buffer, whatever is in the directory. -/
theorem shownVersions_within (hname : filename.length < maxFilename) (hsizes : LongSizes t)
    (hmodified : ∀ path, (modified path).length < 32) (conds : ℕ → Conditions) :
    ∀ rows ∈ ((shownVersions filename maxFileSize modified).run disk conds t).1,
      Within maxFileSize ((versionReport filename maxFileSize).layout rows) := by
  have hheading : (versionReport filename maxFileSize).heading.length +
      (versionReport filename maxFileSize).noRows.length ≤ maxFileSize := by
    rw [versionReport_heading_length, versionReport_noRows_length]
    unfold maxFilename at hname
    unfold maxFileSize
    omega
  have hshown : wp disk (fun _ => True) (shownVersions filename maxFileSize modified)
      (fun shown _ => ∀ rows ∈ shown, (versionReport filename maxFileSize).heading.length +
        rows.flatten.length ≤ maxFileSize) t := by
    simp only [shownVersions, perform_bind, pure_eq_ret]
    intro c _
    have hsame : (disk.exec c (.readdir (versionDirPath filename)) t).2 = t := by
      simp only [disk]
      split <;> rfl
    rw [hsame]
    cases (disk.exec c (.readdir (versionDirPath filename)) t).1 with
    | none => exact fun rows hrows => absurd hrows (Option.not_mem_none rows)
    | some entries =>
        refine wp_bind.mpr (wp_mono (printedVersions_fit hsizes hmodified _ _
          ((Nat.le_add_right _ _).trans hheading)) fun rows _ hrows => ?_)
        rintro rows' hrows'
        obtain rfl := Option.some.inj hrows'
        exact hrows
  intro rows hrows
  exact (Report.within_layout_iff hheading).mpr (wp_run hshown (fun _ => trivial) rows hrows)

/-! ## The three replies -/

/-- In none of the three functions the offset passes the end of the buffer. -/
structure RepliesWithin (metaArray : MetaArray) (log : Option Bytes) (filename : Bytes)
    (shown : Option (List Bytes)) : Prop where
  list : Within maxFileSize ((listReport maxFileSize).layout
    ((listReport maxFileSize).printed (fileRows metaArray (List.finRange maxFiles))))
  versions : ∀ rows ∈ shown,
    Within maxFileSize ((versionReport filename maxFileSize).layout rows)
  audit : ∀ file ∈ log, Within maxFileSize ((auditReport maxFileSize).layout
    ((auditReport maxFileSize).printed ((fgetsAll maxAuditEntry file).map auditRow)))

/-- The offset stays within the buffers if and only if the rows of the files and those of
the log stop in time. -/
theorem replies_within_iff (metaArray : MetaArray) (log : Option Bytes) (conds : ℕ → Conditions)
    (hname : filename.length < maxFilename) (hsizes : LongSizes t)
    (hmodified : ∀ path, (modified path).length < 32) :
    RepliesWithin metaArray log filename
        ((shownVersions filename maxFileSize modified).run disk conds t).1 ↔
      (listReport maxFileSize).StopsInTime maxFileSize
          (fileRows metaArray (List.finRange maxFiles)) ∧
        ∀ file ∈ log, (auditReport maxFileSize).StopsInTime maxFileSize
          ((fgetsAll maxAuditEntry file).map auditRow) := by
  have hlist : (listReport maxFileSize).heading.length + (listReport maxFileSize).noRows.length ≤
      maxFileSize := by
    rw [listReport_heading_length, listReport_noRows_length]
    decide
  have haudit : (auditReport maxFileSize).heading.length + (auditReport maxFileSize).noRows.length ≤
      maxFileSize := by
    rw [auditReport_heading_length, auditReport_noRows_length]
    decide
  constructor
  · intro h
    exact ⟨(Report.within_iff hlist).mp h.list,
      fun file hfile => (Report.within_iff haudit).mp (h.audit file hfile)⟩
  · rintro ⟨hfiles, hlines⟩
    exact ⟨(Report.within_iff hlist).mpr hfiles,
      shownVersions_within hname hsizes hmodified conds,
      fun file hfile => (Report.within_iff haudit).mpr (hlines file hfile)⟩

/-! ## A table filled with files -/

section Filled

variable {name : ℕ → Bytes} {owner : Bytes} {n : ℕ} {metaArray : MetaArray}

/-- There is a row for each active file. -/
theorem fileRows_length (metaArray : MetaArray) :
    (fileRows metaArray (List.finRange maxFiles)).length = (activeSlots metaArray).card := by
  rw [fileRows, List.length_map, activeSlots, Fin.univ_def]
  simp only [Finset.card, Finset.filter, Multiset.filter_coe, Multiset.coe_card,
    Bool.decide_eq_true]

theorem listRow_length (r : FileMetadata) :
    (listRow r).length = 4 + max 18 r.filename.length + 6 + max 4 (decimal r.version).length + 5 +
      max 5 (decimal r.fileSize).length + 6 + max 14 r.ownerName.length + 5 +
      max 15 (lockColumn r).length + 5 :=
  length_append_of (length_append_of (length_append_of (length_append_of (length_append_of
    (length_append_of (length_append_of (length_append_of (length_append_of (length_append_of
      (text_length_of rfl) (padRight_length _ _)) (text_length_of rfl)) (padRight_length _ _))
        (text_length_of rfl)) (padLeft_length _ _)) (text_length_of rfl)) (padRight_length _ _))
          (text_length_of rfl)) (padRight_length _ _)) (text_length_of rfl)

/-- User 2 adds files of one byte one after the other. -/
def filled (name : ℕ → Bytes) (owner : Bytes) : ℕ → MetaArray
  | 0 => initMetadata
  | n + 1 => (addFileMetadata (filled name owner n) (name n) owner 2 1 0).2

/-- There are `n` active slots, each with the record of a new file. -/
structure Filled (name : ℕ → Bytes) (owner : Bytes) (n : ℕ) (metaArray : MetaArray) : Prop where
  card : (activeSlots metaArray).card = n
  filename : ∀ i ∈ activeSlots metaArray, ∃ k < n, (metaArray i).filename = name k
  record : ∀ i ∈ activeSlots metaArray, (metaArray i).ownerName = owner ∧
    (metaArray i).version = 1 ∧ (metaArray i).fileSize = 1 ∧ (metaArray i).lockedByUserId = -1

theorem Filled.add (h : Filled name owner n metaArray) (hn : n < maxFiles)
    (hnew : ∀ k < n, name k ≠ name n) (hname : (name n).length < maxFilename)
    (howner : owner.length < maxUsername) :
    Filled name owner (n + 1) (addFileMetadata metaArray (name n) owner 2 1 0).2 := by
  have hnone : findSlot metaArray (name n) = none := by
    rw [findSlot_eq_none]
    intro i hi hsame
    obtain ⟨k, hk, hfile⟩ := h.filename i (mem_activeSlots.mpr hi)
    exact hnew k hk (hfile.symm.trans hsame)
  obtain ⟨i, hempty⟩ := exists_emptySlot (h.card.trans_lt hn)
  have hcopy : strncpy (maxFilename - 1) (name n) = name n :=
    List.take_of_length_le (Nat.le_sub_one_of_lt hname)
  have hcopy' : strncpy (maxUsername - 1) owner = owner :=
    List.take_of_length_le (Nat.le_sub_one_of_lt howner)
  have hfree : i ∉ activeSlots metaArray := by
    rw [mem_activeSlots, emptySlot_spec hempty]
    exact Bool.false_ne_true
  unfold addFileMetadata
  rw [hnone, hempty]
  dsimp only
  rw [hcopy, hcopy']
  generalize hr : ({ metaArray i with
    filename := name n, ownerName := owner, ownerId := 2, version := 1, fileSize := 1
    isActive := true, created := 0, lastModified := 0, lockedByUserId := -1 } : FileMetadata) = r
  have hslots : activeSlots (Function.update metaArray i r) = insert i (activeSlots metaArray) := by
    ext j
    rw [Finset.mem_insert, mem_activeSlots, mem_activeSlots]
    by_cases hj : j = i
    · rw [hj, Function.update_self, ← hr]
      simp
    · rw [Function.update_of_ne hj]
      simp [hj]
  refine ⟨?_, fun j hj => ?_, fun j hj => ?_⟩
  · rw [hslots, Finset.card_insert_of_notMem hfree, h.card]
  · rw [hslots, Finset.mem_insert] at hj
    by_cases hji : j = i
    · rw [hji, Function.update_self, ← hr]
      exact ⟨n, n.lt_succ_self, rfl⟩
    · rw [Function.update_of_ne hji]
      obtain ⟨k, hk, hfile⟩ := h.filename j (hj.resolve_left hji)
      exact ⟨k, hk.trans n.lt_succ_self, hfile⟩
  · rw [hslots, Finset.mem_insert] at hj
    by_cases hji : j = i
    · rw [hji, Function.update_self, ← hr]
      exact ⟨rfl, rfl, rfl, rfl⟩
    · rw [Function.update_of_ne hji]
      exact h.record j (hj.resolve_left hji)

theorem filled_filled (hname : ∀ k < n, (name k).length < maxFilename)
    (hdistinct : ∀ k < n, ∀ j < k, name j ≠ name k) (howner : owner.length < maxUsername)
    (hn : n ≤ maxFiles) : Filled name owner n (filled name owner n) := by
  induction n with
  | zero =>
      have hnone : activeSlots (filled name owner 0) = ∅ :=
        Finset.filter_eq_empty_iff.mpr fun _ _ => Bool.false_ne_true
      refine ⟨Finset.card_eq_zero.mpr hnone, fun i hi => ?_, fun i hi => ?_⟩
      · exact absurd (hnone ▸ hi) (Finset.notMem_empty i)
      · exact absurd (hnone ▸ hi) (Finset.notMem_empty i)
  | succ n ih =>
      have hbefore := ih (fun k hk => hname k (hk.trans n.lt_succ_self))
        (fun k hk => hdistinct k (hk.trans n.lt_succ_self)) (Nat.le_of_succ_le hn)
      exact hbefore.add hn (hdistinct n n.lt_succ_self) (hname n n.lt_succ_self) howner

/-- The rows of a filled table have one length. -/
theorem Filled.row_length (h : Filled name owner n metaArray) {m : ℕ}
    (hname : ∀ k < n, (name k).length = m) :
    ∀ row ∈ fileRows metaArray (List.finRange maxFiles),
      row.length = max 18 m + max 14 owner.length + 55 := by
  intro row hrow
  obtain ⟨i, hi, rfl⟩ := List.mem_map.mp hrow
  have hactive : i ∈ activeSlots metaArray := mem_activeSlots.mpr (List.mem_filter.mp hi).2
  obtain ⟨k, hk, hfile⟩ := h.filename i hactive
  obtain ⟨howner, hversion, hsize, hfree⟩ := h.record i hactive
  have hlock : lockColumn (metaArray i) = text "unlocked" := by
    rw [lockColumn, hfree, if_neg (by decide)]
    decide
  have hdecimal : (decimal 1).length = 1 := by decide
  have hunlocked : (text "unlocked").length = 8 := text_length_of rfl
  rw [listRow_length, hfile, hname k hk, howner, hversion, hsize, hlock, hunlocked, hdecimal]
  omega

end Filled

theorem plainName_versionOne : PlainName (text "v1") := by decide

/-- A storage with version 1 of `a`. -/
def oneVersion : Tree :=
  (Tree.empty.insert (text "a") versionsPath .dir plainName_a).insert (text "v1")
    (text "a" :: versionsPath) (.file (text "one")) plainName_versionOne

theorem oneVersion_longSizes : LongSizes oneVersion := by
  intro p bytes hbytes
  have hat := Tree.bytes?_eq_some.mp hbytes
  unfold oneVersion at hat
  by_cases hversion : p = text "v1" :: text "a" :: versionsPath
  · subst hversion
    rw [Tree.at?_insert_self] at hat
    obtain rfl : text "one" = bytes := by simpa using hat
    decide
  · rw [Tree.at?_insert_of_ne _ hversion] at hat
    by_cases hdir : p = text "a" :: versionsPath
    · subst hdir
      rw [Tree.at?_insert_self] at hat
      exact absurd hat (by simp)
    · rw [Tree.at?_insert_of_ne _ hdir] at hat
      exact absurd hat (by simp [Tree.at?, Tree.empty])

/-- The files that differ in the last of 63 bytes. -/
def longName (k : ℕ) : Bytes := List.replicate 62 97 ++ [UInt8.ofNat (65 + k)]

theorem longName_distinct {n : ℕ} (hn : n ≤ 100) : ∀ k < n, ∀ j < k, longName j ≠ longName k := by
  intro k hk j hj hsame
  have hlast := congrArg UInt8.toNat (List.cons.inj (List.append_cancel_left hsame)).1
  rw [UInt8.toNat_ofNat', UInt8.toNat_ofNat'] at hlast
  omega

/-- An owner with a name of 31 bytes. -/
def longOwner : Bytes := List.replicate 31 98

/-- Each such file advances the offset by 149. -/
theorem offsetAt_filled {n : ℕ} (hn : n ≤ 100) (j : ℕ) :
    offsetAt (listReport maxFileSize).heading.length
      (fileRows (filled longName longOwner n) (List.finRange maxFiles)) j = 534 + min j n * 149 := by
  have hfilled : Filled longName longOwner n (filled longName longOwner n) :=
    filled_filled (fun _ _ => by simp [longName, maxFilename]) (longName_distinct hn) (by decide) hn
  have hrows := hfilled.row_length (m := 63) fun _ _ => by simp [longName]
  have howner : longOwner.length = 31 := List.length_replicate
  rw [howner] at hrows
  rw [offsetAt_of_uniform hrows, (fileRows_length _).trans hfilled.card, listReport_heading_length]
  rfl

theorem heading_filled {n : ℕ} (hn : n ≤ 100) : (listReport maxFileSize).heading.length +
    (fileRows (filled longName longOwner n) (List.finRange maxFiles)).flatten.length ≤
      534 + n * 149 := by
  rw [← offsetAt_length, offsetAt_filled hn]
  exact Nat.add_le_add_left (Nat.mul_le_mul_right 149 (min_le_right _ _)) 534

/-- Two lines of the log. -/
def twoEntries : Bytes :=
  text "[2026-01-01 10:00:00] bob        UPLOAD     a                    → SUCCESS\n" ++
    text "[2026-01-01 10:00:01] eve        DELETE     a                    → DENIED\n"

/-- With 23 such files, a version and two lines of the log all is well. -/
theorem replies_within_full :
    RepliesWithin (filled longName longOwner 23) (some twoEntries) (text "a")
      ((shownVersions (text "a") maxFileSize fun _ => []).run disk (fun _ => Conditions.fine)
        oneVersion).1 := by
  refine (replies_within_iff _ _ _ (by decide) oneVersion_longSizes fun _ => by decide).mpr
    ⟨Or.inl ((heading_filled (by decide)).trans (by decide)), fun file hfile => Or.inl ?_⟩
  obtain rfl := Option.some.inj hfile
  have hrows : ((fgetsAll maxAuditEntry twoEntries).map auditRow).flatten.length ≤ 200 := by
    decide +kernel
  rw [auditReport_heading_length]
  unfold maxFileSize
  omega

/-- With 24 such files the offset is at 3961 after 23 rows, the loop goes on, and it is
at 4110 after the last. -/
theorem replies_beyond_buffer :
    ¬ RepliesWithin (filled longName longOwner 24) none (text "a")
      ((shownVersions (text "a") maxFileSize fun _ => []).run disk (fun _ => Conditions.fine)
        oneVersion).1 := by
  have hoffset := offsetAt_filled (n := 24) (by decide)
  intro h
  have hnone : (listReport maxFileSize).heading.length + (listReport maxFileSize).noRows.length ≤
      maxFileSize := by
    rw [listReport_heading_length, listReport_noRows_length]
    decide
  rcases (Report.within_iff hnone).mp h.list with hall | ⟨j, hlow, hhigh⟩
  · have hend := (offsetAt_le 24).trans hall
    rw [hoffset] at hend
    exact absurd hend (by decide)
  · rw [hoffset] at hlow hhigh
    have hlimit : (listReport maxFileSize).limit = 3976 := rfl
    rw [hlimit] at hlow
    unfold maxFileSize at hhigh
    omega

end CloudSync
