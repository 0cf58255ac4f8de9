import CloudSync.Replies.Buffers

/-!
# When the listing of the files is complete

The buffer of a reply has 4096 bytes.  `list_all_files` stops its rows 120 bytes before
the end, but what it prints below them has 240, and the total it prints is the number of
rows.  So the listing is complete if and only if heading, rows and total fit
(`list_complete_iff`); a longer one loses the total, then files.
-/

namespace CloudSync

open CText

/-- The line below the rows, and the total. -/
def totalLine (count : ℕ) : Bytes :=
  text "╚════════════════════╩═══════╩════════╩════════════════╩═════════════════╝\n" ++
    text "  Total files: " ++ decimal count

theorem footing_eq (maxSize count : ℕ) :
    (listReport maxSize).footing count = totalLine count ++ text "\n" := rfl

set_option maxRecDepth 2000 in
theorem totalLine_length (count : ℕ) :
    (totalLine count).length = 223 + 15 + (decimal count).length :=
  length_append_of (length_append_of (text_length_of rfl) (text_length_of rfl)) rfl

/-- The listing shows, below the heading, one row for each active file in slot order and
then their number, which is also what is returned. -/
structure CompleteList (metaArray : MetaArray) (reply : ℕ × Bytes) : Prop where
  count : reply.1 = (activeSlots metaArray).card
  rows : (listReport maxFileSize).heading ++
      (fileRows metaArray (List.finRange maxFiles)).flatten ++
      (if (activeSlots metaArray).card = 0 then (listReport maxFileSize).noRows else []) ++
      totalLine (activeSlots metaArray).card <+: reply.2

theorem listAllFiles_text (metaArray : MetaArray) :
    (listAllFiles metaArray maxFileSize).2 = ((listReport maxFileSize).layout
      ((listReport maxFileSize).printed (fileRows metaArray (List.finRange maxFiles)))).flatten.take
        (maxFileSize - 1) := by
  rw [listAllFiles_eq]
  exact Report.output_eq _ _

theorem CompleteList.fits {metaArray : MetaArray}
    (h : CompleteList metaArray (listAllFiles metaArray maxFileSize)) :
    (listReport maxFileSize).heading.length +
        (fileRows metaArray (List.finRange maxFiles)).flatten.length +
        (totalLine (activeSlots metaArray).card).length < maxFileSize := by
  have hrows := h.rows
  rw [listAllFiles_text] at hrows
  have hlength := (List.prefix_take_iff.mp hrows).2
  rw [List.length_append, List.length_append, List.length_append] at hlength
  unfold maxFileSize at hlength ⊢
  omega

/-- The listing is complete if and only if heading, rows and total are shorter than the
buffer. -/
theorem list_complete_iff (metaArray : MetaArray) :
    CompleteList metaArray (listAllFiles metaArray maxFileSize) ↔
      (listReport maxFileSize).heading.length +
          (fileRows metaArray (List.finRange maxFiles)).flatten.length +
          (totalLine (activeSlots metaArray).card).length < maxFileSize := by
  refine ⟨CompleteList.fits, fun hfits => ?_⟩
  have hcount := fileRows_length metaArray
  have htotal := totalLine_length (activeSlots metaArray).card
  have hheading := listReport_heading_length maxFileSize
  have hnone := listReport_noRows_length maxFileSize
  have hsize : maxFileSize = 4096 := rfl
  have hprinted : (listReport maxFileSize).printed (fileRows metaArray (List.finRange maxFiles)) =
      fileRows metaArray (List.finRange maxFiles) := by
    apply Report.printed_of_lt
    show ((_ : ℕ) : ℤ) < (maxFileSize : ℤ) - 120
    omega
  refine ⟨?_, ?_⟩
  · rw [listAllFiles_eq, hprinted]
    exact hcount
  rw [listAllFiles_text, hprinted]
  refine List.prefix_take_iff.mpr ⟨?_, ?_⟩
  · rw [Report.layout_flatten, hcount, footing_eq, ← List.append_assoc]
    exact List.prefix_append _ _
  · simp only [List.length_append]
    split
    · next hzero =>
      -- without files there is room enough
      have hempty := List.length_eq_zero_iff.mp (hcount.trans hzero)
      have hdigit : (decimal ((activeSlots metaArray).card : ℤ)).length = 1 := by
        rw [hzero]
        decide
      rw [hempty, List.flatten_nil, List.length_nil]
      omega
    · rw [List.length_nil]
      omega

/-- One byte for each file. -/
def shortName (k : ℕ) : Bytes := [UInt8.ofNat (48 + k)]

theorem shortName_distinct {n : ℕ} (hn : n ≤ 100) :
    ∀ k < n, ∀ j < k, shortName j ≠ shortName k := by
  intro k hk j hj hsame
  have hbyte := congrArg UInt8.toNat (List.cons.inj hsame).1
  rw [UInt8.toNat_ofNat', UInt8.toNat_ofNat'] at hbyte
  omega

/-- Of 41 files with the shortest rows 40 are listed and counted. -/
theorem list_forty_of_forty_one :
    (activeSlots (filled shortName (text "u") 41)).card = 41 ∧
      (listAllFiles (filled shortName (text "u") 41) maxFileSize).1 = 40 ∧
      ¬ CompleteList (filled shortName (text "u") 41)
        (listAllFiles (filled shortName (text "u") 41) maxFileSize) := by
  have hfilled : Filled shortName (text "u") 41 (filled shortName (text "u") 41) :=
    filled_filled (fun _ _ => by simp [shortName, maxFilename]) (shortName_distinct (by decide))
      (by decide) (by decide)
  have hcount := (fileRows_length (filled shortName (text "u") 41)).trans hfilled.card
  have hrows : ∀ row ∈ fileRows (filled shortName (text "u") 41) (List.finRange maxFiles),
      row.length = 87 := hfilled.row_length (m := 1) fun _ _ => rfl
  have hoffset : ∀ j, offsetAt (listReport maxFileSize).heading.length
      (fileRows (filled shortName (text "u") 41) (List.finRange maxFiles)) j =
        534 + min j 41 * 87 := by
    intro j
    rw [offsetAt_of_uniform hrows, hcount, listReport_heading_length]
  have hlimit : (listReport maxFileSize).limit = 3976 := rfl
  have hcut : Cut (listReport maxFileSize).limit (listReport maxFileSize).heading.length
      (fileRows (filled shortName (text "u") 41) (List.finRange maxFiles)) 40 := by
    refine ⟨by rw [hcount]; decide, fun j hj => ?_, fun _ => ?_⟩
    · rw [hoffset, hlimit]
      omega
    · rw [hoffset, hlimit]
      decide
  have hforty : (listAllFiles (filled shortName (text "u") 41) maxFileSize).1 = 40 := by
    rw [listAllFiles_eq, Report.printed_eq hcut, List.length_take, hcount]
    rfl
  refine ⟨hfilled.card, hforty, fun h => ?_⟩
  have htotal := h.count
  rw [hforty, hfilled.card] at htotal
  exact absurd htotal (by decide)

end CloudSync
