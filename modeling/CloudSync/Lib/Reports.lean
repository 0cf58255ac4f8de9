import CloudSync.Lib.CStdio

/-!
# Reports printed row by row

A report is a heading, rows and a footing that says how many rows there are, each
printed with a `snprintf` of its own into one buffer; without rows another line
takes their place.  The loop over the rows goes on while the offset is below a
limit, so that the rows printed are those before the first offset that reaches it
(`Cut`).  How long the next row is the loop does not ask: the offset can pass the
end of the buffer (`Report.within_iff`), and the text ends where the buffer does
(`Report.output_eq`).
-/

namespace CText

/-! ## One piece after the other -/

/-- Print the pieces. -/
def Output.printAll (size : ℕ) (out : Output) (pieces : List Bytes) : Output :=
  pieces.foldl (Output.print size) out

@[simp] theorem Output.printAll_nil (size : ℕ) (out : Output) : out.printAll size [] = out := rfl

@[simp] theorem Output.printAll_cons (size : ℕ) (out : Output) (piece : Bytes)
    (pieces : List Bytes) :
    out.printAll size (piece :: pieces) = (out.print size piece).printAll size pieces := rfl

theorem Output.printAll_append (size : ℕ) (out : Output) (pieces more : List Bytes) :
    out.printAll size (pieces ++ more) = (out.printAll size pieces).printAll size more :=
  List.foldl_append

@[simp] theorem Output.empty_print_offset (size : ℕ) (piece : Bytes) :
    (Output.empty.print size piece).offset = piece.length := Nat.zero_add _

theorem Output.printAll_offset (size : ℕ) (out : Output) (pieces : List Bytes) :
    (out.printAll size pieces).offset = out.offset + pieces.flatten.length := by
  induction pieces generalizing out with
  | nil => rfl
  | cons piece pieces ih =>
      have hpiece : (out.print size piece).offset = out.offset + piece.length := rfl
      rw [printAll_cons, ih, hpiece, List.flatten_cons, List.length_append]
      omega

theorem Output.printAll_written (size : ℕ) (out : Output) (pieces : List Bytes) :
    (out.printAll size pieces).written =
      out.written ++ pieces.flatten.take (size - out.offset - 1) := by
  induction pieces generalizing out with
  | nil => simp
  | cons piece pieces ih =>
      have hroom : size - (out.offset + piece.length) - 1 = size - out.offset - 1 - piece.length := by
        omega
      calc (out.printAll size (piece :: pieces)).written
          = (out.written ++ piece.take (size - out.offset - 1)) ++
              pieces.flatten.take (size - (out.offset + piece.length) - 1) := ih _
        _ = out.written ++ (piece :: pieces).flatten.take (size - out.offset - 1) := by
            rw [hroom, List.flatten_cons, List.take_append, List.append_assoc]

/-- At every `snprintf` the offset is within the buffer, so that what is left of the
buffer is not negative. -/
def Within (size : ℕ) (pieces : List Bytes) : Prop :=
  ∀ before piece after, pieces = before ++ piece :: after →
    (Output.empty.printAll size before).offset ≤ size

/-- The last `snprintf` decides. -/
theorem within_concat_iff {size : ℕ} {pieces : List Bytes} {last : Bytes} :
    Within size (pieces ++ [last]) ↔ pieces.flatten.length ≤ size := by
  have hoffset : ∀ before, (Output.empty.printAll size before).offset = before.flatten.length := by
    intro before
    rw [Output.printAll_offset]
    exact Nat.zero_add _
  unfold Within
  simp only [hoffset]
  constructor
  · intro h
    exact h pieces last [] rfl
  · intro h before piece after hpieces
    have hfront : before <+: pieces := by
      rcases List.eq_nil_or_concat after with rfl | ⟨init, final, rfl⟩
      · exact (List.append_inj' hpieces rfl).1 ▸ List.prefix_rfl
      · rw [List.concat_eq_append, ← List.cons_append, ← List.append_assoc] at hpieces
        exact ⟨piece :: init, (List.append_inj' hpieces rfl).1.symm⟩
    obtain ⟨more, rfl⟩ := hfront
    rw [List.flatten_append, List.length_append] at h
    omega

/-! ## The rows -/

/-- The rows a loop prints that starts at an offset and goes on while the offset is
below the limit. -/
def rowsBelow (limit : ℤ) : ℕ → List Bytes → List Bytes
  | _, [] => []
  | offset, row :: rest =>
      if (offset : ℤ) < limit then row :: rowsBelow limit (offset + row.length) rest else []

theorem rowsBelow_of_le {limit : ℤ} {start : ℕ} (h : ¬ (start : ℤ) < limit) (rows : List Bytes) :
    rowsBelow limit start rows = [] := by
  cases rows with
  | nil => rfl
  | cons row rest => rw [rowsBelow, if_neg h]

/-- The offset after `j` rows. -/
def offsetAt (start : ℕ) (rows : List Bytes) (j : ℕ) : ℕ := start + (rows.take j).flatten.length

variable {limit : ℤ} {start size : ℕ} {rows : List Bytes} {c : ℕ}

@[simp] theorem offsetAt_zero : offsetAt start rows 0 = start := rfl

theorem offsetAt_cons (row : Bytes) (j : ℕ) :
    offsetAt start (row :: rows) (j + 1) = offsetAt (start + row.length) rows j := by
  simp only [offsetAt, List.take_succ_cons, List.flatten_cons, List.length_append]
  omega

theorem offsetAt_length : offsetAt start rows rows.length = start + rows.flatten.length := by
  rw [offsetAt, List.take_length]

theorem offsetAt_mono : Monotone (offsetAt start rows) := by
  intro i j hij
  have htake := List.take_prefix_take_left (l := rows) hij
  obtain ⟨more, hmore⟩ := htake
  rw [offsetAt, offsetAt, ← hmore, List.flatten_append, List.length_append]
  omega

theorem offsetAt_le (j : ℕ) : offsetAt start rows j ≤ start + rows.flatten.length := by
  rcases le_total j rows.length with hj | hj
  · exact (offsetAt_mono hj).trans_eq offsetAt_length
  · rw [offsetAt, List.take_of_length_le hj]

/-- Rows of one length advance the offset evenly. -/
theorem offsetAt_of_uniform {m : ℕ} (hrows : ∀ row ∈ rows, row.length = m) (j : ℕ) :
    offsetAt start rows j = start + min j rows.length * m := by
  have hsum : ((rows.take j).map List.length).sum = (rows.take j).length * m := by
    rw [List.map_congr_left fun row hrow => hrows row (List.mem_of_mem_take hrow),
      List.map_const', List.sum_replicate_nat]
  rw [offsetAt, List.length_flatten, hsum, List.length_take]

/-- After `c` rows the offset reaches the limit for the first time, or the rows end. -/
structure Cut (limit : ℤ) (start : ℕ) (rows : List Bytes) (c : ℕ) : Prop where
  le : c ≤ rows.length
  below : ∀ j < c, (offsetAt start rows j : ℤ) < limit
  reached : c < rows.length → limit ≤ offsetAt start rows c

theorem Cut.unique {c' : ℕ} (h : Cut limit start rows c) (h' : Cut limit start rows c') : c = c' := by
  rcases lt_trichotomy c c' with hlt | heq | hgt
  · exact absurd (h'.below c hlt) (not_lt.mpr (h.reached (hlt.trans_le h'.le)))
  · exact heq
  · exact absurd (h.below c' hgt) (not_lt.mpr (h'.reached (hgt.trans_le h.le)))

/-- The loop prints the rows up to the cut. -/
theorem exists_cut (limit : ℤ) (start : ℕ) (rows : List Bytes) :
    ∃ c, Cut limit start rows c ∧ rowsBelow limit start rows = rows.take c := by
  induction rows generalizing start with
  | nil =>
      exact ⟨0, ⟨le_rfl, fun j hj => absurd hj j.not_lt_zero, fun h => absurd h (lt_irrefl 0)⟩, rfl⟩
  | cons row rest ih =>
      rw [rowsBelow]
      by_cases hstart : (start : ℤ) < limit
      · obtain ⟨c, hcut, hrows⟩ := ih (start + row.length)
        refine ⟨c + 1, ⟨Nat.succ_le_succ hcut.le, fun j hj => ?_, fun hc => ?_⟩, ?_⟩
        · cases j with
          | zero => exact hstart
          | succ j =>
              rw [offsetAt_cons]
              exact hcut.below j (Nat.lt_of_succ_lt_succ hj)
        · rw [offsetAt_cons]
          exact hcut.reached (Nat.lt_of_succ_lt_succ hc)
        · rw [if_pos hstart, hrows, List.take_succ_cons]
      · refine ⟨0, ⟨Nat.zero_le _, fun j hj => absurd hj j.not_lt_zero, fun _ => ?_⟩, ?_⟩
        · exact not_lt.mp hstart
        · rw [if_neg hstart, List.take_zero]

theorem Cut.rowsBelow_eq (h : Cut limit start rows c) : rowsBelow limit start rows = rows.take c := by
  obtain ⟨c', hcut, hrows⟩ := exists_cut limit start rows
  rw [hrows, h.unique hcut]

/-- If the offset stays below the limit all rows are printed. -/
theorem cut_length (h : ((start + rows.flatten.length : ℕ) : ℤ) < limit) :
    Cut limit start rows rows.length := by
  refine ⟨le_rfl, fun j _ => ?_, fun hlt => absurd hlt (lt_irrefl _)⟩
  exact lt_of_le_of_lt (by exact_mod_cast offsetAt_le j) h

/-! ## Reports -/

/-- The parts of a report, and the limit of its loop. -/
structure Report where
  heading : Bytes
  limit : ℤ
  noRows : Bytes
  footing : ℕ → Bytes

namespace Report

variable (report : Report)

/-- What is passed to `snprintf`, call by call, when these rows are printed. -/
def layout (rows : List Bytes) : List Bytes :=
  (report.heading :: rows ++ if rows = [] then [report.noRows] else []) ++
    [report.footing rows.length]

/-- The rows of `rows` that are printed. -/
def printed (rows : List Bytes) : List Bytes :=
  rowsBelow report.limit report.heading.length rows

/-- The text in the buffer. -/
def output (size : ℕ) (rows : List Bytes) : Bytes :=
  (Output.empty.printAll size (report.layout rows)).written

variable {report}

theorem layout_flatten (rows : List Bytes) : (report.layout rows).flatten =
    report.heading ++ rows.flatten ++ (if rows.length = 0 then report.noRows else []) ++
      report.footing rows.length := by
  unfold layout
  cases rows <;> simp

theorem output_eq (size : ℕ) (rows : List Bytes) :
    report.output size rows = (report.layout rows).flatten.take (size - 1) := by
  rw [output, Output.printAll_written]
  rfl

/-- The text of a loop that begins with the heading and counts its rows. -/
theorem output_of_loop (size : ℕ) (rows : List Bytes) :
    report.output size rows =
      ((if rows.length = 0 then
          ((Output.empty.print size report.heading).printAll size rows).print size report.noRows
        else (Output.empty.print size report.heading).printAll size rows).print size
          (report.footing rows.length)).written := by
  unfold output layout
  rw [Output.printAll_append]
  cases rows with
  | nil => rfl
  | cons row rest =>
      have hlength : (row :: rest).length ≠ 0 := Nat.succ_ne_zero rest.length
      rw [if_neg (List.cons_ne_nil _ _), List.append_nil, if_neg hlength]
      rfl

theorem printed_eq (h : Cut report.limit report.heading.length rows c) :
    report.printed rows = rows.take c := h.rowsBelow_eq

/-- If heading and rows end before the limit, all rows are printed. -/
theorem printed_of_lt
    (h : ((report.heading.length + rows.flatten.length : ℕ) : ℤ) < report.limit) :
    report.printed rows = rows := by
  rw [printed_eq (cut_length h), List.take_length]

/-- The offset before the footing is the greatest. -/
theorem within_layout_iff (hnone : report.heading.length + report.noRows.length ≤ size) :
    Within size (report.layout rows) ↔ report.heading.length + rows.flatten.length ≤ size := by
  rw [layout, within_concat_iff]
  split
  · next hempty =>
    subst hempty
    refine iff_of_true (by simpa using hnone) ?_
    exact (Nat.le_add_right _ _).trans hnone
  · simp

/-- All rows fit, or after some of them the offset is between the limit and the end of
the buffer. -/
def StopsInTime (report : Report) (size : ℕ) (rows : List Bytes) : Prop :=
  report.heading.length + rows.flatten.length ≤ size ∨
    ∃ j, report.limit ≤ offsetAt report.heading.length rows j ∧
      offsetAt report.heading.length rows j ≤ size

theorem within_iff (hnone : report.heading.length + report.noRows.length ≤ size) :
    Within size (report.layout (report.printed rows)) ↔ report.StopsInTime size rows := by
  obtain ⟨c, hcut, -⟩ := exists_cut report.limit report.heading.length rows
  rw [within_layout_iff hnone, printed_eq hcut]
  change offsetAt report.heading.length rows c ≤ size ↔ _
  constructor
  · intro hfits
    rcases hcut.le.lt_or_eq with hlt | heq
    · exact Or.inr ⟨c, hcut.reached hlt, hfits⟩
    · left
      rwa [heq, offsetAt_length] at hfits
  · rintro (hall | ⟨j, hlow, hhigh⟩)
    · exact (offsetAt_le c).trans hall
    · -- the cut is not after `j`
      have hcj : c ≤ j := by
        by_contra hlt
        exact absurd (hcut.below j (not_le.mp hlt)) (not_lt.mpr hlow)
      exact (offsetAt_mono hcj).trans hhigh

end Report

end CText
