import CloudSync.Lib.CText
import Mathlib.Data.List.DropRight

/-!
# Line input and formatted output

`fgets` reads a line, or as much of it as fits its buffer, and `fgetsAll` is the
sequence of buffers a loop around `fgets` sees.  A file that ends with a newline
can be read in two parts (`fgetsAll_append`), and a short line comes back whole
(`fgetsAll_line`).  What is appended to a file that does not end with a newline
goes on with its last line (`fgetsAll_append_lastLine`).

`Output` is a buffer written piece by piece with `snprintf(out + offset, size -
offset, ..)`, where `offset` advances by the length `snprintf` would have
written without the size limit.
-/

namespace CText

/-! ## Line input -/

/-- One `fgets`, `room` being the buffer size less one: what is read, and what
is left. -/
def fgets : ℕ → Bytes → Bytes × Bytes
  | 0, s => ([], s)
  | _ + 1, [] => ([], [])
  | room + 1, b :: rest =>
      if b = 10 then ([b], rest)
      else ((b :: (fgets room rest).1), (fgets room rest).2)

/-- The buffers read by `while (fgets(..))`, with a bound on their number. -/
def fgetsLoop (room : ℕ) : ℕ → Bytes → List Bytes
  | 0, _ => []
  | _ + 1, [] => []
  | bound + 1, b :: rest =>
      (fgets room (b :: rest)).1 :: fgetsLoop room bound (fgets room (b :: rest)).2

/-- The buffers a loop around `fgets` with a buffer of `size` bytes reads from a
file.  A buffer takes at least one byte, so the file's length bounds their
number. -/
def fgetsAll (size : ℕ) (file : Bytes) : List Bytes := fgetsLoop (size - 1) file.length file

theorem fgets_append (room : ℕ) (s : Bytes) : (fgets room s).1 ++ (fgets room s).2 = s := by
  induction room generalizing s with
  | zero => rfl
  | succ room ih =>
      cases s with
      | nil => rfl
      | cons b rest =>
          simp only [fgets]
          split
          · rfl
          · rw [List.cons_append, ih]

theorem fgets_length_lt {room : ℕ} (hroom : 0 < room) (b : UInt8) (rest : Bytes) :
    (fgets room (b :: rest)).2.length ≤ rest.length := by
  obtain ⟨room, rfl⟩ : ∃ n, room = n + 1 := ⟨room - 1, by omega⟩
  simp only [fgets]
  split
  · exact le_rfl
  · have h := congrArg List.length (fgets_append room rest)
    rw [List.length_append] at h
    show (fgets room rest).2.length ≤ rest.length
    omega

/-- More turns than bytes read nothing more. -/
theorem fgetsLoop_eq {room : ℕ} (hroom : 0 < room) {bound bound' : ℕ} {s : Bytes}
    (hbound : s.length ≤ bound) (hbound' : s.length ≤ bound') :
    fgetsLoop room bound s = fgetsLoop room bound' s := by
  induction bound generalizing bound' s with
  | zero =>
      rw [List.length_eq_zero_iff.mp (Nat.le_zero.mp hbound)]
      cases bound' <;> rfl
  | succ bound ih =>
      cases s with
      | nil => cases bound' <;> rfl
      | cons b rest =>
          rw [List.length_cons] at hbound hbound'
          obtain ⟨more, rfl⟩ : ∃ n, bound' = n + 1 := ⟨bound' - 1, by omega⟩
          have hlt := fgets_length_lt hroom b rest
          simp only [fgetsLoop]
          have hrest : (fgets room (b :: rest)).2.length ≤ more := by omega
          rw [ih (by omega) hrest]

theorem fgetsAll_cons {size : ℕ} (hsize : 1 < size) (b : UInt8) (rest : Bytes) :
    fgetsAll size (b :: rest) =
      (fgets (size - 1) (b :: rest)).1 :: fgetsAll size (fgets (size - 1) (b :: rest)).2 := by
  unfold fgetsAll
  rw [List.length_cons, fgetsLoop]
  rw [fgetsLoop_eq (by omega) (fgets_length_lt (by omega) b rest) le_rfl]

/-- A text file whose last line is complete. -/
def Terminated (file : Bytes) : Prop := file = [] ∨ ∃ body, file = body ++ [10]

/-- Reading stops within a complete line, whatever comes after it. -/
theorem fgets_terminated (room : ℕ) {s : Bytes} (hs : (10 : UInt8) ∈ s) (t : Bytes) :
    fgets room (s ++ t) = ((fgets room s).1, (fgets room s).2 ++ t) := by
  induction room generalizing s with
  | zero => rfl
  | succ room ih =>
      cases s with
      | nil => simp at hs
      | cons b rest =>
          simp only [List.cons_append, fgets]
          split
          · rfl
          · next hb =>
            have hrest : (10 : UInt8) ∈ rest := (List.mem_cons.mp hs).resolve_left (Ne.symm hb)
            rw [ih hrest]

theorem Terminated.fgets {s : Bytes} (hs : Terminated s) (room : ℕ) :
    Terminated (fgets room s).2 := by
  rcases hs with rfl | ⟨body, rfl⟩
  · cases room <;> exact Or.inl rfl
  · have h := fgets_append room (body ++ [10])
    rcases List.eq_nil_or_concat (CText.fgets room (body ++ [10])).2 with hnil | ⟨init, last, hlast⟩
    · exact Or.inl hnil
    · rw [hlast, List.concat_eq_append, ← List.append_assoc] at h
      have hlast10 : last = 10 := by
        have := congrArg List.getLast? h
        simpa using this
      right
      exact ⟨init, by rw [hlast, hlast10, List.concat_eq_append]⟩

/-- A file that follows complete lines is read after them. -/
theorem fgetsAll_append {size : ℕ} (hsize : 1 < size) {s : Bytes} (hs : Terminated s)
    (t : Bytes) : fgetsAll size (s ++ t) = fgetsAll size s ++ fgetsAll size t := by
  induction hn : s.length using Nat.strongRecOn generalizing s with
  | ind n ih =>
      cases s with
      | nil => rfl
      | cons b rest =>
          have hnewline : (10 : UInt8) ∈ b :: rest := by
            rcases hs with h | ⟨body, h⟩
            · simp at h
            · rw [h]; simp
          have hroom : 0 < size - 1 := by omega
          have hshort := fgets_length_lt hroom b rest
          rw [fgetsAll_cons hsize, List.cons_append, fgetsAll_cons hsize, ← List.cons_append,
            fgets_terminated _ hnewline, List.cons_append]
          rw [ih _ (by rw [← hn, List.length_cons]; omega) (hs.fgets _) rfl]

theorem fgets_line {room : ℕ} {line : Bytes} (hline : (10 : UInt8) ∉ line)
    (hroom : line.length < room) (rest : Bytes) :
    fgets room (line ++ 10 :: rest) = (line ++ [10], rest) := by
  induction line generalizing room with
  | nil =>
      obtain ⟨room, rfl⟩ : ∃ n, room = n + 1 := ⟨room - 1, by simp at hroom; omega⟩
      simp [fgets]
  | cons b line ih =>
      obtain ⟨hb, hline⟩ := not_or.mp (mt List.mem_cons.mpr hline)
      rw [List.length_cons] at hroom
      obtain ⟨room, rfl⟩ : ∃ n, room = n + 1 := ⟨room - 1, by omega⟩
      simp only [List.cons_append, fgets, if_neg (Ne.symm hb)]
      rw [ih hline (by omega)]

/-- A line that fits the buffer is read whole. -/
theorem fgetsAll_line {size : ℕ} {line : Bytes} (hline : (10 : UInt8) ∉ line)
    (hsize : line.length + 1 < size) (rest : Bytes) :
    fgetsAll size (line ++ 10 :: rest) = (line ++ [10]) :: fgetsAll size rest := by
  have hroom : line.length < size - 1 := by omega
  have hread := fgets_line hline hroom rest
  cases hcons : line ++ 10 :: rest with
  | nil => simp at hcons
  | cons b more => rw [fgetsAll_cons (by omega), ← hcons, hread]

theorem fgets_of_not_mem {room : ℕ} {s : Bytes} (hs : (10 : UInt8) ∉ s) (hroom : s.length ≤ room) :
    fgets room s = (s, []) := by
  induction room generalizing s with
  | zero =>
      rw [List.length_eq_zero_iff.mp (Nat.le_zero.mp hroom)]
      rfl
  | succ room ih =>
      cases s with
      | nil => rfl
      | cons b rest =>
          obtain ⟨hb, hrest⟩ := not_or.mp (mt List.mem_cons.mpr hs)
          rw [fgets, if_neg (Ne.symm hb), ih hrest (Nat.le_of_succ_le_succ hroom)]

/-- A buffer that is filled before the line ends. -/
theorem fgets_full {room : ℕ} {piece : Bytes} (hpiece : (10 : UInt8) ∉ piece)
    (hroom : piece.length = room) (rest : Bytes) : fgets room (piece ++ rest) = (piece, rest) := by
  induction piece generalizing room with
  | nil =>
      subst hroom
      rfl
  | cons b more ih =>
      obtain ⟨hb, hmore⟩ := not_or.mp (mt List.mem_cons.mpr hpiece)
      subst hroom
      rw [List.length_cons, List.cons_append, fgets, if_neg (Ne.symm hb), ih hmore rfl]

theorem fgetsAll_full {size : ℕ} {piece : Bytes} (hpiece : (10 : UInt8) ∉ piece)
    (hsize : piece.length + 1 = size) (hne : piece ≠ []) (rest : Bytes) :
    fgetsAll size (piece ++ rest) = piece :: fgetsAll size rest := by
  have hread := fgets_full hpiece (show piece.length = size - 1 by omega) rest
  have hlong := List.length_pos_of_ne_nil hne
  cases hcons : piece ++ rest with
  | nil => exact absurd (List.append_eq_nil_iff.mp hcons).1 hne
  | cons b more => rw [fgetsAll_cons (by omega), ← hcons, hread]

/-- A last line without a newline that fits the buffer is read whole. -/
theorem fgetsAll_of_not_mem {size : ℕ} {line : Bytes} (hline : (10 : UInt8) ∉ line)
    (hsize : line.length < size) :
    fgetsAll size line = if line = [] then [] else [line] := by
  cases line with
  | nil => rfl
  | cons b rest =>
      have hlong : 1 < size := lt_of_le_of_lt (Nat.le_add_left 1 rest.length) hsize
      rw [fgetsAll_cons hlong, fgets_of_not_mem hline (Nat.le_sub_one_of_lt hsize),
        if_neg (List.cons_ne_nil _ _)]
      rfl

/-- The complete lines at the front of a file. -/
def completeLines (file : Bytes) : Bytes := file.rdropWhile (· != 10)

/-- What follows the last newline. -/
def lastLine (file : Bytes) : Bytes := file.rtakeWhile (· != 10)

theorem completeLines_append_lastLine (file : Bytes) :
    completeLines file ++ lastLine file = file :=
  List.rdropWhile_append_rtakeWhile

theorem terminated_completeLines (file : Bytes) : Terminated (completeLines file) := by
  by_cases hempty : completeLines file = []
  · exact Or.inl hempty
  · have hlast := List.rdropWhile_last_not (· != 10) file hempty
    rw [bne_iff_ne, not_not] at hlast
    refine Or.inr ⟨(completeLines file).dropLast, ?_⟩
    rw [← hlast]
    exact (List.dropLast_append_getLast hempty).symm

theorem Terminated.lastLine_eq {file : Bytes} (hfile : Terminated file) : lastLine file = [] := by
  rcases hfile with rfl | ⟨body, rfl⟩
  · rfl
  · exact List.rtakeWhile_concat_neg _ _ _ (by decide)

/-- A file that ends in a newline has nothing after its last newline. -/
theorem terminated_iff {file : Bytes} : Terminated file ↔ lastLine file = [] := by
  constructor
  · exact Terminated.lastLine_eq
  · intro hlast
    have hfile := completeLines_append_lastLine file
    rw [hlast, List.append_nil] at hfile
    rw [← hfile]
    exact terminated_completeLines file

instance (file : Bytes) : Decidable (Terminated file) := decidable_of_iff' _ terminated_iff

/-- What is appended to a file changes only how its last line is read. -/
theorem fgetsAll_append_lastLine {size : ℕ} (hsize : 1 < size) (file more : Bytes) :
    fgetsAll size (file ++ more) =
      fgetsAll size (completeLines file) ++ fgetsAll size (lastLine file ++ more) := by
  rw [← fgetsAll_append hsize (terminated_completeLines file), ← List.append_assoc,
    completeLines_append_lastLine]

/-- What `fgets` holds when the file ends: neither a complete line nor a full buffer. -/
def openBuffer (size : ℕ) (file : Bytes) : Bytes :=
  (lastLine file).drop ((lastLine file).length / (size - 1) * (size - 1))

/-- The file up to its open buffer. -/
def closedBuffers (size : ℕ) (file : Bytes) : Bytes :=
  completeLines file ++ (lastLine file).take ((lastLine file).length / (size - 1) * (size - 1))

theorem closedBuffers_append_openBuffer (size : ℕ) (file : Bytes) :
    closedBuffers size file ++ openBuffer size file = file := by
  rw [closedBuffers, openBuffer, List.append_assoc, List.take_append_drop,
    completeLines_append_lastLine]

theorem lastLine_no_lf (file : Bytes) : (10 : UInt8) ∉ lastLine file := by
  intro h
  exact absurd (List.mem_rtakeWhile_imp h) (by decide)

theorem openBuffer_no_lf (size : ℕ) (file : Bytes) : (10 : UInt8) ∉ openBuffer size file :=
  fun h => lastLine_no_lf file (List.mem_of_mem_drop h)

theorem openBuffer_length {size : ℕ} (hsize : 1 < size) (file : Bytes) :
    (openBuffer size file).length < size - 1 := by
  have hdivide := Nat.div_add_mod (lastLine file).length (size - 1)
  have hmod := Nat.mod_lt (lastLine file).length (show 0 < size - 1 by omega)
  rw [openBuffer, List.length_drop, Nat.mul_comm]
  omega

theorem Terminated.openBuffer_eq {file : Bytes} (hfile : Terminated file) (size : ℕ) :
    openBuffer size file = [] := by
  rw [openBuffer, hfile.lastLine_eq, List.drop_nil]

theorem Terminated.closedBuffers_eq {file : Bytes} (hfile : Terminated file) (size : ℕ) :
    closedBuffers size file = file := by
  have hwhole := closedBuffers_append_openBuffer size file
  rwa [hfile.openBuffer_eq, List.append_nil] at hwhole

/-- Full buffers without a newline are read one after the other. -/
theorem fgetsAll_append_full {size count : ℕ} (hsize : 1 < size) {s : Bytes}
    (hs : (10 : UInt8) ∉ s) (hlength : s.length = count * (size - 1)) (more : Bytes) :
    fgetsAll size (s ++ more) = fgetsAll size s ++ fgetsAll size more := by
  induction count generalizing s with
  | zero =>
      rw [Nat.zero_mul, List.length_eq_zero_iff] at hlength
      subst hlength
      rfl
  | succ count ih =>
      rw [Nat.succ_mul] at hlength
      have hpiece : (10 : UInt8) ∉ s.take (size - 1) := fun h => hs (List.mem_of_mem_take h)
      have hfull : (s.take (size - 1)).length + 1 = size := by
        rw [List.length_take]
        omega
      have hne : s.take (size - 1) ≠ [] := by
        rw [← List.length_pos_iff]
        omega
      rw [← List.take_append_drop (size - 1) s, List.append_assoc, fgetsAll_full hpiece hfull hne,
        fgetsAll_full hpiece hfull hne, List.cons_append]
      rw [ih (fun h => hs (List.mem_of_mem_drop h)) (by rw [List.length_drop]; omega)]

/-- What is appended to a file changes only how its open buffer goes on. -/
theorem fgetsAll_append_open {size : ℕ} (hsize : 1 < size) (file more : Bytes) :
    fgetsAll size (file ++ more) =
      fgetsAll size (closedBuffers size file) ++ fgetsAll size (openBuffer size file ++ more) := by
  have hfull : (10 : UInt8) ∉
      (lastLine file).take ((lastLine file).length / (size - 1) * (size - 1)) :=
    fun h => lastLine_no_lf file (List.mem_of_mem_take h)
  have hcount : ((lastLine file).take ((lastLine file).length / (size - 1) * (size - 1))).length =
      (lastLine file).length / (size - 1) * (size - 1) := by
    rw [List.length_take]
    exact min_eq_left (Nat.div_mul_le_self _ _)
  calc fgetsAll size (file ++ more)
      = fgetsAll size (completeLines file) ++
          fgetsAll size (((lastLine file).take _ ++ openBuffer size file) ++ more) := by
        rw [fgetsAll_append_lastLine hsize, openBuffer, List.take_append_drop]
    _ = fgetsAll size (closedBuffers size file) ++
          fgetsAll size (openBuffer size file ++ more) := by
        rw [List.append_assoc, fgetsAll_append_full hsize hfull hcount, closedBuffers,
          fgetsAll_append hsize (terminated_completeLines file), List.append_assoc]

/-! ## Formatted output -/

/-- `%-<width>s` -/
def padRight (width : ℕ) (s : Bytes) : Bytes := s ++ List.replicate (width - s.length) 32

/-- `%<width>d`, applied to the printed number -/
def padLeft (width : ℕ) (s : Bytes) : Bytes := List.replicate (width - s.length) 32 ++ s

theorem padRight_length (width : ℕ) (s : Bytes) :
    (padRight width s).length = max width s.length := by
  rw [padRight, List.length_append, List.length_replicate]
  omega

theorem mem_padRight {width : ℕ} {s : Bytes} {b : UInt8} (hb : b ≠ 32) :
    b ∈ padRight width s ↔ b ∈ s := by
  rw [padRight, List.mem_append, List.mem_replicate]
  exact or_iff_left fun h => hb h.2

theorem padLeft_length (width : ℕ) (s : Bytes) : (padLeft width s).length = max width s.length := by
  rw [padLeft, List.length_append, List.length_replicate]
  omega

/-- A column of `width` bytes without the blanks that fill it up.  A longer one has not
been filled up. -/
def unpad (width : ℕ) (column : Bytes) : Bytes :=
  if column.length ≤ width then column.rdropWhile (· == 32) else column

theorem rdropWhile_padRight (width : ℕ) (s : Bytes) :
    (padRight width s).rdropWhile (· == 32) = s.rdropWhile (· == 32) := by
  unfold padRight
  induction width - s.length with
  | zero => rw [List.replicate_zero, List.append_nil]
  | succ n ih => rw [List.replicate_succ', ← List.append_assoc, List.rdropWhile_concat_pos _ _ _ rfl,
      ih]

theorem rdropWhile_eq_self_iff_getLast? {s : Bytes} :
    s.rdropWhile (· == 32) = s ↔ s.getLast? ≠ some 32 := by
  rw [List.rdropWhile_eq_self_iff]
  cases s using List.reverseRecOn with
  | nil => simp
  | append_singleton s b => simp

/-- What a column is read as is what was printed, if that does not end with a blank or
is too long for the column. -/
theorem unpad_padRight_iff {width : ℕ} {s : Bytes} :
    unpad width (padRight width s) = s ↔ (s.length ≤ width → s.getLast? ≠ some 32) := by
  unfold unpad
  rw [padRight_length]
  by_cases hs : s.length ≤ width
  · rw [if_pos (max_le le_rfl hs), rdropWhile_padRight, rdropWhile_eq_self_iff_getLast?]
    exact ⟨fun h _ => h, fun h => h hs⟩
  · rw [if_neg fun h => hs ((le_max_right _ _).trans h), padRight,
      Nat.sub_eq_zero_of_le (Nat.le_of_not_le hs), List.replicate_zero, List.append_nil]
    exact ⟨fun _ h => absurd h hs, fun _ => rfl⟩

/-- A buffer filled by successive `snprintf(out + offset, size - offset, ..)`:
the string in it, and the running offset. -/
structure Output where
  written : Bytes
  offset : ℕ

namespace Output

def empty : Output := ⟨[], 0⟩

/-- One `snprintf`; it is defined in C as long as `offset ≤ size`. -/
def print (size : ℕ) (out : Output) (s : Bytes) : Output :=
  ⟨out.written ++ s.take (size - out.offset - 1), out.offset + s.length⟩

end Output

end CText
