import CloudSync.FileManager
import CloudSync.Lib.OpenFiles

/-!
# The descriptors of the file functions

Every file function reads and writes only files it has open, unlinks none of these, and has
closed them when it returns, whatever its system calls answer.  So it does the same whether
descriptors are taken for paths or for the files they were opened on, as long as no other
process is at work.
-/

namespace CloudSync

open CText Calls Calls.Prog Files ExchangeSort

/-- The program begins and ends with nothing open, and keeps what it opens. -/
abbrev KeepsFiles {α : Type} (prog : Prog Sys α) : Prop :=
  Obeys openPaths KeepsOpen (· = []) [] prog

section KeepsFiles

variable {f : Bytes}

theorem keepsFiles_bind {α β : Type} {prog : Prog Sys α} {next : α → Prog Sys β}
    (hprog : KeepsFiles prog) (hnext : ∀ value, KeepsFiles (next value)) :
    KeepsFiles (prog >>= next) := by
  refine hprog.bind ?_
  rintro g value rfl
  exact hnext value

/-- The file that is open alone is closed. -/
theorem closed_self {α : Type} {path : Bytes} {value : α} :
    Obeys openPaths KeepsOpen (· = []) [resolve path]
      (.call (.close path) fun _ => .ret value) :=
  ⟨trivial, fun _ => List.erase_cons_head (resolve path) []⟩

theorem saveFile_keepsFiles (data : Bytes) : KeepsFiles (saveFile f data) := by
  simp only [saveFile, perform_bind, pure_eq_ret]
  refine ⟨trivial, fun opened => ?_⟩
  cases opened with
  | false => rfl
  | true =>
      refine ⟨trivial, fun locked => ?_⟩
      cases locked with
      | false => exact closed_self
      | true =>
          refine ⟨List.mem_cons_self, fun written => ?_⟩
          dsimp only
          split <;> exact ⟨trivial, fun _ => closed_self⟩

theorem readFile_keepsFiles : KeepsFiles (readFile f) := by
  simp only [readFile, perform_bind, pure_eq_ret]
  refine ⟨trivial, fun opened => ?_⟩
  cases opened with
  | false => rfl
  | true =>
      refine ⟨trivial, fun locked => ?_⟩
      cases locked with
      | false => exact closed_self
      | true =>
          refine ⟨List.mem_cons_self, fun bytes => ?_⟩
          dsimp only
          split <;> exact ⟨trivial, fun _ => closed_self⟩

/-- Both files of a copy are closed, also if they are one. -/
theorem closed_both {src dst : Bytes} {value : ℤ} :
    Obeys openPaths KeepsOpen (· = []) [resolve dst, resolve src]
      (.call (.close src) fun _ => .call (.close dst) fun _ => .ret value) := by
  refine ⟨trivial, fun _ => ?_⟩
  have herase : [resolve dst, resolve src].erase (resolve src) = [resolve dst] := by
    rw [List.erase_cons]
    split
    · next hsame => rw [← beq_iff_eq.mp hsame]
    · rw [List.erase_cons_head]
  change Obeys openPaths KeepsOpen (· = []) ([resolve dst, resolve src].erase (resolve src)) _
  rw [herase]
  exact closed_self

theorem copyLoop_keepsOpen (src dst : Bytes) (turns offset : ℕ) :
    Obeys openPaths KeepsOpen (· = []) [resolve dst, resolve src]
      (copyLoop src dst turns offset) := by
  induction turns generalizing offset with
  | zero =>
      simp only [copyLoop, perform_bind, pure_eq_ret]
      exact closed_both
  | succ turns ih =>
      simp only [copyLoop, perform_bind, pure_eq_ret]
      refine ⟨List.mem_cons_of_mem _ List.mem_cons_self, fun bytes => ?_⟩
      dsimp only
      split
      · exact closed_both
      · exact closed_both
      · refine ⟨List.mem_cons_self, fun written => ?_⟩
        dsimp only
        split
        · exact closed_both
        · exact ih _

theorem copyFile_keepsFiles (src dst : Bytes) (size : ℕ) : KeepsFiles (copyFile src dst size) := by
  simp only [copyFile, perform_bind, pure_eq_ret]
  refine ⟨trivial, fun opened => ?_⟩
  cases opened with
  | false => rfl
  | true =>
      refine ⟨trivial, fun opened => ?_⟩
      cases opened with
      | false => exact closed_self
      | true => exact copyLoop_keepsOpen src dst _ _

theorem removeVersions_keepsFiles (versions : List ℤ) : KeepsFiles (removeVersions f versions) := by
  induction versions with
  | nil => rfl
  | cons k rest ih => exact ⟨List.not_mem_nil, fun _ => ih⟩

theorem cleanupOldVersions_keepsFiles (maxKeep : ℕ) :
    KeepsFiles (cleanupOldVersions f maxKeep) := by
  simp only [cleanupOldVersions, perform_bind, pure_eq_ret]
  refine ⟨trivial, fun entries => ?_⟩
  cases entries with
  | none => rfl
  | some entries =>
      dsimp only
      split
      · rfl
      · exact keepsFiles_bind (removeVersions_keepsFiles _) fun _ => rfl

theorem ensureVersionDir_keepsFiles : KeepsFiles (ensureVersionDir f) := by
  simp only [ensureVersionDir, perform_bind, pure_eq_ret]
  refine ⟨trivial, fun size => ?_⟩
  dsimp only
  split
  · refine ⟨trivial, fun made => ?_⟩
    dsimp only
    split <;> rfl
  · rfl

theorem saveVersion_keepsFiles (k : ℤ) : KeepsFiles (saveVersion f k) := by
  simp only [saveVersion, perform_bind, pure_eq_ret]
  refine keepsFiles_bind ensureVersionDir_keepsFiles fun made => ?_
  split
  · rfl
  · refine ⟨trivial, fun size => ?_⟩
    cases size with
    | none => rfl
    | some size =>
        refine keepsFiles_bind (copyFile_keepsFiles _ _ _) fun copied => ?_
        split
        · rfl
        · exact keepsFiles_bind (cleanupOldVersions_keepsFiles _) fun _ => rfl

theorem restoreVersion_keepsFiles (k : ℤ) : KeepsFiles (restoreVersion f k) := by
  simp only [restoreVersion, perform_bind, pure_eq_ret]
  refine ⟨trivial, fun size => ?_⟩
  cases size with
  | none => rfl
  | some size =>
      refine keepsFiles_bind (copyFile_keepsFiles _ _ _) fun copied => ?_
      split <;> rfl

theorem removeEntries_keepsFiles (dir : Bytes) (entries : List Bytes) :
    KeepsFiles (removeEntries dir entries) := by
  induction entries with
  | nil => rfl
  | cons name rest ih =>
      simp only [removeEntries, perform_bind]
      split
      · exact ⟨List.not_mem_nil, fun _ => ih⟩
      · exact ih

theorem removeFileFromStorage_keepsFiles : KeepsFiles (removeFileFromStorage f) := by
  simp only [removeFileFromStorage, removeAllVersions, perform_bind, pure_eq_ret]
  refine ⟨List.not_mem_nil, fun removed => ?_⟩
  dsimp only
  split
  · rfl
  · refine keepsFiles_bind ⟨trivial, fun entries => ?_⟩ fun _ => rfl
    cases entries with
    | none => rfl
    | some entries =>
        exact keepsFiles_bind (removeEntries_keepsFiles _ entries) fun _ => ⟨trivial, fun _ => rfl⟩

theorem versionRows_keepsFiles (dir : Bytes) (maxSize : ℕ) (modified : Bytes → Bytes)
    (names : List Bytes) (acc : Output × ℕ) :
    KeepsFiles (versionRows dir maxSize modified names acc) := by
  induction names generalizing acc with
  | nil => rfl
  | cons name rest ih =>
      simp only [versionRows, perform_bind, pure_eq_ret]
      split
      · refine ⟨trivial, fun size => ?_⟩
        cases size with
        | none => exact ih _
        | some size => exact ih _
      · rfl

theorem listVersions_keepsFiles (maxSize : ℕ) (modified : Bytes → Bytes) :
    KeepsFiles (listVersions f maxSize modified) := by
  simp only [listVersions, perform_bind, pure_eq_ret]
  refine ⟨trivial, fun entries => ?_⟩
  cases entries with
  | none => rfl
  | some entries => exact keepsFiles_bind (versionRows_keepsFiles _ _ _ _ _) fun _ => rfl

theorem deleteVersion_keepsFiles (k : ℤ) : KeepsFiles (deleteVersion f k) := by
  simp only [deleteVersion, perform_bind, pure_eq_ret]
  refine ⟨trivial, fun size => ?_⟩
  dsimp only
  split
  · rfl
  · refine ⟨List.not_mem_nil, fun removed => ?_⟩
    dsimp only
    split <;> rfl

end KeepsFiles

end CloudSync
