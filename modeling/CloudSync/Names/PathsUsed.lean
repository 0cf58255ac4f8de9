import CloudSync.State.Checks

/-!
# The paths a task uses

The file functions of a task make their system calls on paths printed for its
filename: reads as well as writes are at its `FilePlace`, that is its
`ContentPlace` or its `VersionsPlace`, and there is a task that uses any of these
(`touches_iff`).
-/

namespace CloudSync

open CText Calls Calls.Prog Files ExchangeSort

variable {f : Bytes} {p : Path}

/-! ## Uses -/

/-- The paths the file function run by a call may use. -/
def WorkerCall.Uses (p : Path) : {β : Type} → WorkerCall β → Prop
  | _, .saveVersion f k => MayUse p (CloudSync.saveVersion f k)
  | _, .saveFile f data => MayUse p (CloudSync.saveFile f data)
  | _, .readFile f => MayUse p (CloudSync.readFile f)
  | _, .restoreVersion f k => MayUse p (CloudSync.restoreVersion f k)
  | _, .removeFileFromStorage f => MayUse p (CloudSync.removeFileFromStorage f)
  | _, .listVersions f => ∃ modified, MayUse p (CloudSync.listVersions f maxFileSize modified)
  | _, .deleteVersion f k => MayUse p (CloudSync.deleteVersion f k)
  | _, _ => False

/-- `process_task`, given a task on `f`, may use the path `p`. -/
def Touches (f : Bytes) (p : Path) : Prop :=
  ∃ task : TaskMessage, task.filename = f ∧ (processTask task).MayCall fun c => c.Uses p

/-- The places of a name. -/
def FilePlace (f : Bytes) (p : Path) : Prop := ContentPlace f p ∨ VersionsPlace f p

section UsesOnly

variable {P : Path → Prop} {α β : Type}

theorem usesOnly_call {c : Sys β} {next : β → Prog Sys α} (hc : P (resolve c.path))
    (hnext : ∀ answer, c.Possible answer → UsesOnly P (next answer)) :
    UsesOnly P (.call c next) := ⟨hc, hnext⟩

theorem copyLoop_usesOnly {src dst : Bytes} (hsrc : P (resolve src)) (hdst : P (resolve dst))
    (turns offset : ℕ) : UsesOnly P (copyLoop src dst turns offset) := by
  induction turns generalizing offset with
  | zero =>
      simp only [copyLoop, perform_bind, pure_eq_ret]
      exact usesOnly_call hsrc fun _ _ => usesOnly_call hdst fun _ _ => trivial
  | succ turns ih =>
      simp only [copyLoop, perform_bind, pure_eq_ret]
      apply usesOnly_call hsrc
      intro answer _
      split
      · exact usesOnly_call hsrc fun _ _ => usesOnly_call hdst fun _ _ => trivial
      · exact usesOnly_call hsrc fun _ _ => usesOnly_call hdst fun _ _ => trivial
      · apply usesOnly_call hdst
        intro written _
        split
        · exact usesOnly_call hsrc fun _ _ => usesOnly_call hdst fun _ _ => trivial
        · exact ih _

theorem copyFile_usesOnly {src dst : Bytes} (hsrc : P (resolve src)) (hdst : P (resolve dst))
    (size : ℕ) : UsesOnly P (copyFile src dst size) := by
  simp only [copyFile, perform_bind, pure_eq_ret]
  apply usesOnly_call hsrc
  intro opened _
  split
  · trivial
  · apply usesOnly_call hdst
    intro opened _
    split
    · exact usesOnly_call hsrc fun _ _ => trivial
    · exact copyLoop_usesOnly hsrc hdst _ _

theorem contentPath_place : FilePlace f (resolve (getFilepath f)) := Or.inl rfl

theorem versionDir_place : FilePlace f (resolve (versionDirPath f)) := Or.inr (Or.inl rfl)

theorem entry_place {name : Bytes} (hname : PlainName name) :
    FilePlace f (resolve (snprintf 512 (versionDirPath f ++ 47 :: name))) :=
  Or.inr (Or.inr (Or.inl ⟨name, hname, rfl⟩))

theorem versionPath_place (k : ℤ) : FilePlace f (resolve (versionPath 256 f k)) :=
  Or.inr (Or.inr (Or.inr ⟨k, Or.inl rfl⟩))

theorem versionPath_place₅₁₂ (k : ℤ) : FilePlace f (resolve (versionPath 512 f k)) :=
  Or.inr (Or.inr (Or.inr ⟨k, Or.inr rfl⟩))

theorem saveFile_usesOnly (data : Bytes) : UsesOnly (FilePlace f) (saveFile f data) := by
  simp only [saveFile, perform_bind, pure_eq_ret]
  apply usesOnly_call contentPath_place
  intro opened _
  split
  · trivial
  · apply usesOnly_call contentPath_place
    intro locked _
    split
    · exact usesOnly_call contentPath_place fun _ _ => trivial
    · apply usesOnly_call contentPath_place
      intro written _
      split <;> exact usesOnly_call contentPath_place fun _ _ =>
        usesOnly_call contentPath_place fun _ _ => trivial

theorem readFile_usesOnly : UsesOnly (FilePlace f) (readFile f) := by
  simp only [readFile, perform_bind, pure_eq_ret]
  apply usesOnly_call contentPath_place
  intro opened _
  split
  · trivial
  · apply usesOnly_call contentPath_place
    intro locked _
    split
    · exact usesOnly_call contentPath_place fun _ _ => trivial
    · apply usesOnly_call contentPath_place
      intro bytes _
      split <;> exact usesOnly_call contentPath_place fun _ _ =>
        usesOnly_call contentPath_place fun _ _ => trivial

theorem removeEntries_usesOnly (entries : List Bytes)
    (hentries : ∀ name ∈ entries, name = dot ∨ name = dotDot ∨ PlainName name) :
    UsesOnly (FilePlace f) (removeEntries (versionDirPath f) entries) := by
  induction entries with
  | nil => trivial
  | cons name rest ih =>
      have hrest := ih fun name hname => hentries name (List.mem_cons_of_mem _ hname)
      simp only [removeEntries, perform_bind]
      split
      · next hname =>
        have hplain := ((hentries name (List.mem_cons_self ..)).resolve_left hname.1).resolve_left
          hname.2
        exact usesOnly_call (entry_place hplain) fun _ _ => hrest
      · exact hrest

theorem removeFileFromStorage_usesOnly : UsesOnly (FilePlace f) (removeFileFromStorage f) := by
  simp only [removeFileFromStorage, removeAllVersions, perform_bind, pure_eq_ret]
  apply usesOnly_call contentPath_place
  intro removed _
  split
  · trivial
  · refine UsesOnly.bind ?_ fun _ => trivial
    apply usesOnly_call versionDir_place
    intro entries hentries
    cases entries with
    | none => trivial
    | some entries =>
        apply (removeEntries_usesOnly entries hentries).bind
        intro _
        exact usesOnly_call versionDir_place fun _ _ => trivial

theorem ensureVersionDir_usesOnly : UsesOnly (FilePlace f) (ensureVersionDir f) := by
  simp only [ensureVersionDir, perform_bind, pure_eq_ret]
  apply usesOnly_call versionDir_place
  intro size _
  split
  · apply usesOnly_call versionDir_place
    intro made _
    split <;> trivial
  · trivial

theorem removeVersions_usesOnly (versions : List ℤ) :
    UsesOnly (FilePlace f) (removeVersions f versions) := by
  induction versions with
  | nil => trivial
  | cons k rest ih => exact usesOnly_call (versionPath_place₅₁₂ k) fun _ _ => ih

theorem cleanupOldVersions_usesOnly (maxKeep : ℕ) :
    UsesOnly (FilePlace f) (cleanupOldVersions f maxKeep) := by
  simp only [cleanupOldVersions, perform_bind, pure_eq_ret]
  apply usesOnly_call versionDir_place
  intro entries _
  cases entries with
  | none => trivial
  | some entries =>
      dsimp only
      split
      · trivial
      · exact (removeVersions_usesOnly _).bind fun _ => trivial

theorem saveVersion_usesOnly (k : ℤ) : UsesOnly (FilePlace f) (saveVersion f k) := by
  simp only [saveVersion, perform_bind, pure_eq_ret]
  apply ensureVersionDir_usesOnly.bind
  intro made
  split
  · trivial
  · apply usesOnly_call contentPath_place
    intro size _
    cases size with
    | none => trivial
    | some size =>
        apply (copyFile_usesOnly contentPath_place (versionPath_place k) size).bind
        intro copied
        split
        · trivial
        · exact (cleanupOldVersions_usesOnly _).bind fun _ => trivial

theorem restoreVersion_usesOnly (k : ℤ) : UsesOnly (FilePlace f) (restoreVersion f k) := by
  simp only [restoreVersion, perform_bind, pure_eq_ret]
  apply usesOnly_call (versionPath_place k)
  intro size _
  cases size with
  | none => trivial
  | some size =>
      apply (copyFile_usesOnly (versionPath_place k) contentPath_place size).bind
      intro copied
      split <;> trivial

theorem versionRows_usesOnly (maxSize : ℕ) (modified : Bytes → Bytes) (names : List Bytes)
    (hnames : ∀ name ∈ names, PlainName name) (acc : Output × ℕ) :
    UsesOnly (FilePlace f) (versionRows (versionDirPath f) maxSize modified names acc) := by
  induction names generalizing acc with
  | nil => trivial
  | cons name rest ih =>
      have hrest := ih fun name hname => hnames name (List.mem_cons_of_mem _ hname)
      simp only [versionRows, perform_bind, pure_eq_ret]
      split
      · apply usesOnly_call (entry_place (hnames name (List.mem_cons_self ..)))
        intro size _
        cases size with
        | none => exact hrest _
        | some size => exact hrest _
      · trivial

/-- The entries of a directory that start with `v` have names of their own. -/
theorem plainName_of_versionEntries {entries : List Bytes}
    (hentries : ∀ name ∈ entries, name = dot ∨ name = dotDot ∨ PlainName name) :
    ∀ name ∈ versionEntries entries, PlainName name := by
  intro name hname
  obtain ⟨hmem, hhead⟩ := List.mem_filter.mp (List.mem_of_mem_take hname)
  rcases hentries name hmem with rfl | rfl | hplain
  · exact absurd hhead (by decide)
  · exact absurd hhead (by decide)
  · exact hplain

theorem listVersions_usesOnly (maxSize : ℕ) (modified : Bytes → Bytes) :
    UsesOnly (FilePlace f) (listVersions f maxSize modified) := by
  simp only [listVersions, perform_bind, pure_eq_ret]
  apply usesOnly_call versionDir_place
  intro entries hentries
  cases entries with
  | none => trivial
  | some entries =>
      refine (versionRows_usesOnly _ _ _ (fun name hname => ?_) _).bind fun _ => trivial
      exact plainName_of_versionEntries hentries name ((exchangeSort_perm _ _).mem_iff.mp hname)

theorem deleteVersion_usesOnly (k : ℤ) : UsesOnly (FilePlace f) (deleteVersion f k) := by
  simp only [deleteVersion, perform_bind, pure_eq_ret]
  apply usesOnly_call (versionPath_place₅₁₂ k)
  intro size _
  split
  · trivial
  · apply usesOnly_call (versionPath_place₅₁₂ k)
    intro removed _
    split <;> trivial

end UsesOnly

/-- A call on the file `f` uses only the places of `f`. -/
theorem WorkerCall.Uses.place {β : Type} {c : WorkerCall β} (hc : ∀ name ∈ c.filename, name = f)
    (huses : c.Uses p) : FilePlace f p := by
  cases c with
  | saveVersion name k => exact hc name rfl ▸ (saveVersion_usesOnly k).of_mayUse huses
  | saveFile name data => exact hc name rfl ▸ (saveFile_usesOnly data).of_mayUse huses
  | readFile name => exact hc name rfl ▸ readFile_usesOnly.of_mayUse huses
  | restoreVersion name k => exact hc name rfl ▸ (restoreVersion_usesOnly k).of_mayUse huses
  | removeFileFromStorage name => exact hc name rfl ▸ removeFileFromStorage_usesOnly.of_mayUse huses
  | listVersions name =>
      obtain ⟨modified, huses⟩ := huses
      exact hc name rfl ▸ (listVersions_usesOnly _ modified).of_mayUse huses
  | deleteVersion name k => exact hc name rfl ▸ (deleteVersion_usesOnly k).of_mayUse huses
  | _ => exact False.elim huses

/-- `remove_file_from_storage` may use all of them. -/
theorem removeFileFromStorage_mayUse (hf : f.length < maxFilename) (hp : FilePlace f p) :
    MayUse p (removeFileFromStorage f) := by
  simp only [removeFileFromStorage, removeAllVersions, perform_bind, pure_eq_ret]
  rcases hp with rfl | hp
  · exact Or.inl rfl
  · refine Or.inr ⟨true, trivial, ?_⟩
    apply MayUse.bind
    rcases (versionsPlace_iff hf).mp hp with rfl | ⟨name, hname, hlength, rfl⟩
    · exact Or.inl rfl
    · -- the directory has the one entry
      have hdir := versionDirPath_length hf
      have hpossible : (Sys.readdir (versionDirPath f)).Possible (some [name]) :=
        fun other hother => Or.inr (Or.inr (List.mem_singleton.mp hother ▸ hname))
      refine Or.inr ⟨some [name], hpossible, ?_⟩
      dsimp only
      apply MayUse.bind
      rw [removeEntries, if_pos ⟨hname.ne_dot, hname.ne_dotDot⟩]
      apply Or.inl
      change resolve (snprintf 512 (versionDirPath f ++ 47 :: name)) = _
      rw [resolve_entry hf hname (by norm_num), List.take_of_length_le (by omega)]

/-- The admin deletes `f`. -/
def adminDelete (f : Bytes) (hf : f.length < maxFilename) : TaskMessage :=
  { sampleTask .delete 1 roleAdmin "" with filename := f, filename_length := hf }

/-- A task uses the places of its filename, and no others. -/
theorem touches_iff (hf : f.length < maxFilename) : Touches f p ↔ FilePlace f p := by
  constructor
  · rintro ⟨task, rfl, hcall⟩
    obtain ⟨g, β, c, hentitled, huses⟩ :=
      (processTask_covered task (standing task).start).of_mayCall hcall
    exact huses.place hentitled.filename
  · intro hp
    refine ⟨adminDelete f hf, rfl, ?_⟩
    -- the record is found, and no user holds the lock
    have slot : Slot := ⟨0, by decide⟩
    refine Or.inr ⟨some slot, Or.inr ⟨(-1 : ℤ), ?_⟩⟩
    simp only [pure_eq_ret]
    exact Or.inl (removeFileFromStorage_mayUse hf hp)

end CloudSync
