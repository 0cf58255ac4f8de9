import CloudSync.FileManager
import CloudSync.Worker

/-!
# Where the file functions write

The paths the source prints for a filename resolve to its `ContentPlace` and its
`VersionsPlace`, and every file function is shown to write only there, whatever
the system calls answer.  `Separate` collects what one wants of a set of names:
the places of a name are two places, and those of different names have nothing
in common.

The names that are one component other than `.`, `..` and `.versions` are
separate (`separate_storageNames`): their contents are at `storage/<f>`, their
versions below `storage/.versions/<f>`.

`content` and `storedVersion` are the two views of a file that the rest of the
development speaks of.
-/

namespace CloudSync

open CText Calls Calls.Prog Files ExchangeSort

/-- A filename that is one path component, not a reserved one, and fits. -/
structure StorageName (f : Bytes) : Prop extends PlainName f where
  short : f.length < maxFilename
  ne_versions : f ≠ text ".versions"

instance (f : Bytes) : Decidable (StorageName f) :=
  decidable_of_iff (PlainName f ∧ f.length < maxFilename ∧ f ≠ text ".versions")
    ⟨fun ⟨h₁, h₂, h₃⟩ => ⟨h₁, h₂, h₃⟩, fun h => ⟨h.toPlainName, h.short, h.ne_versions⟩⟩

theorem plainName_a : PlainName (text "a") := by decide

/-- Where the storage directory is. -/
def storagePath : Path := [text "storage"]

/-- Where the version directories are. -/
def versionsPath : Path := [text ".versions", text "storage"]

variable {f g : Bytes}

/-! ## The paths -/

theorem resolve_storageDir : resolve storageDir = storagePath := by decide

theorem resolve_versionDir : resolve versionDir = versionsPath := by decide

theorem snprintf_of_length {size : ℕ} {s : Bytes} (h : s.length < size) : snprintf size s = s :=
  List.take_of_length_le (by omega)

theorem storageDir_length : storageDir.length = 9 := by decide

theorem versionDir_length : versionDir.length = 19 := by decide

theorem getFilepath_eq (hf : f.length < maxFilename) : getFilepath f = storageDir ++ 47 :: f := by
  have hshort : f.length < 64 := hf
  apply snprintf_of_length
  simp only [List.length_append, List.length_cons, storageDir_length]
  omega

theorem versionDirPath_eq (hf : f.length < maxFilename) :
    versionDirPath f = versionDir ++ 47 :: f := by
  have hshort : f.length < 64 := hf
  apply snprintf_of_length
  simp only [List.length_append, List.length_cons, versionDir_length]
  omega

theorem versionDirPath_length (hf : f.length < maxFilename) : (versionDirPath f).length < 84 := by
  have hshort : f.length < 64 := hf
  rw [versionDirPath_eq hf]
  simp only [List.length_append, List.length_cons, versionDir_length]
  omega

theorem resolve_getFilepath (hf : StorageName f) :
    resolve (getFilepath f) = f :: storagePath := by
  rw [getFilepath_eq hf.short, hf.resolve_append, resolve_storageDir]

theorem resolve_versionDirPath (hf : StorageName f) :
    resolve (versionDirPath f) = f :: versionsPath := by
  rw [versionDirPath_eq hf.short, hf.resolve_append, resolve_versionDir]

/-- A name cut short is still a name, unless next to nothing is left of it. -/
theorem plainName_take {name : Bytes} (hname : PlainName name) {n : ℕ} (hn : 3 ≤ n) :
    PlainName (name.take n) := by
  by_cases hlength : name.length ≤ n
  · rw [List.take_of_length_le hlength]
    exact hname
  · have hcut : (name.take n).length = n := List.length_take_of_le (by omega)
    refine ⟨?_, fun hmem => hname.no_slash (List.mem_of_mem_take hmem), ?_, ?_⟩
    · rintro h
      rw [h, List.length_nil] at hcut
      omega
    · rintro h
      rw [h, dot, List.length_singleton] at hcut
      omega
    · rintro h
      rw [h, dotDot, List.length_cons, List.length_singleton] at hcut
      omega

/-- `snprintf` of an entry of a directory, the directory's path being short. -/
theorem snprintf_entry {dir name : Bytes} {size : ℕ} (hdir : dir.length + 5 ≤ size) :
    snprintf size (dir ++ 47 :: name) = dir ++ 47 :: name.take (size - dir.length - 2) := by
  obtain ⟨room, hroom⟩ : ∃ room, size - 1 = dir.length + (room + 1) :=
    ⟨size - dir.length - 2, by omega⟩
  have hcut : size - dir.length - 2 = room := by omega
  unfold snprintf
  rw [hroom, List.take_length_add_append, List.take_succ_cons, hcut]

/-- The paths printed for the entries of a version directory. -/
theorem resolve_entry (hf : f.length < maxFilename) {name : Bytes} (hname : PlainName name)
    {size : ℕ} (hsize : 256 ≤ size) :
    resolve (snprintf size (versionDirPath f ++ 47 :: name)) =
      name.take (size - (versionDirPath f).length - 2) :: resolve (versionDirPath f) := by
  have hdir := versionDirPath_length hf
  rw [snprintf_entry (by omega), (plainName_take hname (by omega)).resolve_append]

/-- A name that starts with `v` and goes on with bytes of a number. -/
theorem plainName_versionName (k : ℤ) : PlainName (versionName k) where
  ne_nil := by simp [versionName]
  no_slash := by
    rw [versionName, List.mem_cons, not_or]
    exact ⟨by decide, not_mem_decimal (by decide) (by decide)⟩
  ne_dot := fun h => absurd (List.cons.inj h).1 (by decide)
  ne_dotDot := fun h => absurd (List.cons.inj h).1 (by decide)

theorem versionPath_eq (hf : f.length < maxFilename) (size : ℕ) (k : ℤ) :
    versionPath size f k = snprintf size (versionDirPath f ++ 47 :: versionName k) := by
  rw [versionDirPath_eq hf]
  rfl

/-- A printed version path, cut short or not, is an entry of the version directory. -/
theorem resolve_versionPath_entry (hf : f.length < maxFilename) {size : ℕ} (hsize : 256 ≤ size)
    (k : ℤ) : resolve (versionPath size f k) =
      (versionName k).take (size - (versionDirPath f).length - 2) ::
        resolve (versionDirPath f) := by
  rw [versionPath_eq hf, resolve_entry hf (plainName_versionName k) hsize]

/-! ## The places of a file -/

/-- Where the content of `f` is. -/
def ContentPlace (f : Bytes) (p : Path) : Prop := p = resolve (getFilepath f)

/-- The version directory of `f`, its entries, and the paths printed for versions. -/
def VersionsPlace (f : Bytes) (p : Path) : Prop :=
  p = resolve (versionDirPath f) ∨
    (∃ entry, PlainName entry ∧ p = resolve (snprintf 512 (versionDirPath f ++ 47 :: entry))) ∨
    ∃ k, p = resolve (versionPath 256 f k) ∨ p = resolve (versionPath 512 f k)

/-- What is done for `f` touches neither the content nor the versions of `g`. -/
def Apart (f g : Bytes) : Prop :=
  ∀ p, ContentPlace f p ∨ VersionsPlace f p → ¬ (ContentPlace g p ∨ VersionsPlace g p)

/-- Names whose contents and versions are all in different places. -/
structure Separate (names : Set Bytes) : Prop where
  own : ∀ f ∈ names, ∀ p, ContentPlace f p → ¬ VersionsPlace f p
  apart : ∀ f ∈ names, ∀ g ∈ names, f ≠ g → Apart f g

namespace Separate

variable {names : Set Bytes} (hsep : Separate names) (hf : f ∈ names) (hg : g ∈ names) {p : Path}

include hsep hf hg

theorem content_not_versions (hp : ContentPlace f p) : ¬ VersionsPlace g p := by
  by_cases hfg : f = g
  · subst hfg
    exact hsep.own f hf p hp
  · exact fun h => hsep.apart f hf g hg hfg p (Or.inl hp) (Or.inr h)

theorem versions_not_content (hp : VersionsPlace f p) : ¬ ContentPlace g p :=
  fun h => hsep.content_not_versions hg hf h hp

theorem content_ne (hne : f ≠ g) (hp : ContentPlace f p) : ¬ ContentPlace g p :=
  fun h => hsep.apart f hf g hg hne p (Or.inl hp) (Or.inl h)

theorem versions_ne (hne : f ≠ g) (hp : VersionsPlace f p) : ¬ VersionsPlace g p :=
  fun h => hsep.apart f hf g hg hne p (Or.inr hp) (Or.inr h)

end Separate

/-- The places of a storage name. -/
theorem StorageName.contentPlace (hf : StorageName f) {p : Path} :
    ContentPlace f p ↔ p = f :: storagePath := by
  rw [ContentPlace, resolve_getFilepath hf]

/-- The version directory and its entries, apart from entries with names that do
not fit the buffer, are the places of the versions. -/
theorem versionsPlace_iff (hf : f.length < maxFilename) {p : Path} :
    VersionsPlace f p ↔ p = resolve (versionDirPath f) ∨
      ∃ name, PlainName name ∧ name.length + (versionDirPath f).length ≤ 510 ∧
        p = name :: resolve (versionDirPath f) := by
  have hdir := versionDirPath_length hf
  constructor
  · rintro (rfl | ⟨entry, hentry, rfl⟩ | ⟨k, rfl | rfl⟩)
    · exact Or.inl rfl
    · refine Or.inr ⟨_, plainName_take hentry ?_, ?_, resolve_entry hf hentry (by norm_num)⟩
      · omega
      · rw [List.length_take]
        omega
    · refine Or.inr ⟨_, plainName_take (plainName_versionName k) ?_, ?_,
        resolve_versionPath_entry hf le_rfl k⟩
      · omega
      · rw [List.length_take]
        omega
    · refine Or.inr ⟨_, plainName_take (plainName_versionName k) ?_, ?_,
        resolve_versionPath_entry hf (by norm_num) k⟩
      · omega
      · rw [List.length_take]
        omega
  · rintro (rfl | ⟨name, hname, hlength, rfl⟩)
    · exact Or.inl rfl
    · refine Or.inr (Or.inl ⟨name, hname, ?_⟩)
      rw [resolve_entry hf hname (by norm_num), List.take_of_length_le (by omega)]

theorem StorageName.versionsPlace (hf : StorageName f) {p : Path} (hp : VersionsPlace f p) :
    p = f :: versionsPath ∨ ∃ entry, p = entry :: f :: versionsPath := by
  rw [versionsPlace_iff hf.short, resolve_versionDirPath hf] at hp
  rcases hp with hp | ⟨entry, -, -, hp⟩
  · exact Or.inl hp
  · exact Or.inr ⟨entry, hp⟩

/-- Names of one component are separate. -/
theorem separate_storageNames : Separate {f | StorageName f} where
  own := by
    intro f hf p hp hversions
    rw [hf.contentPlace] at hp
    rcases hf.versionsPlace hversions with h | ⟨entry, h⟩ <;>
      simpa [hp, storagePath, versionsPath] using congrArg List.length h
  apart := by
    intro f hf g hg hne p hp hp'
    rcases hp with hp | hp <;> rcases hp' with hp' | hp'
    · rw [hf.contentPlace] at hp
      rw [hg.contentPlace] at hp'
      exact hne (List.cons.inj (hp.symm.trans hp')).1
    · rw [hf.contentPlace] at hp
      rcases hg.versionsPlace hp' with h | ⟨entry, h⟩ <;>
        simpa [hp, storagePath, versionsPath] using congrArg List.length h
    · rw [hg.contentPlace] at hp'
      rcases hf.versionsPlace hp with h | ⟨entry, h⟩ <;>
        simpa [hp', storagePath, versionsPath] using congrArg List.length h
    · rcases hf.versionsPlace hp with h | ⟨entry, h⟩ <;>
        rcases hg.versionsPlace hp' with h' | ⟨entry', h'⟩
      · exact hne (List.cons.inj (h.symm.trans h')).1
      · simpa [versionsPath] using congrArg List.length (h.symm.trans h')
      · simpa [versionsPath] using congrArg List.length (h.symm.trans h')
      · exact hne (List.cons.inj (List.cons.inj (h.symm.trans h')).2).1

/-! ## The file functions write only there -/

section WritesOnly

/-- A call that has no target. -/
theorem writesOnly_read {P : Path → Prop} {α β : Type} {c : Sys β} {next : β → Prog Sys α}
    (hc : c.target = none) (hnext : ∀ answer, c.Possible answer → WritesOnly P (next answer)) :
    WritesOnly P (.call c next) :=
  ⟨by simp [hc], hnext⟩

theorem writesOnly_at {P : Path → Prop} {α β : Type} {c : Sys β} {p : Path}
    {next : β → Prog Sys α} (hc : c.target = some p) (hp : P p)
    (hnext : ∀ answer, WritesOnly P (next answer)) : WritesOnly P (.call c next) :=
  ⟨by simpa [hc] using hp, fun answer _ => hnext answer⟩

theorem copyLoop_writesOnly {P : Path → Prop} {src dst : Bytes} (hdst : P (resolve dst))
    (turns offset : ℕ) : WritesOnly P (copyLoop src dst turns offset) := by
  induction turns generalizing offset with
  | zero =>
      simp only [copyLoop, perform_bind, pure_eq_ret]
      exact writesOnly_read rfl fun _ _ => writesOnly_read rfl fun _ _ => trivial
  | succ turns ih =>
      simp only [copyLoop, perform_bind, pure_eq_ret]
      apply writesOnly_read rfl
      intro answer _
      split
      · exact writesOnly_read rfl fun _ _ => writesOnly_read rfl fun _ _ => trivial
      · exact writesOnly_read rfl fun _ _ => writesOnly_read rfl fun _ _ => trivial
      · apply writesOnly_at rfl hdst
        intro written
        split
        · exact writesOnly_read rfl fun _ _ => writesOnly_read rfl fun _ _ => trivial
        · exact ih _

theorem copyFile_writesOnly {P : Path → Prop} {src dst : Bytes} (hdst : P (resolve dst))
    (size : ℕ) : WritesOnly P (copyFile src dst size) := by
  simp only [copyFile, perform_bind, pure_eq_ret]
  apply writesOnly_read rfl
  intro opened _
  split
  · trivial
  · apply writesOnly_at rfl hdst
    intro opened
    split
    · exact writesOnly_read rfl fun _ _ => trivial
    · exact copyLoop_writesOnly hdst _ _

theorem saveFile_writesOnly (data : Bytes) :
    WritesOnly (ContentPlace f) (saveFile f data) := by
  have hplace : ContentPlace f (resolve (getFilepath f)) := rfl
  simp only [saveFile, perform_bind, pure_eq_ret]
  apply writesOnly_at rfl hplace
  intro opened
  split
  · trivial
  · apply writesOnly_read rfl
    intro locked _
    split
    · exact writesOnly_read rfl fun _ _ => trivial
    · apply writesOnly_at rfl hplace
      intro written
      split <;> exact writesOnly_read rfl fun _ _ => writesOnly_read rfl fun _ _ => trivial

theorem readFile_writesOnly : WritesOnly (fun _ => False) (readFile f) := by
  simp only [readFile, perform_bind, pure_eq_ret]
  apply writesOnly_read rfl
  intro opened _
  split
  · trivial
  · apply writesOnly_read rfl
    intro locked _
    split
    · exact writesOnly_read rfl fun _ _ => trivial
    · apply writesOnly_read rfl
      intro bytes _
      split <;> exact writesOnly_read rfl fun _ _ => writesOnly_read rfl fun _ _ => trivial

theorem removeEntries_writesOnly (entries : List Bytes)
    (hentries : ∀ name ∈ entries, name = dot ∨ name = dotDot ∨ PlainName name) :
    WritesOnly (VersionsPlace f) (removeEntries (versionDirPath f) entries) := by
  induction entries with
  | nil => trivial
  | cons name rest ih =>
      have hrest := ih fun name hname => hentries name (List.mem_cons_of_mem _ hname)
      simp only [removeEntries, perform_bind]
      split
      · next hname =>
        have hplain := ((hentries name (List.mem_cons_self ..)).resolve_left hname.1).resolve_left
          hname.2
        exact writesOnly_at rfl (Or.inr (Or.inl ⟨name, hplain, rfl⟩)) fun _ => hrest
      · exact hrest

theorem removeAllVersions_writesOnly : WritesOnly (VersionsPlace f) (removeAllVersions f) := by
  simp only [removeAllVersions, perform_bind, pure_eq_ret]
  apply writesOnly_read rfl
  intro entries hentries
  cases entries with
  | none => trivial
  | some entries =>
      apply (removeEntries_writesOnly entries hentries).bind
      intro _
      exact writesOnly_at rfl (Or.inl rfl) fun _ => trivial

theorem removeFileFromStorage_writesOnly :
    WritesOnly (fun p => ContentPlace f p ∨ VersionsPlace f p) (removeFileFromStorage f) := by
  simp only [removeFileFromStorage, perform_bind, pure_eq_ret]
  apply writesOnly_at rfl (Or.inl rfl)
  intro removed
  split
  · trivial
  · exact (removeAllVersions_writesOnly.mono fun _ => Or.inr).bind fun _ => trivial

theorem ensureVersionDir_writesOnly : WritesOnly (VersionsPlace f) (ensureVersionDir f) := by
  simp only [ensureVersionDir, perform_bind, pure_eq_ret]
  apply writesOnly_read rfl
  intro size _
  split
  · apply writesOnly_at rfl (Or.inl rfl)
    intro made
    split <;> trivial
  · trivial

theorem removeVersions_writesOnly (versions : List ℤ) :
    WritesOnly (VersionsPlace f) (removeVersions f versions) := by
  induction versions with
  | nil => trivial
  | cons k rest ih =>
      exact writesOnly_at rfl (Or.inr (Or.inr ⟨k, Or.inr rfl⟩)) fun _ => ih

theorem cleanupOldVersions_writesOnly (maxKeep : ℕ) :
    WritesOnly (VersionsPlace f) (cleanupOldVersions f maxKeep) := by
  simp only [cleanupOldVersions, perform_bind, pure_eq_ret]
  apply writesOnly_read rfl
  intro entries _
  cases entries with
  | none => trivial
  | some entries =>
      dsimp only
      split
      · trivial
      · exact (removeVersions_writesOnly _).bind fun _ => trivial

theorem saveVersion_writesOnly (k : ℤ) : WritesOnly (VersionsPlace f) (saveVersion f k) := by
  have hplace : VersionsPlace f (resolve (versionPath 256 f k)) :=
    Or.inr (Or.inr ⟨k, Or.inl rfl⟩)
  simp only [saveVersion, perform_bind, pure_eq_ret]
  apply ensureVersionDir_writesOnly.bind
  intro made
  split
  · trivial
  · apply writesOnly_read rfl
    intro size _
    cases size with
    | none => trivial
    | some size =>
        apply (copyFile_writesOnly hplace size).bind
        intro copied
        split
        · trivial
        · exact (cleanupOldVersions_writesOnly _).bind fun _ => trivial

theorem restoreVersion_writesOnly (k : ℤ) : WritesOnly (ContentPlace f) (restoreVersion f k) := by
  have hplace : ContentPlace f (resolve (getFilepath f)) := rfl
  simp only [restoreVersion, perform_bind, pure_eq_ret]
  apply writesOnly_read rfl
  intro size _
  cases size with
  | none => trivial
  | some size =>
      apply (copyFile_writesOnly hplace size).bind
      intro copied
      split <;> trivial

theorem versionRows_writesOnly (dir : Bytes) (maxSize : ℕ) (modified : Bytes → Bytes)
    (names : List Bytes) (acc : Output × ℕ) :
    WritesOnly (fun _ => False) (versionRows dir maxSize modified names acc) := by
  induction names generalizing acc with
  | nil => trivial
  | cons name rest ih =>
      obtain ⟨out, count⟩ := acc
      simp only [versionRows, perform_bind, pure_eq_ret]
      split
      · apply writesOnly_read rfl
        intro size _
        cases size with
        | none => exact ih _
        | some size => exact ih _
      · trivial

theorem listVersions_writesOnly (maxSize : ℕ) (modified : Bytes → Bytes) :
    WritesOnly (fun _ => False) (listVersions f maxSize modified) := by
  simp only [listVersions, perform_bind, pure_eq_ret]
  apply writesOnly_read rfl
  intro entries _
  cases entries with
  | none => trivial
  | some entries => exact (versionRows_writesOnly _ _ _ _ _).bind fun _ => trivial

theorem deleteVersion_writesOnly (k : ℤ) : WritesOnly (VersionsPlace f) (deleteVersion f k) := by
  simp only [deleteVersion, perform_bind, pure_eq_ret]
  apply writesOnly_read rfl
  intro size _
  split
  · trivial
  · refine writesOnly_at rfl (Or.inr (Or.inr ⟨k, Or.inr rfl⟩)) ?_
    intro removed
    split <;> trivial

end WritesOnly

/-! ## The two views of a file -/

/-- The stored content of a file. -/
def content (tree : Tree) (f : Bytes) : Option Bytes := tree.bytes? (resolve (getFilepath f))

/-- The stored version `k` of a file. -/
def storedVersion (tree : Tree) (f : Bytes) (k : ℤ) : Option Bytes :=
  tree.bytes? (resolve (versionPath 256 f k))

/-- An empty version directory holds no version. -/
theorem storedVersion_of_children (hf : f.length < maxFilename) {tree : Tree}
    (hempty : tree.children (resolve (versionDirPath f)) = []) (k : ℤ) :
    storedVersion tree f k = none := by
  rw [storedVersion, resolve_versionPath_entry hf le_rfl, Tree.bytes?]
  generalize (versionName k).take _ = name
  have hnone : tree.at? (name :: resolve (versionDirPath f)) = none := by
    by_contra hsome
    have hmem := Tree.mem_children.mpr (Option.isSome_iff_ne_none.mpr hsome)
    rw [hempty] at hmem
    exact absurd hmem List.not_mem_nil
  rw [hnone]

end CloudSync
