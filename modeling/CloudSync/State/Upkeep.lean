import CloudSync.Lib.Faults
import CloudSync.Lib.Interleaving
import CloudSync.State.Calls
import CloudSync.State.Versions

/-!
# The store stays in order

Whatever a system call of a file function meets, it makes nothing but a version
directory, writes nothing but a content or a version, and removes a directory only
when it is empty (`storeOk_sys`).  So the file functions keep the store in order,
failing or not (`storeOk_exec`).
-/

namespace CloudSync

open CText Calls Calls.Prog Files

variable {f : Bytes} {t t' : Tree} {p : Path}

/-! ## System calls -/

/-- The paths of `f` where bytes are stored. -/
def BytesPlace (f : Bytes) (p : Path) : Prop :=
  p = f :: storagePath ∨ ∃ k, InInt k ∧ p = versionName k :: f :: versionsPath

/-- Only the version directory is made, and bytes are written only where they belong. -/
def InKind (f : Bytes) : {β : Type} → Sys β → Prop
  | _, .mkdir path => resolve path = f :: versionsPath
  | _, .openTrunc path => BytesPlace f (resolve path)
  | _, .write path _ _ => BytesPlace f (resolve path)
  | _, _ => True

/-- Bytes are stored where they belong. -/
theorem storeOk_put (hok : StoreOk t) (hf : StorageName f) (hp : BytesPlace f p)
    (hdir : p = f :: storagePath ∨ t.at? (f :: versionsPath) = some .dir) {bytes : Bytes}
    (h : t'.at? = Function.update t.at? p (some (.file bytes))) : StoreOk t' := by
  rcases hp with rfl | ⟨k, hk, rfl⟩
  · exact (leaves_content hok hf h).ok
  · have hversions := hdir.resolve_left (by simp [storagePath, versionsPath])
    exact (leaves_version hok hf hk hversions (some bytes) h).ok

/-- What is there may go, the version directory only when it is empty. -/
theorem storeOk_erase (hok : StoreOk t) (hf : StorageName f) (hp : Place f p)
    (hempty : t.at? p = some .dir → t.children p = []) : StoreOk (t.erase p) := by
  have hfile := hok.file f hf
  have hleft : ∀ {q node}, (t.erase p).at? q = some node → t.at? q = some node ∧ q ≠ p := by
    intro q node hq
    by_cases hqp : q = p
    · rw [hqp, Tree.at?_erase_self] at hq
      exact absurd hq (by simp)
    · exact ⟨(Tree.at?_erase_of_ne hqp).symm.trans hq, hqp⟩
  refine hok.of_frame hf (fun q hq => Tree.at?_erase_of_ne fun h => hq (h ▸ hp)) ?_
  refine ⟨fun h => hfile.content (hleft h).1, fun bytes h => hfile.dir bytes (hleft h).1, ?_⟩
  intro name node hnode
  obtain ⟨hdir, hentry⟩ := hfile.entry name node (hleft hnode).1
  refine ⟨?_, hentry⟩
  -- a directory with an entry in it has not gone
  rw [Tree.at?_erase_of_ne, hdir]
  rintro rfl
  have hchild : name ∈ t.children (f :: versionsPath) := by
    rw [Tree.mem_children, (hleft hnode).1]
    rfl
  rw [hempty hdir] at hchild
  exact absurd hchild List.not_mem_nil

theorem storeOk_openTrunc (hok : StoreOk t) (hf : StorageName f) (hp : BytesPlace f p) :
    StoreOk (t.openTrunc p).2 := by
  rcases hp with rfl | ⟨k, hk, rfl⟩
  · rcases Tree.openTrunc_at?_cases t f storagePath with hsame | ⟨-, -, hopened⟩
    · rw [hsame]
      exact hok
    · exact storeOk_put hok hf (Or.inl rfl) (Or.inl rfl) hopened
  · rcases Tree.openTrunc_at?_cases t (versionName k) (f :: versionsPath) with
      hsame | ⟨-, ⟨hdir, -⟩, hopened⟩
    · rw [hsame]
      exact hok
    · rw [Tree.isDir_cons hf.toPlainName, decide_eq_true_eq] at hdir
      exact storeOk_put hok hf (Or.inr ⟨k, hk, rfl⟩) (Or.inr hdir) hopened

theorem storeOk_write (hok : StoreOk t) (hf : StorageName f) (hp : BytesPlace f p) (offset : ℕ)
    (data : Bytes) : StoreOk (t.write p offset data) := by
  rcases Tree.write_at?_cases t p offset data with hsame | ⟨old, hold, hwritten⟩
  · rw [hsame]
    exact hok
  · refine storeOk_put hok hf hp ?_ hwritten
    -- a version is there only in a version directory
    rcases hp with rfl | ⟨k, -, rfl⟩
    · exact Or.inl rfl
    · exact Or.inr ((hok.file f hf).entry _ _ hold).1

theorem storeOk_remove (hok : StoreOk t) (hf : StorageName f) (hp : Place f p) :
    StoreOk (t.remove p).2 := by
  rcases Tree.remove_cases t p with hsame | ⟨hgone, hempty⟩
  · rw [hsame]
    exact hok
  · rw [hgone]
    exact storeOk_erase hok hf hp hempty

theorem storeOk_rmdir (hok : StoreOk t) (hf : StorageName f) (hp : Place f p) :
    StoreOk (t.rmdir p).2 := by
  rcases Tree.rmdir_cases t p with hsame | ⟨hgone, hempty⟩
  · rw [hsame]
    exact hok
  · rw [hgone]
    exact storeOk_erase hok hf hp hempty

/-- A system call of its kind. -/
theorem storeOk_sys {β : Type} {call : Sys β} {c : Conditions} (hok : StoreOk t)
    (hf : StorageName f) (hplace : ∀ p ∈ call.target, Place f p) (hkind : InKind f call) :
    StoreOk (disk.exec c call t).2 := by
  cases call with
  | mkdir path =>
      simp only [disk]
      split
      · exact hok
      · rw [show resolve path = f :: versionsPath from hkind]
        rcases Tree.mkdir_cases t f versionsPath with hmade | ⟨-, -, hmade⟩
        · rw [hmade]
          exact hok
        · exact (leaves_versionDir hok hf hmade).2.ok
  | openTrunc path =>
      simp only [disk]
      split
      · exact hok
      · exact storeOk_openTrunc hok hf hkind
  | write path offset data =>
      simp only [disk]
      split
      · exact hok
      · exact storeOk_write hok hf hkind _ _
  | remove path =>
      simp only [disk]
      split
      · exact hok
      · exact storeOk_remove hok hf (hplace _ rfl)
  | rmdir path =>
      simp only [disk]
      split
      · exact hok
      · exact storeOk_rmdir hok hf (hplace _ rfl)
  | _ =>
      simp only [disk]
      try split <;> exact hok
      try exact hok

/-! ## File functions -/

section Programs

variable {α β : Type}

/-- All system calls of the program are of their kind. -/
abbrev KeepsKind (f : Bytes) (prog : Prog Sys α) : Prop :=
  Obeys (Monitor.silent Sys) (fun _ {_} call => InKind f call) (fun _ => True) () prog

theorem storeOk_run {prog : Prog Sys α} (hwrites : WritesOnly (Place f) prog)
    (hkinds : KeepsKind f prog) (hf : StorageName f) (env : ℕ → Conditions) (hok : StoreOk t) :
    StoreOk (prog.run disk env t).2 := by
  induction prog generalizing env t with
  | ret value => exact hok
  | call c next ih =>
      exact ih _ (hwrites.2 _ (disk_possible c _ t)) (hkinds.2 _) _
        (storeOk_sys hok hf hwrites.1 hkinds.1)

theorem KeepsKind.bind {prog : Prog Sys α} {next : α → Prog Sys β} (hprog : KeepsKind f prog)
    (hnext : ∀ value, KeepsKind f (next value)) : KeepsKind f (prog >>= next) :=
  Obeys.bind hprog fun _ value _ => hnext value

theorem bytesPlace_content (hf : StorageName f) : BytesPlace f (resolve (getFilepath f)) :=
  Or.inl (resolve_getFilepath hf)

theorem bytesPlace_version (hf : StorageName f) {k : ℤ} (hk : InInt k) :
    BytesPlace f (resolve (versionPath 256 f k)) :=
  Or.inr ⟨k, hk, resolve_versionPath hf hk le_rfl⟩

theorem copyLoop_kinds {src dst : Bytes} (hdst : BytesPlace f (resolve dst))
    (turns offset : ℕ) : KeepsKind f (copyLoop src dst turns offset) := by
  induction turns generalizing offset with
  | zero =>
      simp only [copyLoop, perform_bind, pure_eq_ret]
      exact ⟨trivial, fun _ => ⟨trivial, fun _ => trivial⟩⟩
  | succ turns ih =>
      simp only [copyLoop, perform_bind, pure_eq_ret]
      refine ⟨trivial, fun bytes => ?_⟩
      dsimp only
      split
      · exact ⟨trivial, fun _ => ⟨trivial, fun _ => trivial⟩⟩
      · exact ⟨trivial, fun _ => ⟨trivial, fun _ => trivial⟩⟩
      · refine ⟨hdst, fun written => obeys_ite ?_ (ih _)⟩
        exact ⟨trivial, fun _ => ⟨trivial, fun _ => trivial⟩⟩

theorem copyFile_kinds {src dst : Bytes} (hdst : BytesPlace f (resolve dst)) (size : ℕ) :
    KeepsKind f (copyFile src dst size) := by
  simp only [copyFile, perform_bind, pure_eq_ret]
  refine ⟨trivial, fun opened => obeys_ite trivial ⟨hdst, fun opened => ?_⟩⟩
  exact obeys_ite ⟨trivial, fun _ => trivial⟩ (copyLoop_kinds hdst _ _)

theorem saveFile_kinds (hf : StorageName f) (data : Bytes) : KeepsKind f (saveFile f data) := by
  have hpath := bytesPlace_content hf
  simp only [saveFile, perform_bind, pure_eq_ret]
  refine ⟨hpath, fun opened => obeys_ite trivial ⟨trivial, fun locked => ?_⟩⟩
  refine obeys_ite ⟨trivial, fun _ => trivial⟩ ⟨hpath, fun written => ?_⟩
  exact obeys_ite ⟨trivial, fun _ => ⟨trivial, fun _ => trivial⟩⟩
    ⟨trivial, fun _ => ⟨trivial, fun _ => trivial⟩⟩

theorem removeEntries_kinds (dir : Bytes) (entries : List Bytes) :
    KeepsKind f (removeEntries dir entries) := by
  induction entries with
  | nil => trivial
  | cons entry rest ih =>
      simp only [removeEntries, perform_bind]
      exact obeys_ite ⟨trivial, fun _ => ih⟩ ih

theorem removeFileFromStorage_kinds : KeepsKind f (removeFileFromStorage f) := by
  simp only [removeFileFromStorage, removeAllVersions, perform_bind, pure_eq_ret]
  refine ⟨trivial, fun removed => obeys_ite trivial ?_⟩
  refine KeepsKind.bind ⟨trivial, fun entries => ?_⟩ fun _ => trivial
  cases entries with
  | none => trivial
  | some entries =>
      exact (removeEntries_kinds _ entries).bind fun _ => ⟨trivial, fun _ => trivial⟩

theorem ensureVersionDir_kinds (hf : StorageName f) : KeepsKind f (ensureVersionDir f) := by
  simp only [ensureVersionDir, perform_bind, pure_eq_ret]
  refine ⟨trivial, fun size => obeys_ite ⟨resolve_versionDirPath hf, fun made => ?_⟩ trivial⟩
  exact obeys_ite trivial trivial

theorem removeVersions_kinds (versions : List ℤ) : KeepsKind f (removeVersions f versions) := by
  induction versions with
  | nil => trivial
  | cons k rest ih => exact ⟨trivial, fun _ => ih⟩

theorem cleanupOldVersions_kinds (maxKeep : ℕ) : KeepsKind f (cleanupOldVersions f maxKeep) := by
  simp only [cleanupOldVersions, perform_bind, pure_eq_ret]
  refine ⟨trivial, fun entries => ?_⟩
  cases entries with
  | none => trivial
  | some entries =>
      exact obeys_ite trivial ((removeVersions_kinds _).bind fun _ => trivial)

theorem saveVersion_kinds (hf : StorageName f) {n : ℤ} (hn : InInt n) :
    KeepsKind f (saveVersion f n) := by
  simp only [saveVersion, perform_bind, pure_eq_ret]
  refine (ensureVersionDir_kinds hf).bind fun made => obeys_ite trivial ⟨trivial, fun size => ?_⟩
  cases size with
  | none => trivial
  | some size =>
      refine (copyFile_kinds (bytesPlace_version hf hn) size).bind fun copied => ?_
      exact obeys_ite trivial ((cleanupOldVersions_kinds _).bind fun _ => trivial)

theorem restoreVersion_kinds (hf : StorageName f) (k : ℤ) : KeepsKind f (restoreVersion f k) := by
  simp only [restoreVersion, perform_bind, pure_eq_ret]
  refine ⟨trivial, fun size => ?_⟩
  cases size with
  | none => trivial
  | some size =>
      refine (copyFile_kinds (bytesPlace_content hf) size).bind fun copied => ?_
      exact obeys_ite trivial trivial

theorem deleteVersion_kinds (k : ℤ) : KeepsKind f (deleteVersion f k) := by
  simp only [deleteVersion, perform_bind, pure_eq_ret]
  refine ⟨trivial, fun size => obeys_ite trivial ⟨trivial, fun removed => ?_⟩⟩
  exact obeys_ite trivial trivial

end Programs

/-! ## Calls of a worker -/

/-- Versions are saved under values of an `int`. -/
def WorkerCall.SavesInt : {β : Type} → WorkerCall β → Prop
  | _, .saveVersion _ n => InInt n
  | _, _ => True

/-- A call of a worker keeps the store in order, whatever goes wrong on the way. -/
theorem storeOk_exec {β : Type} {c : WorkerCall β} {world : World} (env : Env)
    (hnames : ∀ f ∈ c.filename, StorageName f) (hsaves : c.SavesInt) (hok : StoreOk world.tree) :
    StoreOk (worker.exec env c world).2.tree := by
  have hcontent : ∀ {f p}, StorageName f → ContentPlace f p → Place f p :=
    fun hf hp => Or.inl (hf.contentPlace.mp hp)
  have hversions : ∀ {f p}, StorageName f → VersionsPlace f p → Place f p :=
    fun hf hp => (hf.versionsPlace hp).elim (fun h => Or.inr (Or.inl h)) fun h =>
      Or.inr (Or.inr h)
  cases c with
  | saveVersion f n =>
      have hf := hnames f rfl
      exact storeOk_run ((saveVersion_writesOnly n).mono fun _ => hversions hf)
        (saveVersion_kinds hf hsaves) hf _ hok
  | saveFile f data =>
      have hf := hnames f rfl
      exact storeOk_run ((saveFile_writesOnly data).mono fun _ => hcontent hf)
        (saveFile_kinds hf data) hf _ hok
  | restoreVersion f k =>
      have hf := hnames f rfl
      exact storeOk_run ((restoreVersion_writesOnly k).mono fun _ => hcontent hf)
        (restoreVersion_kinds hf k) hf _ hok
  | removeFileFromStorage f =>
      have hf := hnames f rfl
      exact storeOk_run (removeFileFromStorage_writesOnly.mono fun _ hp =>
        hp.elim (hcontent hf) (hversions hf)) removeFileFromStorage_kinds hf _ hok
  | deleteVersion f k =>
      have hf := hnames f rfl
      exact storeOk_run ((deleteVersion_writesOnly k).mono fun _ => hversions hf)
        (deleteVersion_kinds k) hf _ hok
  | _ => exact hok.congr (at?_exec_of_quiet env _ world rfl rfl)

end CloudSync
