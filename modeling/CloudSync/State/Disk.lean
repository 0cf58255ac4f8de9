import CloudSync.State.Storage
import CloudSync.Lib.FaultFree

/-!
# What the file functions do when nothing goes wrong

`StoreOk` is what a storage directory looks like that only this program has
written to: contents are files, version directories are directories, and their
entries are called `v<k>` for an `int` `k`.  In such a store every file
function is described by what it does to the two views of its file, all calls
being fine; `Leaves` says that nothing else has changed and that the store is in
order again.
-/

namespace CloudSync

open CText Calls Calls.Prog Files

/-- The content, the version directory and its entries are what they should be. -/
structure FileOk (t : Tree) (f : Bytes) : Prop where
  content : t.at? (f :: storagePath) ≠ some .dir
  dir : ∀ bytes, t.at? (f :: versionsPath) ≠ some (.file bytes)
  entry : ∀ name node, t.at? (name :: f :: versionsPath) = some node →
    t.at? (f :: versionsPath) = some .dir ∧
      ∃ k bytes, InInt k ∧ name = versionName k ∧ node = .file bytes

/-- A storage directory written by this program. -/
structure StoreOk (t : Tree) : Prop where
  storage : t.at? storagePath = some .dir
  versions : t.at? versionsPath = some .dir
  file : ∀ f, StorageName f → FileOk t f

/-- A storage directory whose contents can be written, whatever the version
directories look like. -/
structure Writable (t : Tree) : Prop where
  storage : t.at? storagePath = some .dir
  content : ∀ f, StorageName f → t.at? (f :: storagePath) ≠ some .dir

theorem StoreOk.writable {t : Tree} (hok : StoreOk t) : Writable t :=
  ⟨hok.storage, fun f hf => (hok.file f hf).content⟩

/-- The paths of a storage name. -/
def Place (f : Bytes) (p : Path) : Prop :=
  p = f :: storagePath ∨ p = f :: versionsPath ∨ ∃ name, p = name :: f :: versionsPath

variable {f g : Bytes} {t t' : Tree} {k : ℤ}

/-! ## Names and paths of versions -/

theorem versionName_injective : Function.Injective versionName :=
  fun _ _ h => decimal_injective (List.cons.inj h).2

theorem versionName_length (hk : InInt k) : (versionName k).length ≤ 12 := by
  have := decimal_length_le hk
  simp only [versionName, List.length_cons]
  omega

theorem atoi_versionName (hk : InInt k) : atoi ((versionName k).drop 1) = k :=
  atoi_decimal hk

/-- No other number is cut to the name of an `int` version. -/
theorem eq_of_take_versionName {n : ℤ} (hn : InInt n) {count : ℕ} (hcount : 12 < count)
    (h : (versionName k).take count = versionName n) : k = n := by
  have hlength := congrArg List.length h
  have hshort := versionName_length hn
  rw [List.length_take] at hlength
  rw [List.take_of_length_le (by omega)] at h
  exact versionName_injective h

/-- A short entry of a version directory, in a buffer of `size` bytes. -/
theorem resolve_short_entry (hf : StorageName f) {name : Bytes} (hname : PlainName name)
    {size : ℕ} (hsize : 256 ≤ size) (hshort : name.length ≤ 12) :
    resolve (snprintf size (versionDirPath f ++ 47 :: name)) = name :: f :: versionsPath := by
  have hdir := versionDirPath_length hf.short
  rw [resolve_entry hf.short hname hsize, List.take_of_length_le (by omega),
    resolve_versionDirPath hf]

/-- The path of an `int` version is not cut. -/
theorem resolve_versionPath_int (hf : f.length < maxFilename) (hk : InInt k) {size : ℕ}
    (hsize : 256 ≤ size) :
    resolve (versionPath size f k) = versionName k :: resolve (versionDirPath f) := by
  have hdir := versionDirPath_length hf
  have hname := versionName_length hk
  rw [resolve_versionPath_entry hf hsize, List.take_of_length_le (by omega)]

theorem resolve_versionPath (hf : StorageName f) (hk : InInt k) {size : ℕ} (hsize : 256 ≤ size) :
    resolve (versionPath size f k) = versionName k :: f :: versionsPath := by
  rw [resolve_versionPath_int hf.short hk hsize, resolve_versionDirPath hf]

/-! ## The views -/

theorem content_eq (hf : StorageName f) : content t f = t.bytes? (f :: storagePath) := by
  rw [content, resolve_getFilepath hf]

theorem FileOk.bytes?_entry (hok : FileOk t f) {name bytes : Bytes}
    (h : t.bytes? (name :: f :: versionsPath) = some bytes) :
    ∃ k, InInt k ∧ name = versionName k := by
  obtain ⟨-, k, -, hk, hname, -⟩ := hok.entry _ _ (Tree.bytes?_eq_some.mp h)
  exact ⟨k, hk, hname⟩

/-- Version `k` is the entry `v<k>` of the version directory; a number that is
no `int` names nothing. -/
theorem storedVersion_eq (hf : StorageName f) (hok : FileOk t f) (k : ℤ) :
    storedVersion t f k = t.bytes? (versionName k :: f :: versionsPath) := by
  by_cases hk : InInt k
  · rw [storedVersion, resolve_versionPath hf hk le_rfl]
  · have hright : t.bytes? (versionName k :: f :: versionsPath) = none := by
      by_contra h
      obtain ⟨bytes, hbytes⟩ := Option.ne_none_iff_exists'.mp h
      obtain ⟨k', hk', hname⟩ := hok.bytes?_entry hbytes
      exact hk (versionName_injective hname ▸ hk')
    have hleft : storedVersion t f k = none := by
      by_contra h
      obtain ⟨bytes, hbytes⟩ := Option.ne_none_iff_exists'.mp h
      have hdir := versionDirPath_length hf.short
      rw [storedVersion, resolve_versionPath_entry hf.short le_rfl,
        resolve_versionDirPath hf] at hbytes
      obtain ⟨k', hk', hname⟩ := hok.bytes?_entry hbytes
      exact hk (eq_of_take_versionName hk' (by omega) hname ▸ hk')
    rw [hleft, hright]

/-! ## Keeping the store in order -/

theorem place_ne_storage : ¬ Place f storagePath := by
  rintro (h | h | ⟨name, h⟩) <;> simpa [storagePath, versionsPath] using congrArg List.length h

theorem place_ne_versions (hf : StorageName f) : ¬ Place f versionsPath := by
  rintro (h | h | ⟨name, h⟩)
  · exact hf.ne_versions (List.cons.inj h).1.symm
  · simpa [versionsPath] using congrArg List.length h
  · simpa [versionsPath] using congrArg List.length h

theorem Place.ne {p : Path} (hp : Place f p) (hne : f ≠ g) : ¬ Place g p := by
  rintro hp'
  rcases hp with rfl | rfl | ⟨name, rfl⟩ <;> rcases hp' with h | h | ⟨name', h⟩ <;>
    first
    | exact hne (List.cons.inj h).1
    | exact hne (List.cons.inj (List.cons.inj h).2).1
    | simpa [storagePath, versionsPath] using congrArg List.length h

theorem FileOk.congr (hok : FileOk t f) (hsame : ∀ p, Place f p → t'.at? p = t.at? p) :
    FileOk t' f where
  content := hsame _ (Or.inl rfl) ▸ hok.content
  dir := hsame _ (Or.inr (Or.inl rfl)) ▸ hok.dir
  entry := fun name node h => by
    rw [hsame _ (Or.inr (Or.inl rfl))]
    exact hok.entry name node (hsame _ (Or.inr (Or.inr ⟨name, rfl⟩)) ▸ h)

/-- What changes only the paths of `f` keeps the store in order if it keeps them so. -/
theorem StoreOk.of_frame (hok : StoreOk t) (hf : StorageName f)
    (hframe : ∀ p, ¬ Place f p → t'.at? p = t.at? p) (hfile : FileOk t' f) : StoreOk t' where
  storage := (hframe _ place_ne_storage).trans hok.storage
  versions := (hframe _ (place_ne_versions hf)).trans hok.versions
  file := fun g hg => by
    by_cases hfg : f = g
    · exact hfg ▸ hfile
    · exact (hok.file g hg).congr fun p hp => hframe p (hp.ne (Ne.symm hfg))

theorem StoreOk.congr (hok : StoreOk t) (hsame : ∀ p, t'.at? p = t.at? p) : StoreOk t' where
  storage := (hsame _).trans hok.storage
  versions := (hsame _).trans hok.versions
  file := fun g hg => (hok.file g hg).congr fun p _ => hsame p

/-! ## What is stored -/

/-- The entries of the directory are files, each called `v<k>` for an `int` `k`. -/
def OnlyVersions (t : Tree) (dir : Path) : Prop :=
  ∀ name node, t.at? (name :: dir) = some node →
    ∃ k bytes, InInt k ∧ name = versionName k ∧ node = .file bytes

/-- The numbers of the versions in a directory. -/
def numbersIn (t : Tree) (dir : Path) : Set ℤ := {k | (t.at? (versionName k :: dir)).isSome}

namespace OnlyVersions

variable {dir : Path} (hentries : OnlyVersions t dir)

include hentries

theorem inInt (hk : k ∈ numbersIn t dir) : InInt k := by
  obtain ⟨node, hnode⟩ := Option.isSome_iff_exists.mp hk
  obtain ⟨k', -, hk', hname, -⟩ := hentries _ _ hnode
  exact versionName_injective hname ▸ hk'

theorem ne_dir (name : Bytes) : t.at? (name :: dir) ≠ some .dir := by
  intro h
  obtain ⟨_, _, _, _, hnode⟩ := hentries _ _ h
  exact absurd hnode (by simp)

theorem mem_children {name : Bytes} :
    name ∈ t.children dir ↔ ∃ k ∈ numbersIn t dir, name = versionName k := by
  rw [Tree.mem_children]
  constructor
  · intro h
    obtain ⟨node, hnode⟩ := Option.isSome_iff_exists.mp h
    obtain ⟨k, -, -, rfl, -⟩ := hentries _ _ hnode
    exact ⟨k, h, rfl⟩
  · rintro ⟨k, hk, rfl⟩
    exact hk

end OnlyVersions

/-- The numbers of the stored versions. -/
def stored (t : Tree) (f : Bytes) : Set ℤ :=
  {k | (t.at? (versionName k :: f :: versionsPath)).isSome}

theorem FileOk.onlyVersions (hok : FileOk t f) : OnlyVersions t (f :: versionsPath) :=
  fun name node h => (hok.entry name node h).2

theorem FileOk.inInt (hok : FileOk t f) (hk : k ∈ stored t f) : InInt k :=
  hok.onlyVersions.inInt hk

theorem FileOk.at?_version (hok : FileOk t f) (hk : k ∈ stored t f) :
    ∃ bytes, t.at? (versionName k :: f :: versionsPath) = some (.file bytes) := by
  obtain ⟨node, hnode⟩ := Option.isSome_iff_exists.mp hk
  obtain ⟨-, -, bytes, -, -, rfl⟩ := hok.entry _ _ hnode
  exact ⟨bytes, hnode⟩

theorem FileOk.entry_ne_dir (hok : FileOk t f) (name : Bytes) :
    t.at? (name :: f :: versionsPath) ≠ some .dir :=
  hok.onlyVersions.ne_dir name

theorem mem_stored (hf : StorageName f) (hok : FileOk t f) :
    k ∈ stored t f ↔ (storedVersion t f k).isSome := by
  rw [storedVersion_eq hf hok]
  constructor
  · intro hk
    obtain ⟨bytes, hbytes⟩ := hok.at?_version hk
    rw [Tree.bytes?_eq_some.mpr hbytes]
    rfl
  · intro hk
    obtain ⟨bytes, hbytes⟩ := Option.isSome_iff_exists.mp hk
    rw [stored, Set.mem_ofPred_eq, Tree.bytes?_eq_some.mp hbytes]
    rfl

/-- Without a version directory there are no versions. -/
theorem FileOk.no_entry (hok : FileOk t f) (hdir : t.at? (f :: versionsPath) ≠ some .dir)
    (name : Bytes) : t.at? (name :: f :: versionsPath) = none := by
  by_contra h
  obtain ⟨node, hnode⟩ := Option.ne_none_iff_exists'.mp h
  exact hdir (hok.entry _ _ hnode).1

theorem FileOk.dir_cases (hok : FileOk t f) :
    t.at? (f :: versionsPath) = none ∨ t.at? (f :: versionsPath) = some .dir := by
  cases h : t.at? (f :: versionsPath) with
  | none => exact Or.inl rfl
  | some node =>
      cases node with
      | dir => exact Or.inr rfl
      | file bytes => exact absurd h (hok.dir bytes)

theorem at?_of_content_none (hf : StorageName f) (hok : FileOk t f) (hnone : content t f = none) :
    t.at? (f :: storagePath) = none := by
  cases h : t.at? (f :: storagePath) with
  | none => rfl
  | some node =>
      cases node with
      | dir => exact absurd h hok.content
      | file bytes =>
          rw [content_eq hf, Tree.bytes?_eq_some.mpr h] at hnone
          exact absurd hnone (by simp)

theorem at?_of_content (hf : StorageName f) {bytes : Bytes} (h : content t f = some bytes) :
    t.at? (f :: storagePath) = some (.file bytes) :=
  Tree.bytes?_eq_some.mp ((content_eq hf).symm.trans h)

theorem at?_of_version_none (hf : StorageName f) (hok : FileOk t f)
    (hnone : storedVersion t f k = none) : t.at? (versionName k :: f :: versionsPath) = none := by
  have hk : k ∉ stored t f := by
    rw [mem_stored hf hok, hnone]
    simp
  exact Option.not_isSome_iff_eq_none.mp hk

theorem at?_of_version (hf : StorageName f) (hok : FileOk t f) {bytes : Bytes}
    (h : storedVersion t f k = some bytes) :
    t.at? (versionName k :: f :: versionsPath) = some (.file bytes) :=
  Tree.bytes?_eq_some.mp ((storedVersion_eq hf hok k).symm.trans h)

/-! ## What an operation leaves -/

/-- An operation on `f` leaves the store in order, with these views of `f` and
all other paths as they were. -/
structure Leaves (t : Tree) (f : Bytes) (content' : Option Bytes) (versions' : ℤ → Option Bytes)
    (t' : Tree) : Prop where
  ok : StoreOk t'
  content : content t' f = content'
  versions : storedVersion t' f = versions'
  other : ∀ p, ¬ Place f p → t'.at? p = t.at? p

theorem leaves_self (hok : StoreOk t) : Leaves t f (content t f) (storedVersion t f) t :=
  ⟨hok, rfl, rfl, fun _ _ => rfl⟩

theorem Leaves.stored_eq {content' : Option Bytes} {versions' : ℤ → Option Bytes}
    (h : Leaves t f content' versions' t') (hf : StorageName f) :
    stored t' f = {k | (versions' k).isSome} := by
  ext k
  rw [mem_stored hf (h.ok.file f hf), h.versions]
  rfl

/-- A new content. -/
theorem leaves_content (hok : StoreOk t) (hf : StorageName f) {bytes : Bytes}
    (h : t'.at? = Function.update t.at? (f :: storagePath) (some (.file bytes))) :
    Leaves t f (some bytes) (storedVersion t f) t' := by
  have hne : ∀ p, p ≠ f :: storagePath → t'.at? p = t.at? p := fun p hp => by
    rw [h, Function.update_of_ne hp]
  have hself : t'.at? (f :: storagePath) = some (.file bytes) := by rw [h, Function.update_self]
  have hdir : t'.at? (f :: versionsPath) = t.at? (f :: versionsPath) :=
    hne _ (by simp [storagePath, versionsPath])
  have hentry : ∀ name, t'.at? (name :: f :: versionsPath) = t.at? (name :: f :: versionsPath) :=
    fun name => hne _ (by simp [storagePath, versionsPath])
  have hfile : FileOk t' f := by
    refine ⟨by simp [hself], hdir ▸ (hok.file f hf).dir, fun name node hnode => ?_⟩
    rw [hdir]
    exact (hok.file f hf).entry name node (hentry name ▸ hnode)
  have hother : ∀ p, ¬ Place f p → t'.at? p = t.at? p := fun p hp => hne p fun h => hp (Or.inl h)
  refine ⟨hok.of_frame hf hother hfile, ?_, ?_, hother⟩
  · rw [content_eq hf, Tree.bytes?_eq_some.mpr hself]
  · funext k
    rw [storedVersion_eq hf hfile, storedVersion_eq hf (hok.file f hf)]
    exact Tree.bytes?_congr (hentry _)

/-- The entries of the version directory may go, or be versions. -/
theorem leaves_versions (hok : StoreOk t) (hf : StorageName f)
    (hother : ∀ p, p ≠ f :: versionsPath → (∀ k, p ≠ versionName k :: f :: versionsPath) →
      t'.at? p = t.at? p)
    (hdir : t'.at? (f :: versionsPath) = some .dir)
    (hfiles : ∀ k, t'.at? (versionName k :: f :: versionsPath) ≠ some .dir)
    (hint : ∀ k ∈ stored t' f, InInt k) :
    Leaves t f (content t f)
      (fun k => t'.bytes? (versionName k :: f :: versionsPath)) t' := by
  have hcontent : t'.at? (f :: storagePath) = t.at? (f :: storagePath) :=
    hother _ (by simp [storagePath, versionsPath]) (by simp [storagePath, versionsPath])
  have hfile : FileOk t' f := by
    refine ⟨hcontent ▸ (hok.file f hf).content, by simp [hdir], fun name node hnode => ⟨hdir, ?_⟩⟩
    by_cases hname : ∃ k, name = versionName k
    · obtain ⟨k, rfl⟩ := hname
      cases node with
      | dir => exact absurd hnode (hfiles k)
      | file bytes =>
          exact ⟨k, bytes, hint k (by rw [stored, Set.mem_ofPred_eq, hnode]; rfl), rfl, rfl⟩
    · rw [hother _ (by simp [versionsPath]) fun k h => hname ⟨k, (List.cons.inj h).1⟩] at hnode
      exact ((hok.file f hf).entry name node hnode).2
  have hframe : ∀ p, ¬ Place f p → t'.at? p = t.at? p := fun p hp =>
    hother p (fun h => hp (Or.inr (Or.inl h))) fun k h => hp (Or.inr (Or.inr ⟨_, h⟩))
  refine ⟨hok.of_frame hf hframe hfile, ?_, ?_, hframe⟩
  · rw [content_eq hf, content_eq hf]
    exact Tree.bytes?_congr hcontent
  · funext k
    rw [storedVersion_eq hf hfile]

theorem Leaves.trans {content₁ content₂ : Option Bytes} {versions₁ versions₂ : ℤ → Option Bytes}
    {t₁ t₂ : Tree} (h₁ : Leaves t f content₁ versions₁ t₁)
    (h₂ : Leaves t₁ f content₂ versions₂ t₂) : Leaves t f content₂ versions₂ t₂ :=
  ⟨h₂.ok, h₂.content, h₂.versions, fun p hp => (h₂.other p hp).trans (h₁.other p hp)⟩

/-- Only what is stored where matters. -/
theorem Leaves.congr {content' : Option Bytes} {versions' : ℤ → Option Bytes} {t'' : Tree}
    (h : Leaves t f content' versions' t') (hsame : ∀ p, t''.at? p = t'.at? p) :
    Leaves t f content' versions' t'' where
  ok := h.ok.congr hsame
  content := (Tree.bytes?_congr (hsame _)).trans h.content
  versions := (funext fun _ => Tree.bytes?_congr (hsame _)).trans h.versions
  other := fun p hp => (hsame p).trans (h.other p hp)

/-! ## Writing and reading a file -/

section Specs

variable (hok : Writable t) (hf : StorageName f)

include hok hf

theorem saveFile_fine (data : Bytes) :
    wp disk Conditions.Fine (saveFile f data) (fun result t' =>
      result = 0 ∧ t'.at? = Function.update t.at? (f :: storagePath) (some (.file data))) t := by
  obtain ⟨hopen, hopened⟩ := Tree.openTrunc_fine hf.toPlainName (Tree.isDir_of_at? hok.storage)
    (hok.content f hf)
  simp only [saveFile, perform_bind, pure_eq_ret]
  apply wp_openTrunc
  rw [resolve_getFilepath hf, hopen]
  refine wp_lock (wp_write ?_)
  simp only [ne_eq, not_true_eq_false, if_false]
  refine wp_unlock (wp_close ⟨rfl, ?_⟩)
  have hempty : (t.openTrunc (f :: storagePath)).2.at? (f :: storagePath) = some (.file []) := by
    rw [hopened, Function.update_self]
  rw [resolve_getFilepath hf, Tree.write_fine hf.toPlainName hempty, hopened,
    Function.update_idem]
  simp [Tree.overwrite]

omit hok in
theorem readFile_fine :
    wp disk Conditions.Fine (readFile f) (fun answer t' =>
      t' = t ∧ answer = (content t f).elim (-1, []) fun bytes => (0, bytes.take maxFileSize)) t := by
  simp only [readFile, perform_bind, pure_eq_ret]
  apply wp_openRead
  rw [resolve_getFilepath hf, ← content_eq hf]
  cases hcontent : content t f with
  | none => exact ⟨rfl, rfl⟩
  | some bytes =>
      refine wp_lock (wp_read ?_)
      refine wp_unlock (wp_close ⟨rfl, ?_⟩)
      rw [Tree.read, resolve_getFilepath hf, ← content_eq hf, hcontent]
      rfl

end Specs

/-- The copy loop, started at any point of the source with that much copied. -/
theorem copyLoop_fine {src dst s : Bytes} {name : Bytes} {dir : Path} (hname : PlainName name)
    (hdst : resolve dst = name :: dir) (hne : resolve src ≠ name :: dir) {turns offset : ℕ}
    {t : Tree} (hsrc : t.at? (resolve src) = some (.file s))
    (hcopied : t.at? (name :: dir) = some (.file (s.take offset))) (hoffset : offset ≤ s.length)
    (hturns : s.length < offset + turns) :
    wp disk Conditions.Fine (copyLoop src dst turns offset) (fun result t' =>
      result = 0 ∧ t'.at? = Function.update t.at? (name :: dir) (some (.file s))) t := by
  induction turns generalizing offset t with
  | zero => omega
  | succ turns ih =>
      simp only [copyLoop, perform_bind, pure_eq_ret]
      apply wp_read
      rw [Tree.read, Tree.bytes?_eq_some.mpr hsrc, Option.getD_some]
      cases hchunk : (s.drop offset).take 4096 with
      | nil =>
          have hend : s.length ≤ offset := by
            have hlength := congrArg List.length hchunk
            simp only [List.length_take, List.length_drop, List.length_nil] at hlength
            omega
          refine wp_close (wp_close ⟨rfl, ?_⟩)
          rw [List.take_of_length_le hend] at hcopied
          rw [← hcopied, Function.update_eq_self]
      | cons b more =>
          have hlength : (b :: more).length ≤ s.length - offset := by
            rw [← hchunk, List.length_take, List.length_drop]
            omega
          have hpositive : 0 < (b :: more).length := Nat.succ_pos _
          have hwrite := Tree.write_fine hname hcopied offset (b :: more)
          apply wp_write
          simp only [ne_eq, not_true_eq_false, if_false]
          rw [hdst]
          have hcontent := Tree.overwrite_take hoffset hchunk
          have hsrc' : (t.write (name :: dir) offset (b :: more)).at? (resolve src) =
              some (.file s) := by
            rw [hwrite, Function.update_of_ne hne, hsrc]
          have hcopied' : (t.write (name :: dir) offset (b :: more)).at? (name :: dir) =
              some (.file (s.take (offset + (b :: more).length))) := by
            rw [hwrite, Function.update_self, hcontent]
          refine wp_mono (ih hsrc' hcopied' (by omega) (by omega)) fun result t' h => ⟨h.1, ?_⟩
          rw [h.2, hwrite, Function.update_idem]

theorem copyFile_fine {src dst s : Bytes} {name : Bytes} {dir : Path} (hname : PlainName name)
    (hdst : resolve dst = name :: dir) (hne : resolve src ≠ name :: dir)
    (hdir : t.isDir dir = true) (hfile : t.at? (name :: dir) ≠ some .dir)
    (hsrc : t.at? (resolve src) = some (.file s)) :
    wp disk Conditions.Fine (copyFile src dst s.length) (fun result t' =>
      result = 0 ∧ t'.at? = Function.update t.at? (name :: dir) (some (.file s))) t := by
  obtain ⟨hopen, hopened⟩ := Tree.openTrunc_fine hname hdir hfile
  simp only [copyFile, perform_bind, pure_eq_ret]
  apply wp_openRead
  rw [Tree.bytes?_eq_some.mpr hsrc]
  apply wp_openTrunc
  rw [hdst, hopen]
  have hcopied : (t.openTrunc (name :: dir)).2.at? (name :: dir) = some (.file (s.take 0)) := by
    rw [hopened, Function.update_self, List.take_zero]
  refine wp_mono (copyLoop_fine hname hdst hne ?_ hcopied (Nat.zero_le _) (by omega))
    fun result t' h => ⟨h.1, ?_⟩
  · rw [hopened, Function.update_of_ne hne, hsrc]
  · rw [h.2, hopened, Function.update_idem]

/-! ## The content alone -/

/-- `restore_version` fails, or leaves a content of the size it returns. -/
theorem restoreVersion_content (hok : Writable t) (hf : StorageName f) (k : ℤ) :
    wp disk Conditions.Fine (restoreVersion f k) (fun result t' =>
      (result < 0 ∧ t'.at? (f :: storagePath) = t.at? (f :: storagePath)) ∨
      ∃ bytes, result = bytes.length ∧ t'.at? (f :: storagePath) = some (.file bytes)) t := by
  obtain ⟨entry, hpath⟩ : ∃ entry, resolve (versionPath 256 f k) = entry :: f :: versionsPath := by
    rw [resolve_versionPath_entry hf.short le_rfl, resolve_versionDirPath hf]
    exact ⟨_, rfl⟩
  simp only [restoreVersion, perform_bind, pure_eq_ret]
  apply wp_stat
  cases hstat : t.stat (resolve (versionPath 256 f k)) with
  | none => exact Or.inl ⟨by norm_num, rfl⟩
  | some size =>
      dsimp only
      rw [wp_bind]
      cases hsrc : t.bytes? (resolve (versionPath 256 f k)) with
      | none =>
          -- a directory: `stat` finds it, and it cannot be opened as a file
          simp only [copyFile, perform_bind, pure_eq_ret]
          apply wp_openRead
          rw [hsrc]
          exact Or.inl ⟨by norm_num, rfl⟩
      | some bytes =>
          have hfile := Tree.bytes?_eq_some.mp hsrc
          have hplain : PlainName entry := Tree.plainName_of_at? (t := t) (by
            rw [← hpath, hfile]
            rfl)
          have hsize : size = bytes.length := by
            rw [hpath] at hstat hfile
            exact Option.some.inj (hstat.symm.trans (Tree.stat_of_file hplain hfile))
          subst hsize
          refine wp_mono (copyFile_fine hf.toPlainName (resolve_getFilepath hf) ?_
            (Tree.isDir_of_at? hok.storage) (hok.content f hf) hfile) fun result t' hcopied => ?_
          · rw [hpath]
            simp [storagePath, versionsPath]
          · obtain ⟨rfl, hcopied⟩ := hcopied
            refine Or.inr ⟨bytes, rfl, ?_⟩
            rw [hcopied, Function.update_self]

/-- `remove_file_from_storage` fails if there is no content, and leaves none. -/
theorem removeFileFromStorage_content (hok : Writable t) (hf : StorageName f) :
    wp disk Conditions.Fine (removeFileFromStorage f) (fun result t' =>
      (result < 0 ↔ t.at? (f :: storagePath) = none) ∧ t'.at? (f :: storagePath) = none) t := by
  simp only [removeFileFromStorage, perform_bind, pure_eq_ret]
  apply wp_remove
  rw [resolve_getFilepath hf]
  cases hnode : t.at? (f :: storagePath) with
  | none =>
      rw [Tree.remove_of_none hnode]
      exact ⟨by simp, hnode⟩
  | some node =>
      cases node with
      | dir => exact absurd hnode (hok.content f hf)
      | file bytes =>
          obtain ⟨hresult, hremoved⟩ := Tree.remove_fine hnode
          rw [hresult]
          simp only [Bool.not_true, Bool.false_eq_true, if_false]
          rw [wp_bind]
          refine wp_of_run Conditions.fine_fine fun env _ => ⟨by simp, ?_⟩
          rw [removeAllVersions_writesOnly.at?_run, hremoved, Function.update_self]
          intro hplace
          rcases hf.versionsPlace hplace with h | ⟨entry, h⟩ <;>
            simpa [storagePath, versionsPath] using congrArg List.length h

/-! ## Starting the server -/

/-- One turn of the loop of `init_storage`: afterwards the directory is there. -/
theorem makeDirs_cons_fine {path name : Bytes} {dir : Path} {rest : List Bytes} {Q : ℤ → Tree → Prop}
    (hname : PlainName name) (hpath : resolve path = name :: dir) (hdir : t.isDir dir = true)
    (hat : t.at? (name :: dir) = none ∨ t.at? (name :: dir) = some .dir)
    (hrest : ∀ t' : Tree, t'.at? = Function.update t.at? (name :: dir) (some .dir) →
      wp disk Conditions.Fine (makeDirs rest) Q t') :
    wp disk Conditions.Fine (makeDirs (path :: rest)) Q t := by
  simp only [makeDirs, perform_bind]
  apply wp_stat
  rw [hpath]
  rcases hat with hnone | hat
  · obtain ⟨hmade, hmkdir⟩ := Tree.mkdir_fine hname hdir hnone
    rw [Tree.stat_of_none hname hnone]
    apply wp_mkdir
    rw [hpath, hmade]
    exact hrest _ hmkdir
  · rw [Tree.stat_of_dir hat]
    apply hrest t
    rw [← hat, Function.update_eq_self]

/-- `init_storage` makes the two directories, and keeps what is there. -/
theorem initStorage_fine
    (hstorage : t.at? storagePath = none ∨ t.at? storagePath = some .dir)
    (hversions : t.at? versionsPath = none ∨ t.at? versionsPath = some .dir) :
    wp disk Conditions.Fine initStorage (fun result t' => result = 0 ∧
      t'.at? = Function.update (Function.update t.at? storagePath (some .dir)) versionsPath
        (some .dir)) t := by
  have hne : versionsPath ≠ storagePath := by simp [versionsPath, storagePath]
  refine makeDirs_cons_fine (by decide : PlainName (text "storage")) resolve_storageDir rfl hstorage
    fun t₁ h₁ => ?_
  have hdir : t₁.at? storagePath = some .dir := by rw [h₁, storagePath, Function.update_self]
  refine makeDirs_cons_fine (by decide : PlainName (text ".versions")) resolve_versionDir
    (Tree.isDir_of_at? hdir) ?_ fun t₂ h₂ => ⟨rfl, ?_⟩
  · rw [h₁]
    exact (Function.update_of_ne hne _ _).symm ▸ hversions
  · rw [h₂, h₁]
    rfl

/-- The storage of a server started for the first time. -/
theorem freshWorld_at? :
    freshWorld.tree.at? = Function.update (Function.update (fun _ => none) storagePath (some .dir))
      versionsPath (some .dir) :=
  (wp_run (initStorage_fine (Or.inl rfl) (Or.inl rfl)) fun _ => Conditions.fine_fine).2

theorem freshWorld_at?_of_place (hf : StorageName f) {p : Path} (hp : Place f p) :
    freshWorld.tree.at? p = none := by
  have hstorage : p ≠ storagePath := fun h => place_ne_storage (h ▸ hp)
  have hversions : p ≠ versionsPath := fun h => place_ne_versions hf (h ▸ hp)
  rw [freshWorld_at?, Function.update_of_ne hversions, Function.update_of_ne hstorage]

theorem freshWorld_storeOk : StoreOk freshWorld.tree where
  storage := by
    rw [freshWorld_at?, Function.update_of_ne (by simp [versionsPath, storagePath]),
      Function.update_self]
  versions := by rw [freshWorld_at?, Function.update_self]
  file := fun f hf => by
    have hnone := fun p hp => freshWorld_at?_of_place (f := f) hf (p := p) hp
    refine ⟨?_, fun bytes => ?_, fun name node h => ?_⟩
    · rw [hnone _ (Or.inl rfl)]
      simp
    · rw [hnone _ (Or.inr (Or.inl rfl))]
      simp
    · rw [hnone _ (Or.inr (Or.inr ⟨name, rfl⟩))] at h
      exact absurd h (by simp)

theorem freshWorld_content (hf : StorageName f) : content freshWorld.tree f = none := by
  rw [content_eq hf, Tree.bytes?, freshWorld_at?_of_place hf (Or.inl rfl)]

theorem freshWorld_storedVersion (hf : StorageName f) (k : ℤ) :
    storedVersion freshWorld.tree f k = none := by
  rw [storedVersion_eq hf (freshWorld_storeOk.file f hf), Tree.bytes?,
    freshWorld_at?_of_place hf (Or.inr (Or.inr ⟨_, rfl⟩))]

end CloudSync
