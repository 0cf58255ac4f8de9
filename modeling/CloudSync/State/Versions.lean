import CloudSync.State.Disk
import CloudSync.Lib.Retention

/-!
# Version history when nothing goes wrong

`save_version` stores the content under the current number and then drops the
oldest versions: it sorts the numbers it reads off the names of the directory,
and `cleanupOldVersions_leaves` says with `Retention.newest` what is kept.
`backedUp` is the effect on the versions as a function; restoring and deleting a
version and removing a file are described likewise.
-/

namespace CloudSync

open CText Calls Calls.Prog Files ExchangeSort Retention

variable {f : Bytes} {t t' : Tree} {k : ℤ}

/-! ## The version directory -/

theorem ensureVersionDir_fine (hok : StoreOk t) (hf : StorageName f) :
    wp disk Conditions.Fine (ensureVersionDir f) (fun result t' =>
      result = 0 ∧ t'.at? = Function.update t.at? (f :: versionsPath) (some .dir)) t := by
  simp only [ensureVersionDir, perform_bind, pure_eq_ret]
  apply wp_stat
  rw [resolve_versionDirPath hf]
  rcases (hok.file f hf).dir_cases with hnone | hdir
  · obtain ⟨hmade, hmkdir⟩ := Tree.mkdir_fine hf.toPlainName (Tree.isDir_of_at? hok.versions) hnone
    rw [Tree.stat_of_none hf.toPlainName hnone]
    apply wp_mkdir
    rw [resolve_versionDirPath hf, hmade]
    exact ⟨rfl, hmkdir⟩
  · rw [Tree.stat_of_dir hdir]
    refine ⟨rfl, ?_⟩
    rw [← hdir, Function.update_eq_self]

/-! ## Retention -/

/-- Removing a list of versions, `dir` being where their paths lead. -/
theorem removeVersions_fine {dir : Path}
    (hpath : ∀ k, InInt k → resolve (versionPath 512 f k) = versionName k :: dir)
    {versions : List ℤ} (hversions : ∀ k ∈ versions, InInt k) {t : Tree}
    (hfiles : ∀ k, t.at? (versionName k :: dir) ≠ some .dir) :
    wp disk Conditions.Fine (removeVersions f versions) (fun _ t' =>
      (∀ p, (∀ k, p ≠ versionName k :: dir) → t'.at? p = t.at? p) ∧
      ∀ k, t'.at? (versionName k :: dir) =
        if k ∈ versions then none else t.at? (versionName k :: dir)) t := by
  induction versions generalizing t with
  | nil => exact ⟨fun _ _ => rfl, fun k => by simp⟩
  | cons j rest ih =>
      simp only [removeVersions, perform_bind]
      apply wp_remove
      rw [hpath j (hversions j (List.mem_cons_self ..))]
      -- whether or not there is a version `j`, it is gone afterwards
      have hremoved : (t.remove (versionName j :: dir)).2.at? =
          Function.update t.at? (versionName j :: dir) none := by
        cases hj : t.at? (versionName j :: dir) with
        | none => rw [Tree.remove_of_none hj, ← hj, Function.update_eq_self]
        | some node =>
            cases node with
            | dir => exact absurd hj (hfiles j)
            | file bytes => exact (Tree.remove_fine hj).2
      have hname : ∀ k, k ≠ j → versionName k :: dir ≠ versionName j :: dir :=
        fun k hk h => hk (versionName_injective (List.cons.inj h).1)
      refine wp_mono (ih (fun k hk => hversions k (List.mem_cons_of_mem _ hk)) fun k => ?_)
        fun _ t' h => ⟨fun p hp => ?_, fun k => ?_⟩
      · rw [hremoved]
        by_cases hk : k = j
        · rw [hk, Function.update_self]
          simp
        · rw [Function.update_of_ne (hname k hk)]
          exact hfiles k
      · rw [h.1 p hp, hremoved, Function.update_of_ne (hp j)]
      · rw [h.2 k, hremoved]
        by_cases hk : k = j
        · rw [hk, Function.update_self]
          simp
        · rw [Function.update_of_ne (hname k hk)]
          simp [hk]

/-- The numbers `cleanup_old_versions` reads off a listing of a directory: those of all
its versions, if its array has room for them. -/
theorem OnlyVersions.listed {dir : Path} (hentries : OnlyVersions t dir) {names : List Bytes}
    (hnames : names.Perm (dot :: dotDot :: t.children dir)) :
    ((versionEntries names).map fun name => atoi (name.drop 1)).Nodup ∧
      Seen 256 (numbersIn t dir)
        {k | k ∈ (versionEntries names).map fun name => atoi (name.drop 1)} := by
  -- the filter drops `.` and `..` and nothing else
  have hfilter : (names.filter fun name => name.head? == some 118).Perm (t.children dir) := by
    refine (hnames.filter _).trans ?_
    rw [List.filter_cons_of_neg (by decide), List.filter_cons_of_neg (by decide),
      List.filter_eq_self.mpr]
    intro name hname
    obtain ⟨k, -, rfl⟩ := hentries.mem_children.mp hname
    rfl
  have hall : ∀ name ∈ names.filter fun name => name.head? == some 118,
      ∃ k ∈ numbersIn t dir, name = versionName k :=
    fun name hname => hentries.mem_children.mp (hfilter.mem_iff.mp hname)
  -- no number is read twice
  have hnodup : ((names.filter fun name => name.head? == some 118).map
      fun name => atoi (name.drop 1)).Nodup := by
    refine List.Nodup.map_on ?_ (hfilter.nodup_iff.mpr Tree.nodup_children)
    intro a ha b hb hab
    obtain ⟨j, hj, rfl⟩ := hall a ha
    obtain ⟨k, hk, rfl⟩ := hall b hb
    rw [atoi_versionName (hentries.inInt hj), atoi_versionName (hentries.inInt hk)] at hab
    rw [hab]
  have hnumbers : numbersIn t dir =
      {k | k ∈ (names.filter fun name => name.head? == some 118).map
        fun name => atoi (name.drop 1)} := by
    ext k
    rw [Set.mem_ofPred_eq, List.mem_map]
    constructor
    · intro hk
      exact ⟨versionName k, hfilter.mem_iff.mpr (hentries.mem_children.mpr ⟨k, hk, rfl⟩),
        atoi_versionName (hentries.inInt hk)⟩
    · rintro ⟨name, hname, rfl⟩
      obtain ⟨j, hj, rfl⟩ := hall name hname
      rwa [atoi_versionName (hentries.inInt hj)]
  rw [versionEntries, List.map_take, hnumbers]
  generalize (names.filter fun name => name.head? == some 118).map (fun name => atoi (name.drop 1))
    = numbers at hnodup
  have hpart := hnodup.sublist (List.take_sublist 256 numbers)
  refine ⟨hpart, fun k hk => List.mem_of_mem_take hk, ?_⟩
  rw [encard_setOf_mem hpart, encard_setOf_mem hnodup, List.length_take, min_comm]
  exact Nat.mono_cast.map_min

theorem listed_versions (hok : FileOk t f) {names : List Bytes}
    (hnames : names.Perm (dot :: dotDot :: t.children (f :: versionsPath))) :
    ((versionEntries names).map fun name => atoi (name.drop 1)).Nodup ∧
      Seen 256 (stored t f)
        {k | k ∈ (versionEntries names).map fun name => atoi (name.drop 1)} :=
  hok.onlyVersions.listed hnames

/-- The loops of `cleanup_old_versions` on the numbers it has read. -/
theorem removeOldest_fine {dir : Path}
    (hpath : ∀ k, InInt k → resolve (versionPath 512 f k) = versionName k :: dir)
    (hentries : OnlyVersions t dir) {versions : List ℤ} (hnodup : versions.Nodup)
    (hin : ∀ k ∈ versions, k ∈ numbersIn t dir) (keep : ℕ) :
    wp disk Conditions.Fine (if versions.length ≤ keep then ret 0 else
      removeVersions f ((exchangeSort (fun a b => decide (b < a)) versions).take
        (versions.length - keep)) >>= fun _ => ret ((versions.length - keep : ℕ) : ℤ))
      (fun _ t' =>
        (∀ p, (∀ k, p ≠ versionName k :: dir) → t'.at? p = t.at? p) ∧
        (∀ k, k ∈ versions → k ∉ newest keep {k | k ∈ versions} →
          t'.at? (versionName k :: dir) = none) ∧
        ∀ k, ¬ (k ∈ versions ∧ k ∉ newest keep {k | k ∈ versions}) →
          t'.at? (versionName k :: dir) = t.at? (versionName k :: dir)) t := by
  split
  · next hshort =>
    have hall : newest keep {k | k ∈ versions} = {k | k ∈ versions} := by
      apply newest_eq_self
      rw [encard_setOf_mem hnodup]
      exact_mod_cast hshort
    refine ⟨fun _ _ => rfl, fun k hk hold => ?_, fun _ _ => rfl⟩
    rw [hall] at hold
    exact absurd hk hold
  · have hperm := exchangeSort_perm (fun a b : ℤ => decide (b < a)) versions
    have hremove : ∀ k, k ∈ (exchangeSort (fun a b => decide (b < a)) versions).take
        (versions.length - keep) ↔ k ∈ versions ∧ k ∉ newest keep {k | k ∈ versions} := by
      intro k
      have hsorted : {k | k ∈ exchangeSort (fun a b : ℤ => decide (b < a)) versions} =
          {k | k ∈ versions} := by
        ext k
        exact hperm.mem_iff
      rw [← hperm.length_eq, mem_take_iff_not_newest (exchangeSort_lt hnodup), hsorted,
        hperm.mem_iff]
    rw [wp_bind]
    refine wp_mono (removeVersions_fine hpath (fun k hk => ?_) fun k hk => ?_) fun _ t' h => ?_
    · exact hentries.inInt (hin k ((hremove k).mp hk).1)
    · exact hentries.ne_dir _ hk
    · refine ⟨h.1, fun k hk hold => ?_, fun k hkept => ?_⟩
      · rw [h.2 k, if_pos ((hremove k).mpr ⟨hk, hold⟩)]
      · rw [h.2 k, if_neg fun hk => hkept ((hremove k).mp hk)]

/-! ## Backing up, restoring, removing -/

/-- What `save_version` leaves of the versions: `v<n>` holds the content, and the
newest versions are kept. -/
noncomputable def backedUp (content : Option Bytes) (n : ℤ) (versions : ℤ → Option Bytes) :
    ℤ → Option Bytes :=
  match content with
  | none => versions
  | some bytes => fun k =>
      open Classical in
      if k ∈ newest maxVersions {j | (Function.update versions n (some bytes) j).isSome} then
        Function.update versions n (some bytes) k
      else none

theorem backedUp_of_some (bytes : Bytes) (n : ℤ) (versions : ℤ → Option Bytes) :
    {k | (backedUp (some bytes) n versions k).isSome} =
      newest maxVersions {k | (Function.update versions n (some bytes) k).isSome} := by
  ext k
  simp only [backedUp, Set.mem_ofPred_eq]
  split
  · next hk =>
    have hsome : k ∈ {j | (Function.update versions n (some bytes) j).isSome} := newest_subset hk
    exact iff_of_true hsome hk
  · next hk => exact iff_of_false (by simp) hk

/-- What is stored after a backup was stored before, or is the backup. -/
theorem of_backedUp {old : Option Bytes} {n : ℤ} {versions : ℤ → Option Bytes} {bytes : Bytes}
    (h : backedUp old n versions k = some bytes) :
    versions k = some bytes ∨ k = n ∧ old = some bytes := by
  cases old with
  | none => exact Or.inl h
  | some current =>
      simp only [backedUp] at h
      split at h
      · by_cases hk : k = n
        · rw [hk, Function.update_self] at h
          exact Or.inr ⟨hk, h⟩
        · rw [Function.update_of_ne hk] at h
          exact Or.inl h
      · exact absurd h (by simp)

/-- The backup is kept when no version with a higher number is stored. -/
theorem backedUp_self {bytes : Bytes} {n : ℤ} {versions : ℤ → Option Bytes}
    (hmax : ∀ k, (versions k).isSome → k ≤ n) : backedUp (some bytes) n versions n = some bytes := by
  have hkept : n ∈ newest maxVersions {k | (Function.update versions n (some bytes) k).isSome} := by
    apply mem_newest_of_forall_le (by decide) (by simp)
    intro k hk
    by_cases hkn : k = n
    · exact hkn.le
    · rw [Set.mem_ofPred_eq, Function.update_of_ne hkn] at hk
      exact hmax k hk
  simp only [backedUp]
  rw [if_pos hkept, Function.update_self]

/-- No more than `MAX_VERSIONS` versions are stored after a backup. -/
theorem encard_backedUp_le {old : Option Bytes} {n : ℤ} {versions : ℤ → Option Bytes}
    (hfew : {k | (versions k).isSome}.encard ≤ maxVersions) :
    {k | (backedUp old n versions k).isSome}.encard ≤ maxVersions := by
  cases old with
  | none => exact hfew
  | some bytes =>
      rw [backedUp_of_some]
      exact encard_newest_le _ _

/-- Making the version directory changes no view. -/
theorem leaves_versionDir (hok : StoreOk t) (hf : StorageName f)
    (h : t'.at? = Function.update t.at? (f :: versionsPath) (some .dir)) :
    t'.at? (f :: versionsPath) = some .dir ∧
      Leaves t f (content t f) (storedVersion t f) t' := by
  have hdir : t'.at? (f :: versionsPath) = some .dir := by rw [h, Function.update_self]
  have hne : ∀ p, p ≠ f :: versionsPath → t'.at? p = t.at? p := fun p hp => by
    rw [h, Function.update_of_ne hp]
  have hentry : ∀ name, t'.at? (name :: f :: versionsPath) = t.at? (name :: f :: versionsPath) :=
    fun name => hne _ (by simp [versionsPath])
  have hfile := hok.file f hf
  refine ⟨hdir, ?_⟩
  have hleaves := leaves_versions hok hf (fun p hp _ => hne p hp) hdir
    (fun k hk => ?_) fun k hk => ?_
  · have hsame : (fun k => t'.bytes? (versionName k :: f :: versionsPath)) = storedVersion t f := by
      funext k
      rw [storedVersion_eq hf hfile]
      exact Tree.bytes?_congr (hentry _)
    rwa [hsame] at hleaves
  · rw [hentry] at hk
    exact hfile.entry_ne_dir _ hk
  · rw [stored, Set.mem_ofPred_eq, hentry] at hk
    exact hfile.inInt hk

/-- `ensure_version_dir` changes no view. -/
theorem ensureVersionDir_leaves (hok : StoreOk t) (hf : StorageName f) :
    wp disk Conditions.Fine (ensureVersionDir f) (fun result t' =>
      result = 0 ∧ t'.at? (f :: versionsPath) = some .dir ∧
        Leaves t f (content t f) (storedVersion t f) t') t :=
  wp_mono (ensureVersionDir_fine hok hf) fun _ _ hmade =>
    ⟨hmade.1, leaves_versionDir hok hf hmade.2⟩

/-- One entry of an existing version directory is written or removed. -/
theorem leaves_version (hok : StoreOk t) (hf : StorageName f) (hk : InInt k)
    (hdir : t.at? (f :: versionsPath) = some .dir) (version : Option Bytes)
    (h : t'.at? = Function.update t.at? (versionName k :: f :: versionsPath)
      (version.map Node.file)) :
    Leaves t f (content t f) (Function.update (storedVersion t f) k version) t' := by
  have hfile := hok.file f hf
  have hself : t'.at? (versionName k :: f :: versionsPath) = version.map Node.file := by
    rw [h, Function.update_self]
  have hne : ∀ p, p ≠ versionName k :: f :: versionsPath → t'.at? p = t.at? p := fun p hp => by
    rw [h, Function.update_of_ne hp]
  have hname : ∀ {j}, j ≠ k →
      versionName j :: f :: versionsPath ≠ versionName k :: f :: versionsPath :=
    fun hj h => hj (versionName_injective (List.cons.inj h).1)
  have hleaves := leaves_versions hok hf (fun p _ hp => hne p (hp k))
    ((hne _ (by simp [versionsPath])).trans hdir) (fun j hj => ?_) fun j hj => ?_
  · refine ⟨hleaves.ok, hleaves.content, ?_, hleaves.other⟩
    rw [hleaves.versions]
    funext j
    by_cases hj : j = k
    · rw [hj, Function.update_self, Tree.bytes?, hself]
      cases version <;> rfl
    · rw [Function.update_of_ne hj, storedVersion_eq hf hfile]
      exact Tree.bytes?_congr (hne _ (hname hj))
  · by_cases hjk : j = k
    · rw [hjk, hself] at hj
      cases version <;> simp at hj
    · rw [hne _ (hname hjk)] at hj
      exact hfile.entry_ne_dir _ hj
  · by_cases hjk : j = k
    · exact hjk ▸ hk
    · rw [stored, Set.mem_ofPred_eq, hne _ (hname hjk)] at hj
      exact hfile.inInt hj

/-- What a cleanup that has read the numbers `seen` leaves of the versions. -/
noncomputable def cleaned (keep : ℕ) (seen : Set ℤ) (versions : ℤ → Option Bytes) :
    ℤ → Option Bytes :=
  open Classical in
  fun k => if k ∈ seen ∧ k ∉ newest keep seen then none else versions k

open Classical in
/-- A cleanup that has read all numbers leaves the newest versions. -/
theorem cleaned_all (keep : ℕ) (versions : ℤ → Option Bytes) :
    cleaned keep {k | (versions k).isSome} versions =
      fun k => if k ∈ newest keep {k | (versions k).isSome} then versions k else none := by
  funext k
  simp only [cleaned]
  by_cases hnew : k ∈ newest keep {k | (versions k).isSome}
  · rw [if_pos hnew, if_neg fun h => h.2 hnew]
  · rw [if_neg hnew]
    split
    · rfl
    · next hkept =>
      exact Option.not_isSome_iff_eq_none.mp fun hk => hkept ⟨hk, hnew⟩

/-- The loops of `cleanup_old_versions` on the views. -/
theorem removeOldest_leaves (hok : StoreOk t) (hf : StorageName f)
    (hdir : t.at? (f :: versionsPath) = some .dir) {versions : List ℤ} (hnodup : versions.Nodup)
    (hstored : ∀ k ∈ versions, k ∈ stored t f) (keep : ℕ) :
    wp disk Conditions.Fine (if versions.length ≤ keep then ret 0 else
      removeVersions f ((exchangeSort (fun a b => decide (b < a)) versions).take
        (versions.length - keep)) >>= fun _ => ret ((versions.length - keep : ℕ) : ℤ))
      (fun _ t' => Leaves t f (content t f)
        (cleaned keep {k | k ∈ versions} (storedVersion t f)) t') t := by
  have hfile := hok.file f hf
  apply wp_mono (removeOldest_fine (fun k hk => resolve_versionPath hf hk (by norm_num))
    hfile.onlyVersions hnodup hstored keep)
  intro _ t' hcleaned
  obtain ⟨hother, hremoved, hkept⟩ := hcleaned
  have hleaves := leaves_versions hok hf (fun p _ hp => hother p hp)
    ((hother _ (by simp [versionsPath])).trans hdir) (fun k hk => ?_) fun k hk => ?_
  · refine ⟨hleaves.ok, hleaves.content, ?_, hleaves.other⟩
    rw [hleaves.versions]
    funext k
    simp only [cleaned]
    split
    · next hold => simp [Tree.bytes?, hremoved k hold.1 hold.2]
    · next hnew =>
      rw [storedVersion_eq hf hfile]
      exact Tree.bytes?_congr (hkept k hnew)
  · by_cases hold : k ∈ versions ∧ k ∉ newest keep {k | k ∈ versions}
    · rw [hremoved k hold.1 hold.2] at hk
      exact absurd hk (by simp)
    · rw [hkept k hold] at hk
      exact hfile.entry_ne_dir _ hk
  · by_cases hold : k ∈ versions ∧ k ∉ newest keep {k | k ∈ versions}
    · exact hfile.inInt (hstored k hold.1)
    · rw [stored, Set.mem_ofPred_eq, hkept k hold] at hk
      exact hfile.inInt hk

open Classical in
/-- `cleanup_old_versions` keeps the newest versions. -/
theorem cleanupOldVersions_leaves (hok : StoreOk t) (hf : StorageName f)
    (hdir : t.at? (f :: versionsPath) = some .dir) (hfew : (stored t f).encard ≤ 256)
    (keep : ℕ) :
    wp disk Conditions.Fine (cleanupOldVersions f keep) (fun _ t' =>
      Leaves t f (content t f) (fun k =>
        if k ∈ newest keep {j | (storedVersion t f j).isSome} then storedVersion t f k
        else none) t') t := by
  have hset : stored t f = {j | (storedVersion t f j).isSome} := (leaves_self hok).stored_eq hf
  simp only [cleanupOldVersions, perform_bind, pure_eq_ret]
  refine wp_readdir (fun hnodir => ?_) fun _ names hnames => ?_
  · rw [resolve_versionDirPath hf, Tree.isDir_of_at? hdir] at hnodir
    exact Bool.noConfusion hnodir
  · rw [resolve_versionDirPath hf] at hnames
    obtain ⟨hnodup, hseen⟩ := listed_versions (hok.file f hf) hnames
    have hleaves := removeOldest_leaves hok hf hdir hnodup (fun k hk => hseen.1 hk) keep
    rw [hseen.eq_of_few hfew, hset, cleaned_all] at hleaves
    exact hleaves

/-- Storing version `n` and keeping the newest. -/
theorem saveVersion_fine (hok : StoreOk t) (hf : StorageName f) {n : ℤ} (hn : InInt n)
    (hfew : (stored t f).encard ≤ 255) :
    wp disk Conditions.Fine (saveVersion f n) (fun result t' =>
      result = 0 ∧ Leaves t f (content t f)
        (backedUp (content t f) n (storedVersion t f)) t') t := by
  simp only [saveVersion]
  rw [wp_bind]
  apply wp_mono (ensureVersionDir_leaves hok hf)
  intro result t₁ hmade
  obtain ⟨rfl, hdir, h₁⟩ := hmade
  have hfile₁ := h₁.ok.file f hf
  simp only [lt_irrefl, if_false, perform_bind, pure_eq_ret]
  apply wp_stat
  rw [resolve_getFilepath hf]
  cases hcontent : content t f with
  | none =>
      rw [hcontent] at h₁
      rw [Tree.stat_of_none hf.toPlainName (at?_of_content_none hf hfile₁ h₁.content)]
      exact ⟨rfl, h₁⟩
  | some bytes =>
      rw [hcontent] at h₁
      have hbytes := at?_of_content hf h₁.content
      rw [Tree.stat_of_file hf.toPlainName hbytes]
      dsimp only
      rw [wp_bind]
      refine wp_mono (copyFile_fine (plainName_versionName n) (resolve_versionPath hf hn le_rfl)
        ?_ (Tree.isDir_of_at? hdir) (hfile₁.entry_ne_dir _) ?_) fun result t₂ hcopy => ?_
      · rw [resolve_getFilepath hf]
        simp [storagePath, versionsPath]
      · rw [resolve_getFilepath hf]
        exact hbytes
      obtain ⟨rfl, hcopied⟩ := hcopy
      simp only [lt_irrefl, if_false]
      -- the copy is version `n`, and the versions before it are those of `t`
      have h₂ : Leaves t f (some bytes)
          (Function.update (storedVersion t f) n (some bytes)) t₂ := by
        have hleaves := leaves_version h₁.ok hf hn hdir (some bytes) hcopied
        rw [h₁.content, h₁.versions] at hleaves
        exact h₁.trans hleaves
      have hdir₂ : t₂.at? (f :: versionsPath) = some .dir := by
        rw [hcopied, Function.update_of_ne (by simp [versionsPath]), hdir]
      have hfew₂ : (stored t₂ f).encard ≤ 256 := by
        have hinsert : stored t₂ f ⊆ insert n (stored t f) := by
          intro j hj
          rw [mem_stored hf (h₂.ok.file f hf), h₂.versions] at hj
          by_cases hjn : j = n
          · exact Or.inl hjn
          · rw [Function.update_of_ne hjn] at hj
            exact Or.inr ((mem_stored hf (hok.file f hf)).mpr hj)
        refine (Set.encard_le_encard hinsert).trans ((Set.encard_insert_le _ _).trans ?_)
        exact (add_le_add_left hfew 1).trans (by norm_num)
      rw [wp_bind]
      refine wp_mono (cleanupOldVersions_leaves h₂.ok hf hdir₂ hfew₂ maxVersions)
        fun _ t₃ h₃ => ⟨rfl, ?_⟩
      rw [h₂.content, h₂.versions] at h₃
      exact h₂.trans h₃

/-- Restoring version `k`. -/
theorem restoreVersion_fine (hok : StoreOk t) (hf : StorageName f) (hk : InInt k) :
    wp disk Conditions.Fine (restoreVersion f k) (fun result t' =>
      (storedVersion t f k = none → result = -1 ∧ t' = t) ∧
      ∀ bytes, storedVersion t f k = some bytes →
        result = bytes.length ∧ Leaves t f (some bytes) (storedVersion t f) t') t := by
  have hfile := hok.file f hf
  have hpath := resolve_versionPath hf hk (le_refl 256)
  simp only [restoreVersion, perform_bind, pure_eq_ret]
  apply wp_stat
  rw [hpath]
  cases hversion : storedVersion t f k with
  | none =>
      rw [Tree.stat_of_none (plainName_versionName k) (at?_of_version_none hf hfile hversion)]
      exact ⟨fun _ => ⟨rfl, rfl⟩, fun _ h => absurd h (by simp)⟩
  | some bytes =>
      have hbytes := at?_of_version hf hfile hversion
      rw [Tree.stat_of_file (plainName_versionName k) hbytes]
      dsimp only
      rw [wp_bind]
      refine wp_mono (copyFile_fine hf.toPlainName (resolve_getFilepath hf) ?_
        (Tree.isDir_of_at? hok.storage) hfile.content ?_) fun result t' hcopied => ?_
      · rw [hpath]
        simp [storagePath, versionsPath]
      · rw [hpath]
        exact hbytes
      · obtain ⟨rfl, h⟩ := hcopied
        refine ⟨fun h => absurd h (by simp), fun bytes' hbytes' => ?_⟩
        obtain rfl := Option.some.inj hbytes'
        exact ⟨rfl, leaves_content hok hf h⟩

/-- Deleting version `k`. -/
theorem deleteVersion_fine (hok : StoreOk t) (hf : StorageName f) (hk : InInt k) :
    wp disk Conditions.Fine (deleteVersion f k) (fun result t' =>
      (storedVersion t f k = none → result = -1 ∧ t' = t) ∧
      ∀ bytes, storedVersion t f k = some bytes →
        result = 0 ∧ Leaves t f (content t f) (Function.update (storedVersion t f) k none) t') t := by
  have hfile := hok.file f hf
  have hpath : resolve (versionPath 512 f k) = versionName k :: f :: versionsPath :=
    resolve_versionPath hf hk (by norm_num)
  simp only [deleteVersion, perform_bind, pure_eq_ret]
  apply wp_stat
  rw [hpath]
  cases hversion : storedVersion t f k with
  | none =>
      rw [Tree.stat_of_none (plainName_versionName k) (at?_of_version_none hf hfile hversion)]
      exact ⟨fun _ => ⟨rfl, rfl⟩, fun _ h => absurd h (by simp)⟩
  | some bytes =>
      have hbytes := at?_of_version hf hfile hversion
      obtain ⟨hresult, hremoved⟩ := Tree.remove_fine hbytes
      rw [Tree.stat_of_file (plainName_versionName k) hbytes]
      apply wp_remove
      rw [hpath, hresult]
      exact ⟨fun h => absurd h (by simp), fun _ _ =>
        ⟨rfl, leaves_version hok hf hk (hfile.entry _ _ hbytes).1 none hremoved⟩⟩

/-- The loop of `remove_all_versions` removes every entry it was given. -/
theorem removeEntries_fine (hf : StorageName f) {names : List Bytes} {t : Tree}
    (hnames : ∀ name ∈ names, name = dot ∨ name = dotDot ∨
      PlainName name ∧ name.length ≤ 12)
    (hfiles : ∀ name, t.at? (name :: f :: versionsPath) ≠ some .dir) :
    wp disk Conditions.Fine (removeEntries (versionDirPath f) names) (fun _ t' =>
      (∀ p, (∀ name, p ≠ name :: f :: versionsPath) → t'.at? p = t.at? p) ∧
      ∀ name, t'.at? (name :: f :: versionsPath) =
        if name ∈ names ∧ name ≠ dot ∧ name ≠ dotDot then none
        else t.at? (name :: f :: versionsPath)) t := by
  induction names generalizing t with
  | nil => exact ⟨fun _ _ => rfl, fun name => by simp⟩
  | cons entry rest ih =>
      have hrest := fun name hname => hnames name (List.mem_cons_of_mem _ hname)
      simp only [removeEntries, perform_bind]
      split
      · next hentry =>
        obtain ⟨hplain, hshort⟩ := ((hnames entry (List.mem_cons_self ..)).resolve_left
          hentry.1).resolve_left hentry.2
        apply wp_remove
        rw [resolve_short_entry hf hplain (by norm_num) hshort]
        have hremoved : (t.remove (entry :: f :: versionsPath)).2.at? =
            Function.update t.at? (entry :: f :: versionsPath) none := by
          cases hnode : t.at? (entry :: f :: versionsPath) with
          | none => rw [Tree.remove_of_none hnode, ← hnode, Function.update_eq_self]
          | some node =>
              cases node with
              | dir => exact absurd hnode (hfiles entry)
              | file bytes => exact (Tree.remove_fine hnode).2
        have hne : ∀ {name}, name ≠ entry →
            name :: f :: versionsPath ≠ entry :: f :: versionsPath :=
          fun hname h => hname (List.cons.inj h).1
        refine wp_mono (ih hrest fun name => ?_) fun _ t' h => ⟨fun p hp => ?_, fun name => ?_⟩
        · rw [hremoved]
          by_cases hname : name = entry
          · rw [hname, Function.update_self]
            simp
          · rw [Function.update_of_ne (hne hname)]
            exact hfiles name
        · rw [h.1 p hp, hremoved, Function.update_of_ne (hp entry)]
        · rw [h.2 name, hremoved]
          by_cases hname : name = entry
          · rw [hname, Function.update_self]
            simp [hentry]
          · rw [Function.update_of_ne (hne hname)]
            simp [hname]
      · next hentry =>
        refine wp_mono (ih hrest hfiles) fun _ t' h => ⟨h.1, fun name => ?_⟩
        rw [h.2 name]
        by_cases hname : name = entry
        · subst hname
          rw [if_neg fun h => hentry h.2, if_neg fun h => hentry h.2]
        · simp [hname]

/-- `remove_all_versions` removes the version directory and everything in it. -/
theorem removeAllVersions_fine (hok : FileOk t f) (hf : StorageName f) :
    wp disk Conditions.Fine (removeAllVersions f) (fun _ t' =>
      (∀ p, p ≠ f :: versionsPath → (∀ name, p ≠ name :: f :: versionsPath) →
        t'.at? p = t.at? p) ∧
      t'.at? (f :: versionsPath) = none ∧
      ∀ name, t'.at? (name :: f :: versionsPath) = none) t := by
  simp only [removeAllVersions, perform_bind, pure_eq_ret]
  refine wp_readdir (fun hnodir => ?_) fun hisdir names hnames => ?_
  · rw [resolve_versionDirPath hf, Tree.isDir_cons hf.toPlainName, decide_eq_false_iff_not] at hnodir
    exact ⟨fun _ _ _ => rfl, hok.dir_cases.resolve_right hnodir, hok.no_entry hnodir⟩
  · rw [resolve_versionDirPath hf] at hnames
    rw [resolve_versionDirPath hf, Tree.isDir_cons hf.toPlainName, decide_eq_true_eq] at hisdir
    have hlisted : ∀ name, name ∈ names ↔ name = dot ∨ name = dotDot ∨
        (t.at? (name :: f :: versionsPath)).isSome := fun name => by
      rw [hnames.mem_iff, List.mem_cons, List.mem_cons, Tree.mem_children]
    dsimp only
    rw [wp_bind]
    refine wp_mono (removeEntries_fine hf (fun name hname => ?_) hok.entry_ne_dir)
      fun _ t₁ hemptied => ?_
    · refine ((hlisted name).mp hname).imp_right (Or.imp_right fun hsome => ?_)
      obtain ⟨node, hnode⟩ := Option.isSome_iff_exists.mp hsome
      obtain ⟨-, k, _, hk, rfl, -⟩ := hok.entry _ _ hnode
      exact ⟨plainName_versionName k, versionName_length hk⟩
    · obtain ⟨hother, hentry⟩ := hemptied
      have hempty : ∀ name, t₁.at? (name :: f :: versionsPath) = none := by
        intro name
        rw [hentry]
        split
        · rfl
        · next hleft =>
          -- what was not removed was not there: no entry is called `.` or `..`
          by_contra hsome
          have hisSome := Option.isSome_iff_ne_none.mpr hsome
          have hplain := Tree.plainName_of_at? hisSome
          exact hleft ⟨(hlisted name).mpr (Or.inr (Or.inr hisSome)), hplain.ne_dot,
            hplain.ne_dotDot⟩
      have hdir₁ : t₁.at? (f :: versionsPath) = some .dir :=
        (hother _ (by simp [versionsPath])).trans hisdir
      apply wp_rmdir
      rw [resolve_versionDirPath hf]
      have hremoved := Tree.rmdir_fine hdir₁ hempty
      refine ⟨fun p hp hp' => ?_, ?_, fun name => ?_⟩
      · rw [hremoved, Function.update_of_ne hp, hother p hp']
      · rw [hremoved, Function.update_self]
      · rw [hremoved, Function.update_of_ne (by simp), hempty]

/-- Removing a file removes its versions as well. -/
theorem removeFileFromStorage_fine (hok : StoreOk t) (hf : StorageName f) :
    wp disk Conditions.Fine (removeFileFromStorage f) (fun result t' =>
      (content t f = none → result = -1 ∧ t' = t) ∧
      ∀ bytes, content t f = some bytes → result = 0 ∧ Leaves t f none (fun _ => none) t') t := by
  have hfile := hok.file f hf
  simp only [removeFileFromStorage, perform_bind, pure_eq_ret]
  apply wp_remove
  rw [resolve_getFilepath hf]
  cases hcontent : content t f with
  | none =>
      rw [Tree.remove_of_none (at?_of_content_none hf hfile hcontent)]
      exact ⟨fun _ => ⟨rfl, rfl⟩, fun _ h => absurd h (by simp)⟩
  | some bytes =>
      have hbytes := at?_of_content hf hcontent
      obtain ⟨hresult, hremoved⟩ := Tree.remove_fine hbytes
      rw [hresult]
      simp only [Bool.not_true, Bool.false_eq_true, if_false]
      generalize (t.remove (f :: storagePath)).2 = t₁ at hremoved
      have hself : t₁.at? (f :: storagePath) = none := by rw [hremoved, Function.update_self]
      have hne : ∀ p, p ≠ f :: storagePath → t₁.at? p = t.at? p := fun p hp => by
        rw [hremoved, Function.update_of_ne hp]
      have hfile₁ : FileOk t₁ f := by
        refine ⟨by simp [hself], ?_, fun name node hnode => ?_⟩
        · rw [hne _ (by simp [storagePath, versionsPath])]
          exact hfile.dir
        · rw [hne _ (by simp [storagePath, versionsPath])] at hnode
          rw [hne _ (by simp [storagePath, versionsPath])]
          exact hfile.entry name node hnode
      rw [wp_bind]
      refine wp_mono (removeAllVersions_fine hfile₁ hf) fun _ t' hremovedAll =>
        ⟨fun h => absurd h (by simp), fun _ _ => ⟨rfl, ?_⟩⟩
      obtain ⟨hother, hdir, hentry⟩ := hremovedAll
      have hrest : ∀ p, ¬ Place f p → t'.at? p = t.at? p := fun p hp => by
        rw [hother p (fun h => hp (Or.inr (Or.inl h))) fun name h => hp (Or.inr (Or.inr ⟨name, h⟩)),
          hne p fun h => hp (Or.inl h)]
      have hgone : t'.at? (f :: storagePath) = none := by
        rw [hother _ (by simp [storagePath, versionsPath]) (by simp [storagePath, versionsPath]),
          hself]
      have hfile' : FileOk t' f :=
        ⟨by simp [hgone], by simp [hdir], fun name node hnode => by simp [hentry] at hnode⟩
      refine ⟨hok.of_frame hf hrest hfile', ?_, ?_, hrest⟩
      · rw [content_eq hf, Tree.bytes?, hgone]
      · funext k
        rw [storedVersion_eq hf hfile', Tree.bytes?, hentry]

end CloudSync
