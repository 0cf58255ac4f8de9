import CloudSync.Names.Confinement
import CloudSync.State.Versions

/-!
# The versions `save_version` keeps

Nothing is asked of the name of the file but that it fits, and of the tree only
that the version directory holds files `v<k>` for an `int` `k`, and no more of them
than `cleanup_old_versions` has room to read.  Whatever the order it is listed in, the
numbers stored afterwards are the newest of the old ones and the new one, and
what was stored under those kept is still there (`saveVersion_keeps_newest`).  A
number beyond `int` is taken for another one (`saveVersion_beyond_int`).

For other names the content may be anywhere, but never where a version is
written (`content_ne_entry`).
-/

namespace CloudSync

open CText Calls Calls.Prog Files ExchangeSort Retention

variable {f : Bytes} {t t' : Tree} {n k : ℤ}

/-! ## The two halves of `save_version` -/

/-- The directory after version `n` has been written. -/
theorem numbersIn_update {dir : Path} {bytes : Bytes}
    (h : t'.at? = Function.update t.at? (versionName n :: dir) (some (.file bytes))) :
    numbersIn t' dir = insert n (numbersIn t dir) := by
  ext k
  rw [Set.mem_insert_iff, numbersIn, numbersIn, Set.mem_ofPred_eq, Set.mem_ofPred_eq, h]
  by_cases hk : k = n
  · rw [hk, Function.update_self]
    simp
  · rw [Function.update_of_ne fun hp => hk (versionName_injective (List.cons.inj hp).1)]
    simp [hk]

theorem OnlyVersions.update {dir : Path} {bytes : Bytes} (hentries : OnlyVersions t dir)
    (hn : InInt n)
    (h : t'.at? = Function.update t.at? (versionName n :: dir) (some (.file bytes))) :
    OnlyVersions t' dir := by
  intro name node hnode
  rw [h] at hnode
  by_cases hname : name = versionName n
  · rw [hname, Function.update_self] at hnode
    exact ⟨n, bytes, hn, hname, (Option.some.inj hnode).symm⟩
  · rw [Function.update_of_ne fun hp => hname (List.cons.inj hp).1] at hnode
    exact hentries name node hnode

/-- There are no more numbers than entries. -/
theorem OnlyVersions.encard_le {dir : Path} (hentries : OnlyVersions t dir) {count : ℕ}
    (hfew : (t.children dir).length ≤ count) : (numbersIn t dir).encard ≤ count := by
  have himage : versionName '' numbersIn t dir ⊆ {name | name ∈ t.children dir} := by
    rintro _ ⟨k, hk, rfl⟩
    exact hentries.mem_children.mpr ⟨k, hk, rfl⟩
  rw [← versionName_injective.encard_image]
  refine (Set.encard_le_encard himage).trans ?_
  rw [encard_setOf_mem Tree.nodup_children]
  exact_mod_cast hfew

section Directory

variable (hf : f.length < maxFilename)
  (hdir : t.isDir (resolve (versionDirPath f)) = true)
  (hentries : OnlyVersions t (resolve (versionDirPath f)))

include hf hdir

omit hf in
theorem ensureVersionDir_present :
    wp disk Conditions.Fine (ensureVersionDir f) (fun result t' => result = 0 ∧ t' = t) t := by
  simp only [ensureVersionDir, perform_bind, pure_eq_ret]
  apply wp_stat
  rw [Tree.stat, if_pos hdir]
  exact ⟨rfl, rfl⟩

include hentries

open Classical in
/-- `cleanup_old_versions` removes the versions that are not among the newest. -/
theorem cleanupOldVersions_fine
    (hfew : (numbersIn t (resolve (versionDirPath f))).encard ≤ 256) (keep : ℕ) :
    wp disk Conditions.Fine (cleanupOldVersions f keep) (fun _ t' => ∀ k,
      t'.at? (versionName k :: resolve (versionDirPath f)) =
        if k ∈ newest keep (numbersIn t (resolve (versionDirPath f))) then
          t.at? (versionName k :: resolve (versionDirPath f))
        else none) t := by
  simp only [cleanupOldVersions, perform_bind, pure_eq_ret]
  refine wp_readdir (fun hnodir => ?_) fun _ names hnames => ?_
  · rw [hdir] at hnodir
    exact Bool.noConfusion hnodir
  · obtain ⟨hnodup, hseen⟩ := hentries.listed hnames
    refine wp_mono (removeOldest_fine (fun k hk => resolve_versionPath_int hf hk (by norm_num))
      hentries hnodup (fun k hk => hseen.1 hk) keep) fun _ t' hcleaned k => ?_
    obtain ⟨-, hremoved, hkept⟩ := hcleaned
    -- the array had room for all numbers
    rw [hseen.eq_of_few hfew] at hremoved hkept
    have hread : k ∈ (versionEntries names).map (fun name => atoi (name.drop 1)) ↔
        k ∈ numbersIn t (resolve (versionDirPath f)) :=
      Set.ext_iff.mp (hseen.eq_of_few hfew) k
    split
    · next hnew => exact hkept k fun h => h.2 hnew
    · next hold =>
      by_cases hk : k ∈ numbersIn t (resolve (versionDirPath f))
      · exact hremoved k (hread.mpr hk) hold
      · rw [hkept k fun h => hk (hread.mp h.1)]
        exact Option.not_isSome_iff_eq_none.mp hk

/-- Storing a version of a content keeps the newest versions, the new one among them or
not, and changes none of the others. -/
theorem saveVersion_keeps_newest (hn : InInt n)
    (hfew : (t.children (resolve (versionDirPath f))).length ≤ 255) {c : Bytes}
    (hfile : t.isDir (resolve (getFilepath f)) = false) (hcontent : content t f = some c) :
    wp disk Conditions.Fine (saveVersion f n) (fun result t' => result = 0 ∧
      numbersIn t' (resolve (versionDirPath f)) =
        newest maxVersions (insert n (numbersIn t (resolve (versionDirPath f)))) ∧
      ∀ k ∈ numbersIn t' (resolve (versionDirPath f)),
        storedVersion t' f k = if k = n then some c else storedVersion t f k) t := by
  have hbytes := Tree.bytes?_eq_some.mp hcontent
  have hstat : t.stat (resolve (getFilepath f)) = some c.length := by
    rw [Tree.stat, hfile, ← content, hcontent]
    rfl
  simp only [saveVersion]
  rw [wp_bind]
  apply wp_mono (ensureVersionDir_present hdir)
  rintro result t₀ ⟨rfl, hsame⟩
  rw [hsame]
  simp only [lt_irrefl, if_false, perform_bind, pure_eq_ret]
  apply wp_stat
  rw [hstat]
  dsimp only
  rw [wp_bind]
  refine wp_mono (copyFile_fine (plainName_versionName n) (resolve_versionPath_int hf hn le_rfl)
    (content_ne_entry hf (plainName_versionName n)) hdir (hentries.ne_dir _) hbytes)
    fun result t₁ hcopy => ?_
  obtain ⟨rfl, hcopied⟩ := hcopy
  simp only [lt_irrefl, if_false]
  have hentries₁ := hentries.update hn hcopied
  have hnumbers₁ := numbersIn_update hcopied
  have hdir₁ := Tree.isDir_of_update hdir hcopied
  have hfew₁ : (numbersIn t₁ (resolve (versionDirPath f))).encard ≤ 256 := by
    rw [hnumbers₁]
    exact (Set.encard_insert_le _ _).trans
      ((add_le_add_left (hentries.encard_le hfew) 1).trans (by norm_num))
  rw [wp_bind]
  refine wp_mono (cleanupOldVersions_fine hf hdir₁ hentries₁ hfew₁ maxVersions)
    fun _ t' hcleaned => ?_
  rw [hnumbers₁] at hcleaned
  have hkept : numbersIn t' (resolve (versionDirPath f)) =
      newest maxVersions (insert n (numbersIn t (resolve (versionDirPath f)))) := by
    ext k
    rw [numbersIn, Set.mem_ofPred_eq, hcleaned k]
    split
    · next hnew =>
      have hstored : k ∈ numbersIn t₁ (resolve (versionDirPath f)) :=
        hnumbers₁ ▸ newest_subset hnew
      exact iff_of_true hstored hnew
    · next hold => exact iff_of_false (by simp) hold
  refine ⟨rfl, hkept, fun k hk => ?_⟩
  rw [hkept] at hk
  have hint : InInt k := hentries₁.inInt (hnumbers₁ ▸ newest_subset hk)
  rw [storedVersion, storedVersion, resolve_versionPath_int hf hint le_rfl, Tree.bytes?,
    hcleaned k, if_pos hk, hcopied]
  by_cases hkn : k = n
  · rw [hkn, Function.update_self, if_pos rfl]
  · rw [Function.update_of_ne fun hp => hkn (versionName_injective (List.cons.inj hp).1),
      if_neg hkn]
    rfl

end Directory

/-- A tree with a content of `a` and the directory of its versions. -/
def contentOnly : Tree :=
  (Tree.empty.insert (text "a") storagePath (.file (text "new")) plainName_a).insert (text "a")
    versionsPath .dir plainName_a

/-- Versions with these numbers are added. -/
def withVersions (t : Tree) (numbers : List ℤ) : Tree :=
  numbers.foldl (fun t k =>
    t.insert (versionName k) (text "a" :: versionsPath) (.file (text "old"))
      (plainName_versionName k)) t

/-- What is in the directory has been there or has been added. -/
theorem entry_withVersions {numbers : List ℤ} {name : Bytes} {node : Node}
    (hnode : (withVersions t numbers).at? (name :: text "a" :: versionsPath) = some node) :
    (∃ k ∈ numbers, name = versionName k ∧ node = .file (text "old")) ∨
      t.at? (name :: text "a" :: versionsPath) = some node := by
  induction numbers generalizing t with
  | nil => exact Or.inr hnode
  | cons k rest ih =>
      rcases ih hnode with ⟨j, hj, hentry⟩ | hbefore
      · exact Or.inl ⟨j, List.mem_cons_of_mem k hj, hentry⟩
      · by_cases hname : name = versionName k
        · subst hname
          rw [Tree.at?_insert_self, Option.some_inj] at hbefore
          exact Or.inl ⟨k, List.mem_cons_self, rfl, hbefore.symm⟩
        · rw [Tree.at?_insert_of_ne _ fun hp => hname (List.cons.inj hp).1] at hbefore
          exact Or.inr hbefore

theorem contentOnly_entry (name : Bytes) :
    contentOnly.at? (name :: text "a" :: versionsPath) = none := by
  rw [contentOnly, Tree.at?_insert_of_ne _ (by simp [versionsPath]),
    Tree.at?_insert_of_ne _ (by simp [versionsPath, storagePath])]
  simp [Tree.at?, Tree.empty]

theorem versionDirPath_a : resolve (versionDirPath (text "a")) = text "a" :: versionsPath := by
  decide

/-- Version 5 is neither the newest nor the oldest: it stays, 3 and 4 go. -/
theorem saveVersion_keeps_fifth :
    wp disk Conditions.Fine (saveVersion (text "a") 5) (fun result t' => result = 0 ∧
      numbersIn t' (resolve (versionDirPath (text "a"))) = newest maxVersions (insert 5
        (numbersIn (withVersions contentOnly [4, 9, 3, 8, 6, 7])
          (resolve (versionDirPath (text "a"))))) ∧
      ∀ k ∈ numbersIn t' (resolve (versionDirPath (text "a"))),
        storedVersion t' (text "a") k = if k = 5 then some (text "new") else
          storedVersion (withVersions contentOnly [4, 9, 3, 8, 6, 7])
            (text "a") k)
      (withVersions contentOnly [4, 9, 3, 8, 6, 7]) := by
  refine saveVersion_keeps_newest (by decide) (by decide) ?_ (by decide) (by decide) (by decide)
    (by decide)
  intro name node hnode
  rw [versionDirPath_a] at hnode
  rcases entry_withVersions hnode with ⟨k, hk, rfl, rfl⟩ | hbefore
  · have hint : ∀ k ∈ [4, 9, 3, 8, 6, 7], InInt k := by decide
    exact ⟨k, text "old", hint k hk, rfl, rfl⟩
  · rw [contentOnly_entry] at hbefore
    exact absurd hbefore (by simp)

/-- Five versions, one of them with a number that is beyond C's `int`. -/
def beyondInt : Tree := withVersions contentOnly [2, 3, 4, 5, 4294967297]

/-- `atoi` takes version 4294967297 for version 1, which is not there to be removed: with
version 6 there are six versions, and 2 is not among the newest five. -/
theorem saveVersion_beyond_int :
    (∀ name node, beyondInt.at? (name :: resolve (versionDirPath (text "a"))) = some node →
      ∃ k bytes, 1 ≤ k ∧ name = versionName k ∧ node = .file bytes) ∧
    (beyondInt.children (resolve (versionDirPath (text "a")))).length ≤ 255 ∧
    beyondInt.isDir (resolve (versionDirPath (text "a"))) = true ∧
    content beyondInt (text "a") = some (text "new") ∧
    ¬ wp disk Conditions.Fine (saveVersion (text "a") 6) (fun _ t' =>
      numbersIn t' (resolve (versionDirPath (text "a"))) = newest maxVersions
        (insert 6 (numbersIn beyondInt (resolve (versionDirPath (text "a")))))) beyondInt := by
  refine ⟨fun name node hnode => ?_, by decide +kernel, by decide +kernel, by decide +kernel,
    fun hnewest => ?_⟩
  · rw [versionDirPath_a] at hnode
    rcases entry_withVersions hnode with ⟨k, hk, rfl, rfl⟩ | hbefore
    · have hpositive : ∀ k ∈ [2, 3, 4, 5, 4294967297], (1 : ℤ) ≤ k := by decide
      exact ⟨k, text "old", hpositive k hk, rfl, rfl⟩
    · rw [contentOnly_entry] at hbefore
      exact absurd hbefore (by simp)
  · have hkept := wp_run hnewest fun _ => Conditions.fine_fine
    have hstays : (2 : ℤ) ∈ numbersIn ((saveVersion (text "a") 6).run disk
        (fun _ => Conditions.fine) beyondInt).2 (resolve (versionDirPath (text "a"))) := by
      unfold numbersIn
      rw [Set.mem_ofPred_eq]
      decide +kernel
    rw [hkept] at hstays
    have habove : (({3, 4, 5, 6, 4294967297} : Finset ℤ) : Set ℤ) ⊆ {k ∈ insert 6
        (numbersIn beyondInt (resolve (versionDirPath (text "a")))) | 2 < k} := by
      have hall : ∀ k ∈ ({3, 4, 5, 6, 4294967297} : Finset ℤ), (k = 6 ∨ (beyondInt.at?
          (versionName k :: resolve (versionDirPath (text "a")))).isSome = true) ∧ 2 < k := by
        decide +kernel
      exact fun k hk => hall k hk
    have hfive := Set.encard_le_encard habove
    rw [Set.encard_coe_eq_coe_finsetCard] at hfive
    exact absurd (hfive.trans_lt hstays.2) (by decide)

end CloudSync
