import CloudSync.State.IoFaults

/-!
# Where the old content is when calls fail

A file is backed up and then its content is replaced, by data or by a version
that is restored, and any I/O call may fail.  The file itself is no safe place for the
old content: it is emptied before anything is written to it.  The backup is none
either, for it can be left empty.  What counts are the copies that were there
before, and that neither the backup overwrites nor the cleanup removes.

`copies` are these copies and `CopyStays` says when no cleanup can remove them
all.  The replacements are safe exactly when these conditions hold
(`saveFile_keeps_iff`, `restoreVersion_keeps_iff`).
-/

namespace CloudSync

open CText Calls Calls.Prog Files Retention

/-- The old content is the content still, or a version. -/
def OldContentKept (old f : Bytes) (t : Tree) : Prop :=
  content t f = some old ∨ ∃ k, storedVersion t f k = some old

/-! ## Copies -/

section Copies

variable (old : Bytes) (n : ℤ) (possible : Prop) (entries : Set Bytes)
  (versions : ℤ → Option Bytes)

/-- The versions that hold the old content when that of the backup is empty. -/
def copies : Set ℤ := {k | Function.update versions n (some []) k = some old}

/-- A copy is not among the numbers dropped, or there are more than a cleanup can drop. -/
def CopyStays : Prop :=
  (∃ k ∈ copies old n versions, k ∉ shed maxVersions entryNumber entries) ∨
    ((256 : ℕ) : ℕ∞) < (copies old n versions).encard + maxVersions

/-- There is a copy, and one stays if the backup comes to a cleanup. -/
def CopyKept : Prop :=
  (∃ k, versions k = some old) ∧ (possible → CopyStays old n entries versions)

/-- The cleanups that drop all copies drop the target as well (`copyStays_or_iff`): it is
dropped when all entries are read, there are not enough other entries to read none with its
number, and not so many below it that too few from it on are read. -/
def GoesToo (target : ℤ) : Prop :=
  target ∈ shed maxVersions entryNumber entries ∧
    ¬ ((256 : ℕ) : ℕ∞) ≤ {name ∈ entries | entryNumber name ≠ target}.encard ∧
    ¬ ((∀ k ∈ copies old n versions, k < target) ∧ ((256 : ℕ) : ℕ∞) < entries.encard ∧
      ((256 : ℕ) : ℕ∞) ≤ {name ∈ entries | entryNumber name < target}.encard + maxVersions)

/-- The version to be restored is not there; or as long as it is there a copy is. -/
def TargetSafe (target : ℤ) : Prop :=
  ((∃ k, versions k = some old) ∨ versions target = none) ∧
    (possible → (target ≠ n ∧ versions target = none) ∨ (copies old n versions).Nonempty ∧
      (CopyStays old n entries versions ∨ target ∈ copies old n versions ∨
        GoesToo old n entries versions target))

variable {old n possible entries versions} {versions' : ℤ → Option Bytes} {target : ℤ}

/-- However much of the content the backup holds, the copies are copies. -/
theorem of_mem_copies {k : ℤ} (hk : k ∈ copies old n versions) (count : ℕ) :
    Function.update versions n (some (old.take count)) k = some old := by
  have hcopy : Function.update versions n (some []) k = some old := hk
  by_cases hkn : k = n
  · rw [hkn, Function.update_self, Option.some_inj] at hcopy
    rw [hkn, Function.update_self, ← hcopy, List.take_nil]
  · rw [Function.update_of_ne hkn] at hcopy ⊢
    exact hcopy

theorem update_eq_none (part : Bytes) : Function.update versions n (some part) target = none ↔
    target ≠ n ∧ versions target = none := by
  by_cases htarget : target = n
  · simp [htarget]
  · rw [Function.update_of_ne htarget]
    exact (and_iff_right htarget).symm

theorem without_eq_some {gone : Set ℤ} {k : ℤ} {bytes : Bytes} :
    without gone versions k = some bytes ↔ versions k = some bytes ∧ k ∉ gone := by
  unfold without
  split
  · next hgone => exact iff_of_false (by simp) fun h => h.2 hgone
  · next hkept => exact (and_iff_left hkept).symm

theorem without_eq_none {gone : Set ℤ} {k : ℤ} :
    without gone versions k = none ↔ versions k = none ∨ k ∈ gone := by
  unfold without
  split
  · next hgone => exact iff_of_true rfl (Or.inr hgone)
  · next hkept => exact (or_iff_left hkept).symm

/-- No copy is left exactly if all of them are gone. -/
theorem not_exists_without_iff {gone : Set ℤ} :
    (¬ ∃ k, without gone (Function.update versions n (some [])) k = some old) ↔
      copies old n versions ⊆ gone := by
  simp only [without_eq_some, not_exists, not_and, not_not]
  rfl

theorem not_copyStays_iff : ¬ CopyStays old n entries versions ↔
    (copies old n versions).encard + maxVersions ≤ (256 : ℕ) ∧
      copies old n versions ⊆ shed maxVersions entryNumber entries := by
  rw [CopyStays, not_or, not_lt, and_comm, not_exists]
  exact and_congr_right fun _ => forall_congr' fun k => by rw [not_and, not_not]

/-- A copy stays whatever part of the entries the cleanup reads. -/
theorem copyStays_iff : CopyStays old n entries versions ↔ ∀ seen, Seen 256 entries seen →
    ∃ k, without (shed maxVersions entryNumber seen) (Function.update versions n (some [])) k =
      some old := by
  rw [← not_iff_not, not_copyStays_iff,
    ← exists_seen_shed_iff (show maxVersions ≤ 256 by decide)]
  simp only [not_forall, exists_prop, not_exists_without_iff]

/-- A copy stays as long as the target does, whatever part of the entries the cleanup reads. -/
theorem copyStays_or_iff (hthere : ¬ (target ≠ n ∧ versions target = none)) :
    (CopyStays old n entries versions ∨ target ∈ copies old n versions ∨
        GoesToo old n entries versions target) ↔
      ∀ seen, Seen 256 entries seen →
        (∃ k, without (shed maxVersions entryNumber seen) (Function.update versions n (some [])) k =
            some old) ∨
          without (shed maxVersions entryNumber seen) (Function.update versions n (some []))
            target = none := by
  have hgoes : ¬ GoesToo old n entries versions target ↔
      target ∉ shed maxVersions entryNumber entries ∨
        ((256 : ℕ) : ℕ∞) ≤ {name ∈ entries | entryNumber name ≠ target}.encard ∨
        (∀ k ∈ copies old n versions, k < target) ∧ ((256 : ℕ) : ℕ∞) < entries.encard ∧
          ((256 : ℕ) : ℕ∞) ≤ {name ∈ entries | entryNumber name < target}.encard + maxVersions := by
    rw [GoesToo, not_and_or, not_and_or, not_not, not_not]
  rw [← not_iff_not, not_or, not_copyStays_iff, not_or, hgoes,
    ← exists_seen_shed_but_iff (show maxVersions ≤ 256 by decide)]
  rw [← update_eq_none []] at hthere
  simp only [not_forall, exists_prop, not_or, not_exists_without_iff, without_eq_none, hthere,
    not_false_eq_true, true_and]

/-- Whatever a backup leaves, a copy is left. -/
theorem BackupLeaves.copy (hkept : CopyKept old n possible entries versions)
    (h : BackupLeaves old n possible entries versions versions') :
    ∃ k, versions' k = some old := by
  obtain ⟨hbefore, hstays⟩ := hkept
  cases h with
  | nothing => exact hbefore
  | cut hpossible count =>
      obtain ⟨seen, hseen⟩ := exists_seen 256 entries
      obtain ⟨k, hk⟩ := copyStays_iff.mp (hstays hpossible) seen hseen
      exact ⟨k, of_mem_copies (without_eq_some.mp hk).1 count⟩
  | cleaned hpossible count seen hseen =>
      obtain ⟨k, hk⟩ := copyStays_iff.mp (hstays hpossible) seen hseen
      obtain ⟨hcopy, hstay⟩ := without_eq_some.mp hk
      exact ⟨k, without_eq_some.mpr ⟨of_mem_copies hcopy count, hstay⟩⟩

/-- Whatever a backup leaves, a copy is left or the target is gone. -/
theorem BackupLeaves.copy_or (hsafe : TargetSafe old n possible entries versions target)
    (h : BackupLeaves old n possible entries versions versions') :
    (∃ k, versions' k = some old) ∨ versions' target = none := by
  obtain ⟨hbefore, hafter⟩ := hsafe
  cases h with
  | nothing => exact hbefore
  | cut hpossible count =>
      rcases hafter hpossible with hmissing | ⟨⟨k, hk⟩, -⟩
      · exact Or.inr ((update_eq_none _).mpr hmissing)
      · exact Or.inl ⟨k, of_mem_copies hk count⟩
  | cleaned hpossible count seen hseen =>
      by_cases hmissing : target ≠ n ∧ versions target = none
      · exact Or.inr (without_eq_none.mpr (Or.inl ((update_eq_none _).mpr hmissing)))
      · obtain ⟨-, hstays⟩ := (hafter hpossible).resolve_left hmissing
        rcases (copyStays_or_iff hmissing).mp hstays seen hseen with ⟨k, hk⟩ | hgone
        · obtain ⟨hcopy, hstay⟩ := without_eq_some.mp hk
          exact Or.inl ⟨k, without_eq_some.mpr ⟨of_mem_copies hcopy count, hstay⟩⟩
        · right
          rw [without_eq_none, update_eq_none] at hgone ⊢
          exact hgone

end Copies

/-! ## Replacing the content -/

section Replace

variable {f old data : Bytes} {t t₁ : Tree} {n target : ℤ} {versions' : ℤ → Option Bytes}
  (hf : f.length < maxFilename) (hn : InInt n) (hfiled : t.Filed)
  (hcontent : content t f = some old)

/-- Data that are not the old content can replace it. -/
theorem copy_of_saveFile (hf : f.length < maxFilename) (h₁ : Views t f (some old) versions' t₁)
    (hdiffer : ¬ (old = [] ∧ data = []))
    (h : wpWith disk IoFaults (saveFile f data) (fun _ => OldContentKept old f) t₁ ∧ t₁.Filed) :
    ∃ k, versions' k = some old := by
  obtain ⟨⟨_, t₂, hempty, h₂⟩, _, t₃, hdata, h₃⟩ := saveFile_outcomes hf h.2 h₁.content h.1
  rw [h₁.versions] at h₂ h₃
  by_cases hold : old = []
  · rcases hdata with hsame | hcopy
    · rw [h₃.content, Option.some_inj] at hsame
      exact absurd ⟨hold, hsame.trans hold⟩ hdiffer
    · rwa [h₃.versions] at hcopy
  · rcases hempty with hsame | hcopy
    · rw [h₂.content, Option.some_inj] at hsame
      exact absurd hsame.symm hold
    · rwa [h₂.versions] at hcopy

/-- A version that is there can replace the content, and be cut short. -/
theorem copy_of_restoreVersion (hf : f.length < maxFilename)
    (h₁ : Views t f (some old) versions' t₁)
    (h : wpWith disk IoFaults (restoreVersion f target) (fun _ => OldContentKept old f) t₁ ∧
      t₁.Filed) :
    (∃ k, versions' k = some old) ∨ versions' target = none := by
  cases htarget : versions' target with
  | none => exact Or.inr rfl
  | some bytes =>
      left
      have hstored : storedVersion t₁ f target = some bytes := by rw [h₁.versions, htarget]
      obtain ⟨⟨_, t₂, hempty, h₂⟩, _, t₃, hrestored, h₃⟩ :=
        restoreVersion_outcomes hf h.2 h₁.content hstored h.1
      rw [h₁.versions] at h₂ h₃
      by_cases hold : old = []
      · rcases hrestored with hsame | hcopy
        · rw [h₃.content] at hsame
          exact ⟨target, htarget.trans hsame⟩
        · rwa [h₃.versions] at hcopy
      · rcases hempty with hsame | hcopy
        · rw [h₂.content, Option.some_inj] at hsame
          exact absurd hsame.symm hold
        · rwa [h₂.versions] at hcopy

include hf hn hfiled hcontent

/-- After a backup and a `save_file`, the old content is there whatever fails if and only if
there is nothing to lose or a copy is kept. -/
theorem saveFile_keeps_iff :
    wpWith disk IoFaults (saveVersion f n) (fun _ =>
        wpWith disk IoFaults (saveFile f data) fun _ => OldContentKept old f) t ↔
      old = [] ∧ data = [] ∨
        CopyKept old n (CanBackUp t f n) (backupEntries t f n) (storedVersion t f) := by
  constructor
  · intro h
    by_cases hdiffer : old = [] ∧ data = []
    · exact Or.inl hdiffer
    obtain ⟨hnothing, hbackup⟩ := saveVersion_outcomes hf hn hcontent (hfiled.wpWith h)
    refine Or.inr ⟨copy_of_saveFile hf (hcontent ▸ views_self) hdiffer hnothing, fun hpossible => ?_⟩
    refine copyStays_iff.mpr fun seen hseen => ?_
    obtain ⟨t₁, hsave, h₁⟩ := (hbackup hpossible).2 seen hseen
    exact copy_of_saveFile hf h₁ hdiffer hsave
  · intro hsafe
    refine wpWith_mono (saveVersion_cut hf hn hcontent) fun _ t₁ h => ?_
    obtain ⟨versions', hbackup, h₁⟩ := h
    rcases hsafe with ⟨rfl, rfl⟩ | hkept
    · exact wpWith_mono (saveFile_nil h₁.content) fun _ _ => Or.inl
    · obtain ⟨k, hk⟩ := hbackup.copy hkept
      refine wpWith_mono (versions_of_writesContent hf (saveFile_writesOnly data)) fun _ t₂ h => ?_
      exact Or.inr ⟨k, by rw [h, h₁.versions, hk]⟩

/-- After a backup and a `restore_version`, the old content is there whatever fails if and
only if the target is safe to restore. -/
theorem restoreVersion_keeps_iff
    (hfile : t.isDir (resolve (versionPath 256 f target)) = false) :
    wpWith disk IoFaults (saveVersion f n) (fun _ =>
        wpWith disk IoFaults (restoreVersion f target) fun _ => OldContentKept old f) t ↔
      TargetSafe old n (CanBackUp t f n) (backupEntries t f n) (storedVersion t f) target := by
  constructor
  · intro h
    obtain ⟨hnothing, hbackup⟩ := saveVersion_outcomes hf hn hcontent (hfiled.wpWith h)
    refine ⟨copy_of_restoreVersion hf (hcontent ▸ views_self) hnothing, fun hpossible => ?_⟩
    obtain ⟨hbroken, hcleaned⟩ := hbackup hpossible
    by_cases hmissing : target ≠ n ∧ storedVersion t f target = none
    · exact Or.inl hmissing
    refine Or.inr ⟨?_, (copyStays_or_iff hmissing).mpr fun seen hseen => ?_⟩
    · by_cases hold : old = []
      · exact ⟨n, by rw [copies, Set.mem_ofPred_eq, Function.update_self, hold]⟩
      · obtain ⟨t₁, hrestore, h₁⟩ := hbroken hold
        refine (copy_of_restoreVersion hf h₁ hrestore).resolve_right ?_
        rwa [update_eq_none]
    · obtain ⟨t₁, hrestore, h₁⟩ := hcleaned seen hseen
      exact copy_of_restoreVersion hf h₁ hrestore
  · intro hsafe
    refine wpWith_mono (saveVersion_cut hf hn hcontent) fun _ t₁ h => ?_
    obtain ⟨versions', hbackup, h₁⟩ := h
    rcases hbackup.copy_or hsafe with ⟨k, hk⟩ | hgone
    · refine wpWith_mono (versions_of_writesContent hf (restoreVersion_writesOnly target))
        fun _ t₂ h => ?_
      exact Or.inr ⟨k, by rw [h, h₁.versions, hk]⟩
    · refine wpWith_mono (restoreVersion_missing (h₁.versions ▸ hgone) (h₁.files _ hfile))
        fun _ t₂ h => ?_
      exact Or.inl (h ▸ h₁.content)

end Replace

end CloudSync
