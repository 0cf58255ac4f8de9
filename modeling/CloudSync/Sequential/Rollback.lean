import CloudSync.Sequential.Restart

/-!
# Rolling back

`ROLLBACK` saves the current content as a version before it looks for the version it
is to restore, and saving a version removes the oldest when there are too many.  So
the version asked for is restored only if it is still among the newest with the
version just saved (`rollback_iff`).

As long as the server runs a file that has no record has no content and no versions
(`Paired`), whatever numbers the versions have.
-/

namespace CloudSync

open CText Files FileState Retention

/-! ## Records and files -/

/-- A file has a record if and only if it is stored, and without a record it has no
versions. -/
structure Paired (s : FileState) : Prop where
  stored : s.record.isSome = s.content.isSome
  inactive : s.record = none → ∀ k, s.versions k = none

theorem paired_gone : Paired gone where
  stored := rfl
  inactive := fun _ _ => rfl

theorem Paired.eq_gone {s : FileState} (h : Paired s) (hnone : s.record = none) : s = gone := by
  have hcontent : s.content = none := by
    rw [← Option.not_isSome_iff_eq_none, ← h.stored, hnone]
    exact Bool.false_ne_true
  ext1
  · exact hnone
  · exact hcontent
  · exact funext (h.inactive hnone)

theorem Paired.content {s : FileState} (h : Paired s) {r : FileMetadata} (hr : s.record = some r) :
    ∃ bytes, s.content = some bytes := by
  rw [← Option.isSome_iff_exists, ← h.stored, hr]
  rfl

theorem Paired.move {s s' : FileState} (h : Paired s) (hmove : Move s s') : Paired s' := by
  cases hmove with
  | stay => exact h
  | vanish => exact paired_gone
  | backup hr => exact ⟨h.stored, fun hnone => absurd (hnone.symm.trans hr) (by simp)⟩
  | relock hr =>
      refine ⟨?_, fun hnone => absurd hnone (by simp)⟩
      rw [← h.stored, hr]
      rfl
  | create => exact ⟨rfl, fun hnone => absurd hnone (by simp)⟩
  | commit => exact ⟨rfl, fun hnone => absurd hnone (by simp)⟩
  | forget k =>
      refine ⟨h.stored, fun hnone j => ?_⟩
      by_cases hjk : j = k
      · exact hjk ▸ Function.update_self ..
      · exact (Function.update_of_ne hjk ..).trans (h.inactive hnone j)

/-- Every file is within its limits and paired with its record. -/
structure Settled (world : World) : Prop extends Sound world where
  paired : ∀ f, StorageName f → Paired (world.file f)

theorem Settled.serve {world : World} (h : Settled world) {env : ℕ → Env} {task : TaskMessage}
    (hfine : ∀ i, (env i).Fine) (hname : StorageName task.filename) :
    Settled (serve env task world).2 := by
  refine ⟨h.toSound.serve hfine hname, fun f hf => ?_⟩
  obtain ⟨clock, -, -, hat⟩ :=
    serve_refines hfine hname h.unique h.store (h.limited _ hname).inBounds
  by_cases hne : f = task.filename
  · subst hne
    rw [hat.file]
    exact (h.paired _ hname).move serve_move
  · rw [hat.file_of_ne h.store hf hne]
    exact h.paired f hf

theorem settled_run {jobs : ℕ → Job} (hfine : ∀ n i, ((jobs n).env i).Fine)
    (hnames : ∀ n, StorageName (jobs n).task.filename) (n : ℕ) :
    Settled (worldAfter jobs freshWorld n) := by
  induction n with
  | zero =>
      refine ⟨freshWorld_sound, fun f hf => ?_⟩
      show Paired (freshWorld.file f)
      rw [freshWorld_file hf]
      exact paired_gone
  | succ n ih => exact ih.serve (hfine n) (hnames n)

/-! ## What the backup leaves -/

/-- The numbers the backup of a file at version `n` keeps: the newest of `n` and those
of the stored versions. -/
def KeptNumbers (s : FileState) (n : ℤ) : Set ℤ :=
  newest maxVersions {k | k = n ∨ (s.versions k).isSome}

theorem backedUp_eq (s : FileState) (n : ℤ) (bytes : Bytes) (k : ℤ) :
    (k ∈ KeptNumbers s n → backedUp (some bytes) n s.versions k =
        if k = n then some bytes else s.versions k) ∧
      (k ∉ KeptNumbers s n → backedUp (some bytes) n s.versions k = none) := by
  simp only [KeptNumbers, ← stored_update bytes n s.versions, backedUp]
  constructor
  · intro hk
    rw [if_pos hk]
    by_cases hkn : k = n
    · rw [hkn, Function.update_self, if_pos rfl]
    · rw [Function.update_of_ne hkn, if_neg hkn]
  · intro hk
    rw [if_neg hk]

/-- The version is there after the backup if and only if its number is kept. -/
theorem isSome_backedUp (s : FileState) (n : ℤ) (bytes : Bytes) (k : ℤ) :
    (backedUp (some bytes) n s.versions k).isSome ↔ k ∈ KeptNumbers s n := by
  obtain ⟨hkept, hgone⟩ := backedUp_eq s n bytes k
  by_cases hk : k ∈ KeptNumbers s n
  · rw [hkept hk]
    refine iff_of_true ?_ hk
    split
    · rfl
    · next hkn => exact (newest_subset hk).resolve_left hkn
  · rw [hgone hk]
    exact iff_of_false Bool.false_ne_true hk

/-! ## The rollback -/

section Rollback

variable {task : TaskMessage} {clock : Clock} {s : FileState} {r : FileMetadata} {old : Bytes}

/-- A rollback that passes its checks: the version it asks for, if the backup has kept
its number, and otherwise an error. -/
theorem rollback_of_passed (hr : s.record = some r) (hallowed : ¬ NotOwner task r)
    (hfree : ¬ LockedByOther task r) (hcontent : s.content = some old) :
    (task.targetVersion ∉ KeptNumbers s r.version →
      FileState.rollback task clock s = (.error, s.backup r)) ∧
    (task.targetVersion ∈ KeptNumbers s r.version → ∃ bytes,
      (if task.targetVersion = r.version then some old else s.versions task.targetVersion) =
          some bytes ∧
        FileState.rollback task clock s = (.success, s.commit r bytes clock.write)) := by
  obtain ⟨hkept, hgone⟩ := backedUp_eq s r.version old task.targetVersion
  have hbackup : (s.backup r).versions = backedUp (some old) r.version s.versions := by
    rw [FileState.backup, hcontent]
  constructor
  · intro hnumber
    simp only [FileState.rollback, hr, if_neg hallowed, if_neg hfree, hbackup, hgone hnumber]
  · intro hnumber
    have hsome := (isSome_backedUp s r.version old _).mpr hnumber
    rw [hkept hnumber] at hsome
    obtain ⟨bytes, hbytes⟩ := Option.isSome_iff_exists.mp hsome
    refine ⟨bytes, hbytes, ?_⟩
    simp only [FileState.rollback, hr, if_neg hallowed, if_neg hfree, hbackup, hkept hnumber,
      hbytes]

end Rollback

/-- `ROLLBACK` has restored `bytes`: it returns success, the file holds them and its
size is theirs, and what was replaced is stored under the old version. -/
structure Restored (env : ℕ → Env) (task : TaskMessage) (world : World) (r : FileMetadata)
    (bytes : Bytes) : Prop where
  success : (serve env task world).1.status = .success
  content : content (serve env task world).2.tree task.filename = some bytes
  size : ∃ r' ∈ record? (serve env task world).2.metadata task.filename,
    r'.fileSize = bytes.length
  replaced : storedVersion (serve env task world).2.tree task.filename r.version =
    CloudSync.content world.tree task.filename

/-- The backup of the content under the number of the record leaves the version to be
restored as it is, and is not removed itself. -/
structure Restorable (s : FileState) (n k : ℤ) : Prop where
  kept : k ∈ KeptNumbers s n
  backup : n ∈ KeptNumbers s n
  same : k = n → s.versions n = s.content

section Runs

variable {jobs : ℕ → Job} {env : ℕ → Env} {task : TaskMessage} {r : FileMetadata} {bytes : Bytes}

/-- A stored version is restored if and only if the backup leaves it. -/
theorem rollback_iff (hfine : ∀ n i, ((jobs n).env i).Fine)
    (hnames : ∀ n, StorageName (jobs n).task.filename) (n : ℕ) (henv : ∀ i, (env i).Fine)
    (hname : StorageName task.filename) (hop : task.operation = .rollback)
    (hr : record? (worldAfter jobs freshWorld n).metadata task.filename = some r)
    (hallowed : ¬ NotOwner task r) (hfree : ¬ LockedByOther task r)
    (hlisted : storedVersion (worldAfter jobs freshWorld n).tree task.filename
      task.targetVersion = some bytes) :
    Restored env task (worldAfter jobs freshWorld n) r bytes ↔
      Restorable ((worldAfter jobs freshWorld n).file task.filename) r.version
        task.targetVersion := by
  have hsettled := settled_run hfine hnames n
  generalize worldAfter jobs freshWorld n = world at hr hlisted hsettled ⊢
  obtain ⟨old, hold⟩ := (hsettled.paired _ hname).content hr
  obtain ⟨clock, -, hstatus, hat⟩ := serve_refines henv hname hsettled.unique hsettled.store
    (hsettled.limited _ hname).inBounds
  simp only [FileState.serve, hop] at hstatus hat
  obtain ⟨hgone, hfound⟩ :=
    @rollback_of_passed task clock (world.file task.filename) r old hr hallowed hfree hold
  by_cases hkept : task.targetVersion ∈ KeptNumbers (world.file task.filename) r.version
  · obtain ⟨bytes', hbytes', hrollback⟩ := hfound hkept
    rw [hrollback] at hstatus hat
    have hfile := hat.file
    have hcontent : content (serve env task world).2.tree task.filename = some bytes' :=
      congrArg FileState.content hfile
    have hreplaced : storedVersion (serve env task world).2.tree task.filename r.version =
        backedUp (some old) r.version (world.file task.filename).versions r.version := by
      rw [← hold]
      exact congrFun (congrArg FileState.versions hfile) r.version
    have hstored : storedVersion world.tree task.filename task.targetVersion =
        (world.file task.filename).versions task.targetVersion := rfl
    constructor
    · intro h
      have hbackup : r.version ∈ KeptNumbers (world.file task.filename) r.version := by
        rw [← isSome_backedUp _ _ old, ← hreplaced, h.replaced]
        exact Option.isSome_iff_exists.mpr ⟨old, hold⟩
      refine ⟨hkept, hbackup, fun hsame => ?_⟩
      rw [if_pos hsame] at hbytes'
      rw [← hsame, ← hstored, hlisted, hold, hbytes', ← hcontent, h.content]
    · intro h
      have hbytes : bytes' = bytes := by
        by_cases hsame : task.targetVersion = r.version
        · rw [if_pos hsame] at hbytes'
          have hversion := h.same hsame
          rw [← hsame, ← hstored, hlisted, hold, hbytes'] at hversion
          exact (Option.some.inj hversion).symm
        · rw [if_neg hsame, ← hstored, hlisted] at hbytes'
          exact (Option.some.inj hbytes').symm
      refine ⟨hstatus, hbytes ▸ hcontent, ?_, ?_⟩
      · refine ⟨r.bumped bytes'.length clock.write, congrArg FileState.record hfile, ?_⟩
        rw [hbytes]
        rfl
      · rw [hreplaced, ((backedUp_eq _ _ old _).1 h.backup), if_pos rfl]
        exact hold.symm
  · rw [hgone hkept] at hstatus
    refine iff_of_false (fun h => ?_) fun h => hkept h.kept
    have herror : Status.error = Status.success := hstatus.symm.trans h.success
    exact Status.noConfusion herror

end Runs

/-- User 2 uploads `one` as `a` and then `two` over and over. -/
def uploadsOfA : ℕ → Job
  | 0 => ⟨fun _ => Env.calm 0, sampleTask .upload 2 roleUser "one"⟩
  | _ => ⟨fun _ => Env.calm 0, sampleTask .upload 2 roleUser "two"⟩

theorem uploadsOfA_fine (n i : ℕ) : ((uploadsOfA n).env i).Fine := by
  obtain _ | n := n <;> exact Env.calm_fine 0

theorem uploadsOfA_names (n : ℕ) : StorageName (uploadsOfA n).task.filename := by
  have hname : StorageName (text "a") := by decide
  obtain _ | n := n <;> exact hname

theorem one_range : InInt 1 := by decide

/-- User 2 rolls `a` back to version 1. -/
def rollbackOfA : TaskMessage :=
  { sampleTask .rollback 2 roleUser "" with
    targetVersion := 1
    targetVersion_range := one_range }

/-- After two uploads version 1 can be restored. -/
theorem rollback_two_uploads : ∃ r,
    Restored (fun _ => Env.calm 0) rollbackOfA (worldAfter uploadsOfA freshWorld 2) r
      (text "one") := by
  have hname : StorageName (text "a") := by decide
  obtain ⟨r, hr⟩ := Option.isSome_iff_exists.mp
    (by decide +kernel :
      (record? (worldAfter uploadsOfA freshWorld 2).metadata (text "a")).isSome = true)
  have hchecks : (record? (worldAfter uploadsOfA freshWorld 2).metadata (text "a")).all
      (fun r => decide (¬ NotOwner rollbackOfA r ∧ ¬ LockedByOther rollbackOfA r ∧
        r.version = 2)) = true := by decide +kernel
  obtain ⟨hallowed, hfree, hversion⟩ :=
    of_decide_eq_true ((Option.all_eq_true _ _).mp hchecks r hr)
  have hentries : (worldAfter uploadsOfA freshWorld 2).tree.children (text "a" :: versionsPath) =
      [versionName 1] := by decide +kernel
  -- one version is stored, so that the backup removes none
  have hstored : ∀ k, (((worldAfter uploadsOfA freshWorld 2).file (text "a")).versions k).isSome →
      k = 1 := by
    intro k hk
    obtain ⟨bytes, hbytes⟩ := Option.isSome_iff_exists.mp hk
    have hstore := (settled_run uploadsOfA_fine uploadsOfA_names 2).store
    have hmem := (entry_of_stored hstore hname hbytes).1
    rw [hentries, List.mem_singleton] at hmem
    exact versionName_injective hmem
  have hall : KeptNumbers ((worldAfter uploadsOfA freshWorld 2).file (text "a")) 2 =
      {k | k = 2 ∨ (((worldAfter uploadsOfA freshWorld 2).file (text "a")).versions k).isSome} := by
    refine newest_eq_self (le_trans (Set.encard_le_encard (t := {2, 1}) ?_) ?_)
    · rintro k (rfl | hk)
      · exact Or.inl rfl
      · exact Or.inr (hstored k hk)
    · rw [Set.encard_pair (by decide)]
      norm_num [maxVersions]
  refine ⟨r, (rollback_iff uploadsOfA_fine uploadsOfA_names 2 (fun _ => Env.calm_fine 0) hname rfl
    hr hallowed hfree (by decide +kernel)).mpr ?_⟩
  rw [hversion]
  refine ⟨?_, ?_, fun h => absurd h (by decide)⟩
  · exact hall ▸ Or.inr (by decide +kernel)
  · exact hall ▸ Or.inl rfl

/-- After six uploads version 1 is listed, and the backup removes it before it is read. -/
theorem rollback_six_uploads : ∃ r,
    record? (worldAfter uploadsOfA freshWorld 6).metadata rollbackOfA.filename = some r ∧
      ¬ NotOwner rollbackOfA r ∧ ¬ LockedByOther rollbackOfA r ∧
      storedVersion (worldAfter uploadsOfA freshWorld 6).tree rollbackOfA.filename
        rollbackOfA.targetVersion = some (text "one") ∧
      ¬ Restored (fun _ => Env.calm 0) rollbackOfA (worldAfter uploadsOfA freshWorld 6) r
        (text "one") := by
  have hchecks : (record? (worldAfter uploadsOfA freshWorld 6).metadata (text "a")).any
      (fun r => decide (¬ NotOwner rollbackOfA r ∧ ¬ LockedByOther rollbackOfA r)) = true := by
    decide +kernel
  have hstatus : (serve (fun _ => Env.calm 0) rollbackOfA
      (worldAfter uploadsOfA freshWorld 6)).1.status = .error := by decide +kernel
  obtain ⟨r, hr, hpassed⟩ := (Option.any_eq_true _ _).mp hchecks
  obtain ⟨hallowed, hfree⟩ := of_decide_eq_true hpassed
  refine ⟨r, hr, hallowed, hfree, by decide +kernel, fun h => ?_⟩
  exact Status.noConfusion (hstatus.symm.trans h.success)

end CloudSync
