import CloudSync.Sequential.Rollback

/-!
# What a refused task leaves

A task that does not return success has changed nothing of its file, except that a
lock held for too long may be gone (`SameFile`); of the other files it changes
nothing in any case.  There is one exit of which this is not true: `ROLLBACK` backs
up the content before it finds that the version is not there, and the backup stays
(`refusal_iff`).
-/

namespace CloudSync

open CText Files FileState Retention

/-- The record stays, except that its lock may be cleared if it is too old at some
time the task reads. -/
def RecordStands (env : ℕ → Env) (record record' : Option FileMetadata) : Prop :=
  record' = record ∨ ∃ r ∈ record, (∃ i, r.Stale (env i).now) ∧ record' = some r.cleared

/-- Nothing stored has changed, and no record but for a lock that was too old. -/
structure SameState (env : ℕ → Env) (world world' : World) : Prop where
  content : ∀ f, StorageName f → content world'.tree f = content world.tree f
  versions : ∀ f, StorageName f → storedVersion world'.tree f = storedVersion world.tree f
  records : ∀ f, RecordStands env (record? world.metadata f) (record? world'.metadata f)

/-- The same of one file. -/
structure SameFile (env : ℕ → Env) (s s' : FileState) : Prop where
  content : s'.content = s.content
  versions : s'.versions = s.versions
  record : RecordStands env s.record s'.record

variable {env : ℕ → Env} {task : TaskMessage} {clock : Clock} {slot : Option FileMetadata}
  {s s' : FileState} {r : FileMetadata}

theorem sameFile_self (env : ℕ → Env) (s : FileState) : SameFile env s s :=
  ⟨rfl, rfl, Or.inl rfl⟩

/-- A task that changes one file leaves the state if and only if it leaves the file. -/
theorem sameState_iff {world world' : World} {f : Bytes} (hat : At world f s world')
    (hok : StoreOk world.tree) (hf : StorageName f) :
    SameState env world world' ↔ SameFile env (world.file f) s := by
  constructor
  · intro h
    rw [← hat.file]
    exact ⟨h.content f hf, h.versions f hf, h.records f⟩
  · intro h
    refine ⟨fun g hg => ?_, fun g hg => ?_, fun g => ?_⟩
    · by_cases hgf : g = f
      · subst hgf
        exact hat.store.content.trans h.content
      · exact congrArg FileState.content (hat.file_of_ne hok hg hgf)
    · by_cases hgf : g = f
      · subst hgf
        exact hat.store.versions.trans h.versions
      · exact congrArg FileState.versions (hat.file_of_ne hok hg hgf)
    · rw [hat.record]
      by_cases hgf : g = f
      · subst hgf
        rw [Function.update_self]
        exact h.record
      · rw [Function.update_of_ne hgf]
        exact Or.inl rfl

/-! ## The exits -/

/-- `check_edit_lock` clears a lock that is too old, and does nothing else. -/
theorem sameFile_checked (hr : s.record = some r) {now : ℤ} (hnow : ∃ i, (env i).now = now) :
    SameFile env s { s with record := some (r.checked now) } := by
  refine ⟨rfl, rfl, ?_⟩
  unfold FileMetadata.checked
  split
  · next hstale =>
    obtain ⟨i, rfl⟩ := hnow
    exact Or.inr ⟨r, hr, ⟨i, hstale⟩, rfl⟩
  · exact Or.inl hr.symm

theorem upload_sameFile (hcheck : ∃ i, (env i).now = clock.check) (hpaired : Paired s) :
    (upload task clock slot s).1 ≠ .success → SameFile env s (upload task clock slot s).2 := by
  unfold upload
  split
  · next hnone =>
    split
    · -- without a record there is nothing to remove again
      intro _
      rw [hpaired.eq_gone hnone]
      exact sameFile_self env gone
    · exact fun h => absurd rfl h
  · next r hr =>
    dsimp only
    split
    · exact fun _ => sameFile_checked hr hcheck
    · split
      · exact fun _ => sameFile_checked hr hcheck
      · exact fun h => absurd rfl h

theorem edit_sameFile (hcheck : ∃ i, (env i).now = clock.check) (hpaired : Paired s) :
    (edit task clock s).1 ≠ .success → SameFile env s (edit task clock s).2 := by
  unfold edit
  split
  · exact fun _ => sameFile_self env s
  · next r hr =>
    obtain ⟨bytes, hbytes⟩ := hpaired.content hr
    split
    · exact fun _ => sameFile_self env s
    · split
      · -- a file with a record can be read
        dsimp only
        rw [if_neg (by simp [hbytes])]
        exact fun h => absurd rfl h
      · exact fun _ => sameFile_checked hr hcheck

theorem download_refused_eq : (download s).2 = s := by
  unfold download
  split <;> rfl

theorem delete_refused_eq : (delete task s).1 ≠ .success → (delete task s).2 = s := by
  unfold delete
  split
  · exact fun _ => rfl
  · split
    · exact fun _ => rfl
    · split
      · exact fun _ => rfl
      · split
        · exact fun _ => rfl
        · exact fun h => absurd rfl h

theorem save_refused_eq : (save task clock s).1 ≠ .success → (save task clock s).2 = s := by
  unfold save
  split
  · exact fun _ => rfl
  · split
    · exact fun _ => rfl
    · split
      · exact fun _ => rfl
      · exact fun h => absurd rfl h

theorem unlock_refused_eq : (unlock task s).1 ≠ .success → (unlock task s).2 = s := by
  unfold unlock
  split
  · exact fun _ => rfl
  · split
    · exact fun _ => rfl
    · exact fun h => absurd rfl h

theorem delversion_refused_eq :
    (delversion task s).1 ≠ .success → (delversion task s).2 = s := by
  unfold delversion
  split
  · exact fun _ => rfl
  · split
    · exact fun _ => rfl
    · split
      · exact fun _ => rfl
      · exact fun h => absurd rfl h

/-- Every exit of the operations other than `ROLLBACK` leaves the file. -/
theorem sameFile_of_refused (hclock : clock.Read fun e => ∃ i, env i = e)
    (hop : task.operation ≠ .rollback) (hpaired : Paired s)
    (hrefused : (FileState.serve task clock slot s).1 ≠ .success) :
    SameFile env s (FileState.serve task clock slot s).2 := by
  have hself : ∀ s', s' = s → SameFile env s s' := fun _ h => h ▸ sameFile_self env s
  have hcheck : ∃ i, (env i).now = clock.check := by
    obtain ⟨_, ⟨i, rfl⟩, hi⟩ := hclock.check
    exact ⟨i, hi⟩
  revert hrefused
  unfold FileState.serve
  split
  case h_1 => exact upload_sameFile hcheck hpaired
  case h_2 => exact fun _ => hself _ download_refused_eq
  case h_3 => exact fun h => hself _ (delete_refused_eq h)
  case h_4 => exact edit_sameFile hcheck hpaired
  case h_5 => exact fun h => hself _ (save_refused_eq h)
  case h_6 => exact fun h => hself _ (unlock_refused_eq h)
  case h_7 hrollback => exact absurd hrollback hop
  case h_8 => exact fun h => hself _ (delversion_refused_eq h)
  all_goals exact fun _ => sameFile_self env s

/-! ## The backup of a failed rollback -/

/-- A backup changes no version if and only if the content is already the version of
its number, or the backup is the one removed. -/
theorem backedUp_eq_self_iff (hfew : {k | (s.versions k).isSome}.encard ≤ maxVersions) (n : ℤ)
    (old : Bytes) :
    backedUp (some old) n s.versions = s.versions ↔
      s.versions n = some old ∨ n ∉ KeptNumbers s n := by
  constructor
  · intro h
    by_cases hn : n ∈ KeptNumbers s n
    · have hbackup := (backedUp_eq s n old n).1 hn
      rw [h, if_pos rfl] at hbackup
      exact Or.inl hbackup
    · exact Or.inr hn
  · intro h
    have hnumbers : KeptNumbers s n = {k | (s.versions k).isSome} := by
      rcases h with hsame | hremoved
      · have hstored : {k | k = n ∨ (s.versions k).isSome} = {k | (s.versions k).isSome} := by
          refine Set.Subset.antisymm ?_ fun k hk => Or.inr hk
          rintro k (rfl | hk)
          · exact Option.isSome_iff_exists.mpr ⟨old, hsame⟩
          · exact hk
        rw [KeptNumbers, hstored]
        exact newest_eq_self hfew
      · exact newest_insert_of_notMem hfew hremoved
    funext k
    obtain ⟨hkept, hgone⟩ := backedUp_eq s n old k
    by_cases hk : k ∈ KeptNumbers s n
    · rw [hkept hk]
      split
      · next hkn =>
        subst hkn
        exact (h.resolve_right (not_not_intro hk)).symm
      · rfl
    · rw [hgone hk]
      rw [hnumbers] at hk
      exact (Option.not_isSome_iff_eq_none.mp hk).symm

/-- A rollback that passes its checks finds its version after the backup, or its
backup changes nothing. -/
def CleanRefusal (task : TaskMessage) (s : FileState) : Prop :=
  task.operation = .rollback → ∀ r ∈ s.record, ¬ NotOwner task r → ¬ LockedByOther task r →
    task.targetVersion ∈ KeptNumbers s r.version ∨
      s.versions r.version = s.content ∨ r.version ∉ KeptNumbers s r.version

theorem rollback_sameFile_iff (hlimited : Limited s) (hpaired : Paired s)
    (hop : task.operation = .rollback) :
    ((FileState.rollback task clock s).1 ≠ .success →
        SameFile env s (FileState.rollback task clock s).2) ↔ CleanRefusal task s := by
  have hself : SameFile env s s := sameFile_self env s
  unfold CleanRefusal
  cases hr : s.record with
  | none =>
      refine iff_of_true (fun _ => ?_) fun _ r hr' => absurd hr' (Option.not_mem_none r)
      simpa only [FileState.rollback, hr] using hself
  | some r =>
      obtain ⟨old, hold⟩ := hpaired.content hr
      by_cases hnot : NotOwner task r
      · refine iff_of_true (fun _ => ?_) fun _ r' hr' hallowed => ?_
        · simpa only [FileState.rollback, hr, if_pos hnot] using hself
        · exact absurd hnot (Option.some.inj hr' ▸ hallowed)
      by_cases hlocked : LockedByOther task r
      · refine iff_of_true (fun _ => ?_) fun _ r' hr' _ hfree => ?_
        · simpa only [FileState.rollback, hr, if_neg hnot, if_pos hlocked] using hself
        · exact absurd hlocked (Option.some.inj hr' ▸ hfree)
      obtain ⟨hgone, hfound⟩ :=
        @rollback_of_passed task clock s r old hr hnot hlocked hold
      have hsingle : (∀ r' ∈ some r, ¬ NotOwner task r' → ¬ LockedByOther task r' →
          task.targetVersion ∈ KeptNumbers s r'.version ∨
            s.versions r'.version = s.content ∨ r'.version ∉ KeptNumbers s r'.version) ↔
          task.targetVersion ∈ KeptNumbers s r.version ∨
            s.versions r.version = some old ∨ r.version ∉ KeptNumbers s r.version := by
        simp [hnot, hlocked, hold]
      rw [forall_prop_of_true hop, hsingle]
      by_cases hkept : task.targetVersion ∈ KeptNumbers s r.version
      · obtain ⟨bytes, -, hrollback⟩ := hfound hkept
        rw [hrollback]
        exact iff_of_true (fun h => absurd rfl h) (Or.inl hkept)
      · rw [hgone hkept, or_iff_right hkept, ← backedUp_eq_self_iff hlimited.few]
        have hversions : (s.backup r).versions = backedUp (some old) r.version s.versions := by
          rw [FileState.backup, hold]
        constructor
        · intro h
          rw [← hversions]
          exact (h (by simp)).versions
        · intro h _
          exact ⟨rfl, hversions.trans h, Or.inl rfl⟩

section Runs

variable {jobs : ℕ → Job}

/-- In every state a run reaches, a task that does not succeed changes nothing if and
only if it is not a rollback whose backup stays. -/
theorem refusal_iff (hfine : ∀ n i, ((jobs n).env i).Fine)
    (hnames : ∀ n, StorageName (jobs n).task.filename) (n : ℕ) (henv : ∀ i, (env i).Fine)
    (hname : StorageName task.filename) :
    ((serve env task (worldAfter jobs freshWorld n)).1.status ≠ .success →
        SameState env (worldAfter jobs freshWorld n)
          (serve env task (worldAfter jobs freshWorld n)).2) ↔
      CleanRefusal task ((worldAfter jobs freshWorld n).file task.filename) := by
  have hsettled := settled_run hfine hnames n
  generalize worldAfter jobs freshWorld n = world at hsettled ⊢
  have hpaired := hsettled.paired _ hname
  obtain ⟨clock, hclock, hstatus, hat⟩ := serve_refines henv hname hsettled.unique
    hsettled.store (hsettled.limited _ hname).inBounds
  rw [hstatus, sameState_iff hat hsettled.store hname]
  by_cases hop : task.operation = .rollback
  · simp only [FileState.serve, hop]
    exact rollback_sameFile_iff (hsettled.limited _ hname) hpaired hop
  · exact iff_of_true (fun hrefused => sameFile_of_refused hclock hop hpaired hrefused)
      fun h => absurd h hop

end Runs

/-- User 3 asks for the removal of `a`, which is user 2's. -/
def foreignDelete : TaskMessage := sampleTask .delete 3 roleUser ""

/-- The removal is refused and nothing is changed. -/
theorem refusal_foreignDelete :
    SameState (fun _ => Env.calm 0) (worldAfter uploadsOfA freshWorld 1)
      (serve (fun _ => Env.calm 0) foreignDelete (worldAfter uploadsOfA freshWorld 1)).2 :=
  (refusal_iff uploadsOfA_fine uploadsOfA_names 1 (fun _ => Env.calm_fine 0) (by decide)).mpr
    (fun hop => absurd hop (by decide)) (by decide +kernel)

/-- User 2 rolls `a` back to version 7. -/
def rollbackToSeven : TaskMessage :=
  { sampleTask .rollback 2 roleUser "" with
    targetVersion := 7
    targetVersion_range := by decide }

/-- After one upload there is no version; the rollback to version 7 is refused, and
there is version 1. -/
theorem refusal_leaves_backup :
    (serve (fun _ => Env.calm 0) rollbackToSeven
        (worldAfter uploadsOfA freshWorld 1)).1.status = .error ∧
      ¬ SameState (fun _ => Env.calm 0) (worldAfter uploadsOfA freshWorld 1)
        (serve (fun _ => Env.calm 0) rollbackToSeven (worldAfter uploadsOfA freshWorld 1)).2 := by
  refine ⟨by decide +kernel, fun h => ?_⟩
  have hversion := congrFun (h.versions (text "a") (by decide)) 1
  exact absurd hversion (by decide +kernel)

end CloudSync
