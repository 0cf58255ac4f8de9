import CloudSync.Sequential.FineCalls

/-!
# `process_task` does what the state machine says

Run alone, with no call going wrong, `process_task` does to its file what
`FileState.serve` says and answers with the same status (`serve_refines`).  Each
operation is followed call by call with the rules of `FineCalls.lean`; the
readings of the clock it has met make up the clock the state machine is given.
-/

namespace CloudSync

open CText Calls Calls.Prog Files

/-- The readings are among those the calls may meet. -/
structure Clock.Read (ok : Env → Prop) (clock : Clock) : Prop where
  check : ∃ e, ok e ∧ e.now = clock.check
  acquire : ∃ e, ok e ∧ e.now = clock.acquire
  write : ∃ e, ok e ∧ e.now = clock.write

/-- A task on `f` ends as `out` says, for some reading of the clock. -/
def Ends (ok : Env → Prop) (world : World) (f : Bytes) (out : Clock → Status × FileState)
    (resp : ResponseMessage) (world' : World) : Prop :=
  ∃ clock : Clock, clock.Read ok ∧ resp.status = (out clock).1 ∧ At world f (out clock).2 world'

section Operations

variable {ok : Env → Prop} {task : TaskMessage} {world world' : World} {s : FileState}
  {out : Clock → Status × FileState} {clock : Clock}

theorem Clock.read_const {e : Env} (he : ok e) : (⟨e.now, e.now, e.now⟩ : Clock).Read ok :=
  ⟨⟨e, he, rfl⟩, ⟨e, he, rfl⟩, ⟨e, he, rfl⟩⟩

/-- Answering without an audit entry. -/
theorem ends_reply {f : Bytes} {status : Status} {message data : Bytes} (hclock : clock.Read ok)
    (hat : At world f s world') (hout : out clock = (status, s)) :
    Ends ok world f out (reply task status message data) world' :=
  ⟨clock, hclock, by rw [hout]; rfl, by rw [hout]; exact hat⟩

/-- Answering with an audit entry. -/
theorem ends_answer {f : Bytes} {result : String} {status : Status} {message data : Bytes}
    (hclock : clock.Read ok) (hat : At world f s world') (hout : out clock = (status, s)) :
    wp worker ok (answer task result status message data) (Ends ok world f out) world' :=
  wp_answer fun _ hmeta htree => ends_reply hclock (hat.same hmeta htree) hout

variable {e : Env} (he : ok e) (hfine : ∀ e, ok e → e.Fine) (hname : StorageName task.filename)
  (hat : At world task.filename s world)

section Reading

include he hfine hname hat

theorem download_ends :
    wp worker ok (processDownload task)
      (Ends ok world task.filename fun _ => FileState.download s) world := by
  have hclock := Clock.read_const he
  simp only [processDownload, perform_bind]
  refine wp_findFileMetadata (fun hnone => ?_) fun i hr => ?_
  · rw [hat.record_eq] at hnone
    exact ends_answer hclock hat (by simp [FileState.download, hnone])
  · rw [hat.record_eq] at hr
    apply wp_readFile hfine hat hname
    intro world'' hat'
    cases hcontent : s.content with
    | none => exact ends_answer hclock hat' (by simp [FileState.download, hr, hcontent])
    | some bytes => exact ends_answer hclock hat' (by simp [FileState.download, hr, hcontent])

theorem edit_ends :
    wp worker ok (processEdit task)
      (Ends ok world task.filename fun clock => FileState.edit task clock s) world := by
  have hclock := Clock.read_const he
  simp only [processEdit, perform_bind]
  refine wp_findFileMetadata (fun hnone => ?_) fun i hr => ?_
  · rw [hat.record_eq] at hnone
    exact ends_answer hclock hat (by simp [FileState.edit, hnone])
  · rw [hat.record_eq] at hr
    refine wp_notOwner (fun hrole hother => ?_) fun hown => ?_
    · intro env _
      have hdenied : FileState.NotOwner task (world.metadata i) := ⟨hrole, hother⟩
      exact ends_answer hclock hat (by simp [FileState.edit, hr, hdenied])
    · have hallowed : ¬ FileState.NotOwner task (world.metadata i) := fun h => hown.elim h.1 h.2
      apply wp_acquireEditLock hat hr
      intro e₁ he₁ world₁ hat₁
      by_cases hgrant : (world.metadata i).lockedByUserId = -1 ∨
          (world.metadata i).Stale e₁.now ∨ (world.metadata i).lockedByUserId = task.userId
      · have hclock₁ := Clock.read_const he₁
        rw [if_pos hgrant]
        apply wp_readFile hfine hat₁ hname
        intro world₂ hat₂
        cases hcontent : s.content with
        | none =>
            apply wp_releaseEditLock hat₂ (fun h => absurd h (by simp))
            intro r hr₂ world₃ hat₃
            obtain rfl := Option.some.inj hr₂
            exact ends_answer hclock₁ hat₃ (by simp [FileState.edit, hr, hallowed, hgrant, hcontent])
        | some bytes =>
            exact ends_answer hclock₁ hat₂ (by simp [FileState.edit, hr, hallowed, hgrant, hcontent])
      · rw [if_neg hgrant]
        rw [not_or, not_or] at hgrant
        obtain ⟨hlocked, hfresh, hother⟩ := hgrant
        have hkept : (world.metadata i).acquired task.userId task.username e₁.now =
            world.metadata i := if_neg fun h => h.elim hlocked hfresh
        rw [hkept] at hat₁
        refine wp_checkEditLock hat₁ (fun h => absurd h (by simp)) fun r hr₂ e₂ he₂ locker world₂
          hat₂ => ?_
        obtain rfl := Option.some.inj hr₂
        have hclock₂ : (⟨e₂.now, e₁.now, e₁.now⟩ : Clock).Read ok :=
          ⟨⟨e₂, he₂, rfl⟩, ⟨e₁, he₁, rfl⟩, ⟨e₁, he₁, rfl⟩⟩
        exact ends_answer hclock₂ hat₂
          (by simp [FileState.edit, hr, hallowed, hlocked, hfresh, hother])

end Reading

include he hat

theorem unlock_ends :
    wp worker ok (processUnlock task)
      (Ends ok world task.filename fun _ => FileState.unlock task s) world := by
  have hclock := Clock.read_const he
  simp only [processUnlock, perform_bind]
  refine wp_releaseEditLock hat (fun hnone => ?_) fun r hr world' hat' => ?_
  · exact ends_answer hclock hat (by simp [FileState.unlock, hnone])
  · by_cases hown : r.lockedByUserId = -1 ∨ r.lockedByUserId = task.userId
    · have hfree : ¬ FileState.LockedByOther task r := fun h => hown.elim h.1 h.2
      rw [if_pos hown]
      exact ends_answer hclock hat' (by simp [FileState.unlock, hr, hfree])
    · rw [if_neg hown]
      rw [not_or] at hown
      have hlocked : FileState.LockedByOther task r := hown
      have hkept : r.releasedBy task.userId = r := if_neg fun h => hown.2 h.2
      have hsame : ({ s with record := some r } : FileState) = s := by rw [← hr]
      rw [hkept, hsame] at hat'
      exact ends_answer hclock hat' (by simp [FileState.unlock, hr, hlocked])

include hfine hname

theorem delete_ends :
    wp worker ok (processDelete task)
      (Ends ok world task.filename fun _ => FileState.delete task s) world := by
  have hclock := Clock.read_const he
  simp only [processDelete, perform_bind]
  refine wp_findFileMetadata (fun hnone => ?_) fun i hr => ?_
  · rw [hat.record_eq] at hnone
    exact ends_answer hclock hat (by simp [FileState.delete, hnone])
  · rw [hat.record_eq] at hr
    refine wp_notOwner (fun hrole hother => ?_) fun hown => ?_
    · have hdenied : FileState.NotOwner task (world.metadata i) := ⟨hrole, hother⟩
      exact ends_answer hclock hat (by simp [FileState.delete, hr, hdenied])
    have hallowed : ¬ FileState.NotOwner task (world.metadata i) := fun h => hown.elim h.1 h.2
    refine wp_lockedByOther (fun hheld hother => ?_) fun hopen => ?_
    · intro env _
      have hlocked : FileState.LockedByOther task (world.metadata i) := ⟨hheld, hother⟩
      exact ends_answer hclock hat (by simp [FileState.delete, hr, hallowed, hlocked])
    have hfree : ¬ FileState.LockedByOther task (world.metadata i) := fun h => hopen.elim h.1 h.2
    refine wp_removeFileFromStorage hfine hat hname (fun hcontent world₁ hat₁ => ?_)
      fun hcontent world₁ hat₁ => ?_
    · exact ends_answer hclock hat₁ (by simp [FileState.delete, hr, hallowed, hfree, hcontent])
    · apply wp_removeFileMetadata hat₁ hr
      intro world₂ hat₂
      exact ends_answer hclock hat₂
        (by simp [FileState.delete, FileState.gone, hr, hallowed, hfree, hcontent])

theorem delversion_ends :
    wp worker ok (processDelversion task)
      (Ends ok world task.filename fun _ => FileState.delversion task s) world := by
  have hclock := Clock.read_const he
  simp only [processDelversion, perform_bind]
  refine wp_findFileMetadata (fun hnone => ?_) fun i hr => ?_
  · rw [hat.record_eq] at hnone
    exact ends_answer hclock hat (by simp [FileState.delversion, hnone])
  · rw [hat.record_eq] at hr
    refine wp_notOwner (fun hrole hother => ?_) fun hown => ?_
    · have hdenied : FileState.NotOwner task (world.metadata i) := ⟨hrole, hother⟩
      exact ends_answer hclock hat (by simp [FileState.delversion, hr, hdenied])
    have hallowed : ¬ FileState.NotOwner task (world.metadata i) := fun h => hown.elim h.1 h.2
    refine wp_deleteVersion hfine hat hname task.targetVersion_range
      (fun hversion world₁ hat₁ => ?_) fun bytes hversion world₁ hat₁ => ?_
    · exact ends_answer hclock hat₁ (by simp [FileState.delversion, hr, hallowed, hversion])
    · exact ends_answer hclock hat₁ (by simp [FileState.delversion, hr, hallowed, hversion])

variable (hbounds : s.InBounds)

include hbounds

theorem save_ends :
    wp worker ok (processSave task)
      (Ends ok world task.filename fun clock => FileState.save task clock s) world := by
  have hclock := Clock.read_const he
  simp only [processSave]
  split
  · next hguest => exact ends_answer hclock hat (by simp [FileState.save, hguest])
  next hrole =>
  simp only [perform_bind]
  refine wp_findFileMetadata (fun hnone => ?_) fun i hr => ?_
  · rw [hat.record_eq] at hnone
    exact ends_reply hclock hat (by simp [FileState.save, hrole, hnone])
  rw [hat.record_eq] at hr
  intro env _
  change wp worker ok (if (world.metadata i).lockedByUserId ≠ task.userId then _ else _) _ world
  split
  · next hother => exact ends_answer hclock hat (by simp [FileState.save, hrole, hr, hother])
  next hholder =>
  have hholder := not_not.mp hholder
  simp only [saveWrite, perform_bind]
  intro env _
  change wp worker ok (.call (.saveVersion task.filename (world.metadata i).version) _) _ world
  apply wp_saveVersion hfine hat hname (hbounds.version _ hr) hbounds.few
  intro world₁ hat₁
  apply wp_saveFile hfine hat₁ hname
  intro world₂ _ hat₂
  apply wp_updateFileMetadata hat₂ hr
  intro e₂ he₂ world₃ hat₃
  apply wp_releaseEditLock hat₃ (fun h => absurd h (by simp))
  intro r hr₃ world₄ hat₄
  obtain rfl := Option.some.inj hr₃
  exact ends_answer (Clock.read_const he₂) hat₄
    (by simp [FileState.save, FileState.commit, FileState.backup, hrole, hr, hholder])

theorem rollback_ends :
    wp worker ok (processRollback task)
      (Ends ok world task.filename fun clock => FileState.rollback task clock s) world := by
  have hclock := Clock.read_const he
  simp only [processRollback, perform_bind]
  refine wp_findFileMetadata (fun hnone => ?_) fun i hr => ?_
  · rw [hat.record_eq] at hnone
    exact ends_answer hclock hat (by simp [FileState.rollback, hnone])
  rw [hat.record_eq] at hr
  refine wp_notOwner (fun hrole hother => ?_) fun hown => ?_
  · intro env _
    have hdenied : FileState.NotOwner task (world.metadata i) := ⟨hrole, hother⟩
    exact ends_answer hclock hat (by simp [FileState.rollback, hr, hdenied])
  have hallowed : ¬ FileState.NotOwner task (world.metadata i) := fun h => hown.elim h.1 h.2
  refine wp_lockedByOther (fun hheld hother => ?_) fun hopen => ?_
  · intro env _
    have hlocked : FileState.LockedByOther task (world.metadata i) := ⟨hheld, hother⟩
    exact ends_reply hclock hat (by simp [FileState.rollback, hr, hallowed, hlocked])
  have hfree : ¬ FileState.LockedByOther task (world.metadata i) := fun h => hopen.elim h.1 h.2
  simp only [rollbackRestore, perform_bind]
  intro env _
  change wp worker ok (.call (.saveVersion task.filename (world.metadata i).version) _) _ world
  apply wp_saveVersion hfine hat hname (hbounds.version _ hr) hbounds.few
  intro world₁ hat₁
  refine wp_restoreVersion hfine hat₁ hname task.targetVersion_range
    (fun hversion world₂ hat₂ => ?_) fun bytes hversion world₂ hat₂ => ?_
  · exact ends_answer hclock hat₂
      (by simp [FileState.rollback, FileState.backup, hr, hallowed, hfree, hversion])
  · have hsize : ¬ (bytes.length : ℤ) < 0 := by omega
    rw [if_neg hsize]
    apply wp_updateFileMetadata hat₂ hr
    intro e₂ he₂ world₃ hat₃
    exact ends_answer (Clock.read_const he₂) hat₃ (by
      simp [FileState.rollback, FileState.commit, FileState.backup, hr, hallowed, hfree, hversion])

omit hbounds in
/-- `UPLOAD` of a new file, from the write on. -/
theorem uploadWrite_ends_new (hnone : s.record = none) :
    wp worker ok (uploadWrite task) (Ends ok world task.filename fun clock =>
      FileState.upload task clock ((emptySlot world.metadata).map world.metadata) s) world := by
  have hclock := Clock.read_const he
  simp only [uploadWrite, perform_bind]
  apply wp_saveFile hfine hat hname
  intro world₁ hmeta₁ hat₁
  simp only [lt_irrefl, if_false]
  refine wp_addFileMetadata_of_none hat₁ hname.short hnone (fun hfull => ?_)
    fun i hempty e₂ he₂ world₂ hat₂ => ?_
  · rw [hmeta₁] at hfull
    refine wp_removeFileFromStorage hfine hat₁ hname (fun h => absurd h (by simp))
      fun _ world₂ hat₂ => ?_
    exact ends_answer hclock hat₂
      (by simp [FileState.upload, FileState.gone, hnone, hfull])
  · rw [hmeta₁] at hempty hat₂
    exact ends_answer (Clock.read_const he₂) hat₂ (by simp [FileState.upload, hnone, hempty])

omit hat in
/-- `UPLOAD` of an existing file, from the ownership check on; the lock was
checked when the clock showed `now`. -/
theorem uploadOwned_ends {r : FileMetadata} {now : ℤ} (hnow : ∃ e, ok e ∧ e.now = now)
    (hat : At world task.filename { s with record := some (r.checked now) } world')
    (hfree : ¬ FileState.LockedByOther task (r.checked now)) (hr : s.record = some r)
    (slot : Option FileMetadata) :
    wp worker ok (uploadOwned task) (Ends ok world task.filename fun clock =>
      FileState.upload task clock slot s) world' := by
  have hclock : (⟨now, e.now, e.now⟩ : Clock).Read ok := ⟨hnow, ⟨e, he, rfl⟩, ⟨e, he, rfl⟩⟩
  simp only [uploadOwned, perform_bind]
  refine wp_findFileMetadata (fun hnone => ?_) fun i hr' => ?_
  · rw [hat.record_eq] at hnone
    exact absurd hnone (by simp)
  rw [hat.record_eq] at hr'
  have hi := Option.some.inj hr'
  rw [hi] at hfree
  refine wp_notOwner (fun hrole hother => ?_) fun hown => ?_
  · intro env _
    have hdenied : FileState.NotOwner task (world'.metadata i) := ⟨hrole, hother⟩
    exact ends_answer hclock hat (by simp [FileState.upload, hr, hi, hfree, hdenied])
  have hallowed : ¬ FileState.NotOwner task (world'.metadata i) := fun h => hown.elim h.1 h.2
  have hversion : InInt (world'.metadata i).version := by
    rw [← hi, (r.relocked_checked now).version]
    exact hbounds.version r hr
  intro env _
  change wp worker ok (.call (.saveVersion task.filename (world'.metadata i).version) _) _ world'
  apply wp_saveVersion hfine hat hname hversion hbounds.few
  intro world₁ hat₁
  simp only [uploadWrite, perform_bind]
  apply wp_saveFile hfine hat₁ hname
  intro world₂ _ hat₂
  apply wp_addFileMetadata_of_some hat₂ hr'
  intro e₃ he₃ world₃ hat₃
  have hclock₃ : (⟨now, e.now, e₃.now⟩ : Clock).Read ok := ⟨hnow, ⟨e, he, rfl⟩, ⟨e₃, he₃, rfl⟩⟩
  exact ends_answer hclock₃ hat₃
    (by simp [FileState.upload, FileState.commit, FileState.backup, TaskMessage.dataSize, hr, hi,
      hfree, hallowed])

theorem upload_ends :
    wp worker ok (processUpload task) (Ends ok world task.filename fun clock =>
      FileState.upload task clock ((emptySlot world.metadata).map world.metadata) s) world := by
  simp only [processUpload, perform_bind]
  refine wp_checkEditLock hat (fun hnone => ?_) fun r hr e₁ he₁ locker world₁ hat₁ => ?_
  · simp only [Bool.false_eq_true, if_false, uploadOwned, perform_bind]
    refine wp_findFileMetadata (fun _ => ?_) fun i hr => ?_
    · exact uploadWrite_ends_new he hfine hname hat hnone
    · rw [hat.record_eq, hnone] at hr
      exact absurd hr (by simp)
  have hclock : (⟨e₁.now, e.now, e.now⟩ : Clock).Read ok :=
    ⟨⟨e₁, he₁, rfl⟩, ⟨e, he, rfl⟩, ⟨e, he, rfl⟩⟩
  by_cases hlocked : r.lockedByUserId ≠ -1 ∧ ¬ r.Stale e₁.now
  · have hkept : r.checked e₁.now = r := if_neg hlocked.2
    simp only [decide_eq_true hlocked, if_true]
    refine wp_findFileMetadata (fun hnone => ?_) fun i hr' => ?_
    · rw [hat₁.record_eq] at hnone
      exact absurd hnone (by simp)
    rw [hat₁.record_eq] at hr'
    have hi := Option.some.inj hr'
    intro env _
    change wp worker ok (if (world₁.metadata i).lockedByUserId ≠ task.userId then _ else _) _ world₁
    rw [← hi]
    split
    · next hother =>
      have hheld : FileState.LockedByOther task (r.checked e₁.now) := by
        rw [hkept] at hother ⊢
        exact ⟨hlocked.1, hother⟩
      exact ends_answer hclock hat₁ (by simp [FileState.upload, hr, hheld])
    · next hown =>
      exact uploadOwned_ends he hfine hname hbounds ⟨e₁, he₁, rfl⟩ hat₁ (fun h => hown h.2) hr _
  · simp only [decide_eq_false hlocked, Bool.false_eq_true, if_false]
    refine uploadOwned_ends he hfine hname hbounds ⟨e₁, he₁, rfl⟩ hat₁ (fun h => h.1 ?_) hr _
    by_cases hstale : r.Stale e₁.now
    · rw [FileMetadata.checked, if_pos hstale]
      rfl
    · rw [FileMetadata.checked, if_neg hstale]
      by_contra hheld
      exact hlocked ⟨hheld, hstale⟩

theorem processTask_ends :
    wp worker ok (processTask task) (Ends ok world task.filename fun clock =>
      FileState.serve task clock ((emptySlot world.metadata).map world.metadata) s) world := by
  have hclock := Clock.read_const he
  cases hop : task.operation <;> simp only [processTask, FileState.serve, hop]
  case upload => exact upload_ends he hfine hname hat hbounds
  case download => exact download_ends he hfine hname hat
  case delete => exact delete_ends he hfine hname hat
  case edit => exact edit_ends he hfine hname hat
  case save => exact save_ends he hfine hname hat hbounds
  case unlock => exact unlock_ends he hat
  case rollback => exact rollback_ends he hfine hname hat hbounds
  case delversion => exact delversion_ends he hfine hname hat
  case list => exact fun _ _ => ends_reply hclock hat rfl
  case audit => exact fun _ _ => ends_reply hclock hat rfl
  case version =>
    simp only [processVersion, perform_bind]
    intro env _
    change wp worker ok (if (getFileVersion world.metadata task.filename maxFileSize env.date).1 < 0
      then _ else _) _ world
    have hrecord := hat.record_eq
    cases hr : s.record with
    | none =>
        have hslot := record?_eq_none.mp (hrecord.trans hr)
        simp only [getFileVersion, hslot]
        exact ends_reply hclock hat rfl
    | some r =>
        obtain ⟨i, hslot, -⟩ := exists_slot (hrecord.trans hr)
        simp only [getFileVersion, hslot]
        exact ends_reply hclock hat rfl
  case history =>
    simp only [processHistory, perform_bind]
    refine wp_findFileMetadata (fun hnone => ?_) fun i hr => ?_
    · rw [hat.record_eq] at hnone
      exact ends_reply hclock hat (by rw [if_pos hnone])
    · rw [hat.record_eq] at hr
      apply wp_listVersions hat
      intro listing world' hat'
      exact ends_reply hclock hat' (by rw [if_neg (by simp [hr])])
  all_goals exact ends_reply hclock hat rfl

end Operations

/-- A task run alone does to its file what the state machine says, and nothing
to any other. -/
theorem serve_refines {env : ℕ → Env} {task : TaskMessage} {world : World}
    (hfine : ∀ i, (env i).Fine) (hname : StorageName task.filename)
    (hunique : UniqueNames world.metadata) (hok : StoreOk world.tree)
    (hbounds : (world.file task.filename).InBounds) :
    Ends (fun e => ∃ i, env i = e) world task.filename
      (fun clock => FileState.serve task clock ((emptySlot world.metadata).map world.metadata)
        (world.file task.filename))
      (serve env task world).1 (serve env task world).2 := by
  have hfine' : ∀ e, (∃ i, env i = e) → e.Fine := by
    rintro e ⟨i, rfl⟩
    exact hfine i
  exact serve_of_wp (processTask_ends ⟨0, rfl⟩ hfine' hname (at_self hunique hok) hbounds)

end CloudSync
