import CloudSync.Sequential.Runs
import CloudSync.State.Disk

/-!
# No update is lost through the edit lock

A task of another user that leaves `u` holding the lock of `f` has not changed
the content of `f` (`content_of_locked`): every operation that writes has
found the lock free or its own, and a lock comes to `u` only by `u`'s own
`EDIT`.  So as long as `u` holds the lock, only `u` has written since the last
successful `EDIT` (`lease_since_edit`), and a successful `SAVE` finds the lock
in its user's hands (`locked_of_save`).

None of this needs the clock to behave or the system calls to succeed.
-/

namespace CloudSync

open CText Calls Calls.Prog Files

/-- `userId` holds the edit lock of `f`. -/
def LockedBy (metaArray : MetaArray) (f : Bytes) (userId : ℤ) : Prop :=
  ∃ r ∈ record? metaArray f, r.lockedByUserId = userId

variable {task : TaskMessage} {world : World} {userId : ℤ}

/-! ## Tasks of other users -/

/-- If another user holds the lock after a task, the task has not changed the
content, and the user held it before. -/
theorem content_of_locked (env : ℕ → Env) (hname : StorageName task.filename)
    (hunique : UniqueNames world.metadata) (hother : task.userId ≠ userId) (hid : userId ≠ -1)
    (hlocked : LockedBy (serve env task world).2.metadata task.filename userId) :
    LockedBy world.metadata task.filename userId ∧
      content (serve env task world).2.tree task.filename = content world.tree task.filename := by
  obtain ⟨g, -, h⟩ := serve_invariant env task
    (I := fun g world' => Holds task g world'.metadata ∧
      (LockedBy world'.metadata task.filename userId →
        LockedBy world.metadata task.filename userId ∧
        content world'.tree task.filename = content world.tree task.filename))
    ⟨holds_start hunique, fun h => ⟨h, rfl⟩⟩
    fun g world' i β c hI hcall => by
      refine ⟨holds_exec _ hI.1 hcall, fun hlocked => ?_⟩
      have hexec := record?_exec (env i) c hI.1.unique hcall.filename_length
      obtain ⟨r', hr', hholder⟩ := hlocked
      -- the lock was the user's already: nobody else acquires it for them
      have hbefore : LockedBy world'.metadata task.filename userId := by
        by_cases hmem : task.filename ∈ c.changesRecord
        · rcases (hexec.2.2 _ hmem).holder _ r' hr' with hfree | ⟨r, hr, hkept | ⟨hlocks, -⟩⟩
          · exact absurd (hholder.symm.trans hfree) hid
          · exact ⟨r, hr, hkept.trans hholder⟩
          · exact absurd ((hcall.locks hlocks).2.1.symm.trans hholder) hother
        · rw [hexec.2.1 _ hmem] at hr'
          exact ⟨r', hr', hholder⟩
      obtain ⟨hstart, hcontent⟩ := hI.2 hbefore
      refine ⟨hstart, (content_exec _ c _ separate_storageNames
        (hcall.filename_mem hname) hname fun hmem => ?_).trans hcontent⟩
      -- a task that writes has found the lock free or its own
      obtain ⟨r, hr, hholder⟩ := hbefore
      rcases hI.1.lock (hcall.writesContent hmem).2.2 r hr with hfree | hown
      · exact hid (hholder.symm.trans hfree)
      · exact hother (hown.symm.trans hholder)
  exact h hlocked

/-! ## Tasks of the user -/

/-- An operation other than `EDIT` gives nobody the lock. -/
theorem locked_of_not_edit (env : ℕ → Env)
    (hunique : UniqueNames world.metadata) (hid : userId ≠ -1) (hop : task.operation ≠ .edit)
    (hlocked : LockedBy (serve env task world).2.metadata task.filename userId) :
    LockedBy world.metadata task.filename userId := by
  obtain ⟨g, -, h⟩ := serve_invariant env task
    (I := fun _ world' => UniqueNames world'.metadata ∧
      (LockedBy world'.metadata task.filename userId →
        LockedBy world.metadata task.filename userId)) ⟨hunique, id⟩
    fun g world' i β c hI hcall => by
      have hexec := record?_exec (env i) c hI.1 hcall.filename_length
      refine ⟨hexec.1, fun ⟨r', hr', hholder⟩ => hI.2 ?_⟩
      by_cases hmem : task.filename ∈ c.changesRecord
      · rcases (hexec.2.2 _ hmem).holder _ r' hr' with hfree | ⟨r, hr, hkept | ⟨hlocks, -⟩⟩
        · exact absurd (hholder.symm.trans hfree) hid
        · exact ⟨r, hr, hkept.trans hholder⟩
        · exact absurd (hcall.locks hlocks).2.2 hop
      · rw [hexec.2.1 _ hmem] at hr'
        exact ⟨r', hr', hholder⟩
  exact h hlocked

/-- After `release_edit_lock` the user does not hold the lock. -/
theorem not_locked_of_release {metaArray : MetaArray} {f : Bytes} (hunique : UniqueNames metaArray)
    (hid : userId ≠ -1) : ¬ LockedBy (releaseEditLock metaArray f userId).2 f userId := by
  rintro ⟨r', hr', hholder⟩
  rw [(record?_releaseEditLock _ hunique userId).1, Function.update_self] at hr'
  obtain ⟨r, -, rfl⟩ := Option.map_eq_some_iff.mp hr'
  unfold FileMetadata.releasedBy at hholder
  split at hholder
  · exact hid hholder.symm
  · next hkept => exact hkept ⟨hholder ▸ hid, hholder⟩

/-- `check_edit_lock` gives nobody the lock. -/
theorem locked_of_check {metaArray : MetaArray} {f : Bytes} {now : ℤ}
    (hunique : UniqueNames metaArray) (hid : userId ≠ -1)
    (hlocked : LockedBy (checkEditLock metaArray f now).2 f userId) :
    LockedBy metaArray f userId := by
  obtain ⟨r', hr', hholder⟩ := hlocked
  rw [(record?_checkEditLock _ hunique now).1, Function.update_self] at hr'
  obtain ⟨r, hr, rfl⟩ := Option.map_eq_some_iff.mp hr'
  unfold FileMetadata.checked at hholder
  split at hholder
  · exact absurd hholder.symm hid
  · exact ⟨r, hr, hholder⟩

/-- `acquire_edit_lock` answers 0 or leaves the lock with its holder. -/
theorem locked_of_refused_acquire {metaArray : MetaArray} {f : Bytes} {username : Bytes} {now : ℤ}
    (hunique : UniqueNames metaArray)
    (hrefused : (acquireEditLock metaArray f task.userId username now).1 ≠ 0)
    (hlocked : LockedBy (acquireEditLock metaArray f task.userId username now).2 f userId) :
    LockedBy metaArray f userId := by
  obtain ⟨r', hr', hholder⟩ := hlocked
  rw [(record?_acquireEditLock _ hunique task.userId username now).1, Function.update_self] at hr'
  obtain ⟨r, hr, rfl⟩ := Option.map_eq_some_iff.mp hr'
  rw [acquireEditLock_of_some hr] at hrefused
  have hheld : ¬ (r.lockedByUserId = -1 ∨ r.Stale now) := fun h =>
    hrefused (if_pos (h.imp_right Or.inl))
  rw [FileMetadata.acquired, if_neg hheld] at hholder
  exact ⟨r, hr, hholder⟩

/-- An `EDIT` that does not succeed gives its user no lock. -/
theorem locked_of_failed_edit (env : ℕ → Env) (hunique : UniqueNames world.metadata)
    (hid : task.userId ≠ -1) (hop : task.operation = .edit)
    (hlocked : LockedBy (serve env task world).2.metadata task.filename task.userId) :
    (serve env task world).1.status = .success ∨
      LockedBy world.metadata task.filename task.userId := by
  refine serve_of_wp (Q := fun resp world' =>
    LockedBy world'.metadata task.filename task.userId →
      resp.status = .success ∨ LockedBy world.metadata task.filename task.userId) ?_ hlocked
  simp only [processTask, hop, processEdit, perform_bind]
  refine wp_findFileMetadata (fun _ => ?_) fun i hr => ?_
  · exact wp_answer fun world' hmeta _ h => Or.inr (hmeta ▸ h)
  · refine wp_notOwner (fun _ _ => ?_) fun _ => ?_
    · intro env _
      exact wp_answer fun world' hmeta _ h => Or.inr (hmeta ▸ h)
    · intro env _
      have hacquired := record?_acquireEditLock task.filename hunique task.userId
        task.username env.now
      change wp _ _ (if (acquireEditLock world.metadata task.filename task.userId task.username
        env.now).1 = -1 then _ else _) _ (onMetadata (acquireEditLock world.metadata task.filename
          task.userId task.username env.now) world).2
      split
      · next hnone =>
        refine wp_answer fun world' hmeta _ h => Or.inr ?_
        rw [hmeta] at h
        exact locked_of_refused_acquire hunique (Eq.trans_ne hnone (by decide)) h
      · split
        · next hother =>
          intro env' _
          refine wp_answer fun world' hmeta _ h => Or.inr ?_
          rw [hmeta] at h
          exact locked_of_refused_acquire hunique (Eq.trans_ne hother (by decide))
            (locked_of_check hacquired.2 hid h)
        · intro env' _
          dsimp only
          split
          · intro env'' _
            refine wp_answer fun world' hmeta _ h => absurd (hmeta ▸ h) ?_
            exact not_locked_of_release hacquired.2 hid
          · exact wp_answer fun _ _ _ _ => Or.inl rfl

/-- A `SAVE` that succeeds found the lock in its user's hands. -/
theorem locked_of_save (env : ℕ → Env) (hop : task.operation = .save)
    (hsuccess : (serve env task world).1.status = .success) :
    LockedBy world.metadata task.filename task.userId := by
  refine serve_of_wp (Q := fun resp _ => resp.status = .success →
    LockedBy world.metadata task.filename task.userId) ?_ hsuccess
  simp only [processTask, hop, processSave]
  split
  · exact wp_answer fun _ _ _ h => absurd h (by simp [reply])
  · simp only [perform_bind]
    refine wp_findFileMetadata (fun _ => ?_) fun i hr => ?_
    · exact fun h => absurd h (by simp [reply])
    · intro env _
      dsimp only
      split
      · exact wp_answer fun _ _ _ h => absurd h (by simp [reply])
      · next hholder =>
        exact wp_of_forall (fun _ _ _ => ⟨_, hr, not_not.mp hholder⟩) _

/-- An `EDIT` that succeeds returns the content, as far as it fits the response. -/
theorem edit_returns {env : ℕ → Env} (hfine : ∀ i, (env i).Fine) (hname : StorageName task.filename)
    (hop : task.operation = .edit) (hsuccess : (serve env task world).1.status = .success) :
    ∃ bytes, content world.tree task.filename = some bytes ∧
      (serve env task world).1.data = bytes.take maxFileSize := by
  refine serve_of_wp (Q := fun resp _ => resp.status = .success →
    ∃ bytes, content world.tree task.filename = some bytes ∧
      resp.data = bytes.take maxFileSize) ?_ hsuccess
  simp only [processTask, hop, processEdit, perform_bind]
  refine wp_findFileMetadata (fun _ => ?_) fun i _ => ?_
  · exact wp_answer fun _ _ _ h => absurd h (by simp [reply])
  refine wp_notOwner (fun _ _ => ?_) fun _ => ?_
  · intro e _
    exact wp_answer fun _ _ _ h => absurd h (by simp [reply])
  intro e _
  dsimp only
  split
  · exact wp_answer fun _ _ _ h => absurd h (by simp [reply])
  split
  · intro e' _
    exact wp_answer fun _ _ _ h => absurd h (by simp [reply])
  rintro _ ⟨j, rfl⟩
  -- the lock functions have not touched the storage
  obtain ⟨-, hread⟩ := wp_run (readFile_fine (t := world.tree) hname) (hfine j)
  have hanswer : ∀ metaArray,
      (worker.exec (env j) (.readFile task.filename) { world with metadata := metaArray }).1 =
        (content world.tree task.filename).elim (-1, []) fun bytes =>
          (0, bytes.take maxFileSize) := fun _ => hread
  simp only [onMetadata, worker] at hanswer ⊢
  rw [hanswer]
  cases hcontent : content world.tree task.filename with
  | none =>
      intro e' _
      exact wp_answer fun _ _ _ h => absurd h (by simp [reply])
  | some bytes => exact wp_answer fun _ _ _ _ => ⟨bytes, rfl, rfl⟩

/-! ## Runs -/

variable {jobs : ℕ → Job} {first : World}

/-- Task `m` is an `EDIT` of `f` by `userId` that succeeded. -/
def Edited (jobs : ℕ → Job) (first : World) (f : Bytes) (userId : ℤ) (m : ℕ) : Prop :=
  (jobs m).task.operation = .edit ∧ (jobs m).task.filename = f ∧ (jobs m).task.userId = userId ∧
    (response jobs first m).status = .success

/-- Task `m` is the last `EDIT` of `f` by `userId` that succeeded before task
`n`, and since then only the user's own tasks have changed the content of `f`. -/
structure LeaseSince (jobs : ℕ → Job) (first : World) (f : Bytes) (userId : ℤ) (m n : ℕ) :
    Prop where
  before : m < n
  edited : Edited jobs first f userId m
  last : ∀ j, m < j → j < n → ¬ Edited jobs first f userId j
  own : ∀ j, m ≤ j → j < n →
    content (worldAfter jobs first (j + 1)).tree f ≠ content (worldAfter jobs first j).tree f →
      (jobs j).task.userId = userId

/-- A user who holds the lock has a lease since the last successful `EDIT`. -/
theorem lease_since_edit (hnames : ∀ n, StorageName (jobs n).task.filename)
    (hfirst : first.metadata = initMetadata)
    {f : Bytes} (hf : StorageName f) (hid : userId ≠ -1) (n : ℕ)
    (hlocked : LockedBy (worldAfter jobs first n).metadata f userId) :
    ∃ m, LeaseSince jobs first f userId m n := by
  induction n with
  | zero =>
      obtain ⟨r, hr, -⟩ := hlocked
      rw [show worldAfter jobs first 0 = first from rfl, hfirst, record?_initMetadata] at hr
      exact absurd hr (by simp)
  | succ n ih =>
      have hunique := worldAfter_unique jobs (hfirst ▸ initMetadata_unique) n
      -- the lease goes on through task `n`, unless that is an `EDIT` of its own
      have hextend : LockedBy (worldAfter jobs first n).metadata f userId →
          (content (worldAfter jobs first (n + 1)).tree f ≠
            content (worldAfter jobs first n).tree f → (jobs n).task.userId = userId) →
          ∃ m, LeaseSince jobs first f userId m (n + 1) := by
        intro hbefore hown
        obtain ⟨m, hm⟩ := ih hbefore
        by_cases hedited : Edited jobs first f userId n
        · refine ⟨n, Nat.lt_succ_self n, hedited, fun j hj hjn => ?_, fun j hj hjn _ => ?_⟩
          · omega
          · obtain rfl : j = n := by omega
            exact hedited.2.2.1
        · refine ⟨m, hm.before.trans (Nat.lt_succ_self n), hm.edited, fun j hj hjn => ?_,
            fun j hj hjn hchanged => ?_⟩
          · rcases Nat.lt_succ_iff_lt_or_eq.mp hjn with hjn | rfl
            · exact hm.last j hj hjn
            · exact hedited
          · rcases Nat.lt_succ_iff_lt_or_eq.mp hjn with hjn | rfl
            · exact hm.own j hj hjn hchanged
            · exact hown hchanged
      by_cases hfn : f = (jobs n).task.filename
      · subst hfn
        by_cases huser : (jobs n).task.userId = userId
        · subst huser
          by_cases hop : (jobs n).task.operation = .edit
          · rcases locked_of_failed_edit _ hunique hid hop hlocked with hsuccess | hbefore
            · refine ⟨n, Nat.lt_succ_self n, ⟨hop, rfl, rfl, hsuccess⟩, fun j hj hjn => ?_,
                fun j hj hjn _ => ?_⟩
              · omega
              · obtain rfl : j = n := by omega
                rfl
            · exact hextend hbefore fun _ => rfl
          · exact hextend (locked_of_not_edit _ hunique hid hop hlocked) fun _ => rfl
        · obtain ⟨hbefore, hcontent⟩ :=
            content_of_locked _ (hnames n) hunique huser hid hlocked
          exact hextend hbefore fun hchanged => absurd hcontent hchanged
      · have hrecord := serve_record?_of_ne (jobs n).env hunique hfn
        have hcontent : content (worldAfter jobs first (n + 1)).tree f =
            content (worldAfter jobs first n).tree f :=
          serve_content_of_ne (jobs n).env separate_storageNames (hnames n) hf hfn
        obtain ⟨r, hr, hholder⟩ := hlocked
        exact hextend ⟨r, hrecord ▸ hr, hholder⟩ fun hchanged => absurd hcontent hchanged

/-- A `SAVE` that succeeds follows a successful `EDIT` of its user, nobody else
has changed the content since the last one, and that one returned it, unless a
system call of the `EDIT` went wrong. -/
theorem save_follows_edit (hnames : ∀ n, StorageName (jobs n).task.filename)
    (hids : ∀ n, 1 ≤ (jobs n).task.userId) (hfirst : first.metadata = initMetadata) {n : ℕ}
    (hop : (jobs n).task.operation = .save)
    (hsuccess : (response jobs first n).status = .success) :
    ∃ m, LeaseSince jobs first (jobs n).task.filename (jobs n).task.userId m n ∧
      ((∀ i, ((jobs m).env i).Fine) →
        ∃ bytes, content (worldAfter jobs first m).tree (jobs n).task.filename = some bytes ∧
          (response jobs first m).data = bytes.take maxFileSize) := by
  have hid := hids n
  obtain ⟨m, hm⟩ := lease_since_edit hnames hfirst (hnames n) (by omega) n
    (locked_of_save _ hop hsuccess)
  obtain ⟨hedit, hfile, -, hedited⟩ := hm.edited
  refine ⟨m, hm, fun hfine => ?_⟩
  have hreturned := edit_returns hfine (hnames m) hedit hedited
  rw [hfile] at hreturned
  exact hreturned

/-- User 2 uploads `a`, edits it and saves it from then on. -/
def editThenSave : ℕ → Job
  | 0 => ⟨fun _ => Env.calm 0, sampleTask .upload 2 roleUser "first"⟩
  | 1 => ⟨fun _ => Env.calm 1, sampleTask .edit 2 roleUser ""⟩
  | n => ⟨fun _ => Env.calm n, sampleTask .save 2 roleUser "second"⟩

/-- The first save follows the edit. -/
theorem save_follows_edit_editThenSave :
    ∃ m, LeaseSince editThenSave freshWorld (text "a") 2 m 2 := by
  have hnames : ∀ n, StorageName (editThenSave n).task.filename := by
    rintro (_ | _ | n) <;> exact (by decide : StorageName (text "a"))
  have hids : ∀ n, 1 ≤ (editThenSave n).task.userId := by
    rintro (_ | _ | n) <;> exact (by decide : (1 : ℤ) ≤ 2)
  have hsuccess : (response editThenSave freshWorld 2).status = .success := by decide +kernel
  obtain ⟨m, hm, -⟩ := save_follows_edit hnames hids rfl rfl hsuccess
  exact ⟨m, hm⟩

end CloudSync
