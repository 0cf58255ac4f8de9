import CloudSync.Sequential.Rollback
import CloudSync.State.OldContent

/-!
# Overwriting a file while calls fail

`UPLOAD`, `SAVE` and `ROLLBACK` on an existing file back it up and replace its
content, and none of them asks whether the backup went well.  Past its checks a task does
no more to the storage than that (`upload_storage_iff`, `save_storage_iff`,
`rollback_storage_iff`), so whether the old content survives whatever `mkdir`,
`stat`, `open`, `read` and `write` calls fail is decided by what was stored
before (`old_content_iff`).
-/

namespace CloudSync

open CText Calls Calls.Prog Files FileState

/-! ## Tasks whose I/O calls fail -/

/-- The system calls of a file function meet what they may, and the lock is checked at
`time`. -/
def TaskFaults (time : ℤ) {β : Type} (call : WorkerCall β) (env : Env) (world : World) : Prop :=
  match call with
  | .checkEditLock _ => env.now = time
  | .saveVersion f n => Meets disk IoFaults (saveVersion f n) env.conditions world.tree
  | .saveFile f data => Meets disk IoFaults (saveFile f data) env.conditions world.tree
  | .readFile f => Meets disk IoFaults (readFile f) env.conditions world.tree
  | .restoreVersion f n => Meets disk IoFaults (restoreVersion f n) env.conditions world.tree
  | .removeFileFromStorage f =>
      Meets disk IoFaults (removeFileFromStorage f) env.conditions world.tree
  | .listVersions f =>
      Meets disk IoFaults (listVersions f maxFileSize env.modified) env.conditions world.tree
  | .deleteVersion f n => Meets disk IoFaults (deleteVersion f n) env.conditions world.tree
  | _ => True

instance (time : ℤ) {β : Type} (call : WorkerCall β) (env : Env) (world : World) :
    Decidable (TaskFaults time call env world) :=
  match call with
  | .checkEditLock _ => inferInstanceAs (Decidable (env.now = time))
  | .saveVersion _ _ | .saveFile _ _ | .readFile _ | .restoreVersion _ _
  | .removeFileFromStorage _ | .listVersions _ | .deleteVersion _ _ =>
      inferInstanceAs (Decidable (Meets _ _ _ _ _))
  | .findFileMetadata _ | .addFileMetadata _ _ _ _ | .updateFileMetadata _ _
  | .removeFileMetadata _ | .acquireEditLock _ _ _ | .releaseEditLock _ _ | .listAllFiles
  | .getFileVersion _ | .ownerId _ | .ownerName _ | .version _ | .lockedByUserId _
  | .lockedByUsername _ | .readAuditLog | .writeAuditEntry _ _ _ _ => isTrue trivial

/-- The task passes its permission and lock checks. -/
def PassesChecks (task : TaskMessage) (r : FileMetadata) (time : ℤ) : Prop :=
  match task.operation with
  | .upload => ¬ NotOwner task r ∧ (¬ LockedByOther task r ∨ r.Stale time)
  | .save => task.role ≠ roleGuest ∧ r.lockedByUserId = task.userId
  | .rollback => ¬ NotOwner task r ∧ ¬ LockedByOther task r
  | _ => False

instance (task : TaskMessage) (r : FileMetadata) (time : ℤ) :
    Decidable (PassesChecks task r time) := by
  unfold PassesChecks
  split <;> infer_instance

instance : Nonempty Env := ⟨.calm 0⟩

section Rules

variable {time : ℤ} {α : Type} {Q : α → World → Prop} {R : Tree → Prop} {world : World}

/-- Nothing has to fail. -/
theorem taskFaults_calm (time : ℤ) {β : Type} (call : WorkerCall β) (world : World) :
    TaskFaults time call (.calm time) world := by
  have hfine : ∀ {γ : Type} (prog : Prog Sys γ) t,
      Meets disk IoFaults prog (Env.calm time).conditions t :=
    fun _ _ => meets_of_forall fun _ _ call t => ioFaults_of_fine Conditions.fine_fine call t
  cases call <;> first | trivial | exact rfl | exact hfine _ _

/-- A file function on the storage of the world. -/
theorem task_onDisk {β : Type} {call : WorkerCall β} {prog : Prog Sys β}
    {next : β → Prog WorkerCall α}
    (hexec : ∀ env, worker.exec env call world = onDisk env prog world)
    (hmay : ∀ env, TaskFaults time call env world ↔
      Meets disk IoFaults prog env.conditions world.tree) :
    wpWith worker (TaskFaults time) (.call call next) Q world ↔
      wpWith disk IoFaults prog (fun answer t =>
        wpWith worker (TaskFaults time) (next answer) Q { world with tree := t }) world.tree := by
  rw [wpWith_iff (p := prog)]
  constructor
  · intro hcall conditions hmeets
    have hrun := hcall { Env.calm time with conditions := conditions } ((hmay _).mpr hmeets)
    rw [hexec] at hrun
    exact hrun
  · intro hrun env henv
    rw [hexec]
    exact hrun env.conditions ((hmay env).mp henv)

/-- A call that is answered from the state alone and changes nothing. -/
theorem task_reads {β : Type} {call : WorkerCall β} {next : β → Prog WorkerCall α} {answer : β}
    (hexec : ∀ env, worker.exec env call world = (answer, world)) :
    wpWith worker (TaskFaults time) (.call call next) Q world ↔
      wpWith worker (TaskFaults time) (next answer) Q world :=
  wpWith_call_iff ⟨.calm time, taskFaults_calm time call world⟩ fun env _ => hexec env

theorem task_findFileMetadata {f : Bytes} {i : Slot} {next : Option Slot → Prog WorkerCall α}
    (hfind : findSlot world.metadata f = some i) :
    wpWith worker (TaskFaults time) (.call (.findFileMetadata f) next) Q world ↔
      wpWith worker (TaskFaults time) (next (some i)) Q world := by
  rw [task_reads fun _ => rfl, show findFileMetadata world.metadata f = some i from hfind]

theorem task_notOwner {task : TaskMessage} {i : Slot} {next : Bool → Prog WorkerCall α}
    (hallowed : ¬ NotOwner task (world.metadata i)) :
    wpWith worker (TaskFaults time) (notOwner task i >>= next) Q world ↔
      wpWith worker (TaskFaults time) (next false) Q world := by
  unfold notOwner
  split
  · rfl
  · next hrole =>
    have howner : (world.metadata i).ownerId = task.userId := by
      by_contra hother
      exact hallowed ⟨hrole, hother⟩
    simp only [perform_bind, call_bind, pure_eq_ret, ret_bind]
    refine (task_reads fun _ => rfl).trans ?_
    rw [howner, bne_self_eq_false]

theorem task_lockedByOther {task : TaskMessage} {i : Slot} {next : Bool → Prog WorkerCall α}
    (hfree : ¬ LockedByOther task (world.metadata i)) :
    wpWith worker (TaskFaults time) (lockedByOther task i >>= next) Q world ↔
      wpWith worker (TaskFaults time) (next false) Q world := by
  unfold lockedByOther
  simp only [perform_bind, call_bind]
  refine (task_reads fun _ => rfl).trans ?_
  split
  · rfl
  · next hlocked =>
    have hholder : (world.metadata i).lockedByUserId = task.userId := by
      by_contra hother
      exact hfree ⟨hlocked, hother⟩
    simp only [call_bind, pure_eq_ret, ret_bind]
    refine (task_reads fun _ => rfl).trans ?_
    rw [hholder, bne_self_eq_false]

/-- A program that leaves the storage alone. -/
def LeavesStorage (prog : Prog WorkerCall α) : Prop :=
  Obeys (Monitor.silent WorkerCall)
    (fun _ {_} call => ∀ env world, (worker.exec env call world).2.tree = world.tree)
    (fun _ => True) () prog

theorem task_leavesStorage {prog : Prog WorkerCall α} (h : LeavesStorage prog) :
    wpWith worker (TaskFaults time) prog (fun _ world' => R world'.tree) world ↔ R world.tree := by
  induction prog generalizing world with
  | ret value => rfl
  | call c next ih =>
      obtain ⟨hc, hnext⟩ := h
      constructor
      · intro hcall
        have hrest := (ih _ (hnext _)).mp (hcall (.calm time) (taskFaults_calm time c world))
        rwa [hc] at hrest
      · intro hR env _
        refine (ih _ (hnext _)).mpr ?_
        rwa [hc]

/-- The same after a call whose answer is known. -/
theorem task_answers {β : Type} {call : WorkerCall β} {next : β → Prog WorkerCall α} {answer : β}
    (hanswer : ∀ env, (worker.exec env call world).1 = answer)
    (htree : ∀ env, (worker.exec env call world).2.tree = world.tree)
    (hnext : LeavesStorage (next answer)) :
    wpWith worker (TaskFaults time) (.call call next) (fun _ world' => R world'.tree) world ↔
      R world.tree := by
  constructor
  · intro hcall
    have hrest := hcall (.calm time) (taskFaults_calm time call world)
    rwa [hanswer, task_leavesStorage hnext, htree] at hrest
  · intro hR env _
    rwa [hanswer, task_leavesStorage hnext, htree]

theorem leavesStorage_answer {task : TaskMessage} {result : String} {status : Status}
    {message data : Bytes} : LeavesStorage (answer task result status message data) := by
  refine ⟨fun env world => ?_, fun _ => trivial⟩
  simp only [worker]
  split <;> rfl

end Rules

/-! ## What a task does to the storage -/

section Storage

variable {time : ℤ} {task : TaskMessage} {world : World} {r : FileMetadata} {R : Tree → Prop}

theorem uploadWrite_storage_iff (hr : record? world.metadata task.filename = some r) :
    wpWith worker (TaskFaults time) (uploadWrite task) (fun _ world' => R world'.tree) world ↔
      wpWith disk IoFaults (saveFile task.filename task.data) (fun _ => R) world.tree := by
  simp only [uploadWrite, perform_bind]
  rw [task_onDisk (fun _ => rfl) fun _ => Iff.rfl]
  refine wpWith_congr fun saved t => ?_
  split
  · exact task_leavesStorage leavesStorage_answer
  -- the record is there, so its removal is not called
  refine task_answers (fun env => addFileMetadata_of_some hr task.username task.userId
    task.dataSize env.now) (fun _ => rfl) ?_
  rw [if_neg (by decide)]
  exact leavesStorage_answer

theorem uploadOwned_storage_iff (hr : record? world.metadata task.filename = some r)
    (hallowed : ¬ NotOwner task r) :
    wpWith worker (TaskFaults time) (uploadOwned task) (fun _ world' => R world'.tree) world ↔
      wpWith disk IoFaults (saveVersion task.filename r.version) (fun _ =>
        wpWith disk IoFaults (saveFile task.filename task.data) fun _ => R) world.tree := by
  simp only [uploadOwned, perform_bind]
  obtain ⟨i, hfind, rfl⟩ := exists_slot hr
  rw [task_findFileMetadata hfind]
  dsimp only
  rw [task_notOwner hallowed]
  simp only [Bool.false_eq_true, if_false]
  rw [task_reads fun _ => rfl, task_onDisk (fun _ => rfl) fun _ => Iff.rfl]
  exact wpWith_congr fun _ t => uploadWrite_storage_iff hr

theorem upload_storage_iff (hr : record? world.metadata task.filename = some r)
    (hallowed : ¬ NotOwner task r) (hfree : ¬ LockedByOther task r ∨ r.Stale time) :
    wpWith worker (TaskFaults time) (processUpload task) (fun _ world' => R world'.tree) world ↔
      wpWith disk IoFaults (saveVersion task.filename r.version) (fun _ =>
        wpWith disk IoFaults (saveFile task.filename task.data) fun _ => R) world.tree := by
  simp only [processUpload, perform_bind]
  -- `check_edit_lock` clears a stale lock and nothing else
  have hchecked := record?_checked hr time
  have hsame : ∀ q, q = r.checked time → ¬ NotOwner task q ∧ q.version = r.version := by
    rintro q rfl
    unfold FileMetadata.checked
    split <;> exact ⟨hallowed, rfl⟩
  have hexec : ∀ env, TaskFaults time (.checkEditLock task.filename) env world →
      worker.exec env (.checkEditLock task.filename) world =
        onMetadata (checkEditLock world.metadata task.filename time) world := by
    rintro env rfl
    rfl
  rw [wpWith_call_iff ⟨.calm time, taskFaults_calm time _ world⟩ hexec]
  have howned := @uploadOwned_storage_iff time task
    (onMetadata (checkEditLock world.metadata task.filename time) world).2 (r.checked time) R
    hchecked (hsame _ rfl).1
  rw [(hsame _ rfl).2] at howned
  change wpWith worker (TaskFaults time)
    (if (checkEditLock world.metadata task.filename time).1.1 = true then _ else _) _
    (onMetadata (checkEditLock world.metadata task.filename time) world).2 ↔ _
  split
  · next hlocked =>
    have hheld : r.lockedByUserId ≠ -1 ∧ ¬ r.Stale time := by
      by_contra hopen
      rw [checkEditLock_of_some hr, if_neg hopen] at hlocked
      exact Bool.noConfusion hlocked
    have hholder : r.lockedByUserId = task.userId := by
      by_contra hother
      exact hfree.elim (fun h => h ⟨hheld.1, hother⟩) hheld.2
    obtain ⟨i, hfind, hslot⟩ := exists_slot hchecked
    rw [task_findFileMetadata hfind]
    dsimp only
    rw [task_reads fun _ => rfl]
    rw [FileMetadata.checked, if_neg hheld.2] at hslot
    have hown : ((onMetadata (checkEditLock world.metadata task.filename time) world).2.metadata
        i).lockedByUserId = task.userId := by
      rw [show (onMetadata (checkEditLock world.metadata task.filename time) world).2.metadata i = r
        from hslot, hholder]
    rw [if_neg (not_not.mpr hown)]
    exact howned
  · exact howned

theorem save_storage_iff (hr : record? world.metadata task.filename = some r)
    (hrole : task.role ≠ roleGuest) (hholder : r.lockedByUserId = task.userId) :
    wpWith worker (TaskFaults time) (processSave task) (fun _ world' => R world'.tree) world ↔
      wpWith disk IoFaults (saveVersion task.filename r.version) (fun _ =>
        wpWith disk IoFaults (saveFile task.filename task.data) fun _ => R) world.tree := by
  simp only [processSave, if_neg hrole, perform_bind]
  obtain ⟨i, hfind, rfl⟩ := exists_slot hr
  rw [task_findFileMetadata hfind]
  dsimp only
  rw [task_reads fun _ => rfl, if_neg (not_not.mpr hholder)]
  simp only [saveWrite, perform_bind]
  rw [task_reads fun _ => rfl, task_onDisk (fun _ => rfl) fun _ => Iff.rfl]
  refine wpWith_congr fun _ t => ?_
  rw [task_onDisk (fun _ => rfl) fun _ => Iff.rfl]
  refine wpWith_congr fun saved t => ?_
  split
  · exact task_leavesStorage leavesStorage_answer
  · exact task_leavesStorage ⟨fun _ _ => rfl, fun _ => obeys_ite leavesStorage_answer
      ⟨fun _ _ => rfl, fun _ => leavesStorage_answer⟩⟩

theorem rollback_storage_iff (hr : record? world.metadata task.filename = some r)
    (hallowed : ¬ NotOwner task r) (hfree : ¬ LockedByOther task r) :
    wpWith worker (TaskFaults time) (processRollback task) (fun _ world' => R world'.tree) world ↔
      wpWith disk IoFaults (saveVersion task.filename r.version) (fun _ =>
        wpWith disk IoFaults (restoreVersion task.filename task.targetVersion) fun _ => R)
        world.tree := by
  simp only [processRollback, perform_bind]
  obtain ⟨i, hfind, rfl⟩ := exists_slot hr
  rw [task_findFileMetadata hfind]
  dsimp only
  rw [task_notOwner hallowed]
  simp only [Bool.false_eq_true, if_false]
  rw [task_lockedByOther hfree]
  simp only [Bool.false_eq_true, if_false, rollbackRestore, perform_bind]
  rw [task_reads fun _ => rfl, task_onDisk (fun _ => rfl) fun _ => Iff.rfl]
  refine wpWith_congr fun _ t => ?_
  rw [task_onDisk (fun _ => rfl) fun _ => Iff.rfl]
  refine wpWith_congr fun newSize t => ?_
  split
  · exact task_leavesStorage leavesStorage_answer
  · exact task_leavesStorage ⟨fun _ _ => rfl, fun _ => leavesStorage_answer⟩

end Storage

/-! ## The old content -/

/-- Whatever a call of a task meets, every entry stays in its directory. -/
theorem filed_exec {β : Type} (call : WorkerCall β) (env : Env) {world : World}
    (hfiled : world.tree.Filed) : (worker.exec env call world).2.tree.Filed := by
  cases call with
  | writeAuditEntry _ _ _ _ =>
      simp only [worker]
      split <;> exact hfiled
  | _ => first | exact hfiled | exact hfiled.run _ _

theorem filed_run {α : Type} (prog : Prog WorkerCall α) (env : ℕ → Env) {world : World}
    (hfiled : world.tree.Filed) : (prog.run worker env world).2.tree.Filed := by
  induction prog generalizing env world with
  | ret value => exact hfiled
  | call c next ih => exact ih _ _ (filed_exec c _ hfiled)

/-- In every state that tasks reach, every entry is in a directory. -/
theorem filed_worldAfter (jobs : ℕ → Job) {first : World} (hfirst : first.tree.Filed) (n : ℕ) :
    (worldAfter jobs first n).tree.Filed := by
  induction n with
  | zero => exact hfirst
  | succ n ih => exact filed_run _ _ ih

/-- What was stored before keeps the old content, a file at version `n`, safe from the task. -/
def OldContentSafe (task : TaskMessage) (old : Bytes) (n : ℤ) (t : Tree) : Prop :=
  if task.operation = .rollback then
    TargetSafe old n (CanBackUp t task.filename n) (backupEntries t task.filename n)
      (storedVersion t task.filename) task.targetVersion
  else old = [] ∧ task.data = [] ∨
    CopyKept old n (CanBackUp t task.filename n) (backupEntries t task.filename n)
      (storedVersion t task.filename)

/-- The old content is kept whatever I/O calls of the task fail if and only if what was
stored before keeps it safe. -/
theorem old_content_iff {time : ℤ} {task : TaskMessage} {world : World} {r : FileMetadata}
    {old : Bytes} (hfiled : world.tree.Filed)
    (hr : record? world.metadata task.filename = some r) (hversion : InInt r.version)
    (hcontent : content world.tree task.filename = some old)
    (hpasses : PassesChecks task r time)
    (htarget : task.operation = .rollback →
      world.tree.isDir (resolve (versionPath 256 task.filename task.targetVersion)) = false) :
    (∀ env, Meets worker (TaskFaults time) (processTask task) env world →
        OldContentKept old task.filename (serve env task world).2.tree) ↔
      OldContentSafe task old r.version world.tree := by
  have hwp : (∀ env, Meets worker (TaskFaults time) (processTask task) env world →
      OldContentKept old task.filename (serve env task world).2.tree) ↔
        wpWith worker (TaskFaults time) (processTask task)
          (fun _ world' => OldContentKept old task.filename world'.tree) world :=
    (wpWith_iff (Q := fun _ (world' : World) => OldContentKept old task.filename world'.tree)).symm
  rw [hwp]
  unfold PassesChecks at hpasses
  cases hop : task.operation with
  | upload =>
      rw [hop] at hpasses
      simp only [processTask, hop, OldContentSafe, reduceCtorEq, if_false]
      rw [upload_storage_iff hr hpasses.1 hpasses.2]
      exact saveFile_keeps_iff task.filename_length hversion hfiled hcontent
  | save =>
      rw [hop] at hpasses
      simp only [processTask, hop, OldContentSafe, reduceCtorEq, if_false]
      rw [save_storage_iff hr hpasses.1 hpasses.2]
      exact saveFile_keeps_iff task.filename_length hversion hfiled hcontent
  | rollback =>
      rw [hop] at hpasses
      simp only [processTask, hop, OldContentSafe, if_true]
      rw [rollback_storage_iff hr hpasses.1 hpasses.2]
      exact restoreVersion_keeps_iff task.filename_length hversion hfiled hcontent (htarget hop)
  | _ =>
      rw [hop] at hpasses
      exact absurd hpasses id

/-- User 2 uploads another content as `a`. -/
def overwriteOfA : TaskMessage := sampleTask .upload 2 roleUser "three"

/-- The disk is full: the version directory cannot be made, and nothing can be written. -/
def diskFull : ℕ → Env
  | 4 => { Env.calm 0 with conditions := fun i => if i = 1 then .failing else .fine }
  | 5 => { Env.calm 0 with conditions := fun i => if i = 2 then .failing else .fine }
  | _ => .calm 0

/-- The backup fails unnoticed, and the file is left empty: `one` is nowhere. -/
theorem old_content_lost : ∃ r,
    record? (worldAfter uploadsOfA freshWorld 1).metadata (text "a") = some r ∧
      PassesChecks overwriteOfA r 0 ∧
      content (worldAfter uploadsOfA freshWorld 1).tree (text "a") = some (text "one") ∧
      Meets worker (TaskFaults 0) (processTask overwriteOfA) diskFull
        (worldAfter uploadsOfA freshWorld 1) ∧
      ¬ OldContentKept (text "one") (text "a")
        (serve diskFull overwriteOfA (worldAfter uploadsOfA freshWorld 1)).2.tree := by
  have hchecks : (record? (worldAfter uploadsOfA freshWorld 1).metadata (text "a")).any
      (fun r => decide (PassesChecks overwriteOfA r 0)) = true := by decide +kernel
  obtain ⟨r, hr, hpassed⟩ := (Option.any_eq_true _ _).mp hchecks
  refine ⟨r, hr, of_decide_eq_true hpassed, by decide +kernel, by decide +kernel, ?_⟩
  have hempty : content (serve diskFull overwriteOfA (worldAfter uploadsOfA freshWorld 1)).2.tree
      (text "a") = some [] := by decide +kernel
  have hnone : (serve diskFull overwriteOfA (worldAfter uploadsOfA freshWorld 1)).2.tree.children
      (resolve (versionDirPath (text "a"))) = [] := by decide +kernel
  rintro (hcontent | ⟨k, hversion⟩)
  · rw [hempty] at hcontent
    exact absurd hcontent (by decide)
  · rw [storedVersion_of_children (by decide) hnone] at hversion
    exact absurd hversion (by simp)

/-- With `two` uploaded twice, the first backup of it survives whatever overwriting it a third
time does. -/
theorem old_content_kept_as_version : ∃ r,
    record? (worldAfter uploadsOfA freshWorld 3).metadata (text "a") = some r ∧
      PassesChecks overwriteOfA r 0 ∧
      ∀ env, Meets worker (TaskFaults 0) (processTask overwriteOfA) env
          (worldAfter uploadsOfA freshWorld 3) →
        OldContentKept (text "two") (text "a")
          (serve env overwriteOfA (worldAfter uploadsOfA freshWorld 3)).2.tree := by
  have hchecks : (record? (worldAfter uploadsOfA freshWorld 3).metadata (text "a")).any
      (fun r => decide (PassesChecks overwriteOfA r 0 ∧ r.version = 3)) = true := by decide +kernel
  obtain ⟨r, hr, hpassed⟩ := (Option.any_eq_true _ _).mp hchecks
  obtain ⟨hpasses, hversion⟩ := of_decide_eq_true hpassed
  have htwo : storedVersion (worldAfter uploadsOfA freshWorld 3).tree (text "a") 2 =
      some (text "two") := by decide +kernel
  refine ⟨r, hr, hpasses, (old_content_iff (filed_worldAfter _ (by decide) 3) hr (hversion ▸ by decide)
    (by decide +kernel) hpasses fun h => absurd h (by decide)).mpr ?_⟩
  rw [hversion]
  have hcopy : 2 ∈ copies (text "two") 3
      (storedVersion (worldAfter uploadsOfA freshWorld 3).tree (text "a")) :=
    (Function.update_of_ne (by decide) _ _).trans htwo
  refine Or.inr ⟨⟨2, htwo⟩, fun _ => Or.inl ⟨2, hcopy, fun hdropped => ?_⟩⟩
  -- there are not enough entries for any to be dropped
  have hfew : backupEntries (worldAfter uploadsOfA freshWorld 3).tree (text "a") 3 ⊆
      {name | name ∈ [versionName 3, versionName 2, versionName 1]} := by
    have hentries : (worldAfter uploadsOfA freshWorld 3).tree.children
        (resolve (versionDirPath (text "a"))) = [versionName 2, versionName 1] := by decide +kernel
    rintro name (rfl | hname)
    · exact List.mem_cons_self
    · exact List.mem_cons_of_mem _ (hentries ▸ hname.1)
  have hcount := hdropped.2.trans_le (Set.encard_le_encard fun name h => hfew h.1)
  rw [Retention.encard_setOf_mem (by decide)] at hcount
  exact absurd (Nat.cast_lt.mp hcount) (by decide)

end CloudSync
