import CloudSync.State.Checks

/-!
# What a task looks up, and when

`adding` watches for the call of `add_file_metadata`.  A task looks up what it needs
before it makes that call: afterwards it only cleans up and answers
(`processTask_lookedUp`).  What all files show, the list and the audit log, is asked
for by `LIST` and `AUDIT` alone.
-/

namespace CloudSync

open CText Calls Calls.Prog

/-- Whether the task has called `add_file_metadata`. -/
def adding : Monitor WorkerCall Bool where
  start := false
  next := fun added c _ =>
    match c with
    | .addFileMetadata _ _ _ _ => true
    | _ => added

/-- After `add_file_metadata` a task only cleans up and answers; what all files
show is asked for by `LIST` and `AUDIT` alone. -/
def LooksUpFirst (task : TaskMessage) (added : Bool) : {β : Type} → WorkerCall β → Prop
  | _, .removeFileFromStorage _ => True
  | _, .writeAuditEntry _ _ _ _ => True
  | _, .listAllFiles => task.operation = .list
  | _, .readAuditLog => task.operation = .audit
  | _, _ => added = false

/-- The program looks up what it needs before it makes a record. -/
abbrev LookedUp {α : Type} (task : TaskMessage) (added : Bool) (prog : Prog WorkerCall α) : Prop :=
  Obeys adding (LooksUpFirst task) (fun _ => True) added prog

section LookedUp

variable {task : TaskMessage} {added : Bool}

theorem lookedUp_answer (result : String) (status : Status) (message data : Bytes) :
    LookedUp task added (answer task result status message data) := by
  simp only [answer, audit, perform_bind, pure_eq_ret]
  exact ⟨trivial, fun _ => trivial⟩

theorem lookedUp_notOwner {α : Type} {i : Slot} {next : Bool → Prog WorkerCall α}
    (hnext : ∀ denied, LookedUp task false (next denied)) :
    LookedUp task false (notOwner task i >>= next) := by
  unfold notOwner
  split
  · exact hnext false
  · simp only [perform_bind, call_bind, pure_eq_ret, ret_bind]
    exact ⟨rfl, fun _ => hnext _⟩

theorem lookedUp_lockedByOther {α : Type} {i : Slot} {next : Bool → Prog WorkerCall α}
    (hnext : ∀ locked, LookedUp task false (next locked)) :
    LookedUp task false (lockedByOther task i >>= next) := by
  unfold lockedByOther
  simp only [perform_bind, call_bind]
  refine ⟨rfl, fun holder => ?_⟩
  dsimp only
  split
  · exact hnext false
  · simp only [call_bind, pure_eq_ret, ret_bind]
    exact ⟨rfl, fun _ => hnext _⟩

theorem lookedUp_uploadWrite : LookedUp task false (uploadWrite task) := by
  simp only [uploadWrite, perform_bind]
  refine ⟨rfl, fun saved => ?_⟩
  dsimp only
  split
  · exact lookedUp_answer _ _ _ _
  · refine ⟨rfl, fun added => ?_⟩
    dsimp only
    split
    · exact ⟨trivial, fun _ => lookedUp_answer _ _ _ _⟩
    · exact lookedUp_answer _ _ _ _

theorem lookedUp_uploadOwned : LookedUp task false (uploadOwned task) := by
  simp only [uploadOwned, perform_bind]
  refine ⟨rfl, fun found => ?_⟩
  cases found with
  | none => exact lookedUp_uploadWrite
  | some i =>
      apply lookedUp_notOwner
      intro denied
      cases denied with
      | true => exact ⟨rfl, fun _ => lookedUp_answer _ _ _ _⟩
      | false => exact ⟨rfl, fun _ => ⟨rfl, fun _ => lookedUp_uploadWrite⟩⟩

theorem lookedUp_processUpload : LookedUp task false (processUpload task) := by
  simp only [processUpload, perform_bind]
  refine ⟨rfl, fun answer => ?_⟩
  obtain ⟨locked, locker⟩ := answer
  cases locked with
  | false => exact lookedUp_uploadOwned
  | true =>
      refine ⟨rfl, fun found => ?_⟩
      cases found with
      | none => exact lookedUp_uploadOwned
      | some i =>
          refine ⟨rfl, fun holder => ?_⟩
          dsimp only
          split
          · exact lookedUp_answer _ _ _ _
          · exact lookedUp_uploadOwned

theorem lookedUp_processDownload : LookedUp task false (processDownload task) := by
  simp only [processDownload, perform_bind]
  refine ⟨rfl, fun found => ?_⟩
  cases found with
  | none => exact lookedUp_answer _ _ _ _
  | some i =>
      refine ⟨rfl, fun answer => ?_⟩
      obtain ⟨result, bytes⟩ := answer
      dsimp only
      split <;> exact lookedUp_answer _ _ _ _

theorem lookedUp_processDelete : LookedUp task false (processDelete task) := by
  simp only [processDelete, perform_bind]
  refine ⟨rfl, fun found => ?_⟩
  cases found with
  | none => exact lookedUp_answer _ _ _ _
  | some i =>
      apply lookedUp_notOwner
      intro denied
      cases denied with
      | true => exact lookedUp_answer _ _ _ _
      | false =>
          apply lookedUp_lockedByOther
          intro locked
          cases locked with
          | true => exact ⟨rfl, fun _ => lookedUp_answer _ _ _ _⟩
          | false =>
              refine ⟨trivial, fun removed => ?_⟩
              dsimp only
              split
              · exact lookedUp_answer _ _ _ _
              · refine ⟨rfl, fun forgotten => ?_⟩
                dsimp only
                split <;> exact lookedUp_answer _ _ _ _

theorem lookedUp_processVersion : LookedUp task false (processVersion task) := by
  simp only [processVersion, perform_bind]
  refine ⟨rfl, fun answer => ?_⟩
  obtain ⟨result, info⟩ := answer
  dsimp only
  split <;> trivial

theorem lookedUp_processEdit : LookedUp task false (processEdit task) := by
  simp only [processEdit, perform_bind]
  refine ⟨rfl, fun found => ?_⟩
  cases found with
  | none => exact lookedUp_answer _ _ _ _
  | some i =>
      apply lookedUp_notOwner
      intro denied
      cases denied with
      | true => exact ⟨rfl, fun _ => lookedUp_answer _ _ _ _⟩
      | false =>
          refine ⟨rfl, fun lockResult => ?_⟩
          dsimp only
          split
          · exact lookedUp_answer _ _ _ _
          · split
            · exact ⟨rfl, fun _ => lookedUp_answer _ _ _ _⟩
            · refine ⟨rfl, fun answer => ?_⟩
              obtain ⟨result, bytes⟩ := answer
              dsimp only
              split
              · exact ⟨rfl, fun _ => lookedUp_answer _ _ _ _⟩
              · exact lookedUp_answer _ _ _ _

theorem lookedUp_processSave : LookedUp task false (processSave task) := by
  unfold processSave
  split
  · exact lookedUp_answer _ _ _ _
  · simp only [perform_bind]
    refine ⟨rfl, fun found => ?_⟩
    cases found with
    | none => trivial
    | some i =>
        refine ⟨rfl, fun holder => ?_⟩
        dsimp only
        split
        · exact lookedUp_answer _ _ _ _
        · simp only [saveWrite, perform_bind]
          refine ⟨rfl, fun version => ⟨rfl, fun _ => ⟨rfl, fun saved => ?_⟩⟩⟩
          dsimp only
          split
          · exact lookedUp_answer _ _ _ _
          · refine ⟨rfl, fun updated => ?_⟩
            dsimp only
            split
            · exact lookedUp_answer _ _ _ _
            · exact ⟨rfl, fun _ => lookedUp_answer _ _ _ _⟩

theorem lookedUp_processUnlock : LookedUp task false (processUnlock task) := by
  simp only [processUnlock, perform_bind]
  refine ⟨rfl, fun result => ?_⟩
  dsimp only
  split
  · exact lookedUp_answer _ _ _ _
  · split <;> exact lookedUp_answer _ _ _ _

theorem lookedUp_processHistory : LookedUp task false (processHistory task) := by
  simp only [processHistory, perform_bind]
  refine ⟨rfl, fun found => ?_⟩
  cases found with
  | none => trivial
  | some i => exact ⟨rfl, fun _ => trivial⟩

theorem lookedUp_processRollback : LookedUp task false (processRollback task) := by
  simp only [processRollback, perform_bind]
  refine ⟨rfl, fun found => ?_⟩
  cases found with
  | none => exact lookedUp_answer _ _ _ _
  | some i =>
      apply lookedUp_notOwner
      intro denied
      cases denied with
      | true => exact ⟨rfl, fun _ => lookedUp_answer _ _ _ _⟩
      | false =>
          apply lookedUp_lockedByOther
          intro locked
          cases locked with
          | true => exact ⟨rfl, fun _ => trivial⟩
          | false =>
              simp only [Bool.false_eq_true, if_false, rollbackRestore, perform_bind]
              refine ⟨rfl, fun version => ⟨rfl, fun _ => ⟨rfl, fun newSize => ?_⟩⟩⟩
              dsimp only
              split
              · exact lookedUp_answer _ _ _ _
              · exact ⟨rfl, fun _ => lookedUp_answer _ _ _ _⟩

theorem lookedUp_processDelversion : LookedUp task false (processDelversion task) := by
  simp only [processDelversion, perform_bind]
  refine ⟨rfl, fun found => ?_⟩
  cases found with
  | none => exact lookedUp_answer _ _ _ _
  | some i =>
      apply lookedUp_notOwner
      intro denied
      cases denied with
      | true => exact lookedUp_answer _ _ _ _
      | false =>
          refine ⟨rfl, fun deleted => ?_⟩
          dsimp only
          split <;> exact lookedUp_answer _ _ _ _

/-- Every task looks up what it needs before it makes a record. -/
theorem processTask_lookedUp (task : TaskMessage) : LookedUp task false (processTask task) := by
  unfold processTask
  split
  · exact lookedUp_processUpload
  · exact lookedUp_processDownload
  · exact lookedUp_processDelete
  · next hop => exact ⟨hop, fun _ => trivial⟩
  · exact lookedUp_processVersion
  · exact lookedUp_processEdit
  · exact lookedUp_processSave
  · exact lookedUp_processUnlock
  · exact lookedUp_processHistory
  · exact lookedUp_processRollback
  · next hop => exact ⟨hop, fun _ => trivial⟩
  · exact lookedUp_processDelversion
  · trivial

end LookedUp

end CloudSync
