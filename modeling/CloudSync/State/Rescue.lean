import CloudSync.Lib.Contracts
import CloudSync.Worker

/-!
# The backup comes first

`rescuing n` follows a task on a file that has a record: the slot it has looked up, and
how far it has come with the file.  It says of the text of `process_task` what matters if the
task is stopped half way (`processTask_rescues`): as long as the file is intact, nothing is
written but the backup, under the number `n` in the record, or a version is deleted; the
content is written only after the backup, and then no version any more.  Only `DELETE` removes
anything else.
-/

namespace CloudSync

open CText Calls Calls.Prog Files

/-- How far a task has come with its file: it has changed nothing that is stored, it has made
a backup, or it has deleted a version. -/
inductive Phase
  | intact
  | backed
  | trimmed
  deriving DecidableEq

/-- The slot a task has looked up, and how far it has come. -/
structure Rescue where
  slot : Option Slot
  phase : Phase

/-- The contract of a task on a file whose record carries the version `n`. -/
def rescuing (n : ℤ) : Contract WorkerCall Rescue where
  start := ⟨none, .intact⟩
  next := fun g c answer =>
    match c, answer with
    | .findFileMetadata _, found => { g with slot := found }
    -- what is known of a slot is not followed through changes of the array
    | .checkEditLock _, _ => { g with slot := none }
    | .acquireEditLock _ _ _, _ => { g with slot := none }
    | .releaseEditLock _ _, _ => { g with slot := none }
    | .addFileMetadata _ _ _ _, _ => { g with slot := none }
    | .updateFileMetadata _ _, _ => { g with slot := none }
    | .saveVersion _ _, _ => { g with phase := .backed }
    | .deleteVersion _ _, _ => { g with phase := .trimmed }
    | _, _ => g
  rely := fun _ _ c answer =>
    match c, answer with
    | .findFileMetadata _, found => found.isSome = true
    | .addFileMetadata _ _ _ _, result => 0 ≤ result
    | .version _, version => version = n
    | _, _ => True
  guar := fun g _ c =>
    match c with
    | .version i => g.slot = some i ∧ g.phase = .intact
    | .saveVersion _ k => k = n ∧ g.phase = .intact
    | .deleteVersion _ _ => g.phase = .intact
    | .saveFile _ _ => g.phase = .backed
    | .restoreVersion _ _ => g.phase = .backed
    | .addFileMetadata _ _ _ _ => g.phase = .backed
    | .updateFileMetadata _ _ => g.phase = .backed
    | .removeFileFromStorage _ => False
    | .removeFileMetadata _ => False
    | _ => True

/-- The program keeps the contract. -/
abbrev Rescues (n : ℤ) (g : Rescue) (prog : Prog WorkerCall ResponseMessage) : Prop :=
  Honours (rescuing n) (fun _ _ => True) g prog

section Texts

variable {n : ℤ} {task : TaskMessage} {g : Rescue} {slot : Option Slot}

theorem rescues_answer {result : String} {status : Status} {message data : Bytes} :
    Rescues n g (answer task result status message data) := by
  simp only [answer, audit, perform_bind, pure_eq_ret]
  exact ⟨trivial, fun _ _ => trivial⟩

/-- There is a record, so it is found. -/
theorem rescues_find {next : Option Slot → Prog WorkerCall ResponseMessage}
    (hnext : ∀ i, Rescues n ⟨some i, g.phase⟩ (next (some i))) :
    Rescues n g (.call (.findFileMetadata task.filename) next) := by
  refine ⟨trivial, fun found hfound => ?_⟩
  obtain ⟨i, rfl⟩ := Option.isSome_iff_exists.mp hfound
  exact hnext i

theorem rescues_notOwner {i : Slot} {next : Bool → Prog WorkerCall ResponseMessage}
    (hnext : ∀ denied, Rescues n g (next denied)) : Rescues n g (notOwner task i >>= next) := by
  unfold notOwner
  split
  · exact hnext false
  · simp only [perform_bind, call_bind, pure_eq_ret, ret_bind]
    exact ⟨trivial, fun _ _ => hnext _⟩

theorem rescues_lockedByOther {i : Slot} {next : Bool → Prog WorkerCall ResponseMessage}
    (hnext : ∀ locked, Rescues n g (next locked)) :
    Rescues n g (lockedByOther task i >>= next) := by
  simp only [lockedByOther, perform_bind, call_bind]
  refine ⟨trivial, fun holder _ => ?_⟩
  dsimp only
  split
  · exact hnext false
  · simp only [call_bind, pure_eq_ret, ret_bind]
    exact ⟨trivial, fun _ _ => hnext _⟩

/-- The number in the record is read, and the content is saved under it. -/
theorem rescues_backup {i : Slot} {next : ℤ → Prog WorkerCall ResponseMessage}
    (hnext : ∀ result, Rescues n ⟨some i, .backed⟩ (next result)) :
    Rescues n ⟨some i, .intact⟩
      (.call (.version i) fun k => .call (.saveVersion task.filename k) next) :=
  ⟨⟨rfl, rfl⟩, fun _ hk => ⟨⟨hk, rfl⟩, fun result _ => hnext result⟩⟩

theorem rescues_uploadWrite : Rescues n ⟨slot, .backed⟩ (uploadWrite task) := by
  simp only [uploadWrite, perform_bind]
  refine ⟨rfl, fun saved _ => ?_⟩
  dsimp only
  split
  · exact rescues_answer
  · refine ⟨rfl, fun added hadded => ?_⟩
    dsimp only
    -- there is a record, so none has to be made, and the upload is not taken back
    rw [if_neg (not_lt.mpr hadded)]
    exact rescues_answer

theorem rescues_uploadOwned : Rescues n ⟨slot, .intact⟩ (uploadOwned task) := by
  simp only [uploadOwned, perform_bind]
  refine rescues_find fun i => ?_
  apply rescues_notOwner
  intro denied
  cases denied with
  | true => exact ⟨trivial, fun _ _ => rescues_answer⟩
  | false => exact rescues_backup fun _ => rescues_uploadWrite

theorem rescues_processUpload : Rescues n ⟨slot, .intact⟩ (processUpload task) := by
  simp only [processUpload, perform_bind]
  refine ⟨trivial, fun lock _ => ?_⟩
  obtain ⟨locked, locker⟩ := lock
  cases locked with
  | false => exact rescues_uploadOwned
  | true =>
      refine rescues_find fun i => ⟨trivial, fun holder _ => ?_⟩
      dsimp only
      split
      · exact rescues_answer
      · exact rescues_uploadOwned

theorem rescues_processDownload : Rescues n g (processDownload task) := by
  simp only [processDownload, perform_bind]
  refine rescues_find fun i => ⟨trivial, fun out _ => ?_⟩
  obtain ⟨result, bytes⟩ := out
  dsimp only
  split <;> exact rescues_answer

theorem rescues_processVersion : Rescues n g (processVersion task) := by
  simp only [processVersion, perform_bind]
  refine ⟨trivial, fun out _ => ?_⟩
  obtain ⟨result, info⟩ := out
  dsimp only
  split <;> exact trivial

theorem rescues_processEdit : Rescues n g (processEdit task) := by
  simp only [processEdit, perform_bind]
  refine rescues_find fun i => ?_
  apply rescues_notOwner
  intro denied
  cases denied with
  | true => exact ⟨trivial, fun _ _ => rescues_answer⟩
  | false =>
      refine ⟨trivial, fun lockResult _ => ?_⟩
      dsimp only
      split
      · exact rescues_answer
      · split
        · exact ⟨trivial, fun _ _ => rescues_answer⟩
        · refine ⟨trivial, fun out _ => ?_⟩
          obtain ⟨result, bytes⟩ := out
          dsimp only
          split
          · exact ⟨trivial, fun _ _ => rescues_answer⟩
          · exact rescues_answer

theorem rescues_processSave : Rescues n ⟨slot, .intact⟩ (processSave task) := by
  unfold processSave
  split
  · exact rescues_answer
  · simp only [perform_bind]
    refine rescues_find fun i => ⟨trivial, fun holder _ => ?_⟩
    dsimp only
    split
    · exact rescues_answer
    · simp only [saveWrite, perform_bind]
      refine rescues_backup fun _ => ⟨rfl, fun saved _ => ?_⟩
      dsimp only
      split
      · exact rescues_answer
      · refine ⟨rfl, fun updated _ => ?_⟩
        dsimp only
        split
        · exact rescues_answer
        · exact ⟨trivial, fun _ _ => rescues_answer⟩

theorem rescues_processUnlock : Rescues n g (processUnlock task) := by
  simp only [processUnlock, perform_bind]
  refine ⟨trivial, fun result _ => ?_⟩
  dsimp only
  split
  · exact rescues_answer
  · split <;> exact rescues_answer

theorem rescues_processHistory : Rescues n g (processHistory task) := by
  simp only [processHistory, perform_bind]
  exact rescues_find fun i => ⟨trivial, fun _ _ => trivial⟩

theorem rescues_processRollback : Rescues n ⟨slot, .intact⟩ (processRollback task) := by
  simp only [processRollback, perform_bind]
  refine rescues_find fun i => ?_
  apply rescues_notOwner
  intro denied
  cases denied with
  | true => exact ⟨trivial, fun _ _ => rescues_answer⟩
  | false =>
      apply rescues_lockedByOther
      intro locked
      cases locked with
      | true => exact ⟨trivial, fun _ _ => trivial⟩
      | false =>
          simp only [Bool.false_eq_true, if_false, rollbackRestore, perform_bind]
          refine rescues_backup fun _ => ⟨rfl, fun newSize _ => ?_⟩
          dsimp only
          split
          · exact rescues_answer
          · exact ⟨rfl, fun _ _ => rescues_answer⟩

theorem rescues_processDelversion : Rescues n ⟨slot, .intact⟩ (processDelversion task) := by
  simp only [processDelversion, perform_bind]
  refine rescues_find fun i => ?_
  apply rescues_notOwner
  intro denied
  cases denied with
  | true => exact rescues_answer
  | false =>
      refine ⟨rfl, fun deleted _ => ?_⟩
      dsimp only
      split <;> exact rescues_answer

/-- Every task but a `DELETE` keeps the contract. -/
theorem processTask_rescues (n : ℤ) (hop : task.operation ≠ .delete) :
    Rescues n (rescuing n).start (processTask task) := by
  unfold processTask
  split
  · exact rescues_processUpload
  · exact rescues_processDownload
  · next hdelete => exact absurd hdelete hop
  · exact ⟨trivial, fun _ _ => trivial⟩
  · exact rescues_processVersion
  · exact rescues_processEdit
  · exact rescues_processSave
  · exact rescues_processUnlock
  · exact rescues_processHistory
  · exact rescues_processRollback
  · exact ⟨trivial, fun _ _ => trivial⟩
  · exact rescues_processDelversion
  · trivial

end Texts

end CloudSync
