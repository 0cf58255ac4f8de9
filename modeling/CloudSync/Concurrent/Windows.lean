import CloudSync.State.Calls
import CloudSync.Lib.Interleaving

/-!
# Between a write and its metadata

Every operation that writes the content of a file writes first and then brings the
record up to date.  In between the task's window is open: `window` says what the
task has done to the content, and `processTask_timely` that each of its calls
comes at the right time, with the size of what it has written, and that its
window is closed when it returns.
-/

namespace CloudSync

open CText Calls Calls.Prog Files

/-- What a task has done to the content without having told the metadata.  After
`add_file_metadata` has found the array full, `UPLOAD` has its own write to undo. -/
inductive Window
  | closed
  | wrote (size : ℤ)
  | undo (size : ℤ)
  | removed
  deriving DecidableEq

/-- The window, read off the calls and their answers. -/
def window : Monitor WorkerCall Window where
  start := .closed
  next := fun g c answer =>
    match c, answer with
    | .saveFile _ data, result => if result < 0 then g else .wrote data.length
    | .restoreVersion _ _, result => if result < 0 then g else .wrote result
    | .removeFileFromStorage _, result =>
        match g with
        | .undo _ => .closed
        | g => if result < 0 then g else .removed
    | .addFileMetadata _ _ _ size, result => if result < 0 then .undo size else .closed
    | .updateFileMetadata _ _, _ => .closed
    | .removeFileMetadata _, _ => .closed
    | _, _ => g

/-- What a call presupposes of the window. -/
def Timely (task : TaskMessage) (g : Window) : {β : Type} → WorkerCall β → Prop
  | _, .saveFile f _ => f = task.filename ∧ g = .closed
  | _, .restoreVersion f _ => f = task.filename ∧ g = .closed
  | _, .removeFileFromStorage f => f = task.filename ∧ (g = .closed ∨ ∃ size, g = .undo size)
  | _, .addFileMetadata f _ _ size => f = task.filename ∧ g = .wrote size
  | _, .updateFileMetadata f size => f = task.filename ∧ g = .wrote size
  | _, .removeFileMetadata f => f = task.filename ∧ g = .removed
  | _, c => ∀ f ∈ c.filename, f = task.filename

/-- All calls of a program are timely, and its window is closed at the end. -/
abbrev Timed {α : Type} (task : TaskMessage) (g : Window) (prog : Prog WorkerCall α) : Prop :=
  Obeys window (Timely task) (· = .closed) g prog

variable {task : TaskMessage} {g : Window}

/-- A call is about the task's file. -/
theorem Timely.filename {β : Type} {c : WorkerCall β} (h : Timely task g c) :
    ∀ f ∈ c.filename, f = task.filename := by
  intro f hf
  cases c <;> first
    | exact h f hf
    | (obtain rfl := Option.some.inj hf
       exact h.1)

/-! ## The operations -/

theorem own_filename {f : Bytes} (hf : f ∈ some task.filename) : f = task.filename :=
  (Option.some.inj hf).symm

theorem timed_answer (result : String) (status : Status) (message data : Bytes) :
    Timed task .closed (answer task result status message data) := by
  simp only [answer, audit, perform_bind, pure_eq_ret]
  exact ⟨fun f hf => absurd hf (Option.not_mem_none _), fun _ => rfl⟩

/-- A call that is not about the content or the metadata leaves the window as it is. -/
theorem timed_read {α β : Type} {c : WorkerCall β} {next : β → Prog WorkerCall α}
    (htimely : Timely task g c) (hkept : ∀ answer, window.next g c answer = g)
    (hnext : ∀ answer, Timed task g (next answer)) : Timed task g (.call c next) := by
  refine ⟨htimely, fun answer => ?_⟩
  rw [hkept]
  exact hnext answer

/-- A call may fail, with or without an effect on the window. -/
theorem timed_result {result : ℤ} {g₁ g₂ : Window} {failed passed : Prog WorkerCall ResponseMessage}
    (hfailed : Timed task g₁ failed) (hpassed : Timed task g₂ passed) :
    Timed task (if result < 0 then g₁ else g₂) (if result < 0 then failed else passed) := by
  split
  · exact hfailed
  · exact hpassed

theorem timed_notOwner {α : Type} {i : Slot} {next : Bool → Prog WorkerCall α}
    (hnext : ∀ refused, Timed task g (next refused)) : Timed task g (notOwner task i >>= next) := by
  unfold notOwner
  split
  · exact hnext false
  · exact timed_read (fun f hf => absurd hf (Option.not_mem_none _)) (fun _ => rfl) fun _ => hnext _

theorem timed_lockedByOther {α : Type} {i : Slot} {next : Bool → Prog WorkerCall α}
    (hnext : ∀ locked, Timed task g (next locked)) :
    Timed task g (lockedByOther task i >>= next) := by
  simp only [lockedByOther, perform_bind, call_bind]
  refine timed_read (fun f hf => absurd hf (Option.not_mem_none _)) (fun _ => rfl) fun holder => ?_
  split
  · exact hnext false
  · exact timed_read (fun f hf => absurd hf (Option.not_mem_none _)) (fun _ => rfl) fun _ => hnext _

theorem timed_uploadWrite : Timed task .closed (uploadWrite task) := by
  simp only [uploadWrite, perform_bind]
  refine ⟨⟨rfl, rfl⟩, fun result => timed_result (timed_answer _ _ _ _) ?_⟩
  refine ⟨⟨rfl, rfl⟩, fun result => timed_result ?_ (timed_answer _ _ _ _)⟩
  exact ⟨⟨rfl, Or.inr ⟨_, rfl⟩⟩, fun _ => timed_answer _ _ _ _⟩

theorem timed_uploadOwned : Timed task .closed (uploadOwned task) := by
  simp only [uploadOwned, perform_bind]
  refine timed_read (fun _ => own_filename) (fun _ => rfl) fun existing => ?_
  cases existing with
  | none => exact timed_uploadWrite
  | some i =>
      apply timed_notOwner
      intro refused
      split
      · exact timed_read (fun f hf => absurd hf (Option.not_mem_none _)) (fun _ => rfl)
          fun _ => timed_answer _ _ _ _
      · refine timed_read (fun f hf => absurd hf (Option.not_mem_none _)) (fun _ => rfl)
          fun _ => ?_
        exact timed_read (fun _ => own_filename) (fun _ => rfl) fun _ => timed_uploadWrite

theorem timed_processUpload : Timed task .closed (processUpload task) := by
  simp only [processUpload, perform_bind]
  refine timed_read (fun _ => own_filename) (fun _ => rfl) fun locked => ?_
  split
  · refine timed_read (fun _ => own_filename) (fun _ => rfl) fun existing => ?_
    cases existing with
    | none => exact timed_uploadOwned
    | some i =>
        refine timed_read (fun f hf => absurd hf (Option.not_mem_none _)) (fun _ => rfl)
          fun holder => ?_
        split
        · exact timed_answer _ _ _ _
        · exact timed_uploadOwned
  · exact timed_uploadOwned

theorem timed_processDownload : Timed task .closed (processDownload task) := by
  simp only [processDownload, perform_bind]
  refine timed_read (fun _ => own_filename) (fun _ => rfl) fun existing => ?_
  cases existing with
  | none => exact timed_answer _ _ _ _
  | some i =>
      refine timed_read (fun _ => own_filename) (fun _ => rfl) fun answer => ?_
      split <;> exact timed_answer _ _ _ _

theorem timed_processDelete : Timed task .closed (processDelete task) := by
  simp only [processDelete, perform_bind]
  refine timed_read (fun _ => own_filename) (fun _ => rfl) fun existing => ?_
  cases existing with
  | none => exact timed_answer _ _ _ _
  | some i =>
      apply timed_notOwner
      intro refused
      split
      · exact timed_answer _ _ _ _
      apply timed_lockedByOther
      intro locked
      split
      · exact timed_read (fun f hf => absurd hf (Option.not_mem_none _)) (fun _ => rfl)
          fun _ => timed_answer _ _ _ _
      refine ⟨⟨rfl, Or.inl rfl⟩, fun result => timed_result (timed_answer _ _ _ _) ?_⟩
      refine ⟨⟨rfl, rfl⟩, fun result => ?_⟩
      dsimp only
      split <;> exact timed_answer _ _ _ _

theorem timed_processEdit : Timed task .closed (processEdit task) := by
  simp only [processEdit, perform_bind]
  refine timed_read (fun _ => own_filename) (fun _ => rfl) fun existing => ?_
  cases existing with
  | none => exact timed_answer _ _ _ _
  | some i =>
      apply timed_notOwner
      intro refused
      split
      · exact timed_read (fun f hf => absurd hf (Option.not_mem_none _)) (fun _ => rfl)
          fun _ => timed_answer _ _ _ _
      refine timed_read (fun _ => own_filename) (fun _ => rfl) fun result => ?_
      split
      · exact timed_answer _ _ _ _
      split
      · exact timed_read (fun _ => own_filename) (fun _ => rfl) fun _ => timed_answer _ _ _ _
      refine timed_read (fun _ => own_filename) (fun _ => rfl) fun answer => ?_
      split
      · exact timed_read (fun _ => own_filename) (fun _ => rfl) fun _ => timed_answer _ _ _ _
      · exact timed_answer _ _ _ _

theorem timed_processSave : Timed task .closed (processSave task) := by
  simp only [processSave]
  split
  · exact timed_answer _ _ _ _
  simp only [perform_bind]
  refine timed_read (fun _ => own_filename) (fun _ => rfl) fun existing => ?_
  cases existing with
  | none => exact rfl
  | some i =>
      refine timed_read (fun f hf => absurd hf (Option.not_mem_none _)) (fun _ => rfl)
        fun holder => ?_
      split
      · exact timed_answer _ _ _ _
      simp only [saveWrite, perform_bind]
      refine timed_read (fun f hf => absurd hf (Option.not_mem_none _)) (fun _ => rfl)
        fun version => ?_
      refine timed_read (fun _ => own_filename) (fun _ => rfl) fun _ => ?_
      refine ⟨⟨rfl, rfl⟩, fun result => timed_result (timed_answer _ _ _ _) ?_⟩
      refine ⟨⟨rfl, rfl⟩, fun result => ?_⟩
      dsimp only
      split
      · exact timed_answer _ _ _ _
      · exact timed_read (fun _ => own_filename) (fun _ => rfl) fun _ => timed_answer _ _ _ _

theorem timed_processUnlock : Timed task .closed (processUnlock task) := by
  simp only [processUnlock, perform_bind]
  refine timed_read (fun _ => own_filename) (fun _ => rfl) fun result => ?_
  split
  · exact timed_answer _ _ _ _
  · split <;> exact timed_answer _ _ _ _

theorem timed_processRollback : Timed task .closed (processRollback task) := by
  simp only [processRollback, perform_bind]
  refine timed_read (fun _ => own_filename) (fun _ => rfl) fun existing => ?_
  cases existing with
  | none => exact timed_answer _ _ _ _
  | some i =>
      apply timed_notOwner
      intro refused
      split
      · exact timed_read (fun f hf => absurd hf (Option.not_mem_none _)) (fun _ => rfl)
          fun _ => timed_answer _ _ _ _
      apply timed_lockedByOther
      intro locked
      split
      · exact timed_read (fun f hf => absurd hf (Option.not_mem_none _)) (fun _ => rfl)
          fun _ => rfl
      simp only [rollbackRestore, perform_bind]
      refine timed_read (fun f hf => absurd hf (Option.not_mem_none _)) (fun _ => rfl)
        fun version => ?_
      refine timed_read (fun _ => own_filename) (fun _ => rfl) fun _ => ?_
      refine ⟨⟨rfl, rfl⟩, fun result => timed_result (timed_answer _ _ _ _) ?_⟩
      exact ⟨⟨rfl, rfl⟩, fun _ => timed_answer _ _ _ _⟩

theorem timed_processDelversion : Timed task .closed (processDelversion task) := by
  simp only [processDelversion, perform_bind]
  refine timed_read (fun _ => own_filename) (fun _ => rfl) fun existing => ?_
  cases existing with
  | none => exact timed_answer _ _ _ _
  | some i =>
      refine timed_notOwner fun refused => ?_
      split
      · exact timed_answer _ _ _ _
      refine timed_read (fun _ => own_filename) (fun _ => rfl) fun result => ?_
      split <;> exact timed_answer _ _ _ _

theorem processTask_timely (task : TaskMessage) : Timed task .closed (processTask task) := by
  unfold processTask
  split
  · exact timed_processUpload
  · exact timed_processDownload
  · exact timed_processDelete
  · exact timed_read (fun f hf => absurd hf (Option.not_mem_none _)) (fun _ => rfl) fun _ => rfl
  · simp only [processVersion, perform_bind]
    refine timed_read (fun _ => own_filename) (fun _ => rfl) fun answer => ?_
    split <;> exact rfl
  · exact timed_processEdit
  · exact timed_processSave
  · exact timed_processUnlock
  · simp only [processHistory, perform_bind]
    refine timed_read (fun _ => own_filename) (fun _ => rfl) fun existing => ?_
    cases existing with
    | none => exact rfl
    | some i => exact timed_read (fun _ => own_filename) (fun _ => rfl) fun _ => rfl
  · exact timed_processRollback
  · exact timed_read (fun f hf => absurd hf (Option.not_mem_none _)) (fun _ => rfl) fun _ => rfl
  · exact timed_processDelversion
  · exact rfl

end CloudSync
