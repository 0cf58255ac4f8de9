import CloudSync.Lib.Logs
import CloudSync.Sequential.Spec
import CloudSync.State.Checks

/-!
# One audit entry for every attempt

`process_task` writes its audit entry on each exit path by hand.  For the operations that
modify files every path has one, with the result that goes with the status, except two: a
`SAVE` of a file that is not there, and a `ROLLBACK` of a file that another user is
editing.  So an attempt is recorded exactly once if and only if the state is not one in
which it ends on these paths (`audited_iff`).
-/

namespace CloudSync

open CText Calls Calls.Prog FileState

/-! ## Calls of `write_audit_entry` -/

/-- The arguments of `write_audit_entry`. -/
structure EntryArguments where
  username : Bytes
  operation : Bytes
  filename : Bytes
  result : Bytes
  deriving DecidableEq

def WorkerCall.entry? : {β : Type} → WorkerCall β → Option EntryArguments
  | _, .writeAuditEntry username operation filename result =>
      some ⟨username, operation, filename, result⟩
  | _, _ => none

/-- The calls of `write_audit_entry` while the task is processed. -/
def auditCalls (env : ℕ → Env) (task : TaskMessage) (world : World) : List EntryArguments :=
  logged WorkerCall.entry? worker (processTask task) env world

/-- The results that are written for a success. -/
def successResults : List Bytes := [text "SUCCESS", text "LOCK_ACQUIRED", text "UNLOCKED"]

/-- There is one entry, it is the task's, and it says success if the response does. -/
def AuditedOnce (task : TaskMessage) (calls : List EntryArguments) (resp : ResponseMessage) :
    Prop :=
  ∃ result,
    calls = [⟨task.username, operationToString task.operation, task.filename, result⟩] ∧
      (result ∈ successResults ↔ resp.status = .success)

/-- The two ways in which an attempt leaves no entry: to save a file that is not there,
and to roll back a file that is locked. -/
def Unaudited (task : TaskMessage) (world : World) : Prop :=
  (task.operation = .save ∧ task.role ≠ roleGuest ∧
    record? world.metadata task.filename = none) ∨
  (task.operation = .rollback ∧ ∃ r, record? world.metadata task.filename = some r ∧
    ¬ NotOwner task r ∧ LockedByOther task r)

variable {task : TaskMessage}

/-! ## Exit paths -/

section Paths

/-- Whatever the calls answer, there is one entry. -/
abbrev AuditsOnce (task : TaskMessage) (prog : Prog WorkerCall ResponseMessage) : Prop :=
  Logs WorkerCall.entry? prog (AuditedOnce task)

theorem auditsOnce_answer {result : String} {status : Status} (message data : Bytes)
    (hresult : text result ∈ successResults ↔ status = .success) :
    AuditsOnce task (answer task result status message data) :=
  fun _ => ⟨text result, rfl, hresult⟩

theorem auditsOnce_notOwner {i : Slot} {next : Bool → Prog WorkerCall ResponseMessage}
    (hnext : ∀ refused, AuditsOnce task (next refused)) :
    AuditsOnce task (notOwner task i >>= next) := by
  unfold notOwner
  split
  · exact hnext false
  · exact logs_silent rfl fun _ => hnext _

theorem auditsOnce_lockedByOther {i : Slot} {next : Bool → Prog WorkerCall ResponseMessage}
    (hnext : ∀ locked, AuditsOnce task (next locked)) :
    AuditsOnce task (lockedByOther task i >>= next) := by
  simp only [lockedByOther, perform_bind, call_bind]
  refine logs_silent rfl fun holder => ?_
  split
  · exact hnext false
  · exact logs_silent rfl fun _ => hnext _

theorem auditsOnce_uploadWrite : AuditsOnce task (uploadWrite task) := by
  simp only [uploadWrite, perform_bind]
  refine logs_silent rfl fun saved => logs_ite (auditsOnce_answer _ _ (by decide)) ?_
  refine logs_silent rfl fun added => logs_ite ?_ (auditsOnce_answer _ _ (by decide))
  exact logs_silent rfl fun removed => auditsOnce_answer _ _ (by decide)

theorem auditsOnce_uploadOwned : AuditsOnce task (uploadOwned task) := by
  simp only [uploadOwned, perform_bind]
  refine logs_silent rfl fun existing => ?_
  cases existing with
  | none => exact auditsOnce_uploadWrite
  | some i =>
      refine auditsOnce_notOwner fun refused => logs_ite ?_ ?_
      · exact logs_silent rfl fun owner => auditsOnce_answer _ _ (by decide)
      · exact logs_silent rfl fun version => logs_silent rfl fun backup => auditsOnce_uploadWrite

theorem auditsOnce_processUpload : AuditsOnce task (processUpload task) := by
  simp only [processUpload, perform_bind]
  refine logs_silent rfl fun locked => logs_ite ?_ auditsOnce_uploadOwned
  refine logs_silent rfl fun found => ?_
  cases found with
  | none => exact auditsOnce_uploadOwned
  | some i =>
      refine logs_silent rfl fun holder => logs_ite ?_ auditsOnce_uploadOwned
      exact auditsOnce_answer _ _ (by decide)

theorem auditsOnce_processDelete : AuditsOnce task (processDelete task) := by
  simp only [processDelete, perform_bind]
  refine logs_silent rfl fun found => ?_
  cases found with
  | none => exact auditsOnce_answer _ _ (by decide)
  | some i =>
      refine auditsOnce_notOwner fun refused => logs_ite (auditsOnce_answer _ _ (by decide)) ?_
      refine auditsOnce_lockedByOther fun locked => logs_ite ?_ ?_
      · exact logs_silent rfl fun locker => auditsOnce_answer _ _ (by decide)
      · refine logs_silent rfl fun removed => logs_ite (auditsOnce_answer _ _ (by decide)) ?_
        refine logs_silent rfl fun removed => logs_ite ?_ ?_ <;>
          exact auditsOnce_answer _ _ (by decide)

theorem auditsOnce_processEdit : AuditsOnce task (processEdit task) := by
  simp only [processEdit, perform_bind]
  refine logs_silent rfl fun found => ?_
  cases found with
  | none => exact auditsOnce_answer _ _ (by decide)
  | some i =>
      refine auditsOnce_notOwner fun refused => logs_ite ?_ ?_
      · exact logs_silent rfl fun owner => auditsOnce_answer _ _ (by decide)
      · refine logs_silent rfl fun acquired => logs_ite (auditsOnce_answer _ _ (by decide)) ?_
        refine logs_ite ?_ ?_
        · exact logs_silent rfl fun locker => auditsOnce_answer _ _ (by decide)
        · refine logs_silent rfl fun read => logs_ite ?_ (auditsOnce_answer _ _ (by decide))
          exact logs_silent rfl fun released => auditsOnce_answer _ _ (by decide)

theorem auditsOnce_saveWrite (i : Slot) : AuditsOnce task (saveWrite task i) := by
  simp only [saveWrite, perform_bind]
  refine logs_silent rfl fun version => logs_silent rfl fun backup => ?_
  refine logs_silent rfl fun saved => logs_ite (auditsOnce_answer _ _ (by decide)) ?_
  refine logs_silent rfl fun updated => logs_ite (auditsOnce_answer _ _ (by decide)) ?_
  exact logs_silent rfl fun released => auditsOnce_answer _ _ (by decide)

theorem auditsOnce_processUnlock : AuditsOnce task (processUnlock task) := by
  simp only [processUnlock, perform_bind]
  refine logs_silent rfl fun released => logs_ite (auditsOnce_answer _ _ (by decide)) ?_
  refine logs_ite ?_ ?_ <;> exact auditsOnce_answer _ _ (by decide)

theorem auditsOnce_rollbackRestore (i : Slot) : AuditsOnce task (rollbackRestore task i) := by
  simp only [rollbackRestore, perform_bind]
  refine logs_silent rfl fun version => logs_silent rfl fun backup => ?_
  refine logs_silent rfl fun size => logs_ite (auditsOnce_answer _ _ (by decide)) ?_
  exact logs_silent rfl fun updated => auditsOnce_answer _ _ (by decide)

theorem auditsOnce_processDelversion : AuditsOnce task (processDelversion task) := by
  simp only [processDelversion, perform_bind]
  refine logs_silent rfl fun found => ?_
  cases found with
  | none => exact auditsOnce_answer _ _ (by decide)
  | some i =>
      refine auditsOnce_notOwner fun refused => logs_ite (auditsOnce_answer _ _ (by decide)) ?_
      refine logs_silent rfl fun removed => logs_ite ?_ ?_ <;>
        exact auditsOnce_answer _ _ (by decide)

end Paths

/-! ## Runs -/

section Runs

/-- In this run there is one entry. -/
abbrev Audited (task : TaskMessage) (prog : Prog WorkerCall ResponseMessage) (env : ℕ → Env)
    (world : World) : Prop :=
  AuditedOnce task (logged WorkerCall.entry? worker prog env world) (prog.run worker env world).1

variable {env : ℕ → Env} {world : World}

/-- A response that comes without an entry. -/
theorem not_audited_ret (resp : ResponseMessage) : ¬ Audited task (.ret resp) env world := by
  rintro ⟨result, hnone, -⟩
  exact List.cons_ne_nil _ _ hnone.symm

/-- A first call that leaves no entry and changes nothing. -/
theorem audited_call {β : Type} {c : WorkerCall β}
    {next : β → Prog WorkerCall ResponseMessage} (hc : c.entry? = none) :
    Audited task (.call c next) env world ↔
      Audited task (next (worker.exec (env 0) c world).1) (fun i => env (i + 1))
        (worker.exec (env 0) c world).2 := by
  rw [Audited, logged_silent hc, run_call]

theorem audited_find {f : Bytes} {next : Option Slot → Prog WorkerCall ResponseMessage} :
    Audited task (.call (.findFileMetadata f) next) env world ↔
      Audited task (next (findSlot world.metadata f)) (fun i => env (i + 1)) world :=
  audited_call rfl

variable {i : Slot} {next : Bool → Prog WorkerCall ResponseMessage} {p : Prop}

theorem audited_notOwner (hnext : ∀ env,
    Audited task (next (decide (NotOwner task (world.metadata i)))) env world ↔ p) :
    Audited task (notOwner task i >>= next) env world ↔ p := by
  unfold notOwner
  split
  · next hadmin =>
    rw [show decide (NotOwner task (world.metadata i)) = false from
      decide_eq_false fun h => h.1 hadmin] at hnext
    exact hnext env
  · next hrole =>
    have howner : ((world.metadata i).ownerId != task.userId) =
        decide (NotOwner task (world.metadata i)) := by
      simp [NotOwner, hrole, bne, beq_eq_decide]
    simp only [perform_bind, call_bind, pure_eq_ret, ret_bind]
    rw [audited_call rfl]
    change Audited task (next ((world.metadata i).ownerId != task.userId)) _ world ↔ p
    rw [howner]
    exact hnext _

theorem audited_lockedByOther (hnext : ∀ env,
    Audited task (next (decide (LockedByOther task (world.metadata i)))) env world ↔ p) :
    Audited task (lockedByOther task i >>= next) env world ↔ p := by
  simp only [lockedByOther, perform_bind, call_bind]
  rw [audited_call rfl]
  change Audited task ((if (world.metadata i).lockedByUserId = -1 then _ else _) >>= next) _
    world ↔ p
  split
  · next hfree =>
    rw [show decide (LockedByOther task (world.metadata i)) = false from
      decide_eq_false fun h => h.1 hfree] at hnext
    exact hnext _
  · next hheld =>
    have hholder : ((world.metadata i).lockedByUserId != task.userId) =
        decide (LockedByOther task (world.metadata i)) := by
      simp [LockedByOther, hheld, bne, beq_eq_decide]
    simp only [call_bind, pure_eq_ret, ret_bind]
    rw [audited_call rfl]
    change Audited task (next ((world.metadata i).lockedByUserId != task.userId)) _ world ↔ p
    rw [hholder]
    exact hnext _

theorem audited_processSave : Audited task (processSave task) env world ↔
    ¬ (task.role ≠ roleGuest ∧ record? world.metadata task.filename = none) := by
  unfold processSave
  split
  · next hguest =>
    exact iff_of_true ((auditsOnce_answer _ _ (by decide)).run env world) fun h => h.1 hguest
  · next hrole =>
    simp only [perform_bind]
    rw [audited_find, record?_eq_none]
    cases hfind : findSlot world.metadata task.filename with
    | none => exact iff_of_false (not_audited_ret _) fun h => h ⟨hrole, rfl⟩
    | some i =>
        refine iff_of_true (Logs.run (logs_silent rfl fun holder => ?_) _ world) (by simp)
        exact logs_ite (auditsOnce_answer _ _ (by decide)) (auditsOnce_saveWrite i)

theorem audited_processRollback : Audited task (processRollback task) env world ↔
    ¬ ∃ r, record? world.metadata task.filename = some r ∧ ¬ NotOwner task r ∧
      LockedByOther task r := by
  simp only [processRollback, perform_bind]
  rw [audited_find]
  cases hfind : findSlot world.metadata task.filename with
  | none =>
      refine iff_of_true ((auditsOnce_answer _ _ (by decide)).run _ world) ?_
      rintro ⟨r, hr, -⟩
      rw [record?_eq_none.mpr hfind] at hr
      exact absurd hr (by simp)
  | some i =>
      rw [record?_of_findSlot hfind]
      simp only [Option.some.injEq, exists_eq_left']
      apply audited_notOwner
      intro env
      by_cases howner : NotOwner task (world.metadata i)
      · rw [decide_eq_true howner, if_pos rfl]
        refine iff_of_true (Logs.run (logs_silent rfl fun owner => ?_) _ world) fun h => h.1 howner
        exact auditsOnce_answer _ _ (by decide)
      rw [decide_eq_false howner, if_neg Bool.false_ne_true]
      apply audited_lockedByOther
      intro env
      by_cases hlocked : LockedByOther task (world.metadata i)
      · rw [decide_eq_true hlocked, if_pos rfl]
        refine iff_of_false ?_ fun h => h ⟨howner, hlocked⟩
        -- the response is sent without an entry
        rw [audited_call rfl]
        exact not_audited_ret _
      · rw [decide_eq_false hlocked, if_neg Bool.false_ne_true]
        exact iff_of_true ((auditsOnce_rollbackRestore i).run _ world) fun h => hlocked h.2

/-- An attempt to modify a file is recorded exactly once if and only if it does not end on
one of the two paths. -/
theorem audited_iff (env : ℕ → Env) (task : TaskMessage) (world : World)
    (hmodifies : task.operation.modifies = true) :
    AuditedOnce task (auditCalls env task world) (serve env task world).1 ↔
      ¬ Unaudited task world := by
  change Audited task (processTask task) env world ↔ _
  have honce : ∀ {prog : Prog WorkerCall ResponseMessage}, AuditsOnce task prog →
      task.operation ≠ .save → task.operation ≠ .rollback →
        (Audited task prog env world ↔ ¬ Unaudited task world) :=
    fun hprog hsave hrollback => iff_of_true (hprog.run env world) fun h =>
      h.elim (fun h => hsave h.1) fun h => hrollback h.1
  unfold processTask
  cases hop : task.operation with
  | upload => exact honce auditsOnce_processUpload (by simp [hop]) (by simp [hop])
  | delete => exact honce auditsOnce_processDelete (by simp [hop]) (by simp [hop])
  | edit => exact honce auditsOnce_processEdit (by simp [hop]) (by simp [hop])
  | unlock => exact honce auditsOnce_processUnlock (by simp [hop]) (by simp [hop])
  | delversion => exact honce auditsOnce_processDelversion (by simp [hop]) (by simp [hop])
  | save =>
      refine audited_processSave.trans (not_congr ?_)
      simp [Unaudited, hop]
  | rollback =>
      refine audited_processRollback.trans (not_congr ?_)
      simp [Unaudited, hop]
  | _ => rw [hop] at hmodifies; exact Bool.noConfusion hmodifies

end Runs

/-- User 2 saves the file `a`. -/
def saveOfA : TaskMessage := sampleTask .save 2 roleUser "one"

/-- Saving a file that is not there is answered without an entry. -/
theorem save_unrecorded : saveOfA.operation.modifies = true ∧
    (Env.calm 0).auditOpen = true ∧
      (serve (fun _ => Env.calm 0) saveOfA freshWorld).1.status = .fileNotFound ∧
        auditCalls (fun _ => Env.calm 0) saveOfA freshWorld = [] ∧
          ¬ AuditedOnce saveOfA (auditCalls (fun _ => Env.calm 0) saveOfA freshWorld)
            (serve (fun _ => Env.calm 0) saveOfA freshWorld).1 := by
  have hnone : auditCalls (fun _ => Env.calm 0) saveOfA freshWorld = [] := by decide +kernel
  refine ⟨rfl, rfl, by decide +kernel, hnone, ?_⟩
  rintro ⟨result, hone, -⟩
  rw [hnone] at hone
  exact List.cons_ne_nil _ _ hone.symm

/-- An upload is recorded. -/
theorem upload_recorded :
    AuditedOnce (sampleTask .upload 2 roleUser "one")
      (auditCalls (fun _ => Env.calm 0) (sampleTask .upload 2 roleUser "one") freshWorld)
      (serve (fun _ => Env.calm 0) (sampleTask .upload 2 roleUser "one") freshWorld).1 :=
  (audited_iff (fun _ => Env.calm 0) _ freshWorld rfl).mpr fun h =>
    h.elim (fun h => Operation.noConfusion h.1) fun h => Operation.noConfusion h.1

end CloudSync
