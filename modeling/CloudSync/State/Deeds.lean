import CloudSync.Lib.Contracts
import CloudSync.Worker

/-!
# What a task does to its file, and what it answers

`deeds` follows a task through its calls: whether it has found the record of its file, and
whether it has counted the version up, with `add_file_metadata` or `update_file_metadata`.

`processTask_honours` says of the text of `process_task` what the rest of the development
needs to know about contents and version numbers:

* `UPLOAD` and `SAVE` write the data of the task and nothing else does;
* a version is counted up at most once, and it has been when an operation that overwrites
  answers with success, and otherwise not;
* only `DELETE` removes a record;
* the data that `DOWNLOAD` and `EDIT` answer with are what `read_file` returned, or none.

`ROLLBACK` does not look at what `update_file_metadata` returns.  So the second point is
only so where the record cannot have gone since the task found it (`steady`).
-/

namespace CloudSync

open CText Calls Calls.Prog Files

/-- The operations that put a new content in place of the old one. -/
def Operation.overwrites : Operation → Bool
  | .upload => true
  | .save => true
  | .rollback => true
  | _ => false

/-- What a task has done: its last look-up has found a record, and it has counted the version
up. -/
structure Deeds where
  found : Bool
  counted : Bool

/-- The contract of a task.  `R` is what its reads return; `steady` says that records that
were found stay. -/
def deeds (R : Bytes → Prop) (steady : Prop) (task : TaskMessage) :
    Contract WorkerCall Deeds where
  start := ⟨false, false⟩
  next := fun g c answer =>
    match c, answer with
    | .findFileMetadata _, found => { g with found := found.isSome }
    | .addFileMetadata _ _ _ _, result => { g with counted := g.counted || decide (0 ≤ result) }
    | .updateFileMetadata _ _, result => { g with counted := g.counted || decide (0 ≤ result) }
    | _, _ => g
  rely := fun g _ c answer =>
    match c, answer with
    | .readFile _, (_, bytes) => R bytes
    | .updateFileMetadata _ _, result => steady → g.found = true → 0 ≤ result
    | _, _ => True
  guar := fun g _ c =>
    match c with
    | .saveFile _ data => data = task.data ∧ (task.operation = .upload ∨ task.operation = .save)
    | .addFileMetadata _ _ _ _ => g.counted = false
    | .updateFileMetadata _ _ => g.counted = false
    | .removeFileMetadata _ => task.operation = .delete
    | _ => True

/-- What a task has done when it answers. -/
structure Done (R : Bytes → Prop) (steady : Prop) (task : TaskMessage) (g : Deeds)
    (resp : ResponseMessage) : Prop where
  data : task.operation = .download ∨ task.operation = .edit → R resp.data
  counted : steady →
    (g.counted = true ↔ task.operation.overwrites = true ∧ resp.status = .success)

/-- The program keeps the contract of the task. -/
abbrev Does (R : Bytes → Prop) (steady : Prop) (task : TaskMessage) (g : Deeds)
    (prog : Prog WorkerCall ResponseMessage) : Prop :=
  Honours (deeds R steady task) (Done R steady task) g prog

section Does

variable {R : Bytes → Prop} {steady : Prop} {task : TaskMessage} {g : Deeds}

theorem does_answer {result : String} {status : Status} {message data : Bytes}
    (h : Done R steady task g (reply task status message data)) :
    Does R steady task g (answer task result status message data) := by
  simp only [answer, audit, perform_bind, pure_eq_ret]
  exact ⟨trivial, fun _ _ => h⟩

/-- An operation that overwrites has counted the version up exactly if it succeeds. -/
theorem done_of_overwrites (hop : task.operation.overwrites = true) {status : Status}
    {message data : Bytes} (h : steady → (g.counted = true ↔ status = .success)) :
    Done R steady task g (reply task status message data) where
  data := by
    rintro (hdownload | hedit)
    · rw [hdownload] at hop
      exact Bool.noConfusion hop
    · rw [hedit] at hop
      exact Bool.noConfusion hop
  counted := fun hsteady => (h hsteady).trans ⟨fun hs => ⟨hop, hs⟩, And.right⟩

/-- An operation that does not overwrite has not counted. -/
theorem done_of_keeps (hop : task.operation.overwrites = false) (hg : g.counted = false)
    {resp : ResponseMessage}
    (hdata : task.operation = .download ∨ task.operation = .edit → R resp.data) :
    Done R steady task g resp where
  data := hdata
  counted := fun _ => by
    rw [hg, hop]
    exact ⟨fun h => Bool.noConfusion h, fun h => Bool.noConfusion h.1⟩

theorem does_notOwner {i : Slot} {next : Bool → Prog WorkerCall ResponseMessage}
    (hnext : ∀ denied, Does R steady task g (next denied)) :
    Does R steady task g (notOwner task i >>= next) := by
  unfold notOwner
  split
  · exact hnext false
  · simp only [perform_bind, call_bind, pure_eq_ret, ret_bind]
    exact ⟨trivial, fun _ _ => hnext _⟩

theorem does_lockedByOther {i : Slot} {next : Bool → Prog WorkerCall ResponseMessage}
    (hnext : ∀ locked, Does R steady task g (next locked)) :
    Does R steady task g (lockedByOther task i >>= next) := by
  unfold lockedByOther
  simp only [perform_bind, call_bind]
  refine ⟨trivial, fun holder _ => ?_⟩
  dsimp only
  split
  · exact hnext false
  · simp only [call_bind, pure_eq_ret, ret_bind]
    exact ⟨trivial, fun _ _ => hnext _⟩

end Does

/-! ## The operations that overwrite -/

section Overwriting

variable {R : Bytes → Prop} {steady : Prop} {task : TaskMessage} {g : Deeds}

/-- A task that overwrites refuses, or fails, before it has counted. -/
theorem does_refuse (hop : task.operation.overwrites = true) (hg : g.counted = false)
    {result : String} {status : Status} {message data : Bytes} (hstatus : status ≠ .success) :
    Does R steady task g (answer task result status message data) := by
  refine does_answer (done_of_overwrites hop fun _ => ?_)
  rw [hg]
  exact ⟨fun h => Bool.noConfusion h, fun h => absurd h hstatus⟩

theorem does_uploadWrite (hop : task.operation = .upload) (hg : g.counted = false) :
    Does R steady task g (uploadWrite task) := by
  have hover : task.operation.overwrites = true := by rw [hop]; rfl
  simp only [uploadWrite, perform_bind]
  refine ⟨⟨rfl, Or.inl hop⟩, fun saved _ => ?_⟩
  dsimp only
  split
  · exact does_refuse hover (by exact hg) (by decide)
  · refine ⟨hg, fun added _ => ?_⟩
    dsimp only
    split
    · next hadded =>
      refine ⟨trivial, fun _ _ => does_refuse hover ?_ (by decide)⟩
      simp only [deeds, hg, Bool.false_or, decide_eq_false_iff_not]
      omega
    · next hadded =>
      refine does_answer (done_of_overwrites hover fun _ => ?_)
      simp only [deeds, hg, Bool.false_or, decide_eq_true_eq, iff_true]
      omega

theorem does_uploadOwned (hop : task.operation = .upload) (hg : g.counted = false) :
    Does R steady task g (uploadOwned task) := by
  have hover : task.operation.overwrites = true := by rw [hop]; rfl
  simp only [uploadOwned, perform_bind]
  refine ⟨trivial, fun found _ => ?_⟩
  cases found with
  | none => exact does_uploadWrite hop (by exact hg)
  | some i =>
      apply does_notOwner
      intro denied
      cases denied with
      | true =>
          refine ⟨trivial, fun owner _ => ?_⟩
          exact does_refuse hover (by exact hg) (by decide)
      | false => exact ⟨trivial, fun _ _ => ⟨trivial, fun _ _ => does_uploadWrite hop (by exact hg)⟩⟩

theorem does_processUpload (hop : task.operation = .upload) (hg : g.counted = false) :
    Does R steady task g (processUpload task) := by
  have hover : task.operation.overwrites = true := by rw [hop]; rfl
  simp only [processUpload, perform_bind]
  refine ⟨trivial, fun lock _ => ?_⟩
  obtain ⟨locked, locker⟩ := lock
  cases locked with
  | false => exact does_uploadOwned hop (by exact hg)
  | true =>
      refine ⟨trivial, fun found _ => ?_⟩
      cases found with
      | none => exact does_uploadOwned hop (by exact hg)
      | some i =>
          refine ⟨trivial, fun holder _ => ?_⟩
          dsimp only
          split
          · exact does_refuse hover (by exact hg) (by decide)
          · exact does_uploadOwned hop (by exact hg)

theorem does_saveWrite (hop : task.operation = .save) (hg : g.counted = false) (i : Slot) :
    Does R steady task g (saveWrite task i) := by
  have hover : task.operation.overwrites = true := by rw [hop]; rfl
  simp only [saveWrite, perform_bind]
  refine ⟨trivial, fun version _ => ⟨trivial, fun _ _ => ⟨⟨rfl, Or.inr hop⟩, fun saved _ => ?_⟩⟩⟩
  dsimp only
  split
  · exact does_refuse hover (by exact hg) (by decide)
  · refine ⟨hg, fun updated _ => ?_⟩
    dsimp only
    split
    · next hupdated =>
      refine does_refuse hover ?_ (by decide)
      simp only [deeds, hg, Bool.false_or, decide_eq_false_iff_not]
      omega
    · next hupdated =>
      refine ⟨trivial, fun _ _ => does_answer (done_of_overwrites hover fun _ => ?_)⟩
      simp only [deeds, hg, Bool.false_or, decide_eq_true_eq, iff_true]
      omega

theorem does_processSave (hop : task.operation = .save) (hg : g.counted = false) :
    Does R steady task g (processSave task) := by
  have hover : task.operation.overwrites = true := by rw [hop]; rfl
  unfold processSave
  split
  · exact does_refuse hover (by exact hg) (by decide)
  · simp only [perform_bind]
    refine ⟨trivial, fun found _ => ?_⟩
    cases found with
    | none =>
        refine done_of_overwrites hover fun _ => ?_
        simp only [deeds, hg]
        exact ⟨fun h => Bool.noConfusion h, fun h => absurd h (by decide)⟩
    | some i =>
        refine ⟨trivial, fun holder _ => ?_⟩
        dsimp only
        split
        · exact does_refuse hover (by exact hg) (by decide)
        · exact does_saveWrite hop (by exact hg) i

/-- `ROLLBACK` has found the record, so it can be updated. -/
theorem does_rollbackRestore (hop : task.operation = .rollback) (hg : g.counted = false)
    (hfound : g.found = true) (i : Slot) : Does R steady task g (rollbackRestore task i) := by
  have hover : task.operation.overwrites = true := by rw [hop]; rfl
  simp only [rollbackRestore, perform_bind]
  refine ⟨trivial, fun version _ => ⟨trivial, fun _ _ => ⟨trivial, fun newSize _ => ?_⟩⟩⟩
  dsimp only
  split
  · exact does_refuse hover (by exact hg) (by decide)
  · refine ⟨hg, fun updated hupdated => does_answer (done_of_overwrites hover fun hsteady => ?_)⟩
    have hnonneg : 0 ≤ updated := hupdated hsteady hfound
    simp only [deeds, hg, Bool.false_or, decide_eq_true_eq, iff_true]
    exact hnonneg

theorem does_processRollback (hop : task.operation = .rollback) (hg : g.counted = false) :
    Does R steady task g (processRollback task) := by
  have hover : task.operation.overwrites = true := by rw [hop]; rfl
  simp only [processRollback, perform_bind]
  refine ⟨trivial, fun found _ => ?_⟩
  cases found with
  | none => exact does_refuse hover (by exact hg) (by decide)
  | some i =>
      apply does_notOwner
      intro denied
      cases denied with
      | true =>
          refine ⟨trivial, fun owner _ => ?_⟩
          exact does_refuse hover (by exact hg) (by decide)
      | false =>
          apply does_lockedByOther
          intro locked
          cases locked with
          | true =>
              refine ⟨trivial, fun _ _ => done_of_overwrites hover fun _ => ?_⟩
              simp only [deeds, hg]
              exact ⟨fun h => Bool.noConfusion h, fun h => absurd h (by decide)⟩
          | false => exact does_rollbackRestore hop (by exact hg) (by rfl) i

end Overwriting

/-! ## The other operations -/

section Keeping

variable {R : Bytes → Prop} {steady : Prop} {task : TaskMessage} {g : Deeds}
  (hR : R [])

/-- A task that does not overwrite answers without data. -/
theorem does_plain (hR : R []) (hop : task.operation.overwrites = false) (hg : g.counted = false)
    {result : String} {status : Status} {message : Bytes} :
    Does R steady task g (answer task result status message) :=
  does_answer (done_of_keeps hop hg fun _ => hR)

include hR

theorem does_processDownload (hop : task.operation = .download) (hg : g.counted = false) :
    Does R steady task g (processDownload task) := by
  have hkeeps : task.operation.overwrites = false := by rw [hop]; rfl
  simp only [processDownload, perform_bind]
  refine ⟨trivial, fun found _ => ?_⟩
  cases found with
  | none => exact does_plain hR hkeeps (by exact hg)
  | some i =>
      refine ⟨trivial, fun out hread => ?_⟩
      obtain ⟨result, bytes⟩ := out
      dsimp only
      split
      · exact does_plain hR hkeeps (by exact hg)
      · exact does_answer (done_of_keeps hkeeps (by exact hg) fun _ => hread)

theorem does_processDelete (hop : task.operation = .delete) (hg : g.counted = false) :
    Does R steady task g (processDelete task) := by
  have hkeeps : task.operation.overwrites = false := by rw [hop]; rfl
  simp only [processDelete, perform_bind]
  refine ⟨trivial, fun found _ => ?_⟩
  cases found with
  | none => exact does_plain hR hkeeps (by exact hg)
  | some i =>
      apply does_notOwner
      intro denied
      cases denied with
      | true => exact does_plain hR hkeeps (by exact hg)
      | false =>
          apply does_lockedByOther
          intro locked
          cases locked with
          | true => exact ⟨trivial, fun _ _ => does_plain hR hkeeps (by exact hg)⟩
          | false =>
              refine ⟨trivial, fun removed _ => ?_⟩
              dsimp only
              split
              · exact does_plain hR hkeeps (by exact hg)
              · refine ⟨hop, fun forgotten _ => ?_⟩
                dsimp only
                split <;> exact does_plain hR hkeeps (by exact hg)

omit hR in
theorem does_processVersion (hop : task.operation = .version) (hg : g.counted = false) :
    Does R steady task g (processVersion task) := by
  have hkeeps : task.operation.overwrites = false := by rw [hop]; rfl
  have hdata : ∀ {resp : ResponseMessage}, task.operation = .download ∨ task.operation = .edit →
      R resp.data := by
    rintro resp (h | h) <;> exact absurd (hop.symm.trans h) (by decide)
  simp only [processVersion, perform_bind]
  refine ⟨trivial, fun out _ => ?_⟩
  obtain ⟨result, info⟩ := out
  dsimp only
  split <;> exact done_of_keeps hkeeps (by exact hg) hdata

theorem does_processEdit (hop : task.operation = .edit) (hg : g.counted = false) :
    Does R steady task g (processEdit task) := by
  have hkeeps : task.operation.overwrites = false := by rw [hop]; rfl
  simp only [processEdit, perform_bind]
  refine ⟨trivial, fun found _ => ?_⟩
  cases found with
  | none => exact does_plain hR hkeeps (by exact hg)
  | some i =>
      apply does_notOwner
      intro denied
      cases denied with
      | true => exact ⟨trivial, fun _ _ => does_plain hR hkeeps (by exact hg)⟩
      | false =>
          refine ⟨trivial, fun lockResult _ => ?_⟩
          dsimp only
          split
          · exact does_plain hR hkeeps (by exact hg)
          · split
            · exact ⟨trivial, fun _ _ => does_plain hR hkeeps (by exact hg)⟩
            · refine ⟨trivial, fun out hread => ?_⟩
              obtain ⟨result, bytes⟩ := out
              dsimp only
              split
              · exact ⟨trivial, fun _ _ => does_plain hR hkeeps (by exact hg)⟩
              · exact does_answer (done_of_keeps hkeeps (by exact hg) fun _ => hread)

theorem does_processUnlock (hop : task.operation = .unlock) (hg : g.counted = false) :
    Does R steady task g (processUnlock task) := by
  have hkeeps : task.operation.overwrites = false := by rw [hop]; rfl
  simp only [processUnlock, perform_bind]
  refine ⟨trivial, fun result _ => ?_⟩
  dsimp only
  split
  · exact does_plain hR hkeeps (by exact hg)
  · split <;> exact does_plain hR hkeeps (by exact hg)

omit hR in
theorem does_processHistory (hop : task.operation = .history) (hg : g.counted = false) :
    Does R steady task g (processHistory task) := by
  have hkeeps : task.operation.overwrites = false := by rw [hop]; rfl
  have hdata : ∀ {resp : ResponseMessage}, task.operation = .download ∨ task.operation = .edit →
      R resp.data := by
    rintro resp (h | h) <;> exact absurd (hop.symm.trans h) (by decide)
  simp only [processHistory, perform_bind]
  refine ⟨trivial, fun found _ => ?_⟩
  cases found with
  | none => exact done_of_keeps hkeeps (by exact hg) hdata
  | some i => exact ⟨trivial, fun _ _ => done_of_keeps hkeeps (by exact hg) hdata⟩

theorem does_processDelversion (hop : task.operation = .delversion) (hg : g.counted = false) :
    Does R steady task g (processDelversion task) := by
  have hkeeps : task.operation.overwrites = false := by rw [hop]; rfl
  simp only [processDelversion, perform_bind]
  refine ⟨trivial, fun found _ => ?_⟩
  cases found with
  | none => exact does_plain hR hkeeps (by exact hg)
  | some i =>
      apply does_notOwner
      intro denied
      cases denied with
      | true => exact does_plain hR hkeeps (by exact hg)
      | false =>
          refine ⟨trivial, fun deleted _ => ?_⟩
          dsimp only
          split <;> exact does_plain hR hkeeps (by exact hg)

/-- Every task keeps its contract. -/
theorem processTask_honours (steady : Prop) (task : TaskMessage) :
    Does R steady task (deeds R steady task).start (processTask task) := by
  have hother : ∀ {resp : ResponseMessage}, task.operation ≠ .download → task.operation ≠ .edit →
      task.operation.overwrites = false →
      Done R steady task (deeds R steady task).start resp := fun hdownload hedit hkeeps =>
    done_of_keeps hkeeps rfl fun h => (h.elim hdownload hedit).elim
  unfold processTask
  split
  · next hop => exact does_processUpload hop rfl
  · next hop => exact does_processDownload hR hop rfl
  · next hop => exact does_processDelete hR hop rfl
  · next hop =>
    exact ⟨trivial, fun _ _ => hother (by rw [hop]; decide) (by rw [hop]; decide) (by rw [hop]; rfl)⟩
  · next hop => exact does_processVersion hop rfl
  · next hop => exact does_processEdit hR hop rfl
  · next hop => exact does_processSave hop rfl
  · next hop => exact does_processUnlock hR hop rfl
  · next hop => exact does_processHistory hop rfl
  · next hop => exact does_processRollback hop rfl
  · next hop =>
    exact ⟨trivial, fun _ _ => hother (by rw [hop]; decide) (by rw [hop]; decide) (by rw [hop]; rfl)⟩
  · next hop => exact does_processDelversion hR hop rfl
  · next hupload hdownload _ _ _ hedit hsave _ _ hrollback _ _ =>
    refine hother hdownload hedit ?_
    cases hop : task.operation with
    | upload => exact (hupload hop).elim
    | save => exact (hsave hop).elim
    | rollback => exact (hrollback hop).elim
    | _ => rfl

end Keeping

end CloudSync
