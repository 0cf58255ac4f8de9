import CloudSync.State.Records
import CloudSync.State.Versions

/-!
# One file as a state machine

What the server keeps about a filename is a `FileState`: the record, the stored
content and the stored versions.  `FileState.serve` says in these terms what a
task does to its file when no call goes wrong and no other task comes between;
`Refinement.lean` shows that `process_task` does that.

The clock is read by three of the calls, and a new record takes over a free slot,
whose old lock name and time stay in it; both are arguments here.
-/

namespace CloudSync

open CText

/-- What is kept about one filename. -/
@[ext] structure FileState where
  record : Option FileMetadata
  content : Option Bytes
  versions : ℤ → Option Bytes

/-- What the clock shows when a task checks a lock, acquires one and writes metadata. -/
structure Clock where
  check : ℤ
  acquire : ℤ
  write : ℤ

namespace FileState

/-- `task->role != ROLE_ADMIN && fm->owner_id != task->user_id` -/
def NotOwner (task : TaskMessage) (r : FileMetadata) : Prop :=
  task.role ≠ roleAdmin ∧ r.ownerId ≠ task.userId

/-- `fm->locked_by_user_id != -1 && fm->locked_by_user_id != task->user_id` -/
def LockedByOther (task : TaskMessage) (r : FileMetadata) : Prop :=
  r.lockedByUserId ≠ -1 ∧ r.lockedByUserId ≠ task.userId

instance (task : TaskMessage) (r : FileMetadata) : Decidable (NotOwner task r) := by
  unfold NotOwner
  infer_instance

instance (task : TaskMessage) (r : FileMetadata) : Decidable (LockedByOther task r) := by
  unfold LockedByOther
  infer_instance

/-- The version is a value of an `int`, and the versions stored are not many. -/
structure InBounds (s : FileState) : Prop where
  version : ∀ r ∈ s.record, InInt r.version
  few : {k | (s.versions k).isSome}.encard ≤ 255

/-- The file does not exist. -/
def gone : FileState := ⟨none, none, fun _ => none⟩

/-- The content is backed up under the version of the record. -/
noncomputable def backup (s : FileState) (r : FileMetadata) : FileState :=
  { s with versions := backedUp s.content r.version s.versions }

/-- The content is backed up and replaced, and the version goes up. -/
noncomputable def commit (s : FileState) (r : FileMetadata) (data : Bytes) (now : ℤ) : FileState :=
  { s.backup r with record := some (r.bumped data.length now), content := some data }

variable (task : TaskMessage) (clock : Clock) (slot : Option FileMetadata)

/-- `UPLOAD` -/
noncomputable def upload (s : FileState) : Status × FileState :=
  match s.record with
  | none =>
      match slot with
      | none => (.error, gone)
      | some slot =>
          (.success, { s with
            record := some (newRecord task.filename task.username task.userId task.dataSize
              clock.write slot)
            content := some task.data })
  | some r =>
      let r := r.checked clock.check
      let s := { s with record := some r }
      if LockedByOther task r then (.fileLocked, s)
      else if NotOwner task r then (.permissionDenied, s)
      else (.success, s.commit r task.data clock.write)

/-- `DOWNLOAD` -/
def download (s : FileState) : Status × FileState :=
  match s.record, s.content with
  | none, _ => (.fileNotFound, s)
  | some _, none => (.error, s)
  | some _, some _ => (.success, s)

/-- `DELETE` -/
def delete (s : FileState) : Status × FileState :=
  match s.record with
  | none => (.fileNotFound, s)
  | some r =>
      if NotOwner task r then (.permissionDenied, s)
      else if LockedByOther task r then (.fileLocked, s)
      else if s.content = none then (.error, s)
      else (.success, gone)

/-- `EDIT` -/
def edit (s : FileState) : Status × FileState :=
  match s.record with
  | none => (.fileNotFound, s)
  | some r =>
      if NotOwner task r then (.permissionDenied, s)
      else if r.lockedByUserId = -1 ∨ r.Stale clock.acquire ∨ r.lockedByUserId = task.userId then
        let r := r.acquired task.userId task.username clock.acquire
        if s.content = none then (.error, { s with record := some (r.releasedBy task.userId) })
        else (.success, { s with record := some r })
      else (.fileLocked, { s with record := some (r.checked clock.check) })

/-- `SAVE` -/
noncomputable def save (s : FileState) : Status × FileState :=
  if task.role = roleGuest then (.permissionDenied, s)
  else
    match s.record with
    | none => (.fileNotFound, s)
    | some r =>
        if r.lockedByUserId ≠ task.userId then (.permissionDenied, s)
        else
          (.success, { s.commit r task.data clock.write with
            record := some ((r.bumped task.dataSize clock.write).releasedBy task.userId) })

/-- `UNLOCK` -/
def unlock (s : FileState) : Status × FileState :=
  match s.record with
  | none => (.fileNotFound, s)
  | some r =>
      if LockedByOther task r then (.permissionDenied, s)
      else (.success, { s with record := some (r.releasedBy task.userId) })

/-- `ROLLBACK` -/
noncomputable def rollback (s : FileState) : Status × FileState :=
  match s.record with
  | none => (.fileNotFound, s)
  | some r =>
      if NotOwner task r then (.permissionDenied, s)
      else if LockedByOther task r then (.fileLocked, s)
      else
        match (s.backup r).versions task.targetVersion with
        | none => (.error, s.backup r)
        | some bytes => (.success, s.commit r bytes clock.write)

/-- `DELVERSION` -/
def delversion (s : FileState) : Status × FileState :=
  match s.record with
  | none => (.fileNotFound, s)
  | some r =>
      if NotOwner task r then (.permissionDenied, s)
      else if s.versions task.targetVersion = none then (.error, s)
      else (.success, { s with versions := Function.update s.versions task.targetVersion none })

/-- What a task does to its file. -/
noncomputable def serve (s : FileState) : Status × FileState :=
  match task.operation with
  | .upload => upload task clock slot s
  | .download => download s
  | .delete => delete task s
  | .edit => edit task clock s
  | .save => save task clock s
  | .unlock => unlock task s
  | .rollback => rollback task clock s
  | .delversion => delversion task s
  | .version => (if s.record = none then .fileNotFound else .success, s)
  | .history => (if s.record = none then .fileNotFound else .success, s)
  | .list => (.success, s)
  | .audit => (.success, s)
  | _ => (.error, s)

end FileState

end CloudSync
