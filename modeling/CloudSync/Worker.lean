import CloudSync.FileManager
import CloudSync.Ipc
import CloudSync.Metadata

/-!
# The worker (`src/worker.c`)

`processTask` is a program over `WorkerCall`s.  A worker call is one call of a
metadata function, one read of a field through the pointer
`find_file_metadata` returned, one call of a file function or one audit entry.
Each is one step of a worker; the semaphore makes the metadata functions so, and
what other workers do between two steps is not under the task's control.

`worker` says what the calls do to the `World`: the shared array, the storage,
and what has been written to the audit pipe.  Running `processTask` alone with
it is a task processed with nothing in between.
-/

namespace CloudSync

open CText Calls Calls.Prog Files

/-! ## The calls of a worker -/

/-- The steps `process_task` is made of. -/
inductive WorkerCall : Type → Type
  | findFileMetadata (filename : Bytes) : WorkerCall (Option Slot)
  | addFileMetadata (filename ownerName : Bytes) (ownerId size : ℤ) : WorkerCall ℤ
  | updateFileMetadata (filename : Bytes) (size : ℤ) : WorkerCall ℤ
  | removeFileMetadata (filename : Bytes) : WorkerCall ℤ
  | acquireEditLock (filename : Bytes) (userId : ℤ) (username : Bytes) : WorkerCall ℤ
  | releaseEditLock (filename : Bytes) (userId : ℤ) : WorkerCall ℤ
  | checkEditLock (filename : Bytes) : WorkerCall (Bool × Bytes)
  | listAllFiles : WorkerCall Bytes
  | getFileVersion (filename : Bytes) : WorkerCall (ℤ × Bytes)
  | ownerId (slot : Slot) : WorkerCall ℤ
  | ownerName (slot : Slot) : WorkerCall Bytes
  | version (slot : Slot) : WorkerCall ℤ
  | lockedByUserId (slot : Slot) : WorkerCall ℤ
  | lockedByUsername (slot : Slot) : WorkerCall Bytes
  | saveVersion (filename : Bytes) (version : ℤ) : WorkerCall ℤ
  | saveFile (filename data : Bytes) : WorkerCall ℤ
  | readFile (filename : Bytes) : WorkerCall (ℤ × Bytes)
  | restoreVersion (filename : Bytes) (version : ℤ) : WorkerCall ℤ
  | removeFileFromStorage (filename : Bytes) : WorkerCall ℤ
  | listVersions (filename : Bytes) : WorkerCall Bytes
  | deleteVersion (filename : Bytes) (version : ℤ) : WorkerCall ℤ
  | readAuditLog : WorkerCall Bytes
  | writeAuditEntry (username operation filename result : Bytes) : WorkerCall Unit

/-- What a worker's call meets: the time, the conditions of the system calls it
makes, whether the audit pipe is open, and what `strftime` prints for a time
and for the modification time of a path. -/
structure Env where
  now : ℤ
  conditions : ℕ → Conditions
  auditOpen : Bool
  date : ℤ → Bytes
  modified : Bytes → Bytes

/-- No system call goes wrong. -/
def Env.Fine (env : Env) : Prop := ∀ i, (env.conditions i).Fine

/-- Everything works, and the clock stands at `now`. -/
def Env.calm (now : ℤ) : Env where
  now := now
  conditions := fun _ => Conditions.fine
  auditOpen := true
  date := fun _ => []
  modified := fun _ => []

theorem Env.calm_fine (now : ℤ) : (Env.calm now).Fine := fun _ => rfl

/-- What the workers share. -/
structure World where
  metadata : MetaArray
  tree : Tree
  pipe : List Bytes
  auditLog : Option Bytes

/-- The state in which the server starts for the first time: `init_storage` has
run in an empty directory, and `init_metadata` has cleared the array. -/
def freshWorld : World where
  metadata := initMetadata
  tree := (initStorage.run disk (fun _ => Conditions.fine) Tree.empty).2
  pipe := []
  auditLog := none

/-- Run a file function on the storage of the world. -/
def onDisk {α : Type} (env : Env) (prog : Prog Sys α) (world : World) : α × World :=
  ((prog.run disk env.conditions world.tree).1,
    { world with tree := (prog.run disk env.conditions world.tree).2 })

/-- Run a metadata function on the shared array of the world. -/
def onMetadata {α : Type} (out : α × MetaArray) (world : World) : α × World :=
  (out.1, { world with metadata := out.2 })

/-- What the calls do. -/
def worker : Handler WorkerCall Env World where
  exec := fun env call world =>
    match call with
    | .findFileMetadata filename => (findFileMetadata world.metadata filename, world)
    | .addFileMetadata filename ownerName ownerId size =>
        onMetadata (addFileMetadata world.metadata filename ownerName ownerId size env.now) world
    | .updateFileMetadata filename size =>
        onMetadata (updateFileMetadata world.metadata filename size env.now) world
    | .removeFileMetadata filename =>
        onMetadata (removeFileMetadata world.metadata filename) world
    | .acquireEditLock filename userId username =>
        onMetadata (acquireEditLock world.metadata filename userId username env.now) world
    | .releaseEditLock filename userId =>
        onMetadata (releaseEditLock world.metadata filename userId) world
    | .checkEditLock filename => onMetadata (checkEditLock world.metadata filename env.now) world
    | .listAllFiles => ((listAllFiles world.metadata maxFileSize).2, world)
    | .getFileVersion filename =>
        (getFileVersion world.metadata filename maxFileSize env.date, world)
    | .ownerId slot => ((world.metadata slot).ownerId, world)
    | .ownerName slot => ((world.metadata slot).ownerName, world)
    | .version slot => ((world.metadata slot).version, world)
    | .lockedByUserId slot => ((world.metadata slot).lockedByUserId, world)
    | .lockedByUsername slot => ((world.metadata slot).lockedByUsername, world)
    | .saveVersion filename version => onDisk env (saveVersion filename version) world
    | .saveFile filename data => onDisk env (saveFile filename data) world
    | .readFile filename => onDisk env (readFile filename) world
    | .restoreVersion filename version => onDisk env (restoreVersion filename version) world
    | .removeFileFromStorage filename => onDisk env (removeFileFromStorage filename) world
    | .listVersions filename =>
        let out := onDisk env (listVersions filename maxFileSize env.modified) world
        (out.1.2, out.2)
    | .deleteVersion filename version => onDisk env (deleteVersion filename version) world
    | .readAuditLog => ((readAuditLog world.auditLog maxFileSize).2, world)
    | .writeAuditEntry username operation filename result =>
        if env.auditOpen then
          let line := auditEntry (env.date env.now) username operation filename result
          ((), { world with pipe := world.pipe ++ [line] })
        else ((), world)

/-! ## Processing a task -/

/-- `operation_to_string` -/
def operationToString : Operation → Bytes
  | .login => text "LOGIN"
  | .upload => text "UPLOAD"
  | .download => text "DOWNLOAD"
  | .delete => text "DELETE"
  | .list => text "LIST"
  | .version => text "VERSION"
  | .exit => text "EXIT"
  | .edit => text "EDIT"
  | .save => text "SAVE"
  | .unlock => text "UNLOCK"
  | .history => text "HISTORY"
  | .rollback => text "ROLLBACK"
  | .audit => text "AUDIT"
  | .delversion => text "DELVERSION"
  | .signup => text "SIGNUP"
  | .quota => text "UNKNOWN"
  | .other _ => text "UNKNOWN"

/-- The response to a task, its message printed with `snprintf`. -/
def reply (task : TaskMessage) (status : Status) (message : Bytes) (data : Bytes := []) :
    ResponseMessage :=
  { mtype := task.requestId, status := status, message := snprintf maxMsgSize message, data := data }

/-- One audit entry for the task. -/
def audit (task : TaskMessage) (result : String) : Prog WorkerCall Unit :=
  perform (.writeAuditEntry task.username (operationToString task.operation) task.filename
    (text result))

/-- Write the audit entry of an exit path and answer. -/
def answer (task : TaskMessage) (result : String) (status : Status) (message : Bytes)
    (data : Bytes := []) : Prog WorkerCall ResponseMessage := do
  audit task result
  return reply task status message data

/-- `'<filename>'`, as the messages quote it. -/
def quoted (task : TaskMessage) : Bytes := text "'" ++ task.filename ++ text "'"

/-- `task->role != ROLE_ADMIN && fm->owner_id != task->user_id` -/
def notOwner (task : TaskMessage) (fm : Slot) : Prog WorkerCall Bool :=
  if task.role = roleAdmin then return false
  else do
    let owner ← perform (.ownerId fm)
    return owner != task.userId

/-- `fm->locked_by_user_id != -1 && fm->locked_by_user_id != task->user_id`,
which reads the field once or twice. -/
def lockedByOther (task : TaskMessage) (fm : Slot) : Prog WorkerCall Bool := do
  let holder ← perform (.lockedByUserId fm)
  if holder = -1 then return false
  else
    let holder ← perform (.lockedByUserId fm)
    return holder != task.userId

/-- `UPLOAD` from the write on. -/
def uploadWrite (task : TaskMessage) : Prog WorkerCall ResponseMessage := do
  if (← perform (.saveFile task.filename task.data)) < 0 then
    answer task "ERROR" .error (text "Upload failed for " ++ quoted task)
  else if (← perform (.addFileMetadata task.filename task.username task.userId
      task.dataSize)) < 0 then
    let _ ← perform (.removeFileFromStorage task.filename)
    answer task "ERROR" .error (text "Metadata error for " ++ quoted task)
  else
    answer task "SUCCESS" .success
      (text "File " ++ quoted task ++ text " uploaded successfully (version updated)")

/-- `UPLOAD` from the ownership check on. -/
def uploadOwned (task : TaskMessage) : Prog WorkerCall ResponseMessage := do
  match ← perform (.findFileMetadata task.filename) with
  | none => uploadWrite task
  | some existing =>
      if ← notOwner task existing then
        let owner ← perform (.ownerName existing)
        answer task "DENIED" .permissionDenied
          (text "Cannot overwrite " ++ quoted task ++ text " — owned by " ++ owner)
      else
        let version ← perform (.version existing)
        let _ ← perform (.saveVersion task.filename version)
        uploadWrite task

/-- `UPLOAD` -/
def processUpload (task : TaskMessage) : Prog WorkerCall ResponseMessage := do
  let (locked, locker) ← perform (.checkEditLock task.filename)
  if locked then
    match ← perform (.findFileMetadata task.filename) with
    | none => uploadOwned task
    | some fm =>
        let holder ← perform (.lockedByUserId fm)
        if holder ≠ task.userId then
          answer task "LOCKED" .fileLocked
            (text "Cannot upload " ++ quoted task ++ text " — being edited by " ++ locker)
        else uploadOwned task
  else uploadOwned task

/-- `DOWNLOAD` -/
def processDownload (task : TaskMessage) : Prog WorkerCall ResponseMessage := do
  match ← perform (.findFileMetadata task.filename) with
  | none =>
      answer task "NOT_FOUND" .fileNotFound (text "File " ++ quoted task ++ text " not found")
  | some _ =>
      let (result, bytes) ← perform (.readFile task.filename)
      if result < 0 then
        answer task "ERROR" .error (text "Failed to read file " ++ quoted task)
      else
        answer task "SUCCESS" .success
          (text "File " ++ quoted task ++ text " downloaded (" ++ decimal bytes.length ++
            text " bytes)") bytes

/-- `DELETE` -/
def processDelete (task : TaskMessage) : Prog WorkerCall ResponseMessage := do
  match ← perform (.findFileMetadata task.filename) with
  | none =>
      answer task "NOT_FOUND" .fileNotFound (text "File " ++ quoted task ++ text " not found")
  | some fmeta =>
      if ← notOwner task fmeta then
        answer task "DENIED" .permissionDenied
          (text "Only the file owner or admin can delete " ++ quoted task)
      else if ← lockedByOther task fmeta then
        let locker ← perform (.lockedByUsername fmeta)
        answer task "LOCKED" .fileLocked
          (text "Cannot delete " ++ quoted task ++ text " — being edited by " ++ locker)
      else if (← perform (.removeFileFromStorage task.filename)) < 0 then
        answer task "ERROR" .error (text "Failed to delete file " ++ quoted task)
      else if (← perform (.removeFileMetadata task.filename)) < 0 then
        answer task "ERROR" .error (text "Metadata error during delete of " ++ quoted task)
      else
        answer task "SUCCESS" .success
          (text "File " ++ quoted task ++ text " deleted successfully")

/-- `LIST` -/
def processList (task : TaskMessage) : Prog WorkerCall ResponseMessage := do
  let listing ← perform .listAllFiles
  return reply task .success (text "File listing retrieved") listing

/-- `VERSION` -/
def processVersion (task : TaskMessage) : Prog WorkerCall ResponseMessage := do
  let (result, info) ← perform (.getFileVersion task.filename)
  if result < 0 then
    return reply task .fileNotFound (text "File " ++ quoted task ++ text " not found")
  else return reply task .success (text "Version info for " ++ quoted task) info

/-- `EDIT` -/
def processEdit (task : TaskMessage) : Prog WorkerCall ResponseMessage := do
  match ← perform (.findFileMetadata task.filename) with
  | none =>
      answer task "NOT_FOUND" .fileNotFound (text "File " ++ quoted task ++ text " not found")
  | some efm =>
      if ← notOwner task efm then
        let owner ← perform (.ownerName efm)
        answer task "DENIED" .permissionDenied
          (text "Cannot edit " ++ quoted task ++ text " — owned by " ++ owner)
      else
        let lockResult ← perform (.acquireEditLock task.filename task.userId task.username)
        if lockResult = -1 then
          answer task "NOT_FOUND" .fileNotFound (text "File " ++ quoted task ++ text " not found")
        else if lockResult = -2 then
          let (_, locker) ← perform (.checkEditLock task.filename)
          answer task "LOCKED" .fileLocked
            (text "File " ++ quoted task ++ text " is being edited by " ++ locker)
        else
          let (result, bytes) ← perform (.readFile task.filename)
          if result < 0 then
            let _ ← perform (.releaseEditLock task.filename task.userId)
            answer task "ERROR" .error (text "Failed to read file " ++ quoted task)
          else
            answer task "LOCK_ACQUIRED" .success
              (text "Edit lock acquired for " ++ quoted task ++ text " (" ++
                decimal bytes.length ++
                text " bytes). Use SAVE to commit or UNLOCK to cancel.") bytes

/-- `SAVE` from the backup on. -/
def saveWrite (task : TaskMessage) (fm : Slot) : Prog WorkerCall ResponseMessage := do
  let version ← perform (.version fm)
  let _ ← perform (.saveVersion task.filename version)
  if (← perform (.saveFile task.filename task.data)) < 0 then
    answer task "ERROR" .error (text "Save failed for " ++ quoted task)
  else if (← perform (.updateFileMetadata task.filename task.dataSize)) < 0 then
    answer task "ERROR" .error (text "Metadata error for " ++ quoted task)
  else
    let _ ← perform (.releaseEditLock task.filename task.userId)
    answer task "SUCCESS" .success
      (text "File " ++ quoted task ++ text " saved successfully — edit lock released")

/-- `SAVE` -/
def processSave (task : TaskMessage) : Prog WorkerCall ResponseMessage := do
  if task.role = roleGuest then
    answer task "DENIED" .permissionDenied (text "Permission denied: Guests cannot SAVE files")
  else
    match ← perform (.findFileMetadata task.filename) with
    | none =>
        -- the one exit of SAVE that writes no audit entry
        return reply task .fileNotFound (text "File " ++ quoted task ++ text " not found")
    | some fm =>
        let holder ← perform (.lockedByUserId fm)
        if holder ≠ task.userId then
          answer task "NOT_LOCK_HOLDER" .permissionDenied
            (text "You don't hold the edit lock for " ++ quoted task)
        else saveWrite task fm

/-- `UNLOCK` -/
def processUnlock (task : TaskMessage) : Prog WorkerCall ResponseMessage := do
  let result ← perform (.releaseEditLock task.filename task.userId)
  if result = -1 then
    answer task "FAILED" .fileNotFound (text "File " ++ quoted task ++ text " not found")
  else if result = -2 then
    answer task "FAILED" .permissionDenied
      (text "You don't hold the edit lock for " ++ quoted task)
  else
    answer task "UNLOCKED" .success
      (text "Edit lock released for " ++ quoted task ++ text " (changes discarded)")

/-- `HISTORY` -/
def processHistory (task : TaskMessage) : Prog WorkerCall ResponseMessage := do
  match ← perform (.findFileMetadata task.filename) with
  | none => return reply task .fileNotFound (text "File " ++ quoted task ++ text " not found")
  | some _ =>
      let listing ← perform (.listVersions task.filename)
      return reply task .success (text "Version history for " ++ quoted task) listing

/-- `ROLLBACK` from the backup on. -/
def rollbackRestore (task : TaskMessage) (fm : Slot) : Prog WorkerCall ResponseMessage := do
  let version ← perform (.version fm)
  let _ ← perform (.saveVersion task.filename version)
  let newSize ← perform (.restoreVersion task.filename task.targetVersion)
  if newSize < 0 then
    answer task "VERSION_NOT_FOUND" .error
      (text "Version " ++ decimal task.targetVersion ++ text " not found for " ++ quoted task)
  else
    let _ ← perform (.updateFileMetadata task.filename newSize)
    answer task "SUCCESS" .success
      (text "File " ++ quoted task ++ text " rolled back to version " ++
        decimal task.targetVersion ++ text " (" ++ decimal newSize ++ text " bytes)")

/-- `ROLLBACK` -/
def processRollback (task : TaskMessage) : Prog WorkerCall ResponseMessage := do
  match ← perform (.findFileMetadata task.filename) with
  | none =>
      answer task "NOT_FOUND" .fileNotFound (text "File " ++ quoted task ++ text " not found")
  | some fm =>
      if ← notOwner task fm then
        let owner ← perform (.ownerName fm)
        answer task "DENIED" .permissionDenied
          (text "Cannot rollback " ++ quoted task ++ text " — owned by " ++ owner)
      else if ← lockedByOther task fm then
        -- no audit entry here either
        let locker ← perform (.lockedByUsername fm)
        return reply task .fileLocked
          (text "Cannot rollback " ++ quoted task ++ text " — being edited by " ++ locker)
      else rollbackRestore task fm

/-- `AUDIT` -/
def processAudit (task : TaskMessage) : Prog WorkerCall ResponseMessage := do
  let log ← perform .readAuditLog
  return reply task .success (text "Audit log retrieved") log

/-- `DELVERSION` -/
def processDelversion (task : TaskMessage) : Prog WorkerCall ResponseMessage := do
  match ← perform (.findFileMetadata task.filename) with
  | none =>
      answer task "NOT_FOUND" .fileNotFound (text "File " ++ quoted task ++ text " not found")
  | some fm =>
      if ← notOwner task fm then
        answer task "DENIED" .permissionDenied
          (text "Only the file owner or admin can delete versions of " ++ quoted task)
      else if (← perform (.deleteVersion task.filename task.targetVersion)) < 0 then
        answer task "VERSION_NOT_FOUND" .error
          (text "Version " ++ decimal task.targetVersion ++ text " not found for " ++ quoted task)
      else
        answer task "SUCCESS" .success
          (text "Version " ++ decimal task.targetVersion ++ text " of " ++ quoted task ++
            text " deleted successfully")

/-- `process_task` -/
def processTask (task : TaskMessage) : Prog WorkerCall ResponseMessage :=
  match task.operation with
  | .upload => processUpload task
  | .download => processDownload task
  | .delete => processDelete task
  | .list => processList task
  | .version => processVersion task
  | .edit => processEdit task
  | .save => processSave task
  | .unlock => processUnlock task
  | .history => processHistory task
  | .rollback => processRollback task
  | .audit => processAudit task
  | .delversion => processDelversion task
  | operation =>
      return reply task .error (text "Unknown operation: " ++ decimal operation.code)

/-- A task processed with nothing in between; call `i` meets `env i`. -/
def serve (env : ℕ → Env) (task : TaskMessage) (world : World) : ResponseMessage × World :=
  (processTask task).run worker env world

/-- A task on the file `a`, for examples. -/
def sampleTask (operation : Operation) (userId role : ℤ) (data : String) : TaskMessage where
  requestId := 100
  operation := operation
  userId := userId
  role := role
  username := []
  filename := text "a"
  data := (text data).take maxFileSize
  targetVersion := 0
  username_length := by decide
  filename_length := by decide
  data_length := List.length_take_le _ _
  targetVersion_range := by decide

/-- User 2 has uploaded `a`, for examples. -/
def uploadedOnce : World :=
  (serve (fun _ => Env.calm 0) (sampleTask .upload 2 roleUser "one") freshWorld).2

end CloudSync
