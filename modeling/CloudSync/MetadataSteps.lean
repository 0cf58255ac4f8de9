import CloudSync.Lib.CriticalSections
import CloudSync.Metadata

/-!
# The metadata functions step by step (`src/metadata.c`, `src/sync.c`)

`Metadata.lean` has each function of the shared array as one function of the array and
the time.  Here it is a program: a step reads or assigns one field of one slot, or reads
the clock.  The programs are what stands between `sem_lock` and `sem_unlock` in the
source; the two operations on the semaphore are those of `CriticalSections`, with
`SEM_UNDO`, the initial value 1 of `create_semaphore`, and the way `sem_lock` returns when
its wait has been interrupted.
-/

namespace CloudSync

open CText Calls Calls.Prog

/-- The fields of a record that are numbers. -/
inductive NumberField
  | ownerId
  | version
  | fileSize
  | created
  | lastModified
  | lockedByUserId
  | lockAcquiredAt

/-- The fields of a record that are character arrays. -/
inductive TextField
  | filename
  | ownerName
  | lockedByUsername

def NumberField.get (r : FileMetadata) : NumberField → ℤ
  | ownerId => r.ownerId
  | version => r.version
  | fileSize => r.fileSize
  | created => r.created
  | lastModified => r.lastModified
  | lockedByUserId => r.lockedByUserId
  | lockAcquiredAt => r.lockAcquiredAt

def NumberField.set (r : FileMetadata) (value : ℤ) : NumberField → FileMetadata
  | ownerId => { r with ownerId := value }
  | version => { r with version := value }
  | fileSize => { r with fileSize := value }
  | created => { r with created := value }
  | lastModified => { r with lastModified := value }
  | lockedByUserId => { r with lockedByUserId := value }
  | lockAcquiredAt => { r with lockAcquiredAt := value }

def TextField.get (r : FileMetadata) : TextField → Bytes
  | filename => r.filename
  | ownerName => r.ownerName
  | lockedByUsername => r.lockedByUsername

def TextField.set (r : FileMetadata) (value : Bytes) : TextField → FileMetadata
  | filename => { r with filename := value }
  | ownerName => { r with ownerName := value }
  | lockedByUsername => { r with lockedByUsername := value }

/-- The steps the functions are made of. -/
inductive MetaStep : Type → Type
  | isActive (i : Slot) : MetaStep Bool
  | number (i : Slot) (field : NumberField) : MetaStep ℤ
  | text (i : Slot) (field : TextField) : MetaStep Bytes
  | setActive (i : Slot) (value : Bool) : MetaStep Unit
  | setNumber (i : Slot) (field : NumberField) (value : ℤ) : MetaStep Unit
  | setText (i : Slot) (field : TextField) (value : Bytes) : MetaStep Unit
  | time : MetaStep ℤ

/-- What the steps do, at the time `now`. -/
def metaSteps : Handler MetaStep ℤ MetaArray where
  exec := fun now step metaArray =>
    match step with
    | .isActive i => ((metaArray i).isActive, metaArray)
    | .number i field => (field.get (metaArray i), metaArray)
    | .text i field => (field.get (metaArray i), metaArray)
    | .setActive i value =>
        ((), Function.update metaArray i { metaArray i with isActive := value })
    | .setNumber i field value => ((), Function.update metaArray i (field.set (metaArray i) value))
    | .setText i field value => ((), Function.update metaArray i (field.set (metaArray i) value))
    | .time => (now, metaArray)

section Exec

variable (now : ℤ) (metaArray : MetaArray) (i : Slot)

@[simp] theorem exec_isActive :
    metaSteps.exec now (.isActive i) metaArray = ((metaArray i).isActive, metaArray) := rfl

@[simp] theorem exec_number (field : NumberField) :
    metaSteps.exec now (.number i field) metaArray = (field.get (metaArray i), metaArray) := rfl

@[simp] theorem exec_text (field : TextField) :
    metaSteps.exec now (.text i field) metaArray = (field.get (metaArray i), metaArray) := rfl

@[simp] theorem exec_setActive (value : Bool) :
    metaSteps.exec now (.setActive i value) metaArray =
      ((), Function.update metaArray i { metaArray i with isActive := value }) := rfl

@[simp] theorem exec_setNumber (field : NumberField) (value : ℤ) :
    metaSteps.exec now (.setNumber i field value) metaArray =
      ((), Function.update metaArray i (field.set (metaArray i) value)) := rfl

@[simp] theorem exec_setText (field : TextField) (value : Bytes) :
    metaSteps.exec now (.setText i field value) metaArray =
      ((), Function.update metaArray i (field.set (metaArray i) value)) := rfl

@[simp] theorem exec_time : metaSteps.exec now .time metaArray = (now, metaArray) := rfl

end Exec

/-! ## The loops -/

/-- The loop for the active slot that carries the filename. -/
def scanFor (filename : Bytes) : List Slot → Prog MetaStep (Option Slot)
  | [] => return none
  | i :: rest => do
      if ← perform (.isActive i) then
        if (← perform (.text i .filename)) = filename then return some i
        else scanFor filename rest
      else scanFor filename rest

/-- The loop for an inactive slot. -/
def scanEmpty : List Slot → Prog MetaStep (Option Slot)
  | [] => return none
  | i :: rest => do
      if ← perform (.isActive i) then scanEmpty rest else return some i

/-- All slots, in the order of the loops. -/
abbrev slots : List Slot := List.finRange maxFiles

/-! ## The bodies -/

/-- What `add_file_metadata` and `update_file_metadata` do to a record they find. -/
def stepVersion (i : Slot) (size : ℤ) : Prog MetaStep ℤ := do
  let version ← perform (.number i .version)
  perform (.setNumber i .version (int32 (version + 1)))
  perform (.setNumber i .fileSize size)
  let now ← perform .time
  perform (.setNumber i .lastModified now)
  return 0

/-- What `add_file_metadata` does to an empty slot. -/
def fillSlot (i : Slot) (filename ownerName : Bytes) (ownerId size : ℤ) : Prog MetaStep ℤ := do
  perform (.setText i .filename (strncpy (maxFilename - 1) filename))
  perform (.setText i .ownerName (strncpy (maxUsername - 1) ownerName))
  perform (.setNumber i .ownerId ownerId)
  perform (.setNumber i .version 1)
  perform (.setNumber i .fileSize size)
  perform (.setActive i true)
  let created ← perform .time
  perform (.setNumber i .created created)
  let lastModified ← perform .time
  perform (.setNumber i .lastModified lastModified)
  perform (.setNumber i .lockedByUserId (-1))
  return 0

/-- `add_file_metadata` -/
def addSection (filename ownerName : Bytes) (ownerId size : ℤ) : Prog MetaStep ℤ := do
  match ← scanFor filename slots with
  | some i => stepVersion i size
  | none =>
      match ← scanEmpty slots with
      | some i => fillSlot i filename ownerName ownerId size
      | none => return -1

/-- `update_file_metadata` -/
def updateSection (filename : Bytes) (size : ℤ) : Prog MetaStep ℤ := do
  match ← scanFor filename slots with
  | some i => stepVersion i size
  | none => return -1

/-- `remove_file_metadata` -/
def removeSection (filename : Bytes) : Prog MetaStep ℤ := do
  match ← scanFor filename slots with
  | some i =>
      perform (.setActive i false)
      perform (.setNumber i .lockedByUserId (-1))
      return 0
  | none => return -1

/-- The assignments of `acquire_edit_lock`. -/
def takeLock (i : Slot) (userId : ℤ) (username : Bytes) : Prog MetaStep ℤ := do
  perform (.setNumber i .lockedByUserId userId)
  perform (.setText i .lockedByUsername (strncpy (maxUsername - 1) username))
  let now ← perform .time
  perform (.setNumber i .lockAcquiredAt now)
  return 0

/-- `acquire_edit_lock` -/
def acquireSection (filename : Bytes) (userId : ℤ) (username : Bytes) : Prog MetaStep ℤ := do
  match ← scanFor filename slots with
  | none => return -1
  | some i =>
      if (← perform (.number i .lockedByUserId)) ≠ -1 then
        let now ← perform .time
        if now - (← perform (.number i .lockAcquiredAt)) > lockTimeoutSecs then
          takeLock i userId username
        else if (← perform (.number i .lockedByUserId)) = userId then return 0
        else return -2
      else takeLock i userId username

/-- `release_edit_lock` -/
def releaseSection (filename : Bytes) (userId : ℤ) : Prog MetaStep ℤ := do
  match ← scanFor filename slots with
  | none => return -1
  | some i =>
      if (← perform (.number i .lockedByUserId)) = -1 then return 0
      else if (← perform (.number i .lockedByUserId)) ≠ userId then return -2
      else
        perform (.setNumber i .lockedByUserId (-1))
        perform (.setText i .lockedByUsername [])
        perform (.setNumber i .lockAcquiredAt 0)
        return 0

/-- `check_edit_lock` -/
def checkSection (filename : Bytes) : Prog MetaStep (Bool × Bytes) := do
  match ← scanFor filename slots with
  | none => return (false, [])
  | some i =>
      if (← perform (.number i .lockedByUserId)) ≠ -1 then
        let now ← perform .time
        if now - (← perform (.number i .lockAcquiredAt)) > lockTimeoutSecs then
          perform (.setNumber i .lockedByUserId (-1))
          return (false, [])
        else
          let locker ← perform (.text i .lockedByUsername)
          return (true, strncpy (maxUsername - 1) locker)
      else return (false, [])

/-- The column for the lock, read from the slot. -/
def lockColumnOf (i : Slot) : Prog MetaStep Bytes := do
  if (← perform (.number i .lockedByUserId)) ≠ -1 then
    let locker ← perform (.text i .lockedByUsername)
    return snprintf 40 (text "LOCKED: " ++ locker)
  else return snprintf 40 (text "unlocked")

/-- The row of `list_all_files`, read from the slot. -/
def rowOf (i : Slot) : Prog MetaStep Bytes := do
  let lock ← lockColumnOf i
  let filename ← perform (.text i .filename)
  let version ← perform (.number i .version)
  let fileSize ← perform (.number i .fileSize)
  let ownerName ← perform (.text i .ownerName)
  return text "║ " ++ padRight 18 filename ++ text " ║ v" ++ padRight 4 (decimal version) ++
    text " ║ " ++ padLeft 5 (decimal fileSize) ++ text "B ║ " ++
    padRight 14 ownerName ++ text " ║ " ++ padRight 15 lock ++ text " ║\n"

/-- The row loop of `list_all_files`. -/
def rowsSection (maxSize : ℕ) : List Slot → Output × ℕ → Prog MetaStep (Output × ℕ)
  | [], acc => return acc
  | i :: rest, (out, count) => do
      if (out.offset : ℤ) < maxSize - 120 then
        if ← perform (.isActive i) then
          let row ← rowOf i
          rowsSection maxSize rest (out.print maxSize row, count + 1)
        else rowsSection maxSize rest (out, count)
      else return (out, count)

/-- `list_all_files` -/
def listSection (maxSize : ℕ) : Prog MetaStep (ℕ × Bytes) := do
  let head := Output.empty.print maxSize
    (text "\n╔════════════════════╦═══════╦════════╦════════════════╦═════════════════╗\n" ++
      text "║ Filename           ║ Ver   ║ Size   ║ Owner          ║ Lock Status     ║\n" ++
      text "╠════════════════════╬═══════╬════════╬════════════════╬═════════════════╣\n")
  let (rows, count) ← rowsSection maxSize slots (head, 0)
  let body :=
    if count = 0 then
      rows.print maxSize
        (text "║              (no files stored)                                        ║\n")
    else rows
  let out := body.print maxSize
    (text "╚════════════════════╩═══════╩════════╩════════════════╩═════════════════╝\n" ++
      text "  Total files: " ++ decimal count ++ text "\n")
  return (count, out.written)

/-- The description of the lock in `get_file_version`. -/
def lockInfoOf (i : Slot) : Prog MetaStep Bytes := do
  if (← perform (.number i .lockedByUserId)) ≠ -1 then
    let locker ← perform (.text i .lockedByUsername)
    return snprintf 64 (text "Locked by " ++ locker)
  else return text "Unlocked"

/-- `get_file_version` -/
def versionSection (filename : Bytes) (maxSize : ℕ) (date : ℤ → Bytes) :
    Prog MetaStep (ℤ × Bytes) := do
  match ← scanFor filename slots with
  | none => return (-1, snprintf maxSize (text "File '" ++ filename ++ text "' not found.\n"))
  | some i =>
      let created ← perform (.number i .created)
      let lastModified ← perform (.number i .lastModified)
      let lockInfo ← lockInfoOf i
      let fileSize ← perform (.number i .fileSize)
      let name ← perform (.text i .filename)
      let version ← perform (.number i .version)
      let ownerName ← perform (.text i .ownerName)
      let row (label value : Bytes) := text "║ " ++ label ++ padRight 27 value ++ text " ║\n"
      return (0, snprintf maxSize
        (text "\n╔═══════════════════════════════════════╗\n" ++
          text "║         FILE VERSION INFO             ║\n" ++
          text "╠═══════════════════════════════════════╣\n" ++
          row (text "File:     ") name ++
          row (text "Version:  ") (decimal version) ++
          row (text "Size:     ") (snprintf 32 (decimal fileSize ++ text " bytes")) ++
          row (text "Owner:    ") ownerName ++
          row (text "Created:  ") (date created) ++
          row (text "Modified: ") (date lastModified) ++
          row (text "Lock:     ") lockInfo ++
          text "╚═══════════════════════════════════════╝\n"))

end CloudSync
