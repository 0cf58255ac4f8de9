import CloudSync.Common
import CloudSync.Lib.CStdio
import Mathlib.Data.List.FinRange

/-!
# Shared metadata and edit locks (`src/metadata.c`)

The shared array has `maxFiles` slots.  Every function of the source holds the
semaphore from beginning to end and reads the clock inside it, so each is one
function of the array and of the time `now`.

They all start with the same loop, `findSlot`: the first active slot that
carries the filename.  A slot is freed by clearing `isActive`, and its other
fields stay behind until it is used again.
-/

namespace CloudSync

open CText

/-- The shared array. -/
abbrev MetaArray := Fin maxFiles → FileMetadata

/-- An index into the array: what a `FileMetadata *` points at. -/
abbrev Slot := Fin maxFiles

/-- `init_metadata` -/
def initMetadata : MetaArray := fun _ =>
  { filename := [], ownerName := [], ownerId := 0, version := 0, fileSize := 0
    isActive := false, created := 0, lastModified := 0
    lockedByUserId := -1, lockedByUsername := [], lockAcquiredAt := 0 }

/-- The first active slot that carries the filename. -/
def findSlot (metaArray : MetaArray) (filename : Bytes) : Option Slot :=
  (List.finRange maxFiles).find? fun i =>
    (metaArray i).isActive && (metaArray i).filename == filename

/-- The first inactive slot. -/
def emptySlot (metaArray : MetaArray) : Option Slot :=
  (List.finRange maxFiles).find? fun i => !(metaArray i).isActive

/-- `add_file_metadata` -/
def addFileMetadata (metaArray : MetaArray) (filename ownerName : Bytes) (ownerId size now : ℤ) :
    ℤ × MetaArray :=
  match findSlot metaArray filename with
  | some i =>
      -- the file exists: its version goes up
      (0, Function.update metaArray i
        { metaArray i with
          version := int32 ((metaArray i).version + 1)
          fileSize := size
          lastModified := now })
  | none =>
      match emptySlot metaArray with
      | some i =>
          (0, Function.update metaArray i
            { metaArray i with
              filename := strncpy (maxFilename - 1) filename
              ownerName := strncpy (maxUsername - 1) ownerName
              ownerId := ownerId
              version := 1
              fileSize := size
              isActive := true
              created := now
              lastModified := now
              lockedByUserId := -1 })
      | none => (-1, metaArray)

/-- `update_file_metadata` -/
def updateFileMetadata (metaArray : MetaArray) (filename : Bytes) (size now : ℤ) :
    ℤ × MetaArray :=
  match findSlot metaArray filename with
  | some i =>
      (0, Function.update metaArray i
        { metaArray i with
          version := int32 ((metaArray i).version + 1)
          fileSize := size
          lastModified := now })
  | none => (-1, metaArray)

/-- `remove_file_metadata` -/
def removeFileMetadata (metaArray : MetaArray) (filename : Bytes) : ℤ × MetaArray :=
  match findSlot metaArray filename with
  | some i =>
      (0, Function.update metaArray i
        { metaArray i with isActive := false, lockedByUserId := -1 })
  | none => (-1, metaArray)

/-- `find_file_metadata` -/
def findFileMetadata (metaArray : MetaArray) (filename : Bytes) : Option Slot :=
  findSlot metaArray filename

/-! ## Edit locks -/

/-- `acquire_edit_lock`: 0 granted, -1 no such file, -2 locked by another user. -/
def acquireEditLock (metaArray : MetaArray) (filename : Bytes) (userId : ℤ) (username : Bytes)
    (now : ℤ) : ℤ × MetaArray :=
  match findSlot metaArray filename with
  | none => (-1, metaArray)
  | some i =>
      let granted := Function.update metaArray i
        { metaArray i with
          lockedByUserId := userId
          lockedByUsername := strncpy (maxUsername - 1) username
          lockAcquiredAt := now }
      if (metaArray i).lockedByUserId ≠ -1 then
        if now - (metaArray i).lockAcquiredAt > lockTimeoutSecs then
          -- stale lock: fall through to acquire
          (0, granted)
        else if (metaArray i).lockedByUserId = userId then
          -- re-entry: nothing is written, the time of the grant stays
          (0, metaArray)
        else (-2, metaArray)
      else (0, granted)

/-- `release_edit_lock`: 0 released, -1 no such file, -2 not the holder. -/
def releaseEditLock (metaArray : MetaArray) (filename : Bytes) (userId : ℤ) : ℤ × MetaArray :=
  match findSlot metaArray filename with
  | none => (-1, metaArray)
  | some i =>
      if (metaArray i).lockedByUserId = -1 then (0, metaArray)
      else if (metaArray i).lockedByUserId ≠ userId then (-2, metaArray)
      else
        (0, Function.update metaArray i
          { metaArray i with
            lockedByUserId := -1
            lockedByUsername := []
            lockAcquiredAt := 0 })

/-- `check_edit_lock`: whether the file is locked, and the locker's name if it
is (the caller's zeroed buffer otherwise).  A stale lock is cleared, but its
name and time stay in the slot. -/
def checkEditLock (metaArray : MetaArray) (filename : Bytes) (now : ℤ) :
    (Bool × Bytes) × MetaArray :=
  match findSlot metaArray filename with
  | none => ((false, []), metaArray)
  | some i =>
      if (metaArray i).lockedByUserId ≠ -1 then
        if now - (metaArray i).lockAcquiredAt > lockTimeoutSecs then
          ((false, []), Function.update metaArray i
            { metaArray i with lockedByUserId := -1 })
        else ((true, strncpy (maxUsername - 1) (metaArray i).lockedByUsername), metaArray)
      else ((false, []), metaArray)

/-! ## Listings -/

/-- The column `list_all_files` prints for the lock. -/
def lockColumn (slot : FileMetadata) : Bytes :=
  if slot.lockedByUserId ≠ -1 then snprintf 40 (text "LOCKED: " ++ slot.lockedByUsername)
  else snprintf 40 (text "unlocked")

/-- One row of the table printed by `list_all_files`. -/
def listRow (slot : FileMetadata) : Bytes :=
  text "║ " ++ padRight 18 slot.filename ++ text " ║ v" ++ padRight 4 (decimal slot.version) ++
    text " ║ " ++ padLeft 5 (decimal slot.fileSize) ++ text "B ║ " ++
    padRight 14 slot.ownerName ++ text " ║ " ++ padRight 15 (lockColumn slot) ++ text " ║\n"

/-- The row loop of `list_all_files`: it goes on over the remaining slots while
the running offset leaves 120 bytes. -/
def listRows (metaArray : MetaArray) (maxSize : ℕ) : List Slot → Output × ℕ → Output × ℕ
  | [], acc => acc
  | i :: rest, (out, count) =>
      if (out.offset : ℤ) < maxSize - 120 then
        if (metaArray i).isActive then
          listRows metaArray maxSize rest
            (out.print maxSize (listRow (metaArray i)), count + 1)
        else listRows metaArray maxSize rest (out, count)
      else (out, count)

/-- `list_all_files`: the number of rows printed, and the text. -/
def listAllFiles (metaArray : MetaArray) (maxSize : ℕ) : ℕ × Bytes :=
  let head := Output.empty.print maxSize
    (text "\n╔════════════════════╦═══════╦════════╦════════════════╦═════════════════╗\n" ++
      text "║ Filename           ║ Ver   ║ Size   ║ Owner          ║ Lock Status     ║\n" ++
      text "╠════════════════════╬═══════╬════════╬════════════════╬═════════════════╣\n")
  let (rows, count) := listRows metaArray maxSize (List.finRange maxFiles) (head, 0)
  let body :=
    if count = 0 then
      rows.print maxSize
        (text "║              (no files stored)                                        ║\n")
    else rows
  let out := body.print maxSize
    (text "╚════════════════════╩═══════╩════════╩════════════════╩═════════════════╝\n" ++
      text "  Total files: " ++ decimal count ++ text "\n")
  (count, out.written)

/-- `get_file_version`: 0 and the description of the file, or -1 and a message.
`date` is what `strftime` prints for a time. -/
def getFileVersion (metaArray : MetaArray) (filename : Bytes) (maxSize : ℕ) (date : ℤ → Bytes) :
    ℤ × Bytes :=
  match findSlot metaArray filename with
  | none => (-1, snprintf maxSize (text "File '" ++ filename ++ text "' not found.\n"))
  | some i =>
      let lockInfo :=
        if (metaArray i).lockedByUserId ≠ -1 then
          snprintf 64 (text "Locked by " ++ (metaArray i).lockedByUsername)
        else text "Unlocked"
      let row (label value : Bytes) := text "║ " ++ label ++ padRight 27 value ++ text " ║\n"
      (0, snprintf maxSize
        (text "\n╔═══════════════════════════════════════╗\n" ++
          text "║         FILE VERSION INFO             ║\n" ++
          text "╠═══════════════════════════════════════╣\n" ++
          row (text "File:     ") (metaArray i).filename ++
          row (text "Version:  ") (decimal (metaArray i).version) ++
          row (text "Size:     ") (snprintf 32 (decimal (metaArray i).fileSize ++ text " bytes")) ++
          row (text "Owner:    ") (metaArray i).ownerName ++
          row (text "Created:  ") (date (metaArray i).created) ++
          row (text "Modified: ") (date (metaArray i).lastModified) ++
          row (text "Lock:     ") lockInfo ++
          text "╚═══════════════════════════════════════╝\n"))

end CloudSync
