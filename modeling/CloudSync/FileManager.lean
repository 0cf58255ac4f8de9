import CloudSync.Common
import CloudSync.Lib.CStdio
import CloudSync.Lib.ExchangeSort
import CloudSync.Lib.Files

/-!
# File I/O and version history (`src/file_manager.c`)

The functions are programs over the system calls of `Files.Sys`, so that they
can be run with calls that fail, and interleaved call by call.  Every path is
printed into a buffer of the size the source uses.

Version `k` of `f` is the file `./storage/.versions/<f>/v<k>`.
-/

namespace CloudSync

open CText Calls Calls.Prog Files ExchangeSort

/-- `VERSION_DIR` -/
def versionDir : Bytes := text "./storage/.versions"

/-- `get_filepath` into a buffer of 256 bytes. -/
def getFilepath (filename : Bytes) : Bytes := snprintf 256 (storageDir ++ 47 :: filename)

/-- The directory of a file's versions, in a buffer of 256 bytes. -/
def versionDirPath (filename : Bytes) : Bytes := snprintf 256 (versionDir ++ 47 :: filename)

/-- The name `v%d` of a version. -/
def versionName (version : ℤ) : Bytes := 118 :: decimal version

/-- The path of a version, in a buffer of `size` bytes. -/
def versionPath (size : ℕ) (filename : Bytes) (version : ℤ) : Bytes :=
  snprintf size (versionDir ++ 47 :: filename ++ 47 :: versionName version)

/-! ## Core file operations -/

/-- The loop of `init_storage`: `stat` each directory and make it if it is missing. -/
def makeDirs : List Bytes → Prog Sys ℤ
  | [] => return 0
  | dir :: rest => do
      if (← perform (.stat dir)).isNone then
        if !(← perform (.mkdir dir)) then return -1
        else makeDirs rest
      else makeDirs rest

/-- `init_storage` -/
def initStorage : Prog Sys ℤ := makeDirs [storageDir, versionDir]

/-- `save_file` -/
def saveFile (filename data : Bytes) : Prog Sys ℤ := do
  let filepath := getFilepath filename
  if !(← perform (.openTrunc filepath)) then return -1
  if !(← perform (.lock filepath .write)) then
    perform (.close filepath)
    return -1
  let written ← perform (.write filepath 0 data)
  if written ≠ some data.length then
    perform (.unlock filepath)
    perform (.close filepath)
    return -1
  perform (.unlock filepath)
  perform (.close filepath)
  return 0

/-- `read_file`: 0 and the bytes read, or -1. -/
def readFile (filename : Bytes) : Prog Sys (ℤ × Bytes) := do
  let filepath := getFilepath filename
  if !(← perform (.openRead filepath)) then return (-1, [])
  if !(← perform (.lock filepath .read)) then
    perform (.close filepath)
    return (-1, [])
  match ← perform (.read filepath 0 maxFileSize) with
  | none =>
      perform (.unlock filepath)
      perform (.close filepath)
      return (-1, [])
  | some bytes =>
      perform (.unlock filepath)
      perform (.close filepath)
      return (0, bytes)

/-- The loop of `remove_all_versions` over the entries of the directory. -/
def removeEntries (dir : Bytes) : List Bytes → Prog Sys Unit
  | [] => return ()
  | entry :: rest => do
      if entry ≠ dot ∧ entry ≠ dotDot then
        let _ ← perform (.remove (snprintf 512 (dir ++ 47 :: entry)))
        removeEntries dir rest
      else removeEntries dir rest

/-- `remove_all_versions` -/
def removeAllVersions (filename : Bytes) : Prog Sys Unit := do
  let dir := versionDirPath filename
  match ← perform (.readdir dir) with
  | none => return ()
  | some entries =>
      removeEntries dir entries
      let _ ← perform (.rmdir dir)
      return ()

/-- `remove_file_from_storage` -/
def removeFileFromStorage (filename : Bytes) : Prog Sys ℤ := do
  if !(← perform (.remove (getFilepath filename))) then return -1
  removeAllVersions filename
  return 0

/-! ## Version history -/

/-- The loop of `copy_file`, from `offset` on, both files open.  The loop of the
source ends when a read returns nothing; `turns` bounds it.  One turn more than
the source file has bytes is not used up while the file stays as long as it is;
if another task lengthens it in the meantime the copy may end early here, where
the source copies on. -/
def copyLoop (src dst : Bytes) : ℕ → ℕ → Prog Sys ℤ
  | 0, _ => do
      perform (.close src)
      perform (.close dst)
      return 0
  | turns + 1, offset => do
      match ← perform (.read src offset 4096) with
      | none =>
          perform (.close src)
          perform (.close dst)
          return 0
      | some [] =>
          perform (.close src)
          perform (.close dst)
          return 0
      | some (b :: more) =>
          let written ← perform (.write dst offset (b :: more))
          if written ≠ some (b :: more).length then
            perform (.close src)
            perform (.close dst)
            return -1
          else copyLoop src dst turns (offset + (b :: more).length)

/-- `copy_file`; `size` is what `stat` returned for the source. -/
def copyFile (src dst : Bytes) (size : ℕ) : Prog Sys ℤ := do
  if !(← perform (.openRead src)) then return -1
  if !(← perform (.openTrunc dst)) then
    perform (.close src)
    return -1
  copyLoop src dst (size + 1) 0

/-- `ensure_version_dir` -/
def ensureVersionDir (filename : Bytes) : Prog Sys ℤ := do
  let dir := versionDirPath filename
  if (← perform (.stat dir)).isNone then
    if !(← perform (.mkdir dir)) then return -1
    else return 0
  else return 0

/-- The version numbers `cleanup_old_versions` and `list_versions` collect from
a directory: `atoi` of what follows the `v`, for the first 256 entries that
start with one. -/
def versionEntries (entries : List Bytes) : List Bytes :=
  (entries.filter fun name => name.head? == some 118).take 256

/-- The loop of `cleanup_old_versions` that removes versions. -/
def removeVersions (filename : Bytes) : List ℤ → Prog Sys Unit
  | [] => return ()
  | version :: rest => do
      let _ ← perform (.remove (versionPath 512 filename version))
      removeVersions filename rest

/-- `cleanup_old_versions` -/
def cleanupOldVersions (filename : Bytes) (maxKeep : ℕ) : Prog Sys ℤ := do
  match ← perform (.readdir (versionDirPath filename)) with
  | none => return 0
  | some entries =>
      let versions := (versionEntries entries).map fun name => atoi (name.drop 1)
      if versions.length ≤ maxKeep then return 0
      else
        let sorted := exchangeSort (fun a b => decide (b < a)) versions
        let toRemove := versions.length - maxKeep
        removeVersions filename (sorted.take toRemove)
        return toRemove

/-- `save_version` -/
def saveVersion (filename : Bytes) (version : ℤ) : Prog Sys ℤ := do
  if (← ensureVersionDir filename) < 0 then return -1
  let src := getFilepath filename
  let dst := versionPath 256 filename version
  match ← perform (.stat src) with
  | none => return 0
  | some size =>
      if (← copyFile src dst size) < 0 then return -1
      let _ ← cleanupOldVersions filename maxVersions
      return 0

/-- `restore_version`: the size of the restored file, or -1. -/
def restoreVersion (filename : Bytes) (version : ℤ) : Prog Sys ℤ := do
  let src := versionPath 256 filename version
  let dst := getFilepath filename
  match ← perform (.stat src) with
  | none => return -1
  | some size =>
      if (← copyFile src dst size) < 0 then return -1
      return size

/-- The row loop of `list_versions`. -/
def versionRows (dir : Bytes) (maxSize : ℕ) (modified : Bytes → Bytes) :
    List Bytes → Output × ℕ → Prog Sys (Output × ℕ)
  | [], acc => return acc
  | name :: rest, (out, count) => do
      if (out.offset : ℤ) < maxSize - 100 then
        let fpath := snprintf 512 (dir ++ 47 :: name)
        match ← perform (.stat fpath) with
        | none => versionRows dir maxSize modified rest (out, count)
        | some size =>
            let row := text "║ v" ++ padRight 4 (decimal (atoi (name.drop 1))) ++ text " ║ " ++
              padLeft 7 (decimal size) ++ text "B    ║ " ++ padRight 15 (modified fpath) ++
              text " ║\n"
            versionRows dir maxSize modified rest (out.print maxSize row, count + 1)
      else return (out, count)

/-- `list_versions`: the number of rows printed or -1, and the text.  `modified`
is what `strftime` prints for the modification time of a path. -/
def listVersions (filename : Bytes) (maxSize : ℕ) (modified : Bytes → Bytes) :
    Prog Sys (ℤ × Bytes) := do
  let dir := versionDirPath filename
  match ← perform (.readdir dir) with
  | none =>
      return (-1, snprintf maxSize
        (text "File '" ++ filename ++ text "' not found or has no history.\n"))
  | some entries =>
      let head := Output.empty.print maxSize
        (text "\n╔═══════════════════════════════════════╗\n" ++
          text "║       VERSION HISTORY: " ++ padRight 14 filename ++ text " ║\n" ++
          text "╠═══════╦═════════════╦═════════════════╣\n" ++
          text "║ Ver   ║ Size        ║ Date            ║\n" ++
          text "╠═══════╬═════════════╬═════════════════╣\n")
      let sorted := exchangeSort
        (fun a b : Bytes => decide (atoi (a.drop 1) < atoi (b.drop 1))) (versionEntries entries)
      let (rows, count) ← versionRows dir maxSize modified sorted (head, 0)
      let body :=
        if count = 0 then
          rows.print maxSize (text "║       (no versions stored)            ║\n")
        else rows
      let out := body.print maxSize
        (text "╚═══════╩═════════════╩═════════════════╝\n" ++
          text " Total versions: " ++ decimal count ++ text " (max kept: " ++
          decimal maxVersions ++ text ")\n")
      return (count, out.written)

/-- `delete_version` -/
def deleteVersion (filename : Bytes) (version : ℤ) : Prog Sys ℤ := do
  let path := versionPath 512 filename version
  if (← perform (.stat path)).isNone then return -1
  if !(← perform (.remove path)) then return -1
  return 0

end CloudSync
