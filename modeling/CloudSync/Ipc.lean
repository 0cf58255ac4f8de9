import CloudSync.Common
import CloudSync.Lib.CStdio

/-!
# The audit log (`src/ipc.c`)

`write_audit_entry` prints one line and writes it to the named pipe in one
`write`; `read_audit_log` prints the log file for the `AUDIT` command.
-/

namespace CloudSync

open CText

/-- The line `write_audit_entry` writes; `now` is the printed time. -/
def auditEntry (now username operation filename result : Bytes) : Bytes :=
  snprintf maxAuditEntry
    (text "[" ++ now ++ text "] " ++ padRight 10 username ++ text " " ++
      padRight 10 operation ++ text " " ++
      padRight 20 (if filename = [] then text "(none)" else filename) ++ text " → " ++
      result ++ text "\n")

/-- The row loop of `read_audit_log`, over the lines `fgets` reads. -/
def auditRows (maxSize : ℕ) : List Bytes → Output × ℕ → Output × ℕ
  | [], acc => acc
  | line :: rest, (out, count) =>
      if (out.offset : ℤ) < maxSize - maxAuditEntry then
        let shown := (cstr line).takeWhile (· != 10)
        auditRows maxSize rest
          (out.print maxSize (text "║ " ++ padRight 72 shown ++ text " ║\n"), count + 1)
      else (out, count)

/-- `read_audit_log` on the contents of the log file, if there is one: the
number of rows printed, and the text. -/
def readAuditLog (log : Option Bytes) (maxSize : ℕ) : ℕ × Bytes :=
  match log with
  | none => (0, snprintf maxSize (text "No audit log available yet.\n"))
  | some file =>
      let head := Output.empty.print maxSize
        (text "\n╔══════════════════════════════════════════════════════════════════════════╗\n" ++
          text "║                              AUDIT LOG                                ║\n" ++
          text "╠══════════════════════════════════════════════════════════════════════════╣\n")
      let (rows, count) := auditRows maxSize (fgetsAll maxAuditEntry file) (head, 0)
      let body :=
        if count = 0 then
          rows.print maxSize
            (text "║                          (no entries yet)                              ║\n")
        else rows
      let out := body.print maxSize
        (text "╚══════════════════════════════════════════════════════════════════════════╝\n" ++
          text " Total entries: " ++ decimal count ++ text "\n")
      (count, out.written)

end CloudSync
