import CloudSync.FileManager
import CloudSync.Lib.Words

/-!
# The client (`src/client.c`)

What `UPLOAD` and `DOWNLOAD` do on the client's side, as programs over the
client's own file system: `readLocalFile` and the request built from it, and
`saveLocalFile` with what a response makes of it.

`inputLoop` is the loop of `main` after a login: each buffer `fgets` fills is
parsed, and may make a request.  What it prints is left out.
-/

namespace CloudSync

open CText Calls Calls.Prog Files

/-- `read_local_file` into a buffer of `maxSize` bytes: the size and the bytes,
or -1. -/
def readLocalFile (filename : Bytes) (maxSize : ℕ) : Prog Sys (ℤ × Bytes) := do
  if !(← perform (.openRead filename)) then return (-1, [])
  let bytes ← perform (.read filename 0 maxSize)
  perform (.close filename)
  match bytes with
  | none => return (-1, [])
  | some [] => return (-1, [])
  | some (b :: more) => return ((b :: more).length, b :: more)

/-- `get_role_string` -/
def getRoleString (role : ℤ) : Bytes :=
  if role = roleAdmin then text "ADMIN"
  else if role = roleUser then text "USER"
  else if role = roleGuest then text "GUEST"
  else text "UNKNOWN"

/-- `downloads/<role>` -/
def roleDir (role : ℤ) : Bytes := snprintf 128 (text "downloads/" ++ getRoleString role)

/-- `downloads/<role>/<username>` -/
def userDir (role : ℤ) (username : Bytes) : Bytes :=
  snprintf 256 (text "downloads/" ++ getRoleString role ++ 47 :: username)

/-- `downloads/<role>/<username>/<filename>` -/
def localPath (role : ℤ) (username filename : Bytes) : Bytes :=
  snprintf 512 (text "downloads/" ++ getRoleString role ++ 47 :: username ++ 47 :: filename)

/-- Make a directory that is not there; whether that works is not looked at. -/
def ensureDir (dir : Bytes) : Prog Sys Unit := do
  if (← perform (.stat dir)).isNone then
    let _ ← perform (.mkdir dir)
    return ()
  else return ()

/-- The directories `save_local_file` makes. -/
def makeLocalDirs (role : ℤ) (username : Bytes) : Prog Sys Unit := do
  ensureDir (text "downloads")
  ensureDir (roleDir role)
  ensureDir (userDir role username)

/-- `save_local_file` -/
def saveLocalFile (filename data username : Bytes) (role : ℤ) : Prog Sys ℤ := do
  makeLocalDirs role username
  let filepath := localPath role username filename
  if !(← perform (.openTrunc filepath)) then return -1
  let _ ← perform (.write filepath 0 data)
  perform (.close filepath)
  return 0

/-- A cleared request with its operation, its filename and its payload. -/
def commandRequest (operation : Operation) (filename data : Bytes) : ClientRequest where
  operation := operation.code
  username := padTo maxUsername []
  password := padTo maxPassword []
  filename := padTo maxFilename (strncpy (maxFilename - 1) filename)
  dataSize := (data.take maxFileSize).length
  data := padTo maxFileSize (data.take maxFileSize)
  data_length := padTo_length (List.length_take_le _ _)
  dataSize_range := by
    have hlength := List.length_take_le maxFileSize data
    unfold maxFileSize at *
    omega

/-- `UPLOAD <filename>`: the request sent, if there is one. -/
def uploadCommand (filename : Bytes) : Prog Sys (Option ClientRequest) := do
  if filename = [] then return none
  else
    let (size, bytes) ← readLocalFile filename maxFileSize
    if size < 0 then return none
    else return some (commandRequest .upload filename bytes)

/-- `DOWNLOAD <filename>`: the request sent. -/
def downloadCommand (filename : Bytes) : ClientRequest := commandRequest .download filename []

/-- What the client does with the answer to a `DOWNLOAD`: the result of
`save_local_file`, if there is anything to save. -/
def downloadAnswered (filename username : Bytes) (role : ℤ) (resp : ServerResponse) :
    Prog Sys (Option ℤ) := do
  if resp.dataSize > 0 then
    let result ← saveLocalFile filename resp.data username role
    return some result
  else return none

/-! ## The command loop -/

/-- A cleared request with its operation, its filename and, for a size, the version typed. -/
def versionRequest (operation : Operation) (filename arg3 : Bytes) : ClientRequest :=
  { commandRequest operation filename [] with
    dataSize := atoi arg3
    dataSize_range := atoi_range arg3 }

/-- A command with a filename and nothing else to send. -/
def namedCommand (operation : Operation) (filename : Bytes) : Prog Sys (Option ClientRequest) :=
  if filename = [] then return none
  else return some (commandRequest operation filename [])

/-- A command that sends the local file at a path under a filename. -/
def fileCommand (operation : Operation) (filename path : Bytes) :
    Prog Sys (Option ClientRequest) := do
  if filename = [] then return none
  else
    let (size, bytes) ← readLocalFile path maxFileSize
    if size < 0 then return none
    else return some (commandRequest operation filename bytes)

/-- `SAVE <filename>`: the request sent, if there is one. -/
def saveCommand (role : ℤ) (username filename : Bytes) : Prog Sys (Option ClientRequest) :=
  fileCommand .save filename (localPath role username filename)

/-- A command with a filename and a version. -/
def versionCommand (operation : Operation) (filename arg3 : Bytes) :
    Prog Sys (Option ClientRequest) :=
  if filename = [] ∨ arg3 = [] then return none
  else return some (versionRequest operation filename arg3)

/-- `input[strcspn(input, "\r\n")] = '\0'`, and the string that is left. -/
def inputLine (input : Bytes) : Bytes := (cstr input).takeWhile fun b => b ≠ 13 && b ≠ 10

/-- What `sscanf` makes of a line. -/
structure Typed where
  command : Bytes
  filename : Bytes
  arg3 : Bytes

/-- The loop that makes the command upper case. -/
def upper (s : Bytes) : Bytes := s.map fun b => if 97 ≤ b ∧ b ≤ 122 then b - 32 else b

/-- `sscanf(input, "%31s %63s %31s", command, filename, arg3)` into cleared buffers. -/
def parseInput (input : Bytes) : Typed :=
  let (command, rest) := scanWord 31 input
  let (filename, rest) := scanWord 63 rest
  ⟨upper command, filename, (scanWord 31 rest).1⟩

/-- The request a command makes, if it makes one. -/
def buildRequest (role : ℤ) (username : Bytes) (typed : Typed) : Prog Sys (Option ClientRequest) :=
  if typed.command = text "UPLOAD" then uploadCommand typed.filename
  else if typed.command = text "DOWNLOAD" then namedCommand .download typed.filename
  else if typed.command = text "DELETE" then namedCommand .delete typed.filename
  else if typed.command = text "LIST" then return some (commandRequest .list [] [])
  else if typed.command = text "VERSION" then namedCommand .version typed.filename
  else if typed.command = text "EDIT" then namedCommand .edit typed.filename
  else if typed.command = text "SAVE" then saveCommand role username typed.filename
  else if typed.command = text "UNLOCK" then namedCommand .unlock typed.filename
  else if typed.command = text "HISTORY" then namedCommand .history typed.filename
  else if typed.command = text "ROLLBACK" then versionCommand .rollback typed.filename typed.arg3
  else if typed.command = text "DELVERSION" then
    versionCommand .delversion typed.filename typed.arg3
  else if typed.command = text "AUDIT" then return some (commandRequest .audit [] [])
  else return none

/-- What is done with the response to a request. -/
def answered (req : ClientRequest) (filename username : Bytes) (role : ℤ)
    (resp : ServerResponse) : Prog Sys Unit :=
  if req.operation = Operation.download.code ∨ req.operation = Operation.edit.code then do
    let _ ← downloadAnswered filename username role resp
    return ()
  else return ()

/-- What a turn of the loop meets: what has become of the client's files since the last one,
the outcomes of the calls that read and write them, and the response, if one arrives. -/
structure InputEnv where
  edits : Tree → Tree
  reading : ℕ → Conditions
  response : Option ServerResponse
  saving : ℕ → Conditions

/-- What a turn does: the request it sends, whether the loop goes on, and the client's files. -/
structure InputTurn where
  sent : Option ClientRequest
  goesOn : Bool
  tree : Tree

/-- One turn of the loop, `input` being what `fgets` has read. -/
def inputTurn (role : ℤ) (username input : Bytes) (env : InputEnv) (t : Tree) : InputTurn :=
  let line := inputLine input
  let typed := parseInput line
  if line = [] then ⟨none, true, env.edits t⟩
  else if typed.command = text "HELP" then ⟨none, true, env.edits t⟩
  else if typed.command = text "SIGNOUT" ∨ typed.command = text "EXIT" ∨
      typed.command = text "QUIT" then
    ⟨some (commandRequest .exit [] []), false, env.edits t⟩
  else
    let built := (buildRequest role username typed).run disk env.reading (env.edits t)
    match built.1, env.response with
    | none, _ => ⟨none, true, built.2⟩
    | some req, none => ⟨some req, false, built.2⟩
    | some req, some resp =>
        ⟨some req, true,
          ((answered req typed.filename username role resp).run disk env.saving built.2).2⟩

/-- The loop over the buffers it reads: the requests it sends, and the client's files. -/
def inputLoop (role : ℤ) (username : Bytes) :
    List Bytes → (ℕ → InputEnv) → Tree → List ClientRequest × Tree
  | [], _, t => ([], t)
  | input :: rest, env, t =>
      let now := inputTurn role username input (env 0) t
      if now.goesOn then
        let later := inputLoop role username rest (fun i => env (i + 1)) now.tree
        (now.sent.toList ++ later.1, later.2)
      else (now.sent.toList, now.tree)

end CloudSync
