import CloudSync.Auth
import CloudSync.Worker

/-!
# The client handler (`src/server.c`)

`beginSession` is the first phase of `handle_client`: the login or signup request
and the account the session then runs under.  `clientTask` is the task built
from a later request, and `handleRequest` is one turn of the command loop, the
task being processed with nothing in between.
-/

namespace CloudSync

open CText

/-! ## Logging in -/

/-- A response that carries a message and nothing else. -/
def message (status : Status) (text : Bytes) : ServerResponse where
  status := status
  message := snprintf maxMsgSize text
  dataSize := 0
  data := []

/-- The response that begins a session; its `data_size` is the role. -/
def welcome (greeting : Bytes) (user : UserInfo) : ServerResponse :=
  { message .success (greeting ++ user.username ++ text "! Role: " ++ roleToString user.role ++
      text ". Type HELP for commands.") with dataSize := user.role }

/-- The first phase of `handle_client`: the response, and the account of the
session if the request is let through.  A username or password without an end in its
field ends with the field here; the code reads on into the bytes that follow it. -/
def beginSession (state : AuthState) (canAppend : Bool) (req : ClientRequest) :
    (ServerResponse × Option UserInfo) × AuthState :=
  let username := cstr req.username
  let password := cstr req.password
  match Operation.ofCode req.operation with
  | .signup =>
      -- the role arrives in `data_size`
      let ((result, user), state) := registerUser state canAppend username password req.dataSize
      match user with
      | some user => ((welcome (text "Account created! Welcome, ") user, some user), state)
      | none =>
          if result = -2 then
            ((message .userExists (text "Username '" ++ username ++
              text "' already exists. Please choose another."), none), state)
          else ((message .error (text "Registration failed due to server error"), none), state)
  | .login =>
      let (user, state) := authenticateUser state username password
      match user with
      | some user => ((welcome (text "Welcome back, ") user, some user), state)
      | none =>
          ((message .authFail (text "Authentication failed for '" ++ username ++ text "'"), none),
            state)
  | _ => ((message .authFail (text "Expected SIGNIN or SIGNUP as first command"), none), state)

/-! ## The command loop -/

/-- The payload copied into a task: `data_size` bytes if that is a size the
array can hold, nothing otherwise or when `data_size` carries a version. -/
def taskData (req : ClientRequest) : Bytes :=
  match Operation.ofCode req.operation with
  | .rollback => []
  | .delversion => []
  | _ => if 0 < req.dataSize ∧ req.dataSize ≤ maxFileSize then req.data.take req.dataSize.toNat else []

/-- The target version of a task; it is sent in `data_size`. -/
def taskVersion (req : ClientRequest) : ℤ :=
  match Operation.ofCode req.operation with
  | .rollback => req.dataSize
  | .delversion => req.dataSize
  | _ => 0

theorem taskData_length_le (req : ClientRequest) : (taskData req).length ≤ maxFileSize := by
  have hdata := req.data_length
  unfold taskData
  split
  · exact Nat.zero_le _
  · exact Nat.zero_le _
  · split
    · rw [List.length_take, hdata]
      exact Nat.min_le_right _ _
    · exact Nat.zero_le _

theorem taskVersion_range (req : ClientRequest) :
    -2 ^ 31 ≤ taskVersion req ∧ taskVersion req < 2 ^ 31 := by
  unfold taskVersion
  split
  · exact req.dataSize_range
  · exact req.dataSize_range
  · norm_num

/-- The task `handle_client` enqueues for a request. -/
def clientTask (user : UserInfo) (requestId : ℤ) (req : ClientRequest) : TaskMessage where
  requestId := requestId
  operation := Operation.ofCode req.operation
  userId := user.id
  role := user.role
  username := strncpy (maxUsername - 1) user.username
  filename := strncpy (maxFilename - 1) (cstr req.filename)
  data := taskData req
  targetVersion := taskVersion req
  username_length := by
    unfold strncpy maxUsername
    rw [List.length_take]
    omega
  filename_length := by
    unfold strncpy maxFilename
    rw [List.length_take]
    omega
  data_length := taskData_length_le req
  targetVersion_range := taskVersion_range req

/-- The worker's response as it is forwarded to the client. -/
def forward (resp : ResponseMessage) : ServerResponse where
  status := resp.status
  message := strncpy (maxMsgSize - 1) resp.message
  dataSize := resp.data.length
  data := resp.data

/-- One turn of the command loop, for a request other than `OP_EXIT`: a request
that `check_permission` refuses is answered at once, any other is processed. -/
def handleRequest (env : ℕ → Env) (user : UserInfo) (requestId : ℤ) (req : ClientRequest)
    (world : World) : ServerResponse × World :=
  let operation := Operation.ofCode req.operation
  if checkPermission user.role operation then
    let (resp, world) := serve env (clientTask user requestId req) world
    (forward resp, world)
  else
    (message .permissionDenied (text "Permission denied: " ++ roleToString user.role ++
      text " cannot " ++ operationToString operation), world)

end CloudSync
