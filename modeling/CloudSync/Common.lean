import CloudSync.Lib.CText

/-!
# Constants and messages (`include/common.h`)

Character arrays are C strings (`CText.Bytes`); `int` and `time_t` fields are
integers.  `TaskMessage` and `ClientRequest` carry the bounds their fixed-size
arrays impose, so a task whose filename does not fit cannot be written down, and
the range of the `int`s that end up in paths.

A task's `data` is the first `data_size` bytes of its array, which are the only
ones the program reads, so `data_size` is the length of `data`.
-/

namespace CloudSync

open CText

/-! ## Configuration -/

/-- `MAX_FILES` -/
def maxFiles : ℕ := 100

/-- `MAX_FILENAME` -/
def maxFilename : ℕ := 64

theorem filename_a : (text "a").length < maxFilename := by decide

theorem filename_b : (text "b").length < maxFilename := by decide

theorem filename_c : (text "c").length < maxFilename := by decide

/-- `MAX_USERNAME` -/
def maxUsername : ℕ := 32

/-- `MAX_PASSWORD` -/
def maxPassword : ℕ := 32

/-- `MAX_FILE_SIZE` -/
def maxFileSize : ℕ := 4096

/-- `MAX_MSG_SIZE` -/
def maxMsgSize : ℕ := 256

/-- `STORAGE_DIR` -/
def storageDir : Bytes := text "./storage"

/-- `LOCK_TIMEOUT_SECS` -/
def lockTimeoutSecs : ℤ := 300

/-- `MAX_VERSIONS` -/
def maxVersions : ℕ := 5

/-- `MAX_AUDIT_ENTRY` -/
def maxAuditEntry : ℕ := 512

/-! ## Operations, roles, status codes -/

/-- The `OP_` codes; `other` is any value without a name. -/
inductive Operation
  | login
  | upload
  | download
  | delete
  | list
  | version
  | exit
  | edit
  | save
  | unlock
  | history
  | rollback
  | quota
  | audit
  | delversion
  | signup
  | other (code : ℤ)
  deriving DecidableEq

/-- The operation an `int` received from a client stands for. -/
def Operation.ofCode : ℤ → Operation
  | 0 => login
  | 1 => upload
  | 2 => download
  | 3 => delete
  | 4 => list
  | 5 => version
  | 6 => exit
  | 7 => edit
  | 8 => save
  | 9 => unlock
  | 10 => history
  | 11 => rollback
  | 12 => quota
  | 13 => audit
  | 14 => delversion
  | 15 => signup
  | code => other code

def Operation.code : Operation → ℤ
  | login => 0
  | upload => 1
  | download => 2
  | delete => 3
  | list => 4
  | version => 5
  | exit => 6
  | edit => 7
  | save => 8
  | unlock => 9
  | history => 10
  | rollback => 11
  | quota => 12
  | audit => 13
  | delversion => 14
  | signup => 15
  | other code => code

/-- `ROLE_ADMIN` -/
def roleAdmin : ℤ := 0

/-- `ROLE_USER` -/
def roleUser : ℤ := 1

/-- `ROLE_GUEST` -/
def roleGuest : ℤ := 2

/-- The `STATUS_` codes. -/
inductive Status
  | success
  | error
  | authFail
  | permissionDenied
  | fileNotFound
  | fileExists
  | fileLocked
  | userExists
  deriving DecidableEq

/-! ## Structures -/

/-- `FileMetadata`, one slot of the shared array. -/
structure FileMetadata where
  filename : Bytes
  ownerName : Bytes
  ownerId : ℤ
  version : ℤ
  fileSize : ℤ
  isActive : Bool
  created : ℤ
  lastModified : ℤ
  lockedByUserId : ℤ
  lockedByUsername : Bytes
  lockAcquiredAt : ℤ
  deriving DecidableEq

/-- `UserInfo` -/
structure UserInfo where
  id : ℤ
  username : Bytes
  password : Bytes
  role : ℤ
  deriving DecidableEq

/-- `ClientRequest`; the arrays are raw, as received. -/
structure ClientRequest where
  operation : ℤ
  username : Bytes
  password : Bytes
  filename : Bytes
  dataSize : ℤ
  data : Bytes
  data_length : data.length = maxFileSize
  dataSize_range : -2 ^ 31 ≤ dataSize ∧ dataSize < 2 ^ 31

/-- The `data` array of a request that sends none. -/
def noData : Bytes := List.replicate maxFileSize 0

theorem noData_length : noData.length = maxFileSize := List.length_replicate

theorem noData_range : -2 ^ 31 ≤ (0 : ℤ) ∧ (0 : ℤ) < 2 ^ 31 := by decide

/-- `TaskMessage` -/
structure TaskMessage where
  requestId : ℤ
  operation : Operation
  userId : ℤ
  role : ℤ
  username : Bytes
  filename : Bytes
  data : Bytes
  targetVersion : ℤ
  username_length : username.length < maxUsername
  filename_length : filename.length < maxFilename
  data_length : data.length ≤ maxFileSize
  targetVersion_range : -2 ^ 31 ≤ targetVersion ∧ targetVersion < 2 ^ 31

/-- `data_size` -/
def TaskMessage.dataSize (task : TaskMessage) : ℤ := task.data.length

/-- `ResponseMessage` -/
structure ResponseMessage where
  mtype : ℤ
  status : Status
  message : Bytes
  data : Bytes
  deriving DecidableEq

/-- `ServerResponse`; after a login `data_size` is the role, and there is no data. -/
structure ServerResponse where
  status : Status
  message : Bytes
  dataSize : ℤ
  data : Bytes
  deriving DecidableEq

end CloudSync
