import CloudSync.Lib.Framing
import CloudSync.Server

/-!
# A connection (`src/server.c`, `handle_client`)

A client sends `ClientRequest`s as they lie in memory, and `recv` with
`MSG_WAITALL` fills a cleared one: what does not arrive before the connection is
closed stays zero.  `requestOf` is that struct, `encodeRequest` the bytes a
client sends.

`handleClient` is the whole of `handle_client`.  What it did is a
`Conversation`.  Other sessions go on meanwhile; `Turn.others` is what they have
done to the shared state by the time a request is served.
-/

namespace CloudSync

open CText Framing

/-! ## Requests as bytes -/

/-- `sizeof(ClientRequest)` -/
def requestSize : ℕ := 4 + maxUsername + maxPassword + maxFilename + 4 + maxFileSize

/-- The `int` in four bytes, lowest first. -/
def leInt (bytes : Bytes) : ℤ := int32 (Nat.ofDigits 256 (bytes.map UInt8.toNat) : ℕ)

/-- The four bytes of an `int`, lowest first. -/
def intBytes (x : ℤ) : Bytes :=
  let u := (x % 2 ^ 32).toNat
  [UInt8.ofNat (u % 256), UInt8.ofNat (u / 256 % 256), UInt8.ofNat (u / 256 ^ 2 % 256),
    UInt8.ofNat (u / 256 ^ 3 % 256)]

/-- The field of `size` bytes at `offset` of a cleared struct whose first bytes
were overwritten by `received`. -/
def fieldAt (received : Bytes) (offset size : ℕ) : Bytes :=
  ((received ++ List.replicate requestSize 0).drop offset).take size

theorem fieldAt_length (received : Bytes) {offset size : ℕ} (h : offset + size ≤ requestSize) :
    (fieldAt received offset size).length = size := by
  rw [fieldAt, List.length_take, List.length_drop, List.length_append, List.length_replicate]
  omega

theorem leInt_range (bytes : Bytes) : InInt (leInt bytes) := int32_range _

/-- The request `recv` leaves in the struct. -/
def requestOf (received : Bytes) : ClientRequest where
  operation := leInt (fieldAt received 0 4)
  username := fieldAt received 4 maxUsername
  password := fieldAt received 36 maxPassword
  filename := fieldAt received 68 maxFilename
  dataSize := leInt (fieldAt received 132 4)
  data := fieldAt received 136 maxFileSize
  data_length := fieldAt_length received (le_of_eq rfl)
  dataSize_range := leInt_range _

/-- The bytes of a request. -/
def encodeRequest (req : ClientRequest) : Bytes :=
  intBytes req.operation ++ (req.username ++ (req.password ++ (req.filename ++
    (intBytes req.dataSize ++ req.data))))

/-! ## The conversation -/

/-- What a session did: the requests it acted on, what it sent back, and what
became of the accounts and of the shared state. -/
structure Conversation where
  requests : List ClientRequest
  responses : List ServerResponse
  accounts : AuthState
  world : World

/-- One request and its response before the rest. -/
def Conversation.after (req : ClientRequest) (resp : ServerResponse) (rest : Conversation) :
    Conversation :=
  { rest with requests := req :: rest.requests, responses := resp :: rest.responses }

/-- What a turn of the command loop meets. -/
structure Turn where
  env : ℕ → Env
  requestId : ℤ
  others : World → World

/-- The answer to `OP_EXIT`. -/
def goodbye (user : UserInfo) : ServerResponse :=
  message .success (text "Signed out. Goodbye, " ++ user.username ++ text "!")

/-- The answer to anything else than a login or a signup at the beginning. -/
def expectedLogin : ServerResponse :=
  message .authFail (text "Expected SIGNIN or SIGNUP as first command")

/-- `req.operation` is `OP_LOGIN` or `OP_SIGNUP`. -/
def Opens (req : ClientRequest) : Prop :=
  Operation.ofCode req.operation = .login ∨ Operation.ofCode req.operation = .signup

instance (req : ClientRequest) : Decidable (Opens req) := by
  unfold Opens
  infer_instance

/-- The command loop, while the server is running.  Every turn takes something
from the connection, so as many turns as there are bytes are enough. -/
def commandLoop (user : UserInfo) (accounts : AuthState) :
    ℕ → (ℕ → Turn) → List Bytes → World → Conversation
  | 0, _, _, world => ⟨[], [], accounts, world⟩
  | fuel + 1, turns, packets, world =>
      let bytes := (recvAll requestSize packets).1
      let packets := (recvAll requestSize packets).2
      if bytes.length ≤ 0 then ⟨[], [], accounts, world⟩
      else
        let req := requestOf bytes
        if Operation.ofCode req.operation = .exit then
          ⟨[req], [goodbye user], accounts, world⟩
        else
          let served := handleRequest (turns 0).env user (turns 0).requestId req
            ((turns 0).others world)
          (commandLoop user accounts fuel (fun k => turns (k + 1)) packets served.2).after
            req served.1

/-- `handle_client` on a connection that delivers `packets` and is closed. -/
def handleClient (accounts : AuthState) (canAppend : Bool) (turns : ℕ → Turn)
    (packets : List Bytes) (world : World) : Conversation :=
  let bytes := (recvAll requestSize packets).1
  let packets := (recvAll requestSize packets).2
  let req := requestOf bytes
  if bytes.length ≤ 0 ∨ ¬ Opens req then ⟨[], [expectedLogin], accounts, world⟩
  else
    let begun := beginSession accounts canAppend req
    match begun.1.2 with
    | none => ⟨[req], [begun.1.1], begun.2, world⟩
    | some user =>
        (commandLoop user begun.2 (packets.flatten.length + 1) turns packets world).after req
          begun.1.1

end CloudSync
