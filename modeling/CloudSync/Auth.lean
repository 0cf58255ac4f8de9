import CloudSync.Common
import CloudSync.Lib.CStdio
import Mathlib.Logic.Function.Basic

/-!
# Accounts and permissions (`src/auth.c`)

`users.dat` has one account a line, `id:username:password:role`.  `loadUsers`
fills the module's cache slot by slot and leaves a slot half written when a line
turns out to be malformed, as the source does.

Both `authenticateUser` and `registerUser` read the file again on every call, so
the state is the file and the cache, and only the file carries over from one
call to the next.
-/

namespace CloudSync

open CText

/-- `MAX_USERS` -/
def maxUsers : ℕ := 20

/-- `check_permission` -/
def checkPermission (role : ℤ) (operation : Operation) : Bool :=
  if role = roleAdmin then true
  else if role = roleUser then operation != .audit
  else if role = roleGuest then
    operation == .download || operation == .list || operation == .version ||
      operation == .history
  else false

/-- `role_to_string` -/
def roleToString (role : ℤ) : Bytes :=
  if role = roleAdmin then text "ADMIN"
  else if role = roleUser then text "USER"
  else if role = roleGuest then text "GUEST"
  else text "UNKNOWN"

/-- The module's cache of accounts. -/
abbrev UserArray := Fin maxUsers → UserInfo

/-- The accounts in the first `count` slots. -/
def UserArray.toList (users : UserArray) (count : ℕ) : List UserInfo :=
  (List.ofFn users).take count

/-! ## Reading accounts -/

/-- A line up to its CR or LF (or a NUL). -/
def cutLine (line : Bytes) : Bytes := line.takeWhile fun b => b != 13 && b != 10 && b != 0

/-- One line of `load_users`, parsed into the slot: whether it was an account,
and the slot, which keeps what was written before a token was missing. -/
def parseUser (slot : UserInfo) (line : Bytes) : Bool × UserInfo :=
  let line := cutLine line
  if line = [] ∨ line.head? = some 35 then (false, slot)
  else
    match strtok 58 line with
    | none => (false, slot)
    | some (token, line) =>
        let slot := { slot with id := atoi token }
        match strtok 58 line with
        | none => (false, slot)
        | some (token, line) =>
            let slot := { slot with username := strncpy (maxUsername - 1) token }
            match strtok 58 line with
            | none => (false, slot)
            | some (token, line) =>
                let slot := { slot with password := strncpy (maxPassword - 1) token }
                match strtok 58 line with
                | none => (false, slot)
                | some (token, _) => (true, { slot with role := atoi token })

/-- The loop of `load_users` over the lines read. -/
def loadLoop : List Bytes → UserArray → ℕ → UserArray × ℕ
  | [], users, count => (users, count)
  | line :: rest, users, count =>
      if hcount : count < maxUsers then
        let parsed := parseUser (users ⟨count, hcount⟩) line
        loadLoop rest (Function.update users ⟨count, hcount⟩ parsed.2)
          (if parsed.1 then count + 1 else count)
      else (users, count)

/-- The module state: `users.dat`, if it can be opened, and the cache. -/
structure AuthState where
  file : Option Bytes
  users : UserArray
  userCount : ℕ

/-- `load_users` into the cache. -/
def loadUsers (state : AuthState) : ℤ × AuthState :=
  match state.file with
  | none => (-1, state)
  | some file =>
      let loaded := loadLoop (fgetsAll 256 file) state.users 0
      (0, { state with users := loaded.1, userCount := loaded.2 })

/-- The accounts the cache holds. -/
def AuthState.accounts (state : AuthState) : List UserInfo := state.users.toList state.userCount

/-- `authenticate_user`: the account, or nothing. -/
def authenticateUser (state : AuthState) (username password : Bytes) :
    Option UserInfo × AuthState :=
  let (result, state) := loadUsers state
  if result < 0 then (none, state)
  else
    (state.accounts.find? fun user => user.username == username && user.password == password,
      state)

/-! ## Registration -/

/-- `A`–`Z` to lower case. -/
def toLower (b : UInt8) : UInt8 := if 65 ≤ b ∧ b ≤ 90 then b + 32 else b

/-- The reserved-name test at the top of `register_user`. -/
def reservedName (username : Bytes) : Bool :=
  (username.take (maxUsername - 1)).map toLower == text "admin"

/-- The scan for the next free id. -/
def nextId (accounts : List UserInfo) : ℤ :=
  accounts.foldl (fun next user => if next ≤ user.id then int32 (user.id + 1) else next) 1

/-- The line `register_user` appends. -/
def userRecord (id : ℤ) (username password : Bytes) (role : ℤ) : Bytes :=
  decimal id ++ 58 :: username ++ 58 :: password ++ 58 :: decimal role ++ [10]

/-- `register_user`: 0 and the new account, -1 on an I/O error, -2 if the name
is reserved or the account exists.  `canAppend` says whether `users.dat` can be
opened and locked for appending. -/
def registerUser (state : AuthState) (canAppend : Bool) (username password : Bytes) (role : ℤ) :
    (ℤ × Option UserInfo) × AuthState :=
  if reservedName username then ((-2, none), state)
  else
    let (result, state) := loadUsers state
    if result < 0 then ((-1, none), state)
    else if state.accounts.any fun user => user.username == username && user.role == role then
      ((-2, none), state)
    else
      let id := nextId state.accounts
      if !canAppend then ((-1, none), state)
      else
        let user : UserInfo :=
          { id := id
            username := strncpy (maxUsername - 1) username
            password := strncpy (maxPassword - 1) password
            role := role }
        let file := state.file.map (· ++ userRecord id username password role)
        if hcount : state.userCount < maxUsers then
          ((0, some user),
            { file := file
              users := Function.update state.users ⟨state.userCount, hcount⟩ user
              userCount := state.userCount + 1 })
        else ((0, some user), { state with file := file })

end CloudSync
