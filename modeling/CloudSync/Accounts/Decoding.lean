import CloudSync.Accounts.UsersFile

/-!
# Decoding `users.dat`

A file of `UsersLine`s has accounts, one a line as `register_user` prints them, and
between them lines that are none: empty ones, comments, and lines that lack a field.
Lines end with LF or CRLF, whichever.  `load_users` reads back the accounts and
nothing else (`loadUsers_decodes`).
-/

namespace CloudSync

open CText

/-! ## Lines of the file -/

/-- How a line ends. -/
inductive LineEnd
  | lf
  | crlf

def LineEnd.bytes : LineEnd → Bytes
  | .lf => [10]
  | .crlf => [13, 10]

/-- An account that the file can hold. -/
structure Encodable (user : UserInfo) : Prop where
  id : InInt user.id
  username : PlainField user.username
  password : PlainField user.password
  role : InInt user.role

/-- A line of `users.dat`. -/
inductive UsersLine
  | account (user : UserInfo) (encodable : Encodable user)
  | blank
  | comment (rest : Bytes) (one_line : (10 : UInt8) ∉ rest) (short : rest.length + 1 < 255)
  | malformed (line : Bytes) (one_line : (10 : UInt8) ∉ line) (short : line.length < 255)
      (few : (tokens 58 line).length < 4)

namespace UsersLine

/-- The line without its end. -/
def bytes : UsersLine → Bytes
  | account user _ => recordFields user.id user.username user.password user.role
  | blank => []
  | comment rest _ _ => 35 :: rest
  | malformed line _ _ _ => line

def user? : UsersLine → Option UserInfo
  | account user _ => some user
  | _ => none

end UsersLine

/-- The file with these lines. -/
def usersFile (lines : List (UsersLine × LineEnd)) : Bytes :=
  lines.flatMap fun line => line.1.bytes ++ line.2.bytes

/-- The accounts among the lines. -/
def accountsOf (lines : List (UsersLine × LineEnd)) : List UserInfo :=
  lines.filterMap fun line => line.1.user?

/-! ## Reading a line -/

/-- A line that lacks a field is no account. -/
theorem account?_of_few {line : Bytes} (hfew : (tokens 58 (cutLine line)).length < 4) :
    account? line = none := by
  unfold account?
  split
  · rfl
  · split
    · next htokens =>
      rw [htokens] at hfew
      simp only [List.length_cons] at hfew
      omega
    · rfl

namespace UsersLine

theorem one_line : ∀ line : UsersLine, (10 : UInt8) ∉ line.bytes
  | account _ encodable => recordFields_no_lf encodable.username.no_lf encodable.password.no_lf
  | blank => List.not_mem_nil
  | comment _ one_line _ => fun h => (List.mem_cons.mp h).elim (by decide) one_line
  | malformed _ one_line _ _ => one_line

theorem length_lt : ∀ line : UsersLine, line.bytes.length < 255
  | account _ encodable =>
      (recordFields_length encodable.id encodable.role encodable.username.short
        encodable.password.short).trans_lt (by norm_num)
  | blank => by norm_num [bytes]
  | comment _ _ short => short
  | malformed _ _ short _ => short

/-- An account reads back as itself, and the other lines as none. -/
theorem account?_bytes (line : UsersLine) : account? line.bytes = line.user? := by
  cases line with
  | account user encodable =>
      rw [← account?_append (Or.inl rfl) _ [], bytes, ← userRecord_eq]
      exact account?_userRecord encodable.id encodable.role encodable.username encodable.password
  | blank => rfl
  | comment rest _ _ => rfl
  | malformed line _ _ few =>
      have hcut : (tokens 58 (cutLine line)).length < 4 := by
        have hle := tokens_length_le_append 58 (cutLine line)
          (line.dropWhile fun b => b != 13 && b != 10 && b != 0)
        rw [cutLine, List.takeWhile_append_dropWhile] at hle
        exact hle.trans_lt few
      exact account?_of_few hcut

end UsersLine

/-! ## Reading the file -/

/-- A line is read in one piece; or its end is read by itself, and is a blank line. -/
theorem fgetsAll_usersLine (line : UsersLine) (ending : LineEnd) (rest : Bytes) :
    (fgetsAll 256 (line.bytes ++ ending.bytes ++ rest)).filterMap account? =
      line.user?.toList ++ (fgetsAll 256 rest).filterMap account? := by
  have hshort := line.length_lt
  have hread : ∀ more, account? (line.bytes ++ more) = line.user? →
      ((line.bytes ++ more) :: fgetsAll 256 rest).filterMap account? =
        line.user?.toList ++ (fgetsAll 256 rest).filterMap account? := by
    intro more haccount
    rw [List.filterMap_cons, haccount]
    cases line.user? <;> rfl
  cases ending with
  | lf =>
      rw [LineEnd.bytes, List.append_assoc, List.singleton_append,
        fgetsAll_line line.one_line (by omega)]
      exact hread _ ((account?_append (Or.inl rfl) _ _).trans line.account?_bytes)
  | crlf =>
      have hone : (10 : UInt8) ∉ line.bytes ++ [13] := fun h =>
        (List.mem_append.mp h).elim line.one_line (by decide)
      have hcr : account? (line.bytes ++ [13]) = line.user? :=
        (account?_append (Or.inr rfl) _ _).trans line.account?_bytes
      rw [LineEnd.bytes, show line.bytes ++ [13, 10] ++ rest = (line.bytes ++ [13]) ++ 10 :: rest by
        simp]
      rcases Nat.lt_or_ge (line.bytes.length + 2) 256 with hfits | hfull
      · rw [fgetsAll_line hone (by simp only [List.length_append, List.length_singleton]; omega),
          List.append_assoc]
        exact hread _ ((account?_append (Or.inr rfl) _ _).trans line.account?_bytes)
      -- the CR fills the buffer, and the LF is left for the next one
      · rw [fgetsAll_full hone (by simp only [List.length_append, List.length_singleton]; omega)
            (by simp),
          show (10 : UInt8) :: rest = [] ++ 10 :: rest from rfl,
          fgetsAll_line List.not_mem_nil (by norm_num)]
        rw [List.filterMap_cons, hcr]
        cases line.user? <;> rfl

theorem recordedAccounts_usersFile (lines : List (UsersLine × LineEnd)) :
    recordedAccounts (usersFile lines) = (accountsOf lines).take maxUsers := by
  unfold recordedAccounts
  congr 1
  induction lines with
  | nil => rfl
  | cons line rest ih =>
      rw [usersFile, List.flatMap_cons, fgetsAll_usersLine, ← usersFile, ih]
      simp only [accountsOf, List.filterMap_cons]
      cases line.1.user? <;> rfl

/-- The slots are enough for the accounts counted. -/
theorem loadLoop_count_le (lines : List Bytes) (users : UserArray) {count : ℕ}
    (hcount : count ≤ maxUsers) : (loadLoop lines users count).2 ≤ maxUsers := by
  induction lines generalizing users count with
  | nil => exact hcount
  | cons line rest ih =>
      unfold loadLoop
      split
      · next hlt =>
        apply ih
        split
        · exact hlt
        · exact hcount
      · exact hcount

/-- `load_users` succeeds and returns the first `MAX_USERS` accounts of the file, whatever
the slots held before. -/
theorem loadUsers_decodes (lines : List (UsersLine × LineEnd)) (users : UserArray)
    (userCount : ℕ) :
    (loadUsers ⟨some (usersFile lines), users, userCount⟩).1 = 0 ∧
      (loadUsers ⟨some (usersFile lines), users, userCount⟩).2.accounts =
        (accountsOf lines).take maxUsers ∧
      (loadUsers ⟨some (usersFile lines), users, userCount⟩).2.userCount =
        min maxUsers (accountsOf lines).length := by
  have haccounts : (loadUsers ⟨some (usersFile lines), users, userCount⟩).2.accounts =
      (accountsOf lines).take maxUsers :=
    (accounts_loadUsers rfl).trans (recordedAccounts_usersFile lines)
  refine ⟨rfl, haccounts, ?_⟩
  have hlength := congrArg List.length haccounts
  rwa [AuthState.accounts, UserArray.toList_length, List.length_take] at hlength
  exact loadLoop_count_le _ _ (Nat.zero_le _)

end CloudSync
