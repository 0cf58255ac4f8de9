import CloudSync.Auth

/-!
# What `users.dat` says

`account?` is the account a line stands for, and `recordedAccounts` the accounts
`load_users` takes from a file: the first `MAX_USERS` lines that are accounts.
The slots of the cache, half written or left over from an earlier file, make no
difference (`accounts_loadUsers`).

A record whose fields are plain reads back as it was written
(`recordedAccounts_append_userRecord`), and the accounts read have no other fields
(`plainField_of_account?`).
-/

namespace CloudSync

open CText

/-! ## Lines -/

/-- A name or a password that `users.dat` can hold. -/
structure PlainField (s : Bytes) : Prop where
  ne_nil : s ≠ []
  short : s.length ≤ 31
  no_nul : (0 : UInt8) ∉ s
  no_lf : (10 : UInt8) ∉ s
  no_cr : (13 : UInt8) ∉ s
  no_colon : (58 : UInt8) ∉ s

instance (s : Bytes) : Decidable (PlainField s) :=
  decidable_of_iff (s ≠ [] ∧ s.length ≤ 31 ∧ (0 : UInt8) ∉ s ∧ (10 : UInt8) ∉ s ∧
    (13 : UInt8) ∉ s ∧ (58 : UInt8) ∉ s)
    ⟨fun ⟨h₁, h₂, h₃, h₄, h₅, h₆⟩ => ⟨h₁, h₂, h₃, h₄, h₅, h₆⟩,
      fun ⟨h₁, h₂, h₃, h₄, h₅, h₆⟩ => ⟨h₁, h₂, h₃, h₄, h₅, h₆⟩⟩

/-- The account a line stands for. -/
def account? (line : Bytes) : Option UserInfo :=
  if (cutLine line).head? = some 35 then none
  else match tokens 58 (cutLine line) with
    | id :: username :: password :: role :: _ =>
        some
          { id := atoi id
            username := strncpy (maxUsername - 1) username
            password := strncpy (maxPassword - 1) password
            role := atoi role }
    | _ => none

/-- What stands between the colons of a line, up to its end; what is empty does not count. -/
def lineParts (line : Bytes) : List Bytes := tokens 58 (cutLine line)

theorem head?_cutLine (line : Bytes) : (cutLine line).head? = some 35 ↔ line.head? = some 35 := by
  cases line with
  | nil => rfl
  | cons b rest =>
      unfold cutLine
      rw [List.takeWhile_cons]
      split
      · rfl
      · next hb =>
        rw [List.head?_nil, List.head?_cons, Option.some_inj]
        refine ⟨nofun, ?_⟩
        rintro rfl
        exact absurd rfl hb

/-- A line stands for an account if it is no comment and has four parts. -/
theorem account?_eq_some_iff {line : Bytes} {user : UserInfo} :
    account? line = some user ↔ line.head? ≠ some 35 ∧ ∃ id username password role rest,
      lineParts line = id :: username :: password :: role :: rest ∧
        user = { id := atoi id
                 username := strncpy (maxUsername - 1) username
                 password := strncpy (maxPassword - 1) password
                 role := atoi role } := by
  unfold account? lineParts
  simp only [head?_cutLine]
  split
  · next hcomment => exact ⟨nofun, fun h => absurd hcomment h.1⟩
  · next hcomment =>
    split
    · next id username password role rest hparts =>
      rw [Option.some_inj]
      constructor
      · rintro rfl
        exact ⟨hcomment, id, username, password, role, rest, hparts, rfl⟩
      · rintro ⟨-, id', username', password', role', rest', hsame, rfl⟩
        rw [hparts] at hsame
        simp only [List.cons.injEq] at hsame
        obtain ⟨rfl, rfl, rfl, rfl, -⟩ := hsame
        rfl
    · next hfew =>
      refine ⟨nofun, ?_⟩
      rintro ⟨-, id, username, password, role, rest, hparts, -⟩
      exact absurd hparts (hfew id username password role rest)

/-- A line is cut at the first byte that ends it. -/
theorem cutLine_append {b : UInt8} (hb : b = 10 ∨ b = 13) (line rest : Bytes) :
    cutLine (line ++ b :: rest) = cutLine line := by
  unfold cutLine
  induction line with
  | nil => rcases hb with rfl | rfl <;> rfl
  | cons c line ih =>
      simp only [List.cons_append, List.takeWhile_cons, ih]

/-- What is read of a line is decided by what is in front of its end. -/
theorem account?_append {b : UInt8} (hb : b = 10 ∨ b = 13) (line rest : Bytes) :
    account? (line ++ b :: rest) = account? line := by
  unfold account?
  rw [cutLine_append hb]

/-- A line is parsed into any slot alike. -/
theorem parseUser_account? (slot : UserInfo) (line : Bytes) :
    (account? line = none → (parseUser slot line).1 = false) ∧
      ∀ user, account? line = some user → parseUser slot line = (true, user) := by
  unfold account? parseUser
  generalize cutLine line = cut
  by_cases hempty : cut = []
  · subst hempty
    simp [tokens, fields]
  by_cases hcomment : cut.head? = some 35
  · simp [hcomment]
  simp only [hempty, hcomment, or_self, if_false]
  -- each token found is the next of the list, and a token that is missing ends it
  cases hid : strtok 58 cut with
  | none => simp [strtok_eq_none hid]
  | some first =>
      obtain ⟨id, rest₁⟩ := first
      rw [strtok_eq_some hid]
      dsimp only
      cases hname : strtok 58 rest₁ with
      | none => simp [strtok_eq_none hname]
      | some second =>
          obtain ⟨username, rest₂⟩ := second
          rw [strtok_eq_some hname]
          dsimp only
          cases hpassword : strtok 58 rest₂ with
          | none => simp [strtok_eq_none hpassword]
          | some third =>
              obtain ⟨password, rest₃⟩ := third
              rw [strtok_eq_some hpassword]
              dsimp only
              cases hrole : strtok 58 rest₃ with
              | none => simp [strtok_eq_none hrole]
              | some fourth =>
                  obtain ⟨role, rest₄⟩ := fourth
                  rw [strtok_eq_some hrole]
                  simp

/-- The names of an account that has been read are such that `users.dat` can hold them. -/
theorem plainField_of_account? {line : Bytes} {user : UserInfo} (h : account? line = some user) :
    PlainField user.username ∧ PlainField user.password := by
  obtain ⟨-, id, username, password, role, rest, hparts, rfl⟩ := account?_eq_some_iff.mp h
  have hplain : ∀ token ∈ [username, password], PlainField (token.take 31) := by
    intro token htoken
    have hmem : token ∈ lineParts line := by
      rw [hparts]
      simp only [List.mem_cons, List.not_mem_nil, or_false] at htoken ⊢
      tauto
    obtain ⟨hcolon, hne⟩ := of_mem_tokens hmem
    have hbytes : ∀ b ∈ token.take 31, b ≠ 13 ∧ b ≠ 10 ∧ b ≠ 0 := by
      intro b hb
      have hcut := mem_of_mem_tokens hmem (List.mem_of_mem_take hb)
      have hkept := List.mem_takeWhile_imp hcut
      simpa [and_assoc] using hkept
    refine ⟨?_, (List.length_take_le ..), ?_, ?_, ?_, ?_⟩
    · rw [ne_eq, List.take_eq_nil_iff]
      exact not_or.mpr ⟨by norm_num, hne⟩
    · exact fun hmem => (hbytes 0 hmem).2.2 rfl
    · exact fun hmem => (hbytes 10 hmem).2.1 rfl
    · exact fun hmem => (hbytes 13 hmem).1 rfl
    · exact fun hmem => hcolon (List.mem_of_mem_take hmem)
  exact ⟨hplain username (by simp), hplain password (by simp)⟩

/-- A line that may be longer than one buffer is read in two. -/
theorem accounts_of_line {line : Bytes} (hone : (10 : UInt8) ∉ line) (hlength : line.length < 510) :
    (fgetsAll 256 (line ++ [10])).filterMap account? =
      (account? (line.take 255)).toList ++ (account? (line.drop 255)).toList := by
  have hnewline : ∀ line, account? (line ++ [10]) = account? line :=
    fun line => account?_append (Or.inl rfl) line []
  have hlast : ∀ line, ([line ++ [10]].filterMap account?) = (account? line).toList := by
    intro line
    rw [List.filterMap_cons, hnewline]
    cases account? line <;> rfl
  rcases Nat.lt_or_ge line.length 255 with hshort | hlong
  · have hnone : account? [] = none := rfl
    rw [fgetsAll_line hone (by omega), List.take_of_length_le hshort.le,
      List.drop_of_length_le hshort.le, hnone]
    exact (hlast line).trans (List.append_nil _).symm
  · have htakeLength : (line.take 255).length = 255 := by
      rw [List.length_take]
      omega
    have hdropLength : (line.drop 255).length < 255 := by
      rw [List.length_drop]
      omega
    have hfull : fgetsAll 256 (line.take 255 ++ (line.drop 255 ++ [10])) = _ :=
      fgetsAll_full (fun h => hone (List.mem_of_mem_take h)) (by rw [htakeLength])
        (by rw [← List.length_pos_iff, htakeLength]; norm_num) _
    rw [← List.append_assoc, List.take_append_drop,
      fgetsAll_line (fun h => hone (List.mem_of_mem_drop h)) (by omega)] at hfull
    rw [hfull, ← List.singleton_append, List.filterMap_append]
    refine congrArg₂ (· ++ ·) ?_ (hlast _)
    rw [List.filterMap_cons]
    cases account? (line.take 255) <;> rfl

/-! ## Files -/

/-- The accounts of a file within reach of `load_users`. -/
def recordedAccounts (file : Bytes) : List UserInfo :=
  ((fgetsAll 256 file).filterMap account?).take maxUsers

theorem UserArray.toList_length (users : UserArray) {count : ℕ} (hcount : count ≤ maxUsers) :
    (users.toList count).length = count := by
  simp [UserArray.toList, hcount]

/-- Writing the slot after the accounts adds nothing to them. -/
theorem UserArray.toList_update (users : UserArray) {count : ℕ} (hcount : count < maxUsers)
    (user : UserInfo) :
    UserArray.toList (Function.update users ⟨count, hcount⟩ user) count = users.toList count := by
  apply List.ext_getElem (by simp [UserArray.toList])
  intro i hi _
  have hlt : i < count := by
    simp only [UserArray.toList, List.length_take] at hi
    omega
  have hne : (⟨i, hlt.trans hcount⟩ : Fin maxUsers) ≠ ⟨count, hcount⟩ := by
    simp [hlt.ne]
  simp [UserArray.toList, Function.update_of_ne hne]

theorem UserArray.toList_update_succ (users : UserArray) {count : ℕ} (hcount : count < maxUsers)
    (user : UserInfo) :
    UserArray.toList (Function.update users ⟨count, hcount⟩ user) (count + 1) =
      users.toList count ++ [user] := by
  rw [← users.toList_update hcount user, UserArray.toList, UserArray.toList,
    List.take_add_one, List.getElem?_ofFn]
  simp [hcount]

/-- The loop adds the accounts of the lines, up to `MAX_USERS` in all. -/
theorem loadLoop_toList (lines : List Bytes) (users : UserArray) {count : ℕ}
    (hcount : count ≤ maxUsers) :
    (loadLoop lines users count).1.toList (loadLoop lines users count).2 =
      (users.toList count ++ lines.filterMap account?).take maxUsers := by
  induction lines generalizing users count with
  | nil =>
      rw [List.filterMap_nil, List.append_nil, List.take_of_length_le]
      · rfl
      · rw [users.toList_length hcount]
        exact hcount
  | cons line rest ih =>
      unfold loadLoop
      split
      · next hlt =>
        obtain ⟨hnone, hsome⟩ := parseUser_account? (users ⟨count, hlt⟩) line
        cases haccount : account? line with
        | none =>
            simp only [hnone haccount, Bool.false_eq_true, if_false]
            rw [ih _ hcount, users.toList_update hlt, List.filterMap_cons_none haccount]
        | some user =>
            simp only [hsome user haccount, if_true]
            rw [ih _ hlt, users.toList_update_succ hlt, List.filterMap_cons_some haccount]
            simp
      · next hfull =>
        have hlength : (users.toList count).length = maxUsers := by
          rw [users.toList_length hcount]
          omega
        rw [← hlength, List.take_left]

/-- `load_users` reads the recorded accounts. -/
theorem accounts_loadUsers {state : AuthState} {file : Bytes} (hfile : state.file = some file) :
    (loadUsers state).2.accounts = recordedAccounts file := by
  simp only [loadUsers, hfile, AuthState.accounts]
  rw [loadLoop_toList _ _ (Nat.zero_le _)]
  rfl

/-- The accounts `load_users` returns. -/
def AuthState.decoded (state : AuthState) : List UserInfo := (loadUsers state).2.accounts

/-- A server that has just been started. -/
def AuthState.ofFile (file : Bytes) : AuthState where
  file := some file
  users := fun _ => { id := 0, username := [], password := [], role := 0 }
  userCount := 0

/-! ## Records -/

/-- A name or a password that has none of the bytes that end a field or a line. -/
structure FieldText (s : Bytes) : Prop where
  short : s.length ≤ 31
  no_nul : (0 : UInt8) ∉ s
  no_lf : (10 : UInt8) ∉ s
  no_cr : (13 : UInt8) ∉ s
  no_colon : (58 : UInt8) ∉ s

instance (s : Bytes) : Decidable (FieldText s) :=
  decidable_of_iff (s.length ≤ 31 ∧ (0 : UInt8) ∉ s ∧ (10 : UInt8) ∉ s ∧ (13 : UInt8) ∉ s ∧
    (58 : UInt8) ∉ s)
    ⟨fun ⟨h₁, h₂, h₃, h₄, h₅⟩ => ⟨h₁, h₂, h₃, h₄, h₅⟩,
      fun ⟨h₁, h₂, h₃, h₄, h₅⟩ => ⟨h₁, h₂, h₃, h₄, h₅⟩⟩

theorem PlainField.fieldText {s : Bytes} (hs : PlainField s) : FieldText s :=
  ⟨hs.short, hs.no_nul, hs.no_lf, hs.no_cr, hs.no_colon⟩

theorem cutLine_append_newline {line : Bytes}
    (hline : (0 : UInt8) ∉ line ∧ (10 : UInt8) ∉ line ∧ (13 : UInt8) ∉ line) :
    cutLine (line ++ [10]) = line := by
  unfold cutLine
  rw [List.takeWhile_append_of_pos, List.takeWhile_cons_of_neg (by decide), List.append_nil]
  intro b hb
  simp only [Bool.and_eq_true, bne_iff_ne, ne_eq]
  refine ⟨⟨?_, ?_⟩, ?_⟩ <;> rintro rfl
  · exact hline.2.2 hb
  · exact hline.2.1 hb
  · exact hline.1 hb

/-- The fields of a record. -/
def recordFields (id : ℤ) (username password : Bytes) (role : ℤ) : Bytes :=
  decimal id ++ 58 :: (username ++ 58 :: (password ++ 58 :: decimal role))

theorem userRecord_eq (id : ℤ) (username password : Bytes) (role : ℤ) :
    userRecord id username password role = recordFields id username password role ++ [10] := by
  simp [userRecord, recordFields]

section Record

variable {username password : Bytes} {id role : ℤ}

/-- A byte of a record is one of its fields' or a colon. -/
theorem not_mem_recordFields {b : UInt8} (hcolon : b ≠ 58) (hminus : b ≠ 45)
    (hdigit : isDigit b = false) (husername : b ∉ username) (hpassword : b ∉ password) :
    b ∉ recordFields id username password role := by
  have hnumber : ∀ i, b ∉ decimal i := fun _ => not_mem_decimal hminus hdigit
  simp only [recordFields, List.mem_append, List.mem_cons, not_or]
  exact ⟨hnumber _, hcolon, husername, hcolon, hpassword, hcolon, hnumber _⟩

theorem recordFields_no_lf (husername : (10 : UInt8) ∉ username)
    (hpassword : (10 : UInt8) ∉ password) :
    (10 : UInt8) ∉ recordFields id username password role :=
  not_mem_recordFields (by decide) (by decide) (by decide) husername hpassword

theorem recordFields_length (hid : InInt id)
    (hrole : InInt role) (husername : username.length ≤ 31)
    (hpassword : password.length ≤ 31) :
    (recordFields id username password role).length ≤ 87 := by
  have hidLength := decimal_length_le hid
  have hroleLength := decimal_length_le hrole
  simp only [recordFields, List.length_append, List.length_cons]
  omega

/-- Read back, a record falls apart into the two numbers and the fields that are not
empty. -/
theorem tokens_userRecord (husername : FieldText username) (hpassword : FieldText password) :
    (cutLine (userRecord id username password role)).head? ≠ some 35 ∧
      tokens 58 (cutLine (userRecord id username password role)) =
        decimal id :: (tokens 58 username ++ (tokens 58 password ++ [decimal role])) := by
  have hcut : cutLine (userRecord id username password role) =
      recordFields id username password role := by
    rw [userRecord_eq]
    refine cutLine_append_newline ⟨?_, ?_, ?_⟩
    · exact not_mem_recordFields (by decide) (by decide) (by decide) husername.no_nul
        hpassword.no_nul
    · exact recordFields_no_lf husername.no_lf hpassword.no_lf
    · exact not_mem_recordFields (by decide) (by decide) (by decide) husername.no_cr
        hpassword.no_cr
  have hnumber : ∀ i, (58 : UInt8) ∉ decimal i := fun _ => not_mem_decimal (by decide) (by decide)
  rw [hcut]
  constructor
  · intro h
    have hmem : (35 : UInt8) ∈ decimal id := by
      apply List.mem_of_mem_head?
      rwa [recordFields, List.head?_append_of_ne_nil _ (decimal_ne_nil id)] at h
    exact not_mem_decimal (by decide) (by decide) hmem
  · unfold recordFields
    rw [tokens_append_sep, tokens_append_sep, tokens_append_sep,
      tokens_of_not_mem (hnumber id) (decimal_ne_nil id),
      tokens_of_not_mem (hnumber role) (decimal_ne_nil role)]
    rfl

/-- A record of plain fields is one line, and reads back as written. -/
theorem account?_userRecord (hid : InInt id)
    (hrole : InInt role) (husername : PlainField username)
    (hpassword : PlainField password) :
    account? (userRecord id username password role) =
      some { id := id, username := username, password := password, role := role } := by
  obtain ⟨hcomment, htokens⟩ := @tokens_userRecord username password id role
    husername.fieldText hpassword.fieldText
  rw [tokens_of_not_mem husername.no_colon husername.ne_nil,
    tokens_of_not_mem hpassword.no_colon hpassword.ne_nil] at htokens
  have hshort : username.length ≤ maxUsername - 1 := husername.short
  have hshort' : password.length ≤ maxPassword - 1 := hpassword.short
  unfold account?
  rw [if_neg hcomment, htokens]
  simp only [List.singleton_append, strncpy, atoi_decimal hid, atoi_decimal hrole,
    List.take_of_length_le hshort, List.take_of_length_le hshort']

theorem terminated_append_userRecord (file : Bytes) :
    Terminated (file ++ userRecord id username password role) := by
  refine Or.inr ⟨file ++ recordFields id username password role, ?_⟩
  rw [userRecord_eq, List.append_assoc]

theorem fgetsAll_userRecord (hid : InInt id)
    (hrole : InInt role) (husername : username.length ≤ 31)
    (hpassword : password.length ≤ 31) (hlfUsername : (10 : UInt8) ∉ username)
    (hlfPassword : (10 : UInt8) ∉ password) :
    fgetsAll 256 (userRecord id username password role) =
      [userRecord id username password role] := by
  have hlength := recordFields_length hid hrole husername hpassword
  rw [userRecord_eq, fgetsAll_line (recordFields_no_lf hlfUsername hlfPassword) (by omega)]
  rfl

/-- A record with plain fields adds its account to the file. -/
theorem recordedAccounts_append_userRecord {file : Bytes} (hfile : Terminated file)
    (hid : InInt id) (hrole : InInt role)
    (husername : PlainField username) (hpassword : PlainField password) :
    recordedAccounts (file ++ userRecord id username password role) =
      (recordedAccounts file ++
        [UserInfo.mk id username password role]).take maxUsers := by
  unfold recordedAccounts
  rw [fgetsAll_append (by norm_num) hfile, fgetsAll_userRecord hid hrole husername.short
    hpassword.short husername.no_lf hpassword.no_lf, List.filterMap_append,
    List.filterMap_cons_some (account?_userRecord hid hrole husername hpassword),
    List.filterMap_nil]
  rw [List.take_append, List.take_append, List.take_take, min_self, List.length_take]
  congr 2
  omega

end Record

/-! ## Registration -/

/-- What `register_user` refuses: a reserved name, a name and role that are taken
by an account within reach of `load_users`, and a file that cannot be appended to. -/
def Refused (file : Bytes) (canAppend : Bool) (username : Bytes) (role : ℤ) : Prop :=
  reservedName username = true ∨
    (∃ user ∈ recordedAccounts file, user.username = username ∧ user.role = role) ∨
      canAppend = false

instance (file : Bytes) (canAppend : Bool) (username : Bytes) (role : ℤ) :
    Decidable (Refused file canAppend username role) :=
  inferInstanceAs (Decidable (_ ∨ _ ∨ _))

/-- The account `register_user` hands to the session. -/
def newAccount (file username password : Bytes) (role : ℤ) : UserInfo where
  id := nextId (recordedAccounts file)
  username := strncpy (maxUsername - 1) username
  password := strncpy (maxPassword - 1) password
  role := role

/-- The line a registration appends to `file`. -/
def appendedLine (file username password : Bytes) (role : ℤ) : Bytes :=
  userRecord (nextId (recordedAccounts file)) username password role

theorem nextId_range (accounts : List UserInfo) : InInt (nextId accounts) := by
  unfold nextId
  apply List.foldlRecOn accounts _ (by decide)
  intro next hnext user _
  split
  · exact int32_range _
  · exact hnext

section Register

variable {state : AuthState} {file username : Bytes} {role : ℤ} {canAppend : Bool}
  (hfile : state.file = some file)

include hfile

theorem loadUsers_file : (loadUsers state).2.file = some file := by
  simp only [loadUsers, hfile]

theorem loadUsers_result : (loadUsers state).1 = 0 := by
  simp only [loadUsers, hfile]

theorem registerUser_refused (password : Bytes)
    (hrefused : Refused file canAppend username role) :
    (registerUser state canAppend username password role).1.1 < 0 ∧
      (registerUser state canAppend username password role).1.2 = none ∧
      (registerUser state canAppend username password role).2.file = some file := by
  have hloaded := loadUsers_file hfile
  unfold registerUser
  dsimp only
  split
  · exact ⟨by norm_num, rfl, hfile⟩
  · next hname =>
    rw [loadUsers_result hfile, accounts_loadUsers hfile, if_neg (lt_irrefl 0)]
    split
    · exact ⟨by norm_num, rfl, hloaded⟩
    · next hknown =>
      have hno : canAppend = false := by
        rcases hrefused with h | ⟨user, huser, hsame⟩ | h
        · exact absurd h hname
        · refine absurd ?_ hknown
          exact List.any_eq_true.mpr ⟨user, huser, by simp [hsame]⟩
        · exact h
      rw [hno]
      exact ⟨by norm_num, rfl, hloaded⟩

theorem registerUser_accepted (password : Bytes)
    (haccepted : ¬ Refused file canAppend username role) :
    (registerUser state canAppend username password role).1 =
        (0, some (newAccount file username password role)) ∧
      (registerUser state canAppend username password role).2.file =
        some (file ++ appendedLine file username password role) := by
  have hloaded := loadUsers_file hfile
  obtain ⟨hname, hknown, happend⟩ : reservedName username = false ∧
      (∀ user ∈ recordedAccounts file, ¬ (user.username = username ∧ user.role = role)) ∧
        canAppend = true := by
    simpa [Refused, not_or] using haccepted
  have hany : (recordedAccounts file).any
      (fun user => user.username == username && user.role == role) = false := by
    apply List.any_eq_false.mpr
    intro user huser
    simpa using hknown user huser
  have hcan : ¬ ((!canAppend) = true) := by simp [happend]
  unfold registerUser
  dsimp only
  rw [if_neg (by simp [hname]), loadUsers_result hfile, accounts_loadUsers hfile,
    if_neg (lt_irrefl 0), if_neg (by simp [hany]), if_neg hcan, hloaded]
  split <;> exact ⟨rfl, rfl⟩

/-- An account that logs in has been read from the file. -/
theorem mem_recordedAccounts_of_authenticateUser {password : Bytes} {user : UserInfo}
    (h : (authenticateUser state username password).1 = some user) :
    user ∈ recordedAccounts file := by
  simp only [authenticateUser, loadUsers_result hfile, lt_irrefl, if_false,
    accounts_loadUsers hfile] at h
  exact List.mem_of_find?_eq_some h

theorem authenticateUser_file (password : Bytes) :
    (authenticateUser state username password).2.file = some file := by
  simp only [authenticateUser, loadUsers_result hfile, lt_irrefl, if_false]
  exact loadUsers_file hfile

end Register

end CloudSync
