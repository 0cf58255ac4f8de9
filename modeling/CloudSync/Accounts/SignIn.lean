import CloudSync.Accounts.SignupExact

/-!
# Signing in to a new account

A registration is refused if its name is taken in its role; a login looks for a name
and a password, and takes the first account in the file that has both.  So the new
account is reached unless an account of another role comes first, or the record has
gone on with a last line that had no newline (`signIn_iff`).  What is registered
later comes after it and does not matter.
-/

namespace CloudSync

open CText

/-- A call to `register_user`, and whether `users.dat` can be appended to. -/
structure Signup where
  username : Bytes
  password : Bytes
  role : ℤ
  canAppend : Bool

/-- The state after some more calls to `register_user`. -/
def registerMore (state : AuthState) : List Signup → AuthState
  | [] => state
  | s :: rest =>
      registerMore (registerUser state s.canAppend s.username s.password s.role).2 rest

/-- The account has this name and this password. -/
def SignsIn (username password : Bytes) (user : UserInfo) : Bool :=
  user.username == username && user.password == password

/-- The line of a registration, behind what `fgets` holds when the file ends. -/
def recordLine (file username password : Bytes) (role : ℤ) : Bytes :=
  openBuffer 256 file ++ recordFields (nextId (recordedAccounts file)) username password role

/-- The line is no comment, and its first four parts are a numeral of `id`, the name and
the password as far as they fit their fields, and a numeral of `role`. -/
def Bears (line : Bytes) (id : ℤ) (username password : Bytes) (role : ℤ) : Prop :=
  line.head? ≠ some 35 ∧ ∃ first second third fourth rest,
    lineParts line = first :: second :: third :: fourth :: rest ∧ atoi first = id ∧
      strncpy (maxUsername - 1) second = username ∧ strncpy (maxPassword - 1) third = password ∧
        atoi fourth = role

/-- The fields are such that `users.dat` can hold them, nobody before the record has the
name and the password, and where the record goes on with an unfinished line, the first
255 bytes of the line bear the new account, or they do not bear the name and the password
at all and the rest of the line bears the new account. -/
structure ComesFirst (file username password : Bytes) (role : ℤ) : Prop where
  username_plain : PlainField username
  password_plain : PlainField password
  role_int : InInt role
  before : ∀ user ∈ recordedAccounts (closedBuffers 256 file),
    SignsIn username password user = false
  continued : openBuffer 256 file ≠ [] →
    Bears ((recordLine file username password role).take 255) (nextId (recordedAccounts file))
        username password role ∨
      (∀ id role', ¬ Bears ((recordLine file username password role).take 255) id username password
        role') ∧
      Bears ((recordLine file username password role).drop 255) (nextId (recordedAccounts file))
        username password role ∧
      -- an account of another name may take the last slot
      ((∃ id username' password' role', Bears ((recordLine file username password role).take 255)
          id username' password' role') →
        (recordedAccounts (closedBuffers 256 file)).length + 1 < maxUsers)

/-- The accounts read from the open buffer of the file on, once the record of a
registration has gone on with it. -/
def continuedAccounts (file username password : Bytes) (role : ℤ) : List UserInfo :=
  (fgetsAll 256 (openBuffer 256 file ++ appendedLine file username password role)).filterMap
    account?

section Files

variable {file more username password : Bytes} {role : ℤ}

/-- Registrations only append to the file. -/
theorem registerMore_file {state : AuthState} (hfile : state.file = some file)
    (later : List Signup) : ∃ more, (registerMore state later).file = some (file ++ more) := by
  induction later generalizing state file with
  | nil => exact ⟨[], by rw [List.append_nil]; exact hfile⟩
  | cons s rest ih =>
      by_cases hrefused : Refused file s.canAppend s.username s.role
      · exact ih (registerUser_refused hfile s.password hrefused).2.2
      · obtain ⟨more, hmore⟩ := ih (registerUser_accepted hfile s.password hrefused).2
        exact ⟨_, hmore.trans (by rw [List.append_assoc])⟩

/-- If a file has fewer than `MAX_USERS` accounts, so has it up to its open buffer. -/
theorem recordedAccounts_closed (hroom : (recordedAccounts file).length < maxUsers) :
    recordedAccounts (closedBuffers 256 file) =
        (fgetsAll 256 (closedBuffers 256 file)).filterMap account? ∧
      (recordedAccounts (closedBuffers 256 file)).length < maxUsers ∧
      ∀ user ∈ recordedAccounts (closedBuffers 256 file), user ∈ recordedAccounts file := by
  have hlines := fgetsAll_append_open (by norm_num : 1 < 256) file []
  rw [List.append_nil, List.append_nil] at hlines
  unfold recordedAccounts at hroom ⊢
  rw [hlines, List.filterMap_append, List.length_take, List.length_append] at hroom
  have hwhole : ((fgetsAll 256 (closedBuffers 256 file)).filterMap account?).take maxUsers =
      (fgetsAll 256 (closedBuffers 256 file)).filterMap account? :=
    List.take_of_length_le (by omega)
  refine ⟨hwhole, by rw [hwhole]; omega, fun user huser => ?_⟩
  rw [hlines, List.filterMap_append]
  rw [List.take_of_length_le (by rw [List.length_append]; omega)]
  exact List.mem_append_left _ (List.mem_of_mem_take huser)

/-- What a login reads after a registration and some more. -/
theorem recordedAccounts_after (hroom : (recordedAccounts file).length < maxUsers) :
    recordedAccounts (file ++ appendedLine file username password role ++ more) =
      recordedAccounts (closedBuffers 256 file) ++
        (continuedAccounts file username password role ++
          (fgetsAll 256 more).filterMap account?).take
            (maxUsers - (recordedAccounts (closedBuffers 256 file)).length) := by
  obtain ⟨hclosed, hshort, -⟩ := recordedAccounts_closed hroom
  have hterminated : Terminated (openBuffer 256 file ++
      appendedLine file username password role) := terminated_append_userRecord _
  have hread : (fgetsAll 256 (file ++ appendedLine file username password role ++ more)).filterMap
      account? = recordedAccounts (closedBuffers 256 file) ++
        (continuedAccounts file username password role ++
          (fgetsAll 256 more).filterMap account?) := by
    rw [List.append_assoc, fgetsAll_append_open (by norm_num), ← List.append_assoc,
      fgetsAll_append (by norm_num) hterminated, List.filterMap_append, List.filterMap_append,
      ← hclosed]
    rfl
  rw [recordedAccounts, hread, List.take_append, List.take_of_length_le hshort.le]

theorem find?_append_of_none {p : UserInfo → Bool} {before after : List UserInfo}
    (hbefore : ∀ user ∈ before, p user = false) :
    (before ++ after).find? p = after.find? p := by
  rw [List.find?_append, List.find?_eq_none.mpr fun user huser => by rw [hbefore user huser]; simp]
  rfl

theorem authenticateUser_eq {state : AuthState} (hfile : state.file = some file) :
    (authenticateUser state username password).1 =
      (recordedAccounts file).find? (SignsIn username password) := by
  simp only [authenticateUser, loadUsers_result hfile, lt_irrefl, if_false,
    accounts_loadUsers hfile]
  rfl

/-- A line bears an account if and only if the account is read from it. -/
theorem bears_iff {line : Bytes} {id : ℤ} : Bears line id username password role ↔
    account? line = some (UserInfo.mk id username password role) := by
  rw [account?_eq_some_iff]
  refine and_congr_right fun _ => ?_
  constructor
  · rintro ⟨first, second, third, fourth, rest, hparts, rfl, rfl, rfl, rfl⟩
    exact ⟨first, second, third, fourth, rest, hparts, rfl⟩
  · rintro ⟨first, second, third, fourth, rest, hparts, huser⟩
    obtain ⟨rfl, rfl, rfl, rfl⟩ := UserInfo.mk.injEq .. ▸ huser
    exact ⟨first, second, third, fourth, rest, hparts, rfl, rfl, rfl, rfl⟩

theorem signsIn_iff {user : UserInfo} :
    SignsIn username password user = true ↔ user.username = username ∧ user.password = password := by
  rw [SignsIn, Bool.and_eq_true, beq_iff_eq, beq_iff_eq]

section Plain

variable (husername : PlainField username) (hpassword : PlainField password) (hrole : InInt role)

include husername hpassword

theorem newAccount_eq : newAccount file username password role =
    UserInfo.mk (nextId (recordedAccounts file)) username password role := by
  have hshort : username.length ≤ maxUsername - 1 := husername.short
  have hshort' : password.length ≤ maxPassword - 1 := hpassword.short
  rw [newAccount, strncpy, strncpy, List.take_of_length_le hshort, List.take_of_length_le hshort']

include hrole

/-- A record of plain fields ends the line it goes on with. -/
theorem continuedAccounts_eq : continuedAccounts file username password role =
    (account? ((recordLine file username password role).take 255)).toList ++
      (account? ((recordLine file username password role).drop 255)).toList := by
  have hopen := openBuffer_length (by norm_num : 1 < 256) file
  have hrecord := recordFields_length (nextId_range (recordedAccounts file)) hrole husername.short
    hpassword.short
  have hone : (10 : UInt8) ∉ recordLine file username password role := by
    unfold recordLine
    rw [List.mem_append, not_or]
    exact ⟨openBuffer_no_lf _ _, recordFields_no_lf husername.no_lf hpassword.no_lf⟩
  have hlength : (recordLine file username password role).length < 510 := by
    rw [recordLine, List.length_append]
    omega
  rw [← accounts_of_line hone hlength, continuedAccounts, appendedLine, userRecord_eq, recordLine,
    List.append_assoc]

/-- Behind complete lines and full buffers the record is a line of its own. -/
theorem account?_recordLine (hopen : openBuffer 256 file = []) :
    account? ((recordLine file username password role).take 255) =
      some (newAccount file username password role) := by
  have hrecord := recordFields_length (nextId_range (recordedAccounts file)) hrole husername.short
    hpassword.short
  rw [recordLine, hopen, List.nil_append, List.take_of_length_le (by omega),
    ← account?_append (Or.inl rfl) _ [], ← userRecord_eq,
    account?_userRecord (nextId_range _) hrole husername hpassword,
    newAccount_eq husername hpassword]

end Plain

/-- The new account comes first if and only if it is the first that is found. -/
theorem comesFirst_iff (hroom : (recordedAccounts file).length < maxUsers) :
    ComesFirst file username password role ↔
      (∀ user ∈ recordedAccounts (closedBuffers 256 file),
        SignsIn username password user = false) ∧
      ((continuedAccounts file username password role).take
        (maxUsers - (recordedAccounts (closedBuffers 256 file)).length)).find?
          (SignsIn username password) = some (newAccount file username password role) := by
  obtain ⟨-, hclosed, -⟩ := recordedAccounts_closed hroom
  obtain ⟨slots, hslots⟩ : ∃ slots, maxUsers -
      (recordedAccounts (closedBuffers 256 file)).length = slots + 1 :=
    ⟨maxUsers - (recordedAccounts (closedBuffers 256 file)).length - 1, by omega⟩
  rw [hslots]
  constructor
  · rintro ⟨husername, hpassword, hrole, hbefore, hcontinued⟩
    refine ⟨hbefore, ?_⟩
    have hnew : newAccount file username password role = _ := newAccount_eq husername hpassword
    have hsigns : SignsIn username password (newAccount file username password role) = true := by
      rw [hnew]
      exact signsIn_iff.mpr ⟨rfl, rfl⟩
    rw [continuedAccounts_eq husername hpassword hrole]
    have hfirst : account? ((recordLine file username password role).take 255) =
        some (newAccount file username password role) →
        (((account? ((recordLine file username password role).take 255)).toList ++
          (account? ((recordLine file username password role).drop 255)).toList).take
            (slots + 1)).find? (SignsIn username password) =
          some (newAccount file username password role) := by
      intro haccount
      rw [haccount, Option.toList_some, List.singleton_append, List.take_succ_cons,
        List.find?_cons_of_pos hsigns]
    by_cases hopen : openBuffer 256 file = []
    · exact hfirst (account?_recordLine husername hpassword hrole hopen)
    · rcases hcontinued hopen with hbears | ⟨hother, hbears, hslot⟩
      · exact hfirst (by rw [bears_iff.mp hbears, hnew])
      · rw [bears_iff.mp hbears, ← hnew]
        cases haccount : account? ((recordLine file username password role).take 255) with
        | none => rw [Option.toList_none, List.nil_append, Option.toList_some, List.take_succ_cons,
            List.find?_cons_of_pos hsigns]
        | some user =>
            obtain ⟨id, name, pass, role'⟩ := user
            have hno : ¬ SignsIn username password ⟨id, name, pass, role'⟩ = true := by
              intro hyes
              obtain ⟨rfl, rfl⟩ := signsIn_iff.mp hyes
              exact hother id role' (bears_iff.mpr haccount)
            have hmore := hslot ⟨id, name, pass, role', bears_iff.mpr haccount⟩
            obtain ⟨more, rfl⟩ : ∃ more, slots = more + 1 := ⟨slots - 1, by omega⟩
            rw [Option.toList_some, Option.toList_some, List.singleton_append, List.take_succ_cons,
              List.find?_cons_of_neg hno, List.take_succ_cons, List.find?_cons_of_pos hsigns]
  · rintro ⟨hbefore, hfound⟩
    have hsigns := signsIn_iff.mp (List.find?_some hfound)
    obtain ⟨line, -, haccount⟩ :=
      List.mem_filterMap.mp (List.mem_of_mem_take (List.mem_of_find?_eq_some hfound))
    have hplain := plainField_of_account? haccount
    rw [hsigns.1, hsigns.2] at hplain
    obtain ⟨husername, hpassword⟩ := hplain
    have hrole : InInt role := by
      obtain ⟨-, id, name, pass, role', rest, -, hsame⟩ := account?_eq_some_iff.mp haccount
      have hread : role = atoi role' := congrArg UserInfo.role hsame
      rw [hread]
      exact atoi_range _
    refine ⟨husername, hpassword, hrole, hbefore, fun _ => ?_⟩
    rw [continuedAccounts_eq husername hpassword hrole, newAccount_eq husername hpassword] at hfound
    cases htake : account? ((recordLine file username password role).take 255) with
    | none =>
        have hnone : ∀ id name pass role', ¬ Bears ((recordLine file username password role).take 255)
            id name pass role' := fun id name pass role' hbears => by
          rw [bears_iff.mp hbears] at htake
          exact absurd htake (by simp)
        rw [htake, Option.toList_none, List.nil_append] at hfound
        have hmem := List.mem_of_mem_take (List.mem_of_find?_eq_some hfound)
        exact Or.inr ⟨fun id role' => hnone id _ _ role', bears_iff.mpr (Option.mem_toList.mp hmem),
          fun ⟨id, name, pass, role', hbears⟩ => absurd hbears (hnone id name pass role')⟩
    | some user =>
        rw [htake, Option.toList_some, List.singleton_append, List.take_succ_cons] at hfound
        by_cases hyes : SignsIn username password user = true
        · rw [List.find?_cons_of_pos hyes, Option.some_inj] at hfound
          exact Or.inl (bears_iff.mpr (by rw [htake, hfound]))
        · rw [List.find?_cons_of_neg hyes] at hfound
          have hmem := List.mem_of_find?_eq_some hfound
          refine Or.inr ⟨fun id role' hbears => hyes ?_, bears_iff.mpr
            (Option.mem_toList.mp (List.mem_of_mem_take hmem)), fun _ => ?_⟩
          · rw [bears_iff.mp hbears, Option.some_inj] at htake
            rw [← htake]
            exact signsIn_iff.mpr ⟨rfl, rfl⟩
          · have hslot : slots ≠ 0 := by
              rintro rfl
              exact absurd hmem (by simp)
            omega

end Files

/-- In a file of complete lines a record of plain fields comes first if nobody else has
the name and the password. -/
theorem comesFirst_iff_of_terminated {file username password : Bytes} {role : ℤ}
    (hterminated : Terminated file) (hrole : InInt role) (husername : PlainField username)
    (hpassword : PlainField password) :
    ComesFirst file username password role ↔
      ∀ user ∈ recordedAccounts file, SignsIn username password user = false := by
  constructor
  · intro h
    have hbefore := h.before
    rwa [hterminated.closedBuffers_eq] at hbefore
  · intro hbefore
    refine ⟨husername, hpassword, hrole, ?_, fun h => absurd (hterminated.openBuffer_eq 256) h⟩
    rwa [hterminated.closedBuffers_eq]

variable {state after : AuthState} {file username password : Bytes} {role : ℤ}
  {canAppend : Bool} {user : UserInfo}

/-- After a successful registration, and any more of them, name and password lead to the
new account if and only if it comes first. -/
theorem signIn_iff (hfile : state.file = some file) (hroom : state.decoded.length < maxUsers)
    (hregister : registerUser state canAppend username password role = ((0, some user), after)) :
    (∀ later, (authenticateUser (registerMore after later) username password).1 = some user) ↔
      ComesFirst file username password role := by
  have hroom' : (recordedAccounts file).length < maxUsers := by
    rwa [AuthState.decoded, accounts_loadUsers hfile] at hroom
  have haccepted : ¬ Refused file canAppend username role := by
    intro hrefused
    have hresult := (registerUser_refused hfile password hrefused).1
    rw [hregister] at hresult
    exact absurd hresult (lt_irrefl 0)
  obtain ⟨huser, hwritten⟩ := registerUser_accepted hfile password haccepted
  rw [hregister] at huser hwritten
  obtain rfl : user = newAccount file username password role := by
    simpa using huser
  rw [comesFirst_iff hroom']
  constructor
  · intro hreaches
    have hnow := hreaches []
    have hnil : (fgetsAll 256 []).filterMap account? = [] := rfl
    rw [registerMore, authenticateUser_eq hwritten, ← List.append_nil (file ++ _),
      recordedAccounts_after hroom', hnil, List.append_nil, List.find?_append] at hnow
    have hbefore : ∀ user ∈ recordedAccounts (closedBuffers 256 file),
        SignsIn username password user = false := by
      cases hfound : (recordedAccounts (closedBuffers 256 file)).find? (SignsIn username password) with
      | none =>
          exact fun user huser => Bool.eq_false_iff.mpr (List.find?_eq_none.mp hfound user huser)
      | some other =>
          -- an earlier account would have the name and the role that were free
          rw [hfound, Option.some_or, Option.some_inj] at hnow
          have hmem := (recordedAccounts_closed hroom').2.2 _ (List.mem_of_find?_eq_some hfound)
          have hsigns := List.find?_some hfound
          simp only [SignsIn, Bool.and_eq_true, beq_iff_eq] at hsigns
          exact absurd (Or.inr (Or.inl ⟨other, hmem, hsigns.1, by rw [hnow]; rfl⟩)) haccepted
    refine ⟨hbefore, ?_⟩
    rw [List.find?_eq_none.mpr fun user huser => by rw [hbefore user huser]; simp] at hnow
    exact hnow
  · rintro ⟨hbefore, hfirst⟩ later
    obtain ⟨more, hmore⟩ := registerMore_file hwritten later
    rw [authenticateUser_eq hmore, recordedAccounts_after hroom', find?_append_of_none hbefore,
      List.take_append, List.find?_append, hfirst]
    rfl

/-- `eve` signs up as `USER`. -/
def signupOfEve : Signup := ⟨text "eve", text "pw", roleUser, true⟩

/-- `bob` signs up, `eve` does, and `bob` signs in. -/
theorem signIn_bob :
    (authenticateUser (registerMore (afterSignup (text "bob") (text "pw")) [signupOfEve])
      (text "bob") (text "pw")).1 = some (UserInfo.mk 2 (text "bob") (text "pw") roleUser) := by
  have hterminated : Terminated (text "1:admin:admin123:0\n") :=
    Or.inr ⟨text "1:admin:admin123:0", by decide⟩
  have hregister : registerUser shippedUsers true (text "bob") (text "pw") roleUser =
      ((0, some (UserInfo.mk 2 (text "bob") (text "pw") roleUser)),
        afterSignup (text "bob") (text "pw")) :=
    Prod.ext (by decide +kernel) rfl
  refine (signIn_iff rfl (by decide +kernel) hregister).mpr ?_ [signupOfEve]
  apply (comesFirst_iff_of_terminated hterminated (by decide) (by decide) (by decide)).mpr
  decide +kernel

/-- `eve` signs up as `USER` and, with the same password, as `GUEST`. -/
def eveTwice : AuthState :=
  (registerUser (afterSignup (text "eve") (text "pw")) true (text "eve") (text "pw") roleGuest).2

/-- The guest `eve` is signed in as the user `eve`. -/
theorem signIn_other_role :
    registerUser (afterSignup (text "eve") (text "pw")) true (text "eve") (text "pw") roleGuest =
        ((0, some (UserInfo.mk 3 (text "eve") (text "pw") roleGuest)), eveTwice) ∧
      (afterSignup (text "eve") (text "pw")).decoded.length < maxUsers ∧
      (authenticateUser eveTwice (text "eve") (text "pw")).1 =
        some (UserInfo.mk 2 (text "eve") (text "pw") roleUser) :=
  ⟨Prod.ext (by decide +kernel) rfl, by decide +kernel, by decide +kernel⟩

end CloudSync
