import CloudSync.Accounts.SignupExact
import CloudSync.Server

/-!
# Accounts with the role `ADMIN`

A signup names its own role, and what it writes into `users.dat` is read again
line by line.  An `Attempt` is `Harmless` if it does not ask for the role `ADMIN`
and no part of its fields stands where `load_users` looks for a role and is 0
(`LeavesInnocent`): on the line of the record that is the third part of the fields,
on a line that a newline in the fields begins it is the fourth.  A record that goes on
with an unfinished last line has parts of that line before it.

Sessions that begin with harmless attempts, and all logins after them, are
administrators only under accounts that were administrators at the start
(`noEscalation_of_harmless`).  The shipped client only makes harmless attempts
unless a field holds a colon (`harmless_of_plain`); `signup_asAdmin` is an
attempt it does not make.
-/

namespace CloudSync

open CText

/-- The first request of a client, its names ended by a NUL, and whether `users.dat` can
be appended to. -/
structure Attempt where
  req : ClientRequest
  canAppend : Bool
  username_short : (cstr req.username).length < maxUsername
  password_short : (cstr req.password).length < maxPassword

/-- An administrator that `load_users` reads in the file. -/
def KnownAdmin (file : Bytes) (id : ℤ) (username password : Bytes) : Prop :=
  { id := id
    username := strncpy (maxUsername - 1) username
    password := strncpy (maxPassword - 1) password
    role := roleAdmin } ∈ recordedAccounts file

/-- The line is a comment, or its fourth part is not 0, or it names an administrator that
is in the file. -/
def Innocent (file line : Bytes) : Prop :=
  line.head? ≠ some 35 → ∀ id username password role rest,
    lineParts line = id :: username :: password :: role :: rest → atoi role = roleAdmin →
      KnownAdmin file (atoi id) username password

namespace Attempt

variable (a : Attempt)

def username : Bytes := cstr a.req.username

def password : Bytes := cstr a.req.password

/-- The role of a signup; it is sent in `data_size`. -/
def role : ℤ := a.req.dataSize

/-- What is printed after the id, line by line. -/
def fieldLines : List Bytes :=
  fields 10 (a.username ++ 58 :: (a.password ++ 58 :: decimal a.role))

/-- What is printed after the id on the same line. -/
def firstLine : Bytes := a.fieldLines.headD []

/-- The lines that newlines in the fields begin. -/
def laterLines : List Bytes := a.fieldLines.tail

/-- The line that the record begins with, where the last line of the file is not finished. -/
def continuedLine (file : Bytes) : Bytes :=
  openBuffer 256 file ++ (decimal (nextId (recordedAccounts file)) ++ 58 :: a.firstLine)

/-- What the fields add to the file has no 0 where a role is looked for. -/
structure LeavesInnocent (file : Bytes) : Prop where
  /-- The id is the first part of the line, so the role is the third of the fields. -/
  first : openBuffer 256 file = [] → ∀ username password role rest,
    lineParts a.firstLine = username :: password :: role :: rest → atoi role = roleAdmin →
      KnownAdmin file (nextId (recordedAccounts file)) username password
  /-- `fgets` takes at most 255 bytes of the line. -/
  continued : openBuffer 256 file ≠ [] →
    Innocent file ((a.continuedLine file).take 255) ∧
      Innocent file ((a.continuedLine file).drop 255)
  later : ∀ line ∈ a.laterLines, Innocent file line

/-- A signup that is not refused asks for another role than `ADMIN`, and has no 0 where a
role is looked for, unless `load_users` does not come so far. -/
def Harmless (file : Bytes) : Prop :=
  Operation.ofCode a.req.operation = .signup → ¬ Refused file a.canAppend a.username a.role →
    a.role ≠ roleAdmin ∧
      (maxUsers ≤ (recordedAccounts (closedBuffers 256 file)).length ∨ a.LeavesInnocent file)

/-- The account of the session the attempt begins, and the state after it. -/
def session (state : AuthState) : Option UserInfo × AuthState :=
  ((beginSession state a.canAppend a.req).1.2, (beginSession state a.canAppend a.req).2)

theorem session_signup (hsignup : Operation.ofCode a.req.operation = .signup)
    (state : AuthState) :
    a.session state = ((registerUser state a.canAppend a.username a.password a.role).1.2,
      (registerUser state a.canAppend a.username a.password a.role).2) := by
  unfold session beginSession username password role
  rw [hsignup]
  dsimp only
  generalize registerUser state a.canAppend (cstr a.req.username) (cstr a.req.password)
    a.req.dataSize = out
  obtain ⟨⟨result, user⟩, after⟩ := out
  cases user with
  | none =>
      dsimp only
      split <;> rfl
  | some user => rfl

theorem session_login (hlogin : Operation.ofCode a.req.operation = .login) (state : AuthState) :
    a.session state = authenticateUser state a.username a.password := by
  unfold session beginSession username password
  rw [hlogin]
  dsimp only
  generalize authenticateUser state (cstr a.req.username) (cstr a.req.password) = out
  obtain ⟨user, after⟩ := out
  cases user <;> rfl

theorem session_other (hsignup : Operation.ofCode a.req.operation ≠ .signup)
    (hlogin : Operation.ofCode a.req.operation ≠ .login) (state : AuthState) :
    a.session state = (none, state) := by
  unfold session beginSession
  split
  · next h => exact absurd h hsignup
  · next h => exact absurd h hlogin
  · rfl

end Attempt

/-- The sessions that begin with a sequence of attempts, and the state after them. -/
def beginSessions : AuthState → List Attempt → List UserInfo × AuthState
  | state, [] => ([], state)
  | state, a :: rest =>
      let out := a.session state
      let later := beginSessions out.2 rest
      (out.1.toList ++ later.1, later.2)

/-- Every attempt is harmless for the file it finds. -/
def AllHarmless : AuthState → List Attempt → Prop
  | _, [] => True
  | state, a :: rest =>
      (∀ file ∈ state.file, a.Harmless file) ∧
        AllHarmless (a.session state).2 rest

/-- Sessions and later logins with the role `ADMIN` are under accounts that had
the role in the initial file. -/
def NoEscalation (file : Bytes) (attempts : List Attempt) : Prop :=
  let initial := AuthState.ofFile file
  (∀ user ∈ (beginSessions initial attempts).1, user.role = roleAdmin → user ∈ initial.decoded) ∧
    ∀ username password user,
      (authenticateUser (beginSessions initial attempts).2 username password).1 = some user →
        user.role = roleAdmin → user ∈ initial.decoded

variable {a : Attempt} {file : Bytes} {state : AuthState}

/-! ## The lines of a record -/

/-- Nothing is added by lines that no administrator is read from. -/
theorem innocent_iff {line : Bytes} : Innocent file line ↔
    ∀ user, account? line = some user → user.role = roleAdmin → user ∈ recordedAccounts file := by
  unfold Innocent KnownAdmin
  constructor
  · intro hline user huser hadmin
    obtain ⟨hcomment, id, username, password, role, rest, hparts, rfl⟩ :=
      account?_eq_some_iff.mp huser
    have hknown := hline hcomment id username password role rest hparts hadmin
    rwa [← hadmin] at hknown
  · intro hline hcomment id username password role rest hparts hadmin
    have hknown := hline _ (account?_eq_some_iff.mpr ⟨hcomment, id, username, password, role, rest,
      hparts, rfl⟩) hadmin
    rwa [hadmin] at hknown

theorem innocent_append_newline {line : Bytes} :
    Innocent file (line ++ [10]) ↔ Innocent file line := by
  simp only [innocent_iff, account?_append (Or.inl rfl)]

/-- Short lines are read one after the other. -/
theorem fgetsAll_lines {lines : List Bytes}
    (hlines : ∀ line ∈ lines, (10 : UInt8) ∉ line ∧ line.length < 255) :
    fgetsAll 256 (lines.map (· ++ [10])).flatten = lines.map (· ++ [10]) := by
  induction lines with
  | nil => rfl
  | cons line rest ih =>
      obtain ⟨⟨hone, hshort⟩, hrest⟩ := List.forall_mem_cons.mp hlines
      rw [List.map_cons, List.flatten_cons, List.append_assoc, List.singleton_append,
        fgetsAll_line hone (by omega), ih hrest]

namespace Attempt

theorem fieldLines_eq (a : Attempt) : a.fieldLines = a.firstLine :: a.laterLines := by
  unfold firstLine laterLines
  cases h : a.fieldLines with
  | nil => exact absurd h (fields_ne_nil _ _)
  | cons line rest => rfl

/-- The lines of the fields are short. -/
theorem length_fieldLine {line : Bytes} (hline : line ∈ a.fieldLines) : line.length ≤ 75 := by
  have hall := length_le_of_mem_fields hline
  have husername := a.username_short
  have hpassword := a.password_short
  have hrole := decimal_length_le (show InInt a.role from a.req.dataSize_range)
  unfold maxUsername at husername
  unfold maxPassword at hpassword
  simp only [List.length_append, List.length_cons] at hall
  change line.length ≤ (cstr a.req.username).length + ((cstr a.req.password).length + _ + 1) + 1
    at hall
  omega

theorem appendedLine_eq (a : Attempt) (file : Bytes) :
    appendedLine file a.username a.password a.role =
      decimal (nextId (recordedAccounts file)) ++ 58 :: (a.firstLine ++ [10]) ++
        (a.laterLines.map (· ++ [10])).flatten := by
  have hfields := flatten_fields 10 (a.username ++ 58 :: (a.password ++ 58 :: decimal a.role))
  change (a.fieldLines.map (· ++ [10])).flatten = _ at hfields
  rw [fieldLines_eq, List.map_cons, List.flatten_cons] at hfields
  rw [appendedLine, userRecord_eq, recordFields, List.append_assoc, List.cons_append, ← hfields,
    List.append_assoc _ (58 :: _), List.cons_append]

/-- What is read from the open buffer of the file on, after the signup. -/
theorem fgetsAll_continued (a : Attempt) (file : Bytes) :
    fgetsAll 256 (openBuffer 256 file ++ appendedLine file a.username a.password a.role) =
      fgetsAll 256 (a.continuedLine file ++ [10]) ++ a.laterLines.map (· ++ [10]) := by
  have hlines : ∀ line ∈ a.laterLines, (10 : UInt8) ∉ line ∧ line.length < 255 := by
    intro line hline
    have hmem : line ∈ a.fieldLines := List.mem_of_mem_tail hline
    exact ⟨not_mem_of_mem_fields hmem, (a.length_fieldLine hmem).trans_lt (by norm_num)⟩
  have hterminated : Terminated (a.continuedLine file ++ [10]) := Or.inr ⟨_, rfl⟩
  have hwhole : openBuffer 256 file ++ appendedLine file a.username a.password a.role =
      a.continuedLine file ++ [10] ++ (a.laterLines.map (· ++ [10])).flatten := by
    rw [appendedLine_eq, continuedLine]
    simp only [List.append_assoc, List.cons_append]
  rw [hwhole, fgetsAll_append (by norm_num) hterminated, fgetsAll_lines hlines]

/-- On a line of its own a record has the id for its first part. -/
theorem lineParts_begun (a : Attempt) (id : ℤ) :
    (decimal id ++ 58 :: a.firstLine).head? ≠ some 35 ∧
      lineParts (decimal id ++ 58 :: a.firstLine) = decimal id :: lineParts a.firstLine := by
  have hdigits : ∀ b ∈ decimal id, (b != 13 && b != 10 && b != 0) = true := by
    intro b hb
    rcases of_mem_decimal hb with rfl | hdigit
    · decide
    · simp only [Bool.and_eq_true, bne_iff_ne]
      refine ⟨⟨?_, ?_⟩, ?_⟩ <;> rintro rfl <;> exact absurd hdigit (by decide)
  constructor
  · rw [List.head?_append_of_ne_nil _ (decimal_ne_nil id)]
    intro h
    exact not_mem_decimal (by decide) (by decide) (List.mem_of_mem_head? h)
  · have hcut : cutLine (decimal id ++ 58 :: a.firstLine) =
        decimal id ++ 58 :: cutLine a.firstLine := by
      unfold cutLine
      rw [List.takeWhile_append_of_pos hdigits, List.takeWhile_cons_of_pos (by decide)]
    rw [lineParts, hcut, tokens_append_sep, tokens_of_not_mem
      (not_mem_decimal (by decide) (by decide)) (decimal_ne_nil id)]
    rfl

/-- No line that the signup leaves behind makes an administrator. -/
theorem LeavesInnocent.recorded (h : a.LeavesInnocent file) {user : UserInfo}
    (huser : user ∈ (fgetsAll 256 (openBuffer 256 file ++
      appendedLine file a.username a.password a.role)).filterMap account?)
    (hadmin : user.role = roleAdmin) : user ∈ recordedAccounts file := by
  have hmem : a.firstLine ∈ a.fieldLines := by
    rw [fieldLines_eq]
    exact List.mem_cons_self
  have hline := a.length_fieldLine hmem
  have hopen := openBuffer_length (by norm_num : 1 < 256) file
  have hid := decimal_length_le (nextId_range (recordedAccounts file))
  have hone : (10 : UInt8) ∉ a.continuedLine file := by
    simp only [continuedLine, List.mem_append, List.mem_cons, not_or]
    exact ⟨openBuffer_no_lf _ _, not_mem_decimal (by decide) (by decide), by decide,
      not_mem_of_mem_fields hmem⟩
  have hlength : (a.continuedLine file).length < 510 := by
    simp only [continuedLine, List.length_append, List.length_cons]
    omega
  have hcontinued : Innocent file ((a.continuedLine file).take 255) ∧
      Innocent file ((a.continuedLine file).drop 255) := by
    by_cases hbegun : openBuffer 256 file = []
    · have hwhole : a.continuedLine file =
          decimal (nextId (recordedAccounts file)) ++ 58 :: a.firstLine := by
        rw [continuedLine, hbegun, List.nil_append]
      have hshort : (a.continuedLine file).length ≤ 255 := by
        rw [hwhole, List.length_append, List.length_cons]
        omega
      rw [List.take_of_length_le hshort, List.drop_of_length_le hshort, hwhole]
      constructor
      · intro _ id username password role rest hparts hrole
        rw [(a.lineParts_begun _).2, List.cons.injEq] at hparts
        obtain ⟨rfl, hparts⟩ := hparts
        rw [atoi_decimal (nextId_range _)]
        exact h.first hbegun username password role rest hparts hrole
      · exact fun _ id username password role rest hparts => absurd hparts (by simp [lineParts,
          cutLine, tokens, fields])
    · exact h.continued hbegun
  rw [fgetsAll_continued, List.filterMap_append, accounts_of_line hone hlength] at huser
  rcases List.mem_append.mp huser with huser | huser
  · rcases List.mem_append.mp huser with huser | huser
    · exact innocent_iff.mp hcontinued.1 user (Option.mem_toList.mp huser) hadmin
    · exact innocent_iff.mp hcontinued.2 user (Option.mem_toList.mp huser) hadmin
  · obtain ⟨buf, hbuf, haccount⟩ := List.mem_filterMap.mp huser
    obtain ⟨line, hlater, rfl⟩ := List.mem_map.mp hbuf
    exact innocent_iff.mp (innocent_append_newline.mpr (h.later line hlater)) user haccount hadmin

end Attempt

/-! ## Harmless attempts -/

/-- A harmless signup adds no administrator to the file. -/
theorem Attempt.Harmless.recordedAccounts_append (hharmless : a.Harmless file)
    (hsignup : Operation.ofCode a.req.operation = .signup)
    (haccepted : ¬ Refused file a.canAppend a.username a.role) {user : UserInfo}
    (huser : user ∈ recordedAccounts (file ++ appendedLine file a.username a.password a.role))
    (hrole : user.role = roleAdmin) : user ∈ recordedAccounts file := by
  have hfile : recordedAccounts file =
      (((fgetsAll 256 (closedBuffers 256 file)).filterMap account?) ++
        ((fgetsAll 256 (openBuffer 256 file)).filterMap account?)).take maxUsers := by
    have hlines := fgetsAll_append_open (by norm_num : 1 < 256) file []
    rw [List.append_nil, List.append_nil] at hlines
    rw [recordedAccounts, hlines, List.filterMap_append]
  rw [recordedAccounts, fgetsAll_append_open (by norm_num), List.filterMap_append,
    List.take_append] at huser
  rcases List.mem_append.mp huser with hkept | hleft
  · -- an account of the closed buffers is where it was
    rw [hfile, List.take_append]
    exact List.mem_append_left _ hkept
  · rcases (hharmless hsignup haccepted).2 with hfull | hinnocent
    · rw [recordedAccounts, List.length_take] at hfull
      rw [Nat.sub_eq_zero_of_le (hfull.trans (min_le_right _ _)), List.take_zero] at hleft
      exact absurd hleft List.not_mem_nil
    · exact hinnocent.recorded (List.mem_of_mem_take hleft) hrole

/-- What a harmless attempt does. -/
theorem Attempt.Harmless.session (hharmless : a.Harmless file) (hfile : state.file = some file) :
    (∀ user, (a.session state).1 = some user → user.role = roleAdmin →
      user ∈ recordedAccounts file) ∧
    ∃ file', (a.session state).2.file = some file' ∧
      ∀ user ∈ recordedAccounts file', user.role = roleAdmin → user ∈ recordedAccounts file := by
  by_cases hsignup : Operation.ofCode a.req.operation = .signup
  · rw [a.session_signup hsignup]
    by_cases hrefused : Refused file a.canAppend a.username a.role
    · obtain ⟨-, hnone, hkept⟩ := registerUser_refused hfile a.password hrefused
      rw [hnone]
      exact ⟨fun _ h => absurd h (by simp), file, hkept, fun _ h _ => h⟩
    · obtain ⟨hresult, hwritten⟩ := registerUser_accepted hfile a.password hrefused
      rw [hresult]
      refine ⟨?_, _, hwritten, ?_⟩
      · intro user huser hadmin
        obtain rfl := Option.some.inj huser
        exact absurd hadmin (hharmless hsignup hrefused).1
      · intro user huser
        exact hharmless.recordedAccounts_append hsignup hrefused huser
  · by_cases hlogin : Operation.ofCode a.req.operation = .login
    · rw [a.session_login hlogin]
      refine ⟨?_, file, authenticateUser_file hfile _, fun _ h _ => h⟩
      intro user huser _
      exact mem_recordedAccounts_of_authenticateUser hfile huser
    · rw [a.session_other hsignup hlogin]
      exact ⟨fun _ h => absurd h (by simp), file, hfile, fun _ h _ => h⟩

/-- Harmless attempts begin no session as an administrator that was not one
before, and add none to the file. -/
theorem beginSessions_harmless {admins : List UserInfo} (attempts : List Attempt)
    (hfile : state.file = some file)
    (hadmins : ∀ user ∈ recordedAccounts file, user.role = roleAdmin → user ∈ admins)
    (hharmless : AllHarmless state attempts) :
    (∀ user ∈ (beginSessions state attempts).1, user.role = roleAdmin → user ∈ admins) ∧
    ∃ file', (beginSessions state attempts).2.file = some file' ∧
      ∀ user ∈ recordedAccounts file', user.role = roleAdmin → user ∈ admins := by
  induction attempts generalizing state file with
  | nil => exact ⟨fun _ h => absurd h (List.not_mem_nil), file, hfile, hadmins⟩
  | cons a rest ih =>
      obtain ⟨hfirst, hrest⟩ := hharmless
      obtain ⟨hsession, file', hfile', hkept⟩ := (hfirst file hfile).session hfile
      obtain ⟨hlater, hend⟩ := ih hfile'
        (fun user huser hrole => hadmins user (hkept user huser hrole) hrole) hrest
      refine ⟨fun user huser hrole => ?_, hend⟩
      rcases List.mem_append.mp huser with hnow | hthen
      · exact hadmins user (hsession user (Option.mem_toList.mp hnow) hrole) hrole
      · exact hlater user hthen hrole

/-- Harmless attempts make no administrators. -/
theorem noEscalation_of_harmless (attempts : List Attempt)
    (hharmless : AllHarmless (AuthState.ofFile file) attempts) : NoEscalation file attempts := by
  have hinitial : (AuthState.ofFile file).decoded = recordedAccounts file :=
    accounts_loadUsers rfl
  unfold NoEscalation
  dsimp only
  rw [hinitial]
  obtain ⟨hsessions, file', hfile', hadmins⟩ :=
    beginSessions_harmless attempts rfl (fun _ h _ => h) hharmless
  exact ⟨hsessions, fun _ _ user hlogin =>
    hadmins user (mem_recordedAccounts_of_authenticateUser hfile' hlogin)⟩

/-- Fields without colons, line ends and the role `ADMIN` do no harm to a file of
complete lines. -/
theorem harmless_of_plain (hfile : Terminated file) (husername : PlainField a.username)
    (hpassword : PlainField a.password) (hrole : a.role ≠ roleAdmin) : a.Harmless file := by
  have hint : InInt a.role := a.req.dataSize_range
  have hone : (10 : UInt8) ∉ a.username ++ 58 :: (a.password ++ 58 :: decimal a.role) := by
    simp only [List.mem_append, List.mem_cons, not_or]
    exact ⟨husername.no_lf, by decide, hpassword.no_lf, by decide,
      not_mem_decimal (by decide) (by decide)⟩
  have hlines : a.fieldLines = [a.username ++ 58 :: (a.password ++ 58 :: decimal a.role)] :=
    fields_of_not_mem hone
  refine fun _ _ => ⟨hrole, Or.inr ⟨fun _ => ?_, fun hopen => ?_, fun line hline => ?_⟩⟩
  · -- the third part of the fields is the role
    intro username password role rest hparts hadmin
    have hbegun := (a.lineParts_begun 0).2
    have hfirst : decimal 0 ++ 58 :: a.firstLine = recordFields 0 a.username a.password a.role := by
      rw [Attempt.firstLine, hlines]
      rfl
    rw [hfirst, lineParts, ← cutLine_append (Or.inl rfl) _ [], ← userRecord_eq,
      (tokens_userRecord husername.fieldText hpassword.fieldText).2,
      tokens_of_not_mem husername.no_colon husername.ne_nil,
      tokens_of_not_mem hpassword.no_colon hpassword.ne_nil, hparts] at hbegun
    simp only [List.singleton_append, List.cons.injEq] at hbegun
    obtain ⟨-, -, -, rfl, -⟩ := hbegun
    rw [atoi_decimal hint] at hadmin
    exact absurd hadmin hrole
  · exact absurd (hfile.openBuffer_eq 256) hopen
  · rw [Attempt.laterLines, hlines] at hline
    exact absurd hline List.not_mem_nil

/-- A signup as `mallory`. -/
def signupAttempt (role : ℤ) (hrole : InInt role) : Attempt where
  req :=
    { operation := Operation.code .signup
      username := text "mallory"
      password := text "pw"
      filename := []
      dataSize := role
      data := noData
      data_length := noData_length
      dataSize_range := hrole }
  canAppend := true
  username_short := (by decide : (cstr (text "mallory")).length < maxUsername)
  password_short := (by decide : (cstr (text "pw")).length < maxPassword)

theorem noEscalation_signupAsUser :
    NoEscalation (text "1:admin:admin123:0\n") [signupAttempt roleUser (by decide)] := by
  refine noEscalation_of_harmless _ ⟨fun file hfile => ?_, trivial⟩
  obtain rfl := Option.some.inj hfile
  have hterminated : Terminated (text "1:admin:admin123:0\n") :=
    Or.inr ⟨text "1:admin:admin123:0", by decide⟩
  exact harmless_of_plain hterminated (by decide +kernel) (by decide +kernel) (by decide)

/-- A signup that asks for the role 0 gets it. -/
theorem signup_asAdmin :
    ¬ NoEscalation (text "1:admin:admin123:0\n") [signupAttempt roleAdmin (by decide)] := by
  intro hnone
  exact absurd (hnone.1 (UserInfo.mk 2 (text "mallory") (text "pw") roleAdmin)
    (by decide +kernel) rfl) (by decide +kernel)

end CloudSync
