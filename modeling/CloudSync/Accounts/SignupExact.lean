import CloudSync.Accounts.UsersFile

/-!
# What a signup adds

The writer of `users.dat` prints a name and a password as they are, the reader
takes the fields between colons.  They agree on all names and passwords without
a colon, and on no others (`signupExact_iff`): a colon written is a separator
read, so the account that was asked for is never read back.
-/

namespace CloudSync

open CText

/-- What the client reads with `%31s`. -/
structure ClientField (s : Bytes) : Prop where
  ne_nil : s ≠ []
  short : s.length ≤ 31
  visible : ∀ b ∈ s, b ≠ 0 ∧ isSpace b = false

instance (s : Bytes) : Decidable (ClientField s) :=
  decidable_of_iff (s ≠ [] ∧ s.length ≤ 31 ∧ s.all (fun b => b != 0 && !isSpace b) = true)
    ⟨fun ⟨h₁, h₂, h₃⟩ => ⟨h₁, h₂, by simpa using h₃⟩,
      fun ⟨h₁, h₂, h₃⟩ => ⟨h₁, h₂, by simpa using h₃⟩⟩

theorem ClientField.plain {s : Bytes} (hs : ClientField s) (hcolon : (58 : UInt8) ∉ s) :
    PlainField s where
  ne_nil := hs.ne_nil
  short := hs.short
  no_nul := fun h => (hs.visible _ h).1 rfl
  no_lf := fun h => absurd (hs.visible _ h).2 (by decide)
  no_cr := fun h => absurd (hs.visible _ h).2 (by decide)
  no_colon := hcolon

/-- After a signup the accounts are those before, and the one that was asked for
under the id of the session; none has come by the name `admin`. -/
def SignupExact (before after : List UserInfo) (session : UserInfo) (username password : Bytes)
    (role : ℤ) : Prop :=
  after = before ++ [UserInfo.mk session.id username password role] ∧
    ∀ user ∈ after, reservedName user.username = true → user ∈ before

variable {state after : AuthState} {file username password : Bytes} {role : ℤ}
  {canAppend : Bool} {session : UserInfo}

/-- A signup with fields a client sends does what it should if and only if there
is no colon in the name or the password. -/
theorem signupExact_iff (hfile : state.file = some file) (hterminated : Terminated file)
    (hroom : state.decoded.length < maxUsers) (husername : ClientField username)
    (hpassword : ClientField password) (hrole : role = roleUser ∨ role = roleGuest)
    (hregister : registerUser state canAppend username password role = ((0, some session), after)) :
    SignupExact state.decoded after.decoded session username password role ↔
      (58 : UInt8) ∉ username ∧ (58 : UInt8) ∉ password := by
  have hbefore : state.decoded = recordedAccounts file := accounts_loadUsers hfile
  have haccepted : ¬ Refused file canAppend username role := by
    intro hrefused
    have hresult := (registerUser_refused hfile password hrefused).1
    rw [hregister] at hresult
    exact absurd hresult (lt_irrefl 0)
  obtain ⟨hsession, hwritten⟩ := registerUser_accepted hfile password haccepted
  rw [hregister] at hsession hwritten
  obtain rfl : session = newAccount file username password role := by
    simpa using hsession
  have hafter : after.decoded =
      recordedAccounts (file ++ appendedLine file username password role) :=
    accounts_loadUsers hwritten
  constructor
  · -- the account asked for has been read from some line
    intro hexact
    have hmem : UserInfo.mk (newAccount file username password role).id username password role ∈
        after.decoded := by
      rw [hexact.1]
      exact List.mem_append_right _ (List.mem_singleton_self _)
    rw [hafter, recordedAccounts] at hmem
    obtain ⟨line, -, hline⟩ := List.mem_filterMap.mp (List.mem_of_mem_take hmem)
    have hplain := plainField_of_account? hline
    exact ⟨hplain.1.no_colon, hplain.2.no_colon⟩
  · rintro ⟨hnameColon, hpasswordColon⟩
    have hint : InInt role := by
      rcases hrole with rfl | rfl <;> decide
    have hread : after.decoded = state.decoded ++
        [UserInfo.mk (newAccount file username password role).id username password role] := by
      rw [hafter, appendedLine, recordedAccounts_append_userRecord hterminated (nextId_range _)
        hint (husername.plain hnameColon) (hpassword.plain hpasswordColon), hbefore]
      apply List.take_of_length_le
      rw [hbefore] at hroom
      simpa using hroom
    refine ⟨hread, fun user huser hreserved => ?_⟩
    rw [hread] at huser
    apply (List.mem_append.mp huser).resolve_right
    intro hnew
    obtain rfl := List.mem_singleton.mp hnew
    exact haccepted (Or.inl hreserved)

/-- The accounts of a fresh installation. -/
def shippedUsers : AuthState := AuthState.ofFile (text "1:admin:admin123:0\n")

/-- What a signup as `USER` leaves behind. -/
def afterSignup (username password : Bytes) : AuthState :=
  (registerUser shippedUsers true username password roleUser).2

theorem signupExact_bob :
    SignupExact shippedUsers.decoded (afterSignup (text "bob") (text "pw")).decoded
      (UserInfo.mk 2 (text "bob") (text "pw") roleUser) (text "bob") (text "pw") roleUser := by
  have hterminated : Terminated (text "1:admin:admin123:0\n") :=
    Or.inr ⟨text "1:admin:admin123:0", by decide⟩
  have hregister : registerUser shippedUsers true (text "bob") (text "pw") roleUser =
      ((0, some (UserInfo.mk 2 (text "bob") (text "pw") roleUser)),
        afterSignup (text "bob") (text "pw")) :=
    Prod.ext (by decide +kernel) rfl
  exact (signupExact_iff rfl hterminated (by decide +kernel) (by decide +kernel)
    (by decide +kernel) (Or.inl rfl) hregister).mpr ⟨by decide, by decide⟩

/-- The user `eve:1` cannot be read back. -/
theorem signup_with_colon :
    registerUser shippedUsers true (text "eve:1") (text "pw") roleUser =
        ((0, some (UserInfo.mk 2 (text "eve:1") (text "pw") roleUser)),
          afterSignup (text "eve:1") (text "pw")) ∧
      ¬ SignupExact shippedUsers.decoded (afterSignup (text "eve:1") (text "pw")).decoded
        (UserInfo.mk 2 (text "eve:1") (text "pw") roleUser) (text "eve:1") (text "pw")
        roleUser := by
  refine ⟨Prod.ext (by decide +kernel) rfl, fun hexact => ?_⟩
  exact absurd hexact.1 (by decide +kernel)

end CloudSync
