import CloudSync.Accounts.UserIds
import CloudSync.Lib.Interleaving

/-!
# Signups at the same time

Every client is served by a thread of its own.  `register_user` reads `users.dat`
and decides on the next id first and locks the file for the record afterwards, so
a signup is two steps (`registerSteps`), and between them other signups may add
accounts.

As long as no record is appended on a decision that an earlier append has made out
of date, ids and pairs of name and role stay distinct in every interleaving
(`distinct_of_inTurn`).
-/

namespace CloudSync

open CText Calls

/-! ## Registration in two steps -/

/-- The steps of `register_user`: everything up to the next id, and the locked
append with what follows it. -/
inductive SignupCall : Type → Type
  | load (username : Bytes) (role : ℤ) : SignupCall (Except ℤ ℤ)
  | append (id : ℤ) (username password : Bytes) (role : ℤ) : SignupCall Bool

/-- `load_users`, the scan for the name and the scan for the next id: the id, or
what `register_user` returns instead. -/
def loadStep (username : Bytes) (role : ℤ) (state : AuthState) : Except ℤ ℤ × AuthState :=
  let (result, state) := loadUsers state
  if result < 0 then (.error (-1), state)
  else if state.accounts.any fun user => user.username == username && user.role == role then
    (.error (-2), state)
  else (.ok (nextId state.accounts), state)

/-- The account a signup hands to its session. -/
def sessionUser (id : ℤ) (username password : Bytes) (role : ℤ) : UserInfo where
  id := id
  username := strncpy (maxUsername - 1) username
  password := strncpy (maxPassword - 1) password
  role := role

/-- The record is appended to `users.dat` and the account added to the cache, if the
file can be opened and locked. -/
def appendStep (canAppend : Bool) (id : ℤ) (username password : Bytes) (role : ℤ)
    (state : AuthState) : Bool × AuthState :=
  if !canAppend then (false, state)
  else
    let file := state.file.map (· ++ userRecord id username password role)
    if hcount : state.userCount < maxUsers then
      (true,
        { file := file
          users := Function.update state.users ⟨state.userCount, hcount⟩
            (sessionUser id username password role)
          userCount := state.userCount + 1 })
    else (true, { state with file := file })

/-- The steps on the shared state.  The environment says whether `users.dat` can be
appended to. -/
def signups : Handler SignupCall Bool AuthState where
  exec := fun canAppend c =>
    match c with
    | .load username role => loadStep username role
    | .append id username password role => appendStep canAppend id username password role

/-- What `register_user` does with the next id. -/
def afterLoad (username password : Bytes) (role : ℤ) :
    Except ℤ ℤ → Prog SignupCall (ℤ × Option UserInfo)
  | .error result => .ret (result, none)
  | .ok id => .call (.append id username password role) fun appended =>
      .ret (if appended then (0, some (sessionUser id username password role)) else (-1, none))

/-- `register_user` -/
def registerSteps (username password : Bytes) (role : ℤ) :
    Prog SignupCall (ℤ × Option UserInfo) :=
  if reservedName username then .ret (-2, none)
  else .call (.load username role) (afterLoad username password role)

/-- With nothing in between the two steps are `register_user`. -/
theorem registerSteps_run (username password : Bytes) (role : ℤ) (env : ℕ → Bool)
    (state : AuthState) :
    (registerSteps username password role).run signups env state =
      registerUser state (env 1) username password role := by
  unfold registerSteps registerUser
  split
  · rfl
  · rw [Prog.run_call]
    simp only [signups, loadStep]
    generalize loadUsers state = loaded
    obtain ⟨result, state⟩ := loaded
    dsimp only
    split
    · rfl
    · split
      · rfl
      · simp only [afterLoad, Prog.run_call, Prog.run_ret, appendStep]
        cases env 1 with
        | false => rfl
        | true =>
            simp only [Bool.not_true, Bool.false_eq_true, if_false]
            split <;> rfl

/-! ## What `users.dat` holds -/

/-- The accounts in a file, however many there are. -/
def accountsIn (file : Bytes) : List UserInfo := (fgetsAll 256 file).filterMap account?

theorem recordedAccounts_eq_accountsIn {file : Bytes}
    (hroom : (accountsIn file).length ≤ maxUsers) : recordedAccounts file = accountsIn file :=
  List.take_of_length_le hroom

section Record

variable {file username password : Bytes} {id role : ℤ}

/-- The account of a record; with an empty field it has none. -/
def accountsOfRecord (id : ℤ) (username password : Bytes) (role : ℤ) : List UserInfo :=
  if username = [] ∨ password = [] then [] else [UserInfo.mk id username password role]

/-- A record with an empty field is not read as an account. -/
theorem account?_userRecord_of_empty (husername : FieldText username)
    (hpassword : FieldText password) (hempty : username = [] ∨ password = []) :
    account? (userRecord id username password role) = none := by
  have htokens := (@tokens_userRecord username password id role husername hpassword).2
  have hnone : ∀ {s : Bytes}, FieldText s → tokens 58 s = [] ∨ tokens 58 s = [s] := by
    intro s hs
    by_cases hs' : s = []
    · exact Or.inl (by rw [hs']; rfl)
    · exact Or.inr (tokens_of_not_mem hs.no_colon hs')
  unfold account?
  rw [htokens]
  split
  · rfl
  · -- three tokens at most are left
    rcases hempty with rfl | rfl
    · rcases hnone hpassword with h | h <;> rw [h] <;> rfl
    · rcases hnone husername with h | h <;> rw [h] <;> rfl

/-- What an append adds to the accounts in the file. -/
theorem accountsIn_append_userRecord (hfile : Terminated file) (hid : InInt id)
    (hrole : InInt role) (husername : FieldText username) (hpassword : FieldText password) :
    accountsIn (file ++ userRecord id username password role) =
      accountsIn file ++ accountsOfRecord id username password role := by
  have hline : (fgetsAll 256 (userRecord id username password role)).filterMap account? =
      accountsOfRecord id username password role := by
    rw [fgetsAll_userRecord hid hrole husername.short hpassword.short husername.no_lf
      hpassword.no_lf]
    unfold accountsOfRecord
    split
    · next hempty =>
      rw [List.filterMap_cons_none (account?_userRecord_of_empty husername hpassword hempty),
        List.filterMap_nil]
    · next hfilled =>
      obtain ⟨hname, hword⟩ := not_or.mp hfilled
      have husername' : PlainField username := ⟨hname, husername.short, husername.no_nul,
        husername.no_lf, husername.no_cr, husername.no_colon⟩
      have hpassword' : PlainField password := ⟨hword, hpassword.short, hpassword.no_nul,
        hpassword.no_lf, hpassword.no_cr, hpassword.no_colon⟩
      rw [List.filterMap_cons_some (account?_userRecord hid hrole husername' hpassword'),
        List.filterMap_nil]
  unfold accountsIn
  rw [fgetsAll_append (by norm_num) hfile, List.filterMap_append, hline]

/-- The next id is above all ids, as long as none of them is the highest `int`. -/
theorem lt_nextId {accounts : List UserInfo} (hids : ∀ user ∈ accounts, user.id < 2 ^ 31 - 1) :
    ∀ user ∈ accounts, user.id < nextId accounts := by
  suffices hscan : ∀ next : ℤ, 1 ≤ next →
      next ≤ accounts.foldl (fun next user => if next ≤ user.id then int32 (user.id + 1) else next)
        next ∧ ∀ user ∈ accounts, user.id < accounts.foldl
          (fun next user => if next ≤ user.id then int32 (user.id + 1) else next) next from
    (hscan 1 le_rfl).2
  induction accounts with
  | nil => exact fun next _ => ⟨le_rfl, fun user huser => absurd huser (List.not_mem_nil)⟩
  | cons first rest ih =>
      obtain ⟨hfirst, hrest⟩ := List.forall_mem_cons.mp hids
      intro next hnext
      have hraised : next ≤ (if next ≤ first.id then int32 (first.id + 1) else next) ∧
          first.id < (if next ≤ first.id then int32 (first.id + 1) else next) := by
        split
        · next hle =>
          have hint : InInt (first.id + 1) := by
            constructor <;> omega
          rw [int32_of_range hint]
          omega
        · next hlt => omega
      obtain ⟨hle, habove⟩ := ih hrest _ (hnext.trans hraised.1)
      rw [List.foldl_cons]
      refine ⟨hraised.1.trans hle, List.forall_mem_cons.mpr ⟨hraised.2.trans_le hle, habove⟩⟩

end Record

/-! ## Signups side by side -/

/-- Signups over the shared state. -/
abbrev Signups (ι : Type) := Pool SignupCall Unit (ℤ × Option UserInfo) ι AuthState

/-- What a signup asks for. -/
structure SignupRequest where
  username : Bytes
  password : Bytes
  role : ℤ
  username_text : FieldText username
  password_text : FieldText password
  role_range : InInt role

variable {ι : Type} [DecidableEq ι]

/-- All signups at their beginning. -/
def Signups.start (request : ι → SignupRequest) (state : AuthState) : Signups ι :=
  Pool.start (fun _ => Monitor.silent SignupCall)
    (fun i => registerSteps (request i).username (request i).password (request i).role) state

/-- The call goes on with what stands in the file: a load finds no account with the
highest `int` as its id, and an append comes with no other append since the load it
rests on, at the beginning of a line. -/
def SignupCall.InTurn (state : AuthState) (fresh : Bool) : {β : Type} → SignupCall β → Prop
  | _, .load _ _ => ∀ file ∈ state.file, ∀ user ∈ recordedAccounts file, user.id < 2 ^ 31 - 1
  | _, .append _ _ _ _ => fresh = true ∧ ∀ file ∈ state.file, Terminated file

/-- Which signups have loaded the file as it stands: an append makes all other loads
out of date. -/
def SignupCall.enter (i : ι) (canAppend : Bool) (fresh : ι → Bool) :
    {β : Type} → SignupCall β → ι → Bool
  | _, .load _ _ => Function.update fresh i true
  | _, .append _ _ _ _ => if canAppend then fun _ => false else fresh

/-- `SignupCall.enter` for the next call of signup `i`. -/
def enterSignup (pool : Signups ι) (i : ι) (canAppend : Bool) (fresh : ι → Bool) : ι → Bool :=
  match (pool.thread i).prog with
  | .ret _ => fresh
  | .call c _ => c.enter i canAppend fresh

/-- The step is in turn. -/
def SignupOrder (pool : Signups ι) (fresh : ι → Bool) (i : ι) (_ : Bool) : Prop :=
  (pool.thread i).prog.AtCall fun c => c.InTurn pool.shared (fresh i)

/-- The signups reached by steps that satisfy `allowed`, with the loads that are not
out of date. -/
abbrev SignupsReach (allowed : Signups ι → (ι → Bool) → ι → Bool → Prop)
    (request : ι → SignupRequest) (state : AuthState) : Signups ι → (ι → Bool) → Prop :=
  ReachWith signups (fun _ => Monitor.silent SignupCall) enterSignup allowed
    (Signups.start request state)
    fun _ => false

/-! ## What stays true -/

/-- The id and the name are free among the accounts `load_users` reads. -/
structure Free (file : Bytes) (id : ℤ) (username : Bytes) (role : ℤ) : Prop where
  above : ∀ user ∈ recordedAccounts file, user.id < id
  unused : ∀ user ∈ recordedAccounts file, ¬ (user.username = username ∧ user.role = role)

/-- Where a signup stands: at its beginning, before its append, or at its end.  What
it has found free still is, unless its load is out of date. -/
def Stands (r : SignupRequest) (state : AuthState) (fresh : Bool)
    (prog : Prog SignupCall (ℤ × Option UserInfo)) : Prop :=
  prog = registerSteps r.username r.password r.role ∨
    (∃ id, prog = afterLoad r.username r.password r.role (.ok id) ∧ InInt id ∧
      (fresh = true → ∀ file ∈ state.file, Free file id r.username r.role)) ∨
    ∃ value, prog = .ret value

/-- The file can be read, its accounts are distinct as long as there are no more than
`MAX_USERS`, and every signup stands somewhere. -/
structure SignupsOk (request : ι → SignupRequest) (pool : Signups ι) (fresh : ι → Bool) :
    Prop where
  file : ∃ file, pool.shared.file = some file ∧
    ((accountsIn file).length ≤ maxUsers → DistinctUsers (accountsIn file))
  stands : ∀ i, Stands (request i) pool.shared (fresh i) (pool.thread i).prog

section Steps

variable {state : AuthState} {file username password : Bytes} {id role : ℤ}

/-- A load leaves the file alone, and an id it finds is free. -/
theorem loadStep_spec (username : Bytes) (role : ℤ) (hfile : state.file = some file)
    (hids : ∀ user ∈ recordedAccounts file, user.id < 2 ^ 31 - 1) :
    (loadStep username role state).2.file = some file ∧
      ∀ id, (loadStep username role state).1 = .ok id →
        InInt id ∧ Free file id username role := by
  unfold loadStep
  dsimp only
  rw [loadUsers_result hfile, accounts_loadUsers hfile, if_neg (lt_irrefl 0)]
  split
  · exact ⟨loadUsers_file hfile, fun id hid => by cases hid⟩
  · next hunused =>
    refine ⟨loadUsers_file hfile, fun id hid => ?_⟩
    obtain rfl : nextId (recordedAccounts file) = id := by cases hid; rfl
    refine ⟨nextId_range _, lt_nextId hids, fun user huser hsame => hunused ?_⟩
    exact List.any_eq_true.mpr ⟨user, huser, by simp [hsame]⟩

theorem appendStep_file (hfile : state.file = some file) :
    (appendStep true id username password role state).2.file =
      some (file ++ userRecord id username password role) := by
  unfold appendStep
  rw [if_neg (by simp), hfile]
  split <;> rfl

/-- A record whose id and name are free keeps the accounts distinct. -/
theorem Free.append {r : SignupRequest} (hfree : Free file id r.username r.role)
    (hterminated : Terminated file) (hid : InInt id)
    (hdistinct : (accountsIn file).length ≤ maxUsers → DistinctUsers (accountsIn file))
    (hroom : (accountsIn (file ++ userRecord id r.username r.password r.role)).length ≤ maxUsers) :
    DistinctUsers (accountsIn (file ++ userRecord id r.username r.password r.role)) := by
  rw [accountsIn_append_userRecord hterminated hid r.role_range r.username_text
    r.password_text] at hroom ⊢
  have hbefore : (accountsIn file).length ≤ maxUsers := by
    rw [List.length_append] at hroom
    omega
  obtain ⟨hids, hnames⟩ := hdistinct hbefore
  have habove := hfree.above
  have hunused := hfree.unused
  rw [recordedAccounts_eq_accountsIn hbefore] at habove hunused
  unfold accountsOfRecord
  split
  · rw [List.append_nil]
    exact ⟨hids, hnames⟩
  · constructor
    · rw [List.map_append, List.map_singleton]
      refine List.nodup_append'.mpr ⟨hids, List.nodup_singleton _, ?_⟩
      rw [List.disjoint_singleton]
      intro hmem
      obtain ⟨user, huser, hsame⟩ := List.mem_map.mp hmem
      exact (habove user huser).ne hsame
    · rw [List.map_append, List.map_singleton]
      refine List.nodup_append'.mpr ⟨hnames, List.nodup_singleton _, ?_⟩
      rw [List.disjoint_singleton]
      intro hmem
      obtain ⟨user, huser, hsame⟩ := List.mem_map.mp hmem
      exact hunused user huser (Prod.mk.inj hsame)

end Steps

variable {request : ι → SignupRequest}

omit [DecidableEq ι] in
theorem signupsOk_start {state : AuthState} {file : Bytes} (hfile : state.file = some file)
    (hdistinct : DistinctUsers (accountsIn file)) :
    SignupsOk request (Signups.start request state) fun _ => false where
  file := ⟨file, hfile, fun _ => hdistinct⟩
  stands := fun _ => Or.inl rfl

/-- The signups other than the one that steps. -/
theorem Stands.of_file {r : SignupRequest} {state state' : AuthState} {fresh : Bool}
    {prog : Prog SignupCall (ℤ × Option UserInfo)} (hstands : Stands r state fresh prog)
    (hfile : state'.file = state.file) : Stands r state' fresh prog := by
  unfold Stands
  rw [hfile]
  exact hstands

theorem Stands.out_of_date {r : SignupRequest} {state state' : AuthState} {fresh : Bool}
    {prog : Prog SignupCall (ℤ × Option UserInfo)} (hstands : Stands r state fresh prog) :
    Stands r state' false prog := by
  rcases hstands with h | ⟨id, h, hid, -⟩ | h
  · exact Or.inl h
  · exact Or.inr (Or.inl ⟨id, h, hid, by simp⟩)
  · exact Or.inr (Or.inr h)

/-- A step in turn keeps the accounts distinct. -/
theorem signupsOk_step {pool : Signups ι} {fresh : ι → Bool} {i : ι} {canAppend : Bool}
    (hok : SignupsOk request pool fresh) (hturn : SignupOrder pool fresh i canAppend) :
    SignupsOk request (pool.step signups (fun _ => Monitor.silent SignupCall) i canAppend)
      (enterSignup pool i canAppend fresh) := by
  obtain ⟨file, hfile, hdistinct⟩ := hok.file
  unfold SignupOrder at hturn
  rcases hok.stands i with hprog | ⟨id, hprog, hid, hfree⟩ | ⟨value, hprog⟩
  · -- the load
    unfold registerSteps at hprog
    split at hprog
    · rw [hprog] at hturn
      exact hturn.elim
    · rw [hprog] at hturn
      obtain ⟨hkept, hfound⟩ := loadStep_spec (request i).username (request i).role hfile
        (hturn file hfile)
      have henter : enterSignup pool i canAppend fresh = Function.update fresh i true := by
        rw [enterSignup, hprog]
        rfl
      rw [Pool.step_call hprog, henter]
      refine ⟨⟨file, hkept, hdistinct⟩, fun j => ?_⟩
      by_cases hji : j = i
      · subst hji
        simp only [Function.update_self]
        cases hanswer : (loadStep (request j).username (request j).role pool.shared).1 with
        | error result =>
            refine Or.inr (Or.inr ⟨(result, none), ?_⟩)
            show afterLoad _ _ _ (loadStep _ _ pool.shared).1 = _
            rw [hanswer]
            rfl
        | ok id =>
            obtain ⟨hid, hfree⟩ := hfound id hanswer
            refine Or.inr (Or.inl ⟨id, ?_, hid, fun _ file' hfile' => ?_⟩)
            · show afterLoad _ _ _ (loadStep _ _ pool.shared).1 = _
              rw [hanswer]
            · obtain rfl := Option.some.inj (hkept.symm.trans hfile')
              exact hfree
      · simp only [Function.update_of_ne hji]
        exact (hok.stands j).of_file (hkept.trans hfile.symm)
  · -- the append
    rw [hprog] at hturn
    obtain ⟨hfresh, hterminated⟩ := hturn
    have henter : enterSignup pool i canAppend fresh =
        if canAppend then fun _ => false else fresh := by
      rw [enterSignup, hprog]
      rfl
    rw [henter, Pool.step_call hprog]
    cases canAppend with
    | false =>
        refine ⟨⟨file, hfile, hdistinct⟩, fun j => ?_⟩
        by_cases hji : j = i
        · subst hji
          simp only [Function.update_self]
          exact Or.inr (Or.inr ⟨_, rfl⟩)
        · simp only [Function.update_of_ne hji]
          exact hok.stands j
    | true =>
        refine ⟨⟨_, appendStep_file hfile, ?_⟩, fun j => ?_⟩
        · exact (hfree hfresh file hfile).append (hterminated file hfile) hid hdistinct
        · by_cases hji : j = i
          · subst hji
            simp only [Function.update_self]
            exact Or.inr (Or.inr ⟨_, rfl⟩)
          · simp only [Function.update_of_ne hji]
            exact (hok.stands j).out_of_date
  · rw [hprog] at hturn
    exact hturn.elim

/-- In every interleaving whose steps are in turn the accounts in `users.dat` have
distinct ids and distinct pairs of name and role, while there are at most `MAX_USERS`. -/
theorem distinct_of_inTurn {state : AuthState} {file file' : Bytes} {pool : Signups ι}
    {fresh : ι → Bool} (hfile : state.file = some file)
    (hdistinct : DistinctUsers (accountsIn file))
    (hreach : SignupsReach SignupOrder request state pool fresh)
    (hfile' : pool.shared.file = some file') (hroom : (accountsIn file').length ≤ maxUsers) :
    DistinctUsers (accountsIn file') := by
  have hok : SignupsOk request pool fresh := by
    refine hreach.invariant (I := SignupsOk request) (signupsOk_start hfile hdistinct) ?_
    intro pool fresh i canAppend hok hturn
    exact signupsOk_step hok hturn
  obtain ⟨written, hwritten, hkept⟩ := hok.file
  obtain rfl := Option.some.inj (hwritten.symm.trans hfile')
  exact hkept hroom

/-! ## Two signups cross -/

theorem fieldText_bob : FieldText (text "bob") := by decide

theorem fieldText_eve : FieldText (text "eve") := by decide

theorem fieldText_pw : FieldText (text "pw") := by decide

theorem roleUser_range : InInt roleUser := by decide

/-- `bob` and `eve` sign up. -/
def bobAndEve : Bool → SignupRequest
  | false => ⟨text "bob", text "pw", roleUser, fieldText_bob, fieldText_pw, roleUser_range⟩
  | true => ⟨text "eve", text "pw", roleUser, fieldText_eve, fieldText_pw, roleUser_range⟩

/-- The signups after the given turns; `users.dat` can always be appended to. -/
def signupsAfter (turns : List Bool) : Signups Bool :=
  (Signups.start bobAndEve shippedUsers).runSchedule signups (fun _ => Monitor.silent SignupCall)
    (turns.map fun i => (i, true))

/-- The loads that are not out of date after the given turns. -/
def freshAfter (turns : List Bool) : Bool → Bool :=
  (Signups.start bobAndEve shippedUsers).history signups (fun _ => Monitor.silent SignupCall) enterSignup
    (fun _ => false) (turns.map fun i => (i, true))

instance (state : AuthState) (fresh : Bool) {β : Type} (c : SignupCall β) :
    Decidable (c.InTurn state fresh) := by
  cases c <;> unfold SignupCall.InTurn <;> infer_instance

/-- `eve` loads after `bob` has appended. -/
theorem bob_then_eve :
    DistinctUsers (accountsIn (text "1:admin:admin123:0\n2:bob:pw:1\n3:eve:pw:1\n")) := by
  have hadmissible : Admissible signups (fun _ => Monitor.silent SignupCall) enterSignup
      (fun (pool : Signups Bool) fresh i (_ : Bool) =>
        (pool.thread i).prog.AtCall fun c => c.InTurn pool.shared (fresh i))
      (Signups.start bobAndEve shippedUsers) (fun _ => false)
      [(false, true), (false, true), (true, true), (true, true)] := by decide +kernel
  have hreach : SignupsReach SignupOrder bobAndEve shippedUsers
      (signupsAfter [false, false, true, true]) (freshAfter [false, false, true, true]) :=
    ReachWith.refl.run_history hadmissible
  refine distinct_of_inTurn rfl ?_ hreach ?_ ?_ <;> decide +kernel

/-- Whatever the order of their steps, the signups leave distinct accounts. -/
def SignupsSafe (request : ι → SignupRequest) (state : AuthState) : Prop :=
  ∀ pool fresh, SignupsReach (fun _ _ _ _ => True) request state pool fresh →
    (∀ i, pool.Finished i) → ∀ file ∈ pool.shared.file, (accountsIn file).length ≤ maxUsers →
      DistinctUsers (accountsIn file)

/-- Both load before either appends. -/
theorem crossed_signups : ¬ SignupsSafe bobAndEve shippedUsers := by
  intro hsafe
  have hreach : SignupsReach (fun _ _ _ _ => True) bobAndEve shippedUsers
      (signupsAfter [false, true, false, true]) (freshAfter [false, true, false, true]) :=
    ReachWith.refl.run_history ⟨trivial, trivial, trivial, trivial, trivial⟩
  have hfile : (signupsAfter [false, true, false, true]).shared.file =
      some (text "1:admin:admin123:0\n2:bob:pw:1\n2:eve:pw:1\n") := by decide +kernel
  exact absurd (hsafe _ _ hreach (by decide +kernel) _ hfile (by decide +kernel))
    (by decide +kernel)


end CloudSync
