import CloudSync.Accounts.SignupExact
import Mathlib.Data.List.Range

/-!
# Ids of registered users

`register_user` looks for a taken name and for the next id among the accounts
`load_users` reads, and that is never more than `MAX_USERS` of them, while
`users.dat` grows with every registration.  `Lists` describes the file after any
number of registrations: the account at position `i` has the id `i + 1` up to
position `MAX_USERS`, and from there on all accounts have the same id.

So the ids are distinct exactly as long as no account is added to a file of more
than `MAX_USERS` lines (`distinctUsers_iff`).
-/

namespace CloudSync

open CText

/-! ## Sequences of registrations -/

/-- The arguments of a call to `register_user`, and whether `users.dat` can be
appended to. -/
structure Registration where
  username : Bytes
  password : Bytes
  role : ℤ
  canAppend : Bool
  username_plain : PlainField username
  password_plain : PlainField password
  role_range : InInt role

/-- The accounts recorded by a sequence of calls. -/
def registerAll : AuthState → List Registration → List UserInfo
  | _, [] => []
  | state, r :: rest =>
      let out := registerUser state r.canAppend r.username r.password r.role
      out.1.2.toList ++ registerAll out.2 rest

/-- Ids identify users, and so do names and roles. -/
def DistinctUsers (accounts : List UserInfo) : Prop :=
  (accounts.map UserInfo.id).Nodup ∧
    (accounts.map fun user => (user.username, user.role)).Nodup

instance (accounts : List UserInfo) : Decidable (DistinctUsers accounts) :=
  inferInstanceAs (Decidable (_ ∧ _))

/-- Every call finds at most `MAX_USERS` lines in `users.dat`, or is refused. -/
def WithinCapacity : AuthState → List Registration → Prop
  | _, [] => True
  | state, r :: rest =>
      (∀ file ∈ state.file, Refused file r.canAppend r.username r.role ∨
        file.count 10 ≤ maxUsers) ∧
      WithinCapacity (registerUser state r.canAppend r.username r.password r.role).2 rest

/-! ## The file after some registrations -/

/-- The id of the account at position `i`. -/
def idAt (i : ℕ) : ℤ := (min i maxUsers : ℕ) + 1

/-- `users.dat` lists the accounts. -/
structure Lists (file : Bytes) (accounts : List UserInfo) : Prop where
  terminated : Terminated file
  recorded : recordedAccounts file = accounts.take maxUsers
  lines : file.count 10 = accounts.length
  ids : accounts.map UserInfo.id = (List.range accounts.length).map idAt
  names : accounts.length ≤ maxUsers + 1 →
    (accounts.map fun user => (user.username, user.role)).Nodup

theorem idAt_of_le {i : ℕ} (hi : i ≤ maxUsers) : idAt i = i + 1 := by
  rw [idAt, min_eq_left hi]

theorem foldl_idAt {n : ℕ} (hn : n ≤ maxUsers) :
    ((List.range n).map idAt).foldl
      (fun next id => if next ≤ id then int32 (id + 1) else next) 1 = n + 1 := by
  induction n with
  | zero => rfl
  | succ n ih =>
      have hlt : n ≤ maxUsers := by omega
      have hint : InInt ((n : ℤ) + 1 + 1) := by
        unfold maxUsers at hlt
        constructor <;> omega
      rw [List.range_succ, List.map_append, List.foldl_append, ih hlt, List.map_singleton,
        List.foldl_cons, List.foldl_nil, idAt_of_le hlt, if_pos le_rfl, int32_of_range hint]
      push_cast
      rfl

namespace Lists

variable {file : Bytes} {accounts : List UserInfo}

/-- The scan for the next id ends one above the last account it sees. -/
theorem nextId_eq (hlists : Lists file accounts) :
    nextId (recordedAccounts file) = idAt accounts.length := by
  have hscan : nextId (recordedAccounts file) =
      ((recordedAccounts file).map UserInfo.id).foldl
        (fun next id => if next ≤ id then int32 (id + 1) else next) 1 := by
    rw [List.foldl_map]
    rfl
  rw [hscan, hlists.recorded, List.map_take, hlists.ids, ← List.map_take, List.take_range,
    foldl_idAt (min_le_left ..), idAt, min_comm]

theorem not_taken (hlists : Lists file accounts) {role : ℤ} {username : Bytes}
    {canAppend : Bool} (haccepted : ¬ Refused file canAppend username role)
    (hlength : accounts.length ≤ maxUsers) :
    (username, role) ∉ accounts.map fun user => (user.username, user.role) := by
  intro hmem
  obtain ⟨user, huser, hsame⟩ := List.mem_map.mp hmem
  refine haccepted (Or.inr (Or.inl ⟨user, ?_, Prod.mk.inj hsame⟩))
  rwa [hlists.recorded, List.take_of_length_le hlength]

/-- An accepted registration adds its account to the list. -/
theorem append (hlists : Lists file accounts) (r : Registration)
    (haccepted : ¬ Refused file r.canAppend r.username r.role) :
    Lists (file ++ appendedLine file r.username r.password r.role)
      (accounts ++ [newAccount file r.username r.password r.role]) := by
  have hnew : newAccount file r.username r.password r.role =
      UserInfo.mk (nextId (recordedAccounts file)) r.username r.password r.role := by
    have husername : r.username.length ≤ maxUsername - 1 := r.username_plain.short
    have hpassword : r.password.length ≤ maxPassword - 1 := r.password_plain.short
    rw [newAccount, strncpy, strncpy, List.take_of_length_le husername,
      List.take_of_length_le hpassword]
  refine ⟨terminated_append_userRecord file, ?_, ?_, ?_, fun hlength => ?_⟩
  · rw [appendedLine, recordedAccounts_append_userRecord hlists.terminated (nextId_range _)
      r.role_range r.username_plain r.password_plain, hnew, hlists.recorded]
    simp only [List.take_append, List.take_take, min_self, List.length_take]
    congr 2
    omega
  · have hrecord : (recordFields (nextId (recordedAccounts file)) r.username r.password
        r.role).count 10 = 0 :=
      List.count_eq_zero_of_not_mem
        (recordFields_no_lf r.username_plain.no_lf r.password_plain.no_lf)
    rw [appendedLine, userRecord_eq, List.count_append, List.count_append, hrecord, hlists.lines,
      List.length_append]
    rfl
  · rw [List.map_append, hlists.ids, List.length_append, List.length_singleton, List.range_succ,
      List.map_append, List.map_singleton, List.map_singleton, hnew, hlists.nextId_eq]
  · have hshort : accounts.length ≤ maxUsers := by simpa using hlength
    have hfresh := hlists.not_taken haccepted hshort
    rw [List.map_append, List.map_singleton, hnew]
    refine List.nodup_append'.mpr ⟨hlists.names (by omega), List.nodup_singleton _, ?_⟩
    simpa using hfresh

/-- Ids repeat from the account after the first `MAX_USERS + 1` on. -/
theorem ids_nodup_iff {admin : UserInfo} (hlists : Lists file (admin :: accounts)) :
    (accounts.map UserInfo.id).Nodup ↔ accounts.length ≤ maxUsers := by
  have hids : accounts.map UserInfo.id = (List.range accounts.length).map (idAt ∘ Nat.succ) := by
    have hall := hlists.ids
    rw [List.length_cons, List.range_succ_eq_map, List.map_cons, List.map_cons,
      List.map_map] at hall
    exact (List.cons.inj hall).2
  rw [hids]
  constructor
  · intro hnodup
    by_contra hlong
    -- the accounts at the positions `MAX_USERS` and `MAX_USERS + 1` have one id
    have hinj := List.inj_on_of_nodup_map hnodup (x := maxUsers - 1) (y := maxUsers)
      (List.mem_range.mpr (by omega)) (List.mem_range.mpr (by omega)) (by decide)
    exact absurd hinj (by decide)
  · intro hshort
    refine List.Nodup.map_on ?_ List.nodup_range
    intro i hi j hj hij
    rw [List.mem_range] at hi hj
    simp only [Function.comp_apply, Nat.succ_eq_add_one] at hij
    rw [idAt_of_le (by omega), idAt_of_le (by omega)] at hij
    omega

end Lists

/-! ## Runs -/

/-- After any calls `users.dat` lists the accounts they have recorded, and these
stay within the capacity if and only if every call has. -/
theorem registerAll_lists (calls : List Registration) {state : AuthState} {file : Bytes}
    {accounts : List UserInfo} (hfile : state.file = some file) (hlists : Lists file accounts) :
    (∃ file', Lists file' (accounts ++ registerAll state calls)) ∧
      (accounts.length ≤ maxUsers + 1 →
        ((accounts ++ registerAll state calls).length ≤ maxUsers + 1 ↔
          WithinCapacity state calls)) := by
  induction calls generalizing state file accounts with
  | nil =>
      rw [registerAll, List.append_nil]
      exact ⟨⟨file, hlists⟩, fun hlength => iff_of_true hlength trivial⟩
  | cons r rest ih =>
      by_cases hrefused : Refused file r.canAppend r.username r.role
      · obtain ⟨-, hnone, hkept⟩ := registerUser_refused hfile r.password hrefused
        have hrest := ih hkept hlists
        simp only [registerAll, WithinCapacity, hnone, hfile, Option.toList_none, List.nil_append,
          Option.mem_some_iff, forall_eq', hrefused, true_or, true_and]
        exact hrest
      · obtain ⟨hsome, hwritten⟩ := registerUser_accepted hfile r.password hrefused
        have hrest := ih hwritten (hlists.append r hrefused)
        simp only [registerAll, WithinCapacity, hsome, hfile, Option.toList_some,
          Option.mem_some_iff, forall_eq', hrefused, false_or, hlists.lines]
        rw [List.append_assoc] at hrest
        refine ⟨hrest.1, fun hlength => ?_⟩
        by_cases hroom : accounts.length ≤ maxUsers
        · rw [and_iff_right hroom]
          exact hrest.2 (by simpa using hroom)
        · -- the account just added is one too many, whatever follows
          refine iff_of_false ?_ fun h => hroom h.1
          simp only [List.length_append, List.length_singleton]
          omega

theorem shippedUsers_lists :
    Lists (text "1:admin:admin123:0\n") [UserInfo.mk 1 (text "admin") (text "admin123") 0] where
  terminated := Or.inr ⟨text "1:admin:admin123:0", by decide⟩
  recorded := by decide +kernel
  lines := by decide
  ids := by decide
  names := fun _ => by decide

/-- The accounts recorded from a fresh installation on have distinct ids and
distinct pairs of name and role if and only if no account is added to a file of
more than `MAX_USERS` lines. -/
theorem distinctUsers_iff (calls : List Registration) :
    DistinctUsers (registerAll shippedUsers calls) ↔ WithinCapacity shippedUsers calls := by
  have hfile : shippedUsers.file = some (text "1:admin:admin123:0\n") := rfl
  obtain ⟨⟨file, hlists⟩, hwithin⟩ := registerAll_lists calls hfile shippedUsers_lists
  rw [← hwithin (by decide), List.length_append, List.length_singleton]
  rw [List.singleton_append] at hlists
  constructor
  · intro hdistinct
    have hlength := hlists.ids_nodup_iff.mp hdistinct.1
    omega
  · intro hlength
    refine ⟨hlists.ids_nodup_iff.mpr (by omega), ?_⟩
    have hnames := hlists.names (by rw [List.length_cons]; omega)
    rw [List.map_cons] at hnames
    exact (List.nodup_cons.mp hnames).2

/-! ## One user too many -/

/-- Users `a`, `aa`, `aaa` and so on. -/
def numberedUser (i : ℕ) : Registration where
  username := List.replicate (i % 31 + 1) 97
  password := text "pw"
  role := roleUser
  canAppend := true
  username_plain := by
    have hall : ∀ b ∈ List.replicate (i % 31 + 1) (97 : UInt8), b = 97 :=
      fun b hb => List.eq_of_mem_replicate hb
    refine ⟨by simp, ?_, ?_, ?_, ?_, ?_⟩
    · rw [List.length_replicate]
      omega
    all_goals exact fun hmem => absurd (hall _ hmem) (by decide)
  password_plain := by decide
  role_range := by decide

/-- The twenty-first signup gets the id of the twentieth. -/
theorem user_twentyOne :
    ¬ DistinctUsers (registerAll shippedUsers ((List.range 21).map numberedUser)) := by
  decide +kernel

end CloudSync
