import CloudSync.Sequential.Holds
import CloudSync.Server

/-!
# Ownership over whole runs

Requests are filtered by `check_permission` and then processed one at a time.
`SAVE` and `UNLOCK` never look at the owner, only at the holder of the lock, so
the ownership law rests on `LockLaw`: whoever holds a lock owns the file or is
an admin.  Every call of every task keeps `LockLaw` (`lockLaw_exec`), and under
it a request by anyone but the owner or an admin leaves a file as it was, except
that it may clear a lock held for too long (`untouched_exec`).
-/

namespace CloudSync

open CText Calls Calls.Prog Files

/-! ## Runs of requests -/

/-- A request of a session: the account it runs under, its number, what was
received, and what its calls meet. -/
structure Request where
  env : ℕ → Env
  user : UserInfo
  requestId : ℤ
  req : ClientRequest

/-- The task the request becomes. -/
def Request.task (q : Request) : TaskMessage := clientTask q.user q.requestId q.req

/-- The request is checked and, if it is permitted, processed. -/
def Request.handle (q : Request) (world : World) : World :=
  (handleRequest q.env q.user q.requestId q.req world).2

/-- Requests handled one after another. -/
def handleAll (requests : List Request) (world : World) : World :=
  requests.foldl (fun world q => q.handle world) world

/-- A request about the file `a`, for examples. -/
def sampleRequest (userId role : ℤ) (operation : Operation) : Request where
  env := fun _ => Env.calm 0
  user := { id := userId, username := [], password := [], role := role }
  requestId := 100
  req :=
    { operation := operation.code
      username := []
      password := []
      filename := text "a"
      dataSize := 1
      data := noData
      data_length := noData_length
      dataSize_range := by decide }

variable {users : List UserInfo} {q : Request} {world : World}

theorem handle_of_permitted (h : checkPermission q.user.role q.task.operation = true) :
    q.handle world = (serve q.env q.task world).2 := by
  have hpermitted : checkPermission q.user.role (Operation.ofCode q.req.operation) = true := h
  unfold Request.handle handleRequest
  dsimp only
  rw [if_pos hpermitted]
  rfl

theorem handle_of_refused (h : checkPermission q.user.role q.task.operation = false) :
    q.handle world = world := by
  have hrefused : checkPermission q.user.role (Operation.ofCode q.req.operation) = false := h
  unfold Request.handle handleRequest
  dsimp only
  rw [hrefused, if_neg Bool.false_ne_true]

/-- A guest is let through to operations that modify nothing. -/
theorem modifies_of_guest {role : ℤ} {operation : Operation}
    (hadmin : role ≠ roleAdmin) (huser : role ≠ roleUser)
    (h : checkPermission role operation = true) : operation.modifies = false := by
  unfold checkPermission at h
  rw [if_neg hadmin, if_neg huser] at h
  split at h
  · simp only [Bool.or_eq_true, beq_iff_eq] at h
    rcases h with ((rfl | rfl) | rfl) | rfl <;> rfl
  · exact Bool.noConfusion h

/-! ## Whoever holds a lock -/

/-- The holder of a lock owns the file or is an admin. -/
def LockLaw (users : List UserInfo) (metaArray : MetaArray) : Prop :=
  ∀ f, ∀ r ∈ record? metaArray f, r.lockedByUserId ≠ -1 →
    r.lockedByUserId = r.ownerId ∨ ∃ u ∈ users, u.id = r.lockedByUserId ∧ u.role = roleAdmin

theorem lockLaw_init : LockLaw users initMetadata := by
  intro f r hr
  rw [record?_initMetadata] at hr
  exact absurd hr (by simp)

/-- Every call of a task keeps the lock law. -/
theorem lockLaw_exec {β : Type} {c : WorkerCall β} {g : Standing} (env : Env)
    (huser : q.user ∈ users) (hholds : Holds q.task g world.metadata) (hcall : Entitled q.task g c)
    (hlaw : LockLaw users world.metadata) :
    LockLaw users (worker.exec env c world).2.metadata := by
  intro f r' hr' hlocked
  have hexec := record?_exec env c hholds.unique hcall.filename_length
  by_cases hmem : f ∈ c.changesRecord
  · have hstep := hexec.2.2 f hmem
    rcases hstep.holder env r' hr' with hfree | ⟨r, hr, hkept | ⟨hlocks, -⟩⟩
    · exact absurd hfree hlocked
    · -- the lock and its file were there before
      have howner : r.ownerId = r'.ownerId := by
        rcases hstep.owner env r' hr' with ⟨r₁, hr₁, h⟩ | ⟨hnone, -⟩
        · rw [Option.mem_unique hr hr₁, h]
        · rw [hnone] at hr
          exact absurd hr (by simp)
      have := hlaw f r hr (hkept ▸ hlocked)
      rwa [hkept, howner] at this
    · -- the task's own user was granted the lock, and had passed the ownership check
      obtain ⟨rfl, hid, hedit⟩ := hcall.locks hlocks
      have hpassed : g.owner = true := by
        cases c <;> simp only [WorkerCall.locks, reduceCtorEq] at hlocks
        exact hcall.2.2.2
      rw [hid]
      rcases hholds.owner_exec env hcall hpassed with hadmin | howner
      · exact Or.inr ⟨q.user, huser, rfl, hadmin⟩
      · exact Or.inl (howner r' hr').symm
  · rw [hexec.2.1 f hmem] at hr'
    exact hlaw f r' hr' hlocked

theorem lockLaw_handle (huser : q.user ∈ users) (hunique : UniqueNames world.metadata)
    (hlaw : LockLaw users world.metadata) :
    UniqueNames (q.handle world).metadata ∧ LockLaw users (q.handle world).metadata := by
  cases hpermitted : checkPermission q.user.role q.task.operation with
  | false =>
      rw [handle_of_refused hpermitted]
      exact ⟨hunique, hlaw⟩
  | true =>
      rw [handle_of_permitted hpermitted]
      obtain ⟨g, hholds, hlaw⟩ := serve_invariant q.env q.task
        (I := fun g world => Holds q.task g world.metadata ∧ LockLaw users world.metadata)
        ⟨holds_start hunique, hlaw⟩
        fun g world i β c hI hcall => ⟨holds_exec _ hI.1 hcall,
          lockLaw_exec _ huser hI.1 hcall hI.2⟩
      exact ⟨hholds.unique, hlaw⟩

theorem lockLaw_handleAll (requests : List Request)
    (hrequests : ∀ q ∈ requests, q.user ∈ users)
    (hinit : UniqueNames world.metadata ∧ LockLaw users world.metadata) :
    UniqueNames (handleAll requests world).metadata ∧
      LockLaw users (handleAll requests world).metadata := by
  induction requests generalizing world with
  | nil => exact hinit
  | cons q rest ih =>
      exact ih (fun q hq => hrequests q (List.mem_cons_of_mem _ hq))
        (lockLaw_handle (hrequests q (List.mem_cons_self ..)) hinit.1 hinit.2)

/-! ## A request by somebody else -/

/-- The user may change a file with this record. -/
def MayChange (user : UserInfo) (r : FileMetadata) : Prop :=
  user.role = roleAdmin ∨ (user.role = roleUser ∧ user.id = r.ownerId)

/-- `f` is as it was, its record being `r` before, except that a stale lock may
have been cleared. -/
structure Untouched (env : ℕ → Env) (f : Bytes) (r : FileMetadata) (before after : World) :
    Prop where
  content : content after.tree f = content before.tree f
  versions : storedVersion after.tree f = storedVersion before.tree f
  record : record? after.metadata f = some r ∨
    ((∃ i, r.Stale (env i).now) ∧ record? after.metadata f = some r.cleared)

/-- Under the lock law, a task whose user may not change the file has no
authority over it. -/
theorem not_authority {g : Standing} {metaArray : MetaArray} {r r' : FileMetadata}
    (hids : ∀ u ∈ users, 1 ≤ u.id)
    (hdistinct : ∀ u ∈ users, ∀ v ∈ users, u.id = v.id → u = v)
    (huser : q.user ∈ users) (hrole : q.user.role = roleAdmin ∨ q.user.role = roleUser)
    (hmay : ¬ MayChange q.user r) (hholds : Holds q.task g metaArray)
    (hr' : record? metaArray q.task.filename = some r') (howner : r'.ownerId = r.ownerId)
    (hlaw : LockLaw users metaArray) :
    g.owner ≠ true ∧ r'.lockedByUserId ≠ q.task.userId ∧ ¬ Authority q.task g := by
  have hrole : q.user.role = roleUser := hrole.resolve_left fun h => hmay (Or.inl h)
  have hother : q.user.id ≠ r.ownerId := fun h => hmay (Or.inr ⟨hrole, h⟩)
  have hnotowner : g.owner ≠ true := fun h => by
    rcases hholds.owner h with hadmin | hid
    · exact hmay (Or.inl hadmin)
    · exact hother ((hid r' hr').symm.trans howner)
  have hnotholder : r'.lockedByUserId ≠ q.task.userId := fun h => by
    have hone := hids q.user huser
    have hlocked : r'.lockedByUserId ≠ -1 := fun hfree => by
      have : q.user.id = -1 := h.symm.trans hfree
      omega
    rcases hlaw _ r' hr' hlocked with hid | ⟨u, hu, hid, hadmin⟩
    · exact hother ((h.symm.trans hid).trans howner)
    · rw [hdistinct u hu q.user huser (hid.trans h)] at hadmin
      exact hmay (Or.inl hadmin)
  exact ⟨hnotowner, hnotholder,
    fun h => h.elim hnotowner fun h => hnotholder (hholds.holder h.2 r' hr')⟩

/-- Without authority a call leaves the task's file untouched. -/
theorem untouched_exec {β : Type} {c : WorkerCall β} {g : Standing} {before : World}
    {r : FileMetadata}
    (i : ℕ) (hname : q.task.filename ∈ {f | StorageName f}) (hholds : Holds q.task g world.metadata)
    (hcall : Entitled q.task g c)
    (hno : ∀ r' ∈ record? world.metadata q.task.filename,
      g.owner ≠ true ∧ r'.lockedByUserId ≠ q.task.userId ∧ ¬ Authority q.task g)
    (h : Untouched q.env q.task.filename r before world) :
    Untouched q.env q.task.filename r before (worker.exec (q.env i) c world).2 := by
  obtain ⟨r', hr'⟩ : ∃ r', record? world.metadata q.task.filename = some r' := by
    rcases h.record with h | ⟨-, h⟩ <;> exact ⟨_, h⟩
  obtain ⟨hnotowner, hnotholder, hauthority⟩ := hno r' hr'
  have hnames := hcall.filename_mem hname
  refine ⟨?_, ?_, ?_⟩
  · rw [content_exec _ c world separate_storageNames hnames hname
      fun hmem => hauthority (hcall.writesContent hmem).2.1]
    exact h.content
  · rw [storedVersion_exec _ c world separate_storageNames hnames hname
      fun hmem => hauthority (hcall.writesVersions hmem).2]
    exact h.versions
  · cases hchanges : c.changesRecord with
    | none =>
        rw [metadata_exec _ _ _ hchanges]
        exact h.record
    | some f =>
        cases c with
        | addFileMetadata f ownerName ownerId size => exact absurd hcall.2.2.2.1 hnotowner
        | updateFileMetadata f size => exact absurd hcall.2.2 hauthority
        | removeFileMetadata f => exact absurd hcall.2.2.1 hnotowner
        | acquireEditLock f userId username => exact absurd hcall.2.2.2 hnotowner
        | releaseEditLock f userId =>
            obtain ⟨rfl, rfl, -⟩ := hcall
            have htable := (record?_releaseEditLock q.task.filename hholds.unique
              q.task.userId).1
            have hafter : record? (worker.exec (q.env i)
                (.releaseEditLock q.task.filename q.task.userId) world).2.metadata
                q.task.filename = some r' := by
              refine (congrFun htable _).trans ?_
              rw [Function.update_self, hr', Option.map_some, FileMetadata.releasedBy,
                if_neg fun h => hnotholder h.2]
            rw [hafter, ← hr']
            exact h.record
        | checkEditLock f =>
            obtain ⟨rfl, -⟩ := hcall
            have htable := (record?_checkEditLock q.task.filename hholds.unique
              (q.env i).now).1
            have hafter : record? (worker.exec (q.env i) (.checkEditLock q.task.filename)
                world).2.metadata q.task.filename = some (r'.checked (q.env i).now) := by
              refine (congrFun htable _).trans ?_
              rw [Function.update_self, hr', Option.map_some]
            rw [hafter]
            rcases h.record with hr | ⟨hstale, hr⟩
            · obtain rfl : r = r' := Option.some.inj (hr.symm.trans hr')
              unfold FileMetadata.checked
              split
              · next hstale => exact Or.inr ⟨⟨i, hstale⟩, rfl⟩
              · exact Or.inl rfl
            · obtain rfl : r.cleared = r' := Option.some.inj (hr.symm.trans hr')
              refine Or.inr ⟨hstale, ?_⟩
              rw [FileMetadata.checked, if_neg fun h => h.1 rfl]
        | _ => exact absurd hchanges (by simp [WorkerCall.changesRecord])

/-- A request leaves a file untouched that its user may not change. -/
theorem handle_untouched (hids : ∀ u ∈ users, 1 ≤ u.id)
    (hdistinct : ∀ u ∈ users, ∀ v ∈ users, u.id = v.id → u = v)
    (huser : q.user ∈ users) (hname : StorageName q.task.filename)
    (hunique : UniqueNames world.metadata) (hlaw : LockLaw users world.metadata)
    {f : Bytes} (hf : StorageName f) {r : FileMetadata} (hr : record? world.metadata f = some r)
    (hmay : ¬ MayChange q.user r) : Untouched q.env f r world (q.handle world) := by
  have hsame : Untouched q.env f r world world := ⟨rfl, rfl, Or.inl hr⟩
  cases hpermitted : checkPermission q.user.role q.task.operation with
  | false => rw [handle_of_refused hpermitted]; exact hsame
  | true =>
      rw [handle_of_permitted hpermitted]
      cases hmodifies : q.task.operation.modifies with
      | false =>
          obtain ⟨hrecord, hcontent, hversions⟩ :=
            serve_of_not_modifies q.env separate_storageNames hname hf hmodifies
          exact ⟨hcontent, hversions, Or.inl (hrecord.trans hr)⟩
      | true =>
          by_cases hfq : f = q.task.filename
          · subst hfq
            have hrole : q.user.role = roleAdmin ∨ q.user.role = roleUser := by
              by_contra h
              rw [not_or] at h
              rw [modifies_of_guest h.1 h.2 hpermitted] at hmodifies
              exact Bool.noConfusion hmodifies
            obtain ⟨g, -, -, huntouched⟩ := serve_invariant q.env q.task
              (I := fun g world' => Holds q.task g world'.metadata ∧
                LockLaw users world'.metadata ∧
                Untouched q.env q.task.filename r world world')
              ⟨holds_start hunique, hlaw, hsame⟩
              fun g world' i β c hI hcall => by
                refine ⟨holds_exec _ hI.1 hcall,
                  lockLaw_exec _ huser hI.1 hcall hI.2.1,
                  untouched_exec i hname hI.1 hcall (fun r' hr' => ?_) hI.2.2⟩
                refine not_authority hids hdistinct huser hrole hmay hI.1 hr' ?_ hI.2.1
                rcases hI.2.2.record with h | ⟨-, h⟩
                · rw [Option.some.inj (hr'.symm.trans h)]
                · rw [Option.some.inj (hr'.symm.trans h)]
                  rfl
            exact huntouched
          · exact ⟨serve_content_of_ne q.env separate_storageNames hname hf hfq,
              serve_storedVersion_of_ne q.env separate_storageNames hname hf hfq,
              Or.inl ((serve_record?_of_ne q.env hunique hfq).trans hr)⟩

/-- A guest's request changes no view of any file. -/
theorem handle_of_guest (hguest : q.user.role = roleGuest) (hname : StorageName q.task.filename)
    {f : Bytes} (hf : StorageName f) :
    record? (q.handle world).metadata f = record? world.metadata f ∧
      content (q.handle world).tree f = content world.tree f ∧
      storedVersion (q.handle world).tree f = storedVersion world.tree f := by
  cases hpermitted : checkPermission q.user.role q.task.operation with
  | false => rw [handle_of_refused hpermitted]; exact ⟨rfl, rfl, rfl⟩
  | true =>
      rw [handle_of_permitted hpermitted]
      refine serve_of_not_modifies q.env separate_storageNames hname hf
        (modifies_of_guest ?_ ?_ hpermitted)
      · rw [hguest]; decide
      · rw [hguest]; decide

/-- After any requests, a request changes a file only if its user is an admin,
or the user who owns it; and a guest's request changes nothing. -/
theorem requests_respect_ownership (hids : ∀ u ∈ users, 1 ≤ u.id)
    (hdistinct : ∀ u ∈ users, ∀ v ∈ users, u.id = v.id → u = v) (requests : List Request)
    (hrequests : ∀ q ∈ requests, q.user ∈ users ∧ StorageName q.task.filename)
    (huser : q.user ∈ users) (hname : StorageName q.task.filename)
    (hinit : world.metadata = initMetadata) {f : Bytes} (hf : StorageName f) :
    let before := handleAll requests world
    let after := q.handle before
    (∀ r, record? before.metadata f = some r → ¬ MayChange q.user r →
      Untouched q.env f r before after) ∧
    (q.user.role = roleGuest →
      record? after.metadata f = record? before.metadata f ∧
      content after.tree f = content before.tree f ∧
      storedVersion after.tree f = storedVersion before.tree f) := by
  have hfirst : UniqueNames world.metadata ∧ LockLaw users world.metadata := by
    rw [hinit]
    exact ⟨initMetadata_unique, lockLaw_init⟩
  have hlaw := lockLaw_handleAll requests (fun q hq => (hrequests q hq).1) hfirst
  exact ⟨fun r hr hmay =>
      handle_untouched hids hdistinct huser hname hlaw.1 hlaw.2 hf hr hmay,
    fun hguest => handle_of_guest hguest hname hf⟩

/-- Bob asks to delete what Alice has uploaded. -/
theorem requests_respect_ownership_delete :
    let before := handleAll [sampleRequest 2 roleUser .upload] freshWorld
    let q := sampleRequest 3 roleUser .delete
    ∃ r, record? before.metadata (text "a") = some r ∧
      Untouched q.env (text "a") r before (q.handle before) := by
  let users := [(sampleRequest 2 roleUser .upload).user, (sampleRequest 3 roleUser .delete).user]
  have hids : ∀ u ∈ users, 1 ≤ u.id := by decide
  have hdistinct : ∀ u ∈ users, ∀ v ∈ users, u.id = v.id → u = v := by decide
  have hrequests : ∀ q ∈ [sampleRequest 2 roleUser .upload],
      q.user ∈ users ∧ StorageName q.task.filename := by
    intro q hq
    obtain rfl := List.mem_singleton.mp hq
    exact ⟨by decide, by decide⟩
  obtain ⟨r, hr, howner⟩ : ∃ r, record? (handleAll [sampleRequest 2 roleUser .upload]
      freshWorld).metadata (text "a") = some r ∧ r.ownerId = 2 :=
    ⟨_, Option.eq_some_of_isSome (by decide +kernel), by decide +kernel⟩
  refine ⟨r, hr, (requests_respect_ownership hids hdistinct _ hrequests (by decide) (by decide) rfl
    (by decide)).1 r hr ?_⟩
  rintro (hadmin | ⟨-, hid⟩)
  · exact absurd hadmin (by decide)
  · exact absurd (hid.trans howner) (by decide)

end CloudSync
