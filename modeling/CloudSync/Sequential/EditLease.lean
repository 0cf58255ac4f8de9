import CloudSync.Sequential.NoLostUpdate

/-!
# The edit lock as a lease

A lock is a lease of `LOCK_TIMEOUT_SECS` seconds from its time stamp.  While it is in
force no task of another user gets past it (`serve_of_leased`), and its holder keeps
it until `SAVE`, `UNLOCK` or `DELETE`, unless an `EDIT` cannot read the file and gives
it back (`leased_of_own`).

The time stamp is set when the lock is taken.  An `EDIT` by the user who holds the
lock already succeeds as well, but leaves the old time stamp, and the lease ends
before its time (`lease_iff`).
-/

namespace CloudSync

open CText Calls Calls.Prog Files

/-- `userId` holds the edit lock of `f` with a time stamp of `since` or later. -/
def LeasedSince (metaArray : MetaArray) (f : Bytes) (userId since : ℤ) : Prop :=
  ∃ r ∈ record? metaArray f, r.lockedByUserId = userId ∧ since ≤ r.lockAcquiredAt

/-- The task is processed at one time. -/
def Job.At (job : Job) (time : ℤ) : Prop := ∀ i, (job.env i).now = time

variable {task : TaskMessage} {world : World} {userId since time : ℤ} {env : ℕ → Env}

theorem not_stale_of_leased {r : FileMetadata} (hsince : since ≤ r.lockAcquiredAt)
    (hdue : time ≤ since + lockTimeoutSecs) : ¬ r.Stale time := by
  rintro ⟨-, hold⟩
  omega

/-! ## Tasks of other users -/

section Others

/-- The task has left the record and the content as they were, and if it is an `EDIT`
it has failed. -/
def Undisturbed (task : TaskMessage) (world : World) (resp : ResponseMessage) (world' : World) :
    Prop :=
  record? world'.metadata task.filename = record? world.metadata task.filename ∧
    content world'.tree task.filename = content world.tree task.filename ∧
    (task.operation = .edit → resp.status ≠ .success)

theorem undisturbed_answer {ok : Env → Prop} {world' : World} {result : String} {status : Status}
    {message data : Bytes}
    (hrecord : record? world'.metadata task.filename = record? world.metadata task.filename)
    (htree : world'.tree = world.tree) (hstatus : task.operation = .edit → status ≠ .success) :
    wp worker ok (answer task result status message data) (Undisturbed task world) world' :=
  wp_answer fun _ hmeta htree' => ⟨by rw [hmeta, hrecord], by rw [htree', htree], hstatus⟩

/-- A refusal before the first call that changes anything. -/
theorem undisturbed_refusal {ok : Env → Prop} {result : String} {status : Status}
    {message data : Bytes} (hstatus : status ≠ .success) :
    wp worker ok (answer task result status message data) (Undisturbed task world) world :=
  undisturbed_answer rfl rfl fun _ => hstatus

variable {r : FileMetadata} (hunique : UniqueNames world.metadata)
  (hr : record? world.metadata task.filename = some r)
  (hlocked : r.lockedByUserId ≠ -1) (hother : r.lockedByUserId ≠ task.userId)
  (hfresh : ¬ r.Stale time)

include hr hlocked hother

/-- `DELETE` and `ROLLBACK` read the holder through the record. -/
theorem lockedByOther_refused {i : Slot} {next : Bool → Prog WorkerCall ResponseMessage}
    (hi : record? world.metadata task.filename = some (world.metadata i))
    (hnext : wp worker (fun e => e.now = time) (next true) (Undisturbed task world) world) :
    wp worker (fun e => e.now = time) (lockedByOther task i >>= next) (Undisturbed task world)
      world := by
  obtain rfl := Option.some.inj (hr.symm.trans hi)
  refine wp_lockedByOther (fun _ _ => hnext) fun hopen => ?_
  exact absurd hopen (not_or.mpr ⟨hlocked, hother⟩)

include hunique hfresh

/-- `UPLOAD` finds the lock and reads its holder through the record. -/
theorem upload_refused : wp worker (fun e => e.now = time) (processUpload task)
    (Undisturbed task world) world := by
  simp only [processUpload, perform_bind]
  intro e he
  have hcheck := record?_checkEditLock task.filename hunique e.now
  rw [hr, Option.map_some, FileMetadata.checked, if_neg (he ▸ hfresh)] at hcheck
  have hsame : record? (checkEditLock world.metadata task.filename e.now).2 task.filename =
      some r := by
    rw [hcheck.1, Function.update_self]
  have hanswer : (checkEditLock world.metadata task.filename e.now).1.1 = true := by
    rw [checkEditLock_of_some hr, if_pos ⟨hlocked, he ▸ hfresh⟩]
  change wp _ _ (if (checkEditLock world.metadata task.filename e.now).1.1 = true then _ else _) _
    (onMetadata (checkEditLock world.metadata task.filename e.now) world).2
  rw [if_pos hanswer]
  refine wp_findFileMetadata (fun hnone => ?_) fun i hi => ?_
  · exact absurd (hsame.symm.trans hnone) (by simp)
  · obtain rfl := Option.some.inj (hsame.symm.trans hi)
    intro e' _
    dsimp only
    split
    · exact undisturbed_answer (hsame.trans hr.symm) rfl fun _ => by decide
    · next hown => exact absurd hother hown

theorem edit_refused : wp worker (fun e => e.now = time) (processEdit task)
    (Undisturbed task world) world := by
  simp only [processEdit, perform_bind]
  refine wp_findFileMetadata (fun _ => ?_) fun i hi => ?_
  · exact undisturbed_refusal (by decide)
  refine wp_notOwner (fun _ _ => ?_) fun _ => ?_
  · intro e _
    exact undisturbed_refusal (by decide)
  obtain rfl := Option.some.inj (hr.symm.trans hi)
  refine wp_acquireEditLock_of_some hi (fun e he hopen => ?_) fun e he _ _ _ => ?_
  · rcases hopen with h | h | h
    · exact absurd h hlocked
    · exact absurd h (he ▸ hfresh)
    · exact absurd h hother
  have hacquire := record?_acquireEditLock task.filename hunique task.userId task.username e.now
  have hheld : ¬ ((world.metadata i).lockedByUserId = -1 ∨ (world.metadata i).Stale e.now) :=
    not_or.mpr ⟨hlocked, he ▸ hfresh⟩
  rw [hr, Option.map_some, FileMetadata.acquired, if_neg hheld] at hacquire
  have hsame : record? (acquireEditLock world.metadata task.filename task.userId task.username
      e.now).2 task.filename = some (world.metadata i) := by
    rw [hacquire.1, Function.update_self]
  intro e' he'
  have hcheck := record?_checkEditLock task.filename hacquire.2 e'.now
  rw [hsame, Option.map_some, FileMetadata.checked, if_neg (he' ▸ hfresh)] at hcheck
  have hkept := congrFun hcheck.1 task.filename
  rw [Function.update_self] at hkept
  exact undisturbed_answer (hkept.trans hr.symm) rfl fun _ => by decide

omit hunique hfresh in
theorem delete_refused : wp worker (fun e => e.now = time) (processDelete task)
    (Undisturbed task world) world := by
  simp only [processDelete, perform_bind]
  refine wp_findFileMetadata (fun _ => ?_) fun i hi => ?_
  · exact undisturbed_refusal (by decide)
  refine wp_notOwner (fun _ _ => undisturbed_refusal (by decide)) fun _ => ?_
  refine lockedByOther_refused hr hlocked hother hi ?_
  intro e _
  exact undisturbed_refusal (by decide)

omit hunique hfresh in
theorem rollback_refused : wp worker (fun e => e.now = time) (processRollback task)
    (Undisturbed task world) world := by
  simp only [processRollback, perform_bind]
  refine wp_findFileMetadata (fun _ => ?_) fun i hi => ?_
  · exact undisturbed_refusal (by decide)
  refine wp_notOwner (fun _ _ => ?_) fun _ => ?_
  · intro e _
    exact undisturbed_refusal (by decide)
  refine lockedByOther_refused hr hlocked hother hi ?_
  exact fun _ _ => ⟨rfl, rfl, fun _ => by simp [reply]⟩

omit hunique hlocked hfresh in
theorem save_refused : wp worker (fun e => e.now = time) (processSave task)
    (Undisturbed task world) world := by
  simp only [processSave]
  split
  · exact undisturbed_refusal (by decide)
  simp only [perform_bind]
  refine wp_findFileMetadata (fun _ => ?_) fun i hi => ?_
  · exact ⟨rfl, rfl, fun _ => by simp [reply]⟩
  obtain rfl := Option.some.inj (hr.symm.trans hi)
  intro e _
  dsimp only
  split
  · exact undisturbed_refusal (by decide)
  · next hown => exact absurd hother hown

omit hfresh in
theorem unlock_refused : wp worker (fun e => e.now = time) (processUnlock task)
    (Undisturbed task world) world := by
  simp only [processUnlock, perform_bind]
  intro e _
  have hrelease := record?_releaseEditLock task.filename hunique task.userId
  have hkept : ¬ (r.lockedByUserId ≠ -1 ∧ r.lockedByUserId = task.userId) := fun h => hother h.2
  rw [hr, Option.map_some, FileMetadata.releasedBy, if_neg hkept] at hrelease
  have hsame := congrFun hrelease.1 task.filename
  rw [Function.update_self] at hsame
  have hanswer : (releaseEditLock world.metadata task.filename task.userId).1 = -2 := by
    rw [releaseEditLock_of_some hr, if_neg (not_or.mpr ⟨hlocked, hother⟩)]
  change wp _ _ (if (releaseEditLock world.metadata task.filename task.userId).1 = -1 then _ else
    if (releaseEditLock world.metadata task.filename task.userId).1 = -2 then _ else _) _
    (onMetadata (releaseEditLock world.metadata task.filename task.userId) world).2
  rw [hanswer, if_neg (by decide), if_pos rfl]
  exact undisturbed_answer (hsame.trans hr.symm) rfl fun _ => by decide

omit hunique hr hlocked hother hfresh in
/-- `DELVERSION` may go through, but it is about the versions alone. -/
theorem delversion_refused (hname : StorageName task.filename) (hop : task.operation ≠ .edit) :
    wp worker (fun e => e.now = time) (processDelversion task) (Undisturbed task world) world := by
  simp only [processDelversion, perform_bind]
  refine wp_findFileMetadata (fun _ => ?_) fun i hi => ?_
  · exact undisturbed_refusal (by decide)
  refine wp_notOwner (fun _ _ => undisturbed_refusal (by decide)) fun _ => ?_
  intro e _
  have hcontent : content (worker.exec e (.deleteVersion task.filename task.targetVersion)
      world).2.tree task.filename = content world.tree task.filename := by
    refine content_exec e _ world separate_storageNames ?_ hname ?_
    · rintro f hf
      obtain rfl := Option.some.inj hf
      exact hname
    · exact Option.not_mem_none _
  dsimp only
  split <;> exact wp_answer fun _ hmeta htree =>
    ⟨by rw [hmeta]; rfl, by rw [htree, hcontent], fun h => absurd h hop⟩

end Others

/-- While a lease is in force, no task of another user gets past it. -/
theorem serve_of_leased (htime : ∀ i, (env i).now = time) (hname : StorageName task.filename)
    (hunique : UniqueNames world.metadata) (hid : userId ≠ -1) (hother : task.userId ≠ userId)
    (hleased : LeasedSince world.metadata task.filename userId since)
    (hdue : time ≤ since + lockTimeoutSecs) :
    Undisturbed task world (serve env task world).1 (serve env task world).2 := by
  obtain ⟨r, hr, rfl, hsince⟩ := hleased
  have hfresh := not_stale_of_leased hsince hdue
  by_cases hmodifies : task.operation.modifies = true
  · have hrefused : wp worker (fun e => e.now = time) (processTask task) (Undisturbed task world)
        world := by
      cases hop : task.operation <;> rw [hop] at hmodifies <;> simp only [processTask, hop]
      case upload => exact upload_refused hunique hr hid hother.symm hfresh
      case delete => exact delete_refused hr hid hother.symm
      case edit => exact edit_refused hunique hr hid hother.symm hfresh
      case save => exact save_refused hr hother.symm
      case unlock => exact unlock_refused hunique hr hid hother.symm
      case rollback => exact rollback_refused hr hid hother.symm
      case delversion => exact delversion_refused hname (by rw [hop]; decide)
      all_goals exact Bool.noConfusion hmodifies
    exact wp_run hrefused htime
  · have hreads := Bool.not_eq_true _ ▸ hmodifies
    obtain ⟨hrecord, hcontent, -⟩ :=
      serve_of_not_modifies env separate_storageNames hname hname hreads
    exact ⟨hrecord, hcontent, fun hop => absurd (by rw [hop]; rfl) hmodifies⟩

/-! ## Tasks of the holder -/

section Own

/-- The call is about the task's file and does not end a lease that is in force. -/
def KeepsLease (task : TaskMessage) : {β : Type} → WorkerCall β → Prop
  | _, .removeFileMetadata _ => False
  | _, .releaseEditLock _ _ => False
  | _, c => ∀ f ∈ c.filename, f = task.filename

/-- All calls of a program keep the lease. -/
abbrev Keeping {α : Type} (task : TaskMessage) (prog : Prog WorkerCall α) : Prop :=
  Obeys (Monitor.silent WorkerCall) (fun _ {_} c => KeepsLease task c) (fun _ => True) () prog

theorem keepsLease_of_own {f : Bytes} (hf : f ∈ some task.filename) : f = task.filename :=
  (Option.some.inj hf).symm

theorem keepsLease_of_none {f : Bytes} (hf : f ∈ (none : Option Bytes)) : f = task.filename :=
  absurd hf (Option.not_mem_none f)

theorem keeping_answer (result : String) (status : Status) (message data : Bytes) :
    Keeping task (answer task result status message data) := by
  simp only [answer, audit, perform_bind, pure_eq_ret]
  exact ⟨fun _ => keepsLease_of_none, fun _ => trivial⟩

theorem keeping_notOwner (i : Slot) : Keeping task (notOwner task i) := by
  unfold notOwner
  exact obeys_ite trivial ⟨fun _ => keepsLease_of_none, fun _ => trivial⟩

theorem keeping_lockedByOther (i : Slot) : Keeping task (lockedByOther task i) := by
  simp only [lockedByOther, perform_bind]
  refine ⟨fun _ => keepsLease_of_none, fun holder => ?_⟩
  exact obeys_ite trivial ⟨fun _ => keepsLease_of_none, fun _ => trivial⟩

theorem keeping_uploadOwned : Keeping task (uploadOwned task) := by
  have hwrite : Keeping task (uploadWrite task) := by
    simp only [uploadWrite, perform_bind]
    refine ⟨fun _ => keepsLease_of_own, fun written => obeys_ite (keeping_answer ..) ?_⟩
    refine ⟨fun _ => keepsLease_of_own, fun added => obeys_ite ?_ (keeping_answer ..)⟩
    exact ⟨fun _ => keepsLease_of_own, fun _ => keeping_answer ..⟩
  simp only [uploadOwned, perform_bind]
  refine ⟨fun _ => keepsLease_of_own, fun existing => ?_⟩
  cases existing with
  | none => exact hwrite
  | some i =>
      refine (keeping_notOwner i).bind fun _ refused _ => obeys_ite ?_ ?_
      · exact ⟨fun _ => keepsLease_of_none, fun _ => keeping_answer ..⟩
      · refine ⟨fun _ => keepsLease_of_none, fun version => ?_⟩
        exact ⟨fun _ => keepsLease_of_own, fun _ => hwrite⟩

theorem keeping_processUpload : Keeping task (processUpload task) := by
  simp only [processUpload, perform_bind]
  refine ⟨fun _ => keepsLease_of_own, fun locked => obeys_ite ?_ keeping_uploadOwned⟩
  refine ⟨fun _ => keepsLease_of_own, fun existing => ?_⟩
  cases existing with
  | none => exact keeping_uploadOwned
  | some i =>
      refine ⟨fun _ => keepsLease_of_none, fun holder => ?_⟩
      exact obeys_ite (keeping_answer ..) keeping_uploadOwned

theorem keeping_processRollback : Keeping task (processRollback task) := by
  simp only [processRollback, perform_bind]
  refine ⟨fun _ => keepsLease_of_own, fun existing => ?_⟩
  cases existing with
  | none => exact keeping_answer ..
  | some i =>
      refine (keeping_notOwner i).bind fun _ refused _ => obeys_ite ?_ ?_
      · exact ⟨fun _ => keepsLease_of_none, fun _ => keeping_answer ..⟩
      refine (keeping_lockedByOther i).bind fun _ locked _ => obeys_ite ?_ ?_
      · exact ⟨fun _ => keepsLease_of_none, fun _ => trivial⟩
      simp only [rollbackRestore, perform_bind]
      refine ⟨fun _ => keepsLease_of_none, fun version => ?_⟩
      refine ⟨fun _ => keepsLease_of_own, fun saved => ?_⟩
      refine ⟨fun _ => keepsLease_of_own, fun newSize => obeys_ite (keeping_answer ..) ?_⟩
      exact ⟨fun _ => keepsLease_of_own, fun _ => keeping_answer ..⟩

theorem keeping_processDelversion : Keeping task (processDelversion task) := by
  simp only [processDelversion, perform_bind]
  refine ⟨fun _ => keepsLease_of_own, fun existing => ?_⟩
  cases existing with
  | none => exact keeping_answer ..
  | some i =>
      refine (keeping_notOwner i).bind fun _ refused _ => obeys_ite (keeping_answer ..) ?_
      refine ⟨fun _ => keepsLease_of_own, fun result => ?_⟩
      exact obeys_ite (keeping_answer ..) (keeping_answer ..)

/-- A call that keeps leases keeps one that is in force. -/
theorem leased_exec {e : Env} {β : Type} {c : WorkerCall β} (hunique : UniqueNames world.metadata)
    (hcall : KeepsLease task c) (hid : userId ≠ -1) (hdue : e.now ≤ since + lockTimeoutSecs)
    (hleased : LeasedSince world.metadata task.filename userId since) :
    LeasedSince (worker.exec e c world).2.metadata task.filename userId since := by
  have hfile : ∀ f ∈ c.filename, f = task.filename := by
    cases c <;> first | exact hcall | exact hcall.elim
  obtain ⟨-, hothers, hstep⟩ := record?_exec e c hunique
    fun f hf => hfile f hf ▸ task.filename_length
  by_cases hmem : task.filename ∈ c.changesRecord
  · obtain ⟨r, hr, hholder, hsince⟩ := hleased
    have hfresh := not_stale_of_leased hsince hdue
    have hstep := hstep _ hmem
    rw [hr] at hstep
    unfold LeasedSince
    generalize record? (worker.exec e c world).2.metadata task.filename = after at hstep ⊢
    cases hstep with
    | checked =>
        have hkept : r.checked e.now = r := if_neg hfresh
        exact ⟨r, congrArg some hkept, hholder, hsince⟩
    | acquired userId' username =>
        have hkept : r.acquired userId' username e.now = r :=
          if_neg (not_or.mpr ⟨fun hfree => hid (hholder.symm.trans hfree), hfresh⟩)
        exact ⟨r, congrArg some hkept, hholder, hsince⟩
    | released => exact hcall.elim
    | removed => exact hcall.elim
    | updated => exact ⟨_, rfl, hholder, hsince⟩
    | added => exact ⟨_, rfl, hholder, hsince⟩
  · obtain ⟨r, hr, hkept⟩ := hleased
    exact ⟨r, (hothers _ hmem).trans hr, hkept⟩

/-- The holder's own `EDIT` changes nothing, unless it cannot read the file. -/
theorem leased_of_edit {ok : Env → Prop} (hok : ∀ e, ok e → e.now = time)
    (hunique : UniqueNames world.metadata) (hid : task.userId ≠ -1)
    (hdue : time ≤ since + lockTimeoutSecs)
    (hleased : LeasedSince world.metadata task.filename task.userId since) :
    wp worker ok (processEdit task) (fun resp world' => resp.status ≠ .error →
      LeasedSince world'.metadata task.filename task.userId since) world := by
  have hkept : ∀ {world' : World} {result : String} {status : Status} {message data : Bytes},
      LeasedSince world'.metadata task.filename task.userId since →
      wp worker ok (answer task result status message data) (fun resp world' =>
        resp.status ≠ .error → LeasedSince world'.metadata task.filename task.userId since)
        world' := by
    intro world' result status message data h
    exact wp_answer fun _ hmeta _ _ => hmeta ▸ h
  simp only [processEdit, perform_bind]
  refine wp_findFileMetadata (fun _ => hkept hleased) fun i _ => ?_
  refine wp_notOwner (fun _ _ _ _ => hkept hleased) fun _ => ?_
  intro e he
  have hacquired : LeasedSince (worker.exec e (.acquireEditLock task.filename task.userId
      task.username) world).2.metadata task.filename task.userId since :=
    leased_exec hunique (fun _ => keepsLease_of_own) hid (hok e he ▸ hdue) hleased
  have hunique' : UniqueNames (worker.exec e (.acquireEditLock task.filename task.userId
      task.username) world).2.metadata :=
    (record?_acquireEditLock task.filename hunique task.userId task.username e.now).2
  dsimp only
  split
  · exact hkept hacquired
  split
  · intro e' he'
    exact hkept (leased_exec hunique' (fun _ => keepsLease_of_own) hid (hok e' he' ▸ hdue) hacquired)
  intro e' _
  dsimp only
  split
  · intro e'' _
    exact wp_answer fun _ _ _ herror => absurd rfl herror
  · exact hkept hacquired

/-- The holder gives the lease up: with `SAVE`, `UNLOCK` or `DELETE`, or with an `EDIT`
that cannot read the file. -/
def EndsLease (task : TaskMessage) (resp : ResponseMessage) : Prop :=
  task.operation = .save ∨ task.operation = .unlock ∨ task.operation = .delete ∨
    (task.operation = .edit ∧ resp.status = .error)

/-- A task of the holder that does not give the lease up keeps it. -/
theorem leased_of_own (htime : ∀ i, (env i).now = time) (hname : StorageName task.filename)
    (hunique : UniqueNames world.metadata) (hid : task.userId ≠ -1)
    (hleased : LeasedSince world.metadata task.filename task.userId since)
    (hdue : time ≤ since + lockTimeoutSecs) (hkeeps : ¬ EndsLease task (serve env task world).1) :
    LeasedSince (serve env task world).2.metadata task.filename task.userId since := by
  have hkeeping : Keeping task (processTask task) →
      LeasedSince (serve env task world).2.metadata task.filename task.userId since := by
    intro htext
    obtain ⟨-, -, h⟩ := htext.run (I := fun (_ : Unit) (world' : World) =>
      UniqueNames world'.metadata ∧
        LeasedSince world'.metadata task.filename task.userId since)
      (fun _ world' i β c hI hcall => by
        have hfile : ∀ f ∈ c.filename, f.length < maxFilename := by
          intro f hf
          have hown : f = task.filename := by
            cases c <;> first | exact hcall f hf | exact hcall.elim
          exact hown ▸ task.filename_length
        exact ⟨(record?_exec (env i) c hI.1 hfile).1,
          leased_exec hI.1 hcall hid (htime i ▸ hdue) hI.2⟩) ⟨hunique, hleased⟩
    exact h
  unfold EndsLease at hkeeps
  by_cases hmodifies : task.operation.modifies = true
  · cases hop : task.operation <;> rw [hop] at hmodifies
    case upload => exact hkeeping (by unfold processTask; rw [hop]; exact keeping_processUpload)
    case rollback => exact hkeeping (by unfold processTask; rw [hop]; exact keeping_processRollback)
    case delversion =>
      exact hkeeping (by unfold processTask; rw [hop]; exact keeping_processDelversion)
    case edit =>
      have hserve : serve env task world = (processEdit task).run worker env world := by
        unfold serve processTask
        rw [hop]
      have hedit := leased_of_edit (fun e (h : e.now = time) => h) hunique hid hdue hleased
      rw [hserve] at hkeeps ⊢
      refine wp_run hedit htime fun herror => hkeeps ?_
      exact Or.inr (Or.inr (Or.inr ⟨hop, herror⟩))
    case save => exact absurd (Or.inl hop) hkeeps
    case unlock => exact absurd (Or.inr (Or.inl hop)) hkeeps
    case delete => exact absurd (Or.inr (Or.inr (Or.inl hop))) hkeeps
    all_goals exact Bool.noConfusion hmodifies
  · obtain ⟨hrecord, -, -⟩ := serve_of_not_modifies env separate_storageNames hname hname
      (Bool.not_eq_true _ ▸ hmodifies)
    unfold LeasedSince
    rw [hrecord]
    exact hleased

end Own

/-! ## The lease an edit grants -/

/-- A run from the end of an `EDIT` at time `since` on: each task is processed at one
time, and the clock does not go back. -/
structure Continues (since : ℤ) (jobs : ℕ → Job) (time : ℕ → ℤ) : Prop where
  names : ∀ n, StorageName (jobs n).task.filename
  at_time : ∀ n, (jobs n).At (time n)
  later : since ≤ time 0
  monotone : ∀ ⦃m n⦄, m ≤ n → time m ≤ time n

/-- In every run that goes on from here, until its user gives the lock of `f` up, no
task of another user within the time of the lease changes the content, the version
or the holder of `f`, and no `EDIT` of `f` by another user succeeds. -/
def ExclusiveLease (world : World) (f : Bytes) (userId since : ℤ) : Prop :=
  ∀ jobs time, Continues since jobs time → ∀ n,
    (∀ j < n, (jobs j).task.userId = userId → (jobs j).task.filename = f →
      ¬ EndsLease (jobs j).task (response jobs world j)) →
    (jobs n).task.userId ≠ userId → time n ≤ since + lockTimeoutSecs →
      content (worldAfter jobs world (n + 1)).tree f = content (worldAfter jobs world n).tree f ∧
      (record? (worldAfter jobs world (n + 1)).metadata f).map (fun r =>
          (r.version, r.lockedByUserId)) =
        (record? (worldAfter jobs world n).metadata f).map (fun r =>
          (r.version, r.lockedByUserId)) ∧
      ((jobs n).task.operation = .edit → (jobs n).task.filename = f →
        (response jobs world n).status ≠ .success)

section Runs

variable {jobs : ℕ → Job} {times : ℕ → ℤ} {f : Bytes}

/-- The holder keeps the lease within its time. -/
theorem leased_run (hrun : Continues since jobs times)
    (hunique : UniqueNames world.metadata) (hid : userId ≠ -1)
    (hleased : LeasedSince world.metadata f userId since) (n : ℕ)
    (hkeeps : ∀ j < n, (jobs j).task.userId = userId → (jobs j).task.filename = f →
      ¬ EndsLease (jobs j).task (response jobs world j))
    (hdue : ∀ j < n, times j ≤ since + lockTimeoutSecs) :
    LeasedSince (worldAfter jobs world n).metadata f userId since := by
  induction n with
  | zero => exact hleased
  | succ n ih =>
      have hbefore := ih (fun j hj => hkeeps j (by omega)) fun j hj => hdue j (by omega)
      have hunique' := worldAfter_unique jobs hunique n
      have hdue' := hdue n (Nat.lt_succ_self n)
      by_cases hfile : (jobs n).task.filename = f
      · subst hfile
        by_cases huser : (jobs n).task.userId = userId
        · subst huser
          exact leased_of_own (hrun.at_time n) (hrun.names n) hunique' hid hbefore hdue'
            (hkeeps n (Nat.lt_succ_self n) rfl rfl)
        · obtain ⟨hrecord, -, -⟩ := serve_of_leased (hrun.at_time n) (hrun.names n) hunique' hid
            huser hbefore hdue'
          obtain ⟨r, hr, hkept⟩ := hbefore
          exact ⟨r, hrecord.trans hr, hkept⟩
      · obtain ⟨r, hr, hkept⟩ := hbefore
        exact ⟨r, (serve_record?_of_ne _ hunique' (Ne.symm hfile)).trans hr, hkept⟩

/-- A lease in force is exclusive. -/
theorem exclusive_of_leased (hf : StorageName f) (hunique : UniqueNames world.metadata)
    (hid : userId ≠ -1) (hleased : LeasedSince world.metadata f userId since) :
    ExclusiveLease world f userId since := by
  intro jobs times hrun n hkeeps hother hdue
  have hdue' : ∀ j < n, times j ≤ since + lockTimeoutSecs :=
    fun j hj => (hrun.monotone hj.le).trans hdue
  have hlease := leased_run hrun hunique hid hleased n hkeeps hdue'
  have hunique' := worldAfter_unique jobs hunique n
  by_cases hfile : (jobs n).task.filename = f
  · subst hfile
    obtain ⟨hrecord, hcontent, hedit⟩ := serve_of_leased (hrun.at_time n) (hrun.names n) hunique'
      hid hother hlease hdue
    exact ⟨hcontent, congrArg _ hrecord, fun hop _ => hedit hop⟩
  · refine ⟨?_, ?_, fun _ h => absurd h hfile⟩
    · exact serve_content_of_ne _ separate_storageNames (hrun.names n) hf (Ne.symm hfile)
    · exact congrArg _ (serve_record?_of_ne _ hunique' (Ne.symm hfile))

end Runs

section Edit

/-- A successful `EDIT` has found the lock free, stale or its own. -/
theorem record_of_edit (htime : ∀ i, (env i).now = time) (hunique : UniqueNames world.metadata)
    (hop : task.operation = .edit) (hsuccess : (serve env task world).1.status = .success) :
    ∃ r, record? world.metadata task.filename = some r ∧
      (r.lockedByUserId = -1 ∨ r.Stale time ∨ r.lockedByUserId = task.userId) ∧
      record? (serve env task world).2.metadata task.filename =
        some (r.acquired task.userId task.username time) := by
  have hserve : serve env task world = (processEdit task).run worker env world := by
    unfold serve processTask
    rw [hop]
  rw [hserve] at hsuccess ⊢
  have hwp : wp worker (fun e => e.now = time) (processEdit task) (fun resp world' =>
      resp.status = .success → ∃ r, record? world.metadata task.filename = some r ∧
        (r.lockedByUserId = -1 ∨ r.Stale time ∨ r.lockedByUserId = task.userId) ∧
        record? world'.metadata task.filename =
          some (r.acquired task.userId task.username time)) world := by
    simp only [processEdit, perform_bind]
    refine wp_findFileMetadata (fun _ => ?_) fun i hi => ?_
    · exact wp_answer fun _ _ _ h => absurd h (by simp [reply])
    refine wp_notOwner (fun _ _ _ _ => wp_answer fun _ _ _ h => absurd h (by simp [reply]))
      fun _ => ?_
    refine wp_acquireEditLock_of_some hi ?_ ?_
    · rintro e rfl hopen
      have hacquired := congrFun (record?_acquireEditLock task.filename hunique task.userId
        task.username e.now).1 task.filename
      rw [Function.update_self, hi, Option.map_some] at hacquired
      intro e' _
      dsimp only
      split
      · intro e'' _
        exact wp_answer fun _ _ _ h => absurd h (by simp [reply])
      · exact wp_answer fun _ hmeta _ _ => ⟨_, hi, hopen, hmeta ▸ hacquired⟩
    · intro e _ _ _ _ e' _
      exact wp_answer fun _ _ _ h => absurd h (by simp [reply])
  exact wp_run hwp htime hsuccess

/-- The same `EDIT` by an admin with the next user id. -/
def rivalEdit (task : TaskMessage) : TaskMessage :=
  { task with operation := .edit, userId := task.userId + 1, role := roleAdmin }

/-- The admin takes over a stale lock. -/
theorem rival_takes_over {r : FileMetadata} (hunique : UniqueNames world.metadata)
    (hid : task.userId ≠ -1)
    (hr : record? world.metadata task.filename = some r) (hstale : r.Stale time) :
    ¬ LockedBy (serve (fun _ => Env.calm time) (rivalEdit task) world).2.metadata task.filename
      task.userId := by
  have hother : (rivalEdit task).userId ≠ task.userId := by
    show task.userId + 1 ≠ task.userId
    omega
  have hwp : wp worker (fun e => e.now = time) (processEdit (rivalEdit task)) (fun _ world' =>
      ∀ q ∈ record? world'.metadata task.filename, q.lockedByUserId ≠ task.userId) world := by
    simp only [processEdit, perform_bind]
    refine wp_findFileMetadata (fun hnone => absurd (hr.symm.trans hnone) (by simp)) fun i hi => ?_
    obtain rfl := Option.some.inj (hr.symm.trans hi)
    refine wp_notOwner (fun hrole _ => absurd rfl hrole) fun _ => ?_
    refine wp_acquireEditLock_of_some hi ?_ fun e he _ hfresh _ =>
      absurd hstale (he.symm ▸ hfresh)
    rintro e rfl -
    have hgranted : (world.metadata i).acquired (rivalEdit task).userId (rivalEdit task).username
        e.now = (world.metadata i).granted (rivalEdit task).userId (rivalEdit task).username
          e.now := if_pos (Or.inr hstale)
    have hacquired := congrFun (record?_acquireEditLock task.filename hunique
      (rivalEdit task).userId (rivalEdit task).username e.now).1 task.filename
    have hunique' := (record?_acquireEditLock task.filename hunique
      (rivalEdit task).userId (rivalEdit task).username e.now).2
    rw [Function.update_self, hr, Option.map_some, hgranted] at hacquired
    intro e' _
    dsimp only
    split
    · intro e'' _
      refine wp_answer fun world' hmeta _ q hq => ?_
      have hreleased := congrFun (record?_releaseEditLock task.filename hunique'
        (rivalEdit task).userId).1 task.filename
      rw [Function.update_self, hacquired, Option.map_some] at hreleased
      rw [hmeta] at hq
      obtain rfl := Option.some.inj (hreleased.symm.trans hq)
      unfold FileMetadata.releasedBy
      split
      · exact hid.symm
      · exact hother
    · refine wp_answer fun world' hmeta _ q hq => ?_
      rw [hmeta] at hq
      obtain rfl := Option.some.inj (hacquired.symm.trans hq)
      exact hother
  rintro ⟨q, hq, hholder⟩
  exact wp_run hwp (fun _ => rfl) q hq hholder

/-- The `EDIT` takes the lock: its user does not hold it already, unless the lock is
stale or has been taken at this very time. -/
def TakesLock (task : TaskMessage) (world : World) (time : ℤ) : Prop :=
  ∀ r ∈ record? world.metadata task.filename, r.lockedByUserId = task.userId →
    ¬ r.Stale time → time ≤ r.lockAcquiredAt

/-- Where an `EDIT` has not taken the lock, its lease is stale before its time. -/
theorem takesLock_of_exclusive (htime : ∀ i, (env i).now = time) (hname : StorageName task.filename)
    (hunique : UniqueNames world.metadata) (hid : task.userId ≠ -1) (hop : task.operation = .edit)
    (hsuccess : (serve env task world).1.status = .success)
    (hexclusive : ExclusiveLease (serve env task world).2 task.filename task.userId time) :
    TakesLock task world time := by
  obtain ⟨r, hr, hopen, hafter⟩ := record_of_edit htime hunique hop hsuccess
  intro q hq hholder hfresh
  obtain rfl := Option.some.inj (hr.symm.trans hq)
  by_contra hearlier
  have hlocked : r.lockedByUserId ≠ -1 := fun h => hid (hholder.symm.trans h)
  rw [FileMetadata.acquired, if_neg (not_or.mpr ⟨hlocked, hfresh⟩)] at hafter
  -- in the last second of the lease an admin can take the lock over
  have hstale : r.Stale (time + lockTimeoutSecs) := ⟨hlocked, by omega⟩
  have hrun : Continues time (fun _ => ⟨fun _ => Env.calm (time + lockTimeoutSecs),
      rivalEdit task⟩) (fun _ => time + lockTimeoutSecs) :=
    { names := fun _ => hname
      at_time := fun _ _ => rfl
      later := by
        unfold lockTimeoutSecs
        omega
      monotone := fun _ _ _ => le_rfl }
  have hother : (rivalEdit task).userId ≠ task.userId := by
    show task.userId + 1 ≠ task.userId
    omega
  obtain ⟨-, hsame, -⟩ := hexclusive _ _ hrun 0 (fun j hj => absurd hj (Nat.not_lt_zero j))
    hother le_rfl
  apply rival_takes_over (serve_unique env hunique) hid hafter hstale
  change (record? (serve (fun _ => Env.calm (time + lockTimeoutSecs)) (rivalEdit task)
    (serve env task world).2).2.metadata task.filename).map _ =
      (record? (serve env task world).2.metadata task.filename).map _ at hsame
  rw [hafter, Option.map_some] at hsame
  obtain ⟨q, hq, hpair⟩ := Option.map_eq_some_iff.mp hsame
  exact ⟨q, hq, (Prod.mk.inj hpair).2.trans hholder⟩

/-- A successful `EDIT` gives an exclusive lease for the full time if and only if it has
taken the lock. -/
theorem lease_iff (htime : ∀ i, (env i).now = time) (hname : StorageName task.filename)
    (hunique : UniqueNames world.metadata) (hid : task.userId ≠ -1) (hop : task.operation = .edit)
    (hsuccess : (serve env task world).1.status = .success) :
    ExclusiveLease (serve env task world).2 task.filename task.userId time ↔
      TakesLock task world time := by
  constructor
  · exact takesLock_of_exclusive htime hname hunique hid hop hsuccess
  · intro htakes
    obtain ⟨r, hr, hopen, hafter⟩ := record_of_edit htime hunique hop hsuccess
    refine exclusive_of_leased hname (serve_unique env hunique) hid ⟨_, hafter, ?_⟩
    by_cases hgranted : r.lockedByUserId = -1 ∨ r.Stale time
    · rw [FileMetadata.acquired, if_pos hgranted]
      exact ⟨rfl, le_rfl⟩
    · rw [FileMetadata.acquired, if_neg hgranted]
      obtain ⟨hlocked, hfresh⟩ := not_or.mp hgranted
      have hholder := (hopen.resolve_left hlocked).resolve_left hfresh
      exact ⟨hholder, htakes r hr hholder hfresh⟩

end Edit

/-! ## An edit that is renewed -/

/-- User 2 edits `a`. -/
def editTask : TaskMessage := sampleTask .edit 2 roleUser ""

/-- User 2 has edited `a` at time 0. -/
def editedWorld : World := (serve (fun _ => Env.calm 0) editTask uploadedOnce).2

theorem uploadedOnce_unique : UniqueNames uploadedOnce.metadata :=
  serve_unique _ initMetadata_unique

/-- The first `EDIT` takes the lock. -/
theorem lease_of_first_edit : ExclusiveLease editedWorld (text "a") 2 0 := by
  have hfree : (record? uploadedOnce.metadata (text "a")).map FileMetadata.lockedByUserId =
      some (-1) := by decide +kernel
  refine (@lease_iff editTask uploadedOnce 0 _ (fun _ => rfl) (by decide) uploadedOnce_unique
    (by decide) rfl (by decide +kernel)).mpr ?_
  intro r hr hholder
  have hnobody : r.lockedByUserId = -1 := by
    rw [show record? uploadedOnce.metadata (text "a") = some r from hr, Option.map_some] at hfree
    exact Option.some.inj hfree
  exact absurd (hnobody.symm.trans hholder) (by decide)

/-- A second `EDIT` by the same user at time 200 succeeds, but its lease does not last
until time 500. -/
theorem renewed_edit :
    (serve (fun _ => Env.calm 200) editTask editedWorld).1.status = .success ∧
      ¬ ExclusiveLease (serve (fun _ => Env.calm 200) editTask editedWorld).2 (text "a") 2 200 := by
  have hsuccess : (serve (fun _ => Env.calm 200) editTask editedWorld).1.status = .success := by
    decide +kernel
  refine ⟨hsuccess, fun hexclusive => ?_⟩
  have htakes := @takesLock_of_exclusive editTask editedWorld 200 _ (fun _ => rfl) (by decide)
    (serve_unique _ uploadedOnce_unique) (by decide) rfl hsuccess hexclusive
  have hheld : (record? editedWorld.metadata (text "a")).any (fun r =>
      decide (r.lockedByUserId = 2 ∧ r.lockAcquiredAt = 0)) = true := by decide +kernel
  obtain ⟨r, hr, hlock⟩ := (Option.any_eq_true _ _).mp hheld
  obtain ⟨hholder, hacquired⟩ := of_decide_eq_true hlock
  have hfresh : ¬ r.Stale 200 := by
    rintro ⟨-, hold⟩
    rw [hacquired] at hold
    exact absurd hold (by decide)
  have hsince := htakes r hr hholder hfresh
  omega

end CloudSync
