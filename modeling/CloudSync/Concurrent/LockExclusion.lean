import CloudSync.Concurrent.Workers
import CloudSync.Sequential.Holds

/-!
# Edit locks among concurrent workers

`Grants` remembers what `acquire_edit_lock` has granted: from then on until the
lock is given up or has been held too long, whatever the record shows.
`LockExclusion` says that a granted lock keeps other users from writing.

Between the lock check of a task and its last write other workers make their
calls.  A task is `Armed` while it has passed its lock check and may still write
the file or remove its record, and the lock with it.  Locks exclude other
writers as long as nobody is granted the lock of a file while another user's
task is armed on it, and no check reads the holder through a pointer to a slot
that has changed hands (`LockOrder`): then an armed task would find the lock free
or its own at every moment (`lockFree_of_lockOrder`), and every lock granted is
shown by the record (`shown_of_reach`).

Nothing in the program keeps workers to that, and `edit_between_check_and_write`
shows what happens: an `EDIT` is granted between the check of an `UPLOAD` and
its write.
-/

namespace CloudSync

open CText Calls Calls.Prog Files

/-! ## What has been granted -/

/-- An edit lock that was granted: the user it was granted, and since when it is held. -/
structure Grant where
  holder : ℤ
  since : ℤ
deriving DecidableEq

namespace Grant

/-- The lock has been held for more than `lockTimeoutSecs`. -/
def Over (grant : Grant) (now : ℤ) : Prop := now - grant.since > lockTimeoutSecs

instance (grant : Grant) (now : ℤ) : Decidable (grant.Over now) :=
  inferInstanceAs (Decidable (_ > _))

/-- The record shows the lock. -/
def ShownBy (grant : Grant) (r : FileMetadata) : Prop :=
  r.lockedByUserId = grant.holder ∧ r.lockAcquiredAt = grant.since

end Grant

/-- The granted locks, by file. -/
abbrev Grants := Bytes → Option Grant

/-- The locks that are held at the beginning: those the records show. -/
def heldLocks (metaArray : MetaArray) : Grants := fun f =>
  (record? metaArray f).bind fun r =>
    if r.lockedByUserId = -1 then none else some ⟨r.lockedByUserId, r.lockAcquiredAt⟩

namespace Grants

/-- Without the locks that have been held too long. -/
def lapse (now : ℤ) (grants : Grants) : Grants := fun f =>
  (grants f).filter fun grant => ¬ grant.Over now

/-- The user holds no lock of `f` any more. -/
def giveUp (f : Bytes) (userId : ℤ) (grants : Grants) : Grants :=
  Function.update grants f ((grants f).filter fun grant => grant.holder ≠ userId)

/-- What a call of a user's task makes of the grants.  A lock is granted where
`acquire_edit_lock` answers 0; the time it is held from is that of the record, for a
holder who asks again does not get more of it.  It is given up by the holder, who
releases it or deletes the file. -/
def afterCall (userId : ℤ) (e : Env) (metaArray : MetaArray) :
    {β : Type} → WorkerCall β → Grants → Grants
  | _, .acquireEditLock f holder username, grants =>
      let (answer, metaArray') := acquireEditLock metaArray f holder username e.now
      if answer = 0 then
        Function.update grants f ((record? metaArray' f).map fun r => ⟨holder, r.lockAcquiredAt⟩)
      else grants
  | _, .releaseEditLock f holder, grants => grants.giveUp f holder
  | _, .removeFileMetadata f, grants => grants.giveUp f userId
  | _, _, grants => grants

theorem mem_lapse {grants : Grants} {now : ℤ} {f : Bytes} {grant : Grant} :
    grant ∈ grants.lapse now f ↔ grant ∈ grants f ∧ ¬ grant.Over now := by
  rw [lapse, Option.mem_filter_iff, decide_eq_true_eq]

theorem mem_giveUp {grants : Grants} {f f' : Bytes} {userId : ℤ} {grant : Grant}
    (hgrant : grant ∈ grants.giveUp f' userId f) :
    grant ∈ grants f ∧ (f' = f → grant.holder ≠ userId) := by
  by_cases hf : f = f'
  · subst hf
    rw [giveUp, Function.update_self] at hgrant
    obtain ⟨hmem, hother⟩ := Option.mem_filter_iff.mp hgrant
    exact ⟨hmem, fun _ => of_decide_eq_true hother⟩
  · rw [giveUp, Function.update_of_ne hf] at hgrant
    exact ⟨hgrant, fun hf' => absurd hf'.symm hf⟩

/-- A lock that is in force after a call was granted by it, and the record shows it;
or it was in force before and has not been given up. -/
theorem mem_afterCall {β : Type} {c : WorkerCall β} {userId : ℤ} {e : Env} {world : World}
    (hunique : UniqueNames world.metadata) {grants : Grants} {f : Bytes} {grant : Grant}
    (hgrant : grant ∈ grants.afterCall userId e world.metadata c f) :
    (c.locks = some (f, grant.holder) ∧
      ∃ r ∈ record? (worker.exec e c world).2.metadata f, grant.ShownBy r) ∨
    (grant ∈ grants f ∧ c.releases ≠ some (f, grant.holder) ∧
      (c.removesRecord = some f → grant.holder ≠ userId)) := by
  cases c with
  | acquireEditLock f' holder username =>
      simp only [afterCall] at hgrant
      split at hgrant
      · next hzero =>
        by_cases hf : f = f'
        · subst hf
          rw [Function.update_self] at hgrant
          obtain ⟨r, hr, rfl⟩ := Option.map_eq_some_iff.mp hgrant
          exact Or.inl ⟨rfl, r, hr, lockedByUserId_of_granted hunique hzero r hr, rfl⟩
        · rw [Function.update_of_ne hf] at hgrant
          exact Or.inr ⟨hgrant, nofun, nofun⟩
      · exact Or.inr ⟨hgrant, nofun, nofun⟩
  | releaseEditLock f' holder =>
      obtain ⟨hmem, hother⟩ := mem_giveUp hgrant
      refine Or.inr ⟨hmem, fun hreleases => ?_, nofun⟩
      obtain ⟨rfl, hholder⟩ := Prod.mk.inj (Option.some.inj hreleases)
      exact hother rfl hholder.symm
  | removeFileMetadata f' =>
      obtain ⟨hmem, hother⟩ := mem_giveUp hgrant
      exact Or.inr ⟨hmem, nofun, fun hremoves => hother (Option.some.inj hremoves)⟩
  | _ => exact Or.inr ⟨hgrant, nofun, nofun⟩

end Grants

variable {ι : Type} [DecidableEq ι] (task : ι → TaskMessage)

/-- The grants after a step: time has passed, and a call was made. -/
def enterGrant (workers : Workers ι) (i : ι) (e : Env) (grants : Grants) : Grants :=
  match (workers.thread i).prog with
  | .ret _ => grants.lapse e.now
  | .call c _ => (grants.lapse e.now).afterCall (task i).userId e workers.shared.metadata c

/-- The states reached by steps that satisfy `allowed`, with the locks in force there. -/
abbrev LocksReach (allowed : Workers ι → ι → Env → Prop) (world : World) :
    Workers ι → Grants → Prop :=
  ReachWith worker (fun i => standing (task i)) (enterGrant task) (fun workers _ => allowed workers)
    (Workers.start task world) (heldLocks world.metadata)

/-- A step of one user's task leaves alone the content of a file whose edit lock
was granted to another user, if it has not been given up or held for too long. -/
def LockExclusion (names : Set Bytes) (workers : Workers ι) (grants : Grants) : Prop :=
  ∀ i e, ∀ f ∈ names, ∀ grant ∈ grants f, ¬ grant.Over e.now → (task i).userId ≠ grant.holder →
    content (workers.step task i e).shared.tree f = content workers.shared.tree f

/-! ## The order of steps -/

/-- The call takes away what a lock is to protect: it writes the content of `f`, or
removes its record and the lock with it. -/
def WorkerCall.Disturbs (f : Bytes) {β : Type} (c : WorkerCall β) : Prop :=
  f ∈ c.writesContent ∨ f ∈ c.removesRecord

/-- Task `i` has passed its lock check and may still write the content of its
file or remove its record. -/
abbrev Armed (workers : Workers ι) (i : ι) : Prop :=
  workers.Pending (fun g => g.lock = true) (WorkerCall.Disturbs (task i).filename) i

/-- The step grants no lock that another user's armed task has just found free,
and none to the user -1, for that is what a free lock says; and it looks for the
holder of the lock only where the record still is. -/
structure LockOrder (workers : Workers ι) (i : ι) (e : Env) : Prop where
  grant : ∀ f userId, (workers.thread i).prog.AtCall (fun c => c.locks = some (f, userId)) →
    (∃ r ∈ record? workers.shared.metadata f, r.lockedByUserId = -1 ∨ r.Stale e.now) →
      ∀ j, Armed task workers j → (task j).filename = f → (task j).userId = userId
  holder : ∀ f userId, (workers.thread i).prog.AtCall (fun c => c.locks = some (f, userId)) →
    userId ≠ -1
  look : ∀ slot, (workers.thread i).prog.AtCall (fun c => c.readsHolder = some slot) →
    Armed task (workers.step task i e) i →
      record? workers.shared.metadata (task i).filename = some (workers.shared.metadata slot)

/-- Nobody but the task's own user holds the lock of its file. -/
def LockFree (task : TaskMessage) (world : World) : Prop :=
  ∀ r ∈ record? world.metadata task.filename,
    r.lockedByUserId = -1 ∨ r.lockedByUserId = task.userId

variable {task} {workers : Workers ι} {i : ι} {e : Env}

/-- Where the lock check of a task passes, the lock is free or its own. -/
theorem lock_of_passed {β : Type} {c : WorkerCall β} {g : Standing} {t : TaskMessage}
    {world : World} (hunique : UniqueNames world.metadata) (hcall : Entitled t g c)
    (hbefore : g.lock ≠ true)
    (hafter : ((standing t).next g c (worker.exec e c world).1).lock = true)
    (hlook : ∀ slot, c.readsHolder = some slot →
      record? world.metadata t.filename = some (world.metadata slot)) :
    LockFree t (worker.exec e c world).2 := by
  intro r hr
  cases c with
  | findFileMetadata f =>
      obtain rfl : f = t.filename := hcall
      cases hfind : findFileMetadata world.metadata t.filename with
      | none =>
          rw [metadata_exec _ _ _ rfl, findFileMetadata_eq_none.mp hfind] at hr
          exact absurd hr (by simp)
      | some slot =>
          rw [show (worker.exec e (.findFileMetadata t.filename) world).1 = some slot from hfind]
            at hafter
          exact absurd hafter hbefore
  | checkEditLock f =>
      obtain ⟨rfl, -⟩ := hcall
      refine Or.inl (unlocked_of_checkEditLock hunique ?_ r hr)
      simpa [standing, worker, onMetadata] using hafter
  | lockedByUserId slot =>
      rw [metadata_exec _ _ _ rfl, hlook slot rfl] at hr
      obtain rfl := Option.some.inj hr
      simpa [standing, worker] using hafter
  | _ => exact absurd hafter hbefore

/-- A step in order keeps the lock free for an armed task. -/
theorem lockFree_exec {β : Type} {c : WorkerCall β} {next : β → Prog WorkerCall ResponseMessage}
    (hsound : Workers.Sound task workers) (horder : LockOrder task workers i e)
    (hprog : (workers.thread i).prog = .call c next) {j : ι} (harmed : Armed task workers j)
    (hfree : LockFree (task j) workers.shared) :
    LockFree (task j) (worker.exec e c workers.shared).2 := by
  intro r' hr'
  have hexec := record?_exec e c hsound.unique (hsound.entitled hprog).filename_length
  by_cases hmem : (task j).filename ∈ c.changesRecord
  · rcases (hexec.2.2 _ hmem).holder e r' hr' with hnone | ⟨r, hr, hsame | ⟨hlocks, hopen⟩⟩
    · exact Or.inl hnone
    · exact hsame ▸ hfree r hr
    · refine Or.inr (horder.grant _ _ ?_ ⟨r, hr, hopen⟩ j harmed rfl).symm
      rw [hprog]
      exact hlocks
  · exact hfree r' ((hexec.2.1 _ hmem) ▸ hr')

/-- While every step is in order, the lock is free for every armed task. -/
theorem lockFree_of_lockOrder {world : World} (hunique : UniqueNames world.metadata)
    (hreach : WorkersReach task (LockOrder task) world workers) :
    ∀ i, Armed task workers i → LockFree (task i) workers.shared := by
  refine hreach.checks_stand (fun _ => Workers.sound_of_reach hunique)
    (fun _ h => Bool.noConfusion h.1) ?_ ?_
  · intro workers i e β c next j hsound horder hprog harmed hfree
    exact lockFree_exec hsound horder hprog harmed hfree
  · intro workers i e β c next hsound horder hprog hbefore hafter
    have hlook := horder.look
    rw [hprog] at hlook
    have hpassed := hafter.1
    rw [Pool.step_call hprog] at hpassed
    simp only [Function.update_self] at hpassed
    exact lock_of_passed hsound.unique (hsound.entitled hprog) hbefore hpassed
      fun slot hslot => hlook slot hslot hafter

/-! ## Granted locks are shown -/

/-- The records show the locks in force, and no lock is held by the user -1. -/
def Shown (metaArray : MetaArray) (grants : Grants) : Prop :=
  ∀ f, ∀ grant ∈ grants f, grant.holder ≠ -1 ∧ ∃ r ∈ record? metaArray f, grant.ShownBy r

theorem shown_heldLocks (metaArray : MetaArray) : Shown metaArray (heldLocks metaArray) := by
  intro f grant hgrant
  obtain ⟨r, hr, hheld⟩ := Option.bind_eq_some_iff.mp hgrant
  split at hheld
  · exact absurd hheld nofun
  · next hlocked =>
    obtain rfl := Option.some.inj hheld
    exact ⟨hlocked, r, hr, rfl, rfl⟩

/-- A call leaves a lock in the record that is still in force, unless the holder
releases it or the record is removed. -/
theorem RecordStep.shownBy {β : Type} {c : WorkerCall β} {f : Bytes} {r r' : Option FileMetadata}
    (hstep : RecordStep e f c r r') {grant : Grant} (hholder : grant.holder ≠ -1)
    (hfresh : ¬ grant.Over e.now) (hkept : c.releases ≠ some (f, grant.holder))
    (hthere : c.removesRecord ≠ some f) (hshown : ∃ q ∈ r, grant.ShownBy q) :
    ∃ q ∈ r', grant.ShownBy q := by
  obtain ⟨q, hq, hby⟩ := hshown
  have hlocked : q.lockedByUserId ≠ -1 := hby.1 ▸ hholder
  have hheld : ¬ q.Stale e.now := fun hstale => hfresh (by rw [Grant.Over, ← hby.2]; exact hstale.2)
  cases hstep with
  | checked =>
      refine ⟨_, Option.mem_map_of_mem _ hq, ?_⟩
      rwa [FileMetadata.checked, if_neg hheld]
  | acquired userId username =>
      refine ⟨_, Option.mem_map_of_mem _ hq, ?_⟩
      rwa [FileMetadata.acquired, if_neg (not_or.mpr ⟨hlocked, hheld⟩)]
  | released userId =>
      refine ⟨_, Option.mem_map_of_mem _ hq, ?_⟩
      have hother : ¬ (q.lockedByUserId ≠ -1 ∧ q.lockedByUserId = userId) := by
        rintro ⟨-, rfl⟩
        exact hkept (by rw [hby.1]; rfl)
      rwa [FileMetadata.releasedBy, if_neg hother]
  | updated size => exact ⟨_, Option.mem_map_of_mem _ hq, hby⟩
  | removed => exact absurd rfl hthere
  | added ownerName ownerId size q' =>
      obtain rfl := Option.some.inj hq
      exact ⟨_, rfl, hby⟩
  | created => exact absurd hq (Option.not_mem_none _)
  | full => exact absurd hq (Option.not_mem_none _)

/-- A step in order keeps the locks in force in the records. -/
theorem Shown.step {grants : Grants} (hsound : Workers.Sound task workers)
    (hfree : ∀ i, Armed task workers i → LockFree (task i) workers.shared)
    (horder : LockOrder task workers i e) (hshown : Shown workers.shared.metadata grants) :
    Shown (workers.step task i e).shared.metadata (enterGrant task workers i e grants) := by
  intro f grant hgrant
  unfold enterGrant at hgrant
  cases hprog : (workers.thread i).prog with
  | ret value =>
      rw [hprog] at hgrant
      rw [Workers.step_of_ret hprog]
      exact hshown f grant (Grants.mem_lapse.mp hgrant).1
  | @call β c next =>
      rw [hprog] at hgrant
      rw [Workers.step_of_call hprog]
      have hcall := hsound.entitled hprog
      have hexec := record?_exec e c hsound.unique hcall.filename_length
      rcases Grants.mem_afterCall hsound.unique hgrant with ⟨hlocks, hshows⟩ | ⟨hmem, hkept, hgone⟩
      · -- the lock has just been granted
        refine ⟨horder.holder f grant.holder ?_, hshows⟩
        rw [hprog]
        exact hlocks
      · -- the lock was in force before
        obtain ⟨hmem, hfresh⟩ := Grants.mem_lapse.mp hmem
        obtain ⟨hholder, r, hr, hby⟩ := hshown f grant hmem
        refine ⟨hholder, ?_⟩
        by_cases hchanges : f ∈ c.changesRecord
        · refine (hexec.2.2 f hchanges).shownBy hholder hfresh hkept (fun hremoves => ?_)
            ⟨r, hr, hby⟩
          -- a task that removes the record is armed
          obtain rfl := hcall.filename f (c.filename_of_changesRecord hchanges)
          have harmed : Armed task workers i := by
            refine ⟨hcall.lock_of_removesRecord hremoves, ?_⟩
            rw [hprog]
            exact Or.inl (Or.inr hremoves)
          rcases hfree i harmed r hr with hnone | hown
          · exact hholder (hby.1 ▸ hnone)
          · exact hgone hremoves (hby.1 ▸ hown)
        · exact ⟨r, (hexec.2.1 f hchanges).symm ▸ hr, hby⟩

/-- While every step is in order, the records show the locks in force. -/
theorem shown_of_reach {world : World} (hunique : UniqueNames world.metadata) {grants : Grants}
    (hreach : LocksReach task (LockOrder task) world workers grants) :
    WorkersReach task (LockOrder task) world workers ∧ Shown workers.shared.metadata grants := by
  refine hreach.invariant (I := fun workers grants => WorkersReach task (LockOrder task) world
    workers ∧ Shown workers.shared.metadata grants) ⟨Reach.refl, shown_heldLocks _⟩ ?_
  rintro workers grants i e ⟨hreach, hshown⟩ horder
  exact ⟨hreach.step horder, hshown.step (Workers.sound_of_reach hunique hreach)
    (lockFree_of_lockOrder hunique hreach) horder⟩

/-- If every step is in order, a granted edit lock keeps all other users from writing. -/
theorem lockExclusion_of_lockOrder {world : World} (hunique : UniqueNames world.metadata)
    {names : Set Bytes} (hsep : Separate names) (hnames : ∀ i, (task i).filename ∈ names)
    {grants : Grants} (hreach : LocksReach task (LockOrder task) world workers grants) :
    LockExclusion task names workers grants := by
  obtain ⟨hreach, hshown⟩ := shown_of_reach hunique hreach
  have hsound := Workers.sound_of_reach hunique hreach
  have hfree := lockFree_of_lockOrder hunique hreach
  intro i e f hf grant hgrant _ hother
  obtain ⟨hholder, r, hr, hlocked, -⟩ := hshown f grant hgrant
  cases hprog : (workers.thread i).prog with
  | ret value => rw [Workers.step_of_ret hprog]
  | call c next =>
      have hcall := hsound.entitled hprog
      rw [Workers.step_of_call hprog]
      refine content_exec e c _ hsep (hcall.filename_mem (hnames i)) hf fun hmem => ?_
      -- a task that writes is armed
      obtain ⟨rfl, -, hlock⟩ := hcall.writesContent hmem
      have harmed : Armed task workers i := by
        refine ⟨hlock, ?_⟩
        rw [hprog]
        exact Or.inl (Or.inl hmem)
      rcases hfree i harmed r hr with hnone | hown
      · exact hholder (hlocked ▸ hnone)
      · exact hother (hown.symm.trans hlocked)

/-! ## A lock that is respected, and one that is not -/

/-- A step at which a lock is granted only to a user with an id of his own, when all
tasks that have passed their lock check have returned, and no look at the holder of
a lock finds it free. -/
def Unhurried (task : ι → TaskMessage) (workers : Workers ι) (i : ι) (e : Env) : Prop :=
  ((workers.thread i).prog.AtCall (fun c => c.locks ≠ none) →
    ∀ j, (workers.thread j).ghost.lock = true → workers.Finished j) ∧
  ¬ (workers.thread i).prog.AtCall (fun c => c.locks.map Prod.snd = some (-1)) ∧
  ((workers.thread i).prog.AtCall (fun c => c.readsHolder ≠ none) →
    ((workers.step task i e).thread i).ghost.lock = false)

instance [Fintype ι] (task : ι → TaskMessage) (workers : Workers ι) (i : ι) (e : Env) :
    Decidable (Unhurried task workers i e) := by
  unfold Unhurried
  infer_instance

theorem Unhurried.lockOrder (hunhurried : Unhurried task workers i e) :
    LockOrder task workers i e := by
  obtain ⟨hfinished, hid, hlook⟩ := hunhurried
  refine ⟨fun f userId hcall _ j harmed _ => ?_, fun f userId hcall hnone => ?_,
    fun slot hcall harmed => ?_⟩
  · have hdone := hfinished (hcall.mono fun c hc => by rw [hc]; exact Option.some_ne_none _) j
      harmed.1
    unfold Pool.Finished at hdone
    have hmay := harmed.2
    cases hprog : (workers.thread j).prog with
    | ret value =>
        rw [hprog] at hmay
        exact hmay.elim
    | call c next =>
        rw [hprog] at hdone
        exact hdone.elim
  · exact hid (hcall.mono fun c hc => by rw [hc, hnone]; rfl)
  · have hfree := hlook (hcall.mono fun c hc => by rw [hc]; exact Option.some_ne_none _)
    exact Bool.noConfusion (hfree.symm.trans harmed.1)

/-- User 2 uploads `a` twice more, and the admin, user 1, edits it. -/
def uploadsAndEdit : Fin 3 → TaskMessage
  | 1 => sampleTask .edit 1 roleAdmin ""
  | _ => sampleTask .upload 2 roleUser "two"

/-- The three tasks take turns. -/
def uploadsAndEditAfter (turns : List (Fin 3)) : Workers (Fin 3) :=
  (Workers.start uploadsAndEdit uploadedOnce).run uploadsAndEdit (turns.map fun i => (i, Env.calm 0))

/-- The locks in force after the turns. -/
def locksAfter (turns : List (Fin 3)) : Grants :=
  (Workers.start uploadsAndEdit uploadedOnce).history worker (fun i => standing (uploadsAndEdit i))
    (enterGrant uploadsAndEdit) (heldLocks uploadedOnce.metadata)
    (turns.map fun i => (i, Env.calm 0))

/-- One upload, then the edit, then the other upload, which is refused. -/
def uploadEditUpload : List (Fin 3) := List.replicate 8 0 ++ List.replicate 4 1 ++ List.replicate 4 2

theorem lockExclusion_uploadEditUpload :
    LocksReach uploadsAndEdit (LockOrder uploadsAndEdit) uploadedOnce
      (uploadsAndEditAfter uploadEditUpload) (locksAfter uploadEditUpload) ∧
    content (uploadsAndEditAfter uploadEditUpload).shared.tree (text "a") = some (text "two") ∧
    locksAfter uploadEditUpload (text "a") = some ⟨1, 0⟩ ∧
    LockExclusion uploadsAndEdit {f | StorageName f} (uploadsAndEditAfter uploadEditUpload)
      (locksAfter uploadEditUpload) := by
  have hunhurried : Admissible worker (fun i => standing (uploadsAndEdit i))
      (enterGrant uploadsAndEdit) (fun workers _ => Unhurried uploadsAndEdit workers)
      (Workers.start uploadsAndEdit uploadedOnce) (heldLocks uploadedOnce.metadata)
      (uploadEditUpload.map fun i => (i, Env.calm 0)) := by decide +kernel
  have hreach : LocksReach uploadsAndEdit (LockOrder uploadsAndEdit) uploadedOnce
      (uploadsAndEditAfter uploadEditUpload) (locksAfter uploadEditUpload) :=
    ReachWith.refl.run_history (hunhurried.mono fun _ _ _ _ h => h.lockOrder)
  refine ⟨hreach, by decide +kernel, by decide +kernel, ?_⟩
  exact lockExclusion_of_lockOrder (serve_unique _ initMetadata_unique) separate_storageNames
    (by decide) hreach

/-- The first upload checks the lock, the edit is granted, the upload writes. -/
def editBetween : List (Fin 3) := [0, 1, 1, 0, 0, 0, 0]

theorem edit_between_check_and_write :
    ¬ LockExclusion uploadsAndEdit {f | StorageName f} (uploadsAndEditAfter editBetween)
      (locksAfter editBetween) := by
  intro hexclusion
  have hgranted : locksAfter editBetween (text "a") = some ⟨1, 0⟩ := by decide +kernel
  have hsame := hexclusion 0 (Env.calm 0) (text "a") (by decide) ⟨1, 0⟩ hgranted (by decide)
    (by decide)
  exact absurd hsame (by decide +kernel)

end CloudSync
