import CloudSync.Concurrent.Isolation
import CloudSync.Concurrent.StoreOrder
import CloudSync.Sessions.Delivery
import CloudSync.Sessions.TaskPool

/-!
# What users see of the running service

Any number of sessions, the two queues and the workers run together, in any order.  By
`exists_pool` the files see a pool of tasks, so what holds of every pool holds of the
service:

* a file that only guests have asked for, or that has only been read, is as it was
  (`guests_change_nothing`);
* the records and the storage stay in order (`service_wellKept`);
* a user whose file nobody else has asked to modify gets the response that processing the
  request alone gives (`answered_alone`).
-/

namespace CloudSync

open CText Calls Calls.Prog Files MessageQueue

/-! ## Files that are only read -/

/-- What a guest may ask for does not modify files. -/
theorem modifies_of_passedOn {user : UserInfo} {req : ClientRequest} (hpass : PassedOn user req)
    (hguest : user.role = roleGuest) : (Operation.ofCode req.operation).modifies = false := by
  obtain ⟨-, hallowed⟩ := hpass
  rw [hguest] at hallowed
  cases hop : Operation.ofCode req.operation <;> rw [hop] at hallowed <;>
    first
    | rfl
    | exact Bool.noConfusion hallowed

namespace Service

variable {ι κ : Type} [DecidableEq ι] [DecidableEq κ] {taskCapacity respCapacity : ℕ}
  {within : Service ι κ → Prop} {world : World} {service : Service ι κ}

/-- Every task comes from a request that was let through. -/
theorem issued_passedOn
    (hreach : Reached (step taskCapacity respCapacity) within (start world) service) :
    ∀ asked ∈ service.ledger.issued, ∃ user id req, PassedOn user req ∧
      asked.task = clientTask user id req := by
  induction hreach with
  | first => exact fun _ h => absurd h List.not_mem_nil
  | step _ action hstep _ ih =>
      intro asked hasked
      rcases issued_of_step hstep with hsame | ⟨s, user, id, req, hpass, hgrown⟩
      · exact ih asked (hsame ▸ hasked)
      · rw [hgrown] at hasked
        rcases List.mem_append.mp hasked with hbefore | hnew
        · exact ih asked hbefore
        · obtain rfl := List.mem_singleton.mp hnew
          exact ⟨user, id, req, hpass, rfl⟩

omit [DecidableEq ι] in
/-- The requests as tasks; those that were not made yet stand for ones that list the files. -/
theorem exists_tasks (ledger : Ledger ι) :
    ∃ tasks : ℕ → TaskMessage, Issues ledger tasks ∧ ∀ n, (tasks n).operation.modifies = true →
      ∃ asked, ledger.issued[n]? = some asked ∧ tasks n = asked.task := by
  refine ⟨tasksOf ledger (sampleTask .list 2 roleUser ""), issues_tasksOf _ _, ?_⟩
  exact tasksOf_forall (P := fun n task => task.operation.modifies = true →
    ∃ asked, ledger.issued[n]? = some asked ∧ task = asked.task)
    (fun n asked hn _ => ⟨asked, hn, rfl⟩) fun _ h => Bool.noConfusion h

/-- A guest, for examples. -/
def visitor : UserInfo := ⟨3, text "visitor", text "pw", roleGuest⟩

/-- A request to download `a`, for examples. -/
def downloadRequest : ClientRequest where
  operation := 2
  username := []
  password := []
  filename := text "a"
  dataSize := 0
  data := noData
  data_length := noData_length
  dataSize_range := noData_range

theorem downloadRequest_passedOn : PassedOn visitor downloadRequest := by decide

/-- A user, for examples. -/
def uploader : UserInfo := ⟨2, text "alice", text "pw", roleUser⟩

/-- A request to upload `b`, for examples. -/
def uploadRequest : ClientRequest where
  operation := 1
  username := []
  password := []
  filename := text "b"
  dataSize := 3
  data := text "new" ++ List.replicate (maxFileSize - 3) 0
  data_length := by rw [List.length_append, List.length_replicate]; rfl
  dataSize_range := by decide

theorem uploadRequest_passedOn : PassedOn uploader uploadRequest := by decide

/-- While the user uploads `b`, the guest is answered that there is no `a`. -/
theorem download_beside_upload :
    ∃ service : Service Bool Bool, Reached (step 2 2) InTime (start freshWorld) service ∧
      service.ledger.issued = [⟨false, clientTask visitor (requestId 0) downloadRequest⟩,
        ⟨true, clientTask uploader (requestId 1) uploadRequest⟩] ∧
      (∃ resp, (⟨false, ⟨0, clientTask visitor (requestId 0) downloadRequest⟩, ⟨0, resp⟩⟩ :
        Delivery Bool) ∈ service.ledger.delivered) ∧
      content service.world.tree (text "b") = some (text "new") := by
  have hfirst : Reached (step 2 2) InTime (start freshWorld)
      (start freshWorld : Service Bool Bool) := .first
  have h₁ := hfirst.step (.getNextRequestId false visitor downloadRequest)
    (step_getNextRequestId.mpr ⟨rfl, downloadRequest_passedOn, rfl⟩) (inTime_of_le (by decide))
  have h₂ := h₁.step (.getNextRequestId true uploader uploadRequest)
    (step_getNextRequestId.mpr ⟨rfl, uploadRequest_passedOn, rfl⟩) (inTime_of_le (by decide))
  have h₃ := h₂.step (.sendTask false)
    (step_sendTask.mpr ⟨_, rfl, by decide, rfl⟩) (inTime_of_le (by decide))
  have h₄ := h₃.step (.sendTask true)
    (step_sendTask.mpr ⟨_, rfl, by decide, rfl⟩) (inTime_of_le (by decide))
  have h₅ := h₄.step (.receiveTask false)
    (step_receiveTask.mpr ⟨rfl, _, _, rfl, rfl⟩) (inTime_of_le (by decide))
  have h₆ := h₅.step (.receiveTask true)
    (step_receiveTask.mpr ⟨rfl, _, _, rfl, rfl⟩) (inTime_of_le (by decide))
  have h₇ := h₆.step (.processTask true (Env.calm 0)) rfl (inTime_of_le (by decide))
  have h₈ := h₇.step (.processTask false (Env.calm 0)) rfl (inTime_of_le (by decide))
  have h₉ := h₈.step (.processTask true (Env.calm 0)) rfl (inTime_of_le (by decide))
  have h₁₀ := h₉.step (.processTask true (Env.calm 0)) rfl (inTime_of_le (by decide))
  have h₁₁ := h₁₀.step (.processTask false (Env.calm 0)) rfl (inTime_of_le (by decide))
  have h₁₂ := h₁₁.step (.processTask true (Env.calm 0)) rfl (inTime_of_le (by decide))
  have h₁₃ := h₁₂.step (.processTask true (Env.calm 0)) rfl (inTime_of_le (by decide))
  have h₁₄ := h₁₃.step (.processTask true (Env.calm 0)) rfl (inTime_of_le (by decide))
  have h₁₅ := h₁₄.step (.sendResponse true)
    (step_sendResponse.mpr ⟨_, rfl, by decide, rfl⟩) (inTime_of_le (by decide))
  have h₁₆ := h₁₅.step (.processTask false (Env.calm 0)) rfl (inTime_of_le (by decide))
  have h₁₇ := h₁₆.step (.sendResponse false)
    (step_sendResponse.mpr ⟨_, rfl, by decide, rfl⟩) (inTime_of_le (by decide))
  have h₁₈ := h₁₇.step (.receiveResponse true)
    (step_receiveResponse.mpr ⟨_, _, _, rfl, rfl, rfl⟩) (inTime_of_le (by decide))
  have h₁₉ := h₁₈.step (.receiveResponse false)
    (step_receiveResponse.mpr ⟨_, _, _, rfl, rfl, rfl⟩) (inTime_of_le (by decide))
  exact ⟨_, h₁₉, rfl, ⟨_, List.mem_cons_of_mem _ (List.mem_singleton_self _)⟩, rfl⟩

end Service

open Service

section Users

variable {ι κ : Type} [DecidableEq ι] [DecidableEq κ] {taskCapacity respCapacity : ℕ}
  {within : Service ι κ → Prop} {world : World} {service : Service ι κ}

/-- A file that is asked for by guests only, or only by operations that do not modify
files, is as it was when the service was started. -/
theorem guests_change_nothing
    (hreach : Reached (step taskCapacity respCapacity) within (start world) service)
    (hunique : UniqueNames world.metadata)
    (hnames : ∀ asked ∈ service.ledger.issued, asked.task.operation.modifies = true →
      StorageName asked.task.filename)
    {f : Bytes} (hf : StorageName f)
    (hguests : ∀ asked ∈ service.ledger.issued, asked.task.filename = f →
      asked.task.role = roleGuest ∨ asked.task.operation.modifies = false) :
    service.world.file f = world.file f := by
  obtain ⟨tasks, hissues, hmade⟩ := exists_tasks service.ledger
  obtain ⟨workers, hworkers, hmatches⟩ := exists_pool hreach hissues fun n => standing (tasks n)
  rw [← hmatches.shared]
  apply file_of_reach hunique _ hf _ hworkers
  · intro n hmodifies
    obtain ⟨asked, hn, htask⟩ := hmade n hmodifies
    rw [htask] at hmodifies ⊢
    exact hnames asked (List.mem_of_getElem? hn) hmodifies
  · intro n hmodifies hfile
    obtain ⟨asked, hn, htask⟩ := hmade n hmodifies
    have hasked := List.mem_of_getElem? hn
    rw [htask] at hmodifies hfile
    have hreads : asked.task.operation.modifies = false := by
      rcases hguests asked hasked hfile with hguest | hreads
      · obtain ⟨user, id, req, hpass, htask⟩ := issued_passedOn hreach asked hasked
        rw [htask] at hguest ⊢
        exact modifies_of_passedOn hpass hguest
      · exact hreads
    exact Bool.noConfusion (hreads.symm.trans hmodifies)

/-- Whatever the sessions ask for, the records and the storage stay in order. -/
theorem service_wellKept
    (hreach : Reached (step taskCapacity respCapacity) within (start world) service)
    (hworld : WellKept world)
    (hnames : ∀ asked ∈ service.ledger.issued, asked.task.operation.modifies = true →
      StorageName asked.task.filename) : WellKept service.world := by
  obtain ⟨tasks, hissues, hmade⟩ := exists_tasks service.ledger
  obtain ⟨workers, hworkers, hmatches⟩ := exists_pool hreach hissues fun _ => backing
  rw [← hmatches.shared]
  apply wellKept_of_reach hworld _ hworkers
  intro n hmodifies
  obtain ⟨asked, hn, htask⟩ := hmade n hmodifies
  rw [htask] at hmodifies ⊢
  exact hnames asked (List.mem_of_getElem? hn) hmodifies

end Users

theorem guests_change_nothing_download :
    ∃ service : Service Bool Bool, content service.world.tree (text "b") = some (text "new") ∧
      service.world.file (text "a") = freshWorld.file (text "a") := by
  obtain ⟨service, hreach, hissued, -, hcontent⟩ := download_beside_upload
  refine ⟨service, hcontent, guests_change_nothing hreach initMetadata_unique ?_ (by decide) ?_⟩
  · rw [hissued]
    decide
  · rw [hissued]
    decide

theorem service_wellKept_download :
    ∃ service : Service Bool Bool, content service.world.tree (text "b") = some (text "new") ∧
      WellKept service.world := by
  obtain ⟨service, hreach, hissued, -, hcontent⟩ := download_beside_upload
  refine ⟨service, hcontent, service_wellKept hreach freshWorld_wellKept ?_⟩
  rw [hissued]
  decide

section Alone

variable {ι κ : Type} [Fintype ι] [DecidableEq ι] [Fintype κ] [DecidableEq κ]
  {taskCapacity respCapacity : ℕ} {world : World} {service : Service ι κ}

/-- If no other request would modify the file of a request, its session receives the response
that processing it alone gives, in some environments, and the file is in the state that
processing leaves it in. -/
theorem answered_alone
    (hreach : Reached (step taskCapacity respCapacity) InTime (start world) service)
    (hunique : UniqueNames world.metadata) {names : Finset Bytes}
    (hnames : ∀ asked ∈ service.ledger.issued, asked.task.operation.modifies = true →
      StorageName asked.task.filename ∧ asked.task.filename ∈ names)
    (hroom : (activeSlots world.metadata).card + names.card ≤ maxFiles) {d : Delivery ι}
    (hd : d ∈ service.ledger.delivered) (hname : StorageName d.sent.body.filename)
    (hlist : d.sent.body.operation ≠ .list) (haudit : d.sent.body.operation ≠ .audit)
    (halone : ∀ n asked, service.ledger.issued[n]? = some asked → n ≠ d.sent.serial →
      asked.task.operation.modifies = true → asked.task.filename ≠ d.sent.body.filename) :
    ∃ env : ℕ → Env, (serve env d.sent.body world).1 = d.got.body ∧
      (service.world.file d.sent.body.filename).shown =
        ((serve env d.sent.body world).2.file d.sent.body.filename).shown := by
  have hreceived := (reached_accounted hreach).delivered d hd
  have hsent : service.ledger.issued[d.sent.serial]? = some ⟨d.session, d.sent.body⟩ :=
    hreceived.asked
  obtain ⟨tasks, hissues, hmade⟩ := exists_tasks service.ledger
  obtain ⟨workers, hworkers, hmatches⟩ := exists_pool hreach hissues fun n => standing (tasks n)
  obtain ⟨schedule, rfl⟩ := hworkers.exists_schedule
  have hown : tasks d.sent.serial = d.sent.body := hissues _ _ hsent
  have hwriters : ∀ n, (tasks n).operation.modifies = true →
      StorageName (tasks n).filename ∧ (tasks n).filename ∈ names := by
    intro n hmodifies
    obtain ⟨asked, hn, htask⟩ := hmade n hmodifies
    rw [htask] at hmodifies ⊢
    exact hnames asked (List.mem_of_getElem? hn) hmodifies
  have hothers : ∀ n, n ≠ d.sent.serial → (tasks n).operation.modifies = true →
      (tasks n).filename ≠ (tasks d.sent.serial).filename := by
    intro n hne hmodifies
    obtain ⟨asked, hn, htask⟩ := hmade n hmodifies
    rw [htask] at hmodifies
    rw [htask, hown]
    exact halone n asked hn hne hmodifies
  have hdone : (((Workers.start tasks world).run tasks schedule).thread d.sent.serial).prog =
      .ret d.got.body := by
    rw [← hreceived.own]
    exact (hmatches.processed d.got hreceived.computed).2
  rw [← hown] at hname hlist haudit
  obtain ⟨hresp, added, -, hmirror, -⟩ := followed_run (fun n hn => (hwriters n hn).1)
    (fun n hn => (hwriters n hn).2) hname hunique hlist haudit hroom hothers
    (follows_followed (Env.calm 0) _) hdone
  have hshared : ((Workers.start tasks world).run tasks schedule).shared = service.world :=
    hmatches.shared
  have hfile := hmirror.file hname
  rw [hshared, hown] at hfile
  rw [hown] at hresp
  exact ⟨_, hresp, hfile⟩

end Alone

theorem answered_alone_download :
    ∃ service : Service Bool Bool, content service.world.tree (text "b") = some (text "new") ∧
      ∃ d ∈ service.ledger.delivered, ∃ env : ℕ → Env,
        (serve env (clientTask visitor (requestId 0) downloadRequest) freshWorld).1 =
          d.got.body := by
  obtain ⟨service, hreach, hissued, ⟨resp, hd⟩, hcontent⟩ := download_beside_upload
  have hnames : ∀ asked ∈ service.ledger.issued, asked.task.operation.modifies = true →
      StorageName asked.task.filename ∧ asked.task.filename ∈ ({text "b"} : Finset Bytes) := by
    rw [hissued]
    decide
  have halone : ∀ n asked, service.ledger.issued[n]? = some asked → n ≠ 0 →
      asked.task.operation.modifies = true →
      asked.task.filename ≠ (clientTask visitor (requestId 0) downloadRequest).filename := by
    intro n asked hasked hn _
    rw [hissued] at hasked
    have hupload : asked ∈ [⟨true, clientTask uploader (requestId 1) uploadRequest⟩] := by
      obtain ⟨n, rfl⟩ := Nat.exists_eq_succ_of_ne_zero hn
      exact List.mem_of_getElem? hasked
    obtain rfl := List.mem_singleton.mp hupload
    decide
  have hname : StorageName (clientTask visitor (requestId 0) downloadRequest).filename := by decide
  have hops : (clientTask visitor (requestId 0) downloadRequest).operation ≠ .list ∧
      (clientTask visitor (requestId 0) downloadRequest).operation ≠ .audit := by decide
  obtain ⟨env, hresp, -⟩ := answered_alone hreach initMetadata_unique hnames (by decide) hd hname
    hops.1 hops.2 halone
  exact ⟨service, hcontent, _, hd, env, hresp⟩

end CloudSync
