import CloudSync.Sessions.Service

/-!
# Nothing is lost between sessions and workers

`Genuine` says that everything in flight belongs to a task that was given an id:
the tasks in the queue and at the workers are such tasks, the responses were
computed from them.  `Balanced` counts: the sessions that wait are as many as the
tasks and responses under way, for any labels one may group them by.  A step
keeps this if a session that receives a response and the response bear the same
label.
-/

namespace CloudSync

open CText Calls Calls.Prog MessageQueue

/-! ## The response to a task bears its id -/

section Returns

variable {task : TaskMessage}

/-- The response can be routed to who asked. -/
abbrev Addressed (task : TaskMessage) (prog : Prog WorkerCall ResponseMessage) : Prop :=
  Returns (fun resp => resp.mtype = task.requestId) prog

theorem addressed_reply (status : Status) (message data : Bytes) :
    Addressed task (.ret (reply task status message data)) := returns_ret rfl

theorem addressed_answer (result : String) (status : Status) (message data : Bytes) :
    Addressed task (answer task result status message data) :=
  returns_bind fun _ => addressed_reply _ _ _

theorem addressed_uploadWrite : Addressed task (uploadWrite task) := by
  apply returns_bind
  intro result
  apply returns_ite (addressed_answer _ _ _ _)
  apply returns_bind
  intro result
  apply returns_ite
  · exact returns_bind fun _ => addressed_answer _ _ _ _
  · exact addressed_answer _ _ _ _

theorem addressed_uploadOwned : Addressed task (uploadOwned task) := by
  apply returns_bind
  intro existing
  cases existing with
  | none => exact addressed_uploadWrite
  | some fm =>
      apply returns_bind
      intro refused
      apply returns_ite
      · exact returns_bind fun _ => addressed_answer _ _ _ _
      · exact returns_bind fun _ => returns_bind fun _ => addressed_uploadWrite

theorem addressed_upload : Addressed task (processUpload task) := by
  apply returns_bind
  rintro ⟨locked, locker⟩
  apply returns_ite _ addressed_uploadOwned
  apply returns_bind
  intro found
  cases found with
  | none => exact addressed_uploadOwned
  | some fm =>
      apply returns_bind
      intro holder
      exact returns_ite (addressed_answer _ _ _ _) addressed_uploadOwned

theorem addressed_download : Addressed task (processDownload task) := by
  apply returns_bind
  intro found
  cases found with
  | none => exact addressed_answer _ _ _ _
  | some fm =>
      apply returns_bind
      rintro ⟨result, bytes⟩
      exact returns_ite (addressed_answer _ _ _ _) (addressed_answer _ _ _ _)

theorem addressed_delete : Addressed task (processDelete task) := by
  apply returns_bind
  intro found
  cases found with
  | none => exact addressed_answer _ _ _ _
  | some fm =>
      apply returns_bind
      intro refused
      apply returns_ite (addressed_answer _ _ _ _)
      apply returns_bind
      intro locked
      apply returns_ite
      · exact returns_bind fun _ => addressed_answer _ _ _ _
      · apply returns_bind
        intro result
        apply returns_ite (addressed_answer _ _ _ _)
        apply returns_bind
        intro result
        exact returns_ite (addressed_answer _ _ _ _) (addressed_answer _ _ _ _)

theorem addressed_edit : Addressed task (processEdit task) := by
  apply returns_bind
  intro found
  cases found with
  | none => exact addressed_answer _ _ _ _
  | some efm =>
      apply returns_bind
      intro refused
      apply returns_ite
      · exact returns_bind fun _ => addressed_answer _ _ _ _
      · apply returns_bind
        intro lockResult
        apply returns_ite (addressed_answer _ _ _ _)
        apply returns_ite
        · exact returns_bind fun _ => addressed_answer _ _ _ _
        · apply returns_bind
          rintro ⟨result, bytes⟩
          apply returns_ite
          · exact returns_bind fun _ => addressed_answer _ _ _ _
          · exact addressed_answer _ _ _ _

theorem addressed_save : Addressed task (processSave task) := by
  apply returns_ite (addressed_answer _ _ _ _)
  apply returns_bind
  intro found
  cases found with
  | none => exact addressed_reply _ _ _
  | some fm =>
      apply returns_bind
      intro holder
      apply returns_ite (addressed_answer _ _ _ _)
      apply returns_bind
      intro version
      apply returns_bind
      intro saved
      apply returns_bind
      intro result
      apply returns_ite (addressed_answer _ _ _ _)
      apply returns_bind
      intro result
      apply returns_ite (addressed_answer _ _ _ _)
      exact returns_bind fun _ => addressed_answer _ _ _ _

theorem addressed_unlock : Addressed task (processUnlock task) := by
  apply returns_bind
  intro result
  apply returns_ite (addressed_answer _ _ _ _)
  exact returns_ite (addressed_answer _ _ _ _) (addressed_answer _ _ _ _)

theorem addressed_history : Addressed task (processHistory task) := by
  apply returns_bind
  intro found
  cases found with
  | none => exact addressed_reply _ _ _
  | some fm => exact returns_bind fun _ => addressed_reply _ _ _

theorem addressed_rollback : Addressed task (processRollback task) := by
  apply returns_bind
  intro found
  cases found with
  | none => exact addressed_answer _ _ _ _
  | some fm =>
      apply returns_bind
      intro refused
      apply returns_ite
      · exact returns_bind fun _ => addressed_answer _ _ _ _
      · apply returns_bind
        intro locked
        apply returns_ite
        · exact returns_bind fun _ => addressed_reply _ _ _
        · apply returns_bind
          intro version
          apply returns_bind
          intro saved
          apply returns_bind
          intro newSize
          apply returns_ite (addressed_answer _ _ _ _)
          exact returns_bind fun _ => addressed_answer _ _ _ _

theorem addressed_delversion : Addressed task (processDelversion task) := by
  apply returns_bind
  intro found
  cases found with
  | none => exact addressed_answer _ _ _ _
  | some fm =>
      apply returns_bind
      intro refused
      apply returns_ite (addressed_answer _ _ _ _)
      apply returns_bind
      intro result
      exact returns_ite (addressed_answer _ _ _ _) (addressed_answer _ _ _ _)

/-- Whatever the calls of a task answer, its response bears the id of the task. -/
theorem processTask_addressed (task : TaskMessage) : Addressed task (processTask task) := by
  unfold processTask
  split
  · exact addressed_upload
  · exact addressed_download
  · exact addressed_delete
  · exact returns_bind fun _ => addressed_reply _ _ _
  · exact returns_bind fun _ => returns_ite (addressed_reply _ _ _) (addressed_reply _ _ _)
  · exact addressed_edit
  · exact addressed_save
  · exact addressed_unlock
  · exact addressed_history
  · exact addressed_rollback
  · exact returns_bind fun _ => addressed_reply _ _ _
  · exact addressed_delversion
  · exact addressed_reply _ _ _

end Returns

namespace Service

variable {ι κ : Type} [DecidableEq ι] [DecidableEq κ] {taskCapacity respCapacity : ℕ}
  {service service' : Service ι κ} {action : ServiceAction ι κ}

/-! ## Everything in flight is genuine -/

/-- The session asked for the task, under its serial number. -/
def AskedFor (ledger : Ledger ι) (s : ι) (task : Stamped TaskMessage) : Prop :=
  ledger.issued[task.serial]? = some ⟨s, task.body⟩

/-- The response is one that the task of its serial number may return. -/
def Computed (ledger : Ledger ι) (resp : Stamped ResponseMessage) : Prop :=
  ∃ s task, ledger.issued[resp.serial]? = some ⟨s, task⟩ ∧ (processTask task).MayReturn resp.body

/-- What a session waits for is what it has asked for. -/
def SessionGenuine (ledger : Ledger ι) (s : ι) (phase : SessionPhase) : Prop :=
  ∀ task ∈ phase.outstanding, AskedFor ledger s task

/-- A worker is at a task that was asked for, or has a response on record. -/
def WorkerGenuine (ledger : Ledger ι) : WorkerPhase → Prop
  | .idle => True
  | .working task prog => (∃ s, AskedFor ledger s task) ∧
      ∀ resp, prog.MayReturn resp → (processTask task.body).MayReturn resp
  | .done resp => resp ∈ ledger.processed

/-- What is in flight belongs to tasks that were given ids, and to responses
computed from them. -/
structure Genuine (service : Service ι κ) : Prop where
  counter : service.requestCounter = requestCounterAfter service.ledger.issued.length
  ids : ∀ n asked, service.ledger.issued[n]? = some asked → asked.task.requestId = requestId n
  sessions : ∀ s, SessionGenuine service.ledger s (service.session s)
  taskQueue : ∀ m ∈ service.taskQueue, m.mtype = 1 ∧ ∃ s, AskedFor service.ledger s m.body
  workers : ∀ w, WorkerGenuine service.ledger (service.worker w)
  respQueue : ∀ m ∈ service.respQueue, m.mtype = m.body.body.mtype ∧
    m.body ∈ service.ledger.processed
  processed : ∀ resp ∈ service.ledger.processed, Computed service.ledger resp

omit [DecidableEq ι] [DecidableEq κ] in
theorem genuine_start (world : World) : Genuine (start world : Service ι κ) where
  counter := rfl
  ids := fun _ _ h => (Option.some_ne_none _ h.symm).elim
  sessions := fun _ _ h => absurd h (Option.not_mem_none _)
  taskQueue := fun _ h => absurd h List.not_mem_nil
  workers := fun _ => trivial
  respQueue := fun _ h => absurd h List.not_mem_nil
  processed := fun _ h => absurd h List.not_mem_nil

/-- A list that has grown by one element has the old ones and the new one. -/
theorem getElem?_concat {α : Type} {l : List α} {a b : α} {n : ℕ} (h : (l ++ [a])[n]? = some b) :
    l[n]? = some b ∨ n = l.length ∧ a = b := by
  rcases Nat.lt_or_ge n l.length with hlt | hge
  · rw [List.getElem?_append_left hlt] at h
    exact Or.inl h
  · rw [List.getElem?_append_right hge, List.getElem?_singleton] at h
    split at h
    · rename_i hn
      exact Or.inr ⟨by omega, Option.some.inj h⟩
    · exact (Option.some_ne_none _ h.symm).elim

section Grow

variable {ledger : Ledger ι} {s : ι} (asked : Asked ι)

omit [DecidableEq ι] in
theorem AskedFor.grow {task : Stamped TaskMessage} (h : AskedFor ledger s task) :
    AskedFor { ledger with issued := ledger.issued ++ [asked] } s task := by
  have hlt := (List.getElem?_eq_some_iff.mp h).1
  show (ledger.issued ++ [asked])[task.serial]? = _
  rw [List.getElem?_append_left hlt]
  exact h

omit [DecidableEq ι] in
theorem Computed.grow {resp : Stamped ResponseMessage} (h : Computed ledger resp) :
    Computed { ledger with issued := ledger.issued ++ [asked] } resp := by
  obtain ⟨s, task, hasked, hreturn⟩ := h
  have hgrown : AskedFor ledger s ⟨resp.serial, task⟩ := hasked
  exact ⟨s, task, hgrown.grow asked, hreturn⟩

omit [DecidableEq ι] in
theorem WorkerGenuine.grow {phase : WorkerPhase} (h : WorkerGenuine ledger phase) :
    WorkerGenuine { ledger with issued := ledger.issued ++ [asked] } phase := by
  cases phase with
  | idle => trivial
  | done resp => exact h
  | working task prog =>
      obtain ⟨⟨s, hasked⟩, hreturn⟩ := h
      exact ⟨⟨s, hasked.grow asked⟩, hreturn⟩

end Grow

omit [DecidableEq ι] in
theorem WorkerGenuine.record {ledger : Ledger ι} {phase : WorkerPhase}
    (h : WorkerGenuine ledger phase) (resp : Stamped ResponseMessage) :
    WorkerGenuine { ledger with processed := ledger.processed ++ [resp] } phase := by
  cases phase with
  | idle => trivial
  | working task prog => exact h
  | done resp' => exact List.mem_append_left _ h

/-- Every session is as before, except the one that moves. -/
theorem sessions_update {ledger : Ledger ι} {session : ι → SessionPhase} {s : ι}
    {phase : SessionPhase} (hnew : SessionGenuine ledger s phase)
    (hold : ∀ s', SessionGenuine ledger s' (session s')) (s' : ι) :
    SessionGenuine ledger s' (Function.update session s phase s') :=
  (Function.forall_update_iff session (SessionGenuine ledger)).mpr ⟨hnew, fun s' _ => hold s'⟩ s'

omit [DecidableEq ι] in
theorem workers_update {ledger : Ledger ι} {worker : κ → WorkerPhase} {w : κ}
    {phase : WorkerPhase} (hnew : WorkerGenuine ledger phase)
    (hold : ∀ w', WorkerGenuine ledger (worker w')) (w' : κ) :
    WorkerGenuine ledger (Function.update worker w phase w') :=
  (Function.forall_update_iff worker fun _ => WorkerGenuine ledger).mpr
    ⟨hnew, fun w' _ => hold w'⟩ w'

theorem Genuine.step (h : Genuine service)
    (hstep : step taskCapacity respCapacity action service = some service') :
    Genuine service' := by
  cases action with
  | getNextRequestId s user req =>
      obtain ⟨hs, hpass, rfl⟩ := step_getNextRequestId.mp hstep
      refine ⟨?_, ?_, ?_, ?_, ?_, h.respQueue, ?_⟩
      · show _ = requestCounterAfter (service.ledger.issued ++ [_]).length
        rw [List.length_append, List.length_singleton, requestCounterAfter_succ, h.counter]
      · intro n asked hasked
        rcases getElem?_concat hasked with hbefore | ⟨rfl, rfl⟩
        · exact h.ids n asked hbefore
        · show (CloudSync.getNextRequestId service.requestCounter).1 = _
          rw [h.counter]
          rfl
      · apply sessions_update
        · intro task htask
          obtain rfl := Option.some.inj htask
          show (service.ledger.issued ++ [_])[service.ledger.issued.length]? = _
          rw [List.getElem?_append_right le_rfl, Nat.sub_self]
          rfl
        · exact fun s' task htask => (h.sessions s' task htask).grow _
      · intro m hm
        obtain ⟨htype, s', hasked⟩ := h.taskQueue m hm
        exact ⟨htype, s', hasked.grow _⟩
      · exact fun w => (h.workers w).grow _
      · exact fun resp hresp => (h.processed resp hresp).grow _
  | sendTask s =>
      obtain ⟨task, hs, -, rfl⟩ := step_sendTask.mp hstep
      have hasked : AskedFor service.ledger s task := h.sessions s task (by rw [hs]; rfl)
      refine ⟨h.counter, h.ids, ?_, ?_, h.workers, h.respQueue, h.processed⟩
      · apply sessions_update _ h.sessions
        intro task' htask
        obtain rfl := Option.some.inj htask
        exact hasked
      · intro m hm
        rcases List.mem_append.mp hm with hm | hm
        · exact h.taskQueue m hm
        · obtain rfl := List.mem_singleton.mp hm
          exact ⟨rfl, s, hasked⟩
  | receiveTask w =>
      obtain ⟨hw, m, queue, hreceive, rfl⟩ := step_receiveTask.mp hstep
      obtain ⟨hm, hqueue⟩ := mem_of_msgrcv hreceive
      refine ⟨h.counter, h.ids, h.sessions, fun m' hm' => h.taskQueue m' (hqueue m' hm'), ?_,
        h.respQueue, h.processed⟩
      exact workers_update ⟨(h.taskQueue m hm).2, fun _ hreturn => hreturn⟩ h.workers
  | processTask w e =>
      obtain ⟨task, β, c, next, hw, rfl⟩ | ⟨task, resp, hw, rfl⟩ := step_processTask hstep
      · have hworking := h.workers w
        rw [hw] at hworking
        refine ⟨h.counter, h.ids, h.sessions, h.taskQueue, ?_, h.respQueue, h.processed⟩
        apply workers_update _ h.workers
        exact ⟨hworking.1, fun resp hresp => hworking.2 resp ⟨_, hresp⟩⟩
      · have hworking := h.workers w
        rw [hw] at hworking
        obtain ⟨⟨s, hasked⟩, hreturn⟩ := hworking
        refine ⟨h.counter, h.ids, h.sessions, h.taskQueue, ?_, ?_, ?_⟩
        · apply workers_update
          · exact List.mem_append_right _ List.mem_cons_self
          · exact fun w' => (h.workers w').record _
        · intro m hm
          exact ⟨(h.respQueue m hm).1, List.mem_append_left _ (h.respQueue m hm).2⟩
        · intro resp' hresp
          rcases List.mem_append.mp hresp with hresp | hresp
          · exact h.processed resp' hresp
          · obtain rfl := List.mem_singleton.mp hresp
            exact ⟨s, task.body, hasked, hreturn resp rfl⟩
  | sendResponse w =>
      obtain ⟨resp, hw, -, rfl⟩ := step_sendResponse.mp hstep
      have hdone := h.workers w
      rw [hw] at hdone
      refine ⟨h.counter, h.ids, h.sessions, h.taskQueue, ?_, ?_, h.processed⟩
      · apply workers_update _ h.workers
        trivial
      · intro m hm
        rcases List.mem_append.mp hm with hm | hm
        · exact h.respQueue m hm
        · obtain rfl := List.mem_singleton.mp hm
          exact ⟨rfl, hdone⟩
  | receiveResponse s =>
      obtain ⟨task, m, queue, hs, hreceive, rfl⟩ := step_receiveResponse.mp hstep
      obtain ⟨-, hqueue⟩ := mem_of_msgrcv hreceive
      refine ⟨h.counter, h.ids, ?_, h.taskQueue, h.workers,
        fun m' hm' => h.respQueue m' (hqueue m' hm'), h.processed⟩
      apply sessions_update _ h.sessions
      exact fun task' htask => absurd htask (Option.not_mem_none _)

/-! ## As many under way as waited for -/

/-- Whether the session waits for a response that bears the label. -/
def waits (p : ℕ → ℤ → Bool) : SessionPhase → ℕ
  | .idle => 0
  | .ready _ => 0
  | .waiting task => if p task.serial task.body.requestId then 1 else 0

/-- Whether the worker is at such a task, or holds such a response. -/
def holds (p : ℕ → ℤ → Bool) : WorkerPhase → ℕ
  | .idle => 0
  | .working task _ => if p task.serial task.body.requestId then 1 else 0
  | .done resp => if p resp.serial resp.body.mtype then 1 else 0

/-- The tasks in a queue that bear the label, a predicate on serials and ids. -/
def tasksQueued (p : ℕ → ℤ → Bool) (queue : List (Message (Stamped TaskMessage))) : ℕ :=
  queue.countP fun m => p m.body.serial m.body.body.requestId

/-- The responses in a queue that bear the label. -/
def responsesQueued (p : ℕ → ℤ → Bool) (queue : List (Message (Stamped ResponseMessage))) : ℕ :=
  queue.countP fun m => p m.body.serial m.body.body.mtype

variable [Fintype ι] [Fintype κ] {p : ℕ → ℤ → Bool}

/-- As many sessions wait as tasks and responses are under way. -/
def Balanced (p : ℕ → ℤ → Bool) (service : Service ι κ) : Prop :=
  total (waits p) service.session =
    tasksQueued p service.taskQueue + total (holds p) service.worker +
      responsesQueued p service.respQueue

omit [DecidableEq ι] [DecidableEq κ] in
theorem balanced_start (world : World) : Balanced p (start world : Service ι κ) := by
  have hwait : total (waits p) (start world : Service ι κ).session = 0 :=
    total_eq_zero.mpr fun _ => rfl
  have hheld : total (holds p) (start world : Service ι κ).worker = 0 :=
    total_eq_zero.mpr fun _ => rfl
  unfold Balanced
  rw [hwait, hheld]
  rfl

/-- A step keeps the balance, if what a session receives bears its label. -/
theorem Balanced.step (h : Balanced p service) (hgenuine : Genuine service)
    (hstep : step taskCapacity respCapacity action service = some service')
    (hsame : ∀ s task m queue, action = .receiveResponse s → service.session s = .waiting task →
      msgrcv task.body.requestId service.respQueue = some (m, queue) →
      p task.serial task.body.requestId = p m.body.serial m.body.body.mtype) :
    Balanced p service' := by
  unfold Balanced at h ⊢
  cases action with
  | getNextRequestId s user req =>
      obtain ⟨hs, hpass, rfl⟩ := step_getNextRequestId.mp hstep
      have hwait := total_update (waits p) service.session s (.ready ⟨service.ledger.issued.length,
        clientTask user (CloudSync.getNextRequestId service.requestCounter).1 req⟩)
      rw [hs] at hwait
      simp only [waits] at hwait ⊢
      omega
  | sendTask s =>
      obtain ⟨task, hs, -, rfl⟩ := step_sendTask.mp hstep
      have hwait := total_update (waits p) service.session s (.waiting task)
      rw [hs] at hwait
      simp only [waits, tasksQueued, List.countP_append, List.countP_singleton] at hwait h ⊢
      omega
  | receiveTask w =>
      obtain ⟨hw, m, queue, hreceive, rfl⟩ := step_receiveTask.mp hstep
      have hheld := total_update (holds p) service.worker w
        (.working m.body (CloudSync.processTask m.body.body))
      have hqueue := countP_msgrcv hreceive fun m => p m.body.serial m.body.body.requestId
      rw [hw] at hheld
      simp only [holds, tasksQueued] at hheld h ⊢
      omega
  | processTask w e =>
      obtain ⟨task, β, c, next, hw, rfl⟩ | ⟨task, resp, hw, rfl⟩ := step_processTask hstep
      · have hheld := total_update (holds p) service.worker w
          (.working task (next (CloudSync.worker.exec e c service.world).1))
        rw [hw] at hheld
        simp only [holds] at hheld ⊢
        omega
      · have hworking := hgenuine.workers w
        have hheld := total_update (holds p) service.worker w (.done ⟨task.serial, resp⟩)
        rw [hw] at hworking hheld
        have haddressed := processTask_addressed task.body resp (hworking.2 resp rfl)
        simp only [holds, haddressed] at hheld ⊢
        omega
  | sendResponse w =>
      obtain ⟨resp, hw, -, rfl⟩ := step_sendResponse.mp hstep
      have hheld := total_update (holds p) service.worker w .idle
      rw [hw] at hheld
      simp only [holds, responsesQueued, List.countP_append, List.countP_singleton] at hheld h ⊢
      omega
  | receiveResponse s =>
      obtain ⟨task, m, queue, hs, hreceive, rfl⟩ := step_receiveResponse.mp hstep
      have hwait := total_update (waits p) service.session s .idle
      have hqueue := countP_msgrcv hreceive fun m => p m.body.serial m.body.body.mtype
      rw [hs] at hwait
      simp only [waits, responsesQueued, hsame s task m queue rfl hs hreceive] at hwait h ⊢
      omega

omit [DecidableEq ι] [Fintype κ] in
/-- If there is someone to wait for a label, a session does. -/
theorem exists_waiting {p : ℕ → ℤ → Bool} {session : ι → SessionPhase}
    (h : total (waits p) session ≠ 0) :
    ∃ s task, session s = .waiting task ∧ p task.serial task.body.requestId = true := by
  obtain ⟨s, hs⟩ := not_forall.mp (mt total_eq_zero.mpr h)
  cases hphase : session s with
  | idle =>
      rw [hphase] at hs
      exact absurd rfl hs
  | ready task =>
      rw [hphase] at hs
      exact absurd rfl hs
  | waiting task =>
      rw [hphase] at hs
      refine ⟨s, task, hphase, ?_⟩
      by_contra hp
      exact hs (if_neg hp)

omit [Fintype ι] [Fintype κ] in
theorem reached_genuine {within : Service ι κ → Prop} {world : World}
    (hreach : Reached (step taskCapacity respCapacity) within (start world) service) :
    Genuine service :=
  hreach.invariant (genuine_start world) fun _ _ _ h hstep _ => h.step hstep

/-- The balance for ids holds in every state, even when ids have been given out
again: what a session receives bears the id it waits for. -/
theorem reached_balanced {within : Service ι κ → Prop} {world : World}
    (hreach : Reached (step taskCapacity respCapacity) within (start world) service)
    (q : ℤ → Bool) : Balanced (fun _ id => q id) service := by
  have hboth : Genuine service ∧ Balanced (fun _ id => q id) service := by
    apply hreach.invariant (I := fun service => Genuine service ∧ Balanced (fun _ id => q id) service)
    · exact ⟨genuine_start world, balanced_start world⟩
    · rintro action before after ⟨hgenuine, hbalanced⟩ hstep -
      refine ⟨hgenuine.step hstep, hbalanced.step hgenuine hstep ?_⟩
      intro s task m queue _ _ hreceive
      have htype := (msgrcv_spec hreceive).1
      rw [(hgenuine.respQueue m (mem_of_msgrcv hreceive).1).1] at htype
      show q _ = q _
      rw [htype]
  exact hboth.2

end Service

end CloudSync
