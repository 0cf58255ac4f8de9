import CloudSync.Concurrent.Workers
import CloudSync.Sessions.Balance

/-!
# The service runs a pool of tasks

Seen from the files, the service is a pool with one thread for each request that was
given an id, its serial number: every run of sessions, queues and workers has a run of
the pool behind it that leads to the same world (`exists_pool`).  A thread that a
worker has not received yet is where `process_task` begins; one that a worker is at
stands where the worker stands; and a response on record is what its thread returned
(`Matches`).

A task is received at most once (`InLine`): it is at one place on its way, and a
worker takes it off the queue.  This needs no bound on the ids that are given out, since
the queue of tasks is read in order and not by id.
-/

namespace CloudSync

open CText Calls Calls.Prog MessageQueue

namespace Service

variable {ι κ : Type} [DecidableEq ι] [DecidableEq κ] {taskCapacity respCapacity : ℕ}
  {service service' : Service ι κ} {action : ServiceAction ι κ}

/-! ## A task is received once -/

/-- No worker has received the task: it has no id yet, its session is about to send it,
or it is in the queue. -/
def Unserved (service : Service ι κ) (n : ℕ) : Prop :=
  service.ledger.issued.length ≤ n ∨
    (∃ s task, service.session s = .ready task ∧ task.serial = n) ∨
    ∃ m ∈ service.taskQueue, m.body.serial = n

/-- Each task is at one place on its way to a worker, and at one worker. -/
structure InLine (service : Service ι κ) : Prop where
  nodup : (service.taskQueue.map fun m => m.body.serial).Nodup
  ready : ∀ s task, service.session s = .ready task →
    ∀ m ∈ service.taskQueue, m.body.serial ≠ task.serial
  working : ∀ w task prog, service.worker w = .working task prog → ¬ service.Unserved task.serial
  distinct : ∀ w w' task task' prog prog', service.worker w = .working task prog →
    service.worker w' = .working task' prog' → task.serial = task'.serial → w = w'

omit [DecidableEq ι] [DecidableEq κ] in
theorem inLine_start (world : World) : InLine (start world : Service ι κ) where
  nodup := List.nodup_nil
  ready := fun _ _ h => by simp only [start, reduceCtorEq] at h
  working := fun _ _ _ h => by simp only [start, reduceCtorEq] at h
  distinct := fun _ _ _ _ _ _ h => by simp only [start, reduceCtorEq] at h

omit [DecidableEq ι] in
theorem AskedFor.lt {ledger : Ledger ι} {s : ι} {task : Stamped TaskMessage}
    (h : AskedFor ledger s task) : task.serial < ledger.issued.length :=
  (List.getElem?_eq_some_iff.mp h).1

omit [DecidableEq ι] in
/-- A task was asked for by one session. -/
theorem AskedFor.session_eq {ledger : Ledger ι} {s s' : ι} {task task' : Stamped TaskMessage}
    (h : AskedFor ledger s task) (h' : AskedFor ledger s' task')
    (hserial : task.serial = task'.serial) : s = s' := by
  unfold AskedFor at h h'
  rw [hserial, h'] at h
  exact (congrArg Asked.session (Option.some.inj h)).symm

/-- The other parties stand where they stood. -/
theorem eq_of_update {α : Type} {β : Type*} [DecidableEq α] {party : α → β} {i j : α} {old new : β}
    (h : Function.update party i new j = old) (hnew : new ≠ old) : party j = old := by
  by_cases hj : j = i
  · subst hj
    rw [Function.update_self] at h
    exact absurd h hnew
  · rwa [Function.update_of_ne hj] at h

omit [DecidableEq ι] in
/-- A worker that has moved on is not the one at the task. -/
theorem working_of_update {w w' : κ} {phase : WorkerPhase} {task : Stamped TaskMessage}
    {prog : Prog WorkerCall ResponseMessage} (hphase : phase ≠ .working task prog)
    (h : Function.update service.worker w phase w' = .working task prog) :
    service.worker w' = .working task prog := eq_of_update h hphase

/-- A step brings no task back on its way. -/
theorem unserved_of_step (hstep : step taskCapacity respCapacity action service = some service')
    {n : ℕ} (h : service'.Unserved n) : service.Unserved n := by
  cases action with
  | getNextRequestId s user req =>
      obtain ⟨hs, hpass, rfl⟩ := step_getNextRequestId.mp hstep
      rcases h with hn | ⟨s', task, hs', rfl⟩ | hqueue
      · left
        simp only [List.length_append, List.length_singleton] at hn
        omega
      · by_cases hss : s' = s
        · subst hss
          simp only [Function.update_self, SessionPhase.ready.injEq] at hs'
          exact Or.inl (hs' ▸ le_rfl)
        · simp only [Function.update_of_ne hss] at hs'
          exact Or.inr (Or.inl ⟨s', task, hs', rfl⟩)
      · exact Or.inr (Or.inr hqueue)
  | sendTask s =>
      obtain ⟨task, hs, -, rfl⟩ := step_sendTask.mp hstep
      rcases h with hn | ⟨s', task', hs', rfl⟩ | ⟨m, hm, rfl⟩
      · exact Or.inl hn
      · exact Or.inr (Or.inl ⟨s', task', eq_of_update hs' (by simp), rfl⟩)
      · rcases List.mem_append.mp hm with hm | hm
        · exact Or.inr (Or.inr ⟨m, hm, rfl⟩)
        · obtain rfl := List.mem_singleton.mp hm
          exact Or.inr (Or.inl ⟨s, task, hs, rfl⟩)
  | receiveTask w =>
      obtain ⟨hw, m, queue, hreceive, rfl⟩ := step_receiveTask.mp hstep
      rcases h with hn | hready | ⟨m', hm', rfl⟩
      · exact Or.inl hn
      · exact Or.inr (Or.inl hready)
      · exact Or.inr (Or.inr ⟨m', (mem_of_msgrcv hreceive).2 m' hm', rfl⟩)
  | processTask w e =>
      obtain ⟨task, β, c, next, hw, rfl⟩ | ⟨task, resp, hw, rfl⟩ := step_processTask hstep
      · exact h
      · exact h
  | sendResponse w =>
      obtain ⟨resp, hw, -, rfl⟩ := step_sendResponse.mp hstep
      exact h
  | receiveResponse s =>
      obtain ⟨task, m, queue, hs, hreceive, rfl⟩ := step_receiveResponse.mp hstep
      rcases h with hn | ⟨s', task', hs', rfl⟩ | hqueue
      · exact Or.inl hn
      · exact Or.inr (Or.inl ⟨s', task', eq_of_update hs' (by simp), rfl⟩)
      · exact Or.inr (Or.inr hqueue)

omit [DecidableEq ι] [DecidableEq κ] in
/-- Another worker is at another task. -/
theorem InLine.ne_serial (h : InLine service) {w w' : κ} {task task' : Stamped TaskMessage}
    {prog prog' : Prog WorkerCall ResponseMessage} (hw : service.worker w = .working task prog)
    (hw' : service.worker w' = .working task' prog') (hne : w' ≠ w) : task'.serial ≠ task.serial :=
  fun hserial => hne (h.distinct w' w task' task prog' prog hw' hw hserial)

omit [DecidableEq ι] [DecidableEq κ] in
/-- Of the messages in the queue, the one received is the only one of its task. -/
theorem InLine.received (h : InLine service) {m : Message (Stamped TaskMessage)}
    {queue : List (Message (Stamped TaskMessage))}
    (hreceive : msgrcv 1 service.taskQueue = some (m, queue)) :
    (queue.map fun m => m.body.serial).Nodup ∧ ∀ m' ∈ queue, m'.body.serial ≠ m.body.serial := by
  obtain ⟨-, before, after, hbefore, rfl, -⟩ := msgrcv_spec hreceive
  have hnodup := h.nodup
  rw [hbefore, List.map_append, List.map_cons] at hnodup
  have hmiddle := List.nodup_middle.mp hnodup
  rw [List.nodup_cons, ← List.map_append] at hmiddle
  refine ⟨hmiddle.2, fun m' hm' heq => hmiddle.1 ?_⟩
  rw [← heq]
  exact List.mem_map_of_mem hm'

theorem InLine.step (h : InLine service) (hgenuine : Genuine service)
    (hstep : step taskCapacity respCapacity action service = some service') : InLine service' := by
  have hserved : ∀ w task prog, service.worker w = .working task prog →
      ¬ service'.Unserved task.serial :=
    fun w task prog hw hunserved => h.working w task prog hw (unserved_of_step hstep hunserved)
  cases action with
  | getNextRequestId s user req =>
      obtain ⟨hs, hpass, rfl⟩ := step_getNextRequestId.mp hstep
      refine ⟨h.nodup, ?_, hserved, h.distinct⟩
      intro s' task hs' m hm
      obtain ⟨-, s'', hasked⟩ := hgenuine.taskQueue m hm
      by_cases hss : s' = s
      · subst hss
        simp only [Function.update_self, SessionPhase.ready.injEq] at hs'
        rw [← hs']
        exact hasked.lt.ne
      · simp only [Function.update_of_ne hss] at hs'
        exact h.ready s' task hs' m hm
  | sendTask s =>
      obtain ⟨task, hs, -, rfl⟩ := step_sendTask.mp hstep
      have hfresh := h.ready s task hs
      refine ⟨?_, ?_, hserved, h.distinct⟩
      · rw [List.map_append, List.map_singleton, List.nodup_append]
        refine ⟨h.nodup, List.nodup_singleton _, ?_⟩
        intro n hn k hk
        obtain ⟨m, hm, rfl⟩ := List.mem_map.mp hn
        obtain rfl := List.mem_singleton.mp hk
        exact hfresh m hm
      · intro s' task' hs' m hm
        have hready := eq_of_update hs' (by simp)
        rcases List.mem_append.mp hm with hm | hm
        · exact h.ready s' task' hready m hm
        · obtain rfl := List.mem_singleton.mp hm
          intro hserial
          -- the session that was about to send now waits
          have hasked : AskedFor service.ledger s task := hgenuine.sessions s task (by rw [hs]; rfl)
          have hasked' : AskedFor service.ledger s' task' :=
            hgenuine.sessions s' task' (by rw [hready]; rfl)
          obtain rfl := hasked.session_eq hasked' hserial
          simp only [Function.update_self, reduceCtorEq] at hs'
  | receiveTask w =>
      obtain ⟨hw, m, queue, hreceive, rfl⟩ := step_receiveTask.mp hstep
      obtain ⟨hm, hqueue⟩ := mem_of_msgrcv hreceive
      obtain ⟨hnodup, hother⟩ := h.received hreceive
      have hfree : ∀ w' task prog, service.worker w' = .working task prog →
          task.serial ≠ m.body.serial := fun w' task prog hw' heq =>
        h.working w' task prog hw' (Or.inr (Or.inr ⟨m, hm, heq.symm⟩))
      refine ⟨hnodup, fun s task hs m' hm' => h.ready s task hs m' (hqueue m' hm'), ?_, ?_⟩
      · intro w' task prog hw'
        by_cases hww : w' = w
        · subst hww
          simp only [Function.update_self, WorkerPhase.working.injEq] at hw'
          obtain ⟨rfl, -⟩ := hw'
          rintro (hn | ⟨s, task, hs, hserial⟩ | ⟨m', hm', hserial⟩)
          · obtain ⟨-, s, hasked⟩ := hgenuine.taskQueue m hm
            exact absurd hn (not_le.mpr hasked.lt)
          · exact h.ready s task hs m hm hserial.symm
          · exact hother m' hm' hserial
        · simp only [Function.update_of_ne hww] at hw'
          exact hserved w' task prog hw'
      · intro w₁ w₂ task₁ task₂ prog₁ prog₂ hw₁ hw₂ hserial
        by_cases h₁ : w₁ = w <;> by_cases h₂ : w₂ = w
        · rw [h₁, h₂]
        · subst h₁
          simp only [Function.update_self, WorkerPhase.working.injEq] at hw₁
          simp only [Function.update_of_ne h₂] at hw₂
          obtain ⟨rfl, -⟩ := hw₁
          exact absurd hserial.symm (hfree w₂ task₂ prog₂ hw₂)
        · subst h₂
          simp only [Function.update_self, WorkerPhase.working.injEq] at hw₂
          simp only [Function.update_of_ne h₁] at hw₁
          obtain ⟨rfl, -⟩ := hw₂
          exact absurd hserial (hfree w₁ task₁ prog₁ hw₁)
        · simp only [Function.update_of_ne h₁] at hw₁
          simp only [Function.update_of_ne h₂] at hw₂
          exact h.distinct w₁ w₂ task₁ task₂ prog₁ prog₂ hw₁ hw₂ hserial
  | processTask w e =>
      obtain ⟨task, β, c, next, hw, rfl⟩ | ⟨task, resp, hw, rfl⟩ := step_processTask hstep
      · -- the worker stays at its task
        have hbefore : ∀ {w' task' prog'},
            Function.update service.worker w
              (.working task (next (CloudSync.worker.exec e c service.world).1)) w' =
                .working task' prog' → ∃ prog, service.worker w' = .working task' prog := by
          intro w' task' prog' hw'
          by_cases hww : w' = w
          · subst hww
            simp only [Function.update_self, WorkerPhase.working.injEq] at hw'
            obtain ⟨rfl, -⟩ := hw'
            exact ⟨_, hw⟩
          · rw [Function.update_of_ne hww] at hw'
            exact ⟨prog', hw'⟩
        refine ⟨h.nodup, h.ready, ?_, ?_⟩
        · intro w' task' prog' hw'
          obtain ⟨prog, hprog⟩ := hbefore hw'
          exact hserved w' task' prog hprog
        · intro w₁ w₂ task₁ task₂ prog₁ prog₂ hw₁ hw₂ hserial
          obtain ⟨prog₁', h₁⟩ := hbefore hw₁
          obtain ⟨prog₂', h₂⟩ := hbefore hw₂
          exact h.distinct w₁ w₂ task₁ task₂ prog₁' prog₂' h₁ h₂ hserial
      · refine ⟨h.nodup, h.ready, ?_, ?_⟩
        · exact fun w' task' prog' hw' => hserved w' task' prog' (working_of_update (by simp) hw')
        · exact fun w₁ w₂ task₁ task₂ prog₁ prog₂ hw₁ hw₂ =>
            h.distinct w₁ w₂ task₁ task₂ prog₁ prog₂ (working_of_update (by simp) hw₁)
              (working_of_update (by simp) hw₂)
  | sendResponse w =>
      obtain ⟨resp, hw, -, rfl⟩ := step_sendResponse.mp hstep
      refine ⟨h.nodup, h.ready, ?_, ?_⟩
      · exact fun w' task' prog' hw' => hserved w' task' prog' (working_of_update (by simp) hw')
      · exact fun w₁ w₂ task₁ task₂ prog₁ prog₂ hw₁ hw₂ =>
          h.distinct w₁ w₂ task₁ task₂ prog₁ prog₂ (working_of_update (by simp) hw₁)
            (working_of_update (by simp) hw₂)
  | receiveResponse s =>
      obtain ⟨task, m, queue, hs, hreceive, rfl⟩ := step_receiveResponse.mp hstep
      refine ⟨h.nodup, ?_, hserved, h.distinct⟩
      exact fun s' task' hs' m' hm' => h.ready s' task' (eq_of_update hs' (by simp)) m' hm'

/-! ## The pool behind the service -/

/-- The tasks of the pool are those that were given ids. -/
def Issues (ledger : Ledger ι) (tasks : ℕ → TaskMessage) : Prop :=
  ∀ n asked, ledger.issued[n]? = some asked → tasks n = asked.task

omit [DecidableEq ι] in
/-- The tasks by their serial numbers; numbers that were not given out stand for
`default`. -/
def tasksOf (ledger : Ledger ι) (default : TaskMessage) (n : ℕ) : TaskMessage :=
  (ledger.issued[n]?.map Asked.task).getD default

omit [DecidableEq ι] in
theorem issues_tasksOf (ledger : Ledger ι) (default : TaskMessage) :
    Issues ledger (tasksOf ledger default) := by
  intro n asked hasked
  unfold tasksOf
  rw [hasked]
  rfl

omit [DecidableEq ι] in
/-- What holds of all tasks that were given ids. -/
theorem tasksOf_forall {ledger : Ledger ι} {default : TaskMessage} {P : ℕ → TaskMessage → Prop}
    (hissued : ∀ n asked, ledger.issued[n]? = some asked → P n asked.task)
    (hdefault : ∀ n, P n default) (n : ℕ) : P n (tasksOf ledger default n) := by
  unfold tasksOf
  cases hn : ledger.issued[n]? with
  | none => exact hdefault n
  | some asked => exact hissued n asked hn

/-- A step gives an id to a request that was let through, or to none. -/
theorem issued_of_step (hstep : step taskCapacity respCapacity action service = some service') :
    service'.ledger.issued = service.ledger.issued ∨
      ∃ s user id req, PassedOn user req ∧
        service'.ledger.issued = service.ledger.issued ++ [⟨s, clientTask user id req⟩] := by
  cases action with
  | getNextRequestId s user req =>
      obtain ⟨hs, hpass, rfl⟩ := step_getNextRequestId.mp hstep
      exact Or.inr ⟨s, user, _, req, hpass, rfl⟩
  | sendTask s =>
      obtain ⟨task, hs, -, rfl⟩ := step_sendTask.mp hstep
      exact Or.inl rfl
  | receiveTask w =>
      obtain ⟨hw, m, queue, hreceive, rfl⟩ := step_receiveTask.mp hstep
      exact Or.inl rfl
  | processTask w e =>
      obtain ⟨task, β, c, next, hw, rfl⟩ | ⟨task, resp, hw, rfl⟩ := step_processTask hstep
      · exact Or.inl rfl
      · exact Or.inl rfl
  | sendResponse w =>
      obtain ⟨resp, hw, -, rfl⟩ := step_sendResponse.mp hstep
      exact Or.inl rfl
  | receiveResponse s =>
      obtain ⟨task, m, queue, hs, hreceive, rfl⟩ := step_receiveResponse.mp hstep
      exact Or.inl rfl

/-- The ids that were given out stay given out. -/
theorem Issues.before {tasks : ℕ → TaskMessage} (h : Issues service'.ledger tasks)
    (hstep : step taskCapacity respCapacity action service = some service') :
    Issues service.ledger tasks := by
  rcases issued_of_step hstep with hsame | ⟨s, user, id, req, -, hgrown⟩
  · intro n asked hasked
    exact h n asked (hsame ▸ hasked)
  · intro n asked hasked
    apply h n asked
    rw [hgrown, List.getElem?_append_left (List.getElem?_eq_some_iff.mp hasked).1]
    exact hasked

/-- The pool stands where the service stands. -/
structure Matches {γ : Type} (tasks : ℕ → TaskMessage) (service : Service ι κ)
    (pool : Pool WorkerCall γ ResponseMessage ℕ World) : Prop where
  shared : pool.shared = service.world
  unserved : ∀ n, service.Unserved n → (pool.thread n).prog = CloudSync.processTask (tasks n)
  working : ∀ w task prog, service.worker w = .working task prog →
    (pool.thread task.serial).prog = prog
  processed : ∀ resp ∈ service.ledger.processed, ¬ service.Unserved resp.serial ∧
    (pool.thread resp.serial).prog = .ret resp.body

section Matches

variable {γ : Type} {tasks : ℕ → TaskMessage} {mon : ℕ → Monitor WorkerCall γ}
  {pool : Pool WorkerCall γ ResponseMessage ℕ World}

omit [DecidableEq ι] [DecidableEq κ] in
theorem matches_start (tasks : ℕ → TaskMessage) (mon : ℕ → Monitor WorkerCall γ) (world : World) :
    Matches tasks (start world : Service ι κ)
      (Pool.start mon (fun n => CloudSync.processTask (tasks n)) world) where
  shared := rfl
  unserved := fun _ _ => rfl
  working := fun _ _ _ h => by simp only [start, reduceCtorEq] at h
  processed := fun _ h => absurd h List.not_mem_nil

/-- A step that no thread takes part in. -/
theorem Matches.idle (h : Matches tasks service pool)
    (hstep : Service.step taskCapacity respCapacity action service = some service')
    (hworld : service'.world = service.world)
    (hworking : ∀ w task prog, service'.worker w = .working task prog →
      (pool.thread task.serial).prog = prog)
    (hprocessed : service'.ledger.processed = service.ledger.processed) :
    Matches tasks service' pool where
  shared := h.shared.trans hworld.symm
  unserved := fun n hn => h.unserved n (unserved_of_step hstep hn)
  working := hworking
  processed := by
    rw [hprocessed]
    intro resp hresp
    obtain ⟨hserved, hprog⟩ := h.processed resp hresp
    exact ⟨fun hn => hserved (unserved_of_step hstep hn), hprog⟩

variable (mon) in
/-- A step of the service is a step of one thread of the pool, or of none. -/
theorem Matches.step (h : Matches tasks service pool) (hgenuine : Genuine service)
    (hline : InLine service) (hissues : Issues service.ledger tasks)
    (hstep : Service.step taskCapacity respCapacity action service = some service') :
    Matches tasks service' pool ∨
      ∃ n e, Matches tasks service' (pool.step CloudSync.worker mon n e) := by
  cases action with
  | getNextRequestId s user req =>
      have hwhole := hstep
      obtain ⟨hs, hpass, rfl⟩ := step_getNextRequestId.mp hstep
      exact Or.inl (h.idle hwhole rfl h.working rfl)
  | sendTask s =>
      have hwhole := hstep
      obtain ⟨task, hs, -, rfl⟩ := step_sendTask.mp hstep
      exact Or.inl (h.idle hwhole rfl h.working rfl)
  | receiveTask w =>
      have hwhole := hstep
      obtain ⟨hw, m, queue, hreceive, rfl⟩ := step_receiveTask.mp hstep
      have hm := (mem_of_msgrcv hreceive).1
      refine Or.inl (h.idle hwhole rfl ?_ rfl)
      intro w' task prog hw'
      by_cases hww : w' = w
      · subst hww
        simp only [Function.update_self, WorkerPhase.working.injEq] at hw'
        obtain ⟨rfl, rfl⟩ := hw'
        obtain ⟨-, s, hasked⟩ := hgenuine.taskQueue m hm
        have htask : tasks m.body.serial = m.body.body := hissues _ _ hasked
        rw [h.unserved m.body.serial (Or.inr (Or.inr ⟨m, hm, rfl⟩)), htask]
      · simp only [Function.update_of_ne hww] at hw'
        exact h.working w' task prog hw'
  | processTask w e =>
      have hwhole := hstep
      obtain ⟨task, β, c, next, hw, rfl⟩ | ⟨task, resp, hw, rfl⟩ := step_processTask hstep
      · right
        have hprog := h.working w task _ hw
        have hmoved : pool.step CloudSync.worker mon task.serial e = _ := Pool.step_call hprog e
        rw [h.shared] at hmoved
        refine ⟨task.serial, e, ?_, ?_, ?_, ?_⟩
        · rw [hmoved]
        · intro n hn
          have hne : n ≠ task.serial := by
            rintro rfl
            exact hline.working w task _ hw (unserved_of_step hwhole hn)
          rw [Pool.step_thread_of_ne pool hne]
          exact h.unserved n (unserved_of_step hwhole hn)
        · intro w' task' prog' hw'
          by_cases hww : w' = w
          · subst hww
            simp only [Function.update_self, WorkerPhase.working.injEq] at hw'
            obtain ⟨rfl, rfl⟩ := hw'
            rw [hmoved]
            simp only [Function.update_self]
          · simp only [Function.update_of_ne hww] at hw'
            rw [Pool.step_thread_of_ne pool (hline.ne_serial hw hw' hww)]
            exact h.working w' task' prog' hw'
        · intro resp hresp
          obtain ⟨hserved, hret⟩ := h.processed resp hresp
          have hne : resp.serial ≠ task.serial := by
            intro heq
            rw [heq, hprog] at hret
            simp only [reduceCtorEq] at hret
          rw [Pool.step_thread_of_ne pool hne]
          exact ⟨fun hn => hserved (unserved_of_step hwhole hn), hret⟩
      · left
        refine ⟨h.shared, fun n hn => h.unserved n (unserved_of_step hwhole hn), ?_, ?_⟩
        · exact fun w' task' prog' hw' => h.working w' task' prog' (working_of_update (by simp) hw')
        · intro resp' hresp
          rcases List.mem_append.mp hresp with hresp | hresp
          · obtain ⟨hserved, hret⟩ := h.processed resp' hresp
            exact ⟨fun hn => hserved (unserved_of_step hwhole hn), hret⟩
          · obtain rfl := List.mem_singleton.mp hresp
            exact ⟨fun hn => hline.working w task _ hw (unserved_of_step hwhole hn),
              h.working w task _ hw⟩
  | sendResponse w =>
      have hwhole := hstep
      obtain ⟨resp, hw, -, rfl⟩ := step_sendResponse.mp hstep
      refine Or.inl (h.idle hwhole rfl ?_ rfl)
      exact fun w' task' prog' hw' => h.working w' task' prog' (working_of_update (by simp) hw')
  | receiveResponse s =>
      have hwhole := hstep
      obtain ⟨task, m, queue, hs, hreceive, rfl⟩ := step_receiveResponse.mp hstep
      exact Or.inl (h.idle hwhole rfl h.working rfl)

/-- Behind every state of the service stands a state of the pool. -/
theorem exists_pool {within : Service ι κ → Prop} {world : World}
    (hreach : Reached (Service.step taskCapacity respCapacity) within (start world) service)
    (hissues : Issues service.ledger tasks) (mon : ℕ → Monitor WorkerCall γ) :
    ∃ pool, Reach CloudSync.worker mon (fun _ _ _ => True)
      (Pool.start mon (fun n => CloudSync.processTask (tasks n)) world) pool ∧
      Matches tasks service pool := by
  have hall : Genuine service ∧ InLine service ∧ ∀ tasks, Issues service.ledger tasks →
      ∃ pool, Reach CloudSync.worker mon (fun _ _ _ => True)
        (Pool.start mon (fun n => CloudSync.processTask (tasks n)) world) pool ∧
        Matches tasks service pool := by
    clear hissues
    induction hreach with
    | first =>
        exact ⟨genuine_start world, inLine_start world,
          fun tasks _ => ⟨_, .refl, matches_start tasks mon world⟩⟩
    | step _ action hstep _ ih =>
        obtain ⟨hgenuine, hline, hpools⟩ := ih
        refine ⟨hgenuine.step hstep, hline.step hgenuine hstep, fun tasks hissues => ?_⟩
        obtain ⟨pool, hpool, hmatches⟩ := hpools tasks (hissues.before hstep)
        rcases hmatches.step mon hgenuine hline (hissues.before hstep) hstep with
          hsame | ⟨n, e, hmoved⟩
        · exact ⟨pool, hpool, hsame⟩
        · exact ⟨_, hpool.step trivial, hmoved⟩
  exact hall.2.2 tasks hissues

end Matches

end Service

open Service in
/-- Every run of the service is a run of the workers on the tasks that were given ids,
call by call: the world is the same, every worker stands where its task stands, and the
responses are those the tasks returned. -/
theorem service_runs_workers {ι κ : Type} [DecidableEq ι] [DecidableEq κ]
    {taskCapacity respCapacity : ℕ} {within : Service ι κ → Prop} {world : World}
    {service : Service ι κ}
    (hreach : Reached (step taskCapacity respCapacity) within (start world) service)
    {tasks : ℕ → TaskMessage} (htasks : Issues service.ledger tasks) :
    ∃ workers : Workers ℕ, WorkersReach tasks (fun _ _ _ => True) world workers ∧
      workers.shared = service.world ∧
      (∀ n, service.Unserved n → (workers.thread n).prog = processTask (tasks n)) ∧
      (∀ w task prog, service.worker w = .working task prog →
        (workers.thread task.serial).prog = prog) ∧
      ∀ resp ∈ service.ledger.processed, (workers.thread resp.serial).prog = .ret resp.body := by
  obtain ⟨workers, hworkers, hmatches⟩ := exists_pool hreach htasks fun n => standing (tasks n)
  exact ⟨workers, hworkers, hmatches.shared, hmatches.unserved, hmatches.working,
    fun resp hresp => (hmatches.processed resp hresp).2⟩

open Service in
/-- Behind a `LIST` that is being processed stands the thread number 0. -/
theorem list_runs_worker :
    ∃ service : Service Unit Unit, Reached (step 1 1) (fun _ => True) (start freshWorld) service ∧
      service.ledger.issued.length = 1 ∧
      ∃ workers : Workers ℕ, WorkersReach
        (tasksOf service.ledger (sampleTask .list 2 roleUser "")) (fun _ _ _ => True) freshWorld
        workers ∧ workers.shared = service.world := by
  have hfirst : Reached (step 1 1) (fun _ => True) (start freshWorld)
      (start freshWorld : Service Unit Unit) := .first
  have hasked := hfirst.step (.getNextRequestId () administrator listRequest)
    (step_getNextRequestId.mpr ⟨rfl, listRequest_passedOn, rfl⟩) trivial
  have hsent := hasked.step (.sendTask ())
    (step_sendTask.mpr ⟨_, rfl, Nat.zero_lt_one, rfl⟩) trivial
  have htaken := hsent.step (.receiveTask ())
    (step_receiveTask.mpr ⟨rfl, _, _, rfl, rfl⟩) trivial
  have hlisted := htaken.step (.processTask () (Env.calm 0)) rfl trivial
  refine ⟨_, hlisted, rfl, ?_⟩
  obtain ⟨workers, hworkers, hshared, -⟩ := service_runs_workers hlisted (issues_tasksOf _ _)
  exact ⟨workers, hworkers, hshared⟩

end CloudSync
