import CloudSync.Lib.Interleaving
import CloudSync.Lib.MessageQueue
import CloudSync.Server

/-!
# Sessions, queues and workers

A session of `handle_client` gives a request that it lets through an id, sends the
task and waits for the response of that id.  A worker of `worker_main` receives a
task, processes it and sends the response.  The two queues hold bounded numbers of
messages, and whoever finds one full or finds no message for it blocks.

`Service.step` has one action for each of these steps; processing goes call by
call, in between anything may happen.  An action that is not possible has no
result.  Tasks and responses carry a serial number, the number of ids given out
before, and the `Ledger` is a record of what has happened: neither is seen by the
program.
-/

namespace CloudSync

open CText Calls Calls.Prog MessageQueue

/-! ## Request ids -/

/-- `get_next_request_id`: the id, and the counter after it. -/
def getNextRequestId (requestCounter : ℤ) : ℤ × ℤ :=
  let id := requestCounter
  let requestCounter := requestCounter + 1
  (id, if requestCounter > 99999 then 100 else requestCounter)

/-- The counter after the first `n` ids. -/
def requestCounterAfter (n : ℕ) : ℤ := (fun counter => (getNextRequestId counter).2)^[n] 100

/-- The id number `n`. -/
def requestId (n : ℕ) : ℤ := (getNextRequestId (requestCounterAfter n)).1

theorem requestCounterAfter_succ (n : ℕ) :
    requestCounterAfter (n + 1) = (getNextRequestId (requestCounterAfter n)).2 :=
  Function.iterate_succ_apply' _ n 100

/-- The counter has a period of 99900. -/
theorem requestId_eq (n : ℕ) : requestId n = 100 + (n % 99900 : ℕ) := by
  show requestCounterAfter n = 100 + (n % 99900 : ℕ)
  induction n with
  | zero => rfl
  | succ n ih =>
      rw [requestCounterAfter_succ, ih]
      dsimp only [getNextRequestId]
      split <;> omega

theorem requestId_injective_within {m n : ℕ} (h : requestId m = requestId n)
    (hmn : m < n + 99900) (hnm : n < m + 99900) : m = n := by
  rw [requestId_eq, requestId_eq] at h
  omega

/-! ## The states -/

/-- A task or a response, with the serial number of the request. -/
structure Stamped (α : Type) where
  serial : ℕ
  body : α

/-- Where the command loop of a session stands. -/
inductive SessionPhase
  | idle
  | ready (task : Stamped TaskMessage)
  | waiting (task : Stamped TaskMessage)

/-- The request of the session that has no response yet. -/
def SessionPhase.outstanding : SessionPhase → Option (Stamped TaskMessage)
  | idle => none
  | ready task => some task
  | waiting task => some task

/-- Where the main loop of a worker stands; `prog` is what is left of the task. -/
inductive WorkerPhase : Type 1
  | idle
  | working (task : Stamped TaskMessage) (prog : Prog WorkerCall ResponseMessage)
  | done (resp : Stamped ResponseMessage)

/-- A task, and the session that asked for it. -/
structure Asked (ι : Type) where
  session : ι
  task : TaskMessage

/-- A response that a session has received, and the task it sent. -/
structure Delivery (ι : Type) where
  session : ι
  sent : Stamped TaskMessage
  got : Stamped ResponseMessage

/-- What has happened so far: the tasks that were given ids, in order, the responses
computed, sent and received. -/
structure Ledger (ι : Type) where
  issued : List (Asked ι)
  processed : List (Stamped ResponseMessage)
  answered : List (Stamped ResponseMessage)
  delivered : List (Delivery ι)

/-- Sessions `ι`, workers `κ` and what they share. -/
structure Service (ι κ : Type) : Type 1 where
  requestCounter : ℤ
  session : ι → SessionPhase
  worker : κ → WorkerPhase
  taskQueue : List (Message (Stamped TaskMessage))
  respQueue : List (Message (Stamped ResponseMessage))
  world : World
  ledger : Ledger ι

/-- The steps of sessions and workers. -/
inductive ServiceAction (ι κ : Type)
  | getNextRequestId (s : ι) (user : UserInfo) (req : ClientRequest)
  | sendTask (s : ι)
  | receiveTask (w : κ)
  | processTask (w : κ) (e : Env)
  | sendResponse (w : κ)
  | receiveResponse (s : ι)

/-- The requests that a session passes on to the workers. -/
def PassedOn (user : UserInfo) (req : ClientRequest) : Prop :=
  Operation.ofCode req.operation ≠ .exit ∧
    checkPermission user.role (Operation.ofCode req.operation) = true

instance (user : UserInfo) (req : ClientRequest) : Decidable (PassedOn user req) :=
  inferInstanceAs (Decidable (_ ∧ _))

/-- A user, for examples. -/
def administrator : UserInfo := ⟨1, text "admin", text "admin123", roleAdmin⟩

/-- A `LIST` request, for examples. -/
def listRequest : ClientRequest where
  operation := 4
  username := []
  password := []
  filename := []
  dataSize := 0
  data := noData
  data_length := noData_length
  dataSize_range := noData_range

theorem listRequest_passedOn : PassedOn administrator listRequest := by decide

namespace Service

variable {ι κ : Type} [DecidableEq ι] [DecidableEq κ]

/-- Nobody has asked for anything. -/
def start (world : World) : Service ι κ where
  requestCounter := 100
  session := fun _ => .idle
  worker := fun _ => .idle
  taskQueue := []
  respQueue := []
  world := world
  ledger := ⟨[], [], [], []⟩

/-- One step; it has no result where the party blocks, or is not at that step. -/
def step (taskCapacity respCapacity : ℕ) (action : ServiceAction ι κ) (service : Service ι κ) :
    Option (Service ι κ) :=
  match action with
  | .getNextRequestId s user req =>
      match service.session s with
      | .idle =>
          if PassedOn user req then
            let (id, requestCounter) := CloudSync.getNextRequestId service.requestCounter
            let task := clientTask user id req
            let serial := service.ledger.issued.length
            some { service with
              requestCounter := requestCounter
              session := Function.update service.session s (.ready ⟨serial, task⟩)
              ledger := { service.ledger with issued := service.ledger.issued ++ [⟨s, task⟩] } }
          else none
      | _ => none
  | .sendTask s =>
      match service.session s with
      | .ready task =>
          -- `send_task` makes the type of every task 1
          (msgsnd taskCapacity service.taskQueue ⟨1, task⟩).map fun queue =>
            { service with
              session := Function.update service.session s (.waiting task)
              taskQueue := queue }
      | _ => none
  | .receiveTask w =>
      match service.worker w with
      | .idle =>
          (msgrcv 1 service.taskQueue).map fun (m, queue) =>
            { service with
              worker := Function.update service.worker w
                (.working m.body (CloudSync.processTask m.body.body))
              taskQueue := queue }
      | _ => none
  | .processTask w e =>
      match service.worker w with
      | .working task (.call c next) =>
          let (result, world) := CloudSync.worker.exec e c service.world
          some { service with
            worker := Function.update service.worker w (.working task (next result))
            world := world }
      | .working task (.ret resp) =>
          some { service with
            worker := Function.update service.worker w (.done ⟨task.serial, resp⟩)
            ledger := { service.ledger with
              processed := service.ledger.processed ++ [⟨task.serial, resp⟩] } }
      | _ => none
  | .sendResponse w =>
      match service.worker w with
      | .done resp =>
          (msgsnd respCapacity service.respQueue ⟨resp.body.mtype, resp⟩).map fun queue =>
            { service with
              worker := Function.update service.worker w .idle
              respQueue := queue
              ledger := { service.ledger with answered := service.ledger.answered ++ [resp] } }
      | _ => none
  | .receiveResponse s =>
      match service.session s with
      | .waiting task =>
          (msgrcv task.body.requestId service.respQueue).map fun (m, queue) =>
            { service with
              session := Function.update service.session s .idle
              respQueue := queue
              ledger := { service.ledger with
                delivered := service.ledger.delivered ++ [⟨s, task, m.body⟩] } }
      | _ => none

variable {taskCapacity respCapacity : ℕ} {service service' : Service ι κ} {s : ι} {w : κ}

/-! ## What each step does -/

theorem step_getNextRequestId {user : UserInfo} {req : ClientRequest} :
    step taskCapacity respCapacity (.getNextRequestId s user req) service = some service' ↔
      service.session s = .idle ∧ PassedOn user req ∧
        { service with
          requestCounter := (CloudSync.getNextRequestId service.requestCounter).2
          session := Function.update service.session s (.ready ⟨service.ledger.issued.length,
            clientTask user (CloudSync.getNextRequestId service.requestCounter).1 req⟩)
          ledger := { service.ledger with
            issued := service.ledger.issued ++
              [⟨s, clientTask user (CloudSync.getNextRequestId service.requestCounter).1 req⟩] } } =
          service' := by
  cases hs : service.session s with
  | idle =>
      by_cases hpass : PassedOn user req
      · simp only [step, hs, hpass, if_true, Option.some.injEq, true_and]
      · simp only [step, hs, hpass, if_false, reduceCtorEq, false_and, and_false]
  | ready task => simp only [step, hs, reduceCtorEq, false_and]
  | waiting task => simp only [step, hs, reduceCtorEq, false_and]

theorem step_sendTask :
    step taskCapacity respCapacity (.sendTask s) service = some service' ↔
      ∃ task, service.session s = .ready task ∧ service.taskQueue.length < taskCapacity ∧
        { service with
          session := Function.update service.session s (.waiting task)
          taskQueue := service.taskQueue ++ [⟨1, task⟩] } = service' := by
  cases hs : service.session s with
  | idle => simp only [step, hs, reduceCtorEq, false_and, exists_false]
  | waiting task => simp only [step, hs, reduceCtorEq, false_and, exists_false]
  | ready task =>
      simp only [step, hs, Option.map_eq_some_iff, msgsnd_eq_some, SessionPhase.ready.injEq,
        exists_eq_left', and_assoc]
      constructor
      · rintro ⟨queue, hroom, rfl, hservice⟩
        exact ⟨hroom, hservice⟩
      · rintro ⟨hroom, hservice⟩
        exact ⟨_, hroom, rfl, hservice⟩

theorem step_receiveTask :
    step taskCapacity respCapacity (.receiveTask w) service = some service' ↔
      service.worker w = .idle ∧ ∃ m queue, msgrcv 1 service.taskQueue = some (m, queue) ∧
        { service with
          worker := Function.update service.worker w
            (.working m.body (CloudSync.processTask m.body.body))
          taskQueue := queue } = service' := by
  cases hw : service.worker w with
  | idle => simp only [step, hw, Option.map_eq_some_iff, Prod.exists, true_and]
  | working task prog => simp only [step, hw, reduceCtorEq, false_and]
  | done resp => simp only [step, hw, reduceCtorEq, false_and]

theorem step_sendResponse :
    step taskCapacity respCapacity (.sendResponse w) service = some service' ↔
      ∃ resp, service.worker w = .done resp ∧ service.respQueue.length < respCapacity ∧
        { service with
          worker := Function.update service.worker w .idle
          respQueue := service.respQueue ++ [⟨resp.body.mtype, resp⟩]
          ledger := { service.ledger with answered := service.ledger.answered ++ [resp] } } =
          service' := by
  cases hw : service.worker w with
  | idle => simp only [step, hw, reduceCtorEq, false_and, exists_false]
  | working task prog => simp only [step, hw, reduceCtorEq, false_and, exists_false]
  | done resp =>
      simp only [step, hw, Option.map_eq_some_iff, msgsnd_eq_some, WorkerPhase.done.injEq,
        exists_eq_left', and_assoc]
      constructor
      · rintro ⟨queue, hroom, rfl, hservice⟩
        exact ⟨hroom, hservice⟩
      · rintro ⟨hroom, hservice⟩
        exact ⟨_, hroom, rfl, hservice⟩

theorem step_receiveResponse :
    step taskCapacity respCapacity (.receiveResponse s) service = some service' ↔
      ∃ task m queue, service.session s = .waiting task ∧
        msgrcv task.body.requestId service.respQueue = some (m, queue) ∧
        { service with
          session := Function.update service.session s .idle
          respQueue := queue
          ledger := { service.ledger with
            delivered := service.ledger.delivered ++ [⟨s, task, m.body⟩] } } = service' := by
  cases hs : service.session s with
  | idle => simp only [step, hs, reduceCtorEq, false_and, exists_false]
  | ready task => simp only [step, hs, reduceCtorEq, false_and, exists_false]
  | waiting task =>
      simp only [step, hs, Option.map_eq_some_iff, Prod.exists, SessionPhase.waiting.injEq]
      constructor
      · rintro ⟨m, queue, hreceive, hservice⟩
        exact ⟨task, m, queue, rfl, hreceive, hservice⟩
      · rintro ⟨_, m, queue, rfl, hreceive, hservice⟩
        exact ⟨m, queue, hreceive, hservice⟩

/-- A worker makes a call, or has its response. -/
theorem step_processTask {e : Env}
    (h : step taskCapacity respCapacity (.processTask w e) service = some service') :
    (∃ (task : Stamped TaskMessage) (β : Type) (c : WorkerCall β)
        (next : β → Prog WorkerCall ResponseMessage),
      service.worker w = .working task (.call c next) ∧
        service' = { service with
          worker := Function.update service.worker w
            (.working task (next (CloudSync.worker.exec e c service.world).1))
          world := (CloudSync.worker.exec e c service.world).2 }) ∨
    ∃ task resp, service.worker w = .working task (.ret resp) ∧
      service' = { service with
        worker := Function.update service.worker w (.done ⟨task.serial, resp⟩)
        ledger := { service.ledger with
          processed := service.ledger.processed ++ [⟨task.serial, resp⟩] } } := by
  cases hw : service.worker w with
  | idle =>
      simp only [step, hw, reduceCtorEq] at h
  | done resp =>
      simp only [step, hw, reduceCtorEq] at h
  | working task prog =>
      cases prog with
      | call c next =>
          simp only [step, hw, Option.some.injEq] at h
          exact Or.inl ⟨task, _, c, next, rfl, h.symm⟩
      | ret resp =>
          simp only [step, hw, Option.some.injEq] at h
          exact Or.inr ⟨task, resp, rfl, h.symm⟩

theorem exists_processTask {task : Stamped TaskMessage} {prog : Prog WorkerCall ResponseMessage}
    (hw : service.worker w = .working task prog) (e : Env) :
    ∃ service', step taskCapacity respCapacity (.processTask w e) service = some service' := by
  cases prog with
  | call c next =>
      simp only [step, hw]
      exact ⟨_, rfl⟩
  | ret resp =>
      simp only [step, hw]
      exact ⟨_, rfl⟩

end Service

end CloudSync
