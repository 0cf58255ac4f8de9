import CloudSync.Sessions.Balance

/-!
# The queues never deadlock

Sessions block on a full task queue and on a response that is not there yet,
workers on an empty task queue and on a full response queue.  Nevertheless some
session or worker can go on as long as a request is unfinished: a response in the
queue has a session that waits for its id, since as many wait for each id as have
it under way (`queues_never_deadlock`).  Ids may be given out twice.
-/

namespace CloudSync

open Calls Calls.Prog MessageQueue

/-- The steps towards a response, in contrast to asking for a new one. -/
def ServiceAction.Continues {ι κ : Type} : ServiceAction ι κ → Prop
  | .getNextRequestId _ _ _ => False
  | .sendTask _ => True
  | .receiveTask _ => True
  | .processTask _ _ => True
  | .sendResponse _ => True
  | .receiveResponse _ => True

namespace Service

variable {ι κ : Type} [DecidableEq ι] [DecidableEq κ] {taskCapacity respCapacity : ℕ}
  {service : Service ι κ}

/-- Some session or worker is not blocked. -/
def CanContinue (taskCapacity respCapacity : ℕ) (service : Service ι κ) : Prop :=
  ∃ action service', action.Continues ∧
    step taskCapacity respCapacity action service = some service'

theorem canContinue_of_working {w : κ} {task : Stamped TaskMessage}
    {prog : Prog WorkerCall ResponseMessage} (hw : service.worker w = .working task prog) :
    CanContinue taskCapacity respCapacity service := by
  obtain ⟨service', hstep⟩ := exists_processTask hw (Env.calm 0)
  exact ⟨.processTask w (Env.calm 0), service', trivial, hstep⟩

theorem canContinue_of_done {w : κ} {resp : Stamped ResponseMessage}
    (hw : service.worker w = .done resp) (hroom : service.respQueue.length < respCapacity) :
    CanContinue taskCapacity respCapacity service :=
  ⟨.sendResponse w, _, trivial, step_sendResponse.mpr ⟨resp, hw, hroom, rfl⟩⟩

theorem canContinue_of_ready {s : ι} {task : Stamped TaskMessage}
    (hs : service.session s = .ready task) (hroom : service.taskQueue.length < taskCapacity) :
    CanContinue taskCapacity respCapacity service :=
  ⟨.sendTask s, _, trivial, step_sendTask.mpr ⟨task, hs, hroom, rfl⟩⟩

/-- A free worker takes any task there is. -/
theorem canContinue_of_task (hgenuine : Genuine service) {w : κ} (hw : service.worker w = .idle)
    {m : Message (Stamped TaskMessage)} (hm : m ∈ service.taskQueue) :
    CanContinue taskCapacity respCapacity service := by
  obtain ⟨⟨got, queue⟩, hreceive⟩ := exists_msgrcv hm (hgenuine.taskQueue m hm).1
  exact ⟨.receiveTask w, _, trivial, step_receiveTask.mpr ⟨hw, got, queue, hreceive, rfl⟩⟩

variable [Fintype ι] [Fintype κ]

/-- Somebody waits for every response in the queue. -/
theorem canContinue_of_response (hgenuine : Genuine service)
    {m : Message (Stamped ResponseMessage)} (hm : m ∈ service.respQueue)
    (hbalanced : Balanced (fun _ id => id == m.mtype) service) :
    CanContinue taskCapacity respCapacity service := by
  have hqueued : 0 < responsesQueued (fun _ id => id == m.mtype) service.respQueue := by
    apply List.countP_pos_iff.mpr
    refine ⟨m, hm, ?_⟩
    rw [← (hgenuine.respQueue m hm).1]
    exact beq_self_eq_true m.mtype
  have hwaited : total (waits fun _ id => id == m.mtype) service.session ≠ 0 := by
    unfold Balanced at hbalanced
    omega
  obtain ⟨s, task, hs, hid⟩ := exists_waiting hwaited
  obtain ⟨⟨got, queue⟩, hreceive⟩ := exists_msgrcv hm (eq_of_beq hid).symm
  exact ⟨.receiveResponse s, _, trivial,
    step_receiveResponse.mpr ⟨task, got, queue, hs, hreceive, rfl⟩⟩

omit [DecidableEq ι] [DecidableEq κ] in
/-- Nobody waits when all workers are free and both queues are empty. -/
theorem not_waiting_of_quiet (hbalanced : Balanced (fun _ _ => true) service)
    (hworkers : ∀ w, service.worker w = .idle) (htasks : service.taskQueue = [])
    (hresponses : service.respQueue = []) {s : ι} {task : Stamped TaskMessage} :
    service.session s ≠ .waiting task := by
  intro hs
  have hheld : total (holds fun _ _ => true) service.worker = 0 :=
    total_eq_zero.mpr fun w => by rw [hworkers w]; rfl
  have hwaited := le_total (waits fun _ _ => true) service.session s
  unfold Balanced at hbalanced
  rw [hs] at hwaited
  rw [hheld, htasks, hresponses] at hbalanced
  simp only [waits, tasksQueued, responsesQueued, List.countP_nil, if_true] at hwaited hbalanced
  omega

end Service

open Service in
/-- While a request is unfinished, a session or a worker can take a step towards
its response or another one. -/
theorem queues_never_deadlock {ι κ : Type} [Fintype ι] [DecidableEq ι] [Fintype κ] [DecidableEq κ]
    [Nonempty κ] {taskCapacity respCapacity : ℕ} (htask : 1 ≤ taskCapacity)
    (hresp : 1 ≤ respCapacity) {world : World} {service : Service ι κ}
    (hreach : Reached (step taskCapacity respCapacity) (fun _ => True) (start world) service)
    {s : ι} (hs : service.session s ≠ .idle) :
    CanContinue taskCapacity respCapacity service := by
  have hgenuine := reached_genuine hreach
  by_cases hresponses : service.respQueue = []
  · have hroom : service.respQueue.length < respCapacity := by
      rw [hresponses]
      exact hresp
    by_cases hworkers : ∀ w, service.worker w = .idle
    · by_cases htasks : service.taskQueue = []
      · -- everything is at rest, so the session has not sent its task yet
        cases hphase : service.session s with
        | idle => exact absurd hphase hs
        | waiting task =>
            have hbalanced := reached_balanced hreach fun _ => true
            exact absurd hphase (not_waiting_of_quiet hbalanced hworkers htasks hresponses)
        | ready task =>
            apply canContinue_of_ready hphase
            rw [htasks]
            exact htask
      · obtain ⟨m, hm⟩ := List.exists_mem_of_ne_nil _ htasks
        obtain ⟨w⟩ := ‹Nonempty κ›
        exact canContinue_of_task hgenuine (hworkers w) hm
    · obtain ⟨w, hw⟩ := not_forall.mp hworkers
      cases hphase : service.worker w with
      | idle => exact absurd hphase hw
      | working task prog => exact canContinue_of_working hphase
      | done resp => exact canContinue_of_done hphase hroom
  · obtain ⟨m, hm⟩ := List.exists_mem_of_ne_nil _ hresponses
    exact canContinue_of_response hgenuine hm (reached_balanced hreach fun id => id == m.mtype)

open Service in
/-- Two sessions, one worker and queues for one message: one session has sent its
task, the other finds the queue full. -/
theorem full_queue_continues :
    ∃ service : Service Bool Unit,
      Reached (step 1 1) (fun _ => True) (start freshWorld) service ∧
        step 1 1 (.sendTask false) service = none ∧ CanContinue 1 1 service := by
  have hfirst : Reached (step 1 1) (fun _ => True) (start freshWorld)
      (start freshWorld : Service Bool Unit) := .first
  have hasked := hfirst.step (.getNextRequestId true administrator listRequest)
    (step_getNextRequestId.mpr ⟨rfl, listRequest_passedOn, rfl⟩) trivial
  have hboth := hasked.step (.getNextRequestId false administrator listRequest)
    (step_getNextRequestId.mpr ⟨rfl, listRequest_passedOn, rfl⟩) trivial
  have hsent := hboth.step (.sendTask true)
    (step_sendTask.mpr ⟨_, rfl, Nat.zero_lt_one, rfl⟩) trivial
  refine ⟨_, hsent, rfl, queues_never_deadlock le_rfl le_rfl hsent (s := false) ?_⟩
  exact SessionPhase.noConfusion

end CloudSync
