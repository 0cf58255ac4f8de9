import CloudSync.Lib.Draining
import CloudSync.Sessions.Progress
import Mathlib.Algebra.BigOperators.Ring.Finset

/-!
# Every request is answered in the end

A task takes at most `taskCalls` calls, whatever they answer, so that a request costs the
server at most `requestSteps` steps: it is sent and taken, its calls are made, its
response is made, sent and received.  `Left service k` counts what the requests under way
may still cost.  As no step but a new request makes that more, and the queues never
deadlock, sessions and workers are done with what they have been asked for after so many
steps (`service_drains`).
-/

namespace CloudSync

open CText Calls Calls.Prog MessageQueue

/-! ## Tasks are short -/

/-- The calls of the longest path through `process_task`, an `UPLOAD` that is undone. -/
def taskCalls : ℕ := 11

section AtMost

variable {task : TaskMessage}

theorem answer_atMost (result : String) (status : Status) (message data : Bytes) :
    (answer task result status message data).AtMost 1 :=
  fun _ => atMost_ret _

theorem notOwner_atMost (fm : Slot) : (notOwner task fm).AtMost 1 := by
  unfold notOwner
  exact atMost_ite (atMost_ret _) fun _ => atMost_ret _

theorem lockedByOther_atMost (fm : Slot) : (lockedByOther task fm).AtMost 2 := by
  unfold lockedByOther
  exact fun _ => atMost_ite (atMost_ret _) fun _ => atMost_ret _

theorem uploadWrite_atMost : (uploadWrite task).AtMost 4 := by
  have hanswer := fun result status message data =>
    (@answer_atMost task result status message data).mono (n := 2) (by decide)
  refine fun result => atMost_ite ((hanswer _ _ _ _).mono (by decide)) fun result => ?_
  exact atMost_ite (fun _ => (answer_atMost _ _ _ _)) (hanswer _ _ _ _)

theorem uploadOwned_atMost : (uploadOwned task).AtMost 8 := by
  intro existing
  cases existing with
  | none => exact uploadWrite_atMost.mono (by decide)
  | some fm =>
      refine (notOwner_atMost fm).bind (n := 6) fun refused => atMost_ite ?_ ?_
      · exact fun _ => (answer_atMost _ _ _ _).mono (by decide)
      · exact fun _ _ => uploadWrite_atMost

theorem processUpload_atMost : (processUpload task).AtMost 11 := by
  refine fun lock => atMost_ite (fun found => ?_) (uploadOwned_atMost.mono (by decide))
  cases found with
  | none => exact uploadOwned_atMost.mono (by decide)
  | some fm =>
      exact fun holder => atMost_ite ((answer_atMost _ _ _ _).mono (by decide)) uploadOwned_atMost

theorem processDownload_atMost : (processDownload task).AtMost 3 := by
  intro found
  cases found with
  | none => exact (answer_atMost _ _ _ _).mono (by decide)
  | some fm => exact fun result => atMost_ite (answer_atMost _ _ _ _) (answer_atMost _ _ _ _)

theorem processDelete_atMost : (processDelete task).AtMost 7 := by
  intro found
  cases found with
  | none => exact (answer_atMost _ _ _ _).mono (by decide)
  | some fm =>
      have hanswer := fun result status message data =>
        (@answer_atMost task result status message data).mono (n := 2) (by decide)
      refine (notOwner_atMost fm).bind (n := 5) fun refused =>
        atMost_ite ((hanswer _ _ _ _).mono (by decide)) ?_
      refine (lockedByOther_atMost fm).bind (n := 3) fun locked => atMost_ite ?_ ?_
      · exact fun _ => hanswer _ _ _ _
      · refine fun result => atMost_ite (hanswer _ _ _ _) fun result => ?_
        exact atMost_ite (answer_atMost _ _ _ _) (answer_atMost _ _ _ _)

theorem processEdit_atMost : (processEdit task).AtMost 6 := by
  intro found
  cases found with
  | none => exact (answer_atMost _ _ _ _).mono (by decide)
  | some efm =>
      have hanswer := fun result status message data =>
        (@answer_atMost task result status message data).mono (n := 2) (by decide)
      refine (notOwner_atMost efm).bind (n := 4) fun refused => atMost_ite ?_ ?_
      · exact fun _ => (hanswer _ _ _ _).mono (by decide)
      · refine fun lockResult => atMost_ite ((hanswer _ _ _ _).mono (by decide)) (atMost_ite ?_ ?_)
        · exact fun _ => hanswer _ _ _ _
        · exact fun result => atMost_ite (fun _ => answer_atMost _ _ _ _) (hanswer _ _ _ _)

theorem saveWrite_atMost (fm : Slot) : (saveWrite task fm).AtMost 6 := by
  have hanswer := fun result status message data =>
    (@answer_atMost task result status message data).mono (n := 2) (by decide)
  refine fun version saved result => atMost_ite ((hanswer _ _ _ _).mono (by decide)) ?_
  exact fun result => atMost_ite (hanswer _ _ _ _) fun _ => answer_atMost _ _ _ _

theorem processSave_atMost : (processSave task).AtMost 8 := by
  refine atMost_ite ((answer_atMost _ _ _ _).mono (by decide)) fun found => ?_
  cases found with
  | none => exact atMost_ret _
  | some fm =>
      exact fun holder => atMost_ite ((answer_atMost _ _ _ _).mono (by decide))
        (saveWrite_atMost fm)

theorem processUnlock_atMost : (processUnlock task).AtMost 2 :=
  fun _ => atMost_ite (answer_atMost _ _ _ _)
    (atMost_ite (answer_atMost _ _ _ _) (answer_atMost _ _ _ _))

theorem processHistory_atMost : (processHistory task).AtMost 2 := by
  intro found
  cases found with
  | none => exact atMost_ret _
  | some fm => exact fun _ => atMost_ret _

theorem rollbackRestore_atMost (fm : Slot) : (rollbackRestore task fm).AtMost 5 := by
  refine fun version saved newSize => atMost_ite ((answer_atMost _ _ _ _).mono (by decide)) ?_
  exact fun _ => answer_atMost _ _ _ _

theorem processRollback_atMost : (processRollback task).AtMost 9 := by
  intro found
  cases found with
  | none => exact (answer_atMost _ _ _ _).mono (by decide)
  | some fm =>
      refine (notOwner_atMost fm).bind (n := 7) fun refused => atMost_ite ?_ ?_
      · exact fun _ => (answer_atMost _ _ _ _).mono (by decide)
      · refine (lockedByOther_atMost fm).bind (n := 5) fun locked => atMost_ite ?_ ?_
        · exact fun _ => atMost_ret _
        · exact rollbackRestore_atMost fm

theorem processDelversion_atMost : (processDelversion task).AtMost 4 := by
  intro found
  cases found with
  | none => exact (answer_atMost _ _ _ _).mono (by decide)
  | some fm =>
      refine (notOwner_atMost fm).bind (n := 2) fun refused =>
        atMost_ite ((answer_atMost _ _ _ _).mono (by decide)) ?_
      exact fun result => atMost_ite (answer_atMost _ _ _ _) (answer_atMost _ _ _ _)

theorem processTask_atMost (task : TaskMessage) : (processTask task).AtMost taskCalls := by
  unfold processTask
  split
  · exact processUpload_atMost
  · exact processDownload_atMost.mono (by decide)
  · exact processDelete_atMost.mono (by decide)
  · exact fun _ => atMost_ret _
  · exact fun _ => atMost_ite (atMost_ret _) (atMost_ret _)
  · exact processEdit_atMost.mono (by decide)
  · exact processSave_atMost.mono (by decide)
  · exact processUnlock_atMost.mono (by decide)
  · exact processHistory_atMost.mono (by decide)
  · exact processRollback_atMost.mono (by decide)
  · exact fun _ => atMost_ret _
  · exact processDelversion_atMost.mono (by decide)
  · exact atMost_ret _

end AtMost

/-! ## What is left to be done -/

/-- The steps one request takes: it is sent and taken, its task makes its calls, and the
response is made, sent and received. -/
def requestSteps : ℕ := taskCalls + 5

/-- The steps a session still has a share in, apart from those of a task in the queue. -/
def SessionPhase.cost : SessionPhase → ℕ
  | idle => 0
  | ready _ => requestSteps
  | waiting _ => 1

/-- A worker has at most so many steps to go until its response is sent. -/
def WorkerPhase.Left : WorkerPhase → ℕ → Prop
  | idle, _ => True
  | working _ prog, n => ∃ m, n = m + 2 ∧ prog.AtMost m
  | done _, n => n = 1

/-- The most steps a worker can have to go. -/
def WorkerPhase.cost : WorkerPhase → ℕ
  | idle => 0
  | working _ _ => taskCalls + 2
  | done _ => 1

namespace Service

variable {ι κ : Type} [DecidableEq ι] [DecidableEq κ] [Fintype ι] [Fintype κ]
  {taskCapacity respCapacity : ℕ} {service service' : Service ι κ}

/-- What is under way takes at most `k` more steps. -/
def Left (service : Service ι κ) (k : ℕ) : Prop :=
  ∃ work : κ → ℕ, (∀ w, (service.worker w).Left (work w)) ∧
    k = total SessionPhase.cost service.session +
      (taskCalls + 3) * service.taskQueue.length + total id work

/-- Every step but a new request leaves less to be done. -/
theorem left_step {action : ServiceAction ι κ} {k : ℕ} (hkind : action.Continues)
    (hstep : step taskCapacity respCapacity action service = some service')
    (hleft : service.Left k) : ∃ k', k' < k ∧ service'.Left k' := by
  obtain ⟨work, hwork, rfl⟩ := hleft
  have hworkers : ∀ (w : κ) (phase : WorkerPhase) (n : ℕ), phase.Left n →
      ∀ v, (Function.update service.worker w phase v).Left (Function.update work w n v) := by
    intro w phase n hphase v
    by_cases hv : v = w
    · rw [hv, Function.update_self, Function.update_self]
      exact hphase
    · rw [Function.update_of_ne hv, Function.update_of_ne hv]
      exact hwork v
  cases action with
  | getNextRequestId s user req => exact hkind.elim
  | sendTask s =>
      obtain ⟨task, hs, -, rfl⟩ := step_sendTask.mp hstep
      have hcost := total_update SessionPhase.cost service.session s (.waiting task)
      rw [hs] at hcost
      refine ⟨_, ?_, work, hwork, rfl⟩
      simp only [SessionPhase.cost, requestSteps, List.length_append, List.length_singleton,
        mul_add] at hcost ⊢
      omega
  | receiveTask w =>
      obtain ⟨hw, m, queue, hreceive, rfl⟩ := step_receiveTask.mp hstep
      have hqueue := length_msgrcv hreceive
      have hcost := total_update id work w (taskCalls + 2)
      refine ⟨_, ?_, _, hworkers w _ (taskCalls + 2) ⟨_, rfl, processTask_atMost _⟩, rfl⟩
      simp only [hqueue, id_eq, mul_add] at hcost ⊢
      omega
  | processTask w e =>
      have hleft := hwork w
      obtain ⟨task, β, c, next, hw, rfl⟩ | ⟨task, resp, hw, rfl⟩ := step_processTask hstep
      · rw [hw] at hleft
        obtain ⟨m, hm, hcalls⟩ := hleft
        cases m with
        | zero => exact hcalls.elim
        | succ m =>
            have hcost := total_update id work w (m + 2)
            refine ⟨_, ?_, _, hworkers w _ (m + 2) ⟨m, rfl, hcalls _⟩, rfl⟩
            simp only [hm, id_eq] at hcost ⊢
            omega
      · rw [hw] at hleft
        obtain ⟨m, hm, -⟩ := hleft
        have hcost := total_update id work w 1
        refine ⟨_, ?_, _, hworkers w _ 1 rfl, rfl⟩
        simp only [hm, id_eq] at hcost ⊢
        omega
  | sendResponse w =>
      have hleft := hwork w
      obtain ⟨resp, hw, -, rfl⟩ := step_sendResponse.mp hstep
      rw [hw] at hleft
      have hone : work w = 1 := hleft
      have hcost := total_update id work w 0
      refine ⟨_, ?_, _, hworkers w .idle 0 trivial, rfl⟩
      simp only [hone, id_eq] at hcost ⊢
      omega
  | receiveResponse s =>
      obtain ⟨task, m, queue, hs, hreceive, rfl⟩ := step_receiveResponse.mp hstep
      have hcost := total_update SessionPhase.cost service.session s .idle
      rw [hs] at hcost
      refine ⟨_, ?_, work, hwork, rfl⟩
      simp only [SessionPhase.cost] at hcost ⊢
      omega

/-- No worker is at more than a task. -/
def Short (service : Service ι κ) : Prop :=
  ∀ w task prog, service.worker w = .working task prog → prog.AtMost taskCalls

omit [Fintype ι] [Fintype κ] in
theorem Short.step {action : ServiceAction ι κ} (h : Short service)
    (hstep : step taskCapacity respCapacity action service = some service') : Short service' := by
  have hworkers : ∀ (w : κ) (phase : WorkerPhase),
      (∀ task prog, phase = .working task prog → prog.AtMost taskCalls) →
      ∀ v task prog, Function.update service.worker w phase v = .working task prog →
        prog.AtMost taskCalls := by
    intro w phase hphase v task prog hv
    by_cases hvw : v = w
    · rw [hvw, Function.update_self] at hv
      exact hphase task prog hv
    · rw [Function.update_of_ne hvw] at hv
      exact h v task prog hv
  cases action with
  | getNextRequestId s user req =>
      obtain ⟨-, -, rfl⟩ := step_getNextRequestId.mp hstep
      exact h
  | sendTask s =>
      obtain ⟨task, -, -, rfl⟩ := step_sendTask.mp hstep
      exact h
  | receiveTask w =>
      obtain ⟨-, m, queue, -, rfl⟩ := step_receiveTask.mp hstep
      refine hworkers w _ fun task prog hphase => ?_
      obtain ⟨-, rfl⟩ := WorkerPhase.working.inj hphase
      exact processTask_atMost _
  | processTask w e =>
      obtain ⟨task, β, c, next, hw, rfl⟩ | ⟨task, resp, -, rfl⟩ := step_processTask hstep
      · refine hworkers w _ fun task' prog hphase => ?_
        obtain ⟨-, rfl⟩ := WorkerPhase.working.inj hphase
        have hcalls : (call c next).AtMost taskCalls := h w task _ hw
        exact (hcalls _).mono (by decide)
      · exact hworkers w _ fun task' prog hphase => WorkerPhase.noConfusion hphase
  | sendResponse w =>
      obtain ⟨resp, -, -, rfl⟩ := step_sendResponse.mp hstep
      exact hworkers w _ fun task prog hphase => WorkerPhase.noConfusion hphase
  | receiveResponse s =>
      obtain ⟨task, m, queue, -, -, rfl⟩ := step_receiveResponse.mp hstep
      exact h

/-- The sessions that have a request under way. -/
def unfinished (service : Service ι κ) : ℕ :=
  total (fun phase => if phase.outstanding.isSome then 1 else 0) service.session

omit [DecidableEq ι] [DecidableEq κ] in
/-- No more is left to be done than the requests under way can cost. -/
theorem exists_left (hshort : Short service) (hbalanced : Balanced (fun _ _ => true) service) :
    ∃ k, k ≤ requestSteps * service.unfinished ∧ service.Left k := by
  refine ⟨_, ?_, fun w => (service.worker w).cost, fun w => ?_, rfl⟩
  · have hsessions : total SessionPhase.cost service.session +
        (taskCalls + 4) * total (waits fun _ _ => true) service.session ≤
          requestSteps * service.unfinished := by
      unfold unfinished total
      rw [Finset.mul_sum, Finset.mul_sum, ← Finset.sum_add_distrib]
      apply Finset.sum_le_sum
      intro s _
      cases service.session s <;>
        simp [SessionPhase.cost, SessionPhase.outstanding, waits, requestSteps, taskCalls]
    have hworkers : total WorkerPhase.cost service.worker ≤
        (taskCalls + 2) * total (holds fun _ _ => true) service.worker := by
      unfold total
      rw [Finset.mul_sum]
      apply Finset.sum_le_sum
      intro w _
      cases service.worker w <;> simp [WorkerPhase.cost, holds, taskCalls]
    have htasks : tasksQueued (fun _ _ => true) service.taskQueue = service.taskQueue.length :=
      List.countP_eq_length.mpr fun _ _ => rfl
    have hwork : total id (fun w => (service.worker w).cost) =
        total WorkerPhase.cost service.worker := rfl
    unfold Balanced at hbalanced
    simp only [taskCalls] at hsessions hworkers ⊢
    omega
  · show (service.worker w).Left (service.worker w).cost
    cases hw : service.worker w with
    | idle => trivial
    | working task prog => exact ⟨taskCalls, rfl, hshort w task prog hw⟩
    | done resp => rfl

end Service

open Service in
/-- From every state that any sessions and workers reach, with queues of any capacity and
whatever the calls of the workers meet, a run in which no new request is made

* has at most `requestSteps` steps for each request that is unfinished at its beginning,
* if it cannot be continued, has answered all of them, and
* can always be continued to such an end. -/
theorem service_drains {ι κ : Type} [Fintype ι] [DecidableEq ι] [Fintype κ] [DecidableEq κ]
    [Nonempty κ] {taskCapacity respCapacity : ℕ} (htask : 1 ≤ taskCapacity)
    (hresp : 1 ≤ respCapacity) {world : World} {service : Service ι κ}
    (hreach : Reached (step taskCapacity respCapacity) (fun _ => True) (start world) service)
    {n : ℕ} {service' : Service ι κ}
    (hsteps : Steps (step taskCapacity respCapacity) ServiceAction.Continues service n service') :
    n ≤ requestSteps * service.unfinished ∧
    (¬ CanContinue taskCapacity respCapacity service' → ∀ s, service'.session s = .idle) ∧
    ∃ m service'', Steps (step taskCapacity respCapacity) ServiceAction.Continues service' m
      service'' ∧ ∀ s, service''.session s = .idle := by
  have hshort : ∀ {reached : Service ι κ}, Reached (step taskCapacity respCapacity)
      (fun _ => True) (start world) reached → Short reached := by
    intro reached hreached
    refine hreached.invariant (fun w task prog hw => ?_) fun _ _ _ h hstep _ => h.step hstep
    exact WorkerPhase.noConfusion hw
  have hidle : ∀ {reached : Service ι κ}, Reached (step taskCapacity respCapacity)
      (fun _ => True) (start world) reached → ¬ CanContinue taskCapacity respCapacity reached →
      ∀ s, reached.session s = .idle := by
    intro reached hreached hstuck s
    by_contra hs
    exact hstuck (queues_never_deadlock htask hresp hreached hs)
  have hreach' := hreach.steps hsteps
  obtain ⟨k, hk, hleft⟩ := exists_left (hshort hreach) (reached_balanced hreach fun _ => true)
  obtain ⟨k', -, hleft'⟩ := exists_left (hshort hreach') (reached_balanced hreach' fun _ => true)
  refine ⟨(hsteps.le_of_left left_step hleft).trans hk, hidle hreach', ?_⟩
  obtain ⟨m, service'', hmore, hlast⟩ := Steps.exists_last left_step hleft'
  refine ⟨m, service'', hmore, hidle (hreach'.steps hmore) ?_⟩
  rintro ⟨action, after, hkind, hstep⟩
  rw [hlast action hkind] at hstep
  exact Option.some_ne_none _ hstep.symm

open Service in
/-- A session that has asked for the list of files. -/
theorem service_drains_list :
    ∃ service : Service Unit Unit,
      Reached (step 1 1) (fun _ => True) (start freshWorld) service ∧ service.unfinished = 1 ∧
        ∃ m service', Steps (step 1 1) ServiceAction.Continues service m service' ∧
          ∀ s, service'.session s = .idle := by
  have hfirst : Reached (step 1 1) (fun _ => True) (start freshWorld)
      (start freshWorld : Service Unit Unit) := .first
  have hasked := hfirst.step (.getNextRequestId () administrator listRequest)
    (step_getNextRequestId.mpr ⟨rfl, listRequest_passedOn, rfl⟩) trivial
  exact ⟨_, hasked, rfl, (service_drains le_rfl le_rfl hasked .start).2.2⟩

end CloudSync
