import CloudSync.Sessions.Balance

/-!
# Responses reach the session that asked

All responses go through one queue and are told apart by ids that are given out
again after 99900 others.  If that does not happen while a request is outstanding
(`InTime`), a session receives the response to its own task
(`serial_of_receive`): its id could only belong to a request that is 99900
before or after, and somebody still waits for that.

`Kept` is the account of one request, from the id to the delivery.  It balances
in every state, so no task is processed or answered twice, and each one whose
session is done with it has been processed, answered and delivered once
(`responses_reach_their_sessions`).
-/

namespace CloudSync

open Calls Calls.Prog MessageQueue

namespace Service

variable {ι κ : Type} [DecidableEq ι] [DecidableEq κ] {taskCapacity respCapacity : ℕ}
  {service service' : Service ι κ} {action : ServiceAction ι κ}

/-! ## Ids -/

/-- The ids given out after that of the request. -/
def laterIds (service : Service ι κ) (task : Stamped TaskMessage) : ℕ :=
  service.ledger.issued.length - (task.serial + 1)

/-- Fewer than 99900 ids have been given out after that of any outstanding request. -/
def InTime (service : Service ι κ) : Prop :=
  ∀ s, ∀ task ∈ (service.session s).outstanding, laterIds service task < 99900

omit [DecidableEq ι] [DecidableEq κ] in
theorem inTime_of_le (h : service.ledger.issued.length ≤ 99900) : InTime service := by
  intro s task _
  unfold laterIds
  omega

omit [DecidableEq ι] [DecidableEq κ] in
/-- The id of a request is that of its serial number. -/
theorem Genuine.requestId_of_asked (h : Genuine service) {s : ι} {task : Stamped TaskMessage}
    (hasked : AskedFor service.ledger s task) :
    task.serial < service.ledger.issued.length ∧ task.body.requestId = requestId task.serial :=
  ⟨(List.getElem?_eq_some_iff.mp hasked).1, h.ids task.serial _ hasked⟩

omit [DecidableEq ι] [DecidableEq κ] in
theorem Genuine.mtype_of_processed (h : Genuine service) {resp : Stamped ResponseMessage}
    (hresp : resp ∈ service.ledger.processed) : resp.body.mtype = requestId resp.serial := by
  obtain ⟨s, task, hasked, hreturn⟩ := h.processed resp hresp
  rw [processTask_addressed task resp.body hreturn]
  exact h.ids resp.serial _ hasked

/-! ## The account of a request -/

/-- The entries with the serial number. -/
def times {α : Type} (n : ℕ) (list : List (Stamped α)) : ℕ := list.countP fun x => x.serial == n

/-- The responses with the serial number that sessions have received. -/
def timesGot (n : ℕ) (list : List (Delivery ι)) : ℕ := list.countP fun d => d.got.serial == n

/-- The responses that sessions have received for the task with the serial number. -/
def timesSent (n : ℕ) (list : List (Delivery ι)) : ℕ := list.countP fun d => d.sent.serial == n

/-- Whether the session has the request outstanding. -/
def owes (n : ℕ) (phase : SessionPhase) : ℕ :=
  match phase.outstanding with
  | none => 0
  | some task => if task.serial == n then 1 else 0

/-- Whether the worker holds the response to the request. -/
def finished (n : ℕ) : WorkerPhase → ℕ
  | .idle => 0
  | .working _ _ => 0
  | .done resp => if resp.serial == n then 1 else 0

/-- A label on serial numbers. -/
abbrev serialIs (n : ℕ) : ℕ → ℤ → Bool := fun serial _ => serial == n

theorem waits_le_owes (n : ℕ) (phase : SessionPhase) : waits (serialIs n) phase ≤ owes n phase := by
  cases phase with
  | idle => exact le_rfl
  | ready task => exact Nat.zero_le _
  | waiting task => exact le_rfl

theorem finished_le_holds (n : ℕ) (phase : WorkerPhase) :
    finished n phase ≤ holds (serialIs n) phase := by
  cases phase with
  | idle => exact le_rfl
  | working task prog => exact Nat.zero_le _
  | done resp => exact le_rfl

variable [Fintype ι] [Fintype κ]

/-- The account of the request number `n`: what has been computed is at a worker or
has been sent, what has been sent is in the queue or has been received, and the
request is outstanding or has been answered, once it has its id. -/
structure Kept (n : ℕ) (service : Service ι κ) : Prop where
  processed : times n service.ledger.processed =
    total (finished n) service.worker + times n service.ledger.answered
  answered : times n service.ledger.answered =
    responsesQueued (serialIs n) service.respQueue + timesGot n service.ledger.delivered
  issued : total (owes n) service.session + timesSent n service.ledger.delivered =
    if n < service.ledger.issued.length then 1 else 0

omit [DecidableEq ι] [DecidableEq κ] in
theorem kept_start (n : ℕ) (world : World) : Kept n (start world : Service ι κ) where
  processed := by
    have hdone : total (finished n) (start world : Service ι κ).worker = 0 :=
      total_eq_zero.mpr fun _ => rfl
    rw [hdone]
    rfl
  answered := rfl
  issued := by
    have howes : total (owes n) (start world : Service ι κ).session = 0 :=
      total_eq_zero.mpr fun _ => rfl
    rw [howes]
    rfl

theorem Kept.step {n : ℕ} (h : Kept n service)
    (hstep : step taskCapacity respCapacity action service = some service') :
    Kept n service' := by
  obtain ⟨hprocessed, hanswered, hissued⟩ := h
  cases action with
  | getNextRequestId s user req =>
      obtain ⟨hs, hpass, rfl⟩ := step_getNextRequestId.mp hstep
      have howes := total_update (owes n) service.session s
        (.ready ⟨service.ledger.issued.length,
          clientTask user (CloudSync.getNextRequestId service.requestCounter).1 req⟩)
      rw [hs] at howes
      refine ⟨hprocessed, hanswered, ?_⟩
      simp only [owes, SessionPhase.outstanding, beq_iff_eq, List.length_append,
        List.length_singleton] at howes hissued ⊢
      split_ifs at howes hissued ⊢ <;> omega
  | sendTask s =>
      obtain ⟨task, hs, -, rfl⟩ := step_sendTask.mp hstep
      have howes := total_update (owes n) service.session s (.waiting task)
      rw [hs] at howes
      refine ⟨hprocessed, hanswered, ?_⟩
      simp only [owes, SessionPhase.outstanding] at howes hissued ⊢
      omega
  | receiveTask w =>
      obtain ⟨hw, m, queue, hreceive, rfl⟩ := step_receiveTask.mp hstep
      have hdone := total_update (finished n) service.worker w
        (.working m.body (CloudSync.processTask m.body.body))
      rw [hw] at hdone
      refine ⟨?_, hanswered, hissued⟩
      simp only [finished] at hdone ⊢
      omega
  | processTask w e =>
      obtain ⟨task, β, c, next, hw, rfl⟩ | ⟨task, resp, hw, rfl⟩ := step_processTask hstep
      · have hdone := total_update (finished n) service.worker w
          (.working task (next (CloudSync.worker.exec e c service.world).1))
        rw [hw] at hdone
        refine ⟨?_, hanswered, hissued⟩
        simp only [finished] at hdone ⊢
        omega
      · have hdone := total_update (finished n) service.worker w (.done ⟨task.serial, resp⟩)
        rw [hw] at hdone
        refine ⟨?_, hanswered, hissued⟩
        simp only [finished, times, List.countP_append, List.countP_singleton] at hdone hprocessed ⊢
        omega
  | sendResponse w =>
      obtain ⟨resp, hw, -, rfl⟩ := step_sendResponse.mp hstep
      have hdone := total_update (finished n) service.worker w .idle
      rw [hw] at hdone
      refine ⟨?_, ?_, hissued⟩
      · simp only [finished, times, List.countP_append, List.countP_singleton] at hdone hprocessed ⊢
        omega
      · simp only [times, responsesQueued, serialIs, List.countP_append, List.countP_singleton]
          at hanswered ⊢
        omega
  | receiveResponse s =>
      obtain ⟨task, m, queue, hs, hreceive, rfl⟩ := step_receiveResponse.mp hstep
      have howes := total_update (owes n) service.session s .idle
      have hqueue := countP_msgrcv hreceive fun m => serialIs n m.body.serial m.body.body.mtype
      rw [hs] at howes
      refine ⟨hprocessed, ?_, ?_⟩
      · simp only [timesGot, responsesQueued, serialIs, List.countP_append, List.countP_singleton]
          at hanswered hqueue ⊢
        omega
      · simp only [owes, SessionPhase.outstanding, timesSent, List.countP_append,
          List.countP_singleton] at howes hissued ⊢
        omega
/-! ## What a session receives is its own -/

omit [DecidableEq ι] [DecidableEq κ] in
/-- Somebody waits for the response that a session receives, and nobody but this
session waits for its id. -/
theorem serial_of_receive (hgenuine : Genuine service) (hinTime : InTime service)
    (hbalanced : ∀ n, Balanced (serialIs n) service) {s : ι} {task : Stamped TaskMessage}
    (hs : service.session s = .waiting task) {m : Message (Stamped ResponseMessage)}
    {queue : List (Message (Stamped ResponseMessage))}
    (hreceive : msgrcv task.body.requestId service.respQueue = some (m, queue)) :
    m.body.serial = task.serial := by
  obtain ⟨hm, -⟩ := mem_of_msgrcv hreceive
  have houtstanding : task ∈ (service.session s).outstanding := by rw [hs]; rfl
  obtain ⟨hissued, hid⟩ := hgenuine.requestId_of_asked (hgenuine.sessions s task houtstanding)
  have hsame : requestId m.body.serial = requestId task.serial := by
    rw [← hgenuine.mtype_of_processed (hgenuine.respQueue m hm).2, ← hid,
      ← (msgrcv_spec hreceive).1]
    exact (hgenuine.respQueue m hm).1.symm
  have hqueued : 0 < responsesQueued (serialIs m.body.serial) service.respQueue :=
    List.countP_pos_iff.mpr ⟨m, hm, beq_self_eq_true m.body.serial⟩
  have hwaited : total (waits (serialIs m.body.serial)) service.session ≠ 0 := by
    have hcount := hbalanced m.body.serial
    unfold Balanced at hcount
    omega
  obtain ⟨s', task', hs', hserial⟩ := exists_waiting hwaited
  have houtstanding' : task' ∈ (service.session s').outstanding := by rw [hs']; rfl
  obtain ⟨hissued', -⟩ := hgenuine.requestId_of_asked (hgenuine.sessions s' task' houtstanding')
  have hlater := hinTime s task houtstanding
  have hlater' := hinTime s' task' houtstanding'
  rw [eq_of_beq hserial] at hissued'
  unfold laterIds at hlater hlater'
  rw [eq_of_beq hserial] at hlater'
  exact requestId_injective_within hsame (by omega) (by omega)

/-- The session has received the response computed from the task it sent. -/
structure Received (ledger : Ledger ι) (d : Delivery ι) : Prop where
  asked : AskedFor ledger d.session d.sent
  own : d.got.serial = d.sent.serial
  computed : d.got ∈ ledger.processed

/-- What holds of the service as long as requests are answered in time. -/
structure Accounted (service : Service ι κ) : Prop where
  genuine : Genuine service
  inTime : InTime service
  balanced : ∀ n, Balanced (serialIs n) service
  kept : ∀ n, Kept n service
  delivered : ∀ d ∈ service.ledger.delivered, Received service.ledger d

omit [DecidableEq ι] [DecidableEq κ] in
theorem accounted_start (world : World) : Accounted (start world : Service ι κ) where
  genuine := genuine_start world
  inTime := fun _ _ h => absurd h (Option.not_mem_none _)
  balanced := fun _ => balanced_start world
  kept := fun n => kept_start n world
  delivered := fun _ h => absurd h List.not_mem_nil

theorem Accounted.step (h : Accounted service)
    (hstep : step taskCapacity respCapacity action service = some service')
    (hinTime : InTime service') : Accounted service' := by
  refine ⟨h.genuine.step hstep, hinTime, fun n => ?_, fun n => (h.kept n).step hstep, ?_⟩
  · apply (h.balanced n).step h.genuine hstep
    intro s task m queue _ hs hreceive
    show (task.serial == n) = (m.body.serial == n)
    rw [serial_of_receive h.genuine h.inTime h.balanced hs hreceive]
  · cases action with
    | getNextRequestId s user req =>
        obtain ⟨-, -, rfl⟩ := step_getNextRequestId.mp hstep
        intro d hd
        have hreceived := h.delivered d hd
        exact ⟨hreceived.asked.grow _, hreceived.own, hreceived.computed⟩
    | sendTask s =>
        obtain ⟨task, -, -, rfl⟩ := step_sendTask.mp hstep
        exact h.delivered
    | receiveTask w =>
        obtain ⟨-, m, queue, -, rfl⟩ := step_receiveTask.mp hstep
        exact h.delivered
    | processTask w e =>
        obtain ⟨task, β, c, next, -, rfl⟩ | ⟨task, resp, -, rfl⟩ := step_processTask hstep
        · exact h.delivered
        · intro d hd
          have hreceived := h.delivered d hd
          exact ⟨hreceived.asked, hreceived.own, List.mem_append_left _ hreceived.computed⟩
    | sendResponse w =>
        obtain ⟨resp, -, -, rfl⟩ := step_sendResponse.mp hstep
        intro d hd
        have hreceived := h.delivered d hd
        exact ⟨hreceived.asked, hreceived.own, hreceived.computed⟩
    | receiveResponse s =>
        obtain ⟨task, m, queue, hs, hreceive, rfl⟩ := step_receiveResponse.mp hstep
        intro d hd
        rcases List.mem_append.mp hd with hd | hd
        · have hreceived := h.delivered d hd
          exact ⟨hreceived.asked, hreceived.own, hreceived.computed⟩
        · obtain rfl := List.mem_singleton.mp hd
          have houtstanding : task ∈ (service.session s).outstanding := by rw [hs]; rfl
          have hm := (mem_of_msgrcv hreceive).1
          exact ⟨h.genuine.sessions s task houtstanding,
            serial_of_receive h.genuine h.inTime h.balanced hs hreceive,
            (h.genuine.respQueue m hm).2⟩

theorem reached_accounted {world : World}
    (hreach : Reached (step taskCapacity respCapacity) InTime (start world) service) :
    Accounted service :=
  hreach.invariant (accounted_start world) fun _ _ _ h hstep hinTime => h.step hstep hinTime

/-! ## Exactly once -/

section Once

variable (h : Accounted service) (n : ℕ)
include h

omit [DecidableEq ι] [DecidableEq κ] in
theorem Accounted.timesGot_eq :
    timesGot n service.ledger.delivered = timesSent n service.ledger.delivered := by
  apply List.countP_congr
  intro d hd
  rw [(h.delivered d hd).own]

omit [DecidableEq ι] [DecidableEq κ] in
/-- No response is computed, sent or received a second time. -/
theorem Accounted.times_le_one :
    times n service.ledger.processed ≤ 1 ∧ times n service.ledger.answered ≤ 1 := by
  obtain ⟨hprocessed, hanswered, hissued⟩ := h.kept n
  have hbalanced := h.balanced n
  have hgot := h.timesGot_eq n
  have hwaits := total_mono (waits_le_owes n) service.session
  have hdone := total_mono (finished_le_holds n) service.worker
  unfold Balanced at hbalanced
  constructor
  · split at hissued <;> omega
  · split at hissued <;> omega

omit [DecidableEq ι] [DecidableEq κ] in
/-- A request that is no longer outstanding has been processed, answered and
delivered once. -/
theorem Accounted.times_eq_one (hn : n < service.ledger.issued.length)
    (hsettled : ∀ s, ∀ task ∈ (service.session s).outstanding, task.serial ≠ n) :
    times n service.ledger.processed = 1 ∧ times n service.ledger.answered = 1 ∧
      timesGot n service.ledger.delivered = 1 := by
  obtain ⟨hprocessed, hanswered, hissued⟩ := h.kept n
  have hbalanced := h.balanced n
  have hgot := h.timesGot_eq n
  have howes : total (owes n) service.session = 0 := by
    apply total_eq_zero.mpr
    intro s
    unfold owes
    cases hout : (service.session s).outstanding with
    | none => rfl
    | some task => exact if_neg fun heq => hsettled s task hout (eq_of_beq heq)
  have hwaits := total_mono (waits_le_owes n) service.session
  have hdone := total_mono (finished_le_holds n) service.worker
  unfold Balanced at hbalanced
  rw [if_pos hn] at hissued
  refine ⟨?_, ?_, ?_⟩ <;> omega

omit [DecidableEq ι] [DecidableEq κ] n in
/-- No response is left when nobody waits for one. -/
theorem Accounted.respQueue_eq_nil (hidle : ∀ s, service.session s = .idle) :
    service.respQueue = [] := by
  by_contra hne
  obtain ⟨m, hm⟩ := List.exists_mem_of_ne_nil _ hne
  have hqueued : 0 < responsesQueued (serialIs m.body.serial) service.respQueue :=
    List.countP_pos_iff.mpr ⟨m, hm, beq_self_eq_true m.body.serial⟩
  have hwaits : total (waits (serialIs m.body.serial)) service.session = 0 :=
    total_eq_zero.mpr fun s => by rw [hidle s]; rfl
  have hbalanced := h.balanced m.body.serial
  unfold Balanced at hbalanced
  omega

end Once

omit [DecidableEq ι] [DecidableEq κ] in
/-- What a session has received, the task it sent may return. -/
theorem Accounted.mayReturn (h : Accounted service) {d : Delivery ι}
    (hd : d ∈ service.ledger.delivered) : (processTask d.sent.body).MayReturn d.got.body := by
  have hreceived := h.delivered d hd
  obtain ⟨s, task, hasked, hreturn⟩ := h.genuine.processed d.got hreceived.computed
  have hsent : service.ledger.issued[d.got.serial]? = some ⟨d.session, d.sent.body⟩ := by
    rw [hreceived.own]
    exact hreceived.asked
  obtain ⟨-, rfl⟩ := Asked.mk.inj (Option.some.inj (hasked.symm.trans hsent))
  exact hreturn

end Service

open Service in
/-- Ids are told apart for 99900 requests.  If no request is outstanding for longer,
every session receives the response to its own task, every task is processed and
answered once, and no response is left over. -/
theorem responses_reach_their_sessions {ι κ : Type} [Fintype ι] [DecidableEq ι] [Fintype κ]
    [DecidableEq κ] :
    (∀ n, 100 ≤ requestId n ∧ requestId n ≤ 99999) ∧
      (∀ n i j, i < j → j < 99900 → requestId (n + i) ≠ requestId (n + j)) ∧
      ∀ (taskCapacity respCapacity : ℕ) (world : World) (service : Service ι κ),
        Reached (step taskCapacity respCapacity) InTime (start world) service →
          (∀ d ∈ service.ledger.delivered,
            AskedFor service.ledger d.session d.sent ∧ d.got.serial = d.sent.serial ∧
              d.got ∈ service.ledger.processed ∧
              (processTask d.sent.body).MayReturn d.got.body) ∧
          (∀ n, times n service.ledger.processed ≤ 1 ∧ times n service.ledger.answered ≤ 1) ∧
          (∀ n, n < service.ledger.issued.length →
            (∀ s, ∀ task ∈ (service.session s).outstanding, task.serial ≠ n) →
            times n service.ledger.processed = 1 ∧ times n service.ledger.answered = 1 ∧
              timesGot n service.ledger.delivered = 1) ∧
          ((∀ s, service.session s = .idle) → service.respQueue = []) := by
  refine ⟨fun n => ?_, fun n i j hij hj heq => ?_, fun _ _ world service hreach => ?_⟩
  · rw [requestId_eq]
    omega
  · have hsame := requestId_injective_within heq (by omega) (by omega)
    omega
  · have h := reached_accounted hreach
    refine ⟨fun d hd => ?_, h.times_le_one, h.times_eq_one, h.respQueue_eq_nil⟩
    have hreceived := h.delivered d hd
    exact ⟨hreceived.asked, hreceived.own, hreceived.computed, h.mayReturn hd⟩

open Service in
/-- Two sessions have requests under way together; the worker that took its task
second answers first. -/
theorem two_lists_are_answered :
    ∃ service : Service Bool Bool, Reached (step 2 2) InTime (start freshWorld) service ∧
      service.ledger.delivered.map Delivery.session = [true, false] ∧
      (∀ d ∈ service.ledger.delivered, AskedFor service.ledger d.session d.sent ∧
        d.got.serial = d.sent.serial) ∧
      ∀ n < 2, times n service.ledger.processed = 1 ∧ times n service.ledger.answered = 1 ∧
        timesGot n service.ledger.delivered = 1 := by
  have hfirst : Reached (step 2 2) InTime (start freshWorld)
      (start freshWorld : Service Bool Bool) := .first
  have h₁ := hfirst.step (.getNextRequestId false administrator listRequest)
    (step_getNextRequestId.mpr ⟨rfl, listRequest_passedOn, rfl⟩) (inTime_of_le (by decide))
  have h₂ := h₁.step (.getNextRequestId true administrator listRequest)
    (step_getNextRequestId.mpr ⟨rfl, listRequest_passedOn, rfl⟩) (inTime_of_le (by decide))
  have h₃ := h₂.step (.sendTask true)
    (step_sendTask.mpr ⟨_, rfl, by decide, rfl⟩) (inTime_of_le (by decide))
  have h₄ := h₃.step (.sendTask false)
    (step_sendTask.mpr ⟨_, rfl, by decide, rfl⟩) (inTime_of_le (by decide))
  have h₅ := h₄.step (.receiveTask false)
    (step_receiveTask.mpr ⟨rfl, _, _, rfl, rfl⟩) (inTime_of_le (by decide))
  have h₆ := h₅.step (.receiveTask true)
    (step_receiveTask.mpr ⟨rfl, _, _, rfl, rfl⟩) (inTime_of_le (by decide))
  have h₇ := h₆.step (.processTask true (Env.calm 0)) rfl (inTime_of_le (by decide))
  have h₈ := h₇.step (.processTask false (Env.calm 0)) rfl (inTime_of_le (by decide))
  have h₉ := h₈.step (.processTask true (Env.calm 0)) rfl (inTime_of_le (by decide))
  have h₁₀ := h₉.step (.sendResponse true)
    (step_sendResponse.mpr ⟨_, rfl, by decide, rfl⟩) (inTime_of_le (by decide))
  have h₁₁ := h₁₀.step (.processTask false (Env.calm 0)) rfl (inTime_of_le (by decide))
  have h₁₂ := h₁₁.step (.sendResponse false)
    (step_sendResponse.mpr ⟨_, rfl, by decide, rfl⟩) (inTime_of_le (by decide))
  have h₁₃ := h₁₂.step (.receiveResponse true)
    (step_receiveResponse.mpr ⟨_, _, _, rfl, rfl, rfl⟩) (inTime_of_le (by decide))
  have h₁₄ := h₁₃.step (.receiveResponse false)
    (step_receiveResponse.mpr ⟨_, _, _, rfl, rfl, rfl⟩) (inTime_of_le (by decide))
  have hdelivery := responses_reach_their_sessions.2.2 2 2 freshWorld _ h₁₄
  refine ⟨_, h₁₄, rfl, fun d hd => ?_, fun n hn => ?_⟩
  · exact ⟨(hdelivery.1 d hd).1, (hdelivery.1 d hd).2.1⟩
  · apply hdelivery.2.2.1 n hn
    intro s task htask
    cases s <;> exact absurd htask (Option.not_mem_none _)

end CloudSync
