import CloudSync.Sequential.Holds

/-!
# Runs of tasks

Tasks are processed one at a time; `worldAfter jobs first n` is the state after
the first `n` of them, and `response jobs first n` is the answer to the next.
The sequence is infinite, so that every finite run is the beginning of one.

The rules at the end are for following one task through its checks with
`Prog.wp`: looking at the record and writing an audit entry change nothing.
-/

namespace CloudSync

open CText Calls Calls.Prog Files

/-- A task, and what its calls meet. -/
structure Job where
  env : ℕ → Env
  task : TaskMessage

/-- The state after the first `n` tasks. -/
def worldAfter (jobs : ℕ → Job) (first : World) : ℕ → World
  | 0 => first
  | n + 1 => (serve (jobs n).env (jobs n).task (worldAfter jobs first n)).2

/-- The response to task `n`. -/
def response (jobs : ℕ → Job) (first : World) (n : ℕ) : ResponseMessage :=
  (serve (jobs n).env (jobs n).task (worldAfter jobs first n)).1

variable {jobs : ℕ → Job} {first : World}

theorem worldAfter_unique (jobs : ℕ → Job) (hfirst : UniqueNames first.metadata) (n : ℕ) :
    UniqueNames (worldAfter jobs first n).metadata := by
  induction n with
  | zero => exact hfirst
  | succ n ih => exact serve_unique _ ih

/-! ## Following a task through its checks -/

section Rules

variable {ok : Env → Prop} {task : TaskMessage} {world : World}
  {Q : ResponseMessage → World → Prop}

/-- The audit entry of an exit path touches neither the records nor the storage. -/
theorem wp_answer {result : String} {status : Status} {message data : Bytes}
    (h : ∀ world' : World, world'.metadata = world.metadata → world'.tree = world.tree →
      Q (reply task status message data) world') :
    wp worker ok (answer task result status message data) Q world := by
  simp only [answer, audit, perform_bind, pure_eq_ret, wp_call, wp_ret]
  intro env _
  apply h _ (metadata_exec _ _ _ rfl)
  simp only [worker]
  split <;> rfl

/-- Looking for the record changes nothing. -/
theorem wp_findFileMetadata {α : Type} {f : Bytes} {next : Option Slot → Prog WorkerCall α}
    {Q : α → World → Prop}
    (hnone : record? world.metadata f = none → wp worker ok (next none) Q world)
    (hsome : ∀ i, record? world.metadata f = some (world.metadata i) →
      wp worker ok (next (some i)) Q world) :
    wp worker ok (call (.findFileMetadata f) next) Q world := by
  rw [wp_call]
  intro env _
  change wp worker ok (next (findFileMetadata world.metadata f)) Q world
  cases hfind : findFileMetadata world.metadata f with
  | none => exact hnone (findFileMetadata_eq_none.mp hfind)
  | some i => exact hsome i (record?_of_findFileMetadata hfind)

/-- Looking at the owner changes nothing; an admin does not look. -/
theorem wp_notOwner {α : Type} {i : Slot} {next : Bool → Prog WorkerCall α}
    {Q : α → World → Prop}
    (hrefused : task.role ≠ roleAdmin → (world.metadata i).ownerId ≠ task.userId →
      wp worker ok (next true) Q world)
    (hpassed : task.role = roleAdmin ∨ (world.metadata i).ownerId = task.userId →
      wp worker ok (next false) Q world) :
    wp worker ok (notOwner task i >>= next) Q world := by
  unfold notOwner
  split
  · next hrole => exact hpassed (Or.inl hrole)
  · next hrole =>
    simp only [perform_bind, call_bind, pure_eq_ret, ret_bind, wp_call]
    intro env _
    change wp worker ok (next ((world.metadata i).ownerId != task.userId)) Q world
    cases howner : (world.metadata i).ownerId != task.userId with
    | true => exact hrefused hrole (by simpa using howner)
    | false => exact hpassed (Or.inr (by simpa using howner))

/-- Looking at the holder changes nothing. -/
theorem wp_lockedByOther {α : Type} {i : Slot} {next : Bool → Prog WorkerCall α}
    {Q : α → World → Prop}
    (hrefused : (world.metadata i).lockedByUserId ≠ -1 →
      (world.metadata i).lockedByUserId ≠ task.userId → wp worker ok (next true) Q world)
    (hpassed : (world.metadata i).lockedByUserId = -1 ∨
      (world.metadata i).lockedByUserId = task.userId → wp worker ok (next false) Q world) :
    wp worker ok (lockedByOther task i >>= next) Q world := by
  unfold lockedByOther
  simp only [perform_bind, call_bind, wp_call]
  intro env _
  change wp worker ok ((if (world.metadata i).lockedByUserId = -1 then pure false
    else call (.lockedByUserId i) fun holder => pure (holder != task.userId)) >>= next) Q world
  split
  · next hfree => exact hpassed (Or.inl hfree)
  · next hlocked =>
    simp only [call_bind, pure_eq_ret, ret_bind, wp_call]
    intro env _
    change wp worker ok (next ((world.metadata i).lockedByUserId != task.userId)) Q world
    cases hholder : (world.metadata i).lockedByUserId != task.userId with
    | true => exact hrefused hlocked (by simpa using hholder)
    | false => exact hpassed (Or.inr (by simpa using hholder))

/-- `EDIT` asks for the lock.  It gets it if the lock is free, stale or its user's own. -/
theorem wp_acquireEditLock_of_some {i : Slot}
    {missing refused granted : Prog WorkerCall ResponseMessage}
    (hi : record? world.metadata task.filename = some (world.metadata i))
    (hgranted : ∀ e, ok e → ((world.metadata i).lockedByUserId = -1 ∨
        (world.metadata i).Stale e.now ∨ (world.metadata i).lockedByUserId = task.userId) →
      wp worker ok granted Q (onMetadata (acquireEditLock world.metadata task.filename task.userId
        task.username e.now) world).2)
    (hrefused : ∀ e, ok e → (world.metadata i).lockedByUserId ≠ -1 →
      ¬ (world.metadata i).Stale e.now → (world.metadata i).lockedByUserId ≠ task.userId →
      wp worker ok refused Q (onMetadata (acquireEditLock world.metadata task.filename task.userId
        task.username e.now) world).2) :
    wp worker ok (call (.acquireEditLock task.filename task.userId task.username) fun result =>
      if result = -1 then missing else if result = -2 then refused else granted) Q world := by
  intro e he
  change wp _ _ (if (acquireEditLock world.metadata task.filename task.userId task.username
    e.now).1 = -1 then _ else if (acquireEditLock world.metadata task.filename task.userId
      task.username e.now).1 = -2 then _ else _) _ (onMetadata (acquireEditLock world.metadata
        task.filename task.userId task.username e.now) world).2
  rw [acquireEditLock_of_some hi]
  by_cases hopen : (world.metadata i).lockedByUserId = -1 ∨ (world.metadata i).Stale e.now ∨
      (world.metadata i).lockedByUserId = task.userId
  · rw [if_pos hopen, if_neg (by decide), if_neg (by decide)]
    exact hgranted e he hopen
  · rw [if_neg hopen, if_neg (by decide), if_pos rfl]
    rw [not_or, not_or] at hopen
    obtain ⟨hlocked, hfresh, hother⟩ := hopen
    exact hrefused e he hlocked hfresh hother

/-- What every run of a task ends with. -/
theorem serve_of_wp {env : ℕ → Env}
    (h : wp worker (fun e => ∃ i, env i = e) (processTask task) Q world) :
    Q (serve env task world).1 (serve env task world).2 :=
  wp_run h fun i => ⟨i, rfl⟩

end Rules

end CloudSync
