import CloudSync.State.Checks

/-!
# The worker pool

Any number of workers, each at its own task.  A step of the pool is one call of
one task, in an environment of its own; the ghost value of a thread is what its
task has checked (`standing`).  Every call that is made is covered by the checks
of the task that makes it, whatever the others do (`Workers.sound_of_reach`).
-/

namespace CloudSync

open CText Calls Calls.Prog Files

variable {ι : Type} [DecidableEq ι] (task : ι → TaskMessage)

/-- Tasks in the middle of being processed. -/
abbrev Workers (ι : Type) := Pool WorkerCall Standing ResponseMessage ι World

/-- All workers have just received their tasks. -/
def Workers.start (world : World) : Workers ι :=
  Pool.start (fun i => standing (task i)) (fun i => processTask (task i)) world

/-- Worker `i` makes its next call. -/
def Workers.step (workers : Workers ι) (i : ι) (e : Env) : Workers ι :=
  Pool.step worker (fun i => standing (task i)) workers i e

/-- The workers take the steps of a schedule. -/
def Workers.run (workers : Workers ι) (schedule : List (ι × Env)) : Workers ι :=
  Pool.runSchedule worker (fun i => standing (task i)) workers schedule

/-- The states reached by steps that satisfy `allowed`. -/
abbrev WorkersReach (allowed : Workers ι → ι → Env → Prop) (world : World) : Workers ι → Prop :=
  Reach worker (fun i => standing (task i)) allowed (Workers.start task world)

variable {task} {workers : Workers ι} {i : ι} {e : Env}

/-- What the pool keeps whatever the order of steps: distinct names in the array,
and every task covered by its checks. -/
structure Workers.Sound (task : ι → TaskMessage) (workers : Workers ι) : Prop where
  unique : UniqueNames workers.shared.metadata
  covered : ∀ i, Covered (task i) (workers.thread i).ghost (workers.thread i).prog

omit [DecidableEq ι] in
theorem Workers.Sound.entitled (hsound : Workers.Sound task workers) {β : Type} {c : WorkerCall β}
    {next : β → Prog WorkerCall ResponseMessage} (hprog : (workers.thread i).prog = .call c next) :
    Entitled (task i) (workers.thread i).ghost c := by
  have hcovered := hsound.covered i
  rw [hprog] at hcovered
  exact hcovered.1

namespace Workers

theorem step_of_ret {value : ResponseMessage} (hprog : (workers.thread i).prog = .ret value) :
    workers.step task i e = workers := Pool.step_ret hprog e

theorem step_of_call {β : Type} {c : WorkerCall β} {next : β → Prog WorkerCall ResponseMessage}
    (hprog : (workers.thread i).prog = .call c next) :
    workers.step task i e =
      ⟨(worker.exec e c workers.shared).2, Function.update workers.thread i
        ⟨(standing (task i)).next (workers.thread i).ghost c (worker.exec e c workers.shared).1,
          next (worker.exec e c workers.shared).1⟩⟩ := Pool.step_call hprog e

theorem Sound.step (hsound : Sound task workers) (i : ι) (e : Env) :
    Sound task (workers.step task i e) := by
  refine ⟨?_, Obeys.step hsound.covered i e⟩
  cases hprog : (workers.thread i).prog with
  | ret value =>
      rw [step_of_ret hprog]
      exact hsound.unique
  | call c next =>
      rw [step_of_call hprog]
      exact (record?_exec e c hsound.unique (hsound.entitled hprog).filename_length).1

theorem sound_of_reach {allowed : Workers ι → ι → Env → Prop} {world : World}
    (hunique : UniqueNames world.metadata) (hreach : WorkersReach task allowed world workers) :
    Sound task workers :=
  hreach.invariant ⟨hunique, fun i => processTask_covered (task i) _⟩
    fun _ i e hsound _ => hsound.step i e

end Workers

end CloudSync
