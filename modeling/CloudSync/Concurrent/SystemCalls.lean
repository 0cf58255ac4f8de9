import CloudSync.Concurrent.Workers
import CloudSync.State.Descriptors

/-!
# Workers, system call by system call

`Worker.lean` takes each call of a file function for one step.  Here the file functions are
run system call by system call, so that those of several workers interleave, and a file that
is unlinked by one worker while another has it open goes on being read and written by that
other one.  The calls that remain whole are the functions of the shared array, which the
semaphore makes so, the reads through a record pointer, and the two that are about the
audit log.

* `machine_serve`: alone, a worker does what `serve` says.
* `workers_among_machine`: what the workers of `Workers.lean` can do is among what they
  can do here.

What `strftime` prints for the modification time of a path is fixed, to keep it out of the
way.
-/

namespace CloudSync

open CText Calls Calls.Prog Files

/-- A step of a worker: a call that is taken whole, or a system call. -/
inductive WorkerStep (ι : Type) (β : Type)
  | whole (c : WorkerCall β)
  | sys (c : ProcessCall ι β)

/-- The state the workers share, with what their descriptors stand for. -/
structure Machine (ι : Type) where
  world : World
  files : OpenFiles ι

variable {ι : Type} [DecidableEq ι]

/-- What the steps do. -/
def machine (ι : Type) [DecidableEq ι] : Handler (WorkerStep ι) Env (Machine ι) where
  exec := fun e step m =>
    match step with
    | .whole c => ((worker.exec e c m.world).1, { m with world := (worker.exec e c m.world).2 })
    | .sys c =>
        let out := (processes ι).exec (e.conditions 0) c (m.world.tree, m.files)
        (out.1, { world := { m.world with tree := out.2.1 }, files := out.2.2 })

/-- A file function as steps of worker `i`. -/
def fileSteps {α : Type} (i : ι) (prog : Prog Sys α) : Prog (WorkerStep ι) α :=
  (byProcess i prog).expand fun c => perform (.sys c)

/-- The steps of worker `i` for a call. -/
def stepsOf (modified : Bytes → Bytes) (i : ι) : {β : Type} → WorkerCall β → Prog (WorkerStep ι) β
  | _, .saveVersion filename version => fileSteps i (saveVersion filename version)
  | _, .saveFile filename data => fileSteps i (saveFile filename data)
  | _, .readFile filename => fileSteps i (readFile filename)
  | _, .restoreVersion filename version => fileSteps i (restoreVersion filename version)
  | _, .removeFileFromStorage filename => fileSteps i (removeFileFromStorage filename)
  | _, .listVersions filename => do
      let out ← fileSteps i (listVersions filename maxFileSize modified)
      return out.2
  | _, .deleteVersion filename version => fileSteps i (deleteVersion filename version)
  | _, c => perform (.whole c)

/-- `process_task` as steps of worker `i`. -/
def taskSteps (modified : Bytes → Bytes) (i : ι) (task : TaskMessage) :
    Prog (WorkerStep ι) ResponseMessage := (processTask task).expand (stepsOf modified i)

omit [DecidableEq ι] in
@[simp] theorem fileSteps_ret {α : Type} (i : ι) (value : α) :
    fileSteps i (.ret value : Prog Sys α) = .ret value := rfl

omit [DecidableEq ι] in
@[simp] theorem fileSteps_call {α β : Type} (i : ι) (c : Sys β) (next : β → Prog Sys α) :
    fileSteps i (.call c next) = .call (.sys ⟨i, c⟩) fun answer => fileSteps i (next answer) := rfl

omit [DecidableEq ι] in
theorem fileSteps_bind {α β : Type} (i : ι) (prog : Prog Sys α) (f : α → Prog Sys β) :
    fileSteps i (prog >>= f) = fileSteps i prog >>= fun value => fileSteps i (f value) := by
  induction prog with
  | ret value => rfl
  | call c next ih =>
      rw [call_bind, fileSteps_call, fileSteps_call, call_bind]
      exact congrArg _ (funext ih)

/-- The file function of a call that is not taken whole. -/
def fileProgram (modified : Bytes → Bytes) :
    {β : Type} → WorkerCall β → Option (Prog Sys β)
  | _, .saveVersion filename version => some (saveVersion filename version)
  | _, .saveFile filename data => some (saveFile filename data)
  | _, .readFile filename => some (readFile filename)
  | _, .restoreVersion filename version => some (restoreVersion filename version)
  | _, .removeFileFromStorage filename => some (removeFileFromStorage filename)
  | _, .listVersions filename =>
      some (listVersions filename maxFileSize modified >>= fun out => .ret out.2)
  | _, .deleteVersion filename version => some (deleteVersion filename version)
  | _, _ => none

omit [DecidableEq ι] in
theorem stepsOf_fileProgram {modified : Bytes → Bytes} {β : Type} {c : WorkerCall β}
    {prog : Prog Sys β} (hprog : fileProgram modified c = some prog) (i : ι) :
    stepsOf modified i c = fileSteps i prog := by
  cases c with
  | listVersions filename =>
      obtain rfl := Option.some.inj hprog
      rw [fileSteps_bind]
      rfl
  | _ => first | exact absurd hprog (Option.some_ne_none prog).symm
               | exact congrArg (fileSteps i) (Option.some.inj hprog)

omit [DecidableEq ι] in
theorem stepsOf_whole {modified : Bytes → Bytes} {β : Type} {c : WorkerCall β}
    (hnone : fileProgram modified c = none) (i : ι) : stepsOf modified i c = perform (.whole c) := by
  cases c <;> first | rfl | exact absurd hnone (Option.some_ne_none _)

/-- The calls for the file `f` that are not taken whole, with their programs. -/
inductive FileCall (modified : Bytes → Bytes) (f : Bytes) :
    {β : Type} → WorkerCall β → Prog Sys β → Prop
  | saveVersion (k : ℤ) : FileCall modified f (.saveVersion f k) (CloudSync.saveVersion f k)
  | saveFile (data : Bytes) : FileCall modified f (.saveFile f data) (CloudSync.saveFile f data)
  | readFile : FileCall modified f (.readFile f) (CloudSync.readFile f)
  | restoreVersion (k : ℤ) :
      FileCall modified f (.restoreVersion f k) (CloudSync.restoreVersion f k)
  | removeFileFromStorage :
      FileCall modified f (.removeFileFromStorage f) (CloudSync.removeFileFromStorage f)
  | listVersions : FileCall modified f (.listVersions f)
      (CloudSync.listVersions f maxFileSize modified >>= fun out => .ret out.2)
  | deleteVersion (k : ℤ) : FileCall modified f (.deleteVersion f k) (CloudSync.deleteVersion f k)

theorem fileCall_of_fileProgram {modified : Bytes → Bytes} {f : Bytes} {β : Type}
    {c : WorkerCall β} (hc : ∀ name ∈ c.filename, name = f) {prog : Prog Sys β}
    (hprog : prog ∈ fileProgram modified c) : FileCall modified f c prog := by
  cases hname : c.filename with
  | none =>
      cases c <;> first
        | exact absurd hprog (Option.some_ne_none prog).symm
        | exact absurd hname (Option.some_ne_none _)
  | some name =>
      obtain rfl := hc name hname
      cases c <;> first
        | exact absurd hprog (Option.some_ne_none prog).symm
        | (obtain rfl := Option.some.inj hname
           obtain rfl := Option.some.inj hprog
           constructor)

theorem fileProgram_keepsFiles {modified : Bytes → Bytes} {β : Type} {c : WorkerCall β}
    {prog : Prog Sys β} (hprog : prog ∈ fileProgram modified c) : KeepsFiles prog := by
  cases c with
  | saveVersion _ k => exact Option.some.inj hprog ▸ saveVersion_keepsFiles k
  | saveFile _ data => exact Option.some.inj hprog ▸ saveFile_keepsFiles data
  | readFile _ => exact Option.some.inj hprog ▸ readFile_keepsFiles
  | restoreVersion _ k => exact Option.some.inj hprog ▸ restoreVersion_keepsFiles k
  | removeFileFromStorage _ => exact Option.some.inj hprog ▸ removeFileFromStorage_keepsFiles
  | listVersions _ =>
      exact Option.some.inj hprog ▸
        keepsFiles_bind (listVersions_keepsFiles maxFileSize modified) fun _ => rfl
  | deleteVersion _ k => exact Option.some.inj hprog ▸ deleteVersion_keepsFiles k
  | _ => exact absurd hprog (Option.some_ne_none prog).symm

/-! ## A worker alone -/

section Alone

variable {α : Type} {i : ι} {modified : Bytes → Bytes}

/-- The conditions that the system calls of a stream of environments meet. -/
def sysConditions (env : ℕ → Env) (k : ℕ) : Conditions := (env k).conditions 0

/-- The steps of a file function are the calls of its process. -/
theorem run_fileSteps (prog : Prog Sys α) (env : ℕ → Env) (m : Machine ι) :
    (fileSteps i prog).run (machine ι) env m =
      let out := (byProcess i prog).run (processes ι) (sysConditions env) (m.world.tree, m.files)
      (out.1, { world := { m.world with tree := out.2.1 }, files := out.2.2 }) := by
  induction prog generalizing env m with
  | ret value => rfl
  | call c next ih =>
      rw [fileSteps_call, byProcess_call, run_call, run_call]
      exact ih _ _ _

/-- Alone, a file function does what it does on the disk. -/
theorem run_fileSteps_alone {prog : Prog Sys α} (hprog : KeepsFiles prog) (env : ℕ → Env)
    (m : Machine ι) :
    ∃ files, (fileSteps i prog).run (machine ι) env m =
      ((prog.run disk (sysConditions env) m.world.tree).1,
        ⟨{ m.world with tree := (prog.run disk (sysConditions env) m.world.tree).2 }, files⟩) := by
  obtain ⟨files, hrun⟩ := run_processes (i := i) hprog (sysConditions env) m.world.tree
    (o := m.files) fun p hp => absurd hp List.not_mem_nil
  rw [run_fileSteps, hrun]
  exact ⟨files, rfl⟩

/-- The environments of the steps of a call, taken together. -/
def gathered (modified : Bytes → Bytes) (env : ℕ → Env) : Env :=
  { env 0 with conditions := sysConditions env, modified := modified }

/-- The environment of a call, spread over its steps. -/
def spread (e : Env) (k : ℕ) : Env := { e with conditions := fun _ => e.conditions k }

omit [DecidableEq ι] in
theorem gathered_spread (e : Env) : gathered e.modified (spread e) = e := rfl

theorem run_fileSteps_onDisk {prog : Prog Sys α} (hprog : KeepsFiles prog)
    (modified : Bytes → Bytes) (env : ℕ → Env) (m : Machine ι) :
    ∃ files, (fileSteps i prog).run (machine ι) env m =
      ((onDisk (gathered modified env) prog m.world).1,
        ⟨(onDisk (gathered modified env) prog m.world).2, files⟩) :=
  run_fileSteps_alone hprog env m

/-- A call that is taken whole. -/
theorem run_whole {β : Type} (c : WorkerCall β) (env : ℕ → Env) (m : Machine ι) :
    (perform (.whole c) : Prog (WorkerStep ι) β).run (machine ι) env m =
      ((worker.exec (env 0) c m.world).1, ⟨(worker.exec (env 0) c m.world).2, m.files⟩) := rfl

/-- A call that is not taken whole does what its file function does on the storage. -/
theorem exec_of_fileProgram {e : Env} (hmodified : e.modified = modified) {β : Type}
    {c : WorkerCall β} {prog : Prog Sys β} (hprog : fileProgram modified c = some prog)
    (world : World) : worker.exec e c world = onDisk e prog world := by
  cases c with
  | listVersions f =>
      obtain rfl := Option.some.inj hprog
      simp only [worker, onDisk, hmodified, run_bind]
      rfl
  | _ => first | exact absurd hprog (Option.some_ne_none prog).symm
               | exact congrArg (onDisk e · world) (Option.some.inj hprog)

/-- The steps of a call do what the call does. -/
theorem run_stepsOf (modified : Bytes → Bytes) (i : ι) {β : Type} (c : WorkerCall β)
    (env : ℕ → Env) (m : Machine ι) :
    ∃ files, (stepsOf modified i c).run (machine ι) env m =
      ((worker.exec (gathered modified env) c m.world).1,
        ⟨(worker.exec (gathered modified env) c m.world).2, files⟩) := by
  cases hprog : fileProgram modified c with
  | some prog =>
      rw [stepsOf_fileProgram hprog, exec_of_fileProgram rfl hprog]
      exact run_fileSteps_onDisk (fileProgram_keepsFiles hprog) modified env m
  | none =>
      -- a call that is taken whole reads nothing of the conditions
      have hsame : worker.exec (gathered modified env) c m.world =
          worker.exec (env 0) c m.world := by
        cases c <;> first | rfl | exact absurd hprog (Option.some_ne_none _)
      rw [stepsOf_whole hprog, hsame]
      exact ⟨m.files, run_whole c env m⟩

/-- An environment of a call that is made from those of steps: its clock reading and its audit
pipe are those of one step, and each system call meets the conditions of a step. -/
structure Assembled (modified : Bytes → Bytes) (env : ℕ → Env) (e : Env) : Prop where
  now : ∃ k, e.now = (env k).now ∧ e.auditOpen = (env k).auditOpen ∧ e.date = (env k).date
  conditions : ∀ n, ∃ k, e.conditions n = (env k).conditions 0
  modified : e.modified = modified

theorem assembled_gathered (modified : Bytes → Bytes) (env : ℕ → Env) :
    Assembled modified env (gathered modified env) where
  now := ⟨0, rfl, rfl, rfl⟩
  conditions := fun n => ⟨n, rfl⟩
  modified := rfl

theorem Assembled.later {modified : Bytes → Bytes} {env : ℕ → Env} {k : ℕ} {e : Env}
    (h : Assembled modified (fun i => env (i + k)) e) : Assembled modified env e where
  now := h.now.elim fun n hn => ⟨n + k, hn⟩
  conditions := fun n => (h.conditions n).elim fun m hm => ⟨m + k, hm⟩
  modified := h.modified

/-- Alone, a worker does what `serve` says, in environments made from those it meets. -/
theorem machine_serve (modified : Bytes → Bytes) (i : ι) (task : TaskMessage) (env : ℕ → Env)
    (m : Machine ι) :
    ∃ env' : ℕ → Env, (∀ k, Assembled modified env (env' k)) ∧ serve env' task m.world =
      (((taskSteps modified i task).run (machine ι) env m).1,
        ((taskSteps modified i task).run (machine ι) env m).2.world) := by
  apply run_expand Machine.world (fun env => ⟨_, assembled_gathered modified env⟩)
    (fun env k e h => h.later)
  intro β c env m
  obtain ⟨files, hrun⟩ := run_stepsOf modified i c env m
  exact ⟨gathered modified env, assembled_gathered modified env, by rw [hrun]⟩

end Alone

/-! ## Contracts of the steps -/

section Contracts

variable {γ α β : Type} {k : Contract WorkerCall γ} {files : Contract Sys Unit} {i : ι} {g : γ}

/-- The call is taken whole. -/
def WorkerCall.isWhole : {β : Type} → WorkerCall β → Bool
  | _, .saveVersion _ _ => false
  | _, .saveFile _ _ => false
  | _, .readFile _ => false
  | _, .restoreVersion _ _ => false
  | _, .removeFileFromStorage _ => false
  | _, .listVersions _ => false
  | _, .deleteVersion _ _ => false
  | _, _ => true

theorem not_isWhole_of_fileProgram {modified : Bytes → Bytes} {c : WorkerCall β}
    {prog : Prog Sys β} (hprog : fileProgram modified c = some prog) : c.isWhole = false := by
  cases c <;> first | rfl | exact absurd hprog (Option.some_ne_none prog).symm

theorem isWhole_of_fileProgram {modified : Bytes → Bytes} {c : WorkerCall β}
    (hnone : fileProgram modified c = none) : c.isWhole = true := by
  cases c <;> first | rfl | exact absurd hnone (Option.some_ne_none _)

/-- A call that is taken whole changes nothing that is stored. -/
theorem at?_exec_of_whole {c : WorkerCall β} (hwhole : c.isWhole = true) (e : Env) (world : World)
    (p : Path) : (worker.exec e c world).2.tree.at? p = world.tree.at? p := by
  have hquiet : c.writesContent = none ∧ c.writesVersions = none := by
    cases c <;> first | exact ⟨rfl, rfl⟩ | exact Bool.noConfusion hwhole
  exact at?_exec_of_quiet e c world hquiet.1 hquiet.2 p

/-- The contract of the steps of a worker whose system calls keep a contract of their own. -/
def stepContract (ι : Type) (k : Contract WorkerCall γ) (files : Contract Sys Unit) :
    Contract (WorkerStep ι) γ where
  start := k.start
  next := fun g step answer =>
    match step with
    | .whole c => k.next g c answer
    | .sys _ => g
  rely := fun g _ step answer =>
    match step with
    | .whole c => k.rely g c answer
    | .sys c => files.rely () c.call answer
  guar := fun g _ step =>
    match step with
    | .whole c => c.isWhole = true ∧ k.guar g c
    | .sys c => files.guar () c.call

omit [DecidableEq ι] in
theorem honours_fileSteps {post : α → Prop} {prog : Prog Sys α}
    (h : Honours files (fun _ answer => post answer) () prog) :
    Honours (stepContract ι k files) (fun g' answer => g' = g ∧ post answer) g
      (fileSteps i prog) := by
  induction prog with
  | ret value => exact ⟨rfl, h⟩
  | call c next ih => exact ⟨h.1, fun answer hanswer => ih answer (h.2 answer hanswer)⟩

omit [DecidableEq ι] in
/-- A file function whose result the contract asks nothing else of. -/
theorem honours_fileCall {c : WorkerCall β} {prog : Prog Sys β}
    (h : Honours files (fun _ answer => k.rely g c answer) () prog)
    (hnext : ∀ answer, k.next g c answer = g) :
    Honours (stepContract ι k files)
      (fun g' answer => g' = k.next g c answer ∧ k.rely g c answer) g (fileSteps i prog) := by
  refine (honours_fileSteps h).mono ?_
  rintro g' answer ⟨rfl, hrely⟩
  exact ⟨(hnext answer).symm, hrely⟩

omit [DecidableEq ι] in
theorem honours_whole {c : WorkerCall β} (hc : c.isWhole = true) (hguar : k.guar g c) :
    Honours (stepContract ι k files)
      (fun g' answer => g' = k.next g c answer ∧ k.rely g c answer) g
      (perform (.whole c) : Prog (WorkerStep ι) β) :=
  ⟨⟨hc, hguar⟩, fun _ hrely => ⟨rfl, hrely⟩⟩

omit [DecidableEq ι] in
/-- The steps of a call keep the contract, if the file function it may be keeps that of the
files and the contract remembers nothing of it. -/
theorem honours_stepsOf {modified : Bytes → Bytes} {c : WorkerCall β} (hguar : k.guar g c)
    (hnext : c.isWhole = false → ∀ answer, k.next g c answer = g)
    (hfiles : ∀ prog ∈ fileProgram modified c,
      Honours files (fun _ answer => k.rely g c answer) () prog) :
    Honours (stepContract ι k files)
      (fun g' answer => g' = k.next g c answer ∧ k.rely g c answer) g (stepsOf modified i c) := by
  cases hprog : fileProgram modified c with
  | some prog =>
      rw [stepsOf_fileProgram hprog]
      exact honours_fileCall (hfiles prog hprog) (hnext (not_isWhole_of_fileProgram hprog))
  | none =>
      rw [stepsOf_whole hprog]
      exact honours_whole (isWhole_of_fileProgram hprog) hguar

end Contracts

/-! ## Workers among others -/

section Pools

variable {tasks : ι → TaskMessage}

/-- Workers in the middle of their steps. -/
abbrev Stepping (ι : Type) := Pool (WorkerStep ι) Unit ResponseMessage ι (Machine ι)

/-- All workers have just received their tasks, and none has a file open. -/
def Stepping.start (tasks : ι → TaskMessage) (modified : Bytes → Bytes) (world : World) :
    Stepping ι :=
  Pool.start (fun _ => Monitor.silent _) (fun i => taskSteps modified i (tasks i))
    ⟨world, OpenFiles.fresh ι⟩

/-- The states that any order of the steps leads to. -/
abbrev SteppingReach (tasks : ι → TaskMessage) (modified : Bytes → Bytes) (world : World) :
    Stepping ι → Prop :=
  Reach (machine ι) (fun _ => Monitor.silent _) (fun _ _ _ => True)
    (Stepping.start tasks modified world)

variable {modified : Bytes → Bytes} {world : World}

/-- Where a schedule leads is reached. -/
theorem steppingReach_run (tasks : ι → TaskMessage) (modified : Bytes → Bytes) (world : World)
    (schedule : List (ι × Env)) : SteppingReach tasks modified world
      ((Stepping.start tasks modified world).runSchedule (machine ι) (fun _ => Monitor.silent _)
        schedule) := Reach.run_schedule .refl fun _ _ => trivial

/-- The rule for workers whose steps are under contract. -/
theorem SteppingReach.honours {γ : Type} {k : ι → Contract (WorkerStep ι) γ}
    {done : ι → γ → ResponseMessage → Prop} {I : (ι → γ) → Machine ι → Prop}
    (hkeep : ∀ ghosts m i e {β : Type} (c : WorkerStep ι β), I ghosts m → (k i).guar (ghosts i) c →
      (k i).rely (ghosts i) c ((machine ι).exec e c m).1 ∧
        I (Function.update ghosts i ((k i).next (ghosts i) c ((machine ι).exec e c m).1))
          ((machine ι).exec e c m).2)
    (hfirst : I (fun i => (k i).start) ⟨world, OpenFiles.fresh ι⟩)
    (hprogs : ∀ i, Honours (k i) (done i) (k i).start (taskSteps modified i (tasks i)))
    {stepping : Stepping ι} (hreach : SteppingReach tasks modified world stepping) :
    ∃ ghosts, I ghosts stepping.shared ∧
      ∀ i, Honours (k i) (done i) (ghosts i) (stepping.thread i).prog := by
  obtain ⟨pool, hpool, halong⟩ := hreach.watched fun i => (k i).toMonitor
  obtain ⟨hI, hhonour⟩ := hpool.honours hkeep (by exact hfirst) (by exact hprogs)
  refine ⟨pool.ghosts, by rw [← halong.shared]; exact hI, fun i => ?_⟩
  rw [← halong.prog i]
  exact hhonour i

/-- What the workers can do call by call, they can do step by step. -/
theorem workers_among_machine {workers : Workers ι}
    (hreach : WorkersReach tasks (fun _ _ e => e.modified = modified) world workers) :
    ∃ stepping, SteppingReach tasks modified world stepping ∧
      stepping.shared.world = workers.shared ∧
      ∀ i, (stepping.thread i).prog = (workers.thread i).prog.expand (stepsOf modified i) := by
  apply Reach.expand Machine.world (t := ⟨world, OpenFiles.fresh ι⟩) _ hreach
  intro i β c e m hmodified
  obtain ⟨files, hrun⟩ := run_stepsOf modified i c (spread e) m
  refine ⟨spread e, ?_⟩
  subst hmodified
  rw [hrun, gathered_spread]

end Pools

/-- A user uploads `a` from two sessions. -/
def uploadsOfOneUser (second : Bool) : TaskMessage :=
  sampleTask .upload 2 roleUser (cond second "new" "old")

/-- The two uploads take turns. -/
def inTurns (steps : ℕ) : List (Bool × Env) :=
  (List.replicate steps [(false, Env.calm 0), (true, Env.calm 0)]).flatten

theorem workers_among_machine_uploads :
    ∃ stepping, SteppingReach uploadsOfOneUser (fun _ => []) freshWorld stepping ∧
      stepping.shared.world =
        ((Workers.start uploadsOfOneUser freshWorld).run uploadsOfOneUser (inTurns 6)).shared := by
  have hcalm : ∀ entry ∈ inTurns 6, entry.2.modified = fun _ => [] := by
    intro entry hmem
    obtain ⟨turn, hturn, hentry⟩ := List.mem_flatten.mp hmem
    obtain rfl := List.eq_of_mem_replicate hturn
    rcases List.mem_pair.mp hentry with rfl | rfl <;> rfl
  obtain ⟨stepping, hreach, hworld, -⟩ := workers_among_machine (Reach.run_schedule .refl hcalm)
  exact ⟨stepping, hreach, hworld⟩

end CloudSync
