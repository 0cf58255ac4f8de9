import CloudSync.Concurrent.Isolation
import CloudSync.Concurrent.SystemCalls
import CloudSync.Lib.SeparateFiles

/-!
# Tasks on different files, system call by system call

`Isolation.lean` compares a task among others with the task alone where every file function
is one step.  Here the workers take turns at the system calls (`SystemCalls.lean`), so that
the middle of one file function falls into the middle of another, and unlinked files stay
open.  A task whose file no other task modifies still does what it does alone
(`isolated_steps`).

The system calls of a task stay at the places of its file (`taskSteps_stays`).  Those of the
others may open files there, but change neither the tree there nor what the worker of the task
has open there (`Beside.others`).
-/

namespace CloudSync

open CText Calls Calls.Prog Files

/-! ## What the steps of a task are about -/

section Texts

variable {ι : Type}

/-- What is known of the calls of a task: the checks behind them, and that it looks up what
it needs before it makes a record. -/
abbrev careful (task : TaskMessage) : Contract WorkerCall (Standing × Bool) :=
  .both (standing task) (Entitled task) adding (LooksUpFirst task)

/-- A system call is one of worker `i`. -/
def MadeBy (i : ι) : {β : Type} → WorkerStep ι β → Prop
  | _, .whole _ => True
  | _, .sys c => c.process = i

/-- The same of its steps; the system calls stay at the places of its file, and change nothing
there unless the task modifies files. -/
abbrev staying (i : ι) (task : TaskMessage) : Contract (WorkerStep ι) (Standing × Bool) :=
  (stepContract ι (careful task) (within (FilePlace task.filename) fun _ =>
    task.operation.modifies = true)).also (MadeBy i)

/-- A file function stays at the places of the file it is called for. -/
theorem fileProgram_usesOnly {modified : Bytes → Bytes} {f : Bytes} {β : Type} {c : WorkerCall β}
    (hc : ∀ name ∈ c.filename, name = f) {prog : Prog Sys β}
    (hprog : prog ∈ fileProgram modified c) : UsesOnly (FilePlace f) prog := by
  cases fileCall_of_fileProgram hc hprog with
  | saveVersion k => exact saveVersion_usesOnly k
  | saveFile data => exact saveFile_usesOnly data
  | readFile => exact readFile_usesOnly
  | restoreVersion k => exact restoreVersion_usesOnly k
  | removeFileFromStorage => exact removeFileFromStorage_usesOnly
  | listVersions => exact (listVersions_usesOnly _ _).bind fun _ => trivial
  | deleteVersion k => exact deleteVersion_usesOnly k

/-- It changes something only if the task modifies files. -/
theorem fileProgram_writesOnly {modified : Bytes → Bytes} {task : TaskMessage} {g : Standing}
    {β : Type} {c : WorkerCall β} (hc : Entitled task g c) {prog : Prog Sys β}
    (hprog : prog ∈ fileProgram modified c) :
    WritesOnly (fun _ => task.operation.modifies = true) prog := by
  cases fileCall_of_fileProgram hc.filename hprog with
  | saveVersion k => exact (saveVersion_writesOnly k).mono fun _ _ => hc.2.1
  | saveFile data => exact (saveFile_writesOnly data).mono fun _ _ => hc.2.1
  | readFile => exact readFile_writesOnly.mono fun _ h => False.elim h
  | restoreVersion k => exact (restoreVersion_writesOnly k).mono fun _ _ => hc.2.1
  | removeFileFromStorage => exact removeFileFromStorage_writesOnly.mono fun _ _ => hc.2.1
  | listVersions =>
      exact ((listVersions_writesOnly _ _).mono fun _ h => False.elim h).bind fun _ => trivial
  | deleteVersion k => exact (deleteVersion_writesOnly k).mono fun _ _ => hc.2.1

theorem fileSteps_madeBy {α : Type} (i : ι) (prog : Prog Sys α) :
    Obeys (Monitor.silent (WorkerStep ι)) (fun _ {_} step => MadeBy i step) (fun _ => True) ()
      (fileSteps i prog) := by
  induction prog with
  | ret value => trivial
  | call c next ih => exact ⟨rfl, ih⟩

theorem stepsOf_madeBy (modified : Bytes → Bytes) (i : ι) {β : Type} (c : WorkerCall β) :
    Obeys (Monitor.silent (WorkerStep ι)) (fun _ {_} step => MadeBy i step) (fun _ => True) ()
      (stepsOf modified i c) := by
  cases hprog : fileProgram modified c with
  | some prog =>
      rw [stepsOf_fileProgram hprog]
      exact fileSteps_madeBy i prog
  | none =>
      rw [stepsOf_whole hprog]
      exact ⟨trivial, fun _ => trivial⟩

theorem stepsOf_stays (modified : Bytes → Bytes) (i : ι) {task : TaskMessage}
    (g : Standing × Bool) {β : Type} (c : WorkerCall β) (hc : (careful task).guar g c) :
    Honours (staying i task)
      (fun g' answer => g' = (careful task).next g c answer ∧ (careful task).rely g c answer) g
      (stepsOf modified i c) := by
  refine (honours_stepsOf hc (fun hfile answer => ?_) fun prog hprog => ?_).also
    (stepsOf_madeBy modified i c) fun _ _ _ h => h
  · cases c <;> first | rfl | exact Bool.noConfusion hfile
  · exact (fileProgram_usesOnly hc.1.filename hprog).honours (fileProgram_writesOnly hc.1 hprog)

/-- The steps of a task keep its contract. -/
theorem taskSteps_stays (modified : Bytes → Bytes) (i : ι) (task : TaskMessage) :
    Honours (staying i task) (fun _ _ => True) (staying i task).start
      (taskSteps modified i task) := by
  have htask : Honours (careful task) (fun _ _ => True) (careful task).start (processTask task) :=
    honours_both (processTask_covered task (standing task).start) (processTask_lookedUp task)
  exact htask.expand (stepsOf_stays modified i)

variable [DecidableEq ι] {task : TaskMessage} {g : Standing × Bool} {β : Type}

/-- The answers are those the contract relies on. -/
theorem staying_relied (i : ι) (c : WorkerStep ι β) (e : Env) (m : Machine ι) :
    (staying i task).rely g c ((machine ι).exec e c m).1 := by
  cases c with
  | whole c => trivial
  | sys c => exact possible_execBy c.process c.call (e.conditions 0) (m.world.tree, m.files)

end Texts

/-! ## Beside the others -/

section Machines

variable {ι : Type} [DecidableEq ι] {i j : ι} {first : World} {task : TaskMessage} {f : Bytes}
  {names : Finset Bytes} {g : Standing × Bool} {m m' : Machine ι} {β : Type} {c : WorkerStep ι β}

/-- The task is at the same point in both machines, and what its worker `i` has open at the
places of its file is the same. -/
structure Beside (i : ι) (first : World) (f : Bytes) (g : Standing × Bool) (m m' : Machine ι) :
    Prop where
  mirror : Mirror f g.2 g.1 m.world m'.world
  files : SameAt i (FilePlace f) m.files m'.files
  unique : UniqueNames m'.world.metadata
  same : SameBut {f} first m'.world

/-- A step of the task does the same in both machines. -/
theorem Beside.exec (h : Beside i first task.filename g m m') (hf : StorageName task.filename)
    (hfirst : UniqueNames first.metadata) (hunique : UniqueNames m.world.metadata)
    (hsame : SameBut names first m.world)
    (hmem : task.operation.modifies = true → task.filename ∈ names)
    (hroom : (activeSlots first.metadata).card + names.card ≤ maxFiles)
    (hlist : task.operation ≠ .list) (haudit : task.operation ≠ .audit)
    (hc : (staying i task).guar g c) (e : Env) :
    ((machine ι).exec e c m).1 = ((machine ι).exec e c m').1 ∧
      Beside i first task.filename ((staying i task).next g c ((machine ι).exec e c m).1)
        ((machine ι).exec e c m).2 ((machine ι).exec e c m').2 := by
  obtain ⟨hmirror, hfiles, hunique', hsame'⟩ := h
  cases c with
  | whole c =>
      -- as where file functions are one step, for the call is none
      obtain ⟨⟨-, hcall, hlooks⟩, -⟩ := hc
      have hfree := fun hmodifies =>
        hmirror.rooms hfirst hunique hunique' hsame hsame' (hmem hmodifies) hroom
      obtain ⟨hanswer, hafter⟩ := hmirror.exec hf hunique hunique' hfree hcall hlooks hlist haudit e
      exact ⟨hanswer, hafter, hfiles, (record?_exec e c hunique' hcall.filename_length).1,
        hsame'.exec hunique' (fun _ => Finset.mem_singleton_self _) hcall e⟩
  | sys c =>
      obtain ⟨⟨hplace, -⟩, rfl⟩ := hc
      obtain ⟨hanswer, htree, hafter⟩ := execBy_off (e.conditions 0) hmirror.tree
        (clear_elsewhere hf hplace) hfiles hplace
      exact ⟨hanswer, ⟨hmirror.record, hmirror.slots, hmirror.slot, htree⟩, hafter, hunique', hsame'⟩

/-- A step of a task that does not modify the file changes nothing the task has looked up or
will use. -/
theorem Beside.others (h : Beside i first f g m m') (hf : StorageName f)
    (hname : task.operation.modifies = true → StorageName task.filename)
    (hother : task.operation.modifies = true → task.filename ≠ f) (hji : j ≠ i)
    {g' : Standing × Bool} (hc : (staying j task).guar g' c) (e : Env) :
    Beside i first f g ((machine ι).exec e c m).2 m' := by
  obtain ⟨hmirror, hfiles, hunique', hsame'⟩ := h
  cases c with
  | whole c => exact ⟨hmirror.others hc.1.2.1 hname hother e, hfiles, hunique', hsame'⟩
  | sys c =>
      obtain ⟨⟨hplace, htarget⟩, rfl⟩ := hc
      -- what the call may change is a place of another file
      have helsewhere : ∀ p ∈ c.call.target, Elsewhere f p := by
        intro p hp
        have hmodifies := htarget p hp
        refine ⟨_, hname hmodifies, hother hmodifies, place_of_filePlace (hname hmodifies) ?_⟩
        exact target_eq hp ▸ hplace
      have htree := off_execBy c.process (e.conditions 0) helsewhere (m.world.tree, m.files)
      have hopen := sameAt_execBy (P := FilePlace f) hji (e.conditions 0)
        (fun p hp hfile => not_elsewhere (place_of_filePlace hf hfile) (helsewhere p hp))
        (m.world.tree, m.files)
      exact ⟨⟨hmirror.record, hmirror.slots, hmirror.slot, htree.symm.trans hmirror.tree⟩,
        hopen.symm.trans hfiles, hunique', hsame'⟩

end Machines

/-! ## The pool -/

section Pools

variable {ι : Type} [DecidableEq ι] {tasks : ι → TaskMessage} {names : Finset Bytes}
  {first : World} {modified : Bytes → Bytes} {i : ι}

/-- The names in the array are distinct, every worker keeps its contract, and the records of the
files that no task modifies are as they were at the start. -/
structure Attended (tasks : ι → TaskMessage) (names : Finset Bytes) (first : World)
    (pool : Pool (WorkerStep ι) (Standing × Bool) ResponseMessage ι (Machine ι)) : Prop where
  unique : UniqueNames pool.shared.world.metadata
  honour : pool.Honour (fun j => staying j (tasks j)) fun _ _ _ => True
  same : SameBut names first pool.shared.world

/-- All workers have just received their tasks; what they have checked is remembered. -/
def attendedStart (tasks : ι → TaskMessage) (modified : Bytes → Bytes) (first : World) :
    Pool (WorkerStep ι) (Standing × Bool) ResponseMessage ι (Machine ι) :=
  Pool.start (fun j => (staying j (tasks j)).toMonitor) (fun j => taskSteps modified j (tasks j))
    ⟨first, OpenFiles.fresh ι⟩

variable (hnames : ∀ j, (tasks j).operation.modifies = true → StorageName (tasks j).filename)
  (hmem : ∀ j, (tasks j).operation.modifies = true → (tasks j).filename ∈ names)
  (hname : StorageName (tasks i).filename) (hunique : UniqueNames first.metadata)
  (hroom : (activeSlots first.metadata).card + names.card ≤ maxFiles)
  (hlist : (tasks i).operation ≠ .list) (haudit : (tasks i).operation ≠ .audit)
  (halone : ∀ j, j ≠ i → (tasks j).operation.modifies = true →
    (tasks j).filename ≠ (tasks i).filename)

include hmem in
theorem Attended.step {pool : Pool (WorkerStep ι) (Standing × Bool) ResponseMessage ι (Machine ι)}
    (h : Attended tasks names first pool) (j : ι) (e : Env) :
    Attended tasks names first
      (pool.step (machine ι) (fun j => (staying j (tasks j)).toMonitor) j e) := by
  cases hprog : (pool.thread j).prog with
  | ret value =>
      rw [Pool.step_ret hprog]
      exact h
  | call c next =>
      have hc := h.honour.guar hprog
      refine ⟨?_, h.honour.step hprog (staying_relied j c e pool.shared), ?_⟩ <;>
        rw [Pool.step_call hprog] <;> cases c with
      | whole c =>
          first | exact (record?_exec e c h.unique hc.1.2.1.filename_length).1
                | exact h.same.exec h.unique (hmem j) hc.1.2.1 e
      | sys c => first | exact h.unique | exact h.same

include hnames hmem hname hunique hroom hlist haudit halone

omit hnames halone in
theorem mirrored_beside :
    Mirrored (machine ι) (fun j => (staying j (tasks j)).toMonitor) i (Attended tasks names first)
      fun thread m m' => Beside i first (tasks i).filename thread.ghost m m' := by
  intro pool e m' β c next hattended hprog hbeside
  obtain ⟨hanswer, hafter⟩ := hbeside.exec hname hunique hattended.unique hattended.same
    (hmem i) hroom hlist haudit (hattended.honour.guar hprog) e
  refine ⟨hanswer, ?_⟩
  rw [Pool.step_call hprog]
  simp only [Function.update_self]
  exact hafter

omit hmem hunique hroom hlist haudit in
theorem othersKeep_beside :
    OthersKeep (machine ι) (fun j => (staying j (tasks j)).toMonitor) i (Attended tasks names first)
      fun thread m m' => Beside i first (tasks i).filename thread.ghost m m' := by
  intro pool j e m' hattended hji hbeside
  cases hprog : (pool.thread j).prog with
  | ret value =>
      rw [Pool.step_ret hprog]
      exact hbeside
  | call c next =>
      rw [Pool.step_call hprog]
      exact hbeside.others hname (hnames j) (halone j hji) hji (hattended.honour.guar hprog) e

/-- Whatever the schedule, task `i` has come as far as alone, and its file is as alone. -/
theorem beside_run (schedule : List (ι × Env)) :
    (((Stepping.start tasks modified first).runSchedule (machine ι) (fun _ => Monitor.silent _)
        schedule).thread i).prog =
      ((taskSteps modified i (tasks i)).after (machine ι) (metBy i schedule)
        ⟨first, OpenFiles.fresh ι⟩).1 ∧
    ∃ g, Beside i first (tasks i).filename g
      ((Stepping.start tasks modified first).runSchedule (machine ι) (fun _ => Monitor.silent _)
        schedule).shared
      ((taskSteps modified i (tasks i)).after (machine ι) (metBy i schedule)
        ⟨first, OpenFiles.fresh ι⟩).2 := by
  have hstart : Attended tasks names first (attendedStart tasks modified first) :=
    ⟨hunique, fun j => taskSteps_stays modified j (tasks j), fun _ _ => rfl⟩
  have hbeside : Beside i first (tasks i).filename (staying i (tasks i)).start
      ⟨first, OpenFiles.fresh ι⟩ ⟨first, OpenFiles.fresh ι⟩ :=
    ⟨Mirror.refl rfl first, .refl _ _ _, hunique, fun _ _ => rfl⟩
  obtain ⟨hprog, hafter⟩ := runSchedule_after
    (fun pool j e hattended => hattended.step hmem j e)
    (mirrored_beside hmem hname hunique hroom hlist haudit)
    (othersKeep_beside hnames hname halone) hstart hbeside schedule
  -- what the pool remembers makes no difference
  have halong : Alongside (Stepping.start tasks modified first)
      (attendedStart tasks modified first) := ⟨rfl, fun _ => rfl⟩
  have hrun := halong.runSchedule (h := machine ι) (fun _ => Monitor.silent _)
    (fun j => (staying j (tasks j)).toMonitor) schedule
  rw [← hrun.prog i, ← hrun.shared]
  exact ⟨hprog, _, hafter⟩

/-- A task whose file no other task modifies gives the response it gives alone, and leaves its
file as it does alone, in whatever order the workers make their system calls. -/
theorem isolated_steps {schedule : List (ι × Env)} {env : ℕ → Env}
    (henv : Follows (metBy i schedule) env) {resp : ResponseMessage}
    (hdone : (((Stepping.start tasks modified first).runSchedule (machine ι)
      (fun _ => Monitor.silent _) schedule).thread i).prog = .ret resp) :
    ∃ env' : ℕ → Env, (∀ k, Assembled modified env (env' k)) ∧
      (serve env' (tasks i) first).1 = resp ∧
      (((Stepping.start tasks modified first).runSchedule (machine ι) (fun _ => Monitor.silent _)
          schedule).shared.world.file (tasks i).filename).shown =
        ((serve env' (tasks i) first).2.file (tasks i).filename).shown := by
  obtain ⟨hprog, g, hbeside⟩ :=
    beside_run hnames hmem hname hunique hroom hlist haudit halone schedule
  obtain ⟨rest, hrun⟩ := (taskSteps modified i (tasks i)).run_after (machine ι) henv
    ⟨first, OpenFiles.fresh ι⟩
  rw [← hprog, hdone, Prog.run_ret] at hrun
  obtain ⟨env', hmade, hserve⟩ := machine_serve modified i (tasks i) env ⟨first, OpenFiles.fresh ι⟩
  rw [hrun] at hserve
  refine ⟨env', hmade, congrArg Prod.fst hserve, ?_⟩
  rw [hserve]
  exact hbeside.mirror.file hname

end Pools

/-- The uploads take turns, system call by system call. -/
def takingSteps : List (Bool × Env) :=
  (List.replicate 9 [(false, Env.calm 0), (true, Env.calm 1)]).flatten

theorem isolated_steps_upload :
    ∃ env : ℕ → Env, (∀ k, Assembled (fun _ => []) (fun _ => Env.calm 1) (env k)) ∧
      (((Stepping.start separateUploads (fun _ => []) freshWorld).runSchedule (machine Bool)
          (fun _ => Monitor.silent _) takingSteps).shared.world.file (text "b")).shown =
        ((serve env (separateUploads true) freshWorld).2.file (text "b")).shown := by
  have hmet : Follows (metBy true takingSteps) fun _ => Env.calm 1 :=
    ⟨rfl, rfl, rfl, rfl, rfl, rfl, rfl, rfl, rfl, trivial⟩
  have hdone : (((Stepping.start separateUploads (fun _ => []) freshWorld).runSchedule
      (machine Bool) (fun _ => Monitor.silent _) takingSteps).thread true).prog =
        .ret (serve (fun _ => Env.calm 1) (separateUploads true) freshWorld).1 := rfl
  have hmem : ∀ j, (separateUploads j).operation.modifies = true →
      (separateUploads j).filename ∈ [text "a", text "b"].toFinset := by decide
  obtain ⟨env, hmade, -, hfile⟩ := isolated_steps (i := true) (by decide) hmem (by decide)
    initMetadata_unique (by decide) (by decide) (by decide) (by decide) hmet hdone
  exact ⟨env, hmade, hfile⟩

end CloudSync
