import CloudSync.Concurrent.StoreOrder
import CloudSync.Concurrent.SystemCalls
import CloudSync.Sequential.Alike

/-!
# Order at every system call

`StoreOrder.lean` keeps the state in order as long as every file function is one step.  Here
the workers take turns at the system calls, and may be killed between any two of them.  The
state is in order all the same (`wellKept_of_steps`): there is nothing that a half-finished
file function leaves behind but a version directory, a content or a version, and no
descriptor of one worker brings back what another has removed.
-/

namespace CloudSync

open CText Calls Calls.Prog Files

/-! ## Texts -/

/-- The call changes no file but that of the task, and saves versions under values of an
`int`, as long as the numbers it reads from records are such. -/
def keepingOrder (task : TaskMessage) : Contract WorkerCall Unit where
  start := ()
  next := fun _ _ _ => ()
  rely := fun _ _ c answer =>
    match c, answer with
    | .version _, n => InInt n
    | _, _ => True
  guar := fun _ _ c => c.SavesInt ∧ OwnFile task c

/-- A system call that changes something does so where it belongs. -/
def storing (f : Bytes) : Contract Sys Unit where
  start := ()
  next := fun _ _ _ => ()
  rely := fun _ _ c answer => c.Possible answer
  guar := fun _ _ c => ∀ p ∈ c.target, StorageName f ∧ Place f p ∧ InKind f c

section Texts

variable {ι α : Type} {task : TaskMessage} {f : Bytes}

theorem honours_storing {prog : Prog Sys α} (hf : StorageName f)
    (hwrites : WritesOnly (Place f) prog) (hkinds : KeepsKind f prog) :
    Honours (storing f) (fun _ _ => True) () prog := by
  induction prog with
  | ret value => trivial
  | call c next ih =>
      exact ⟨fun p hp => ⟨hf, hwrites.1 p hp, hkinds.1⟩, fun answer hanswer =>
        ih answer (hwrites.2 answer hanswer) (hkinds.2 answer)⟩

theorem honours_storing_nothing {prog : Prog Sys α} (hwrites : WritesOnly (fun _ => False) prog) :
    Honours (storing f) (fun _ _ => True) () prog := by
  induction prog with
  | ret value => trivial
  | call c next ih =>
      exact ⟨fun p hp => False.elim (hwrites.1 p hp), fun answer hanswer =>
        ih answer (hwrites.2 answer hanswer)⟩

/-- The number a version is saved under was read from a record. -/
theorem honours_of_saving {prog : Prog WorkerCall α} {g : Backup}
    (h : Obeys backing (fun g {_} c => SavesRead g c ∧ OwnFile task c) (fun _ => True) g prog)
    (hread : ∀ n ∈ g.read, InInt n) : Honours (keepingOrder task) (fun _ _ => True) () prog := by
  induction prog generalizing g with
  | ret value => trivial
  | call c next ih =>
      obtain ⟨⟨hsaves, hown⟩, hnext⟩ := h
      refine ⟨⟨?_, hown⟩, fun answer hanswer => ih answer (hnext answer) fun n hn => ?_⟩
      · cases c with
        | saveVersion name n => exact hread n hsaves
        | _ => trivial
      · -- a number that is remembered has just been read, or was before
        cases c with
        | version i =>
            obtain rfl := Option.some.inj hn
            exact hanswer
        | _ => exact hread n hn

theorem processTask_keepsOrder (task : TaskMessage) :
    Honours (keepingOrder task) (fun _ _ => True) () (processTask task) :=
  honours_of_saving (processTask_wellKept task) fun n hn =>
    absurd (Eq.symm hn) (Option.some_ne_none n)

end Texts

/-! ## Steps -/

section Steps

variable {ι : Type} {task : TaskMessage} {modified : Bytes → Bytes} {β : Type} {c : WorkerCall β}

/-- A file function writes where its file belongs. -/
theorem fileCall_storing {f : Bytes} (hf : StorageName f) {prog : Prog Sys β}
    (hcall : FileCall modified f c prog) (hsaves : c.SavesInt) :
    Honours (storing f) (fun _ _ => True) () prog := by
  have hcontent : ∀ p, ContentPlace f p → Place f p := fun p hp => place_of_filePlace hf (Or.inl hp)
  have hversions : ∀ p, VersionsPlace f p → Place f p :=
    fun p hp => place_of_filePlace hf (Or.inr hp)
  cases hcall with
  | saveVersion k =>
      exact honours_storing hf ((saveVersion_writesOnly k).mono hversions)
        (saveVersion_kinds hf hsaves)
  | saveFile data =>
      exact honours_storing hf ((saveFile_writesOnly data).mono hcontent) (saveFile_kinds hf data)
  | readFile => exact honours_storing_nothing readFile_writesOnly
  | restoreVersion k =>
      exact honours_storing hf ((restoreVersion_writesOnly k).mono hcontent)
        (restoreVersion_kinds hf k)
  | removeFileFromStorage =>
      exact honours_storing hf
        (removeFileFromStorage_writesOnly.mono fun p hp => place_of_filePlace hf hp)
        removeFileFromStorage_kinds
  | listVersions =>
      exact honours_storing_nothing ((listVersions_writesOnly _ _).bind fun _ => trivial)
  | deleteVersion k =>
      exact honours_storing hf ((deleteVersion_writesOnly k).mono hversions) (deleteVersion_kinds k)

/-- A call that changes no file only reads. -/
theorem fileCall_reading {f : Bytes} {prog : Prog Sys β} (hcall : FileCall modified f c prog)
    (hcontent : c.writesContent = none) (hversions : c.writesVersions = none) :
    Honours (storing f) (fun _ _ => True) () prog := by
  cases hcall with
  | readFile => exact honours_storing_nothing readFile_writesOnly
  | listVersions =>
      exact honours_storing_nothing ((listVersions_writesOnly _ _).bind fun _ => trivial)
  | _ => first | exact absurd hcontent (Option.some_ne_none _)
               | exact absurd hversions (Option.some_ne_none _)

/-- The contract of a task, step by step. -/
abbrev keepingSteps (ι : Type) (task : TaskMessage) : Contract (WorkerStep ι) Unit :=
  stepContract ι (keepingOrder task) (storing task.filename)

/-- The steps of a task keep its contract. -/
theorem taskSteps_keepOrder (hname : task.operation.modifies = true → StorageName task.filename)
    (modified : Bytes → Bytes) (i : ι) :
    Honours (keepingSteps ι task) (fun _ _ => True) () (taskSteps modified i task) := by
  refine (processTask_keepsOrder task).expand fun g β c hc => ?_
  refine honours_stepsOf hc (fun _ _ => rfl) fun prog hprog => ?_
  obtain ⟨hsaves, hown, hquiet⟩ := hc
  have hcall : FileCall modified task.filename c prog := fileCall_of_fileProgram hown hprog
  have hsteps : Honours (storing task.filename) (fun _ _ => True) () prog := by
    cases hmodifies : task.operation.modifies with
    | true => exact fileCall_storing (hname hmodifies) hcall hsaves
    | false => exact fileCall_reading hcall (hquiet hmodifies).1 (hquiet hmodifies).2
  refine hsteps.mono fun _ answer _ => ?_
  cases hcall <;> trivial

end Steps

/-! ## What every step keeps -/

section Pools

variable {ι : Type} [DecidableEq ι] {tasks : ι → TaskMessage} {world : World}

theorem WellKept.step {m : Machine ι} {task : TaskMessage} (h : WellKept m.world) {β : Type}
    {c : WorkerStep ι β} (hc : (keepingSteps ι task).guar () c) (e : Env) :
    (keepingSteps ι task).rely () c ((machine ι).exec e c m).1 ∧
      WellKept ((machine ι).exec e c m).2.world := by
  cases c with
  | whole c =>
      obtain ⟨hwhole, -, hown, -⟩ := hc
      have hlength : ∀ f ∈ c.filename, f.length < maxFilename :=
        fun f hf => hown f hf ▸ task.filename_length
      refine ⟨?_, (record?_exec e c h.unique hlength).1, intVersions_exec h.versions,
        h.store.congr (at?_exec_of_whole hwhole e m.world)⟩
      cases c with
      | version i => exact h.versions i
      | _ => trivial
  | sys c =>
      refine ⟨possible_execBy c.process c.call (e.conditions 0) (m.world.tree, m.files),
        h.unique, h.versions, ?_⟩
      change StoreOk (execBy c.process (e.conditions 0) c.call (m.world.tree, m.files)).2.1
      -- a call through a descriptor for an unlinked file leaves the tree alone
      rcases tree_execBy c.process (e.conditions 0) c.call (m.world.tree, m.files) with
        htree | htree <;> rw [htree]
      · cases htarget : c.call.target with
        | none =>
            -- what does not name a path to be changed changes none
            refine h.store.congr fun p => disk_at?_of_ne c.call _ _ fun hmem => ?_
            rw [htarget] at hmem
            exact Option.not_mem_none p hmem
        | some p =>
            obtain ⟨hf, -, hkind⟩ := hc p htarget
            exact storeOk_sys h.store hf (fun q hq => (hc q hq).2.1) hkind
      · exact h.store

/-- At every moment of tasks whose system calls interleave, in any order and whatever they
meet, so wherever workers are killed. -/
theorem wellKept_of_steps (hworld : WellKept world)
    (hnames : ∀ i, (tasks i).operation.modifies = true → StorageName (tasks i).filename)
    {modified : Bytes → Bytes} {stepping : Stepping ι}
    (hreach : SteppingReach tasks modified world stepping) : WellKept stepping.shared.world := by
  obtain ⟨ghosts, hkept, -⟩ := hreach.honours (I := fun _ m => WellKept m.world)
    (fun ghosts m i e β c hm hc => hm.step hc e) hworld
    (fun i => taskSteps_keepOrder (hnames i) modified i)
  exact hkept

end Pools

end CloudSync
