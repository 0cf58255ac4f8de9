import CloudSync.Concurrent.Backups
import CloudSync.Concurrent.StepIsolation
import CloudSync.Concurrent.VersionCount
import CloudSync.Lib.Crash
import CloudSync.Sequential.History
import CloudSync.State.Rescue

/-!
# A worker that is killed

A worker may be killed between any two system calls.  What it was about to do is then not
done, and nobody cleans up.  `save_file` and `restore_version` empty the file before they
write to it, so the content can be lost; but `process_task` has saved it as a version
before that.

`old_content_survives`: as long as no system call of the task fails, the old content of its
file is at all times the content, or stored as the version that the record named when the
task came.  The other workers do what they like with other files.

Between its calls a task knows how far it has come (`Phase.Keeps`), and no call leaves the
old content nowhere while it is at work (`fileProgram_keeps`).
-/

namespace CloudSync

open CText Calls Calls.Prog Files

/-- The content is `old`, or version `n` is. -/
def Recoverable (f old : Bytes) (n : ℤ) (t : Tree) : Prop :=
  content t f = some old ∨ storedVersion t f n = some old

/-- What a task that has come so far has left of the storage it began with. -/
def Phase.Keeps (f old : Bytes) (n : ℤ) (first : Tree) : Phase → Tree → Prop
  | .intact, t => ∀ p, t.at? p = first.at? p
  | .backed, t => storedVersion t f n = some old
  | .trimmed, t => content t f = some old

section Storage

variable {f old : Bytes} {n : ℤ} {first t t' : Tree} {phase : Phase}

theorem Phase.Keeps.congr (h : phase.Keeps f old n first t)
    (hsame : ∀ p, t'.at? p = t.at? p) : phase.Keeps f old n first t' := by
  cases phase with
  | intact => exact fun p => (hsame p).trans (h p)
  | backed => exact (Tree.bytes?_congr (hsame _)).trans h
  | trimmed => exact (Tree.bytes?_congr (hsame _)).trans h

variable (hcontent : content first f = some old)

include hcontent

theorem content_of_same (h : ∀ p, t.at? p = first.at? p) : content t f = some old :=
  (Tree.bytes?_congr (h _)).trans hcontent

theorem Phase.Keeps.recoverable (h : phase.Keeps f old n first t) : Recoverable f old n t := by
  cases phase with
  | intact => exact Or.inl (content_of_same hcontent h)
  | backed => exact Or.inr h
  | trimmed => exact Or.inl h

/-- Programs that do not write. -/
theorem keeps_of_writesNothing {α : Type} {prog : Prog Sys α}
    (hprog : WritesOnly (fun _ => False) prog) (h : phase.Keeps f old n first t) :
    prog.crashWp disk Conditions.Fine (Recoverable f old n)
      (fun _ => phase.Keeps f old n first) t := by
  refine crashWp_mono (hprog.crashWp Conditions.Fine fun _ _ => rfl) (fun t' hsame => ?_)
    fun _ t' hsame => h.congr fun p => hsame p id
  exact (h.congr fun p => hsame p id).recoverable hcontent

omit hcontent

/-- The versions are elsewhere. -/
theorem keeps_of_writesContent {α : Type} {prog : Prog Sys α} (hf : StorageName f)
    (hprog : WritesOnly (ContentPlace f) prog) (h : storedVersion t f n = some old) :
    prog.crashWp disk Conditions.Fine (Recoverable f old n)
      (fun _ => Phase.backed.Keeps f old n first) t := by
  have hversion : ∀ t', (∀ p, ¬ ContentPlace f p → t'.at? p = t.at? p) →
      storedVersion t' f n = some old := by
    intro t' hsame
    refine (Tree.bytes?_congr (hsame _ fun hplace => ?_)).trans h
    exact separate_storageNames.own f hf _ hplace (Or.inr (Or.inr ⟨n, Or.inl rfl⟩))
  exact crashWp_mono (hprog.crashWp Conditions.Fine fun _ _ => rfl)
    (fun t' hsame => Or.inr (hversion t' hsame)) fun _ t' hsame => hversion t' hsame

/-- The content is elsewhere. -/
theorem keeps_of_writesVersions {α : Type} {prog : Prog Sys α} (hf : StorageName f)
    (hprog : WritesOnly (VersionsPlace f) prog) (h : content t f = some old) :
    prog.crashWp disk Conditions.Fine (Recoverable f old n)
      (fun _ => Phase.trimmed.Keeps f old n first) t := by
  have hcontent : ∀ t', (∀ p, ¬ VersionsPlace f p → t'.at? p = t.at? p) →
      content t' f = some old := fun t' hsame =>
    (Tree.bytes?_congr (hsame _ (separate_storageNames.own f hf _ rfl))).trans h
  exact crashWp_mono (hprog.crashWp Conditions.Fine fun _ _ => rfl)
    (fun t' hsame => Or.inl (hcontent t' hsame)) fun _ t' hsame => hcontent t' hsame

variable (hok : StoreOk first) (hf : StorageName f) (hn : InInt n)
  (hfew : (stored first f).encard ≤ 255)
  (hmax : ∀ k, (storedVersion first f k).isSome → k ≤ n)

include hcontent hok hf hn hfew hmax

/-- While the backup is made the content is there, and then the backup is. -/
theorem saveVersion_keeps (h : ∀ p, t.at? p = first.at? p) :
    (saveVersion f n).crashWp disk Conditions.Fine (Recoverable f old n)
      (fun _ => Phase.backed.Keeps f old n first) t := by
  have hsame := (leaves_self hok (f := f)).congr h
  have hstored : stored t f = stored first f :=
    (hsame.stored_eq hf).trans ((leaves_self hok).stored_eq hf).symm
  have hcrash : (saveVersion f n).crashWp disk Conditions.Fine (Recoverable f old n)
      (fun _ => Phase.trimmed.Keeps f old n first) t :=
    keeps_of_writesVersions hf (saveVersion_writesOnly n) (content_of_same hcontent h)
  -- the copy is no backup before it is complete, but until then the content is there
  apply crashWp_of_wp hcrash
  refine wp_mono (saveVersion_fine hsame.ok hf hn (hstored ▸ hfew)) fun _ t' hsaved => ?_
  change storedVersion t' f n = some old
  rw [hsaved.2.versions, hsame.content, hsame.versions, hcontent, backedUp_self hmax]

/-- A file function that a task calls leaves the old content somewhere all the time, and
at the end what the task then relies on. -/
theorem fileProgram_keeps {modified : Bytes → Bytes} {g : Rescue} {β : Type} {c : WorkerCall β}
    (hname : ∀ name ∈ c.filename, name = f) (hguar : (rescuing n).guar g c) {prog : Prog Sys β}
    (hprog : prog ∈ fileProgram modified c) (h : g.phase.Keeps f old n first t) :
    prog.crashWp disk Conditions.Fine (Recoverable f old n)
      (fun answer => ((rescuing n).next g c answer).phase.Keeps f old n first) t := by
  obtain ⟨slot, phase⟩ := g
  cases fileCall_of_fileProgram hname hprog with
  | saveVersion k =>
      obtain ⟨rfl, rfl⟩ := hguar
      exact saveVersion_keeps hcontent hok hf hn hfew hmax h
  | saveFile data =>
      obtain rfl := hguar
      exact keeps_of_writesContent hf (saveFile_writesOnly data) h
  | readFile => exact keeps_of_writesNothing hcontent readFile_writesOnly h
  | restoreVersion k =>
      obtain rfl := hguar
      exact keeps_of_writesContent hf (restoreVersion_writesOnly k) h
  | removeFileFromStorage => exact False.elim hguar
  | listVersions =>
      exact keeps_of_writesNothing hcontent ((listVersions_writesOnly _ _).bind fun _ => trivial) h
  | deleteVersion k =>
      obtain rfl := hguar
      exact keeps_of_writesVersions hf (deleteVersion_writesOnly k) (content_of_same hcontent h)

end Storage

/-! ## The steps of a task -/

/-- The system call that a step makes does what it should. -/
def CallFine (e : Env) : Prop := (e.conditions 0).Fine

section Steps

variable {ι : Type} [DecidableEq ι] {i : ι} {α : Type} {modified : Bytes → Bytes}

/-- The steps of a file function are its system calls, for it keeps what it opens. -/
theorem crashWp_fileSteps {done : List Path → Prop} {opens : List Path} {prog : Prog Sys α}
    (hprog : Obeys openPaths KeepsOpen done opens prog) {m : Machine ι}
    (hlinked : Linked i opens m.files) {K : Tree → Prop} {Q : α → Tree → Prop}
    (h : prog.crashWp disk Conditions.Fine K Q m.world.tree) :
    (fileSteps i prog).crashWp (machine ι) CallFine (fun m' => K m'.world.tree)
      (fun value m' => m'.world = { m.world with tree := m'.world.tree } ∧
        Q value m'.world.tree) m := by
  induction prog generalizing opens m with
  | ret value => exact ⟨h.1, rfl, h.2⟩
  | call c next ih =>
      refine ⟨h.1, fun e he => ?_⟩
      obtain ⟨files, hexec, hlinked'⟩ :=
        exec_processes hprog.1 hlinked (e.conditions 0) m.world.tree
      have hstep : (machine ι).exec e (.sys ⟨i, c⟩) m =
          ((disk.exec (e.conditions 0) c m.world.tree).1,
            ⟨{ m.world with tree := (disk.exec (e.conditions 0) c m.world.tree).2 }, files⟩) := by
        simp only [machine, hexec]
      rw [hstep]
      -- the induction goes on in the machine after the step
      have hnext := h.2 _ he
      generalize disk.exec (e.conditions 0) c m.world.tree = out at hnext hlinked' ⊢
      exact ih out.1 (m := ⟨{ m.world with tree := out.2 }, files⟩) (hprog.2 _) hlinked' hnext

/-- What holds between the calls of a task that has come as far as `g` says. -/
structure Rescued (f old : Bytes) (n : ℤ) (first : Tree) (g : Rescue) (world : World) : Prop where
  unique : UniqueNames world.metadata
  recorded : (record? world.metadata f).isSome = true
  version : g.phase = .intact → versionOf world f = n
  slot : g.phase = .intact → ∀ i, g.slot = some i → (world.metadata i).version = n
  storage : g.phase.Keeps f old n first world.tree

/-- The calls of a task, which are about its own file. -/
abbrev ownRescue (n : ℤ) (task : TaskMessage) : Contract WorkerCall Rescue :=
  (rescuing n).also (OwnRecord task)

variable {task : TaskMessage} {old : Bytes} {n : ℤ} {first : Tree} {g : Rescue} {world : World}
  {β : Type} {c : WorkerCall β}

theorem phase_of_whole (hwhole : c.isWhole = true) (answer : β) :
    ((rescuing n).next g c answer).phase = g.phase := by
  cases c <;> first | rfl | exact Bool.noConfusion hwhole

/-- A call that is taken whole is answered as the task relies on. -/
theorem Rescued.rely (h : Rescued task.filename old n first g world)
    (hguar : (ownRescue n task).guar g c) (e : Env) :
    (rescuing n).rely g c (worker.exec e c world).1 := by
  obtain ⟨hcall, hown⟩ := hguar
  obtain ⟨r, hr⟩ := Option.isSome_iff_exists.mp h.recorded
  cases c with
  | findFileMetadata name =>
      obtain rfl := hown name rfl
      change (findFileMetadata world.metadata task.filename).isSome = true
      rw [Option.isSome_iff_ne_none, Ne, findFileMetadata_eq_none, hr]
      exact Option.some_ne_none r
  | addFileMetadata name ownerName ownerId size =>
      obtain rfl := hown name rfl
      exact ge_of_eq (record?_addFileMetadata_of_some h.unique hr ownerName ownerId size e.now).1
  | version i => exact h.slot hcall.2 i hcall.1
  | _ => trivial

/-- The slot that a task has found is that of the record, until it counts the version up. -/
theorem Rescued.slot_exec (h : Rescued task.filename old n first g world)
    (hguar : (ownRescue n task).guar g c) (hphase : g.phase = .intact) (e : Env) {i : Slot}
    (hi : ((rescuing n).next g c (worker.exec e c world).1).slot = some i) :
    ((worker.exec e c world).2.metadata i).version = n := by
  by_cases hchanges : c.changesRecord = none
  · rw [metadata_exec e c world hchanges]
    cases c with
    | findFileMetadata name =>
        obtain rfl := hguar.2 name rfl
        have hr : record? world.metadata task.filename = some (world.metadata i) :=
          record?_of_findFileMetadata hi
        have hversion := h.version hphase
        rw [versionOf, hr] at hversion
        exact hversion
    | _ => first | exact h.slot hphase i hi | exact absurd hchanges (Option.some_ne_none _)
  · cases c <;> first
      | exact absurd rfl hchanges
      | exact absurd hi.symm (Option.some_ne_none i)
      | exact False.elim hguar.1

theorem Rescued.exec (h : Rescued task.filename old n first g world) (hwhole : c.isWhole = true)
    (hguar : (ownRescue n task).guar g c) (e : Env) :
    Rescued task.filename old n first ((rescuing n).next g c (worker.exec e c world).1)
      (worker.exec e c world).2 := by
  have hlength : ∀ f ∈ c.filename, f.length < maxFilename := fun f hf =>
    hguar.2 f hf ▸ task.filename_length
  have hforgets : task.filename ∉ c.forgets := by
    intro hmem
    cases c <;> first | exact hguar.1 | exact absurd hmem (Option.not_mem_none _)
  have hcounts := counts_exec h.unique hlength hforgets e
  have hup : g.phase = .intact → c.countsUp (worker.exec e c world).1 = false := by
    intro hphase
    cases c <;> first | rfl | exact absurd (hphase.symm.trans hguar.1) (by decide)
  have hsame := phase_of_whole (n := n) (g := g) hwhole (worker.exec e c world).1
  refine ⟨(record?_exec e c h.unique hlength).1, hcounts.stays h.recorded, ?_, ?_, ?_⟩
  · intro hphase
    rw [hsame] at hphase
    rw [hcounts.version, hup hphase, if_neg fun hmem => Bool.noConfusion hmem.2]
    exact h.version hphase
  · intro hphase i hi
    rw [hsame] at hphase
    exact h.slot_exec hguar hphase e hi
  · rw [hsame]
    exact h.storage.congr (at?_exec_of_whole hwhole e world)

/-- A file function changes no record. -/
theorem Rescued.onDisk (h : Rescued task.filename old n first g world) (hfile : c.isWhole = false)
    {answer : β} {t : Tree}
    (hstorage : ((rescuing n).next g c answer).phase.Keeps task.filename old n first t) :
    (rescuing n).rely g c answer ∧
      Rescued task.filename old n first ((rescuing n).next g c answer)
        { world with tree := t } := by
  have hsame : ((rescuing n).next g c answer).phase = .intact →
      g.phase = .intact ∧ ((rescuing n).next g c answer).slot = g.slot := by
    intro hphase
    cases c <;> first
      | exact ⟨hphase, rfl⟩
      | exact Phase.noConfusion hphase
      | exact Bool.noConfusion hfile
  -- a call after which the task still counts on the record has kept the phase
  refine ⟨?_, h.unique, h.recorded, fun hphase => h.version (hsame hphase).1,
    fun hphase i hi => ?_, hstorage⟩
  · cases c <;> trivial
  · obtain ⟨hbefore, hslot⟩ := hsame hphase
    exact h.slot hbefore i (hslot ▸ hi)

variable (hok : StoreOk first) (hf : StorageName task.filename)
  (hcontent : content first task.filename = some old) (hn : InInt n)
  (hfew : (stored first task.filename).encard ≤ 255)
  (hmax : ∀ k, (storedVersion first task.filename k).isSome → k ≤ n)

include hok hf hcontent hn hfew hmax

/-- Wherever the steps of a call are stopped, the old content is somewhere. -/
theorem stepsOf_rescued {m : Machine ι} (h : Rescued task.filename old n first g m.world)
    (hguar : (ownRescue n task).guar g c) :
    (stepsOf modified i c).crashWp (machine ι) CallFine
      (fun m' => Recoverable task.filename old n m'.world.tree)
      (fun answer m' => (ownRescue n task).rely g c answer ∧
        Rescued task.filename old n first ((ownRescue n task).next g c answer) m'.world) m := by
  cases hprog : fileProgram modified c with
  | some prog =>
      rw [stepsOf_fileProgram hprog]
      refine crashWp_mono (crashWp_fileSteps (fileProgram_keepsFiles hprog)
        (fun p hp => absurd hp List.not_mem_nil)
        (fileProgram_keeps hcontent hok hf hn hfew hmax hguar.2 hguar.1 hprog h.storage))
        (fun _ hK => hK) ?_
      rintro answer m' ⟨hworld, hstorage⟩
      rw [hworld]
      exact h.onDisk (not_isWhole_of_fileProgram hprog) hstorage
  | none =>
      have hwhole : c.isWhole = true := isWhole_of_fileProgram hprog
      rw [stepsOf_whole hprog]
      refine ⟨h.storage.recoverable hcontent, fun e _ => ?_⟩
      have hafter := h.exec hwhole hguar e
      exact ⟨hafter.storage.recoverable hcontent, h.rely hguar e, hafter⟩

/-- Wherever the steps of a task are stopped, the old content is somewhere. -/
theorem taskSteps_rescued (hop : task.operation ≠ .delete) {m : Machine ι}
    (hunique : UniqueNames m.world.metadata) {r : FileMetadata}
    (hr : record? m.world.metadata task.filename = some r) (hversion : r.version = n)
    (htree : m.world.tree = first) {l : List Env} (hl : ∀ e ∈ l, CallFine e) :
    Recoverable task.filename old n
      ((taskSteps modified i task).after (machine ι) l m).2.world.tree := by
  have htask : Honours (ownRescue n task) (fun _ _ => True) (ownRescue n task).start
      (processTask task) :=
    (processTask_rescues n hop).also (processTask_covered task (standing task).start)
      fun g β c hc => hc.filename
  have hstart : Rescued task.filename old n first (ownRescue n task).start m.world := by
    refine ⟨hunique, hr ▸ rfl, fun _ => ?_, fun _ i hi => absurd hi.symm (Option.some_ne_none i),
      fun p => htree ▸ rfl⟩
    rw [versionOf, hr]
    exact hversion
  have hcrash : (taskSteps modified i task).crashWp (machine ι) CallFine
      (fun m' => Recoverable task.filename old n m'.world.tree)
      (fun _ m' => ∃ g, True ∧ Rescued task.filename old n first g m'.world) m :=
    htask.crashWp (J := fun g (m : Machine ι) => Rescued task.filename old n first g m.world)
      (fun g m hm => hm.storage.recoverable hcontent)
      (fun g m δ c hm hc => stepsOf_rescued hok hf hcontent hn hfew hmax hm hc) hstart
  exact crashWp_after hcrash hl

end Steps

/-! ## Among other workers -/

/-- Wherever task `i` is stopped, the old content of its file is the content still, or it is
the version that the record named when the task came. -/
theorem old_content_survives {ι : Type} [DecidableEq ι] {tasks : ι → TaskMessage}
    {names : Finset Bytes} {first : World} {modified : Bytes → Bytes} {i : ι}
    (hnames : ∀ j, StorageName (tasks j).filename) (hmem : ∀ j, (tasks j).filename ∈ names)
    (hroom : (activeSlots first.metadata).card + names.card ≤ maxFiles)
    (halone : ∀ j, j ≠ i → (tasks j).filename ≠ (tasks i).filename)
    (hlist : (tasks i).operation ≠ .list) (haudit : (tasks i).operation ≠ .audit)
    (hdelete : (tasks i).operation ≠ .delete) (horderly : Orderly first) {r : FileMetadata}
    (hr : record? first.metadata (tasks i).filename = some r) {old : Bytes}
    (hcontent : content first.tree (tasks i).filename = some old) {schedule : List (ι × Env)}
    (hfine : ∀ e ∈ metBy i schedule, CallFine e) :
    Recoverable (tasks i).filename old r.version
      ((Stepping.start tasks modified first).runSchedule (machine ι) (fun _ => Monitor.silent _)
        schedule).shared.world.tree := by
  have htidy := horderly.tidy _ (hnames i)
  obtain ⟨hlow, hhigh⟩ := htidy.version r hr
  have hfew : (stored first.tree (tasks i).filename).encard ≤ 255 := by
    rw [(leaves_self horderly.store).stored_eq (hnames i)]
    exact htidy.inBounds.few
  have hstopped : Recoverable (tasks i).filename old r.version
      ((taskSteps modified i (tasks i)).after (machine ι) (metBy i schedule)
        ⟨first, OpenFiles.fresh ι⟩).2.world.tree :=
    taskSteps_rescued horderly.store (hnames i) hcontent ⟨by omega, hhigh⟩ hfew
      (fun k hk => (htidy.number r hr k hk).2) hdelete horderly.unique hr rfl rfl hfine
  -- among the others the file is as it is alone
  have hbeside : ∃ g, Beside i first (tasks i).filename g
      ((Stepping.start tasks modified first).runSchedule (machine ι) (fun _ => Monitor.silent _)
        schedule).shared
      ((taskSteps modified i (tasks i)).after (machine ι) (metBy i schedule)
        ⟨first, OpenFiles.fresh ι⟩).2 :=
    (beside_run (fun j _ => hnames j) (fun j _ => hmem j) (hnames i) horderly.unique hroom hlist
      haudit (fun j hji _ => halone j hji) schedule).2
  obtain ⟨g, hbeside⟩ := hbeside
  have hsame := hbeside.mirror.file (hnames i)
  rcases hstopped with hthere | hversion
  · exact Or.inl ((congrArg FileState.content hsame).trans hthere)
  · exact Or.inr ((congrFun (congrArg FileState.versions hsame) _).trans hversion)

/-- User 2 uploads `a` again, and another user uploads `b`. -/
def uploadAgain (second : Bool) : TaskMessage :=
  cond second (uploadOf (text "b") filename_b) (sampleTask .upload 2 roleUser "two")

/-- The first worker is killed when `save_file` has emptied the file. -/
def killedWhileSaving : List (Bool × Env) :=
  List.replicate 16 (false, Env.calm 1) ++ List.replicate 3 (true, Env.calm 1)

/-- What is left then. -/
def afterKill : Stepping Bool :=
  (Stepping.start uploadAgain (fun _ => []) uploadedOnce).runSchedule (machine Bool)
    (fun _ => Monitor.silent _) killedWhileSaving

theorem uploadedOnce_orderly : Orderly uploadedOnce := by
  refine serve_orderly (fun _ => Env.calm_fine 0) (by decide) freshWorld_orderly ?_
  intro f hf r hr
  rw [freshWorld_file hf] at hr
  exact absurd hr (Option.not_mem_none r)

/-- The content is lost, and the old one is version 1. -/
theorem old_content_survives_emptied :
    content afterKill.shared.world.tree (text "a") = some [] ∧
      storedVersion afterKill.shared.world.tree (text "a") 1 = some (text "one") := by
  have hempty : content afterKill.shared.world.tree (text "a") = some [] := by decide +kernel
  have hcontent : content uploadedOnce.tree (text "a") = some (text "one") := by decide +kernel
  have hmem : ∀ j, (uploadAgain j).filename ∈ [text "a", text "b"].toFinset := by decide
  have hfine : ∀ e ∈ metBy false killedWhileSaving, CallFine e := by
    intro e he
    obtain rfl := List.eq_of_mem_replicate (show e ∈ List.replicate 16 (Env.calm 1) from he)
    exact Env.calm_fine 1 0
  obtain ⟨r, hr, hversion⟩ : ∃ r, record? uploadedOnce.metadata (text "a") = some r ∧
      r.version = 1 := ⟨_, rfl, rfl⟩
  have hsurvives : Recoverable (text "a") (text "one") r.version afterKill.shared.world.tree :=
    old_content_survives (i := false) (by decide) hmem (by decide +kernel) (by decide) (by decide)
      (by decide) (by decide) uploadedOnce_orderly hr hcontent hfine
  rw [hversion] at hsurvives
  rcases hsurvives with hthere | hthere
  · exact absurd (hempty.symm.trans hthere) (by decide)
  · exact ⟨hempty, hthere⟩

end CloudSync
