import CloudSync.Concurrent.Backups
import CloudSync.State.Upkeep

/-!
# The state stays in order

A state is `WellKept` if no two records have one name, the versions in the records
are values of an `int`, and the storage directory is in order.  The server starts
so, and every task keeps it so whatever goes wrong in its calls, as long as the
files it changes have storage names: the number a version is saved under was read
from a record (`processTask_saving`).  It holds after any number of tasks
(`wellKept_worldAfter`), and at every moment of tasks that run at the same time
(`wellKept_of_reach`).
-/

namespace CloudSync

open CText Calls Calls.Prog Files

/-- A state that only this program has made. -/
structure WellKept (world : World) : Prop where
  unique : UniqueNames world.metadata
  versions : IntVersions world.metadata
  store : StoreOk world.tree

/-- A version is saved under the number that has been read. -/
def SavesRead (g : Backup) : {β : Type} → WorkerCall β → Prop
  | _, .saveVersion _ n => g.read = some n
  | _, _ => True

/-- The call is about the file of the task, and changes no file if the operation does not. -/
def OwnFile (task : TaskMessage) {β : Type} (c : WorkerCall β) : Prop :=
  (∀ f ∈ c.filename, f = task.filename) ∧
    (task.operation.modifies = false → c.writesContent = none ∧ c.writesVersions = none)

variable {task : TaskMessage} {g : Backup}

/-! ## The texts of the tasks -/

/-- Every version is saved under the number that has been read. -/
abbrev Saving {α : Type} (g : Backup) (prog : Prog WorkerCall α) : Prop :=
  Obeys backing (fun g {_} c => SavesRead g c) (fun _ => True) g prog

theorem saving_answer (result : String) (status : Status) (message data : Bytes) :
    Saving g (answer task result status message data) := by
  simp only [answer, audit, perform_bind, pure_eq_ret]
  exact ⟨trivial, fun _ => trivial⟩

theorem saving_notOwner {i : Slot} {next : Bool → Prog WorkerCall ResponseMessage}
    (hnext : ∀ refused, Saving g (next refused)) : Saving g (notOwner task i >>= next) := by
  unfold notOwner
  split
  · exact hnext false
  · exact ⟨trivial, fun _ => hnext _⟩

theorem saving_lockedByOther {i : Slot} {next : Bool → Prog WorkerCall ResponseMessage}
    (hnext : ∀ locked, Saving g (next locked)) : Saving g (lockedByOther task i >>= next) := by
  simp only [lockedByOther, perform_bind, call_bind]
  refine ⟨trivial, fun holder => ?_⟩
  dsimp only
  split
  · exact hnext false
  · exact ⟨trivial, fun _ => hnext _⟩

theorem saving_processDelete : Saving g (processDelete task) := by
  simp only [processDelete, perform_bind]
  refine ⟨trivial, fun found => ?_⟩
  cases found with
  | none => exact saving_answer ..
  | some i =>
      refine saving_notOwner fun refused => obeys_ite (saving_answer ..) ?_
      refine saving_lockedByOther fun locked => obeys_ite ⟨trivial, fun _ => saving_answer ..⟩ ?_
      refine ⟨trivial, fun removed => obeys_ite (saving_answer ..) ⟨trivial, fun removed => ?_⟩⟩
      exact obeys_ite (saving_answer ..) (saving_answer ..)

theorem saving_processEdit : Saving g (processEdit task) := by
  simp only [processEdit, perform_bind]
  refine ⟨trivial, fun found => ?_⟩
  cases found with
  | none => exact saving_answer ..
  | some i =>
      refine saving_notOwner fun refused => obeys_ite ⟨trivial, fun _ => saving_answer ..⟩ ?_
      refine ⟨trivial, fun lockResult => obeys_ite (saving_answer ..) ?_⟩
      refine obeys_ite ⟨trivial, fun _ => saving_answer ..⟩ ⟨trivial, fun bytes => ?_⟩
      exact obeys_ite ⟨trivial, fun _ => saving_answer ..⟩ (saving_answer ..)

theorem saving_processUnlock : Saving g (processUnlock task) := by
  simp only [processUnlock, perform_bind]
  refine ⟨trivial, fun result => obeys_ite (saving_answer ..) ?_⟩
  exact obeys_ite (saving_answer ..) (saving_answer ..)

theorem saving_processDelversion : Saving g (processDelversion task) := by
  simp only [processDelversion, perform_bind]
  refine ⟨trivial, fun found => ?_⟩
  cases found with
  | none => exact saving_answer ..
  | some i =>
      refine saving_notOwner fun refused => obeys_ite (saving_answer ..) ⟨trivial, fun _ => ?_⟩
      exact obeys_ite (saving_answer ..) (saving_answer ..)

theorem Overwriting.saving {prog : Prog WorkerCall ResponseMessage} (h : Overwriting task g prog) :
    Saving g prog := by
  induction prog generalizing g with
  | ret value => trivial
  | call c next ih =>
      obtain ⟨hcareful, -, hnext⟩ := h
      refine ⟨?_, fun answer => ih answer (hnext answer)⟩
      cases c with
      | saveVersion f n => exact hcareful.2.1
      | _ => trivial

/-- A call that changes no versions saves none. -/
theorem savesRead_of_quiet {β : Type} {c : WorkerCall β} (hquiet : c.writesVersions = none)
    (g : Backup) : SavesRead g c := by
  cases c with
  | saveVersion f n => exact absurd hquiet (Option.some_ne_none f)
  | _ => trivial

theorem processTask_saving (task : TaskMessage) : Saving backing.start (processTask task) := by
  by_cases hmodifies : task.operation.modifies = true
  · cases hop : task.operation with
    | upload => exact (processTask_overwriting (Or.inl hop)).saving
    | save => exact (processTask_overwriting (Or.inr (Or.inl hop))).saving
    | rollback => exact (processTask_overwriting (Or.inr (Or.inr hop))).saving
    | delete => rw [processTask, hop]; exact saving_processDelete
    | edit => rw [processTask, hop]; exact saving_processEdit
    | unlock => rw [processTask, hop]; exact saving_processUnlock
    | delversion => rw [processTask, hop]; exact saving_processDelversion
    | _ => rw [hop] at hmodifies; exact Bool.noConfusion hmodifies
  · have hcovered := processTask_covered task (standing task).start
    exact hcovered.of_forall (fun _ _ c hcall g =>
      savesRead_of_quiet (hcall.modifies (Bool.eq_false_of_not_eq_true hmodifies)).2.2 g)
      fun _ => trivial

theorem processTask_wellKept (task : TaskMessage) :
    Obeys backing (fun g {_} c => SavesRead g c ∧ OwnFile task c) (fun _ => True) backing.start
      (processTask task) :=
  (processTask_saving task).and ((processTask_covered task (standing task).start).of_forall
    (fun _ _ _ hcall _ => ⟨hcall.filename, fun hop => (hcall.modifies hop).2⟩) fun _ => trivial)

/-! ## What every call keeps -/

/-- The state is in order, and the number a task has read is an `int`. -/
structure WellKeptWith (g : Backup) (world : World) : Prop extends WellKept world where
  read : ∀ n ∈ g.read, InInt n

/-- A task that begins has read nothing. -/
theorem WellKept.start {world : World} (h : WellKept world) : WellKeptWith backing.start world :=
  ⟨h, fun n hn => absurd (Eq.symm hn) (Option.some_ne_none n)⟩

section Keeping

variable (hname : task.operation.modifies = true → StorageName task.filename)

include hname

theorem WellKeptWith.exec {world : World} {β : Type} {c : WorkerCall β} (env : Env)
    (h : WellKeptWith g world) (hcall : SavesRead g c ∧ OwnFile task c) :
    WellKeptWith (backing.next g c (worker.exec env c world).1) (worker.exec env c world).2 := by
  obtain ⟨hsaves, hown, hquiet⟩ := hcall
  refine ⟨⟨?_, intVersions_exec h.versions, ?_⟩, read_next h.versions h.read⟩
  · exact (record?_exec env c h.unique fun f hf => hown f hf ▸ task.filename_length).1
  · by_cases hmodifies : task.operation.modifies = true
    · have hint : c.SavesInt := by
        cases c with
        | saveVersion f n => exact h.read n hsaves
        | _ => trivial
      exact storeOk_exec env (fun f hf => hown f hf ▸ hname hmodifies) hint h.store
    · obtain ⟨hcontent, hversions⟩ := hquiet (Bool.eq_false_of_not_eq_true hmodifies)
      exact h.store.congr (at?_exec_of_quiet env c world hcontent hversions)

theorem serve_wellKept (env : ℕ → Env) {world : World} (h : WellKept world) :
    WellKept (serve env task world).2 := by
  have hstep : ∀ g world i {β : Type} (c : WorkerCall β), WellKeptWith g world →
      (SavesRead g c ∧ OwnFile task c) →
      WellKeptWith (backing.next g c (worker.exec (env i) c world).1)
        (worker.exec (env i) c world).2 :=
    fun g world i β c hkept hcall => hkept.exec hname (env i) hcall
  obtain ⟨g, hafter⟩ := (processTask_wellKept task).run hstep h.start
  exact hafter.toWellKept

end Keeping

/-! ## Runs -/

theorem freshWorld_wellKept : WellKept freshWorld where
  unique := initMetadata_unique
  versions := fun _ => (by decide : InInt 0)
  store := freshWorld_storeOk

theorem uploadedOnce_wellKept : WellKept uploadedOnce := by
  have hname : StorageName (text "a") := by decide
  exact serve_wellKept (fun _ => hname) _ freshWorld_wellKept

/-- After any number of tasks, one at a time. -/
theorem wellKept_worldAfter {jobs : ℕ → Job} {first : World} (hfirst : WellKept first)
    (hnames : ∀ n, (jobs n).task.operation.modifies = true →
      StorageName (jobs n).task.filename) (n : ℕ) :
    WellKept (worldAfter jobs first n) := by
  induction n with
  | zero => exact hfirst
  | succ n ih => exact serve_wellKept (hnames n) (jobs n).env ih

variable {ι : Type} [DecidableEq ι] {tasks : ι → TaskMessage} {workers : Overwriters ι}

/-- What a pool keeps: the state in order, the texts as they are, and only values of an
`int` read. -/
structure Overwriters.Tended (tasks : ι → TaskMessage) (workers : Overwriters ι) : Prop where
  shared : WellKept workers.shared
  texts : ∀ i, Obeys backing (fun g {_} c => SavesRead g c ∧ OwnFile (tasks i) c) (fun _ => True)
    (workers.thread i).ghost (workers.thread i).prog
  read : ∀ i, ∀ n ∈ (workers.thread i).ghost.read, InInt n

theorem Overwriters.Tended.step
    (hnames : ∀ i, (tasks i).operation.modifies = true → StorageName (tasks i).filename)
    (htended : Overwriters.Tended tasks workers) (i : ι) (e : Env) :
    Overwriters.Tended tasks (workers.step worker (fun _ => backing) i e) := by
  have htexts : ∀ j, Obeys backing (fun g {_} c => SavesRead g c ∧ OwnFile (tasks j) c)
      (fun _ => True) ((workers.step worker (fun _ => backing) i e).thread j).ghost
      ((workers.step worker (fun _ => backing) i e).thread j).prog := Obeys.step htended.texts i e
  cases hprog : (workers.thread i).prog with
  | ret value =>
      rw [Pool.step_ret hprog]
      exact htended
  | call c next =>
      have htext := htended.texts i
      rw [hprog] at htext
      have hkept := WellKeptWith.exec (hnames i) e ⟨htended.shared, htended.read i⟩ htext.1
      refine ⟨?_, htexts, Pool.step_forall (P := fun _ thread => ∀ n ∈ thread.ghost.read, InInt n)
        hprog htended.read hkept.read⟩
      rw [Pool.step_call hprog]
      exact hkept.toWellKept

/-- At every moment of tasks that run at the same time. -/
theorem wellKept_of_reach {allowed : Overwriters ι → ι → Env → Prop} {world : World}
    (hworld : WellKept world)
    (hnames : ∀ i, (tasks i).operation.modifies = true → StorageName (tasks i).filename)
    (hreach : Reach worker (fun _ => backing) allowed (Overwriters.start tasks world) workers) :
    WellKept workers.shared := by
  have hstart : Overwriters.Tended tasks (Overwriters.start tasks world) :=
    ⟨hworld, fun i => processTask_wellKept (tasks i), fun _ => hworld.start.read⟩
  exact (hreach.invariant hstart fun pool i e htended _ => htended.step hnames i e).shared

end CloudSync
