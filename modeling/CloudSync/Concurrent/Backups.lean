import CloudSync.Concurrent.Quiescence
import CloudSync.Sequential.FineCalls
import CloudSync.Sequential.Tidy

/-!
# Backups of overwrites that overlap

An overwrite first saves the content as a version, under a number it has read
before, and then replaces it.  Both can be overtaken.  `BackupOrder` is the order
that must be kept: a content is replaced by another one only after a `save_version`
that came after the last write, and no `save_version` comes upon its number in use
for another content.  In that order no content is lost (`replaced_contents_kept`).

The program does not keep workers to it: in `overtaken_upload` two uploads save the
same content before either of them writes.
-/

namespace CloudSync

open CText Calls Calls.Prog Files Retention

/-! ## Workers that overwrite one file -/

/-- The version number a task has read, and the one it has backed up under. -/
structure Backup where
  read : Option ℤ
  saved : Option ℤ

/-- The backup of a task, read off the calls and their answers. -/
def backing : Monitor WorkerCall Backup where
  start := ⟨none, none⟩
  next := fun g c answer =>
    match c, answer with
    | .version _, n => { g with read := some n }
    | .saveVersion _ n, _ => { g with saved := some n }
    | _, _ => g

/-- Tasks in the middle of being processed, with their backups. -/
abbrev Overwriters (ι : Type) := Pool WorkerCall Backup ResponseMessage ι World

/-- The contents that have been replaced, and whether a `save_version` has been made
since the last one was. -/
structure Overwritten where
  contents : List Bytes
  backed : Bool

/-- A write replaces what is stored. -/
def Overwritten.next (f : Bytes) (world : World) (d : Overwritten) :
    {β : Type} → WorkerCall β → β → Overwritten
  | _, .saveVersion _ _, _ => { d with backed := true }
  | _, c, answer =>
      if c.wrote answer then ⟨(content world.tree f).toList ++ d.contents, false⟩ else d

/-- The call replaces the content by another one only if it has been backed up, and
backs up under a number in use only what is stored there. -/
def WorkerCall.InOrder (f : Bytes) (world : World) (backed : Bool) :
    {β : Type} → WorkerCall β → Prop
  | _, .saveVersion _ n =>
      content world.tree f = none ∨ storedVersion world.tree f n = none ∨
        storedVersion world.tree f n = content world.tree f
  | _, .saveFile _ data =>
      backed = true ∨ content world.tree f = none ∨ content world.tree f = some data
  | _, .restoreVersion _ k =>
      backed = true ∨ content world.tree f = none ∨ storedVersion world.tree f k = none ∨
        content world.tree f = storedVersion world.tree f k
  | _, _ => True

variable {ι : Type} [DecidableEq ι]

/-- The step meets no failure, and its call is in order. -/
def BackupOrder (f : Bytes) (workers : Overwriters ι) (d : Overwritten) (i : ι) (e : Env) : Prop :=
  e.Fine ∧ (workers.thread i).prog.AtCall fun c => c.InOrder f workers.shared d.backed

/-- The status a task has returned with. -/
def statusOf : Prog WorkerCall ResponseMessage → Option Status
  | .ret resp => some resp.status
  | .call _ _ => none

/-- All tasks have returned, and with success. -/
def Succeeded (workers : Overwriters ι) : Prop :=
  ∀ i, statusOf (workers.thread i).prog = some .success

/-- All workers have just received their tasks. -/
def Overwriters.start (task : ι → TaskMessage) (world : World) : Overwriters ι :=
  Pool.start (fun _ => backing) (fun i => processTask (task i)) world

/-- Enter a step into the history of `f`. -/
def enterOverwrite (f : Bytes) (workers : Overwriters ι) (i : ι) (e : Env) (d : Overwritten) :
    Overwritten :=
  match (workers.thread i).prog with
  | .ret _ => d
  | .call c _ => d.next f workers.shared c (worker.exec e c workers.shared).1

/-- The states reached by allowed steps, with the history of `f`. -/
abbrev OverwritersReach (f : Bytes)
    (allowed : Overwriters ι → Overwritten → ι → Env → Prop) (task : ι → TaskMessage)
    (world : World) : Overwriters ι → Overwritten → Prop :=
  ReachWith worker (fun _ => backing) (enterOverwrite f) allowed (Overwriters.start task world)
    ⟨[], false⟩

/-- The content is stored, as the content of the file or as a version. -/
def Kept (f : Bytes) (tree : Tree) (bytes : Bytes) : Prop :=
  content tree f = some bytes ∨ ∃ k, storedVersion tree f k = some bytes

/-! ## The texts of the tasks -/

/-- What a call of an overwriting task presupposes: it is about the task's file, and
the only backup is made under the number that has been read. -/
def Careful (task : TaskMessage) (g : Backup) : {β : Type} → WorkerCall β → Prop
  | _, .saveVersion f n => f = task.filename ∧ g.read = some n ∧ g.saved = none
  | _, .restoreVersion f k => f = task.filename ∧ InInt k
  | _, .deleteVersion _ _ => False
  | _, c => ∀ f ∈ c.filename, f = task.filename

/-- The program does not return with success. -/
abbrev Failing (prog : Prog WorkerCall ResponseMessage) : Prop :=
  prog.Returns fun resp => resp.status ≠ .success

/-- All calls of the program are careful ones, and it fails if it removes the file. -/
def Overwriting (task : TaskMessage) : Backup → Prog WorkerCall ResponseMessage → Prop
  | _, .ret _ => True
  | g, .call c next => Careful task g c ∧ (c.removes = none ∨ ∀ answer, Failing (next answer)) ∧
      ∀ answer, Overwriting task (backing.next g c answer) (next answer)

section Texts

variable {task : TaskMessage} {g : Backup}

theorem overwriting_answer (result : String) (status : Status) (message data : Bytes) :
    Overwriting task g (answer task result status message data) := by
  simp only [answer, audit, perform_bind, pure_eq_ret]
  exact ⟨fun f hf => absurd hf (Option.not_mem_none _), Or.inl rfl, fun _ => trivial⟩

/-- A call that neither backs up nor removes. -/
theorem overwriting_call {β : Type} {c : WorkerCall β}
    {next : β → Prog WorkerCall ResponseMessage} (hcareful : Careful task g c)
    (hkept : ∀ answer, backing.next g c answer = g) (hstays : c.removes = none)
    (hnext : ∀ answer, Overwriting task g (next answer)) : Overwriting task g (.call c next) := by
  refine ⟨hcareful, Or.inl hstays, fun answer => ?_⟩
  rw [hkept]
  exact hnext answer

theorem overwriting_ite {p : Prop} [Decidable p] {yes no : Prog WorkerCall ResponseMessage}
    (hyes : Overwriting task g yes) (hno : Overwriting task g no) :
    Overwriting task g (if p then yes else no) := by
  split
  · exact hyes
  · exact hno

theorem no_file {f : Bytes} (hf : f ∈ (none : Option Bytes)) : f = task.filename :=
  absurd hf (Option.not_mem_none f)

theorem overwriting_notOwner {i : Slot} {next : Bool → Prog WorkerCall ResponseMessage}
    (hnext : ∀ refused, Overwriting task g (next refused)) :
    Overwriting task g (notOwner task i >>= next) := by
  unfold notOwner
  split
  · exact hnext false
  · exact overwriting_call (fun _ => no_file) (fun _ => rfl) rfl fun _ => hnext _

theorem overwriting_lockedByOther {i : Slot} {next : Bool → Prog WorkerCall ResponseMessage}
    (hnext : ∀ locked, Overwriting task g (next locked)) :
    Overwriting task g (lockedByOther task i >>= next) := by
  simp only [lockedByOther, perform_bind, call_bind]
  refine overwriting_call (fun _ => no_file) (fun _ => rfl) rfl fun holder => ?_
  split
  · exact hnext false
  · exact overwriting_call (fun _ => no_file) (fun _ => rfl) rfl fun _ => hnext _

/-- The number is read, and the content is saved under it. -/
theorem overwriting_backup {i : Slot} {next : ℤ → Prog WorkerCall ResponseMessage}
    (hg : g.saved = none) (hnext : ∀ g' result, Overwriting task g' (next result)) :
    Overwriting task g
      (.call (.version i) fun n => .call (.saveVersion task.filename n) next) := by
  refine ⟨fun _ => no_file, Or.inl rfl, fun n => ?_⟩
  exact ⟨⟨rfl, rfl, hg⟩, Or.inl rfl, fun result => hnext _ result⟩

theorem overwriting_uploadWrite : Overwriting task g (uploadWrite task) := by
  simp only [uploadWrite, perform_bind]
  refine overwriting_call (fun _ => own_filename) (fun _ => rfl) rfl fun written => ?_
  apply overwriting_ite (overwriting_answer ..)
  refine overwriting_call (fun _ => own_filename) (fun _ => rfl) rfl fun added => ?_
  refine overwriting_ite ?_ (overwriting_answer ..)
  -- the upload that is undone fails
  refine ⟨fun _ => own_filename, Or.inr fun _ => ?_, fun _ => overwriting_answer ..⟩
  exact returns_call fun _ => returns_ret Status.noConfusion

theorem overwriting_uploadOwned (hg : g.saved = none) :
    Overwriting task g (uploadOwned task) := by
  simp only [uploadOwned, perform_bind]
  refine overwriting_call (fun _ => own_filename) (fun _ => rfl) rfl fun existing => ?_
  cases existing with
  | none => exact overwriting_uploadWrite
  | some i =>
      apply overwriting_notOwner
      intro refused
      apply overwriting_ite
      · exact overwriting_call (fun _ => no_file) (fun _ => rfl) rfl fun _ => overwriting_answer ..
      · exact overwriting_backup hg fun _ _ => overwriting_uploadWrite

theorem overwriting_processUpload (hg : g.saved = none) :
    Overwriting task g (processUpload task) := by
  simp only [processUpload, perform_bind]
  refine overwriting_call (fun _ => own_filename) (fun _ => rfl) rfl fun locked => ?_
  refine overwriting_ite ?_ (overwriting_uploadOwned hg)
  refine overwriting_call (fun _ => own_filename) (fun _ => rfl) rfl fun existing => ?_
  cases existing with
  | none => exact overwriting_uploadOwned hg
  | some i =>
      refine overwriting_call (fun _ => no_file) (fun _ => rfl) rfl fun holder => ?_
      exact overwriting_ite (overwriting_answer ..) (overwriting_uploadOwned hg)

theorem overwriting_processSave (hg : g.saved = none) : Overwriting task g (processSave task) := by
  simp only [processSave, perform_bind]
  apply overwriting_ite (overwriting_answer ..)
  refine overwriting_call (fun _ => own_filename) (fun _ => rfl) rfl fun existing => ?_
  cases existing with
  | none => exact trivial
  | some i =>
      refine overwriting_call (fun _ => no_file) (fun _ => rfl) rfl fun holder => ?_
      apply overwriting_ite (overwriting_answer ..)
      simp only [saveWrite, perform_bind]
      apply overwriting_backup hg
      intro g' saved
      refine overwriting_call (fun _ => own_filename) (fun _ => rfl) rfl fun written => ?_
      apply overwriting_ite (overwriting_answer ..)
      refine overwriting_call (fun _ => own_filename) (fun _ => rfl) rfl fun updated => ?_
      apply overwriting_ite (overwriting_answer ..)
      exact overwriting_call (fun _ => own_filename) (fun _ => rfl) rfl fun _ => overwriting_answer ..

theorem overwriting_processRollback (hg : g.saved = none) :
    Overwriting task g (processRollback task) := by
  simp only [processRollback, perform_bind]
  refine overwriting_call (fun _ => own_filename) (fun _ => rfl) rfl fun existing => ?_
  cases existing with
  | none => exact overwriting_answer ..
  | some i =>
      apply overwriting_notOwner
      intro refused
      apply overwriting_ite
      · exact overwriting_call (fun _ => no_file) (fun _ => rfl) rfl fun _ => overwriting_answer ..
      apply overwriting_lockedByOther
      intro locked
      apply overwriting_ite
      · exact overwriting_call (fun _ => no_file) (fun _ => rfl) rfl fun _ => trivial
      simp only [rollbackRestore, perform_bind]
      apply overwriting_backup hg
      intro g' saved
      refine overwriting_call ⟨rfl, task.targetVersion_range⟩ (fun _ => rfl) rfl fun newSize => ?_
      apply overwriting_ite (overwriting_answer ..)
      exact overwriting_call (fun _ => own_filename) (fun _ => rfl) rfl fun _ => overwriting_answer ..

theorem processTask_overwriting (hop : FileState.Overwrites task.operation) :
    Overwriting task backing.start (processTask task) := by
  unfold processTask
  rcases hop with hop | hop | hop <;> rw [hop]
  · exact overwriting_processUpload rfl
  · exact overwriting_processSave rfl
  · exact overwriting_processRollback rfl

end Texts

/-! ## What is kept from call to call -/

section Calls

variable {f : Bytes} {task : TaskMessage} {g : Backup} {β : Type} {c : WorkerCall β}
  {world : World} {e : Env} {d : Overwritten}

/-- What has been replaced is kept, and so is the content once it is backed up. -/
structure Safe (f : Bytes) (tree : Tree) (d : Overwritten) : Prop where
  current : d.backed = true → ∀ bytes, content tree f = some bytes →
    ∃ k, storedVersion tree f k = some bytes
  replaced : ∀ bytes ∈ d.contents, Kept f tree bytes

/-- As long as there are few versions, a backup is one more of them. -/
theorem backedUp_of_few {bytes : Bytes} {n : ℤ} {versions : ℤ → Option Bytes}
    (hfew : {k | (versions k).isSome ∨ n = k}.encard ≤ maxVersions) :
    backedUp (some bytes) n versions = Function.update versions n (some bytes) := by
  have hsub : {k | (Function.update versions n (some bytes) k).isSome} ⊆
      {k | (versions k).isSome ∨ n = k} := by
    intro k hk
    by_cases hkn : n = k
    · exact Or.inr hkn
    · rw [Set.mem_ofPred_eq, Function.update_of_ne (Ne.symm hkn)] at hk
      exact Or.inl hk
  have hall := newest_eq_self ((Set.encard_le_encard hsub).trans hfew)
  funext k
  simp only [backedUp]
  split
  · rfl
  · next hk =>
    rw [hall, Set.mem_ofPred_eq, Option.not_isSome_iff_eq_none] at hk
    exact hk.symm

theorem Safe.congr {tree tree' : Tree} (hsafe : Safe f tree d)
    (hcontent : content tree' f = content tree f)
    (hversions : storedVersion tree' f = storedVersion tree f) : Safe f tree' d := by
  obtain ⟨hcurrent, hreplaced⟩ := hsafe
  unfold Kept at hreplaced
  rw [← hcontent, ← hversions] at hreplaced
  rw [← hcontent, ← hversions] at hcurrent
  exact ⟨hcurrent, hreplaced⟩

theorem Safe.backup {tree tree' : Tree} {n : ℤ} (hsafe : Safe f tree d)
    (hcontent : content tree' f = content tree f)
    (hversions : storedVersion tree' f = backedUp (content tree f) n (storedVersion tree f))
    (hfew : {k | (storedVersion tree f k).isSome ∨ n = k}.encard ≤ maxVersions)
    (horder : content tree f = none ∨ storedVersion tree f n = none ∨
      storedVersion tree f n = content tree f) :
    Safe f tree' { d with backed := true } := by
  cases hold : content tree f with
  | none =>
      rw [hold] at hversions
      refine ⟨fun _ bytes h => ?_, (hsafe.congr hcontent hversions).replaced⟩
      rw [hcontent, hold] at h
      exact absurd h.symm (Option.some_ne_none bytes)
  | some old =>
      rw [hold, backedUp_of_few hfew] at hversions
      rw [hold] at hcontent horder
      have hbackup : storedVersion tree' f n = some old := by
        rw [hversions, Function.update_self]
      -- a version that was there is still there: the backup has taken nothing away
      have hstays : ∀ k bytes, storedVersion tree f k = some bytes →
          storedVersion tree' f k = some bytes := by
        intro k bytes hk
        by_cases hkn : k = n
        · rw [hkn] at hk ⊢
          rcases horder with hnone | hfree | hsame
          · exact absurd hnone (Option.some_ne_none old)
          · exact absurd (hfree.symm.trans hk) (Option.some_ne_none bytes).symm
          · rw [hbackup, ← hsame, hk]
        · rw [hversions, Function.update_of_ne hkn]
          exact hk
      constructor
      · intro _ bytes hbytes
        obtain rfl : old = bytes := Option.some.inj (hcontent.symm.trans hbytes)
        exact ⟨n, hbackup⟩
      · intro bytes hbytes
        rcases hsafe.replaced bytes hbytes with hnow | ⟨k, hk⟩
        · exact Or.inl (by rw [hcontent, ← hold, hnow])
        · exact Or.inr ⟨k, hstays k bytes hk⟩

theorem Safe.write {tree tree' : Tree} {new : Bytes} (hsafe : Safe f tree d)
    (hcontent : content tree' f = some new) (hversions : storedVersion tree' f = storedVersion tree f)
    (horder : d.backed = true ∨ content tree f = none ∨ content tree f = some new) :
    Safe f tree' ⟨(content tree f).toList ++ d.contents, false⟩ := by
  -- what was the content is a version, or the content again
  have hcurrent : ∀ bytes, content tree f = some bytes → Kept f tree' bytes := by
    intro bytes hbytes
    rcases horder with hbacked | hnone | hsame
    · obtain ⟨k, hk⟩ := hsafe.current hbacked bytes hbytes
      exact Or.inr ⟨k, by rw [hversions, hk]⟩
    · exact absurd (hnone.symm.trans hbytes) (Option.some_ne_none bytes).symm
    · exact Or.inl (by rw [hcontent, ← hsame, hbytes])
  refine ⟨fun h => Bool.noConfusion h, fun bytes hbytes => ?_⟩
  rcases List.mem_append.mp hbytes with hnow | hbefore
  · exact hcurrent bytes (Option.mem_toList.mp hnow)
  · rcases hsafe.replaced bytes hbefore with hnow | ⟨k, hk⟩
    · exact hcurrent bytes hnow
    · exact Or.inr ⟨k, by rw [hversions, hk]⟩

/-- What a call does to the store and the history of the file. -/
structure Keeps (f : Bytes) (g : Backup) (d : Overwritten) (c : WorkerCall β) (world : World)
    (out : β × World) : Prop where
  store : StoreOk out.2.tree
  numbers : ∀ k, (storedVersion out.2.tree f k).isSome →
    (storedVersion world.tree f k).isSome ∨ (backing.next g c out.1).saved = some k
  safe : c.removes = none → c.InOrder f world d.backed → Safe f world.tree d →
    Safe f out.2.tree (d.next f world c out.1)

theorem keeps_same {out : β × World}
    (hleaves : Leaves world.tree f (content world.tree f) (storedVersion world.tree f) out.2.tree)
    (hnext : d.next f world c out.1 = d) : Keeps f g d c world out := by
  refine ⟨hleaves.ok, fun k hk => Or.inl ?_, fun _ _ hsafe => ?_⟩
  · rwa [hleaves.versions] at hk
  · rw [hnext]
    exact hsafe.congr hleaves.content hleaves.versions

theorem keeps_write {out : β × World} {new : Bytes}
    (hleaves : Leaves world.tree f (some new) (storedVersion world.tree f) out.2.tree)
    (hnext : d.next f world c out.1 = ⟨(content world.tree f).toList ++ d.contents, false⟩)
    (horder : c.InOrder f world d.backed →
      d.backed = true ∨ content world.tree f = none ∨ content world.tree f = some new) :
    Keeps f g d c world out := by
  refine ⟨hleaves.ok, fun k hk => Or.inl ?_, fun _ hin hsafe => ?_⟩
  · rwa [hleaves.versions] at hk
  · rw [hnext]
    exact hsafe.write hleaves.content hleaves.versions (horder hin)

/-- A call that writes nothing. -/
theorem keeps_quiet (hok : StoreOk world.tree) (hcontent : c.writesContent = none)
    (hversions : c.writesVersions = none) : Keeps f g d c world (worker.exec e c world) := by
  apply keeps_same ((leaves_self hok).congr (at?_exec_of_quiet e c world hcontent hversions))
  cases c <;> first
    | rfl
    | exact absurd hcontent (Option.some_ne_none _)
    | exact absurd hversions (Option.some_ne_none _)

section Exec

variable (hfine : e.Fine) (hname : StorageName f) (hunique : UniqueNames world.metadata)
  (hok : StoreOk world.tree)

include hfine hname hunique hok

theorem keeps_saveVersion {n : ℤ} (hn : InInt n)
    (hfew : {k | (storedVersion world.tree f k).isSome ∨ n = k}.encard ≤ maxVersions) :
    Keeps f g d (.saveVersion f n) world (worker.exec e (.saveVersion f n) world) := by
  have hfew' : {k | (storedVersion world.tree f k).isSome}.encard ≤ 255 := by
    apply (Set.encard_le_encard fun _ => Or.inl).trans (hfew.trans _)
    exact_mod_cast (by decide : maxVersions ≤ 255)
  have hwp : wp worker Env.Fine (.call (.saveVersion f n) ret) (fun _ world' =>
      At world f { world.file f with
        versions := backedUp (content world.tree f) n (storedVersion world.tree f) } world')
      world :=
    wp_saveVersion (fun _ he => he) (at_self hunique hok) hname hn hfew' fun _ h => h
  have hat := hwp e hfine
  refine ⟨hat.store.ok, fun k hk => ?_, fun _ horder hsafe => ?_⟩
  · rw [hat.store.versions] at hk
    obtain ⟨bytes, hbytes⟩ := Option.isSome_iff_exists.mp hk
    rcases of_backedUp hbytes with hbefore | ⟨rfl, -⟩
    · exact Or.inl (Option.isSome_of_eq_some hbefore)
    · exact Or.inr rfl
  · exact hsafe.backup hat.store.content hat.store.versions hfew horder

theorem keeps_saveFile (data : Bytes) :
    Keeps f g d (.saveFile f data) world (worker.exec e (.saveFile f data) world) := by
  have hwp : wp worker Env.Fine (.call (.saveFile f data) ret) (fun answer world' =>
      answer = 0 ∧ At world f { world.file f with content := some data } world') world :=
    wp_saveFile (fun _ he => he) (at_self hunique hok) hname fun _ _ h => ⟨rfl, h⟩
  obtain ⟨hanswer, hat⟩ := hwp e hfine
  apply keeps_write hat.store
  · rw [hanswer]
    rfl
  · exact id

theorem keeps_restoreVersion {k : ℤ} (hk : InInt k) :
    Keeps f g d (.restoreVersion f k) world (worker.exec e (.restoreVersion f k) world) := by
  have hwp : wp worker Env.Fine (.call (.restoreVersion f k) ret) (fun answer world' =>
      (answer = -1 ∧ At world f (world.file f) world') ∨
        ∃ bytes, storedVersion world.tree f k = some bytes ∧ answer = (bytes.length : ℤ) ∧
          At world f { world.file f with content := some bytes } world') world :=
    wp_restoreVersion (fun _ he => he) (at_self hunique hok) hname hk
      (fun _ _ h => Or.inl ⟨rfl, h⟩) fun bytes hbytes _ h => Or.inr ⟨bytes, hbytes, rfl, h⟩
  obtain ⟨hanswer, hat⟩ | ⟨bytes, hbytes, hanswer, hat⟩ := hwp e hfine
  · apply keeps_same hat.store
    rw [hanswer]
    rfl
  · apply keeps_write hat.store
    · simp [Overwritten.next, WorkerCall.wrote, hanswer]
    · intro horder
      simp only [WorkerCall.InOrder, hbytes] at horder
      rcases horder with hbacked | hnone | hmissing | hsame
      · exact Or.inl hbacked
      · exact Or.inr (Or.inl hnone)
      · exact absurd hmissing (Option.some_ne_none bytes)
      · exact Or.inr (Or.inr hsame)

theorem keeps_removeFileFromStorage :
    Keeps f g d (.removeFileFromStorage f) world
      (worker.exec e (.removeFileFromStorage f) world) := by
  have hwp : wp worker Env.Fine (.call (.removeFileFromStorage f) ret) (fun _ world' =>
      ∃ s : FileState, (∀ k, (s.versions k).isSome → (storedVersion world.tree f k).isSome) ∧
        At world f s world') world :=
    wp_removeFileFromStorage (fun _ he => he) (at_self hunique hok) hname
      (fun _ _ h => ⟨_, fun _ => id, h⟩) fun _ _ h => ⟨_, fun _ hk => Bool.noConfusion hk, h⟩
  obtain ⟨s, hversions, hat⟩ := hwp e hfine
  refine ⟨hat.store.ok, fun k hk => Or.inl (hversions k ?_), fun hstays => ?_⟩
  · rwa [hat.store.versions] at hk
  · exact absurd hstays (Option.some_ne_none f)

end Exec

/-- A careful call, with few versions there. -/
theorem keeps_exec (hcareful : Careful task g c) (hfine : e.Fine)
    (hname : StorageName task.filename) (hunique : UniqueNames world.metadata)
    (hok : StoreOk world.tree) (hread : ∀ n ∈ g.read, InInt n)
    (hfew : {k | (storedVersion world.tree task.filename k).isSome ∨
      (backing.next g c (worker.exec e c world).1).saved = some k}.encard ≤ maxVersions) :
    Keeps task.filename g d c world (worker.exec e c world) := by
  cases c with
  | saveVersion f n =>
      obtain ⟨rfl, hn, -⟩ := hcareful
      apply keeps_saveVersion hfine hname hunique hok (hread n hn)
      refine (Set.encard_le_encard ?_).trans hfew
      exact fun k hk => hk.imp id (congrArg some)
  | saveFile f data =>
      obtain rfl : f = task.filename := hcareful f rfl
      exact keeps_saveFile hfine hname hunique hok data
  | restoreVersion f k =>
      obtain ⟨rfl, hk⟩ := hcareful
      exact keeps_restoreVersion hfine hname hunique hok hk
  | removeFileFromStorage f =>
      obtain rfl : f = task.filename := hcareful f rfl
      exact keeps_removeFileFromStorage hfine hname hunique hok
  | deleteVersion f k => exact hcareful.elim
  | _ => exact keeps_quiet hok rfl rfl

/-- The versions are values of an `int`. -/
def IntVersions (metaArray : MetaArray) : Prop := ∀ i, InInt (metaArray i).version

theorem IntVersions.update {metaArray : MetaArray} (h : IntVersions metaArray) {i : Slot}
    {r : FileMetadata} (hr : InInt r.version) : IntVersions (Function.update metaArray i r) :=
  (Function.forall_update_iff metaArray fun _ r => InInt r.version).mpr ⟨hr, fun j _ => h j⟩

/-- Every call leaves values of an `int`. -/
theorem intVersions_exec (h : IntVersions world.metadata) :
    IntVersions (worker.exec e c world).2.metadata := by
  cases c with
  | addFileMetadata f ownerName ownerId size =>
      show IntVersions (addFileMetadata world.metadata f ownerName ownerId size e.now).2
      unfold addFileMetadata
      split
      · exact h.update (int32_range _)
      · split
        · exact h.update (show InInt 1 by decide)
        · exact h
  | updateFileMetadata f size =>
      show IntVersions (updateFileMetadata world.metadata f size e.now).2
      unfold updateFileMetadata
      split
      · exact h.update (int32_range _)
      · exact h
  | removeFileMetadata f =>
      show IntVersions (removeFileMetadata world.metadata f).2
      unfold removeFileMetadata
      split
      · exact h.update (h _)
      · exact h
  | acquireEditLock f userId username =>
      show IntVersions (acquireEditLock world.metadata f userId username e.now).2
      unfold acquireEditLock
      dsimp only
      split
      · exact h
      · split_ifs
        · exact h.update (h _)
        · exact h
        · exact h
        · exact h.update (h _)
  | releaseEditLock f userId =>
      show IntVersions (releaseEditLock world.metadata f userId).2
      unfold releaseEditLock
      split
      · exact h
      · split_ifs
        · exact h
        · exact h
        · exact h.update (h _)
  | checkEditLock f =>
      show IntVersions (checkEditLock world.metadata f e.now).2
      unfold checkEditLock
      split
      · exact h
      · split_ifs
        · exact h.update (h _)
        · exact h
        · exact h
  | _ =>
      rw [metadata_exec _ _ _ rfl]
      exact h

end Calls

/-! ## Runs in order -/

variable {f : Bytes} {task : ι → TaskMessage} {workers : Overwriters ι} {d : Overwritten}

/-- What every step keeps. -/
structure Overwriters.Sound (f : Bytes) (task : ι → TaskMessage) (workers : Overwriters ι)
    (d : Overwritten) : Prop where
  unique : UniqueNames workers.shared.metadata
  versions : IntVersions workers.shared.metadata
  store : StoreOk workers.shared.tree
  texts : ∀ i, Overwriting (task i) (workers.thread i).ghost (workers.thread i).prog
  read : ∀ i, ∀ n ∈ (workers.thread i).ghost.read, InInt n
  numbers : ∀ k, (storedVersion workers.shared.tree f k).isSome →
    ∃ i, (workers.thread i).ghost.saved = some k
  safe : (∀ i, ¬ Failing (workers.thread i).prog) → Safe f workers.shared.tree d

/-- A task that has backed up does not forget the number. -/
theorem Careful.saved_next {t : TaskMessage} {g : Backup} {β : Type} {c : WorkerCall β}
    (hcareful : Careful t g c) {k : ℤ} (hsaved : g.saved = some k) (answer : β) :
    (backing.next g c answer).saved = some k := by
  cases c with
  | saveVersion f n => exact absurd (hcareful.2.2.symm.trans hsaved) (Option.some_ne_none k).symm
  | _ => exact hsaved

/-- A number that has been read is one of a record. -/
theorem read_next {g : Backup} {β : Type} {c : WorkerCall β} {world : World} {e : Env}
    (hversions : IntVersions world.metadata) (hread : ∀ n ∈ g.read, InInt n) :
    ∀ n ∈ (backing.next g c (worker.exec e c world).1).read, InInt n := by
  intro n hn
  cases c with
  | version i =>
      obtain rfl : (world.metadata i).version = n := Option.some.inj hn
      exact hversions i
  | _ => exact hread n hn

theorem Careful.filename {t : TaskMessage} {g : Backup} {β : Type} {c : WorkerCall β}
    (hcareful : Careful t g c) : ∀ f ∈ c.filename, f = t.filename := by
  intro f hf
  cases c with
  | saveVersion f n =>
      obtain rfl := Option.some.inj hf
      exact hcareful.1
  | restoreVersion f k =>
      obtain rfl := Option.some.inj hf
      exact hcareful.1
  | deleteVersion f k => exact hcareful.elim
  | _ => exact hcareful f hf

/-- A step in order. -/
theorem sound_step [Fintype ι] (hcard : Fintype.card ι ≤ maxVersions) (hname : StorageName f)
    (hfile : ∀ i, (task i).filename = f) {i : ι} {e : Env}
    (hsound : Overwriters.Sound f task workers d) (horder : BackupOrder f workers d i e) :
    Overwriters.Sound f task (workers.step worker (fun _ => backing) i e)
      (enterOverwrite f workers i e d) := by
  obtain ⟨hfine, hcall⟩ := horder
  cases hprog : (workers.thread i).prog with
  | ret value =>
      rw [hprog] at hcall
      exact hcall.elim
  | call c next =>
      obtain rfl := hfile i
      have htext := hsound.texts i
      rw [hprog] at htext hcall
      obtain ⟨hcareful, hremoves, hnext⟩ := htext
      have hself : (workers.step worker (fun _ => backing) i e).thread i =
          ⟨backing.next (workers.thread i).ghost c (worker.exec e c workers.shared).1,
            next (worker.exec e c workers.shared).1⟩ := by
        rw [Pool.step_call hprog]
        simp only [Function.update_self]
      have hother : ∀ j, j ≠ i →
          (workers.step worker (fun _ => backing) i e).thread j = workers.thread j :=
        fun j hj => Pool.step_thread_of_ne workers hj e
      have hshared : (workers.step worker (fun _ => backing) i e).shared =
          (worker.exec e c workers.shared).2 := by
        rw [Pool.step_call hprog]
      have henter : enterOverwrite (task i).filename workers i e d =
          d.next (task i).filename workers.shared c (worker.exec e c workers.shared).1 := by
        rw [enterOverwrite, hprog]
      have hsaved : ∀ k, (storedVersion workers.shared.tree (task i).filename k).isSome ∨
          (backing.next (workers.thread i).ghost c (worker.exec e c workers.shared).1).saved =
            some k →
          ∃ j, ((workers.step worker (fun _ => backing) i e).thread j).ghost.saved = some k := by
        rintro k (hk | hk)
        · obtain ⟨j, hj⟩ := hsound.numbers k hk
          refine ⟨j, ?_⟩
          by_cases hji : j = i
          · subst hji
            rw [hself]
            exact hcareful.saved_next hj _
          · rw [hother j hji]
            exact hj
        · exact ⟨i, by rw [hself]; exact hk⟩
      have hkeeps := keeps_exec (d := d) hcareful hfine hname hsound.unique hsound.store
        (hsound.read i) (by
          apply (Set.encard_le_encard hsaved).trans
          apply (encard_marks_le _).trans
          exact_mod_cast hcard)
      have hnamed : ∀ f ∈ c.filename, f.length < maxFilename :=
        fun f hf => (hcareful.filename f hf).symm ▸ (task i).filename_length
      refine ⟨?_, ?_, ?_, ?_, ?_, ?_, ?_⟩
      · rw [hshared]
        exact (record?_exec e c hsound.unique hnamed).1
      · rw [hshared]
        exact intVersions_exec hsound.versions
      · rw [hshared]
        exact hkeeps.store
      · exact Pool.step_forall (P := fun j thread => Overwriting (task j) thread.ghost thread.prog)
          hprog hsound.texts (hnext _)
      · refine Pool.step_forall (P := fun _ thread => ∀ n ∈ thread.ghost.read, InInt n) hprog
          hsound.read ?_
        exact read_next hsound.versions (hsound.read i)
      · intro k hk
        rw [hshared] at hk
        exact hsaved k (hkeeps.numbers k hk)
      · intro hnot
        rw [hshared, henter]
        -- no task fails now, so none was bound to fail before
        have hstays : c.removes = none := by
          apply hremoves.resolve_right
          intro hfail
          apply hnot i
          rw [hself]
          exact hfail _
        apply hkeeps.safe hstays hcall (hsound.safe _)
        intro j hfail
        apply hnot j
        by_cases hji : j = i
        · subst hji
          rw [hself]
          rw [hprog] at hfail
          exact fun value hvalue => hfail value ⟨_, hvalue⟩
        · rw [hother j hji]
          exact hfail

omit [DecidableEq ι] in
theorem sound_start {world : World} (hop : ∀ i, FileState.Overwrites (task i).operation)
    (hunique : UniqueNames world.metadata) (hversions : IntVersions world.metadata)
    (hok : StoreOk world.tree) (hempty : ∀ k, storedVersion world.tree f k = none) :
    Overwriters.Sound f task (Overwriters.start task world) ⟨[], false⟩ where
  unique := hunique
  versions := hversions
  store := hok
  texts := fun i => processTask_overwriting (hop i)
  read := fun _ n hn => absurd hn (Option.not_mem_none n)
  numbers := fun k hk => by
    have hk' : (storedVersion world.tree f k).isSome := hk
    rw [hempty k] at hk'
    exact Bool.noConfusion hk'
  safe := fun _ => ⟨fun h => Bool.noConfusion h, fun _ h => absurd h List.not_mem_nil⟩

/-- If every step of a run is in order, all contents that were replaced are kept when
all tasks have returned with success. -/
theorem replaced_contents_kept [Fintype ι] (hcard : Fintype.card ι ≤ maxVersions)
    {world : World} (hname : StorageName f) (hfile : ∀ i, (task i).filename = f)
    (hop : ∀ i, FileState.Overwrites (task i).operation) (hunique : UniqueNames world.metadata)
    (hversions : IntVersions world.metadata) (hok : StoreOk world.tree)
    (hempty : ∀ k, storedVersion world.tree f k = none)
    (hreach : OverwritersReach f (BackupOrder f) task world workers d)
    (hdone : Succeeded workers) : ∀ bytes ∈ d.contents, Kept f workers.shared.tree bytes := by
  have hsound : Overwriters.Sound f task workers d :=
    hreach.invariant (I := Overwriters.Sound f task)
      (sound_start hop hunique hversions hok hempty)
      fun _ _ _ _ hsound horder => sound_step hcard hname hfile hsound horder
  apply (hsound.safe _).replaced
  intro i hfail
  have hsuccess := hdone i
  cases hprog : (workers.thread i).prog with
  | ret resp =>
      rw [hprog] at hfail hsuccess
      exact hfail resp rfl (Option.some.inj hsuccess)
  | call c next =>
      rw [hprog] at hsuccess
      exact Option.some_ne_none _ hsuccess.symm

/-! ## Two uploads of the owner -/

/-- What is stored as a version is the content of an entry of the version directory. -/
theorem child_of_stored {t : Tree} (hf : f.length < maxFilename) {k : ℤ} {bytes : Bytes}
    (h : storedVersion t f k = some bytes) :
    ∃ name ∈ t.children (resolve (versionDirPath f)),
      t.bytes? (name :: resolve (versionDirPath f)) = some bytes := by
  unfold storedVersion at h
  rw [resolve_versionPath_entry hf le_rfl] at h
  refine ⟨_, Tree.mem_children.mpr ?_, h⟩
  rw [Tree.bytes?_eq_some.mp h]
  rfl

/-- Where the version directory is empty, there are no versions. -/
theorem storedVersion_of_childless {t : Tree} (hf : f.length < maxFilename)
    (hempty : t.children (resolve (versionDirPath f)) = []) (k : ℤ) : storedVersion t f k = none := by
  by_contra hsome
  obtain ⟨bytes, hbytes⟩ := Option.ne_none_iff_exists'.mp hsome
  obtain ⟨name, hname, -⟩ := child_of_stored hf hbytes
  rw [hempty] at hname
  exact List.not_mem_nil hname

instance (f : Bytes) (world : World) (backed : Bool) {β : Type} (c : WorkerCall β) :
    Decidable (c.InOrder f world backed) := by
  cases c <;> unfold WorkerCall.InOrder <;> infer_instance

instance (workers : Overwriters Bool) : Decidable (Succeeded workers) := by
  unfold Succeeded
  infer_instance

/-- The two uploads take turns in the order given, and nothing goes wrong. -/
def calmly (turns : List Bool) : List (Bool × Env) := turns.map fun i => (i, Env.calm 0)

theorem calmly_fine {turns : List Bool} : ∀ entry ∈ calmly turns, entry.2.Fine := by
  intro entry hentry
  obtain ⟨i, -, rfl⟩ := List.mem_map.mp hentry
  exact Env.calm_fine 0

/-- What the uploads leave. -/
def uploadsAfter (world : World) (turns : List Bool) : Overwriters Bool :=
  (Overwriters.start sameUpload world).runSchedule worker (fun _ => backing) (calmly turns)

/-- What the uploads have replaced. -/
def replacedAfter (world : World) (turns : List Bool) : Overwritten :=
  (Overwriters.start sameUpload world).history worker (fun _ => backing)
    (enterOverwrite (text "a")) ⟨[], false⟩ (calmly turns)

/-- One upload after the other. -/
def oneByOne : List Bool := List.replicate 5 false ++ List.replicate 8 true

/-- The second upload backs up the first one. -/
theorem first_upload_kept : ∃ workers d,
    OverwritersReach (text "a") (BackupOrder (text "a")) sameUpload freshWorld workers d ∧
      text "two" ∈ d.contents ∧ Kept (text "a") workers.shared.tree (text "two") := by
  have hadmissible : Admissible worker (fun _ => backing) (enterOverwrite (text "a"))
      (fun (workers : Overwriters Bool) (d : Overwritten) i (_ : Env) =>
        (workers.thread i).prog.AtCall fun c => c.InOrder (text "a") workers.shared d.backed)
      (Overwriters.start sameUpload freshWorld) ⟨[], false⟩ (calmly oneByOne) := by decide +kernel
  have hreach : OverwritersReach (text "a") (BackupOrder (text "a")) sameUpload freshWorld
      (uploadsAfter freshWorld oneByOne) (replacedAfter freshWorld oneByOne) :=
    ReachWith.refl.run_history ((admissible_of_forall calmly_fine).and hadmissible)
  have hdone : Succeeded (uploadsAfter freshWorld oneByOne) := by decide +kernel
  have hmem : text "two" ∈ (replacedAfter freshWorld oneByOne).contents := by decide +kernel
  have hname : StorageName (text "a") := by decide
  have hchildren : freshWorld.tree.children (resolve (versionDirPath (text "a"))) = [] := by
    decide +kernel
  refine ⟨_, _, hreach, hmem, ?_⟩
  refine replaced_contents_kept ?_ hname ?_ ?_ initMetadata_unique ?_ freshWorld_storeOk
    (storedVersion_of_childless hname.short hchildren) hreach hdone _ hmem
  · decide
  · decide
  · exact fun i => Or.inl (by cases i <;> rfl)
  · exact fun _ => (by decide : InInt 0)

/-- Whatever the order of their steps, what the tasks have replaced is kept when all of
them have returned with success. -/
def ReplacedContentsKept (f : Bytes) (task : ι → TaskMessage) (world : World) : Prop :=
  ∀ workers d, OverwritersReach f (fun _ _ _ e => e.Fine) task world workers d →
    Succeeded workers → ∀ bytes ∈ d.contents, Kept f workers.shared.tree bytes

/-- Both uploads back up before either of them writes. -/
def overtaking : List Bool :=
  List.replicate 5 false ++ List.replicate 5 true ++ List.replicate 3 false ++ List.replicate 3 true

/-- The first of two uploads of the owner is neither backed up nor current. -/
theorem overtaken_upload :
    (record? uploadedOnce.metadata (text "a")).map FileMetadata.ownerId = some 2 ∧
      (∀ k, storedVersion uploadedOnce.tree (text "a") k = none) ∧
      ¬ ReplacedContentsKept (text "a") sameUpload uploadedOnce := by
  have hname : StorageName (text "a") := by decide
  have hchildren : uploadedOnce.tree.children (resolve (versionDirPath (text "a"))) = [] := by
    decide +kernel
  refine ⟨by decide +kernel, storedVersion_of_childless hname.short hchildren, fun hkept => ?_⟩
  have hreach : OverwritersReach (text "a") (fun _ _ _ e => e.Fine) sameUpload uploadedOnce
      (uploadsAfter uploadedOnce overtaking) (replacedAfter uploadedOnce overtaking) :=
    ReachWith.refl.run_history (admissible_of_forall calmly_fine)
  have hdone : Succeeded (uploadsAfter uploadedOnce overtaking) := by decide +kernel
  have hmem : text "two" ∈ (replacedAfter uploadedOnce overtaking).contents := by decide +kernel
  have hversions : (uploadsAfter uploadedOnce overtaking).shared.tree.children
      (resolve (versionDirPath (text "a"))) = [text "v1"] := by decide +kernel
  rcases hkept _ _ hreach hdone _ hmem with hcontent | ⟨k, hk⟩
  · exact absurd hcontent (by decide +kernel)
  · obtain ⟨name, hchild, hbytes⟩ := child_of_stored hname.short hk
    rw [hversions, List.mem_singleton] at hchild
    rw [hchild] at hbytes
    exact absurd hbytes (by decide +kernel)

end CloudSync
