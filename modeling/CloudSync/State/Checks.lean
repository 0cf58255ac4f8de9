import CloudSync.State.Calls
import CloudSync.Lib.Interleaving

/-!
# What a task has checked

`standing task` follows a task through its calls and records which of its checks
have come out in its favour: the ownership check, the lock check, and the check
of `SAVE` that the user holds the lock.  It is computed from the calls and their
answers alone.

`Entitled` says what a task may do with which checks behind it, and
`processTask_entitled` that every call of `process_task` is so covered, in any
order of events around it.  Nothing else about the program text is needed to
argue about ownership and locks, for a task alone or among others.
-/

namespace CloudSync

open CText Calls Calls.Prog Files

/-- The operations that can change a file. -/
def Operation.modifies : Operation → Bool
  | .upload => true
  | .delete => true
  | .edit => true
  | .save => true
  | .unlock => true
  | .rollback => true
  | .delversion => true
  | _ => false

/-- What a task has found out: the record it looked up, whether its user owns
the file (or is an admin, or there is no such file), whether no other user holds
the lock, and whether its user does. -/
structure Standing where
  slot : Option Slot
  owner : Bool
  lock : Bool
  holder : Bool

variable (task : TaskMessage)

/-- The checks of `process_task`, read off its calls and their answers. -/
def standing : Monitor WorkerCall Standing where
  start := { slot := none, owner := task.role == roleAdmin, lock := false, holder := false }
  next := fun g c answer =>
    match c, answer with
    | .findFileMetadata _, none => { slot := none, owner := true, lock := true, holder := false }
    | .findFileMetadata _, some i =>
        { g with slot := some i, owner := task.role == roleAdmin, holder := false }
    | .checkEditLock _, (locked, _) => { g with lock := !locked, holder := false }
    | .ownerId _, owner => { g with owner := task.role == roleAdmin || owner == task.userId }
    | .lockedByUserId _, holder =>
        { g with lock := holder == -1 || holder == task.userId, holder := holder == task.userId }
    | .acquireEditLock _ _ _, _ => { g with holder := false }
    | .releaseEditLock _ _, _ => { g with holder := false }
    | .addFileMetadata _ _ _ _, _ => { g with slot := none, holder := false }
    | .removeFileMetadata _, _ => { g with slot := none, holder := false }
    | _, _ => g

/-- The task may change the file: its user owns it, or is saving under the lock. -/
def Authority (g : Standing) : Prop :=
  g.owner = true ∨ (task.operation = .save ∧ g.holder = true)

/-- What a call presupposes. -/
def Entitled (g : Standing) : {β : Type} → WorkerCall β → Prop
  | _, .findFileMetadata f => f = task.filename
  | _, .addFileMetadata f _ ownerId _ =>
      f = task.filename ∧ ownerId = task.userId ∧ task.operation = .upload ∧
        g.owner = true ∧ g.lock = true
  | _, .updateFileMetadata f _ =>
      f = task.filename ∧ task.operation.modifies = true ∧ Authority task g
  | _, .removeFileMetadata f =>
      f = task.filename ∧ task.operation.modifies = true ∧ g.owner = true ∧ g.lock = true
  | _, .acquireEditLock f userId _ =>
      f = task.filename ∧ userId = task.userId ∧ task.operation = .edit ∧ g.owner = true
  | _, .releaseEditLock f userId =>
      f = task.filename ∧ userId = task.userId ∧ task.operation.modifies = true
  | _, .checkEditLock f => f = task.filename ∧ task.operation.modifies = true
  | _, .listAllFiles => True
  | _, .getFileVersion f => f = task.filename
  | _, .ownerId i => g.slot = some i
  | _, .ownerName i => g.slot = some i
  | _, .version i => g.slot = some i
  | _, .lockedByUserId i => g.slot = some i
  | _, .lockedByUsername i => g.slot = some i
  | _, .saveVersion f _ =>
      f = task.filename ∧ task.operation.modifies = true ∧ Authority task g
  | _, .saveFile f _ =>
      f = task.filename ∧ task.operation.modifies = true ∧ Authority task g ∧ g.lock = true
  | _, .readFile f => f = task.filename
  | _, .restoreVersion f _ =>
      f = task.filename ∧ task.operation.modifies = true ∧ g.owner = true ∧ g.lock = true
  | _, .removeFileFromStorage f =>
      f = task.filename ∧ task.operation.modifies = true ∧ g.owner = true ∧ g.lock = true
  | _, .listVersions f => f = task.filename
  | _, .deleteVersion f _ =>
      f = task.filename ∧ task.operation.modifies = true ∧ g.owner = true
  | _, .readAuditLog => True
  | _, .writeAuditEntry _ _ _ _ => True

variable {task} {g : Standing}

/-! ## What an entitled call cannot do -/

section Entitled

variable {β : Type} {c : WorkerCall β}

/-- A task's calls are all about its own file. -/
theorem Entitled.filename (h : Entitled task g c) : ∀ f ∈ c.filename, f = task.filename := by
  rintro f hf
  cases c <;> simp only [WorkerCall.filename, Option.mem_def, Option.some.injEq, reduceCtorEq] at hf
    <;> subst hf
  all_goals first | exact h | exact h.1

theorem Entitled.filename_mem (h : Entitled task g c) {names : Set Bytes}
    (hname : task.filename ∈ names) : ∀ f ∈ c.filename, f ∈ names :=
  fun f hf => h.filename f hf ▸ hname

theorem Entitled.filename_length (h : Entitled task g c) :
    ∀ f ∈ c.filename, f.length < maxFilename :=
  fun f hf => h.filename f hf ▸ task.filename_length

/-- Only an operation that modifies files makes calls that do. -/
theorem Entitled.modifies (h : Entitled task g c) (hop : task.operation.modifies = false) :
    c.changesRecord = none ∧ c.writesContent = none ∧ c.writesVersions = none := by
  cases c <;> simp only [Entitled, hop, Bool.false_eq_true, false_and, and_false] at h
  case addFileMetadata => rw [h.2.2.1] at hop; exact Bool.noConfusion hop
  case acquireEditLock => rw [h.2.2.1] at hop; exact Bool.noConfusion hop
  all_goals exact ⟨rfl, rfl, rfl⟩

theorem Entitled.modifies_of_changesRecord (h : Entitled task g c) {f : Bytes}
    (hf : f ∈ c.changesRecord) : task.operation.modifies = true := by
  by_contra hop
  rw [(h.modifies (Bool.not_eq_true _ ▸ hop)).1] at hf
  exact Option.not_mem_none f hf

theorem Entitled.modifies_of_writesAt (h : Entitled task g c) {p : Path} (hp : c.WritesAt p) :
    task.operation.modifies = true := by
  by_contra hop
  obtain ⟨-, hcontent, hversions⟩ := h.modifies (Bool.not_eq_true _ ▸ hop)
  rcases hp with ⟨f, hf, -⟩ | ⟨f, hf, -⟩
  · rw [hcontent] at hf
    exact Option.not_mem_none f hf
  · rw [hversions] at hf
    exact Option.not_mem_none f hf

/-- The content is written with authority and the lock check passed. -/
theorem Entitled.writesContent (h : Entitled task g c) {f : Bytes} (hf : f ∈ c.writesContent) :
    f = task.filename ∧ Authority task g ∧ g.lock = true := by
  cases c <;> simp only [WorkerCall.writesContent, Option.mem_def, Option.some.injEq,
    reduceCtorEq] at hf <;> subst hf
  case saveFile => exact ⟨h.1, h.2.2⟩
  case restoreVersion => exact ⟨h.1, Or.inl h.2.2.1, h.2.2.2⟩
  case removeFileFromStorage => exact ⟨h.1, Or.inl h.2.2.1, h.2.2.2⟩

/-- The record is removed with the lock check passed. -/
theorem Entitled.lock_of_removesRecord (h : Entitled task g c) {f : Bytes} (hf : c.removesRecord = some f) :
    g.lock = true := by
  cases c <;> simp only [WorkerCall.removesRecord, Option.some.injEq, reduceCtorEq] at hf
  exact h.2.2.2

/-- The versions are written with authority. -/
theorem Entitled.writesVersions (h : Entitled task g c) {f : Bytes} (hf : f ∈ c.writesVersions) :
    f = task.filename ∧ Authority task g := by
  cases c <;> simp only [WorkerCall.writesVersions, Option.mem_def, Option.some.injEq,
    reduceCtorEq] at hf <;> subst hf
  case saveVersion => exact ⟨h.1, h.2.2⟩
  case removeFileFromStorage => exact ⟨h.1, Or.inl h.2.2.1⟩
  case deleteVersion => exact ⟨h.1, Or.inl h.2.2⟩

/-- A lock is asked for by `EDIT`, for the task's own user. -/
theorem Entitled.locks (h : Entitled task g c) {f : Bytes} {userId : ℤ}
    (hf : c.locks = some (f, userId)) :
    f = task.filename ∧ userId = task.userId ∧ task.operation = .edit := by
  cases c <;> simp only [WorkerCall.locks, Option.some.injEq, Prod.mk.injEq, reduceCtorEq] at hf
  obtain ⟨rfl, rfl⟩ := hf
  exact ⟨h.1, h.2.1, h.2.2.1⟩

/-- A record is created for the task's own user. -/
theorem Entitled.creates (h : Entitled task g c) {f : Bytes} {ownerId : ℤ}
    (hf : c.creates = some (f, ownerId)) : f = task.filename ∧ ownerId = task.userId := by
  cases c <;> simp only [WorkerCall.creates, Option.some.injEq, Prod.mk.injEq, reduceCtorEq] at hf
  obtain ⟨rfl, rfl⟩ := hf
  exact ⟨h.1, h.2.1⟩

end Entitled

/-! ## Every call of `process_task` is covered -/

/-- All calls of a program are entitled, the checks so far being `g`. -/
abbrev Covered {α : Type} (task : TaskMessage) (g : Standing) (prog : Prog WorkerCall α) : Prop :=
  Obeys (standing task) (Entitled task) (fun _ => True) g prog

theorem covered_answer (result : String) (status : Status) (message data : Bytes) :
    Covered task g (answer task result status message data) := by
  simp only [answer, audit, perform_bind, pure_eq_ret]
  exact ⟨trivial, fun _ => trivial⟩

/-- After the ownership check the user is the owner, or the task is refused. -/
theorem covered_notOwner {α : Type} {i : Slot} {next : Bool → Prog WorkerCall α}
    (hslot : g.slot = some i) (hadmin : task.role = roleAdmin → g.owner = true)
    (hrefused : ∀ g : Standing, g.slot = some i → Covered task g (next true))
    (hpassed : ∀ g' : Standing, g'.slot = some i → g'.owner = true → g'.lock = g.lock →
      Covered task g' (next false)) : Covered task g (notOwner task i >>= next) := by
  unfold notOwner
  split
  · next hrole => exact hpassed g hslot (hadmin hrole) rfl
  · simp only [perform_bind, call_bind, pure_eq_ret, ret_bind]
    refine ⟨hslot, fun owner => ?_⟩
    dsimp only
    cases howner : owner != task.userId with
    | true => exact hrefused _ hslot
    | false =>
        have heq : (owner == task.userId) = true := by
          rw [bne, Bool.not_eq_false'] at howner
          exact howner
        refine hpassed _ hslot ?_ rfl
        simp only [standing, heq, Bool.or_true]

/-- After the lock check no other user holds the lock, or the task is refused. -/
theorem covered_lockedByOther {α : Type} {i : Slot} {next : Bool → Prog WorkerCall α}
    (hslot : g.slot = some i)
    (hrefused : ∀ g : Standing, g.slot = some i → Covered task g (next true))
    (hpassed : ∀ g' : Standing, g'.slot = some i → g'.owner = g.owner → g'.lock = true →
      Covered task g' (next false)) : Covered task g (lockedByOther task i >>= next) := by
  unfold lockedByOther
  simp only [perform_bind, call_bind]
  refine ⟨hslot, fun holder => ?_⟩
  dsimp only
  split
  · next hfree =>
    refine hpassed _ hslot rfl ?_
    simp only [standing, hfree, beq_self_eq_true, Bool.true_or]
  · simp only [call_bind, pure_eq_ret, ret_bind]
    refine ⟨hslot, fun holder => ?_⟩
    dsimp only
    cases hholder : holder != task.userId with
    | true => exact hrefused _ hslot
    | false =>
        have heq : (holder == task.userId) = true := by
          rw [bne, Bool.not_eq_false'] at hholder
          exact hholder
        refine hpassed _ hslot rfl ?_
        simp only [standing, heq, Bool.or_true]

theorem covered_uploadWrite (hop : task.operation = .upload) (howner : g.owner = true)
    (hlock : g.lock = true) : Covered task g (uploadWrite task) := by
  have hmodifies : task.operation.modifies = true := by rw [hop]; rfl
  simp only [uploadWrite, perform_bind]
  refine ⟨⟨rfl, hmodifies, Or.inl howner, hlock⟩, fun saved => ?_⟩
  dsimp only
  split
  · exact covered_answer _ _ _ _
  · refine ⟨⟨rfl, rfl, hop, howner, hlock⟩, fun added => ?_⟩
    dsimp only
    split
    · exact ⟨⟨rfl, hmodifies, howner, hlock⟩, fun _ => covered_answer _ _ _ _⟩
    · exact covered_answer _ _ _ _

theorem covered_uploadOwned (hop : task.operation = .upload) (hlock : g.lock = true) :
    Covered task g (uploadOwned task) := by
  have hmodifies : task.operation.modifies = true := by rw [hop]; rfl
  simp only [uploadOwned, perform_bind]
  refine ⟨rfl, fun found => ?_⟩
  cases found with
  | none => exact covered_uploadWrite hop rfl rfl
  | some i =>
      refine covered_notOwner rfl (fun hrole => by simp only [standing, hrole]; rfl)
        (fun g hslot => ⟨hslot, fun _ => covered_answer _ _ _ _⟩) fun g' hslot howner hlock' => ?_
      refine ⟨hslot, fun version => ⟨⟨rfl, hmodifies, Or.inl howner⟩, fun _ => ?_⟩⟩
      exact covered_uploadWrite hop howner (hlock'.trans hlock)

theorem covered_processUpload (hop : task.operation = .upload) :
    Covered task g (processUpload task) := by
  have hmodifies : task.operation.modifies = true := by rw [hop]; rfl
  simp only [processUpload, perform_bind]
  refine ⟨⟨rfl, hmodifies⟩, fun ⟨locked, locker⟩ => ?_⟩
  cases locked with
  | false => exact covered_uploadOwned hop rfl
  | true =>
      refine ⟨rfl, fun found => ?_⟩
      cases found with
      | none => exact covered_uploadOwned hop rfl
      | some i =>
          refine ⟨rfl, fun holder => ?_⟩
          dsimp only
          split
          · exact covered_answer _ _ _ _
          · next hholder =>
            apply covered_uploadOwned hop
            simp only [standing, not_not.mp hholder, beq_self_eq_true, Bool.or_true]

theorem covered_processDownload : Covered task g (processDownload task) := by
  simp only [processDownload, perform_bind]
  refine ⟨rfl, fun found => ?_⟩
  cases found with
  | none => exact covered_answer _ _ _ _
  | some i =>
      refine ⟨rfl, fun ⟨result, bytes⟩ => ?_⟩
      dsimp only
      split <;> exact covered_answer _ _ _ _

theorem covered_processDelete (hop : task.operation = .delete) :
    Covered task g (processDelete task) := by
  have hmodifies : task.operation.modifies = true := by rw [hop]; rfl
  simp only [processDelete, perform_bind]
  refine ⟨rfl, fun found => ?_⟩
  cases found with
  | none => exact covered_answer _ _ _ _
  | some i =>
      refine covered_notOwner rfl (fun hrole => by simp only [standing, hrole]; rfl)
        (fun g _ => covered_answer _ _ _ _) fun g₁ hslot howner _ => ?_
      refine covered_lockedByOther hslot
        (fun g hslot => ⟨hslot, fun _ => covered_answer _ _ _ _⟩) fun g₂ _ howner' hlock => ?_
      refine ⟨⟨rfl, hmodifies, howner'.trans howner, hlock⟩, fun removed => ?_⟩
      dsimp only
      split
      · exact covered_answer _ _ _ _
      · refine ⟨⟨rfl, hmodifies, howner'.trans howner, hlock⟩, fun removed => ?_⟩
        dsimp only
        split <;> exact covered_answer _ _ _ _

theorem covered_processVersion : Covered task g (processVersion task) := by
  simp only [processVersion, perform_bind]
  refine ⟨rfl, fun ⟨result, info⟩ => ?_⟩
  dsimp only
  split <;> trivial

theorem covered_processEdit (hop : task.operation = .edit) :
    Covered task g (processEdit task) := by
  have hmodifies : task.operation.modifies = true := by rw [hop]; rfl
  simp only [processEdit, perform_bind]
  refine ⟨rfl, fun found => ?_⟩
  cases found with
  | none => exact covered_answer _ _ _ _
  | some i =>
      refine covered_notOwner rfl (fun hrole => by simp only [standing, hrole]; rfl)
        (fun g hslot => ⟨hslot, fun _ => covered_answer _ _ _ _⟩) fun g₁ hslot howner _ => ?_
      refine ⟨⟨rfl, rfl, hop, howner⟩, fun lockResult => ?_⟩
      dsimp only
      split
      · exact covered_answer _ _ _ _
      · split
        · exact ⟨⟨rfl, hmodifies⟩, fun _ => covered_answer _ _ _ _⟩
        · refine ⟨rfl, fun ⟨result, bytes⟩ => ?_⟩
          dsimp only
          split
          · exact ⟨⟨rfl, rfl, hmodifies⟩, fun _ => covered_answer _ _ _ _⟩
          · exact covered_answer _ _ _ _

theorem covered_saveWrite (hop : task.operation = .save) {i : Slot} (hslot : g.slot = some i)
    (hlock : g.lock = true) (hholder : g.holder = true) :
    Covered task g (saveWrite task i) := by
  have hmodifies : task.operation.modifies = true := by rw [hop]; rfl
  have hauthority : Authority task g := Or.inr ⟨hop, hholder⟩
  simp only [saveWrite, perform_bind]
  refine ⟨hslot, fun version => ⟨⟨rfl, hmodifies, hauthority⟩, fun _ =>
    ⟨⟨rfl, hmodifies, hauthority, hlock⟩, fun saved => ?_⟩⟩⟩
  dsimp only
  split
  · exact covered_answer _ _ _ _
  · refine ⟨⟨rfl, hmodifies, hauthority⟩, fun updated => ?_⟩
    dsimp only
    split
    · exact covered_answer _ _ _ _
    · exact ⟨⟨rfl, rfl, hmodifies⟩, fun _ => covered_answer _ _ _ _⟩

theorem covered_processSave (hop : task.operation = .save) :
    Covered task g (processSave task) := by
  unfold processSave
  split
  · exact covered_answer _ _ _ _
  · simp only [perform_bind]
    refine ⟨rfl, fun found => ?_⟩
    cases found with
    | none => trivial
    | some i =>
        refine ⟨rfl, fun holder => ?_⟩
        dsimp only
        split
        · exact covered_answer _ _ _ _
        · next hholder =>
          have heq : holder = task.userId := not_not.mp hholder
          refine covered_saveWrite hop rfl ?_ ?_
          · simp only [standing, heq, beq_self_eq_true, Bool.or_true]
          · simp only [standing, heq, beq_self_eq_true]

theorem covered_processUnlock (hop : task.operation = .unlock) :
    Covered task g (processUnlock task) := by
  have hmodifies : task.operation.modifies = true := by rw [hop]; rfl
  simp only [processUnlock, perform_bind]
  refine ⟨⟨rfl, rfl, hmodifies⟩, fun result => ?_⟩
  dsimp only
  split
  · exact covered_answer _ _ _ _
  · split <;> exact covered_answer _ _ _ _

theorem covered_processHistory : Covered task g (processHistory task) := by
  simp only [processHistory, perform_bind]
  refine ⟨rfl, fun found => ?_⟩
  cases found with
  | none => trivial
  | some i => exact ⟨rfl, fun _ => trivial⟩

theorem covered_rollbackRestore (hop : task.operation = .rollback) {i : Slot}
    (hslot : g.slot = some i) (howner : g.owner = true) (hlock : g.lock = true) :
    Covered task g (rollbackRestore task i) := by
  have hmodifies : task.operation.modifies = true := by rw [hop]; rfl
  simp only [rollbackRestore, perform_bind]
  refine ⟨hslot, fun version => ⟨⟨rfl, hmodifies, Or.inl howner⟩, fun _ =>
    ⟨⟨rfl, hmodifies, howner, hlock⟩, fun newSize => ?_⟩⟩⟩
  dsimp only
  split
  · exact covered_answer _ _ _ _
  · exact ⟨⟨rfl, hmodifies, Or.inl howner⟩, fun _ => covered_answer _ _ _ _⟩

theorem covered_processRollback (hop : task.operation = .rollback) :
    Covered task g (processRollback task) := by
  simp only [processRollback, perform_bind]
  refine ⟨rfl, fun found => ?_⟩
  cases found with
  | none => exact covered_answer _ _ _ _
  | some i =>
      refine covered_notOwner rfl (fun hrole => by simp only [standing, hrole]; rfl)
        (fun g hslot => ⟨hslot, fun _ => covered_answer _ _ _ _⟩) fun g₁ hslot howner _ => ?_
      refine covered_lockedByOther hslot (fun g hslot => ⟨hslot, fun _ => trivial⟩)
        fun g₂ hslot' howner' hlock => ?_
      exact covered_rollbackRestore hop hslot' (howner'.trans howner) hlock

theorem covered_processDelversion (hop : task.operation = .delversion) :
    Covered task g (processDelversion task) := by
  have hmodifies : task.operation.modifies = true := by rw [hop]; rfl
  simp only [processDelversion, perform_bind]
  refine ⟨rfl, fun found => ?_⟩
  cases found with
  | none => exact covered_answer _ _ _ _
  | some i =>
      refine covered_notOwner rfl (fun hrole => by simp only [standing, hrole]; rfl)
        (fun g _ => covered_answer _ _ _ _) fun g₁ hslot howner _ => ?_
      refine ⟨⟨rfl, hmodifies, howner⟩, fun deleted => ?_⟩
      dsimp only
      split <;> exact covered_answer _ _ _ _

/-- Every call of `process_task` is covered by the checks made before it. -/
theorem processTask_covered (task : TaskMessage) (g : Standing) :
    Covered task g (processTask task) := by
  unfold processTask
  split
  · next hop => exact covered_processUpload hop
  · exact covered_processDownload
  · next hop => exact covered_processDelete hop
  · exact ⟨trivial, fun _ => trivial⟩
  · exact covered_processVersion
  · next hop => exact covered_processEdit hop
  · next hop => exact covered_processSave hop
  · next hop => exact covered_processUnlock hop
  · exact covered_processHistory
  · next hop => exact covered_processRollback hop
  · exact ⟨trivial, fun _ => trivial⟩
  · next hop => exact covered_processDelversion hop
  · trivial

end CloudSync
