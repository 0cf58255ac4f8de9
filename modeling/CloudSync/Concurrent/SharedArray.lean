import CloudSync.MetadataSteps
import CloudSync.State.Leases

/-!
# The shared array under its semaphore

`Metadata.lean` takes each function of the shared array for one step.  This file says why
it may: the steps of `MetadataSteps.lean`, run by any number of processes between
`sem_lock` and `sem_unlock`, come to the same.

* `sectionOf_run`: run alone, the steps of a function do what the function does in
  `Metadata.lean`.
* `keeps_unique`: no step, not even the last before a process is killed, leaves two active
  slots with one name.
-/

namespace CloudSync

open CText Calls Calls.Prog CriticalSections MessageQueue

/-- The functions that processes call on the shared array; the filename is that of a
task. -/
inductive ArrayCall : Type → Type
  | addFileMetadata (filename : Filename) (ownerName : Bytes) (ownerId size : ℤ) : ArrayCall ℤ
  | updateFileMetadata (filename : Filename) (size : ℤ) : ArrayCall ℤ
  | removeFileMetadata (filename : Filename) : ArrayCall ℤ
  | findFileMetadata (filename : Filename) : ArrayCall (Option Slot)
  | acquireEditLock (filename : Filename) (userId : ℤ) (username : Bytes) : ArrayCall ℤ
  | releaseEditLock (filename : Filename) (userId : ℤ) : ArrayCall ℤ
  | checkEditLock (filename : Filename) : ArrayCall (Bool × Bytes)
  | listAllFiles (maxSize : ℕ) : ArrayCall (ℕ × Bytes)
  | getFileVersion (filename : Filename) (maxSize : ℕ) (date : ℤ → Bytes) : ArrayCall (ℤ × Bytes)

/-- What stands between `sem_lock` and `sem_unlock`. -/
def sectionOf : {β : Type} → ArrayCall β → Prog MetaStep β
  | _, .addFileMetadata filename ownerName ownerId size =>
      addSection filename ownerName ownerId size
  | _, .updateFileMetadata filename size => updateSection filename size
  | _, .removeFileMetadata filename => removeSection filename
  | _, .findFileMetadata filename => scanFor filename slots
  | _, .acquireEditLock filename userId username => acquireSection filename userId username
  | _, .releaseEditLock filename userId => releaseSection filename userId
  | _, .checkEditLock filename => checkSection filename
  | _, .listAllFiles maxSize => listSection maxSize
  | _, .getFileVersion filename maxSize date => versionSection filename maxSize date

/-- The functions as `Metadata.lean` has them. -/
def metadataModule : Handler ArrayCall ℤ MetaArray where
  exec := fun now call metaArray =>
    match call with
    | .addFileMetadata filename ownerName ownerId size =>
        addFileMetadata metaArray filename ownerName ownerId size now
    | .updateFileMetadata filename size => updateFileMetadata metaArray filename size now
    | .removeFileMetadata filename => removeFileMetadata metaArray filename
    | .findFileMetadata filename => (findFileMetadata metaArray filename, metaArray)
    | .acquireEditLock filename userId username =>
        acquireEditLock metaArray filename userId username now
    | .releaseEditLock filename userId => releaseEditLock metaArray filename userId
    | .checkEditLock filename => checkEditLock metaArray filename now
    | .listAllFiles maxSize => (listAllFiles metaArray maxSize, metaArray)
    | .getFileVersion filename maxSize date =>
        (getFileVersion metaArray filename maxSize date, metaArray)

/-! ## A section run alone -/

/-- A section run alone, at one time. -/
abbrev alone {α : Type} (now : ℤ) (steps : Prog MetaStep α) (metaArray : MetaArray) :
    α × MetaArray :=
  steps.run metaSteps (fun _ => now) metaArray

variable {α : Type} {now : ℤ} {metaArray : MetaArray} {filename : Bytes}

/-- The scan for a name finds what `findSlot` finds, and changes nothing. -/
theorem scanFor_bind_run (f : Option Slot → Prog MetaStep α) :
    alone now (scanFor filename slots >>= f) metaArray =
      alone now (f (findSlot metaArray filename)) metaArray := by
  suffices hscan : ∀ l : List Slot, alone now (scanFor filename l >>= f) metaArray =
      alone now (f (l.find? fun i =>
        (metaArray i).isActive && (metaArray i).filename == filename)) metaArray from hscan _
  intro l
  induction l with
  | nil => rfl
  | cons i rest ih =>
      simp only [alone, scanFor, perform_bind, call_bind, run_call, exec_isActive,
        List.find?_cons] at ih ⊢
      by_cases hactive : (metaArray i).isActive = true
      · by_cases hname : (metaArray i).filename = filename
        · simp [hactive, hname, TextField.get]
        · have hother := beq_eq_false_iff_ne.mpr hname
          simpa [hactive, hname, hother, TextField.get] using ih
      · simpa [hactive] using ih

theorem scanFor_run : (scanFor filename slots).run metaSteps (fun _ => now) metaArray =
    (findSlot metaArray filename, metaArray) := by
  rw [← bind_ret (scanFor filename slots)]
  exact scanFor_bind_run ret

/-- The scan for an empty slot finds what `emptySlot` finds, and changes nothing. -/
theorem scanEmpty_bind_run (f : Option Slot → Prog MetaStep α) :
    alone now (scanEmpty slots >>= f) metaArray = alone now (f (emptySlot metaArray)) metaArray := by
  suffices hscan : ∀ l : List Slot, alone now (scanEmpty l >>= f) metaArray =
      alone now (f (l.find? fun i => !(metaArray i).isActive)) metaArray from hscan _
  intro l
  induction l with
  | nil => rfl
  | cons i rest ih =>
      simp only [alone, scanEmpty, perform_bind, call_bind, run_call, exec_isActive,
        List.find?_cons] at ih ⊢
      by_cases hactive : (metaArray i).isActive = true
      · simpa [hactive] using ih
      · simp [hactive]

theorem scanEmpty_run : (scanEmpty slots).run metaSteps (fun _ => now) metaArray =
    (emptySlot metaArray, metaArray) := by
  rw [← bind_ret (scanEmpty slots)]
  exact scanEmpty_bind_run ret

/-- The assignments of `stepVersion` are one overwriting of the record. -/
theorem stepVersion_run (i : Slot) (size : ℤ) :
    alone now (stepVersion i size) metaArray =
      (0, Function.update metaArray i
        { metaArray i with
          version := int32 ((metaArray i).version + 1)
          fileSize := size
          lastModified := now }) := by
  simp [alone, stepVersion, perform, NumberField.get, NumberField.set]

/-- The assignments of `acquire_edit_lock` are one overwriting. -/
theorem takeLock_run (i : Slot) (userId : ℤ) (username : Bytes) :
    alone now (takeLock i userId username) metaArray =
      (0, Function.update metaArray i
        { metaArray i with
          lockedByUserId := userId
          lockedByUsername := strncpy (maxUsername - 1) username
          lockAcquiredAt := now }) := by
  simp [alone, takeLock, perform, NumberField.set, TextField.set]

/-- The columns and rows are read without changing anything. -/
theorem lockColumnOf_bind_run (i : Slot) (f : Bytes → Prog MetaStep α) :
    alone now (lockColumnOf i >>= f) metaArray = alone now (f (lockColumn (metaArray i))) metaArray := by
  unfold lockColumnOf lockColumn
  by_cases hfree : (metaArray i).lockedByUserId = -1 <;>
    simp [alone, hfree, NumberField.get, TextField.get]

theorem rowOf_bind_run (i : Slot) (f : Bytes → Prog MetaStep α) :
    alone now (rowOf i >>= f) metaArray = alone now (f (listRow (metaArray i))) metaArray := by
  unfold rowOf
  rw [bind_assoc, lockColumnOf_bind_run]
  rfl

theorem lockInfoOf_bind_run (i : Slot) (f : Bytes → Prog MetaStep α) :
    alone now (lockInfoOf i >>= f) metaArray =
      alone now (f (if (metaArray i).lockedByUserId ≠ -1 then
        snprintf 64 (text "Locked by " ++ (metaArray i).lockedByUsername)
        else text "Unlocked")) metaArray := by
  unfold lockInfoOf
  by_cases hfree : (metaArray i).lockedByUserId = -1 <;>
    simp [alone, hfree, NumberField.get, TextField.get]

/-- The row loop prints what `listRows` prints. -/
theorem rowsSection_bind_run (maxSize : ℕ) (f : Output × ℕ → Prog MetaStep α) (l : List Slot)
    (acc : Output × ℕ) :
    alone now (rowsSection maxSize l acc >>= f) metaArray =
      alone now (f (listRows metaArray maxSize l acc)) metaArray := by
  induction l generalizing acc with
  | nil => rfl
  | cons i rest ih =>
      obtain ⟨out, count⟩ := acc
      unfold rowsSection listRows
      by_cases hroom : (out.offset : ℤ) < maxSize - 120
      · rw [if_pos hroom, if_pos hroom]
        by_cases hactive : (metaArray i).isActive = true
        · rw [if_pos hactive, ← ih, ← rowOf_bind_run i fun row =>
            rowsSection maxSize rest (out.print maxSize row, count + 1) >>= f]
          simp [alone, hactive, bind_assoc]
        · rw [if_neg hactive, ← ih]
          simp [alone, hactive]
      · rw [if_neg hroom, if_neg hroom]
        rfl

/-- The steps between `sem_lock` and `sem_unlock` do what the function does. -/
theorem sectionOf_run {β : Type} (c : ArrayCall β) (now : ℤ) (metaArray : MetaArray) :
    alone now (sectionOf c) metaArray = metadataModule.exec now c metaArray := by
  cases c with
  | addFileMetadata filename ownerName ownerId size =>
      show alone now (addSection filename.1 ownerName ownerId size) metaArray =
        addFileMetadata metaArray filename.1 ownerName ownerId size now
      unfold addSection addFileMetadata
      rw [scanFor_bind_run]
      cases findSlot metaArray filename.1 with
      | some i => exact stepVersion_run i size
      | none =>
          dsimp only
          rw [scanEmpty_bind_run]
          cases emptySlot metaArray with
          | some i => simp [alone, fillSlot, perform, NumberField.set, TextField.set]
          | none => rfl
  | updateFileMetadata filename size =>
      show alone now (updateSection filename.1 size) metaArray =
        updateFileMetadata metaArray filename.1 size now
      unfold updateSection updateFileMetadata
      rw [scanFor_bind_run]
      cases findSlot metaArray filename.1 with
      | some i => exact stepVersion_run i size
      | none => rfl
  | removeFileMetadata filename =>
      show alone now (removeSection filename.1) metaArray = removeFileMetadata metaArray filename.1
      unfold removeSection removeFileMetadata
      rw [scanFor_bind_run]
      cases findSlot metaArray filename.1 with
      | some i => simp [alone, perform, NumberField.set]
      | none => rfl
  | findFileMetadata filename => exact scanFor_run
  | acquireEditLock filename userId username =>
      show alone now (acquireSection filename.1 userId username) metaArray =
        acquireEditLock metaArray filename.1 userId username now
      unfold acquireSection acquireEditLock
      rw [scanFor_bind_run]
      cases findSlot metaArray filename.1 with
      | none => rfl
      | some i =>
          have hgranted := @takeLock_run now metaArray i userId username
          by_cases hfree : (metaArray i).lockedByUserId = -1
          · simpa [alone, hfree, NumberField.get] using hgranted
          · by_cases hstale : now - (metaArray i).lockAcquiredAt > lockTimeoutSecs
            · simpa [alone, hfree, hstale, NumberField.get] using hgranted
            · obtain rfl | hother := eq_or_ne (metaArray i).lockedByUserId userId
              · simp [alone, hfree, hstale, NumberField.get]
              · simp [alone, hfree, hstale, hother, NumberField.get]
  | releaseEditLock filename userId =>
      show alone now (releaseSection filename.1 userId) metaArray =
        releaseEditLock metaArray filename.1 userId
      unfold releaseSection releaseEditLock
      rw [scanFor_bind_run]
      cases findSlot metaArray filename.1 with
      | none => rfl
      | some i =>
          by_cases hfree : (metaArray i).lockedByUserId = -1
          · simp [alone, hfree, NumberField.get]
          · obtain rfl | hother := eq_or_ne (metaArray i).lockedByUserId userId
            · simp [alone, hfree, NumberField.get, NumberField.set, TextField.set]
            · simp [alone, hfree, hother, NumberField.get]
  | checkEditLock filename =>
      show alone now (checkSection filename.1) metaArray = checkEditLock metaArray filename.1 now
      unfold checkSection checkEditLock
      rw [scanFor_bind_run]
      cases findSlot metaArray filename.1 with
      | none => rfl
      | some i =>
          by_cases hfree : (metaArray i).lockedByUserId = -1
          · simp [alone, hfree, NumberField.get]
          · by_cases hstale : now - (metaArray i).lockAcquiredAt > lockTimeoutSecs <;>
              simp [alone, hfree, hstale, NumberField.get, NumberField.set, TextField.get]
  | listAllFiles maxSize =>
      show alone now (listSection maxSize) metaArray = (listAllFiles metaArray maxSize, metaArray)
      unfold listSection
      rw [rowsSection_bind_run]
      rfl
  | getFileVersion filename maxSize date =>
      show alone now (versionSection filename.1 maxSize date) metaArray =
        (getFileVersion metaArray filename.1 maxSize date, metaArray)
      unfold versionSection getFileVersion
      rw [scanFor_bind_run]
      cases findSlot metaArray filename.1 with
      | none => rfl
      | some i =>
          show alone now (lockInfoOf i >>= _) metaArray = _
          rw [lockInfoOf_bind_run]
          rfl

/-! ## What every step keeps -/

/-- The step neither makes a slot active nor names one. -/
def MetaStep.Harmless : {β : Type} → MetaStep β → Prop
  | _, .setActive _ value => value = false
  | _, .setText _ field _ => field ≠ .filename
  | _, _ => True

/-- A slot may be overwritten as long as it is not made active and keeps its name. -/
theorem UniqueNames.overwrite {i : Slot} {r : FileMetadata} (hunique : UniqueNames metaArray)
    (hactive : r.isActive = true → (metaArray i).isActive = true)
    (hname : r.filename = (metaArray i).filename) :
    UniqueNames (Function.update metaArray i r) := by
  have hshown : ∀ j, (Function.update metaArray i r j).isActive = true →
      (metaArray j).isActive = true ∧
        (Function.update metaArray i r j).filename = (metaArray j).filename := by
    intro j hj
    by_cases hji : j = i
    · subst hji
      rw [Function.update_self] at hj ⊢
      exact ⟨hactive hj, hname⟩
    · rw [Function.update_of_ne hji] at hj ⊢
      exact ⟨hj, rfl⟩
  intro j k hj hk hjk
  obtain ⟨hj, hjname⟩ := hshown j hj
  obtain ⟨hk, hkname⟩ := hshown k hk
  exact hunique j k hj hk (hjname.symm.trans (hjk.trans hkname))

theorem unique_exec {β : Type} (step : MetaStep β) (metaArray : MetaArray)
    (hunique : UniqueNames metaArray) (hharmless : step.Harmless) :
    UniqueNames (metaSteps.exec now step metaArray).2 := by
  cases step with
  | isActive i => exact hunique
  | number i field => exact hunique
  | text i field => exact hunique
  | time => exact hunique
  | setActive i value =>
      obtain rfl : value = false := hharmless
      exact hunique.overwrite (fun hactive => Bool.noConfusion hactive) rfl
  | setNumber i field value =>
      cases field <;> exact hunique.overwrite id rfl
  | setText i field value =>
      cases field with
      | filename => exact absurd rfl hharmless
      | ownerName => exact hunique.overwrite id rfl
      | lockedByUsername => exact hunique.overwrite id rfl

/-- All steps of the program are harmless, whatever they answer. -/
abbrev HarmlessSteps (steps : Prog MetaStep α) : Prop :=
  Obeys (Monitor.silent MetaStep) (fun _ {_} step => step.Harmless) (fun _ => True) () steps

section Harmless

theorem harmless_scanFor (filename : Bytes) (l : List Slot) :
    HarmlessSteps (scanFor filename l) := by
  induction l with
  | nil => trivial
  | cons i rest ih =>
      refine ⟨trivial, fun active => ?_⟩
      exact obeys_ite ⟨trivial, fun name => obeys_ite trivial ih⟩ ih

theorem harmless_scanEmpty (l : List Slot) : HarmlessSteps (scanEmpty l) := by
  induction l with
  | nil => trivial
  | cons i rest ih => exact ⟨trivial, fun active => obeys_ite ih trivial⟩

/-- A section that goes on harmlessly with the slot it finds. -/
theorem harmless_find {next : Option Slot → Prog MetaStep α}
    (hnone : HarmlessSteps (next none)) (hsome : ∀ i, HarmlessSteps (next (some i))) :
    HarmlessSteps (scanFor filename slots >>= next) := by
  refine (harmless_scanFor filename slots).bind fun _ found _ => ?_
  cases found with
  | none => exact hnone
  | some i => exact hsome i

theorem harmless_stepVersion (i : Slot) (size : ℤ) : HarmlessSteps (stepVersion i size) :=
  ⟨trivial, fun _ => ⟨trivial, fun _ => ⟨trivial, fun _ => ⟨trivial, fun _ =>
    ⟨trivial, fun _ => trivial⟩⟩⟩⟩⟩

theorem harmless_takeLock (i : Slot) (userId : ℤ) (username : Bytes) :
    HarmlessSteps (takeLock i userId username) :=
  ⟨trivial, fun _ => ⟨TextField.noConfusion, fun _ => ⟨trivial, fun _ =>
    ⟨trivial, fun _ => trivial⟩⟩⟩⟩

theorem harmless_lockColumnOf (i : Slot) : HarmlessSteps (lockColumnOf i) :=
  ⟨trivial, fun _ => obeys_ite ⟨trivial, fun _ => trivial⟩ trivial⟩

theorem harmless_lockInfoOf (i : Slot) : HarmlessSteps (lockInfoOf i) :=
  ⟨trivial, fun _ => obeys_ite ⟨trivial, fun _ => trivial⟩ trivial⟩

theorem harmless_rowOf (i : Slot) : HarmlessSteps (rowOf i) := by
  refine (harmless_lockColumnOf i).bind fun _ lock _ => ?_
  exact ⟨trivial, fun _ => ⟨trivial, fun _ => ⟨trivial, fun _ => ⟨trivial, fun _ => trivial⟩⟩⟩⟩

theorem harmless_rowsSection (maxSize : ℕ) (l : List Slot) (acc : Output × ℕ) :
    HarmlessSteps (rowsSection maxSize l acc) := by
  induction l generalizing acc with
  | nil => trivial
  | cons i rest ih =>
      refine obeys_ite ⟨trivial, fun active => obeys_ite ?_ (ih _)⟩ trivial
      exact (harmless_rowOf i).bind fun _ row _ => ih _

end Harmless

/-- No other slot carries the name the slot is given. -/
theorem keeps_fillSlot {i : Slot} {ownerName : Bytes} {ownerId size : ℤ}
    (hunique : UniqueNames metaArray) (hfind : findSlot metaArray filename = none)
    (hfits : filename.length < maxFilename) :
    Guarded.Keeps metaSteps UniqueNames now (fillSlot i filename ownerName ownerId size)
      metaArray := by
  have hcopy : strncpy (maxFilename - 1) filename = filename :=
    List.take_of_length_le (Nat.le_sub_one_of_lt hfits)
  have hkept : ∀ r : FileMetadata, r.filename = filename →
      UniqueNames (Function.update metaArray i r) :=
    fun r hr => hunique.update (sole_of_none hfind i) fun _ => hr
  simp [fillSlot, perform, Guarded.Keeps, Always, NumberField.set, TextField.set, hkept, hcopy,
    hunique]

/-- Whatever a section has done so far, names are unique. -/
theorem keeps_unique {β : Type} (c : ArrayCall β) (now : ℤ) (metaArray : MetaArray)
    (hunique : UniqueNames metaArray) :
    Guarded.Keeps metaSteps UniqueNames now (sectionOf c) metaArray := by
  have hkeeps : ∀ {γ : Type} {steps : Prog MetaStep γ}, HarmlessSteps steps →
      Guarded.Keeps metaSteps UniqueNames now steps metaArray :=
    fun hsteps => Guarded.keeps_of_obeys unique_exec hsteps hunique
  cases c with
  | addFileMetadata filename ownerName ownerId size =>
      apply Guarded.keeps_bind (hkeeps (harmless_scanFor filename.1 slots))
      rw [scanFor_run]
      cases hfind : findSlot metaArray filename.1 with
      | some i => exact hkeeps (harmless_stepVersion i size)
      | none =>
          apply Guarded.keeps_bind (hkeeps (harmless_scanEmpty slots))
          rw [scanEmpty_run]
          cases emptySlot metaArray with
          | some i => exact keeps_fillSlot hunique hfind filename.2
          | none => exact hunique
  | updateFileMetadata filename size =>
      exact hkeeps (harmless_find trivial fun i => harmless_stepVersion i size)
  | removeFileMetadata filename =>
      refine hkeeps (harmless_find trivial fun i => ?_)
      exact ⟨rfl, fun _ => ⟨trivial, fun _ => trivial⟩⟩
  | findFileMetadata filename => exact hkeeps (harmless_scanFor filename.1 slots)
  | acquireEditLock filename userId username =>
      refine hkeeps (harmless_find trivial fun i => ?_)
      have htake := harmless_takeLock i userId username
      refine ⟨trivial, fun holder => obeys_ite ?_ htake⟩
      refine ⟨trivial, fun now => ⟨trivial, fun since => obeys_ite htake ?_⟩⟩
      exact ⟨trivial, fun holder => obeys_ite trivial trivial⟩
  | releaseEditLock filename userId =>
      refine hkeeps (harmless_find trivial fun i => ?_)
      refine ⟨trivial, fun holder => obeys_ite trivial ⟨trivial, fun holder => obeys_ite trivial ?_⟩⟩
      exact ⟨trivial, fun _ => ⟨TextField.noConfusion, fun _ => ⟨trivial, fun _ => trivial⟩⟩⟩
  | checkEditLock filename =>
      refine hkeeps (harmless_find trivial fun i => ?_)
      refine ⟨trivial, fun holder => obeys_ite ?_ trivial⟩
      exact ⟨trivial, fun now => ⟨trivial, fun since => obeys_ite ⟨trivial, fun _ => trivial⟩
        ⟨trivial, fun _ => trivial⟩⟩⟩
  | listAllFiles maxSize =>
      refine hkeeps ((harmless_rowsSection maxSize slots _).bind fun _ rows _ => ?_)
      trivial
  | getFileVersion filename maxSize date =>
      refine hkeeps (harmless_find trivial fun i => ?_)
      refine ⟨trivial, fun created => ⟨trivial, fun lastModified => ?_⟩⟩
      refine (harmless_lockInfoOf i).bind fun _ lockInfo _ => ?_
      exact ⟨trivial, fun _ => ⟨trivial, fun _ => ⟨trivial, fun _ => ⟨trivial, fun _ => trivial⟩⟩⟩⟩

/-! ## Any number of processes -/

variable {ι : Type} [DecidableEq ι]

/-- Start with the array of `init_metadata`, and let any number of processes call its
functions step by step, each between `sem_lock` and `sem_unlock`.  In every run in which no
wait for the semaphore is interrupted by a signal, wherever processes are killed,

* no two active slots ever carry one name, also while a section is going on or after it
  was abandoned,
* no two processes are ever in their sections at the same time, and
* every process that has a call to make can still come to return from it, nobody being
  interrupted or killed in a section on the way. -/
theorem array_stays_in_order {prog : ι → Prog ArrayCall α}
    {g : Guarded ArrayCall MetaStep ℤ α ι MetaArray}
    (hquiet : Guarded.Quiet sectionOf metaSteps prog initMetadata g) :
    UniqueNames g.shared ∧
    (∀ i j, (g.process i).isInside = true → (g.process j).isInside = true → i = j) ∧
    ∀ (i : ι) (β : Type) (c : ArrayCall β) (next : β → Prog ArrayCall α),
      g.process i = .outside (.call c next) →
      ∃ g' value, Reached (Guarded.step sectionOf metaSteps) (Guarded.SameCounts g) g g' ∧
        g'.process i = .outside (next value) := by
  have hexclusive := Guarded.exclusive_of_quiet hquiet
  refine ⟨?_, fun i j hi hj => hexclusive.eq_of_inside hi hj, fun i β c next hprocess => ?_⟩
  · exact Guarded.kept_of_quiet initMetadata_unique keeps_unique hquiet
  · exact hexclusive.exists_return .first hprocess 0 fun g' hsame => hsame

/-- Of two processes, the first uploads a new file and the second looks whether it is
locked. -/
def uploadAndCheck : Fin 2 → Prog ArrayCall ℤ
  | 0 => perform (.addFileMetadata ⟨text "a", filename_a⟩ (text "u") 1 5)
  | 1 => do
      let lock ← perform (.checkEditLock ⟨text "a", filename_a⟩)
      return if lock.1 then 1 else 0

theorem array_stays_in_order_killed :
    ∃ g : Guarded ArrayCall MetaStep ℤ ℤ (Fin 2) MetaArray,
      g.abandoned = 1 ∧ UniqueNames g.shared ∧
        ∃ g' value, Reached (Guarded.step sectionOf metaSteps) (Guarded.SameCounts g) g g' ∧
          g'.process 1 = .outside (.ret value) := by
  have hkilled : ∃ g, Guarded.Quiet sectionOf metaSteps uploadAndCheck initMetadata g ∧
      g.abandoned = 1 ∧ g.process 1 = .outside (uploadAndCheck 1) :=
    ⟨_, .step (.step (.step .first (.lock 0 7) rfl rfl) (.work 0) rfl rfl) (.kill 0) rfl rfl,
      rfl, rfl⟩
  obtain ⟨g, hquiet, habandoned, hprocess⟩ := hkilled
  obtain ⟨hunique, -, hreturns⟩ := array_stays_in_order hquiet
  obtain ⟨g', value, hreach, hreturned⟩ := hreturns 1 _ _ _ hprocess
  exact ⟨g, habandoned, hunique, g', _, hreach, hreturned⟩

/-- A section taken at once is the function of `Metadata.lean`. -/
theorem atomically_sectionOf :
    Guarded.atomically sectionOf metaSteps = (metadataModule : Handler ArrayCall ℤ MetaArray) := by
  unfold Guarded.atomically
  congr
  funext β now c metaArray
  exact sectionOf_run c now metaArray

/-- If besides nobody is killed inside a section, the processes call the functions of
`Metadata.lean` one at a time: such a run leads every process that is outside to the
same point, and when nobody is in a section it leads to the same array. -/
theorem array_is_atomic {prog : ι → Prog ArrayCall α}
    {g : Guarded ArrayCall MetaStep ℤ α ι MetaArray}
    (hreach : Reached (Guarded.step sectionOf metaSteps)
      (fun g => g.interrupted = 0 ∧ g.abandoned = 0) (Guarded.start prog initMetadata) g) :
    ∃ pool, Reach metadataModule (fun _ => Monitor.silent ArrayCall) (fun _ _ _ => True)
        (Pool.start (fun _ => Monitor.silent ArrayCall) prog initMetadata) pool ∧
      (∀ i rest, g.process i = .outside rest → (pool.thread i).prog = rest) ∧
      ((∀ i, (g.process i).isInside = false) → pool.shared = g.shared) := by
  obtain ⟨pool, hpool, hlinear⟩ := Guarded.exists_atomic hreach
  rw [atomically_sectionOf] at hpool
  exact ⟨pool, hpool, hlinear.outside, hlinear.shared⟩

theorem array_is_atomic_upload :
    ∃ g : Guarded ArrayCall MetaStep ℤ ℤ (Fin 2) MetaArray,
      g.process 0 = .outside (.ret 0) ∧
      ∃ pool, Reach metadataModule (fun _ => Monitor.silent ArrayCall) (fun _ _ _ => True)
          (Pool.start (fun _ => Monitor.silent ArrayCall) uploadAndCheck initMetadata) pool ∧
        (∀ i rest, g.process i = .outside rest → (pool.thread i).prog = rest) ∧
        ((∀ i, (g.process i).isInside = false) → pool.shared = g.shared) := by
  have huploaded : ∃ g, Reached (Guarded.step sectionOf metaSteps)
      (fun g => g.interrupted = 0 ∧ g.abandoned = 0)
      (Guarded.start uploadAndCheck initMetadata) g ∧ g.process 0 = .outside (.ret 0) := by
    have hfirst : Reached (Guarded.step sectionOf metaSteps)
        (fun g => g.interrupted = 0 ∧ g.abandoned = 0)
        (Guarded.start uploadAndCheck initMetadata)
        (Guarded.start uploadAndCheck initMetadata) := .first
    obtain ⟨g, hreach, -, -, hprocess⟩ := Guarded.reached_call (i := 0) hfirst rfl Int.one_pos 7
      fun g' hsame => hsame
    refine ⟨g, hreach, ?_⟩
    rw [hprocess, Function.update_self]
    exact congrArg (fun out => Process.outside (ret out.1)) (sectionOf_run _ 7 initMetadata)
  obtain ⟨g, hreach, hprocess⟩ := huploaded
  exact ⟨g, hprocess, array_is_atomic hreach⟩

end CloudSync
