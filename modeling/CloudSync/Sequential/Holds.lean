import CloudSync.State.Checks

/-!
# A task running alone

When nothing happens between the calls of a task, what it has checked stays
true until it acts on it: `Holds` relates the checks behind a task to the array,
and `holds_exec` is the step.  `serve_invariant` is the invariant rule for one
task: whatever every entitled call keeps, the whole task keeps.
-/

namespace CloudSync

open CText Calls Calls.Prog Files

/-- What the task has checked is so. -/
structure Holds (task : TaskMessage) (g : Standing) (metaArray : MetaArray) : Prop where
  unique : UniqueNames metaArray
  slot : ∀ i ∈ g.slot, findSlot metaArray task.filename = some i
  owner : g.owner = true → task.role = roleAdmin ∨
    ∀ r ∈ record? metaArray task.filename, r.ownerId = task.userId
  lock : g.lock = true → ∀ r ∈ record? metaArray task.filename,
    r.lockedByUserId = -1 ∨ r.lockedByUserId = task.userId
  holder : g.holder = true → ∀ r ∈ record? metaArray task.filename,
    r.lockedByUserId = task.userId

variable {task : TaskMessage} {g : Standing} {metaArray : MetaArray}

theorem holds_start (hunique : UniqueNames metaArray) :
    Holds task (standing task).start metaArray where
  unique := hunique
  slot := fun _ h => absurd h (by simp [standing])
  owner := fun h => Or.inl (by simpa [standing] using h)
  lock := fun h => Bool.noConfusion h
  holder := fun h => Bool.noConfusion h

/-- An answer of `find_file_metadata`. -/
theorem Holds.find (h : Holds task g metaArray) :
    Holds task ((standing task).next g (.findFileMetadata task.filename)
      (findFileMetadata metaArray task.filename)) metaArray := by
  cases hfind : findFileMetadata metaArray task.filename with
  | none =>
      have hnone : record? metaArray task.filename = none := record?_eq_none.mpr hfind
      refine ⟨h.unique, fun _ h => absurd h (by simp [standing]), fun _ => Or.inr ?_, fun _ => ?_,
        fun h => Bool.noConfusion h⟩
      · rw [hnone]; exact fun _ h => absurd h (by simp)
      · rw [hnone]; exact fun _ h => absurd h (by simp)
  | some i =>
      refine ⟨h.unique, ?_, fun howner => Or.inl (by simpa [standing] using howner), h.lock,
        fun h => Bool.noConfusion h⟩
      rintro j hj
      obtain rfl := Option.some.inj hj
      exact hfind

/-- A look at the owner through the record pointer. -/
theorem Holds.readOwner (h : Holds task g metaArray) {i : Slot} (hslot : g.slot = some i) :
    Holds task ((standing task).next g (.ownerId i) (metaArray i).ownerId) metaArray := by
  refine ⟨h.unique, h.slot, fun howner => ?_, h.lock, h.holder⟩
  simp only [standing, Bool.or_eq_true, beq_iff_eq] at howner
  apply howner.imp_right
  intro heq r hr
  rw [record?_of_findSlot (h.slot i hslot)] at hr
  obtain rfl := Option.some.inj hr
  exact heq

/-- A look at the holder of the lock through the record pointer. -/
theorem Holds.readHolder (h : Holds task g metaArray) {i : Slot} (hslot : g.slot = some i) :
    Holds task ((standing task).next g (.lockedByUserId i) (metaArray i).lockedByUserId)
      metaArray := by
  have hrecord := record?_of_findSlot (h.slot i hslot)
  refine ⟨h.unique, h.slot, h.owner, fun hlock r hr => ?_, fun hholder r hr => ?_⟩
  · rw [hrecord] at hr
    obtain rfl := Option.some.inj hr
    simpa [standing] using hlock
  · rw [hrecord] at hr
    obtain rfl := Option.some.inj hr
    simpa [standing] using hholder

/-! ## Calls that change the record -/

/-- The slots carry the names they carried. -/
def SameNames (metaArray metaArray' : MetaArray) : Prop :=
  ∀ i, (metaArray' i).isActive = (metaArray i).isActive ∧
    (metaArray' i).filename = (metaArray i).filename

theorem SameNames.refl (metaArray : MetaArray) : SameNames metaArray metaArray :=
  fun _ => ⟨rfl, rfl⟩

theorem SameNames.update {i : Slot} {r : FileMetadata}
    (hactive : r.isActive = (metaArray i).isActive) (hname : r.filename = (metaArray i).filename) :
    SameNames metaArray (Function.update metaArray i r) := by
  intro j
  by_cases hj : j = i
  · subst hj
    rw [Function.update_self]
    exact ⟨hactive, hname⟩
  · rw [Function.update_of_ne hj]
    exact ⟨rfl, rfl⟩

theorem SameNames.findSlot_eq {metaArray' : MetaArray} (h : SameNames metaArray metaArray')
    (f : Bytes) : findSlot metaArray' f = findSlot metaArray f :=
  findSlot_congr fun i => by rw [(h i).1, (h i).2]

theorem checkEditLock_sameNames (f : Bytes) (now : ℤ) :
    SameNames metaArray (checkEditLock metaArray f now).2 := by
  unfold checkEditLock
  split
  · exact SameNames.refl _
  · split
    · split
      · exact SameNames.update rfl rfl
      · exact SameNames.refl _
    · exact SameNames.refl _

/-- Whatever other slots carry the name, the first one is checked. -/
theorem record?_checked {f : Bytes} {r : FileMetadata} (hr : record? metaArray f = some r)
    (now : ℤ) : record? (checkEditLock metaArray f now).2 f = some (r.checked now) := by
  obtain ⟨i, hfind, rfl⟩ := exists_slot hr
  have hfind' := ((checkEditLock_sameNames f now).findSlot_eq f).trans hfind
  rw [record?_of_findSlot hfind']
  unfold checkEditLock FileMetadata.checked FileMetadata.Stale
  rw [hfind]
  dsimp only
  by_cases hlocked : (metaArray i).lockedByUserId ≠ -1
  · by_cases hstale : now - (metaArray i).lockAcquiredAt > lockTimeoutSecs
    · simp [hlocked, hstale, FileMetadata.cleared]
    · simp [hlocked, hstale]
  · simp [hlocked]

theorem acquireEditLock_sameNames (f : Bytes) (userId : ℤ) (username : Bytes) (now : ℤ) :
    SameNames metaArray (acquireEditLock metaArray f userId username now).2 := by
  unfold acquireEditLock
  split
  · exact SameNames.refl _
  · dsimp only
    split
    · split
      · exact SameNames.update rfl rfl
      · split <;> exact SameNames.refl _
    · exact SameNames.update rfl rfl

theorem releaseEditLock_sameNames (f : Bytes) (userId : ℤ) :
    SameNames metaArray (releaseEditLock metaArray f userId).2 := by
  unfold releaseEditLock
  split
  · exact SameNames.refl _
  · split
    · exact SameNames.refl _
    · split
      · exact SameNames.refl _
      · exact SameNames.update rfl rfl

theorem updateFileMetadata_sameNames (f : Bytes) (size now : ℤ) :
    SameNames metaArray (updateFileMetadata metaArray f size now).2 := by
  unfold updateFileMetadata
  split
  · exact SameNames.update rfl rfl
  · exact SameNames.refl _

section Exec

variable {β : Type} {c : WorkerCall β} {world : World} (env : Env)
  (hholds : Holds task g world.metadata) (hcall : Entitled task g c)

include hholds hcall

/-- The ownership check survives the task's own calls. -/
theorem Holds.owner_exec (howner : g.owner = true) : task.role = roleAdmin ∨
    ∀ r ∈ record? (worker.exec env c world).2.metadata task.filename, r.ownerId = task.userId := by
  apply (hholds.owner howner).imp_right
  intro hrecord r hr
  have hexec := record?_exec env c hholds.unique hcall.filename_length
  by_cases hmem : task.filename ∈ c.changesRecord
  · rcases (hexec.2.2 _ hmem).owner env r hr with ⟨q, hq, hqr⟩ | ⟨-, hcreates⟩
    · exact hqr ▸ hrecord q hq
    · exact (hcall.creates hcreates).2
  · rw [hexec.2.1 _ hmem] at hr
    exact hrecord r hr

/-- The lock check survives the task's own calls. -/
theorem Holds.lock_exec (hlock : g.lock = true) :
    ∀ r ∈ record? (worker.exec env c world).2.metadata task.filename,
      r.lockedByUserId = -1 ∨ r.lockedByUserId = task.userId := by
  intro r hr
  have hexec := record?_exec env c hholds.unique hcall.filename_length
  by_cases hmem : task.filename ∈ c.changesRecord
  · rcases (hexec.2.2 _ hmem).holder env r hr with hfree | ⟨q, hq, hqr | ⟨hlocks, -⟩⟩
    · exact Or.inl hfree
    · exact hqr ▸ hholds.lock hlock q hq
    · exact Or.inr (hcall.locks hlocks).2.1
  · rw [hexec.2.1 _ hmem] at hr
    exact hholds.lock hlock r hr

/-- What a task running alone has checked stays so. -/
theorem holds_exec : Holds task ((standing task).next g c (worker.exec env c world).1)
    (worker.exec env c world).2.metadata := by
  have hexec := record?_exec env c hholds.unique hcall.filename_length
  have howner := hholds.owner_exec env hcall
  have hlock := hholds.lock_exec env hcall
  -- the calls that change neither the array nor the standing
  have hsame : c.changesRecord = none →
      (standing task).next g c (worker.exec env c world).1 = g →
      Holds task ((standing task).next g c (worker.exec env c world).1)
        (worker.exec env c world).2.metadata := by
    intro hchanges hg
    rw [hg, metadata_exec env c world hchanges]
    exact hholds
  cases c with
  | findFileMetadata f =>
      obtain rfl : f = task.filename := hcall
      exact hholds.find
  | addFileMetadata f ownerName ownerId size =>
      exact ⟨hexec.1, fun _ h => absurd h (by simp [standing]), howner, hlock,
        fun h => Bool.noConfusion h⟩
  | updateFileMetadata f size =>
      obtain ⟨rfl, -, -⟩ := hcall
      refine ⟨hexec.1, fun i hi => ?_, howner, hlock, fun hholder r hr => ?_⟩
      · exact ((updateFileMetadata_sameNames _ _ _).findSlot_eq _).trans (hholds.slot i hi)
      · have htable := (record?_updateFileMetadata task.filename hholds.unique size env.now).1
        rw [show (worker.exec env (.updateFileMetadata task.filename size) world).2.metadata =
          (updateFileMetadata world.metadata task.filename size env.now).2 from rfl, htable,
          Function.update_self] at hr
        obtain ⟨q, hq, rfl⟩ := Option.map_eq_some_iff.mp hr
        exact hholds.holder hholder q hq
  | removeFileMetadata f =>
      exact ⟨hexec.1, fun _ h => absurd h (by simp [standing]), howner, hlock,
        fun h => Bool.noConfusion h⟩
  | acquireEditLock f userId username =>
      refine ⟨hexec.1, fun i hi => ?_, howner, hlock, fun h => Bool.noConfusion h⟩
      exact ((acquireEditLock_sameNames _ _ _ _).findSlot_eq _).trans (hholds.slot i hi)
  | releaseEditLock f userId =>
      refine ⟨hexec.1, fun i hi => ?_, howner, hlock, fun h => Bool.noConfusion h⟩
      exact ((releaseEditLock_sameNames _ _).findSlot_eq _).trans (hholds.slot i hi)
  | checkEditLock f =>
      obtain ⟨rfl, -⟩ := hcall
      refine ⟨hexec.1, fun i hi => ?_, howner, fun hfree => ?_, fun h => Bool.noConfusion h⟩
      · exact ((checkEditLock_sameNames _ _).findSlot_eq _).trans (hholds.slot i hi)
      · refine fun r hr => Or.inl (unlocked_of_checkEditLock hholds.unique ?_ r hr)
        simpa [standing, worker, onMetadata] using hfree
  | ownerId i => exact hholds.readOwner hcall
  | lockedByUserId i => exact hholds.readHolder hcall
  | _ => exact hsame rfl rfl

end Exec

/-! ## Whole tasks -/

/-- What every entitled call keeps, a task keeps. -/
theorem serve_invariant (env : ℕ → Env) (task : TaskMessage) {world : World}
    {I : Standing → World → Prop}
    (hstart : I (standing task).start world)
    (hstep : ∀ g world i {β : Type} (c : WorkerCall β), I g world → Entitled task g c →
      I ((standing task).next g c (worker.exec (env i) c world).1)
        (worker.exec (env i) c world).2) :
    ∃ g, I g (serve env task world).2 :=
  (processTask_covered task _).run hstep hstart

theorem serve_unique {world : World} (env : ℕ → Env) (hunique : UniqueNames world.metadata) :
    UniqueNames (serve env task world).2.metadata := by
  obtain ⟨_, h⟩ := serve_invariant env task
    (I := fun _ world => UniqueNames world.metadata) hunique
    fun g world i β c hunique hcall =>
      (record?_exec (env i) c hunique hcall.filename_length).1
  exact h

/-- A task leaves the record of every other file alone. -/
theorem serve_record?_of_ne {world : World} (env : ℕ → Env) (hunique : UniqueNames world.metadata)
    {f : Bytes} (hne : f ≠ task.filename) :
    record? (serve env task world).2.metadata f = record? world.metadata f := by
  obtain ⟨_, -, h⟩ := serve_invariant env task
    (I := fun _ world' => UniqueNames world'.metadata ∧
      record? world'.metadata f = record? world.metadata f) ⟨hunique, rfl⟩
    fun g world i β c hI hcall => by
      have hexec := record?_exec (env i) c hI.1 hcall.filename_length
      refine ⟨hexec.1, (hexec.2.1 f fun hf => hne ?_).trans hI.2⟩
      exact hcall.filename f (WorkerCall.filename_of_changesRecord hf)
  exact h

section Frames

variable {world : World} (env : ℕ → Env) {names : Set Bytes} (hsep : Separate names)
  (hname : task.filename ∈ names) {f : Bytes} (hf : f ∈ names)

include hsep hname hf

/-- A task leaves the content of every other file alone. -/
theorem serve_content_of_ne (hne : f ≠ task.filename) :
    content (serve env task world).2.tree f = content world.tree f := by
  obtain ⟨_, h⟩ := serve_invariant env task
    (I := fun _ world' => content world'.tree f = content world.tree f) rfl
    fun g world i β c hI hcall =>
      (content_exec (env i) c world hsep (hcall.filename_mem hname) hf
        fun hmem => hne (hcall.writesContent hmem).1).trans hI
  exact h

/-- A task leaves the stored versions of every other file alone. -/
theorem serve_storedVersion_of_ne (hne : f ≠ task.filename) :
    storedVersion (serve env task world).2.tree f = storedVersion world.tree f := by
  obtain ⟨_, h⟩ := serve_invariant env task
    (I := fun _ world' => storedVersion world'.tree f = storedVersion world.tree f) rfl
    fun g world i β c hI hcall =>
      (storedVersion_exec (env i) c world hsep (hcall.filename_mem hname) hf
        fun hmem => hne (hcall.writesVersions hmem).1).trans hI
  exact h

/-- An operation that modifies nothing changes no view of any file. -/
theorem serve_of_not_modifies (hop : task.operation.modifies = false) :
    record? (serve env task world).2.metadata f = record? world.metadata f ∧
      content (serve env task world).2.tree f = content world.tree f ∧
      storedVersion (serve env task world).2.tree f = storedVersion world.tree f := by
  obtain ⟨_, h⟩ := serve_invariant env task
    (I := fun _ world' => record? world'.metadata f = record? world.metadata f ∧
      content world'.tree f = content world.tree f ∧
      storedVersion world'.tree f = storedVersion world.tree f) ⟨rfl, rfl, rfl⟩
    fun g world i β c hI hcall => by
      obtain ⟨hrecord, hcontent, hversions⟩ := hcall.modifies hop
      refine ⟨?_, ?_, ?_⟩
      · rw [metadata_exec _ _ _ hrecord]
        exact hI.1
      · exact (content_exec _ c _ hsep (hcall.filename_mem hname) hf
          (by simp [hcontent])).trans hI.2.1
      · exact (storedVersion_exec _ c _ hsep (hcall.filename_mem hname) hf
          (by simp [hversions])).trans hI.2.2
  exact h

end Frames

end CloudSync
