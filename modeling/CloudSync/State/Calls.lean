import CloudSync.Lib.TwoRuns
import CloudSync.State.Records
import CloudSync.State.Storage

/-!
# What a worker's call can change

Three views of a file are of interest: its record, its content and its stored
versions.  A call names at most one file, and each call is of a kind that can
change some of the three views of that file and none of any other
(`record?_exec`, `content_exec`, `storedVersion_exec`).

Within a record, the holder of the edit lock changes to a user only when that
user acquires it (`holder_exec`), and an owner appears only with the record
(`owner_exec`).
-/

namespace CloudSync

open CText Calls Calls.Prog Files

namespace WorkerCall

/-- The file a call is about; the reads through a record pointer name none. -/
def filename : {β : Type} → WorkerCall β → Option Bytes
  | _, .findFileMetadata f => some f
  | _, .addFileMetadata f _ _ _ => some f
  | _, .updateFileMetadata f _ => some f
  | _, .removeFileMetadata f => some f
  | _, .acquireEditLock f _ _ => some f
  | _, .releaseEditLock f _ => some f
  | _, .checkEditLock f => some f
  | _, .getFileVersion f => some f
  | _, .saveVersion f _ => some f
  | _, .saveFile f _ => some f
  | _, .readFile f => some f
  | _, .restoreVersion f _ => some f
  | _, .removeFileFromStorage f => some f
  | _, .listVersions f => some f
  | _, .deleteVersion f _ => some f
  | _, _ => none

/-- The file whose record a call can change. -/
def changesRecord : {β : Type} → WorkerCall β → Option Bytes
  | _, .addFileMetadata f _ _ _ => some f
  | _, .updateFileMetadata f _ => some f
  | _, .removeFileMetadata f => some f
  | _, .acquireEditLock f _ _ => some f
  | _, .releaseEditLock f _ => some f
  | _, .checkEditLock f => some f
  | _, _ => none

/-- The file whose stored content a call can change. -/
def writesContent : {β : Type} → WorkerCall β → Option Bytes
  | _, .saveFile f _ => some f
  | _, .restoreVersion f _ => some f
  | _, .removeFileFromStorage f => some f
  | _, _ => none

/-- The file whose stored versions a call can change. -/
def writesVersions : {β : Type} → WorkerCall β → Option Bytes
  | _, .saveVersion f _ => some f
  | _, .removeFileFromStorage f => some f
  | _, .deleteVersion f _ => some f
  | _, _ => none

/-- The file whose lock a call asks for, and the user it asks for. -/
def locks : {β : Type} → WorkerCall β → Option (Bytes × ℤ)
  | _, .acquireEditLock f userId _ => some (f, userId)
  | _, _ => none

/-- The file whose lock a call gives up, and the user who gives it up. -/
def releases : {β : Type} → WorkerCall β → Option (Bytes × ℤ)
  | _, .releaseEditLock f userId => some (f, userId)
  | _, _ => none

/-- The file whose record a call removes. -/
def removesRecord : {β : Type} → WorkerCall β → Option Bytes
  | _, .removeFileMetadata f => some f
  | _, _ => none

/-- The file a call would create a record of, and the owner it would have. -/
def creates : {β : Type} → WorkerCall β → Option (Bytes × ℤ)
  | _, .addFileMetadata f _ owner _ => some (f, owner)
  | _, _ => none

/-- The record pointer whose lock holder a call reads. -/
def readsHolder : {β : Type} → WorkerCall β → Option Slot
  | _, .lockedByUserId slot => some slot
  | _, _ => none

/-- The record pointer whose owner a call reads. -/
def readsOwner : {β : Type} → WorkerCall β → Option Slot
  | _, .ownerId slot => some slot
  | _, _ => none

theorem filename_of_changesRecord {β : Type} {c : WorkerCall β} {f : Bytes}
    (hf : f ∈ c.changesRecord) : f ∈ c.filename := by
  cases c <;> first | exact hf | exact absurd hf (Option.not_mem_none _)

end WorkerCall

/-- The paths a call writes at. -/
def WorkerCall.WritesAt {β : Type} (c : WorkerCall β) (p : Path) : Prop :=
  (∃ f ∈ c.writesContent, ContentPlace f p) ∨ ∃ f ∈ c.writesVersions, VersionsPlace f p

variable {β : Type} {g : Bytes} (env : Env) (c : WorkerCall β) (world : World)

/-! ## The storage -/

/-- A call leaves everything off the paths it writes at as it was. -/
theorem off_writesAt : Off c.WritesAt world.tree (worker.exec env c world).2.tree := by
  have honDisk : ∀ {α : Type} {prog : Prog Sys α}, WritesOnly c.WritesAt prog →
      Off c.WritesAt world.tree (onDisk env prog world).2.tree :=
    fun hprog => hprog.run_off env.conditions world.tree
  cases c with
  | saveVersion f k => exact honDisk ((saveVersion_writesOnly k).mono fun _ h => Or.inr ⟨f, rfl, h⟩)
  | saveFile f data => exact honDisk ((saveFile_writesOnly data).mono fun _ h => Or.inl ⟨f, rfl, h⟩)
  | readFile f => exact honDisk (readFile_writesOnly.mono fun _ h => False.elim h)
  | restoreVersion f k =>
      exact honDisk ((restoreVersion_writesOnly k).mono fun _ h => Or.inl ⟨f, rfl, h⟩)
  | removeFileFromStorage f =>
      exact honDisk (removeFileFromStorage_writesOnly.mono fun _ h =>
        h.imp (fun h => ⟨f, rfl, h⟩) fun h => ⟨f, rfl, h⟩)
  | listVersions f => exact honDisk ((listVersions_writesOnly _ _).mono fun _ h => False.elim h)
  | deleteVersion f k =>
      exact honDisk ((deleteVersion_writesOnly k).mono fun _ h => Or.inr ⟨f, rfl, h⟩)
  | writeAuditEntry username operation filename result =>
      simp only [worker]
      split <;> exact Off.refl _ _
  | _ => exact Off.refl _ _

/-- A call changes nothing elsewhere. -/
theorem at?_exec {p : Path} (hp : ¬ c.WritesAt p) :
    (worker.exec env c world).2.tree.at? p = world.tree.at? p :=
  ((off_writesAt env c world).at? p hp).symm

/-- A call that writes no file changes nothing. -/
theorem at?_exec_of_quiet (hcontent : c.writesContent = none) (hversions : c.writesVersions = none)
    (p : Path) : (worker.exec env c world).2.tree.at? p = world.tree.at? p := by
  refine at?_exec env c world ?_
  rintro (⟨f, hf, -⟩ | ⟨f, hf, -⟩)
  · rw [hcontent] at hf
    exact Option.not_mem_none f hf
  · rw [hversions] at hf
    exact Option.not_mem_none f hf

/-- A call that writes to a file names it. -/
theorem WorkerCall.filename_of_writes {f : Bytes}
    (hf : f ∈ c.writesContent ∨ f ∈ c.writesVersions) : f ∈ c.filename := by
  cases c <;> rcases hf with hf | hf <;>
    first | exact hf | exact absurd hf (Option.not_mem_none _)

section Storage

variable {names : Set Bytes} (hsep : Separate names) (hc : ∀ f ∈ c.filename, f ∈ names)
  (hg : g ∈ names)

include hsep hc hg

/-- A call changes what is at the content's place of the file it writes, and of no other. -/
theorem at?_content_exec (hne : g ∉ c.writesContent) :
    (worker.exec env c world).2.tree.at? (resolve (getFilepath g)) =
      world.tree.at? (resolve (getFilepath g)) := by
  refine at?_exec env c world ?_
  rintro (⟨f, hf, hp⟩ | ⟨f, hf, hp⟩)
  · have hfg : f ≠ g := fun h => hne (h ▸ hf)
    exact hsep.content_ne (hc f (c.filename_of_writes (Or.inl hf))) hg hfg hp rfl
  · exact hsep.versions_not_content (hc f (c.filename_of_writes (Or.inr hf))) hg hp rfl

/-- A call changes the content of the file it writes, and no other. -/
theorem content_exec (hne : g ∉ c.writesContent) :
    content (worker.exec env c world).2.tree g = content world.tree g :=
  Tree.bytes?_congr (at?_content_exec env c world hsep hc hg hne)

/-- A call changes the stored versions of the file it versions, and no other. -/
theorem storedVersion_exec (hne : g ∉ c.writesVersions) :
    storedVersion (worker.exec env c world).2.tree g = storedVersion world.tree g := by
  funext k
  have hplace : VersionsPlace g (resolve (versionPath 256 g k)) := Or.inr (Or.inr ⟨k, Or.inl rfl⟩)
  refine Tree.bytes?_congr (at?_exec env c world ?_)
  rintro (⟨f, hf, hp⟩ | ⟨f, hf, hp⟩)
  · exact hsep.content_not_versions (hc f (c.filename_of_writes (Or.inl hf))) hg hp hplace
  · have hfg : f ≠ g := fun h => hne (h ▸ hf)
    exact hsep.versions_ne (hc f (c.filename_of_writes (Or.inr hf))) hg hfg hp hplace

end Storage

/-! ## The records -/

/-- The calls that are about no record leave the array alone. -/
theorem metadata_exec (hc : c.changesRecord = none) :
    (worker.exec env c world).2.metadata = world.metadata := by
  cases c with
  | writeAuditEntry username operation filename result =>
      simp only [worker]
      split <;> rfl
  | addFileMetadata _ _ _ _ => exact absurd hc (Option.some_ne_none _)
  | updateFileMetadata _ _ => exact absurd hc (Option.some_ne_none _)
  | removeFileMetadata _ => exact absurd hc (Option.some_ne_none _)
  | acquireEditLock _ _ _ => exact absurd hc (Option.some_ne_none _)
  | releaseEditLock _ _ => exact absurd hc (Option.some_ne_none _)
  | checkEditLock _ => exact absurd hc (Option.some_ne_none _)
  | _ => rfl

/-- The record of `f` after a call that changes records. -/
inductive RecordStep (env : Env) (f : Bytes) :
    {β : Type} → WorkerCall β → Option FileMetadata → Option FileMetadata → Prop
  | checked (r : Option FileMetadata) :
      RecordStep env f (.checkEditLock f) r (r.map (·.checked env.now))
  | acquired (userId : ℤ) (username : Bytes) (r : Option FileMetadata) :
      RecordStep env f (.acquireEditLock f userId username) r
        (r.map (·.acquired userId username env.now))
  | released (userId : ℤ) (r : Option FileMetadata) :
      RecordStep env f (.releaseEditLock f userId) r (r.map (·.releasedBy userId))
  | updated (size : ℤ) (r : Option FileMetadata) :
      RecordStep env f (.updateFileMetadata f size) r (r.map (·.bumped size env.now))
  | removed (r : Option FileMetadata) : RecordStep env f (.removeFileMetadata f) r none
  | added (ownerName : Bytes) (ownerId size : ℤ) (r : FileMetadata) :
      RecordStep env f (.addFileMetadata f ownerName ownerId size) (some r)
        (some (r.bumped size env.now))
  | created (ownerName : Bytes) (ownerId size : ℤ) (slot : FileMetadata) :
      RecordStep env f (.addFileMetadata f ownerName ownerId size) none
        (some (newRecord f ownerName ownerId size env.now slot))
  | full (ownerName : Bytes) (ownerId size : ℤ) :
      RecordStep env f (.addFileMetadata f ownerName ownerId size) none none

variable {world}

/-- A call changes the record of the file it names, and no other. -/
theorem record?_exec (hunique : UniqueNames world.metadata)
    (hc : ∀ f ∈ c.filename, f.length < maxFilename) :
    UniqueNames (worker.exec env c world).2.metadata ∧
      (∀ f, f ∉ c.changesRecord →
        record? (worker.exec env c world).2.metadata f = record? world.metadata f) ∧
      ∀ f ∈ c.changesRecord,
        RecordStep env f c (record? world.metadata f)
          (record? (worker.exec env c world).2.metadata f) := by
  -- what the table of records is like after an update at one filename
  have hupdate : ∀ {f : Bytes} {m' : MetaArray} {r : Option FileMetadata},
      record? m' = Function.update (record? world.metadata) f r ∧ UniqueNames m' →
      c.changesRecord = some f →
      RecordStep env f c (record? world.metadata f) r →
      UniqueNames m' ∧
        (∀ g, g ∉ c.changesRecord → record? m' g = record? world.metadata g) ∧
        ∀ g ∈ c.changesRecord, RecordStep env g c (record? world.metadata g) (record? m' g) := by
    intro f m' r ⟨htable, hunique'⟩ hf hstep
    refine ⟨hunique', fun g hg => ?_, fun g hg => ?_⟩
    · have hgf : g ≠ f := fun h => hg (by rw [h, hf]; rfl)
      rw [htable, Function.update_of_ne hgf]
    · obtain rfl : f = g := Option.some.inj (hf.symm.trans hg)
      rw [htable, Function.update_self]
      exact hstep
  cases c with
  | addFileMetadata f ownerName ownerId size =>
      have hshort := hc f rfl
      cases hr : record? world.metadata f with
      | some r =>
          have hadd := record?_addFileMetadata_of_some hunique hr ownerName ownerId size env.now
          exact hupdate hadd.2 rfl (hr ▸ RecordStep.added ..)
      | none =>
          cases hempty : emptySlot world.metadata with
          | some i =>
              have hadd := record?_addFileMetadata_of_none hunique hr hempty hshort ownerName
                ownerId size env.now
              exact hupdate hadd.2 rfl (hr ▸ RecordStep.created ..)
          | none =>
              have hadd := addFileMetadata_full hr hempty ownerName ownerId size env.now
              have hsame : (worker.exec env (.addFileMetadata f ownerName ownerId size)
                  world).2.metadata = world.metadata := congrArg Prod.snd hadd
              rw [hsame]
              exact hupdate ⟨record?_unchanged, hunique⟩ rfl (hr ▸ RecordStep.full ..)
  | updateFileMetadata f size =>
      exact hupdate (record?_updateFileMetadata f hunique size env.now) rfl (RecordStep.updated ..)
  | removeFileMetadata f =>
      exact hupdate (record?_removeFileMetadata f hunique) rfl (RecordStep.removed ..)
  | acquireEditLock f userId username =>
      exact hupdate (record?_acquireEditLock f hunique userId username env.now) rfl
        (RecordStep.acquired ..)
  | releaseEditLock f userId =>
      exact hupdate (record?_releaseEditLock f hunique userId) rfl (RecordStep.released ..)
  | checkEditLock f =>
      exact hupdate (record?_checkEditLock f hunique env.now) rfl (RecordStep.checked ..)
  | _ =>
      rw [metadata_exec _ _ _ rfl]
      exact ⟨hunique, fun _ _ => rfl, fun _ h => absurd h (by simp [WorkerCall.changesRecord])⟩

/-! ## The holder and the owner of a record -/

/-- Whoever holds the lock after a call held it before, or the call acquired it
when it was free or stale. -/
theorem RecordStep.holder {f : Bytes} {r r' : Option FileMetadata} {c : WorkerCall β}
    (hstep : RecordStep env f c r r') :
    ∀ q' ∈ r', q'.lockedByUserId = -1 ∨ ∃ q ∈ r, q.lockedByUserId = q'.lockedByUserId ∨
      (c.locks = some (f, q'.lockedByUserId) ∧ (q.lockedByUserId = -1 ∨ q.Stale env.now)) := by
  intro q' hq'
  cases hstep with
  | checked =>
      obtain ⟨q, hq, rfl⟩ := Option.map_eq_some_iff.mp hq'
      unfold FileMetadata.checked
      split
      · exact Or.inl rfl
      · exact Or.inr ⟨q, hq, Or.inl rfl⟩
  | acquired userId username =>
      obtain ⟨q, hq, rfl⟩ := Option.map_eq_some_iff.mp hq'
      unfold FileMetadata.acquired
      split
      · next hfree => exact Or.inr ⟨q, hq, Or.inr ⟨rfl, hfree⟩⟩
      · exact Or.inr ⟨q, hq, Or.inl rfl⟩
  | released userId =>
      obtain ⟨q, hq, rfl⟩ := Option.map_eq_some_iff.mp hq'
      unfold FileMetadata.releasedBy
      split
      · exact Or.inl rfl
      · exact Or.inr ⟨q, hq, Or.inl rfl⟩
  | updated size =>
      obtain ⟨q, hq, rfl⟩ := Option.map_eq_some_iff.mp hq'
      exact Or.inr ⟨q, hq, Or.inl rfl⟩
  | removed => exact absurd hq' (by simp)
  | added ownerName ownerId size q =>
      obtain rfl := Option.some.inj hq'
      exact Or.inr ⟨q, rfl, Or.inl rfl⟩
  | created ownerName ownerId size slot =>
      obtain rfl := Option.some.inj hq'
      exact Or.inl rfl
  | full => exact absurd hq' (by simp)

/-- The owner of a record after a call owned it before, or the call created it. -/
theorem RecordStep.owner {f : Bytes} {r r' : Option FileMetadata} {c : WorkerCall β}
    (hstep : RecordStep env f c r r') :
    ∀ q' ∈ r', (∃ q ∈ r, q.ownerId = q'.ownerId) ∨
      (r = none ∧ c.creates = some (f, q'.ownerId)) := by
  intro q' hq'
  cases hstep with
  | checked =>
      obtain ⟨q, hq, rfl⟩ := Option.map_eq_some_iff.mp hq'
      exact Or.inl ⟨q, hq, (q.relocked_checked _).ownerId.symm⟩
  | acquired userId username =>
      obtain ⟨q, hq, rfl⟩ := Option.map_eq_some_iff.mp hq'
      exact Or.inl ⟨q, hq, (q.relocked_acquired _ _ _).ownerId.symm⟩
  | released userId =>
      obtain ⟨q, hq, rfl⟩ := Option.map_eq_some_iff.mp hq'
      exact Or.inl ⟨q, hq, (q.relocked_releasedBy _).ownerId.symm⟩
  | updated size =>
      obtain ⟨q, hq, rfl⟩ := Option.map_eq_some_iff.mp hq'
      exact Or.inl ⟨q, hq, rfl⟩
  | removed => exact absurd hq' (by simp)
  | added ownerName ownerId size q =>
      obtain rfl := Option.some.inj hq'
      exact Or.inl ⟨q, rfl, rfl⟩
  | created ownerName ownerId size slot =>
      obtain rfl := Option.some.inj hq'
      exact Or.inr ⟨rfl, rfl⟩
  | full => exact absurd hq' (by simp)

end CloudSync
