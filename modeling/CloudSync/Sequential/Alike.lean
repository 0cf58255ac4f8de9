import CloudSync.Lib.TwoRuns
import CloudSync.Names.PathsUsed
import CloudSync.Sequential.Holds
import CloudSync.State.Disk

/-!
# Worlds that differ in one file

`Agree g world world'` says that the two worlds show the same of every file but
`g`: the same records, and the same storage but for the places of `g`.  Slots do
not count, and neither does the name and time of a lock that nobody holds
(`FileMetadata.shown`): a new record takes them over from its slot, and which slot
that is depends on the other files.

A call on another file than `g` answers alike in both worlds and keeps them so
(`alike_exec`).  The reads through a record pointer go to different slots and are
followed with rules of their own.
-/

namespace CloudSync

open CText Calls Calls.Prog Files

/-! ## What a record shows -/

namespace FileMetadata

/-- The record without the lock name and time of a lock that is not held. -/
def shown (r : FileMetadata) : FileMetadata := if r.lockedByUserId = -1 then r.released else r

variable {r r' : FileMetadata}

theorem shown_of_free (h : r.lockedByUserId = -1) : r.shown = r.released := if_pos h

theorem shown_of_held (h : r.lockedByUserId ≠ -1) : r.shown = r := if_neg h

@[simp] theorem shown_lockedByUserId (r : FileMetadata) :
    r.shown.lockedByUserId = r.lockedByUserId := by
  by_cases hfree : r.lockedByUserId = -1
  · rw [shown_of_free hfree, hfree]
    rfl
  · rw [shown_of_held hfree]

/-- Records that show the same are the same, or differ in a lock nobody holds. -/
theorem shown_eq_cases (h : r.shown = r'.shown) :
    r = r' ∨ r.lockedByUserId = -1 ∧ r'.lockedByUserId = -1 ∧ r.released = r'.released := by
  have hholder : r.lockedByUserId = r'.lockedByUserId := by
    rw [← shown_lockedByUserId r, h, shown_lockedByUserId]
  by_cases hfree : r.lockedByUserId = -1
  · have hfree' : r'.lockedByUserId = -1 := hholder ▸ hfree
    rw [shown_of_free hfree, shown_of_free hfree'] at h
    exact Or.inr ⟨hfree, hfree', h⟩
  · rw [shown_of_held hfree, shown_of_held (hholder ▸ hfree)] at h
    exact Or.inl h

theorem not_stale_of_free (h : r.lockedByUserId = -1) (now : ℤ) : ¬ r.Stale now :=
  fun hstale => hstale.1 h

variable (h : r.shown = r'.shown)

include h

theorem lockedByUserId_eq : r.lockedByUserId = r'.lockedByUserId := by
  rw [← shown_lockedByUserId r, h, shown_lockedByUserId]

/-- A field that has nothing to do with the lock is shown. -/
theorem field_eq {γ : Type} (field : FileMetadata → γ)
    (hfield : ∀ record : FileMetadata, field record.released = field record) :
    field r = field r' := by
  rcases shown_eq_cases h with rfl | ⟨-, -, hreleased⟩
  · rfl
  · rw [← hfield r, hreleased, hfield r']

theorem lockedByUsername_eq (hheld : r.lockedByUserId ≠ -1) :
    r.lockedByUsername = r'.lockedByUsername := by
  rcases shown_eq_cases h with rfl | ⟨hfree, -, -⟩
  · rfl
  · exact absurd hfree hheld

theorem shown_checked (now : ℤ) : (r.checked now).shown = (r'.checked now).shown := by
  rcases shown_eq_cases h with rfl | ⟨hfree, hfree', -⟩
  · rfl
  · rw [checked, checked, if_neg (not_stale_of_free hfree now),
      if_neg (not_stale_of_free hfree' now), h]

theorem shown_acquired (userId : ℤ) (username : Bytes) (now : ℤ) :
    (r.acquired userId username now).shown = (r'.acquired userId username now).shown := by
  rcases shown_eq_cases h with rfl | ⟨hfree, hfree', hreleased⟩
  · rfl
  · rw [acquired, acquired, if_pos (Or.inl hfree), if_pos (Or.inl hfree')]
    -- a grant overwrites all that is left of earlier locks
    have hgranted := congrArg (fun record => record.granted userId username now) hreleased
    exact congrArg shown hgranted

theorem shown_releasedBy (userId : ℤ) :
    (r.releasedBy userId).shown = (r'.releasedBy userId).shown := by
  rcases shown_eq_cases h with rfl | ⟨hfree, hfree', -⟩
  · rfl
  · rw [releasedBy, releasedBy, if_neg fun hheld => hheld.1 hfree,
      if_neg fun hheld => hheld.1 hfree', h]

theorem shown_bumped (size now : ℤ) : (r.bumped size now).shown = (r'.bumped size now).shown := by
  rcases shown_eq_cases h with rfl | ⟨hfree, hfree', hreleased⟩
  · rfl
  · rw [shown_of_free (r := r.bumped size now) hfree, shown_of_free (r := r'.bumped size now) hfree']
    exact congrArg (fun record => record.bumped size now) hreleased

end FileMetadata

/-- A new record shows nothing of its slot. -/
theorem newRecord_shown (f ownerName : Bytes) (ownerId size now : ℤ) (slot slot' : FileMetadata) :
    (newRecord f ownerName ownerId size now slot).shown =
      (newRecord f ownerName ownerId size now slot').shown := by
  rw [FileMetadata.shown_of_free rfl, FileMetadata.shown_of_free rfl]
  rfl

/-! ## Worlds that agree off a file -/

/-- Both worlds show the same of every file but `g`. -/
structure Agree (g : Bytes) (world world' : World) : Prop where
  unique : UniqueNames world.metadata
  unique' : UniqueNames world'.metadata
  record : ∀ f, f ≠ g → (record? world.metadata f).map FileMetadata.shown =
    (record? world'.metadata f).map FileMetadata.shown
  tree : Off (Place g) world.tree world'.tree

/-- There is a slot for a new file. -/
def Room (metaArray : MetaArray) : Prop := ∃ i, (metaArray i).isActive = false

/-- They do, and a new file finds a slot in both. -/
structure Alike (g : Bytes) (world world' : World) : Prop extends Agree g world world' where
  room : Room world.metadata
  room' : Room world'.metadata

variable {f g : Bytes} {world world' : World} {metaArray metaArray' : MetaArray}

theorem Room.emptySlot (h : Room metaArray) : ∃ i, emptySlot metaArray = some i := by
  obtain ⟨i, hi⟩ := h
  by_contra hnone
  rw [← Option.isSome_iff_exists, Option.not_isSome_iff_eq_none, emptySlot_eq_none] at hnone
  exact absurd (hi.symm.trans (hnone i)) Bool.false_ne_true

theorem Room.sameNames (h : Room metaArray) (hsame : SameNames metaArray metaArray') :
    Room metaArray' := by
  obtain ⟨i, hi⟩ := h
  exact ⟨i, (hsame i).1.trans hi⟩

theorem Room.remove (h : Room metaArray) (f : Bytes) : Room (removeFileMetadata metaArray f).2 := by
  unfold removeFileMetadata
  split
  · next i hfind =>
    refine ⟨i, ?_⟩
    dsimp only
    rw [Function.update_self]
  · exact h

/-- The records of both worlds, if there are any, show the same. -/
theorem Agree.record_cases (h : Agree g world world') (hne : f ≠ g) :
    (record? world.metadata f = none ∧ record? world'.metadata f = none) ∨
      ∃ r r', record? world.metadata f = some r ∧ record? world'.metadata f = some r' ∧
        r.shown = r'.shown := by
  have hrecord := h.record f hne
  cases hr : record? world.metadata f with
  | none =>
      rw [hr, Option.map_none, eq_comm, Option.map_eq_none_iff] at hrecord
      exact Or.inl ⟨rfl, hrecord⟩
  | some r =>
      rw [hr, Option.map_some, eq_comm, Option.map_eq_some_iff] at hrecord
      obtain ⟨r', hr', hshown⟩ := hrecord
      exact Or.inr ⟨r, r', rfl, hr', hshown.symm⟩

/-- The record of one file is replaced in both. -/
theorem Agree.onMetadata (h : Agree g world world') {r r' : Option FileMetadata}
    (hupdate : record? metaArray = Function.update (record? world.metadata) f r ∧
      UniqueNames metaArray)
    (hupdate' : record? metaArray' = Function.update (record? world'.metadata) f r' ∧
      UniqueNames metaArray')
    (hshown : r.map FileMetadata.shown = r'.map FileMetadata.shown) :
    Agree g { world with metadata := metaArray } { world' with metadata := metaArray' } where
  unique := hupdate.2
  unique' := hupdate'.2
  record := by
    intro k hk
    rw [hupdate.1, hupdate'.1]
    by_cases hkf : k = f
    · rw [hkf, Function.update_self, Function.update_self, hshown]
    · rw [Function.update_of_ne hkf, Function.update_of_ne hkf]
      exact h.record k hk
  tree := h.tree

/-- The records of one file are brought up to date in both, by a function that does
to what they show what it does to them. -/
theorem Agree.onRecord (h : Agree g world world') (hne : f ≠ g) {move : FileMetadata → FileMetadata}
    (hmove : ∀ r r' : FileMetadata, r.shown = r'.shown → (move r).shown = (move r').shown)
    (hupdate : record? metaArray = Function.update (record? world.metadata) f
      ((record? world.metadata f).map move) ∧ UniqueNames metaArray)
    (hupdate' : record? metaArray' = Function.update (record? world'.metadata) f
      ((record? world'.metadata f).map move) ∧ UniqueNames metaArray') :
    Agree g { world with metadata := metaArray } { world' with metadata := metaArray' } := by
  apply h.onMetadata hupdate hupdate'
  rcases h.record_cases hne with ⟨hr, hr'⟩ | ⟨r, r', hr, hr', hshown⟩
  · rw [hr, hr']
  · rw [hr, hr']
    exact congrArg some (hmove r r' hshown)

/-! ## Staying clear of the other file -/

theorem place_of_filePlace (hf : StorageName f) {p : Path} (hp : FilePlace f p) : Place f p := by
  rcases hp with hp | hp
  · exact Or.inl (hf.contentPlace.mp hp)
  · exact Or.inr (hf.versionsPlace hp)

/-- A call on one file writes at the places of that file. -/
theorem filePlace_of_writesAt {β : Type} {c : WorkerCall β} (hc : ∀ name ∈ c.filename, name = f)
    {p : Path} (hp : c.WritesAt p) : FilePlace f p := by
  rcases hp with ⟨name, hname, hplace⟩ | ⟨name, hname, hplace⟩
  · obtain rfl := hc name (c.filename_of_writes (Or.inl hname))
    exact Or.inl hplace
  · obtain rfl := hc name (c.filename_of_writes (Or.inr hname))
    exact Or.inr hplace

/-- The paths used for one file, their directories and their entries are not places
of another. -/
theorem clear_of_filePlace (hf : StorageName f) (hg : StorageName g) (hne : f ≠ g) {p : Path}
    (hp : FilePlace f p) : Clear (Place g) p := by
  have hplace := place_of_filePlace hf hp
  refine ⟨hplace.ne hne, ?_, ?_⟩
  · rcases hplace with rfl | rfl | ⟨name, rfl⟩
    · exact place_ne_storage
    · exact place_ne_versions hg
    · exact Place.ne (Or.inr (Or.inl rfl)) hne
  · intro entry
    rcases hplace with rfl | rfl | ⟨name, rfl⟩
    · rintro (h | h | ⟨name, h⟩)
      · simpa [storagePath] using congrArg List.length h
      · exact hf.ne_versions (List.cons.inj (List.cons.inj h).2).1
      · simpa [storagePath, versionsPath] using congrArg List.length h
    · exact Place.ne (Or.inr (Or.inr ⟨entry, rfl⟩)) hne
    · rintro (h | h | ⟨name', h⟩) <;>
        simpa [storagePath, versionsPath] using congrArg List.length h

/-! ## The calls -/

/-- The calls that go by the filename `f`, other than those that find or fill a slot. -/
def WorkerCall.GoesBy (f : Bytes) : {β : Type} → WorkerCall β → Prop
  | _, .updateFileMetadata name _ => name = f
  | _, .removeFileMetadata name => name = f
  | _, .acquireEditLock name _ _ => name = f
  | _, .releaseEditLock name _ => name = f
  | _, .checkEditLock name => name = f
  | _, .getFileVersion name => name = f
  | _, .saveVersion name _ => name = f
  | _, .saveFile name _ => name = f
  | _, .readFile name => name = f
  | _, .restoreVersion name _ => name = f
  | _, .removeFileFromStorage name => name = f
  | _, .listVersions name => name = f
  | _, .deleteVersion name _ => name = f
  | _, _ => False

section Calls

variable (h : Alike g world world') (hne : f ≠ g)

include h hne

theorem checkEditLock_alike (now : ℤ) :
    (checkEditLock world.metadata f now).1 = (checkEditLock world'.metadata f now).1 := by
  rcases h.record_cases hne with ⟨hr, hr'⟩ | ⟨r, r', hr, hr', hshown⟩
  · rw [checkEditLock_of_none hr, checkEditLock_of_none hr']
  · rw [checkEditLock_of_some hr, checkEditLock_of_some hr']
    rcases FileMetadata.shown_eq_cases hshown with rfl | ⟨hfree, hfree', -⟩
    · rfl
    · rw [if_neg fun hheld => hheld.1 hfree, if_neg fun hheld => hheld.1 hfree']

theorem acquireEditLock_alike (userId : ℤ) (username : Bytes) (now : ℤ) :
    (acquireEditLock world.metadata f userId username now).1 =
      (acquireEditLock world'.metadata f userId username now).1 := by
  rcases h.record_cases hne with ⟨hr, hr'⟩ | ⟨r, r', hr, hr', hshown⟩
  · unfold acquireEditLock
    rw [record?_eq_none.mp hr, record?_eq_none.mp hr']
  · rw [acquireEditLock_of_some hr, acquireEditLock_of_some hr']
    rcases FileMetadata.shown_eq_cases hshown with rfl | ⟨hfree, hfree', -⟩
    · rfl
    · rw [if_pos (Or.inl hfree), if_pos (Or.inl hfree')]

theorem releaseEditLock_alike (userId : ℤ) :
    (releaseEditLock world.metadata f userId).1 = (releaseEditLock world'.metadata f userId).1 := by
  rcases h.record_cases hne with ⟨hr, hr'⟩ | ⟨r, r', hr, hr', hshown⟩
  · rw [releaseEditLock_of_none hr, releaseEditLock_of_none hr']
  · rw [releaseEditLock_of_some hr, releaseEditLock_of_some hr',
      ← FileMetadata.lockedByUserId_eq hshown]

theorem getFileVersion_alike (date : ℤ → Bytes) :
    getFileVersion world.metadata f maxFileSize date =
      getFileVersion world'.metadata f maxFileSize date := by
  unfold getFileVersion
  rcases h.record_cases hne with ⟨hr, hr'⟩ | ⟨r, r', hr, hr', hshown⟩
  · rw [record?_eq_none.mp hr, record?_eq_none.mp hr']
  · obtain ⟨i, hfind, rfl⟩ := exists_slot hr
    obtain ⟨i', hfind', rfl⟩ := exists_slot hr'
    rw [hfind, hfind']
    have hname := FileMetadata.field_eq hshown (·.filename) fun _ => rfl
    have hversion := FileMetadata.field_eq hshown (·.version) fun _ => rfl
    have hsize := FileMetadata.field_eq hshown (·.fileSize) fun _ => rfl
    have howner := FileMetadata.field_eq hshown (·.ownerName) fun _ => rfl
    have hcreated := FileMetadata.field_eq hshown (·.created) fun _ => rfl
    have hmodified := FileMetadata.field_eq hshown (·.lastModified) fun _ => rfl
    have hholder := FileMetadata.lockedByUserId_eq hshown
    have hlock : (if (world.metadata i).lockedByUserId ≠ -1 then
          snprintf 64 (text "Locked by " ++ (world.metadata i).lockedByUsername)
        else text "Unlocked") =
        if (world'.metadata i').lockedByUserId ≠ -1 then
          snprintf 64 (text "Locked by " ++ (world'.metadata i').lockedByUsername)
        else text "Unlocked" := by
      rw [← hholder]
      split
      · next hheld => rw [FileMetadata.lockedByUsername_eq hshown hheld]
      · rfl
    simp only [hname, hversion, hsize, howner, hcreated, hmodified, hlock]

variable (e : Env) (hf : StorageName f) (hg : StorageName g)

include hf hg

/-- A file function for one file runs alike on both storages. -/
theorem alike_onDisk {α : Type} {prog : Prog Sys α} (hprog : UsesOnly (FilePlace f) prog) :
    (onDisk e prog world).1 = (onDisk e prog world').1 ∧
      Alike g (onDisk e prog world).2 (onDisk e prog world').2 := by
  obtain ⟨hanswer, htree⟩ := hprog.run_off (fun p hp => clear_of_filePlace hf hg hne hp)
    e.conditions h.tree
  exact ⟨hanswer, ⟨⟨h.unique, h.unique', h.record, htree⟩, h.room, h.room'⟩⟩

/-- A call on another file than `g` answers alike and keeps the worlds alike. -/
theorem alike_exec {β : Type} {c : WorkerCall β} (hc : c.GoesBy f) :
    (worker.exec e c world).1 = (worker.exec e c world').1 ∧
      Alike g (worker.exec e c world).2 (worker.exec e c world').2 := by
  cases c with
  | updateFileMetadata name size =>
      obtain rfl : name = f := hc
      refine ⟨?_, ⟨?_, h.room.sameNames (updateFileMetadata_sameNames name size e.now),
        h.room'.sameNames (updateFileMetadata_sameNames name size e.now)⟩⟩
      · show (updateFileMetadata world.metadata name size e.now).1 =
          (updateFileMetadata world'.metadata name size e.now).1
        rw [updateFileMetadata_fst, updateFileMetadata_fst, ← Option.isSome_map,
          h.record name hne, Option.isSome_map]
      · apply h.onRecord hne (fun r r' hshown => FileMetadata.shown_bumped hshown size e.now)
        · exact record?_updateFileMetadata name h.unique size e.now
        · exact record?_updateFileMetadata name h.unique' size e.now
  | removeFileMetadata name =>
      obtain rfl : name = f := hc
      refine ⟨?_, ⟨?_, h.room.remove name, h.room'.remove name⟩⟩
      · show (removeFileMetadata world.metadata name).1 = (removeFileMetadata world'.metadata name).1
        rw [removeFileMetadata_fst, removeFileMetadata_fst, ← Option.isSome_map,
          h.record name hne, Option.isSome_map]
      · exact h.onMetadata (record?_removeFileMetadata name h.unique)
          (record?_removeFileMetadata name h.unique') rfl
  | acquireEditLock name userId username =>
      obtain rfl : name = f := hc
      refine ⟨acquireEditLock_alike h hne userId username e.now,
        ⟨?_, h.room.sameNames (acquireEditLock_sameNames name userId username e.now),
          h.room'.sameNames (acquireEditLock_sameNames name userId username e.now)⟩⟩
      apply h.onRecord hne
        (fun r r' hshown => FileMetadata.shown_acquired hshown userId username e.now)
      · exact record?_acquireEditLock name h.unique userId username e.now
      · exact record?_acquireEditLock name h.unique' userId username e.now
  | releaseEditLock name userId =>
      obtain rfl : name = f := hc
      refine ⟨releaseEditLock_alike h hne userId,
        ⟨?_, h.room.sameNames (releaseEditLock_sameNames name userId),
          h.room'.sameNames (releaseEditLock_sameNames name userId)⟩⟩
      apply h.onRecord hne (fun r r' hshown => FileMetadata.shown_releasedBy hshown userId)
      · exact record?_releaseEditLock name h.unique userId
      · exact record?_releaseEditLock name h.unique' userId
  | checkEditLock name =>
      obtain rfl : name = f := hc
      refine ⟨checkEditLock_alike h hne e.now,
        ⟨?_, h.room.sameNames (checkEditLock_sameNames name e.now),
          h.room'.sameNames (checkEditLock_sameNames name e.now)⟩⟩
      apply h.onRecord hne (fun r r' hshown => FileMetadata.shown_checked hshown e.now)
      · exact record?_checkEditLock name h.unique e.now
      · exact record?_checkEditLock name h.unique' e.now
  | getFileVersion name =>
      obtain rfl : name = f := hc
      exact ⟨getFileVersion_alike h hne e.date, h⟩
  | saveVersion name k =>
      obtain rfl : name = f := hc
      exact alike_onDisk h hne e hf hg (saveVersion_usesOnly k)
  | saveFile name data =>
      obtain rfl : name = f := hc
      exact alike_onDisk h hne e hf hg (saveFile_usesOnly data)
  | readFile name =>
      obtain rfl : name = f := hc
      exact alike_onDisk h hne e hf hg readFile_usesOnly
  | restoreVersion name k =>
      obtain rfl : name = f := hc
      exact alike_onDisk h hne e hf hg (restoreVersion_usesOnly k)
  | removeFileFromStorage name =>
      obtain rfl : name = f := hc
      exact alike_onDisk h hne e hf hg removeFileFromStorage_usesOnly
  | listVersions name =>
      obtain rfl : name = f := hc
      obtain ⟨hlisted, halike⟩ :=
        alike_onDisk h hne e hf hg (listVersions_usesOnly maxFileSize e.modified)
      exact ⟨congrArg Prod.snd hlisted, halike⟩
  | deleteVersion name k =>
      obtain rfl : name = f := hc
      exact alike_onDisk h hne e hf hg (deleteVersion_usesOnly k)
  | _ => exact hc.elim

end Calls

end CloudSync
