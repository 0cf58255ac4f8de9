import CloudSync.Metadata
import Mathlib.Data.Set.Card

/-!
# The metadata array as a table of records

`record? metaArray f` is the record `find_file_metadata` points at.  The scans
of the source look at slots in order and skip inactive ones; here each metadata
function is described by what it does to the table `record? metaArray`, which is
an update at its own filename.  Slot positions disappear.

Two active slots with one name would make a removal uncover the second, so the
description of `remove_file_metadata` needs `UniqueNames`, which every function
keeps.
-/

namespace CloudSync

open CText

/-- No two active slots carry one filename. -/
def UniqueNames (metaArray : MetaArray) : Prop :=
  ∀ i j, (metaArray i).isActive = true → (metaArray j).isActive = true →
    (metaArray i).filename = (metaArray j).filename → i = j

/-- The record of a filename. -/
def record? (metaArray : MetaArray) (filename : Bytes) : Option FileMetadata :=
  (findSlot metaArray filename).map metaArray

variable {metaArray : MetaArray} {filename : Bytes} {i : Slot}

/-! ## The scans -/

theorem findSlot_spec (h : findSlot metaArray filename = some i) :
    (metaArray i).isActive = true ∧ (metaArray i).filename = filename := by
  have := List.find?_some h
  simpa using this

theorem findSlot_eq_none : findSlot metaArray filename = none ↔
    ∀ i, (metaArray i).isActive = true → (metaArray i).filename ≠ filename := by
  unfold findSlot
  rw [List.find?_eq_none]
  simp

theorem emptySlot_spec (h : emptySlot metaArray = some i) : (metaArray i).isActive = false := by
  have := List.find?_some h
  simpa using this

/-- Arrays that agree on which slots carry a name find the same slot. -/
theorem findSlot_congr {metaArray' : MetaArray}
    (h : ∀ i, ((metaArray' i).isActive = true ∧ (metaArray' i).filename = filename) ↔
      ((metaArray i).isActive = true ∧ (metaArray i).filename = filename)) :
    findSlot metaArray' filename = findSlot metaArray filename := by
  unfold findSlot
  congr 1
  funext i
  have hi := h i
  rw [Bool.eq_iff_iff]
  simpa using hi

theorem record?_of_findSlot (h : findSlot metaArray filename = some i) :
    record? metaArray filename = some (metaArray i) := by
  rw [record?, h, Option.map_some]

theorem record?_eq_none : record? metaArray filename = none ↔
    findSlot metaArray filename = none := by
  rw [record?, Option.map_eq_none_iff]

/-- The record found, and the slot it sits in. -/
theorem exists_slot {r : FileMetadata} (h : record? metaArray filename = some r) :
    ∃ i, findSlot metaArray filename = some i ∧ metaArray i = r :=
  Option.map_eq_some_iff.mp h

/-! ## Changing one slot -/

/-- No slot but `i` carries the filename. -/
def Sole (metaArray : MetaArray) (i : Slot) (filename : Bytes) : Prop :=
  ∀ j, j ≠ i → (metaArray j).isActive = true → (metaArray j).filename ≠ filename

theorem UniqueNames.sole (hunique : UniqueNames metaArray)
    (hfind : findSlot metaArray filename = some i) : Sole metaArray i filename := by
  obtain ⟨hi, hiname⟩ := findSlot_spec hfind
  intro j hj hjactive hjname
  exact hj (hunique j i hjactive hi (by rw [hjname, hiname]))

theorem sole_of_none (hnone : findSlot metaArray filename = none) (i : Slot) :
    Sole metaArray i filename :=
  fun j _ => findSlot_eq_none.mp hnone j

/-- Overwriting a slot that carries `filename` or nothing, by a record of
`filename` or an inactive one, changes the table at `filename` alone. -/
theorem record?_update {r : FileMetadata} (hsole : Sole metaArray i filename)
    (hold : (metaArray i).isActive = true → (metaArray i).filename = filename)
    (hnew : r.isActive = true → r.filename = filename) :
    record? (Function.update metaArray i r) =
      Function.update (record? metaArray) filename (if r.isActive then some r else none) := by
  funext g
  by_cases hg : g = filename
  · subst hg
    rw [Function.update_self]
    split
    · next hr =>
      have hunique : findSlot (Function.update metaArray i r) g = some i := by
        cases hfind : findSlot (Function.update metaArray i r) g with
        | none =>
            have := findSlot_eq_none.mp hfind i
            simp only [Function.update_self] at this
            exact absurd (hnew hr) (this hr)
        | some j =>
            by_contra hj
            have hji : j ≠ i := fun h => hj (by rw [h])
            have hspec := findSlot_spec hfind
            rw [Function.update_of_ne hji] at hspec
            exact hsole j hji hspec.1 hspec.2
      rw [record?_of_findSlot hunique, Function.update_self]
    · next hr =>
      rw [record?_eq_none, findSlot_eq_none]
      intro j hj hjname
      by_cases hji : j = i
      · subst hji
        rw [Function.update_self] at hj
        exact hr hj
      · rw [Function.update_of_ne hji] at hj hjname
        exact hsole j hji hj hjname
  · rw [Function.update_of_ne hg]
    have hsame : findSlot (Function.update metaArray i r) g = findSlot metaArray g := by
      apply findSlot_congr
      intro j
      by_cases hj : j = i
      · subst hj
        rw [Function.update_self]
        constructor
        · rintro ⟨hr, hrname⟩
          exact absurd (hrname.symm.trans (hnew hr)) hg
        · rintro ⟨hj, hjname⟩
          exact absurd (hjname.symm.trans (hold hj)) hg
      · rw [Function.update_of_ne hj]
    rw [record?, hsame, record?]
    cases hfind : findSlot metaArray g with
    | none => rfl
    | some j =>
        obtain ⟨hj, hjname⟩ := findSlot_spec hfind
        have hji : j ≠ i := by
          rintro rfl
          exact hg (hjname.symm.trans (hold hj))
        rw [Option.map_some, Option.map_some, Function.update_of_ne hji]

theorem UniqueNames.update {r : FileMetadata} (hunique : UniqueNames metaArray)
    (hsole : Sole metaArray i filename) (hnew : r.isActive = true → r.filename = filename) :
    UniqueNames (Function.update metaArray i r) := by
  intro j k hj hk hjk
  by_cases hji : j = i <;> by_cases hki : k = i
  · rw [hji, hki]
  · subst hji
    rw [Function.update_of_ne hki] at hk hjk
    rw [Function.update_self] at hj hjk
    exact absurd (hjk.symm.trans (hnew hj)) (hsole k hki hk)
  · subst hki
    rw [Function.update_of_ne hji] at hj hjk
    rw [Function.update_self] at hk hjk
    exact absurd (hjk.trans (hnew hk)) (hsole j hji hj)
  · rw [Function.update_of_ne hji] at hj hjk
    rw [Function.update_of_ne hki] at hk hjk
    exact hunique j k hj hk hjk

theorem initMetadata_unique : UniqueNames initMetadata :=
  fun _ _ hi => Bool.noConfusion hi

theorem record?_initMetadata : record? initMetadata filename = none := by
  rw [record?_eq_none, findSlot_eq_none]
  exact fun _ hi => Bool.noConfusion hi

/-! ## Active slots -/

/-- The slots in use. -/
def activeSlots (metaArray : MetaArray) : Finset Slot :=
  Finset.univ.filter fun i => (metaArray i).isActive

/-- The files that have a record. -/
def activeNames (metaArray : MetaArray) : Finset Bytes :=
  (activeSlots metaArray).image fun i => (metaArray i).filename

theorem mem_activeSlots : i ∈ activeSlots metaArray ↔ (metaArray i).isActive = true := by
  simp [activeSlots]

theorem mem_activeNames :
    filename ∈ activeNames metaArray ↔ (record? metaArray filename).isSome := by
  unfold activeNames
  rw [Finset.mem_image]
  constructor
  · rintro ⟨i, hi, hname⟩
    by_contra hnone
    rw [Option.not_isSome_iff_eq_none, record?_eq_none, findSlot_eq_none] at hnone
    exact hnone i (mem_activeSlots.mp hi) hname
  · intro hsome
    obtain ⟨r, hr⟩ := Option.isSome_iff_exists.mp hsome
    obtain ⟨i, hfind, -⟩ := exists_slot hr
    obtain ⟨hactive, hname⟩ := findSlot_spec hfind
    exact ⟨i, mem_activeSlots.mpr hactive, hname⟩

/-- Every file with a record has one slot. -/
theorem UniqueNames.card_activeNames (hunique : UniqueNames metaArray) :
    (activeNames metaArray).card = (activeSlots metaArray).card := by
  unfold activeNames
  rw [Finset.card_image_of_injOn]
  intro i hi j hj hij
  exact hunique i j (mem_activeSlots.mp hi) (mem_activeSlots.mp hj) hij

theorem card_activeSlots_le : (activeSlots metaArray).card ≤ maxFiles := by
  calc
    (activeSlots metaArray).card ≤ (Finset.univ : Finset Slot).card := Finset.card_filter_le _ _
    _ = maxFiles := Finset.card_fin maxFiles

theorem emptySlot_eq_none :
    emptySlot metaArray = none ↔ ∀ i, (metaArray i).isActive = true := by
  unfold emptySlot
  rw [List.find?_eq_none]
  simp

/-- A slot is free as long as not all are in use. -/
theorem exists_emptySlot (hroom : (activeSlots metaArray).card < maxFiles) :
    ∃ i, emptySlot metaArray = some i := by
  by_contra hnone
  rw [← Option.isSome_iff_exists, Option.not_isSome_iff_eq_none, emptySlot_eq_none] at hnone
  have hall : activeSlots metaArray = Finset.univ := Finset.filter_true_of_mem fun i _ => hnone i
  rw [hall, Finset.card_fin] at hroom
  exact lt_irrefl _ hroom

/-- No slot is free once all are in use. -/
theorem emptySlot_of_full (hfull : maxFiles ≤ (activeSlots metaArray).card) :
    emptySlot metaArray = none := by
  have hall : activeSlots metaArray = Finset.univ := by
    apply Finset.eq_univ_of_card
    rw [Fintype.card_fin]
    exact le_antisymm card_activeSlots_le hfull
  rw [emptySlot_eq_none]
  intro i
  exact mem_activeSlots.mp (hall ▸ Finset.mem_univ i)

/-! ## What the functions do to a record -/

namespace FileMetadata

variable (r : FileMetadata)

/-- The lock has been held for more than `lockTimeoutSecs`. -/
def Stale (now : ℤ) : Prop := r.lockedByUserId ≠ -1 ∧ now - r.lockAcquiredAt > lockTimeoutSecs

instance (now : ℤ) : Decidable (r.Stale now) := by
  unfold Stale
  infer_instance

/-- After a new version was recorded. -/
def bumped (size now : ℤ) : FileMetadata :=
  { r with version := int32 (r.version + 1), fileSize := size, lastModified := now }

/-- After the lock was granted. -/
def granted (userId : ℤ) (username : Bytes) (now : ℤ) : FileMetadata :=
  { r with
    lockedByUserId := userId
    lockedByUsername := strncpy (maxUsername - 1) username
    lockAcquiredAt := now }

/-- After a stale lock was cleared. -/
def cleared : FileMetadata := { r with lockedByUserId := -1 }

/-- After the holder released the lock. -/
def released : FileMetadata :=
  { r with lockedByUserId := -1, lockedByUsername := [], lockAcquiredAt := 0 }

/-- After `check_edit_lock`. -/
def checked (now : ℤ) : FileMetadata := if r.Stale now then r.cleared else r

/-- After `acquire_edit_lock`. -/
def acquired (userId : ℤ) (username : Bytes) (now : ℤ) : FileMetadata :=
  if r.lockedByUserId = -1 ∨ r.Stale now then r.granted userId username now else r

/-- After `release_edit_lock`. -/
def releasedBy (userId : ℤ) : FileMetadata :=
  if r.lockedByUserId ≠ -1 ∧ r.lockedByUserId = userId then r.released else r

/-- `r'` is `r`, maybe with another lock. -/
def Relocked (r r' : FileMetadata) : Prop :=
  ∃ userId username time, r' = { r with
    lockedByUserId := userId
    lockedByUsername := username
    lockAcquiredAt := time }

theorem relocked_checked (now : ℤ) : r.Relocked (r.checked now) := by
  unfold checked
  split <;> exact ⟨_, _, _, rfl⟩

theorem relocked_acquired (userId : ℤ) (username : Bytes) (now : ℤ) :
    r.Relocked (r.acquired userId username now) := by
  unfold acquired
  split <;> exact ⟨_, _, _, rfl⟩

theorem relocked_releasedBy (userId : ℤ) : r.Relocked (r.releasedBy userId) := by
  unfold releasedBy
  split <;> exact ⟨_, _, _, rfl⟩

variable {r} {r' : FileMetadata}

theorem Relocked.ownerId (h : r.Relocked r') : r'.ownerId = r.ownerId := by
  obtain ⟨_, _, _, rfl⟩ := h
  rfl

theorem Relocked.version (h : r.Relocked r') : r'.version = r.version := by
  obtain ⟨_, _, _, rfl⟩ := h
  rfl

theorem Relocked.fileSize (h : r.Relocked r') : r'.fileSize = r.fileSize := by
  obtain ⟨_, _, _, rfl⟩ := h
  rfl

end FileMetadata

/-- A table update that leaves the entry as it is. -/
theorem record?_unchanged : record? metaArray =
    Function.update (record? metaArray) filename (record? metaArray filename) :=
  (Function.update_eq_self _ _).symm

/-- Overwriting the slot found for `filename` by another record of it. -/
theorem record?_overwrite (hunique : UniqueNames metaArray)
    (hfind : findSlot metaArray filename = some i) {r : FileMetadata}
    (hactive : r.isActive = (metaArray i).isActive) (hname : r.filename = (metaArray i).filename) :
    record? (Function.update metaArray i r) =
      Function.update (record? metaArray) filename (some r) ∧
    UniqueNames (Function.update metaArray i r) := by
  obtain ⟨hi, hiname⟩ := findSlot_spec hfind
  have hsole := hunique.sole hfind
  refine ⟨?_, hunique.update hsole fun _ => hname.trans hiname⟩
  rw [record?_update hsole (fun _ => hiname) (fun _ => hname.trans hiname), hactive, hi, if_pos rfl]

/-- The record `add_file_metadata` makes for a new file.  The slot's old lock
name and time stay in it. -/
def newRecord (filename ownerName : Bytes) (ownerId size now : ℤ) (slot : FileMetadata) :
    FileMetadata :=
  { slot with
    filename := filename
    ownerName := strncpy (maxUsername - 1) ownerName
    ownerId := ownerId
    version := 1
    fileSize := size
    isActive := true
    created := now
    lastModified := now
    lockedByUserId := -1 }

section Functions

variable (filename) (hunique : UniqueNames metaArray)

include hunique

theorem record?_checkEditLock (now : ℤ) :
    record? (checkEditLock metaArray filename now).2 = Function.update (record? metaArray) filename
      ((record? metaArray filename).map (·.checked now)) ∧
    UniqueNames (checkEditLock metaArray filename now).2 := by
  unfold checkEditLock
  cases hfind : findSlot metaArray filename with
  | none =>
      have hnone := record?_eq_none.mpr hfind
      simp only [hnone, Option.map_none]
      exact ⟨hnone ▸ record?_unchanged, hunique⟩
  | some i =>
      rw [record?_of_findSlot hfind, Option.map_some]
      dsimp only
      unfold FileMetadata.checked
      by_cases hlocked : (metaArray i).lockedByUserId ≠ -1
      · by_cases hstale : now - (metaArray i).lockAcquiredAt > lockTimeoutSecs
        · have hold : (metaArray i).Stale now := ⟨hlocked, hstale⟩
          rw [if_pos hlocked, if_pos hstale, if_pos hold]
          exact record?_overwrite hunique hfind rfl rfl
        · have hfresh : ¬ (metaArray i).Stale now := fun h => hstale h.2
          rw [if_pos hlocked, if_neg hstale, if_neg hfresh, ← record?_of_findSlot hfind]
          exact ⟨record?_unchanged, hunique⟩
      · have hfresh : ¬ (metaArray i).Stale now := fun h => hlocked h.1
        rw [if_neg hlocked, if_neg hfresh, ← record?_of_findSlot hfind]
        exact ⟨record?_unchanged, hunique⟩

theorem record?_acquireEditLock (userId : ℤ) (username : Bytes) (now : ℤ) :
    record? (acquireEditLock metaArray filename userId username now).2 =
      Function.update (record? metaArray) filename
        ((record? metaArray filename).map (·.acquired userId username now)) ∧
    UniqueNames (acquireEditLock metaArray filename userId username now).2 := by
  unfold acquireEditLock
  cases hfind : findSlot metaArray filename with
  | none =>
      have hnone := record?_eq_none.mpr hfind
      simp only [hnone, Option.map_none]
      exact ⟨hnone ▸ record?_unchanged, hunique⟩
  | some i =>
      have hgranted := record?_overwrite hunique hfind
        (r := (metaArray i).granted userId username now) rfl rfl
      rw [record?_of_findSlot hfind, Option.map_some]
      dsimp only
      unfold FileMetadata.acquired
      by_cases hlocked : (metaArray i).lockedByUserId ≠ -1
      · by_cases hstale : now - (metaArray i).lockAcquiredAt > lockTimeoutSecs
        · have hold : (metaArray i).Stale now := ⟨hlocked, hstale⟩
          rw [if_pos hlocked, if_pos hstale, if_pos (Or.inr hold)]
          exact hgranted
        · have hheld : ¬ ((metaArray i).lockedByUserId = -1 ∨ (metaArray i).Stale now) := by
            rintro (h | h)
            · exact hlocked h
            · exact hstale h.2
          rw [if_pos hlocked, if_neg hstale, if_neg hheld, ← record?_of_findSlot hfind]
          split <;> exact ⟨record?_unchanged, hunique⟩
      · rw [if_neg hlocked, if_pos (Or.inl (not_not.mp hlocked))]
        exact hgranted

theorem record?_releaseEditLock (userId : ℤ) :
    record? (releaseEditLock metaArray filename userId).2 =
      Function.update (record? metaArray) filename
        ((record? metaArray filename).map (·.releasedBy userId)) ∧
    UniqueNames (releaseEditLock metaArray filename userId).2 := by
  unfold releaseEditLock
  cases hfind : findSlot metaArray filename with
  | none =>
      have hnone := record?_eq_none.mpr hfind
      simp only [hnone, Option.map_none]
      exact ⟨hnone ▸ record?_unchanged, hunique⟩
  | some i =>
      rw [record?_of_findSlot hfind, Option.map_some]
      dsimp only
      unfold FileMetadata.releasedBy
      by_cases hfree : (metaArray i).lockedByUserId = -1
      · rw [if_pos hfree, if_neg fun h => h.1 hfree, ← record?_of_findSlot hfind]
        exact ⟨record?_unchanged, hunique⟩
      · by_cases hholder : (metaArray i).lockedByUserId = userId
        · rw [if_neg hfree, if_neg (not_not.mpr hholder), if_pos ⟨hfree, hholder⟩]
          exact record?_overwrite hunique hfind rfl rfl
        · rw [if_neg hfree, if_pos hholder, if_neg fun h => hholder h.2,
            ← record?_of_findSlot hfind]
          exact ⟨record?_unchanged, hunique⟩

theorem record?_updateFileMetadata (size now : ℤ) :
    record? (updateFileMetadata metaArray filename size now).2 =
      Function.update (record? metaArray) filename
        ((record? metaArray filename).map (·.bumped size now)) ∧
    UniqueNames (updateFileMetadata metaArray filename size now).2 := by
  unfold updateFileMetadata
  cases hfind : findSlot metaArray filename with
  | none =>
      have hnone := record?_eq_none.mpr hfind
      simp only [hnone, Option.map_none]
      exact ⟨hnone ▸ record?_unchanged, hunique⟩
  | some i =>
      rw [record?_of_findSlot hfind, Option.map_some]
      exact record?_overwrite hunique hfind rfl rfl

theorem record?_removeFileMetadata :
    record? (removeFileMetadata metaArray filename).2 =
      Function.update (record? metaArray) filename none ∧
    UniqueNames (removeFileMetadata metaArray filename).2 := by
  unfold removeFileMetadata
  cases hfind : findSlot metaArray filename with
  | none =>
      have hnone := record?_eq_none.mpr hfind
      exact ⟨hnone ▸ record?_unchanged, hunique⟩
  | some i =>
      have hsole := hunique.sole hfind
      refine ⟨?_, hunique.update hsole fun h => Bool.noConfusion h⟩
      rw [record?_update hsole (fun _ => (findSlot_spec hfind).2) fun h => Bool.noConfusion h]
      rfl

variable {filename}

/-- `add_file_metadata` on an existing file. -/
theorem record?_addFileMetadata_of_some {r : FileMetadata} (hr : record? metaArray filename = some r)
    (ownerName : Bytes) (ownerId size now : ℤ) :
    (addFileMetadata metaArray filename ownerName ownerId size now).1 = 0 ∧
    record? (addFileMetadata metaArray filename ownerName ownerId size now).2 =
      Function.update (record? metaArray) filename (some (r.bumped size now)) ∧
    UniqueNames (addFileMetadata metaArray filename ownerName ownerId size now).2 := by
  obtain ⟨i, hfind, rfl⟩ := exists_slot hr
  unfold addFileMetadata
  rw [hfind]
  exact ⟨rfl, record?_overwrite hunique hfind rfl rfl⟩

/-- `add_file_metadata` on a new file, with a slot free. -/
theorem record?_addFileMetadata_of_none (hnone : record? metaArray filename = none)
    (hempty : emptySlot metaArray = some i) (hfilename : filename.length < maxFilename)
    (ownerName : Bytes) (ownerId size now : ℤ) :
    (addFileMetadata metaArray filename ownerName ownerId size now).1 = 0 ∧
    record? (addFileMetadata metaArray filename ownerName ownerId size now).2 =
      Function.update (record? metaArray) filename
        (some (newRecord filename ownerName ownerId size now (metaArray i))) ∧
    UniqueNames (addFileMetadata metaArray filename ownerName ownerId size now).2 := by
  have hfind := record?_eq_none.mp hnone
  have hsole := sole_of_none hfind i
  have hcopy : strncpy (maxFilename - 1) filename = filename :=
    List.take_of_length_le (Nat.le_sub_one_of_lt hfilename)
  unfold addFileMetadata
  rw [hfind, hempty]
  dsimp only
  rw [hcopy]
  refine ⟨rfl, ?_, hunique.update hsole fun _ => rfl⟩
  rw [record?_update hsole _ fun _ => rfl]
  · rfl
  · intro hi
    rw [emptySlot_spec hempty] at hi
    exact Bool.noConfusion hi

end Functions

/-- `add_file_metadata` on a new file, with no slot free. -/
theorem addFileMetadata_full (hnone : record? metaArray filename = none)
    (hempty : emptySlot metaArray = none) (ownerName : Bytes) (ownerId size now : ℤ) :
    addFileMetadata metaArray filename ownerName ownerId size now = (-1, metaArray) := by
  unfold addFileMetadata
  rw [record?_eq_none.mp hnone, hempty]

/-! ## What the functions answer -/

theorem addFileMetadata_of_some {r : FileMetadata} (hr : record? metaArray filename = some r)
    (ownerName : Bytes) (ownerId size now : ℤ) :
    (addFileMetadata metaArray filename ownerName ownerId size now).1 = 0 := by
  obtain ⟨i, hfind, -⟩ := exists_slot hr
  unfold addFileMetadata
  rw [hfind]

theorem checkEditLock_of_none (hnone : record? metaArray filename = none) (now : ℤ) :
    checkEditLock metaArray filename now = ((false, []), metaArray) := by
  unfold checkEditLock
  rw [record?_eq_none.mp hnone]

theorem checkEditLock_of_some {r : FileMetadata} (hr : record? metaArray filename = some r)
    (now : ℤ) :
    (checkEditLock metaArray filename now).1 =
      if r.lockedByUserId ≠ -1 ∧ ¬ r.Stale now then
        (true, strncpy (maxUsername - 1) r.lockedByUsername)
      else (false, []) := by
  obtain ⟨i, hfind, rfl⟩ := exists_slot hr
  unfold checkEditLock FileMetadata.Stale
  rw [hfind]
  dsimp only
  by_cases hlocked : (metaArray i).lockedByUserId ≠ -1
  · by_cases hstale : now - (metaArray i).lockAcquiredAt > lockTimeoutSecs
    · simp [hlocked, hstale]
    · simp [hlocked, hstale]
  · simp [hlocked]

/-- Nobody holds the lock of a file that `check_edit_lock` calls unlocked. -/
theorem unlocked_of_checkEditLock (hunique : UniqueNames metaArray) {now : ℤ}
    (hfree : (checkEditLock metaArray filename now).1.1 = false) :
    ∀ r ∈ record? (checkEditLock metaArray filename now).2 filename, r.lockedByUserId = -1 := by
  intro r' hr'
  rw [(record?_checkEditLock _ hunique now).1, Function.update_self] at hr'
  obtain ⟨r, hr, rfl⟩ := Option.map_eq_some_iff.mp hr'
  rw [checkEditLock_of_some hr] at hfree
  unfold FileMetadata.checked
  by_cases hstale : r.Stale now
  · rw [if_pos hstale]
    rfl
  · rw [if_neg hstale]
    by_contra hlocked
    rw [if_pos ⟨hlocked, hstale⟩] at hfree
    exact Bool.noConfusion hfree

theorem acquireEditLock_of_some {r : FileMetadata} (hr : record? metaArray filename = some r)
    (userId : ℤ) (username : Bytes) (now : ℤ) :
    (acquireEditLock metaArray filename userId username now).1 =
      if r.lockedByUserId = -1 ∨ r.Stale now ∨ r.lockedByUserId = userId then 0 else -2 := by
  obtain ⟨i, hfind, rfl⟩ := exists_slot hr
  unfold acquireEditLock FileMetadata.Stale
  rw [hfind]
  dsimp only
  by_cases hlocked : (metaArray i).lockedByUserId ≠ -1
  · by_cases hstale : now - (metaArray i).lockAcquiredAt > lockTimeoutSecs
    · simp [hlocked, hstale]
    · by_cases hholder : (metaArray i).lockedByUserId = userId
      · subst hholder
        simp [hlocked, hstale]
      · simp [hlocked, hstale, hholder]
  · simp [not_not.mp hlocked]

/-- Where `acquire_edit_lock` answers 0, the record names the user as the holder. -/
theorem lockedByUserId_of_granted (hunique : UniqueNames metaArray) {userId now : ℤ}
    {username : Bytes}
    (hzero : (acquireEditLock metaArray filename userId username now).1 = 0) :
    ∀ r ∈ record? (acquireEditLock metaArray filename userId username now).2 filename,
      r.lockedByUserId = userId := by
  intro r' hr'
  rw [(record?_acquireEditLock _ hunique userId username now).1, Function.update_self] at hr'
  obtain ⟨r, hr, rfl⟩ := Option.map_eq_some_iff.mp hr'
  rw [acquireEditLock_of_some hr] at hzero
  unfold FileMetadata.acquired
  split
  · rfl
  · next hheld =>
    by_contra hother
    have hrefused : ¬ (r.lockedByUserId = -1 ∨ r.Stale now ∨ r.lockedByUserId = userId) := by
      rintro (h | h | h)
      · exact hheld (Or.inl h)
      · exact hheld (Or.inr h)
      · exact hother h
    rw [if_neg hrefused] at hzero
    exact absurd hzero (by decide)

theorem releaseEditLock_of_none (hnone : record? metaArray filename = none) (userId : ℤ) :
    releaseEditLock metaArray filename userId = (-1, metaArray) := by
  unfold releaseEditLock
  rw [record?_eq_none.mp hnone]

theorem releaseEditLock_of_some {r : FileMetadata} (hr : record? metaArray filename = some r)
    (userId : ℤ) :
    (releaseEditLock metaArray filename userId).1 =
      if r.lockedByUserId = -1 ∨ r.lockedByUserId = userId then 0 else -2 := by
  obtain ⟨i, hfind, rfl⟩ := exists_slot hr
  unfold releaseEditLock
  rw [hfind]
  dsimp only
  by_cases hfree : (metaArray i).lockedByUserId = -1
  · simp [hfree]
  · by_cases hholder : (metaArray i).lockedByUserId = userId
    · subst hholder
      simp [hfree]
    · simp [hfree, hholder]

theorem updateFileMetadata_fst (filename : Bytes) (size now : ℤ) :
    (updateFileMetadata metaArray filename size now).1 =
      if (record? metaArray filename).isSome then 0 else -1 := by
  unfold updateFileMetadata record?
  cases findSlot metaArray filename <;> rfl

theorem removeFileMetadata_fst (filename : Bytes) :
    (removeFileMetadata metaArray filename).1 =
      if (record? metaArray filename).isSome then 0 else -1 := by
  unfold removeFileMetadata record?
  cases findSlot metaArray filename <;> rfl

theorem findFileMetadata_eq_none : findFileMetadata metaArray filename = none ↔
    record? metaArray filename = none := record?_eq_none.symm

theorem record?_of_findFileMetadata (h : findFileMetadata metaArray filename = some i) :
    record? metaArray filename = some (metaArray i) := record?_of_findSlot h

end CloudSync
