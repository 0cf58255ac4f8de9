import CloudSync.Sequential.Holds

/-!
# The slot of one file

`located metaArray f` is the slot of `f` with the record in it.  It is all the
metadata functions see of the array when they are called for `f`, unless they have
to find an empty slot: two arrays that agree on it give the same answers and agree
on it afterwards (`located_exec`).  The functions called for other files leave it
alone (`located_exec_of_ne`): they overwrite the slots of those, or fill an empty
one.
-/

namespace CloudSync

open CText

/-- The slot of a filename, and the record in it. -/
def located (metaArray : MetaArray) (filename : Bytes) : Option (Slot × FileMetadata) :=
  (findSlot metaArray filename).map fun i => (i, metaArray i)

variable {metaArray metaArray' : MetaArray} {f : Bytes} {i : Slot} {r : FileMetadata}

theorem located_eq_none : located metaArray f = none ↔ findSlot metaArray f = none := by
  rw [located, Option.map_eq_none_iff]

theorem located_eq_some :
    located metaArray f = some (i, r) ↔ findSlot metaArray f = some i ∧ metaArray i = r := by
  rw [located, Option.map_eq_some_iff]
  constructor
  · rintro ⟨j, hj, heq⟩
    obtain ⟨rfl, rfl⟩ := Prod.mk.inj heq
    exact ⟨hj, rfl⟩
  · rintro ⟨hi, rfl⟩
    exact ⟨i, hi, rfl⟩

theorem located_of_findSlot (hfind : findSlot metaArray f = some i) :
    located metaArray f = some (i, metaArray i) := located_eq_some.mpr ⟨hfind, rfl⟩

theorem record?_eq_located (metaArray : MetaArray) (f : Bytes) :
    record? metaArray f = (located metaArray f).map Prod.snd := by
  rw [record?, located, Option.map_map]
  rfl

theorem findSlot_eq_located (metaArray : MetaArray) (f : Bytes) :
    findSlot metaArray f = (located metaArray f).map Prod.fst := by
  unfold located
  cases findSlot metaArray f with
  | none => rfl
  | some i => rfl

/-- The file is in neither array, or in one slot of both with one record. -/
theorem located_cases (h : located metaArray f = located metaArray' f) :
    (findSlot metaArray f = none ∧ findSlot metaArray' f = none) ∨
      ∃ i, findSlot metaArray f = some i ∧ findSlot metaArray' f = some i ∧
        metaArray i = metaArray' i := by
  cases hfind : findSlot metaArray f with
  | none =>
      rw [located_eq_none.mpr hfind, eq_comm] at h
      exact Or.inl ⟨rfl, located_eq_none.mp h⟩
  | some i =>
      rw [located_of_findSlot hfind, eq_comm] at h
      obtain ⟨hfind', hsame⟩ := located_eq_some.mp h
      exact Or.inr ⟨i, rfl, hfind', hsame.symm⟩

/-! ## Overwriting a slot -/

/-- A slot of another file, or an empty one, is overwritten. -/
theorem located_update_of_ne (hold : (metaArray i).isActive = true → (metaArray i).filename ≠ f)
    (hnew : r.isActive = true → r.filename ≠ f) :
    located (Function.update metaArray i r) f = located metaArray f := by
  have hfind : findSlot (Function.update metaArray i r) f = findSlot metaArray f := by
    apply findSlot_congr
    intro j
    by_cases hj : j = i
    · subst hj
      rw [Function.update_self]
      constructor
      · intro h
        exact absurd h.2 (hnew h.1)
      · intro h
        exact absurd h.2 (hold h.1)
    · rw [Function.update_of_ne hj]
  unfold located
  rw [hfind]
  cases hslot : findSlot metaArray f with
  | none => rfl
  | some j =>
      obtain ⟨hactive, hname⟩ := findSlot_spec hslot
      have hj : j ≠ i := by
        intro heq
        rw [heq] at hactive hname
        exact hold hactive hname
      rw [Option.map_some, Option.map_some, Function.update_of_ne hj]

/-- The slot of the file gets a record of the same file. -/
theorem located_overwrite (hfind : findSlot metaArray f = some i)
    (hactive : r.isActive = (metaArray i).isActive) (hname : r.filename = (metaArray i).filename) :
    located (Function.update metaArray i r) f = some (i, r) := by
  rw [located_eq_some, (SameNames.update hactive hname).findSlot_eq f]
  exact ⟨hfind, Function.update_self ..⟩

/-- In both arrays. -/
theorem located_overwrite_congr (hfind : findSlot metaArray f = some i)
    (hfind' : findSlot metaArray' f = some i) (hsame : metaArray i = metaArray' i)
    (hactive : r.isActive = (metaArray i).isActive) (hname : r.filename = (metaArray i).filename) :
    located (Function.update metaArray i r) f = located (Function.update metaArray' i r) f := by
  rw [located_overwrite hfind hactive hname,
    located_overwrite hfind' (hsame ▸ hactive) (hsame ▸ hname)]

/-! ## Calls for other files -/

section Others

variable {g : Bytes} (hne : g ≠ f)

include hne

/-- The slot found for another file is overwritten. -/
theorem located_overwrite_of_ne (hfind : findSlot metaArray g = some i)
    (hname : r.filename = (metaArray i).filename) :
    located (Function.update metaArray i r) f = located metaArray f := by
  obtain ⟨-, hiname⟩ := findSlot_spec hfind
  apply located_update_of_ne
  · exact fun _ => hiname ▸ hne
  · exact fun _ => (hname.trans hiname).symm ▸ hne

/-- The metadata functions called for another file leave the slot alone. -/
theorem located_exec_of_ne {β : Type} {c : WorkerCall β} (env : Env) (world : World)
    (hc : ∀ name ∈ c.filename, name = g) (hg : g.length < maxFilename) :
    located (worker.exec env c world).2.metadata f = located world.metadata f := by
  cases c with
  | addFileMetadata name ownerName ownerId size =>
      obtain rfl := hc name rfl
      show located (addFileMetadata world.metadata name ownerName ownerId size env.now).2 f = _
      unfold addFileMetadata
      split
      · next i hfind => exact located_overwrite_of_ne hne hfind rfl
      · split
        · next i hempty =>
          have hcopy : strncpy (maxFilename - 1) name = name :=
            List.take_of_length_le (Nat.le_sub_one_of_lt hg)
          apply located_update_of_ne
          · intro hactive
            rw [emptySlot_spec hempty] at hactive
            exact Bool.noConfusion hactive
          · rw [hcopy]
            exact fun _ => hne
        · rfl
  | updateFileMetadata name size =>
      obtain rfl := hc name rfl
      show located (updateFileMetadata world.metadata name size env.now).2 f = _
      unfold updateFileMetadata
      split
      · next i hfind => exact located_overwrite_of_ne hne hfind rfl
      · rfl
  | removeFileMetadata name =>
      obtain rfl := hc name rfl
      show located (removeFileMetadata world.metadata name).2 f = _
      unfold removeFileMetadata
      split
      · next i hfind => exact located_overwrite_of_ne hne hfind rfl
      · rfl
  | acquireEditLock name userId username =>
      obtain rfl := hc name rfl
      show located (acquireEditLock world.metadata name userId username env.now).2 f = _
      unfold acquireEditLock
      split
      · rfl
      · next i hfind =>
        have hgranted := located_overwrite_of_ne (r := (world.metadata i).granted userId username
          env.now) hne hfind rfl
        dsimp only
        split
        · split
          · exact hgranted
          · split <;> rfl
        · exact hgranted
  | releaseEditLock name userId =>
      obtain rfl := hc name rfl
      show located (releaseEditLock world.metadata name userId).2 f = _
      unfold releaseEditLock
      split
      · rfl
      · next i hfind =>
        split
        · rfl
        · split
          · rfl
          · exact located_overwrite_of_ne hne hfind rfl
  | checkEditLock name =>
      obtain rfl := hc name rfl
      show located (checkEditLock world.metadata name env.now).2 f = _
      unfold checkEditLock
      split
      · rfl
      · next i hfind =>
        split
        · split
          · exact located_overwrite_of_ne hne hfind rfl
          · rfl
        · rfl
  | _ => rw [metadata_exec _ _ _ rfl]

end Others

/-! ## Calls for the file -/

section Own

variable (h : located metaArray f = located metaArray' f)

include h

theorem updateFileMetadata_located (size now : ℤ) :
    (updateFileMetadata metaArray f size now).1 = (updateFileMetadata metaArray' f size now).1 ∧
      located (updateFileMetadata metaArray f size now).2 f =
        located (updateFileMetadata metaArray' f size now).2 f := by
  unfold updateFileMetadata
  rcases located_cases h with ⟨hfind, hfind'⟩ | ⟨i, hfind, hfind', hsame⟩
  · rw [hfind, hfind']
    exact ⟨rfl, h⟩
  · rw [hfind, hfind']
    dsimp only
    rw [← hsame]
    exact ⟨rfl, located_overwrite_congr hfind hfind' hsame rfl rfl⟩

theorem acquireEditLock_located (userId : ℤ) (username : Bytes) (now : ℤ) :
    (acquireEditLock metaArray f userId username now).1 =
        (acquireEditLock metaArray' f userId username now).1 ∧
      located (acquireEditLock metaArray f userId username now).2 f =
        located (acquireEditLock metaArray' f userId username now).2 f := by
  unfold acquireEditLock
  rcases located_cases h with ⟨hfind, hfind'⟩ | ⟨i, hfind, hfind', hsame⟩
  · rw [hfind, hfind']
    exact ⟨rfl, h⟩
  · have hgranted := located_overwrite_congr (r := (metaArray i).granted userId username now) hfind
      hfind' hsame rfl rfl
    rw [hfind, hfind']
    dsimp only
    rw [← hsame]
    split
    · split
      · exact ⟨rfl, hgranted⟩
      · split <;> exact ⟨rfl, h⟩
    · exact ⟨rfl, hgranted⟩

theorem releaseEditLock_located (userId : ℤ) :
    (releaseEditLock metaArray f userId).1 = (releaseEditLock metaArray' f userId).1 ∧
      located (releaseEditLock metaArray f userId).2 f =
        located (releaseEditLock metaArray' f userId).2 f := by
  unfold releaseEditLock
  rcases located_cases h with ⟨hfind, hfind'⟩ | ⟨i, hfind, hfind', hsame⟩
  · rw [hfind, hfind']
    exact ⟨rfl, h⟩
  · rw [hfind, hfind']
    dsimp only
    rw [← hsame]
    split
    · exact ⟨rfl, h⟩
    · split
      · exact ⟨rfl, h⟩
      · exact ⟨rfl, located_overwrite_congr hfind hfind' hsame rfl rfl⟩

theorem checkEditLock_located (now : ℤ) :
    (checkEditLock metaArray f now).1 = (checkEditLock metaArray' f now).1 ∧
      located (checkEditLock metaArray f now).2 f = located (checkEditLock metaArray' f now).2 f := by
  unfold checkEditLock
  rcases located_cases h with ⟨hfind, hfind'⟩ | ⟨i, hfind, hfind', hsame⟩
  · rw [hfind, hfind']
    exact ⟨rfl, h⟩
  · rw [hfind, hfind']
    dsimp only
    rw [← hsame]
    split
    · split
      · exact ⟨rfl, located_overwrite_congr hfind hfind' hsame rfl rfl⟩
      · exact ⟨rfl, h⟩
    · exact ⟨rfl, h⟩

theorem removeFileMetadata_located (hunique : UniqueNames metaArray)
    (hunique' : UniqueNames metaArray') :
    (removeFileMetadata metaArray f).1 = (removeFileMetadata metaArray' f).1 ∧
      located (removeFileMetadata metaArray f).2 f = located (removeFileMetadata metaArray' f).2 f := by
  have hgone : ∀ {metaArray : MetaArray}, UniqueNames metaArray →
      located (removeFileMetadata metaArray f).2 f = none := by
    intro metaArray hunique
    rw [located_eq_none, ← record?_eq_none, (record?_removeFileMetadata f hunique).1,
      Function.update_self]
  refine ⟨?_, (hgone hunique).trans (hgone hunique').symm⟩
  rw [removeFileMetadata_fst, removeFileMetadata_fst, record?_eq_located, record?_eq_located, h]

/-- The record is there, and is brought up to date in both. -/
theorem addFileMetadata_located (hfound : findSlot metaArray f ≠ none) (ownerName : Bytes)
    (ownerId size now : ℤ) :
    (addFileMetadata metaArray f ownerName ownerId size now).1 =
        (addFileMetadata metaArray' f ownerName ownerId size now).1 ∧
      located (addFileMetadata metaArray f ownerName ownerId size now).2 f =
        located (addFileMetadata metaArray' f ownerName ownerId size now).2 f := by
  have hupdate := updateFileMetadata_located h size now
  unfold addFileMetadata
  unfold updateFileMetadata at hupdate
  rcases located_cases h with ⟨hfind, -⟩ | ⟨i, hfind, hfind', -⟩
  · exact absurd hfind hfound
  · rw [hfind, hfind'] at hupdate ⊢
    exact hupdate

theorem getFileVersion_located (maxSize : ℕ) (date : ℤ → Bytes) :
    getFileVersion metaArray f maxSize date = getFileVersion metaArray' f maxSize date := by
  unfold getFileVersion
  rcases located_cases h with ⟨hfind, hfind'⟩ | ⟨i, hfind, hfind', hsame⟩
  · rw [hfind, hfind']
  · rw [hfind, hfind']
    dsimp only
    rw [← hsame]

end Own

end CloudSync
