import CloudSync.Sequential.Runs
import CloudSync.Sequential.Spec

/-!
# The calls of a task when nothing goes wrong

`At world f s world'` is the relation kept from call to call when a task on `f`
runs alone: `world'` differs from `world` in the file `f` only, which is in state
`s`.  There is one rule for each call that a task makes, saying how `s` moves on.
-/

namespace CloudSync

open CText Calls Calls.Prog Files

/-- What the world holds about a filename. -/
def World.file (world : World) (f : Bytes) : FileState :=
  ⟨record? world.metadata f, content world.tree f, storedVersion world.tree f⟩

/-- `world'` is `world` with `f` in state `s`. -/
structure At (world : World) (f : Bytes) (s : FileState) (world' : World) : Prop where
  unique : UniqueNames world'.metadata
  record : record? world'.metadata = Function.update (record? world.metadata) f s.record
  store : Leaves world.tree f s.content s.versions world'.tree

variable {world world' : World} {f : Bytes} {s : FileState}

theorem At.record_eq (h : At world f s world') : record? world'.metadata f = s.record := by
  rw [h.record, Function.update_self]

theorem At.file (h : At world f s world') : world'.file f = s := by
  ext1
  · exact h.record_eq
  · exact h.store.content
  · exact h.store.versions

theorem at_self (hunique : UniqueNames world.metadata) (hok : StoreOk world.tree) :
    At world f (world.file f) world :=
  ⟨hunique, record?_unchanged, leaves_self hok⟩

theorem At.same {world'' : World} (h : At world f s world')
    (hmeta : world''.metadata = world'.metadata) (htree : world''.tree = world'.tree) :
    At world f s world'' :=
  ⟨hmeta ▸ h.unique, hmeta ▸ h.record, htree ▸ h.store⟩

/-- What is stored where decides. -/
theorem At.congr {world'' : World} (h : At world f s world')
    (hmeta : world''.metadata = world'.metadata)
    (htree : ∀ p, world''.tree.at? p = world'.tree.at? p) : At world f s world'' :=
  ⟨hmeta ▸ h.unique, hmeta ▸ h.record, h.store.congr htree⟩

/-- The storage changed. -/
theorem At.onDisk (h : At world f s world') {content' : Option Bytes}
    {versions' : ℤ → Option Bytes} {t' : Tree}
    (hleaves : Leaves world'.tree f content' versions' t') :
    At world f { s with content := content', versions := versions' } { world' with tree := t' } :=
  ⟨h.unique, h.record, h.store.trans hleaves⟩

/-- The record changed. -/
theorem At.onMetadata (h : At world f s world') {record' : Option FileMetadata}
    {metaArray : MetaArray}
    (hupdate : record? metaArray = Function.update (record? world'.metadata) f record' ∧
      UniqueNames metaArray) :
    At world f { s with record := record' } { world' with metadata := metaArray } := by
  refine ⟨hupdate.2, ?_, h.store⟩
  rw [hupdate.1, h.record, Function.update_idem]

/-! ## The calls -/

section Calls

variable {ok : Env → Prop} {α : Type} {Q : α → World → Prop}

/-- A file function, by what it does when nothing goes wrong. -/
theorem wp_onDisk (hfine : ∀ e, ok e → e.Fine) {β : Type} {prog : Prog Sys β}
    {P : β → Tree → Prop} (hspec : wp disk Conditions.Fine prog P world'.tree)
    {c : WorkerCall β} (hexec : ∀ e, worker.exec e c world' = CloudSync.onDisk e prog world')
    {next : β → Prog WorkerCall α}
    (hnext : ∀ answer t', P answer t' → wp worker ok (next answer) Q { world' with tree := t' }) :
    wp worker ok (.call c next) Q world' := by
  intro e he
  rw [hexec e]
  exact hnext _ _ (wp_run hspec (hfine e he))

variable (hfine : ∀ e, ok e → e.Fine) (h : At world f s world') (hf : StorageName f)

include hfine h hf

theorem wp_saveFile {data : Bytes} {next : ℤ → Prog WorkerCall α}
    (hnext : ∀ world'', world''.metadata = world'.metadata →
      At world f { s with content := some data } world'' → wp worker ok (next 0) Q world'') :
    wp worker ok (.call (.saveFile f data) next) Q world' := by
  refine wp_onDisk hfine (saveFile_fine h.store.ok.writable hf data) (fun _ => rfl) ?_
  rintro answer t' ⟨rfl, htree⟩
  have hleaves := leaves_content h.store.ok hf htree
  rw [h.store.versions] at hleaves
  exact hnext _ rfl (h.onDisk hleaves)

theorem wp_readFile {next : ℤ × Bytes → Prog WorkerCall α}
    (hnext : ∀ world'', At world f s world'' →
      wp worker ok (next (s.content.elim (-1, []) fun bytes => (0, bytes.take maxFileSize)))
        Q world'') :
    wp worker ok (.call (.readFile f) next) Q world' := by
  refine wp_onDisk hfine (readFile_fine hf) (fun _ => rfl) ?_
  rintro answer t' ⟨rfl, rfl⟩
  rw [h.store.content]
  exact hnext _ h

theorem wp_saveVersion {n : ℤ} (hn : InInt n) (hfew : {k | (s.versions k).isSome}.encard ≤ 255)
    {next : ℤ → Prog WorkerCall α}
    (hnext : ∀ world'', At world f { s with versions := backedUp s.content n s.versions } world'' →
      wp worker ok (next 0) Q world'') :
    wp worker ok (.call (.saveVersion f n) next) Q world' := by
  have hstored : stored world'.tree f = {k | (s.versions k).isSome} := h.store.stored_eq hf
  refine wp_onDisk hfine (saveVersion_fine h.store.ok hf hn (hstored ▸ hfew)) (fun _ => rfl) ?_
  rintro answer t' ⟨rfl, hleaves⟩
  rw [h.store.content, h.store.versions] at hleaves
  exact hnext _ (h.onDisk hleaves)

theorem wp_restoreVersion {k : ℤ} (hk : InInt k) {next : ℤ → Prog WorkerCall α}
    (hnone : s.versions k = none → ∀ world'', At world f s world'' →
      wp worker ok (next (-1)) Q world'')
    (hsome : ∀ bytes, s.versions k = some bytes → ∀ world'',
      At world f { s with content := some bytes } world'' →
        wp worker ok (next bytes.length) Q world'') :
    wp worker ok (.call (.restoreVersion f k) next) Q world' := by
  refine wp_onDisk hfine (restoreVersion_fine h.store.ok hf hk) (fun _ => rfl) ?_
  intro answer t' hrestored
  rw [h.store.versions] at hrestored
  cases hversion : s.versions k with
  | none =>
      obtain ⟨rfl, rfl⟩ := hrestored.1 hversion
      exact hnone hversion _ h
  | some bytes =>
      obtain ⟨rfl, hleaves⟩ := hrestored.2 bytes hversion
      exact hsome bytes hversion _ (h.onDisk hleaves)

theorem wp_deleteVersion {k : ℤ} (hk : InInt k) {next : ℤ → Prog WorkerCall α}
    (hnone : s.versions k = none → ∀ world'', At world f s world'' →
      wp worker ok (next (-1)) Q world'')
    (hsome : ∀ bytes, s.versions k = some bytes → ∀ world'',
      At world f { s with versions := Function.update s.versions k none } world'' →
        wp worker ok (next 0) Q world'') :
    wp worker ok (.call (.deleteVersion f k) next) Q world' := by
  refine wp_onDisk hfine (deleteVersion_fine h.store.ok hf hk) (fun _ => rfl) ?_
  intro answer t' hdeleted
  rw [h.store.content, h.store.versions] at hdeleted
  cases hversion : s.versions k with
  | none =>
      obtain ⟨rfl, rfl⟩ := hdeleted.1 hversion
      exact hnone hversion _ h
  | some bytes =>
      obtain ⟨rfl, hleaves⟩ := hdeleted.2 bytes hversion
      exact hsome bytes hversion _ (h.onDisk hleaves)

theorem wp_removeFileFromStorage {next : ℤ → Prog WorkerCall α}
    (hnone : s.content = none → ∀ world'', At world f s world'' →
      wp worker ok (next (-1)) Q world'')
    (hsome : s.content ≠ none → ∀ world'',
      At world f { s with content := none, versions := fun _ => none } world'' →
        wp worker ok (next 0) Q world'') :
    wp worker ok (.call (.removeFileFromStorage f) next) Q world' := by
  refine wp_onDisk hfine (removeFileFromStorage_fine h.store.ok hf) (fun _ => rfl) ?_
  intro answer t' hremoved
  rw [h.store.content] at hremoved
  cases hcontent : s.content with
  | none =>
      obtain ⟨rfl, rfl⟩ := hremoved.1 hcontent
      exact hnone hcontent _ h
  | some bytes =>
      obtain ⟨rfl, hleaves⟩ := hremoved.2 bytes hcontent
      exact hsome (by simp [hcontent]) _ (h.onDisk hleaves)

omit hfine hf

/-- Listing the versions changes nothing; what it prints is left open. -/
theorem wp_listVersions {next : Bytes → Prog WorkerCall α}
    (hnext : ∀ listing world'', At world f s world'' → wp worker ok (next listing) Q world'') :
    wp worker ok (.call (.listVersions f) next) Q world' := by
  intro e _
  have htree : ∀ p, (worker.exec e (.listVersions f) world').2.tree.at? p = world'.tree.at? p :=
    fun p => (listVersions_writesOnly maxFileSize e.modified).at?_run _ _ fun h => h
  exact hnext _ _ (h.congr rfl htree)

theorem wp_checkEditLock {next : Bool × Bytes → Prog WorkerCall α}
    (hnone : s.record = none → wp worker ok (next (false, [])) Q world')
    (hsome : ∀ r, s.record = some r → ∀ e, ok e → ∀ locker world'',
      At world f { s with record := some (r.checked e.now) } world'' →
        wp worker ok (next (decide (r.lockedByUserId ≠ -1 ∧ ¬ r.Stale e.now), locker)) Q world'') :
    wp worker ok (.call (.checkEditLock f) next) Q world' := by
  intro e he
  have hrecord := h.record_eq
  cases hr : s.record with
  | none =>
      rw [hr] at hrecord
      change wp worker ok (next (checkEditLock world'.metadata f e.now).1) Q
        { world' with metadata := (checkEditLock world'.metadata f e.now).2 }
      rw [checkEditLock_of_none hrecord]
      exact hnone hr
  | some r =>
      rw [hr] at hrecord
      have hchecked := h.onMetadata (record?_checkEditLock f h.unique e.now)
      rw [hrecord, Option.map_some] at hchecked
      have hanswer : (checkEditLock world'.metadata f e.now).1 =
          (decide (r.lockedByUserId ≠ -1 ∧ ¬ r.Stale e.now),
            (checkEditLock world'.metadata f e.now).1.2) := by
        rw [checkEditLock_of_some hrecord]
        split
        · next hlocked => rw [decide_eq_true hlocked]
        · next hfree => rw [decide_eq_false hfree]
      change wp worker ok (next (checkEditLock world'.metadata f e.now).1) Q _
      rw [hanswer]
      exact hsome r hr e he _ _ hchecked

theorem wp_acquireEditLock {userId : ℤ} {username : Bytes} {r : FileMetadata}
    (hr : s.record = some r) {next : ℤ → Prog WorkerCall α}
    (hnext : ∀ e, ok e → ∀ world'',
      At world f { s with record := some (r.acquired userId username e.now) } world'' →
        wp worker ok (next (if r.lockedByUserId = -1 ∨ r.Stale e.now ∨ r.lockedByUserId = userId
          then 0 else -2)) Q world'') :
    wp worker ok (.call (.acquireEditLock f userId username) next) Q world' := by
  intro e he
  have hrecord := h.record_eq.trans hr
  have hacquired := h.onMetadata (record?_acquireEditLock f h.unique userId username e.now)
  rw [hrecord, Option.map_some] at hacquired
  change wp worker ok (next (acquireEditLock world'.metadata f userId username e.now).1) Q _
  rw [acquireEditLock_of_some hrecord]
  exact hnext e he _ hacquired

theorem wp_releaseEditLock {userId : ℤ} {next : ℤ → Prog WorkerCall α}
    (hnone : s.record = none → wp worker ok (next (-1)) Q world')
    (hsome : ∀ r, s.record = some r → ∀ world'',
      At world f { s with record := some (r.releasedBy userId) } world'' →
        wp worker ok (next (if r.lockedByUserId = -1 ∨ r.lockedByUserId = userId
          then 0 else -2)) Q world'') :
    wp worker ok (.call (.releaseEditLock f userId) next) Q world' := by
  intro e _
  have hrecord := h.record_eq
  cases hr : s.record with
  | none =>
      rw [hr] at hrecord
      change wp worker ok (next (releaseEditLock world'.metadata f userId).1) Q
        { world' with metadata := (releaseEditLock world'.metadata f userId).2 }
      rw [releaseEditLock_of_none hrecord]
      exact hnone hr
  | some r =>
      rw [hr] at hrecord
      have hreleased := h.onMetadata (record?_releaseEditLock f h.unique userId)
      rw [hrecord, Option.map_some] at hreleased
      change wp worker ok (next (releaseEditLock world'.metadata f userId).1) Q _
      rw [releaseEditLock_of_some hrecord]
      exact hsome r hr _ hreleased

theorem wp_updateFileMetadata {size : ℤ} {r : FileMetadata} (hr : s.record = some r)
    {next : ℤ → Prog WorkerCall α}
    (hnext : ∀ e, ok e → ∀ world'', At world f { s with record := some (r.bumped size e.now) }
      world'' → wp worker ok (next 0) Q world'') :
    wp worker ok (.call (.updateFileMetadata f size) next) Q world' := by
  intro e he
  have hrecord := h.record_eq.trans hr
  have hupdated := h.onMetadata (record?_updateFileMetadata f h.unique size e.now)
  rw [hrecord, Option.map_some] at hupdated
  change wp worker ok (next (updateFileMetadata world'.metadata f size e.now).1) Q _
  rw [updateFileMetadata_fst, hrecord]
  exact hnext e he _ hupdated

theorem wp_addFileMetadata_of_some {ownerName : Bytes} {ownerId size : ℤ} {r : FileMetadata}
    (hr : s.record = some r) {next : ℤ → Prog WorkerCall α}
    (hnext : ∀ e, ok e → ∀ world'', At world f { s with record := some (r.bumped size e.now) }
      world'' → wp worker ok (next 0) Q world'') :
    wp worker ok (.call (.addFileMetadata f ownerName ownerId size) next) Q world' := by
  intro e he
  obtain ⟨hanswer, hupdate⟩ := record?_addFileMetadata_of_some h.unique (h.record_eq.trans hr)
    ownerName ownerId size e.now
  change wp worker ok (next (addFileMetadata world'.metadata f ownerName ownerId size e.now).1) Q _
  rw [hanswer]
  exact hnext e he _ (h.onMetadata hupdate)

theorem wp_addFileMetadata_of_none {ownerName : Bytes} {ownerId size : ℤ}
    (hlength : f.length < maxFilename) (hr : s.record = none) {next : ℤ → Prog WorkerCall α}
    (hfull : emptySlot world'.metadata = none → wp worker ok (next (-1)) Q world')
    (hnext : ∀ i, emptySlot world'.metadata = some i → ∀ e, ok e → ∀ world'',
      At world f
        { s with record := some (newRecord f ownerName ownerId size e.now (world'.metadata i)) }
        world'' → wp worker ok (next 0) Q world'') :
    wp worker ok (.call (.addFileMetadata f ownerName ownerId size) next) Q world' := by
  intro e he
  have hnone := h.record_eq.trans hr
  change wp worker ok (next (addFileMetadata world'.metadata f ownerName ownerId size e.now).1) Q
    { world' with metadata := (addFileMetadata world'.metadata f ownerName ownerId size e.now).2 }
  cases hempty : emptySlot world'.metadata with
  | none =>
      rw [addFileMetadata_full hnone hempty]
      exact hfull hempty
  | some i =>
      obtain ⟨hanswer, hupdate⟩ := record?_addFileMetadata_of_none h.unique hnone hempty hlength
        ownerName ownerId size e.now
      rw [hanswer]
      exact hnext i hempty e he _ (h.onMetadata hupdate)

theorem wp_removeFileMetadata {r : FileMetadata} (hr : s.record = some r)
    {next : ℤ → Prog WorkerCall α}
    (hnext : ∀ world'', At world f { s with record := none } world'' →
      wp worker ok (next 0) Q world'') :
    wp worker ok (.call (.removeFileMetadata f) next) Q world' := by
  intro e _
  have hrecord := h.record_eq.trans hr
  change wp worker ok (next (removeFileMetadata world'.metadata f).1) Q _
  rw [removeFileMetadata_fst, hrecord]
  exact hnext _ (h.onMetadata (record?_removeFileMetadata f h.unique))

end Calls

end CloudSync
