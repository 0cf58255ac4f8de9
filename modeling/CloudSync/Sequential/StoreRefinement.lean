import CloudSync.Sequential.History
import CloudSync.Sequential.VersionedStore

/-!
# The server is such a store

`Represents world store` says that the shared array and the disk hold the files of the
store, and nothing else.  A task processed without an I/O error does to the world what
`Store.serve` does to the store, and is answered alike; so is every run of tasks.
-/

namespace CloudSync

open CText Calls Calls.Prog Files FileState

/-! ## One file -/

/-- What the array shows of the file. -/
def StoredFile.entry (file : StoredFile) : FileEntry where
  ownerName := file.ownerName
  ownerId := file.ownerId
  version := file.version
  size := file.content.length
  lease := file.lease

/-- The record, the content and the versions are those of the file. -/
def Depicts (s : FileState) : Option StoredFile → Prop
  | none => s = gone
  | some file => ∃ r : FileMetadata, r.entry = file.entry ∧
      s = ⟨some r, some file.content, file.versions⟩

/-- What the clock shows where a lease is looked at. -/
abbrev Clock.moments (clock : Clock) : Moments := ⟨clock.check, clock.acquire⟩

/-- The outcomes tally. -/
def Tallies (out : Status × FileState) (out' : Status × Option StoredFile) : Prop :=
  out.1 = out'.1 ∧ Depicts out.2 out'.2

section Files

variable {task : TaskMessage} {clock : Clock} {r : FileMetadata} {file : StoredFile}

theorem tallies_of_entry {status : Status} {r' : FileMetadata} {file' : StoredFile}
    (h : r'.entry = file'.entry) :
    Tallies (status, ⟨some r', some file'.content, file'.versions⟩) (status, file') :=
  ⟨rfl, r', h, rfl⟩

variable (hentry : r.entry = file.entry)

include hentry

variable (task) in
theorem notOwner_iff : NotOwner task r ↔ ¬ file.MayChange task := by
  have howner : r.ownerId = file.ownerId := congrArg FileEntry.ownerId hentry
  unfold NotOwner StoredFile.MayChange
  rw [howner]
  exact not_or.symm

variable (task) in
theorem lockedByOther_iff : LockedByOther task r ↔ file.LeasedToOther task := by
  have hlease : r.entry.lease = file.lease := congrArg FileEntry.lease hentry
  have honly := heldOnly_entry r task.userId
  rw [hlease] at honly
  have hother : LockedByOther task r ↔
      ¬ (r.lockedByUserId = -1 ∨ r.lockedByUserId = task.userId) := not_or.symm
  rw [hother, ← honly]
  unfold StoredFile.LeasedToOther
  push Not
  rfl

theorem heldBy_iff (hid : task.userId ≠ -1) :
    r.lockedByUserId = task.userId ↔ file.LeasedTo task := by
  have hlease : r.entry.lease = file.lease := congrArg FileEntry.lease hentry
  unfold StoredFile.LeasedTo
  rw [← hlease]
  by_cases hfree : r.lockedByUserId = -1
  · rw [entry_lease_of_free hfree]
    constructor
    · intro heq
      exact absurd (heq.symm.trans hfree) hid
    · rintro ⟨l, hl, -⟩
      exact absurd hl (by simp)
  · rw [entry_lease_of_held hfree]
    simp

theorem entry_expire (now : ℤ) : (r.checked now).entry = (file.expire now).entry := by
  rw [entry_checked, hentry]
  rfl

theorem entry_overwrite (hlow : 1 ≤ file.version) (hhigh : file.version < 2 ^ 31 - 1) (data : Bytes)
    (now : ℤ) : (r.bumped data.length now).entry = (file.overwrite data).entry := by
  have hversion : r.version = file.version := congrArg FileEntry.version hentry
  have hbumped : (r.bumped data.length now).entry =
      { r.entry with version := int32 (r.version + 1), size := data.length } := rfl
  rw [hbumped, hentry, hversion, int32_succ hlow hhigh]
  rfl

theorem entry_endLease (h : ¬ file.LeasedToOther task) :
    (r.releasedBy task.userId).entry = file.endLease.entry := by
  rw [← lockedByOther_iff task hentry] at h
  rw [entry_releasedBy (not_and_or.mp h |>.imp not_not.mp not_not.mp), hentry]
  rfl

theorem entry_takeLease (hid : task.userId ≠ -1) (now : ℤ) :
    (r.acquired task.userId task.username now).entry =
      (file.takeLease task.userId task.username now).entry := by
  rw [entry_acquired r hid task.username_length, hentry]
  rfl

/-! ### The operations -/

theorem tallies_upload (slot : Option FileMetadata) (hlow : 1 ≤ file.version)
    (hhigh : file.version < 2 ^ 31 - 1) :
    Tallies (FileState.upload task clock slot ⟨some r, some file.content, file.versions⟩)
      (file.upload task clock.moments) := by
  have hexpired := entry_expire hentry clock.check
  have hlocked := lockedByOther_iff task hexpired
  have hdenied := notOwner_iff task hexpired
  unfold FileState.upload StoredFile.upload
  dsimp only [Clock.moments]
  by_cases hleased : (file.expire clock.check).LeasedToOther task
  · rw [if_pos (hlocked.mpr hleased), if_pos hleased]
    exact tallies_of_entry hexpired
  · rw [if_neg (mt hlocked.mp hleased), if_neg hleased]
    by_cases hmay : (file.expire clock.check).MayChange task
    · rw [if_neg fun h => hdenied.mp h hmay, if_neg (not_not.mpr hmay)]
      have hversion : (r.checked clock.check).version = file.version :=
        congrArg FileEntry.version hexpired
      refine ⟨rfl, _, entry_overwrite hexpired hlow hhigh task.data clock.write, ?_⟩
      simp only [FileState.commit, FileState.backup, hversion]
      rfl
    · rw [if_pos (hdenied.mpr hmay), if_pos hmay]
      exact tallies_of_entry hexpired

theorem tallies_delete :
    Tallies (FileState.delete task ⟨some r, some file.content, file.versions⟩) (file.delete task) := by
  have hlocked := lockedByOther_iff task hentry
  have hdenied := notOwner_iff task hentry
  unfold FileState.delete StoredFile.delete
  dsimp only
  by_cases hmay : file.MayChange task
  · rw [if_neg fun h => hdenied.mp h hmay, if_neg (not_not.mpr hmay)]
    by_cases hleased : file.LeasedToOther task
    · rw [if_pos (hlocked.mpr hleased), if_pos hleased]
      exact tallies_of_entry hentry
    · rw [if_neg (mt hlocked.mp hleased), if_neg hleased, if_neg (by simp)]
      exact ⟨rfl, rfl⟩
  · rw [if_pos (hdenied.mpr hmay), if_pos hmay]
    exact tallies_of_entry hentry

theorem tallies_edit (hid : task.userId ≠ -1) :
    Tallies (FileState.edit task clock ⟨some r, some file.content, file.versions⟩)
      (file.edit task clock.moments) := by
  have hdenied := notOwner_iff task hentry
  have hgrant := grantable_entry r task.userId clock.acquire
  rw [hentry] at hgrant
  unfold FileState.edit StoredFile.edit
  dsimp only [Clock.moments]
  by_cases hmay : file.MayChange task
  · rw [if_neg fun h => hdenied.mp h hmay, if_neg (not_not.mpr hmay)]
    by_cases hgrantable : Grantable file.lease task.userId clock.acquire
    · rw [if_pos (hgrant.mp hgrantable), if_pos hgrantable, if_neg (by simp)]
      exact tallies_of_entry (entry_takeLease hentry hid clock.acquire)
    · rw [if_neg (mt hgrant.mpr hgrantable), if_neg hgrantable]
      exact tallies_of_entry (entry_expire hentry clock.check)
  · rw [if_pos (hdenied.mpr hmay), if_pos hmay]
    exact tallies_of_entry hentry

theorem tallies_save (hid : task.userId ≠ -1) (hlow : 1 ≤ file.version)
    (hhigh : file.version < 2 ^ 31 - 1) :
    Tallies (FileState.save task clock ⟨some r, some file.content, file.versions⟩)
      (if task.role = roleGuest then (.permissionDenied, file) else file.save task) := by
  have hheld := heldBy_iff hentry hid
  have hversion : r.version = file.version := congrArg FileEntry.version hentry
  unfold FileState.save StoredFile.save
  split
  · exact tallies_of_entry hentry
  · dsimp only
    by_cases hleased : file.LeasedTo task
    · have hholder := hheld.mpr hleased
      have hnew := entry_overwrite hentry hlow hhigh task.data clock.write
      have hown : ¬ (file.overwrite task.data).LeasedToOther task := by
        rw [← lockedByOther_iff task hnew]
        exact fun h => h.2 hholder
      rw [if_neg (not_not.mpr hholder), if_pos hleased]
      refine ⟨rfl, _, entry_endLease hnew hown, ?_⟩
      simp only [FileState.commit, FileState.backup, hversion]
      rfl
    · rw [if_pos (mt hheld.mp hleased), if_neg hleased]
      exact tallies_of_entry hentry

theorem tallies_unlock :
    Tallies (FileState.unlock task ⟨some r, some file.content, file.versions⟩) (file.unlock task) := by
  have hlocked := lockedByOther_iff task hentry
  unfold FileState.unlock StoredFile.unlock
  dsimp only
  by_cases hleased : file.LeasedToOther task
  · rw [if_pos (hlocked.mpr hleased), if_pos hleased]
    exact tallies_of_entry hentry
  · rw [if_neg (mt hlocked.mp hleased), if_neg hleased]
    exact tallies_of_entry (entry_endLease hentry hleased)

theorem tallies_rollback (hlow : 1 ≤ file.version) (hhigh : file.version < 2 ^ 31 - 1) :
    Tallies (FileState.rollback task clock ⟨some r, some file.content, file.versions⟩)
      (file.rollback task) := by
  have hlocked := lockedByOther_iff task hentry
  have hdenied := notOwner_iff task hentry
  have hversion : r.version = file.version := congrArg FileEntry.version hentry
  unfold FileState.rollback StoredFile.rollback
  dsimp only
  by_cases hmay : file.MayChange task
  · rw [if_neg fun h => hdenied.mp h hmay, if_neg (not_not.mpr hmay)]
    by_cases hleased : file.LeasedToOther task
    · rw [if_pos (hlocked.mpr hleased), if_pos hleased]
      exact tallies_of_entry hentry
    · rw [if_neg (mt hlocked.mp hleased), if_neg hleased]
      have hkept : FileState.backup ⟨some r, some file.content, file.versions⟩ r =
          ⟨some r, some file.content, file.keep.versions⟩ := by
        simp only [FileState.backup, hversion]
        rfl
      rw [hkept]
      dsimp only
      cases hstored : file.keep.versions task.targetVersion with
      | none => exact @tallies_of_entry _ _ file.keep hentry
      | some bytes =>
          refine ⟨rfl, _, entry_overwrite hentry hlow hhigh bytes clock.write, ?_⟩
          simp only [FileState.commit, hkept]
          rfl
  · rw [if_pos (hdenied.mpr hmay), if_pos hmay]
    exact tallies_of_entry hentry

theorem tallies_delversion :
    Tallies (FileState.delversion task ⟨some r, some file.content, file.versions⟩)
      (file.delversion task) := by
  have hdenied := notOwner_iff task hentry
  unfold FileState.delversion StoredFile.delversion
  dsimp only
  by_cases hmay : file.MayChange task
  · rw [if_neg fun h => hdenied.mp h hmay, if_neg (not_not.mpr hmay)]
    split
    · exact tallies_of_entry hentry
    · exact @tallies_of_entry _ _ (file.forget task.targetVersion) hentry
  · rw [if_pos (hdenied.mpr hmay), if_pos hmay]
    exact tallies_of_entry hentry

/-- A task on an existing file. -/
theorem tallies_serve (slot : Option FileMetadata) (hid : task.userId ≠ -1) (hlow : 1 ≤ file.version)
    (hhigh : file.version < 2 ^ 31 - 1) :
    Tallies (FileState.serve task clock slot ⟨some r, some file.content, file.versions⟩)
      (file.serve task clock.moments) := by
  cases hop : task.operation <;> simp only [FileState.serve, StoredFile.serve, hop]
  case upload => exact tallies_upload hentry slot hlow hhigh
  case delete => exact tallies_delete hentry
  case edit => exact tallies_edit hentry hid
  case save => exact tallies_save hentry hid hlow hhigh
  case unlock => exact tallies_unlock hentry
  case rollback => exact tallies_rollback hentry hlow hhigh
  case delversion => exact tallies_delversion hentry
  all_goals exact tallies_of_entry hentry

end Files

/-- A task on a file that does not exist. -/
theorem tallies_missing (task : TaskMessage) (clock : Clock) (slot : Option FileMetadata) :
    Tallies (FileState.serve task clock slot gone) (serveMissing task slot.isSome) := by
  cases hop : task.operation <;> simp only [FileState.serve, serveMissing, hop]
  case upload =>
    cases slot with
    | none => exact ⟨rfl, rfl⟩
    | some slot =>
        have hcopy : strncpy (maxUsername - 1) task.username = task.username :=
          List.take_of_length_le (Nat.le_sub_one_of_lt task.username_length)
        refine ⟨rfl, newRecord task.filename task.username task.userId task.dataSize clock.write
          slot, ?_, rfl⟩
        unfold newRecord FileMetadata.entry StoredFile.entry StoredFile.uploaded
        simp only [hcopy, if_true]
        rfl
  case save =>
    unfold FileState.save
    split <;> exact ⟨rfl, rfl⟩
  all_goals exact ⟨rfl, rfl⟩

/-! ## What the files of a store are bounded by -/

/-- After `n` tasks a file has had at most `n` versions, of which few are kept, and nothing
stored of it is longer than a request carries. -/
structure StoredFile.Fits (n : ℕ) (file : StoredFile) : Prop where
  low : 1 ≤ file.version
  high : file.version ≤ n
  few : {k | (file.versions k).isSome}.encard ≤ maxVersions
  content : file.content.length ≤ maxFileSize
  versions : ∀ k, ∀ bytes ∈ file.versions k, bytes.length ≤ maxFileSize

section Fits

variable {n : ℕ} {file : StoredFile} {task : TaskMessage} {moments : Moments}

theorem StoredFile.Fits.later (h : file.Fits n) : file.Fits (n + 1) :=
  { h with high := h.high.trans (by push_cast; omega) }

theorem StoredFile.Fits.keep (h : file.Fits n) : file.keep.Fits n where
  low := h.low
  high := h.high
  few := by
    rw [StoredFile.keep_versions]
    exact encard_backedUp_le h.few
  content := h.content
  versions := by
    intro k bytes hbytes
    rw [StoredFile.keep_versions] at hbytes
    rcases of_backedUp hbytes with hold | ⟨-, hnow⟩
    · exact h.versions k bytes hold
    · rw [← Option.some.inj hnow]
      exact h.content

theorem StoredFile.Fits.overwrite (h : file.Fits n) {data : Bytes} (hdata : data.length ≤ maxFileSize) :
    (file.overwrite data).Fits (n + 1) where
  low := by
    show 1 ≤ file.version + 1
    have := h.low
    omega
  high := by
    show file.version + 1 ≤ (n + 1 : ℕ)
    have := h.high
    push_cast
    omega
  few := h.keep.few
  content := hdata
  versions := h.keep.versions

theorem StoredFile.Fits.forget (h : file.Fits n) (k : ℤ) : (file.forget k).Fits n where
  low := h.low
  high := h.high
  few := by
    refine (Set.encard_le_encard fun j hj => ?_).trans h.few
    rw [StoredFile.forget_versions, Set.mem_ofPred_eq] at hj
    by_cases hjk : j = k
    · rw [hjk, Function.update_self] at hj
      exact Bool.noConfusion hj
    · rw [Function.update_of_ne hjk] at hj
      exact hj
  content := h.content
  versions := by
    intro j bytes hbytes
    rw [StoredFile.forget_versions] at hbytes
    by_cases hjk : j = k
    · rw [hjk, Function.update_self] at hbytes
      exact absurd hbytes (by simp)
    · rw [Function.update_of_ne hjk] at hbytes
      exact h.versions j bytes hbytes

theorem fits_uploaded (n : ℕ) (task : TaskMessage) : (StoredFile.uploaded task).Fits (n + 1) where
  low := le_rfl
  high := by
    show (1 : ℤ) ≤ (n + 1 : ℕ)
    push_cast
    omega
  few := by simp [StoredFile.uploaded]
  content := task.data_length
  versions := fun _ _ h => absurd h (by simp [StoredFile.uploaded])

/-- A task leaves a file that fits. -/
theorem StoredFile.Fits.serve (h : file.Fits n) :
    ∀ file' ∈ (file.serve task moments).2, file'.Fits (n + 1) := by
  have hsame : ∀ {file' : StoredFile}, file'.Fits n → ∀ file'' ∈ some file', file''.Fits (n + 1) := by
    intro file' hfits file'' hfile
    rw [← Option.some.inj hfile]
    exact hfits.later
  have hlease : ∀ lease, ({ file with lease := lease } : StoredFile).Fits n :=
    fun lease => ⟨h.low, h.high, h.few, h.content, h.versions⟩
  have hover : ∀ {data : Bytes}, data.length ≤ maxFileSize →
      ∀ file' ∈ some (file.overwrite data), file'.Fits (n + 1) := by
    intro data hdata file' hfile
    rw [← Option.some.inj hfile]
    exact h.overwrite hdata
  cases hop : task.operation <;> simp only [StoredFile.serve, hop]
  case upload =>
    unfold StoredFile.upload
    dsimp only
    split
    · exact hsame (hlease _)
    · split
      · exact hsame (hlease _)
      · intro file' hfile
        rw [← Option.some.inj hfile]
        exact (hlease _).overwrite task.data_length
  case delete =>
    unfold StoredFile.delete
    split
    · exact hsame h
    · split
      · exact hsame h
      · exact fun _ hnone => absurd hnone (by simp)
  case edit =>
    unfold StoredFile.edit
    split
    · exact hsame h
    · split <;> exact hsame (hlease _)
  case save =>
    unfold StoredFile.save
    split
    · exact hsame h
    · split
      · intro file' hfile
        rw [← Option.some.inj hfile]
        obtain ⟨hlow, hhigh, hfew, hcontent, hversions⟩ := h.overwrite task.data_length
        exact ⟨hlow, hhigh, hfew, hcontent, hversions⟩
      · exact hsame h
  case unlock =>
    unfold StoredFile.unlock
    split
    · exact hsame h
    · exact hsame (hlease _)
  case rollback =>
    unfold StoredFile.rollback
    split
    · exact hsame h
    · split
      · exact hsame h
      · split
        · exact hsame h.keep
        · next bytes hstored => exact hover (h.keep.versions _ bytes hstored)
  case delversion =>
    unfold StoredFile.delversion
    split
    · exact hsame h
    · split
      · exact hsame h
      · exact hsame (h.forget _)
  all_goals exact hsame h

end Fits

/-! ## The world -/

/-- The array and the disk hold the files of the store, and nothing else. -/
structure Represents (world : World) (store : Store) : Prop where
  unique : UniqueNames world.metadata
  disk : StoreOk world.tree
  file : ∀ f, StorageName f → Depicts (world.file f) (store.lookup f)
  records : ∀ f, (record? world.metadata f).isSome → StorageName f
  names : ∀ f ∈ store, StorageName f

/-- A task is answered with the status, and leads to the world, that the state machine of
its file says. -/
def Served (task : TaskMessage) (clock : Clock) (world : World) (status : Status)
    (world' : World) : Prop :=
  status = (FileState.serve task clock ((emptySlot world.metadata).map world.metadata)
    (world.file task.filename)).1 ∧
  At world task.filename (FileState.serve task clock
    ((emptySlot world.metadata).map world.metadata) (world.file task.filename)).2 world'

section Worlds

variable {world : World} {store : Store}

theorem represents_fresh : Represents freshWorld ∅ where
  unique := freshWorld_orderly.unique
  disk := freshWorld_orderly.store
  file := fun f hf => freshWorld_file hf
  records := by
    intro f hf
    have hnone : record? freshWorld.metadata f = none := record?_initMetadata
    rw [hnone] at hf
    exact Bool.noConfusion hf
  names := fun f hf => absurd hf (Finmap.notMem_empty)

variable (h : Represents world store)

include h

/-- A file is in the store if and only if it has a record. -/
theorem Represents.mem_iff (f : Bytes) : f ∈ store ↔ (record? world.metadata f).isSome := by
  constructor
  · intro hmem
    obtain ⟨file, hfile⟩ := Finmap.mem_iff.mp hmem
    have hdepicts := h.file f (h.names f hmem)
    rw [hfile] at hdepicts
    obtain ⟨r, -, hstate⟩ := hdepicts
    have hrecord : record? world.metadata f = some r := congrArg FileState.record hstate
    rw [hrecord]
    rfl
  · intro hsome
    by_contra hmem
    have hdepicts := h.file f (h.records f hsome)
    rw [Finmap.lookup_eq_none.mpr hmem] at hdepicts
    have hrecord : record? world.metadata f = none := congrArg FileState.record hdepicts
    rw [hrecord] at hsome
    exact Bool.noConfusion hsome

/-- There is a free slot if and only if there is room in the store. -/
theorem Represents.room : (emptySlot world.metadata).isSome = store.room := by
  have hkeys : store.keys = activeNames world.metadata := by
    ext f
    rw [Finmap.mem_keys, h.mem_iff, mem_activeNames]
  have hcard : store.keys.card = (activeSlots world.metadata).card := by
    rw [hkeys, h.unique.card_activeNames]
  unfold Store.room
  by_cases hroom : (activeSlots world.metadata).card < maxFiles
  · obtain ⟨i, hempty⟩ := exists_emptySlot hroom
    rw [hempty, hcard, decide_eq_true hroom]
    rfl
  · rw [emptySlot_of_full (not_lt.mp hroom), hcard, decide_eq_false hroom]
    rfl

/-- What the world holds about a file that fits is in bounds. -/
theorem Represents.inBounds {n : ℕ} (hn : n < 2 ^ 31 - 1)
    (hfits : ∀ f, ∀ file ∈ store.lookup f, file.Fits n) {f : Bytes} (hf : StorageName f) :
    (world.file f).InBounds := by
  have hdepicts := h.file f hf
  cases hfile : store.lookup f with
  | none =>
      rw [hfile] at hdepicts
      have hgone : world.file f = gone := hdepicts
      rw [hgone]
      exact tidy_gone.inBounds
  | some file =>
      rw [hfile] at hdepicts
      obtain ⟨r, hentry, hstate⟩ := hdepicts
      have hfit := hfits f file hfile
      have hversion : r.version = file.version := congrArg FileEntry.version hentry
      rw [hstate]
      constructor
      · intro r' hr'
        obtain rfl := Option.some.inj hr'
        have hlow := hfit.low
        have hhigh := hfit.high
        constructor <;> omega
      · exact hfit.few.trans (by exact_mod_cast (by decide : maxVersions ≤ 255))

/-- A task that does to its file what the state machine says does to the world what it
means for the store, and is answered alike. -/
theorem Represents.serve {n : ℕ} {task : TaskMessage} {clock : Clock} {status : Status}
    {world' : World} (hn : n < 2 ^ 31 - 1) (hfits : ∀ f, ∀ file ∈ store.lookup f, file.Fits n)
    (hname : StorageName task.filename) (hid : task.userId ≠ -1)
    (hserved : Served task clock world status world') :
    status = (store.serve task clock.moments).1 ∧
      Represents world' (store.serve task clock.moments).2 := by
  obtain ⟨hstatus, hat⟩ := hserved
  have htallies : Tallies (FileState.serve task clock ((emptySlot world.metadata).map world.metadata)
      (world.file task.filename)) (store.serveFile task clock.moments) := by
    have hdepicts := h.file task.filename hname
    unfold Store.serveFile
    cases hfile : store.lookup task.filename with
    | none =>
        rw [hfile] at hdepicts
        have hgone : world.file task.filename = gone := hdepicts
        rw [hgone, ← h.room, ← Option.isSome_map]
        exact tallies_missing task clock _
    | some file =>
        rw [hfile] at hdepicts
        obtain ⟨r, hentry, hstate⟩ := hdepicts
        have hfit := hfits _ file hfile
        have hhigh : file.version < 2 ^ 31 - 1 := by
          have := hfit.high
          omega
        rw [hstate]
        exact tallies_serve hentry _ hid hfit.low hhigh
  refine ⟨hstatus.trans htallies.1, hat.unique, hat.store.ok, ?_, ?_, ?_⟩
  · intro f hf
    by_cases hne : f = task.filename
    · rw [hne, hat.file]
      show Depicts _ ((store.put _ _).lookup _)
      rw [Store.lookup_put]
      exact htallies.2
    · rw [hat.file_of_ne h.disk hf hne]
      show Depicts _ ((store.put _ _).lookup _)
      rw [Store.lookup_put_of_ne hne]
      exact h.file f hf
  · intro f hf
    by_cases hne : f = task.filename
    · exact hne ▸ hname
    · rw [hat.record, Function.update_of_ne hne] at hf
      exact h.records f hf
  · intro f hf
    by_cases hne : f = task.filename
    · exact hne ▸ hname
    · apply h.names f
      rw [← Finmap.lookup_isSome] at hf ⊢
      change ((store.put _ _).lookup f).isSome at hf
      rwa [Store.lookup_put_of_ne hne] at hf

end Worlds

/-! ## What is sent back -/

section Data

variable {ok : Env → Prop} {task : TaskMessage} {world : World} (hfine : ∀ e, ok e → e.Fine)
  (hname : StorageName task.filename) {s : FileState} (hat : At world task.filename s world)

include hfine hname hat

theorem download_data :
    wp worker ok (processDownload task) (fun resp _ => resp.status = .success →
      ∃ bytes, s.content = some bytes ∧ resp.data = bytes.take maxFileSize) world := by
  simp only [processDownload, perform_bind]
  refine wp_findFileMetadata (fun _ => ?_) fun i _ => ?_
  · exact wp_answer fun _ _ _ h => Status.noConfusion h
  · apply wp_readFile hfine hat hname
    intro world' _
    cases hcontent : s.content with
    | none => exact wp_answer fun _ _ _ h => Status.noConfusion h
    | some bytes => exact wp_answer fun _ _ _ _ => ⟨bytes, rfl, rfl⟩

theorem edit_data :
    wp worker ok (processEdit task) (fun resp _ => resp.status = .success →
      ∃ bytes, s.content = some bytes ∧ resp.data = bytes.take maxFileSize) world := by
  simp only [processEdit, perform_bind]
  refine wp_findFileMetadata (fun _ => ?_) fun i hr => ?_
  · exact wp_answer fun _ _ _ h => Status.noConfusion h
  · rw [hat.record_eq] at hr
    refine wp_notOwner (fun _ _ => ?_) fun _ => ?_
    · intro _ _
      exact wp_answer fun _ _ _ h => Status.noConfusion h
    · apply wp_acquireEditLock hat hr
      intro e _ world' hat'
      split
      · apply wp_readFile hfine hat' hname
        intro world'' _
        cases hcontent : s.content with
        | none =>
            intro _ _
            exact wp_answer fun _ _ _ h => Status.noConfusion h
        | some bytes => exact wp_answer fun _ _ _ _ => ⟨bytes, rfl, rfl⟩
      · intro _ _
        exact wp_answer fun _ _ _ h => Status.noConfusion h

end Data

variable {task : TaskMessage} {world : World}

/-- What is handed out is what is sent back. -/
theorem handOut_data {store : Store} {n : ℕ} {env : ℕ → Env} {moments : Moments}
    (h : Represents world store) (hfits : ∀ f, ∀ file ∈ store.lookup f, file.Fits n)
    (hfine : ∀ i, (env i).Fine) (hname : StorageName task.filename)
    (hstatus : (serve env task world).1.status = (store.serve task moments).1) :
    ∀ bytes ∈ store.handOut task moments, (serve env task world).1.data = bytes := by
  intro bytes hbytes
  unfold Store.handOut at hbytes
  split at hbytes
  · next hasked =>
    obtain ⟨file, hfile, rfl⟩ := Option.map_eq_some_iff.mp hbytes
    have hdepicts := h.file task.filename hname
    rw [hfile] at hdepicts
    obtain ⟨r, -, hstate⟩ := hdepicts
    have hat := at_self (f := task.filename) h.unique h.disk
    have hfine' : ∀ e, (∃ i, env i = e) → e.Fine := by
      rintro e ⟨i, rfl⟩
      exact hfine i
    have hread : wp worker (fun e => ∃ i, env i = e) (processTask task)
        (fun resp _ => resp.status = .success →
          ∃ bytes, (world.file task.filename).content = some bytes ∧
            resp.data = bytes.take maxFileSize) world := by
      rcases hasked.1 with hop | hop <;> simp only [processTask, hop]
      · exact download_data hfine' hname hat
      · exact edit_data hfine' hname hat
    obtain ⟨bytes, hcontent, hdata⟩ := serve_of_wp hread (hstatus.trans hasked.2)
    rw [hstate] at hcontent
    rw [hdata, ← Option.some.inj hcontent]
    exact List.take_of_length_le (hfits _ file hfile).content
  · exact absurd hbytes (by simp)

/-! ## Runs -/

/-- The clock showed these moments while the task was processed. -/
structure Moments.Read (env : ℕ → Env) (moments : Moments) : Prop where
  check : ∃ i, (env i).now = moments.check
  acquire : ∃ i, (env i).now = moments.acquire

/-- The store after the first `n` tasks. -/
noncomputable def storeAfter (jobs : ℕ → Job) (moments : ℕ → Moments) : ℕ → Store
  | 0 => ∅
  | n + 1 => ((storeAfter jobs moments n).serve (jobs n).task (moments n)).2

section Runs

variable {jobs : ℕ → Job} {moments : ℕ → Moments}

/-- After `n` tasks every file fits. -/
theorem storeAfter_fits (n : ℕ) :
    ∀ f, ∀ file ∈ (storeAfter jobs moments n).lookup f, file.Fits n := by
  induction n with
  | zero => exact fun f file hfile => absurd hfile (by simp [storeAfter])
  | succ n ih =>
      intro f file hfile
      have hput : (storeAfter jobs moments (n + 1)).lookup f =
          ((storeAfter jobs moments n).put (jobs n).task.filename
            ((storeAfter jobs moments n).serveFile (jobs n).task (moments n)).2).lookup f := rfl
      rw [hput] at hfile
      by_cases hne : f = (jobs n).task.filename
      · subst hne
        rw [Store.lookup_put] at hfile
        unfold Store.serveFile at hfile
        cases hold : (storeAfter jobs moments n).lookup (jobs n).task.filename with
        | none =>
            rw [hold] at hfile
            cases hop : (jobs n).task.operation <;> simp only [serveMissing, hop] at hfile
            case upload =>
              split at hfile
              · rw [← Option.some.inj hfile]
                exact fits_uploaded n _
              · exact absurd hfile (by simp)
            case save => split at hfile <;> exact absurd hfile (by simp)
            all_goals exact absurd hfile (by simp)
        | some old =>
            rw [hold] at hfile
            exact (ih _ old hold).serve file hfile
      · rw [Store.lookup_put_of_ne hne] at hfile
        exact (ih f file hfile).later

/-- Process any tasks one after the other, from the fresh server on and without I/O errors,
on files with storage names and for users with ids.  For some moments that the clock showed
during each task, what the array and the disk hold is at all times what the store of
versioned files holds that serves the same requests; every response has the status the
store answers with, and carries the content that the store hands out.  No version number
overflows as long as there are fewer than `2 ^ 31 - 1` tasks. -/
theorem server_is_store (hfine : ∀ n i, ((jobs n).env i).Fine)
    (hnames : ∀ n, StorageName (jobs n).task.filename) (hids : ∀ n, (jobs n).task.userId ≠ -1) :
    ∃ moments : ℕ → Moments, (∀ n, (moments n).Read (jobs n).env) ∧
      ∀ n < 2 ^ 31 - 1,
        Represents (worldAfter jobs freshWorld n) (storeAfter jobs moments n) ∧
        (response jobs freshWorld n).status =
          ((storeAfter jobs moments n).serve (jobs n).task (moments n)).1 ∧
        ∀ bytes ∈ (storeAfter jobs moments n).handOut (jobs n).task (moments n),
          (response jobs freshWorld n).data = bytes := by
  -- the moments of a task are those the state machine of its file needs
  have hserved : ∀ n, ∃ clock : Clock, clock.Read (fun e => ∃ i, (jobs n).env i = e) ∧
      (StoreOk (worldAfter jobs freshWorld n).tree →
        ((worldAfter jobs freshWorld n).file (jobs n).task.filename).InBounds →
        Served (jobs n).task clock (worldAfter jobs freshWorld n)
          (response jobs freshWorld n).status (worldAfter jobs freshWorld (n + 1))) := by
    intro n
    by_cases hbounds : StoreOk (worldAfter jobs freshWorld n).tree ∧
        ((worldAfter jobs freshWorld n).file (jobs n).task.filename).InBounds
    · obtain ⟨clock, hread, hstatus, hat⟩ := serve_refines (hfine n) (hnames n)
        (worldAfter_unique jobs initMetadata_unique n) hbounds.1 hbounds.2
      exact ⟨clock, hread, fun _ _ => ⟨hstatus, hat⟩⟩
    · exact ⟨_, Clock.read_const ⟨0, rfl⟩, fun hok hin => absurd ⟨hok, hin⟩ hbounds⟩
  choose clock hread hserved using hserved
  refine ⟨fun n => (clock n).moments, fun n => ?_, fun n hn => ?_⟩
  · obtain ⟨e, ⟨i, rfl⟩, hcheck⟩ := (hread n).check
    obtain ⟨e, ⟨j, rfl⟩, hacquire⟩ := (hread n).acquire
    exact ⟨⟨i, hcheck⟩, ⟨j, hacquire⟩⟩
  · have hrun : ∀ m < 2 ^ 31,
        Represents (worldAfter jobs freshWorld m)
          (storeAfter jobs (fun n => (clock n).moments) m) := by
      intro m
      induction m with
      | zero => exact fun _ => represents_fresh
      | succ m ih =>
          intro hm
          have hnow := ih (by omega)
          have hfits := @storeAfter_fits jobs (fun n => (clock n).moments) m
          have hstep := hserved m hnow.disk (hnow.inBounds (by omega) hfits (hnames m))
          exact (hnow.serve (by omega) hfits (hnames m) (hids m) hstep).2
    have hnow := hrun n (by omega)
    have hfits := @storeAfter_fits jobs (fun n => (clock n).moments) n
    have hstep := hserved n hnow.disk (hnow.inBounds hn hfits (hnames n))
    have hstatus := (hnow.serve hn hfits (hnames n) (hids n) hstep).1
    exact ⟨hnow, hstatus, handOut_data hnow hfits (hfine n) (hnames n) hstatus⟩

end Runs

/-- The store holds what user 2 has uploaded twice. -/
theorem server_is_store_uploadTwice :
    ∃ moments : ℕ → Moments,
      Represents (worldAfter uploadTwice freshWorld 2) (storeAfter uploadTwice moments 2) ∧
      (response uploadTwice freshWorld 2).status =
        ((storeAfter uploadTwice moments 2).serve (uploadTwice 2).task (moments 2)).1 := by
  obtain ⟨moments, -, hrun⟩ := @server_is_store uploadTwice
    (by rintro (_ | _ | n) i <;> exact Env.calm_fine 0)
    (by rintro (_ | _ | n) <;> exact (by decide : StorageName (text "a")))
    (by rintro (_ | _ | n) <;> exact (by decide : (2 : ℤ) ≠ -1))
  obtain ⟨hrepresents, hstatus, -⟩ := hrun 2 (by norm_num)
  exact ⟨moments, hrepresents, hstatus⟩

end CloudSync
