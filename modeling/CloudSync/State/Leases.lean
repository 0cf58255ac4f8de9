import CloudSync.Lib.Machine
import CloudSync.State.Records
import Mathlib.Data.Finmap
import Mathlib.Data.Fintype.Card

/-!
# The metadata array is a finite map with leases

`FileTable` is what the metadata array is for: a finite map from filenames to
entries, an entry being an owner, a version, a size and possibly a lease.  It has
room for `maxFiles` files.  Slots, free slots and what is left in them do not
occur in it.

`MetaCall` is a call of one of the seven functions on the array, `callMetadata`
what the function does and `specMetadata` what happens to the map.  The two
answer every sequence of calls alike, and the active slots show the map.
-/

namespace CloudSync

open CText

/-! ## The map -/

/-- An edit lock: who holds it, and since when. -/
structure Lease where
  holder : ℤ
  name : Bytes
  since : ℤ
  deriving DecidableEq

/-- What there is to know about a file. -/
structure FileEntry where
  ownerName : Bytes
  ownerId : ℤ
  version : ℤ
  size : ℤ
  lease : Option Lease
  deriving DecidableEq

/-- The files, by name. -/
abbrev FileTable := Finmap fun _ : Bytes => FileEntry

/-- The lease is older than `lockTimeoutSecs`. -/
def Lease.Old (lease : Lease) (now : ℤ) : Prop := now - lease.since > lockTimeoutSecs

/-- There is no lease, or it belongs to the user, or it is old. -/
def Grantable (lease : Option Lease) (userId now : ℤ) : Prop :=
  ∀ l ∈ lease, l.holder = userId ∨ l.Old now

instance (lease : Lease) (now : ℤ) : Decidable (lease.Old now) := by
  unfold Lease.Old
  infer_instance

instance (lease : Option Lease) (userId now : ℤ) : Decidable (Grantable lease userId now) :=
  match lease with
  | none => isTrue (by simp [Grantable])
  | some l => decidable_of_iff (l.holder = userId ∨ l.Old now) (by simp [Grantable])

/-- The lease once old ones are dropped. -/
def current (lease : Option Lease) (now : ℤ) : Option Lease := lease.filter fun l => ¬ l.Old now

/-! ## Calls -/

/-- A filename that fits its field. -/
abbrev Filename := {f : Bytes // f.length < maxFilename}

/-- A username that fits its field. -/
abbrev Username := {u : Bytes // u.length < maxUsername}

/-- A user id; -1 marks a file nobody has locked. -/
abbrev UserId := {u : ℤ // u ≠ -1}

/-- The calls on the metadata array. -/
inductive MetaCall
  | add (filename : Filename) (ownerName : Username) (ownerId : UserId) (size : ℤ)
  | update (filename : Filename) (size : ℤ)
  | remove (filename : Filename)
  | find (filename : Filename)
  | acquire (filename : Filename) (userId : UserId) (username : Username)
  | release (filename : Filename) (userId : UserId)
  | check (filename : Filename)

/-- What a call returns: a code, the file found, or whether there is a lock and
the name of its holder. -/
inductive MetaAnswer
  | code (value : ℤ)
  | file (entry : Option FileEntry)
  | lock (held : Bool) (locker : Bytes)

/-- What a record shows. -/
def FileMetadata.entry (r : FileMetadata) : FileEntry where
  ownerName := r.ownerName
  ownerId := r.ownerId
  version := r.version
  size := r.fileSize
  lease :=
    if r.lockedByUserId = -1 then none
    else some ⟨r.lockedByUserId, r.lockedByUsername, r.lockAcquiredAt⟩

/-- A function that returns a code. -/
def coded {σ : Type} (out : ℤ × σ) : MetaAnswer × σ := (.code out.1, out.2)

/-- A call of the function it names, at a time. -/
def callMetadata (call : MetaCall × ℤ) (metaArray : MetaArray) : MetaAnswer × MetaArray :=
  match call.1 with
  | .add filename ownerName ownerId size =>
      coded (addFileMetadata metaArray filename ownerName ownerId size call.2)
  | .update filename size => coded (updateFileMetadata metaArray filename size call.2)
  | .remove filename => coded (removeFileMetadata metaArray filename)
  | .find filename =>
      (.file ((findFileMetadata metaArray filename).map fun i => (metaArray i).entry), metaArray)
  | .acquire filename userId username =>
      coded (acquireEditLock metaArray filename userId username call.2)
  | .release filename userId => coded (releaseEditLock metaArray filename userId)
  | .check filename =>
      (.lock (checkEditLock metaArray filename call.2).1.1
        (checkEditLock metaArray filename call.2).1.2,
        (checkEditLock metaArray filename call.2).2)

/-! ## What the calls do to the map -/

namespace FileTable

/-- A version is an `int`. -/
def add (table : FileTable) (filename ownerName : Bytes) (ownerId size : ℤ) : ℤ × FileTable :=
  match table.lookup filename with
  | some e => (0, table.insert filename { e with version := int32 (e.version + 1), size := size })
  | none =>
      if table.keys.card < maxFiles then
        (0, table.insert filename ⟨ownerName, ownerId, 1, size, none⟩)
      else (-1, table)

def update (table : FileTable) (filename : Bytes) (size : ℤ) : ℤ × FileTable :=
  match table.lookup filename with
  | some e => (0, table.insert filename { e with version := int32 (e.version + 1), size := size })
  | none => (-1, table)

def remove (table : FileTable) (filename : Bytes) : ℤ × FileTable :=
  if filename ∈ table then (0, table.erase filename) else (-1, table)

/-- A lease the user holds and that is not old stays as it is. -/
def acquire (table : FileTable) (filename : Bytes) (userId : ℤ) (username : Bytes) (now : ℤ) :
    ℤ × FileTable :=
  match table.lookup filename with
  | none => (-1, table)
  | some e =>
      if Grantable e.lease userId now then
        (0, table.insert filename
          { e with lease := (current e.lease now).getD ⟨userId, username, now⟩ })
      else (-2, table)

/-- Even an old lease is the holder's to release. -/
def release (table : FileTable) (filename : Bytes) (userId : ℤ) : ℤ × FileTable :=
  match table.lookup filename with
  | none => (-1, table)
  | some e =>
      if ∀ l ∈ e.lease, l.holder = userId then (0, table.insert filename { e with lease := none })
      else (-2, table)

/-- An old lease ends when somebody looks. -/
def check (table : FileTable) (filename : Bytes) (now : ℤ) : Option Lease × FileTable :=
  match table.lookup filename with
  | none => (none, table)
  | some e =>
      (current e.lease now, table.insert filename { e with lease := current e.lease now })

end FileTable

/-- What a call means for the map. -/
def specMetadata (call : MetaCall × ℤ) (table : FileTable) : MetaAnswer × FileTable :=
  match call.1 with
  | .add filename ownerName ownerId size => coded (table.add filename ownerName ownerId size)
  | .update filename size => coded (table.update filename size)
  | .remove filename => coded (table.remove filename)
  | .find filename => (.file (table.lookup filename.1), table)
  | .acquire filename userId username =>
      coded (table.acquire filename userId username call.2)
  | .release filename userId => coded (table.release filename userId)
  | .check filename =>
      (.lock (table.check filename call.2).1.isSome
        (((table.check filename call.2).1.map Lease.name).getD []),
        (table.check filename call.2).2)

/-! ## Records and entries -/

section Entries

variable {r : FileMetadata} {now : ℤ}

theorem entry_lease_of_free (h : r.lockedByUserId = -1) : r.entry.lease = none := if_pos h

theorem entry_lease_of_held (h : r.lockedByUserId ≠ -1) :
    r.entry.lease = some ⟨r.lockedByUserId, r.lockedByUsername, r.lockAcquiredAt⟩ := if_neg h

theorem entry_with_lease {lease : Option Lease} (h : r.entry.lease = lease) :
    { r.entry with lease := lease } = r.entry := by
  rw [← h]

/-- A stale lock is an old lease. -/
theorem current_entry (r : FileMetadata) (now : ℤ) :
    current r.entry.lease now = if r.Stale now then none else r.entry.lease := by
  by_cases hfree : r.lockedByUserId = -1
  · rw [entry_lease_of_free hfree, if_neg fun h => h.1 hfree]
    rfl
  · rw [entry_lease_of_held hfree]
    by_cases hold : now - r.lockAcquiredAt > lockTimeoutSecs
    · rw [if_pos ⟨hfree, hold⟩]
      simp only [current, Option.filter_some, Lease.Old, hold, not_true, decide_false,
        Bool.false_eq_true, if_false]
    · rw [if_neg fun h => hold h.2]
      simp only [current, Option.filter_some, Lease.Old, hold, not_false_iff, decide_true, if_true]

theorem mem_of_mem_current {lease : Option Lease} {l : Lease} (h : l ∈ current lease now) :
    l ∈ lease :=
  (Option.filter_eq_some_iff.mp h).1

theorem entry_checked (r : FileMetadata) (now : ℤ) :
    (r.checked now).entry = { r.entry with lease := current r.entry.lease now } := by
  rw [current_entry]
  unfold FileMetadata.checked
  split <;> rfl

theorem grantable_entry (r : FileMetadata) (userId now : ℤ) :
    Grantable r.entry.lease userId now ↔
      r.lockedByUserId = -1 ∨ r.Stale now ∨ r.lockedByUserId = userId := by
  by_cases hfree : r.lockedByUserId = -1
  · simp [Grantable, entry_lease_of_free hfree, hfree]
  · rw [entry_lease_of_held hfree]
    simp only [Grantable, Lease.Old, FileMetadata.Stale, Option.mem_some_iff, forall_eq', hfree,
      ne_eq, not_false_eq_true, true_and, false_or]
    exact or_comm

theorem entry_acquired (r : FileMetadata) {userId : ℤ} (huser : userId ≠ -1) {username : Bytes}
    (hname : username.length < maxUsername) (now : ℤ) :
    (r.acquired userId username now).entry =
      { r.entry with lease := (current r.entry.lease now).getD ⟨userId, username, now⟩ } := by
  have hcopy : strncpy (maxUsername - 1) username = username :=
    List.take_of_length_le (Nat.le_sub_one_of_lt hname)
  have hgranted : (r.granted userId username now).entry =
      { r.entry with lease := some ⟨userId, username, now⟩ } := by
    unfold FileMetadata.granted FileMetadata.entry
    simp only [huser, if_false, hcopy]
  rw [current_entry]
  unfold FileMetadata.acquired
  by_cases hstale : r.Stale now
  · rw [if_pos (Or.inr hstale), if_pos hstale]
    exact hgranted
  · rw [if_neg hstale]
    by_cases hfree : r.lockedByUserId = -1
    · rw [if_pos (Or.inl hfree), entry_lease_of_free hfree]
      exact hgranted
    · rw [if_neg (not_or.mpr ⟨hfree, hstale⟩), entry_lease_of_held hfree]
      exact (entry_with_lease (entry_lease_of_held hfree)).symm

theorem heldOnly_entry (r : FileMetadata) (userId : ℤ) :
    (∀ l ∈ r.entry.lease, l.holder = userId) ↔
      r.lockedByUserId = -1 ∨ r.lockedByUserId = userId := by
  by_cases hfree : r.lockedByUserId = -1
  · simp [entry_lease_of_free hfree, hfree]
  · simp [entry_lease_of_held hfree, hfree]

theorem entry_releasedBy {userId : ℤ} (h : r.lockedByUserId = -1 ∨ r.lockedByUserId = userId) :
    (r.releasedBy userId).entry = { r.entry with lease := none } := by
  unfold FileMetadata.releasedBy
  by_cases hfree : r.lockedByUserId = -1
  · rw [if_neg fun h => h.1 hfree, ← entry_lease_of_free hfree]
  · rw [if_pos ⟨hfree, h.resolve_left hfree⟩]
    rfl

end Entries

/-! ## The array shows the map -/

/-- The array and the map have the same entries, and the names of lock holders
fit their fields. -/
structure Refines (metaArray : MetaArray) (table : FileTable) : Prop where
  unique : UniqueNames metaArray
  entries : ∀ f, table.lookup f = (record? metaArray f).map FileMetadata.entry
  lockers : ∀ f, ∀ e ∈ table.lookup f, ∀ l ∈ e.lease, l.name.length < maxUsername

variable {metaArray metaArray' : MetaArray} {table : FileTable} {f : Bytes}

theorem refines_init : Refines initMetadata ∅ where
  unique := initMetadata_unique
  entries := fun f => by rw [record?_initMetadata, Finmap.lookup_empty, Option.map_none]
  lockers := fun f e he => by
    rw [Finmap.lookup_empty] at he
    simp at he

namespace Refines

variable (h : Refines metaArray table)

include h

/-- Writing the record of a file. -/
theorem insert {r : FileMetadata} {e : FileEntry}
    (hwrite : record? metaArray' = Function.update (record? metaArray) f (some r) ∧
      UniqueNames metaArray')
    (he : r.entry = e) (hlocker : ∀ l ∈ e.lease, l.name.length < maxUsername) :
    Refines metaArray' (table.insert f e) where
  unique := hwrite.2
  entries := fun g => by
    rw [hwrite.1]
    by_cases hg : g = f
    · subst hg
      rw [Finmap.lookup_insert, Function.update_self, Option.map_some, he]
    · rw [Finmap.lookup_insert_of_ne _ hg, Function.update_of_ne hg]
      exact h.entries g
  lockers := fun g e' he' => by
    by_cases hg : g = f
    · subst hg
      rw [Finmap.lookup_insert, Option.mem_some_iff] at he'
      exact he' ▸ hlocker
    · rw [Finmap.lookup_insert_of_ne _ hg] at he'
      exact h.lockers g e' he'

theorem lookup_eq_some {e : FileEntry} (he : table.lookup f = some e) :
    ∃ r, record? metaArray f = some r ∧ r.entry = e := by
  rw [h.entries f] at he
  exact Option.map_eq_some_iff.mp he

theorem lookup_eq_none (he : table.lookup f = none) : record? metaArray f = none := by
  rw [h.entries f] at he
  exact Option.map_eq_none_iff.mp he

theorem mem_iff : f ∈ table ↔ (record? metaArray f).isSome := by
  rw [← Finmap.lookup_isSome, h.entries f, Option.isSome_map]

/-- The files of the map are the names of the active slots. -/
theorem keys_eq : table.keys = activeNames metaArray := by
  ext f
  rw [Finmap.mem_keys, h.mem_iff, mem_activeNames]

theorem card_keys : table.keys.card = (activeSlots metaArray).card := by
  rw [h.keys_eq, h.unique.card_activeNames]

theorem card_keys_le : table.keys.card ≤ maxFiles := h.card_keys ▸ card_activeSlots_le

/-! ### One call -/

theorem lockers_of {r : FileMetadata} (hr : record? metaArray f = some r) :
    ∀ l ∈ r.entry.lease, l.name.length < maxUsername :=
  h.lockers f r.entry (by rw [h.entries f, hr]; rfl)

theorem add (hf : f.length < maxFilename) {ownerName : Bytes}
    (hname : ownerName.length < maxUsername) (ownerId size now : ℤ) :
    (addFileMetadata metaArray f ownerName ownerId size now).1 =
      (table.add f ownerName ownerId size).1 ∧
    Refines (addFileMetadata metaArray f ownerName ownerId size now).2
      (table.add f ownerName ownerId size).2 := by
  unfold FileTable.add
  cases he : table.lookup f with
  | some e =>
      obtain ⟨r, hr, rfl⟩ := h.lookup_eq_some he
      obtain ⟨hcode, hwrite⟩ :=
        record?_addFileMetadata_of_some h.unique hr ownerName ownerId size now
      exact ⟨hcode, h.insert hwrite rfl (h.lockers_of hr)⟩
  | none =>
      have hnone := h.lookup_eq_none he
      by_cases hroom : table.keys.card < maxFiles
      · obtain ⟨i, hempty⟩ := exists_emptySlot (h.card_keys ▸ hroom)
        obtain ⟨hcode, hwrite⟩ :=
          record?_addFileMetadata_of_none h.unique hnone hempty hf ownerName ownerId size now
        have hcopy : strncpy (maxUsername - 1) ownerName = ownerName :=
          List.take_of_length_le (Nat.le_sub_one_of_lt hname)
        simp only [if_pos hroom]
        refine ⟨hcode, h.insert hwrite ?_ (by simp)⟩
        -- the old lock name and time are in the slot, but no lease is shown
        unfold newRecord FileMetadata.entry
        simp only [hcopy, if_true]
      · rw [addFileMetadata_full hnone (emptySlot_of_full (h.card_keys ▸ not_lt.mp hroom))]
        simp only [if_neg hroom]
        exact ⟨trivial, h⟩

theorem update (size now : ℤ) :
    (updateFileMetadata metaArray f size now).1 = (table.update f size).1 ∧
    Refines (updateFileMetadata metaArray f size now).2 (table.update f size).2 := by
  have hcode := @updateFileMetadata_fst metaArray f size now
  have hwrite := record?_updateFileMetadata f h.unique size now
  unfold FileTable.update
  cases he : table.lookup f with
  | some e =>
      obtain ⟨r, hr, rfl⟩ := h.lookup_eq_some he
      rw [hr] at hcode hwrite
      exact ⟨hcode, h.insert hwrite rfl (h.lockers_of hr)⟩
  | none =>
      have hnone := h.lookup_eq_none he
      rw [hnone] at hcode
      unfold updateFileMetadata
      rw [record?_eq_none.mp hnone]
      exact ⟨rfl, h⟩

theorem remove :
    (removeFileMetadata metaArray f).1 = (table.remove f).1 ∧
    Refines (removeFileMetadata metaArray f).2 (table.remove f).2 := by
  have hcode := @removeFileMetadata_fst metaArray f
  obtain ⟨hwrite, hunique⟩ := record?_removeFileMetadata f h.unique
  unfold FileTable.remove
  by_cases hmem : f ∈ table
  · rw [if_pos hmem, hcode, if_pos (h.mem_iff.mp hmem)]
    refine ⟨rfl, hunique, ?_, ?_⟩
    · intro g
      rw [hwrite]
      by_cases hg : g = f
      · subst hg
        rw [Finmap.lookup_erase, Function.update_self, Option.map_none]
      · rw [Finmap.lookup_erase_ne hg, Function.update_of_ne hg]
        exact h.entries g
    · intro g e he
      by_cases hg : g = f
      · subst hg
        rw [Finmap.lookup_erase] at he
        simp at he
      · rw [Finmap.lookup_erase_ne hg] at he
        exact h.lockers g e he
  · have hnone := h.lookup_eq_none (Finmap.lookup_eq_none.mpr hmem)
    rw [if_neg hmem]
    unfold removeFileMetadata
    rw [record?_eq_none.mp hnone]
    exact ⟨rfl, h⟩

theorem find :
    (findFileMetadata metaArray f).map (fun i => (metaArray i).entry) = table.lookup f := by
  rw [h.entries f, record?, Option.map_map]
  rfl

theorem acquire {userId : ℤ} (huser : userId ≠ -1) {username : Bytes}
    (hname : username.length < maxUsername) (now : ℤ) :
    (acquireEditLock metaArray f userId username now).1 =
      (table.acquire f userId username now).1 ∧
    Refines (acquireEditLock metaArray f userId username now).2
      (table.acquire f userId username now).2 := by
  unfold FileTable.acquire
  cases he : table.lookup f with
  | none =>
      have hnone := h.lookup_eq_none he
      unfold acquireEditLock
      rw [record?_eq_none.mp hnone]
      exact ⟨rfl, h⟩
  | some e =>
      obtain ⟨r, hr, rfl⟩ := h.lookup_eq_some he
      have hcode := acquireEditLock_of_some hr userId username now
      have hwrite := record?_acquireEditLock f h.unique userId username now
      rw [hr] at hwrite
      have hgrant := grantable_entry r userId now
      by_cases hgrantable : Grantable r.entry.lease userId now
      · rw [if_pos (hgrant.mp hgrantable)] at hcode
        simp only [if_pos hgrantable]
        refine ⟨hcode, h.insert hwrite (entry_acquired r huser hname now) ?_⟩
        intro l hl
        obtain rfl := Option.some_injective _ hl
        cases hcurrent : current r.entry.lease now with
        | none => exact hname
        | some l => exact h.lockers_of hr l (mem_of_mem_current hcurrent)
      · -- nothing is written for a user who does not get the lock
        have hrefused := mt hgrant.mpr hgrantable
        rw [if_neg hrefused] at hcode
        simp only [if_neg hgrantable]
        refine ⟨hcode, hwrite.2, ?_, h.lockers⟩
        intro g
        have hkept : r.acquired userId username now = r :=
          if_neg fun hfree => hrefused (hfree.imp_right Or.inl)
        rw [hwrite.1, Option.map_some, hkept, ← hr, Function.update_eq_self]
        exact h.entries g

theorem release (userId : ℤ) :
    (releaseEditLock metaArray f userId).1 = (table.release f userId).1 ∧
    Refines (releaseEditLock metaArray f userId).2 (table.release f userId).2 := by
  unfold FileTable.release
  cases he : table.lookup f with
  | none =>
      rw [releaseEditLock_of_none (h.lookup_eq_none he)]
      exact ⟨rfl, h⟩
  | some e =>
      obtain ⟨r, hr, rfl⟩ := h.lookup_eq_some he
      have hcode := releaseEditLock_of_some hr userId
      have hwrite := record?_releaseEditLock f h.unique userId
      rw [hr] at hwrite
      by_cases hheld : ∀ l ∈ r.entry.lease, l.holder = userId
      · have hholder := (heldOnly_entry r userId).mp hheld
        rw [if_pos hholder] at hcode
        simp only [if_pos hheld]
        exact ⟨hcode, h.insert hwrite (entry_releasedBy hholder) (by simp)⟩
      · have hother := mt (heldOnly_entry r userId).mpr hheld
        rw [if_neg hother] at hcode
        simp only [if_neg hheld]
        refine ⟨hcode, hwrite.2, ?_, h.lockers⟩
        intro g
        have hkept : r.releasedBy userId = r := if_neg fun hholder => hother (Or.inr hholder.2)
        rw [hwrite.1, Option.map_some, hkept, ← hr, Function.update_eq_self]
        exact h.entries g

theorem check (now : ℤ) :
    (checkEditLock metaArray f now).1 =
      ((table.check f now).1.isSome, ((table.check f now).1.map Lease.name).getD []) ∧
    Refines (checkEditLock metaArray f now).2 (table.check f now).2 := by
  unfold FileTable.check
  cases he : table.lookup f with
  | none =>
      rw [checkEditLock_of_none (h.lookup_eq_none he)]
      exact ⟨rfl, h⟩
  | some e =>
      obtain ⟨r, hr, rfl⟩ := h.lookup_eq_some he
      have hwrite := record?_checkEditLock f h.unique now
      rw [hr] at hwrite
      refine ⟨?_, h.insert hwrite (entry_checked r now) ?_⟩
      · dsimp only
        rw [checkEditLock_of_some hr, current_entry]
        by_cases hstale : r.Stale now
        · rw [if_neg fun h => h.2 hstale, if_pos hstale]
          rfl
        · rw [if_neg hstale]
          by_cases hfree : r.lockedByUserId = -1
          · rw [if_neg fun h => h.1 hfree, entry_lease_of_free hfree]
            rfl
          · have hlease := entry_lease_of_held hfree
            have hcopy := h.lockers_of hr _ hlease
            rw [if_pos ⟨hfree, hstale⟩, hlease]
            show (true, strncpy (maxUsername - 1) r.lockedByUsername) = (true, r.lockedByUsername)
            rw [strncpy, List.take_of_length_le (Nat.le_sub_one_of_lt hcopy)]
      · intro l hl
        exact h.lockers_of hr l (mem_of_mem_current hl)

/-- A call answers what the map answers, and the array goes on showing it. -/
theorem call (c : MetaCall × ℤ) :
    (callMetadata c metaArray).1 = (specMetadata c table).1 ∧
    Refines (callMetadata c metaArray).2 (specMetadata c table).2 := by
  obtain ⟨c, now⟩ := c
  cases c with
  | add f ownerName ownerId size =>
      obtain ⟨hcode, hnext⟩ := h.add f.2 ownerName.2 ownerId size now
      exact ⟨congrArg _ hcode, hnext⟩
  | update f size =>
      obtain ⟨hcode, hnext⟩ := h.update (f := f) size now
      exact ⟨congrArg _ hcode, hnext⟩
  | remove f =>
      obtain ⟨hcode, hnext⟩ := h.remove (f := f)
      exact ⟨congrArg _ hcode, hnext⟩
  | find f => exact ⟨congrArg _ h.find, h⟩
  | acquire f userId username =>
      obtain ⟨hcode, hnext⟩ := h.acquire (f := f) userId.2 username.2 now
      exact ⟨congrArg _ hcode, hnext⟩
  | release f userId =>
      obtain ⟨hcode, hnext⟩ := h.release (f := f) userId
      exact ⟨congrArg _ hcode, hnext⟩
  | check f =>
      obtain ⟨hcode, hnext⟩ := h.check (f := f) now
      constructor
      · show MetaAnswer.lock _ _ = MetaAnswer.lock _ _
        rw [hcode]
      · exact hnext

end Refines

/-- Reading the map off the active slots. -/
structure Shows (metaArray : MetaArray) (table : FileTable) : Prop where
  unique : UniqueNames metaArray
  slots : ∀ i, (metaArray i).isActive = true →
    table.lookup (metaArray i).filename = some (metaArray i).entry
  files : ∀ f ∈ table, ∃ i, (metaArray i).isActive = true ∧ (metaArray i).filename = f
  room : table.keys.card ≤ maxFiles

theorem Refines.shows (h : Refines metaArray table) : Shows metaArray table where
  unique := h.unique
  slots := fun i hi => by
    rw [h.entries]
    cases hfind : findSlot metaArray (metaArray i).filename with
    | none => exact absurd rfl (findSlot_eq_none.mp hfind i hi)
    | some j =>
        obtain ⟨hj, hname⟩ := findSlot_spec hfind
        obtain rfl := h.unique j i hj hi hname
        rw [record?_of_findSlot hfind, Option.map_some]
  files := fun f hf => by
    obtain ⟨r, hr⟩ := Option.isSome_iff_exists.mp (h.mem_iff.mp hf)
    obtain ⟨i, hfind, -⟩ := exists_slot hr
    exact ⟨i, findSlot_spec hfind⟩
  room := h.card_keys_le

/-- Every sequence of calls on the array `init_metadata` makes, at any times, is
answered as the map answers it, and afterwards the active slots show the map. -/
theorem metadata_refines_table (calls : List (MetaCall × ℤ)) :
    (Machine.run callMetadata calls initMetadata).1 = (Machine.run specMetadata calls ∅).1 ∧
    Shows (Machine.run callMetadata calls initMetadata).2 (Machine.run specMetadata calls ∅).2 := by
  have hrun := Machine.run_refines (R := Refines) (fun c _ _ h => h.call c) calls refines_init
  exact ⟨hrun.1, hrun.2.shows⟩

end CloudSync
