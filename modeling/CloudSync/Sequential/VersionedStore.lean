import CloudSync.State.Leases
import CloudSync.State.Versions

/-!
# What the server is for

The server is a store of files.  A file has an owner, a content and a version, the older
contents of its newest versions, and possibly a lease: somebody is editing it.  `Store` is
a finite map from names to such files with room for `maxFiles` of them, and
`Store.serve` says what a request means for it and what it is answered.  Slots,
directories, buffers and sizes do not occur here.

A request reads the clock up to three times: where it checks a lock, where it takes one,
and where it writes.
-/

namespace CloudSync

open CText

/-- What the clock shows when a task checks a lease and when it takes one. -/
structure Moments where
  check : ℤ
  acquire : ℤ

/-- A file as its users see it. -/
structure StoredFile where
  ownerName : Bytes
  ownerId : ℤ
  version : ℤ
  content : Bytes
  lease : Option Lease
  versions : ℤ → Option Bytes

namespace StoredFile

/-- A new file of the user who uploads it. -/
def uploaded (task : TaskMessage) : StoredFile where
  ownerName := task.username
  ownerId := task.userId
  version := 1
  content := task.data
  lease := none
  versions := fun _ => none

/-- The user may change the file: it is theirs, or they are an administrator. -/
def MayChange (task : TaskMessage) (file : StoredFile) : Prop :=
  task.role = roleAdmin ∨ file.ownerId = task.userId

/-- Somebody else has a lease on the file. -/
def LeasedToOther (task : TaskMessage) (file : StoredFile) : Prop :=
  ∃ l ∈ file.lease, l.holder ≠ task.userId

/-- The user has a lease on the file. -/
def LeasedTo (task : TaskMessage) (file : StoredFile) : Prop :=
  ∃ l ∈ file.lease, l.holder = task.userId

instance (task : TaskMessage) (file : StoredFile) : Decidable (file.MayChange task) := by
  unfold MayChange
  infer_instance

instance (task : TaskMessage) (file : StoredFile) : Decidable (file.LeasedToOther task) := by
  unfold LeasedToOther
  infer_instance

instance (task : TaskMessage) (file : StoredFile) : Decidable (file.LeasedTo task) := by
  unfold LeasedTo
  infer_instance

/-- The content becomes a version. -/
noncomputable def keep (file : StoredFile) : StoredFile :=
  { file with versions := backedUp (some file.content) file.version file.versions }

/-- The content becomes a version and another one takes its place. -/
noncomputable def overwrite (file : StoredFile) (data : Bytes) : StoredFile :=
  { file.keep with version := file.version + 1, content := data }

/-- An old lease ends. -/
def expire (file : StoredFile) (now : ℤ) : StoredFile := { file with lease := current file.lease now }

/-- The file is leased, if it is not already. -/
def takeLease (file : StoredFile) (userId : ℤ) (username : Bytes) (now : ℤ) : StoredFile :=
  { file with lease := (current file.lease now).getD ⟨userId, username, now⟩ }

/-- Nobody has a lease. -/
def endLease (file : StoredFile) : StoredFile := { file with lease := none }

/-- A version is removed. -/
def forget (file : StoredFile) (k : ℤ) : StoredFile :=
  { file with versions := Function.update file.versions k none }

variable (task : TaskMessage) (moments : Moments) (file : StoredFile)

theorem keep_versions :
    file.keep.versions = backedUp (some file.content) file.version file.versions := rfl

theorem forget_versions (k : ℤ) :
    (file.forget k).versions = Function.update file.versions k none := rfl

/-! ## What a request means for an existing file -/

noncomputable def upload : Status × Option StoredFile :=
  let file := file.expire moments.check
  if file.LeasedToOther task then (.fileLocked, file)
  else if ¬ file.MayChange task then (.permissionDenied, file)
  else (.success, file.overwrite task.data)

def download : Status × Option StoredFile := (.success, file)

def delete : Status × Option StoredFile :=
  if ¬ file.MayChange task then (.permissionDenied, file)
  else if file.LeasedToOther task then (.fileLocked, file)
  else (.success, none)

def edit : Status × Option StoredFile :=
  if ¬ file.MayChange task then (.permissionDenied, file)
  else if Grantable file.lease task.userId moments.acquire then
    (.success, file.takeLease task.userId task.username moments.acquire)
  else (.fileLocked, file.expire moments.check)

noncomputable def save : Status × Option StoredFile :=
  if file.LeasedTo task then (.success, (file.overwrite task.data).endLease)
  else (.permissionDenied, file)

def unlock : Status × Option StoredFile :=
  if file.LeasedToOther task then (.permissionDenied, file)
  else (.success, file.endLease)

noncomputable def rollback : Status × Option StoredFile :=
  if ¬ file.MayChange task then (.permissionDenied, file)
  else if file.LeasedToOther task then (.fileLocked, file)
  else
    match file.keep.versions task.targetVersion with
    | none => (.error, file.keep)
    | some bytes => (.success, file.overwrite bytes)

def delversion : Status × Option StoredFile :=
  if ¬ file.MayChange task then (.permissionDenied, file)
  else if file.versions task.targetVersion = none then (.error, file)
  else (.success, file.forget task.targetVersion)

/-- What a request means for an existing file. -/
noncomputable def serve : Status × Option StoredFile :=
  match task.operation with
  | .upload => upload task moments file
  | .download => download file
  | .delete => delete task file
  | .edit => edit task moments file
  | .save =>
      if task.role = roleGuest then (.permissionDenied, file) else save task file
  | .unlock => unlock task file
  | .rollback => rollback task file
  | .delversion => delversion task file
  | .version => (.success, file)
  | .history => (.success, file)
  | .list => (.success, file)
  | .audit => (.success, file)
  | _ => (.error, file)

end StoredFile

/-- What a request for a file that does not exist is answered, and whether it creates
the file. -/
def serveMissing (task : TaskMessage) (room : Bool) : Status × Option StoredFile :=
  match task.operation with
  | .upload =>
      if room then (.success, StoredFile.uploaded task) else (.error, none)
  | .save =>
      if task.role = roleGuest then (.permissionDenied, none)
      else (.fileNotFound, none)
  | .download | .delete | .edit | .unlock | .rollback | .delversion | .version | .history =>
      (.fileNotFound, none)
  | .list | .audit => (.success, none)
  | _ => (.error, none)

/-- The files, by name. -/
abbrev Store := Finmap fun _ : Bytes => StoredFile

namespace Store

/-- There is room for another file. -/
def room (store : Store) : Bool := store.keys.card < maxFiles

/-- The file of that name becomes this one, or there is none. -/
def put (store : Store) (f : Bytes) : Option StoredFile → Store
  | none => store.erase f
  | some file => store.insert f file

/-- What a request means for the file it names. -/
noncomputable def serveFile (task : TaskMessage) (moments : Moments) (store : Store) :
    Status × Option StoredFile :=
  match store.lookup task.filename with
  | none => serveMissing task store.room
  | some file => file.serve task moments

/-- What a request means for the store. -/
noncomputable def serve (task : TaskMessage) (moments : Moments) (store : Store) : Status × Store :=
  ((serveFile task moments store).1, store.put task.filename (serveFile task moments store).2)

/-- The content that is handed out, if it is asked for and there is no reason against it. -/
noncomputable def handOut (task : TaskMessage) (moments : Moments) (store : Store) : Option Bytes :=
  if (task.operation = .download ∨ task.operation = .edit) ∧
      (serve task moments store).1 = .success then
    (store.lookup task.filename).map StoredFile.content
  else none

variable {store : Store} {f g : Bytes}

@[simp] theorem lookup_put (file? : Option StoredFile) :
    (store.put f file?).lookup f = file? := by
  cases file? with
  | none => exact Finmap.lookup_erase f store
  | some file => exact Finmap.lookup_insert store

theorem lookup_put_of_ne (hne : g ≠ f) (file? : Option StoredFile) :
    (store.put f file?).lookup g = store.lookup g := by
  cases file? with
  | none => exact Finmap.lookup_erase_ne hne
  | some file => exact Finmap.lookup_insert_of_ne store hne

end Store

end CloudSync
