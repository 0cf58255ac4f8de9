import CloudSync.Lib.Alone
import CloudSync.Sequential.Commute
import CloudSync.State.Located
import CloudSync.State.LookUps

/-!
# Tasks on different files among each other

A task whose file no other task in the pool modifies runs as if it were alone:
whatever the others do and in whatever order, it gives the response it gives when
it is processed with nothing in between, in the environments it met, and leaves its
file in the state that processing leaves it in (`isolated`).

The run alone is followed step by step (`Mirror`).  As long as the task has not
called `add_file_metadata`, its file sits in the same slot of both arrays, with the
same record (`located`), so also the reads through record pointers answer alike.  A
new record may go to different slots, but nothing is looked up after it has been made
(`processTask_lookedUp`).  The storage is the same in both but for the places of other
files (`Elsewhere`).
-/

namespace CloudSync

open CText Calls Calls.Prog Files

/-- The places of other files. -/
def Elsewhere (f : Bytes) (p : Path) : Prop := ∃ g, StorageName g ∧ g ≠ f ∧ Place g p

variable {f : Bytes} {first world mirror : World}

theorem clear_elsewhere (hf : StorageName f) {p : Path} (hp : FilePlace f p) :
    Clear (Elsewhere f) p := by
  have hclear : ∀ {g : Bytes}, StorageName g → g ≠ f → Clear (Place g) p := fun hg hne =>
    clear_of_filePlace hf hg (Ne.symm hne) hp
  refine ⟨?_, ?_, ?_⟩
  · rintro ⟨g, hg, hne, hplace⟩
    exact (hclear hg hne).self hplace
  · rintro ⟨g, hg, hne, hplace⟩
    exact (hclear hg hne).dir hplace
  · rintro entry ⟨g, hg, hne, hplace⟩
    exact (hclear hg hne).entry entry hplace

theorem not_elsewhere {p : Path} (hp : Place f p) : ¬ Elsewhere f p := by
  rintro ⟨g, -, hne, hplace⟩
  exact hplace.ne hne hp

/-! ## Room for a new file -/

/-- The records of all files but those in `names` are those of `first`. -/
def SameBut (names : Finset Bytes) (first world : World) : Prop :=
  ∀ g, g ∉ names → record? world.metadata g = record? first.metadata g

/-- The files of a state are at most those of `first` and the ones in `names`. -/
theorem room_of_sameBut {names : Finset Bytes} (hfirst : UniqueNames first.metadata)
    (hunique : UniqueNames world.metadata) (hsame : SameBut names first world) (hf : f ∈ names)
    (hgone : record? world.metadata f = none)
    (hcard : (activeSlots first.metadata).card + names.card ≤ maxFiles) : Room world.metadata := by
  have hsubset : activeNames world.metadata ⊆ activeNames first.metadata ∪ names.erase f := by
    intro g hg
    rw [Finset.mem_union, Finset.mem_erase]
    by_cases hgn : g ∈ names
    · right
      refine ⟨?_, hgn⟩
      rintro rfl
      rw [mem_activeNames, hgone] at hg
      exact Bool.noConfusion hg
    · left
      rw [mem_activeNames, hsame g hgn] at hg
      exact mem_activeNames.mpr hg
  have hpos : 0 < names.card := Finset.card_pos.mpr ⟨f, hf⟩
  apply room_of_card
  calc
    (activeSlots world.metadata).card = (activeNames world.metadata).card :=
      hunique.card_activeNames.symm
    _ ≤ (activeNames first.metadata ∪ names.erase f).card := Finset.card_le_card hsubset
    _ ≤ (activeNames first.metadata).card + (names.erase f).card := Finset.card_union_le _ _
    _ = (activeSlots first.metadata).card + (names.card - 1) := by
      rw [hfirst.card_activeNames, Finset.card_erase_of_mem hf]
    _ < maxFiles := by omega

/-- An entitled call keeps the records of all files but that of its task. -/
theorem SameBut.exec {names : Finset Bytes} {task : TaskMessage} {g : Standing} {β : Type}
    {c : WorkerCall β} (hsame : SameBut names first world) (hunique : UniqueNames world.metadata)
    (hmem : task.operation.modifies = true → task.filename ∈ names) (hcall : Entitled task g c)
    (e : Env) : SameBut names first (worker.exec e c world).2 := by
  intro k hk
  refine ((record?_exec e c hunique hcall.filename_length).2.1 k fun hchanges => hk ?_).trans
    (hsame k hk)
  rw [hcall.filename k (WorkerCall.filename_of_changesRecord hchanges)]
  exact hmem (hcall.modifies_of_changesRecord hchanges)

/-! ## The task and its mirror -/

/-- The task is at the same point in both worlds: what it has looked up and what it
will use is the same. -/
structure Mirror (f : Bytes) (added : Bool) (g : Standing) (world mirror : World) : Prop where
  record : (record? world.metadata f).map FileMetadata.shown =
    (record? mirror.metadata f).map FileMetadata.shown
  slots : added = false → located world.metadata f = located mirror.metadata f
  slot : ∀ i, g.slot = some i → added = false ∧ findSlot world.metadata f = some i
  tree : Off (Elsewhere f) world.tree mirror.tree

namespace Mirror

variable {added : Bool} {g g' : Standing}

/-- Before the record is made. -/
theorem of_located (hlocated : located world.metadata f = located mirror.metadata f)
    (hslot : ∀ i, g.slot = some i → findSlot world.metadata f = some i)
    (htree : Off (Elsewhere f) world.tree mirror.tree) : Mirror f false g world mirror where
  record := by rw [record?_eq_located, record?_eq_located, hlocated]
  slots := fun _ => hlocated
  slot := fun i hi => ⟨rfl, hslot i hi⟩
  tree := htree

theorem refl (hslot : g.slot = none) (world : World) : Mirror f false g world world :=
  of_located rfl (fun i hi => (Option.some_ne_none i (hi.symm.trans hslot)).elim) (Off.refl _ _)

/-- What a task has checked is no concern of its mirror. -/
theorem congr_slot (h : Mirror f added g world mirror) (hslot : g'.slot = g.slot) :
    Mirror f added g' world mirror where
  record := h.record
  slots := h.slots
  slot := fun i hi => h.slot i (hslot ▸ hi)
  tree := h.tree

/-- The slot found for the file is the same in both, with the same record. -/
theorem read (h : Mirror f added g world mirror) {i : Slot} (hi : g.slot = some i) :
    world.metadata i = mirror.metadata i := by
  obtain ⟨hadded, hfind⟩ := h.slot i hi
  have hlocated := h.slots hadded
  rw [located_of_findSlot hfind, eq_comm] at hlocated
  exact (located_eq_some.mp hlocated).2.symm

/-- A file function runs alike on both storages. -/
theorem onDisk {α : Type} {prog : Prog Sys α} (h : Mirror f added g world mirror)
    (hf : StorageName f) (hprog : UsesOnly (FilePlace f) prog) (e : Env) :
    (onDisk e prog world).1 = (onDisk e prog mirror).1 ∧
      Mirror f added g (onDisk e prog world).2 (onDisk e prog mirror).2 := by
  obtain ⟨hanswer, htree⟩ := hprog.run_off (fun p hp => clear_elsewhere hf hp) e.conditions h.tree
  exact ⟨hanswer, ⟨h.record, h.slots, h.slot, htree⟩⟩

/-- The functions that overwrite the slot of the file and leave its name. -/
theorem overwritten (h : Mirror f false g world mirror) {metaArray metaArray' : MetaArray}
    (hsame : SameNames world.metadata metaArray)
    (hlocated : located metaArray f = located metaArray' f)
    (hslot : g'.slot = g.slot) :
    Mirror f false g' { world with metadata := metaArray } { mirror with metadata := metaArray' } :=
  of_located hlocated
    (fun i hi => (hsame.findSlot_eq f).trans (h.slot i (hslot ▸ hi)).2) h.tree

/-- `add_file_metadata`, with a slot free in both worlds should it be needed. -/
theorem add (h : Mirror f false g world mirror) (hf : StorageName f)
    (hunique : UniqueNames world.metadata) (hunique' : UniqueNames mirror.metadata)
    (hroom : record? world.metadata f = none → Room world.metadata ∧ Room mirror.metadata)
    (hslot : g'.slot = none) (ownerName : Bytes) (ownerId size now : ℤ) :
    (addFileMetadata world.metadata f ownerName ownerId size now).1 =
        (addFileMetadata mirror.metadata f ownerName ownerId size now).1 ∧
      Mirror f true g'
        { world with metadata := (addFileMetadata world.metadata f ownerName ownerId size now).2 }
        { mirror with
          metadata := (addFileMetadata mirror.metadata f ownerName ownerId size now).2 } := by
  have hlocated := h.slots rfl
  have hafter : (record? (addFileMetadata world.metadata f ownerName ownerId size now).2 f).map
        FileMetadata.shown =
      (record? (addFileMetadata mirror.metadata f ownerName ownerId size now).2 f).map
        FileMetadata.shown ∧
      (addFileMetadata world.metadata f ownerName ownerId size now).1 =
        (addFileMetadata mirror.metadata f ownerName ownerId size now).1 := by
    by_cases hfind : findSlot world.metadata f = none
    · have hnone := record?_eq_none.mpr hfind
      have hnone' : record? mirror.metadata f = none := by
        rw [record?_eq_located, ← hlocated, ← record?_eq_located]
        exact hnone
      obtain ⟨i, hempty⟩ := (hroom hnone).1.emptySlot
      obtain ⟨i', hempty'⟩ := (hroom hnone).2.emptySlot
      obtain ⟨hcode, hrecord, -⟩ := record?_addFileMetadata_of_none hunique hnone hempty hf.short
        ownerName ownerId size now
      obtain ⟨hcode', hrecord', -⟩ := record?_addFileMetadata_of_none hunique' hnone' hempty'
        hf.short ownerName ownerId size now
      rw [hcode, hcode', hrecord, hrecord', Function.update_self, Function.update_self]
      exact ⟨congrArg some (newRecord_shown f ownerName ownerId size now _ _), rfl⟩
    · obtain ⟨hcode, hsame⟩ := addFileMetadata_located hlocated hfind ownerName ownerId size now
      rw [record?_eq_located, record?_eq_located, hsame]
      exact ⟨rfl, hcode⟩
  exact ⟨hafter.2, ⟨hafter.1, fun h => Bool.noConfusion h,
    fun i hi => (Option.some_ne_none i (hi.symm.trans hslot)).elim, h.tree⟩⟩

/-- The next call of the task answers alike in both worlds, and the task is at the
same point in both afterwards. -/
theorem exec {task : TaskMessage} {β : Type} {c : WorkerCall β}
    (h : Mirror task.filename added g world mirror) (hf : StorageName task.filename)
    (hunique : UniqueNames world.metadata) (hunique' : UniqueNames mirror.metadata)
    (hroom : task.operation.modifies = true → record? world.metadata task.filename = none →
      Room world.metadata ∧ Room mirror.metadata)
    (hcall : Entitled task g c) (hlooks : LooksUpFirst task added c)
    (hlist : task.operation ≠ .list) (haudit : task.operation ≠ .audit) (e : Env) :
    (worker.exec e c world).1 = (worker.exec e c mirror).1 ∧
      Mirror task.filename (adding.next added c (worker.exec e c world).1)
        ((standing task).next g c (worker.exec e c world).1) (worker.exec e c world).2
        (worker.exec e c mirror).2 := by
  cases c with
  | findFileMetadata name =>
      obtain rfl : name = task.filename := hcall
      obtain rfl : added = false := hlooks
      have hlocated := h.slots rfl
      refine ⟨?_, of_located hlocated (fun i hi => ?_) h.tree⟩
      · show findSlot world.metadata task.filename = findSlot mirror.metadata task.filename
        rw [findSlot_eq_located, findSlot_eq_located, hlocated]
      · change ((standing task).next g (.findFileMetadata task.filename)
          (findSlot world.metadata task.filename)).slot = some i at hi
        cases hfind : findSlot world.metadata task.filename with
        | none =>
            rw [hfind] at hi
            exact (Option.some_ne_none i hi.symm).elim
        | some j =>
            rw [hfind] at hi
            exact hfind.trans hi
  | addFileMetadata name ownerName ownerId size =>
      obtain ⟨rfl, -, hop, -⟩ := hcall
      obtain rfl : added = false := hlooks
      have hmodifies : task.operation.modifies = true := by rw [hop]; rfl
      exact h.add hf hunique hunique' (hroom hmodifies) rfl ownerName ownerId size e.now
  | updateFileMetadata name size =>
      obtain ⟨rfl, -⟩ := hcall
      obtain rfl : added = false := hlooks
      obtain ⟨hanswer, hlocated⟩ := updateFileMetadata_located (h.slots rfl) size e.now
      exact ⟨hanswer, h.overwritten (updateFileMetadata_sameNames _ _ _) hlocated rfl⟩
  | removeFileMetadata name =>
      obtain ⟨rfl, -⟩ := hcall
      obtain rfl : added = false := hlooks
      obtain ⟨hanswer, hlocated⟩ := removeFileMetadata_located (h.slots rfl) hunique hunique'
      exact ⟨hanswer, of_located hlocated (fun i hi => (Option.some_ne_none i hi.symm).elim) h.tree⟩
  | acquireEditLock name userId username =>
      obtain ⟨rfl, -⟩ := hcall
      obtain rfl : added = false := hlooks
      obtain ⟨hanswer, hlocated⟩ := acquireEditLock_located (h.slots rfl) userId username e.now
      exact ⟨hanswer, h.overwritten (acquireEditLock_sameNames _ _ _ _) hlocated rfl⟩
  | releaseEditLock name userId =>
      obtain ⟨rfl, -⟩ := hcall
      obtain rfl : added = false := hlooks
      obtain ⟨hanswer, hlocated⟩ := releaseEditLock_located (h.slots rfl) userId
      exact ⟨hanswer, h.overwritten (releaseEditLock_sameNames _ _) hlocated rfl⟩
  | checkEditLock name =>
      obtain ⟨rfl, -⟩ := hcall
      obtain rfl : added = false := hlooks
      obtain ⟨hanswer, hlocated⟩ := checkEditLock_located (h.slots rfl) e.now
      exact ⟨hanswer, h.overwritten (checkEditLock_sameNames _ _) hlocated rfl⟩
  | listAllFiles => exact absurd hlooks hlist
  | getFileVersion name =>
      obtain rfl : name = task.filename := hcall
      obtain rfl : added = false := hlooks
      exact ⟨getFileVersion_located (h.slots rfl) maxFileSize e.date, h⟩
  | ownerId i => exact ⟨congrArg FileMetadata.ownerId (h.read hcall), h.congr_slot rfl⟩
  | ownerName i => exact ⟨congrArg FileMetadata.ownerName (h.read hcall), h⟩
  | version i => exact ⟨congrArg FileMetadata.version (h.read hcall), h⟩
  | lockedByUserId i =>
      exact ⟨congrArg FileMetadata.lockedByUserId (h.read hcall), h.congr_slot rfl⟩
  | lockedByUsername i => exact ⟨congrArg FileMetadata.lockedByUsername (h.read hcall), h⟩
  | saveVersion name k =>
      obtain ⟨rfl, -⟩ := hcall
      exact h.onDisk hf (saveVersion_usesOnly k) e
  | saveFile name data =>
      obtain ⟨rfl, -⟩ := hcall
      exact h.onDisk hf (saveFile_usesOnly data) e
  | readFile name =>
      obtain rfl : name = task.filename := hcall
      exact h.onDisk hf readFile_usesOnly e
  | restoreVersion name k =>
      obtain ⟨rfl, -⟩ := hcall
      exact h.onDisk hf (restoreVersion_usesOnly k) e
  | removeFileFromStorage name =>
      obtain ⟨rfl, -⟩ := hcall
      exact h.onDisk hf removeFileFromStorage_usesOnly e
  | listVersions name =>
      obtain rfl : name = task.filename := hcall
      obtain ⟨hlisted, hafter⟩ := h.onDisk hf (listVersions_usesOnly maxFileSize e.modified) e
      exact ⟨congrArg Prod.snd hlisted, hafter⟩
  | deleteVersion name k =>
      obtain ⟨rfl, -⟩ := hcall
      exact h.onDisk hf (deleteVersion_usesOnly k) e
  | readAuditLog => exact absurd hlooks haudit
  | writeAuditEntry username operation name result =>
      simp only [worker]
      split
      · exact ⟨trivial, ⟨h.record, h.slots, h.slot, h.tree⟩⟩
      · exact ⟨trivial, h⟩

/-- A call of a task that does not modify the file changes nothing that has been looked up or
will be used. -/
theorem others {task : TaskMessage} {β : Type} {c : WorkerCall β}
    (h : Mirror f added g world mirror) (hcall : Entitled task g' c)
    (hname : task.operation.modifies = true → StorageName task.filename)
    (hother : task.operation.modifies = true → task.filename ≠ f) (e : Env) :
    Mirror f added g (worker.exec e c world).2 mirror := by
  have hlocated : located (worker.exec e c world).2.metadata f = located world.metadata f := by
    cases hmodifies : task.operation.modifies with
    | true =>
        exact located_exec_of_ne (hother hmodifies) e world hcall.filename task.filename_length
    | false => rw [metadata_exec _ _ _ (hcall.modifies hmodifies).1]
  refine ⟨?_, fun hadded => hlocated.trans (h.slots hadded), fun i hi => ?_, ?_⟩
  · rw [record?_eq_located, hlocated, ← record?_eq_located]
    exact h.record
  · obtain ⟨hadded, hfind⟩ := h.slot i hi
    refine ⟨hadded, ?_⟩
    rw [findSlot_eq_located, hlocated, ← findSlot_eq_located]
    exact hfind
  · have hoff : Off (Elsewhere f) world.tree (worker.exec e c world).2.tree := by
      refine (off_writesAt e c world).mono fun p hp => ?_
      have hmodifies := hcall.modifies_of_writesAt hp
      exact ⟨_, hname hmodifies, hother hmodifies,
        place_of_filePlace (hname hmodifies) (filePlace_of_writesAt hcall.filename hp)⟩
    exact hoff.symm.trans h.tree

/-- If there are slots for all files named, there is one for the file in both worlds. -/
theorem rooms {names : Finset Bytes} (h : Mirror f added g world mirror)
    (hfirst : UniqueNames first.metadata) (hunique : UniqueNames world.metadata)
    (hunique' : UniqueNames mirror.metadata) (hsame : SameBut names first world)
    (hsame' : SameBut {f} first mirror) (hf : f ∈ names)
    (hroom : (activeSlots first.metadata).card + names.card ≤ maxFiles)
    (hgone : record? world.metadata f = none) : Room world.metadata ∧ Room mirror.metadata := by
  have hpos : 0 < names.card := Finset.card_pos.mpr ⟨f, hf⟩
  have hgone' : record? mirror.metadata f = none := by
    have hrecord := h.record
    rw [hgone, Option.map_none, eq_comm, Option.map_eq_none_iff] at hrecord
    exact hrecord
  constructor
  · exact room_of_sameBut hfirst hunique hsame hf hgone hroom
  · apply room_of_sameBut hfirst hunique' hsame' (Finset.mem_singleton_self _) hgone'
    rw [Finset.card_singleton]
    omega

/-- At the same point in both worlds, the file shows the same. -/
theorem file (h : Mirror f added g world mirror) (hf : StorageName f) :
    (world.file f).shown = (mirror.file f).shown := by
  have hsame : ∀ {p : Path}, FilePlace f p → world.tree.at? p = mirror.tree.at? p :=
    fun hp => h.tree.at? _ (not_elsewhere (place_of_filePlace hf hp))
  ext1
  · exact h.record
  · exact Tree.bytes?_congr (hsame contentPath_place)
  · funext k
    exact Tree.bytes?_congr (hsame (versionPath_place k))

end Mirror

/-! ## Files that no task modifies -/

/-- An entitled call leaves a file alone that its task does not modify. -/
theorem exec_file {task : TaskMessage} {g : Standing} {β : Type} {c : WorkerCall β}
    (hunique : UniqueNames world.metadata) (hcall : Entitled task g c)
    (hname : task.operation.modifies = true → StorageName task.filename) (hf : StorageName f)
    (hother : task.operation.modifies = true → task.filename ≠ f) (e : Env) :
    (worker.exec e c world).2.file f = world.file f := by
  have hsame : ∀ {p : Path}, FilePlace f p →
      (worker.exec e c world).2.tree.at? p = world.tree.at? p := by
    intro p hp
    refine at?_exec e c world fun hwrites => ?_
    have hmodifies := hcall.modifies_of_writesAt hwrites
    have hplace := place_of_filePlace (hname hmodifies) (filePlace_of_writesAt hcall.filename hwrites)
    exact hplace.ne (hother hmodifies) (place_of_filePlace hf hp)
  ext1
  · refine (record?_exec e c hunique hcall.filename_length).2.1 f fun hchanges => ?_
    exact hother (hcall.modifies_of_changesRecord hchanges)
      (hcall.filename f (WorkerCall.filename_of_changesRecord hchanges)).symm
  · exact Tree.bytes?_congr (hsame contentPath_place)
  · funext k
    exact Tree.bytes?_congr (hsame (versionPath_place k))

/-- In a pool, a file that no task modifies is as it was. -/
theorem file_of_reach {ι : Type} [DecidableEq ι] {tasks : ι → TaskMessage} {workers : Workers ι}
    {allowed : Workers ι → ι → Env → Prop} (hunique : UniqueNames world.metadata)
    (hnames : ∀ j, (tasks j).operation.modifies = true → StorageName (tasks j).filename)
    (hf : StorageName f)
    (hothers : ∀ j, (tasks j).operation.modifies = true → (tasks j).filename ≠ f)
    (hreach : WorkersReach tasks allowed world workers) : workers.shared.file f = world.file f := by
  have hboth : Workers.Sound tasks workers ∧ workers.shared.file f = world.file f := by
    apply hreach.invariant (I := fun workers => Workers.Sound tasks workers ∧
      workers.shared.file f = world.file f)
    · exact ⟨⟨hunique, fun j => processTask_covered (tasks j) _⟩, rfl⟩
    · rintro workers j e ⟨hsound, hsame⟩ -
      refine ⟨hsound.step j e, ?_⟩
      cases hprog : (workers.thread j).prog with
      | ret value =>
          rw [Pool.step_ret hprog]
          exact hsame
      | call c next =>
          rw [Pool.step_call hprog]
          exact (exec_file hsound.unique (hsound.entitled hprog) (hnames j) hf (hothers j) e).trans
            hsame
  exact hboth.2

/-! ## The pool -/

section Isolation

variable {ι : Type} [DecidableEq ι] {tasks : ι → TaskMessage} {i : ι}

/-- The records of the files that no task modifies are as they were at the start. -/
structure Fenced (tasks : ι → TaskMessage) (names : Finset Bytes) (first : World)
    (workers : Workers ι) : Prop where
  sound : Workers.Sound tasks workers
  same : SameBut names first workers.shared

variable {names : Finset Bytes}
  (hnames : ∀ j, (tasks j).operation.modifies = true → StorageName (tasks j).filename)
  (hmem : ∀ j, (tasks j).operation.modifies = true → (tasks j).filename ∈ names)

include hmem in
theorem Fenced.step {workers : Workers ι} (h : Fenced tasks names first workers) (j : ι)
    (e : Env) : Fenced tasks names first (workers.step tasks j e) := by
  refine ⟨h.sound.step j e, ?_⟩
  cases hprog : (workers.thread j).prog with
  | ret value =>
      rw [Workers.step_of_ret hprog]
      exact h.same
  | call c next =>
      rw [Workers.step_of_call hprog]
      exact h.same.exec h.sound.unique (hmem j) (h.sound.entitled hprog) e

/-- Where task `i` stands, in the pool and alone. -/
def Followed (tasks : ι → TaskMessage) (first : World) (i : ι)
    (thread : Thread WorkerCall Standing ResponseMessage) (world mirror : World) : Prop :=
  ∃ added, LookedUp (tasks i) added thread.prog ∧
    Mirror (tasks i).filename added thread.ghost world mirror ∧ UniqueNames mirror.metadata ∧
    SameBut {(tasks i).filename} first mirror

variable (hname : StorageName (tasks i).filename) (hunique : UniqueNames first.metadata)
  (hlist : (tasks i).operation ≠ .list) (haudit : (tasks i).operation ≠ .audit)
  (hroom : (activeSlots first.metadata).card + names.card ≤ maxFiles)

include hmem hname hunique hlist haudit hroom

theorem mirrored_followed :
    Mirrored worker (fun j => standing (tasks j)) i (Fenced tasks names first)
      (Followed tasks first i) := by
  rintro workers e mirror β c next hfenced hprog ⟨added, hlooked, hmirror, hunique', hsame⟩
  have hcall := hfenced.sound.entitled hprog
  rw [hprog] at hlooked
  have hfree := fun hmodifies => hmirror.rooms hunique hfenced.sound.unique hunique' hfenced.same
    hsame (hmem i hmodifies) hroom
  obtain ⟨hanswer, hafter⟩ := hmirror.exec hname hfenced.sound.unique hunique' hfree hcall
    hlooked.1 hlist haudit e
  refine ⟨hanswer, adding.next added c (worker.exec e c workers.shared).1, ?_, ?_, ?_, ?_⟩
  · rw [Pool.step_call hprog]
    simp only [Function.update_self]
    exact hlooked.2 _
  · rw [Pool.step_call hprog]
    simp only [Function.update_self]
    exact hafter
  · exact (record?_exec e c hunique' hcall.filename_length).1
  · exact hsame.exec hunique' (fun _ => Finset.mem_singleton_self _) hcall e

variable (halone : ∀ j, j ≠ i → (tasks j).operation.modifies = true →
  (tasks j).filename ≠ (tasks i).filename)

include hnames halone

omit hmem hname hunique hlist haudit hroom in
theorem othersKeep_followed :
    OthersKeep worker (fun j => standing (tasks j)) i (Fenced tasks names first)
      (Followed tasks first i) := by
  rintro workers j e mirror hfenced hji ⟨added, hlooked, hmirror, hunique', hsame⟩
  refine ⟨added, hlooked, ?_, hunique', hsame⟩
  cases hprog : (workers.thread j).prog with
  | ret value =>
      rw [Pool.step_ret hprog]
      exact hmirror
  | call c next =>
      rw [Pool.step_call hprog]
      exact hmirror.others (hfenced.sound.entitled hprog) (hnames j) (halone j hji) e

variable {schedule : List (ι × Env)} {env : ℕ → Env} (henv : Follows (metBy i schedule) env)
  {resp : ResponseMessage}
  (hdone : (((Workers.start tasks first).run tasks schedule).thread i).prog = .ret resp)

include henv hdone

/-- A finished task has returned what it returns alone, and stands where it stands
alone. -/
theorem followed_run : (serve env (tasks i) first).1 = resp ∧
    Followed tasks first i (((Workers.start tasks first).run tasks schedule).thread i)
      ((Workers.start tasks first).run tasks schedule).shared (serve env (tasks i) first).2 := by
  have hstart : Fenced tasks names first (Workers.start tasks first) :=
    ⟨⟨hunique, fun j => processTask_covered (tasks j) _⟩, fun _ _ => rfl⟩
  have hfollowed : Followed tasks first i ((Workers.start tasks first).thread i) first first :=
    ⟨false, processTask_lookedUp (tasks i), Mirror.refl rfl first, hunique, fun _ _ => rfl⟩
  exact returned_alone (fun workers j e h => h.step hmem j e)
    (mirrored_followed hmem hname hunique hlist haudit hroom) (othersKeep_followed hnames halone)
    hstart hfollowed henv hdone

/-- A task whose file no other task modifies gives the response it gives alone, and
leaves its file as it does alone, however the workers are scheduled. -/
theorem isolated : (serve env (tasks i) first).1 = resp ∧
    (((Workers.start tasks first).run tasks schedule).shared.file (tasks i).filename).shown =
      ((serve env (tasks i) first).2.file (tasks i).filename).shown := by
  obtain ⟨hresp, added, -, hmirror, -⟩ := followed_run hnames hmem hname hunique hlist haudit hroom
    halone henv hdone
  exact ⟨hresp, hmirror.file hname⟩

end Isolation

/-- Users 2 upload `a` and `b`. -/
def separateUploads (second : Bool) : TaskMessage :=
  cond second (uploadOf (text "b") filename_b) (uploadOf (text "a") filename_a)

/-- The uploads take turns, call by call. -/
def takingTurns : List (Bool × Env) :=
  (List.replicate 6 [(false, Env.calm 0), (true, Env.calm 1)]).flatten

theorem isolated_upload :
    (((Workers.start separateUploads freshWorld).run separateUploads takingTurns).shared.file
        (text "b")).shown =
      ((serve (fun _ => Env.calm 1) (separateUploads true) freshWorld).2.file (text "b")).shown := by
  have hmet : Follows (metBy true takingTurns) fun _ => Env.calm 1 :=
    ⟨rfl, rfl, rfl, rfl, rfl, rfl, trivial⟩
  have hdone : (((Workers.start separateUploads freshWorld).run separateUploads takingTurns).thread true).prog =
      .ret (serve (fun _ => Env.calm 1) (separateUploads true) freshWorld).1 := rfl
  have hmem : ∀ j, (separateUploads j).operation.modifies = true →
      (separateUploads j).filename ∈ [text "a", text "b"].toFinset := by decide
  exact (isolated (i := true) (by decide) hmem (by decide) initMetadata_unique (by decide)
    (by decide) (by decide) (by decide) hmet hdone).2

/-- The task is about a file. -/
def TaskMessage.OnFile (task : TaskMessage) : Prop :=
  task.operation ≠ .list ∧ task.operation ≠ .audit

theorem onFile_of_modifies {task : TaskMessage} (h : task.operation.modifies = true) :
    task.OnFile := by
  constructor <;> intro hop <;> exact Bool.noConfusion (hop ▸ h)

section Outcome

variable {ι : Type} [DecidableEq ι] {tasks : ι → TaskMessage} {first : World}
  {names : Finset Bytes} (hnames : ∀ j, (tasks j).OnFile → StorageName (tasks j).filename)
  (hmem : ∀ j, (tasks j).operation.modifies = true → (tasks j).filename ∈ names)
  (halone : ∀ j k, (tasks j).OnFile → k ≠ j → (tasks k).operation.modifies = true →
    (tasks k).filename ≠ (tasks j).filename)
  (hunique : UniqueNames first.metadata)
  (hroom : (activeSlots first.metadata).card + names.card ≤ maxFiles)

include hnames hmem halone hunique hroom

/-- Tasks on files that no other task modifies do the same under every schedule in which each
meets the same environments: the responses are the same, and so is every file. -/
theorem order_irrelevant {schedule schedule' : List (ι × Env)}
    (hmet : ∀ j, (tasks j).OnFile → metBy j schedule = metBy j schedule')
    {resp resp' : ι → ResponseMessage}
    (hdone : ∀ j, (tasks j).OnFile →
      (((Workers.start tasks first).run tasks schedule).thread j).prog = .ret (resp j))
    (hdone' : ∀ j, (tasks j).OnFile →
      (((Workers.start tasks first).run tasks schedule').thread j).prog = .ret (resp' j)) :
    (∀ j, (tasks j).OnFile → resp j = resp' j) ∧ ∀ f, StorageName f →
      (((Workers.start tasks first).run tasks schedule).shared.file f).shown =
        (((Workers.start tasks first).run tasks schedule').shared.file f).shown := by
  have hwriters : ∀ j, (tasks j).operation.modifies = true → StorageName (tasks j).filename :=
    fun j hj => hnames j (onFile_of_modifies hj)
  -- both are compared with the run of each task alone
  have hfollows := fun j => follows_followed (Env.calm 0) (metBy j schedule)
  have hfollows' : ∀ j, (tasks j).OnFile →
      Follows (metBy j schedule') (followed (Env.calm 0) (metBy j schedule)) :=
    fun j hj => hmet j hj ▸ hfollows j
  have hleft := fun j hj => followed_run hwriters hmem (hnames j hj) hunique hj.1 hj.2 hroom
    (fun k => halone j k hj) (hfollows j) (hdone j hj)
  have hright := fun j hj => followed_run hwriters hmem (hnames j hj) hunique hj.1 hj.2 hroom
    (fun k => halone j k hj) (hfollows' j hj) (hdone' j hj)
  refine ⟨fun j hj => (hleft j hj).1.symm.trans (hright j hj).1, fun f hf => ?_⟩
  by_cases hnamed : ∃ j, (tasks j).OnFile ∧ (tasks j).filename = f
  · obtain ⟨j, hj, rfl⟩ := hnamed
    obtain ⟨-, added, -, hmirror, -⟩ := hleft j hj
    obtain ⟨-, added', -, hmirror', -⟩ := hright j hj
    exact (hmirror.file hf).trans (hmirror'.file hf).symm
  · have hothers : ∀ j, (tasks j).operation.modifies = true → (tasks j).filename ≠ f :=
      fun j hj heq => hnamed ⟨j, onFile_of_modifies hj, heq⟩
    have hunchanged : ∀ entries, ((Workers.start tasks first).run tasks entries).shared.file f =
        first.file f := by
      intro entries
      have hreach : WorkersReach tasks (fun _ _ _ => True) first
          ((Workers.start tasks first).run tasks entries) := .run_schedule .refl fun _ _ => trivial
      exact file_of_reach hunique hwriters hf hothers hreach
    rw [hunchanged schedule, hunchanged schedule']

end Outcome

/-- The uploads one after the other. -/
def oneAfterOther : List (Bool × Env) :=
  List.replicate 6 (false, Env.calm 0) ++ List.replicate 6 (true, Env.calm 1)

theorem order_irrelevant_uploads :
    (((Workers.start separateUploads freshWorld).run separateUploads takingTurns).shared.file
        (text "a")).shown =
      (((Workers.start separateUploads freshWorld).run separateUploads oneAfterOther).shared.file
        (text "a")).shown := by
  have hnames : ∀ j, StorageName (separateUploads j).filename := by decide
  have hmem : ∀ j, (separateUploads j).operation.modifies = true →
      (separateUploads j).filename ∈ [text "a", text "b"].toFinset := by decide
  have hdistinct : Function.Injective fun j => (separateUploads j).filename := by decide
  have hmet : ∀ j, metBy j takingTurns = metBy j oneAfterOther := by
    intro j
    cases j <;> rfl
  have hdone : ∀ j, (((Workers.start separateUploads freshWorld).run separateUploads
      takingTurns).thread j).prog =
        .ret (serve (fun _ => Env.calm 0) (separateUploads j) freshWorld).1 := by
    intro j
    cases j <;> rfl
  have hdone' : ∀ j, (((Workers.start separateUploads freshWorld).run separateUploads
      oneAfterOther).thread j).prog =
        .ret (serve (fun _ => Env.calm 0) (separateUploads j) freshWorld).1 := by
    intro j
    cases j <;> rfl
  exact (order_irrelevant (fun j _ => hnames j) hmem (fun _ _ _ hne _ heq => hne (hdistinct heq))
    initMetadata_unique (by decide) (fun j _ => hmet j) (fun j _ => hdone j)
    (fun j _ => hdone' j)).2 (text "a") (by decide)

end CloudSync
