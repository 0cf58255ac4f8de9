import CloudSync.Concurrent.Windows
import CloudSync.State.Disk

/-!
# Metadata and storage at quiescence

A write and its metadata update are two steps, and other workers take steps in
between.  The history of a run remembers, for every file, the task that wrote its
content last.  If no record is changed for a write that has been overwritten, the
later write having been recorded already (`WriteOrder`), then whenever the last
writer of a file has closed its window the record fits the content
(`settled_of_writeOrder`), and when all tasks have returned it does for every file.

The program does not keep workers to that order: `uploads_cross` has two uploads
write in one order and record in the other.
-/

namespace CloudSync

open CText Calls Calls.Prog Files

variable {ι : Type} [DecidableEq ι]

/-! ## Workers and the history of their writes -/

/-- Tasks in the middle of being processed, with their windows. -/
abbrev Writers (ι : Type) := Pool WorkerCall Window ResponseMessage ι World

/-- All workers have just received their tasks. -/
def Writers.start (task : ι → TaskMessage) (world : World) : Writers ι :=
  Pool.start (fun _ => window) (fun i => processTask (task i)) world

/-- Worker `i` makes its next call. -/
def Writers.step (workers : Writers ι) (i : ι) (e : Env) : Writers ι :=
  Pool.step worker (fun _ => window) workers i e

/-- The workers take the steps of a schedule. -/
def Writers.run (workers : Writers ι) (schedule : List (ι × Env)) : Writers ι :=
  Pool.runSchedule worker (fun _ => window) workers schedule

/-- The call has changed the content. -/
def WorkerCall.wrote : {β : Type} → WorkerCall β → β → Bool
  | _, .saveFile _ _, result => decide (0 ≤ result)
  | _, .restoreVersion _ _, result => decide (0 ≤ result)
  | _, .removeFileFromStorage _, result => decide (0 ≤ result)
  | _, _, _ => false

/-- The file whose record a call would make, bring up to date or remove. -/
def WorkerCall.settles (metaArray : MetaArray) : {β : Type} → WorkerCall β → Option Bytes
  | _, .addFileMetadata f _ _ _ =>
      if (record? metaArray f).isSome || (emptySlot metaArray).isSome then some f else none
  | _, .updateFileMetadata f _ => if (record? metaArray f).isSome then some f else none
  | _, .removeFileMetadata f => if (record? metaArray f).isSome then some f else none
  | _, _ => none

/-- The file whose record a call would bring up to date. -/
def WorkerCall.updates : {β : Type} → WorkerCall β → Option Bytes
  | _, .updateFileMetadata f _ => some f
  | _, _ => none

/-- The file a call would remove. -/
def WorkerCall.removes : {β : Type} → WorkerCall β → Option Bytes
  | _, .removeFileFromStorage f => some f
  | _, _ => none

/-- A task that changes the content becomes the last writer of its file. -/
def enterWrite (task : ι → TaskMessage) (workers : Writers ι) (i : ι) (e : Env)
    (last : Bytes → Option ι) : Bytes → Option ι :=
  match (workers.thread i).prog with
  | .ret _ => last
  | .call c _ =>
      if c.wrote (worker.exec e c workers.shared).1 then
        Function.update last (task i).filename (some i)
      else last

/-- The window of a task is open. -/
def Open (workers : Writers ι) (i : ι) : Prop := (workers.thread i).ghost ≠ .closed

/-- The step meets no failure, changes the record of a file only if the last
writer of the file has not recorded its own write yet or is the one to do so now,
updates a record for the last writer only where there is one, and undoes an
upload only where there is none. -/
structure WriteOrder (workers : Writers ι) (last : Bytes → Option ι) (i : ι) (e : Env) : Prop where
  fine : e.Fine
  record : ∀ f, (workers.thread i).prog.AtCall
    (fun c => c.settles workers.shared.metadata = some f) →
      ∀ j, last f = some j → j ≠ i → Open workers j
  update : ∀ f, (workers.thread i).prog.AtCall (fun c => c.updates = some f) →
    last f = some i → (record? workers.shared.metadata f).isSome
  undo : ∀ f size, (workers.thread i).prog.AtCall (fun c => c.removes = some f) →
    (workers.thread i).ghost = .undo size → record? workers.shared.metadata f = none

/-- The states reached by steps in order, with the last writer of each file. -/
abbrev WritersReach (task : ι → TaskMessage) (world : World) :
    Writers ι → (Bytes → Option ι) → Prop :=
  ReachWith worker (fun _ => window) (enterWrite task) WriteOrder (Writers.start task world)
    fun _ => none

/-! ## The effect of a call on its file -/

/-- What a call does to the window of its task and to the record and the content
of its file.  `inOrder` is the promise about changes of the record, `mine` says
that the task is the last writer. -/
inductive Effect (inOrder mine : Prop) (g : Window) (r : Option FileMetadata) (b : Option Bytes) :
    Bool → Window → Option FileMetadata → Option Bytes → Prop
  | write (bytes : Bytes) (hg : g = .closed) :
      Effect inOrder mine g r b true (.wrote bytes.length) r (some bytes)
  | erase (hg : g = .closed) : Effect inOrder mine g r b true .removed r none
  | undo (hg : ∃ size, g = .undo size) (hr : r = none) :
      Effect inOrder mine g r b true .closed r none
  | undoNothing (hg : ∃ size, g = .undo size) (hb : b = none) :
      Effect inOrder mine g r b false .closed r b
  | settle (r' : FileMetadata) (hg : g = .wrote r'.fileSize) (hin : inOrder) :
      Effect inOrder mine g r b false .closed (some r') b
  | full (size : ℤ) (hg : g = .wrote size) : Effect inOrder mine g r b false (.undo size) r b
  | lost (hr : r = none) (hmine : ¬ mine) : Effect inOrder mine g r b false .closed r b
  | drop (hg : g = .removed) (hin : r ≠ none → inOrder) :
      Effect inOrder mine g r b false .closed none b
  | other (r' : Option FileMetadata)
      (hsame : r'.map FileMetadata.fileSize = r.map FileMetadata.fileSize) :
      Effect inOrder mine g r b false g r' b

section Exec

variable {task : TaskMessage} {g : Window} {f : Bytes} {world : World} {e : Env}
  {inOrder mine : Prop}

/-- What the call does to the file. -/
abbrev EffectOn (inOrder mine : Prop) (g : Window) (f : Bytes) (e : Env) (world : World) {β : Type}
    (c : WorkerCall β) : Prop :=
  Effect inOrder mine g (record? world.metadata f) (content world.tree f)
    (c.wrote (worker.exec e c world).1) (window.next g c (worker.exec e c world).1)
    (record? (worker.exec e c world).2.metadata f) (content (worker.exec e c world).2.tree f)

/-! ### Calls that change the content -/

section Storage

variable (hfine : e.Fine) (hname : StorageName f) (hok : Writable world.tree)

include hfine hname hok

theorem effectOn_saveFile (data : Bytes) :
    EffectOn inOrder mine .closed f e world (.saveFile f data) := by
  obtain ⟨hresult, hat⟩ := wp_run (saveFile_fine hok hname data) hfine
  have hanswer : (worker.exec e (.saveFile f data) world).1 = 0 := hresult
  have hnew : content (worker.exec e (.saveFile f data) world).2.tree f = some data := by
    rw [content_eq hname]
    refine Tree.bytes?_eq_some.mpr ?_
    exact (congrFun hat _).trans (Function.update_self ..)
  rw [EffectOn, hanswer, hnew]
  exact .write data rfl

theorem effectOn_restoreVersion (k : ℤ) :
    EffectOn inOrder mine .closed f e world (.restoreVersion f k) := by
  rcases wp_run (restoreVersion_content hok hname k) hfine with ⟨hfailed, hat⟩ |
    ⟨bytes, hresult, hat⟩
  · have hanswer : (worker.exec e (.restoreVersion f k) world).1 < 0 := hfailed
    have hsame : content (worker.exec e (.restoreVersion f k) world).2.tree f =
        content world.tree f := by
      rw [content_eq hname, content_eq hname]
      exact Tree.bytes?_congr hat
    have hwrote : (WorkerCall.restoreVersion f k).wrote
        (worker.exec e (.restoreVersion f k) world).1 = false :=
      decide_eq_false (not_le.mpr hanswer)
    have hwindow : window.next .closed (.restoreVersion f k)
        (worker.exec e (.restoreVersion f k) world).1 = .closed := if_pos hanswer
    rw [EffectOn, hsame, hwrote, hwindow]
    exact .other _ rfl
  · have hanswer : (worker.exec e (.restoreVersion f k) world).1 = bytes.length := hresult
    have hnew : content (worker.exec e (.restoreVersion f k) world).2.tree f = some bytes := by
      rw [content_eq hname]
      exact Tree.bytes?_eq_some.mpr hat
    have hsize : ¬ (bytes.length : ℤ) < 0 := by omega
    have hwrote : (WorkerCall.restoreVersion f k).wrote (bytes.length : ℤ) = true :=
      decide_eq_true (not_lt.mp hsize)
    have hwindow : window.next .closed (.restoreVersion f k) (bytes.length : ℤ) =
        .wrote bytes.length := by
      change (if (bytes.length : ℤ) < 0 then Window.closed else .wrote bytes.length) = _
      exact if_neg hsize
    rw [EffectOn, hanswer, hnew, hwrote, hwindow]
    exact .write bytes rfl

theorem effectOn_removeFileFromStorage (hg : g = .closed ∨ ∃ size, g = .undo size)
    (hundo : ∀ size, g = .undo size → record? world.metadata f = none) :
    EffectOn inOrder mine g f e world (.removeFileFromStorage f) := by
  obtain ⟨hfails, hat⟩ := wp_run (removeFileFromStorage_content hok hname) hfine
  have hgone : (worker.exec e (.removeFileFromStorage f) world).2.tree.at? (f :: storagePath) =
      none := hat
  have hnew : content (worker.exec e (.removeFileFromStorage f) world).2.tree f = none := by
    rw [content_eq hname, Tree.bytes?, hgone]
  have hfails' : (worker.exec e (.removeFileFromStorage f) world).1 < 0 →
      content world.tree f = none := fun h => by
    rw [content_eq hname, Tree.bytes?, hfails.mp h]
  rw [EffectOn, hnew]
  change Effect _ _ _ (record? world.metadata f) _ _ _ (record? world.metadata f) _
  generalize (worker.exec e (.removeFileFromStorage f) world).1 = result at *
  by_cases hresult : result < 0
  · have hnone := hfails' hresult
    have hwrote : (WorkerCall.removeFileFromStorage f).wrote result = false :=
      decide_eq_false (not_le.mpr hresult)
    rw [hwrote, ← hnone]
    rcases hg with rfl | ⟨size, rfl⟩
    · have hwindow : window.next .closed (.removeFileFromStorage f) result = .closed :=
        if_pos hresult
      rw [hwindow]
      exact .other _ rfl
    · exact .undoNothing ⟨size, rfl⟩ hnone
  · have hwrote : (WorkerCall.removeFileFromStorage f).wrote result = true :=
      decide_eq_true (not_lt.mp hresult)
    rw [hwrote]
    rcases hg with rfl | ⟨size, rfl⟩
    · have hwindow : window.next .closed (.removeFileFromStorage f) result = .removed :=
        if_neg hresult
      rw [hwindow]
      exact .erase rfl
    · exact .undo ⟨size, rfl⟩ (hundo size rfl)

end Storage

/-! ### Calls that change the record -/

section Records

variable (hunique : UniqueNames world.metadata)

include hunique

theorem effectOn_addFileMetadata (hlength : f.length < maxFilename) {ownerName : Bytes}
    {ownerId size : ℤ}
    (hin : (WorkerCall.addFileMetadata f ownerName ownerId size).settles world.metadata = some f →
      inOrder) :
    EffectOn inOrder mine (.wrote size) f e world (.addFileMetadata f ownerName ownerId size) := by
  cases hr : record? world.metadata f with
  | some r =>
      obtain ⟨hanswer, htable, -⟩ := record?_addFileMetadata_of_some hunique hr ownerName
        ownerId size e.now
      have hafter : record? (worker.exec e (.addFileMetadata f ownerName ownerId size)
          world).2.metadata f = some (r.bumped size e.now) :=
        (congrFun htable _).trans (Function.update_self ..)
      have hzero : (worker.exec e (.addFileMetadata f ownerName ownerId size) world).1 = 0 :=
        hanswer
      rw [EffectOn, hafter, hzero]
      refine .settle (r.bumped size e.now) rfl (hin ?_)
      simp [WorkerCall.settles, hr]
  | none =>
      cases hempty : emptySlot world.metadata with
      | some i =>
          obtain ⟨hanswer, htable, -⟩ := record?_addFileMetadata_of_none hunique hr hempty hlength
            ownerName ownerId size e.now
          have hafter : record? (worker.exec e (.addFileMetadata f ownerName ownerId size)
              world).2.metadata f =
              some (newRecord f ownerName ownerId size e.now (world.metadata i)) :=
            (congrFun htable _).trans (Function.update_self ..)
          have hzero : (worker.exec e (.addFileMetadata f ownerName ownerId size) world).1 = 0 :=
            hanswer
          rw [EffectOn, hafter, hzero]
          refine .settle _ rfl (hin ?_)
          simp [WorkerCall.settles, hempty]
      | none =>
          have hfull := addFileMetadata_full hr hempty ownerName ownerId size e.now
          have hafter : record? (worker.exec e (.addFileMetadata f ownerName ownerId size)
              world).2.metadata f = record? world.metadata f :=
            congrArg (fun result => record? result.2 f) hfull
          have hanswer : (worker.exec e (.addFileMetadata f ownerName ownerId size) world).1 = -1 :=
            congrArg Prod.fst hfull
          rw [EffectOn, hafter, hanswer]
          exact .full size rfl

theorem effectOn_updateFileMetadata {size : ℤ}
    (hin : (WorkerCall.updateFileMetadata f size).settles world.metadata = some f → inOrder)
    (hupdate : mine → (record? world.metadata f).isSome) :
    EffectOn inOrder mine (.wrote size) f e world (.updateFileMetadata f size) := by
  have hafter : record? (worker.exec e (.updateFileMetadata f size) world).2.metadata f =
      (record? world.metadata f).map (·.bumped size e.now) :=
    (congrFun (record?_updateFileMetadata _ hunique size e.now).1 _).trans
      (Function.update_self ..)
  rw [EffectOn, hafter]
  cases hr : record? world.metadata f with
  | some r =>
      refine .settle (r.bumped size e.now) rfl (hin ?_)
      simp [WorkerCall.settles, hr]
  | none =>
      refine .lost rfl fun hmine => ?_
      have hsome := hupdate hmine
      rw [hr] at hsome
      exact Bool.noConfusion hsome

theorem effectOn_removeFileMetadata
    (hin : (WorkerCall.removeFileMetadata f).settles world.metadata = some f → inOrder) :
    EffectOn inOrder mine .removed f e world (.removeFileMetadata f) := by
  have hafter : record? (worker.exec e (.removeFileMetadata f) world).2.metadata f = none :=
    (congrFun (record?_removeFileMetadata _ hunique).1 _).trans (Function.update_self ..)
  rw [EffectOn, hafter]
  refine .drop rfl fun hr => hin ?_
  simp [WorkerCall.settles, Option.isSome_iff_ne_none.mpr hr]

end Records

/-- Another lock in the record does not change its size. -/
theorem fileSize_map_relocked {lock : FileMetadata → FileMetadata}
    (hlock : ∀ r, FileMetadata.Relocked r (lock r)) (r : Option FileMetadata) :
    (r.map lock).map FileMetadata.fileSize = r.map FileMetadata.fileSize := by
  rw [Option.map_map]
  exact congrFun (congrArg Option.map (funext fun r => (hlock r).fileSize)) r

/-- The effect of a task's call on its file. -/
theorem effect_exec {β : Type} {c : WorkerCall β} (hcall : Timely task g c) (hfine : e.Fine)
    (hname : StorageName task.filename) (hunique : UniqueNames world.metadata)
    (hok : Writable world.tree) (hin : c.settles world.metadata = some task.filename → inOrder)
    (hupdate : c.updates = some task.filename → mine →
      (record? world.metadata task.filename).isSome)
    (hundo : ∀ size, c.removes = some task.filename → g = .undo size →
      record? world.metadata task.filename = none) :
    EffectOn inOrder mine g task.filename e world c := by
  cases c with
  | saveFile f data =>
      obtain ⟨rfl, rfl⟩ := hcall
      exact effectOn_saveFile hfine hname hok data
  | restoreVersion f k =>
      obtain ⟨rfl, rfl⟩ := hcall
      exact effectOn_restoreVersion hfine hname hok k
  | removeFileFromStorage f =>
      obtain ⟨rfl, hg⟩ := hcall
      exact effectOn_removeFileFromStorage hfine hname hok hg fun size => hundo size rfl
  | addFileMetadata f ownerName ownerId size =>
      obtain ⟨rfl, rfl⟩ := hcall
      exact effectOn_addFileMetadata hunique task.filename_length hin
  | updateFileMetadata f size =>
      obtain ⟨rfl, rfl⟩ := hcall
      exact effectOn_updateFileMetadata hunique hin (hupdate rfl)
  | removeFileMetadata f =>
      obtain ⟨rfl, rfl⟩ := hcall
      exact effectOn_removeFileMetadata hunique hin
  | checkEditLock f =>
      obtain rfl := hcall f rfl
      refine .other _ ((congrArg (Option.map _) ?_).trans
        (fileSize_map_relocked (fun r => r.relocked_checked e.now) _))
      exact (congrFun (record?_checkEditLock _ hunique e.now).1 _).trans (Function.update_self ..)
  | acquireEditLock f userId username =>
      obtain rfl := hcall f rfl
      refine .other _ ((congrArg (Option.map _) ?_).trans
        (fileSize_map_relocked (fun r => r.relocked_acquired userId username e.now) _))
      exact (congrFun (record?_acquireEditLock _ hunique userId username e.now).1 _).trans
        (Function.update_self ..)
  | releaseEditLock f userId =>
      obtain rfl := hcall f rfl
      refine .other _ ((congrArg (Option.map _) ?_).trans
        (fileSize_map_relocked (fun r => r.relocked_releasedBy userId) _))
      exact (congrFun (record?_releaseEditLock _ hunique userId).1 _).trans
        (Function.update_self ..)
  | _ =>
      have hsame := content_exec e _ world separate_storageNames
        (fun f hf => (hcall f hf).symm ▸ hname) hname (by simp [WorkerCall.writesContent])
      rw [EffectOn, hsame, metadata_exec _ _ _ rfl]
      exact .other _ rfl

variable {β : Type} {c : WorkerCall β}

/-- The content of a task's file stays one that can be written. -/
theorem writable_exec (hcall : Timely task g c) (hfine : e.Fine) (hname : StorageName task.filename)
    (hok : Writable world.tree) : Writable (worker.exec e c world).2.tree := by
  have hnames : ∀ f ∈ c.filename, StorageName f := fun f hf => (hcall.filename f hf).symm ▸ hname
  refine ⟨(at?_exec e c world ?_).trans hok.storage, fun f hf => ?_⟩
  · rintro (⟨f, hf, hp⟩ | ⟨f, hf, hp⟩)
    · have hf' := hnames f (c.filename_of_writes (Or.inl hf))
      simpa [storagePath] using congrArg List.length (hf'.contentPlace.mp hp)
    · have hf' := hnames f (c.filename_of_writes (Or.inr hf))
      rcases hf'.versionsPlace hp with h | ⟨entry, h⟩ <;>
        simpa [storagePath, versionsPath] using congrArg List.length h
  · by_cases hwrites : f ∈ c.writesContent
    · obtain rfl := hcall.filename f (c.filename_of_writes (Or.inl hwrites))
      cases c with
      | saveFile f data =>
          obtain ⟨rfl, rfl⟩ := hcall
          have hat := congrFun (wp_run (saveFile_fine hok hname data) hfine).2
            (task.filename :: storagePath)
          rw [Function.update_self] at hat
          exact fun hdir => absurd (hat.symm.trans hdir) (by simp)
      | restoreVersion f k =>
          obtain ⟨rfl, rfl⟩ := hcall
          rcases wp_run (restoreVersion_content hok hname k) hfine with ⟨-, hat⟩ | ⟨bytes, -, hat⟩
          · exact fun hdir => hok.content _ hname (hat.symm.trans hdir)
          · exact fun hdir => absurd (hat.symm.trans hdir) (by simp)
      | removeFileFromStorage f =>
          obtain ⟨rfl, -⟩ := hcall
          have hat := (wp_run (removeFileFromStorage_content hok hname) hfine).2
          exact fun hdir => absurd (hat.symm.trans hdir) (by simp)
      | _ => exact absurd hwrites (by simp [WorkerCall.writesContent])
    · have hat := at?_content_exec e c world separate_storageNames hnames hf hwrites
      rw [resolve_getFilepath hf] at hat
      rw [hat]
      exact hok.content f hf

end Exec

/-! ## What the last writer knows -/

/-- The content is what the open window says. -/
def Window.Matches : Window → Option Bytes → Prop
  | .closed, _ => True
  | .wrote size, b => ∃ bytes, b = some bytes ∧ size = bytes.length
  | .undo size, b => ∃ bytes, b = some bytes ∧ size = bytes.length
  | .removed, b => b = none

/-- The file is active if and only if it is stored, and its size is in the record. -/
def Fits (r : Option FileMetadata) (b : Option Bytes) : Prop :=
  (r.isSome ↔ b.isSome) ∧ ∀ q ∈ r, ∀ bytes ∈ b, q.fileSize = bytes.length

theorem fits_none : Fits none none := ⟨Iff.rfl, fun _ h => absurd h (Option.not_mem_none _)⟩

theorem Fits.congr {r r' : Option FileMetadata} {b : Option Bytes}
    (hsame : r'.map FileMetadata.fileSize = r.map FileMetadata.fileSize) (h : Fits r b) :
    Fits r' b := by
  cases r with
  | none =>
      rw [Option.map_none, Option.map_eq_none_iff] at hsame
      rw [hsame]
      exact h
  | some q =>
      obtain ⟨q', rfl, hsize⟩ := Option.map_eq_some_iff.mp hsame
      refine ⟨by simpa using h.1, fun q₁ hq₁ bytes hbytes => ?_⟩
      obtain rfl := Option.some.inj hq₁
      exact hsize.trans (h.2 q rfl bytes hbytes)

section Effects

variable {inOrder mine : Prop} {g g' : Window} {r r' : Option FileMetadata} {b b' : Option Bytes}
  {wrote : Bool}

/-- The last writer, or whoever becomes it: the content is what the window says,
and the record fits when the window is closed. -/
theorem Effect.last (heffect : Effect inOrder mine g r b wrote g' r' b')
    (hlast : wrote = true ∨ mine) (hmatches : mine → g.Matches b)
    (hfits : mine → g = .closed → Fits r b) :
    g'.Matches b' ∧ (g' = .closed → Fits r' b') := by
  cases heffect with
  | write bytes => exact ⟨⟨bytes, rfl, rfl⟩, fun h => absurd h (by simp)⟩
  | erase => exact ⟨rfl, fun h => absurd h (by simp)⟩
  | undo hg hr => exact ⟨trivial, fun _ => hr ▸ fits_none⟩
  | undoNothing hg hb =>
      obtain ⟨size, rfl⟩ := hg
      obtain ⟨bytes, hbytes, -⟩ := hmatches (hlast.resolve_left (by simp))
      exact absurd (hbytes.symm.trans hb) (by simp)
  | settle q hg =>
      subst hg
      obtain ⟨bytes, rfl, hsize⟩ := hmatches (hlast.resolve_left (by simp))
      refine ⟨trivial, fun _ => ⟨iff_of_true rfl rfl, fun q' hq' bytes' hbytes' => ?_⟩⟩
      obtain rfl := Option.some.inj hq'
      obtain rfl := Option.some.inj hbytes'
      exact hsize
  | full size hg =>
      subst hg
      exact ⟨hmatches (hlast.resolve_left (by simp)), fun h => absurd h (by simp)⟩
  | lost hr hmine => exact absurd (hlast.resolve_left (by simp)) hmine
  | drop hg =>
      subst hg
      have hb : b = none := hmatches (hlast.resolve_left (by simp))
      exact ⟨trivial, fun _ => hb ▸ fits_none⟩
  | other r' hsame =>
      have hmine := hlast.resolve_left (by simp)
      exact ⟨hmatches hmine, fun hg => (hfits hmine hg).congr hsame⟩

/-- Somebody else: the content stays, and the record too unless it is changed in order. -/
theorem Effect.not_last (heffect : Effect inOrder mine g r b wrote g' r' b')
    (hwrote : wrote = false) :
    b' = b ∧ (g' ≠ .closed → g ≠ .closed) ∧
      (Fits r b → Fits r' b' ∨ (inOrder ∧ g ≠ .closed)) := by
  cases heffect with
  | write => exact absurd hwrote (by simp)
  | erase => exact absurd hwrote (by simp)
  | undo => exact absurd hwrote (by simp)
  | undoNothing => exact ⟨rfl, fun h => absurd rfl h, Or.inl⟩
  | settle q hg hin => exact ⟨rfl, fun h => absurd rfl h, fun _ => Or.inr ⟨hin, by simp [hg]⟩⟩
  | full size hg => exact ⟨rfl, fun _ => by simp [hg], Or.inl⟩
  | lost => exact ⟨rfl, fun h => absurd rfl h, Or.inl⟩
  | drop hg hin =>
      refine ⟨rfl, fun h => absurd rfl h, fun hfits => ?_⟩
      by_cases hr : r = none
      · exact Or.inl (hr ▸ hfits)
      · exact Or.inr ⟨hin hr, by simp [hg]⟩
  | other r' hsame => exact ⟨rfl, id, fun hfits => Or.inl (hfits.congr hsame)⟩

end Effects

/-! ## Runs in order -/

variable {task : ι → TaskMessage} {workers : Writers ι} {last : Bytes → Option ι} {i : ι} {e : Env}

/-- What steps in order keep. -/
structure Writers.Settled (task : ι → TaskMessage) (workers : Writers ι)
    (last : Bytes → Option ι) : Prop where
  unique : UniqueNames workers.shared.metadata
  writable : Writable workers.shared.tree
  timed : ∀ i, Timed (task i) (workers.thread i).ghost (workers.thread i).prog
  own : ∀ f i, last f = some i → (task i).filename = f
  opened : ∀ i, Open workers i → last (task i).filename ≠ none
  written : ∀ f, StorageName f → ∀ i, last f = some i →
    (workers.thread i).ghost.Matches (content workers.shared.tree f)
  fits : ∀ f, StorageName f → (∀ i, last f = some i → ¬ Open workers i) →
    Fits (record? workers.shared.metadata f) (content workers.shared.tree f)

/-- A task's call leaves the record and the content of every other file. -/
theorem other_exec {β : Type} {c : WorkerCall β} {t : TaskMessage} {g : Window} {world : World}
    {f : Bytes} (hcall : Timely t g c) (hname : StorageName t.filename) (hf : StorageName f)
    (hne : f ≠ t.filename) (hunique : UniqueNames world.metadata) :
    record? (worker.exec e c world).2.metadata f = record? world.metadata f ∧
      content (worker.exec e c world).2.tree f = content world.tree f := by
  have hnamed : ∀ f ∈ c.filename, StorageName f := fun f hf => (hcall.filename f hf).symm ▸ hname
  constructor
  · refine (record?_exec e c hunique fun f hf => (hnamed f hf).short).2.1 f fun hmem => hne ?_
    exact hcall.filename f (WorkerCall.filename_of_changesRecord hmem)
  · refine content_exec e c world separate_storageNames hnamed hf fun hmem => hne ?_
    exact hcall.filename f (c.filename_of_writes (Or.inl hmem))

/-- What a call in order of worker `i` does to the windows, the files and the history.
`wrote` says that it has changed the content. -/
structure Moved (task : ι → TaskMessage) (workers workers' : Writers ι)
    (last last' : Bytes → Option ι) (i : ι) (wrote : Bool) : Prop where
  effect : Effect (∀ j, last (task i).filename = some j → j ≠ i → Open workers j)
    (last (task i).filename = some i) (workers.thread i).ghost
    (record? workers.shared.metadata (task i).filename)
    (content workers.shared.tree (task i).filename) wrote (workers'.thread i).ghost
    (record? workers'.shared.metadata (task i).filename)
    (content workers'.shared.tree (task i).filename)
  ghost : ∀ j, j ≠ i → (workers'.thread j).ghost = (workers.thread j).ghost
  other : ∀ f, StorageName f → f ≠ (task i).filename →
    record? workers'.shared.metadata f = record? workers.shared.metadata f ∧
      content workers'.shared.tree f = content workers.shared.tree f
  last_self : last' (task i).filename = if wrote then some i else last (task i).filename
  last_ne : ∀ f, f ≠ (task i).filename → last' f = last f

theorem moved_of_writeOrder {β : Type} {c : WorkerCall β}
    {next : β → Prog WorkerCall ResponseMessage} (hnames : ∀ i, StorageName (task i).filename)
    (hsettled : Writers.Settled task workers last) (horder : WriteOrder workers last i e)
    (hprog : (workers.thread i).prog = .call c next)
    (hcall : Timely (task i) (workers.thread i).ghost c) :
    Moved task workers (workers.step i e) last (enterWrite task workers i e last) i
      (c.wrote (worker.exec e c workers.shared).1) := by
  have hrecord := horder.record (task i).filename
  have hupdate := horder.update (task i).filename
  have hundo := horder.undo (task i).filename
  rw [hprog] at hrecord hupdate hundo
  have henter : enterWrite task workers i e last =
      if c.wrote (worker.exec e c workers.shared).1 then
        Function.update last (task i).filename (some i) else last := by
    rw [enterWrite, hprog]
  refine ⟨?_, fun j hj => congrArg Thread.ghost (Pool.step_thread_of_ne workers hj e), ?_, ?_, ?_⟩
  · rw [Writers.step, Pool.step_call hprog]
    simp only [Function.update_self]
    exact effect_exec hcall horder.fine (hnames i) hsettled.unique hsettled.writable hrecord
      hupdate hundo
  · intro f hf hne
    rw [Writers.step, Pool.step_call hprog]
    exact other_exec hcall (hnames i) hf hne hsettled.unique
  · rw [henter]
    split
    · exact Function.update_self ..
    · rfl
  · intro f hf
    rw [henter]
    split
    · exact Function.update_of_ne hf ..
    · rfl

namespace Moved

variable {workers' : Writers ι} {last' : Bytes → Option ι} {wrote : Bool}
  (hmoved : Moved task workers workers' last last' i wrote)
  (hsettled : Writers.Settled task workers last)

omit [DecidableEq ι]

include hmoved

theorem last_self_wrote (hwrote : wrote = true) : last' (task i).filename = some i := by
  rw [hmoved.last_self, if_pos hwrote]

theorem last_self_not (hwrote : wrote = false) :
    last' (task i).filename = last (task i).filename := by
  rw [hmoved.last_self, hwrote]
  rfl

theorem open_of_ne {j : ι} (hj : j ≠ i) : Open workers' j ↔ Open workers j := by
  rw [Open, Open, hmoved.ghost j hj]

include hsettled

/-- The last writer of another file is another task. -/
theorem ne_of_last {f : Bytes} (hf : f ≠ (task i).filename) {j : ι} (hj : last f = some j) :
    j ≠ i := by
  rintro rfl
  exact hf (hsettled.own f j hj).symm

/-- What the task knows of its file if it is the last writer, or has just become it. -/
theorem last_knows (hname : StorageName (task i).filename)
    (hlast : wrote = true ∨ last (task i).filename = some i) :
    (workers'.thread i).ghost.Matches (content workers'.shared.tree (task i).filename) ∧
      ((workers'.thread i).ghost = .closed →
        Fits (record? workers'.shared.metadata (task i).filename)
          (content workers'.shared.tree (task i).filename)) := by
  refine hmoved.effect.last hlast (fun hmine => hsettled.written _ hname i hmine) ?_
  intro hmine hclosed
  refine hsettled.fits _ hname fun j hj hopen => ?_
  obtain rfl := Option.some.inj (hmine.symm.trans hj)
  exact hopen hclosed

theorem own (f : Bytes) (j : ι) (hj : last' f = some j) : (task j).filename = f := by
  by_cases hf : f = (task i).filename
  · subst hf
    rw [hmoved.last_self] at hj
    split at hj
    · obtain rfl := Option.some.inj hj
      rfl
    · exact hsettled.own _ j hj
  · rw [hmoved.last_ne f hf] at hj
    exact hsettled.own f j hj

theorem opened (j : ι) (hopen : Open workers' j) : last' (task j).filename ≠ none := by
  by_cases hf : (task j).filename = (task i).filename
  · rw [hf]
    cases hwrote : wrote with
    | true => exact fun h => Option.some_ne_none i ((hmoved.last_self_wrote hwrote).symm.trans h)
    | false =>
        rw [hmoved.last_self_not hwrote]
        by_cases hji : j = i
        · subst hji
          exact hsettled.opened j ((hmoved.effect.not_last hwrote).2.1 hopen)
        · exact hf ▸ hsettled.opened j ((hmoved.open_of_ne hji).mp hopen)
  · rw [hmoved.last_ne _ hf]
    exact hsettled.opened j ((hmoved.open_of_ne fun h => hf (h ▸ rfl)).mp hopen)

theorem written (f : Bytes) (hf : StorageName f) (j : ι) (hj : last' f = some j) :
    (workers'.thread j).ghost.Matches (content workers'.shared.tree f) := by
  by_cases hfi : f = (task i).filename
  · subst hfi
    cases hwrote : wrote with
    | true =>
        obtain rfl := Option.some.inj ((hmoved.last_self_wrote hwrote).symm.trans hj)
        exact (hmoved.last_knows hsettled hf (Or.inl hwrote)).1
    | false =>
        rw [hmoved.last_self_not hwrote] at hj
        by_cases hji : j = i
        · subst hji
          exact (hmoved.last_knows hsettled hf (Or.inr hj)).1
        · rw [hmoved.ghost j hji, (hmoved.effect.not_last hwrote).1]
          exact hsettled.written _ hf j hj
  · rw [hmoved.last_ne f hfi] at hj
    rw [hmoved.ghost j (hmoved.ne_of_last hsettled hfi hj), (hmoved.other f hf hfi).2]
    exact hsettled.written f hf j hj

theorem fits (f : Bytes) (hf : StorageName f)
    (hclosed : ∀ j, last' f = some j → ¬ Open workers' j) :
    Fits (record? workers'.shared.metadata f) (content workers'.shared.tree f) := by
  by_cases hfi : f = (task i).filename
  · subst hfi
    by_cases hlast : wrote = true ∨ last (task i).filename = some i
    · have hself : last' (task i).filename = some i := by
        rw [hmoved.last_self]
        split
        · rfl
        · next hwrote => exact hlast.resolve_left hwrote
      exact (hmoved.last_knows hsettled hf hlast).2 (not_not.mp (hclosed i hself))
    · obtain ⟨hwrote, hmine⟩ := not_or.mp hlast
      have hwrote : wrote = false := Bool.eq_false_of_not_eq_true hwrote
      rw [hmoved.last_self_not hwrote] at hclosed
      have hbefore : ∀ j, last (task i).filename = some j → j ≠ i ∧ ¬ Open workers j := by
        intro j hj
        have hji : j ≠ i := fun h => hmine (h ▸ hj)
        exact ⟨hji, fun hopen => hclosed j hj ((hmoved.open_of_ne hji).mpr hopen)⟩
      have hfits := hsettled.fits _ hf fun j hj => (hbefore j hj).2
      rcases (hmoved.effect.not_last hwrote).2.2 hfits with hfits' | ⟨hin, hopen⟩
      · exact hfits'
      · -- a record changed in order: its own writer, or the last one, is at work
        cases hlastf : last (task i).filename with
        | none => exact absurd hlastf (hsettled.opened i hopen)
        | some j =>
            obtain ⟨hji, hnotopen⟩ := hbefore j hlastf
            exact absurd (hin j hlastf hji) hnotopen
  · rw [(hmoved.other f hf hfi).1, (hmoved.other f hf hfi).2]
    refine hsettled.fits f hf fun j hj hopen => ?_
    have hji := hmoved.ne_of_last hsettled hfi hj
    exact hclosed j ((hmoved.last_ne f hfi).trans hj) ((hmoved.open_of_ne hji).mpr hopen)

end Moved

/-- A step in order keeps what the last writers know. -/
theorem settled_step (hnames : ∀ i, StorageName (task i).filename)
    (hsettled : Writers.Settled task workers last) (horder : WriteOrder workers last i e) :
    Writers.Settled task (workers.step i e) (enterWrite task workers i e last) := by
  cases hprog : (workers.thread i).prog with
  | ret value =>
      rw [Writers.step, Pool.step_ret hprog, enterWrite, hprog]
      exact hsettled
  | call c next =>
      have hcall : Timely (task i) (workers.thread i).ghost c := by
        have htimed := hsettled.timed i
        rw [hprog] at htimed
        exact htimed.1
      have hmoved := moved_of_writeOrder hnames hsettled horder hprog hcall
      have hnamed : ∀ f ∈ c.filename, f.length < maxFilename :=
        fun f hf => (hcall.filename f hf).symm ▸ (task i).filename_length
      have hshared : (workers.step i e).shared = (worker.exec e c workers.shared).2 := by
        rw [Writers.step, Pool.step_call hprog]
      exact {
        unique := hshared ▸ (record?_exec e c hsettled.unique hnamed).1
        writable := hshared ▸ writable_exec hcall horder.fine (hnames i) hsettled.writable
        timed := Obeys.step hsettled.timed i e
        own := hmoved.own hsettled
        opened := hmoved.opened hsettled
        written := hmoved.written hsettled
        fits := hmoved.fits hsettled }

omit [DecidableEq ι] in
theorem settled_start {world : World} (hunique : UniqueNames world.metadata)
    (hwritable : Writable world.tree)
    (hfirst : ∀ f, StorageName f → Fits (record? world.metadata f) (content world.tree f)) :
    Writers.Settled task (Writers.start task world) fun _ => none where
  unique := hunique
  writable := hwritable
  timed := fun i => processTask_timely (task i)
  own := fun _ _ h => absurd h (by simp)
  opened := fun _ h => absurd rfl h
  written := fun _ _ _ h => absurd h (by simp)
  fits := fun f hf _ => hfirst f hf

/-- While every step is in order, the records fit for all files without an open
window of their last writer. -/
theorem settled_of_writeOrder {world : World} (hnames : ∀ i, StorageName (task i).filename)
    (hunique : UniqueNames world.metadata) (hwritable : Writable world.tree)
    (hfirst : ∀ f, StorageName f → Fits (record? world.metadata f) (content world.tree f))
    (hreach : WritersReach task world workers last) : Writers.Settled task workers last :=
  hreach.invariant (settled_start hunique hwritable hfirst)
    fun _ _ _ _ hsettled horder => settled_step hnames hsettled horder

/-- When all tasks of a run in order have returned, metadata and storage agree. -/
theorem agreement_of_writeOrder {world : World} (hnames : ∀ i, StorageName (task i).filename)
    (hunique : UniqueNames world.metadata) (hwritable : Writable world.tree)
    (hfirst : ∀ f, StorageName f → Fits (record? world.metadata f) (content world.tree f))
    (hreach : WritersReach task world workers last) (hdone : ∀ i, workers.Finished i) {f : Bytes}
    (hf : StorageName f) :
    Fits (record? workers.shared.metadata f) (content workers.shared.tree f) := by
  have hsettled := settled_of_writeOrder hnames hunique hwritable hfirst hreach
  refine hsettled.fits f hf fun i _ hopen => hopen ?_
  -- a task that has returned has closed its window
  have htimed := hsettled.timed i
  have hfinished := hdone i
  unfold Pool.Finished at hfinished
  cases hprog : (workers.thread i).prog with
  | ret value =>
      rw [hprog] at htimed
      exact htimed
  | call c next =>
      rw [hprog] at hfinished
      exact hfinished.elim

/-- What `WriteOrder` asks of a step besides that nothing fails, put so that it can
be tried on a run. -/
def InStep (workers : Writers ι) (last : Bytes → Option ι) (i : ι) : Prop :=
  ¬ (workers.thread i).prog.AtCall (fun c => ∃ f ∈ c.settles workers.shared.metadata,
    ∃ j ∈ last f, j ≠ i ∧ (workers.thread j).ghost = .closed) ∧
  ¬ (workers.thread i).prog.AtCall (fun c => ∃ f ∈ c.updates,
    last f = some i ∧ record? workers.shared.metadata f = none) ∧
  ¬ (workers.thread i).prog.AtCall (fun c => ∃ f ∈ c.removes,
    (workers.thread i).ghost ≠ .closed ∧ record? workers.shared.metadata f ≠ none)

instance (workers : Writers ι) (last : Bytes → Option ι) (i : ι) :
    Decidable (InStep workers last i) := by
  unfold InStep
  infer_instance

omit [DecidableEq ι] in
theorem InStep.writeOrder (hstep : InStep workers last i) (hfine : e.Fine) :
    WriteOrder workers last i e := by
  obtain ⟨hrecord, hupdate, hundo⟩ := hstep
  refine ⟨hfine, fun f hcall j hj hne hclosed => ?_, fun f hcall hmine => ?_,
    fun f size hcall hghost => ?_⟩
  · exact hrecord (hcall.mono fun c hc => ⟨f, hc, j, hj, hne, hclosed⟩)
  · by_contra hnone
    rw [Option.not_isSome_iff_eq_none] at hnone
    exact hupdate (hcall.mono fun c hc => ⟨f, hc, hmine, hnone⟩)
  · by_contra hsome
    exact hundo (hcall.mono fun c hc => ⟨f, hc, by rw [hghost]; nofun, hsome⟩)

theorem freshWorld_fits {f : Bytes} (hf : StorageName f) :
    Fits (record? freshWorld.metadata f) (content freshWorld.tree f) := by
  rw [freshWorld_content hf, show record? freshWorld.metadata f = none from record?_initMetadata]
  exact fits_none

/-! ## Two uploads that overlap, and two that cross -/

/-- Metadata and storage agree whenever all tasks have returned without failures. -/
def AgreementWhenDone (task : ι → TaskMessage) (world : World) : Prop :=
  ∀ schedule : List (ι × Env), (∀ step ∈ schedule, step.2.Fine) →
    (∀ i, ((Writers.start task world).run schedule).Finished i) → ∀ f, StorageName f →
      Fits (record? ((Writers.start task world).run schedule).shared.metadata f)
        (content ((Writers.start task world).run schedule).shared.tree f)

/-- User 2 uploads `a` in two sessions. -/
def sameUpload : Bool → TaskMessage
  | false => sampleTask .upload 2 roleUser "two"
  | true => sampleTask .upload 2 roleUser "three"

/-- The first upload writes last and records last. -/
def uploadsOverlap : List (Bool × Env) :=
  [false, false, true, true, true, false, true, false, true, false].map fun i => (i, Env.calm 0)

/-- What the overlapping uploads leave behind. -/
def uploadsOverlapped : Writers Bool :=
  (Writers.start sameUpload freshWorld).run uploadsOverlap

theorem agreement_of_uploadsOverlap :
    content uploadsOverlapped.shared.tree (text "a") = some (text "two") ∧
      Fits (record? uploadsOverlapped.shared.metadata (text "a"))
        (content uploadsOverlapped.shared.tree (text "a")) := by
  have hfine : ∀ step ∈ uploadsOverlap, step.2.Fine := by
    intro step hstep
    obtain ⟨i, -, rfl⟩ := List.mem_map.mp hstep
    exact Env.calm_fine 0
  have hinStep : Admissible worker (fun _ => window) (enterWrite sameUpload)
      (fun workers last i _ => InStep workers last i) (Writers.start sameUpload freshWorld)
      (fun _ => none) uploadsOverlap := by decide +kernel
  obtain ⟨last, hreach⟩ : ∃ last, WritersReach sameUpload freshWorld uploadsOverlapped last :=
    ReachWith.refl.run (((admissible_of_forall hfine).and hinStep).mono
      fun _ _ _ _ h => h.2.writeOrder h.1)
  refine ⟨by decide +kernel, ?_⟩
  exact agreement_of_writeOrder (by decide) initMetadata_unique freshWorld_storeOk.writable
    (fun _ => freshWorld_fits) hreach (by decide +kernel) (by decide)

/-- The first upload writes first and records last. -/
def uploadsInOut : List (Bool × Env) :=
  [false, false, false, true, true, true, true, true, false, false].map fun i => (i, Env.calm 0)

/-- The state the crossing uploads leave behind. -/
def uploadsCrossed : World := ((Writers.start sameUpload freshWorld).run uploadsInOut).shared

theorem uploads_cross : (∀ f, StorageName f →
    Fits (record? freshWorld.metadata f) (content freshWorld.tree f)) ∧
    ¬ AgreementWhenDone sameUpload freshWorld := by
  refine ⟨fun _ => freshWorld_fits, fun hagreement => ?_⟩
  have hfine : ∀ step ∈ uploadsInOut, step.2.Fine := by
    intro step hstep
    obtain ⟨i, -, rfl⟩ := List.mem_map.mp hstep
    exact Env.calm_fine 0
  have hfits : Fits (record? uploadsCrossed.metadata (text "a"))
      (content uploadsCrossed.tree (text "a")) :=
    hagreement uploadsInOut hfine (by decide +kernel) (text "a") (by decide)
  have hsize : (record? uploadsCrossed.metadata (text "a")).map FileMetadata.fileSize = some 3 := by
    decide +kernel
  have hcontent : content uploadsCrossed.tree (text "a") = some (text "three") := by
    decide +kernel
  obtain ⟨r, hr, hthree⟩ := Option.map_eq_some_iff.mp hsize
  have hfive := hfits.2 r hr _ hcontent
  rw [hthree] at hfive
  exact absurd hfive (by decide)

end CloudSync
