import CloudSync.Concurrent.Workers
import CloudSync.Sequential.Alike
import CloudSync.Sequential.FineCalls

/-!
# Tasks on different files commute

A task sees nothing of other files: run in two worlds that are `Alike` but for
another file, it gives the same response and leaves the worlds in agreement
(`serve_alike`).  Each operation is followed in both worlds at once with the rules
of the first section; where a record is read, the slots differ and what is read
does not.

Two tasks on different files can then be swapped (`tasks_commute`): each leaves the
file of the other alone, so the second one runs as it would have run first.
-/

namespace CloudSync

open CText Calls Calls.Prog Files

/-- The two runs end with one response, in worlds that agree off `g`. -/
def SameResponse (g : Bytes) (resp : ResponseMessage) (world : World) (resp' : ResponseMessage)
    (world' : World) : Prop := resp = resp' ∧ Agree g world world'

/-! ## Rules for two runs -/

section Rules

variable {f g : Bytes} {α : Type} {Q : α → World → α → World → Prop} {world world' : World}
  {next next' : ℤ → Prog WorkerCall α}

/-- A read that answers the same in both worlds. -/
theorem wp₂_read {β : Type} {c c' : WorkerCall β} {value value' : β}
    {after after' : β → Prog WorkerCall α} (hc : ∀ e, worker.exec e c world = (value, world))
    (hc' : ∀ e, worker.exec e c' world' = (value', world')) (heq : value = value')
    (hafter : wp₂ worker (after value) (after' value) Q world world') :
    wp₂ worker (.call c after) (.call c' after') Q world world' := by
  intro e
  rw [hc e, hc' e, ← heq]
  exact hafter

variable {i i' : Slot} (hshown : (world.metadata i).shown = (world'.metadata i').shown)

include hshown

theorem wp₂_lockedByUserId
    (hnext : wp₂ worker (next (world.metadata i).lockedByUserId)
      (next' (world.metadata i).lockedByUserId) Q world world') :
    wp₂ worker (.call (.lockedByUserId i) next) (.call (.lockedByUserId i') next') Q
      world world' :=
  wp₂_read (fun _ => rfl) (fun _ => rfl) (FileMetadata.lockedByUserId_eq hshown) hnext

theorem wp₂_version
    (hnext : wp₂ worker (next (world.metadata i).version)
      (next' (world.metadata i).version) Q world world') :
    wp₂ worker (.call (.version i) next) (.call (.version i') next') Q
      world world' :=
  wp₂_read (fun _ => rfl) (fun _ => rfl)
    (FileMetadata.field_eq hshown (·.version) fun _ => rfl) hnext

theorem wp₂_ownerName {after after' : Bytes → Prog WorkerCall α}
    (hafter : wp₂ worker (after (world.metadata i).ownerName)
      (after' (world.metadata i).ownerName) Q world world') :
    wp₂ worker (.call (.ownerName i) after) (.call (.ownerName i') after') Q
      world world' :=
  wp₂_read (fun _ => rfl) (fun _ => rfl)
    (FileMetadata.field_eq hshown (·.ownerName) fun _ => rfl) hafter

/-- The name of the locker is read while the lock is held. -/
theorem wp₂_lockedByUsername {after after' : Bytes → Prog WorkerCall α}
    (hheld : (world.metadata i).lockedByUserId ≠ -1)
    (hafter : wp₂ worker (after (world.metadata i).lockedByUsername)
      (after' (world.metadata i).lockedByUsername) Q world world') :
    wp₂ worker (.call (.lockedByUsername i) after) (.call (.lockedByUsername i') after')
      Q world world' :=
  wp₂_read (fun _ => rfl) (fun _ => rfl) (FileMetadata.lockedByUsername_eq hshown hheld) hafter

theorem wp₂_notOwner {task : TaskMessage} {after after' : Bool → Prog WorkerCall α}
    (hafter : ∀ denied, wp₂ worker (after denied) (after' denied) Q world world') :
    wp₂ worker (notOwner task i >>= after) (notOwner task i' >>= after') Q
      world world' := by
  unfold notOwner
  by_cases hrole : task.role = roleAdmin
  · simp only [if_pos hrole, pure_eq_ret, ret_bind]
    exact hafter false
  · simp only [if_neg hrole, perform_bind, call_bind, pure_eq_ret, ret_bind]
    exact wp₂_read (fun _ => rfl) (fun _ => rfl)
      (FileMetadata.field_eq hshown (·.ownerId) fun _ => rfl) (hafter _)

theorem wp₂_lockedByOther {task : TaskMessage} {after after' : Bool → Prog WorkerCall α}
    (hlocked : (world.metadata i).lockedByUserId ≠ -1 →
      wp₂ worker (after true) (after' true) Q world world')
    (hfree : wp₂ worker (after false) (after' false) Q world world') :
    wp₂ worker (lockedByOther task i >>= after) (lockedByOther task i' >>= after') Q
      world world' := by
  simp only [lockedByOther, perform_bind, call_bind]
  apply wp₂_lockedByUserId hshown
  by_cases hheld : (world.metadata i).lockedByUserId = -1
  · simp only [if_pos hheld, pure_eq_ret, ret_bind]
    exact hfree
  · simp only [if_neg hheld, call_bind, pure_eq_ret, ret_bind]
    apply wp₂_lockedByUserId hshown
    cases (world.metadata i).lockedByUserId != task.userId with
    | false => exact hfree
    | true => exact hlocked hheld

end Rules

section Rules

variable {f g : Bytes} {α β : Type} {Q : α → World → α → World → Prop} {world world' : World}

/-- The audit entry is the last call, and what the pipe holds does not matter. -/
theorem wp₂_answer {task : TaskMessage} {result : String} {status : Status} {message data : Bytes}
    (h : Agree g world world') :
    wp₂ worker (answer task result status message data)
      (answer task result status message data) (SameResponse g) world world' := by
  simp only [answer, audit, perform_bind]
  intro e
  refine ⟨rfl, ?_⟩
  have hsame : ∀ world : World,
      (worker.exec e (.writeAuditEntry task.username (operationToString task.operation)
        task.filename (text result)) world).2.metadata = world.metadata ∧
      (worker.exec e (.writeAuditEntry task.username (operationToString task.operation)
        task.filename (text result)) world).2.tree = world.tree := by
    intro world
    simp only [worker]
    split <;> exact ⟨rfl, rfl⟩
  obtain ⟨hmeta, htree⟩ := hsame world
  obtain ⟨hmeta', htree'⟩ := hsame world'
  exact ⟨hmeta ▸ h.unique, hmeta' ▸ h.unique', hmeta ▸ hmeta' ▸ h.record,
    htree ▸ htree' ▸ h.tree⟩

variable (h : Alike g world world') (hne : f ≠ g) (hf : StorageName f) (hg : StorageName g)

include h hne

theorem wp₂_findFileMetadata {after after' : Option Slot → Prog WorkerCall α}
    (hnone : wp₂ worker (after none) (after' none) Q world world')
    (hsome : ∀ i i', (world.metadata i).shown = (world'.metadata i').shown →
      wp₂ worker (after (some i)) (after' (some i')) Q world world') :
    wp₂ worker (.call (.findFileMetadata f) after) (.call (.findFileMetadata f) after')
      Q world world' := by
  intro e
  show wp₂ worker (after (findSlot world.metadata f))
    (after' (findSlot world'.metadata f)) Q world world'
  rcases h.record_cases hne with ⟨hr, hr'⟩ | ⟨r, r', hr, hr', hshown⟩
  · rw [record?_eq_none.mp hr, record?_eq_none.mp hr']
    exact hnone
  · obtain ⟨i, hfind, rfl⟩ := exists_slot hr
    obtain ⟨i', hfind', rfl⟩ := exists_slot hr'
    rw [hfind, hfind']
    exact hsome i i' hshown

include hf hg

/-- A call that goes by the filename. -/
theorem wp₂_goesBy {c : WorkerCall β} (hc : c.GoesBy f) {after after' : β → Prog WorkerCall α}
    (hafter : ∀ value world₁ world₁', Alike g world₁ world₁' →
      wp₂ worker (after value) (after' value) Q world₁ world₁') :
    wp₂ worker (.call c after) (.call c after') Q world world' := by
  intro e
  obtain ⟨hanswer, halike⟩ := alike_exec h hne e hf hg hc
  rw [← hanswer]
  exact hafter _ _ _ halike

omit hg in
/-- The record is brought up to date in both worlds, or made in both: there is room. -/
theorem wp₂_addFileMetadata {ownerName : Bytes} {ownerId size : ℤ}
    {after after' : ℤ → Prog WorkerCall α}
    (hafter : ∀ world₁ world₁', Agree g world₁ world₁' →
      wp₂ worker (after 0) (after' 0) Q world₁ world₁') :
    wp₂ worker (.call (.addFileMetadata f ownerName ownerId size) after)
      (.call (.addFileMetadata f ownerName ownerId size) after') Q world world' := by
  intro e
  change wp₂ worker
    (after (addFileMetadata world.metadata f ownerName ownerId size e.now).1)
    (after' (addFileMetadata world'.metadata f ownerName ownerId size e.now).1) Q
    { world with metadata := (addFileMetadata world.metadata f ownerName ownerId size e.now).2 }
    { world' with metadata := (addFileMetadata world'.metadata f ownerName ownerId size e.now).2 }
  rcases h.record_cases hne with ⟨hr, hr'⟩ | ⟨r, r', hr, hr', hshown⟩
  · obtain ⟨i, hempty⟩ := h.room.emptySlot
    obtain ⟨i', hempty'⟩ := h.room'.emptySlot
    obtain ⟨hcode, hupdate⟩ := record?_addFileMetadata_of_none h.unique hr hempty hf.short
      ownerName ownerId size e.now
    obtain ⟨hcode', hupdate'⟩ := record?_addFileMetadata_of_none h.unique' hr' hempty' hf.short
      ownerName ownerId size e.now
    rw [hcode, hcode']
    refine hafter _ _ (h.onMetadata hupdate hupdate' (congrArg some ?_))
    exact newRecord_shown f ownerName ownerId size e.now _ _
  · obtain ⟨hcode, hupdate⟩ := record?_addFileMetadata_of_some h.unique hr ownerName ownerId size
      e.now
    obtain ⟨hcode', hupdate'⟩ := record?_addFileMetadata_of_some h.unique' hr' ownerName ownerId
      size e.now
    rw [hcode, hcode']
    refine hafter _ _ (h.onMetadata hupdate hupdate' (congrArg some ?_))
    exact FileMetadata.shown_bumped hshown size e.now

end Rules

/-! ## The operations -/

section Operations

variable {task : TaskMessage} {g : Bytes} {world world' : World} (h : Alike g world world')
  (hne : task.filename ≠ g) (hf : StorageName task.filename) (hg : StorageName g)

include h hne hf hg

theorem uploadWrite_alike : wp₂ worker (uploadWrite task) (uploadWrite task)
    (SameResponse g) world world' := by
  simp only [uploadWrite, perform_bind]
  refine wp₂_goesBy h hne hf hg (by exact rfl) ?_
  intro saved world₁ world₁' h₁
  by_cases hsaved : saved < 0
  · simp only [if_pos hsaved]
    exact wp₂_answer h₁.toAgree
  · simp only [if_neg hsaved]
    apply wp₂_addFileMetadata h₁ hne hf
    intro world₂ world₂' h₂
    exact wp₂_answer h₂

theorem uploadOwned_alike : wp₂ worker (uploadOwned task) (uploadOwned task)
    (SameResponse g) world world' := by
  simp only [uploadOwned, perform_bind]
  apply wp₂_findFileMetadata h hne
  · exact uploadWrite_alike h hne hf hg
  · intro i i' hshown
    apply wp₂_notOwner hshown
    intro denied
    cases denied with
    | true =>
        apply wp₂_ownerName hshown
        exact wp₂_answer h.toAgree
    | false =>
        apply wp₂_version hshown
        refine wp₂_goesBy h hne hf hg (by exact rfl) ?_
        intro saved world₁ world₁' h₁
        exact uploadWrite_alike h₁ hne hf hg

theorem upload_alike : wp₂ worker (processUpload task) (processUpload task)
    (SameResponse g) world world' := by
  simp only [processUpload, perform_bind]
  refine wp₂_goesBy h hne hf hg (by exact rfl) ?_
  rintro ⟨locked, locker⟩ world₁ world₁' h₁
  cases locked with
  | false => exact uploadOwned_alike h₁ hne hf hg
  | true =>
      apply wp₂_findFileMetadata h₁ hne
      · exact uploadOwned_alike h₁ hne hf hg
      · intro i i' hshown
        apply wp₂_lockedByUserId hshown
        by_cases hother : (world₁.metadata i).lockedByUserId ≠ task.userId
        · simp only [if_pos hother]
          exact wp₂_answer h₁.toAgree
        · simp only [if_neg hother]
          exact uploadOwned_alike h₁ hne hf hg

theorem download_alike : wp₂ worker (processDownload task) (processDownload task)
    (SameResponse g) world world' := by
  simp only [processDownload, perform_bind]
  apply wp₂_findFileMetadata h hne
  · exact wp₂_answer h.toAgree
  · intro i i' _
    refine wp₂_goesBy h hne hf hg (by exact rfl) ?_
    rintro ⟨result, bytes⟩ world₁ world₁' h₁
    by_cases hresult : result < 0
    · simp only [if_pos hresult]
      exact wp₂_answer h₁.toAgree
    · simp only [if_neg hresult]
      exact wp₂_answer h₁.toAgree

theorem delete_alike : wp₂ worker (processDelete task) (processDelete task)
    (SameResponse g) world world' := by
  simp only [processDelete, perform_bind]
  apply wp₂_findFileMetadata h hne
  · exact wp₂_answer h.toAgree
  intro i i' hshown
  apply wp₂_notOwner hshown
  intro denied
  cases denied with
  | true => exact wp₂_answer h.toAgree
  | false =>
      apply wp₂_lockedByOther hshown
      · intro hheld
        apply wp₂_lockedByUsername hshown hheld
        exact wp₂_answer h.toAgree
      · refine wp₂_goesBy h hne hf hg (by exact rfl) ?_
        intro removed world₁ world₁' h₁
        by_cases hremoved : removed < 0
        · simp only [if_pos hremoved]
          exact wp₂_answer h₁.toAgree
        · simp only [if_neg hremoved]
          refine wp₂_goesBy h₁ hne hf hg (by exact rfl) ?_
          intro forgotten world₂ world₂' h₂
          by_cases hforgotten : forgotten < 0
          · simp only [if_pos hforgotten]
            exact wp₂_answer h₂.toAgree
          · simp only [if_neg hforgotten]
            exact wp₂_answer h₂.toAgree

theorem version_alike : wp₂ worker (processVersion task) (processVersion task)
    (SameResponse g) world world' := by
  simp only [processVersion, perform_bind]
  refine wp₂_goesBy h hne hf hg (by exact rfl) ?_
  rintro ⟨result, info⟩ world₁ world₁' h₁
  by_cases hresult : result < 0
  · simp only [if_pos hresult]
    exact ⟨rfl, h₁.toAgree⟩
  · simp only [if_neg hresult]
    exact ⟨rfl, h₁.toAgree⟩

theorem edit_alike : wp₂ worker (processEdit task) (processEdit task)
    (SameResponse g) world world' := by
  simp only [processEdit, perform_bind]
  apply wp₂_findFileMetadata h hne
  · exact wp₂_answer h.toAgree
  intro i i' hshown
  apply wp₂_notOwner hshown
  intro denied
  cases denied with
  | true =>
      apply wp₂_ownerName hshown
      exact wp₂_answer h.toAgree
  | false =>
      refine wp₂_goesBy h hne hf hg (by exact rfl) ?_
      intro lockResult world₁ world₁' h₁
      by_cases hgone : lockResult = -1
      · simp only [if_pos hgone]
        exact wp₂_answer h₁.toAgree
      by_cases hlocked : lockResult = -2
      · simp only [if_neg hgone, if_pos hlocked]
        refine wp₂_goesBy h₁ hne hf hg (by exact rfl) ?_
        rintro ⟨locked, locker⟩ world₂ world₂' h₂
        exact wp₂_answer h₂.toAgree
      · simp only [if_neg hgone, if_neg hlocked]
        refine wp₂_goesBy h₁ hne hf hg (by exact rfl) ?_
        rintro ⟨result, bytes⟩ world₂ world₂' h₂
        by_cases hresult : result < 0
        · simp only [if_pos hresult]
          refine wp₂_goesBy h₂ hne hf hg (by exact rfl) ?_
          intro released world₃ world₃' h₃
          exact wp₂_answer h₃.toAgree
        · simp only [if_neg hresult]
          exact wp₂_answer h₂.toAgree

theorem save_alike : wp₂ worker (processSave task) (processSave task)
    (SameResponse g) world world' := by
  unfold processSave
  by_cases hguest : task.role = roleGuest
  · simp only [if_pos hguest]
    exact wp₂_answer h.toAgree
  simp only [if_neg hguest, perform_bind]
  apply wp₂_findFileMetadata h hne
  · exact ⟨rfl, h.toAgree⟩
  intro i i' hshown
  apply wp₂_lockedByUserId hshown
  by_cases hother : (world.metadata i).lockedByUserId ≠ task.userId
  · simp only [if_pos hother]
    exact wp₂_answer h.toAgree
  simp only [if_neg hother, saveWrite, perform_bind]
  apply wp₂_version hshown
  refine wp₂_goesBy h hne hf hg (by exact rfl) ?_
  intro backedUp world₁ world₁' h₁
  refine wp₂_goesBy h₁ hne hf hg (by exact rfl) ?_
  intro saved world₂ world₂' h₂
  by_cases hsaved : saved < 0
  · simp only [if_pos hsaved]
    exact wp₂_answer h₂.toAgree
  simp only [if_neg hsaved]
  refine wp₂_goesBy h₂ hne hf hg (by exact rfl) ?_
  intro updated world₃ world₃' h₃
  by_cases hupdated : updated < 0
  · simp only [if_pos hupdated]
    exact wp₂_answer h₃.toAgree
  · simp only [if_neg hupdated]
    refine wp₂_goesBy h₃ hne hf hg (by exact rfl) ?_
    intro released world₄ world₄' h₄
    exact wp₂_answer h₄.toAgree

theorem unlock_alike : wp₂ worker (processUnlock task) (processUnlock task)
    (SameResponse g) world world' := by
  simp only [processUnlock, perform_bind]
  refine wp₂_goesBy h hne hf hg (by exact rfl) ?_
  intro result world₁ world₁' h₁
  by_cases hgone : result = -1
  · simp only [if_pos hgone]
    exact wp₂_answer h₁.toAgree
  by_cases hother : result = -2
  · simp only [if_neg hgone, if_pos hother]
    exact wp₂_answer h₁.toAgree
  · simp only [if_neg hgone, if_neg hother]
    exact wp₂_answer h₁.toAgree

theorem history_alike : wp₂ worker (processHistory task) (processHistory task)
    (SameResponse g) world world' := by
  simp only [processHistory, perform_bind]
  apply wp₂_findFileMetadata h hne
  · exact ⟨rfl, h.toAgree⟩
  · intro i i' _
    refine wp₂_goesBy h hne hf hg (by exact rfl) ?_
    intro listing world₁ world₁' h₁
    exact ⟨rfl, h₁.toAgree⟩

theorem rollback_alike : wp₂ worker (processRollback task) (processRollback task)
    (SameResponse g) world world' := by
  simp only [processRollback, perform_bind]
  apply wp₂_findFileMetadata h hne
  · exact wp₂_answer h.toAgree
  intro i i' hshown
  apply wp₂_notOwner hshown
  intro denied
  cases denied with
  | true =>
      apply wp₂_ownerName hshown
      exact wp₂_answer h.toAgree
  | false =>
      apply wp₂_lockedByOther hshown
      · intro hheld
        apply wp₂_lockedByUsername hshown hheld
        exact ⟨rfl, h.toAgree⟩
      · simp only [Bool.false_eq_true, if_false, rollbackRestore, perform_bind]
        apply wp₂_version hshown
        refine wp₂_goesBy h hne hf hg (by exact rfl) ?_
        intro backedUp world₁ world₁' h₁
        refine wp₂_goesBy h₁ hne hf hg (by exact rfl) ?_
        intro newSize world₂ world₂' h₂
        by_cases hsize : newSize < 0
        · simp only [if_pos hsize]
          exact wp₂_answer h₂.toAgree
        · simp only [if_neg hsize]
          refine wp₂_goesBy h₂ hne hf hg (by exact rfl) ?_
          intro updated world₃ world₃' h₃
          exact wp₂_answer h₃.toAgree

theorem delversion_alike : wp₂ worker (processDelversion task) (processDelversion task)
    (SameResponse g) world world' := by
  simp only [processDelversion, perform_bind]
  apply wp₂_findFileMetadata h hne
  · exact wp₂_answer h.toAgree
  intro i i' hshown
  apply wp₂_notOwner hshown
  intro denied
  cases denied with
  | true => exact wp₂_answer h.toAgree
  | false =>
      refine wp₂_goesBy h hne hf hg (by exact rfl) ?_
      intro deleted world₁ world₁' h₁
      by_cases hdeleted : deleted < 0
      · simp only [if_pos hdeleted]
        exact wp₂_answer h₁.toAgree
      · simp only [if_neg hdeleted]
        exact wp₂_answer h₁.toAgree

/-- A task on another file gives the same response in both worlds. -/
theorem processTask_alike (hlist : task.operation ≠ .list) (haudit : task.operation ≠ .audit) :
    wp₂ worker (processTask task) (processTask task) (SameResponse g) world world' := by
  cases hop : task.operation <;> simp only [processTask, hop]
  case upload => exact upload_alike h hne hf hg
  case download => exact download_alike h hne hf hg
  case delete => exact delete_alike h hne hf hg
  case list => exact absurd hop hlist
  case version => exact version_alike h hne hf hg
  case edit => exact edit_alike h hne hf hg
  case save => exact save_alike h hne hf hg
  case unlock => exact unlock_alike h hne hf hg
  case history => exact history_alike h hne hf hg
  case rollback => exact rollback_alike h hne hf hg
  case audit => exact absurd hop haudit
  case delversion => exact delversion_alike h hne hf hg
  all_goals exact ⟨rfl, h.toAgree⟩

end Operations

/-! ## Swapping two tasks -/

section Swap

variable {world : World} {a b : TaskMessage}

/-- A call on a file leaves everything off its places as it was. -/
theorem off_exec {β : Type} {f : Bytes} (hf : StorageName f) (e : Env) {c : WorkerCall β}
    (hc : ∀ name ∈ c.filename, name = f) (world : World) :
    Off (Place f) world.tree (worker.exec e c world).2.tree :=
  (off_writesAt e c world).mono fun _ hp => place_of_filePlace hf (filePlace_of_writesAt hc hp)

/-- A task changes nothing but the places of its file. -/
theorem off_serve (env : ℕ → Env) (ha : StorageName a.filename) :
    Off (Place a.filename) world.tree (serve env a world).2.tree := by
  obtain ⟨_, h⟩ := serve_invariant env a
    (I := fun _ world' => Off (Place a.filename) world.tree world'.tree) (Off.refl _ _)
    fun g world' i β c hI hcall => hI.trans (off_exec ha (env i) hcall.filename world')
  exact h

/-- After a task the world is what it was but for the file of the task. -/
theorem agree_serve (env : ℕ → Env) (hunique : UniqueNames world.metadata)
    (ha : StorageName a.filename) : Agree a.filename world (serve env a world).2 where
  unique := hunique
  unique' := serve_unique env hunique
  record := fun f hf => by rw [serve_record?_of_ne env hunique hf]
  tree := off_serve env ha

/-- A task adds at most one file. -/
theorem card_activeSlots_serve (env : ℕ → Env) (hunique : UniqueNames world.metadata) :
    (activeSlots (serve env a world).2.metadata).card ≤ (activeSlots world.metadata).card + 1 := by
  have hsubset : activeNames (serve env a world).2.metadata ⊆
      insert a.filename (activeNames world.metadata) := by
    intro f hf
    rw [Finset.mem_insert]
    by_cases hfa : f = a.filename
    · exact Or.inl hfa
    · rw [mem_activeNames, serve_record?_of_ne env hunique hfa] at hf
      exact Or.inr (mem_activeNames.mpr hf)
  calc
    (activeSlots (serve env a world).2.metadata).card =
        (activeNames (serve env a world).2.metadata).card :=
      (serve_unique env hunique).card_activeNames.symm
    _ ≤ (insert a.filename (activeNames world.metadata)).card := Finset.card_le_card hsubset
    _ ≤ (activeNames world.metadata).card + 1 := Finset.card_insert_le _ _
    _ = (activeSlots world.metadata).card + 1 := by rw [hunique.card_activeNames]

theorem room_of_card {metaArray : MetaArray} (h : (activeSlots metaArray).card < maxFiles) :
    Room metaArray := by
  obtain ⟨i, hempty⟩ := exists_emptySlot h
  exact ⟨i, emptySlot_spec hempty⟩

variable (hunique : UniqueNames world.metadata)
  (hroom : (activeSlots world.metadata).card ≤ maxFiles - 2)

include hunique hroom

/-- The worlds before and after a task are alike to tasks on other files: there is
room for one more file in both. -/
theorem alike_serve (env : ℕ → Env) (ha : StorageName a.filename) :
    Alike a.filename world (serve env a world).2 where
  toAgree := agree_serve env hunique ha
  room := by
    apply room_of_card
    unfold maxFiles at hroom ⊢
    omega
  room' := by
    apply room_of_card
    have hcard := card_activeSlots_serve (a := a) env hunique
    unfold maxFiles at hroom ⊢
    omega

/-- A task does after a task on another file what it does before it. -/
theorem serve_after (env env' : ℕ → Env) (ha : StorageName a.filename) (hb : StorageName b.filename)
    (hne : a.filename ≠ b.filename) (hlist : a.operation ≠ .list) (haudit : a.operation ≠ .audit) :
    SameResponse b.filename (serve env a world).1 (serve env a world).2
      (serve env a (serve env' b world).2).1 (serve env a (serve env' b world).2).2 :=
  wp₂_run (processTask_alike (alike_serve hunique hroom env' hb) hne ha hb hlist haudit) env

end Swap

/-- What is shown of a file. -/
def FileState.shown (s : FileState) : FileState :=
  { s with record := s.record.map FileMetadata.shown }

/-- Tasks `a` and `b` give the same responses in both orders, and the same state of
every file. -/
structure Swappable (envA envB : ℕ → Env) (a b : TaskMessage) (world : World) : Prop where
  first : (serve envA a world).1 = (serve envA a (serve envB b world).2).1
  second : (serve envB b (serve envA a world).2).1 = (serve envB b world).1
  state : ∀ f, ((serve envB b (serve envA a world).2).2.file f).shown =
    ((serve envA a (serve envB b world).2).2.file f).shown


section Swapped

variable {world : World} {a b : TaskMessage} (hunique : UniqueNames world.metadata)
  (hroom : (activeSlots world.metadata).card ≤ maxFiles - 2) (ha : StorageName a.filename)
  (hb : StorageName b.filename) (hne : a.filename ≠ b.filename)
  (haList : a.operation ≠ .list) (haAudit : a.operation ≠ .audit)
  (hbList : b.operation ≠ .list) (hbAudit : b.operation ≠ .audit) (envA envB : ℕ → Env)

include hunique hroom ha hb hne haList haAudit hbList hbAudit

theorem swapped_at? (p : Path) :
    (serve envB b (serve envA a world).2).2.tree.at? p =
      (serve envA a (serve envB b world).2).2.tree.at? p := by
  have hA := (serve_after hunique hroom envA envB ha hb hne haList haAudit).2.tree
  have hB := (serve_after hunique hroom envB envA hb ha hne.symm hbList hbAudit).2.tree
  by_cases hp : Place b.filename p
  · have hpa : ¬ Place a.filename p := hp.ne hne.symm
    calc
      (serve envB b (serve envA a world).2).2.tree.at? p = (serve envB b world).2.tree.at? p :=
        (hB.at? p hpa).symm
      _ = (serve envA a (serve envB b world).2).2.tree.at? p := (off_serve envA ha).at? p hpa
  · calc
      (serve envB b (serve envA a world).2).2.tree.at? p = (serve envA a world).2.tree.at? p :=
        ((off_serve envB hb).at? p hp).symm
      _ = (serve envA a (serve envB b world).2).2.tree.at? p := hA.at? p hp

theorem swapped_record (f : Bytes) :
    (record? (serve envB b (serve envA a world).2).2.metadata f).map FileMetadata.shown =
      (record? (serve envA a (serve envB b world).2).2.metadata f).map FileMetadata.shown := by
  have hA := (serve_after hunique hroom envA envB ha hb hne haList haAudit).2.record
  have hB := (serve_after hunique hroom envB envA hb ha hne.symm hbList hbAudit).2.record
  by_cases hf : f = b.filename
  · have hfa : f ≠ a.filename := fun h => hne (h.symm.trans hf)
    rw [serve_record?_of_ne envA (serve_unique envB hunique) hfa]
    exact (hB f hfa).symm
  · rw [serve_record?_of_ne envB (serve_unique envA hunique) hf]
    exact hA f hf

theorem swappable_of_unique : Swappable envA envB a b world where
  first := (serve_after hunique hroom envA envB ha hb hne haList haAudit).1
  second := (serve_after hunique hroom envB envA hb ha hne.symm hbList hbAudit).1.symm
  state := by
    intro f
    have htree := swapped_at? hunique hroom ha hb hne haList haAudit hbList hbAudit envA envB
    ext1
    · exact swapped_record hunique hroom ha hb hne haList haAudit hbList hbAudit envA envB f
    · exact Tree.bytes?_congr (htree _)
    · funext k
      exact Tree.bytes?_congr (htree _)

end Swapped

/-- In every state the workers reach with at most `MAX_FILES - 2` files, tasks on
different files commute. -/
theorem tasks_commute {ι : Type} [DecidableEq ι] {tasks : ι → TaskMessage} {first : World}
    (hfirst : first.metadata = initMetadata) {workers : Workers ι}
    (hreach : WorkersReach tasks (fun _ _ _ => True) first workers)
    (hroom : (activeSlots workers.shared.metadata).card ≤ maxFiles - 2) {a b : TaskMessage}
    (ha : StorageName a.filename) (hb : StorageName b.filename) (hne : a.filename ≠ b.filename)
    (haList : a.operation ≠ .list) (haAudit : a.operation ≠ .audit)
    (hbList : b.operation ≠ .list) (hbAudit : b.operation ≠ .audit) (envA envB : ℕ → Env) :
    Swappable envA envB a b workers.shared := by
  have hunique : UniqueNames first.metadata := hfirst ▸ initMetadata_unique
  exact swappable_of_unique (Workers.sound_of_reach hunique hreach).unique hroom ha hb hne haList
    haAudit hbList hbAudit envA envB

/-- User 2 uploads the file `name`. -/
def uploadOf (name : Bytes) (hname : name.length < maxFilename) : TaskMessage :=
  { sampleTask .upload 2 roleUser "new" with filename := name, filename_length := hname }

/-- User 2 uploads `a` and `c`, each in a session of its own. -/
def uploadsUnderWay (second : Bool) : TaskMessage :=
  cond second (uploadOf (text "c") filename_c) (uploadOf (text "a") filename_a)

/-- `a` is uploaded, and `c` is written but has no record yet. -/
def halfUploaded : Workers Bool :=
  (Workers.start uploadsUnderWay freshWorld).run uploadsUnderWay
    ([false, true, true, false, false, true, false, false].map fun i => (i, Env.calm 0))

/-- The deletion of `a` and an upload of `b` commute in the middle of the upload of `c`. -/
theorem tasks_commute_delete :
    (record? halfUploaded.shared.metadata (text "a")).isSome ∧
      Swappable (fun _ => Env.calm 7) (fun _ => Env.calm 9) (sampleTask .delete 2 roleUser "")
        (uploadOf (text "b") filename_b) halfUploaded.shared := by
  have hreach : WorkersReach uploadsUnderWay (fun _ _ _ => True) freshWorld halfUploaded :=
    Reach.run_schedule .refl fun _ _ => trivial
  refine ⟨by decide +kernel, tasks_commute rfl hreach ?_ ?_ ?_ ?_ ?_ ?_ ?_ ?_ _ _⟩
  · decide +kernel
  all_goals decide

/-- The state after user 2 has uploaded `a`, taken its edit lock and deleted it. -/
def usedSlotWorld : World :=
  worldAfter (fun n => ⟨fun _ => Env.calm 7, match n with
    | 0 => sampleTask .upload 2 roleUser "old"
    | 1 => sampleTask .edit 2 roleUser ""
    | _ => sampleTask .delete 2 roleUser ""⟩) freshWorld 3

/-- The first of two uploads gets the used slot, whose lock time it keeps: in the
record of `b` the order shows. -/
theorem uploads_show_order :
    (activeSlots usedSlotWorld.metadata).card ≤ maxFiles - 2 ∧
      (serve (fun _ => Env.calm 9) (uploadOf (text "c") (by decide))
        (serve (fun _ => Env.calm 9) (uploadOf (text "b") (by decide)) usedSlotWorld).2).2.file
          (text "b") ≠
      (serve (fun _ => Env.calm 9) (uploadOf (text "b") (by decide))
        (serve (fun _ => Env.calm 9) (uploadOf (text "c") (by decide)) usedSlotWorld).2).2.file
          (text "b") := by
  refine ⟨by decide +kernel, ?_⟩
  intro heq
  have hlock := congrArg (fun s => s.record.map FileMetadata.lockAcquiredAt) heq
  exact absurd hlock (by decide +kernel)

end CloudSync
