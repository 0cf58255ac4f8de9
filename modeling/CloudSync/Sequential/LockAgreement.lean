import CloudSync.Sequential.Runs
import CloudSync.Sequential.Spec

/-!
# When a file counts as locked

Four operations answer `STATUS_FILE_LOCKED`, and each finds out in its own way.
`UPLOAD` calls `check_edit_lock`, which clears a lock that is too old, and `EDIT` calls
`acquire_edit_lock`, which takes such a lock over: for them a file is locked while
another user has held the lock for at most `LOCK_TIMEOUT_SECS`.  `DELETE` and `ROLLBACK`
look at the holder alone, so that for them an abandoned lock never ends
(`lock_agreement_iff`).

Nothing is assumed of the state, of the file's name or of how the calls end.
-/

namespace CloudSync

open CText Calls Calls.Prog Files FileState

/-! ## Past the checks no task is told that the file is locked -/

section Returns

variable {task : TaskMessage}

/-- The answer is another than `STATUS_FILE_LOCKED`. -/
abbrev NeverLocked (prog : Prog WorkerCall ResponseMessage) : Prop :=
  Returns (fun resp => resp.status ≠ .fileLocked) prog

theorem neverLocked_answer {result : String} {status : Status} {message data : Bytes}
    (hstatus : status ≠ .fileLocked) : NeverLocked (answer task result status message data) :=
  returns_bind fun _ => returns_ret hstatus

theorem neverLocked_uploadWrite : NeverLocked (uploadWrite task) := by
  apply returns_bind
  intro result
  apply returns_ite (neverLocked_answer (by decide))
  apply returns_bind
  intro result
  apply returns_ite
  · exact returns_bind fun _ => neverLocked_answer (by decide)
  · exact neverLocked_answer (by decide)

theorem neverLocked_uploadOwned : NeverLocked (uploadOwned task) := by
  apply returns_bind
  intro existing
  cases existing with
  | none => exact neverLocked_uploadWrite
  | some fm =>
      apply returns_bind
      intro refused
      apply returns_ite
      · exact returns_bind fun _ => neverLocked_answer (by decide)
      · exact returns_bind fun _ => returns_bind fun _ => neverLocked_uploadWrite

theorem neverLocked_rollbackRestore {fm : Slot} : NeverLocked (rollbackRestore task fm) := by
  apply returns_bind
  intro version
  apply returns_bind
  intro saved
  apply returns_bind
  intro newSize
  apply returns_ite (neverLocked_answer (by decide))
  exact returns_bind fun _ => neverLocked_answer (by decide)

end Returns

/-! ## The four checks -/

section Checks

variable {task : TaskMessage} {world : World} {r : FileMetadata} {time : ℤ} {ok : Env → Prop}

/-- The answer is `STATUS_FILE_LOCKED` if and only if `held`. -/
def LockedIff (held : Prop) (resp : ResponseMessage) (_ : World) : Prop :=
  resp.status = .fileLocked ↔ held

theorem lockedIff_answer {held : Prop} {result : String} {message data : Bytes} (hheld : held) :
    wp worker ok (answer task result .fileLocked message data) (LockedIff held) world :=
  wp_answer fun _ _ _ => iff_of_true rfl hheld

theorem lockedIff_of_never {held : Prop} {prog : Prog WorkerCall ResponseMessage}
    (hprog : NeverLocked prog) (hfree : ¬ held) : wp worker ok prog (LockedIff held) world :=
  wp_mono (hprog.wp world) fun _ _ hstatus => iff_of_false hstatus hfree

theorem checkEditLock_of_held (hr : record? world.metadata task.filename = some r)
    (hlocked : r.lockedByUserId ≠ -1) (hfresh : ¬ r.Stale time) :
    checkEditLock world.metadata task.filename time =
      ((true, strncpy (maxUsername - 1) r.lockedByUsername), world.metadata) := by
  obtain ⟨i, hfind, rfl⟩ := exists_slot hr
  unfold checkEditLock
  rw [hfind]
  dsimp only
  rw [if_pos hlocked, if_neg fun hold => hfresh ⟨hlocked, hold⟩]

theorem upload_lockedIff (hr : record? world.metadata task.filename = some r) :
    wp worker (fun e => e.now = time) (processUpload task)
      (LockedIff (LockedByOther task r ∧ ¬ r.Stale time)) world := by
  simp only [processUpload, perform_bind]
  rintro e rfl
  change wp _ _ (if (checkEditLock world.metadata task.filename e.now).1.1 = true then _ else _) _
    (onMetadata (checkEditLock world.metadata task.filename e.now) world).2
  by_cases hheld : r.lockedByUserId ≠ -1 ∧ ¬ r.Stale e.now
  · rw [checkEditLock_of_held hr hheld.1 hheld.2, if_pos rfl]
    refine wp_findFileMetadata (fun hnone => ?_) fun i hi => ?_
    · exact absurd (hr.symm.trans hnone) (by simp)
    · have hslot : world.metadata i = r := (Option.some.inj (hr.symm.trans hi)).symm
      intro e' _
      change wp _ _ (if (world.metadata i).lockedByUserId ≠ task.userId then _ else _) _ _
      rw [hslot]
      split
      · next hother => exact lockedIff_answer ⟨⟨hheld.1, hother⟩, hheld.2⟩
      · next hown => exact lockedIff_of_never neverLocked_uploadOwned fun h => hown h.1.2
  · have hfree : (checkEditLock world.metadata task.filename e.now).1.1 = false := by
      rw [checkEditLock_of_some hr, if_neg hheld]
    rw [hfree, if_neg Bool.false_ne_true]
    exact lockedIff_of_never neverLocked_uploadOwned fun h => hheld ⟨h.1.1, h.2⟩

theorem edit_lockedIff (hr : record? world.metadata task.filename = some r)
    (hallowed : ¬ NotOwner task r) :
    wp worker (fun e => e.now = time) (processEdit task)
      (LockedIff (LockedByOther task r ∧ ¬ r.Stale time)) world := by
  simp only [processEdit, perform_bind]
  refine wp_findFileMetadata (fun hnone => ?_) fun i hi => ?_
  · exact absurd (hr.symm.trans hnone) (by simp)
  obtain rfl := Option.some.inj (hr.symm.trans hi)
  refine wp_notOwner (fun hrole howner => absurd ⟨hrole, howner⟩ hallowed) fun _ => ?_
  refine wp_acquireEditLock_of_some hi ?_ ?_
  · rintro e rfl hgranted
    refine lockedIff_of_never ?_ ?_
    · apply returns_call
      rintro ⟨result, bytes⟩
      apply returns_ite
      · exact returns_call fun _ => neverLocked_answer (by decide)
      · exact neverLocked_answer (by decide)
    · rintro ⟨⟨hlocked, hother⟩, hfresh⟩
      rcases hgranted with h | h | h
      · exact hlocked h
      · exact hfresh h
      · exact hother h
  · rintro e rfl hlocked hfresh hother
    exact fun _ _ => lockedIff_answer ⟨⟨hlocked, hother⟩, hfresh⟩

theorem delete_lockedIff (hr : record? world.metadata task.filename = some r)
    (hallowed : ¬ NotOwner task r) :
    wp worker ok (processDelete task) (LockedIff (LockedByOther task r)) world := by
  simp only [processDelete, perform_bind]
  refine wp_findFileMetadata (fun hnone => ?_) fun i hi => ?_
  · exact absurd (hr.symm.trans hnone) (by simp)
  obtain rfl := Option.some.inj (hr.symm.trans hi)
  refine wp_notOwner (fun hrole howner => absurd ⟨hrole, howner⟩ hallowed) fun _ => ?_
  refine wp_lockedByOther (fun hlocked hother => ?_) fun hopen => ?_
  · exact fun _ _ => lockedIff_answer ⟨hlocked, hother⟩
  · refine lockedIff_of_never ?_ fun h => not_or.mpr h hopen
    apply returns_call
    intro removed
    apply returns_ite (neverLocked_answer (by decide))
    apply returns_call
    intro forgotten
    apply returns_ite
    · exact neverLocked_answer (by decide)
    · exact neverLocked_answer (by decide)

theorem rollback_lockedIff (hr : record? world.metadata task.filename = some r)
    (hallowed : ¬ NotOwner task r) :
    wp worker ok (processRollback task) (LockedIff (LockedByOther task r)) world := by
  simp only [processRollback, perform_bind]
  refine wp_findFileMetadata (fun hnone => ?_) fun i hi => ?_
  · exact absurd (hr.symm.trans hnone) (by simp)
  obtain rfl := Option.some.inj (hr.symm.trans hi)
  refine wp_notOwner (fun hrole howner => absurd ⟨hrole, howner⟩ hallowed) fun _ => ?_
  refine wp_lockedByOther (fun hlocked hother => ?_) fun hopen => ?_
  · exact fun _ _ => iff_of_true rfl ⟨hlocked, hother⟩
  · exact lockedIff_of_never neverLocked_rollbackRestore fun h => not_or.mpr h hopen

end Checks

/-! ## Agreement -/

/-- The operations that look at the lock of a file before they touch it. -/
def ChecksLock (operation : Operation) : Prop :=
  operation = .upload ∨ operation = .edit ∨ operation = .delete ∨ operation = .rollback

section Agreement

variable {env : ℕ → Env} {task : TaskMessage} {world : World} {r : FileMetadata} {time : ℤ}

/-- `DELETE` and `ROLLBACK` do not ask how old the lock is. -/
theorem lock_agreement_iff (htime : ∀ i, (env i).now = time) (hop : ChecksLock task.operation)
    (hr : record? world.metadata task.filename = some r) (hallowed : ¬ NotOwner task r) :
    ((serve env task world).1.status = .fileLocked ↔ LockedByOther task r ∧ ¬ r.Stale time) ↔
      (task.operation = .delete ∨ task.operation = .rollback →
        ¬ (LockedByOther task r ∧ r.Stale time)) := by
  have hinline : ((LockedByOther task r ↔ LockedByOther task r ∧ ¬ r.Stale time) ↔
      ¬ (LockedByOther task r ∧ r.Stale time)) := by
    rw [iff_self_and, not_and]
  have hserve : ∀ {held : Prop},
      wp worker (fun e => e.now = time) (processTask task) (LockedIff held) world →
        ((serve env task world).1.status = .fileLocked ↔ held) := fun h => wp_run h htime
  rcases hop with hop | hop | hop | hop
  · refine iff_of_true (hserve ?_) fun h => ?_
    · simp only [processTask, hop]
      exact upload_lockedIff hr
    · rw [hop] at h
      exact absurd h (by decide)
  · refine iff_of_true (hserve ?_) fun h => ?_
    · simp only [processTask, hop]
      exact edit_lockedIff hr hallowed
    · rw [hop] at h
      exact absurd h (by decide)
  · rw [forall_prop_of_true (Or.inl hop), ← hinline, hserve ?_]
    simp only [processTask, hop]
    exact delete_lockedIff hr hallowed
  · rw [forall_prop_of_true (Or.inr hop), ← hinline, hserve ?_]
    simp only [processTask, hop]
    exact rollback_lockedIff hr hallowed

end Agreement

/-- User 2 has uploaded `a` and has edited it since time 0. -/
def heldWorld : World :=
  (serve (fun _ => Env.calm 0) (sampleTask .edit 2 roleUser "")
    (serve (fun _ => Env.calm 0) (sampleTask .upload 2 roleUser "one") freshWorld).2).2

/-- An admin asks for the removal of `a`. -/
def deleteByAdmin : TaskMessage := sampleTask .delete 1 roleAdmin ""

/-- The admin may not delete at time 300 what user 2 is editing. -/
theorem lock_agreement_admin :
    (serve (fun _ => Env.calm 300) deleteByAdmin heldWorld).1.status = .fileLocked := by
  obtain ⟨r, hr⟩ := Option.isSome_iff_exists.mp
    (by decide +kernel : (record? heldWorld.metadata (text "a")).isSome = true)
  have hchecks : (record? heldWorld.metadata (text "a")).all (fun r =>
      decide (¬ NotOwner deleteByAdmin r ∧ LockedByOther deleteByAdmin r ∧ ¬ r.Stale 300)) = true := by
    decide +kernel
  obtain ⟨hallowed, hheld, hfresh⟩ :=
    of_decide_eq_true ((Option.all_eq_true _ _).mp hchecks r hr)
  exact ((lock_agreement_iff (fun _ => rfl) (Or.inr (Or.inr (Or.inl rfl))) hr hallowed).mpr
    fun _ h => hfresh h.2).mpr ⟨hheld, hfresh⟩

/-- At time 1000 the lock has long been abandoned, and the admin still may not. -/
theorem abandoned_lock_blocks : ∃ r,
    record? heldWorld.metadata deleteByAdmin.filename = some r ∧ ¬ NotOwner deleteByAdmin r ∧
      LockedByOther deleteByAdmin r ∧ r.Stale 1000 ∧
      (serve (fun _ => Env.calm 1000) deleteByAdmin heldWorld).1.status = .fileLocked := by
  have hchecks : (record? heldWorld.metadata (text "a")).any (fun r =>
      decide (¬ NotOwner deleteByAdmin r ∧ LockedByOther deleteByAdmin r ∧ r.Stale 1000)) = true := by
    decide +kernel
  obtain ⟨r, hr, hpassed⟩ := (Option.any_eq_true _ _).mp hchecks
  obtain ⟨hallowed, hheld, hstale⟩ := of_decide_eq_true hpassed
  exact ⟨r, hr, hallowed, hheld, hstale, by decide +kernel⟩

end CloudSync
