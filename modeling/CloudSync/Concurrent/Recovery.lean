import CloudSync.Concurrent.CrashSafety
import CloudSync.Concurrent.StoreOrder
import CloudSync.Sequential.Refinement
import CloudSync.Sequential.Rollback
import CloudSync.State.OldContent

/-!
# After an overwrite that was not finished

`CrashSafety.lean` says where the old content is when a worker has been killed: it may be
stored only as the version that the record still names, while the file holds something that
nobody has uploaded.  A write that fails leaves the same.

Nobody can get it back with `ROLLBACK`.  Before it restores anything `ROLLBACK` makes a
backup, under the number that the record names, so what is in the file comes upon the only
copy.  `only_copy_overwritten`: every task that overwrites the file and succeeds leaves the
old content nowhere, unless it brings it along.
-/

namespace CloudSync

open CText Calls Calls.Prog Files FileState

section Backup

variable {torn old : Bytes} {n : ℤ} {versions : ℤ → Option Bytes}

/-- Under the number of a backup there is the backup, or nothing. -/
theorem eq_of_backedUp_self {bytes : Bytes} (h : backedUp (some torn) n versions n = some bytes) :
    bytes = torn := by
  simp only [backedUp, Function.update_self] at h
  split at h
  · exact (Option.some.inj h).symm
  · exact absurd h.symm (Option.some_ne_none bytes)

/-- A backup under the number of the only copy leaves none. -/
theorem backedUp_ne (honly : ∀ k, versions k = some old → k = n) (hdiffer : torn ≠ old) (k : ℤ) :
    backedUp (some torn) n versions k ≠ some old := by
  intro h
  have hk : k = n := (of_backedUp h).elim (honly k) And.left
  rw [hk] at h
  exact hdiffer (eq_of_backedUp_self h).symm

end Backup

/-- The only copy of the old content is the version that the record names, and the file holds
something else.  Then a task that overwrites the file and succeeds leaves no copy, unless it
brings one.  A `ROLLBACK` to that version leaves the file as it is. -/
theorem only_copy_overwritten {env : ℕ → Env} {task : TaskMessage} {world : World}
    (hfine : ∀ i, (env i).Fine) (hname : StorageName task.filename)
    (hunique : UniqueNames world.metadata) (hok : StoreOk world.tree)
    (hbounds : (world.file task.filename).InBounds) (hop : Overwrites task.operation)
    {r : FileMetadata} (hr : record? world.metadata task.filename = some r) {torn old : Bytes}
    (hcontent : content world.tree task.filename = some torn) (hdiffer : torn ≠ old)
    (honly : ∀ k, storedVersion world.tree task.filename k = some old → k = r.version)
    (hdata : task.operation ≠ .rollback → task.data ≠ old)
    (hsuccess : (serve env task world).1.status = .success) :
    ¬ OldContentKept old task.filename (serve env task world).2.tree ∧
      (task.operation = .rollback → task.targetVersion = r.version →
        content (serve env task world).2.tree task.filename = some torn) := by
  obtain ⟨clock, -, hstatus, hat⟩ := serve_refines hfine hname hunique hok hbounds
  obtain ⟨-, hversions, bytes, hbytes, hbrought, hrestored⟩ :=
    serve_overwritten hop (s := world.file task.filename) hr (hstatus.symm.trans hsuccess)
  have hbackup : ((world.file task.filename).backup r).versions =
      backedUp (some torn) r.version (storedVersion world.tree task.filename) :=
    congrArg (backedUp · r.version _) hcontent
  -- from here on the old content is under no number
  rw [hbackup] at hversions hrestored
  have hafter := hat.store.content.trans hbytes
  have hstored := hat.store.versions.trans hversions
  refine ⟨?_, fun hrollback htarget => ?_⟩
  · rintro (hold | ⟨k, hk⟩)
    · obtain rfl : bytes = old := Option.some.inj (hafter.symm.trans hold)
      by_cases hrollback : task.operation = .rollback
      · exact backedUp_ne honly hdiffer _ (hrestored hrollback)
      · exact hdata hrollback (hbrought hrollback).symm
    · rw [hstored] at hk
      exact backedUp_ne honly hdiffer k hk
  · have hthere := hrestored hrollback
    rw [htarget] at hthere
    rw [hafter, eq_of_backedUp_self hthere]

/-- The write fails with which `save_file` would have stored the data. -/
def writeFails : ℕ → Env
  | 5 => { Env.calm 0 with conditions := fun i => if i = 2 then .failing else .fine }
  | _ => .calm 0

/-- User 2 has uploaded `a`, and another upload of it has failed. -/
def uploadedInPart : World :=
  (serve writeFails (sampleTask .upload 2 roleUser "two") uploadedOnce).2

theorem uploadedInPart_wellKept : WellKept uploadedInPart := by
  have hname : StorageName (text "a") := by decide
  exact serve_wellKept (fun _ => hname) _ uploadedOnce_wellKept

/-- The old content is version 1. -/
theorem uploadedInPart_versions {k : ℤ}
    (hk : (storedVersion uploadedInPart.tree (text "a") k).isSome) : k = 1 := by
  obtain ⟨bytes, hbytes⟩ := Option.isSome_iff_exists.mp hk
  have hentries : uploadedInPart.tree.children (text "a" :: versionsPath) = [versionName 1] := by
    decide +kernel
  have hmem := (entry_of_stored uploadedInPart_wellKept.store (by decide) hbytes).1
  rw [hentries, List.mem_singleton] at hmem
  exact versionName_injective hmem

/-- Rolled back to version 1, the file is still empty, and version 1 is empty, too. -/
theorem only_copy_overwritten_rollback :
    storedVersion uploadedInPart.tree (text "a") 1 = some (text "one") ∧
      ¬ OldContentKept (text "one") (text "a")
        (serve (fun _ => Env.calm 0) rollbackOfA uploadedInPart).2.tree ∧
      content (serve (fun _ => Env.calm 0) rollbackOfA uploadedInPart).2.tree (text "a") =
        some [] := by
  have hkept := uploadedInPart_wellKept
  have hcopy : storedVersion uploadedInPart.tree (text "a") 1 = some (text "one") := by
    decide +kernel
  have hempty : content uploadedInPart.tree (text "a") = some [] := by decide +kernel
  obtain ⟨r, hr, hversion⟩ : ∃ r, record? uploadedInPart.metadata (text "a") = some r ∧
      r.version = 1 := ⟨_, rfl, rfl⟩
  have hbounds : (uploadedInPart.file (text "a")).InBounds := by
    refine ⟨fun r' hr' => ?_, ?_⟩
    · obtain rfl := Option.some.inj (hr.symm.trans hr')
      rw [hversion]
      decide
    · refine (Set.encard_le_encard (t := {1}) fun k hk => uploadedInPart_versions hk).trans ?_
      rw [Set.encard_singleton]
      norm_num
  have hname : StorageName rollbackOfA.filename := by decide
  have hop : FileState.Overwrites rollbackOfA.operation := Or.inr (Or.inr rfl)
  have hdiffer : ([] : Bytes) ≠ text "one" := by decide
  have hlost := only_copy_overwritten (fun _ => Env.calm_fine 0) hname hkept.unique hkept.store
    hbounds hop hr hempty hdiffer
    (fun k hk => (uploadedInPart_versions (hk ▸ rfl)).trans hversion.symm) (fun h => absurd rfl h)
    (by decide +kernel)
  exact ⟨hcopy, hlost.1, hlost.2 rfl hversion.symm⟩

end CloudSync
