import CloudSync.Concurrent.Workers
import CloudSync.Sequential.Holds

/-!
# Ownership among concurrent workers

A task other than `SAVE` writes a file after its ownership check: its user owns
the file, is an admin, or the lookup found no such file.  A task is `Cleared`
while it has passed that check and may still write.  The check is worth
something as long as nobody creates the file for another owner while a task is
cleared for it, and no check reads the owner through a pointer to a slot that
has changed hands (`OwnerOrder`).

The lookup of a first `UPLOAD` finds no file, and `upload_crossing_upload` shows
two of them: one user's file gets the other's content.
-/

namespace CloudSync

open CText Calls Calls.Prog Files

variable {ι : Type} [DecidableEq ι] (task : ι → TaskMessage)

/-- A step changes the content or the versions of an active file only for its
owner or an admin. -/
def OwnerExclusion (names : Set Bytes) (workers : Workers ι) : Prop :=
  ∀ i e, ∀ f ∈ names, ∀ r ∈ record? workers.shared.metadata f,
    (content (workers.step task i e).shared.tree f ≠ content workers.shared.tree f ∨
      storedVersion (workers.step task i e).shared.tree f ≠ storedVersion workers.shared.tree f) →
    (task i).userId = r.ownerId ∨ (task i).role = roleAdmin

/-- Task `i` has passed its ownership check and may still write its file. -/
abbrev Cleared (workers : Workers ι) (i : ι) : Prop :=
  workers.Pending (fun g => g.owner = true)
    (fun c => (task i).filename ∈ c.writesContent ∨ (task i).filename ∈ c.writesVersions) i

/-- The step creates no file for another owner than the user of a task that is
cleared for it, and looks for the owner only where the record still is. -/
structure OwnerOrder (workers : Workers ι) (i : ι) (e : Env) : Prop where
  create : ∀ f ownerId, (workers.thread i).prog.AtCall (fun c => c.creates = some (f, ownerId)) →
    record? workers.shared.metadata f = none → (emptySlot workers.shared.metadata).isSome →
      ∀ j, Cleared task workers j → (task j).filename = f →
        (task j).role = roleAdmin ∨ (task j).userId = ownerId
  look : ∀ slot, (workers.thread i).prog.AtCall (fun c => c.readsOwner = some slot) →
    Cleared task (workers.step task i e) i →
      record? workers.shared.metadata (task i).filename = some (workers.shared.metadata slot)

/-- The task's user is an admin or owns the file, if there is one. -/
def Owned (task : TaskMessage) (world : World) : Prop :=
  task.role = roleAdmin ∨ ∀ r ∈ record? world.metadata task.filename, r.ownerId = task.userId

variable {task} {workers : Workers ι} {i : ι} {e : Env}

/-- Where the ownership check of a task passes, the file is its user's. -/
theorem owned_of_passed {β : Type} {c : WorkerCall β} {g : Standing} {t : TaskMessage}
    {world : World} (hcall : Entitled t g c) (hbefore : g.owner ≠ true)
    (hafter : ((standing t).next g c (worker.exec e c world).1).owner = true)
    (hlook : ∀ slot, c.readsOwner = some slot →
      record? world.metadata t.filename = some (world.metadata slot)) :
    Owned t (worker.exec e c world).2 := by
  cases c with
  | findFileMetadata f =>
      obtain rfl : f = t.filename := hcall
      cases hfind : findFileMetadata world.metadata t.filename with
      | none =>
          apply Or.inr
          intro r hr
          rw [metadata_exec _ _ _ rfl, findFileMetadata_eq_none.mp hfind] at hr
          exact absurd hr (by simp)
      | some slot =>
          rw [show (worker.exec e (.findFileMetadata t.filename) world).1 = some slot from hfind]
            at hafter
          exact Or.inl (by simpa [standing] using hafter)
  | ownerId slot =>
      have hpassed : t.role = roleAdmin ∨ (world.metadata slot).ownerId = t.userId := by
        simpa [standing, worker] using hafter
      apply hpassed.imp_right
      intro howner r hr
      rw [metadata_exec _ _ _ rfl, hlook slot rfl] at hr
      obtain rfl := Option.some.inj hr
      exact howner
  | _ => exact absurd hafter hbefore

/-- A record that `add_file_metadata` makes takes a free slot. -/
theorem emptySlot_of_created {β : Type} {c : WorkerCall β} {world : World} {f : Bytes}
    {ownerId : ℤ} {r : FileMetadata} (hcreates : c.creates = some (f, ownerId))
    (hbefore : record? world.metadata f = none)
    (hafter : record? (worker.exec e c world).2.metadata f = some r) :
    (emptySlot world.metadata).isSome := by
  cases c with
  | addFileMetadata f' ownerName owner size =>
      obtain ⟨rfl, -⟩ := Prod.mk.inj (Option.some.inj hcreates)
      rw [Option.isSome_iff_ne_none]
      intro hfull
      have hadd := addFileMetadata_full hbefore hfull ownerName owner size e.now
      have hsame : (worker.exec e (.addFileMetadata f' ownerName owner size) world).2.metadata =
          world.metadata := congrArg Prod.snd hadd
      rw [hsame, hbefore] at hafter
      exact absurd hafter (by simp)
  | _ => exact absurd hcreates (by simp [WorkerCall.creates])

/-- A step in order keeps the file of a cleared task its user's. -/
theorem owned_exec {β : Type} {c : WorkerCall β} {next : β → Prog WorkerCall ResponseMessage}
    (hsound : Workers.Sound task workers) (horder : OwnerOrder task workers i e)
    (hprog : (workers.thread i).prog = .call c next) {j : ι} (hcleared : Cleared task workers j)
    (howned : Owned (task j) workers.shared) :
    Owned (task j) (worker.exec e c workers.shared).2 := by
  rcases howned with hadmin | howned
  · exact Or.inl hadmin
  have hexec := record?_exec e c hsound.unique (hsound.entitled hprog).filename_length
  by_cases hmem : (task j).filename ∈ c.changesRecord
  · by_cases hadmin : (task j).role = roleAdmin
    · exact Or.inl hadmin
    apply Or.inr
    intro r' hr'
    rcases (hexec.2.2 _ hmem).owner e r' hr' with ⟨r, hr, hsame⟩ | ⟨hnone, hcreates⟩
    · exact hsame ▸ howned r hr
    · have hcreate := horder.create (task j).filename r'.ownerId
      rw [hprog] at hcreate
      exact ((hcreate hcreates hnone (emptySlot_of_created hcreates hnone hr') j hcleared
        rfl).resolve_left hadmin).symm
  · exact Or.inr fun r' hr' => howned r' ((hexec.2.1 _ hmem) ▸ hr')

/-- While every step is in order, the file of every cleared task is its user's. -/
theorem owned_of_ownerOrder {world : World} (hunique : UniqueNames world.metadata)
    (hreach : WorkersReach task (OwnerOrder task) world workers) :
    ∀ i, Cleared task workers i → Owned (task i) workers.shared := by
  refine hreach.checks_stand (fun _ => Workers.sound_of_reach hunique) ?_ ?_ ?_
  · intro i hcleared
    exact Or.inl (by simpa [Workers.start, Pool.start, standing] using hcleared.1)
  · intro workers i e β c next j hsound horder hprog hcleared howned
    exact owned_exec hsound horder hprog hcleared howned
  · intro workers i e β c next hsound horder hprog hbefore hafter
    have hlook := horder.look
    rw [hprog] at hlook
    have hpassed := hafter.1
    rw [Pool.step_call hprog] at hpassed
    simp only [Function.update_self] at hpassed
    exact owned_of_passed (hsound.entitled hprog) hbefore hpassed
      fun slot hslot => hlook slot hslot hafter

/-- If every step is in order, only owners and admins change a file. -/
theorem ownerExclusion_of_ownerOrder {world : World} (hunique : UniqueNames world.metadata)
    {names : Set Bytes} (hsep : Separate names) (hnames : ∀ i, (task i).filename ∈ names)
    (hops : ∀ i, (task i).operation ≠ .save)
    (hreach : WorkersReach task (OwnerOrder task) world workers) :
    OwnerExclusion task names workers := by
  have hsound := Workers.sound_of_reach hunique hreach
  have howned := owned_of_ownerOrder hunique hreach
  intro i e f hf r hr hchanged
  cases hprog : (workers.thread i).prog with
  | ret value => simp [Workers.step_of_ret hprog] at hchanged
  | call c next =>
      have hcall := hsound.entitled hprog
      rw [Workers.step_of_call hprog] at hchanged
      have hwrites : f ∈ c.writesContent ∨ f ∈ c.writesVersions := by
        by_contra hnot
        rw [not_or] at hnot
        rcases hchanged with hchanged | hchanged
        · exact hchanged (content_exec e c _ hsep (hcall.filename_mem (hnames i)) hf hnot.1)
        · exact hchanged (storedVersion_exec e c _ hsep (hcall.filename_mem (hnames i)) hf hnot.2)
      -- a task that writes is cleared
      obtain ⟨rfl, hauthority⟩ : f = (task i).filename ∧
          Authority (task i) (workers.thread i).ghost := by
        rcases hwrites with h | h
        · exact ⟨(hcall.writesContent h).1, (hcall.writesContent h).2.1⟩
        · exact hcall.writesVersions h
      have hcleared : Cleared task workers i := by
        refine ⟨hauthority.resolve_right fun h => hops i h.1, ?_⟩
        rw [hprog]
        exact Or.inl hwrites
      rcases howned i hcleared with hadmin | howner
      · exact Or.inr hadmin
      · exact Or.inl (howner r hr).symm

/-! ## Two first uploads -/

/-- Users 2 and 3 upload `a`, which does not exist. -/
def twoUploads : Bool → TaskMessage
  | false => sampleTask .upload 2 roleUser "two"
  | true => sampleTask .upload 3 roleUser "three"

/-- A step that creates no record and reads the owner of a file in its record. -/
def Watchful (task : ι → TaskMessage) (workers : Workers ι) (i : ι) : Prop :=
  ¬ (workers.thread i).prog.AtCall
    (fun c => ∃ created ∈ c.creates, record? workers.shared.metadata created.1 = none) ∧
  ¬ (workers.thread i).prog.AtCall
    (fun c => ∃ slot ∈ c.readsOwner, record? workers.shared.metadata (task i).filename ≠
      some (workers.shared.metadata slot))

instance (task : ι → TaskMessage) (workers : Workers ι) (i : ι) :
    Decidable (Watchful task workers i) := by
  unfold Watchful
  infer_instance

theorem Watchful.ownerOrder (hwatchful : Watchful task workers i) :
    OwnerOrder task workers i e := by
  obtain ⟨hcreates, hreads⟩ := hwatchful
  refine ⟨fun f ownerId hcall hnone _ _ _ _ => ?_, fun slot hcall _ => ?_⟩
  · exact absurd (hcall.mono fun c hc => ⟨_, hc, hnone⟩) hcreates
  · by_contra hgone
    exact hreads (hcall.mono fun c hc => ⟨_, hc, hgone⟩)

/-- User 2 has uploaded `a`: user 3 is refused, and user 2 is about to write. -/
def ownerUploads : List (Bool × Env) :=
  [true, true, true, true, true, false, false, false, false, false].map fun i => (i, Env.calm 0)

theorem ownerExclusion_ownerUploads :
    WorkersReach twoUploads (OwnerOrder twoUploads) uploadedOnce
      ((Workers.start twoUploads uploadedOnce).run twoUploads ownerUploads) ∧
    content (((Workers.start twoUploads uploadedOnce).run twoUploads ownerUploads).step twoUploads
      false (Env.calm 0)).shared.tree (text "a") ≠
      content ((Workers.start twoUploads uploadedOnce).run twoUploads
        ownerUploads).shared.tree (text "a") ∧
    OwnerExclusion twoUploads {f | StorageName f}
      ((Workers.start twoUploads uploadedOnce).run twoUploads ownerUploads) := by
  have hwatchful : Admissible worker (fun i => standing (twoUploads i)) (fun _ _ _ d => d)
      (fun workers (_ : Unit) i _ => Watchful twoUploads workers i)
      (Workers.start twoUploads uploadedOnce) () ownerUploads := by decide +kernel
  have hreach : WorkersReach twoUploads (OwnerOrder twoUploads) uploadedOnce
      ((Workers.start twoUploads uploadedOnce).run twoUploads ownerUploads) :=
    Reach.refl.run_admissible (hwatchful.mono fun _ _ _ _ h => h.ownerOrder)
  refine ⟨hreach, by decide +kernel, ?_⟩
  exact ownerExclusion_of_ownerOrder (serve_unique _ initMetadata_unique) separate_storageNames
    (by decide) (by decide) hreach

/-- User 2 finds no file; user 3 finds none either, writes and gets the record. -/
def uploadsCross : List (Bool × Env) :=
  [false, false, true, true, true, true].map fun i => (i, Env.calm 0)

theorem upload_crossing_upload :
    ¬ OwnerExclusion twoUploads {f | StorageName f}
      ((Workers.start twoUploads freshWorld).run twoUploads uploadsCross) := by
  intro hexclusion
  have hrecord : (record? ((Workers.start twoUploads freshWorld).run twoUploads
      uploadsCross).shared.metadata (text "a")).any (fun r => decide (r.ownerId = 3)) = true := by
    decide +kernel
  obtain ⟨r, hr, howner⟩ := (Option.any_eq_true _ _).mp hrecord
  have howner := of_decide_eq_true howner
  have hallowed := hexclusion false (Env.calm 0) (text "a") (by decide) r hr
    (Or.inl (by decide +kernel))
  rw [howner] at hallowed
  exact absurd hallowed (by decide)

end CloudSync
