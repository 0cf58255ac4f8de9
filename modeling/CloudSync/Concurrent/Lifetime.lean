import CloudSync.Concurrent.CrashSafety
import CloudSync.Concurrent.Provenance
import CloudSync.Concurrent.StepUpkeep
import CloudSync.Sequential.Restart

/-!
# Starts, crashes and restarts

The server is started, workers process tasks, their system calls taking turns, and at some
point everything is killed.  The storage stays as it is, nobody tidies it up, and the server
is started again.  `Lifetime uploads` are the states that can come about in this way, any
number of times, when nothing but `uploads` is ever uploaded or saved.

`lifetime_kept`: the state is always in order, and no byte of any file or version is from
elsewhere than from an upload of that file, or a zero in a gap.
-/

namespace CloudSync

open CText Calls Calls.Prog Files

/-- The states of the server from its first start on; `uploads` are the data that are ever
uploaded or saved, with their filenames. -/
inductive Lifetime (uploads : Set (Bytes × Bytes)) : World → Prop
  | fresh : Lifetime uploads freshWorld
  | steps {ι : Type} [DecidableEq ι] {tasks : ι → TaskMessage} {modified : Bytes → Bytes}
      {world : World} {stepping : Stepping ι} (hworld : Lifetime uploads world)
      (hnames : NamesStorage tasks)
      (huploads : ∀ i, (tasks i).operation = .upload ∨ (tasks i).operation = .save →
        ((tasks i).filename, (tasks i).data) ∈ uploads)
      (hreach : SteppingReach tasks modified world stepping) :
      Lifetime uploads stepping.shared.world
  | restart {conds : ℕ → Conditions} {world : World} (hworld : Lifetime uploads world)
      (hfine : ∀ i, (conds i).Fine) : Lifetime uploads (restart conds world)

variable {uploads : Set (Bytes × Bytes)} {world : World}

/-- The byte at an offset of `f` was uploaded there once, or is in a gap. -/
def UploadedAt (uploads : Set (Bytes × Bytes)) (f : Bytes) (i : ℕ) (b : UInt8) : Prop :=
  b = 0 ∨ ∃ data, (f, data) ∈ uploads ∧ data[i]? = some b

/-- All files of storage names hold what was uploaded. -/
def FromUploads (uploads : Set (Bytes × Bytes)) (world : World) : Prop :=
  ∀ f, StorageName f → ∀ p, FilePlace f p → ∀ bytes, world.tree.bytes? p = some bytes →
    ∀ i b, bytes[i]? = some b → UploadedAt uploads f i b

/-- What the workers put there was uploaded, or was there before. -/
theorem FromUploads.steps {ι : Type} [DecidableEq ι] {tasks : ι → TaskMessage}
    {modified : Bytes → Bytes} {stepping : Stepping ι} (h : FromUploads uploads world)
    (hnames : NamesStorage tasks)
    (huploads : ∀ i, (tasks i).operation = .upload ∨ (tasks i).operation = .save →
      ((tasks i).filename, (tasks i).data) ∈ uploads)
    (hreach : SteppingReach tasks modified world stepping) :
    FromUploads uploads stepping.shared.world := by
  intro f hf p hp bytes hbytes i b hb
  have hput := ((traced_of_steps hnames hreach).1 f hf p hp).linked bytes hbytes i b hb
  rw [Nat.zero_add] at hput
  rcases hput with hzero | ⟨j, rfl, hop, hdata⟩ | ⟨q, before, hq, hbefore, hold⟩
  · exact Or.inl hzero
  · exact Or.inr ⟨(tasks j).data, huploads j hop, hdata⟩
  · -- it was there at the start of this run, so it is from an earlier one
    exact h f hf q hq before hbefore i b hold

theorem WellKept.restart (h : WellKept world) {conds : ℕ → Conditions}
    (hfine : ∀ i, (conds i).Fine) : WellKept (restart conds world) where
  unique := initMetadata_unique
  versions := freshWorld_wellKept.versions
  store := h.store.congr (congrFun (restart_at? h.store hfine))

/-- In every state of a lifetime the state is in order, and files and versions hold what was
uploaded. -/
theorem lifetime_kept (hworld : Lifetime uploads world) :
    WellKept world ∧ FromUploads uploads world := by
  induction hworld with
  | fresh =>
      refine ⟨freshWorld_wellKept, fun f hf p hp bytes hbytes => ?_⟩
      rw [Tree.bytes?, freshWorld_at?_of_place hf (place_of_filePlace hf hp)] at hbytes
      exact absurd hbytes (Option.some_ne_none bytes).symm
  | steps _ hnames huploads hreach ih =>
      exact ⟨wellKept_of_steps ih.1 hnames hreach, ih.2.steps hnames huploads hreach⟩
  | restart _ hfine ih =>
      -- the storage is as it was, the records are forgotten
      obtain ⟨hkept, huploads⟩ := ih
      refine ⟨hkept.restart hfine, fun f hf p hp bytes hbytes => ?_⟩
      rw [Tree.bytes?_congr (congrFun (restart_at? hkept.store hfine) p)] at hbytes
      exact huploads f hf p hp bytes hbytes

/-- The server is killed when the first upload of `a` is done and that of `b` has begun, and
is started again. -/
def restartedOnce : World :=
  restart (fun _ => .fine) ((Stepping.start uploadAgain (fun _ => []) freshWorld).runSchedule
    (machine Bool) (fun _ => Monitor.silent _) killedWhileSaving).shared.world

theorem lifetime_kept_restartedOnce :
    content restartedOnce.tree (text "a") = some (text "two") ∧ WellKept restartedOnce ∧
      FromUploads (Set.range fun second => ((uploadAgain second).filename,
        (uploadAgain second).data)) restartedOnce := by
  have hnames : ∀ second, StorageName (uploadAgain second).filename := by decide
  have hreach := steppingReach_run uploadAgain (fun _ => []) freshWorld killedWhileSaving
  have hcontent : content restartedOnce.tree (text "a") = some (text "two") := by decide +kernel
  refine ⟨hcontent, lifetime_kept (.restart ?_ fun _ => Conditions.fine_fine)⟩
  exact .steps .fresh (fun second _ => hnames second) (fun second _ => ⟨second, rfl⟩) hreach

end CloudSync
