import CloudSync.Sequential.History

/-!
# Overwrites across restarts

A restart of the server runs `init_storage` and `init_metadata`: the storage stays
and the records go (`restart_file`).  Then a file may be stored without a record,
and version numbers begin at 1 again next to higher ones.

An overwrite that succeeds does one of two things to the versions
(`serve_versions`): without a record nothing, with a record it adds the content
under the record's number and keeps the newest.  From the state before one can
therefore say whether the old content will be among the versions (`Survives`),
and in a run it is so step by step (`backed_iff`).
-/

namespace CloudSync

open CText Calls Calls.Prog Files FileState Retention

/-! ## Restarting -/

/-- What `main` does when the server is started again. -/
def restart (conds : ℕ → Conditions) (world : World) : World :=
  { world with
    metadata := initMetadata
    tree := (initStorage.run disk conds world.tree).2 }

/-- One step of the server's life. -/
inductive Event
  | task (job : Job)
  | restart (conds : ℕ → Conditions)

/-- No system call goes wrong, and a task names a plain file. -/
def Event.Fine : Event → Prop
  | .task job => (∀ i, (job.env i).Fine) ∧ StorageName job.task.filename
  | .restart conds => ∀ i, (conds i).Fine

def Event.run (world : World) : Event → World
  | .task job => (serve job.env job.task world).2
  | .restart conds => CloudSync.restart conds world

/-- The state after the first `n` events. -/
def stateAfter (events : ℕ → Event) : ℕ → World
  | 0 => freshWorld
  | n + 1 => (events n).run (stateAfter events n)

/-! ## What every run keeps -/

/-- The version is an `int`, and no more than `MAX_VERSIONS` versions are stored. -/
structure Limited (s : FileState) : Prop where
  version : ∀ r ∈ s.record, InInt r.version
  few : {k | (s.versions k).isSome}.encard ≤ maxVersions

theorem Limited.inBounds {s : FileState} (h : Limited s) : s.InBounds where
  version := h.version
  few := h.few.trans (by norm_num [maxVersions])

theorem limited_gone : Limited gone where
  version := fun _ h => absurd h (Option.not_mem_none _)
  few := by simp [gone]

theorem Limited.move {s s' : FileState} (h : Limited s) (hmove : Move s s') : Limited s' := by
  cases hmove with
  | stay => exact h
  | vanish => exact limited_gone
  | backup hr => exact ⟨h.version, encard_backedUp_le h.few⟩
  | @relock r r' hr hsame =>
      refine ⟨?_, h.few⟩
      intro r₁ hr₁
      obtain rfl := Option.some.inj hr₁
      rw [hsame.1]
      exact h.version r hr
  | @create r' data hr hversion hsize =>
      refine ⟨?_, h.few⟩
      intro r₁ hr₁
      obtain rfl := Option.some.inj hr₁
      rw [hversion]
      decide
  | @commit r r' data hr hversion hsize =>
      refine ⟨?_, encard_backedUp_le h.few⟩
      intro r₁ hr₁
      obtain rfl := Option.some.inj hr₁
      rw [hversion]
      exact int32_range _
  | forget k =>
      refine ⟨h.version, (Set.encard_le_encard ?_).trans h.few⟩
      intro j hj
      simp only [Set.mem_ofPred_eq] at hj ⊢
      by_cases hjk : j = k
      · rw [hjk, Function.update_self] at hj
        exact Bool.noConfusion hj
      · rwa [Function.update_of_ne hjk] at hj

/-- The store is in order, and every file is within its limits. -/
structure Sound (world : World) : Prop where
  unique : UniqueNames world.metadata
  store : StoreOk world.tree
  limited : ∀ f, StorageName f → Limited (world.file f)

theorem freshWorld_sound : Sound freshWorld where
  unique := initMetadata_unique
  store := freshWorld_storeOk
  limited := fun f hf => by
    rw [freshWorld_file hf]
    exact limited_gone

variable {world : World} {conds : ℕ → Conditions} {f : Bytes}

theorem restart_at? (hok : StoreOk world.tree) (hfine : ∀ i, (conds i).Fine) :
    (restart conds world).tree.at? = world.tree.at? := by
  have hrun := (wp_run (initStorage_fine (Or.inr hok.storage) (Or.inr hok.versions)) hfine).2
  have hstorage : Function.update world.tree.at? storagePath (some .dir) = world.tree.at? :=
    Function.update_eq_self_iff.mpr hok.storage.symm
  calc
    (restart conds world).tree.at? = Function.update (Function.update world.tree.at? storagePath
        (some .dir)) versionsPath (some .dir) := hrun
    _ = Function.update world.tree.at? versionsPath (some .dir) := by rw [hstorage]
    _ = world.tree.at? := Function.update_eq_self_iff.mpr hok.versions.symm

/-- A restart forgets the record of a file and nothing else. -/
theorem restart_file (hok : StoreOk world.tree) (hfine : ∀ i, (conds i).Fine) (f : Bytes) :
    (restart conds world).file f = { world.file f with record := none } := by
  have hat := restart_at? hok hfine
  ext1
  · show record? initMetadata f = none
    exact record?_initMetadata
  · exact Tree.bytes?_congr (congrFun hat _)
  · exact funext fun _ => Tree.bytes?_congr (congrFun hat _)

theorem Sound.restart (h : Sound world) (hfine : ∀ i, (conds i).Fine) :
    Sound (restart conds world) where
  unique := initMetadata_unique
  store := by
    have hat := restart_at? h.store hfine
    refine ⟨?_, ?_, fun f hf => (h.store.file f hf).congr fun p _ => congrFun hat p⟩
    · rw [hat]
      exact h.store.storage
    · rw [hat]
      exact h.store.versions
  limited := fun f hf => by
    rw [restart_file h.store hfine]
    exact ⟨fun _ hr => absurd hr (Option.not_mem_none _), (h.limited f hf).few⟩

theorem Sound.serve (h : Sound world) {env : ℕ → Env} {task : TaskMessage}
    (hfine : ∀ i, (env i).Fine) (hname : StorageName task.filename) :
    Sound (serve env task world).2 := by
  obtain ⟨clock, -, -, hat⟩ :=
    serve_refines hfine hname h.unique h.store (h.limited _ hname).inBounds
  refine ⟨hat.unique, hat.store.ok, ?_⟩
  intro f hf
  by_cases hne : f = task.filename
  · subst hne
    rw [hat.file]
    exact (h.limited _ hname).move serve_move
  · rw [hat.file_of_ne h.store hf hne]
    exact h.limited f hf

theorem sound_run {events : ℕ → Event} (hfine : ∀ n, (events n).Fine) (n : ℕ) :
    Sound (stateAfter events n) := by
  induction n with
  | zero => exact freshWorld_sound
  | succ n ih =>
      have hevent := hfine n
      unfold stateAfter Event.run
      cases hcase : events n with
      | task job =>
          rw [hcase] at hevent
          exact ih.serve hevent.1 hevent.2
      | restart conds =>
          rw [hcase] at hevent
          exact ih.restart hevent

/-! ## What an overwrite does to the versions -/

section Overwrite

variable {task : TaskMessage} {clock : Clock} {slot : Option FileMetadata} {s : FileState}

/-- A successful overwrite of a file without a record leaves the versions alone. -/
theorem serve_versions_of_none (hop : Overwrites task.operation) (hr : s.record = none)
    (hsuccess : (FileState.serve task clock slot s).1 = .success) :
    (FileState.serve task clock slot s).2.versions = s.versions := by
  rcases hop with hop | hop | hop <;> simp only [FileState.serve, hop] at hsuccess ⊢
  · simp only [upload, hr] at hsuccess ⊢
    cases slot with
    | none => exact Status.noConfusion hsuccess
    | some slot => rfl
  · simp only [save, hr] at hsuccess
    split at hsuccess <;> exact Status.noConfusion hsuccess
  · simp only [rollback, hr] at hsuccess
    exact Status.noConfusion hsuccess

/-- With a record it backs up the content under the record's version. -/
theorem serve_versions_of_some (hop : Overwrites task.operation) {r : FileMetadata}
    (hr : s.record = some r) (hsuccess : (FileState.serve task clock slot s).1 = .success) :
    (FileState.serve task clock slot s).2.versions = backedUp s.content r.version s.versions := by
  rcases hop with hop | hop | hop <;> simp only [FileState.serve, hop] at hsuccess ⊢
  · have hsame := sameVersion_of_relocked (r.relocked_checked clock.check)
    simp only [upload, hr] at hsuccess ⊢
    split at hsuccess
    · exact Status.noConfusion hsuccess
    · next hfree =>
      split at hsuccess
      · exact Status.noConfusion hsuccess
      · next hallowed =>
        rw [if_neg hfree, if_neg hallowed]
        simp only [commit, FileState.backup, hsame.1]
  · simp only [save, hr] at hsuccess ⊢
    split at hsuccess
    · exact Status.noConfusion hsuccess
    · next hrole =>
      split at hsuccess
      · exact Status.noConfusion hsuccess
      · next hholder =>
        rw [if_neg hrole, if_neg hholder]
        rfl
  · simp only [rollback, hr] at hsuccess ⊢
    split at hsuccess
    · exact Status.noConfusion hsuccess
    · next hallowed =>
      split at hsuccess
      · exact Status.noConfusion hsuccess
      · next hfree =>
        rw [if_neg hallowed, if_neg hfree]
        cases hversion : (s.backup r).versions task.targetVersion with
        | none =>
            rw [hversion] at hsuccess
            exact Status.noConfusion hsuccess
        | some bytes => rfl

end Overwrite

/-- An overwrite will leave `old` among the versions of the file: there is no
record and a version is `old` already; or the number of the record, or that of a
version that is `old` already, is one of the `MAX_VERSIONS` highest numbers,
counting the record's with the stored ones. -/
def Survives (s : FileState) (old : Bytes) : Prop :=
  match s.record with
  | none => ∃ k, s.versions k = some old
  | some r =>
      ∃ k ∈ newest maxVersions {j | j = r.version ∨ (s.versions j).isSome},
        k = r.version ∨ s.versions k = some old

theorem stored_update (old : Bytes) (n : ℤ) (versions : ℤ → Option Bytes) :
    {j | (Function.update versions n (some old) j).isSome} =
      {j | j = n ∨ (versions j).isSome} := by
  ext j
  by_cases hj : j = n
  · simp [hj]
  · simp [hj]

theorem backedUp_iff (old : Bytes) (n : ℤ) (versions : ℤ → Option Bytes) :
    (∃ k, backedUp (some old) n versions k = some old) ↔
      ∃ k ∈ newest maxVersions {j | j = n ∨ (versions j).isSome},
        k = n ∨ versions k = some old := by
  have hvalue : ∀ k, Function.update versions n (some old) k = some old ↔
      k = n ∨ versions k = some old := by
    intro k
    by_cases hk : k = n
    · simp [hk]
    · simp [hk]
  rw [← stored_update old n versions]
  simp only [backedUp]
  constructor
  · rintro ⟨k, hk⟩
    split at hk
    · next hmem => exact ⟨k, hmem, (hvalue k).mp hk⟩
    · exact absurd hk (by simp)
  · rintro ⟨k, hmem, hk⟩
    refine ⟨k, ?_⟩
    rw [if_pos hmem]
    exact (hvalue k).mpr hk

/-- If event `n` is an overwrite that succeeds where `old` was stored, then `old` is
among the versions of the file afterwards. -/
def Backed (events : ℕ → Event) (n : ℕ) : Prop :=
  ∀ job, events n = .task job → Overwrites job.task.operation →
    (serve job.env job.task (stateAfter events n)).1.status = .success →
    ∀ old, content (stateAfter events n).tree job.task.filename = some old →
      ∃ k, storedVersion (stateAfter events (n + 1)).tree job.task.filename k = some old

/-- In a run the content an event overwrites is among the versions afterwards if
and only if the state before the event is such that it survives. -/
theorem backed_iff {events : ℕ → Event} (hfine : ∀ n, (events n).Fine) (n : ℕ) :
    Backed events n ↔
      ∀ job, events n = .task job → Overwrites job.task.operation →
        (serve job.env job.task (stateAfter events n)).1.status = .success →
        ∀ old, content (stateAfter events n).tree job.task.filename = some old →
          Survives ((stateAfter events n).file job.task.filename) old := by
  have hsound := sound_run hfine n
  apply forall_congr'
  intro job
  apply forall_congr'
  intro hevent
  have hjob := hfine n
  rw [hevent] at hjob
  obtain ⟨clock, -, hstatus, hat⟩ := serve_refines hjob.1 hjob.2 hsound.unique hsound.store
    (hsound.limited _ hjob.2).inBounds
  have hnext : stateAfter events (n + 1) =
      (serve job.env job.task (stateAfter events n)).2 := by
    show (events n).run _ = _
    rw [hevent]
    rfl
  apply forall_congr'
  intro hop
  apply forall_congr'
  intro hsuccess
  apply forall_congr'
  intro old
  apply forall_congr'
  intro hcontent
  have hversions : ∀ k, storedVersion (stateAfter events (n + 1)).tree job.task.filename k =
      (FileState.serve job.task clock
        ((emptySlot (stateAfter events n).metadata).map (stateAfter events n).metadata)
        ((stateAfter events n).file job.task.filename)).2.versions k := by
    intro k
    rw [hnext]
    exact congrFun hat.store.versions k
  have hok := hstatus.symm.trans hsuccess
  simp only [hversions]
  unfold Survives
  cases hr : ((stateAfter events n).file job.task.filename).record with
  | none => rw [serve_versions_of_none hop hr hok]
  | some r =>
      have hold : ((stateAfter events n).file job.task.filename).content = some old := hcontent
      rw [serve_versions_of_some hop hr hok, hold]
      exact backedUp_iff old r.version _

/-- A stored version is an entry of the version directory. -/
theorem entry_of_stored {t : Tree} (hok : StoreOk t) (hf : StorageName f) {k : ℤ} {bytes : Bytes}
    (h : storedVersion t f k = some bytes) :
    versionName k ∈ t.children (f :: versionsPath) ∧
      t.bytes? (versionName k :: f :: versionsPath) = some bytes := by
  rw [storedVersion_eq hf (hok.file f hf)] at h
  refine ⟨Tree.mem_children.mpr ?_, h⟩
  rw [Tree.bytes?_eq_some.mp h]
  rfl

/-- User 2 uploads `a` and uploads it again, the server is restarted, and user 2
uploads `a` a third time. -/
def uploadAcrossRestart : ℕ → Event
  | 0 => .task ⟨fun _ => Env.calm 0, sampleTask .upload 2 roleUser "one"⟩
  | 1 => .task ⟨fun _ => Env.calm 0, sampleTask .upload 2 roleUser "two"⟩
  | 2 => .restart fun _ => Conditions.fine
  | _ => .task ⟨fun _ => Env.calm 0, sampleTask .upload 2 roleUser "three"⟩

theorem uploadAcrossRestart_fine (n : ℕ) : (uploadAcrossRestart n).Fine := by
  have hname : StorageName (text "a") := by decide
  obtain _ | _ | _ | n := n
  · exact ⟨fun _ => Env.calm_fine 0, hname⟩
  · exact ⟨fun _ => Env.calm_fine 0, hname⟩
  · exact fun _ => Conditions.fine_fine
  · exact ⟨fun _ => Env.calm_fine 0, hname⟩

/-- Before the restart the first upload is backed up. -/
theorem backed_second_upload : Backed uploadAcrossRestart 1 := by
  refine (backed_iff uploadAcrossRestart_fine 1).mpr fun job hjob _ _ old _ => ?_
  obtain rfl : Job.mk (fun _ => Env.calm 0) (sampleTask .upload 2 roleUser "two") = job :=
    Event.task.inj hjob
  have hname : StorageName (text "a") := by decide
  have hstore := (sound_run uploadAcrossRestart_fine 1).store
  have hentries : (stateAfter uploadAcrossRestart 1).tree.children (text "a" :: versionsPath) =
      [] := by decide +kernel
  have hnone : ∀ k, storedVersion (stateAfter uploadAcrossRestart 1).tree (text "a") k = none := by
    intro k
    by_contra hk
    obtain ⟨bytes, hbytes⟩ := Option.ne_none_iff_exists'.mp hk
    have hmem := (entry_of_stored hstore hname hbytes).1
    rw [hentries] at hmem
    exact List.not_mem_nil hmem
  obtain ⟨r, hr⟩ := Option.isSome_iff_exists.mp
    (by decide +kernel :
      (record? (stateAfter uploadAcrossRestart 1).metadata (text "a")).isSome = true)
  have hrecord : ((stateAfter uploadAcrossRestart 1).file (text "a")).record = some r := hr
  show Survives ((stateAfter uploadAcrossRestart 1).file (text "a")) old
  unfold Survives
  rw [hrecord]
  refine ⟨r.version, mem_newest_of_forall_le (by decide) (Or.inl rfl) ?_, Or.inl rfl⟩
  rintro j (rfl | hj)
  · exact le_rfl
  · have hfile : ((stateAfter uploadAcrossRestart 1).file (text "a")).versions j = none := hnone j
    rw [hfile] at hj
    exact Bool.noConfusion hj

/-- After the restart `two` is overwritten by `three` without a backup. -/
theorem not_backed_after_restart : ¬ Backed uploadAcrossRestart 3 := by
  intro hbacked
  obtain ⟨k, hk⟩ := hbacked _ rfl (Or.inl rfl) (by decide +kernel) (text "two") (by decide +kernel)
  have hname : StorageName (text "a") := by decide
  obtain ⟨hmem, hbytes⟩ :=
    entry_of_stored (sound_run uploadAcrossRestart_fine 4).store hname hk
  have hentries : (stateAfter uploadAcrossRestart 4).tree.children (text "a" :: versionsPath) =
      [text "v1"] := by decide +kernel
  rw [hentries, List.mem_singleton] at hmem
  rw [hmem] at hbytes
  exact absurd hbytes (by decide +kernel)

end CloudSync
