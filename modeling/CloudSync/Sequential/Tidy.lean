import CloudSync.Sequential.Spec

/-!
# The three stores stay in step

`FileState.Move` lists the ways in which a task can change its file, whatever the
operation.  A file is `Tidy` when its record, its content and its versions agree;
every move keeps that.  `Move.version_cases` is what the history of a file is
made of: a version number stands for one content.
-/

namespace CloudSync

open CText

namespace FileState

/-- The same version and size; the lock may be another. -/
def SameVersion (r r' : FileMetadata) : Prop := r'.version = r.version ∧ r'.fileSize = r.fileSize

/-- What a task can do to its file. -/
inductive Move (s : FileState) : FileState → Prop
  | stay : Move s s
  | relock {r r' : FileMetadata} (hr : s.record = some r) (hsame : SameVersion r r') :
      Move s { s with record := some r' }
  | create {r' : FileMetadata} {data : Bytes} (hr : s.record = none) (hversion : r'.version = 1)
      (hsize : r'.fileSize = data.length) :
      Move s { s with record := some r', content := some data }
  | vanish : Move s gone
  | backup {r : FileMetadata} (hr : s.record = some r) : Move s (s.backup r)
  | commit {r r' : FileMetadata} {data : Bytes} (hr : s.record = some r)
      (hversion : r'.version = int32 (r.version + 1)) (hsize : r'.fileSize = data.length) :
      Move s ⟨some r', some data, (s.backup r).versions⟩
  | forget (k : ℤ) : Move s { s with versions := Function.update s.versions k none }

theorem sameVersion_of_relocked {r r' : FileMetadata} (h : r.Relocked r') : SameVersion r r' :=
  ⟨h.version, h.fileSize⟩

theorem SameVersion.trans {r₁ r₂ r₃ : FileMetadata} (h : SameVersion r₁ r₂)
    (h' : SameVersion r₂ r₃) : SameVersion r₁ r₃ :=
  ⟨h'.1.trans h.1, h'.2.trans h.2⟩

variable {task : TaskMessage} {clock : Clock} {slot : Option FileMetadata} {s s' : FileState}

/-! ## Every task moves its file -/

theorem upload_move : Move s (upload task clock slot s).2 := by
  unfold upload
  split
  · next hr =>
    split
    · exact .vanish
    · exact .create hr rfl rfl
  · next r hr =>
    have hsame := sameVersion_of_relocked (r.relocked_checked clock.check)
    dsimp only
    split
    · exact .relock hr hsame
    · split
      · exact .relock hr hsame
      · simp only [FileState.commit, FileState.backup, hsame.1]
        exact .commit hr (congrArg (fun v => int32 (v + 1)) hsame.1) rfl

theorem delete_move : Move s (delete task s).2 := by
  unfold delete
  split
  · exact .stay
  · split
    · exact .stay
    · split
      · exact .stay
      · split
        · exact .stay
        · exact .vanish

theorem edit_move : Move s (edit task clock s).2 := by
  unfold edit
  split
  · exact .stay
  · next r hr =>
    have hacquired := sameVersion_of_relocked
      (r.relocked_acquired task.userId task.username clock.acquire)
    split
    · exact .stay
    · split
      · dsimp only
        split
        · exact .relock hr (hacquired.trans (sameVersion_of_relocked
            (FileMetadata.relocked_releasedBy _ _)))
        · exact .relock hr hacquired
      · exact .relock hr (sameVersion_of_relocked (r.relocked_checked _))

theorem save_move : Move s (save task clock s).2 := by
  unfold save
  split
  · exact .stay
  · split
    · exact .stay
    · next r hr =>
      split
      · exact .stay
      · have hsame := sameVersion_of_relocked
          ((r.bumped task.dataSize clock.write).relocked_releasedBy task.userId)
        exact .commit hr hsame.1 hsame.2

theorem unlock_move : Move s (unlock task s).2 := by
  unfold unlock
  split
  · exact .stay
  · next r hr =>
    split
    · exact .stay
    · exact .relock hr (sameVersion_of_relocked (r.relocked_releasedBy _))

theorem rollback_move : Move s (rollback task clock s).2 := by
  unfold rollback
  split
  · exact .stay
  · next r hr =>
    split
    · exact .stay
    · split
      · exact .stay
      · split
        · exact .backup hr
        · exact .commit hr rfl rfl

theorem delversion_move : Move s (delversion task s).2 := by
  unfold delversion
  split
  · exact .stay
  · split
    · exact .stay
    · split
      · exact .stay
      · exact .forget _

theorem serve_move : Move s (serve task clock slot s).2 := by
  unfold serve
  split
  · exact upload_move
  · unfold download
    split <;> exact .stay
  · exact delete_move
  · exact edit_move
  · exact save_move
  · exact unlock_move
  · exact rollback_move
  · exact delversion_move
  all_goals exact .stay

/-! ## Tidy files -/

/-- The record, the content and the versions agree. -/
structure Tidy (s : FileState) : Prop where
  stored : s.record.isSome = s.content.isSome
  size : ∀ r ∈ s.record, ∀ bytes ∈ s.content, r.fileSize = bytes.length
  inactive : s.record = none → ∀ k, s.versions k = none
  version : ∀ r ∈ s.record, 1 ≤ r.version ∧ r.version < 2 ^ 31
  number : ∀ r ∈ s.record, ∀ k, (s.versions k).isSome → 1 ≤ k ∧ k ≤ r.version
  few : {k | (s.versions k).isSome}.encard ≤ maxVersions

theorem Tidy.inBounds (h : s.Tidy) : s.InBounds where
  version := fun r hr => ⟨by have := h.version r hr; omega, (h.version r hr).2⟩
  few := h.few.trans (by norm_num [maxVersions])

theorem tidy_gone : gone.Tidy where
  stored := rfl
  size := fun _ h => absurd h (Option.not_mem_none _)
  inactive := fun _ _ => rfl
  version := fun _ h => absurd h (Option.not_mem_none _)
  number := fun _ h => absurd h (Option.not_mem_none _)
  few := by simp [gone]

/-- A file that is not active is gone. -/
theorem Tidy.eq_gone (h : s.Tidy) (hnone : s.record = none) : s = gone := by
  have hcontent : s.content = none := by
    rw [← Option.not_isSome_iff_eq_none, ← h.stored, hnone]
    exact Bool.false_ne_true
  ext1
  · exact hnone
  · exact hcontent
  · exact funext (h.inactive hnone)

/-- A file that comes into being has no versions. -/
theorem Move.versions_of_gone (hmove : Move gone s') (k : ℤ) : s'.versions k = none := by
  cases hmove with
  | stay => rfl
  | vanish => rfl
  | create => rfl
  | backup hr => exact absurd hr (by simp [gone])
  | relock hr => exact absurd hr (by simp [gone])
  | commit hr => exact absurd hr (by simp [gone])
  | forget j =>
      by_cases hjk : k = j
      · exact hjk ▸ Function.update_self ..
      · exact Function.update_of_ne hjk ..

/-- A version number goes up by one while it is far from the largest `int`. -/
theorem int32_succ {v : ℤ} (hlow : 1 ≤ v) (hhigh : v < 2 ^ 31 - 1) : int32 (v + 1) = v + 1 :=
  int32_of_range ⟨by omega, by omega⟩

theorem Tidy.backup (h : s.Tidy) {r : FileMetadata} (hr : s.record = some r) :
    (s.backup r).Tidy where
  stored := h.stored
  size := h.size
  inactive := fun hnone => absurd (hnone.symm.trans hr) (by simp)
  version := h.version
  number := by
    intro r' hr' k hk
    obtain rfl := Option.some.inj (hr.symm.trans hr')
    obtain ⟨bytes, hbytes⟩ := Option.isSome_iff_exists.mp hk
    rcases of_backedUp hbytes with hold | ⟨rfl, -⟩
    · exact h.number r hr k (Option.isSome_iff_exists.mpr ⟨bytes, hold⟩)
    · exact ⟨(h.version r hr).1, le_rfl⟩
  few := encard_backedUp_le h.few

/-- Every move keeps a file tidy. -/
theorem Move.tidy (hmove : Move s s') (h : s.Tidy) (hbound : ∀ r ∈ s.record, r.version < 2 ^ 31 - 1) :
    s'.Tidy := by
  cases hmove with
  | stay => exact h
  | vanish => exact tidy_gone
  | backup hr => exact h.backup hr
  | @relock r r' hr hsame =>
      refine ⟨?_, ?_, fun hnone => absurd hnone (by simp), ?_, ?_, h.few⟩
      · rw [← h.stored, hr]
        rfl
      · intro r₁ hr₁ bytes hbytes
        obtain rfl := Option.some.inj hr₁
        exact hsame.2.trans (h.size r hr bytes hbytes)
      · intro r₁ hr₁
        obtain rfl := Option.some.inj hr₁
        rw [hsame.1]
        exact h.version r hr
      · intro r₁ hr₁
        obtain rfl := Option.some.inj hr₁
        rw [hsame.1]
        exact h.number r hr
  | @create r' data hr hversion hsize =>
      refine ⟨rfl, ?_, fun hnone => absurd hnone (by simp), ?_, ?_, h.few⟩
      · intro r₁ hr₁ bytes hbytes
        obtain rfl := Option.some.inj hr₁
        obtain rfl := Option.some.inj hbytes
        exact hsize
      · intro r₁ hr₁
        obtain rfl := Option.some.inj hr₁
        rw [hversion]
        norm_num
      · intro _ _ k hk
        rw [h.inactive hr k] at hk
        exact Bool.noConfusion hk
  | @commit r r' data hr hversion hsize =>
      have hbackup := h.backup hr
      have hone := (h.version r hr).1
      have hhigh := hbound r hr
      rw [int32_succ hone hhigh] at hversion
      refine ⟨rfl, ?_, fun hnone => absurd hnone (by simp), ?_, ?_, hbackup.few⟩
      · intro r₁ hr₁ bytes hbytes
        obtain rfl := Option.some.inj hr₁
        obtain rfl := Option.some.inj hbytes
        exact hsize
      · intro r₁ hr₁
        obtain rfl := Option.some.inj hr₁
        omega
      · intro r₁ hr₁ k hk
        obtain rfl := Option.some.inj hr₁
        have hnumber := hbackup.number r hr k hk
        omega
  | forget k =>
      have hsub : ∀ j, (Function.update s.versions k none j).isSome → (s.versions j).isSome := by
        intro j hj
        by_cases hjk : j = k
        · rw [hjk, Function.update_self] at hj
          exact Bool.noConfusion hj
        · rwa [Function.update_of_ne hjk] at hj
      refine ⟨h.stored, h.size, fun hnone j => ?_, h.version, fun r hr j hj => ?_, ?_⟩
      · by_contra hj
        have hsome := hsub j (Option.isSome_iff_ne_none.mpr hj)
        rw [h.inactive hnone j] at hsome
        exact Bool.noConfusion hsome
      · exact h.number r hr j (hsub j hj)
      · exact (Set.encard_le_encard hsub).trans h.few

/-- A version number stands for one content: while it stays, the content does,
and a version that appears is a copy of the content. -/
theorem Move.version_cases (hmove : Move s s') (h : s.Tidy)
    (hbound : ∀ r ∈ s.record, r.version < 2 ^ 31 - 1) {r r' : FileMetadata}
    (hr : s.record = some r) (hr' : s'.record = some r') :
    (r'.version = r.version ∧ s'.content = s.content ∨ r'.version = r.version + 1) ∧
      ∀ k bytes, s'.versions k = some bytes →
        s.versions k = some bytes ∨ k = r.version ∧ s.content = some bytes := by
  cases hmove with
  | stay =>
      obtain rfl := Option.some.inj (hr.symm.trans hr')
      exact ⟨Or.inl ⟨rfl, rfl⟩, fun _ _ => Or.inl⟩
  | vanish => exact absurd hr' (by simp [gone])
  | backup hr₁ =>
      obtain rfl := Option.some.inj (hr.symm.trans hr₁)
      obtain rfl := Option.some.inj (hr.symm.trans hr')
      exact ⟨Or.inl ⟨rfl, rfl⟩, fun _ _ hbytes => of_backedUp hbytes⟩
  | relock hr₁ hsame =>
      obtain rfl := Option.some.inj (hr.symm.trans hr₁)
      obtain rfl := Option.some.inj hr'
      exact ⟨Or.inl ⟨hsame.1, rfl⟩, fun _ _ => Or.inl⟩
  | create hnone => exact absurd (hnone.symm.trans hr) (by simp)
  | commit hr₁ hversion =>
      obtain rfl := Option.some.inj (hr.symm.trans hr₁)
      obtain rfl := Option.some.inj hr'
      rw [int32_succ (h.version r hr).1 (hbound r hr)] at hversion
      exact ⟨Or.inr hversion, fun _ _ hbytes => of_backedUp hbytes⟩
  | forget k =>
      obtain rfl := Option.some.inj (hr.symm.trans hr')
      refine ⟨Or.inl ⟨rfl, rfl⟩, fun j bytes hbytes => Or.inl ?_⟩
      dsimp only at hbytes
      by_cases hjk : j = k
      · rw [hjk, Function.update_self] at hbytes
        exact absurd hbytes (by simp)
      · rwa [Function.update_of_ne hjk] at hbytes

/-! ## Overwriting -/

/-- The operations that replace the content of an existing file. -/
def Overwrites (operation : Operation) : Prop :=
  operation = .upload ∨ operation = .save ∨ operation = .rollback

/-- After an overwrite that succeeds the version has gone up, the versions are those after the
backup, and the content is what the task brings, or a version that the backup has left. -/
theorem serve_overwritten (hop : Overwrites task.operation) {r : FileMetadata}
    (hr : s.record = some r) (hsuccess : (serve task clock slot s).1 = .success) :
    (∃ r', (serve task clock slot s).2.record = some r' ∧ r'.version = int32 (r.version + 1)) ∧
      (serve task clock slot s).2.versions = (s.backup r).versions ∧
      ∃ bytes, (serve task clock slot s).2.content = some bytes ∧
        (task.operation ≠ .rollback → bytes = task.data) ∧
        (task.operation = .rollback → (s.backup r).versions task.targetVersion = some bytes) := by
  rcases hop with hop | hop | hop <;> simp only [serve, hop] at hsuccess ⊢
  · have hsame := sameVersion_of_relocked (r.relocked_checked clock.check)
    simp only [upload, hr] at hsuccess ⊢
    split at hsuccess
    · exact absurd hsuccess (by simp)
    · next hfree =>
      split at hsuccess
      · exact absurd hsuccess (by simp)
      · next hallowed =>
        rw [if_neg hfree, if_neg hallowed]
        refine ⟨⟨_, rfl, ?_⟩, ?_, task.data, rfl, fun _ => rfl, fun h => absurd h (by decide)⟩
        · exact congrArg (fun v => int32 (v + 1)) hsame.1
        · simp only [commit, FileState.backup, hsame.1]
  · simp only [save, hr] at hsuccess ⊢
    split at hsuccess
    · exact absurd hsuccess (by simp)
    · next hrole =>
      split at hsuccess
      · exact absurd hsuccess (by simp)
      · next hholder =>
        rw [if_neg hrole, if_neg hholder]
        have hreleased := (r.bumped task.dataSize clock.write).relocked_releasedBy task.userId
        exact ⟨⟨_, rfl, hreleased.version⟩, rfl, task.data, rfl, fun _ => rfl,
          fun h => absurd h (by decide)⟩
  · simp only [rollback, hr] at hsuccess ⊢
    split at hsuccess
    · exact absurd hsuccess (by simp)
    · next hallowed =>
      split at hsuccess
      · exact absurd hsuccess (by simp)
      · next hfree =>
        rw [if_neg hallowed, if_neg hfree]
        cases hversion : (s.backup r).versions task.targetVersion with
        | none =>
            rw [hversion] at hsuccess
            exact absurd hsuccess (by simp)
        | some bytes => exact ⟨⟨_, rfl, rfl⟩, rfl, bytes, rfl, fun h => absurd rfl h, fun _ => rfl⟩

/-- An overwrite that succeeds backs up the content under its version, which goes up. -/
theorem serve_overwrite (h : s.Tidy) (hop : Overwrites task.operation) {r : FileMetadata}
    (hr : s.record = some r) (hbound : r.version < 2 ^ 31 - 1)
    (hsuccess : (serve task clock slot s).1 = .success) :
    ∃ r', (serve task clock slot s).2.record = some r' ∧ r'.version = r.version + 1 ∧
      (serve task clock slot s).2.versions r.version = s.content := by
  obtain ⟨bytes, hbytes⟩ : ∃ bytes, s.content = some bytes := by
    rw [← Option.isSome_iff_exists, ← h.stored, hr]
    rfl
  have hbackup : (s.backup r).versions r.version = s.content := by
    rw [FileState.backup, hbytes]
    exact backedUp_self fun k hk => (h.number r hr k hk).2
  obtain ⟨⟨r', hr', hversion⟩, hversions, -⟩ := serve_overwritten hop hr hsuccess
  refine ⟨r', hr', ?_, (congrFun hversions r.version).trans hbackup⟩
  rw [hversion, int32_succ (h.version r hr).1 hbound]

end FileState

end CloudSync
