import CloudSync.Sequential.Refinement
import CloudSync.Sequential.Tidy

/-!
# Store and history fidelity

A run of tasks moves every file, one task at a time (`serve_moves`), and so keeps
every file tidy (`orderly_run`).  What a stored version holds is a fact about a
sequence of moves alone: a version number stands for one content while the file
stays active (`content_of_version`), so a version that is stored holds the
content the file had under its number (`had_of_stored`).
-/

namespace CloudSync

open CText Files FileState

/-! ## Sequences of moves -/

/-- The file is active from `m` to `n`. -/
def ActiveSince (file : ℕ → FileState) (m n : ℕ) : Prop :=
  ∀ j, m ≤ j → j ≤ n → (file j).record.isSome

/-- In its current lifetime at `n` the file had version `k`, and whenever it had,
its content was `bytes`. -/
structure Had (file : ℕ → FileState) (n : ℕ) (k : ℤ) (bytes : Bytes) : Prop where
  once : ∃ j ≤ n, ActiveSince file j n ∧ ∃ r ∈ (file j).record, r.version = k
  always : ∀ j ≤ n, ActiveSince file j n → ∀ r ∈ (file j).record, r.version = k →
    (file j).content = some bytes

section Moves

variable {file : ℕ → FileState} (hmove : ∀ n, Move (file n) (file (n + 1)))
  (htidy : ∀ n, (file n).Tidy) (hbound : ∀ n, ∀ r ∈ (file n).record, r.version < 2 ^ 31 - 1)

theorem ActiveSince.of_succ {m n : ℕ} (h : ActiveSince file m (n + 1)) : ActiveSince file m n :=
  fun j hmj hjn => h j hmj (Nat.le_succ_of_le hjn)

include hmove htidy hbound

/-- While a file stays active its version does not fall, and its content stays
while its version does. -/
theorem content_of_version {m n : ℕ} (hmn : m ≤ n) (hactive : ActiveSince file m n)
    {r r' : FileMetadata} (hr : (file m).record = some r) (hr' : (file n).record = some r') :
    r.version ≤ r'.version ∧ (r.version = r'.version → (file n).content = (file m).content) := by
  induction n, hmn using Nat.le_induction generalizing r' with
  | base =>
      obtain rfl := Option.some.inj (hr.symm.trans hr')
      exact ⟨le_rfl, fun _ => rfl⟩
  | succ n hmn ih =>
      obtain ⟨q, hq⟩ := Option.isSome_iff_exists.mp (hactive n hmn (Nat.le_succ n))
      obtain ⟨hle, hsame⟩ := ih hactive.of_succ hq
      rcases ((hmove n).version_cases (htidy n) (hbound n) hq hr').1 with ⟨hversion, hcontent⟩ | hnext
      · rw [hversion, hcontent]
        exact ⟨hle, hsame⟩
      · refine ⟨by omega, fun heq => ?_⟩
        omega

/-- A version that is stored holds the content the file had under its number. -/
theorem had_of_stored (hfirst : ∀ k, (file 0).versions k = none) {n : ℕ} {k : ℤ} {bytes : Bytes}
    (hstored : (file n).versions k = some bytes) : Had file n k bytes := by
  induction n generalizing k bytes with
  | zero => exact absurd (hstored.symm.trans (hfirst k)) (by simp)
  | succ n ih =>
      have hactive : (file (n + 1)).record.isSome := by
        rw [Option.isSome_iff_ne_none]
        intro hnone
        exact absurd (hstored.symm.trans ((htidy (n + 1)).inactive hnone k)) (by simp)
      obtain ⟨r', hr'⟩ := Option.isSome_iff_exists.mp hactive
      have hextend : ∀ {j}, ActiveSince file j n → ActiveSince file j (n + 1) := by
        intro j hj i hji hin
        rcases Nat.le_succ_iff.mp hin with hin | rfl
        · exact hj i hji hin
        · exact hactive
      cases hr : (file n).record with
      | none =>
          -- the file was just created, and had no versions
          have hmoved := hmove n
          rw [(htidy n).eq_gone hr] at hmoved
          exact absurd (hstored.symm.trans (hmoved.versions_of_gone k)) (by simp)
      | some r =>
          obtain ⟨hversion, hstored'⟩ := (hmove n).version_cases (htidy n) (hbound n) hr hr'
          -- under number `k` the file had these bytes up to `n`, and had them once
          have hbefore : Had file n k bytes := by
            rcases hstored' k bytes hstored with hold | ⟨rfl, hcontent⟩
            · exact ih hold
            · have hnow : ActiveSince file n n := by
                intro i hni hin
                obtain rfl := le_antisymm hni hin
                rw [hr]
                rfl
              refine ⟨⟨n, le_rfl, hnow, r, hr, rfl⟩, fun j hj hsince q hq hsame => ?_⟩
              exact ((content_of_version hmove htidy hbound hj hsince hq hr).2 hsame).symm.trans
                hcontent
          have hle : k ≤ r.version := by
            rcases hstored' k bytes hstored with hold | ⟨rfl, -⟩
            · exact ((htidy n).number r hr k (Option.isSome_iff_exists.mpr ⟨bytes, hold⟩)).2
            · exact le_rfl
          obtain ⟨j, hj, hsince, q, hq, hqk⟩ := hbefore.once
          refine ⟨⟨j, Nat.le_succ_of_le hj, hextend hsince, q, hq, hqk⟩,
            fun i hi hsince q hq hqk => ?_⟩
          rcases Nat.le_succ_iff.mp hi with hi | rfl
          · exact hbefore.always i hi hsince.of_succ q hq hqk
          · obtain rfl := Option.some.inj (hr'.symm.trans hq)
            rcases hversion with ⟨hkept, hcontent⟩ | hnext
            · rw [hcontent]
              refine hbefore.always n le_rfl (fun i hni hin => ?_) r hr (by omega)
              obtain rfl := le_antisymm hni hin
              rw [hr]
              rfl
            · omega

end Moves

/-! ## Runs of tasks -/

/-- The array, the storage and every file are in order. -/
structure Orderly (world : World) : Prop where
  unique : UniqueNames world.metadata
  store : StoreOk world.tree
  tidy : ∀ f, StorageName f → (world.file f).Tidy

theorem freshWorld_file {f : Bytes} (hf : StorageName f) : freshWorld.file f = gone := by
  ext1
  · change record? initMetadata f = none
    exact record?_initMetadata
  · exact freshWorld_content hf
  · exact funext (freshWorld_storedVersion hf)

theorem freshWorld_orderly : Orderly freshWorld where
  unique := initMetadata_unique
  store := freshWorld_storeOk
  tidy := fun f hf => by
    rw [freshWorld_file hf]
    exact tidy_gone

/-- A task on `f` leaves every other file in the state it was in. -/
theorem At.file_of_ne {world world' : World} {f g : Bytes} {s : FileState}
    (h : At world f s world') (hok : StoreOk world.tree) (hg : StorageName g) (hne : g ≠ f) :
    world'.file g = world.file g := by
  have hother : ∀ p, Place g p → world'.tree.at? p = world.tree.at? p :=
    fun p hp => h.store.other p (hp.ne hne)
  ext1
  · change record? world'.metadata g = record? world.metadata g
    rw [h.record, Function.update_of_ne hne]
  · change content world'.tree g = content world.tree g
    rw [content_eq hg, content_eq hg]
    exact Tree.bytes?_congr (hother _ (Or.inl rfl))
  · funext k
    change storedVersion world'.tree g k = storedVersion world.tree g k
    rw [storedVersion_eq hg (h.store.ok.file g hg), storedVersion_eq hg (hok.file g hg)]
    exact Tree.bytes?_congr (hother _ (Or.inr (Or.inr ⟨_, rfl⟩)))

section Serve

variable {env : ℕ → Env} {task : TaskMessage} {world : World} (hfine : ∀ i, (env i).Fine)
  (hname : StorageName task.filename) (horderly : Orderly world)

include hfine hname horderly

/-- A task moves every file, most of them not at all. -/
theorem serve_moves {f : Bytes} (hf : StorageName f) :
    Move (world.file f) ((serve env task world).2.file f) := by
  obtain ⟨clock, -, -, hat⟩ := serve_refines hfine hname horderly.unique horderly.store
    (horderly.tidy _ hname).inBounds
  by_cases hne : f = task.filename
  · rw [hne, hat.file]
    exact serve_move
  · rw [hat.file_of_ne horderly.store hf hne]
    exact .stay

theorem serve_orderly
    (hbound : ∀ f, StorageName f → ∀ r ∈ (world.file f).record, r.version < 2 ^ 31 - 1) :
    Orderly (serve env task world).2 := by
  obtain ⟨clock, -, -, hat⟩ := serve_refines hfine hname horderly.unique horderly.store
    (horderly.tidy _ hname).inBounds
  exact ⟨hat.unique, hat.store.ok, fun f hf =>
    (serve_moves hfine hname horderly hf).tidy (horderly.tidy f hf) (hbound f hf)⟩

end Serve

/-- What the stores hold about a file after task `n` of a run. -/
structure Faithful (file : ℕ → FileState) (n : ℕ) : Prop where
  stored : (file n).record.isSome ↔ (file n).content.isSome
  size : ∀ r ∈ (file n).record, ∀ bytes ∈ (file n).content, r.fileSize = bytes.length
  inactive : (file n).record = none → ∀ k, (file n).versions k = none
  number : ∀ r ∈ (file n).record, ∀ k, ((file n).versions k).isSome → 1 ≤ k ∧ k ≤ r.version
  had : ∀ k bytes, (file n).versions k = some bytes → Had file n k bytes
  few : {k | ((file n).versions k).isSome}.encard ≤ maxVersions

section Runs

variable {jobs : ℕ → Job} (hfine : ∀ n i, ((jobs n).env i).Fine)
  (hnames : ∀ n, StorageName (jobs n).task.filename)
  (hbound : ∀ n f, StorageName f → ∀ r ∈ ((worldAfter jobs freshWorld n).file f).record,
    r.version < 2 ^ 31 - 1)

include hfine hnames hbound

theorem orderly_run (n : ℕ) : Orderly (worldAfter jobs freshWorld n) := by
  induction n with
  | zero => exact freshWorld_orderly
  | succ n ih => exact serve_orderly (hfine n) (hnames n) ih (hbound n)

theorem faithful_run {f : Bytes} (hf : StorageName f) (n : ℕ) :
    Faithful (fun m => (worldAfter jobs freshWorld m).file f) n := by
  have horderly := orderly_run hfine hnames hbound
  have htidy := fun m => (horderly m).tidy f hf
  have hmove : ∀ m, Move ((worldAfter jobs freshWorld m).file f)
      ((worldAfter jobs freshWorld (m + 1)).file f) :=
    fun m => serve_moves (hfine m) (hnames m) (horderly m) hf
  have hfirst : ∀ k, ((worldAfter jobs freshWorld 0).file f).versions k = none :=
    freshWorld_storedVersion hf
  refine ⟨?_, (htidy n).size, (htidy n).inactive, (htidy n).number, fun k bytes hstored => ?_,
    (htidy n).few⟩
  · rw [(htidy n).stored]
  · exact had_of_stored hmove htidy (fun m => hbound m f hf) hfirst hstored

/-- After every run the three stores agree, every stored version holds what the
file held under its number, and an overwrite has stored what it replaced. -/
theorem store_history_fidelity (n : ℕ) :
    (∀ f, StorageName f → Faithful (fun m => (worldAfter jobs freshWorld m).file f) n) ∧
    (Overwrites (jobs n).task.operation → (response jobs freshWorld n).status = .success →
      ∀ r, record? (worldAfter jobs freshWorld n).metadata (jobs n).task.filename = some r →
        ∃ r' bytes,
          record? (worldAfter jobs freshWorld (n + 1)).metadata (jobs n).task.filename = some r' ∧
          r'.version = r.version + 1 ∧
          content (worldAfter jobs freshWorld n).tree (jobs n).task.filename = some bytes ∧
          storedVersion (worldAfter jobs freshWorld (n + 1)).tree (jobs n).task.filename
            r.version = some bytes) := by
  refine ⟨fun f hf => faithful_run hfine hnames hbound hf n, fun hop hsuccess r hr => ?_⟩
  have horderly := orderly_run hfine hnames hbound n
  have htidy := horderly.tidy _ (hnames n)
  obtain ⟨clock, -, hstatus, hat⟩ := serve_refines (hfine n) (hnames n) horderly.unique
    horderly.store htidy.inBounds
  obtain ⟨r', hr', hversion, hbackup⟩ := serve_overwrite htidy hop hr
    (hbound n _ (hnames n) r hr) (hstatus.symm.trans hsuccess)
  obtain ⟨bytes, hbytes⟩ : ∃ bytes, ((worldAfter jobs freshWorld n).file
      (jobs n).task.filename).content = some bytes := by
    rw [← Option.isSome_iff_exists, ← htidy.stored]
    exact Option.isSome_iff_exists.mpr ⟨r, hr⟩
  refine ⟨r', bytes, hat.record_eq.trans hr', hversion, hbytes, ?_⟩
  exact (congrFun hat.store.versions _).trans (hbackup.trans hbytes)

end Runs

/-- User 2 uploads `a` twice and lists the files from then on. -/
def uploadTwice : ℕ → Job
  | 0 => ⟨fun _ => Env.calm 0, sampleTask .upload 2 roleUser "one"⟩
  | 1 => ⟨fun _ => Env.calm 0, sampleTask .upload 2 roleUser "two"⟩
  | _ => ⟨fun _ => Env.calm 0, sampleTask .list 2 roleUser ""⟩

/-- The second upload has stored what it replaced. -/
theorem store_history_fidelity_uploadTwice :
    ∃ bytes, content (worldAfter uploadTwice freshWorld 1).tree (text "a") = some bytes ∧
      storedVersion (worldAfter uploadTwice freshWorld 2).tree (text "a") 1 = some bytes := by
  have hfine : ∀ n i, ((uploadTwice n).env i).Fine := by
    rintro (_ | _ | n) i <;> exact Env.calm_fine 0
  have hnames : ∀ n, StorageName (uploadTwice n).task.filename := by
    rintro (_ | _ | n) <;> exact (by decide : StorageName (text "a"))
  have hlater : ∀ n, worldAfter uploadTwice freshWorld (n + 2) =
      worldAfter uploadTwice freshWorld 2 := by
    intro n
    induction n with
    | zero => rfl
    | succ n ih => exact ih
  have hsmall : ∀ n < 3, (record? (worldAfter uploadTwice freshWorld n).metadata (text "a")).all
      (fun r => decide (r.version < 2 ^ 31 - 1)) = true := by
    intro n hn
    interval_cases n <;> decide +kernel
  have hother : ∀ n < 3, ∀ f, f ≠ text "a" →
      record? (worldAfter uploadTwice freshWorld n).metadata f = none := by
    intro n hn f hf
    have hunique : ∀ m, UniqueNames (worldAfter uploadTwice freshWorld m).metadata :=
      worldAfter_unique uploadTwice initMetadata_unique
    have hzero : record? freshWorld.metadata f = none := record?_initMetadata
    have hfirst : f ≠ (uploadTwice 0).task.filename := hf
    have hsecond : f ≠ (uploadTwice 1).task.filename := hf
    have hone := (serve_record?_of_ne (uploadTwice 0).env (hunique 0) hfirst).trans hzero
    have htwo := (serve_record?_of_ne (uploadTwice 1).env (hunique 1) hsecond).trans hone
    interval_cases n
    exacts [hzero, hone, htwo]
  have hbound : ∀ n f, StorageName f →
      ∀ r ∈ ((worldAfter uploadTwice freshWorld n).file f).record, r.version < 2 ^ 31 - 1 := by
    intro n f _ r hr
    obtain ⟨m, hm, hsame⟩ : ∃ m < 3, worldAfter uploadTwice freshWorld n =
        worldAfter uploadTwice freshWorld m := by
      rcases n with _ | _ | n
      exacts [⟨0, by decide, rfl⟩, ⟨1, by decide, rfl⟩, ⟨2, by decide, hlater n⟩]
    rw [hsame] at hr
    by_cases hf : f = text "a"
    · subst hf
      exact of_decide_eq_true ((Option.all_eq_true _ _).mp (hsmall m hm) r hr)
    · exact absurd (hr.symm.trans (hother m hm f hf)) (by simp)
  have hsuccess : (response uploadTwice freshWorld 1).status = .success := by decide +kernel
  obtain ⟨r, hr⟩ := Option.isSome_iff_exists.mp (show (record? (worldAfter uploadTwice freshWorld
    1).metadata (text "a")).isSome by decide +kernel)
  have hversion : r.version = 1 := by
    have hone : (record? (worldAfter uploadTwice freshWorld 1).metadata (text "a")).all
        (fun r => decide (r.version = 1)) = true := by decide +kernel
    exact of_decide_eq_true ((Option.all_eq_true _ _).mp hone r hr)
  obtain ⟨-, bytes, -, -, hbytes, hstored⟩ :=
    (store_history_fidelity hfine hnames hbound 1).2 (Or.inl rfl) hsuccess r hr
  exact ⟨bytes, hbytes, hversion ▸ hstored⟩

end CloudSync
