import CloudSync.Concurrent.SystemCalls
import CloudSync.State.Deeds

/-!
# The version number counts the overwrites

Overlapping overwrites of a file may lose backups, and may leave contents that nobody has
uploaded.  The version number is not affected: `add_file_metadata` and
`update_file_metadata` count it up under the semaphore, and each task that overwrites does
so once if it succeeds, and not at all if it fails.

`versions_count_commits`: as long as nobody deletes `f`, its version number is at all times
the one at the start and one more for each task that has overwritten `f`.  These are the
tasks that have answered with success, and some of those that have not answered yet.
Nothing is assumed about the order of the steps, about I/O errors, or about the tasks on
other files.
-/

namespace CloudSync

open CText Calls Calls.Prog Files

/-- The version number of a file; 0 if there is no record. -/
def versionOf (world : World) (f : Bytes) : ℤ :=
  ((record? world.metadata f).map FileMetadata.version).getD 0

/-- The call has counted a version up. -/
def WorkerCall.countsUp : {β : Type} → WorkerCall β → β → Bool
  | _, .addFileMetadata _ _ _ _, result => decide (0 ≤ result)
  | _, .updateFileMetadata _ _, result => decide (0 ≤ result)
  | _, _, _ => false

/-- The file whose record a call removes. -/
def WorkerCall.forgets : {β : Type} → WorkerCall β → Option Bytes
  | _, .removeFileMetadata f => some f
  | _, _ => none

section Call

variable {world : World} {f : Bytes} {β : Type} {c : WorkerCall β}

/-- What a call does to the version number and to the presence of a record. -/
structure Counts (f : Bytes) (c : WorkerCall β) (answer : β) (world world' : World) : Prop where
  version : versionOf world' f =
    if f ∈ c.filename ∧ c.countsUp answer = true then int32 (versionOf world f + 1)
    else versionOf world f
  stays : (record? world.metadata f).isSome = true → (record? world'.metadata f).isSome = true

theorem counts_unchanged {answer : β} {world' : World}
    (hrecord : record? world'.metadata f = record? world.metadata f)
    (hcounts : f ∈ c.filename → c.countsUp answer = false) : Counts f c answer world world' where
  version := by
    unfold versionOf
    rw [hrecord, if_neg]
    rintro ⟨hmem, hup⟩
    rw [hcounts hmem] at hup
    exact Bool.noConfusion hup
  stays := by
    rw [hrecord]
    exact id

/-- Another lock in the record is no other version. -/
theorem counts_relocked {answer : β} {world' : World} {change : FileMetadata → FileMetadata}
    (hchange : ∀ r : FileMetadata, r.Relocked (change r))
    (hrecord : record? world'.metadata f = (record? world.metadata f).map change)
    (hcounts : c.countsUp answer = false) : Counts f c answer world world' where
  version := by
    unfold versionOf
    rw [hrecord, if_neg fun h => Bool.noConfusion (hcounts.symm.trans h.2), Option.map_map]
    congr 2
    funext r
    exact (hchange r).version
  stays := by
    rw [hrecord, Option.isSome_map]
    exact id

/-- A record that gets the next version. -/
theorem counts_bumped {answer : β} {world' : World} {r r' : FileMetadata}
    (hrecord : record? world.metadata f = some r) (hrecord' : record? world'.metadata f = some r')
    (hversion : r'.version = int32 (r.version + 1)) (hmem : f ∈ c.filename)
    (hcounts : c.countsUp answer = true) : Counts f c answer world world' where
  version := by
    unfold versionOf
    rw [hrecord, hrecord', if_pos ⟨hmem, hcounts⟩]
    exact hversion
  stays := fun _ => by rw [hrecord']; rfl

/-- A record that is made. -/
theorem counts_created {answer : β} {world' : World} {r' : FileMetadata}
    (hrecord : record? world.metadata f = none) (hrecord' : record? world'.metadata f = some r')
    (hversion : r'.version = 1) (hmem : f ∈ c.filename) (hcounts : c.countsUp answer = true) :
    Counts f c answer world world' where
  version := by
    unfold versionOf
    rw [hrecord, hrecord', if_pos ⟨hmem, hcounts⟩]
    exact hversion
  stays := fun _ => by rw [hrecord']; rfl

/-- Every call but one that removes the record counts as it answers. -/
theorem counts_exec (hunique : UniqueNames world.metadata)
    (hc : ∀ f ∈ c.filename, f.length < maxFilename) (hforgets : f ∉ c.forgets) (e : Env) :
    Counts f c (worker.exec e c world).1 world (worker.exec e c world).2 := by
  obtain ⟨-, hother, -⟩ := record?_exec e c hunique hc
  by_cases hmem : f ∈ c.changesRecord
  · cases c with
    | addFileMetadata name ownerName ownerId size =>
        obtain rfl : name = f := Option.some.inj hmem
        have hadd : ∀ {r' : FileMetadata},
            (addFileMetadata world.metadata name ownerName ownerId size e.now).1 = 0 ∧
              record? (addFileMetadata world.metadata name ownerName ownerId size e.now).2 =
                Function.update (record? world.metadata) name (some r') ∧
              UniqueNames (addFileMetadata world.metadata name ownerName ownerId size e.now).2 →
            record? (worker.exec e (.addFileMetadata name ownerName ownerId size)
                world).2.metadata name = some r' ∧
              (WorkerCall.addFileMetadata name ownerName ownerId size).countsUp
                (worker.exec e (.addFileMetadata name ownerName ownerId size) world).1 = true := by
          rintro r' ⟨hanswer, htable, -⟩
          exact ⟨(congrFun htable name).trans (Function.update_self ..),
            decide_eq_true (ge_of_eq hanswer)⟩
        cases hr : record? world.metadata name with
        | some r =>
            obtain ⟨hafter, hup⟩ :=
              hadd (record?_addFileMetadata_of_some hunique hr ownerName ownerId size e.now)
            exact counts_bumped hr hafter rfl rfl hup
        | none =>
            cases hempty : emptySlot world.metadata with
            | some i =>
                obtain ⟨hafter, hup⟩ := hadd (record?_addFileMetadata_of_none hunique hr hempty
                  (hc name rfl) ownerName ownerId size e.now)
                exact counts_created hr hafter rfl rfl hup
            | none =>
                have hfull := addFileMetadata_full hr hempty ownerName ownerId size e.now
                refine counts_unchanged ?_ fun _ => decide_eq_false ?_
                · exact congrArg (fun out => record? out.2 name) hfull
                · rw [show (worker.exec e (.addFileMetadata name ownerName ownerId size) world).1 =
                    -1 from congrArg Prod.fst hfull]
                  omega
    | updateFileMetadata name size =>
        obtain rfl : name = f := Option.some.inj hmem
        have hanswer : (worker.exec e (.updateFileMetadata name size) world).1 =
            if (record? world.metadata name).isSome then 0 else -1 :=
          updateFileMetadata_fst name size e.now
        have hafter : record? (worker.exec e (.updateFileMetadata name size) world).2.metadata name =
            (record? world.metadata name).map (·.bumped size e.now) :=
          (congrFun (record?_updateFileMetadata name hunique size e.now).1 name).trans
            (Function.update_self ..)
        cases hr : record? world.metadata name with
        | some r =>
            rw [hr] at hanswer hafter
            exact counts_bumped hr hafter rfl rfl (decide_eq_true (ge_of_eq hanswer))
        | none =>
            rw [hr] at hanswer hafter
            refine counts_unchanged (hafter.trans hr.symm) fun _ => decide_eq_false ?_
            rw [hanswer]
            decide
    | removeFileMetadata name => exact absurd hmem hforgets
    | acquireEditLock name userId username =>
        obtain rfl : name = f := Option.some.inj hmem
        refine counts_relocked (fun r => r.relocked_acquired userId username e.now) ?_ rfl
        exact (congrFun (record?_acquireEditLock name hunique userId username e.now).1 name).trans
          (Function.update_self ..)
    | releaseEditLock name userId =>
        obtain rfl : name = f := Option.some.inj hmem
        refine counts_relocked (fun r => r.relocked_releasedBy userId) ?_ rfl
        exact (congrFun (record?_releaseEditLock name hunique userId).1 name).trans
          (Function.update_self ..)
    | checkEditLock name =>
        obtain rfl : name = f := Option.some.inj hmem
        refine counts_relocked (fun r => r.relocked_checked e.now) ?_ rfl
        exact (congrFun (record?_checkEditLock name hunique e.now).1 name).trans
          (Function.update_self ..)
    | _ => exact absurd hmem (Option.not_mem_none f)
  · refine counts_unchanged (hother f hmem) fun hname => ?_
    cases c <;> first | rfl | exact absurd hname hmem

end Call

/-! ## The contract of a task -/

section Contracts

variable {ι : Type} {tasks : ι → TaskMessage} {f : Bytes}

/-- The task is about its own file, and removes its record only if it deletes it. -/
def OwnRecord (task : TaskMessage) {β : Type} (c : WorkerCall β) : Prop :=
  ∀ f ∈ c.filename, f = task.filename

/-- System calls of which nothing is asked. -/
def anySystemCalls : Contract Sys Unit where
  start := ()
  next := fun _ _ _ => ()
  rely := fun _ _ _ _ => True
  guar := fun _ _ _ => True

theorem honours_any {α : Type} {post : α → Prop} (hpost : ∀ value, post value) (prog : Prog Sys α) :
    Honours anySystemCalls (fun _ value => post value) () prog := by
  induction prog with
  | ret value => exact hpost value
  | call c next ih => exact ⟨trivial, fun answer _ => ih answer⟩

/-- The contract of a task: records of `f` that were found stay. -/
abbrev countContract (f : Bytes) (task : TaskMessage) : Contract WorkerCall Deeds :=
  (deeds (fun _ => True) (task.filename = f) task).also (OwnRecord task)

/-- The contract of a task, step by step. -/
abbrev counting (ι : Type) (f : Bytes) (task : TaskMessage) : Contract (WorkerStep ι) Deeds :=
  stepContract ι (countContract f task) anySystemCalls

/-- The steps of a task keep its contract. -/
theorem taskSteps_counting (f : Bytes) (modified : Bytes → Bytes) (i : ι) (task : TaskMessage) :
    Honours (counting ι f task) (Done (fun _ => True) (task.filename = f) task) ⟨false, false⟩
      (taskSteps modified i task) := by
  have htask : Honours (countContract f task)
      (Done (fun _ => True) (task.filename = f) task) ⟨false, false⟩ (processTask task) :=
    (processTask_honours trivial (task.filename = f) task).also
      (processTask_covered task (standing task).start) fun g β c hc => hc.filename
  refine htask.expand fun g β c hc => honours_stepsOf hc (fun hfile answer => ?_)
    fun prog hprog => honours_any (fun answer => ?_) prog
  · cases c <;> first | rfl | exact Bool.noConfusion hfile
  · cases c <;> first | exact absurd hprog (Option.some_ne_none prog).symm | trivial

end Contracts

/-! ## Counting the tasks that have counted -/

section Counting

variable {ι : Type} [Fintype ι] [DecidableEq ι] {tasks : ι → TaskMessage} {f : Bytes}
  {ghosts : ι → Deeds}

/-- The tasks on `f` that have counted the version up. -/
def counted (tasks : ι → TaskMessage) (f : Bytes) (ghosts : ι → Deeds) : Finset ι :=
  Finset.univ.filter fun i => (tasks i).filename = f ∧ (ghosts i).counted = true

/-- A task that goes on as it was, as far as counting is concerned. -/
theorem counted_update_same {i : ι} {g : Deeds}
    (hg : (tasks i).filename = f → g.counted = (ghosts i).counted) :
    counted tasks f (Function.update ghosts i g) = counted tasks f ghosts := by
  refine Finset.filter_congr fun j _ => ?_
  by_cases hj : j = i
  · subst hj
    rw [Function.update_self]
    exact and_congr_right fun hf => by rw [hg hf]
  · rw [Function.update_of_ne hj]

/-- A task that counts the version up. -/
theorem card_counted_update_new {i : ι} {g : Deeds} (hf : (tasks i).filename = f)
    (hbefore : (ghosts i).counted = false) (hafter : g.counted = true) :
    (counted tasks f (Function.update ghosts i g)).card = (counted tasks f ghosts).card + 1 := by
  have hinsert : counted tasks f (Function.update ghosts i g) =
      insert i (counted tasks f ghosts) := by
    ext j
    simp only [counted, Finset.mem_insert, Finset.mem_filter, Finset.mem_univ, true_and]
    by_cases hj : j = i
    · subst hj
      simp only [Function.update_self, hf, hafter, and_self, true_or]
    · simp only [Function.update_of_ne hj, hj, false_or]
  have hnew : i ∉ counted tasks f ghosts := by
    simp only [counted, Finset.mem_filter, hbefore, Bool.false_eq_true, and_false, not_false_eq_true]
  rw [hinsert, Finset.card_insert_of_notMem hnew]

/-- The version number is that of the first world and one more for each task that has
counted. -/
structure Counted (tasks : ι → TaskMessage) (first : World) (f : Bytes) (ghosts : ι → Deeds)
    (m : Machine ι) : Prop where
  unique : UniqueNames m.world.metadata
  version : versionOf m.world f = int32 (versionOf first f + (counted tasks f ghosts).card)
  found : ∀ i, (tasks i).filename = f → (ghosts i).found = true →
    (record? m.world.metadata f).isSome = true

/-- What a task remembers after a call. -/
theorem counted_next (f : Bytes) (task : TaskMessage) (g : Deeds) {β : Type} (c : WorkerCall β)
    (answer : β) : ((countContract f task).next g c answer).counted =
      (g.counted || c.countsUp answer) := by
  cases c <;> first | rfl | exact (Bool.or_false _).symm

/-- A look-up remembers whether there is a record. -/
theorem found_next {world : World} {task : TaskMessage} {g : Deeds} {β : Type} {c : WorkerCall β}
    (hown : OwnRecord task c) (hfile : task.filename = f)
    (hbefore : g.found = true → (record? world.metadata f).isSome = true) (e : Env)
    (hfound : ((countContract f task).next g c (worker.exec e c world).1).found = true) :
    (record? world.metadata f).isSome = true := by
  cases c with
  | findFileMetadata name =>
      obtain rfl : name = f := (hown name rfl).trans hfile
      have hsome : (findFileMetadata world.metadata name).isSome = true := hfound
      obtain ⟨i, hi⟩ := Option.isSome_iff_exists.mp hsome
      rw [record?_of_findFileMetadata hi]
      rfl
  | _ => exact hbefore hfound

theorem int32_succ_int32 (x : ℤ) : int32 (int32 x + 1) = int32 (x + 1) := Int.bmod_add_bmod

/-- One step. -/
theorem Counted.step {first : World} {m : Machine ι} (h : Counted tasks first f ghosts m)
    (hkept : ∀ i, (tasks i).filename = f → (tasks i).operation ≠ .delete) {i : ι} {β : Type}
    {c : WorkerStep ι β} (hc : (counting ι f (tasks i)).guar (ghosts i) c) (e : Env) :
    (counting ι f (tasks i)).rely (ghosts i) c ((machine ι).exec e c m).1 ∧
      Counted tasks first f (Function.update ghosts i
        ((counting ι f (tasks i)).next (ghosts i) c ((machine ι).exec e c m).1))
        ((machine ι).exec e c m).2 := by
  cases c with
  | sys c =>
      refine ⟨trivial, ?_⟩
      have hsame : Function.update ghosts i ((counting ι f (tasks i)).next (ghosts i) (.sys c)
          ((machine ι).exec e (.sys c) m).1) = ghosts := Function.update_eq_self i ghosts
      rw [hsame]
      exact ⟨h.unique, h.version, h.found⟩
  | whole c =>
      obtain ⟨-, hdeeds, hown⟩ := hc
      have hshort : ∀ name ∈ c.filename, name.length < maxFilename := fun name hname =>
        hown name hname ▸ (tasks i).filename_length
      have hforgets : f ∉ c.forgets := by
        intro hmem
        cases c with
        | removeFileMetadata name =>
            obtain rfl : name = f := Option.some.inj hmem
            exact hkept i (hown name rfl).symm hdeeds
        | _ => exact Option.not_mem_none f hmem
      have hcounts := counts_exec h.unique hshort hforgets e
      refine ⟨?_, (record?_exec e c h.unique hshort).1, ?_, ?_⟩
      · cases c with
        | updateFileMetadata name size =>
            intro hfile hfound
            obtain rfl : name = f := (hown name rfl).trans hfile
            change 0 ≤ (updateFileMetadata m.world.metadata name size e.now).1
            rw [updateFileMetadata_fst, if_pos (h.found i hfile hfound)]
        | _ => trivial
      · change versionOf (worker.exec e c m.world).2 f = _
        rw [hcounts.version, h.version]
        by_cases hup : f ∈ c.filename ∧ c.countsUp (worker.exec e c m.world).1 = true
        · have hfile : (tasks i).filename = f := (hown f hup.1).symm
          have hbefore : (ghosts i).counted = false := by
            cases c with
            | addFileMetadata name ownerName ownerId size => exact hdeeds
            | updateFileMetadata name size => exact hdeeds
            | _ => exact Bool.noConfusion hup.2
          rw [if_pos hup, card_counted_update_new hfile hbefore]
          · rw [int32_succ_int32, Nat.cast_add, Nat.cast_one, add_assoc]
          · change ((countContract f (tasks i)).next (ghosts i) c
              (worker.exec e c m.world).1).counted = true
            rw [counted_next, hup.2, Bool.or_true]
        · rw [if_neg hup, counted_update_same]
          intro hfile
          change ((countContract f (tasks i)).next (ghosts i) c
            (worker.exec e c m.world).1).counted = _
          have hnot : c.countsUp (worker.exec e c m.world).1 = false := by
            rw [← Bool.not_eq_true]
            intro htrue
            refine hup ⟨?_, htrue⟩
            cases c with
            | addFileMetadata name ownerName ownerId size =>
                exact congrArg some ((hown name rfl).trans hfile)
            | updateFileMetadata name size => exact congrArg some ((hown name rfl).trans hfile)
            | _ => exact Bool.noConfusion htrue
          rw [counted_next, hnot, Bool.or_false]
      · intro j hfile hfound
        refine hcounts.stays ?_
        by_cases hj : j = i
        · subst hj
          rw [Function.update_self] at hfound
          exact found_next hown hfile (h.found j hfile) e hfound
        · rw [Function.update_of_ne hj] at hfound
          exact h.found j hfile hfound

/-- The status a worker has answered with; none while it is at work. -/
def statusAnswered : Prog (WorkerStep ι) ResponseMessage → Option Status
  | .ret resp => some resp.status
  | .call _ _ => none

/-- Task `i` has overwritten `f` and said so. -/
structure Overwrote (tasks : ι → TaskMessage) (f : Bytes) (stepping : Stepping ι) (i : ι) :
    Prop where
  file : (tasks i).filename = f
  overwrites : (tasks i).operation.overwrites = true
  success : statusAnswered (stepping.thread i).prog = some .success

/-- In every state that the workers reach, in any order of their steps and whatever these
meet, the version number of a file that no task deletes is the one at the start and one more
for each task of a set: all that have answered that they have overwritten the file, and some
that are still at work. -/
theorem versions_count_commits {first : World} (hunique : UniqueNames first.metadata)
    (hrange : InInt (versionOf first f))
    (hkept : ∀ i, (tasks i).filename = f → (tasks i).operation ≠ .delete)
    {modified : Bytes → Bytes} {stepping : Stepping ι}
    (hreach : SteppingReach tasks modified first stepping) :
    ∃ writers : Finset ι,
      versionOf stepping.shared.world f = int32 (versionOf first f + writers.card) ∧
      (∀ i, Overwrote tasks f stepping i → i ∈ writers) ∧
      ∀ i ∈ writers, (tasks i).filename = f ∧
        (Overwrote tasks f stepping i ∨ statusAnswered (stepping.thread i).prog = none) := by
  have hfirst : Counted tasks first f (fun _ => ⟨false, false⟩) ⟨first, OpenFiles.fresh ι⟩ := by
    refine ⟨hunique, ?_, fun i _ hfound => Bool.noConfusion hfound⟩
    have hnobody : counted tasks f (fun _ => ⟨false, false⟩) = ∅ :=
      Finset.filter_false_of_mem fun i _ h => Bool.noConfusion h.2
    rw [hnobody, Finset.card_empty, Nat.cast_zero, add_zero, int32_of_range hrange]
  obtain ⟨ghosts, hcounted, hhonours⟩ := hreach.honours (I := Counted tasks first f)
    (fun ghosts m i e β c hm hc => Counted.step hm hkept hc e) hfirst
    (fun i => taskSteps_counting f modified i (tasks i))
  refine ⟨counted tasks f ghosts, hcounted.version, fun i hover => ?_, fun i hmem => ?_⟩
  · have hdone := hhonours i
    cases hprog : (stepping.thread i).prog with
    | call c next => exact absurd (hprog ▸ hover.success) (Option.some_ne_none _).symm
    | ret resp =>
        rw [hprog] at hdone
        have hsuccess : resp.status = .success := by
          have := hover.success
          rw [hprog] at this
          exact Option.some.inj this
        refine Finset.mem_filter.mpr ⟨Finset.mem_univ i, hover.file, ?_⟩
        exact (hdone.counted hover.file).mpr ⟨hover.overwrites, hsuccess⟩
  · obtain ⟨-, hfile, hghost⟩ := Finset.mem_filter.mp hmem
    refine ⟨hfile, ?_⟩
    have hdone := hhonours i
    cases hprog : (stepping.thread i).prog with
    | call c next => exact Or.inr rfl
    | ret resp =>
        rw [hprog] at hdone
        obtain ⟨hop, hsuccess⟩ := (hdone.counted hfile).mp hghost
        exact Or.inl ⟨hfile, hop, by rw [hprog]; exact congrArg some hsuccess⟩

end Counting

/-- Both uploads find no record and make no backup; still the version is 2. -/
theorem versions_count_commits_overlap :
    ∃ stepping : Stepping Bool,
      SteppingReach uploadsOfOneUser (fun _ => []) freshWorld stepping ∧
      versionOf stepping.shared.world (text "a") = 2 ∧
      ∃ writers : Finset Bool,
        versionOf stepping.shared.world (text "a") = int32 writers.card ∧
        (∀ i, Overwrote uploadsOfOneUser (text "a") stepping i → i ∈ writers) ∧
        ∀ i ∈ writers, (uploadsOfOneUser i).filename = text "a" ∧
          (Overwrote uploadsOfOneUser (text "a") stepping i ∨
            statusAnswered (stepping.thread i).prog = none) := by
  have hreach := steppingReach_run uploadsOfOneUser (fun _ => []) freshWorld (inTurns 20)
  refine ⟨_, hreach, by decide +kernel, ?_⟩
  have hfirst : versionOf freshWorld (text "a") = 0 := rfl
  have h := versions_count_commits (f := text "a") initMetadata_unique (by rw [hfirst]; decide)
    (by decide) hreach
  rw [hfirst] at h
  simpa only [zero_add] using h

end CloudSync
