import CloudSync.Concurrent.StoreOrder
import CloudSync.Concurrent.SystemCalls
import CloudSync.State.Carrying
import CloudSync.State.Deeds

/-!
# Where the bytes of a file come from

Any number of workers process tasks, their system calls interleaving in any order and
failing or falling short in any way.  Then contents can be torn: a reader may find an
emptied file, two writers may write over each other, a copy may be made of a file that is
being written.  What cannot happen is that bytes get to a place where nobody has put them.

`bytes_from_uploads`: a byte at some offset of the content of `f`, of one of its versions, or
of what `DOWNLOAD` or `EDIT` of `f` answers with, is at that offset of the data of an
`UPLOAD` or `SAVE` of `f`, or was there when the workers started, or is a zero in a gap.  In
particular nothing of the content of one file ever shows in another.
-/

namespace CloudSync

open CText Calls Calls.Prog Files

variable {ι : Type} {tasks : ι → TaskMessage} {first : World} {f : Bytes}

/-- The byte at an offset of `f` has been put there, or is in a gap. -/
def PutThere (tasks : ι → TaskMessage) (first : World) (f : Bytes) (i : ℕ) (b : UInt8) : Prop :=
  b = 0 ∨
    (∃ j, (tasks j).filename = f ∧
      ((tasks j).operation = .upload ∨ (tasks j).operation = .save) ∧
      (tasks j).data[i]? = some b) ∨
    ∃ p bytes, FilePlace f p ∧ first.tree.bytes? p = some bytes ∧ bytes[i]? = some b

theorem putThere_data {j : ι}
    (hop : (tasks j).operation = .upload ∨ (tasks j).operation = .save) :
    Drawn (PutThere tasks first (tasks j).filename) 0 (tasks j).data := by
  intro i b hb
  rw [Nat.zero_add]
  exact Or.inr (Or.inl ⟨j, rfl, hop, hb⟩)

theorem putThere_first {p : Path} (hp : FilePlace f p) {bytes : Bytes}
    (hbytes : first.tree.bytes? p = some bytes) : Drawn (PutThere tasks first f) 0 bytes := by
  intro i b hb
  rw [Nat.zero_add]
  exact Or.inr (Or.inr ⟨p, bytes, hp, hbytes, hb⟩)

theorem putThere_zero (i : ℕ) : PutThere tasks first f i 0 := Or.inl rfl

/-- Two storage names have no place in common. -/
theorem eq_of_filePlace {g : Bytes} (hf : StorageName f) (hg : StorageName g) {p : Path}
    (hp : FilePlace f p) (hp' : FilePlace g p) : f = g := by
  by_contra hne
  exact separate_storageNames.apart f hf g hg hne p hp hp'

/-! ## The contract of a task -/

/-- What a task may read. -/
def MayRead (tasks : ι → TaskMessage) (first : World) (task : TaskMessage) (bytes : Bytes) : Prop :=
  StorageName task.filename → Drawn (PutThere tasks first task.filename) 0 bytes

/-- The contract of a task, call by call. -/
abbrev taskContract (tasks : ι → TaskMessage) (first : World) (i : ι) :
    Contract WorkerCall Deeds :=
  (deeds (MayRead tasks first (tasks i)) False (tasks i)).also (OwnFile (tasks i))

/-- The contract of a task, step by step. -/
abbrev tracing (tasks : ι → TaskMessage) (first : World) (i : ι) : Contract (WorkerStep ι) Deeds :=
  stepContract ι (taskContract tasks first i)
    (carrying (PutThere tasks first (tasks i).filename) (tasks i).filename)

/-- A task that modifies files has a storage name. -/
abbrev NamesStorage (tasks : ι → TaskMessage) : Prop :=
  ∀ i, (tasks i).operation.modifies = true → StorageName (tasks i).filename

theorem processTask_traced (i : ι) :
    Honours (taskContract tasks first i)
      (Done (MayRead tasks first (tasks i)) False (tasks i)) ⟨false, false⟩
      (processTask (tasks i)) := by
  exact (processTask_honours (fun _ => drawn_nil _ _) False (tasks i)).also
    (processTask_wellKept (tasks i)) fun _ _ _ hc => hc.2

/-- The steps of a call keep the contract. -/
theorem stepsOf_traced (hnames : NamesStorage tasks) (modified : Bytes → Bytes) (i : ι)
    (g : Deeds) {β : Type} (c : WorkerCall β) (hc : (taskContract tasks first i).guar g c) :
    Honours (tracing tasks first i)
      (fun g' answer => g' = (taskContract tasks first i).next g c answer ∧
        (taskContract tasks first i).rely g c answer) g (stepsOf modified i c) := by
  obtain ⟨hguar, hown, hquiet⟩ := hc
  -- a call that changes files is made by an operation that does
  have hname : c.writesContent ≠ none ∨ c.writesVersions ≠ none →
      StorageName (tasks i).filename := by
    intro hwrites
    apply hnames i
    by_contra hop
    rw [Bool.not_eq_true] at hop
    exact hwrites.elim (fun h => h (hquiet hop).1) fun h => h (hquiet hop).2
  refine honours_stepsOf ⟨hguar, hown, hquiet⟩ (fun hfile answer => ?_) fun prog hprog => ?_
  · cases c <;> first | rfl | exact Bool.noConfusion hfile
  · cases fileCall_of_fileProgram hown hprog with
    | saveVersion k => exact saveVersion_conveys (hname (Or.inr (Option.some_ne_none _))) k
    | saveFile data =>
        obtain ⟨rfl, hop⟩ := hguar
        exact saveFile_conveys (hname (Or.inl (Option.some_ne_none _))) (putThere_data hop)
    | readFile => exact readFile_conveys
    | restoreVersion k => exact restoreVersion_conveys (hname (Or.inl (Option.some_ne_none _))) k
    | removeFileFromStorage =>
        exact removeFileFromStorage_conveys (hname (Or.inl (Option.some_ne_none _)))
    | listVersions => exact (listVersions_conveys _ _).bind fun _ => trivial
    | deleteVersion k => exact deleteVersion_conveys (hname (Or.inr (Option.some_ne_none _))) k

/-- The steps of a task keep its contract. -/
theorem taskSteps_traced (hnames : NamesStorage tasks) (modified : Bytes → Bytes) (i : ι) :
    Honours (tracing tasks first i)
      (Done (MayRead tasks first (tasks i)) False (tasks i)) ⟨false, false⟩
      (taskSteps modified i (tasks i)) :=
  (processTask_traced i).expand (stepsOf_traced hnames modified i)

/-! ## What all steps keep -/

/-- All files of storage names hold what has been put there. -/
def Traced (tasks : ι → TaskMessage) (first : World) (m : Machine ι) : Prop :=
  ∀ f, StorageName f → ∀ p, FilePlace f p →
    AllAt (Drawn (PutThere tasks first f) 0) p (m.world.tree, m.files)

theorem traced_first : Traced tasks first ⟨first, OpenFiles.fresh ι⟩ :=
  fun _ _ _ hp => ⟨fun _ hbytes => putThere_first hp hbytes, fun _ => drawn_nil _ _⟩

variable [DecidableEq ι]

/-- A step is answered as the task relies on, and keeps what all files hold. -/
theorem Traced.step {m : Machine ι} (h : Traced tasks first m) {i : ι} {g : Deeds} {β : Type}
    {c : WorkerStep ι β} (hc : (tracing tasks first i).guar g c) (e : Env) :
    (tracing tasks first i).rely g c ((machine ι).exec e c m).1 ∧
      Traced tasks first ((machine ι).exec e c m).2 := by
  cases c with
  | whole c =>
      obtain ⟨hwhole, hguar, hown, hquiet⟩ := hc
      refine ⟨?_, fun f hf p hp => ⟨fun bytes hbytes => ?_, (h f hf p hp).unlinked⟩⟩
      · cases c <;> first | trivial | exact False.elim
      · refine (h f hf p hp).linked bytes ?_
        rw [← hbytes]
        exact (Tree.bytes?_congr (at?_exec_of_whole hwhole e m.world p)).symm
  | sys c =>
      obtain ⟨htarget, hwrites⟩ := hc
      refine ⟨?_, fun f hf p hp => ?_⟩
      · obtain ⟨j, c⟩ := c
        cases c with
        | read path offset count =>
            refine rely_read fun bytes hbytes hname hplace => ?_
            obtain ⟨file, n, hfile, rfl⟩ := (h _ hname _ hplace).read (drawn_nil _ _) hbytes
            exact hfile.readAt offset n
        | _ => exact ⟨possible_execBy j _ (e.conditions 0) (m.world.tree, m.files), trivial⟩
      · -- only the tasks on `f` write there, and they write what may be written
        refine (h f hf p hp).exec (fun hmem => ?_) c.process _
        obtain ⟨hname, hplace⟩ := htarget p hmem
        obtain rfl := eq_of_filePlace hf hname hp hplace
        exact ⟨drawn_nil _ _, fun w hw old hold k =>
          hold.overwrite putThere_zero ((hwrites w hw).take k)⟩

theorem traced_of_steps (hnames : NamesStorage tasks) {modified : Bytes → Bytes}
    {stepping : Stepping ι} (hreach : SteppingReach tasks modified first stepping) :
    Traced tasks first stepping.shared ∧ ∀ i, ∃ g, Honours (tracing tasks first i)
      (Done (MayRead tasks first (tasks i)) False (tasks i)) g (stepping.thread i).prog := by
  obtain ⟨ghosts, htraced, hhonours⟩ := hreach.honours (I := fun _ m => Traced tasks first m)
    (fun ghosts m i e β c hm hc => hm.step hc e) traced_first
    (fun i => taskSteps_traced hnames modified i)
  exact ⟨htraced, fun i => ⟨ghosts i, hhonours i⟩⟩

/-- In every state that the workers reach, in any order of their steps and whatever these
meet, the content of `f`, its versions and its unlinked files hold only bytes that were put
there; and so does what `DOWNLOAD` and `EDIT` answer with. -/
theorem bytes_from_uploads (hnames : NamesStorage tasks) {modified : Bytes → Bytes}
    {stepping : Stepping ι} (hreach : SteppingReach tasks modified first stepping) :
    (∀ f, StorageName f → ∀ p, FilePlace f p → ∀ bytes,
      stepping.shared.world.tree.bytes? p = some bytes →
      ∀ i b, bytes[i]? = some b → PutThere tasks first f i b) ∧
    ∀ j resp, (stepping.thread j).prog = .ret resp → StorageName (tasks j).filename →
      (tasks j).operation = .download ∨ (tasks j).operation = .edit →
      ∀ i b, resp.data[i]? = some b → PutThere tasks first (tasks j).filename i b := by
  obtain ⟨htraced, hhonours⟩ := traced_of_steps hnames hreach
  refine ⟨fun f hf p hp bytes hbytes i b hb => ?_, fun j resp hresp hname hop i b hb => ?_⟩
  · have hplace := (htraced f hf p hp).linked bytes hbytes i b hb
    rwa [Nat.zero_add] at hplace
  · obtain ⟨g, hdone⟩ := hhonours j
    rw [hresp] at hdone
    have hplace := hdone.data hop hname i b hb
    rwa [Nat.zero_add] at hplace

/-- One user uploads `new` as `a`, another downloads `a`. -/
def uploadThenDownload (second : Bool) : TaskMessage :=
  cond second (sampleTask .download 3 roleUser "") (sampleTask .upload 2 roleUser "new")

/-- The upload makes its nine steps, then the download its seven. -/
def oneAfterTheOther : List (Bool × Env) :=
  List.replicate 9 (false, Env.calm 0) ++ List.replicate 7 (true, Env.calm 1)

theorem bytes_from_uploads_download :
    ∃ stepping : Stepping Bool,
      SteppingReach uploadThenDownload (fun _ => []) freshWorld stepping ∧
      ∃ resp, (stepping.thread true).prog = .ret resp ∧ resp.data = text "new" ∧
        ∀ i b, resp.data[i]? = some b →
          PutThere uploadThenDownload freshWorld (text "a") i b := by
  have hreach := steppingReach_run uploadThenDownload (fun _ => []) freshWorld oneAfterTheOther
  have hresp : ∃ resp, (((Stepping.start uploadThenDownload (fun _ => []) freshWorld).runSchedule
      (machine Bool) (fun _ => Monitor.silent _) oneAfterTheOther).thread true).prog =
        .ret resp ∧ resp.data = text "new" := ⟨_, rfl, rfl⟩
  obtain ⟨resp, hdone, hdata⟩ := hresp
  refine ⟨_, hreach, resp, hdone, hdata, ?_⟩
  exact (bytes_from_uploads (by decide) hreach).2 true resp hdone (by decide) (Or.inl rfl)

end CloudSync
