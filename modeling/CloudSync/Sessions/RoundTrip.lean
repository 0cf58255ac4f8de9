import CloudSync.Client
import CloudSync.Sequential.History
import CloudSync.Server
import CloudSync.State.Faults

/-!
# From one client's disk to another's

A file goes through `read_local_file`, a request, a task, `save_file`, and after
some time through `read_file`, a response and `save_local_file`.  Every stage
cuts what is too long, or comes short, without a word: the local file at the end
has the content of the one at the beginning exactly when it fits a request, no
read is cut short, and the file can be created where it belongs
(`roundTrip_iff`).
-/

namespace CloudSync

open CText Calls Calls.Prog Files

variable {f b : Bytes} {world : World} {task : TaskMessage}

/-! ## The server's side -/

/-- An upload that succeeds stores the data of the task. -/
theorem uploadWrite_stored (world : World) :
    wp worker (fun _ => True) (uploadWrite task) (fun resp world' =>
      resp.status = .success → content world'.tree task.filename = some task.data) world := by
  simp only [uploadWrite, perform_bind, wp_call]
  intro env _
  have hsaved := @wp_run _ _ _ _ _ _ _ _ _ (saveFile_stored task.filename task.data world.tree)
    env.conditions fun _ => trivial
  split
  · exact wp_answer fun _ _ _ h => Status.noConfusion h
  · next hresult =>
    have hstored := hsaved (not_lt.mp hresult)
    rw [wp_call]
    intro env' _
    split
    · rw [wp_call]
      intro _ _
      exact wp_answer fun _ _ _ h => Status.noConfusion h
    · apply wp_answer
      intro world' _ htree _
      rw [htree]
      exact hstored

theorem uploadOwned_stored (world : World) :
    wp worker (fun _ => True) (uploadOwned task) (fun resp world' =>
      resp.status = .success → content world'.tree task.filename = some task.data) world := by
  simp only [uploadOwned, perform_bind]
  apply wp_findFileMetadata
  · intro _
    exact uploadWrite_stored world
  · intro i _
    apply wp_notOwner
    · intro _ _
      simp only [if_true, wp_call]
      intro _ _
      exact wp_answer fun _ _ _ h => Status.noConfusion h
    · intro _
      simp only [Bool.false_eq_true, if_false, wp_call]
      intro _ _ _ _
      exact uploadWrite_stored _

theorem upload_stored (env : ℕ → Env) (hop : task.operation = .upload)
    (hsuccess : (serve env task world).1.status = .success) :
    content (serve env task world).2.tree task.filename = some task.data := by
  have hwp : wp worker (fun _ => True) (processTask task) (fun resp world' =>
      resp.status = .success → content world'.tree task.filename = some task.data) world := by
    unfold processTask
    rw [hop]
    simp only [processUpload, perform_bind, wp_call]
    intro e _
    split
    · apply wp_findFileMetadata
      · intro _
        exact uploadOwned_stored _
      · intro i _
        simp only [wp_call]
        intro _ _
        split
        · exact wp_answer fun _ _ _ h => Status.noConfusion h
        · exact uploadOwned_stored _
    · exact uploadOwned_stored _
  exact wp_run hwp (fun _ => trivial) hsuccess

/-- A download that succeeds returns what the server has read of the file. -/
theorem download_read (env : ℕ → Env) (hop : task.operation = .download)
    (hsuccess : (serve env task world).1.status = .success) :
    ∃ bytes, content world.tree task.filename = some bytes ∧
      (serve env task world).1.data =
        bytes.take (((env 1).conditions 2).outcome.limit maxFileSize) := by
  unfold serve processTask at hsuccess ⊢
  rw [hop] at hsuccess ⊢
  simp only [processDownload, perform_bind, run_call] at hsuccess ⊢
  cases hfind : (worker.exec (env 0) (.findFileMetadata task.filename) world).1 with
  | none =>
      rw [hfind] at hsuccess
      exact Status.noConfusion hsuccess
  | some i =>
      rw [hfind] at hsuccess
      simp only [run_call] at hsuccess ⊢
      rcases readFile_run task.filename (env 1).conditions world.tree with
        hread | ⟨bytes, hcontent, hread⟩
      · have hanswer : (worker.exec (env 1) (.readFile task.filename)
            (worker.exec (env 0) (.findFileMetadata task.filename) world).2).1 = (-1, []) :=
          congrArg Prod.fst hread
        rw [hanswer] at hsuccess
        exact Status.noConfusion hsuccess
      · have hanswer : (worker.exec (env 1) (.readFile task.filename)
            (worker.exec (env 0) (.findFileMetadata task.filename) world).2).1 =
              (0, bytes.take (((env 1).conditions 2).outcome.limit maxFileSize)) :=
          congrArg Prod.fst hread
        refine ⟨bytes, hcontent, ?_⟩
        rw [hanswer]
        rfl

/-! ## The client's side -/

/-- A local file is read up to the size of the buffer, or where the read ends. -/
theorem readLocalFile_run {conds : ℕ → Conditions} {home : Tree} {size : ℕ}
    (hlocal : home.bytes? (resolve f) = some b) :
    ((readLocalFile f size).run disk conds home).1 = (-1, []) ∨
      (b.take ((conds 1).outcome.limit size) ≠ [] ∧
        ((readLocalFile f size).run disk conds home).1 =
          (((b.take ((conds 1).outcome.limit size)).length : ℤ),
            b.take ((conds 1).outcome.limit size))) := by
  by_cases hopen : (conds 0).outcome = .fail
  · left
    simp [readLocalFile, disk, hopen]
  · by_cases hread : (conds 1).outcome = .fail
    · left
      simp [readLocalFile, disk, hopen, hlocal, hread]
    · cases hbytes : b.take ((conds 1).outcome.limit size) with
      | nil =>
          left
          simp [readLocalFile, disk, hopen, hlocal, hread, Tree.read, hbytes]
      | cons x rest =>
          right
          constructor
          · simp
          · simp [readLocalFile, disk, hopen, hlocal, hread, Tree.read, hbytes]

/-- A request sent for a file carries what the client has read of it. -/
theorem uploadCommand_run {conds : ℕ → Conditions} {home : Tree} {req : ClientRequest}
    (hlocal : home.bytes? (resolve f) = some b)
    (hreq : ((uploadCommand f).run disk conds home).1 = some req) :
    b.take ((conds 1).outcome.limit maxFileSize) ≠ [] ∧
      req = commandRequest .upload f (b.take ((conds 1).outcome.limit maxFileSize)) := by
  unfold uploadCommand at hreq
  split at hreq
  · exact absurd hreq (by simp)
  · rw [run_bind] at hreq
    have hlocalRead := @readLocalFile_run f b conds home maxFileSize hlocal
    rcases hlocalRead with hread | ⟨hsome, hread⟩
    · rw [hread] at hreq
      exact absurd hreq (by simp)
    · rw [hread] at hreq
      constructor
      · exact hsome
      · exact (Option.some_inj.mp hreq).symm

/-- On a disk that works as much is read as fits the buffer. -/
theorem readLocalFile_fine {home : Tree} (hb : b ≠ []) (hlocal : home.bytes? (resolve f) = some b) :
    ((readLocalFile f maxFileSize).run disk (fun _ => Conditions.fine) home).1 =
      (((b.take maxFileSize).length : ℤ), b.take maxFileSize) := by
  cases hbytes : b.take maxFileSize with
  | nil => exact absurd hbytes (by simp [hb, maxFileSize])
  | cons x rest =>
      simp [readLocalFile, disk, Conditions.fine, hlocal, Tree.read, Outcome.limit, hbytes]

/-- On a disk that works a file that is not empty is sent, cut to the size of a
request. -/
theorem uploadCommand_fine {home : Tree} (hf : f ≠ []) (hb : b ≠ [])
    (hlocal : home.bytes? (resolve f) = some b) :
    ((uploadCommand f).run disk (fun _ => Conditions.fine) home).1 =
      some (commandRequest .upload f b) := by
  have hcut : commandRequest .upload f (b.take maxFileSize) = commandRequest .upload f b := by
    unfold commandRequest
    simp only [List.take_take, min_self]
  unfold uploadCommand
  rw [if_neg hf, run_bind, readLocalFile_fine hb hlocal, ← hcut]
  rfl

/-- The task made of a client's request is about its file and carries its payload. -/
theorem clientTask_command (user : UserInfo) (requestId : ℤ) {operation : Operation}
    (hop : operation = .upload ∨ operation = .download) (hf : f.length < maxFilename)
    (hnul : (0 : UInt8) ∉ f) {data : Bytes} (hdata : data.length ≤ maxFileSize) :
    (clientTask user requestId (commandRequest operation f data)).operation = operation ∧
    (clientTask user requestId (commandRequest operation f data)).filename = f ∧
    (clientTask user requestId (commandRequest operation f data)).data = data := by
  have hcode : Operation.ofCode operation.code = operation := by
    rcases hop with rfl | rfl <;> rfl
  have hname : strncpy (maxFilename - 1) f = f :=
    List.take_of_length_le (Nat.le_sub_one_of_lt hf)
  have hwhole : data.take maxFileSize = data := List.take_of_length_le hdata
  refine ⟨hcode, ?_, ?_⟩
  · show strncpy (maxFilename - 1) (cstr (padTo maxFilename (strncpy (maxFilename - 1) f))) = f
    rw [hname, cstr_padTo hnul, hname]
  · show taskData (commandRequest operation f data) = data
    have hpayload : (padTo maxFileSize data).take data.length = data := List.take_left
    have hsize : (commandRequest operation f data).dataSize = data.length := by
      show (((data.take maxFileSize).length : ℕ) : ℤ) = data.length
      rw [hwhole]
    have hbuffer : (commandRequest operation f data).data = padTo maxFileSize data := by
      show padTo maxFileSize (data.take maxFileSize) = _
      rw [hwhole]
    have hcopy : (if 0 < (data.length : ℤ) ∧ (data.length : ℤ) ≤ maxFileSize then
        (padTo maxFileSize data).take (data.length : ℤ).toNat else []) = data := by
      split
      · exact hpayload
      · next hempty =>
        have hzero : data.length = 0 := by omega
        exact (List.eq_nil_of_length_eq_zero hzero).symm
    have hoperation : Operation.ofCode (commandRequest operation f data).operation = operation :=
      hcode
    unfold taskData
    rw [hoperation, hsize, hbuffer]
    rcases hop with rfl | rfl
    · exact hcopy
    · exact hcopy

/-- The client can open `downloads/<role>/<username>/<f>` for writing once it has
made the directories, and the write is not cut short. -/
def CanSave (conds : ℕ → Conditions) (home : Tree) (role : ℤ) (username f data : Bytes) : Prop :=
  (disk.exec (conds ((makeLocalDirs role username).steps disk conds home))
      (.openTrunc (localPath role username f))
      ((makeLocalDirs role username).run disk conds home).2).1 = true ∧
    written (conds ((makeLocalDirs role username).steps disk conds home + 1)).outcome data = data

/-- What `save_local_file` leaves behind if it says that it has saved something. -/
theorem saveLocalFile_run (conds : ℕ → Conditions) (home : Tree) (role : ℤ)
    (username f data : Bytes) :
    ((saveLocalFile f data username role).run disk conds home).1 = 0 ∧
      ((saveLocalFile f data username role).run disk conds home).2.bytes?
        (resolve (localPath role username f)) = some b ↔
    (disk.exec (conds ((makeLocalDirs role username).steps disk conds home))
      (.openTrunc (localPath role username f))
      ((makeLocalDirs role username).run disk conds home).2).1 = true ∧
    written (conds ((makeLocalDirs role username).steps disk conds home + 1)).outcome data = b := by
  unfold saveLocalFile
  rw [run_bind]
  generalize ((makeLocalDirs role username).run disk conds home).2 = home'
  generalize (makeLocalDirs role username).steps disk conds home = n
  simp only [perform_bind, pure_eq_ret, run_call, Nat.zero_add]
  rcases exec_openTrunc (conds n) (localPath role username f) home' with
    hopen | ⟨hopen, hpath, hempty⟩
  · rw [hopen]
    simp
  · have hwritten := bytes?_exec_write (conds (n + 1)) hpath hempty data
    rw [hopen]
    simp only [Bool.not_true, Bool.false_eq_true, if_false, run_call, run_ret, true_and,
      Nat.zero_add, Nat.add_comm 1 n]
    show (disk.exec _ (.write _ 0 data) _).2.bytes? _ = some b ↔ _
    rw [hwritten, Option.some_inj]

/-! ## End to end -/

@[simp] theorem forward_status (resp : ResponseMessage) : (forward resp).status = resp.status := rfl

/-- A request that `check_permission` lets through is processed. -/
theorem handleRequest_of_permitted (env : ℕ → Env) (user : UserInfo) (requestId : ℤ)
    (req : ClientRequest) (world : World)
    (h : checkPermission user.role (Operation.ofCode req.operation) = true) :
    handleRequest env user requestId req world =
      (forward (serve env (clientTask user requestId req) world).1,
        (serve env (clientTask user requestId req) world).2) := by
  unfold handleRequest
  dsimp only
  rw [if_pos h]

/-- A request answered with success has been processed. -/
theorem handleRequest_of_success {env : ℕ → Env} {user : UserInfo} {requestId : ℤ}
    {req : ClientRequest}
    (h : (handleRequest env user requestId req world).1.status = .success) :
    handleRequest env user requestId req world =
      (forward (serve env (clientTask user requestId req) world).1,
        (serve env (clientTask user requestId req) world).2) := by
  apply handleRequest_of_permitted
  by_contra hdenied
  unfold handleRequest at h
  dsimp only at h
  rw [if_neg hdenied] at h
  exact Status.noConfusion h

/-- The client has saved the downloaded file, and its content is exactly `b`. -/
def SavedExactly (conds : ℕ → Conditions) (home : Tree) (user : UserInfo) (f : Bytes)
    (resp : ServerResponse) (b : Bytes) : Prop :=
  ((downloadAnswered f user.username user.role resp).run disk conds home).1 = some 0 ∧
    ((downloadAnswered f user.username user.role resp).run disk conds home).2.bytes?
      (resolve (localPath user.role user.username f)) = some b

/-- Nothing is cut off on the way: the file fits a request, neither of the two
reads is cut short, and the client can save it. -/
structure NothingCutOff (sent read : Outcome) (conds : ℕ → Conditions) (home : Tree)
    (user : UserInfo) (f b : Bytes) : Prop where
  fits : b.length ≤ maxFileSize
  sent : b.length ≤ sent.limit b.length
  read : b.length ≤ read.limit b.length
  saved : CanSave conds home user.role user.username f b

theorem le_limit_iff (o : Outcome) (n m : ℕ) : n ≤ o.limit m ↔ n ≤ m ∧ n ≤ o.limit n := by
  cases o with
  | ok => simp [Outcome.limit]
  | fail => simp [Outcome.limit]
  | short k =>
      simp only [Outcome.limit]
      omega

/-- Saving what has arrived leaves the bytes `b` exactly if they have arrived and
can be saved. -/
theorem savedExactly_iff {conds : ℕ → Conditions} {home : Tree} {user : UserInfo}
    {resp : ServerResponse} (hb : b ≠ []) (hsize : resp.dataSize = resp.data.length)
    (harrived : resp.data <+: b) :
    SavedExactly conds home user f resp b ↔
      resp.data = b ∧ CanSave conds home user.role user.username f b := by
  unfold SavedExactly downloadAnswered
  by_cases hnil : resp.data = []
  · have hnone : ¬ resp.dataSize > 0 := by simp [hsize, hnil]
    rw [if_neg hnone]
    apply iff_of_false
    · rintro ⟨hsaved, -⟩
      exact absurd hsaved (by simp)
    · rintro ⟨heq, -⟩
      exact hb (heq.symm.trans hnil)
  · have hsome : resp.dataSize > 0 := by
      rw [hsize]
      exact_mod_cast List.length_pos_iff.mpr hnil
    rw [if_pos hsome, run_bind]
    simp only [pure_eq_ret, run_ret, Option.some_inj]
    rw [saveLocalFile_run]
    unfold CanSave
    constructor
    · rintro ⟨hopen, hwritten⟩
      have hdata : resp.data = b := by
        apply harrived.eq_of_length_le
        rw [← hwritten]
        exact written_length_le _ _
      exact ⟨hdata, hopen, hdata ▸ hwritten⟩
    · rintro ⟨hdata, hopen, hwritten⟩
      rw [hdata]
      exact ⟨hopen, hwritten⟩

section EndToEnd

variable (hf : f.length < maxFilename) (hnul : (0 : UInt8) ∉ f) {conds : ℕ → Conditions}
  {home : Tree} (hlocal : home.bytes? (resolve f) = some b) {req : ClientRequest}
  (hreq : ((uploadCommand f).run disk conds home).1 = some req) {env : ℕ → Env} {user : UserInfo}
  {requestId : ℤ} (hupload : (handleRequest env user requestId req world).1.status = .success)
  {world' : World}
  (hkept : content world'.tree f = content (handleRequest env user requestId req world).2.tree f)
  {env' : ℕ → Env} {user' : UserInfo} {requestId' : ℤ}
  (hdownload : (handleRequest env' user' requestId' (downloadCommand f) world').1.status =
    .success)

include hf hnul hlocal hreq hupload hkept hdownload

/-- What arrives at the downloading client is what both reads have let through. -/
theorem downloaded_data :
    (handleRequest env' user' requestId' (downloadCommand f) world').1.data =
      b.take (min (((env' 1).conditions 2).outcome.limit maxFileSize)
        ((conds 1).outcome.limit maxFileSize)) ∧
    (handleRequest env' user' requestId' (downloadCommand f) world').1.dataSize =
      (handleRequest env' user' requestId' (downloadCommand f) world').1.data.length := by
  obtain ⟨hsent, rfl⟩ := uploadCommand_run hlocal hreq
  have hfits : (b.take ((conds 1).outcome.limit maxFileSize)).length ≤ maxFileSize :=
    (List.length_take_le _ _).trans (Outcome.limit_le _ _)
  -- the upload
  obtain ⟨hop, hname, hdata⟩ := clientTask_command user requestId (Or.inl rfl) hf hnul hfits
  have hdone := handleRequest_of_success hupload
  rw [hdone] at hupload hkept
  have hstored := upload_stored env hop hupload
  rw [hname, hdata] at hstored
  rw [hstored] at hkept
  -- the download
  have hempty : ([] : Bytes).length ≤ maxFileSize := Nat.zero_le _
  obtain ⟨hop', hname', -⟩ := clientTask_command user' requestId' (Or.inr rfl) hf hnul hempty
  have hanswer := handleRequest_of_success hdownload
  rw [hanswer] at hdownload
  obtain ⟨bytes, hbytes, hread⟩ := download_read env' hop' hdownload
  rw [hname', hkept, Option.some_inj] at hbytes
  subst hbytes
  rw [List.take_take] at hread
  rw [hanswer]
  exact ⟨hread, rfl⟩

/-- A file that is uploaded with success and, its content on the server being
unchanged, downloaded with success, is on the downloading client's disk what it
was on the uploading one's, exactly if nothing is cut off on the way. -/
theorem roundTrip_iff (hb : b ≠ []) (conds' : ℕ → Conditions) (home' : Tree) :
    SavedExactly conds' home' user' f
        (handleRequest env' user' requestId' (downloadCommand f) world').1 b ↔
      NothingCutOff (conds 1).outcome ((env' 1).conditions 2).outcome conds' home' user' f b := by
  obtain ⟨harrived, hsize⟩ := downloaded_data hf hnul hlocal hreq hupload hkept hdownload
  rw [savedExactly_iff hb hsize (harrived ▸ List.take_prefix _ _), harrived]
  have hwhole := le_limit_iff (conds 1).outcome b.length maxFileSize
  have hwhole' := le_limit_iff ((env' 1).conditions 2).outcome b.length maxFileSize
  rw [List.take_eq_self_iff, le_min_iff, hwhole, hwhole']
  constructor
  · rintro ⟨⟨⟨hlength, hread⟩, -, hsent⟩, hsaved⟩
    exact ⟨hlength, hsent, hread, hsaved⟩
  · rintro ⟨hlength, hsent, hread, hsaved⟩
    exact ⟨⟨⟨hlength, hread⟩, hlength, hsent⟩, hsaved⟩

end EndToEnd

/-- A client's disk with the file `a` on it. -/
def homeWith (bytes : Bytes) : Tree := Tree.empty.insert (text "a") [] (.file bytes) (by decide)

theorem homeWith_bytes (bytes : Bytes) :
    (homeWith bytes).bytes? (resolve (text "a")) = some bytes := by
  have hpath : resolve (text "a") = [text "a"] := by decide
  rw [hpath]
  exact Tree.bytes?_eq_some.mpr (Tree.at?_insert_self _)

def alice : UserInfo := ⟨2, text "alice", text "pass123", roleUser⟩

/-- Alice uploads `a` from a disk on which it has the content `bytes`. -/
def aliceUploads (bytes : Bytes) : ServerResponse × World :=
  handleRequest (fun _ => Env.calm 0) alice 100 (commandRequest .upload (text "a") bytes)
    freshWorld

/-- Then she downloads it. -/
def aliceDownloads (bytes : Bytes) : ServerResponse × World :=
  handleRequest (fun _ => Env.calm 0) alice 101 (downloadCommand (text "a"))
    (aliceUploads bytes).2

/-- The first upload of all is served, whatever the content. -/
theorem first_upload {env : ℕ → Env} (hfine : ∀ i, (env i).Fine) (hop : task.operation = .upload)
    (hname : StorageName task.filename) :
    (serve env task freshWorld).1.status = .success ∧ ∃ r data, InInt r.version ∧
      At freshWorld task.filename ⟨some r, some data, fun _ => none⟩
        (serve env task freshWorld).2 := by
  have hgone : freshWorld.file task.filename = FileState.gone := freshWorld_file hname
  obtain ⟨i, hslot⟩ :=
    exists_emptySlot (by decide : (activeSlots freshWorld.metadata).card < maxFiles)
  obtain ⟨clock, -, hstatus, hat⟩ := serve_refines hfine hname initMetadata_unique
    freshWorld_storeOk (hgone ▸ FileState.tidy_gone.inBounds)
  rw [hgone, hslot] at hstatus hat
  simp only [FileState.serve, hop, FileState.upload, FileState.gone, Option.map_some] at hstatus hat
  exact ⟨hstatus, _, _, (by decide : InInt 1), hat⟩

/-- And so is a download that follows. -/
theorem next_download {env : ℕ → Env} (hfine : ∀ i, (env i).Fine) (hop : task.operation = .download)
    (hname : StorageName task.filename) {r : FileMetadata} {data : Bytes} (hr : InInt r.version)
    (hat : At freshWorld task.filename ⟨some r, some data, fun _ => none⟩ world) :
    (serve env task world).1.status = .success := by
  have hbounds : (world.file task.filename).InBounds := by
    rw [hat.file]
    constructor
    · rintro r' ⟨⟩
      exact hr
    · simp
  obtain ⟨clock, -, hstatus, -⟩ := serve_refines hfine hname hat.unique hat.store.ok hbounds
  rw [hat.file] at hstatus
  simp only [FileState.serve, hop, FileState.download] at hstatus
  exact hstatus

/-- Both requests are answered with success, whatever the content. -/
theorem alice_served (bytes : Bytes) :
    (aliceUploads bytes).1.status = .success ∧ (aliceDownloads bytes).1.status = .success := by
  have hname : StorageName (text "a") := by decide
  have hupload := handleRequest_of_permitted (fun _ => Env.calm 0) alice 100
    (commandRequest .upload (text "a") bytes) freshWorld rfl
  have hdownload := handleRequest_of_permitted (fun _ => Env.calm 0) alice 101
    (downloadCommand (text "a")) (aliceUploads bytes).2 rfl
  have hafter : (aliceUploads bytes).2 = (serve (fun _ => Env.calm 0)
      (clientTask alice 100 (commandRequest .upload (text "a") bytes)) freshWorld).2 := by
    rw [aliceUploads, hupload]
  obtain ⟨hstatus, r, data, hr, hat⟩ := @first_upload
    (clientTask alice 100 (commandRequest .upload (text "a") bytes)) (fun _ => Env.calm 0)
    (fun _ => Env.calm_fine 0) rfl hname
  rw [← hafter] at hat
  rw [aliceUploads, hupload, aliceDownloads, hdownload, forward_status, forward_status]
  exact ⟨hstatus, next_download (fun _ => Env.calm_fine 0) rfl hname hr hat⟩

/-- She is sent no more than `MAX_FILE_SIZE` bytes of it. -/
theorem aliceDownloads_data {bytes : Bytes} (hnil : bytes ≠ []) :
    ∃ n ≤ maxFileSize, (aliceDownloads bytes).1.data = bytes.take n ∧
      (aliceDownloads bytes).1.dataSize = (aliceDownloads bytes).1.data.length := by
  have hlocal := homeWith_bytes bytes
  have hreq := uploadCommand_fine (by decide) hnil hlocal
  obtain ⟨hupload, hdownload⟩ := alice_served bytes
  unfold aliceDownloads aliceUploads at *
  obtain ⟨hdata, hsize⟩ :=
    downloaded_data (by decide) (by decide) hlocal hreq hupload (Eq.refl _) hdownload
  exact ⟨_, min_le_left _ _, hdata, hsize⟩

theorem not_savedExactly_of_large {bytes : Bytes} (hlarge : maxFileSize < bytes.length) :
    ¬ SavedExactly (fun _ => Conditions.fine) Tree.empty alice (text "a")
      (aliceDownloads bytes).1 bytes := by
  have hnil : bytes ≠ [] := List.ne_nil_of_length_pos (Nat.zero_lt_of_lt hlarge)
  obtain ⟨n, hn, hdata, hsize⟩ := aliceDownloads_data hnil
  rw [savedExactly_iff hnil hsize (hdata ▸ List.take_prefix n bytes), hdata]
  rintro ⟨hwhole, -⟩
  have hlength := List.length_take_le n bytes
  rw [hwhole] at hlength
  omega

theorem roundTrip_small :
    SavedExactly (fun _ => Conditions.fine) Tree.empty alice (text "a")
      (aliceDownloads (text "hello")).1 (text "hello") := by
  have hlocal := homeWith_bytes (text "hello")
  have hreq := uploadCommand_fine (by decide) (by decide) hlocal
  apply (roundTrip_iff (by decide) (by decide) hlocal hreq (by decide +kernel) rfl
    (by decide +kernel) (by decide) (fun _ => Conditions.fine) Tree.empty).mpr
  exact ⟨by decide, by decide, by decide, by decide +kernel, by decide +kernel⟩

/-- A file of 4097 bytes. -/
def largeFile : Bytes := List.replicate (maxFileSize + 1) 55

/-- All of `largeFile` but its last byte comes back, and nobody says so. -/
theorem roundTrip_large :
    ((uploadCommand (text "a")).run disk (fun _ => Conditions.fine) (homeWith largeFile)).1 =
        some (commandRequest .upload (text "a") largeFile) ∧
      (aliceUploads largeFile).1.status = .success ∧
      (aliceDownloads largeFile).1.status = .success ∧
      ¬ SavedExactly (fun _ => Conditions.fine) Tree.empty alice (text "a")
        (aliceDownloads largeFile).1 largeFile := by
  have hnil : largeFile ≠ [] := by simp [largeFile]
  have hlarge : maxFileSize < largeFile.length := by simp [largeFile]
  refine ⟨uploadCommand_fine (by decide) hnil (homeWith_bytes _), (alice_served _).1,
    (alice_served _).2, ?_⟩
  exact not_savedExactly_of_large hlarge

end CloudSync
