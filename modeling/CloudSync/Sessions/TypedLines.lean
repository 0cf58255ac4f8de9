import CloudSync.Sessions.RoundTrip

/-!
# What a typed line makes the client send

The client reads a line in pieces of up to 255 bytes and takes each for a line of
its own, and what does not fit a field of the parsed command is found by the
conversion of the next field.  A line is sent as it was typed exactly when at most
one of its pieces is a complete command, and that piece has the command and the
arguments of the line (`sentAsTyped_iff`).  For a line that is one piece that is:
the filename has at most 63 bytes, and the version is a numeral of an `int`, of
at most 31 bytes (`sentAsTyped_short_iff`).

A turn sends a request only for a complete command (`asks_of_sent`), and for
every complete command if nothing goes wrong (`exists_benign`); the loop inherits
both.
-/

namespace CloudSync

open CText Calls Calls.Prog Files

variable {role : ℤ} {username line piece input : Bytes} {operation : Operation}
  {req : ClientRequest}

/-! ## What a line asks for -/

/-- The commands in upper case and the operations they name. -/
def commandNames : List (Bytes × Operation) :=
  [(text "UPLOAD", .upload), (text "DOWNLOAD", .download), (text "DELETE", .delete),
    (text "LIST", .list), (text "VERSION", .version), (text "EDIT", .edit), (text "SAVE", .save),
    (text "UNLOCK", .unlock), (text "HISTORY", .history), (text "ROLLBACK", .rollback),
    (text "DELVERSION", .delversion), (text "AUDIT", .audit), (text "SIGNOUT", .exit),
    (text "EXIT", .exit), (text "QUIT", .exit)]

/-- The operation a word names, in upper or lower case. -/
def named (typed : Bytes) : Option Operation := commandNames.lookup (upper typed)

def Operation.takesVersion : Operation → Bool
  | .rollback => true
  | .delversion => true
  | _ => false

def Operation.takesFile : Operation → Bool
  | .exit => false
  | .list => false
  | .audit => false
  | _ => true

theorem takesFile_of_takesVersion (h : operation.takesVersion = true) :
    operation.takesFile = true := by
  cases operation <;> first | rfl | exact Bool.noConfusion h

/-- The request has the operation the first word of the line names, the second word as its
filename, and the number written in the third as its version, if the command takes them. -/
def AsTyped (line : Bytes) (req : ClientRequest) : Prop :=
  ∃ operation, named (word 0 line) = some operation ∧ req.operation = operation.code ∧
    (operation.takesFile = true → cstr req.filename = word 1 line) ∧
    (operation.takesVersion = true →
      (word 2 line).length ≤ 31 ∧ numeral? (word 2 line) = some req.dataSize)

/-- Whatever the turns meet, a line makes at most one request, and that is the one typed. -/
def SentAsTyped (role : ℤ) (username line : Bytes) : Prop :=
  ∀ (env : ℕ → InputEnv) (t : Tree),
    (inputLoop role username (fgetsAll 256 (line ++ [10])) env t).1.length ≤ 1 ∧
      ∀ req ∈ (inputLoop role username (fgetsAll 256 (line ++ [10])) env t).1, AsTyped line req

/-! ## What the pieces ask for -/

/-- The pieces in which a line is read, without their ends. -/
def pieces (line : Bytes) : List Bytes := (fgetsAll 256 (line ++ [10])).map inputLine

/-- The pieces up to one that ends the loop. -/
def upToExit : List Bytes → List Bytes
  | [] => []
  | piece :: rest =>
      if named (word 0 piece) = some .exit then [piece] else piece :: upToExit rest

/-- The third argument of a piece: what does not fit of the second goes before the third word. -/
def versionTyped (piece : Bytes) : Bytes :=
  (if (word 1 piece).length ≤ 63 then word 2 piece else (word 1 piece).drop 63).take 31

/-- There can be a file that is not empty at the path. -/
def Readable (path : Bytes) : Prop :=
  ∃ (t : Tree) (bytes : Bytes), bytes ≠ [] ∧ t.bytes? (resolve path) = some bytes

/-- The command has the arguments it needs, and the local file it sends. -/
structure Complete (role : ℤ) (username : Bytes) (operation : Operation)
    (filename arg3 : Bytes) : Prop where
  file : operation.takesFile = true → filename ≠ []
  version : operation.takesVersion = true → arg3 ≠ []
  upload : operation = .upload → Readable filename
  save : operation = .save → Readable (localPath role username filename)

/-- The piece is a complete command for the operation. -/
def Asks (role : ℤ) (username piece : Bytes) (operation : Operation) : Prop :=
  named (word 0 piece) = some operation ∧
    Complete role username operation ((word 1 piece).take 63) (versionTyped piece)

/-- The piece is a complete command. -/
def IsCommand (role : ℤ) (username piece : Bytes) : Prop :=
  ∃ operation, Asks role username piece operation

/-- The command of the piece and the arguments it is given are those of the line. -/
structure Agrees (line piece : Bytes) (operation : Operation) : Prop where
  command : named (word 0 line) = some operation
  file : operation.takesFile = true → (word 1 piece).take 63 = word 1 line
  version : operation.takesVersion = true → (word 2 line).length ≤ 31 ∧
    numeral? (word 2 line) = some (atoi (versionTyped piece))

/-! ## Parsing -/

theorem mem_commandNames {command : Bytes} (h : commandNames.lookup command = some operation) :
    (command, operation) ∈ commandNames := by
  obtain ⟨before, after, hsplit, -⟩ := List.lookup_eq_some_iff.mp h
  rw [hsplit]
  exact List.mem_append_right _ (List.mem_cons_self ..)

theorem upper_length (s : Bytes) : (upper s).length = s.length := List.length_map ..

theorem length_of_named {w : Bytes} (h : named w = some operation) : w.length ≤ 10 := by
  have hshort : ∀ entry ∈ commandNames, entry.1.length ≤ 10 := by decide
  exact upper_length w ▸ hshort _ (mem_commandNames h)

/-- The buffer for the command cuts no command. -/
theorem named_take (w : Bytes) : named (w.take 31) = named w := by
  by_cases hshort : w.length ≤ 31
  · rw [List.take_of_length_le hshort]
  · have hcut : (w.take 31).length = 31 := List.length_take_of_le (by omega)
    have hnone : ∀ {v : Bytes}, 10 < v.length → named v = none := by
      intro v hv
      by_contra hsome
      obtain ⟨operation, hop⟩ := Option.ne_none_iff_exists'.mp hsome
      have := length_of_named hop
      omega
    rw [hnone (by omega), hnone (by omega)]

theorem word_succ (i : ℕ) (s : Bytes) : word (i + 1) s = (words s).tail.getD i [] := by
  rw [word]
  cases words s <;> rfl

theorem parseInput_command (s : Bytes) :
    (parseInput s).command = upper ((word 0 s).take 31) := by
  rw [← scanWord_stored]
  rfl

/-- A command that fits is followed by the other words. -/
theorem words_afterCommand {s : Bytes} (hcommand : (word 0 s).length ≤ 31) :
    words (scanWord 31 s).2 = (words s).tail := by
  rw [words_scanWord, if_pos hcommand, List.nil_append]

theorem parseInput_filename {s : Bytes} (hcommand : (word 0 s).length ≤ 31) :
    (parseInput s).filename = (word 1 s).take 63 := by
  have hnext : word 0 (scanWord 31 s).2 = word 1 s := by
    rw [word, words_afterCommand hcommand, word_succ]
  rw [← hnext, ← scanWord_stored]
  rfl

theorem parseInput_arg3 {s : Bytes} (hcommand : (word 0 s).length ≤ 31) :
    (parseInput s).arg3 = versionTyped s := by
  have hnext : word 0 (scanWord 31 s).2 = word 1 s := by
    rw [word, words_afterCommand hcommand, word_succ]
  have hlast : word 0 (scanWord 63 (scanWord 31 s).2).2 =
      if (word 1 s).length ≤ 63 then word 2 s else (word 1 s).drop 63 := by
    rw [word, words_scanWord, hnext, words_afterCommand hcommand]
    split
    · rw [word]
      rcases words s with _ | ⟨_, _ | ⟨_, _⟩⟩ <;> rfl
    · rfl
  rw [versionTyped, ← hlast, ← scanWord_stored]
  rfl

/-! ## The request of a command -/

/-- What is done for a command that names the operation. -/
def requestFor (role : ℤ) (username : Bytes) (operation : Operation) (filename arg3 : Bytes) :
    Prog Sys (Option ClientRequest) :=
  if operation = .upload then uploadCommand filename
  else if operation = .save then saveCommand role username filename
  else if operation.takesVersion then versionCommand operation filename arg3
  else if operation.takesFile then namedCommand operation filename
  else return some (commandRequest operation [] [])

theorem buildRequest_of_lookup {typed : Typed}
    (h : commandNames.lookup typed.command = some operation) (hexit : operation ≠ .exit) :
    buildRequest role username typed =
      requestFor role username operation typed.filename typed.arg3 := by
  obtain ⟨command, filename, arg3⟩ := typed
  have hmem := mem_commandNames h
  simp only [commandNames, List.mem_cons, List.not_mem_nil, Prod.mk.injEq, or_false] at hmem
  rcases hmem with ⟨rfl, rfl⟩ | ⟨rfl, rfl⟩ | ⟨rfl, rfl⟩ | ⟨rfl, rfl⟩ | ⟨rfl, rfl⟩ | ⟨rfl, rfl⟩ |
    ⟨rfl, rfl⟩ | ⟨rfl, rfl⟩ | ⟨rfl, rfl⟩ | ⟨rfl, rfl⟩ | ⟨rfl, rfl⟩ | ⟨rfl, rfl⟩ | ⟨rfl, rfl⟩ |
    ⟨rfl, rfl⟩ | ⟨rfl, rfl⟩
  all_goals first | rfl | exact absurd rfl hexit

theorem ne_of_lookup_none {command : Bytes} (h : commandNames.lookup command = none)
    (name : Bytes) (hname : (commandNames.lookup name).isSome = true) : command ≠ name := by
  rintro rfl
  rw [h] at hname
  exact Bool.noConfusion hname

theorem buildRequest_of_lookup_none {typed : Typed}
    (h : commandNames.lookup typed.command = none) :
    buildRequest role username typed = return none := by
  have hne := ne_of_lookup_none h
  unfold buildRequest
  simp (disch := decide) only [hne, if_false]

/-- What is read is the content of a file, and not empty. -/
theorem readable_of_read {conds : ℕ → Conditions} {home : Tree} {path : Bytes} {size : ℕ}
    (hread : ¬ ((readLocalFile path size).run disk conds home).1.1 < 0) : Readable path := by
  cases hlocal : home.bytes? (resolve path) with
  | none =>
      have hfailed : ((readLocalFile path size).run disk conds home).1 = (-1, []) := by
        by_cases hopen : (conds 0).outcome = .fail
        · simp [readLocalFile, disk, hopen]
        · simp [readLocalFile, disk, hopen, hlocal]
      rw [hfailed] at hread
      exact absurd (by norm_num) hread
  | some bytes =>
      refine ⟨home, bytes, ?_, hlocal⟩
      rintro rfl
      rcases readLocalFile_run hlocal with hfailed | ⟨hne, -⟩
      · rw [hfailed] at hread
        exact absurd (by norm_num) hread
      · exact absurd List.take_nil hne

/-- The request has the operation and the arguments. -/
structure Carries (operation : Operation) (filename arg3 : Bytes) (req : ClientRequest) :
    Prop where
  code : req.operation = operation.code
  file : operation.takesFile = true →
    req.filename = padTo maxFilename (strncpy (maxFilename - 1) filename)
  version : operation.takesVersion = true → req.dataSize = atoi arg3

theorem uploadCommand_eq (filename : Bytes) :
    uploadCommand filename = fileCommand .upload filename filename := rfl

theorem fileCommand_sent {filename path : Bytes} {conds : ℕ → Conditions} {home : Tree}
    (hreq : ((fileCommand operation filename path).run disk conds home).1 = some req) :
    filename ≠ [] ∧ Readable path ∧ ∃ bytes, req = commandRequest operation filename bytes := by
  unfold fileCommand at hreq
  split at hreq
  · exact absurd hreq (by simp)
  · next hfile =>
    have hread : ¬ ((readLocalFile path maxFileSize).run disk conds home).1.1 < 0 → Readable path :=
      readable_of_read
    rw [run_bind] at hreq
    rcases hresult : ((readLocalFile path maxFileSize).run disk conds home).1 with ⟨size, bytes⟩
    rw [hresult] at hreq hread
    by_cases hsize : size < 0
    · simp [hsize] at hreq
    · simp only [hsize, if_false, pure_eq_ret, run_ret, Option.some.injEq] at hreq
      exact ⟨hfile, hread hsize, bytes, hreq.symm⟩

theorem versionCommand_sent {filename arg3 : Bytes} {conds : ℕ → Conditions} {home : Tree}
    (hreq : ((versionCommand operation filename arg3).run disk conds home).1 = some req) :
    filename ≠ [] ∧ arg3 ≠ [] ∧ req = versionRequest operation filename arg3 := by
  unfold versionCommand at hreq
  split at hreq
  · exact absurd hreq (by simp)
  · next hsome =>
    obtain ⟨hfile, harg⟩ := not_or.mp hsome
    exact ⟨hfile, harg, (Option.some_inj.mp hreq).symm⟩

theorem namedCommand_sent {filename : Bytes} {conds : ℕ → Conditions} {home : Tree}
    (hreq : ((namedCommand operation filename).run disk conds home).1 = some req) :
    filename ≠ [] ∧ req = commandRequest operation filename [] := by
  unfold namedCommand at hreq
  split at hreq
  · exact absurd hreq (by simp)
  · next hfile => exact ⟨hfile, (Option.some_inj.mp hreq).symm⟩

/-- A request is made of a complete command, and carries it out. -/
theorem requestFor_sent {filename arg3 : Bytes} {conds : ℕ → Conditions} {home : Tree}
    (hreq : ((requestFor role username operation filename arg3).run disk conds home).1 =
      some req) :
    Complete role username operation filename arg3 ∧ Carries operation filename arg3 req := by
  unfold requestFor at hreq
  by_cases hupload : operation = .upload
  · subst hupload
    rw [if_pos rfl, uploadCommand_eq] at hreq
    obtain ⟨hfile, hread, bytes, rfl⟩ := fileCommand_sent hreq
    exact ⟨⟨fun _ => hfile, nofun, fun _ => hread, nofun⟩, rfl, fun _ => rfl, nofun⟩
  rw [if_neg hupload] at hreq
  by_cases hsave : operation = .save
  · subst hsave
    obtain ⟨hfile, hread, bytes, rfl⟩ := fileCommand_sent hreq
    exact ⟨⟨fun _ => hfile, nofun, nofun, fun _ => hread⟩, rfl, fun _ => rfl, nofun⟩
  rw [if_neg hsave] at hreq
  by_cases hversion : operation.takesVersion = true
  · rw [if_pos hversion] at hreq
    obtain ⟨hfile, harg, rfl⟩ := versionCommand_sent hreq
    exact ⟨⟨fun _ => hfile, fun _ => harg, fun h => absurd h hupload, fun h => absurd h hsave⟩,
      rfl, fun _ => rfl, fun _ => rfl⟩
  rw [if_neg hversion] at hreq
  by_cases htakes : operation.takesFile = true
  · rw [if_pos htakes] at hreq
    obtain ⟨hfile, rfl⟩ := namedCommand_sent hreq
    exact ⟨⟨fun _ => hfile, fun h => absurd h hversion, fun h => absurd h hupload,
      fun h => absurd h hsave⟩, rfl, fun _ => rfl, fun h => absurd h hversion⟩
  · rw [if_neg htakes] at hreq
    obtain rfl := Option.some_inj.mp hreq
    exact ⟨⟨fun h => absurd h htakes, fun h => absurd h hversion, fun h => absurd h hupload,
      fun h => absurd h hsave⟩, rfl, fun h => absurd h htakes, fun h => absurd h hversion⟩

/-- A file that is there is sent if its reading meets no failure. -/
theorem fileCommand_fine {filename path : Bytes} (hfile : filename ≠ []) (hread : Readable path) :
    ∃ home, ((fileCommand operation filename path).run disk (fun _ => Conditions.fine)
      home).1.isSome = true := by
  obtain ⟨home, bytes, hne, hlocal⟩ := hread
  refine ⟨home, ?_⟩
  unfold fileCommand
  rw [if_neg hfile, run_bind, readLocalFile_fine hne hlocal]
  rfl

/-- A complete command is sent if the client's files are right and nothing goes wrong. -/
theorem exists_requestFor_sent {filename arg3 : Bytes}
    (h : Complete role username operation filename arg3) :
    ∃ home, ((requestFor role username operation filename arg3).run disk
      (fun _ => Conditions.fine) home).1.isSome = true := by
  unfold requestFor
  by_cases hupload : operation = .upload
  · subst hupload
    rw [if_pos rfl, uploadCommand_eq]
    exact fileCommand_fine (h.file rfl) (h.upload rfl)
  rw [if_neg hupload]
  by_cases hsave : operation = .save
  · subst hsave
    exact fileCommand_fine (h.file rfl) (h.save rfl)
  rw [if_neg hsave]
  refine ⟨Tree.empty, ?_⟩
  by_cases hversion : operation.takesVersion = true
  · rw [if_pos hversion, versionCommand,
      if_neg (not_or.mpr ⟨h.file (takesFile_of_takesVersion hversion), h.version hversion⟩)]
    rfl
  rw [if_neg hversion]
  by_cases htakes : operation.takesFile = true
  · rw [if_pos htakes, namedCommand, if_neg (h.file htakes)]
    rfl
  · rw [if_neg htakes]
    rfl

/-! ## A turn -/

theorem not_mem_inputLine (input : Bytes) : (0 : UInt8) ∉ inputLine input := by
  intro hmem
  have hcstr : (0 : UInt8) ∈ cstr input := (List.takeWhile_sublist _).subset hmem
  have hne := List.mem_takeWhile_imp hcstr
  simp at hne

theorem lookup_command (piece : Bytes) :
    commandNames.lookup (parseInput piece).command = named (word 0 piece) := by
  rw [parseInput_command, ← named_take]
  rfl

theorem named_nil : named (word 0 []) = none := by decide

theorem inputTurn_exit (env : InputEnv) (t : Tree)
    (h : named (word 0 (inputLine input)) = some .exit) :
    inputTurn role username input env t =
      ⟨some (commandRequest .exit [] []), false, env.edits t⟩ := by
  have hmem := mem_commandNames ((lookup_command (inputLine input)).trans h)
  have hexit : (parseInput (inputLine input)).command = text "SIGNOUT" ∨
      (parseInput (inputLine input)).command = text "EXIT" ∨
      (parseInput (inputLine input)).command = text "QUIT" := by
    simpa [commandNames] using hmem
  have hline : inputLine input ≠ [] := by
    intro hnil
    rw [hnil, named_nil] at h
    exact absurd h (by simp)
  have hhelp : (parseInput (inputLine input)).command ≠ text "HELP" := by
    intro hcommand
    rw [hcommand] at hexit
    exact absurd hexit (by decide)
  simp only [inputTurn, if_neg hline, if_neg hhelp, if_pos hexit]

theorem inputTurn_none (env : InputEnv) (t : Tree)
    (h : named (word 0 (inputLine input)) = none) :
    (inputTurn role username input env t).sent = none ∧
      (inputTurn role username input env t).goesOn = true := by
  have hlookup := (lookup_command (inputLine input)).trans h
  have hne := ne_of_lookup_none hlookup
  unfold inputTurn
  dsimp only
  rw [buildRequest_of_lookup_none hlookup]
  simp (disch := decide) only [hne, or_false, if_false]
  split
  · exact ⟨rfl, rfl⟩
  · split <;> exact ⟨rfl, rfl⟩

theorem inputTurn_command (env : InputEnv) (t : Tree)
    (h : named (word 0 (inputLine input)) = some operation) (hexit : operation ≠ .exit) :
    let built := (requestFor role username operation ((word 1 (inputLine input)).take 63)
      (versionTyped (inputLine input))).run disk env.reading (env.edits t)
    (inputTurn role username input env t).sent = built.1 ∧
      (inputTurn role username input env t).goesOn =
        (built.1.isNone || env.response.isSome) := by
  have hlookup := (lookup_command (inputLine input)).trans h
  have hline : inputLine input ≠ [] := by
    intro hnil
    rw [hnil, named_nil] at h
    exact absurd h (by simp)
  -- the commands handled before a request is built name no operation, or the exit
  have hother : ∀ command, commandNames.lookup command ≠ some operation →
      (parseInput (inputLine input)).command ≠ command := by
    rintro _ hne rfl
    exact hne hlookup
  have hexits : ∀ command, commandNames.lookup command = some .exit →
      (parseInput (inputLine input)).command ≠ command := fun command hcommand =>
    hother command fun hsame => hexit (Option.some.inj (hsame.symm.trans hcommand))
  have hhelp := hother (text "HELP") (fun hnone => absurd hnone (by
    rw [show commandNames.lookup (text "HELP") = none by decide]
    simp))
  have hshort : (word 0 (inputLine input)).length ≤ 31 :=
    (length_of_named h).trans (by norm_num)
  intro built
  have hbuilt : (buildRequest role username (parseInput (inputLine input))).run disk env.reading
      (env.edits t) = built := by
    rw [buildRequest_of_lookup hlookup hexit, parseInput_filename hshort, parseInput_arg3 hshort]
  unfold inputTurn
  dsimp only
  rw [if_neg hline, if_neg hhelp, if_neg (not_or.mpr ⟨hexits _ (by decide),
    not_or.mpr ⟨hexits _ (by decide), hexits _ (by decide)⟩⟩), hbuilt]
  cases hreq : built.1 with
  | none => exact ⟨rfl, rfl⟩
  | some req => cases hresp : env.response <;> exact ⟨rfl, rfl⟩

/-- The piece is a complete command, and the request carries it out. -/
def MadeFrom (role : ℤ) (username piece : Bytes) (req : ClientRequest) : Prop :=
  ∃ operation, Asks role username piece operation ∧
    Carries operation ((word 1 piece).take 63) (versionTyped piece) req

/-- A turn sends a request only for a complete command. -/
theorem madeFrom_of_sent {env : InputEnv} {t : Tree}
    (hsent : (inputTurn role username input env t).sent = some req) :
    MadeFrom role username (inputLine input) req := by
  cases hnamed : named (word 0 (inputLine input)) with
  | none =>
      rw [(inputTurn_none env t hnamed).1] at hsent
      exact absurd hsent (by simp)
  | some operation =>
      refine ⟨operation, ?_⟩
      by_cases hexit : operation = .exit
      · subst hexit
        rw [inputTurn_exit env t hnamed] at hsent
        obtain rfl := Option.some.inj hsent
        exact ⟨⟨hnamed, nofun, nofun, nofun, nofun⟩, rfl, nofun, nofun⟩
      · rw [(inputTurn_command env t hnamed hexit).1] at hsent
        obtain ⟨hcomplete, hcarries⟩ := requestFor_sent hsent
        exact ⟨⟨hnamed, hcomplete⟩, hcarries⟩

/-- A turn that finds these local files, in which nothing goes wrong. -/
def benign (home : Tree) : InputEnv where
  edits := fun _ => home
  reading := fun _ => Conditions.fine
  response := some ⟨.success, [], 0, []⟩
  saving := fun _ => Conditions.fine

theorem goesOn_benign (home t : Tree) (hexit : named (word 0 (inputLine input)) ≠ some .exit) :
    (inputTurn role username input (benign home) t).goesOn = true := by
  cases hnamed : named (word 0 (inputLine input)) with
  | none => exact (inputTurn_none (benign home) t hnamed).2
  | some operation =>
      rw [(inputTurn_command (benign home) t hnamed fun h => hexit (h ▸ hnamed)).2]
      exact Bool.or_true _

/-- A complete command is sent if the client's files are right. -/
theorem exists_sent (role : ℤ) (username input : Bytes) : ∃ home, ∀ t operation,
    Asks role username (inputLine input) operation →
      (inputTurn role username input (benign home) t).sent.isSome = true := by
  by_cases hasks : ∃ operation, Asks role username (inputLine input) operation
  · obtain ⟨operation, hnamed, hcomplete⟩ := hasks
    obtain ⟨home, hsent⟩ := exists_requestFor_sent hcomplete
    refine ⟨home, fun t _ _ => ?_⟩
    by_cases hexit : operation = .exit
    · rw [inputTurn_exit _ t (hexit ▸ hnamed)]
      rfl
    · rw [(inputTurn_command (benign home) t hnamed hexit).1]
      exact hsent
  · exact ⟨Tree.empty, fun t operation h => absurd ⟨operation, h⟩ hasks⟩

/-! ## The loop -/

theorem upToExit_subset (ps : List Bytes) : upToExit ps ⊆ ps := by
  induction ps with
  | nil => exact List.Subset.refl _
  | cons piece rest ih =>
      rw [upToExit]
      split
      · exact List.cons_subset_cons piece (List.nil_subset rest)
      · exact List.cons_subset_cons piece ih

theorem inputLoop_exit (rest : List Bytes) (env : ℕ → InputEnv) (t : Tree)
    (hexit : named (word 0 (inputLine input)) = some .exit) :
    (inputLoop role username (input :: rest) env t).1 =
      (inputTurn role username input (env 0) t).sent.toList := by
  unfold inputLoop
  rw [inputTurn_exit (env 0) t hexit]
  rfl

/-- A turn that does not end the loop sends its request before those of the rest. -/
theorem inputLoop_cons (role : ℤ) (username input : Bytes) (rest : List Bytes)
    (env : ℕ → InputEnv) (t : Tree) :
    (inputLoop role username (input :: rest) env t).1 =
      (inputTurn role username input (env 0) t).sent.toList ++
        if (inputTurn role username input (env 0) t).goesOn then
          (inputLoop role username rest (fun i => env (i + 1))
            (inputTurn role username input (env 0) t).tree).1
        else [] := by
  rw [inputLoop]
  dsimp only
  split
  · rfl
  · exact (List.append_nil _).symm

/-- Every request is made from one of the pieces. -/
theorem madeFrom_of_mem {inputs : List Bytes} {env : ℕ → InputEnv} {t : Tree}
    (hreq : req ∈ (inputLoop role username inputs env t).1) :
    ∃ piece ∈ upToExit (inputs.map inputLine), MadeFrom role username piece req := by
  induction inputs generalizing env t with
  | nil => exact absurd hreq List.not_mem_nil
  | cons input rest ih =>
      have hnow : req ∈ (inputTurn role username input (env 0) t).sent.toList →
          MadeFrom role username (inputLine input) req :=
        fun h => madeFrom_of_sent (Option.mem_toList.mp h)
      rw [List.map_cons, upToExit]
      by_cases hexit : named (word 0 (inputLine input)) = some .exit
      · rw [inputLoop_exit rest env t hexit] at hreq
        rw [if_pos hexit]
        exact ⟨_, List.mem_singleton_self _, hnow hreq⟩
      · rw [inputLoop_cons] at hreq
        rw [if_neg hexit]
        rcases List.mem_append.mp hreq with hfirst | hlater
        · exact ⟨_, List.mem_cons_self .., hnow hfirst⟩
        · split at hlater
          · obtain ⟨piece, hpiece, hmade⟩ := ih hlater
            exact ⟨piece, List.mem_cons_of_mem _ hpiece, hmade⟩
          · exact absurd hlater List.not_mem_nil

theorem MadeFrom.isCommand (h : MadeFrom role username piece req) :
    IsCommand role username piece :=
  h.imp fun _ h => h.1

/-- At most one piece, at most one request. -/
theorem length_le_one {inputs : List Bytes}
    (hone : (upToExit (inputs.map inputLine)).Pairwise fun p q =>
      ¬ (IsCommand role username p ∧ IsCommand role username q)) (env : ℕ → InputEnv) (t : Tree) :
    (inputLoop role username inputs env t).1.length ≤ 1 := by
  induction inputs generalizing env t with
  | nil => exact Nat.zero_le 1
  | cons input rest ih =>
      rw [List.map_cons, upToExit] at hone
      by_cases hexit : named (word 0 (inputLine input)) = some .exit
      · rw [inputLoop_exit rest env t hexit]
        exact Option.length_toList_le
      · rw [if_neg hexit] at hone
        obtain ⟨hfirst, hrest⟩ := List.pairwise_cons.mp hone
        rw [inputLoop_cons, List.length_append]
        cases hsent : (inputTurn role username input (env 0) t).sent with
        | none =>
            rw [Option.toList_none, List.length_nil, Nat.zero_add]
            split
            · exact ih hrest _ _
            · exact Nat.zero_le 1
        | some req =>
            have hnone : (inputLoop role username rest (fun i => env (i + 1))
                (inputTurn role username input (env 0) t).tree).1 = [] := by
              refine List.eq_nil_iff_forall_not_mem.mpr fun later hlater => ?_
              obtain ⟨piece, hpiece, hmade⟩ := madeFrom_of_mem hlater
              exact hfirst piece hpiece ⟨(madeFrom_of_sent hsent).isCommand, hmade.isCommand⟩
            rw [hnone, ite_self, Option.toList_some, List.length_nil, List.length_singleton]

/-- If nothing goes wrong, every complete command among the pieces makes a request. -/
theorem exists_all_sent (role : ℤ) (username : Bytes) (inputs : List Bytes) :
    ∃ env : ℕ → InputEnv, ∀ t,
      (∀ piece ∈ upToExit (inputs.map inputLine), IsCommand role username piece →
        ∃ req ∈ (inputLoop role username inputs env t).1, MadeFrom role username piece req) ∧
      ((inputLoop role username inputs env t).1.length ≤ 1 →
        (upToExit (inputs.map inputLine)).Pairwise fun p q =>
          ¬ (IsCommand role username p ∧ IsCommand role username q)) := by
  induction inputs with
  | nil =>
      exact ⟨fun _ => benign Tree.empty, fun t =>
        ⟨fun piece hpiece => absurd hpiece List.not_mem_nil, fun _ => List.Pairwise.nil⟩⟩
  | cons input rest ih =>
      obtain ⟨later, hlater⟩ := ih
      obtain ⟨home, hhome⟩ := exists_sent role username input
      obtain ⟨env, hfirst, hrest⟩ : ∃ env : ℕ → InputEnv,
          env 0 = benign home ∧ (fun i => env (i + 1)) = later :=
        ⟨fun i => i.casesOn (benign home) later, rfl, rfl⟩
      refine ⟨env, fun t => ?_⟩
      have hnow : IsCommand role username (inputLine input) →
          ∃ req, (inputTurn role username input (benign home) t).sent = some req ∧
            MadeFrom role username (inputLine input) req := by
        rintro ⟨operation, hasks⟩
        obtain ⟨req, hreq⟩ := Option.isSome_iff_exists.mp (hhome t operation hasks)
        exact ⟨req, hreq, madeFrom_of_sent hreq⟩
      rw [List.map_cons, upToExit]
      by_cases hexit : named (word 0 (inputLine input)) = some .exit
      · rw [if_pos hexit, inputLoop_exit rest env t hexit, hfirst]
        refine ⟨fun piece hpiece hcommand => ?_, fun _ => List.pairwise_singleton _ _⟩
        obtain rfl := List.mem_singleton.mp hpiece
        obtain ⟨req, hsent, hmade⟩ := hnow hcommand
        exact ⟨req, Option.mem_toList.mpr hsent, hmade⟩
      · rw [if_neg hexit, inputLoop_cons, hfirst, hrest, goesOn_benign home t hexit, if_pos rfl]
        obtain ⟨hall, hone⟩ := hlater (inputTurn role username input (benign home) t).tree
        constructor
        · intro piece hpiece hcommand
          rcases List.mem_cons.mp hpiece with rfl | hpiece
          · obtain ⟨req, hsent, hmade⟩ := hnow hcommand
            exact ⟨req, List.mem_append_left _ (Option.mem_toList.mpr hsent), hmade⟩
          · obtain ⟨req, hreq, hmade⟩ := hall piece hpiece hcommand
            exact ⟨req, List.mem_append_right _ hreq, hmade⟩
        · intro hlength
          rw [List.length_append] at hlength
          refine List.pairwise_cons.mpr ⟨fun piece hpiece hboth => ?_, hone (by omega)⟩
          obtain ⟨req, hsent, -⟩ := hnow hboth.1
          obtain ⟨req', hreq', -⟩ := hall piece hpiece hboth.2
          have hpositive := List.length_pos_of_mem hreq'
          rw [hsent, Option.toList_some, List.length_singleton] at hlength
          omega

/-! ## When a line is sent as it was typed -/

theorem not_mem_piece (hpiece : piece ∈ upToExit (pieces line)) : (0 : UInt8) ∉ piece := by
  obtain ⟨input, -, rfl⟩ := List.mem_map.mp (upToExit_subset _ hpiece)
  exact not_mem_inputLine input

theorem ofCode_of_named {w : Bytes} (h : named w = some operation) :
    Operation.ofCode operation.code = operation := by
  have hcodes : ∀ entry ∈ commandNames, Operation.ofCode entry.2.code = entry.2 := by decide
  exact hcodes _ (mem_commandNames h)

/-- The filename in a request made from a piece. -/
theorem Carries.filename {arg3 : Bytes} (hnul : (0 : UInt8) ∉ piece)
    (hcarries : Carries operation ((word 1 piece).take 63) arg3 req)
    (htakes : operation.takesFile = true) : cstr req.filename = (word 1 piece).take 63 := by
  rw [hcarries.file htakes, strncpy, List.take_take, maxFilename, min_self, cstr_padTo]
  exact fun hmem => hnul (mem_of_mem_word (List.mem_of_mem_take hmem))

theorem asTyped_iff (hnul : (0 : UInt8) ∉ piece) {w : Bytes}
    (hnamed : named w = some operation)
    (hcarries : Carries operation ((word 1 piece).take 63) (versionTyped piece) req) :
    AsTyped line req ↔ Agrees line piece operation := by
  constructor
  · rintro ⟨operation', hline, hcode, hfile, hversion⟩
    obtain rfl : operation = operation' := by
      rw [← ofCode_of_named hnamed, ← hcarries.code, hcode, ofCode_of_named hline]
    refine ⟨hline, fun htakes => ?_, fun htakes => ?_⟩
    · rw [← hfile htakes, hcarries.filename hnul htakes]
    · rw [← hcarries.version htakes]
      exact hversion htakes
  · intro hagrees
    refine ⟨operation, hagrees.command, hcarries.code, fun htakes => ?_, fun htakes => ?_⟩
    · rw [hcarries.filename hnul htakes, hagrees.file htakes]
    · rw [hcarries.version htakes]
      exact hagrees.version htakes

theorem SentAsTyped.one_command (h : SentAsTyped role username line) :
    (upToExit (pieces line)).Pairwise fun p q =>
      ¬ (IsCommand role username p ∧ IsCommand role username q) := by
  obtain ⟨env, henv⟩ := exists_all_sent role username (fgetsAll 256 (line ++ [10]))
  exact (henv Tree.empty).2 (h env Tree.empty).1

theorem SentAsTyped.agrees (h : SentAsTyped role username line)
    (hpiece : piece ∈ upToExit (pieces line)) (hasks : Asks role username piece operation) :
    Agrees line piece operation := by
  obtain ⟨env, henv⟩ := exists_all_sent role username (fgetsAll 256 (line ++ [10]))
  obtain ⟨req, hreq, operation', hasks', hcarries⟩ :=
    (henv Tree.empty).1 piece hpiece ⟨operation, hasks⟩
  obtain rfl : operation = operation' := Option.some.inj (hasks.1.symm.trans hasks'.1)
  exact (asTyped_iff (not_mem_piece hpiece) hasks.1 hcarries).mp ((h env Tree.empty).2 req hreq)

theorem sentAsTyped_of (hone : (upToExit (pieces line)).Pairwise fun p q =>
      ¬ (IsCommand role username p ∧ IsCommand role username q))
    (hagrees : ∀ piece ∈ upToExit (pieces line), ∀ operation,
      Asks role username piece operation → Agrees line piece operation) :
    SentAsTyped role username line := by
  refine fun env t => ⟨length_le_one hone env t, fun req hreq => ?_⟩
  obtain ⟨piece, hpiece, operation, hasks, hcarries⟩ := madeFrom_of_mem hreq
  exact (asTyped_iff (not_mem_piece hpiece) hasks.1 hcarries).mpr
    (hagrees piece hpiece operation hasks)

/-- A line is sent as it was typed exactly when at most one of the pieces it is read in is a
complete command, and that has the command and the arguments of the line. -/
theorem sentAsTyped_iff (role : ℤ) (username line : Bytes) :
    SentAsTyped role username line ↔
      ((upToExit (pieces line)).Pairwise fun p q =>
        ¬ (IsCommand role username p ∧ IsCommand role username q)) ∧
      ∀ piece ∈ upToExit (pieces line), ∀ operation,
        Asks role username piece operation → Agrees line piece operation :=
  ⟨fun h => ⟨h.one_command, fun _ hpiece _ hasks => h.agrees hpiece hasks⟩,
    fun h => sentAsTyped_of h.1 h.2⟩

/-- The name of a file, and one byte more. -/
def longDelete : Bytes := text "DELETE " ++ List.replicate 64 97

/-- The file deleted is the one with the first 63 bytes for its name. -/
theorem deletes_other_file : ¬ SentAsTyped roleUser (text "bob") longDelete := by
  intro h
  have hpiece : longDelete ∈ upToExit (pieces longDelete) := by decide
  have hasks : Asks roleUser (text "bob") longDelete .delete :=
    ⟨by decide, fun _ => by decide, nofun, nofun, nofun⟩
  have hname : (word 1 longDelete).take 63 = word 1 longDelete := (h.agrees hpiece hasks).file rfl
  exact absurd hname (by decide)

/-! ## Lines that are one piece -/

theorem inputLine_of_not_mem (hnul : (0 : UInt8) ∉ line) (hcr : (13 : UInt8) ∉ line)
    (hlf : (10 : UInt8) ∉ line) : inputLine line = line := by
  rw [inputLine, cstr_of_not_mem hnul, List.takeWhile_eq_self_iff]
  intro b hb
  have hne : b ≠ 13 ∧ b ≠ 10 := ⟨fun h => hcr (h ▸ hb), fun h => hlf (h ▸ hb)⟩
  simpa using hne

theorem inputLine_newline (hnul : (0 : UInt8) ∉ line) (hcr : (13 : UInt8) ∉ line)
    (hlf : (10 : UInt8) ∉ line) : inputLine (line ++ [10]) = line := by
  have hnul' : (0 : UInt8) ∉ line ++ [10] := by simp [hnul]
  rw [inputLine, cstr_of_not_mem hnul', List.takeWhile_append_of_pos]
  · simp
  · intro b hb
    have hne : b ≠ 13 ∧ b ≠ 10 := ⟨fun h => hcr (h ▸ hb), fun h => hlf (h ▸ hb)⟩
    simpa using hne

section Short

variable (hnul : (0 : UInt8) ∉ line) (hcr : (13 : UInt8) ∉ line) (hlf : (10 : UInt8) ∉ line)
  (hshort : line.length ≤ 255)

include hnul hcr hlf hshort

theorem pieces_short : pieces line = [line] ∨ pieces line = [line, []] := by
  unfold pieces
  by_cases hfits : line.length + 1 < 256
  · left
    rw [fgetsAll_line hlf hfits, List.map_cons, inputLine_newline hnul hcr hlf]
    rfl
  · right
    have hfull : line.length + 1 = 256 := by omega
    have hne : line ≠ [] := by
      rintro rfl
      simp at hfull
    rw [fgetsAll_full hlf hfull hne, List.map_cons, inputLine_of_not_mem hnul hcr hlf]
    rfl

/-- All that is not empty is the line. -/
theorem upToExit_short : upToExit (pieces line) = [line] ∨ upToExit (pieces line) = [line, []] := by
  rcases pieces_short hnul hcr hlf hshort with hpieces | hpieces <;> rw [hpieces, upToExit]
  · split <;> exact Or.inl rfl
  · split
    · exact Or.inl rfl
    · exact Or.inr rfl

omit hnul hcr hlf hshort in
theorem not_isCommand_nil : ¬ IsCommand role username [] := by
  rintro ⟨operation, hnamed, -⟩
  rw [named_nil] at hnamed
  exact absurd hnamed (by simp)

omit hnul hcr hlf hshort in
/-- A line agrees with itself if its arguments fit. -/
theorem agrees_self_iff (hnamed : named (word 0 line) = some operation) :
    Agrees line line operation ↔
      (operation.takesFile = true → (word 1 line).length ≤ 63) ∧
      (operation.takesVersion = true →
        (word 2 line).length ≤ 31 ∧ ∃ n, InInt n ∧ numeral? (word 2 line) = some n) := by
  constructor
  · intro hagrees
    refine ⟨fun htakes => ?_, fun htakes => ?_⟩
    · rw [← hagrees.file htakes]
      exact List.length_take_le _ _
    · obtain ⟨hfits, hnumeral⟩ := hagrees.version htakes
      exact ⟨hfits, _, atoi_range _, hnumeral⟩
  · rintro ⟨hfile, hversion⟩
    refine ⟨hnamed, fun htakes => List.take_of_length_le (hfile htakes), fun htakes => ?_⟩
    obtain ⟨hfits, n, hn, hnumeral⟩ := hversion htakes
    rw [versionTyped, if_pos (hfile (takesFile_of_takesVersion htakes)),
      List.take_of_length_le hfits, (atoi_numeral_iff hnumeral).mpr hn]
    exact ⟨hfits, hnumeral⟩

/-- A line that is read in one piece is sent as it was typed exactly when the arguments its
command takes fit their fields, and the version is the numeral of an `int`. -/
theorem sentAsTyped_short_iff :
    SentAsTyped role username line ↔ ∀ operation, Asks role username line operation →
      (operation.takesFile = true → (word 1 line).length ≤ 63) ∧
      (operation.takesVersion = true →
        (word 2 line).length ≤ 31 ∧ ∃ n, InInt n ∧ numeral? (word 2 line) = some n) := by
  have hread := upToExit_short hnul hcr hlf hshort
  constructor
  · intro h operation hasks
    have hpiece : line ∈ upToExit (pieces line) := by
      rcases hread with hread | hread <;> rw [hread] <;> exact List.mem_cons_self ..
    exact (agrees_self_iff hasks.1).mp (h.agrees hpiece hasks)
  · intro hfits
    have hagrees : ∀ operation, Asks role username line operation →
        Agrees line line operation := fun operation hasks =>
      (agrees_self_iff hasks.1).mpr (hfits operation hasks)
    rcases hread with hread | hread
    · apply sentAsTyped_of
      · rw [hread]
        exact List.pairwise_singleton _ _
      · rw [hread]
        intro piece hpiece
        obtain rfl := List.mem_singleton.mp hpiece
        exact hagrees
    · apply sentAsTyped_of
      · rw [hread]
        exact List.pairwise_pair.mpr fun h => not_isCommand_nil h.2
      · rw [hread]
        intro piece hpiece operation hasks
        rcases List.mem_pair.mp hpiece with rfl | rfl
        · exact hagrees operation hasks
        · exact absurd ⟨operation, hasks⟩ not_isCommand_nil

end Short

end CloudSync
