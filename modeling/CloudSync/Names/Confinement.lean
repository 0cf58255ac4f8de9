import CloudSync.Lib.NormalPaths
import CloudSync.Names.PathsUsed

/-!
# Where the paths of a name lead

A filename is printed into paths as it came, so where its places are depends on
its normal form as a relative path.  A name `StaysInside` if it enters something
in the storage directory, or climbs out of it and enters it again; then its
content is at `inner f` in the storage directory, and its versions are at
`inner f` in `home f`.  Two such names have places in common exactly if they
`Clash`.

Nothing in the program keeps clients to names that stay inside and do not clash,
and only for those are files confined to the storage directory and isolated from
each other (`namesIsolated_iff`).
-/

namespace CloudSync

open CText Calls Calls.Prog Files

variable {f g : Bytes} {p : Path}

/-! ## Names inside the storage directory -/

/-- A path below the storage directory. -/
def StrictlyInside (p : Path) : Prop := ∃ q, q ≠ [] ∧ p = q ++ storagePath

/-- Where the content of `f` is, from the storage directory. -/
def inner (f : Bytes) : Path :=
  if (normal f).ups = 0 then (normal f).names else (normal f).names.dropLast

/-- The directory in the storage directory below which the versions of `f` are. -/
def home (f : Bytes) : Bytes := if (normal f).ups = 0 then text ".versions" else text "storage"

/-- The name enters something in the storage directory, or climbs out of it and
enters it again. -/
structure StaysInside (f : Bytes) : Prop where
  ne_nil : inner f ≠ []
  back : (normal f).ups = 0 ∨
    (normal f).ups = 1 ∧ (normal f).names.getLast? = some (text "storage")

instance (f : Bytes) : Decidable (StaysInside f) :=
  decidable_of_iff (inner f ≠ [] ∧ ((normal f).ups = 0 ∨
    (normal f).ups = 1 ∧ (normal f).names.getLast? = some (text "storage")))
    ⟨fun ⟨h₁, h₂⟩ => ⟨h₁, h₂⟩, fun ⟨h₁, h₂⟩ => ⟨h₁, h₂⟩⟩

/-- `p` is an entry of `dir`. -/
def ChildOf (p dir : Path) : Prop := p ≠ [] ∧ p.tail = dir

instance (p dir : Path) : Decidable (ChildOf p dir) := inferInstanceAs (Decidable (_ ∧ _))

/-- `g` is the version directory of `f`, or an entry of it, or the versions of `g`
are in an entry of it. -/
def Houses (f g : Bytes) : Prop :=
  inner g = inner f ++ [home f] ∨ ChildOf (inner g) (inner f ++ [home f]) ∨
    (home g = home f ∧ ChildOf (inner g) (inner f))

instance (f g : Bytes) : Decidable (Houses f g) := inferInstanceAs (Decidable (_ ∨ _ ∨ _))

/-- The two names have a place in common. -/
def Clash (f g : Bytes) : Prop := inner f = inner g ∨ Houses f g ∨ Houses g f

instance (f g : Bytes) : Decidable (Clash f g) := inferInstanceAs (Decidable (_ ∨ _ ∨ _))

theorem childOf_iff {p dir : Path} : ChildOf p dir ↔ ∃ name, p = name :: dir := by
  unfold ChildOf
  cases p with
  | nil => simp
  | cons name rest => simp

theorem mem_normal_of_mem_inner {name : Bytes} (hname : name ∈ inner f) :
    name ∈ (normal f).names := by
  unfold inner at hname
  split at hname
  · exact hname
  · exact List.mem_of_mem_dropLast hname

theorem resolve_getFilepath_normal (hf : f.length < maxFilename) :
    resolve (getFilepath f) = (normal f).applyTo storagePath := by
  rw [getFilepath_eq hf, resolve_append_normal (by decide), resolve_storageDir]

theorem resolve_versionDirPath_normal (hf : f.length < maxFilename) :
    resolve (versionDirPath f) = (normal f).applyTo versionsPath := by
  rw [versionDirPath_eq hf, resolve_append_normal (by decide), resolve_versionDir]

/-- The content is in no version directory: its path is no longer than that of the
directory, or climbs further. -/
theorem content_ne_entry (hf : f.length < maxFilename) {entry : Bytes} (hentry : PlainName entry) :
    resolve (getFilepath f) ≠ entry :: resolve (versionDirPath f) := by
  intro hsame
  rw [resolve_getFilepath_normal hf, resolve_versionDirPath_normal hf] at hsame
  unfold Normal.applyTo at hsame
  rcases hups : (normal f).ups with _ | _ | more
  · have hlength := congrArg List.length hsame
    simp [hups, storagePath, versionsPath] at hlength
  · have hlength := congrArg List.length hsame
    simp [hups, storagePath, versionsPath] at hlength
    omega
  · -- both are above the working directory
    have hcount := congrArg (List.count dotDot) hsame
    rw [List.count_cons_of_ne hentry.ne_dotDot] at hcount
    simp [hups, storagePath, versionsPath] at hcount

/-- Every path printed for a version is that of an entry. -/
theorem versionPath_entry (hf : f.length < maxFilename) (k : ℤ) : ∃ entry, PlainName entry ∧
    resolve (versionPath 256 f k) = entry :: resolve (versionDirPath f) := by
  have hdir := versionDirPath_length hf
  exact ⟨_, plainName_take (plainName_versionName k) (by omega),
    resolve_versionPath_entry hf le_rfl k⟩

theorem content_ne_versionPath (hf : f.length < maxFilename) (k : ℤ) :
    resolve (getFilepath f) ≠ resolve (versionPath 256 f k) := by
  obtain ⟨entry, hentry, hpath⟩ := versionPath_entry hf k
  rw [hpath]
  exact content_ne_entry hf hentry

/-- The two directories of a name that stays inside. -/
theorem StaysInside.paths (hstays : StaysInside f) (hf : f.length < maxFilename) :
    resolve (getFilepath f) = inner f ++ storagePath ∧
      resolve (versionDirPath f) = inner f ++ [home f] ++ storagePath := by
  rw [resolve_getFilepath_normal hf, resolve_versionDirPath_normal hf]
  unfold inner home Normal.applyTo
  rcases hstays.back with hups | ⟨hups, hlast⟩
  · rw [hups, if_pos rfl, if_pos rfl]
    exact ⟨by simp [storagePath], by simp [storagePath, versionsPath]⟩
  · obtain ⟨q, hnames⟩ := List.getLast?_eq_some_iff.mp hlast
    rw [hups, hnames, if_neg one_ne_zero, if_neg one_ne_zero, List.dropLast_concat]
    exact ⟨by simp [storagePath], by simp [storagePath, versionsPath]⟩

/-- The content's path leads below the storage directory only if the name stays inside. -/
theorem staysInside_of_content (hf : f.length < maxFilename)
    (hinside : StrictlyInside (resolve (getFilepath f))) : StaysInside f := by
  obtain ⟨q, hq, hpath⟩ := hinside
  rw [resolve_getFilepath_normal hf, Normal.applyTo] at hpath
  obtain hups | hups | ⟨more, hups⟩ : (normal f).ups = 0 ∨ (normal f).ups = 1 ∨
      ∃ more, (normal f).ups = more + 2 := by
    rcases hups : (normal f).ups with _ | _ | more
    · exact Or.inl rfl
    · exact Or.inr (Or.inl rfl)
    · exact Or.inr (Or.inr ⟨more, rfl⟩)
  · rw [hups] at hpath
    refine ⟨?_, Or.inl hups⟩
    have hnames : (normal f).names = q := by simpa using hpath
    rw [inner, if_pos hups, hnames]
    exact hq
  · rw [hups] at hpath
    have hnames : (normal f).names = q ++ [text "storage"] := by simpa [storagePath] using hpath
    refine ⟨?_, Or.inr ⟨hups, ?_⟩⟩
    · rw [inner, if_neg (by omega), hnames, List.dropLast_concat]
      exact hq
    · rw [hnames, List.getLast?_concat]
  · -- above the working directory the path ends in `..`
    rw [hups] at hpath
    have hlast := congrArg List.getLast? hpath
    have hdots : List.replicate (more + 2 - storagePath.length) dotDot =
        List.replicate more dotDot ++ [dotDot] := by
      rw [show more + 2 - storagePath.length = more + 1 from rfl, List.replicate_succ']
    rw [hdots, storagePath, List.getLast?_concat, ← List.append_assoc, ← List.append_assoc,
      List.getLast?_concat] at hlast
    exact absurd hlast (by decide)

/-- The places of `f`, from the storage directory. -/
def Below (f : Bytes) (q : Path) : Prop :=
  q = inner f ∨ q = inner f ++ [home f] ∨
    ∃ name, PlainName name ∧ name.length + (versionDirPath f).length ≤ 510 ∧
      q = name :: (inner f ++ [home f])

theorem StaysInside.filePlace_iff (hstays : StaysInside f) (hf : f.length < maxFilename) :
    FilePlace f p ↔ ∃ q, Below f q ∧ p = q ++ storagePath := by
  obtain ⟨hcontent, hversions⟩ := hstays.paths hf
  unfold FilePlace ContentPlace
  rw [versionsPlace_iff hf, hcontent, hversions]
  constructor
  · rintro (rfl | rfl | ⟨name, hname, hlength, rfl⟩)
    · exact ⟨_, Or.inl rfl, rfl⟩
    · exact ⟨_, Or.inr (Or.inl rfl), rfl⟩
    · exact ⟨_, Or.inr (Or.inr ⟨name, hname, hlength, rfl⟩), rfl⟩
  · rintro ⟨q, rfl | rfl | ⟨name, hname, hlength, rfl⟩, rfl⟩
    · exact Or.inl rfl
    · exact Or.inr (Or.inl rfl)
    · exact Or.inr (Or.inr ⟨name, hname, hlength, rfl⟩)

/-- An entry found on the way to `g` is one the version directory of `f` can have. -/
theorem below_of_mem_inner (hf : f.length < maxFilename) (hg : g.length < maxFilename)
    {name : Bytes} (hname : name ∈ inner g) : Below f (name :: (inner f ++ [home f])) := by
  have hmem := mem_normal_of_mem_inner hname
  have hlength := length_le_of_mem_normal hmem
  have hdir := versionDirPath_length hf
  have hshort : g.length < 64 := hg
  exact Or.inr (Or.inr ⟨name, normal_plain g name hmem, by omega, rfl⟩)

/-- A place in the house is a place of both. -/
theorem Houses.common (hf : f.length < maxFilename) (hg : g.length < maxFilename)
    (h : Houses f g) : ∃ q, Below f q ∧ Below g q := by
  rcases h with h | h | ⟨hhome, h⟩
  · exact ⟨_, Or.inr (Or.inl rfl), Or.inl h.symm⟩
  · obtain ⟨name, h⟩ := childOf_iff.mp h
    exact ⟨_, below_of_mem_inner hf hg (h ▸ List.mem_cons_self ..), Or.inl h.symm⟩
  · obtain ⟨name, h⟩ := childOf_iff.mp h
    refine ⟨_, below_of_mem_inner hf hg (h ▸ List.mem_cons_self ..), Or.inr (Or.inl ?_)⟩
    rw [h, hhome, List.cons_append]

/-- Names have a place in common exactly if they clash. -/
theorem clash_iff (hf : f.length < maxFilename) (hg : g.length < maxFilename) :
    (∃ q, Below f q ∧ Below g q) ↔ Clash f g := by
  have hsplit : ∀ {a b : Path} {x y : Bytes}, a ++ [x] = b ++ [y] → a = b ∧ x = y := by
    intro a b x y h
    obtain ⟨hab, hxy⟩ := List.append_inj' h rfl
    exact ⟨hab, (List.cons.inj hxy).1⟩
  constructor
  · rintro ⟨q, hq, hq'⟩
    rcases hq with rfl | rfl | ⟨name, -, -, rfl⟩ <;>
      rcases hq' with h | h | ⟨name', -, -, h⟩
    · exact Or.inl h
    · exact Or.inr (Or.inr (Or.inl h))
    · exact Or.inr (Or.inr (Or.inr (Or.inl (childOf_iff.mpr ⟨name', h⟩))))
    · exact Or.inr (Or.inl (Or.inl h.symm))
    · exact Or.inl (hsplit h).1
    · obtain ⟨hinner, hhome⟩ := hsplit (b := name' :: inner g) h
      exact Or.inr (Or.inr (Or.inr (Or.inr ⟨hhome, childOf_iff.mpr ⟨name', hinner⟩⟩)))
    · exact Or.inr (Or.inl (Or.inr (Or.inl (childOf_iff.mpr ⟨name, h.symm⟩))))
    · obtain ⟨hinner, hhome⟩ := hsplit (a := name :: inner f) h
      exact Or.inr (Or.inl (Or.inr (Or.inr ⟨hhome.symm, childOf_iff.mpr ⟨name, hinner.symm⟩⟩)))
    · exact Or.inl (hsplit (List.cons.inj h).2).1
  · rintro (h | h | h)
    · exact ⟨_, Or.inl rfl, Or.inl h⟩
    · exact h.common hf hg
    · obtain ⟨q, hq, hq'⟩ := h.common hg hf
      exact ⟨q, hq', hq⟩

/-! ## Confinement and isolation -/

/-- Every path used for `f` leads below the storage directory. -/
def Confined (f : Bytes) : Prop := ∀ p, Touches f p → StrictlyInside p

/-- No path used for `f` is used for `g`, and no task on `f` changes the content or
a version of `g`. -/
def Isolated (f g : Bytes) : Prop :=
  (∀ p, Touches f p → ¬ Touches g p) ∧
    ∀ (env : ℕ → Env) (task : TaskMessage) (world : World), task.filename = f →
      content (serve env task world).2.tree g = content world.tree g ∧
        ∀ k, storedVersion (serve env task world).2.tree g k = storedVersion world.tree g k

theorem confined_iff (hf : f.length < maxFilename) : Confined f ↔ StaysInside f := by
  constructor
  · intro hconfined
    exact staysInside_of_content hf (hconfined _ ((touches_iff hf).mpr contentPath_place))
  · intro hstays p hp
    obtain ⟨q, hq, rfl⟩ := (hstays.filePlace_iff hf).mp ((touches_iff hf).mp hp)
    refine ⟨q, ?_, rfl⟩
    rcases hq with rfl | rfl | ⟨name, -, -, rfl⟩
    · exact hstays.ne_nil
    · simp
    · simp

/-- A task changes nothing outside the places of its filename. -/
theorem serve_at?_of_not_place (env : ℕ → Env) (task : TaskMessage) (world : World)
    (hp : ¬ FilePlace task.filename p) :
    (serve env task world).2.tree.at? p = world.tree.at? p := by
  have hstep : ∀ (g : Standing) (w : World) (i : ℕ) {β : Type} (c : WorkerCall β),
      w.tree.at? p = world.tree.at? p → Entitled task g c →
        (worker.exec (env i) c w).2.tree.at? p = world.tree.at? p := by
    intro g w i β c hw hentitled
    rw [at?_exec (env i) c w, hw]
    rintro (⟨name, hname, hplace⟩ | ⟨name, hname, hplace⟩)
    · obtain rfl := hentitled.filename name (c.filename_of_writes (Or.inl hname))
      exact hp (Or.inl hplace)
    · obtain rfl := hentitled.filename name (c.filename_of_writes (Or.inr hname))
      exact hp (Or.inr hplace)
  obtain ⟨-, hend⟩ := (processTask_covered task (standing task).start).run hstep rfl
  exact hend

theorem isolated_iff (hf : f.length < maxFilename) (hg : g.length < maxFilename)
    (hstaysF : StaysInside f) (hstaysG : StaysInside g) : Isolated f g ↔ ¬ Clash f g := by
  have happart : (∀ p, Touches f p → ¬ Touches g p) ↔ ¬ Clash f g := by
    rw [← clash_iff hf hg]
    constructor
    · rintro happart ⟨q, hq, hq'⟩
      refine happart (q ++ storagePath) ?_ ?_
      · exact (touches_iff hf).mpr ((hstaysF.filePlace_iff hf).mpr ⟨q, hq, rfl⟩)
      · exact (touches_iff hg).mpr ((hstaysG.filePlace_iff hg).mpr ⟨q, hq', rfl⟩)
    · intro hclash p hp hp'
      obtain ⟨q, hq, rfl⟩ := (hstaysF.filePlace_iff hf).mp ((touches_iff hf).mp hp)
      obtain ⟨q', hq', h⟩ := (hstaysG.filePlace_iff hg).mp ((touches_iff hg).mp hp')
      obtain rfl := List.append_cancel_right h
      exact hclash ⟨q, hq, hq'⟩
  rw [← happart]
  refine ⟨fun h => h.1, fun h => ⟨h, ?_⟩⟩
  rintro env task world rfl
  have hkept : ∀ p, FilePlace g p → (serve env task world).2.tree.at? p = world.tree.at? p :=
    fun p hp => serve_at?_of_not_place env task world fun hp' =>
      h p ((touches_iff hf).mpr hp') ((touches_iff hg).mpr hp)
  exact ⟨Tree.bytes?_congr (hkept _ contentPath_place),
    fun k => Tree.bytes?_congr (hkept _ (versionPath_place k))⟩

/-- Two names are confined to the storage directory and isolated from each other
if and only if both stay inside and do not clash. -/
theorem namesIsolated_iff (hf : f.length < maxFilename) (hg : g.length < maxFilename) :
    (Confined f ∧ Confined g ∧ (f ≠ g → Isolated f g)) ↔
      StaysInside f ∧ StaysInside g ∧ (f ≠ g → ¬ Clash f g) := by
  rw [confined_iff hf, confined_iff hg]
  constructor
  · rintro ⟨hstaysF, hstaysG, hisolated⟩
    exact ⟨hstaysF, hstaysG, fun hne => (isolated_iff hf hg hstaysF hstaysG).mp (hisolated hne)⟩
  · rintro ⟨hstaysF, hstaysG, hclash⟩
    exact ⟨hstaysF, hstaysG, fun hne => (isolated_iff hf hg hstaysF hstaysG).mpr (hclash hne)⟩

theorem namesIsolated_aAndB : Confined (text "a") ∧ Confined (text "b") ∧
    (text "a" ≠ text "b" → Isolated (text "a") (text "b")) :=
  (namesIsolated_iff (by decide) (by decide)).mpr (by decide)

/-- The content of `../users.dat` is the file of accounts, and `./a` is `a`. -/
theorem names_escape_and_clash : ¬ Confined (text "../users.dat") ∧
    ¬ (text "a" ≠ text "./a" → Isolated (text "a") (text "./a")) := by
  constructor
  · rw [confined_iff (by decide)]
    decide
  · intro hisolated
    have h := (isolated_iff (by decide) (by decide) (by decide) (by decide)).mp
      (hisolated (by decide))
    exact absurd h (by decide)

end CloudSync
