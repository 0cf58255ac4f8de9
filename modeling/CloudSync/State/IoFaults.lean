import CloudSync.Names.Confinement
import CloudSync.State.Faults
import CloudSync.State.Versions

/-!
# What the file functions leave when their calls fail

Any `mkdir`, `stat`, `open`, `read` and `write` may fail or fall short here
(`IoFaults`), and nothing is asked of the filename but that it fits.  A copy
then leaves a beginning of its source (`copyFile_cut`), and
its result does not tell: a read that fails ends it like the end of the file.
A cleanup goes by the numbers it reads off the entries of the directory, whatever they
are called, and removes the versions with the numbers it drops (`Cleaned`).
`BackupLeaves` is what `save_version` may leave of the versions; the old content
it leaves alone.

Each function comes with two lemmas: what it may leave at most, and which of
these cases can happen.
-/

namespace CloudSync

open CText Calls Calls.Prog Files ExchangeSort Retention

variable {f : Bytes} {t t' : Tree} {bytes : Bytes} {n k : ℤ}

/-! ## Copying -/

section Copy

variable {src dst s name : Bytes} {dir : Path} (hname : PlainName name)
  (hdst : resolve dst = name :: dir) (hne : resolve src ≠ name :: dir)

include hname hdst hne

/-- Wherever the loop stops, what has been copied is a beginning of the source. -/
theorem copyLoop_cut {turns offset : ℕ} {t : Tree}
    (hsrc : t.at? (resolve src) = some (.file s))
    (hcopied : t.at? (name :: dir) = some (.file (s.take offset))) (hoffset : offset ≤ s.length) :
    wpWith disk IoFaults (copyLoop src dst turns offset) (fun _ t' => ∃ count,
      t'.at? = Function.update t.at? (name :: dir) (some (.file (s.take count)))) t := by
  have hstop : ∀ {t : Tree} {offset : ℕ}, t.at? (name :: dir) = some (.file (s.take offset)) →
      ∃ count, t.at? = Function.update t.at? (name :: dir) (some (.file (s.take count))) :=
    fun {_ offset} hcopied => ⟨offset, by rw [← hcopied, Function.update_eq_self]⟩
  induction turns generalizing offset t with
  | zero =>
      simp only [copyLoop, perform_bind, pure_eq_ret, io_close, wpWith_ret]
      exact hstop hcopied
  | succ turns ih =>
      simp only [copyLoop, perform_bind, pure_eq_ret]
      refine io_read ?_ fun length _ => ?_
      · simp only [io_close, wpWith_ret]
        exact hstop hcopied
      rw [Tree.read, Tree.bytes?_eq_some.mpr hsrc, Option.getD_some]
      cases hchunk : (s.drop offset).take length with
      | nil =>
          simp only [io_close, wpWith_ret]
          exact hstop hcopied
      | cons b more =>
          dsimp only
          refine io_write ?_ fun written _ => ?_
          · simp only [ne_eq, reduceCtorEq, not_false_eq_true, if_true, io_close, wpWith_ret]
            exact hstop hcopied
          rw [hdst]
          -- what a short write takes is a shorter piece of the source
          have hpiece : (s.drop offset).take (min written length) = (b :: more).take written := by
            rw [← hchunk, List.take_take]
          have hwrite := Tree.write_fine hname hcopied offset ((b :: more).take written)
          rw [Tree.overwrite_take hoffset hpiece] at hwrite
          have hend : offset + ((b :: more).take written).length ≤ s.length := by
            rw [← hpiece, List.length_take, List.length_drop]
            omega
          split
          · simp only [io_close, wpWith_ret]
            exact ⟨_, hwrite⟩
          · next hall =>
            rw [ne_eq, not_not, Option.some_inj] at hall
            rw [hall, List.take_length] at hwrite hend ⊢
            refine wpWith_mono (ih ?_ ?_ hend) fun _ t' h => ?_
            · rw [hwrite, Function.update_of_ne hne, hsrc]
            · rw [hwrite, Function.update_self]
            · obtain ⟨count, hcount⟩ := h
              exact ⟨count, by rw [hcount, hwrite, Function.update_idem]⟩

/-- A copy does nothing, or leaves a beginning of the source in a file that can be there. -/
theorem copyFile_cut (hsrc : t.at? (resolve src) = some (.file s)) (size : ℕ) :
    wpWith disk IoFaults (copyFile src dst size) (fun result t' => (result < 0 ∧ t' = t) ∨
      (t.isDir dir = true ∧ t.isDir (name :: dir) = false) ∧ ∃ count,
        t'.at? = Function.update t.at? (name :: dir) (some (.file (s.take count)))) t := by
  simp only [copyFile, perform_bind, pure_eq_ret]
  refine io_openRead ?_ ?_
  · exact Or.inl ⟨by norm_num, rfl⟩
  rw [Tree.bytes?_eq_some.mpr hsrc]
  simp only [Option.isSome_some, Bool.not_true, Bool.false_eq_true, if_false]
  have hrefused : wpWith disk IoFaults (call (.close src) fun _ => ret (-1 : ℤ))
      (fun result t' => (result < 0 ∧ t' = t) ∨
        (t.isDir dir = true ∧ t.isDir (name :: dir) = false) ∧ ∃ count,
          t'.at? = Function.update t.at? (name :: dir) (some (.file (s.take count)))) t := by
    simp only [io_close, wpWith_ret]
    exact Or.inl ⟨by norm_num, trivial⟩
  refine io_openTrunc hrefused ?_
  rw [hdst]
  rcases Tree.openTrunc_at?_cases t name dir with hsame | ⟨hopen, hfree, hopened⟩
  · rw [hsame]
    exact hrefused
  rw [hopen]
  have hempty : (t.openTrunc (name :: dir)).2.at? (name :: dir) = some (.file (s.take 0)) := by
    rw [hopened, Function.update_self, List.take_zero]
  refine wpWith_mono (copyLoop_cut hname hdst hne ?_ hempty (Nat.zero_le _)) fun _ t' h => ?_
  · rw [hopened, Function.update_of_ne hne, hsrc]
  · obtain ⟨count, hcount⟩ := h
    exact Or.inr ⟨hfree, count, by rw [hcount, hopened, Function.update_idem]⟩

/-- The target can be left empty, with the copy reported done. -/
theorem copyFile_empty (hdir : t.isDir dir = true) (hfile : t.at? (name :: dir) ≠ some .dir)
    (hsrc : t.at? (resolve src) = some (.file s)) {size : ℕ} {Q : ℤ → Tree → Prop}
    (h : wpWith disk IoFaults (copyFile src dst size) Q t) :
    ∃ t', t'.at? = Function.update t.at? (name :: dir) (some (.file [])) ∧ Q 0 t' ∧
      (s ≠ [] → Q (-1) t') := by
  obtain ⟨hopen, hopened⟩ := Tree.openTrunc_fine hname hdir hfile
  refine ⟨(t.openTrunc (name :: dir)).2, hopened, ?_⟩
  have hloop : wpWith disk IoFaults (copyLoop src dst (size + 1) 0) Q
      (t.openTrunc (name :: dir)).2 := by
    simp only [copyFile, perform_bind, pure_eq_ret] at h
    have hread := h .fine trivial
    rw [Conditions.fine_fine.exec_openRead, Tree.bytes?_eq_some.mpr hsrc] at hread
    have htrunc := hread .fine trivial
    rw [Conditions.fine_fine.exec_openTrunc, hdst, hopen] at htrunc
    exact htrunc
  have hsrc' : (t.openTrunc (name :: dir)).2.at? (resolve src) = some (.file s) := by
    rw [hopened, Function.update_of_ne hne, hsrc]
  simp only [copyLoop, perform_bind, pure_eq_ret] at hloop
  constructor
  · have hfail := hloop .failing trivial
    rw [failing_read] at hfail
    simpa only [io_close, wpWith_ret] using hfail
  · intro hsome
    have hpiece := hloop .fine trivial
    rw [Conditions.fine_fine.exec_read, Tree.read, Tree.bytes?_eq_some.mpr hsrc',
      Option.getD_some, List.drop_zero] at hpiece
    obtain ⟨b, more, rfl⟩ := List.exists_cons_of_ne_nil hsome
    have hwrite := hpiece .failing trivial
    rw [failing_write] at hwrite
    simpa only [ne_eq, reduceCtorEq, not_false_eq_true, if_true, io_close, wpWith_ret] using hwrite

end Copy

/-! ## The paths of a file -/

theorem versionPath_ne_dir (hf : f.length < maxFilename) (k : ℤ) :
    resolve (versionPath 256 f k) ≠ resolve (versionDirPath f) := by
  obtain ⟨entry, -, hpath⟩ := versionPath_entry hf k
  rw [hpath]
  exact List.cons_ne_self entry _

/-- The path of an `int` version is printed for no other number. -/
theorem versionPath_eq_iff (hf : f.length < maxFilename) (hn : InInt n) :
    resolve (versionPath 256 f k) = versionName n :: resolve (versionDirPath f) ↔ k = n := by
  constructor
  · intro hpath
    have hdir := versionDirPath_length hf
    rw [resolve_versionPath_entry hf le_rfl] at hpath
    exact eq_of_take_versionName hn (by omega) (List.cons.inj hpath).1
  · rintro rfl
    exact resolve_versionPath_int hf hn le_rfl

/-- What is seen of a file after a function has run: its content, its versions, and that no
directory is where a version may be, unless one was. -/
structure Views (t : Tree) (f : Bytes) (content' : Option Bytes)
    (versions' : ℤ → Option Bytes) (t' : Tree) : Prop where
  content : content t' f = content'
  versions : storedVersion t' f = versions'
  files : ∀ k, t.isDir (resolve (versionPath 256 f k)) = false →
    t'.isDir (resolve (versionPath 256 f k)) = false

theorem views_self : Views t f (content t f) (storedVersion t f) t := ⟨rfl, rfl, fun _ => id⟩

theorem Views.trans {content₁ content₂ : Option Bytes} {versions₁ versions₂ : ℤ → Option Bytes}
    {t₁ t₂ : Tree} (h₁ : Views t f content₁ versions₁ t₁) (h₂ : Views t₁ f content₂ versions₂ t₂) :
    Views t f content₂ versions₂ t₂ :=
  ⟨h₂.content, h₂.versions, fun k hk => h₂.files k (h₁.files k hk)⟩

/-- A change elsewhere does not show. -/
theorem views_of_elsewhere (hcontent : t'.at? (resolve (getFilepath f)) =
      t.at? (resolve (getFilepath f)))
    (hversions : ∀ k, t'.at? (resolve (versionPath 256 f k)) =
      t.at? (resolve (versionPath 256 f k))) :
    Views t f (content t f) (storedVersion t f) t' :=
  ⟨Tree.bytes?_congr hcontent, funext fun k => Tree.bytes?_congr (hversions k),
    fun k hk => (Tree.isDir_congr (hversions k)).trans hk⟩

/-! ## The version directory -/

/-- The tree is as it was, or the version directory has been made. -/
def DirEnsured (t : Tree) (f : Bytes) (t' : Tree) : Prop :=
  t' = t ∨ (t.mkdir (resolve (versionDirPath f))).1 = true ∧
    t.at? (resolve (versionDirPath f)) = none ∧
    t'.at? = Function.update t.at? (resolve (versionDirPath f)) (some .dir)

/-- The entries of a directory that `cleanup_old_versions` takes for versions. -/
def entriesIn (t : Tree) (dir : Path) : Set Bytes :=
  {name | name ∈ t.children dir ∧ name.head? = some 118}

/-- The number it takes an entry for. -/
def entryNumber (name : Bytes) : ℤ := atoi (name.drop 1)

theorem entriesIn_congr {dir : Path} (h : ∀ name, t'.at? (name :: dir) = t.at? (name :: dir)) :
    entriesIn t' dir = entriesIn t dir := by
  ext name
  simp only [entriesIn, Set.mem_ofPred_eq, Tree.mem_children, h]

/-- With another version there is another entry. -/
theorem entriesIn_update {dir : Path} {node : Node}
    (h : t'.at? = Function.update t.at? (versionName n :: dir) (some node)) :
    entriesIn t' dir = insert (versionName n) (entriesIn t dir) := by
  ext name
  simp only [entriesIn, Set.mem_insert_iff, Set.mem_ofPred_eq, Tree.mem_children, h]
  by_cases hname : name = versionName n
  · simp [hname, versionName]
  · rw [Function.update_of_ne fun hp => hname (List.cons.inj hp).1]
    simp [hname]

theorem mkdir_versionDir_cases (t : Tree) (f : Bytes) :
    t.mkdir (resolve (versionDirPath f)) = (false, t) ∨
      (t.mkdir (resolve (versionDirPath f))).1 = true ∧
        t.at? (resolve (versionDirPath f)) = none ∧
        (t.mkdir (resolve (versionDirPath f))).2.at? =
          Function.update t.at? (resolve (versionDirPath f)) (some .dir) := by
  cases resolve (versionDirPath f) with
  | nil => exact Or.inl rfl
  | cons name dir =>
      exact (Tree.mkdir_cases t name dir).imp id fun ⟨hmade, hfree, hdir⟩ => ⟨hmade, hfree.2, hdir⟩

/-- `ensure_version_dir` fails and changes nothing, or it has ensured the directory. -/
theorem ensureVersionDir_cut :
    wpWith disk IoFaults (ensureVersionDir f) (fun result t' => (result < 0 ∧ t' = t) ∨
      DirEnsured t f t') t := by
  simp only [ensureVersionDir, perform_bind, pure_eq_ret]
  have hmake : wpWith disk IoFaults (call (.mkdir (versionDirPath f)) fun made =>
      if (!made) = true then ret (-1 : ℤ) else ret 0) (fun result t' => (result < 0 ∧ t' = t) ∨
        DirEnsured t f t') t := by
    refine io_mkdir (Or.inl ⟨by norm_num, rfl⟩) ?_
    rcases mkdir_versionDir_cases t f with hrefused | hnew
    · rw [hrefused]
      exact Or.inl ⟨by norm_num, rfl⟩
    · rw [hnew.1]
      exact Or.inr (Or.inr hnew)
  refine io_stat hmake ?_
  cases t.stat (resolve (versionDirPath f)) with
  | none => exact hmake
  | some size => exact Or.inr (Or.inl rfl)

/-- It can fail, and it can go well if there is a directory or one can be made. -/
theorem ensureVersionDir_outcomes {Q : ℤ → Tree → Prop}
    (h : wpWith disk IoFaults (ensureVersionDir f) Q t) :
    Q (-1) t ∧ (t.isDir (resolve (versionDirPath f)) = true ∨
        (t.mkdir (resolve (versionDirPath f))).1 = true → ∃ t', Q 0 t' ∧ DirEnsured t f t' ∧
          t'.isDir (resolve (versionDirPath f)) = true) := by
  simp only [ensureVersionDir, perform_bind, pure_eq_ret] at h
  have hmake := h .failing trivial
  rw [failing_stat] at hmake
  refine ⟨hmake .failing trivial, ?_⟩
  rintro (hdir | hmade)
  · have hthere := h .fine trivial
    rw [Conditions.fine_fine.exec_stat, Tree.stat, if_pos hdir] at hthere
    exact ⟨t, hthere, Or.inl rfl, hdir⟩
  · rcases mkdir_versionDir_cases t f with hrefused | hnew
    · rw [hrefused] at hmade
      exact Bool.noConfusion hmade
    · have hdone := hmake .fine trivial
      rw [Conditions.fine_fine.exec_mkdir, hmade] at hdone
      refine ⟨_, hdone, Or.inr hnew, Tree.isDir_of_at? ?_⟩
      rw [hnew.2.2, Function.update_self]

/-- The directory does not show, and holds what it has held. -/
theorem DirEnsured.views (hf : f.length < maxFilename) (hcontent : content t f = some bytes)
    (h : DirEnsured t f t') :
    Views t f (some bytes) (storedVersion t f) t' ∧
      entriesIn t' (resolve (versionDirPath f)) = entriesIn t (resolve (versionDirPath f)) := by
  rw [← hcontent]
  rcases h with rfl | ⟨-, hnone, hmade⟩
  · exact ⟨views_self, rfl⟩
  have helsewhere : ∀ p, p ≠ resolve (versionDirPath f) → t'.at? p = t.at? p := fun p hp => by
    rw [hmade, Function.update_of_ne hp]
  refine ⟨views_of_elsewhere (helsewhere _ ?_) fun k => helsewhere _ (versionPath_ne_dir hf k),
    entriesIn_congr fun name => helsewhere _ (List.cons_ne_self name _)⟩
  -- the content is there, and the directory was not
  intro hsame
  rw [content, hsame, Tree.bytes?, hnone] at hcontent
  exact absurd hcontent (by simp)

/-! ## Cleaning up -/

/-- Removing files is not among the calls that fail. -/
theorem removeVersions_wpWith {versions : List ℤ} {Q : Unit → Tree → Prop}
    (h : wp disk Conditions.Fine (removeVersions f versions) Q t) :
    wpWith disk IoFaults (removeVersions f versions) Q t := by
  induction versions generalizing t with
  | nil => exact h
  | cons k rest ih => exact fun c hc => ih (h c hc)

/-- The loops of `cleanup_old_versions` make no call that fails. -/
theorem removeOldest_wpWith {versions : List ℤ} {keep : ℕ} {Q : ℤ → Tree → Prop}
    (h : wp disk Conditions.Fine (if versions.length ≤ keep then ret 0 else
      removeVersions f ((exchangeSort (fun a b => decide (b < a)) versions).take
        (versions.length - keep)) >>= fun _ => ret ((versions.length - keep : ℕ) : ℤ)) Q t) :
    wpWith disk IoFaults (if versions.length ≤ keep then ret 0 else
      removeVersions f ((exchangeSort (fun a b => decide (b < a)) versions).take
        (versions.length - keep)) >>= fun _ => ret ((versions.length - keep : ℕ) : ℤ)) Q t := by
  split
  · next hshort =>
    rw [if_pos hshort] at h
    exact h
  · next hlong =>
    rw [if_neg hlong, wp_bind] at h
    rw [wpWith_bind]
    exact removeVersions_wpWith h

/-- The files of the versions that are gone have been removed, and at most their entries. -/
structure Cleaned (t : Tree) (f : Bytes) (gone : Set ℤ) (t' : Tree) : Prop where
  removed : ∀ k ∈ gone, t'.bytes? (versionName k :: resolve (versionDirPath f)) = none
  others : ∀ p, t'.at? p = t.at? p ∨ t'.at? p = none ∧
    ∃ k ∈ gone, p = versionName k :: resolve (versionDirPath f)

/-- Only numbers in `int` are read. -/
theorem int_of_shed {keep : ℕ} (seen : Set Bytes) : ∀ k ∈ shed keep entryNumber seen, InInt k := by
  rintro _ ⟨⟨name, -, rfl⟩, -⟩
  exact atoi_range _

/-- What becomes of the versions. -/
noncomputable def without (gone : Set ℤ) (versions : ℤ → Option Bytes) (k : ℤ) : Option Bytes :=
  open Classical in if k ∈ gone then none else versions k

section Cleanup

variable (hf : f.length < maxFilename)

include hf

theorem removeVersions_cleaned {versions : List ℤ} (hversions : ∀ k ∈ versions, InInt k)
    {t : Tree} :
    wp disk Conditions.Fine (removeVersions f versions)
      (fun _ t' => Cleaned t f {k | k ∈ versions} t') t := by
  induction versions generalizing t with
  | nil => exact ⟨fun _ hk => absurd hk List.not_mem_nil, fun _ => Or.inl rfl⟩
  | cons j rest ih =>
      simp only [removeVersions, perform_bind]
      apply wp_remove
      rw [resolve_versionPath_int hf (hversions j List.mem_cons_self) (by norm_num)]
      refine wp_mono (ih fun k hk => hversions k (List.mem_cons_of_mem _ hk)) fun _ t' h => ?_
      refine ⟨fun k hk => ?_, fun p => ?_⟩
      · rcases List.mem_cons.mp hk with rfl | hk
        · rcases h.others (versionName k :: resolve (versionDirPath f)) with hsame | ⟨hnone, -⟩
          · rw [Tree.bytes?_congr hsame, Tree.bytes?_remove]
          · rw [Tree.bytes?, hnone]
        · exact h.removed k hk
      · rcases h.others p with hsame | ⟨hnone, k, hk, hp⟩
        · rw [hsame]
          rcases Tree.remove_at?_cases t _ p with hkept | ⟨hnone, hp⟩
          · exact Or.inl hkept
          · exact Or.inr ⟨hnone, j, List.mem_cons_self, hp⟩
        · exact Or.inr ⟨hnone, k, List.mem_cons_of_mem _ hk, hp⟩

/-- The loops remove the versions with the numbers that are dropped. -/
theorem removeOldest_cleaned {names : List Bytes} (hnodup : names.Nodup) (keep : ℕ) :
    wp disk Conditions.Fine (if (names.map entryNumber).length ≤ keep then ret 0 else
      removeVersions f ((exchangeSort (fun a b => decide (b < a)) (names.map entryNumber)).take
        ((names.map entryNumber).length - keep)) >>= fun _ =>
          ret (((names.map entryNumber).length - keep : ℕ) : ℤ))
      (fun _ t' => Cleaned t f (shed keep entryNumber {name | name ∈ names}) t') t := by
  have hswap : ∀ a b : ℤ, decide (b < a) = false ↔ a ≤ b := fun a b => by simp
  have hshed : {k | k ∈ (exchangeSort (fun a b => decide (b < a)) (names.map entryNumber)).take
      ((names.map entryNumber).length - keep)} = shed keep entryNumber {name | name ∈ names} := by
    ext k
    rw [Set.mem_ofPred_eq, List.length_map, mem_take_iff_shed hnodup (exchangeSort_perm _ _)
      (exchangeSort_pairwise hswap (fun a b c => le_trans) le_total _)]
  rw [← hshed]
  split
  · next hshort =>
    rw [Nat.sub_eq_zero_of_le hshort, List.take_zero]
    exact ⟨fun _ hk => absurd hk List.not_mem_nil, fun _ => Or.inl rfl⟩
  · rw [wp_bind]
    refine wp_mono (removeVersions_cleaned hf fun k hk => ?_) fun _ _ h => h
    obtain ⟨name, -, rfl⟩ := List.mem_map.mp
      ((exchangeSort_perm _ _).mem_iff.mp (List.mem_of_mem_take hk))
    exact atoi_range _

omit hf in
/-- A cleanup has room for 256 of the entries. -/
theorem listed_entries {dir : Path} {names : List Bytes}
    (hnames : names.Perm (dot :: dotDot :: t.children dir)) :
    (versionEntries names).Nodup ∧
      Seen 256 (entriesIn t dir) {name | name ∈ versionEntries names} := by
  have hfilter : (names.filter fun name => name.head? == some 118).Perm
      ((t.children dir).filter fun name => name.head? == some 118) := by
    refine (hnames.filter _).trans ?_
    rw [List.filter_cons_of_neg (by decide), List.filter_cons_of_neg (by decide)]
  have hnodup := hfilter.nodup_iff.mpr (Tree.nodup_children.filter _)
  have hall : entriesIn t dir =
      {name | name ∈ names.filter fun name => name.head? == some 118} := by
    ext name
    rw [Set.mem_ofPred_eq, hfilter.mem_iff, List.mem_filter, beq_iff_eq]
    rfl
  have hpart := hnodup.sublist (List.take_sublist 256 _)
  refine ⟨hpart, ?_, ?_⟩
  · rw [hall]
    exact fun name hname => List.mem_of_mem_take hname
  · rw [hall, versionEntries, encard_setOf_mem hpart, encard_setOf_mem hnodup, List.length_take,
      min_comm]
    exact Nat.mono_cast.map_min

omit hf in
/-- The directory can be listed so that any part of the entries that fits is read. -/
theorem exists_listing {dir : Path} {seen : Set Bytes} (hseen : Seen 256 (entriesIn t dir) seen) :
    ∃ c : Conditions, c.Fine ∧
      {name | name ∈ versionEntries (c.order (dot :: dotDot :: t.children dir))} = seen := by
  classical
  let first : Bytes → Bool := fun name => decide (name ∈ seen)
  let order : List Bytes → List Bytes :=
    fun names => names.filter first ++ names.filter fun name => !first name
  have hperm : ∀ names, (order names).Perm names := fun names => List.filter_append_perm first names
  refine ⟨⟨.ok, order, hperm⟩, rfl, ?_⟩
  obtain ⟨-, hread⟩ := listed_entries (t := t) (hperm (dot :: dotDot :: t.children dir))
  refine (Set.Finite.eq_of_subset_of_encard_le' (Set.finite_of_encard_le_coe hread.encard_le)
    (fun name hname => ?_) (hread.2.trans hseen.2.symm).le).symm
  -- what is to be read comes first, and fits into the array
  have hfront : (dot :: dotDot :: t.children dir).filter first = (t.children dir).filter first := by
    rw [List.filter_cons_of_neg, List.filter_cons_of_neg]
    · exact fun h => absurd (hseen.1 (of_decide_eq_true h)).2 (by decide)
    · exact fun h => absurd (hseen.1 (of_decide_eq_true h)).2 (by decide)
  have hfits : ((t.children dir).filter first).length ≤ 256 := by
    have hcard := Set.encard_le_encard (show {name | name ∈ (t.children dir).filter first} ⊆ seen
      from fun name h => of_decide_eq_true (List.mem_filter.mp h).2)
    rw [encard_setOf_mem (Tree.nodup_children.filter _)] at hcard
    exact_mod_cast hcard.trans hseen.encard_le
  have hall : ((t.children dir).filter first).filter (fun name => name.head? == some 118) =
      (t.children dir).filter first := List.filter_eq_self.mpr fun name h =>
    beq_iff_eq.mpr (hseen.1 (of_decide_eq_true (List.mem_filter.mp h).2)).2
  show name ∈ versionEntries (order _)
  simp only [versionEntries, order, List.filter_append, hfront, hall]
  rw [List.take_append, List.take_of_length_le hfits]
  exact List.mem_append_left _
    (List.mem_filter.mpr ⟨(hseen.1 hname).1, decide_eq_true hname⟩)

/-- A cleanup reads as many entries as it has room for. -/
theorem cleanupOldVersions_cut (hdir : t.isDir (resolve (versionDirPath f)) = true) :
    wpWith disk IoFaults (cleanupOldVersions f maxVersions) (fun _ t' => ∃ seen,
      Seen 256 (entriesIn t (resolve (versionDirPath f))) seen ∧
        Cleaned t f (shed maxVersions entryNumber seen) t') t := by
  simp only [cleanupOldVersions, perform_bind, pure_eq_ret]
  intro c hc
  rw [Conditions.Fine.exec_readdir hc hdir]
  obtain ⟨hnodup, hseen⟩ := listed_entries (t := t) (c.order_perm _)
  exact wpWith_mono (removeOldest_wpWith (removeOldest_cleaned hf hnodup maxVersions))
    fun _ _ hcleaned => ⟨_, hseen, hcleaned⟩

/-- It can read any of them. -/
theorem cleanupOldVersions_outcomes (hdir : t.isDir (resolve (versionDirPath f)) = true)
    {Q : ℤ → Tree → Prop} (h : wpWith disk IoFaults (cleanupOldVersions f maxVersions) Q t)
    {seen : Set Bytes} (hseen : Seen 256 (entriesIn t (resolve (versionDirPath f))) seen) :
    ∃ result t', Q result t' ∧ Cleaned t f (shed maxVersions entryNumber seen) t' := by
  obtain ⟨c, hc, hread⟩ := exists_listing hseen
  simp only [cleanupOldVersions, perform_bind, pure_eq_ret] at h
  have hrest := h c hc
  rw [hc.exec_readdir hdir] at hrest
  obtain ⟨hnodup, -⟩ := listed_entries (t := t) (c.order_perm
    (dot :: dotDot :: t.children (resolve (versionDirPath f))))
  have hcleaned := removeOldest_cleaned (t := t) hf hnodup maxVersions
  rw [hread] at hcleaned
  exact wpWith_wp Conditions.fine_fine (fun call t => ioFaults_of_fine Conditions.fine_fine call t)
    hrest hcleaned

/-- The versions that are gone are gone, the content and the other versions are there. -/
theorem Cleaned.views {gone : Set ℤ} (hgone : ∀ k ∈ gone, InInt k) (h : Cleaned t f gone t') :
    Views t f (content t f) (without gone (storedVersion t f)) t' := by
  have hsame : ∀ p, (∀ k ∈ gone, p ≠ versionName k :: resolve (versionDirPath f)) →
      t'.at? p = t.at? p := fun p hp =>
    (h.others p).resolve_right fun ⟨_, k, hk, heq⟩ => hp k hk heq
  refine ⟨Tree.bytes?_congr (hsame _ fun k _ => content_ne_entry hf (plainName_versionName k)),
    funext fun k => ?_, fun k hk => ?_⟩
  · unfold without
    split
    · next hk =>
      rw [storedVersion, (versionPath_eq_iff hf (hgone k hk)).mpr rfl]
      exact h.removed k hk
    · next hk =>
      refine Tree.bytes?_congr (hsame _ fun j hj hpath => hk ?_)
      rwa [(versionPath_eq_iff hf (hgone j hj)).mp hpath]
  · rcases h.others (resolve (versionPath 256 f k)) with hsame | ⟨hnone, -⟩
    · rw [Tree.isDir_congr hsame, hk]
    · obtain ⟨entry, hentry, hpath⟩ := versionPath_entry hf k
      rw [hpath] at hnone ⊢
      rw [Tree.isDir_cons hentry, hnone]
      rfl

end Cleanup

/-! ## Backing up -/

/-- There is a version directory or one can be made, and a file `v<n>` can be in it. -/
def CanBackUp (t : Tree) (f : Bytes) (n : ℤ) : Prop :=
  (t.isDir (resolve (versionDirPath f)) = true ∨
      (t.mkdir (resolve (versionDirPath f))).1 = true) ∧
    t.isDir (resolve (versionPath 256 f n)) = false

/-- The entries taken for versions when version `n` has been written. -/
def backupEntries (t : Tree) (f : Bytes) (n : ℤ) : Set Bytes :=
  insert (versionName n) (entriesIn t (resolve (versionDirPath f)))

/-- What `save_version` may leave of the versions: it has not come to the version; if that
is possible, it has left a beginning of the content in it, or has cleaned up after that. -/
inductive BackupLeaves (bytes : Bytes) (n : ℤ) (possible : Prop) (entries : Set Bytes)
    (versions : ℤ → Option Bytes) : (ℤ → Option Bytes) → Prop
  | nothing : BackupLeaves bytes n possible entries versions versions
  | cut (hpossible : possible) (count : ℕ) : BackupLeaves bytes n possible entries versions
      (Function.update versions n (some (bytes.take count)))
  | cleaned (hpossible : possible) (count : ℕ) (seen : Set Bytes) (hseen : Seen 256 entries seen) :
      BackupLeaves bytes n possible entries versions
        (without (shed maxVersions entryNumber seen)
          (Function.update versions n (some (bytes.take count))))

section Backup

variable (hf : f.length < maxFilename) (hn : InInt n)

include hf hn

/-- A version that has been written is the only change. -/
theorem views_version {part : Bytes}
    (h : t'.at? = Function.update t.at? (versionName n :: resolve (versionDirPath f))
      (some (.file part))) :
    Views t f (content t f) (Function.update (storedVersion t f) n (some part)) t' := by
  have hpath : ∀ k, k ≠ n → t'.at? (resolve (versionPath 256 f k)) =
      t.at? (resolve (versionPath 256 f k)) := fun k hk => by
    rw [h, Function.update_of_ne ((versionPath_eq_iff hf hn).not.mpr hk)]
  have hwritten : t'.at? (resolve (versionPath 256 f n)) = some (.file part) := by
    rw [h, (versionPath_eq_iff hf hn).mpr rfl, Function.update_self]
  refine ⟨Tree.bytes?_congr ?_, funext fun k => ?_, fun k hk => ?_⟩
  · rw [h, Function.update_of_ne (content_ne_entry hf (plainName_versionName n))]
  · by_cases hkn : k = n
    · rw [hkn, Function.update_self]
      exact Tree.bytes?_eq_some.mpr hwritten
    · rw [Function.update_of_ne hkn]
      exact Tree.bytes?_congr (hpath k hkn)
  · by_cases hkn : k = n
    · obtain ⟨entry, hentry, hentrypath⟩ := versionPath_entry hf n
      rw [hentrypath] at hwritten
      rw [hkn, hentrypath, Tree.isDir_cons hentry, hwritten]
      rfl
    · rw [Tree.isDir_congr (hpath k hkn), hk]

/-- Where a version could be copied to, the tree before allowed it. -/
theorem canBackUp_of_ensured (hensured : DirEnsured t f t')
    (hdir : t'.isDir (resolve (versionDirPath f)) = true)
    (hfile : t'.isDir (versionName n :: resolve (versionDirPath f)) = false) : CanBackUp t f n := by
  rw [← resolve_versionPath_int hf hn le_rfl] at hfile
  rcases hensured with rfl | ⟨hpossible, -, hmade⟩
  · exact ⟨Or.inl hdir, hfile⟩
  · refine ⟨Or.inr hpossible, (Tree.isDir_congr ?_).symm.trans hfile⟩
    rw [hmade, Function.update_of_ne (versionPath_ne_dir hf n)]

variable (hcontent : content t f = some bytes)

include hcontent

theorem saveVersion_cut :
    wpWith disk IoFaults (saveVersion f n) (fun _ t' => ∃ versions',
      BackupLeaves bytes n (CanBackUp t f n) (backupEntries t f n) (storedVersion t f) versions' ∧
        Views t f (some bytes) versions' t') t := by
  simp only [saveVersion]
  rw [wpWith_bind]
  refine wpWith_mono ensureVersionDir_cut fun result t₁ hmade => ?_
  rcases hmade with ⟨hfail, rfl⟩ | hensured
  · rw [if_pos hfail]
    exact ⟨_, .nothing, hcontent ▸ views_self⟩
  obtain ⟨h₁, hentries⟩ := hensured.views hf hcontent
  split
  · exact ⟨_, .nothing, h₁⟩
  simp only [perform_bind, pure_eq_ret]
  refine io_stat ⟨_, .nothing, h₁⟩ ?_
  cases t₁.stat (resolve (getFilepath f)) with
  | none => exact ⟨_, .nothing, h₁⟩
  | some size =>
      dsimp only
      rw [wpWith_bind]
      refine wpWith_mono (copyFile_cut (plainName_versionName n)
        (resolve_versionPath_int hf hn le_rfl) (content_ne_entry hf (plainName_versionName n))
        (Tree.bytes?_eq_some.mp h₁.content) size) fun result t₂ hcopy => ?_
      rcases hcopy with ⟨hfail, rfl⟩ | ⟨⟨hdir, hfile⟩, count, hcopied⟩
      · rw [if_pos hfail]
        exact ⟨_, .nothing, h₁⟩
      have hpossible := canBackUp_of_ensured hf hn hensured hdir hfile
      have h₂ := h₁.trans (views_version hf hn hcopied)
      rw [h₁.content, h₁.versions] at h₂
      split
      · exact ⟨_, .cut hpossible count, h₂⟩
      rw [wpWith_bind]
      refine wpWith_mono (cleanupOldVersions_cut hf (Tree.isDir_of_update hdir hcopied))
        fun _ t₃ h => ?_
      obtain ⟨seen, hseen, hcleaned⟩ := h
      rw [entriesIn_update hcopied, hentries] at hseen
      have h₃ := h₂.trans (hcleaned.views hf (int_of_shed seen))
      rw [h₂.content, h₂.versions] at h₃
      exact ⟨_, .cleaned hpossible count seen hseen, h₃⟩

/-- It can come to nothing, and if it is possible it can leave the version empty, before the
cleanup or after it. -/
theorem saveVersion_outcomes {Q : ℤ → Tree → Prop}
    (h : wpWith disk IoFaults (saveVersion f n) Q t) :
    Q (-1) t ∧ (CanBackUp t f n →
      (bytes ≠ [] → ∃ t', Q (-1) t' ∧
        Views t f (some bytes) (Function.update (storedVersion t f) n (some [])) t') ∧
      ∀ seen, Seen 256 (backupEntries t f n) seen → ∃ t', Q 0 t' ∧
        Views t f (some bytes) (without (shed maxVersions entryNumber seen)
          (Function.update (storedVersion t f) n (some []))) t') := by
  simp only [saveVersion] at h
  rw [wpWith_bind] at h
  obtain ⟨hfail, hmake⟩ := ensureVersionDir_outcomes h
  refine ⟨hfail, fun hpossible => ?_⟩
  obtain ⟨t₁, hmade, hensured, hdir⟩ := hmake hpossible.1
  obtain ⟨h₁, hentries⟩ := hensured.views hf hcontent
  have hsrc : t₁.at? (resolve (getFilepath f)) = some (.file bytes) :=
    Tree.bytes?_eq_some.mp h₁.content
  have hfile : t₁.at? (versionName n :: resolve (versionDirPath f)) ≠ some .dir := fun hat => by
    have hfree := h₁.files n hpossible.2
    rw [resolve_versionPath_int hf hn le_rfl, Tree.isDir_of_at? hat] at hfree
    exact Bool.noConfusion hfree
  simp only [lt_irrefl, if_false, perform_bind, pure_eq_ret] at hmade
  have hcopy := hmade .fine trivial
  obtain ⟨size, hsize⟩ := Tree.exists_stat h₁.content
  rw [Conditions.fine_fine.exec_stat, hsize] at hcopy
  dsimp only at hcopy
  rw [wpWith_bind] at hcopy
  obtain ⟨t₂, hempty, hdone, hbroken⟩ := copyFile_empty (plainName_versionName n)
    (resolve_versionPath_int hf hn le_rfl) (content_ne_entry hf (plainName_versionName n)) hdir
    hfile hsrc hcopy
  have h₂ := h₁.trans (views_version hf hn hempty)
  rw [h₁.content, h₁.versions] at h₂
  refine ⟨fun hsome => ⟨t₂, hbroken hsome, h₂⟩, fun seen hseen => ?_⟩
  rw [backupEntries, ← hentries, ← entriesIn_update hempty] at hseen
  simp only [lt_irrefl, if_false] at hdone
  rw [wpWith_bind] at hdone
  obtain ⟨result, t₃, hQ, hcleaned⟩ := cleanupOldVersions_outcomes hf
    (Tree.isDir_of_update hdir hempty) hdone hseen
  have h₃ := h₂.trans (hcleaned.views hf (int_of_shed seen))
  rw [h₂.content, h₂.versions] at h₃
  exact ⟨t₃, hQ, h₃⟩

end Backup

/-! ## Replacing the content -/

section Replace

variable (hf : f.length < maxFilename)

include hf

/-- The versions are elsewhere. -/
theorem versions_of_writesContent {prog : Prog Sys ℤ} (h : WritesOnly (ContentPlace f) prog) :
    wpWith disk IoFaults prog (fun _ t' => storedVersion t' f = storedVersion t f) t := by
  refine wpWith_mono (h.wpWith t) fun _ t' hsame => ?_
  funext k
  exact Tree.bytes?_congr (hsame _ (content_ne_versionPath hf k).symm)

/-- A changed content shows, and nothing else. -/
theorem views_content (hcontent : t'.at? = Function.update t.at? (resolve (getFilepath f))
      (some (.file bytes))) :
    Views t f (some bytes) (storedVersion t f) t' := by
  have hpath : ∀ k, t'.at? (resolve (versionPath 256 f k)) =
      t.at? (resolve (versionPath 256 f k)) := fun k => by
    rw [hcontent, Function.update_of_ne (content_ne_versionPath hf k).symm]
  refine ⟨Tree.bytes?_eq_some.mpr ?_, funext fun k => Tree.bytes?_congr (hpath k),
    fun k hk => (Tree.isDir_congr (hpath k)).trans hk⟩
  rw [hcontent, Function.update_self]

omit hf in
/-- A version that is not stored is not restored. -/
theorem restoreVersion_missing (hnone : storedVersion t f k = none)
    (hfile : t.isDir (resolve (versionPath 256 f k)) = false) :
    wpWith disk IoFaults (restoreVersion f k) (fun _ t' => t' = t) t := by
  simp only [restoreVersion, perform_bind, pure_eq_ret]
  refine io_stat rfl ?_
  rw [Tree.stat, hfile, show t.bytes? _ = none from hnone]
  rfl

section Outcomes

variable {old : Bytes} (hfiled : t.Filed) (hcontent : content t f = some old)

include hfiled hcontent

/-- `save_file` can leave the file empty, and can leave the data. -/
theorem saveFile_outcomes {data : Bytes} {Q : ℤ → Tree → Prop}
    (h : wpWith disk IoFaults (saveFile f data) Q t) :
    (∃ result t', Q result t' ∧ Views t f (some []) (storedVersion t f) t') ∧
      ∃ result t', Q result t' ∧ Views t f (some data) (storedVersion t f) t' := by
  obtain ⟨name, dir, hpath, hname, hdir, hfile⟩ := hfiled.file hcontent
  obtain ⟨hopen, hopened⟩ := Tree.openTrunc_fine hname hdir hfile
  simp only [saveFile, perform_bind, pure_eq_ret] at h
  have hlock := h .fine trivial
  rw [Conditions.fine_fine.exec_openTrunc, hpath, hopen] at hlock
  simp only [Bool.not_true, Bool.false_eq_true, if_false, io_lock] at hlock
  constructor
  · have hwrite := hlock .failing trivial
    rw [failing_write] at hwrite
    simp only [ne_eq, reduceCtorEq, not_false_eq_true, if_true, io_unlock, io_close,
      wpWith_ret] at hwrite
    exact ⟨_, _, hwrite, views_content hf (hpath ▸ hopened)⟩
  · have hwrite := hlock .fine trivial
    have hempty : (t.openTrunc (name :: dir)).2.at? (name :: dir) = some (.file []) := by
      rw [hopened, Function.update_self]
    have hdata := Tree.write_fine hname hempty 0 data
    rw [Conditions.fine_fine.exec_write, hpath] at hwrite
    simp only [ne_eq, not_true_eq_false, if_false, io_unlock, io_close, wpWith_ret] at hwrite
    refine ⟨_, _, hwrite, views_content hf ?_⟩
    rw [hpath, hdata, hopened, Function.update_idem]
    simp [Tree.overwrite]

/-- Restoring can leave the file empty, and can leave the version. -/
theorem restoreVersion_outcomes (hstored : storedVersion t f k = some bytes) {Q : ℤ → Tree → Prop}
    (h : wpWith disk IoFaults (restoreVersion f k) Q t) :
    (∃ result t', Q result t' ∧ Views t f (some []) (storedVersion t f) t') ∧
      ∃ result t', Q result t' ∧ Views t f (some bytes) (storedVersion t f) t' := by
  obtain ⟨name, dir, hpath, hname, hdir, hfile⟩ := hfiled.file hcontent
  have hsrc := Tree.bytes?_eq_some.mp hstored
  have hne : resolve (versionPath 256 f k) ≠ name :: dir :=
    hpath ▸ (content_ne_versionPath hf k).symm
  obtain ⟨entry, hentry, hentrypath⟩ := versionPath_entry hf k
  simp only [restoreVersion, perform_bind, pure_eq_ret] at h
  have hcopy := h .fine trivial
  rw [Conditions.fine_fine.exec_stat, hentrypath,
    Tree.stat_of_file hentry (hentrypath ▸ hsrc)] at hcopy
  dsimp only at hcopy
  rw [wpWith_bind] at hcopy
  constructor
  · obtain ⟨t', hempty, hdone, -⟩ := copyFile_empty hname hpath hne hdir hfile hsrc hcopy
    simp only [lt_irrefl, if_false] at hdone
    exact ⟨_, t', hdone, views_content hf (hpath ▸ hempty)⟩
  · obtain ⟨result, t', hdone, rfl, hcopied⟩ := wpWith_wp Conditions.fine_fine
      (fun call t => ioFaults_of_fine Conditions.fine_fine call t) hcopy
      (copyFile_fine hname hpath hne hdir hfile hsrc)
    simp only [lt_irrefl, if_false] at hdone
    exact ⟨_, t', hdone, views_content hf (hpath ▸ hcopied)⟩

end Outcomes

omit hf in
/-- Nothing is lost of an empty file when nothing is written to it. -/
theorem saveFile_nil (hempty : content t f = some []) :
    wpWith disk IoFaults (saveFile f []) (fun _ t' => content t' f = some []) t := by
  simp only [saveFile, perform_bind, pure_eq_ret]
  refine io_openTrunc hempty ?_
  rcases Tree.openTrunc_cases t (resolve (getFilepath f)) with hrefused | ⟨hopen, hpath, hopened⟩
  · rw [hrefused]
    exact hempty
  rw [hopen]
  simp only [Bool.not_true, Bool.false_eq_true, if_false, io_lock]
  refine io_write ?_ fun n _ => ?_
  · simp only [ne_eq, reduceCtorEq, not_false_eq_true, if_true, io_unlock, io_close, wpWith_ret]
    exact hopened
  · have hwritten := Tree.bytes?_write_empty hpath hopened ([].take n)
    rw [List.take_nil] at hwritten ⊢
    split <;> simp only [io_unlock, io_close, wpWith_ret] <;> exact hwritten

end Replace

end CloudSync
