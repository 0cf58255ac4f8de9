import CloudSync.Lib.FaultFree
import CloudSync.Lib.Outcomes

/-!
# Calls that may fail

What opening and writing a file does to the tree, for calls that meet any
conditions.  `IoFaults` are the conditions in which `mkdir`, `stat`, `open`,
`read` and `write` may fail or fall short and nothing else may; the rules for
`wpWith disk IoFaults` name what each of these calls can come to.
-/

namespace Files

open CText Calls Calls.Prog

namespace Tree

variable {t : Tree} {p : Path} {name : Bytes} {dir : Path}

/-- A file opened for writing is there, and empty. -/
theorem openTrunc_opened (h : (t.openTrunc p).1 = true) :
    (t.openTrunc p).2.bytes? p = some [] := by
  cases p with
  | nil => exact Bool.noConfusion h
  | cons name dir =>
      simp only [openTrunc] at h ⊢
      split at h
      · next hname =>
        split at h
        · next hfree =>
          rw [dif_pos hname, if_pos hfree, bytes?_eq_some]
          exact at?_insert_self hname
        · exact Bool.noConfusion h
      · exact Bool.noConfusion h

theorem openTrunc_refused (h : (t.openTrunc p).1 = false) : (t.openTrunc p).2 = t := by
  cases p with
  | nil => rfl
  | cons name dir =>
      simp only [openTrunc] at h ⊢
      split at h
      · split at h
        · exact Bool.noConfusion h
        · next hname hfree => rw [dif_pos hname, if_neg hfree]
      · next hname => rw [dif_neg hname]

theorem openTrunc_ne_nil (h : (t.openTrunc p).1 = true) : p ≠ [] := by
  rintro rfl
  exact Bool.noConfusion h

/-- Opening for writing fails and changes nothing, or empties the file. -/
theorem openTrunc_cases (t : Tree) (p : Path) :
    t.openTrunc p = (false, t) ∨
      ((t.openTrunc p).1 = true ∧ p ≠ [] ∧ (t.openTrunc p).2.bytes? p = some []) := by
  cases hopen : (t.openTrunc p).1 with
  | false => exact Or.inl (Prod.ext hopen (openTrunc_refused hopen))
  | true => exact Or.inr ⟨rfl, openTrunc_ne_nil hopen, openTrunc_opened hopen⟩

/-- Making a directory fails and changes nothing, or a new directory is in an existing one. -/
theorem mkdir_cases (t : Tree) (name : Bytes) (dir : Path) :
    t.mkdir (name :: dir) = (false, t) ∨ ((t.mkdir (name :: dir)).1 = true ∧
      (t.isDir dir = true ∧ t.at? (name :: dir) = none) ∧
      (t.mkdir (name :: dir)).2.at? = Function.update t.at? (name :: dir) (some .dir)) := by
  simp only [mkdir]
  split
  · next hname =>
    split
    · next hfree =>
      rw [Bool.and_eq_true_iff, Option.isNone_iff_eq_none] at hfree
      exact Or.inr ⟨rfl, hfree, at?_insert hname⟩
    · exact Or.inl rfl
  · exact Or.inl rfl

/-- Opening for writing fails and changes nothing, or an empty file is in an existing
directory. -/
theorem openTrunc_at?_cases (t : Tree) (name : Bytes) (dir : Path) :
    t.openTrunc (name :: dir) = (false, t) ∨ ((t.openTrunc (name :: dir)).1 = true ∧
      (t.isDir dir = true ∧ t.isDir (name :: dir) = false) ∧
      (t.openTrunc (name :: dir)).2.at? =
        Function.update t.at? (name :: dir) (some (.file []))) := by
  simp only [openTrunc]
  split
  · next hname =>
    split
    · next hfree =>
      rw [Bool.and_eq_true_iff, Bool.not_eq_true'] at hfree
      exact Or.inr ⟨rfl, hfree, at?_insert hname⟩
    · exact Or.inl rfl
  · exact Or.inl rfl

/-- Writing changes nothing, or an existing file. -/
theorem write_at?_cases (t : Tree) (p : Path) (offset : ℕ) (data : Bytes) :
    t.write p offset data = t ∨ ∃ old, t.at? p = some (.file old) ∧
      (t.write p offset data).at? =
        Function.update t.at? p (some (.file (overwrite old offset data))) := by
  unfold write
  split
  · next name dir old hold =>
    split
    · next hname => exact Or.inr ⟨old, bytes?_eq_some.mp hold, at?_insert hname⟩
    · exact Or.inl rfl
  · exact Or.inl rfl

/-- Removing changes nothing, or a file or an empty directory is gone. -/
theorem remove_cases (t : Tree) (p : Path) :
    (t.remove p).2 = t ∨
      ((t.remove p).2 = t.erase p ∧ (t.at? p = some .dir → t.children p = [])) := by
  unfold remove
  split
  · next hfile => exact Or.inr ⟨rfl, fun hdir => absurd (hfile.symm.trans hdir) (by simp)⟩
  · split
    · next hempty => exact Or.inr ⟨rfl, fun _ => List.isEmpty_iff.mp hempty⟩
    · exact Or.inl rfl
  · exact Or.inl rfl

/-- What has been removed, be it a file or a directory, is no file. -/
theorem bytes?_remove (t : Tree) (p : Path) : (t.remove p).2.bytes? p = none := by
  unfold remove
  split
  · rw [bytes?, at?_erase_self]
  · next hdir =>
    split
    · rw [bytes?, at?_erase_self]
    · rw [bytes?, hdir]
  · next hnone => rw [bytes?, hnone]

theorem remove_at?_cases (t : Tree) (p q : Path) :
    (t.remove p).2.at? q = t.at? q ∨ (t.remove p).2.at? q = none ∧ q = p := by
  by_cases hq : q = p
  · subst hq
    rcases remove_cases t q with hsame | ⟨hgone, -⟩
    · rw [hsame]
      exact Or.inl rfl
    · rw [hgone, at?_erase_self]
      exact Or.inr ⟨rfl, rfl⟩
  · exact Or.inl (remove_at?_of_ne hq)

theorem rmdir_cases (t : Tree) (p : Path) :
    (t.rmdir p).2 = t ∨
      ((t.rmdir p).2 = t.erase p ∧ (t.at? p = some .dir → t.children p = [])) := by
  unfold rmdir
  split
  · split
    · next hempty => exact Or.inr ⟨rfl, fun _ => List.isEmpty_iff.mp hempty⟩
    · exact Or.inl rfl
  · exact Or.inl rfl

theorem exists_stat {bytes : Bytes} (h : t.bytes? p = some bytes) : ∃ size, t.stat p = some size := by
  rw [stat, h]
  split
  · exact ⟨_, rfl⟩
  · exact ⟨_, rfl⟩

theorem bytes?_write {old : Bytes} (hp : p ≠ []) (hold : t.bytes? p = some old) (offset : ℕ)
    (data : Bytes) : (t.write p offset data).bytes? p = some (overwrite old offset data) := by
  cases p with
  | nil => exact absurd rfl hp
  | cons name dir =>
      have hat := bytes?_eq_some.mp hold
      have hname : PlainName name := plainName_of_at? (by rw [hat]; rfl)
      simp only [write, hold, dif_pos hname]
      exact bytes?_eq_some.mpr (at?_insert_self hname)

/-- Data written into an empty file. -/
theorem bytes?_write_empty (hp : p ≠ []) (hempty : t.bytes? p = some []) (data : Bytes) :
    (t.write p 0 data).bytes? p = some data := by
  rw [bytes?_write hp hempty]
  simp [overwrite]

/-! ## Entries in directories -/

/-- Every entry is in a directory. -/
def Filed (t : Tree) : Prop := ∀ p ∈ t.nodes.keys, p ≠ [] ∧ t.isDir p.tail = true

instance (t : Tree) : Decidable t.Filed :=
  inferInstanceAs (Decidable (∀ p ∈ t.nodes.keys, p ≠ [] ∧ t.isDir p.tail = true))

theorem filed_iff : t.Filed ↔
    ∀ p, (t.at? p).isSome → ∃ name dir, p = name :: dir ∧ t.isDir dir = true := by
  simp only [Filed, at?, AList.lookup_isSome, AList.mem_keys]
  refine forall₂_congr fun p _ => ?_
  cases p with
  | nil => simp
  | cons name dir => simp

theorem isDir_congr {t' : Tree} (h : t'.at? p = t.at? p) : t'.isDir p = t.isDir p := by
  rw [isDir, isDir, h]

theorem isDir_mono {t' : Tree} (h : t.at? p = some .dir → t'.at? p = some .dir)
    (hdir : t.isDir p = true) : t'.isDir p = true := by
  rw [isDir, Bool.or_eq_true_iff, beq_iff_eq] at hdir ⊢
  exact hdir.imp id h

/-- A file is in a directory, and is none. -/
theorem Filed.file {bytes : Bytes} (hfiled : t.Filed) (h : t.bytes? p = some bytes) :
    ∃ name dir, p = name :: dir ∧ PlainName name ∧ t.isDir dir = true ∧
      t.at? (name :: dir) ≠ some .dir := by
  have hat := bytes?_eq_some.mp h
  have hsome : (t.at? p).isSome := Option.isSome_iff_exists.mpr ⟨_, hat⟩
  obtain ⟨name, dir, rfl, hdir⟩ := filed_iff.mp hfiled p hsome
  exact ⟨name, dir, rfl, plainName_of_at? hsome, hdir, by simp [hat]⟩

/-- An entry is put into a directory; what was a directory still is. -/
theorem Filed.update {t' : Tree} {node : Node} (hfiled : t.Filed) (hdir : t.isDir dir = true)
    (hkeeps : t.at? (name :: dir) = some .dir → node = .dir)
    (h : t'.at? = Function.update t.at? (name :: dir) (some node)) : t'.Filed := by
  have hdirs : ∀ q, t.isDir q = true → t'.isDir q = true := fun q => isDir_mono fun hq => by
    rw [h]
    by_cases hqp : q = name :: dir
    · rw [hqp] at hq ⊢
      rw [Function.update_self, hkeeps hq]
    · rw [Function.update_of_ne hqp, hq]
  rw [filed_iff] at hfiled ⊢
  intro q hq
  by_cases hqp : q = name :: dir
  · exact ⟨name, dir, hqp, hdirs dir hdir⟩
  · rw [h, Function.update_of_ne hqp] at hq
    obtain ⟨name', dir', rfl, hdir'⟩ := hfiled q hq
    exact ⟨name', dir', rfl, hdirs dir' hdir'⟩

/-- What is erased has held nothing. -/
theorem Filed.erase (hfiled : t.Filed) (hempty : t.at? p = some .dir → t.children p = []) :
    (t.erase p).Filed := by
  rw [filed_iff] at hfiled ⊢
  intro q hq
  have hne : q ≠ p := by
    rintro rfl
    rw [at?_erase_self] at hq
    exact Bool.noConfusion hq
  rw [at?_erase_of_ne hne] at hq
  obtain ⟨name, dir, rfl, hdir⟩ := hfiled q hq
  refine ⟨name, dir, rfl, isDir_mono (fun hat => ?_) hdir⟩
  rw [at?_erase_of_ne, hat]
  rintro rfl
  have hmem := mem_children.mpr hq
  rw [hempty hat] at hmem
  exact List.not_mem_nil hmem

end Tree

/-- No call takes an entry out of its directory. -/
theorem Tree.Filed.exec {t : Tree} (hfiled : t.Filed) {β : Type} (call : Sys β) (c : Conditions) :
    (disk.exec c call t).2.Filed := by
  cases call with
  | mkdir path =>
      simp only [disk]
      split
      · exact hfiled
      cases resolve path with
      | nil => exact hfiled
      | cons name dir =>
          rcases Tree.mkdir_cases t name dir with hsame | ⟨-, ⟨hdir, -⟩, hmade⟩
          · rwa [hsame]
          · exact hfiled.update hdir (fun _ => rfl) hmade
  | openTrunc path =>
      simp only [disk]
      split
      · exact hfiled
      cases resolve path with
      | nil => exact hfiled
      | cons name dir =>
          rcases Tree.openTrunc_at?_cases t name dir with hsame | ⟨-, ⟨hdir, hfile⟩, hopened⟩
          · rwa [hsame]
          · refine hfiled.update hdir (fun hat => ?_) hopened
            rw [Tree.isDir_of_at? hat] at hfile
            exact Bool.noConfusion hfile
  | write path offset data =>
      simp only [disk]
      split
      · exact hfiled
      rcases Tree.write_at?_cases t (resolve path) offset
        (data.take (c.outcome.limit data.length)) with hsame | ⟨old, hold, hwritten⟩
      · rwa [hsame]
      · obtain ⟨name, dir, hpath, hdir⟩ := Tree.filed_iff.mp hfiled _
          (Option.isSome_iff_exists.mpr ⟨_, hold⟩)
        rw [hpath] at hold hwritten ⊢
        exact hfiled.update hdir (fun hat => absurd (hold.symm.trans hat) (by simp)) hwritten
  | remove path =>
      simp only [disk]
      split
      · exact hfiled
      rcases Tree.remove_cases t (resolve path) with hsame | ⟨hgone, hempty⟩
      · rwa [hsame]
      · rw [hgone]
        exact hfiled.erase hempty
  | rmdir path =>
      simp only [disk]
      split
      · exact hfiled
      rcases Tree.rmdir_cases t (resolve path) with hsame | ⟨hgone, hempty⟩
      · rwa [hsame]
      · rw [hgone]
        exact hfiled.erase hempty
  | stat _ | openRead _ | read _ _ _ | readdir _ =>
      simp only [disk]
      split <;> exact hfiled
  | lock _ _ | unlock _ | close _ => exact hfiled

theorem Tree.Filed.run {α : Type} {t : Tree} (hfiled : t.Filed) (prog : Prog Sys α)
    (env : ℕ → Conditions) : (prog.run disk env t).2.Filed := by
  induction prog generalizing env t with
  | ret value => exact hfiled
  | call c next ih => exact ih _ (hfiled.exec c _) _

/-- A call that opens a file for writing: it fails and changes nothing, or the
file is empty. -/
theorem exec_openTrunc (c : Conditions) (path : Bytes) (t : Tree) :
    disk.exec c (.openTrunc path) t = (false, t) ∨
      ((disk.exec c (.openTrunc path) t).1 = true ∧ resolve path ≠ [] ∧
        (disk.exec c (.openTrunc path) t).2.bytes? (resolve path) = some []) := by
  by_cases hfail : c.outcome = .fail
  · left
    exact if_pos hfail
  · have hexec : disk.exec c (.openTrunc path) t = t.openTrunc (resolve path) := if_neg hfail
    rw [hexec]
    exact Tree.openTrunc_cases t (resolve path)

/-! ## Short counts -/

theorem Outcome.limit_le (o : Outcome) (n : ℕ) : o.limit n ≤ n := by
  cases o with
  | ok => exact le_rfl
  | fail => exact le_rfl
  | short k => exact Nat.min_le_right k n

/-- What gets through of data that are written in one call. -/
def written (o : Outcome) (data : Bytes) : Bytes :=
  if o = .fail then [] else data.take (o.limit data.length)

theorem written_length_le (o : Outcome) (data : Bytes) :
    (written o data).length ≤ data.length := by
  unfold written
  split
  · exact Nat.zero_le _
  · exact List.length_take_le' _ _

theorem bytes?_exec_write (c : Conditions) {path : Bytes} {t : Tree} (hpath : resolve path ≠ [])
    (hempty : t.bytes? (resolve path) = some []) (data : Bytes) :
    (disk.exec c (.write path 0 data) t).2.bytes? (resolve path) = some (written c.outcome data) := by
  unfold written
  by_cases hfail : c.outcome = .fail
  · simp only [disk, if_pos hfail]
    exact hempty
  · simp only [disk, if_neg hfail]
    exact Tree.bytes?_write_empty hpath hempty _

/-! ## Faults of some calls -/

/-- `mkdir`, `stat`, `open`, `read` and `write` meet anything, the other calls only
fine conditions. -/
def IoFaults {β : Type} (call : Sys β) (c : Conditions) (_ : Tree) : Prop :=
  match call with
  | .mkdir _ => True
  | .stat _ => True
  | .openRead _ => True
  | .openTrunc _ => True
  | .read _ _ _ => True
  | .write _ _ _ => True
  | _ => c.Fine

instance (c : Conditions) : Decidable c.Fine := inferInstanceAs (Decidable (c.outcome = .ok))

instance {β : Type} (call : Sys β) (c : Conditions) (t : Tree) : Decidable (IoFaults call c t) := by
  cases call <;> (unfold IoFaults; infer_instance)

theorem ioFaults_of_fine {c : Conditions} (hc : c.Fine) {β : Type} (call : Sys β) (t : Tree) :
    IoFaults call c t := by
  cases call <;> trivial

/-- The conditions with everything going wrong. -/
def Conditions.failing : Conditions := { Conditions.fine with outcome := .fail }

instance : Nonempty Conditions := ⟨.fine⟩

section Failing

variable (path : Bytes) (t : Tree)

theorem failing_stat : disk.exec .failing (.stat path) t = (none, t) := rfl

theorem failing_read (offset count : ℕ) :
    disk.exec .failing (.read path offset count) t = (none, t) := rfl

theorem failing_write (offset : ℕ) (data : Bytes) :
    disk.exec .failing (.write path offset data) t = (none, t) := rfl

end Failing

section Rules

variable {α : Type} {Q : α → Tree → Prop} {t : Tree}

theorem io_stat {path : Bytes} {next : Option ℕ → Prog Sys α}
    (hfail : wpWith disk IoFaults (next none) Q t)
    (hok : wpWith disk IoFaults (next (t.stat (resolve path))) Q t) :
    wpWith disk IoFaults (.call (.stat path) next) Q t := by
  intro c _
  simp only [disk]
  split
  · exact hfail
  · exact hok

theorem io_mkdir {path : Bytes} {next : Bool → Prog Sys α}
    (hfail : wpWith disk IoFaults (next false) Q t)
    (hok : wpWith disk IoFaults (next (t.mkdir (resolve path)).1) Q (t.mkdir (resolve path)).2) :
    wpWith disk IoFaults (.call (.mkdir path) next) Q t := by
  intro c _
  simp only [disk]
  split
  · exact hfail
  · exact hok

theorem io_openRead {path : Bytes} {next : Bool → Prog Sys α}
    (hfail : wpWith disk IoFaults (next false) Q t)
    (hok : wpWith disk IoFaults (next (t.bytes? (resolve path)).isSome) Q t) :
    wpWith disk IoFaults (.call (.openRead path) next) Q t := by
  intro c _
  simp only [disk]
  split
  · exact hfail
  · exact hok

theorem io_openTrunc {path : Bytes} {next : Bool → Prog Sys α}
    (hfail : wpWith disk IoFaults (next false) Q t)
    (hok : wpWith disk IoFaults (next (t.openTrunc (resolve path)).1) Q
      (t.openTrunc (resolve path)).2) :
    wpWith disk IoFaults (.call (.openTrunc path) next) Q t := by
  intro c _
  simp only [disk]
  split
  · exact hfail
  · exact hok

/-- A read fails, or returns as many bytes as it likes. -/
theorem io_read {path : Bytes} {offset count : ℕ} {next : Option Bytes → Prog Sys α}
    (hfail : wpWith disk IoFaults (next none) Q t)
    (hok : ∀ n ≤ count, wpWith disk IoFaults (next (some (t.read (resolve path) offset n))) Q t) :
    wpWith disk IoFaults (.call (.read path offset count) next) Q t := by
  intro c _
  simp only [disk]
  split
  · exact hfail
  · exact hok _ (c.outcome.limit_le count)

/-- A write fails, or takes as many bytes as it likes. -/
theorem io_write {path : Bytes} {offset : ℕ} {data : Bytes} {next : Option ℕ → Prog Sys α}
    (hfail : wpWith disk IoFaults (next none) Q t)
    (hok : ∀ n ≤ data.length, wpWith disk IoFaults (next (some n)) Q
      (t.write (resolve path) offset (data.take n))) :
    wpWith disk IoFaults (.call (.write path offset data) next) Q t := by
  intro c _
  simp only [disk]
  split
  · exact hfail
  · have hle := c.outcome.limit_le data.length
    rw [List.length_take_of_le hle]
    exact hok _ hle

theorem io_lock {path : Bytes} {kind : LockKind} {next : Bool → Prog Sys α} :
    wpWith disk IoFaults (.call (.lock path kind) next) Q t ↔
      wpWith disk IoFaults (next true) Q t :=
  wpWith_call_iff ⟨.fine, rfl⟩ fun c (hc : c.Fine) => by
    simp [disk, show c.outcome = .ok from hc]

theorem io_unlock {path : Bytes} {next : Unit → Prog Sys α} :
    wpWith disk IoFaults (.call (.unlock path) next) Q t ↔
      wpWith disk IoFaults (next ()) Q t :=
  wpWith_call_iff ⟨.fine, rfl⟩ fun _ _ => rfl

theorem io_close {path : Bytes} {next : Unit → Prog Sys α} :
    wpWith disk IoFaults (.call (.close path) next) Q t ↔
      wpWith disk IoFaults (next ()) Q t :=
  wpWith_call_iff ⟨.fine, rfl⟩ fun _ _ => rfl

end Rules

/-- Whatever its calls meet, a program changes only the paths it writes at. -/
theorem WritesOnly.wpWith {α : Type} {P : Path → Prop} {prog : Prog Sys α} (h : WritesOnly P prog)
    (t : Tree) : Prog.wpWith disk IoFaults prog (fun _ t' => ∀ p, ¬ P p → t'.at? p = t.at? p) t :=
  wpWith_iff.mpr fun env _ _ hp => h.at?_run env t hp

/-- Whatever its calls meet, a program takes no entry out of its directory. -/
theorem Tree.Filed.wpWith {α : Type} {prog : Prog Sys α} {Q : α → Tree → Prop} {t : Tree}
    (hfiled : t.Filed) (h : Prog.wpWith disk IoFaults prog Q t) :
    Prog.wpWith disk IoFaults prog (fun value t' => Q value t' ∧ t'.Filed) t :=
  wpWith_iff.mpr fun env henv => ⟨wpWith_iff.mp h env henv, hfiled.run prog env⟩

end Files
