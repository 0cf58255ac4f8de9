import CloudSync.Lib.Expansion
import CloudSync.Lib.Faults

/-!
# Files that are unlinked while they are open

`disk` takes a descriptor for the path it was opened on.  Where several processes use the
files, that is not enough: a descriptor goes on standing for the file it was opened on when
that file is unlinked, also when another file takes its place at the path.

`processes` runs the calls of any number of processes.  Besides the tree it has
`OpenFiles`: the files that were unlinked, each with the path it had, and for every process
the paths at which its descriptor stands for one of these.  Locks are granted at any time,
so all runs that advisory locks leave are among its runs.

Alone a process sees none of this, as long as it reads and writes only files it has open and
unlinks none of these (`KeepsOpen`): it does what it does with `disk` (`run_processes`).
-/

namespace Files

open CText Calls Calls.Prog

/-- A call, and the process that makes it. -/
structure ProcessCall (ι : Type) (β : Type) where
  process : ι
  call : Sys β

/-- The files that were unlinked at each path, numbered, and for each process the number of
the one its descriptor for a path stands for.  If there is none, the descriptor stands for
the file in the tree. -/
structure OpenFiles (ι : Type) where
  stale : ι → Path → Option ℕ
  count : Path → ℕ
  unlinked : Path → ℕ → Bytes

namespace OpenFiles

variable {ι : Type}

/-- No file has been unlinked. -/
def fresh (ι : Type) : OpenFiles ι := ⟨fun _ _ => none, fun _ => 0, fun _ _ => []⟩

/-- The process opens the path. -/
def opened [DecidableEq ι] (o : OpenFiles ι) (i : ι) (p : Path) : OpenFiles ι :=
  { o with stale := Function.update o.stale i (Function.update (o.stale i) p none) }

/-- The file at the path is unlinked; the descriptors for it go on standing for it. -/
def unlink (o : OpenFiles ι) (p : Path) (bytes : Bytes) : OpenFiles ι where
  stale := fun i => Function.update (o.stale i) p (some ((o.stale i p).getD (o.count p)))
  count := Function.update o.count p (o.count p + 1)
  unlinked := Function.update o.unlinked p (Function.update (o.unlinked p) (o.count p) bytes)

/-- An unlinked file is written. -/
def store (o : OpenFiles ι) (p : Path) (n : ℕ) (bytes : Bytes) : OpenFiles ι :=
  { o with unlinked := Function.update o.unlinked p (Function.update (o.unlinked p) n bytes) }

end OpenFiles

/-- The bytes that a read of `count` bytes gets from a file. -/
def readAt (bytes : Bytes) (offset count : ℕ) : Bytes := (bytes.drop offset).take count

/-- What a call of process `i` does. -/
def execBy {ι : Type} [DecidableEq ι] (i : ι) (c : Conditions) {β : Type} (call : Sys β)
    (s : Tree × OpenFiles ι) : β × Tree × OpenFiles ι :=
  match call with
  | .openRead path =>
      let out := disk.exec c (.openRead path) s.1
      (out.1, out.2, if out.1 then s.2.opened i (resolve path) else s.2)
  | .openTrunc path =>
      let out := disk.exec c (.openTrunc path) s.1
      (out.1, out.2, if out.1 then s.2.opened i (resolve path) else s.2)
  | .read path offset count =>
      match s.2.stale i (resolve path) with
      | none =>
          let out := disk.exec c (.read path offset count) s.1
          (out.1, out.2, s.2)
      | some n =>
          if c.outcome = .fail then (none, s)
          else (some (readAt (s.2.unlinked (resolve path) n) offset (c.outcome.limit count)), s)
  | .write path offset data =>
      match s.2.stale i (resolve path) with
      | none =>
          let out := disk.exec c (.write path offset data) s.1
          (out.1, out.2, s.2)
      | some n =>
          if c.outcome = .fail then (none, s)
          else
            let written := data.take (c.outcome.limit data.length)
            (some written.length, s.1, s.2.store (resolve path) n
              (Tree.overwrite (s.2.unlinked (resolve path) n) offset written))
  | .remove path =>
      let out := disk.exec c (.remove path) s.1
      (out.1, out.2,
        if out.1 then ((s.1.bytes? (resolve path)).map (s.2.unlink (resolve path))).getD s.2
        else s.2)
  | call =>
      let out := disk.exec c call s.1
      (out.1, out.2, s.2)

/-- What the calls of the processes do. -/
def processes (ι : Type) [DecidableEq ι] :
    Handler (ProcessCall ι) Conditions (Tree × OpenFiles ι) where
  exec := fun c call s => execBy call.process c call.call s

/-- The calls of one process. -/
def byProcess {ι α : Type} (i : ι) (prog : Prog Sys α) : Prog (ProcessCall ι) α :=
  prog.expand fun c => perform ⟨i, c⟩

@[simp] theorem byProcess_ret {ι α : Type} (i : ι) (value : α) :
    byProcess i (.ret value : Prog Sys α) = .ret value := rfl

@[simp] theorem byProcess_call {ι α β : Type} (i : ι) (c : Sys β) (next : β → Prog Sys α) :
    byProcess i (.call c next) = .call ⟨i, c⟩ fun answer => byProcess i (next answer) := rfl

/-! ## A process alone -/

/-- The paths that a process has open. -/
def openPaths : Monitor Sys (List Path) where
  start := []
  next := fun g c answer =>
    match c, answer with
    | .openRead path, true => resolve path :: g
    | .openTrunc path, true => resolve path :: g
    | .close path, _ => g.erase (resolve path)
    | _, _ => g

/-- Only what is open is read or written, and it is not unlinked. -/
def KeepsOpen (g : List Path) : {β : Type} → Sys β → Prop
  | _, .read path _ _ => resolve path ∈ g
  | _, .write path _ _ => resolve path ∈ g
  | _, .remove path => resolve path ∉ g
  | _, _ => True

section Alone

variable {ι : Type} [DecidableEq ι] {i : ι} {g : List Path}

/-- The descriptors of the process for these paths stand for files in the tree. -/
def Linked (i : ι) (g : List Path) (o : OpenFiles ι) : Prop := ∀ p ∈ g, o.stale i p = none

theorem Linked.opened {o : OpenFiles ι} (h : Linked i g o) (p : Path) :
    Linked i (p :: g) (o.opened i p) := by
  intro q hq
  simp only [OpenFiles.opened, Function.update_self]
  by_cases hqp : q = p
  · rw [hqp, Function.update_self]
  · rw [Function.update_of_ne hqp]
    exact h q ((List.mem_cons.mp hq).resolve_left hqp)

omit [DecidableEq ι] in
theorem Linked.unlink {o : OpenFiles ι} (h : Linked i g o) {p : Path} (hp : p ∉ g) (bytes : Bytes) :
    Linked i g (o.unlink p bytes) := by
  intro q hq
  have hqp : q ≠ p := fun heq => hp (heq ▸ hq)
  simp only [OpenFiles.unlink, Function.update_of_ne hqp]
  exact h q hq

/-- A call of a process that keeps its files is the call of `disk`. -/
theorem exec_processes {β : Type} {c : Sys β} (hc : KeepsOpen g c) {o : OpenFiles ι}
    (ho : Linked i g o) (e : Conditions) (t : Tree) :
    ∃ o', (processes ι).exec e ⟨i, c⟩ (t, o) = ((disk.exec e c t).1, (disk.exec e c t).2, o') ∧
      Linked i (openPaths.next g c (disk.exec e c t).1) o' := by
  cases c with
  | openRead path =>
      refine ⟨_, rfl, ?_⟩
      dsimp only
      cases (disk.exec e (.openRead path) t).1 with
      | true => exact ho.opened _
      | false => exact ho
  | openTrunc path =>
      refine ⟨_, rfl, ?_⟩
      dsimp only
      cases (disk.exec e (.openTrunc path) t).1 with
      | true => exact ho.opened _
      | false => exact ho
  | read path offset count =>
      refine ⟨o, ?_, ho⟩
      simp only [processes, execBy, ho _ hc]
  | write path offset data =>
      refine ⟨o, ?_, ho⟩
      simp only [processes, execBy, ho _ hc]
  | close path => exact ⟨o, rfl, fun p hp => ho p (List.mem_of_mem_erase hp)⟩
  | remove path =>
      refine ⟨_, rfl, ?_⟩
      change Linked i g _
      split
      · cases t.bytes? (resolve path) with
        | none => exact ho
        | some bytes => exact ho.unlink hc bytes
      · exact ho
  | _ => exact ⟨o, rfl, ho⟩

/-- Alone a process that keeps its files does what it does with `disk`. -/
theorem run_processes {α : Type} {done : List Path → Prop} {prog : Prog Sys α}
    (hprog : Obeys openPaths KeepsOpen done g prog) (env : ℕ → Conditions) (t : Tree)
    {o : OpenFiles ι} (ho : Linked i g o) :
    ∃ o', (byProcess i prog).run (processes ι) env (t, o) =
      ((prog.run disk env t).1, (prog.run disk env t).2, o') := by
  induction prog generalizing g env t o with
  | ret value => exact ⟨o, rfl⟩
  | call c next ih =>
      obtain ⟨o', hexec, ho'⟩ := exec_processes hprog.1 ho (env 0) t
      rw [byProcess_call, run_call, run_call, hexec]
      exact ih _ (hprog.2 _) _ _ ho'

end Alone

/-! ## What the files of a path are like -/

/-- What a call writes, and at which offset. -/
def Sys.writes : {β : Type} → Sys β → Option (ℕ × Bytes)
  | _, .write _ offset data => some (offset, data)
  | _, _ => none

/-- An empty file satisfies `P`, and so does a file into which a part of what the call
writes is written. -/
structure Preserves (P : Bytes → Prop) {β : Type} (c : Sys β) : Prop where
  nil : P []
  overwrite : ∀ w ∈ c.writes, ∀ old, P old → ∀ k, P (Tree.overwrite old w.1 (w.2.take k))

/-- All files of a path, those that were unlinked included, satisfy `P`. -/
structure AllAt {ι : Type} (P : Bytes → Prop) (p : Path) (s : Tree × OpenFiles ι) : Prop where
  linked : ∀ bytes, s.1.bytes? p = some bytes → P bytes
  unlinked : ∀ n, P (s.2.unlinked p n)

section Files

variable {P : Bytes → Prop} {p : Path} {t : Tree} {β : Type} {c : Sys β}

theorem bytes?_of_update {t' : Tree} {node : Option Node}
    (h : t'.at? = Function.update t.at? p node) {bytes : Bytes} (hbytes : t'.bytes? p = some bytes) :
    node = some (.file bytes) := by
  have hat := Tree.bytes?_eq_some.mp hbytes
  rw [h, Function.update_self] at hat
  exact hat

/-- The file in the tree satisfies `P` as before. -/
theorem linked_exec (hfile : ∀ bytes, t.bytes? p = some bytes → P bytes)
    (hc : p ∈ c.target → Preserves P c) (e : Conditions) {bytes : Bytes}
    (hbytes : (disk.exec e c t).2.bytes? p = some bytes) : P bytes := by
  by_cases htarget : p ∈ c.target
  · have hkeeps := hc htarget
    by_cases hfail : e.outcome = .fail
    · cases c <;> simp only [disk, hfail, if_true] at hbytes <;> exact hfile bytes hbytes
    · cases c with
      | mkdir path =>
          obtain rfl : resolve path = p := Option.some.inj htarget
          simp only [disk, hfail, if_false] at hbytes
          cases hpath : resolve path with
          | nil =>
              rw [hpath] at hbytes hfile
              exact hfile bytes hbytes
          | cons name dir =>
              rw [hpath] at hbytes hfile
              rcases Tree.mkdir_cases t name dir with hsame | ⟨-, -, hafter⟩
              · rw [hsame] at hbytes
                exact hfile bytes hbytes
              · exact absurd (bytes?_of_update hafter hbytes) (by simp)
      | openTrunc path =>
          obtain rfl : resolve path = p := Option.some.inj htarget
          simp only [disk, hfail, if_false] at hbytes
          rcases Tree.openTrunc_cases t (resolve path) with hsame | ⟨-, -, hafter⟩
          · rw [hsame] at hbytes
            exact hfile bytes hbytes
          · rw [hafter] at hbytes
            exact Option.some.inj hbytes ▸ hkeeps.nil
      | write path offset data =>
          obtain rfl : resolve path = p := Option.some.inj htarget
          simp only [disk, hfail, if_false] at hbytes
          rcases Tree.write_at?_cases t (resolve path) offset
              (data.take (e.outcome.limit data.length)) with hsame | ⟨old, hold, hafter⟩
          · rw [hsame] at hbytes
            exact hfile bytes hbytes
          · have hnew := bytes?_of_update hafter hbytes
            have hpreserved := hkeeps.overwrite _ rfl old (hfile old (Tree.bytes?_eq_some.mpr hold))
              (e.outcome.limit data.length)
            obtain rfl := Node.file.inj (Option.some.inj hnew)
            exact hpreserved
      | remove path =>
          obtain rfl : resolve path = p := Option.some.inj htarget
          simp only [disk, hfail, if_false] at hbytes
          rcases Tree.remove_cases t (resolve path) with hsame | ⟨hgone, -⟩
          · rw [hsame] at hbytes
            exact hfile bytes hbytes
          · rw [hgone] at hbytes
            exact absurd (bytes?_of_update Tree.at?_erase hbytes) (by simp)
      | rmdir path =>
          obtain rfl : resolve path = p := Option.some.inj htarget
          simp only [disk, hfail, if_false] at hbytes
          rcases Tree.rmdir_cases t (resolve path) with hsame | ⟨hgone, -⟩
          · rw [hsame] at hbytes
            exact hfile bytes hbytes
          · rw [hgone] at hbytes
            exact absurd (bytes?_of_update Tree.at?_erase hbytes) (by simp)
      | _ => exact absurd htarget (Option.not_mem_none _)
  · rw [Tree.bytes?_congr (disk_at?_of_ne c e t htarget)] at hbytes
    exact hfile bytes hbytes

variable {ι : Type} [DecidableEq ι] {s : Tree × OpenFiles ι}

/-- The unlinked files satisfy `P` as before. -/
theorem AllAt.unlinked_exec (h : AllAt P p s) (hc : p ∈ c.target → Preserves P c) (i : ι)
    (e : Conditions) (n : ℕ) : P ((execBy i e c s).2.2.unlinked p n) := by
  have hupdate : ∀ (path : Path) (k : ℕ) (bytes : Bytes), (path = p → P bytes) →
      P (Function.update s.2.unlinked path (Function.update (s.2.unlinked path) k bytes) p n) := by
    intro path k bytes hbytes
    by_cases hpath : p = path
    · subst hpath
      rw [Function.update_self]
      by_cases hn : n = k
      · rw [hn, Function.update_self]
        exact hbytes rfl
      · rw [Function.update_of_ne hn]
        exact h.unlinked n
    · rw [Function.update_of_ne hpath]
      exact h.unlinked n
  cases c with
  | openRead path =>
      simp only [execBy]
      split <;> exact h.unlinked n
  | openTrunc path =>
      simp only [execBy]
      split <;> exact h.unlinked n
  | read path offset count =>
      simp only [execBy]
      split
      · exact h.unlinked n
      · split <;> exact h.unlinked n
  | write path offset data =>
      simp only [execBy]
      split
      · exact h.unlinked n
      · split
        · exact h.unlinked n
        · refine hupdate _ _ _ fun hpath => ?_
          subst hpath
          exact (hc rfl).overwrite _ rfl _ (h.unlinked _) _
  | remove path =>
      simp only [execBy]
      split
      · cases hbytes : s.1.bytes? (resolve path) with
        | none => exact h.unlinked n
        | some bytes =>
            refine hupdate _ _ _ fun hpath => ?_
            subst hpath
            exact h.linked bytes hbytes
      · exact h.unlinked n
  | _ => exact h.unlinked n

/-- The answers of the system are possible ones. -/
theorem possible_execBy (i : ι) (c : Sys β) (e : Conditions) (s : Tree × OpenFiles ι) :
    c.Possible (execBy i e c s).1 := by
  cases c with
  | readdir path => exact disk_possible _ e s.1
  | _ => trivial

/-- The tree after a call is that of `disk`, or the one before. -/
theorem tree_execBy (i : ι) (e : Conditions) (c : Sys β) (s : Tree × OpenFiles ι) :
    (execBy i e c s).2.1 = (disk.exec e c s.1).2 ∨ (execBy i e c s).2.1 = s.1 := by
  cases c with
  | read path offset count =>
      simp only [execBy]
      split
      · exact Or.inl rfl
      · split <;> exact Or.inr rfl
  | write path offset data =>
      simp only [execBy]
      split
      · exact Or.inl rfl
      · split <;> exact Or.inr rfl
  | _ => exact Or.inl rfl

/-- The files of a path satisfy `P` as before. -/
theorem AllAt.exec (h : AllAt P p s) (hc : p ∈ c.target → Preserves P c) (i : ι)
    (e : Conditions) : AllAt P p (execBy i e c s).2 := by
  refine ⟨fun bytes hbytes => ?_, h.unlinked_exec hc i e⟩
  rcases tree_execBy i e c s with htree | htree
  · rw [htree] at hbytes
    exact linked_exec h.linked hc e hbytes
  · rw [htree] at hbytes
    exact h.linked bytes hbytes

/-- What is read is a part of a file of the path. -/
theorem AllAt.read (hnil : P []) {path : Bytes} (h : AllAt P (resolve path) s) {i : ι}
    {e : Conditions} {offset count : ℕ} {bytes : Bytes}
    (hread : (execBy i e (.read path offset count) s).1 = some bytes) :
    ∃ file n, P file ∧ bytes = readAt file offset n := by
  simp only [execBy] at hread
  split at hread
  · simp only [disk] at hread
    split at hread
    · exact absurd hread (Option.some_ne_none _).symm
    · refine ⟨(s.1.bytes? (resolve path)).getD [], e.outcome.limit count, ?_,
        (Option.some.inj hread).symm⟩
      cases hfile : s.1.bytes? (resolve path) with
      | none => exact hnil
      | some file => exact h.linked file hfile
  · split at hread
    · exact absurd hread (Option.some_ne_none _).symm
    · exact ⟨_, _, h.unlinked _, (Option.some.inj hread).symm⟩

end Files

end Files
