import CloudSync.Lib.Faults
import CloudSync.Lib.Interleaving
import CloudSync.Names.Confinement

/-!
# A read while the file is replaced

`save_file` opens the file before it asks for the lock, and opening empties it;
`copy_file`, which `restore_version` uses, asks for no lock at all.  So a read can
come between the opening and the first write, and then finds nothing.

`Scheduled` are the steps of one `read_file` and one replacement, call by call:
nothing goes wrong, and a lock that conflicts with one held is waited for.  The
`Stage` of the writer when the read comes decides what is returned, and
`read_whole_iff` says when that is the old or the new content.
-/

namespace CloudSync

open CText Calls Calls.Prog Files

/-! ## The two parties -/

/-- Who reads and who writes. -/
inductive Party
  | reader
  | writer
  deriving DecidableEq

def Party.other : Party → Party
  | reader => writer
  | writer => reader

/-- The calls that replace the content of a file. -/
inductive Replacement
  | saveFile (data : Bytes)
  | restoreVersion (version : ℤ)

def Replacement.prog (f : Bytes) : Replacement → Prog Sys ℤ
  | .saveFile data => CloudSync.saveFile f data
  | .restoreVersion version => CloudSync.restoreVersion f version

/-- The replacement puts `new` in place of what there is. -/
def Replacement.Brings (t : Tree) (f new : Bytes) : Replacement → Prop
  | .saveFile data => data = new
  | .restoreVersion version => storedVersion t f version = some new

/-- One `read_file` and one replacement of the same file. -/
def readAndReplace (f : Bytes) (r : Replacement) : Party → Prog Sys (ℤ × Bytes)
  | .reader => readFile f
  | .writer => do
      let result ← r.prog f
      return (result, [])

/-- What has happened to the file at a path: nothing, the writer has opened it, or
it has written to it. -/
inductive Stage
  | untouched
  | emptied
  | written
  deriving DecidableEq

/-- The locks a party holds, and what it has done to the file. -/
structure Footing where
  held : List (Path × LockKind)
  stage : Stage

/-- The locks on a file, gone when it is unlocked or closed. -/
def Footing.release (g : Footing) (path : Bytes) : Footing :=
  { g with held := g.held.filter fun l => l.1 != resolve path }

/-- The footing, read off the calls. -/
def footing (p : Path) : Monitor Sys Footing where
  start := ⟨[], .untouched⟩
  next := fun g c answer =>
    match c, answer with
    | .lock path kind, true => { g with held := (resolve path, kind) :: g.held }
    | .unlock path, _ => g.release path
    | .close path, _ => g.release path
    | .openTrunc path, true => if resolve path = p then { g with stage := .emptied } else g
    | .write path _ _, some _ => if resolve path = p then { g with stage := .written } else g
    | _, _ => g

/-- A lock is granted next to the locks of another party: two on one file are read
locks. -/
def Admits (held : List (Path × LockKind)) : {β : Type} → Sys β → Prop
  | _, .lock path kind => ∀ l ∈ held, l.1 = resolve path → l.2 = .read ∧ kind = .read
  | _, _ => True

/-- The two parties at the file at `p`. -/
abbrev Parties := Pool Sys Footing (ℤ × Bytes) Party Tree

/-- A call succeeds, and no lock is taken that would have to be waited for. -/
def Scheduled (parties : Parties) (i : Party) (c : Conditions) : Prop :=
  c.Fine ∧ (parties.thread i).prog.AtCall fun call => Admits (parties.thread i.other).ghost.held call

instance (held : List (Path × LockKind)) {β : Type} (call : Sys β) : Decidable (Admits held call) :=
  match call with
  | .lock path kind =>
      List.decidableBAll (fun l : Path × LockKind => l.1 = resolve path → l.2 = .read ∧ kind = .read)
        held
  | .stat _ => isTrue trivial
  | .mkdir _ => isTrue trivial
  | .openRead _ => isTrue trivial
  | .openTrunc _ => isTrue trivial
  | .unlock _ => isTrue trivial
  | .read _ _ _ => isTrue trivial
  | .write _ _ _ => isTrue trivial
  | .close _ => isTrue trivial
  | .remove _ => isTrue trivial
  | .rmdir _ => isTrue trivial
  | .readdir _ => isTrue trivial

instance (parties : Parties) (i : Party) (c : Conditions) : Decidable (Scheduled parties i c) :=
  @instDecidableAnd _ _ (instDecidableEqOutcome c.outcome .ok)
    (@instDecidableAtCall Sys (ℤ × Bytes) _ (fun _ _ => instDecidableAdmits _ _) _)

/-- The program is about to read. -/
def readsNext {α : Type} : Prog Sys α → Bool
  | .call (.read _ _ _) _ => true
  | _ => false

/-- When the reader reads, note where the writer stands. -/
def noteStage (parties : Parties) (i : Party) (_ : Conditions) (seen : Option Stage) :
    Option Stage :=
  if seen = none ∧ i = .reader ∧ readsNext (parties.thread i).prog = true then
    some (parties.thread .writer).ghost.stage
  else seen

/-- The runs of a read and a replacement of `f`. -/
abbrev ReadReach (t : Tree) (f : Bytes) (r : Replacement) : Parties → Option Stage → Prop :=
  ReachWith disk (fun _ => footing (resolve (getFilepath f))) noteStage
    (fun parties _ => Scheduled parties)
    (Pool.start (fun _ => footing (resolve (getFilepath f))) (readAndReplace f r) t) none

/-! ## What the writer leaves to be read -/

section Writer

variable {p : Path} {old new : Bytes}

/-- What is stored at each stage, as far as a read can tell. -/
def Stage.Stores (old new : Bytes) (stored : Option Bytes) : Stage → Prop
  | .untouched => stored = some old
  | .emptied => stored = some []
  | .written => ∃ bytes, stored = some bytes ∧ bytes.take maxFileSize = new.take maxFileSize

/-- The stage of the writer tells what is stored, wherever the writer stands. -/
abbrev Staged {α : Type} (p : Path) (old new : Bytes) (g : Footing) (prog : Prog Sys α)
    (t : Tree) : Prop :=
  Always disk Conditions.Fine (footing p) (fun g t => g.stage.Stores old new (t.bytes? p)) g prog t

variable {t : Tree} {g : Footing} {α : Type}

/-- A call that is answered alike in all conditions that are fine. -/
theorem staged_of_exec {β : Type} {call : Sys β} {next : β → Prog Sys α} {answer : β} {t' : Tree}
    (hexec : ∀ c : Conditions, c.Fine → disk.exec c call t = (answer, t'))
    (h : g.stage.Stores old new (t.bytes? p))
    (hnext : Staged p old new ((footing p).next g call answer) (next answer) t') :
    Staged p old new g (.call call next) t := by
  refine ⟨h, fun c hc => ?_⟩
  rw [hexec c hc]
  exact hnext

theorem staged_unlock {path : Bytes} {next : Unit → Prog Sys α}
    (h : g.stage.Stores old new (t.bytes? p))
    (hnext : Staged p old new (g.release path) (next ()) t) :
    Staged p old new g (.call (.unlock path) next) t := ⟨h, fun _ _ => hnext⟩

theorem staged_close {path : Bytes} {next : Unit → Prog Sys α}
    (h : g.stage.Stores old new (t.bytes? p))
    (hnext : Staged p old new (g.release path) (next ()) t) :
    Staged p old new g (.call (.close path) next) t := ⟨h, fun _ _ => hnext⟩

theorem staged_lock {path : Bytes} {kind : LockKind} {next : Bool → Prog Sys α}
    (h : g.stage.Stores old new (t.bytes? p))
    (hnext : Staged p old new { g with held := (resolve path, kind) :: g.held } (next true) t) :
    Staged p old new g (.call (.lock path kind) next) t :=
  staged_of_exec (fun _ hc => hc.exec_lock path kind) h hnext

theorem staged_openTrunc {path : Bytes} {next : Bool → Prog Sys α} (hpath : resolve path = p)
    (h : g.stage.Stores old new (t.bytes? p))
    (hfail : Staged p old new g (next false) t)
    (hopen : p ≠ [] → (t.openTrunc p).2.bytes? p = some [] →
      Staged p old new { g with stage := .emptied } (next true) (t.openTrunc p).2) :
    Staged p old new g (.call (.openTrunc path) next) t := by
  refine ⟨h, fun c hc => ?_⟩
  rw [hc.exec_openTrunc path, hpath]
  obtain hnot | ⟨hopened, hp, hbytes⟩ := Tree.openTrunc_cases t p
  · rw [hnot]
    exact hfail
  · have hstage : (footing p).next g (.openTrunc path) true = { g with stage := .emptied } :=
      if_pos hpath
    rw [hopened, hstage]
    exact hopen hp hbytes

theorem staged_write {path : Bytes} {offset : ℕ} {data : Bytes} {next : Option ℕ → Prog Sys α}
    (hpath : resolve path = p) (h : g.stage.Stores old new (t.bytes? p))
    (hnext : Staged p old new { g with stage := .written } (next (some data.length))
      (t.write p offset data)) :
    Staged p old new g (.call (.write path offset data) next) t := by
  have hstage : (footing p).next g (.write path offset data) (some data.length) =
      { g with stage := .written } := if_pos hpath
  refine staged_of_exec (fun _ hc => hc.exec_write path offset data) h ?_
  rw [hstage, hpath]
  exact hnext

theorem staged_read {path : Bytes} {offset count : ℕ} {next : Option Bytes → Prog Sys α}
    (h : g.stage.Stores old new (t.bytes? p))
    (hnext : Staged p old new g (next (some (t.read (resolve path) offset count))) t) :
    Staged p old new g (.call (.read path offset count) next) t :=
  staged_of_exec (fun _ hc => hc.exec_read path offset count) h hnext

theorem staged_stat {path : Bytes} {next : Option ℕ → Prog Sys α}
    (h : g.stage.Stores old new (t.bytes? p))
    (hnext : Staged p old new g (next (t.stat (resolve path))) t) :
    Staged p old new g (.call (.stat path) next) t :=
  staged_of_exec (fun _ hc => hc.exec_stat path) h hnext

theorem staged_openRead {path : Bytes} {next : Bool → Prog Sys α}
    (h : g.stage.Stores old new (t.bytes? p))
    (hnext : Staged p old new g (next (t.bytes? (resolve path)).isSome) t) :
    Staged p old new g (.call (.openRead path) next) t :=
  staged_of_exec (fun _ hc => hc.exec_openRead path) h hnext

/-- `save_file` writes everything at once. -/
theorem saveFile_staged {f : Bytes} (hpath : resolve (getFilepath f) = p) (hg : g.stage = .untouched)
    (hold : t.bytes? p = some old) : Staged p old new g (saveFile f new) t := by
  have hnow : g.stage.Stores old new (t.bytes? p) := by rw [hg]; exact hold
  simp only [saveFile, perform_bind, pure_eq_ret]
  apply staged_openTrunc hpath hnow
  · exact hnow
  · intro hp hempty
    have hbytes : ((t.openTrunc p).2.write p 0 new).bytes? p = some new :=
      Tree.bytes?_write_empty hp hempty new
    refine staged_lock hempty (staged_write hpath hempty ?_)
    simp only [ne_eq, not_true_eq_false, if_false]
    refine staged_unlock ⟨new, hbytes, rfl⟩ (staged_close ⟨new, hbytes, rfl⟩ ?_)
    exact ⟨new, hbytes, rfl⟩

/-- The loop of `copy_file` writes piece by piece, the first piece being as much as
is ever read. -/
theorem copyLoop_staged {src dst : Bytes} (hdst : resolve dst = p) (hp : p ≠ [])
    (hne : resolve src ≠ p) (turns : ℕ) {offset : ℕ}
    (hsrc : t.bytes? (resolve src) = some new) (hbytes : t.bytes? p = some (new.take offset))
    (hstage : g.stage.Stores old new (t.bytes? p))
    (hoff : offset = 0 ∨ min 4096 new.length ≤ offset) :
    Staged p old new g (copyLoop src dst turns offset) t := by
  induction turns generalizing t g offset with
  | zero =>
      simp only [copyLoop, perform_bind, pure_eq_ret]
      exact staged_close hstage (staged_close hstage hstage)
  | succ turns ih =>
      simp only [copyLoop, perform_bind, pure_eq_ret]
      apply staged_read hstage
      have hread : t.read (resolve src) offset 4096 = (new.drop offset).take 4096 := by
        unfold Tree.read
        rw [hsrc]
        rfl
      rw [hread]
      cases hpiece : (new.drop offset).take 4096 with
      | nil => exact staged_close hstage (staged_close hstage hstage)
      | cons b more =>
          have hlt : offset < new.length := by
            by_contra hge
            rw [List.drop_eq_nil_of_le (by omega), List.take_nil] at hpiece
            exact List.cons_ne_nil b more hpiece.symm
          have hafter : (t.write p offset (b :: more)).bytes? p =
              some (new.take (offset + (b :: more).length)) := by
            rw [Tree.bytes?_write hp hbytes, Tree.overwrite_take hlt.le hpiece]
          have hfirst : offset = 0 → (b :: more).length = min 4096 new.length := by
            rintro rfl
            rw [← hpiece, List.length_take, List.drop_zero]
          have hnext : Stage.written.Stores old new ((t.write p offset (b :: more)).bytes? p) := by
            refine ⟨_, hafter, ?_⟩
            rw [List.take_take, List.take_eq_take_iff]
            unfold maxFileSize
            rcases hoff with hzero | hbig
            · have hlength := hfirst hzero
              omega
            · omega
          have hsrc' : (t.write p offset (b :: more)).bytes? (resolve src) = some new := by
            rw [Tree.bytes?_congr (Tree.write_at?_of_ne hne offset (b :: more)), hsrc]
          apply staged_write hdst hstage
          simp only [ne_eq, not_true_eq_false, if_false]
          refine ih hsrc' hafter hnext (Or.inr ?_)
          rcases hoff with hzero | hbig
          · have hlength := hfirst hzero
            omega
          · omega

theorem restoreVersion_staged {f : Bytes} (hf : f.length < maxFilename) {k : ℤ}
    (hpath : resolve (getFilepath f) = p) (hg : g.stage = .untouched) (hold : t.bytes? p = some old)
    (hversion : storedVersion t f k = some new) : Staged p old new g (restoreVersion f k) t := by
  have hnow : g.stage.Stores old new (t.bytes? p) := by rw [hg]; exact hold
  have hne : resolve (versionPath 256 f k) ≠ p := hpath ▸ (content_ne_versionPath hf k).symm
  simp only [restoreVersion, perform_bind, pure_eq_ret]
  apply staged_stat hnow
  cases t.stat (resolve (versionPath 256 f k)) with
  | none => exact hnow
  | some size =>
      have hcopy : Staged p old new g (copyFile (versionPath 256 f k) (getFilepath f) size) t := by
        simp only [copyFile, perform_bind, pure_eq_ret]
        apply staged_openRead hnow
        rw [show t.bytes? (resolve (versionPath 256 f k)) = some new from hversion]
        apply staged_openTrunc hpath hnow
        · exact staged_close hnow hnow
        · intro hp hempty
          refine copyLoop_staged hpath hp hne _ ?_ hempty hempty (Or.inl rfl)
          rw [← hversion]
          exact Tree.bytes?_congr (Tree.openTrunc_at?_of_ne hne)
      apply always_bind hcopy
      intro result g' t' hlast
      split
      · exact hlast
      · exact hlast

theorem writer_staged {f : Bytes} (hf : f.length < maxFilename) {r : Replacement}
    (hr : r.Brings t f new) (hold : content t f = some old) :
    Staged (resolve (getFilepath f)) old new ⟨[], .untouched⟩ (readAndReplace f r .writer) t := by
  refine always_bind ?_ fun _ _ _ hlast => hlast
  cases r with
  | saveFile data =>
      obtain rfl := hr
      exact saveFile_staged rfl rfl hold
  | restoreVersion version => exact restoreVersion_staged hf rfl rfl hold hr

end Writer

/-! ## What the reader returns -/

/-- The program changes nothing. -/
def Quiet {α : Type} : Prog Sys α → Prop
  | .ret _ => True
  | .call c next => (∀ e t, (disk.exec e c t).2 = t) ∧ ∀ answer, Quiet (next answer)

/-- The program returns success only after it has read the file from the start, and
then what it has read. -/
def AwaitsRead (p : Path) : Prog Sys (ℤ × Bytes) → Prop
  | .ret value => value.1 ≠ 0
  | .call (.read path offset count) next =>
      (resolve path = p ∧ offset = 0 ∧ count = maxFileSize) ∧
        ∀ bytes, Returns (· = (0, bytes)) (next (some bytes))
  | .call _ next => ∀ answer, AwaitsRead p (next answer)

section Reader

variable {f : Bytes}

theorem readFile_quiet : Quiet (readFile f) := by
  have hclose : Quiet (.call (.close (getFilepath f)) fun _ => .ret ((-1 : ℤ), ([] : Bytes))) :=
    ⟨fun _ _ => rfl, fun _ => trivial⟩
  simp only [readFile, perform_bind, pure_eq_ret]
  refine ⟨fun e t => ?_, fun opened => ?_⟩
  · simp only [disk]
    split <;> rfl
  · cases opened with
    | false => trivial
    | true =>
        refine ⟨fun _ _ => rfl, fun locked => ?_⟩
        cases locked with
        | false => exact hclose
        | true =>
            refine ⟨fun e t => ?_, fun out => ?_⟩
            · simp only [disk]
              split <;> rfl
            · cases out with
              | none => exact ⟨fun _ _ => rfl, fun _ => hclose⟩
              | some bytes => exact ⟨fun _ _ => rfl, fun _ => ⟨fun _ _ => rfl, fun _ => trivial⟩⟩

theorem readFile_awaitsRead : AwaitsRead (resolve (getFilepath f)) (readFile f) := by
  simp only [readFile, perform_bind, pure_eq_ret]
  intro opened
  cases opened with
  | false => exact fun h => absurd h (by decide)
  | true =>
      intro locked
      cases locked with
      | false => exact fun _ h => absurd h (by decide)
      | true =>
          refine ⟨⟨rfl, rfl, rfl⟩, fun bytes => ?_⟩
          exact returns_call fun _ => returns_call fun _ => returns_ret rfl

end Reader

/-- The reader reads the file, or makes a call that has nothing to do with what it
returns. -/
theorem AwaitsRead.step {p : Path} {β : Type} {call : Sys β} {next : β → Prog Sys (ℤ × Bytes)}
    (h : AwaitsRead p (.call call next)) {c : Conditions} (hc : c.Fine) (t : Tree) :
    (readsNext (.call call next) = true ∧
        Returns (· = (0, t.read p 0 maxFileSize)) (next (disk.exec c call t).1)) ∨
      (readsNext (.call call next) = false ∧ AwaitsRead p (next (disk.exec c call t).1)) := by
  cases call with
  | read path offset count =>
      obtain ⟨⟨rfl, rfl, rfl⟩, hreturns⟩ := h
      rw [hc.exec_read path 0 maxFileSize]
      exact Or.inl ⟨rfl, hreturns _⟩
  | _ => exact Or.inr ⟨rfl, h _⟩

/-- What a read finds at each stage. -/
def Stage.view (old new : Bytes) : Stage → Bytes
  | .untouched => old.take maxFileSize
  | .emptied => []
  | .written => new.take maxFileSize

theorem Stage.Stores.read {stage : Stage} {old new : Bytes} {t : Tree} {p : Path}
    (h : stage.Stores old new (t.bytes? p)) : t.read p 0 maxFileSize = stage.view old new := by
  unfold Tree.read
  cases stage with
  | untouched =>
      rw [show t.bytes? p = some old from h]
      rfl
  | emptied =>
      rw [show t.bytes? p = some [] from h]
      rfl
  | written =>
      obtain ⟨bytes, hbytes, hview⟩ := h
      rw [hbytes]
      exact hview

/-- The reader has not read yet, or will return what there was at that stage. -/
structure Observed (p : Path) (old new : Bytes) (parties : Parties) (seen : Option Stage) :
    Prop where
  writer : Staged p old new (parties.thread .writer).ghost (parties.thread .writer).prog
    parties.shared
  quiet : Quiet (parties.thread .reader).prog
  before : seen = none → AwaitsRead p (parties.thread .reader).prog
  after : ∀ stage ∈ seen,
    Returns (· = (0, stage.view old new)) (parties.thread .reader).prog

section Run

variable {p : Path} {old new : Bytes} {parties : Parties} {seen : Option Stage} {c : Conditions}

theorem Observed.step_reader (h : Observed p old new parties seen) (hc : c.Fine) :
    Observed p old new (parties.step disk (fun _ => footing p) .reader c)
      (noteStage parties .reader c seen) := by
  obtain ⟨hwriter, hquiet, hbefore, hafter⟩ := h
  cases hprog : (parties.thread .reader).prog with
  | ret value =>
      have hnote : noteStage parties .reader c seen = seen :=
        if_neg fun hread => by rw [hprog] at hread; exact Bool.noConfusion hread.2.2
      rw [Pool.step_ret hprog, hnote]
      exact ⟨hwriter, hquiet, hbefore, hafter⟩
  | @call β call next =>
      rw [hprog] at hquiet hbefore hafter
      have hsame := hquiet.1 c parties.shared
      have hother : Function.update parties.thread .reader
          ⟨(footing p).next (parties.thread .reader).ghost call (disk.exec c call parties.shared).1,
            next (disk.exec c call parties.shared).1⟩ .writer = parties.thread .writer :=
        Function.update_of_ne Party.noConfusion _ _
      rw [Pool.step_call hprog, hsame]
      have hreader : (seen = none → (readsNext (.call call next) = true ∧
            Returns (· = (0, (parties.thread .writer).ghost.stage.view old new))
              (next (disk.exec c call parties.shared).1)) ∨
          (readsNext (.call call next) = false ∧
            AwaitsRead p (next (disk.exec c call parties.shared).1))) := by
        intro hseen
        have hcases := (hbefore hseen).step hc parties.shared
        rwa [hwriter.now.read] at hcases
      have hnote : noteStage parties .reader c seen =
          if seen = none ∧ readsNext (.call call next) = true then
            some (parties.thread .writer).ghost.stage else seen := by
        unfold noteStage
        rw [hprog]
        simp only [true_and]
      refine ⟨?_, ?_, ?_, ?_⟩ <;> dsimp only
      · rw [hother]
        exact hwriter
      · rw [Function.update_self]
        exact hquiet.2 _
      · rw [Function.update_self, hnote]
        intro hnone
        split at hnone
        · exact (Option.some_ne_none _ hnone).elim
        · rename_i hnot
          rcases hreader hnone with hread | hread
          · exact absurd ⟨hnone, hread.1⟩ hnot
          · exact hread.2
      · rw [Function.update_self, hnote]
        intro stage hstage
        split at hstage
        · rename_i hread
          obtain rfl := Option.some.inj hstage
          rcases hreader hread.1 with hreturns | hnot
          · exact hreturns.2
          · rw [hread.2] at hnot
            exact Bool.noConfusion hnot.1
        · exact fun value hvalue => hafter stage hstage value ⟨_, hvalue⟩

theorem Observed.step_writer (h : Observed p old new parties seen) (hc : c.Fine) :
    Observed p old new (parties.step disk (fun _ => footing p) .writer c)
      (noteStage parties .writer c seen) := by
  obtain ⟨hwriter, hquiet, hbefore, hafter⟩ := h
  have hnote : noteStage parties .writer c seen = seen :=
    if_neg fun hread => Party.noConfusion hread.2.1
  rw [hnote]
  cases hprog : (parties.thread .writer).prog with
  | ret value =>
      rw [Pool.step_ret hprog]
      exact ⟨hwriter, hquiet, hbefore, hafter⟩
  | call call next =>
      rw [hprog] at hwriter
      have hother : Function.update parties.thread .writer
          ⟨(footing p).next (parties.thread .writer).ghost call (disk.exec c call parties.shared).1,
            next (disk.exec c call parties.shared).1⟩ .reader = parties.thread .reader :=
        Function.update_of_ne Party.noConfusion _ _
      rw [Pool.step_call hprog]
      refine ⟨?_, ?_, ?_, ?_⟩ <;> dsimp only
      · rw [Function.update_self]
        exact hwriter.2 c hc
      · rw [hother]
        exact hquiet
      · rw [hother]
        exact hbefore
      · rw [hother]
        exact hafter

/-- The sizes and contents with which a read at the stage returns the old or the new
content as a whole. -/
def Stage.Whole (old new : Bytes) : Stage → Prop
  | .untouched => old.length ≤ maxFileSize ∨ new = old.take maxFileSize
  | .emptied => old = [] ∨ new = []
  | .written => new.length ≤ maxFileSize ∨ old = new.take maxFileSize

theorem Stage.whole_iff (stage : Stage) :
    (stage.view old new = old ∨ stage.view old new = new) ↔ stage.Whole old new := by
  cases stage with
  | untouched =>
      show (old.take maxFileSize = old ∨ old.take maxFileSize = new) ↔ _
      rw [List.take_eq_self_iff, eq_comm (a := old.take maxFileSize)]
      rfl
  | emptied =>
      show ([] = old ∨ [] = new) ↔ _
      rw [eq_comm, @eq_comm _ [] new]
      rfl
  | written =>
      show (new.take maxFileSize = old ∨ new.take maxFileSize = new) ↔ _
      rw [List.take_eq_self_iff, eq_comm, or_comm]
      rfl

end Run

/-- A read returns the old or the new content as a whole exactly if it does not come
between the opening and the first write, unless one of them is empty; and if what it
then finds is no longer than what is read at once. -/
theorem read_whole_iff {t : Tree} {f old new : Bytes} (hf : f.length < maxFilename)
    {r : Replacement} (hr : r.Brings t f new) (hold : content t f = some old) {parties : Parties}
    {seen : Option Stage} (hreach : ReadReach t f r parties seen) {bytes : Bytes}
    (hreturned : (parties.thread .reader).prog = .ret (0, bytes)) :
    (bytes = old ∨ bytes = new) ↔ ∃ stage ∈ seen, stage.Whole old new := by
  have hobserved : Observed (resolve (getFilepath f)) old new parties seen := by
    apply hreach.invariant (I := Observed (resolve (getFilepath f)) old new)
    · exact ⟨writer_staged hf hr hold, readFile_quiet, fun _ => readFile_awaitsRead,
        fun _ h => absurd h (Option.not_mem_none _)⟩
    · intro parties seen i c hobserved hscheduled
      cases i with
      | reader => exact hobserved.step_reader hscheduled.1
      | writer => exact hobserved.step_writer hscheduled.1
  cases seen with
  | none =>
      have hawaits := hobserved.before rfl
      rw [hreturned] at hawaits
      exact absurd rfl hawaits
  | some stage =>
      have hreturns := hobserved.after stage rfl
      rw [hreturned] at hreturns
      have hbytes : bytes = stage.view old new := congrArg Prod.snd (hreturns (0, bytes) rfl)
      rw [hbytes, stage.whole_iff]
      constructor
      · exact fun h => ⟨stage, rfl, h⟩
      · rintro ⟨stage', hstage, h⟩
        obtain rfl := Option.some.inj hstage
        exact h

/-- The file `a` with a version, for examples. -/
def treeWithVersion (stored version : Bytes) : Tree :=
  ((((Tree.empty.insert (text "storage") [] .dir (by decide)).insert (text ".versions") storagePath
    .dir (by decide)).insert (text "a") versionsPath .dir plainName_a).insert (text "v1")
      (text "a" :: versionsPath) (.file version) (by decide)).insert (text "a") storagePath
        (.file stored) plainName_a

/-- The value a program has returned. -/
def returned {α : Type} : Prog Sys α → Option α
  | .ret value => some value
  | .call _ _ => none

theorem returned_eq_some {α : Type} {prog : Prog Sys α} {value : α} :
    returned prog = some value ↔ prog = .ret value := by
  cases prog with
  | ret v => simp [returned]
  | call c next => simp [returned]

/-- All steps of a schedule succeed. -/
def allFine (schedule : List Party) : List (Party × Conditions) :=
  schedule.map fun i => (i, Conditions.fine)

/-- The steps of a read and a replacement in the order given. -/
def readSchedule (t : Tree) (f : Bytes) (r : Replacement) (schedule : List Party) : Parties :=
  Pool.runSchedule disk (fun _ => footing (resolve (getFilepath f)))
    (Pool.start (fun _ => footing (resolve (getFilepath f))) (readAndReplace f r) t)
    (allFine schedule)

/-- No step of the schedule fails, or would have to wait. -/
abbrev Waitless (t : Tree) (f : Bytes) (r : Replacement) (schedule : List Party) : Prop :=
  Admissible disk (fun _ => footing (resolve (getFilepath f))) noteStage
    (fun parties (_ : Option Stage) => Scheduled parties)
    (Pool.start (fun _ => footing (resolve (getFilepath f))) (readAndReplace f r) t) none
    (allFine schedule)

theorem reached_of_waitless {t : Tree} {f : Bytes} {r : Replacement} {schedule : List Party}
    (h : Waitless t f r schedule) : ∃ seen, ReadReach t f r (readSchedule t f r schedule) seen :=
  ReachWith.refl.run h

/-- The writer has opened the file and not yet asked for the lock when the whole read
goes by. -/
def readInBetween : List Party := [.writer, .reader, .reader, .reader, .reader, .reader]

/-- The read is open before the writer, and reads after it. -/
def readAfterwards : List Party :=
  [.reader, .writer, .writer, .writer, .writer, .writer, .reader, .reader, .reader, .reader]

/-- A download during an upload of `two` over `one` finds nothing. -/
theorem torn_read :
    ∃ parties seen,
      ReadReach (treeWithVersion (text "one") []) (text "a") (.saveFile (text "two")) parties seen ∧
        (parties.thread .reader).prog = .ret (0, []) ∧ [] ≠ text "one" ∧ [] ≠ text "two" := by
  have hwaitless : Waitless (treeWithVersion (text "one") []) (text "a") (.saveFile (text "two"))
      readInBetween := by decide +kernel
  have hreturned : returned ((readSchedule (treeWithVersion (text "one") []) (text "a")
      (.saveFile (text "two")) readInBetween).thread .reader).prog = some (0, []) := by
    decide +kernel
  obtain ⟨seen, hreach⟩ := reached_of_waitless hwaitless
  exact ⟨_, seen, hreach, returned_eq_some.mp hreturned, by decide, by decide⟩

/-- A download that waits for a rollback to `two`. -/
theorem read_after_rollback :
    ∃ parties seen,
      ReadReach (treeWithVersion (text "one") (text "two")) (text "a") (.restoreVersion 1)
          parties seen ∧
        (parties.thread .reader).prog = .ret (0, text "two") ∧
          ∃ stage ∈ seen, stage.Whole (text "one") (text "two") := by
  have hwaitless : Waitless (treeWithVersion (text "one") (text "two")) (text "a")
      (.restoreVersion 1) readAfterwards := by decide +kernel
  have hreturned : returned ((readSchedule (treeWithVersion (text "one") (text "two")) (text "a")
      (.restoreVersion 1) readAfterwards).thread .reader).prog = some (0, text "two") := by
    decide +kernel
  obtain ⟨seen, hreach⟩ := reached_of_waitless hwaitless
  refine ⟨_, seen, hreach, returned_eq_some.mp hreturned, ?_⟩
  apply (read_whole_iff (by decide) _ _ hreach (returned_eq_some.mp hreturned)).mp (Or.inr rfl)
  · show storedVersion _ _ _ = _
    decide +kernel
  · decide +kernel

end CloudSync
