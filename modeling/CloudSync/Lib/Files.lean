import CloudSync.Lib.CText
import CloudSync.Lib.Program
import Mathlib.Data.List.AList

/-!
# A file system and its calls

Paths are resolved lexically: empty components and `.` are dropped, and `..`
leaves the directory entered last.  A resolved `Path` lists its components
innermost first, so that the head is the entry's own name and the tail is its
directory; a path that climbs above the working directory ends in `..`s.

A `Tree` maps resolved paths to directories and files.  No entry is ever called
`.` or `..`, and no name holds a slash: the structure carries that fact, and
listing a directory relies on it.

`Sys` has the calls a C program makes, and `disk` is what they do.  Every call
meets `Conditions` of its own, which may make it fail or fall short and which
fix the order a directory is listed in.  A descriptor is named by the path it
was opened on and the file offset is passed explicitly.
-/

namespace Files

open CText Calls

/-! ## Paths -/

/-- A resolved path, innermost component first. -/
abbrev Path := List Bytes

def dot : Bytes := [46]

def dotDot : Bytes := [46, 46]

/-- The components of a path that name something. -/
def components (path : Bytes) : List Bytes :=
  (fields 47 path).filter fun c => !c.isEmpty && c != dot

/-- One step of lexical resolution. -/
def enter (dir : Path) (name : Bytes) : Path :=
  if name = dotDot then
    match dir with
    | [] => [dotDot]
    | top :: rest => if top = dotDot then dotDot :: dir else rest
  else name :: dir

/-- Lexical resolution, relative to the working directory. -/
def resolve (path : Bytes) : Path := (components path).foldl enter []

/-- A name that a directory entry can have. -/
structure PlainName (name : Bytes) : Prop where
  ne_nil : name ≠ []
  no_slash : (47 : UInt8) ∉ name
  ne_dot : name ≠ dot
  ne_dotDot : name ≠ dotDot

instance (name : Bytes) : Decidable (PlainName name) :=
  decidable_of_iff (name ≠ [] ∧ (47 : UInt8) ∉ name ∧ name ≠ dot ∧ name ≠ dotDot)
    ⟨fun ⟨h₁, h₂, h₃, h₄⟩ => ⟨h₁, h₂, h₃, h₄⟩, fun ⟨h₁, h₂, h₃, h₄⟩ => ⟨h₁, h₂, h₃, h₄⟩⟩

theorem components_append_slash (p q : Bytes) :
    components (p ++ 47 :: q) = components p ++ components q := by
  unfold components
  rw [fields_append_sep, List.filter_append]

theorem PlainName.components_eq {name : Bytes} (hname : PlainName name) :
    components name = [name] := by
  unfold components
  rw [fields_of_not_mem hname.no_slash]
  simp [hname.ne_nil, hname.ne_dot]

theorem resolve_append_slash (p q : Bytes) :
    resolve (p ++ 47 :: q) = (components q).foldl enter (resolve p) := by
  unfold resolve
  rw [components_append_slash, List.foldl_append]

/-- A plain name enters the directory it is appended to. -/
theorem PlainName.resolve_append {name : Bytes} (hname : PlainName name) (p : Bytes) :
    resolve (p ++ 47 :: name) = name :: resolve p := by
  rw [resolve_append_slash, hname.components_eq]
  simp [enter, hname.ne_dotDot]

/-! ## Trees -/

inductive Node
  | dir
  | file (bytes : Bytes)
  deriving DecidableEq

/-- The directories and files below the working directory, by resolved path. -/
structure Tree where
  nodes : AList fun _ : Path => Node
  named : ∀ name dir, name :: dir ∈ nodes → PlainName name

namespace Tree

def empty : Tree := ⟨∅, fun _ _ h => absurd h (AList.notMem_empty _)⟩

/-- What is stored at a path. -/
def at? (t : Tree) (p : Path) : Option Node := t.nodes.lookup p

/-- The working directory and those above it are directories. -/
def isDir (t : Tree) (p : Path) : Bool := p.all (· == dotDot) || t.at? p == some .dir

/-- The bytes of the file at a path. -/
def bytes? (t : Tree) (p : Path) : Option Bytes :=
  match t.at? p with
  | some (.file bytes) => some bytes
  | _ => none

def insert (t : Tree) (name : Bytes) (dir : Path) (node : Node) (hname : PlainName name) : Tree where
  nodes := t.nodes.insert (name :: dir) node
  named := by
    intro name' dir' hmem
    rcases (AList.mem_insert _).mp hmem with heq | hmem
    · rw [(List.cons.inj heq).1]
      exact hname
    · exact t.named _ _ hmem

def erase (t : Tree) (p : Path) : Tree where
  nodes := t.nodes.erase p
  named := fun name dir hmem => t.named name dir (AList.mem_erase.mp hmem).2

/-- The names of the entries of a directory. -/
def children (t : Tree) (p : Path) : List Bytes :=
  t.nodes.keys.filterMap fun
    | [] => none
    | name :: dir => if dir = p then some name else none

variable {t : Tree} {p q : Path} {name : Bytes} {dir : Path} {node : Node}

@[simp] theorem at?_insert_self (hname : PlainName name) :
    (t.insert name dir node hname).at? (name :: dir) = some node :=
  AList.lookup_insert _

theorem at?_insert_of_ne (hname : PlainName name) (hne : p ≠ name :: dir) :
    (t.insert name dir node hname).at? p = t.at? p :=
  AList.lookup_insert_ne hne

@[simp] theorem at?_erase_self : (t.erase p).at? p = none := AList.lookup_erase _ _

theorem at?_erase_of_ne (hne : q ≠ p) : (t.erase p).at? q = t.at? q := AList.lookup_erase_ne hne

theorem plainName_of_at? (h : (t.at? (name :: dir)).isSome) : PlainName name :=
  t.named name dir (AList.lookup_isSome.mp h)

theorem mem_children : name ∈ t.children p ↔ (t.at? (name :: p)).isSome := by
  unfold children at?
  rw [AList.lookup_isSome, List.mem_filterMap]
  constructor
  · rintro ⟨k, hk, hname⟩
    cases k with
    | nil => simp at hname
    | cons n d =>
        simp only [Option.ite_none_right_eq_some, Option.some.injEq] at hname
        obtain ⟨rfl, rfl⟩ := hname
        exact AList.mem_keys.mpr hk
  · intro hmem
    exact ⟨name :: p, AList.mem_keys.mp hmem, by simp⟩

theorem nodup_children : (t.children p).Nodup := by
  unfold children
  refine List.Nodup.filterMap ?_ t.nodes.keys_nodup
  intro k k' n hk hk'
  cases k with
  | nil => simp at hk
  | cons a d =>
      cases k' with
      | nil => simp at hk'
      | cons a' d' =>
          simp only [Option.mem_def, Option.ite_none_right_eq_some, Option.some.injEq] at hk hk'
          rw [hk.1, hk.2, hk'.1, hk'.2]

theorem bytes?_eq_some {bytes : Bytes} :
    t.bytes? p = some bytes ↔ t.at? p = some (.file bytes) := by
  unfold bytes?
  split
  · next b h => simp [h]
  · next h =>
    simp only [reduceCtorEq, false_iff]
    exact h bytes

theorem bytes?_congr {t' : Tree} (h : t'.at? p = t.at? p) : t'.bytes? p = t.bytes? p := by
  unfold bytes?
  rw [h]

end Tree

/-! ## Calls -/

/-- How the system treats a call. -/
inductive Outcome
  | ok
  | fail
  | short (count : ℕ)
  deriving DecidableEq

/-- What a call meets: an outcome, and an order in which directories are listed. -/
structure Conditions where
  outcome : Outcome
  order : List Bytes → List Bytes
  order_perm : ∀ names, (order names).Perm names

/-- Nothing goes wrong. -/
def Conditions.Fine (c : Conditions) : Prop := c.outcome = .ok

/-- The conditions with nothing going wrong and directories listed in the order
of the model. -/
def Conditions.fine : Conditions := ⟨.ok, id, fun _ => List.Perm.refl _⟩

theorem Conditions.fine_fine : Conditions.fine.Fine := rfl

inductive LockKind
  | read
  | write
  deriving DecidableEq

/-- The calls.  `openTrunc` is `open` with `O_WRONLY | O_CREAT | O_TRUNC`,
`readdir` is the whole loop of `opendir`, `readdir` and `closedir`. -/
inductive Sys : Type → Type
  | stat (path : Bytes) : Sys (Option ℕ)
  | mkdir (path : Bytes) : Sys Bool
  | openRead (path : Bytes) : Sys Bool
  | openTrunc (path : Bytes) : Sys Bool
  | lock (path : Bytes) (kind : LockKind) : Sys Bool
  | unlock (path : Bytes) : Sys Unit
  | read (path : Bytes) (offset count : ℕ) : Sys (Option Bytes)
  | write (path : Bytes) (offset : ℕ) (data : Bytes) : Sys (Option ℕ)
  | close (path : Bytes) : Sys Unit
  | remove (path : Bytes) : Sys Bool
  | rmdir (path : Bytes) : Sys Bool
  | readdir (path : Bytes) : Sys (Option (List Bytes))

namespace Tree

/-- The size of what is at a path; a directory counts as empty. -/
def stat (t : Tree) (p : Path) : Option ℕ :=
  if t.isDir p then some 0 else (t.bytes? p).map List.length

def mkdir (t : Tree) : Path → Bool × Tree
  | [] => (false, t)
  | name :: dir =>
      if hname : PlainName name then
        if t.isDir dir && (t.at? (name :: dir)).isNone then (true, t.insert name dir .dir hname)
        else (false, t)
      else (false, t)

/-- Open for writing: an existing file is emptied, a missing one is created. -/
def openTrunc (t : Tree) : Path → Bool × Tree
  | [] => (false, t)
  | name :: dir =>
      if hname : PlainName name then
        if t.isDir dir && !t.isDir (name :: dir) then
          (true, t.insert name dir (.file []) hname)
        else (false, t)
      else (false, t)

/-- Bytes written at an offset replace what was there; a gap reads as zeros. -/
def overwrite (old : Bytes) (offset : ℕ) (data : Bytes) : Bytes :=
  old.take offset ++ List.replicate (offset - old.length) 0 ++ data ++
    old.drop (offset + data.length)

def write (t : Tree) (p : Path) (offset : ℕ) (data : Bytes) : Tree :=
  match p, t.bytes? p with
  | name :: dir, some old =>
      if hname : PlainName name then
        t.insert name dir (.file (overwrite old offset data)) hname
      else t
  | _, _ => t

def read (t : Tree) (p : Path) (offset count : ℕ) : Bytes :=
  (((t.bytes? p).getD []).drop offset).take count

/-- C's `remove`: a file is unlinked, a directory goes if it is empty. -/
def remove (t : Tree) (p : Path) : Bool × Tree :=
  match t.at? p with
  | some (.file _) => (true, t.erase p)
  | some .dir => if (t.children p).isEmpty then (true, t.erase p) else (false, t)
  | none => (false, t)

def rmdir (t : Tree) (p : Path) : Bool × Tree :=
  match t.at? p with
  | some .dir => if (t.children p).isEmpty then (true, t.erase p) else (false, t)
  | _ => (false, t)

end Tree

/-- The bytes that get through when `count` were asked for. -/
def Outcome.limit : Outcome → ℕ → ℕ
  | .short k, count => min k count
  | _, count => count

/-- What the calls do to the tree.  Locks are always granted here: this handler
runs programs that have the file system to themselves.  A directory cannot be opened
for reading, where C's `open` succeeds and the first `read` fails. -/
def disk : Handler Sys Conditions Tree where
  exec := fun c call t =>
    match call with
    | .stat path => if c.outcome = .fail then (none, t) else (t.stat (resolve path), t)
    | .mkdir path => if c.outcome = .fail then (false, t) else t.mkdir (resolve path)
    | .openRead path =>
        if c.outcome = .fail then (false, t) else ((t.bytes? (resolve path)).isSome, t)
    | .openTrunc path => if c.outcome = .fail then (false, t) else t.openTrunc (resolve path)
    | .lock _ _ => (c.outcome != .fail, t)
    | .unlock _ => ((), t)
    | .read path offset count =>
        if c.outcome = .fail then (none, t)
        else (some (t.read (resolve path) offset (c.outcome.limit count)), t)
    | .write path offset data =>
        if c.outcome = .fail then (none, t)
        else
          let written := data.take (c.outcome.limit data.length)
          (some written.length, t.write (resolve path) offset written)
    | .close _ => ((), t)
    | .remove path => if c.outcome = .fail then (false, t) else t.remove (resolve path)
    | .rmdir path => if c.outcome = .fail then (false, t) else t.rmdir (resolve path)
    | .readdir path =>
        if c.outcome = .fail || !t.isDir (resolve path) then (none, t)
        else (some (c.order (dot :: dotDot :: t.children (resolve path))), t)

/-! ## What a call can change -/

/-- The path whose entry a call may change. -/
def Sys.target : {β : Type} → Sys β → Option Path
  | _, .mkdir path => some (resolve path)
  | _, .openTrunc path => some (resolve path)
  | _, .write path _ _ => some (resolve path)
  | _, .remove path => some (resolve path)
  | _, .rmdir path => some (resolve path)
  | _, _ => none

/-- The answers the system can give: a listed name is `.`, `..` or an entry's name. -/
def Sys.Possible : {β : Type} → Sys β → β → Prop
  | _, .readdir _, some names => ∀ name ∈ names, name = dot ∨ name = dotDot ∨ PlainName name
  | _, _, _ => True

namespace Tree

variable {t : Tree} {p q : Path}

theorem mkdir_at?_of_ne (hne : q ≠ p) : (t.mkdir p).2.at? q = t.at? q := by
  cases p with
  | nil => rfl
  | cons name dir =>
      simp only [mkdir]
      split
      · next hname =>
        split
        · exact at?_insert_of_ne hname hne
        · rfl
      · rfl

theorem openTrunc_at?_of_ne (hne : q ≠ p) : (t.openTrunc p).2.at? q = t.at? q := by
  cases p with
  | nil => rfl
  | cons name dir =>
      simp only [openTrunc]
      split
      · next hname =>
        split
        · exact at?_insert_of_ne hname hne
        · rfl
      · rfl

theorem write_at?_of_ne (hne : q ≠ p) (offset : ℕ) (data : Bytes) :
    (t.write p offset data).at? q = t.at? q := by
  unfold write
  split
  · split
    · exact at?_insert_of_ne _ hne
    · rfl
  · rfl

theorem remove_at?_of_ne (hne : q ≠ p) : (t.remove p).2.at? q = t.at? q := by
  unfold remove
  split
  · exact at?_erase_of_ne hne
  · split
    · exact at?_erase_of_ne hne
    · rfl
  · rfl

theorem rmdir_at?_of_ne (hne : q ≠ p) : (t.rmdir p).2.at? q = t.at? q := by
  unfold rmdir
  split
  · split
    · exact at?_erase_of_ne hne
    · rfl
  · rfl

end Tree

/-- A call changes nothing but the entry at its target. -/
theorem disk_at?_of_ne {β : Type} (call : Sys β) (c : Conditions) (t : Tree) {p : Path}
    (hp : p ∉ call.target) : (disk.exec c call t).2.at? p = t.at? p := by
  cases call with
  | mkdir path =>
      simp only [disk]
      split
      · rfl
      · exact Tree.mkdir_at?_of_ne fun h => hp (by simp [Sys.target, h])
  | openTrunc path =>
      simp only [disk]
      split
      · rfl
      · exact Tree.openTrunc_at?_of_ne fun h => hp (by simp [Sys.target, h])
  | write path offset data =>
      simp only [disk]
      split
      · rfl
      · exact Tree.write_at?_of_ne (fun h => hp (by simp [Sys.target, h])) _ _
  | remove path =>
      simp only [disk]
      split
      · rfl
      · exact Tree.remove_at?_of_ne fun h => hp (by simp [Sys.target, h])
  | rmdir path =>
      simp only [disk]
      split
      · rfl
      · exact Tree.rmdir_at?_of_ne fun h => hp (by simp [Sys.target, h])
  | _ => simp only [disk]; try split <;> rfl

/-- The answers given are possible ones. -/
theorem disk_possible {β : Type} (call : Sys β) (c : Conditions) (t : Tree) :
    call.Possible (disk.exec c call t).1 := by
  cases call with
  | readdir path =>
      simp only [disk]
      split
      · trivial
      · intro name hname
        have hmem := (c.order_perm _).mem_iff.mp hname
        simp only [List.mem_cons] at hmem
        rcases hmem with h | h | h
        · exact Or.inl h
        · exact Or.inr (Or.inl h)
        · exact Or.inr (Or.inr (Tree.plainName_of_at? (Tree.mem_children.mp h)))
  | _ => trivial

/-! ## Programs that write only in one place -/

variable {α β : Type} {P : Path → Prop}

/-- Whatever its calls answer, the program changes only entries at paths in `P`. -/
def WritesOnly (P : Path → Prop) : Prog Sys α → Prop
  | .ret _ => True
  | .call c next =>
      (∀ p ∈ c.target, P p) ∧ ∀ answer, c.Possible answer → WritesOnly P (next answer)

theorem WritesOnly.bind {prog : Prog Sys α} {f : α → Prog Sys β} (hprog : WritesOnly P prog)
    (hf : ∀ value, WritesOnly P (f value)) : WritesOnly P (prog >>= f) := by
  induction prog with
  | ret value => exact hf value
  | call c next ih => exact ⟨hprog.1, fun answer h => ih answer (hprog.2 answer h)⟩

theorem WritesOnly.mono {Q : Path → Prop} (hPQ : ∀ p, P p → Q p) {prog : Prog Sys α}
    (hprog : WritesOnly P prog) : WritesOnly Q prog := by
  induction prog with
  | ret value => trivial
  | call c next ih =>
      exact ⟨fun p hp => hPQ p (hprog.1 p hp), fun answer h => ih answer (hprog.2 answer h)⟩

/-- Outside `P` a program that writes only in `P` changes nothing, whatever
goes wrong on the way. -/
theorem WritesOnly.at?_run {prog : Prog Sys α} (hprog : WritesOnly P prog)
    (env : ℕ → Conditions) (t : Tree) {p : Path} (hp : ¬ P p) :
    (prog.run disk env t).2.at? p = t.at? p := by
  induction prog generalizing env t with
  | ret value => rfl
  | call c next ih =>
      rw [Prog.run_call, ih _ (hprog.2 _ (disk_possible c _ t))]
      exact disk_at?_of_ne c _ t fun hmem => hp (hprog.1 p hmem)

/-! ## Paths a program uses -/

/-- The path a call names. -/
def Sys.path : {β : Type} → Sys β → Bytes
  | _, .stat path => path
  | _, .mkdir path => path
  | _, .openRead path => path
  | _, .openTrunc path => path
  | _, .lock path _ => path
  | _, .unlock path => path
  | _, .read path _ _ => path
  | _, .write path _ _ => path
  | _, .close path => path
  | _, .remove path => path
  | _, .rmdir path => path
  | _, .readdir path => path

/-- Some answers to the calls before it lead the program to a call at `p`. -/
def MayUse (p : Path) : Prog Sys α → Prop
  | .ret _ => False
  | .call c next =>
      resolve c.path = p ∨ ∃ answer, c.Possible answer ∧ MayUse p (next answer)

/-- Whatever its calls answer, the program makes calls only at paths in `P`. -/
def UsesOnly (P : Path → Prop) : Prog Sys α → Prop
  | .ret _ => True
  | .call c next =>
      P (resolve c.path) ∧ ∀ answer, c.Possible answer → UsesOnly P (next answer)

theorem UsesOnly.of_mayUse {prog : Prog Sys α} (hprog : UsesOnly P prog) {p : Path}
    (hp : MayUse p prog) : P p := by
  induction prog with
  | ret value => exact hp.elim
  | call c next ih =>
      rcases hp with rfl | ⟨answer, hpossible, hp⟩
      · exact hprog.1
      · exact ih answer (hprog.2 answer hpossible) hp

theorem UsesOnly.bind {prog : Prog Sys α} {f : α → Prog Sys β} (hprog : UsesOnly P prog)
    (hf : ∀ value, UsesOnly P (f value)) : UsesOnly P (prog >>= f) := by
  induction prog with
  | ret value => exact hf value
  | call c next ih => exact ⟨hprog.1, fun answer h => ih answer (hprog.2 answer h)⟩

theorem MayUse.bind {prog : Prog Sys α} {f : α → Prog Sys β} {p : Path} (hp : MayUse p prog) :
    MayUse p (prog >>= f) := by
  induction prog with
  | ret value => exact hp.elim
  | call c next ih =>
      exact hp.imp id fun ⟨answer, hpossible, hp⟩ => ⟨answer, hpossible, ih answer hp⟩

end Files
