import CloudSync.Lib.Files
import Mathlib.Logic.Function.Basic

/-!
# Runs in which no call goes wrong

One rule for each call, for following a program with `Prog.wp` when the
conditions are all fine.  What a call does to the tree is said as an update of
`at?`, the table of what is stored where, so that the trees themselves drop out
of the reasoning.
-/

namespace Files

open CText Calls Calls.Prog

namespace Tree

variable {t : Tree} {p q : Path} {name : Bytes} {dir : Path} {node : Node}

theorem at?_insert (hname : PlainName name) :
    (t.insert name dir node hname).at? = Function.update t.at? (name :: dir) (some node) := by
  funext q
  by_cases hq : q = name :: dir
  · rw [hq, at?_insert_self, Function.update_self]
  · rw [at?_insert_of_ne hname hq, Function.update_of_ne hq]

theorem at?_erase : (t.erase p).at? = Function.update t.at? p none := by
  funext q
  by_cases hq : q = p
  · rw [hq, at?_erase_self, Function.update_self]
  · rw [at?_erase_of_ne hq, Function.update_of_ne hq]

/-- A directory stays one when an entry of it changes. -/
theorem isDir_of_update {t' : Tree} {node : Option Node} (hdir : t.isDir dir = true)
    (h : t'.at? = Function.update t.at? (name :: dir) node) : t'.isDir dir = true := by
  rw [isDir, h, Function.update_of_ne (List.cons_ne_self _ _).symm]
  exact hdir

theorem isDir_of_at? (h : t.at? p = some .dir) : t.isDir p = true := by
  simp [isDir, h]

/-- Nothing but directories is a directory, below the working directory. -/
theorem isDir_cons (hname : PlainName name) :
    t.isDir (name :: dir) = decide (t.at? (name :: dir) = some .dir) := by
  simp [isDir, hname.ne_dotDot, beq_eq_decide]

theorem mkdir_fine (hname : PlainName name) (hdir : t.isDir dir = true)
    (hnone : t.at? (name :: dir) = none) :
    (t.mkdir (name :: dir)).1 = true ∧
      (t.mkdir (name :: dir)).2.at? = Function.update t.at? (name :: dir) (some .dir) := by
  simp only [mkdir, dif_pos hname, hdir, hnone, Option.isNone_none, Bool.and_self, if_true]
  exact ⟨trivial, at?_insert hname⟩

theorem openTrunc_fine (hname : PlainName name) (hdir : t.isDir dir = true)
    (hfile : t.at? (name :: dir) ≠ some .dir) :
    (t.openTrunc (name :: dir)).1 = true ∧
      (t.openTrunc (name :: dir)).2.at? =
        Function.update t.at? (name :: dir) (some (.file [])) := by
  have hnotdir : t.isDir (name :: dir) = false := by
    rw [isDir_cons hname]
    exact decide_eq_false hfile
  simp only [openTrunc, dif_pos hname, hdir, hnotdir, Bool.not_false, Bool.and_self, if_true]
  exact ⟨trivial, at?_insert hname⟩

theorem write_fine {old : Bytes} (hname : PlainName name)
    (hold : t.at? (name :: dir) = some (.file old)) (offset : ℕ) (data : Bytes) :
    (t.write (name :: dir) offset data).at? =
      Function.update t.at? (name :: dir) (some (.file (overwrite old offset data))) := by
  simp only [write, bytes?_eq_some.mpr hold, dif_pos hname]
  exact at?_insert hname

/-- The next piece of a copy lengthens what has been copied. -/
theorem overwrite_take {s piece : Bytes} {offset count : ℕ} (hoffset : offset ≤ s.length)
    (hpiece : (s.drop offset).take count = piece) :
    overwrite (s.take offset) offset piece = s.take (offset + piece.length) := by
  have htake : (s.take offset).length = offset := List.length_take_of_le hoffset
  have hmore : (s.drop offset).take piece.length = piece := by
    rw [← hpiece, List.length_take, List.take_eq_take_iff]
    omega
  rw [overwrite, htake, Nat.sub_self, List.take_of_length_le htake.le,
    List.drop_of_length_le (by rw [htake]; omega), List.take_add, hmore]
  simp

theorem remove_fine {bytes : Bytes} (hfile : t.at? p = some (.file bytes)) :
    (t.remove p).1 = true ∧ (t.remove p).2.at? = Function.update t.at? p none := by
  simp only [remove, hfile]
  exact ⟨trivial, at?_erase⟩

theorem remove_of_none (hnone : t.at? p = none) : t.remove p = (false, t) := by
  simp only [remove, hnone]

theorem rmdir_fine (hdir : t.at? p = some .dir) (hempty : ∀ name, t.at? (name :: p) = none) :
    (t.rmdir p).2.at? = Function.update t.at? p none := by
  have hchildren : t.children p = [] := List.eq_nil_iff_forall_not_mem.mpr fun name hmem => by
    rw [mem_children, hempty name] at hmem
    exact Bool.noConfusion hmem
  simp only [rmdir, hdir, hchildren, List.isEmpty_nil, if_true]
  exact at?_erase

theorem stat_of_dir (hdir : t.at? p = some .dir) : t.stat p = some 0 :=
  if_pos (isDir_of_at? hdir)

theorem stat_of_file {bytes : Bytes} (hname : PlainName name)
    (hfile : t.at? (name :: dir) = some (.file bytes)) :
    t.stat (name :: dir) = some bytes.length := by
  rw [stat, isDir_cons hname, if_neg (by simp [hfile]), bytes?_eq_some.mpr hfile, Option.map_some]

theorem stat_of_none (hname : PlainName name) (hnone : t.at? (name :: dir) = none) :
    t.stat (name :: dir) = none := by
  rw [stat, isDir_cons hname, if_neg (by simp [hnone])]
  simp [bytes?, hnone]

end Tree

/-! ## The calls -/

section Calls

variable {α : Type} {Q : α → Tree → Prop} {t : Tree}

section Exec

variable {c : Conditions} (hc : c.Fine)

include hc

theorem Conditions.Fine.exec_stat (path : Bytes) :
    disk.exec c (.stat path) t = (t.stat (resolve path), t) := by
  simp [disk, show c.outcome = .ok from hc]

theorem Conditions.Fine.exec_mkdir (path : Bytes) :
    disk.exec c (.mkdir path) t = t.mkdir (resolve path) := by
  simp [disk, show c.outcome = .ok from hc]

theorem Conditions.Fine.exec_openRead (path : Bytes) :
    disk.exec c (.openRead path) t = ((t.bytes? (resolve path)).isSome, t) := by
  simp [disk, show c.outcome = .ok from hc]

theorem Conditions.Fine.exec_openTrunc (path : Bytes) :
    disk.exec c (.openTrunc path) t = t.openTrunc (resolve path) := by
  simp [disk, show c.outcome = .ok from hc]

theorem Conditions.Fine.exec_lock (path : Bytes) (kind : LockKind) :
    disk.exec c (.lock path kind) t = (true, t) := by
  simp [disk, show c.outcome = .ok from hc]

theorem Conditions.Fine.exec_read (path : Bytes) (offset count : ℕ) :
    disk.exec c (.read path offset count) t = (some (t.read (resolve path) offset count), t) := by
  simp [disk, show c.outcome = .ok from hc, Outcome.limit]

theorem Conditions.Fine.exec_write (path : Bytes) (offset : ℕ) (data : Bytes) :
    disk.exec c (.write path offset data) t =
      (some data.length, t.write (resolve path) offset data) := by
  simp [disk, show c.outcome = .ok from hc, Outcome.limit]

theorem Conditions.Fine.exec_remove (path : Bytes) :
    disk.exec c (.remove path) t = t.remove (resolve path) := by
  simp [disk, show c.outcome = .ok from hc]

theorem Conditions.Fine.exec_rmdir (path : Bytes) :
    disk.exec c (.rmdir path) t = t.rmdir (resolve path) := by
  simp [disk, show c.outcome = .ok from hc]

theorem Conditions.Fine.exec_readdir {path : Bytes} (hdir : t.isDir (resolve path) = true) :
    disk.exec c (.readdir path) t =
      (some (c.order (dot :: dotDot :: t.children (resolve path))), t) := by
  simp [disk, hdir, show c.outcome = .ok from hc]

end Exec

theorem wp_of_exec {β : Type} {call : Sys β} {next : β → Prog Sys α} {answer : β} {t' : Tree}
    (hexec : ∀ c : Conditions, c.Fine → disk.exec c call t = (answer, t'))
    (h : wp disk Conditions.Fine (next answer) Q t') :
    wp disk Conditions.Fine (.call call next) Q t := by
  intro c hc
  rw [hexec c hc]
  exact h

theorem wp_stat {path : Bytes} {next : Option ℕ → Prog Sys α}
    (h : wp disk Conditions.Fine (next (t.stat (resolve path))) Q t) :
    wp disk Conditions.Fine (.call (.stat path) next) Q t :=
  wp_of_exec (fun _ hc => hc.exec_stat path) h

theorem wp_mkdir {path : Bytes} {next : Bool → Prog Sys α}
    (h : wp disk Conditions.Fine (next (t.mkdir (resolve path)).1) Q (t.mkdir (resolve path)).2) :
    wp disk Conditions.Fine (.call (.mkdir path) next) Q t :=
  wp_of_exec (fun _ hc => hc.exec_mkdir path) h

theorem wp_openRead {path : Bytes} {next : Bool → Prog Sys α}
    (h : wp disk Conditions.Fine (next (t.bytes? (resolve path)).isSome) Q t) :
    wp disk Conditions.Fine (.call (.openRead path) next) Q t :=
  wp_of_exec (fun _ hc => hc.exec_openRead path) h

theorem wp_openTrunc {path : Bytes} {next : Bool → Prog Sys α}
    (h : wp disk Conditions.Fine (next (t.openTrunc (resolve path)).1) Q
      (t.openTrunc (resolve path)).2) :
    wp disk Conditions.Fine (.call (.openTrunc path) next) Q t :=
  wp_of_exec (fun _ hc => hc.exec_openTrunc path) h

theorem wp_lock {path : Bytes} {kind : LockKind} {next : Bool → Prog Sys α}
    (h : wp disk Conditions.Fine (next true) Q t) :
    wp disk Conditions.Fine (.call (.lock path kind) next) Q t :=
  wp_of_exec (fun _ hc => hc.exec_lock path kind) h

theorem wp_unlock {path : Bytes} {next : Unit → Prog Sys α}
    (h : wp disk Conditions.Fine (next ()) Q t) :
    wp disk Conditions.Fine (.call (.unlock path) next) Q t := fun _ _ => h

theorem wp_close {path : Bytes} {next : Unit → Prog Sys α}
    (h : wp disk Conditions.Fine (next ()) Q t) :
    wp disk Conditions.Fine (.call (.close path) next) Q t := fun _ _ => h

theorem wp_read {path : Bytes} {offset count : ℕ} {next : Option Bytes → Prog Sys α}
    (h : wp disk Conditions.Fine (next (some (t.read (resolve path) offset count))) Q t) :
    wp disk Conditions.Fine (.call (.read path offset count) next) Q t :=
  wp_of_exec (fun _ hc => hc.exec_read path offset count) h

theorem wp_write {path : Bytes} {offset : ℕ} {data : Bytes} {next : Option ℕ → Prog Sys α}
    (h : wp disk Conditions.Fine (next (some data.length)) Q (t.write (resolve path) offset data)) :
    wp disk Conditions.Fine (.call (.write path offset data) next) Q t :=
  wp_of_exec (fun _ hc => hc.exec_write path offset data) h

theorem wp_remove {path : Bytes} {next : Bool → Prog Sys α}
    (h : wp disk Conditions.Fine (next (t.remove (resolve path)).1) Q
      (t.remove (resolve path)).2) :
    wp disk Conditions.Fine (.call (.remove path) next) Q t :=
  wp_of_exec (fun _ hc => hc.exec_remove path) h

theorem wp_rmdir {path : Bytes} {next : Bool → Prog Sys α}
    (h : wp disk Conditions.Fine (next (t.rmdir (resolve path)).1) Q
      (t.rmdir (resolve path)).2) :
    wp disk Conditions.Fine (.call (.rmdir path) next) Q t :=
  wp_of_exec (fun _ hc => hc.exec_rmdir path) h

/-- A directory is listed in some order, with `.` and `..` among the names. -/
theorem wp_readdir {path : Bytes} {next : Option (List Bytes) → Prog Sys α}
    (hnone : t.isDir (resolve path) = false → wp disk Conditions.Fine (next none) Q t)
    (hsome : t.isDir (resolve path) = true →
      ∀ names, names.Perm (dot :: dotDot :: t.children (resolve path)) →
        wp disk Conditions.Fine (next (some names)) Q t) :
    wp disk Conditions.Fine (.call (.readdir path) next) Q t := by
  intro c hc
  cases hdir : t.isDir (resolve path) with
  | false =>
      have hexec : disk.exec c (.readdir path) t = (none, t) := by simp [disk, hdir]
      rw [hexec]
      exact hnone hdir
  | true =>
      rw [hc.exec_readdir hdir]
      exact hsome hdir _ (c.order_perm _)

end Calls

end Files
