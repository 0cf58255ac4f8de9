import CloudSync.Lib.Provenance
import CloudSync.Names.PathsUsed

/-!
# What the file functions carry

`carrying S f` is a contract of the system calls made for the file `f`: what they read at a
place of `f` may be where it is (`S` says which byte may be at which offset), and what they
write is written at a place of `f` and may be where it is written.

`copy_file` writes each piece at the offset it has read it from.  So contents and versions
of a file carry the same bytes at the same offsets, and only `save_file` brings in others.
-/

namespace CloudSync

open CText Calls Calls.Prog Files ExchangeSort

/-- Reads and writes at the places of `f` go by `S`. -/
def carrying (S : ℕ → UInt8 → Prop) (f : Bytes) : Contract Sys Unit where
  start := ()
  next := fun _ _ _ => ()
  rely := fun _ _ c answer => c.Possible answer ∧
    match c, answer with
    | .read _ _ _, none => True
    | .read path offset _, some bytes =>
        StorageName f → FilePlace f (resolve path) → Drawn S offset bytes
    | _, _ => True
  guar := fun _ _ c => (∀ p ∈ c.target, StorageName f ∧ FilePlace f p) ∧
    ∀ w ∈ c.writes, Drawn S w.1 w.2

/-- A read may be relied on if what it returns may be where it is. -/
theorem rely_read {S : ℕ → UInt8 → Prop} {f path : Bytes} {offset count : ℕ}
    {answer : Option Bytes}
    (h : ∀ bytes ∈ answer, StorageName f → FilePlace f (resolve path) → Drawn S offset bytes) :
    (carrying S f).rely () (.read path offset count) answer := by
  cases answer with
  | none => exact ⟨trivial, trivial⟩
  | some bytes => exact ⟨trivial, h bytes rfl⟩

/-- The program keeps the contract, and returns what satisfies `post`. -/
abbrev Conveys {α : Type} (S : ℕ → UInt8 → Prop) (f : Bytes) (post : α → Prop)
    (prog : Prog Sys α) : Prop := Honours (carrying S f) (fun _ value => post value) () prog

section Conveys

variable {S : ℕ → UInt8 → Prop} {f : Bytes} {α β : Type} {post : α → Prop}

/-- A call that changes no file. -/
theorem conveys_quiet {c : Sys β} {next : β → Prog Sys α} (htarget : c.target = none)
    (hwrites : c.writes = none)
    (hnext : ∀ answer, c.Possible answer → Conveys S f post (next answer)) :
    Conveys S f post (.call c next) := by
  refine ⟨⟨fun p hp => ?_, fun w hw => ?_⟩, fun answer hanswer => hnext answer hanswer.1⟩
  · rw [htarget] at hp
    exact absurd hp (Option.not_mem_none p)
  · rw [hwrites] at hw
    exact absurd hw (Option.not_mem_none w)

/-- A call that makes, empties or unlinks a file. -/
theorem conveys_at (hf : StorageName f) {c : Sys β} {next : β → Prog Sys α}
    (htarget : ∀ p ∈ c.target, FilePlace f p) (hwrites : c.writes = none)
    (hnext : ∀ answer, c.Possible answer → Conveys S f post (next answer)) :
    Conveys S f post (.call c next) := by
  refine ⟨⟨fun p hp => ⟨hf, htarget p hp⟩, fun w hw => ?_⟩,
    fun answer hanswer => hnext answer hanswer.1⟩
  rw [hwrites] at hw
  exact absurd hw (Option.not_mem_none w)

theorem mem_target {path : Bytes} (hpath : FilePlace f (resolve path)) :
    ∀ p ∈ some (resolve path), FilePlace f p := by
  rintro p hp
  exact Option.some.inj hp ▸ hpath

theorem conveys_write (hf : StorageName f) {path : Bytes} (hpath : FilePlace f (resolve path))
    {offset : ℕ} {data : Bytes} (hdata : Drawn S offset data) {next : Option ℕ → Prog Sys α}
    (hnext : ∀ written, Conveys S f post (next written)) :
    Conveys S f post (.call (.write path offset data) next) := by
  refine ⟨⟨fun p hp => ⟨hf, mem_target hpath p hp⟩, fun w hw => ?_⟩, fun written _ => hnext written⟩
  obtain rfl := Option.some.inj hw
  exact hdata

theorem conveys_read {path : Bytes} {offset count : ℕ} {next : Option Bytes → Prog Sys α}
    (hnone : Conveys S f post (next none))
    (hsome : ∀ bytes, (StorageName f → FilePlace f (resolve path) → Drawn S offset bytes) →
      Conveys S f post (next (some bytes))) :
    Conveys S f post (.call (.read path offset count) next) := by
  refine ⟨⟨fun p hp => absurd hp (Option.not_mem_none p), fun w hw =>
    absurd hw (Option.not_mem_none w)⟩, fun answer hanswer => ?_⟩
  cases answer with
  | none => exact hnone
  | some bytes => exact hsome bytes hanswer.2

/-- Files are closed at the end. -/
theorem conveys_close {path : Bytes} {next : Unit → Prog Sys α}
    (hnext : Conveys S f post (next ())) : Conveys S f post (.call (.close path) next) :=
  conveys_quiet rfl rfl fun _ _ => hnext

theorem conveys_unlock {path : Bytes} {next : Unit → Prog Sys α}
    (hnext : Conveys S f post (next ())) : Conveys S f post (.call (.unlock path) next) :=
  conveys_quiet rfl rfl fun _ _ => hnext

theorem Conveys.bind {δ : Type} {post' : δ → Prop} {prog : Prog Sys δ} {next : δ → Prog Sys α}
    (hprog : Conveys S f post' prog) (hnext : ∀ value, Conveys S f post (next value)) :
    Conveys S f post (prog >>= next) :=
  Honours.bind hprog fun _ value _ => hnext value

end Conveys

/-! ## The file functions -/

section Functions

variable {S : ℕ → UInt8 → Prop} {f : Bytes} (hf : StorageName f)

theorem readFile_conveys :
    Conveys S f (fun out => StorageName f → Drawn S 0 out.2) (readFile f) := by
  have hnil : StorageName f → Drawn S 0 ([] : Bytes) := fun _ => drawn_nil S 0
  simp only [readFile, perform_bind, pure_eq_ret]
  refine conveys_quiet rfl rfl fun opened _ => ?_
  cases opened with
  | false => exact hnil
  | true =>
      refine conveys_quiet rfl rfl fun locked _ => ?_
      cases locked with
      | false => exact conveys_close hnil
      | true =>
          refine conveys_read (conveys_unlock (conveys_close hnil)) fun bytes hbytes => ?_
          exact conveys_unlock (conveys_close fun hf => hbytes hf contentPath_place)

theorem versionRows_conveys (dir : Bytes) (maxSize : ℕ) (modified : Bytes → Bytes)
    (names : List Bytes) (acc : Output × ℕ) :
    Conveys S f (fun _ => True) (versionRows dir maxSize modified names acc) := by
  induction names generalizing acc with
  | nil => trivial
  | cons name rest ih =>
      simp only [versionRows, perform_bind, pure_eq_ret]
      split
      · refine conveys_quiet rfl rfl fun size _ => ?_
        cases size with
        | none => exact ih _
        | some size => exact ih _
      · trivial

theorem listVersions_conveys (maxSize : ℕ) (modified : Bytes → Bytes) :
    Conveys S f (fun _ => True) (listVersions f maxSize modified) := by
  simp only [listVersions, perform_bind, pure_eq_ret]
  refine conveys_quiet rfl rfl fun entries _ => ?_
  cases entries with
  | none => trivial
  | some entries => exact (versionRows_conveys _ _ _ _ _).bind fun _ => trivial

include hf

theorem saveFile_conveys {data : Bytes} (hdata : Drawn S 0 data) :
    Conveys S f (fun _ => True) (saveFile f data) := by
  simp only [saveFile, perform_bind, pure_eq_ret]
  refine conveys_at hf (mem_target contentPath_place) rfl fun opened _ => ?_
  cases opened with
  | false => trivial
  | true =>
      refine conveys_quiet rfl rfl fun locked _ => ?_
      cases locked with
      | false => exact conveys_close trivial
      | true =>
          refine conveys_write hf contentPath_place hdata fun written => ?_
          split <;> exact conveys_unlock (conveys_close trivial)

/-- Each piece is written where it was read. -/
theorem copyLoop_conveys {src dst : Bytes} (hsrc : FilePlace f (resolve src))
    (hdst : FilePlace f (resolve dst)) (turns offset : ℕ) :
    Conveys S f (fun _ => True) (copyLoop src dst turns offset) := by
  induction turns generalizing offset with
  | zero =>
      simp only [copyLoop, perform_bind, pure_eq_ret]
      exact conveys_close (conveys_close trivial)
  | succ turns ih =>
      simp only [copyLoop, perform_bind, pure_eq_ret]
      refine conveys_read (conveys_close (conveys_close trivial)) fun bytes hbytes => ?_
      cases bytes with
      | nil => exact conveys_close (conveys_close trivial)
      | cons b more =>
          refine conveys_write hf hdst (hbytes hf hsrc) fun written => ?_
          split
          · exact conveys_close (conveys_close trivial)
          · exact ih _

theorem copyFile_conveys {src dst : Bytes} (hsrc : FilePlace f (resolve src))
    (hdst : FilePlace f (resolve dst)) (size : ℕ) :
    Conveys S f (fun _ => True) (copyFile src dst size) := by
  simp only [copyFile, perform_bind, pure_eq_ret]
  refine conveys_quiet rfl rfl fun opened _ => ?_
  cases opened with
  | false => trivial
  | true =>
      refine conveys_at hf (mem_target hdst) rfl fun opened _ => ?_
      cases opened with
      | false => exact conveys_close trivial
      | true => exact copyLoop_conveys hf hsrc hdst _ _

theorem removeEntries_conveys (entries : List Bytes)
    (hentries : ∀ name ∈ entries, name = dot ∨ name = dotDot ∨ PlainName name) :
    Conveys S f (fun _ => True) (removeEntries (versionDirPath f) entries) := by
  induction entries with
  | nil => trivial
  | cons name rest ih =>
      have hrest := ih fun name hname => hentries name (List.mem_cons_of_mem _ hname)
      simp only [removeEntries, perform_bind]
      split
      · next hname =>
        have hplain := ((hentries name (List.mem_cons_self ..)).resolve_left hname.1).resolve_left
          hname.2
        exact conveys_at hf (mem_target (entry_place hplain)) rfl fun _ _ => hrest
      · exact hrest

theorem removeFileFromStorage_conveys :
    Conveys S f (fun _ => True) (removeFileFromStorage f) := by
  simp only [removeFileFromStorage, removeAllVersions, perform_bind, pure_eq_ret]
  refine conveys_at hf (mem_target contentPath_place) rfl fun removed _ => ?_
  split
  · trivial
  · refine @Conveys.bind _ _ _ _ _ (fun _ => True) _ _ ?_ fun _ => trivial
    refine conveys_quiet rfl rfl fun entries hentries => ?_
    cases entries with
    | none => trivial
    | some entries =>
        refine (removeEntries_conveys hf entries hentries).bind fun _ => ?_
        exact conveys_at hf (mem_target versionDir_place) rfl fun _ _ => trivial

theorem ensureVersionDir_conveys : Conveys S f (fun _ => True) (ensureVersionDir f) := by
  simp only [ensureVersionDir, perform_bind, pure_eq_ret]
  refine conveys_quiet rfl rfl fun size _ => ?_
  split
  · refine conveys_at hf (mem_target versionDir_place) rfl fun made _ => ?_
    split <;> trivial
  · trivial

theorem removeVersions_conveys (versions : List ℤ) :
    Conveys S f (fun _ => True) (removeVersions f versions) := by
  induction versions with
  | nil => trivial
  | cons k rest ih =>
      exact conveys_at hf (mem_target (versionPath_place₅₁₂ k)) rfl fun _ _ => ih

theorem cleanupOldVersions_conveys (maxKeep : ℕ) :
    Conveys S f (fun _ => True) (cleanupOldVersions f maxKeep) := by
  simp only [cleanupOldVersions, perform_bind, pure_eq_ret]
  refine conveys_quiet rfl rfl fun entries _ => ?_
  cases entries with
  | none => trivial
  | some entries =>
      dsimp only
      split
      · trivial
      · exact (removeVersions_conveys hf _).bind fun _ => trivial

theorem saveVersion_conveys (k : ℤ) : Conveys S f (fun _ => True) (saveVersion f k) := by
  simp only [saveVersion, perform_bind, pure_eq_ret]
  refine (ensureVersionDir_conveys hf).bind fun made => ?_
  split
  · trivial
  · refine conveys_quiet rfl rfl fun size _ => ?_
    cases size with
    | none => trivial
    | some size =>
        refine (copyFile_conveys hf contentPath_place (versionPath_place k) size).bind fun copied => ?_
        split
        · trivial
        · exact (cleanupOldVersions_conveys hf _).bind fun _ => trivial

theorem restoreVersion_conveys (k : ℤ) : Conveys S f (fun _ => True) (restoreVersion f k) := by
  simp only [restoreVersion, perform_bind, pure_eq_ret]
  refine conveys_quiet rfl rfl fun size _ => ?_
  cases size with
  | none => trivial
  | some size =>
      refine (copyFile_conveys hf (versionPath_place k) contentPath_place size).bind fun copied => ?_
      split <;> trivial

theorem deleteVersion_conveys (k : ℤ) : Conveys S f (fun _ => True) (deleteVersion f k) := by
  simp only [deleteVersion, perform_bind, pure_eq_ret]
  refine conveys_quiet rfl rfl fun size _ => ?_
  split
  · trivial
  · refine conveys_at hf (mem_target (versionPath_place₅₁₂ k)) rfl fun removed _ => ?_
    split <;> trivial

end Functions

end CloudSync
