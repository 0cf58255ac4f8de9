import CloudSync.Lib.Contracts
import CloudSync.Lib.OpenFiles
import CloudSync.Lib.TwoRuns

/-!
# Open files in two systems

Two systems that differ only in a region look alike to a call of one process on a path that is
clear of it, also if files are unlinked while they are open: the call is answered alike, and
what it does to the tree, to the unlinked files and to the descriptors of the process for the
path it does to both (`execBy_off`).  A call of another process that changes no entry but in the
region leaves the rest as it was, whatever files it opens (`off_execBy`, `sameAt_execBy`).
-/

namespace Files

open CText Calls Calls.Prog

variable {ι β : Type} {i j : ι} {P G : Path → Prop} {o o' : OpenFiles ι} {t t' : Tree}

/-- The descriptors of process `i` for the paths in `P` and the unlinked files of these paths are
the same in both. -/
structure SameAt (i : ι) (P : Path → Prop) (o o' : OpenFiles ι) : Prop where
  stale : ∀ p, P p → o.stale i p = o'.stale i p
  count : ∀ p, P p → o.count p = o'.count p
  unlinked : ∀ p, P p → o.unlinked p = o'.unlinked p

namespace SameAt

theorem refl (i : ι) (P : Path → Prop) (o : OpenFiles ι) : SameAt i P o o :=
  ⟨fun _ _ => rfl, fun _ _ => rfl, fun _ _ => rfl⟩

theorem trans {o'' : OpenFiles ι} (h : SameAt i P o o') (h' : SameAt i P o' o'') :
    SameAt i P o o'' where
  stale := fun p hp => (h.stale p hp).trans (h'.stale p hp)
  count := fun p hp => (h.count p hp).trans (h'.count p hp)
  unlinked := fun p hp => (h.unlinked p hp).trans (h'.unlinked p hp)

theorem symm (h : SameAt i P o o') : SameAt i P o' o where
  stale := fun p hp => (h.stale p hp).symm
  count := fun p hp => (h.count p hp).symm
  unlinked := fun p hp => (h.unlinked p hp).symm

theorem opened [DecidableEq ι] (h : SameAt i P o o') (p : Path) :
    SameAt i P (o.opened i p) (o'.opened i p) where
  stale := by
    intro q hq
    simp only [OpenFiles.opened, Function.update_self]
    by_cases hqp : q = p
    · rw [hqp, Function.update_self, Function.update_self]
    · rw [Function.update_of_ne hqp, Function.update_of_ne hqp]
      exact h.stale q hq
  count := h.count
  unlinked := h.unlinked

theorem unlink (h : SameAt i P o o') {p : Path} (hp : P p) (bytes : Bytes) :
    SameAt i P (o.unlink p bytes) (o'.unlink p bytes) := by
  have hupdate : ∀ {γ : Type} {left right : Path → γ} {x y : γ}, x = y →
      (∀ q, P q → left q = right q) →
      ∀ q, P q → Function.update left p x q = Function.update right p y q := by
    rintro γ left right x - rfl hsame q hq
    by_cases hqp : q = p
    · rw [hqp, Function.update_self, Function.update_self]
    · rw [Function.update_of_ne hqp, Function.update_of_ne hqp]
      exact hsame q hq
  constructor
  · refine hupdate ?_ h.stale
    rw [h.stale p hp, h.count p hp]
  · refine hupdate ?_ h.count
    rw [h.count p hp]
  · refine hupdate ?_ h.unlinked
    rw [h.unlinked p hp, h.count p hp]

theorem store (h : SameAt i P o o') {p : Path} (hp : P p) (n : ℕ) (bytes : Bytes) :
    SameAt i P (o.store p n bytes) (o'.store p n bytes) where
  stale := h.stale
  count := h.count
  unlinked := by
    intro q hq
    by_cases hqp : q = p
    · simp only [OpenFiles.store, hqp, Function.update_self, h.unlinked p hp]
    · simp only [OpenFiles.store, Function.update_of_ne hqp]
      exact h.unlinked q hq

end SameAt

/-- What another process opens, and what is unlinked and written at a path that is not in `P`. -/
theorem sameAt_opened [DecidableEq ι] (hne : j ≠ i) (p : Path) : SameAt i P o (o.opened j p) where
  stale := by
    intro q _
    simp only [OpenFiles.opened, Function.update_of_ne hne.symm]
  count := fun _ _ => rfl
  unlinked := fun _ _ => rfl

theorem sameAt_unlink {p : Path} (hp : ¬ P p) (bytes : Bytes) :
    SameAt i P o (o.unlink p bytes) := by
  have hne : ∀ q, P q → q ≠ p := fun q hq hqp => hp (hqp ▸ hq)
  refine ⟨fun q hq => ?_, fun q hq => ?_, fun q hq => ?_⟩ <;>
    exact (Function.update_of_ne (hne q hq) _ _).symm

theorem sameAt_store {p : Path} (hp : ¬ P p) (n : ℕ) (bytes : Bytes) :
    SameAt i P o (o.store p n bytes) :=
  ⟨fun _ _ => rfl, fun _ _ => rfl, fun q hq =>
    (Function.update_of_ne (fun hqp : q = p => hp (hqp ▸ hq)) _ _).symm⟩

variable [DecidableEq ι] {c : Sys β}

/-- A call on a path clear of the region. -/
theorem execBy_off (e : Conditions) (hoff : Off G t t') (hclear : Clear G (resolve c.path))
    (hsame : SameAt i P o o') (hc : P (resolve c.path)) :
    (execBy i e c (t, o)).1 = (execBy i e c (t', o')).1 ∧
      Off G (execBy i e c (t, o)).2.1 (execBy i e c (t', o')).2.1 ∧
      SameAt i P (execBy i e c (t, o)).2.2 (execBy i e c (t', o')).2.2 := by
  obtain ⟨hanswer, htree⟩ := disk_off e hoff hclear
  cases c with
  | openRead path =>
      refine ⟨hanswer, htree, ?_⟩
      simp only [execBy, ← hanswer]
      split
      · exact hsame.opened _
      · exact hsame
  | openTrunc path =>
      refine ⟨hanswer, htree, ?_⟩
      simp only [execBy, ← hanswer]
      split
      · exact hsame.opened _
      · exact hsame
  | read path offset count =>
      have hstale := hsame.stale _ hc
      have hfile := hsame.unlinked _ hc
      simp only [Sys.path] at hstale hfile
      simp only [execBy, ← hstale, ← hfile]
      split
      · exact ⟨hanswer, htree, hsame⟩
      · split <;> exact ⟨rfl, hoff, hsame⟩
  | write path offset data =>
      have hstale := hsame.stale _ hc
      have hfile := hsame.unlinked _ hc
      simp only [Sys.path] at hstale hfile
      simp only [execBy, ← hstale, ← hfile]
      split
      · exact ⟨hanswer, htree, hsame⟩
      · split
        · exact ⟨rfl, hoff, hsame⟩
        · exact ⟨rfl, hoff, hsame.store hc _ _⟩
  | remove path =>
      refine ⟨hanswer, htree, ?_⟩
      have hbytes : t.bytes? (resolve path) = t'.bytes? (resolve path) := hoff.bytes?_eq hclear.self
      simp only [execBy, ← hanswer, ← hbytes]
      split
      · cases t.bytes? (resolve path) with
        | none => exact hsame
        | some bytes => exact hsame.unlink hc bytes
      · exact hsame
  | _ => exact ⟨hanswer, htree, hsame⟩

/-- The entry a call may change is that of the path it names. -/
theorem target_eq {p : Path} (hp : p ∈ c.target) : resolve c.path = p := by
  cases c <;> first | exact Option.some.inj hp | exact absurd hp (Option.not_mem_none p)

/-- A call that changes no entry but in the region leaves the rest of the tree as it was. -/
theorem off_execBy (j : ι) (e : Conditions) (hc : ∀ p ∈ c.target, G p) (s : Tree × OpenFiles ι) :
    Off G s.1 (execBy j e c s).2.1 := by
  rcases tree_execBy j e c s with htree | htree <;> rw [htree]
  · rcases disk_edit c e s.1 with hsame | ⟨p, hp, hedit⟩
    · rw [hsame]
      exact Off.refl G _
    · exact Off.of_edit (hc p hp) hedit
  · exact Off.refl G _

/-- A call of another process that changes no entry in `P` leaves what is open there as it was. -/
theorem sameAt_execBy (hne : j ≠ i) (e : Conditions) (hc : ∀ p ∈ c.target, ¬ P p)
    (s : Tree × OpenFiles ι) : SameAt i P s.2 (execBy j e c s).2.2 := by
  cases c with
  | openRead path =>
      simp only [execBy]
      split
      · exact sameAt_opened hne _
      · exact .refl i P _
  | openTrunc path =>
      simp only [execBy]
      split
      · exact sameAt_opened hne _
      · exact .refl i P _
  | read path offset count =>
      simp only [execBy]
      split
      · exact .refl i P _
      · split <;> exact .refl i P _
  | write path offset data =>
      simp only [execBy]
      split
      · exact .refl i P _
      · split
        · exact .refl i P _
        · exact sameAt_store (hc _ rfl) _ _
  | remove path =>
      simp only [execBy]
      split
      · cases s.1.bytes? (resolve path) with
        | none => exact .refl i P _
        | some bytes => exact sameAt_unlink (hc _ rfl) bytes
      · exact .refl i P _
  | _ => exact .refl i P _

omit [DecidableEq ι] in
/-- The contract of a program that stays at the paths in `P` and changes entries only in `Q`. -/
def within (P Q : Path → Prop) : Contract Sys Unit where
  start := ()
  next := fun _ _ _ => ()
  rely := fun _ _ c answer => c.Possible answer
  guar := fun _ _ c => P (resolve c.path) ∧ ∀ p ∈ c.target, Q p

omit [DecidableEq ι] in
theorem UsesOnly.honours {α : Type} {Q : Path → Prop} {prog : Prog Sys α} (hprog : UsesOnly P prog)
    (hwrites : WritesOnly Q prog) : Honours (within P Q) (fun _ _ => True) () prog := by
  induction prog with
  | ret value => trivial
  | call c next ih =>
      exact ⟨⟨hprog.1, hwrites.1⟩, fun answer hanswer =>
        ih answer (hprog.2 answer hanswer) (hwrites.2 answer hanswer)⟩

end Files
