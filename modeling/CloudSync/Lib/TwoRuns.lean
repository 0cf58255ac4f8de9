import CloudSync.Lib.Files

/-!
# Two runs side by side

`Prog.wp₂` is `Prog.wp` for two programs that make their calls in step, each on a
state of its own but in the same environments: it relates what they return and the
states they end in.

Two trees that differ only in a region `G` look alike to a program that stays
`Clear` of it: a call on a clear path gets the same answer on both, and what it
changes it changes alike (`disk_off`), so that whole runs agree
(`UsesOnly.run_off`).  A program that writes only in `G` leaves a tree that is the
same `Off G` (`WritesOnly.run_off`).
-/

namespace Calls.Prog

variable {C : Type → Type} {E σ α : Type}

/-- The pairs of states from which the two programs, making their calls in step and
in the same environments, return with answers and states related by `Q`. -/
def wp₂ (h : Handler C E σ) : Prog C α → Prog C α → (α → σ → α → σ → Prop) → σ → σ → Prop
  | ret value, ret value', Q, s, s' => Q value s value' s'
  | call c next, call c' next', Q, s, s' =>
      ∀ e, wp₂ h (next (h.exec e c s).1) (next' (h.exec e c' s').1) Q
        (h.exec e c s).2 (h.exec e c' s').2
  | _, _, _, _, _ => False

variable {h : Handler C E σ}

/-- What `wp₂` promises holds of every two runs. -/
theorem wp₂_run {p p' : Prog C α} {Q : α → σ → α → σ → Prop} {s s' : σ}
    (hp : wp₂ h p p' Q s s') (env : ℕ → E) :
    Q (run h p env s).1 (run h p env s).2 (run h p' env s').1 (run h p' env s').2 := by
  induction p generalizing p' env s s' with
  | ret value =>
      cases p' with
      | ret value' => exact hp
      | call c' next' => exact hp.elim
  | call c next ih =>
      cases p' with
      | ret value' => exact hp.elim
      | call c' next' => exact ih _ (hp (env 0)) fun i => env (i + 1)

end Calls.Prog

namespace Files

open CText Calls Calls.Prog

/-! ## Entries of directories -/

section Erase

variable {α β : Type} [DecidableEq α] {f : α → Option β} {a : α} {b : β}

theorem filterMap_erase_of_none (ha : f a = none) (l : List α) :
    (l.erase a).filterMap f = l.filterMap f := by
  induction l with
  | nil => rfl
  | cons x rest ih =>
      by_cases hx : x = a
      · rw [hx, List.erase_cons_head, List.filterMap_cons_none ha]
      · rw [List.erase_cons_tail (by simpa using hx), List.filterMap_cons, List.filterMap_cons, ih]

theorem filterMap_erase_of_some [BEq β] [LawfulBEq β] (ha : f a = some b)
    (hb : ∀ x, f x = some b → x = a) (l : List α) :
    (l.erase a).filterMap f = (l.filterMap f).erase b := by
  induction l with
  | nil => rfl
  | cons x rest ih =>
      by_cases hx : x = a
      · rw [hx, List.erase_cons_head, List.filterMap_cons_some ha, List.erase_cons_head]
      · rw [List.erase_cons_tail (by simpa using hx)]
        cases hfx : f x with
        | none => rw [List.filterMap_cons_none hfx, List.filterMap_cons_none hfx, ih]
        | some y =>
            have hy : ¬ (y == b) = true := by
              rw [beq_iff_eq]
              rintro rfl
              exact hx (hb x hfx)
            rw [List.filterMap_cons_some hfx, List.filterMap_cons_some hfx,
              List.erase_cons_tail hy, ih]

end Erase

namespace Tree

variable {t : Tree} {p q : Path} {name : Bytes} {dir : Path} {node : Node}

/-- The name of an entry of the directory `p`. -/
def entryOf (p : Path) : Path → Option Bytes
  | [] => none
  | name :: dir => if dir = p then some name else none

theorem children_eq (t : Tree) (p : Path) : t.children p = t.nodes.keys.filterMap (entryOf p) := by
  unfold children
  congr 1

theorem entryOf_self : entryOf dir (name :: dir) = some name := if_pos rfl

theorem entryOf_of_ne (hne : dir ≠ p) : entryOf p (name :: dir) = none := if_neg hne

theorem entryOf_eq_some : entryOf p q = some name ↔ q = name :: p := by
  cases q with
  | nil => simp [entryOf]
  | cons other dir =>
      simp only [entryOf, Option.ite_none_right_eq_some, Option.some.injEq, List.cons.injEq]
      exact and_comm

theorem children_insert_self (hname : PlainName name) :
    (t.insert name dir node hname).children dir = name :: (t.children dir).erase name := by
  rw [children_eq, children_eq]
  show ((t.nodes.insert (name :: dir) node).keys).filterMap (entryOf dir) = _
  rw [AList.keys_insert, List.filterMap_cons_some entryOf_self,
    filterMap_erase_of_some entryOf_self fun q hq => entryOf_eq_some.mp hq]

theorem children_insert_of_ne (hname : PlainName name) (hne : dir ≠ p) :
    (t.insert name dir node hname).children p = t.children p := by
  rw [children_eq, children_eq]
  show ((t.nodes.insert (name :: dir) node).keys).filterMap (entryOf p) = _
  rw [AList.keys_insert, List.filterMap_cons_none (entryOf_of_ne hne),
    filterMap_erase_of_none (entryOf_of_ne hne)]

theorem children_erase_self : (t.erase (name :: dir)).children dir = (t.children dir).erase name := by
  rw [children_eq, children_eq]
  show ((t.nodes.erase (name :: dir)).keys).filterMap (entryOf dir) = _
  rw [AList.keys_erase, filterMap_erase_of_some entryOf_self fun q hq => entryOf_eq_some.mp hq]

theorem children_erase_of_ne (hne : ∀ name, q ≠ name :: p) :
    (t.erase q).children p = t.children p := by
  have hnone : entryOf p q = none := by
    rw [Option.eq_none_iff_forall_not_mem]
    exact fun name hname => hne name (entryOf_eq_some.mp hname)
  rw [children_eq, children_eq]
  show ((t.nodes.erase q).keys).filterMap (entryOf p) = _
  rw [AList.keys_erase, filterMap_erase_of_none hnone]

end Tree

/-- What a call can do to a tree: nothing, or write or take the entry at its target. -/
inductive Edit (p : Path) (t : Tree) : Tree → Prop
  | none : Edit p t t
  | insert {name : Bytes} {dir : Path} (hp : p = name :: dir) (node : Node) (hname : PlainName name) :
      Edit p t (t.insert name dir node hname)
  | erase : Edit p t (t.erase p)

theorem disk_edit {β : Type} (call : Sys β) (c : Conditions) (t : Tree) :
    (disk.exec c call t).2 = t ∨ ∃ p ∈ call.target, Edit p t (disk.exec c call t).2 := by
  cases call with
  | mkdir path =>
      simp only [disk]
      split
      · exact Or.inl rfl
      · refine Or.inr ⟨_, rfl, ?_⟩
        cases hpath : resolve path with
        | nil => exact .none
        | cons name dir =>
            simp only [Tree.mkdir]
            split
            · split
              · exact .insert rfl _ ‹_›
              · exact .none
            · exact .none
  | openTrunc path =>
      simp only [disk]
      split
      · exact Or.inl rfl
      · refine Or.inr ⟨_, rfl, ?_⟩
        cases hpath : resolve path with
        | nil => exact .none
        | cons name dir =>
            simp only [Tree.openTrunc]
            split
            · split
              · exact .insert rfl _ ‹_›
              · exact .none
            · exact .none
  | write path offset data =>
      simp only [disk]
      split
      · exact Or.inl rfl
      · refine Or.inr ⟨_, rfl, ?_⟩
        unfold Tree.write
        split
        · next hpath _ =>
          split
          · exact .insert hpath _ ‹_›
          · exact .none
        · exact .none
  | remove path =>
      simp only [disk]
      split
      · exact Or.inl rfl
      · refine Or.inr ⟨_, rfl, ?_⟩
        unfold Tree.remove
        split
        · exact .erase
        · split
          · exact .erase
          · exact .none
        · exact .none
  | rmdir path =>
      simp only [disk]
      split
      · exact Or.inl rfl
      · refine Or.inr ⟨_, rfl, ?_⟩
        unfold Tree.rmdir
        split
        · split
          · exact .erase
          · exact .none
        · exact .none
  | _ => left; simp only [disk]; try split <;> rfl

/-! ## Trees that differ in a region -/

/-- The trees are the same but for the region `G`, and so are their directories. -/
structure Off (G : Path → Prop) (t t' : Tree) : Prop where
  at? : ∀ p, ¬ G p → t.at? p = t'.at? p
  children : ∀ p, (∀ name, ¬ G (name :: p)) → t.children p = t'.children p

/-- Neither the path nor its directory nor its entries are in the region. -/
structure Clear (G : Path → Prop) (p : Path) : Prop where
  self : ¬ G p
  dir : ¬ G p.tail
  entry : ∀ name, ¬ G (name :: p)

variable {G : Path → Prop} {t t' : Tree} {p : Path} {name : Bytes} {dir : Path}

namespace Off

theorem refl (G : Path → Prop) (t : Tree) : Off G t t := ⟨fun _ _ => rfl, fun _ _ => rfl⟩

theorem trans {t'' : Tree} (h : Off G t t') (h' : Off G t' t'') : Off G t t'' where
  at? := fun p hp => (h.at? p hp).trans (h'.at? p hp)
  children := fun p hp => (h.children p hp).trans (h'.children p hp)

theorem symm (h : Off G t t') : Off G t' t where
  at? := fun p hp => (h.at? p hp).symm
  children := fun p hp => (h.children p hp).symm

/-- In a larger region. -/
theorem mono {G' : Path → Prop} (h : Off G t t') (hG : ∀ p, G p → G' p) : Off G' t t' where
  at? := fun p hp => h.at? p fun hGp => hp (hG p hGp)
  children := fun p hp => h.children p fun name hGp => hp name (hG _ hGp)

/-- An edit in the region. -/
theorem of_edit {p : Path} (hp : G p) (hedit : Edit p t t') : Off G t t' := by
  cases hedit with
  | none => exact refl G t
  | insert hpath node hname =>
      subst hpath
      constructor
      · intro q hq
        rw [Tree.at?_insert_of_ne hname]
        rintro rfl
        exact hq hp
      · intro q hq
        rw [Tree.children_insert_of_ne hname]
        rintro rfl
        exact hq _ hp
  | erase =>
      constructor
      · intro q hq
        rw [Tree.at?_erase_of_ne]
        rintro rfl
        exact hq hp
      · intro q hq
        rw [Tree.children_erase_of_ne]
        rintro name rfl
        exact hq name hp

variable (h : Off G t t')

include h

theorem isDir_eq (hp : ¬ G p) : t.isDir p = t'.isDir p := by
  unfold Tree.isDir
  rw [h.at? p hp]

theorem bytes?_eq (hp : ¬ G p) : t.bytes? p = t'.bytes? p := Tree.bytes?_congr (h.at? p hp)

/-- The same entry is written to both. -/
theorem insert (hname : PlainName name) (node : Node) :
    Off G (t.insert name dir node hname) (t'.insert name dir node hname) := by
  constructor
  · intro q hq
    by_cases hqp : q = name :: dir
    · rw [hqp, Tree.at?_insert_self, Tree.at?_insert_self]
    · rw [Tree.at?_insert_of_ne hname hqp, Tree.at?_insert_of_ne hname hqp, h.at? q hq]
  · intro q hq
    by_cases hqp : dir = q
    · subst hqp
      rw [Tree.children_insert_self, Tree.children_insert_self, h.children _ hq]
    · rw [Tree.children_insert_of_ne hname hqp, Tree.children_insert_of_ne hname hqp,
        h.children q hq]

/-- The same entry is taken from both. -/
theorem erase (p : Path) : Off G (t.erase p) (t'.erase p) := by
  constructor
  · intro q hq
    by_cases hqp : q = p
    · rw [hqp, Tree.at?_erase_self, Tree.at?_erase_self]
    · rw [Tree.at?_erase_of_ne hqp, Tree.at?_erase_of_ne hqp, h.at? q hq]
  · intro q hq
    by_cases hqp : ∃ name, p = name :: q
    · obtain ⟨name, rfl⟩ := hqp
      rw [Tree.children_erase_self, Tree.children_erase_self, h.children q hq]
    · rw [not_exists] at hqp
      rw [Tree.children_erase_of_ne hqp, Tree.children_erase_of_ne hqp, h.children q hq]

variable (hp : Clear G p)

include hp

theorem stat : t.stat p = t'.stat p := by
  unfold Tree.stat
  rw [h.isDir_eq hp.self, h.bytes?_eq hp.self]

theorem mkdir : (t.mkdir p).1 = (t'.mkdir p).1 ∧ Off G (t.mkdir p).2 (t'.mkdir p).2 := by
  cases p with
  | nil => exact ⟨rfl, h⟩
  | cons name dir =>
      simp only [Tree.mkdir]
      split
      · next hname =>
        have hdir : t.isDir dir = t'.isDir dir := h.isDir_eq hp.dir
        rw [hdir, h.at? _ hp.self]
        split
        · exact ⟨rfl, h.insert hname _⟩
        · exact ⟨rfl, h⟩
      · exact ⟨rfl, h⟩

theorem openTrunc :
    (t.openTrunc p).1 = (t'.openTrunc p).1 ∧ Off G (t.openTrunc p).2 (t'.openTrunc p).2 := by
  cases p with
  | nil => exact ⟨rfl, h⟩
  | cons name dir =>
      simp only [Tree.openTrunc]
      split
      · next hname =>
        have hdir : t.isDir dir = t'.isDir dir := h.isDir_eq hp.dir
        rw [hdir, h.isDir_eq hp.self]
        split
        · exact ⟨rfl, h.insert hname _⟩
        · exact ⟨rfl, h⟩
      · exact ⟨rfl, h⟩

theorem write (offset : ℕ) (data : Bytes) :
    Off G (t.write p offset data) (t'.write p offset data) := by
  cases p with
  | nil => exact h
  | cons name dir =>
      simp only [Tree.write]
      rw [h.bytes?_eq hp.self]
      split
      · split
        · exact h.insert _ _
        · exact h
      · exact h

theorem read (offset count : ℕ) : t.read p offset count = t'.read p offset count := by
  unfold Tree.read
  rw [h.bytes?_eq hp.self]

theorem remove : (t.remove p).1 = (t'.remove p).1 ∧ Off G (t.remove p).2 (t'.remove p).2 := by
  unfold Tree.remove
  rw [h.at? p hp.self, h.children p hp.entry]
  split
  · exact ⟨rfl, h.erase p⟩
  · split
    · exact ⟨rfl, h.erase p⟩
    · exact ⟨rfl, h⟩
  · exact ⟨rfl, h⟩

theorem rmdir : (t.rmdir p).1 = (t'.rmdir p).1 ∧ Off G (t.rmdir p).2 (t'.rmdir p).2 := by
  unfold Tree.rmdir
  rw [h.at? p hp.self, h.children p hp.entry]
  split
  · split
    · exact ⟨rfl, h.erase p⟩
    · exact ⟨rfl, h⟩
  · exact ⟨rfl, h⟩

end Off

/-- A call on a clear path answers alike on both trees, and leaves them alike. -/
theorem disk_off {β : Type} {call : Sys β} (c : Conditions) (h : Off G t t')
    (hp : Clear G (resolve call.path)) :
    (disk.exec c call t).1 = (disk.exec c call t').1 ∧
      Off G (disk.exec c call t).2 (disk.exec c call t').2 := by
  cases call with
  | stat path =>
      simp only [disk]
      split
      · exact ⟨rfl, h⟩
      · exact ⟨h.stat hp, h⟩
  | mkdir path =>
      simp only [disk]
      split
      · exact ⟨rfl, h⟩
      · exact h.mkdir hp
  | openRead path =>
      simp only [disk]
      split
      · exact ⟨rfl, h⟩
      · exact ⟨congrArg Option.isSome (h.bytes?_eq hp.self), h⟩
  | openTrunc path =>
      simp only [disk]
      split
      · exact ⟨rfl, h⟩
      · exact h.openTrunc hp
  | lock path kind => exact ⟨rfl, h⟩
  | unlock path => exact ⟨rfl, h⟩
  | close path => exact ⟨rfl, h⟩
  | read path offset count =>
      simp only [disk]
      split
      · exact ⟨rfl, h⟩
      · exact ⟨congrArg some (h.read hp _ _), h⟩
  | write path offset data =>
      simp only [disk]
      split
      · exact ⟨rfl, h⟩
      · exact ⟨rfl, h.write hp _ _⟩
  | remove path =>
      simp only [disk]
      split
      · exact ⟨rfl, h⟩
      · exact h.remove hp
  | rmdir path =>
      simp only [disk]
      split
      · exact ⟨rfl, h⟩
      · exact h.rmdir hp
  | readdir path =>
      have hdir : t.isDir (resolve path) = t'.isDir (resolve path) := h.isDir_eq hp.self
      have hchildren : t.children (resolve path) = t'.children (resolve path) :=
        h.children _ hp.entry
      simp only [disk, hdir, hchildren]
      split
      · exact ⟨rfl, h⟩
      · exact ⟨rfl, h⟩

/-- A program that stays clear of the region runs alike on both trees. -/
theorem UsesOnly.run_off {α : Type} {P : Path → Prop} {prog : Prog Sys α}
    (hprog : UsesOnly P prog) (hclear : ∀ p, P p → Clear G p) (env : ℕ → Conditions)
    (h : Off G t t') :
    (prog.run disk env t).1 = (prog.run disk env t').1 ∧
      Off G (prog.run disk env t).2 (prog.run disk env t').2 := by
  induction prog generalizing env t t' with
  | ret value => exact ⟨rfl, h⟩
  | call c next ih =>
      obtain ⟨hanswer, hafter⟩ := disk_off (env 0) h (hclear _ hprog.1)
      rw [Prog.run_call, Prog.run_call, ← hanswer]
      exact ih _ (hprog.2 _ (disk_possible c _ t)) (fun i => env (i + 1)) hafter

/-- A program that writes only in the region leaves the rest as it was. -/
theorem WritesOnly.run_off {α : Type} {prog : Prog Sys α} (hprog : WritesOnly G prog)
    (env : ℕ → Conditions) (t : Tree) : Off G t (prog.run disk env t).2 := by
  induction prog generalizing env t with
  | ret value => exact Off.refl G t
  | call c next ih =>
      have hrest := ih _ (hprog.2 _ (disk_possible c (env 0) t)) (fun i => env (i + 1))
        (disk.exec (env 0) c t).2
      rw [Prog.run_call]
      apply Off.trans _ hrest
      rcases disk_edit c (env 0) t with hsame | ⟨p, hp, hedit⟩
      · rw [hsame]
        exact Off.refl G t
      · exact Off.of_edit (hprog.1 p hp) hedit

end Files
