import CloudSync.Lib.Files

/-!
# Relative paths in normal form

Read from left to right, a relative path climbs some way up and then enters some
names: that is its `Normal` form.  Appended to a directory it resolves to the
directory less what it climbs, and the names (`resolve_append_normal`), so where
a path leads from one directory tells where it leads from another.
-/

namespace Files

open CText

/-- How far a relative path climbs, and the names it then enters, innermost first. -/
structure Normal where
  ups : ℕ
  names : Path
  deriving DecidableEq

namespace Normal

/-- The path that stays where it is. -/
def here : Normal := ⟨0, []⟩

/-- One component more. -/
def enter (n : Normal) (name : Bytes) : Normal :=
  if name = dotDot then
    match n.names with
    | [] => ⟨n.ups + 1, []⟩
    | _ :: rest => ⟨n.ups, rest⟩
  else ⟨n.ups, name :: n.names⟩

/-- Where the path leads from a directory; above the working directory there are
only `..`s. -/
def applyTo (n : Normal) (dir : Path) : Path :=
  n.names ++ (dir.drop n.ups ++ List.replicate (n.ups - dir.length) dotDot)

/-- The names are such as directory entries have. -/
def Plain (n : Normal) : Prop := ∀ name ∈ n.names, PlainName name

variable {n : Normal} {dir : Path} {name : Bytes}

theorem applyTo_here : here.applyTo dir = dir := by
  simp [applyTo, here]

/-- Entering commutes with climbing from the directory first. -/
theorem enter_applyTo (hplain : n.Plain) (hdir : dotDot ∉ dir) :
    Files.enter (n.applyTo dir) name = (n.enter name).applyTo dir := by
  obtain ⟨ups, names⟩ := n
  unfold Normal.enter Files.enter
  by_cases hname : name = dotDot
  · rw [if_pos hname, if_pos hname]
    cases names with
    | cons top rest =>
        -- the name entered last is left again
        have htop : top ≠ dotDot := (hplain top (List.mem_cons_self ..)).ne_dotDot
        simp only [applyTo, List.cons_append, if_neg htop]
    | nil =>
        simp only [applyTo, List.nil_append]
        by_cases hups : ups < dir.length
        · have hleft : ups - dir.length = 0 := by omega
          have hnext : ups + 1 - dir.length = 0 := by omega
          have htop : dir[ups] ≠ dotDot := fun h => hdir (h ▸ List.getElem_mem hups)
          rw [List.drop_eq_getElem_cons hups, hleft, hnext]
          simp only [List.replicate_zero, List.append_nil, if_neg htop]
        · obtain ⟨more, rfl⟩ : ∃ more, ups = dir.length + more := ⟨ups - dir.length, by omega⟩
          have hleft : dir.length + more - dir.length = more := by omega
          have hnext : dir.length + more + 1 - dir.length = more + 1 := by omega
          rw [List.drop_eq_nil_of_le (by omega), List.drop_eq_nil_of_le (by omega), hleft, hnext]
          cases more with
          | zero => rfl
          | succ more => simp [List.replicate_succ]
  · rw [if_neg hname, if_neg hname]
    rfl

theorem mem_enter {other : Bytes} (hother : other ∈ (n.enter name).names) :
    other ∈ n.names ∨ other = name ∧ name ≠ dotDot := by
  obtain ⟨ups, names⟩ := n
  unfold Normal.enter at hother
  by_cases hup : name = dotDot
  · rw [if_pos hup] at hother
    cases names with
    | nil => exact absurd hother (List.not_mem_nil)
    | cons top rest => exact Or.inl (List.mem_cons_of_mem _ hother)
  · rw [if_neg hup] at hother
    rcases List.mem_cons.mp hother with rfl | hother
    · exact Or.inr ⟨rfl, hup⟩
    · exact Or.inl hother

theorem mem_foldl_enter {names : List Bytes} {other : Bytes}
    (hother : other ∈ (names.foldl Normal.enter n).names) :
    other ∈ n.names ∨ other ∈ names ∧ other ≠ dotDot := by
  induction names generalizing n with
  | nil => exact Or.inl hother
  | cons name rest ih =>
      rcases ih hother with hmem | ⟨hmem, hne⟩
      · rcases mem_enter hmem with hmem | ⟨rfl, hne⟩
        · exact Or.inl hmem
        · exact Or.inr ⟨List.mem_cons_self .., hne⟩
      · exact Or.inr ⟨List.mem_cons_of_mem _ hmem, hne⟩

theorem foldl_enter (names : List Bytes) (hnames : ∀ name ∈ names, name = dotDot ∨ PlainName name)
    (hplain : n.Plain) (hdir : dotDot ∉ dir) :
    names.foldl Files.enter (n.applyTo dir) = (names.foldl Normal.enter n).applyTo dir := by
  induction names generalizing n with
  | nil => rfl
  | cons name rest ih =>
      rw [List.foldl_cons, List.foldl_cons, enter_applyTo hplain hdir]
      apply ih (fun other h => hnames other (List.mem_cons_of_mem _ h))
      intro other hother
      rcases mem_enter hother with hmem | ⟨rfl, hne⟩
      · exact hplain other hmem
      · exact (hnames other (List.mem_cons_self ..)).resolve_left hne

end Normal

/-- The normal form of a relative path. -/
def normal (path : Bytes) : Normal := (components path).foldl Normal.enter Normal.here

variable {path name : Bytes}

/-- A component climbs or is a name. -/
theorem plainName_of_mem_components (hname : name ∈ components path) :
    name = dotDot ∨ PlainName name := by
  obtain ⟨hmem, hkept⟩ := List.mem_filter.mp hname
  simp only [Bool.and_eq_true, Bool.not_eq_true', List.isEmpty_eq_false_iff, bne_iff_ne] at hkept
  by_cases hup : name = dotDot
  · exact Or.inl hup
  · exact Or.inr ⟨hkept.1, not_mem_of_mem_fields hmem, hkept.2, hup⟩

/-- The names of the normal form are components. -/
theorem mem_components_of_mem_normal (hname : name ∈ (normal path).names) :
    name ∈ components path ∧ name ≠ dotDot :=
  (Normal.mem_foldl_enter hname).resolve_left List.not_mem_nil

theorem normal_plain (path : Bytes) : (normal path).Plain := fun _ hname =>
  have hmem := mem_components_of_mem_normal hname
  (plainName_of_mem_components hmem.1).resolve_left hmem.2

theorem length_le_of_mem_normal (hname : name ∈ (normal path).names) :
    name.length ≤ path.length :=
  length_le_of_mem_fields (List.mem_filter.mp (mem_components_of_mem_normal hname).1).1

/-- A relative path leads from a directory where its normal form does. -/
theorem resolve_append_normal {dir : Bytes} (hdir : dotDot ∉ resolve dir) (path : Bytes) :
    resolve (dir ++ 47 :: path) = (normal path).applyTo (resolve dir) := by
  have hplain : Normal.here.Plain := fun _ h => absurd h List.not_mem_nil
  have hrun := Normal.foldl_enter (components path) (fun _ => plainName_of_mem_components) hplain hdir
  rw [Normal.applyTo_here] at hrun
  rw [resolve_append_slash]
  exact hrun

end Files
