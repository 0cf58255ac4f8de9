import CloudSync.Lib.Interleaving

/-!
# A thread among others and alone

`runSchedule_after` compares a thread of a pool with the same program run alone
from the state the pool started in.  The run alone has a state of its own, the
*mirror* of the shared one; what has to hold between the two is a relation `V`.  If
the calls of the thread answer alike in both and keep `V`, and the steps of the
other threads keep it by changing the shared state only, then the thread comes as far
among the others as alone, and returns what it returns alone (`returned_alone`).

The run alone meets the environments the thread met in the schedule (`metBy`), so
nothing is assumed about clocks or failures.
-/

namespace Calls

variable {C : Type → Type} {E γ α ι σ : Type} [DecidableEq ι]

/-- The environments that thread `i` meets in a schedule. -/
def metBy (i : ι) : List (ι × E) → List E
  | [] => []
  | (j, e) :: rest => if j = i then e :: metBy i rest else metBy i rest

/-- The stream begins with the list. -/
def Follows : List E → (ℕ → E) → Prop
  | [], _ => True
  | e :: rest, env => env 0 = e ∧ Follows rest fun k => env (k + 1)

/-- A stream that begins with the list. -/
def followed (default : E) : List E → ℕ → E
  | [], _ => default
  | e :: _, 0 => e
  | _ :: rest, k + 1 => followed default rest k

omit [DecidableEq ι] in
theorem follows_followed (default : E) (l : List E) : Follows l (followed default l) := by
  induction l with
  | nil => trivial
  | cons e rest ih => exact ⟨rfl, ih⟩

/-- What is left of a program, and the state, when its calls have met the environments of a
list; a program that has returned stays where it is. -/
def Prog.after (h : Handler C E σ) : Prog C α → List E → σ → Prog C α × σ
  | .ret value, _, s => (.ret value, s)
  | .call c next, [], s => (.call c next, s)
  | .call c next, e :: rest, s => (next (h.exec e c s).1).after h rest (h.exec e c s).2

omit [DecidableEq ι] in
@[simp] theorem Prog.after_ret (h : Handler C E σ) (value : α) (l : List E) (s : σ) :
    (Prog.ret value : Prog C α).after h l s = (.ret value, s) := by
  cases l <;> rfl

omit [DecidableEq ι] in
@[simp] theorem Prog.after_nil (h : Handler C E σ) (prog : Prog C α) (s : σ) :
    prog.after h [] s = (prog, s) := by
  cases prog <;> rfl

/-- What is left does what the whole program does, from where it stands. -/
theorem Prog.run_after (h : Handler C E σ) (prog : Prog C α) {l : List E} {env : ℕ → E}
    (henv : Follows l env) (s : σ) : ∃ env' : ℕ → E,
      prog.run h env s = (prog.after h l s).1.run h env' (prog.after h l s).2 := by
  induction l generalizing prog env s with
  | nil => exact ⟨env, by rw [Prog.after_nil]⟩
  | cons e rest ih =>
      obtain ⟨rfl, henv⟩ := henv
      cases prog with
      | ret value => exact ⟨env, rfl⟩
      | call c next => exact ih _ henv _

/-- Where a run leads, a schedule leads. -/
theorem Reach.exists_schedule {h : Handler C E σ} {mon : ι → Monitor C γ}
    {allowed : Pool C γ α ι σ → ι → E → Prop} {first pool : Pool C γ α ι σ}
    (hreach : Reach h mon allowed first pool) :
    ∃ schedule, first.runSchedule h mon schedule = pool := by
  have happend : ∀ (first : Pool C γ α ι σ) (schedule : List (ι × E)) (i : ι) (e : E),
      first.runSchedule h mon (schedule ++ [(i, e)]) =
        (first.runSchedule h mon schedule).step h mon i e := by
    intro first schedule i e
    induction schedule generalizing first with
    | nil => rfl
    | cons entry rest ih => exact ih _
  induction hreach with
  | refl => exact ⟨[], rfl⟩
  | @step pool i e _ _ ih =>
      obtain ⟨schedule, hschedule⟩ := ih
      exact ⟨schedule ++ [(i, e)], by rw [happend, hschedule]⟩

variable {h : Handler C E σ} {mon : ι → Monitor C γ} {i : ι}
  {J : Pool C γ α ι σ → Prop} {V : Thread C γ α → σ → σ → Prop}

/-- The calls of thread `i` answer as they do in the mirror, and both states stay
related. -/
def Mirrored (h : Handler C E σ) (mon : ι → Monitor C γ) (i : ι) (J : Pool C γ α ι σ → Prop)
    (V : Thread C γ α → σ → σ → Prop) : Prop :=
  ∀ (pool : Pool C γ α ι σ) (e : E) (s' : σ) {β : Type} (c : C β) (next : β → Prog C α),
    J pool → (pool.thread i).prog = .call c next → V (pool.thread i) pool.shared s' →
      (h.exec e c pool.shared).1 = (h.exec e c s').1 ∧
        V ((pool.step h mon i e).thread i) (h.exec e c pool.shared).2 (h.exec e c s').2

/-- The steps of the other threads keep the shared state related to the mirror. -/
def OthersKeep (h : Handler C E σ) (mon : ι → Monitor C γ) (i : ι)
    (J : Pool C γ α ι σ → Prop) (V : Thread C γ α → σ → σ → Prop) : Prop :=
  ∀ (pool : Pool C γ α ι σ) (j : ι) (e : E) (s' : σ), J pool → j ≠ i →
    V (pool.thread i) pool.shared s' → V (pool.thread i) (pool.step h mon j e).shared s'

/-- Whatever the schedule, thread `i` has come as far in the mirror as among the others. -/
theorem runSchedule_after (hJ : ∀ pool j e, J pool → J (pool.step h mon j e))
    (hown : Mirrored h mon i J V) (hothers : OthersKeep h mon i J V)
    {pool : Pool C γ α ι σ} {s' : σ} (hpool : J pool) (hV : V (pool.thread i) pool.shared s')
    (schedule : List (ι × E)) :
    ((pool.runSchedule h mon schedule).thread i).prog =
        ((pool.thread i).prog.after h (metBy i schedule) s').1 ∧
      V ((pool.runSchedule h mon schedule).thread i) (pool.runSchedule h mon schedule).shared
        ((pool.thread i).prog.after h (metBy i schedule) s').2 := by
  induction schedule generalizing pool s' with
  | nil =>
      rw [metBy, Prog.after_nil]
      exact ⟨rfl, hV⟩
  | cons entry rest ih =>
      obtain ⟨j, e⟩ := entry
      have hstep : J (pool.step h mon j e) := hJ pool j e hpool
      by_cases hji : j = i
      · subst hji
        rw [metBy, if_pos rfl]
        cases hprog : (pool.thread j).prog with
        | ret value =>
            -- a finished thread stays where it is
            have hsame : pool.step h mon j e = pool := Pool.step_ret hprog _
            have hrest := ih hstep (hsame.symm ▸ hV)
            rw [hsame, hprog, Prog.after_ret] at hrest
            rw [Prog.after_ret]
            simpa only [Pool.runSchedule, hsame] using hrest
        | call c next =>
            obtain ⟨hanswer, hafter⟩ := hown pool e s' c next hpool hprog hV
            have hshared : (pool.step h mon j e).shared = (h.exec e c pool.shared).2 := by
              rw [Pool.step_call hprog]
            have hleft : ((pool.step h mon j e).thread j).prog = next (h.exec e c s').1 := by
              rw [Pool.step_call hprog, ← hanswer]
              simp only [Function.update_self]
            have hrest := ih hstep (hshared.symm ▸ hafter)
            rw [hleft] at hrest
            exact hrest
      · rw [metBy, if_neg hji]
        have hsame : (pool.step h mon j e).thread i = pool.thread i :=
          Pool.step_thread_of_ne pool (Ne.symm hji) e
        have hrest := ih hstep (hsame.symm ▸ hothers pool j e s' hpool hji hV)
        rw [hsame] at hrest
        exact hrest

/-- A thread that has returned has returned what it returns alone. -/
theorem returned_alone (hJ : ∀ pool j e, J pool → J (pool.step h mon j e))
    (hown : Mirrored h mon i J V) (hothers : OthersKeep h mon i J V)
    {schedule : List (ι × E)} {pool : Pool C γ α ι σ} {env : ℕ → E} {value : α}
    (hpool : J pool) (hV : V (pool.thread i) pool.shared pool.shared)
    (henv : Follows (metBy i schedule) env)
    (hdone : ((pool.runSchedule h mon schedule).thread i).prog = .ret value) :
    ((pool.thread i).prog.run h env pool.shared).1 = value ∧
      V ((pool.runSchedule h mon schedule).thread i) (pool.runSchedule h mon schedule).shared
        ((pool.thread i).prog.run h env pool.shared).2 := by
  obtain ⟨hprog, hafter⟩ := runSchedule_after hJ hown hothers hpool hV schedule
  obtain ⟨env', hrun⟩ := (pool.thread i).prog.run_after h henv pool.shared
  rw [← hprog, hdone, Prog.run_ret] at hrun
  rw [hrun]
  exact ⟨rfl, hafter⟩

end Calls
