import CloudSync.Lib.Program

/-!
# What a program logs

Some calls of a program leave an entry.  `Prog.logged` is the list of the entries a run
leaves, in order.  `Prog.Logs` is about all runs at once: whatever the calls answer,
the entries and the value returned are related by `Q`.  It is taken apart call by
call, and holds of every run (`Prog.Logs.run`).
-/

namespace Calls

namespace Prog

variable {C : Type → Type} {E σ α β ω : Type} (see : {β : Type} → C β → Option ω)

/-- The entries of a run. -/
def logged (h : Handler C E σ) : Prog C α → (ℕ → E) → σ → List ω
  | ret _, _, _ => []
  | call c next, env, s =>
      (see c).toList ++
        logged h (next (h.exec (env 0) c s).1) (fun i => env (i + 1)) (h.exec (env 0) c s).2

/-- Whatever the calls answer, the entries and the value are related. -/
def Logs : Prog C α → (List ω → α → Prop) → Prop
  | ret value, Q => Q [] value
  | call c next, Q =>
      ∀ answer, Logs (next answer) fun entries value => Q ((see c).toList ++ entries) value

variable {see} {h : Handler C E σ} {Q : List ω → α → Prop}

/-- What holds whatever the calls answer holds of every run. -/
theorem Logs.run {prog : Prog C α} (hlogs : Logs see prog Q) (env : ℕ → E) (s : σ) :
    Q (logged see h prog env s) (prog.run h env s).1 := by
  induction prog generalizing Q env s with
  | ret value => exact hlogs
  | call c next ih => exact ih _ (hlogs _) _ _

/-- A call that leaves no entry. -/
theorem logs_silent {γ : Type} {c : C γ} {next : γ → Prog C α} (hc : see c = none)
    (hnext : ∀ answer, Logs see (next answer) Q) : Logs see (call c next : Prog C α) Q := by
  intro answer
  have hsee : (see c).toList = [] := by rw [hc, Option.toList_none]
  change Logs see (next answer) fun entries value => Q ((see c).toList ++ entries) value
  rw [hsee]
  exact hnext answer

/-- A first call that leaves no entry. -/
theorem logged_silent {γ : Type} {c : C γ} (hc : see c = none) (next : γ → Prog C α)
    (env : ℕ → E) (s : σ) :
    logged see h (call c next : Prog C α) env s =
      logged see h (next (h.exec (env 0) c s).1) (fun i => env (i + 1))
        (h.exec (env 0) c s).2 := by
  rw [logged, hc]
  rfl

theorem logs_ite {p : Prop} [Decidable p] {yes no : Prog C α} (hyes : Logs see yes Q)
    (hno : Logs see no Q) : Logs see (if p then yes else no) Q := by
  split
  · exact hyes
  · exact hno

end Prog

end Calls
