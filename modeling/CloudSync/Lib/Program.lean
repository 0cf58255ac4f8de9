import Mathlib.Data.Nat.Basic

/-!
# Programs that make calls

A program is a tree: it either returns a value or makes a call and goes on with
the answer.  What a call answers, and what it does to the state, is the business
of a `Handler`, so one program text can be run to completion by one handler,
interleaved with others (`Interleaving.lean`), or run under a different
handler that lets calls fail.

`Prog.run` runs a program alone.  Each call meets its own environment (a clock
reading, an outcome), taken from a stream.  `Prog.wp` is the matching
precondition transformer: it quantifies over the environments a call may meet,
and `Prog.wp_run` says that what it promises holds of every run.
-/

namespace Calls

/-- A program over the calls `C` that returns an `α`. -/
inductive Prog (C : Type → Type) (α : Type) : Type 1
  | ret (value : α) : Prog C α
  | call {β : Type} (c : C β) (next : β → Prog C α) : Prog C α

/-- What a call answers and does to the state, in the environment it meets. -/
structure Handler (C : Type → Type) (E σ : Type) where
  exec : {β : Type} → E → C β → σ → β × σ

namespace Prog

variable {C : Type → Type} {E σ α β : Type}

/-- Sequencing: the calls of the first program, then those of the second. -/
def bind : Prog C α → (α → Prog C β) → Prog C β
  | ret value, f => f value
  | call c next, f => call c fun answer => bind (next answer) f

instance : Monad (Prog C) where
  pure := ret
  bind := bind

/-- The program that makes one call and returns its answer. -/
def perform (c : C α) : Prog C α := call c ret

@[simp] theorem pure_eq_ret (value : α) : (pure value : Prog C α) = ret value := rfl

@[simp] theorem ret_bind (value : α) (f : α → Prog C β) : (ret value >>= f) = f value := rfl

@[simp] theorem call_bind {γ : Type} (c : C γ) (next : γ → Prog C α) (f : α → Prog C β) :
    (call c next >>= f) = call c fun answer => next answer >>= f := rfl

@[simp] theorem perform_bind (c : C α) (f : α → Prog C β) : (perform c >>= f) = call c f := rfl

theorem bind_ret (p : Prog C α) : (p >>= ret) = p := by
  induction p with
  | ret value => rfl
  | call c next ih => exact congrArg (call c) (funext ih)

theorem bind_assoc {γ : Type} (p : Prog C α) (f : α → Prog C β) (g : β → Prog C γ) :
    p >>= f >>= g = p >>= fun value => f value >>= g := by
  induction p with
  | ret value => rfl
  | call c next ih => exact congrArg (call c) (funext ih)

/-! ## Running a program alone -/

/-- Run a program to completion; call number `i` meets the environment `env i`. -/
def run (h : Handler C E σ) : Prog C α → (ℕ → E) → σ → α × σ
  | ret value, _, s => (value, s)
  | call c next, env, s =>
      run h (next (h.exec (env 0) c s).1) (fun i => env (i + 1)) (h.exec (env 0) c s).2

@[simp] theorem run_ret (h : Handler C E σ) (value : α) (env : ℕ → E) (s : σ) :
    run h (ret value) env s = (value, s) := rfl

@[simp] theorem run_call {γ : Type} (h : Handler C E σ) (c : C γ) (next : γ → Prog C α)
    (env : ℕ → E) (s : σ) :
    run h (call c next) env s =
      run h (next (h.exec (env 0) c s).1) (fun i => env (i + 1)) (h.exec (env 0) c s).2 := rfl

/-- How many calls a run makes. -/
def steps (h : Handler C E σ) : Prog C α → (ℕ → E) → σ → ℕ
  | ret _, _, _ => 0
  | call c next, env, s =>
      steps h (next (h.exec (env 0) c s).1) (fun i => env (i + 1)) (h.exec (env 0) c s).2 + 1

/-- The second program meets what the first has left of the environments. -/
theorem run_bind (h : Handler C E σ) (p : Prog C α) (f : α → Prog C β) (env : ℕ → E) (s : σ) :
    run h (p >>= f) env s =
      run h (f (run h p env s).1) (fun i => env (i + steps h p env s)) (run h p env s).2 := by
  induction p generalizing env s with
  | ret value => rfl
  | call c next ih => exact ih _ _ _

/-! ## Preconditions -/

/-- The states from which every run of the program, its calls meeting only
environments allowed by `ok`, ends with an answer and a state related by `Q`. -/
def wp (h : Handler C E σ) (ok : E → Prop) : Prog C α → (α → σ → Prop) → σ → Prop
  | ret value, Q, s => Q value s
  | call c next, Q, s =>
      ∀ e, ok e → wp h ok (next (h.exec e c s).1) Q (h.exec e c s).2

variable {h : Handler C E σ} {ok : E → Prop}

@[simp] theorem wp_ret (value : α) (Q : α → σ → Prop) (s : σ) :
    wp h ok (ret value) Q s ↔ Q value s := Iff.rfl

@[simp] theorem wp_call {γ : Type} (c : C γ) (next : γ → Prog C α) (Q : α → σ → Prop) (s : σ) :
    wp h ok (call c next) Q s ↔
      ∀ e, ok e → wp h ok (next (h.exec e c s).1) Q (h.exec e c s).2 := Iff.rfl

/-- Every run meets what `wp` promises. -/
theorem wp_run {p : Prog C α} {Q : α → σ → Prop} {s : σ} (hp : wp h ok p Q s)
    {env : ℕ → E} (henv : ∀ i, ok (env i)) : Q (run h p env s).1 (run h p env s).2 := by
  induction p generalizing env s with
  | ret value => exact hp
  | call c next ih => exact ih _ (hp (env 0) (henv 0)) fun i => henv (i + 1)

/-- What holds of every run, `wp` promises. -/
theorem wp_of_run {p : Prog C α} {Q : α → σ → Prop} {s : σ} {e : E} (he : ok e)
    (hrun : ∀ env : ℕ → E, (∀ i, ok (env i)) → Q (run h p env s).1 (run h p env s).2) :
    wp h ok p Q s := by
  induction p generalizing s with
  | ret value => exact hrun (fun _ => e) fun _ => he
  | call c next ih =>
      intro e₀ he₀
      apply ih _
      intro env henv
      have hcons := hrun (fun i => match i with | 0 => e₀ | j + 1 => env j) fun i => by
        cases i with
        | zero => exact he₀
        | succ j => exact henv j
      exact hcons

theorem wp_mono {p : Prog C α} {Q R : α → σ → Prop} {s : σ} (hp : wp h ok p Q s)
    (hQR : ∀ value s', Q value s' → R value s') : wp h ok p R s := by
  induction p generalizing s with
  | ret value => exact hQR _ _ hp
  | call c next ih => exact fun e he => ih _ (hp e he)

/-- A postcondition that holds whatever happens. -/
theorem wp_of_forall {p : Prog C α} {Q : α → σ → Prop} (hQ : ∀ value s, Q value s) (s : σ) :
    wp h ok p Q s := by
  induction p generalizing s with
  | ret value => exact hQ _ _
  | call c next ih => exact fun e _ => ih _ _

theorem wp_bind {p : Prog C α} {f : α → Prog C β} {Q : β → σ → Prop} {s : σ} :
    wp h ok (p >>= f) Q s ↔ wp h ok p (fun value s' => wp h ok (f value) Q s') s := by
  induction p generalizing s with
  | ret value => rfl
  | call c next ih => exact forall₂_congr fun e _ => ih _

end Prog

end Calls
