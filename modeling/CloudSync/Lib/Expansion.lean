import CloudSync.Lib.Contracts

/-!
# Calls that are programs themselves

`Prog.expand` replaces every call of a program by a program of finer calls.  Run alone, the
finer program does what the coarse one does, if each replacement does what its call does
(`run_expand`).  Among others it may do more, since the finer calls of several threads
interleave.  What the coarse threads can do is still among it (`Reach.expand`): each
replacement may happen to be run through at once.  And a contract carries over, if the
replacements honour what the coarse program relies on (`Honours.expand`).
-/

namespace Calls

variable {C D : Type → Type} {E F γ α β ι σ τ : Type}

namespace Prog

/-- Replace each call by a program. -/
def expand (φ : {β : Type} → C β → Prog D β) : Prog C α → Prog D α
  | ret value => ret value
  | call c next => φ c >>= fun answer => expand φ (next answer)

variable {φ : {β : Type} → C β → Prog D β}

@[simp] theorem expand_ret (value : α) : expand φ (ret value : Prog C α) = ret value := rfl

@[simp] theorem expand_call {δ : Type} (c : C δ) (next : δ → Prog C α) :
    expand φ (call c next) = φ c >>= fun answer => expand φ (next answer) := rfl

variable {h : Handler C E σ} {h' : Handler D F τ}

/-- Run alone, the finer program is the coarse program in some environments, each made from
those that the finer one meets. -/
theorem run_expand (view : τ → σ) {madeFrom : (ℕ → F) → E → Prop}
    (hsome : ∀ env, ∃ e, madeFrom env e)
    (hlater : ∀ (env : ℕ → F) k e, madeFrom (fun i => env (i + k)) e → madeFrom env e)
    (hcall : ∀ {δ : Type} (c : C δ) (env : ℕ → F) (t : τ), ∃ e, madeFrom env e ∧
      h.exec e c (view t) = (((φ c).run h' env t).1, view ((φ c).run h' env t).2))
    (prog : Prog C α) (env : ℕ → F) (t : τ) :
    ∃ env' : ℕ → E, (∀ i, madeFrom env (env' i)) ∧ prog.run h env' (view t) =
      (((expand φ prog).run h' env t).1, view ((expand φ prog).run h' env t).2) := by
  induction prog generalizing env t with
  | ret value =>
      obtain ⟨e, he⟩ := hsome env
      exact ⟨fun _ => e, fun _ => he, rfl⟩
  | call c next ih =>
      obtain ⟨e, hmade, he⟩ := hcall c env t
      rw [expand_call, run_bind]
      obtain ⟨env', hmade', henv'⟩ := ih ((φ c).run h' env t).1
        (fun i => env (i + (φ c).steps h' env t)) ((φ c).run h' env t).2
      refine ⟨fun i => i.casesOn e env', fun i => ?_, ?_⟩
      · cases i with
        | zero => exact hmade
        | succ i => exact hlater env _ _ (hmade' i)
      · calc (call c next).run h (fun i => i.casesOn e env') (view t)
            = (next (h.exec e c (view t)).1).run h env' (h.exec e c (view t)).2 := rfl
          _ = (next ((φ c).run h' env t).1).run h env' (view ((φ c).run h' env t).2) := by rw [he]
          _ = _ := henv'

end Prog

open Prog

/-! ## Among others -/

section Pools

variable [DecidableEq ι] {h : Handler C E σ} {h' : Handler D F τ}

/-- A thread may happen to run through the first part of its program at once. -/
theorem Reach.run_first {mon : ι → Monitor D γ} {first pool : Pool D γ α ι τ}
    (hreach : Reach h' mon (fun _ _ _ => True) first pool) (i : ι) {p : Prog D β}
    {f : β → Prog D α} (hprog : (pool.thread i).prog = p >>= f) (env : ℕ → F) :
    ∃ pool', Reach h' mon (fun _ _ _ => True) first pool' ∧
      pool'.shared = (p.run h' env pool.shared).2 ∧
      (pool'.thread i).prog = f (p.run h' env pool.shared).1 ∧
      ∀ j, j ≠ i → pool'.thread j = pool.thread j := by
  induction p generalizing pool env with
  | ret value => exact ⟨pool, hreach, rfl, hprog, fun _ _ => rfl⟩
  | call c next ih =>
      have hcall : (pool.thread i).prog = .call c fun answer => next answer >>= f := hprog
      have hself : ((pool.step h' mon i (env 0)).thread i).prog =
          next (h'.exec (env 0) c pool.shared).1 >>= f := by
        rw [Pool.step_call hcall]
        simp only [Function.update_self]
      have hshared : (pool.step h' mon i (env 0)).shared =
          (h'.exec (env 0) c pool.shared).2 := by
        rw [Pool.step_call hcall]
      obtain ⟨pool', hreach', hshared', hprog', hothers⟩ :=
        ih _ (hreach.step trivial) hself fun k => env (k + 1)
      rw [hshared] at hshared' hprog'
      refine ⟨pool', hreach', hshared', hprog', fun j hj => ?_⟩
      rw [hothers j hj, Pool.step_thread_of_ne pool hj]

variable {φ : ι → {β : Type} → C β → Prog D β} {γ' : Type}
  {mon : ι → Monitor C γ} {mon' : ι → Monitor D γ'} {ok : E → Prop}

/-- What the coarse threads can do, the finer ones can do. -/
theorem Reach.expand (view : τ → σ)
    (hcall : ∀ (i : ι) {δ : Type} (c : C δ) (e : E) (t : τ), ok e → ∃ env : ℕ → F,
      h.exec e c (view t) = (((φ i c).run h' env t).1, view ((φ i c).run h' env t).2))
    {prog : ι → Prog C α} {t : τ} {pool : Pool C γ α ι σ}
    (hreach : Reach h mon (fun _ _ e => ok e) (Pool.start mon prog (view t)) pool) :
    ∃ pool' : Pool D γ' α ι τ,
      Reach h' mon' (fun _ _ _ => True)
        (Pool.start mon' (fun i => (prog i).expand (φ i)) t) pool' ∧
      view pool'.shared = pool.shared ∧
      ∀ i, (pool'.thread i).prog = ((pool.thread i).prog).expand (φ i) := by
  induction hreach with
  | refl => exact ⟨_, .refl, rfl, fun i => rfl⟩
  | @step pool i e _ hok ih =>
      obtain ⟨pool', hreach', hview, hprogs⟩ := ih
      cases hprog : (pool.thread i).prog with
      | ret value =>
          rw [Pool.step_ret hprog]
          exact ⟨pool', hreach', hview, hprogs⟩
      | call c next =>
          obtain ⟨env, henv⟩ := hcall i c e pool'.shared hok
          have hbind := hprogs i
          rw [hprog, expand_call] at hbind
          obtain ⟨pool'', hreach'', hshared, hself, hothers⟩ := hreach'.run_first i hbind env
          rw [hview] at henv
          refine ⟨pool'', hreach'', ?_, fun j => ?_⟩
          · rw [hshared, Pool.step_call hprog, henv]
          · rw [Pool.step_call hprog]
            by_cases hj : j = i
            · subst hj
              rw [hself, henv]
              simp only [Function.update_self]
            · rw [hothers j hj, hprogs j]
              simp only [Function.update_of_ne hj]

end Pools

/-! ## Contracts -/

section Contracts

variable {φ : {β : Type} → C β → Prog D β} {k : Contract C γ} {k' : Contract D γ}
  {done : γ → α → Prop} {g : γ}

/-- A contract carries over, if each replacement ends as the call would. -/
theorem Honours.expand
    (hcall : ∀ g {δ : Type} (c : C δ), k.guar g c →
      Honours k' (fun g' answer => g' = k.next g c answer ∧ k.rely g c answer) g (φ c))
    {prog : Prog C α} (h : Honours k done g prog) : Honours k' done g (prog.expand φ) := by
  induction prog generalizing g with
  | ret value => exact h
  | call c next ih =>
      rw [expand_call]
      refine (hcall g c h.1).bind fun g' answer hanswer => ?_
      obtain ⟨rfl, hrely⟩ := hanswer
      exact ih answer (h.2 answer hrely)

end Contracts

end Calls
