import CloudSync.Lib.Interleaving
import CloudSync.Lib.MessageQueue

/-!
# Runs that come to an end

`Prog.AtMost n` bounds the calls of a program on every path through it.  In a system of
guarded actions, `Steps` counts the steps of a run by actions of a kind; if every such
step leaves less to be done, the runs are no longer than what there is to be done
(`Steps.le_of_left`), and one of them leads to where no such step is possible
(`Steps.exists_last`).
-/

namespace Calls.Prog

variable {C : Type → Type} {α β : Type}

/-- No path through the program makes more than `n` calls. -/
def AtMost : ℕ → Prog C α → Prop
  | _, .ret _ => True
  | 0, .call _ _ => False
  | n + 1, .call _ next => ∀ answer, AtMost n (next answer)

variable {m n : ℕ}

theorem atMost_ret (value : α) : AtMost n (.ret value : Prog C α) := by
  cases n <;> exact trivial

theorem AtMost.mono {prog : Prog C α} (h : prog.AtMost m) (hmn : m ≤ n) : prog.AtMost n := by
  induction prog generalizing m n with
  | ret value => exact atMost_ret value
  | call c next ih =>
      cases m with
      | zero => exact h.elim
      | succ m =>
          cases n with
          | zero => omega
          | succ n => exact fun answer => ih answer (h answer) (by omega)

/-- The second program makes its calls after those of the first. -/
theorem AtMost.bind {prog : Prog C α} {f : α → Prog C β} (h : prog.AtMost m)
    (hf : ∀ value, (f value).AtMost n) : (prog >>= f).AtMost (m + n) := by
  induction prog generalizing m with
  | ret value => exact (hf value).mono (by omega)
  | call c next ih =>
      cases m with
      | zero => exact h.elim
      | succ m =>
          rw [Nat.succ_add]
          exact fun answer => ih answer (h answer)

theorem atMost_ite {p : Prop} [Decidable p] {yes no : Prog C α} (hyes : yes.AtMost n)
    (hno : no.AtMost n) : (if p then yes else no).AtMost n := by
  split
  · exact hyes
  · exact hno

end Calls.Prog

namespace MessageQueue

variable {A σ : Type*} {step : A → σ → Option σ} {kind : A → Prop} {n : ℕ} {s s' : σ}

/-- `n` steps by actions of the kind lead from the first state to the second. -/
inductive Steps {A : Type*} {σ : Type*} (step : A → σ → Option σ) (kind : A → Prop) (s : σ) :
    ℕ → σ → Prop
  | start : Steps step kind s 0 s
  | more {n : ℕ} {s' s'' : σ} (hsteps : Steps step kind s n s') {action : A} (hkind : kind action)
      (hstep : step action s' = some s'') : Steps step kind s (n + 1) s''

/-- What is reached goes on being reached. -/
theorem Reached.steps {first : σ} (hreach : Reached step (fun _ => True) first s)
    (hsteps : Steps step kind s n s') : Reached step (fun _ => True) first s' := by
  induction hsteps with
  | start => exact hreach
  | more _ _ hstep ih => exact ih.step _ hstep trivial

section Left

variable {left : σ → ℕ → Prop}
  (hleft : ∀ {action : A} {s s' : σ} {k : ℕ}, kind action → step action s = some s' → left s k →
    ∃ k', k' < k ∧ left s' k')

include hleft

/-- A run takes no more steps than there are left, and leaves the rest. -/
theorem Steps.left_of {k : ℕ} (hsteps : Steps step kind s n s') (hk : left s k) :
    ∃ k', n + k' ≤ k ∧ left s' k' := by
  induction hsteps with
  | start => exact ⟨k, by omega, hk⟩
  | more _ hkind hstep ih =>
      obtain ⟨k', hle, hk'⟩ := ih
      obtain ⟨k'', hlt, hk''⟩ := hleft hkind hstep hk'
      exact ⟨k'', by omega, hk''⟩

theorem Steps.le_of_left {k : ℕ} (hsteps : Steps step kind s n s') (hk : left s k) : n ≤ k := by
  obtain ⟨k', hle, -⟩ := hsteps.left_of hleft hk
  omega

/-- Some run cannot be continued. -/
theorem Steps.exists_last {k : ℕ} (hk : left s k) :
    ∃ n s', Steps step kind s n s' ∧ ∀ action, kind action → step action s' = none := by
  suffices hrest : ∀ k n s', Steps step kind s n s' → left s' k →
      ∃ n s', Steps step kind s n s' ∧ ∀ action, kind action → step action s' = none from
    hrest k 0 s .start hk
  intro k
  induction k using Nat.strong_induction_on with
  | _ k ih =>
      intro n s' hsteps hk
      by_cases hlast : ∀ action, kind action → step action s' = none
      · exact ⟨n, s', hsteps, hlast⟩
      · push Not at hlast
        obtain ⟨action, hkind, hnot⟩ := hlast
        obtain ⟨s'', hstep⟩ := Option.ne_none_iff_exists'.mp hnot
        obtain ⟨k', hlt, hk'⟩ := hleft hkind hstep hk
        exact ih k' hlt (n + 1) s'' (hsteps.more hkind hstep) hk'

end Left

end MessageQueue
