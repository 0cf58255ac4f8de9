import CloudSync.Lib.Alone
import CloudSync.Lib.Expansion
import CloudSync.Lib.Files

/-!
# Programs that may be stopped anywhere

`Prog.crashWp` is `Prog.wp` with a crash condition: besides what holds when the program
returns, it promises `K` of every state in between, so of the state that is left if the
program is stopped after any number of its calls (`crashWp_after`).

`Honours.crashWp` puts together what is known of a program text and of the programs its calls
stand for.  If the text keeps a contract, and the program of every call it may make keeps the
invariant `J` between calls and `K` all the time, then the whole keeps `K` all the time.

What a program never writes is as it was wherever it is stopped (`Files.WritesOnly.crashWp`).
-/

namespace Calls

variable {C D : Type → Type} {E γ α β σ τ : Type}

namespace Prog

/-- The states from which every run of the program, its calls meeting only environments
allowed by `ok`, stays in `K` and ends with an answer and a state related by `Q`. -/
def crashWp (h : Handler C E σ) (ok : E → Prop) (K : σ → Prop) :
    Prog C α → (α → σ → Prop) → σ → Prop
  | ret value, Q, s => K s ∧ Q value s
  | call c next, Q, s =>
      K s ∧ ∀ e, ok e → crashWp h ok K (next (h.exec e c s).1) Q (h.exec e c s).2

variable {h : Handler C E σ} {ok : E → Prop} {K : σ → Prop} {Q : α → σ → Prop} {s : σ}
  {prog : Prog C α}

theorem crashWp_now (hprog : crashWp h ok K prog Q s) : K s := by
  cases prog with
  | ret value => exact hprog.1
  | call c next => exact hprog.1

/-- Wherever the program is stopped, it leaves a state in `K`. -/
theorem crashWp_after (hprog : crashWp h ok K prog Q s) {l : List E} (hl : ∀ e ∈ l, ok e) :
    K (prog.after h l s).2 := by
  induction l generalizing prog s with
  | nil =>
      rw [after_nil]
      exact crashWp_now hprog
  | cons e rest ih =>
      cases prog with
      | ret value => exact hprog.1
      | call c next =>
          -- the first call is made; the program may be stopped in the rest
          exact ih (hprog.2 e (hl e List.mem_cons_self)) fun e' he' =>
            hl e' (List.mem_cons_of_mem e he')

theorem crashWp_mono {K' : σ → Prop} {Q' : α → σ → Prop} (hprog : crashWp h ok K prog Q s)
    (hK : ∀ s, K s → K' s) (hQ : ∀ value s, Q value s → Q' value s) :
    crashWp h ok K' prog Q' s := by
  induction prog generalizing s with
  | ret value => exact ⟨hK s hprog.1, hQ value s hprog.2⟩
  | call c next ih => exact ⟨hK s hprog.1, fun e he => ih _ (hprog.2 e he)⟩

theorem crashWp_bind {p : Prog C β} {f : β → Prog C α}
    (hp : crashWp h ok K p (fun value s' => crashWp h ok K (f value) Q s') s) :
    crashWp h ok K (p >>= f) Q s := by
  induction p generalizing s with
  | ret value => exact hp.2
  | call c next ih => exact ⟨hp.1, fun e he => ih _ (hp.2 e he)⟩

/-- What is so all the time, and what is so at the end, can be shown apart. -/
theorem crashWp_of_wp {Q' : α → σ → Prop} (hK : crashWp h ok K prog Q' s)
    (hQ : wp h ok prog Q s) : crashWp h ok K prog Q s := by
  induction prog generalizing s with
  | ret value => exact ⟨hK.1, hQ⟩
  | call c next ih => exact ⟨hK.1, fun e he => ih _ (hK.2 e he) (hQ e he)⟩

end Prog

open Prog

/-- The rule for a program whose calls stand for programs. -/
theorem Honours.crashWp {h : Handler D E τ} {ok : E → Prop} {k : Contract C γ}
    {done : γ → α → Prop} {φ : {β : Type} → C β → Prog D β} {J : γ → τ → Prop} {K : τ → Prop}
    (hJ : ∀ g t, J g t → K t)
    (hcall : ∀ g t {δ : Type} (c : C δ), J g t → k.guar g c →
      (φ c).crashWp h ok K (fun answer t' => k.rely g c answer ∧ J (k.next g c answer) t') t)
    {prog : Prog C α} {g : γ} (hprog : Honours k done g prog) {t : τ} (ht : J g t) :
    (prog.expand φ).crashWp h ok K (fun value t' => ∃ g', done g' value ∧ J g' t') t := by
  induction prog generalizing g t with
  | ret value => exact ⟨hJ g t ht, g, hprog, ht⟩
  | call c next ih =>
      rw [expand_call]
      apply crashWp_bind
      refine crashWp_mono (hcall g t c ht hprog.1) (fun _ hK => hK) fun answer t' hanswer => ?_
      exact ih answer (hprog.2 answer hanswer.1) hanswer.2

end Calls

namespace Files

open Calls Calls.Prog

/-- Outside `P` a program that writes only in `P` changes nothing, wherever it is stopped. -/
theorem WritesOnly.crashWp {α : Type} {P : Path → Prop} {prog : Prog Sys α}
    (h : WritesOnly P prog) (ok : Conditions → Prop) {t t' : Tree}
    (hsame : ∀ p, ¬ P p → t'.at? p = t.at? p) :
    prog.crashWp disk ok (fun t' => ∀ p, ¬ P p → t'.at? p = t.at? p)
      (fun _ t' => ∀ p, ¬ P p → t'.at? p = t.at? p) t' := by
  induction prog generalizing t' with
  | ret value => exact ⟨hsame, hsame⟩
  | call c next ih =>
      refine ⟨hsame, fun e _ => ih _ (h.2 _ (disk_possible c e t')) fun p hp => ?_⟩
      exact (disk_at?_of_ne c e t' fun hmem => hp (h.1 p hmem)).trans (hsame p hp)

end Files
