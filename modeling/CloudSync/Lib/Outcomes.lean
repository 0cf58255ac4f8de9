import CloudSync.Lib.Program

/-!
# What each call may meet

`Prog.wp` lets every call meet the same environments.  Here it depends on the
call, and on the state it is made in, which environments it may meet: some calls
may fail and others may not.  `Prog.Meets` says of one run that each of its calls
meets what it may, and `Prog.wpWith` is the precondition transformer for it.  The
two say the same (`Prog.wpWith_iff`), so a statement about all runs can be taken
apart call by call in both directions.
-/

namespace Calls

namespace Prog

variable {C : Type → Type} {E σ α β : Type}

/-- Each call of the run meets what it may. -/
def Meets (h : Handler C E σ) (may : {β : Type} → C β → E → σ → Prop) :
    Prog C α → (ℕ → E) → σ → Prop
  | ret _, _, _ => True
  | call c next, env, s =>
      may c (env 0) s ∧
        Meets h may (next (h.exec (env 0) c s).1) (fun i => env (i + 1)) (h.exec (env 0) c s).2

instance decidableMeets (h : Handler C E σ) (may : {β : Type} → C β → E → σ → Prop)
    [hmay : ∀ (β : Type) (c : C β) e s, Decidable (may c e s)] :
    ∀ (p : Prog C α) (env : ℕ → E) (s : σ), Decidable (Meets h may p env s)
  | ret _, _, _ => isTrue trivial
  | call c next, env, s =>
      @instDecidableAnd _ _ (hmay _ c (env 0) s)
        (decidableMeets h may (next (h.exec (env 0) c s).1) (fun i => env (i + 1))
          (h.exec (env 0) c s).2)

/-- The states from which every run of the program, each call meeting what it may,
ends with an answer and a state related by `Q`. -/
def wpWith (h : Handler C E σ) (may : {β : Type} → C β → E → σ → Prop) :
    Prog C α → (α → σ → Prop) → σ → Prop
  | ret value, Q, s => Q value s
  | call c next, Q, s =>
      ∀ e, may c e s → wpWith h may (next (h.exec e c s).1) Q (h.exec e c s).2

variable {h : Handler C E σ} {may : {β : Type} → C β → E → σ → Prop} {s : σ}

@[simp] theorem wpWith_ret (value : α) (Q : α → σ → Prop) :
    wpWith h may (ret value) Q s ↔ Q value s := Iff.rfl

/-- What holds of every run is what `wpWith` promises. -/
theorem wpWith_iff [Nonempty E] {p : Prog C α} {Q : α → σ → Prop} :
    wpWith h may p Q s ↔
      ∀ env, Meets h may p env s → Q (run h p env s).1 (run h p env s).2 := by
  induction p generalizing s with
  | ret value =>
      obtain ⟨e⟩ := ‹Nonempty E›
      exact ⟨fun hQ _ _ => hQ, fun hrun => hrun (fun _ => e) trivial⟩
  | call c next ih =>
      constructor
      · intro hcall env hmeets
        exact (ih _).mp (hcall (env 0) hmeets.1) _ hmeets.2
      · intro hrun e he
        refine (ih _).mpr fun env hmeets => ?_
        exact hrun (fun i => match i with | 0 => e | j + 1 => env j) ⟨he, hmeets⟩

theorem wpWith_mono {p : Prog C α} {Q R : α → σ → Prop} (hp : wpWith h may p Q s)
    (hQR : ∀ value s', Q value s' → R value s') : wpWith h may p R s := by
  induction p generalizing s with
  | ret value => exact hQR _ _ hp
  | call c next ih => exact fun e he => ih _ (hp e he)

theorem wpWith_congr {p : Prog C α} {Q R : α → σ → Prop} (hQR : ∀ value s', Q value s' ↔ R value s') :
    wpWith h may p Q s ↔ wpWith h may p R s :=
  ⟨fun hp => wpWith_mono hp fun value s' => (hQR value s').mp,
    fun hp => wpWith_mono hp fun value s' => (hQR value s').mpr⟩

/-- Environments that every call may meet are met. -/
theorem meets_of_forall {p : Prog C α} {env : ℕ → E}
    (hmay : ∀ i {β : Type} (c : C β) s, may c (env i) s) : Meets h may p env s := by
  induction p generalizing env s with
  | ret value => trivial
  | call c next ih => exact ⟨hmay 0 c s, ih _ fun i => hmay (i + 1)⟩

theorem wpWith_bind {p : Prog C α} {f : α → Prog C β} {Q : β → σ → Prop} :
    wpWith h may (p >>= f) Q s ↔
      wpWith h may p (fun value s' => wpWith h may (f value) Q s') s := by
  induction p generalizing s with
  | ret value => rfl
  | call c next ih => exact forall₂_congr fun e _ => ih _

/-- An environment that every call may meet makes one run. -/
theorem wpWith_wp {ok : E → Prop} {e : E} (he : ok e) (hmay : ∀ {β : Type} (c : C β) s, may c e s)
    {p : Prog C α} {Q R : α → σ → Prop} (hQ : wpWith h may p Q s) (hR : wp h ok p R s) :
    ∃ value s', Q value s' ∧ R value s' := by
  induction p generalizing s with
  | ret value => exact ⟨value, s, hQ, hR⟩
  | call c next ih => exact ih _ (hQ e (hmay c s)) (hR e he)

/-- A call that is answered alike whatever it meets. -/
theorem wpWith_call_iff {γ : Type} {c : C γ} {next : γ → Prog C α} {Q : α → σ → Prop}
    {answer : γ} {s' : σ} (hsome : ∃ e, may c e s)
    (hexec : ∀ e, may c e s → h.exec e c s = (answer, s')) :
    wpWith h may (call c next) Q s ↔ wpWith h may (next answer) Q s' := by
  constructor
  · intro hcall
    obtain ⟨e, he⟩ := hsome
    have hnext := hcall e he
    rwa [hexec e he] at hnext
  · intro hnext e he
    rwa [hexec e he]

end Prog

end Calls
