import Mathlib.Data.List.Basic

/-!
# Machines that answer calls

A machine takes a call and a state to an answer and a state.  `run` is a whole
sequence of calls, with the answers in order.  `run_refines` is the forward
simulation rule for two machines that take the same calls.
-/

namespace Machine

variable {C A σ τ : Type*}

/-- The answers to a sequence of calls, and the state after them. -/
def run (exec : C → σ → A × σ) : List C → σ → List A × σ
  | [], s => ([], s)
  | c :: rest, s =>
      ((exec c s).1 :: (run exec rest (exec c s).2).1, (run exec rest (exec c s).2).2)

variable {exec : C → σ → A × σ} {spec : C → τ → A × τ}

/-- Two machines whose calls answer alike in related states, and lead to related
states, answer any sequence of calls alike. -/
theorem run_refines {R : σ → τ → Prop}
    (hstep : ∀ c s t, R s t → (exec c s).1 = (spec c t).1 ∧ R (exec c s).2 (spec c t).2)
    (calls : List C) {s : σ} {t : τ} (hst : R s t) :
    (run exec calls s).1 = (run spec calls t).1 ∧ R (run exec calls s).2 (run spec calls t).2 := by
  induction calls generalizing s t with
  | nil => exact ⟨rfl, hst⟩
  | cons c rest ih =>
      obtain ⟨hanswer, hnext⟩ := hstep c s t hst
      obtain ⟨hanswers, hlast⟩ := ih hnext
      constructor
      · show (exec c s).1 :: _ = (spec c t).1 :: _
        rw [hanswer, hanswers]
      · exact hlast

end Machine
