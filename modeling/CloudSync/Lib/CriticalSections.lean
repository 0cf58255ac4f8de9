import CloudSync.Lib.Interleaving
import CloudSync.Lib.MessageQueue
import Mathlib.Algebra.Order.Group.Unbundled.Int

/-!
# Critical sections under a semaphore that is undone

Processes call functions of a shared object.  The body of a function is a program of
small steps on the shared state, run between the two operations of a System V
semaphore: the first takes 1 from its value and waits while that is 0, the second adds 1.
With `SEM_UNDO` the system keeps for every process what it has taken, and gives it back
when the process is killed, be it in the middle of a section.  A wait that is
interrupted by a signal takes nothing; the caller that does not look enters all the same.

As long as no wait is interrupted, whoever is killed and when,

* at most one process is in its section, and every call can be made (`Exclusive`,
  `Exclusive.exists_return`);
* what every body keeps at each of its steps holds at every moment (`kept_of_quiet`);
* if nobody is killed inside, the functions take effect one at a time, each as its body
  run alone (`exists_atomic`).

The environment of a section (the time it reads) is that of its first step.
-/

namespace CriticalSections

open Calls Calls.Prog MessageQueue

/-- Where a process stands: between two calls, with what is left of its program; in
the section of a call, with what is left of the body; or killed. -/
inductive Process (C M : Type → Type) (E α : Type) : Type 1
  | outside (prog : Prog C α)
  | inside {β : Type} (e : E) (rest : Prog M β) (next : β → Prog C α)
  | dead

/-- The process is in its section. -/
def Process.isInside {C M : Type → Type} {E α : Type} : Process C M E α → Bool
  | outside _ => false
  | inside _ _ _ => true
  | dead => false

/-- Processes, the semaphore, what the system would give back for each process, and the
shared state; and a count of the waits that were interrupted and of the sections that
were abandoned. -/
structure Guarded (C M : Type → Type) (E α ι σ : Type) : Type 1 where
  value : ℤ
  undo : ι → ℤ
  process : ι → Process C M E α
  shared : σ
  interrupted : ℕ
  abandoned : ℕ

/-- What can happen to a process. -/
inductive GuardedAction (ι E : Type)
  | lock (i : ι) (e : E)
  | interrupt (i : ι) (e : E)
  | work (i : ι)
  | unlock (i : ι)
  | kill (i : ι)

variable {C M : Type → Type} {E α ι σ : Type} [DecidableEq ι]
  {body : {β : Type} → C β → Prog M β} {h : Handler M E σ}

namespace Guarded

/-- The semaphore is created with the value 1. -/
def start (prog : ι → Prog C α) (s : σ) : Guarded C M E α ι σ where
  value := 1
  undo := fun _ => 0
  process := fun i => .outside (prog i)
  shared := s
  interrupted := 0
  abandoned := 0

/-- One step; it has no result where the process waits, or is not at that step. -/
def step (body : {β : Type} → C β → Prog M β) (h : Handler M E σ) (action : GuardedAction ι E)
    (g : Guarded C M E α ι σ) : Option (Guarded C M E α ι σ) :=
  match action with
  | .lock i e =>
      match g.process i with
      | .outside (.call c next) =>
          if 0 < g.value then
            some { g with
              value := g.value - 1
              undo := Function.update g.undo i (g.undo i + 1)
              process := Function.update g.process i (.inside e (body c) next) }
          else none
      | _ => none
  | .interrupt i e =>
      match g.process i with
      | .outside (.call c next) =>
          if 0 < g.value then none
          else
            some { g with
              process := Function.update g.process i (.inside e (body c) next)
              interrupted := g.interrupted + 1 }
      | _ => none
  | .work i =>
      match g.process i with
      | .inside e (.call m rest) next =>
          let out := h.exec e m g.shared
          some { g with
            process := Function.update g.process i (.inside e (rest out.1) next)
            shared := out.2 }
      | _ => none
  | .unlock i =>
      match g.process i with
      | .inside _ (.ret value) next =>
          some { g with
            value := g.value + 1
            undo := Function.update g.undo i (g.undo i - 1)
            process := Function.update g.process i (.outside (next value)) }
      | _ => none
  | .kill i =>
      match g.process i with
      | .dead => none
      | process =>
          -- the value does not go below 0
          some { g with
            value := max 0 (g.value + g.undo i)
            undo := Function.update g.undo i 0
            process := Function.update g.process i .dead
            abandoned := g.abandoned + if process.isInside then 1 else 0 }

variable {g g' : Guarded C M E α ι σ} {i : ι} {e : E}

/-! ## What each step does -/

theorem of_step_lock (hstep : step body h (.lock i e) g = some g') :
    ∃ (β : Type) (c : C β) (next : β → Prog C α), g.process i = .outside (.call c next) ∧
      0 < g.value ∧ g' = { g with
        value := g.value - 1
        undo := Function.update g.undo i (g.undo i + 1)
        process := Function.update g.process i (.inside e (body c) next) } := by
  simp only [step] at hstep
  split at hstep
  · next c next hprocess =>
    split at hstep
    · next hvalue => exact ⟨_, c, next, hprocess, hvalue, (Option.some.inj hstep).symm⟩
    · exact (Option.some_ne_none _ hstep.symm).elim
  · exact (Option.some_ne_none _ hstep.symm).elim

theorem of_step_interrupt (hstep : step body h (.interrupt i e) g = some g') :
    g'.interrupted = g.interrupted + 1 := by
  simp only [step] at hstep
  split at hstep
  · split at hstep
    · exact (Option.some_ne_none _ hstep.symm).elim
    · rw [← Option.some.inj hstep]
  · exact (Option.some_ne_none _ hstep.symm).elim

theorem of_step_work (hstep : step body h (.work i) g = some g') :
    ∃ (e : E) (β γ : Type) (m : M γ) (rest : γ → Prog M β) (next : β → Prog C α),
      g.process i = .inside e (.call m rest) next ∧ g' = { g with
        process := Function.update g.process i
          (.inside e (rest (h.exec e m g.shared).1) next)
        shared := (h.exec e m g.shared).2 } := by
  simp only [step] at hstep
  split at hstep
  · next e γ m rest next hprocess =>
    exact ⟨e, _, γ, m, rest, next, hprocess, (Option.some.inj hstep).symm⟩
  · exact (Option.some_ne_none _ hstep.symm).elim

theorem of_step_unlock (hstep : step body h (.unlock i) g = some g') :
    ∃ (e : E) (β : Type) (value : β) (next : β → Prog C α),
      g.process i = .inside e (.ret value) next ∧ g' = { g with
        value := g.value + 1
        undo := Function.update g.undo i (g.undo i - 1)
        process := Function.update g.process i (.outside (next value)) } := by
  simp only [step] at hstep
  split at hstep
  · next e value next hprocess =>
    exact ⟨e, _, value, next, hprocess, (Option.some.inj hstep).symm⟩
  · exact (Option.some_ne_none _ hstep.symm).elim

theorem of_step_kill (hstep : step body h (.kill i) g = some g') :
    g' = { g with
      value := max 0 (g.value + g.undo i)
      undo := Function.update g.undo i 0
      process := Function.update g.process i .dead
      abandoned := g.abandoned + if (g.process i).isInside then 1 else 0 } := by
  simp only [step] at hstep
  split at hstep
  · exact (Option.some_ne_none _ hstep.symm).elim
  · exact (Option.some.inj hstep).symm

/-! ## One at a time -/

/-- Nobody is in a section and the semaphore is free, or one process is in its section
and holds it.  What a process has taken is given back when it is killed. -/
structure Exclusive (g : Guarded C M E α ι σ) : Prop where
  undo : ∀ i, g.undo i = if (g.process i).isInside then 1 else 0
  value : (g.value = 1 ∧ ∀ i, (g.process i).isInside = false) ∨
    (g.value = 0 ∧ ∃ i, (g.process i).isInside = true ∧
      ∀ j, (g.process j).isInside = true → j = i)

omit [DecidableEq ι] in
theorem exclusive_start (prog : ι → Prog C α) (s : σ) :
    Exclusive (start prog s : Guarded C M E α ι σ) where
  undo := fun _ => rfl
  value := Or.inl ⟨rfl, fun _ => rfl⟩

omit [DecidableEq ι] in
/-- Two processes are never in their sections at the same time. -/
theorem Exclusive.eq_of_inside (hg : Exclusive g) {i j : ι} (hi : (g.process i).isInside = true)
    (hj : (g.process j).isInside = true) : i = j := by
  rcases hg.value with ⟨-, hnone⟩ | ⟨-, k, -, hk⟩
  · rw [hnone i] at hi
    exact Bool.noConfusion hi
  · rw [hk i hi, hk j hj]

omit [DecidableEq ι] in
/-- Whoever is in a section holds the semaphore. -/
theorem Exclusive.value_of_inside (hg : Exclusive g) (hi : (g.process i).isInside = true) :
    g.value = 0 := by
  rcases hg.value with ⟨-, hnone⟩ | ⟨hvalue, -⟩
  · rw [hnone i] at hi
    exact Bool.noConfusion hi
  · exact hvalue

/-- Where the processes stand after one of them has moved. -/
theorem isInside_update {process : ι → Process C M E α} {i : ι} {new : Process C M E α} (j : ι) :
    (Function.update process i new j).isInside =
      if j = i then new.isInside else (process j).isInside := by
  split
  · next hj => rw [hj, Function.update_self]
  · next hj => rw [Function.update_of_ne hj]

/-- The process leaves its section, and gives the semaphore back. -/
theorem Exclusive.leave (hg : Exclusive g) {new : Process C M E α}
    (hi : (g.process i).isInside = true) (hnew : new.isInside = false) (s : σ) (n a : ℕ) :
    Exclusive ({
      value := 1, undo := Function.update g.undo i 0,
      process := Function.update g.process i new, shared := s, interrupted := n, abandoned := a } :
        Guarded C M E α ι σ) where
  undo := by
    intro j
    show Function.update g.undo i 0 j = _
    rw [isInside_update, hnew]
    by_cases hj : j = i
    · rw [hj, Function.update_self, if_pos rfl]
      rfl
    · rw [Function.update_of_ne hj, if_neg hj]
      exact hg.undo j
  value := by
    refine Or.inl ⟨rfl, fun j => ?_⟩
    rw [isInside_update, hnew]
    split
    · rfl
    · next hj =>
      by_contra hinside
      exact hj (hg.eq_of_inside (Bool.eq_true_of_not_eq_false hinside) hi)

theorem Exclusive.step (hg : Exclusive g) {action : GuardedAction ι E}
    (hstep : step body h action g = some g') (hquiet : g'.interrupted = 0) : Exclusive g' := by
  cases action with
  | lock i e =>
      obtain ⟨β, c, next, hprocess, hvalue, rfl⟩ := of_step_lock hstep
      have hfree : g.value = 1 ∧ ∀ j, (g.process j).isInside = false :=
        hg.value.resolve_right fun hheld => by omega
      refine ⟨fun j => ?_, Or.inr ⟨?_, i, ?_, fun j hj => ?_⟩⟩
      · show Function.update g.undo i (g.undo i + 1) j = _
        rw [isInside_update]
        by_cases hj : j = i
        · rw [hj, Function.update_self, hg.undo i, hfree.2 i, if_pos rfl]
          rfl
        · rw [Function.update_of_ne hj, if_neg hj]
          exact hg.undo j
      · show g.value - 1 = 0
        omega
      · rw [isInside_update, if_pos rfl]
        rfl
      · by_contra hne
        rw [isInside_update, if_neg hne, hfree.2 j] at hj
        exact Bool.noConfusion hj
  | interrupt i e =>
      have hcount := of_step_interrupt hstep
      omega
  | work i =>
      obtain ⟨e, β, γ, m, rest, next, hprocess, rfl⟩ := of_step_work hstep
      have hsame : ∀ j, (Function.update g.process i
          (.inside e (rest (h.exec e m g.shared).1) next) j).isInside =
            (g.process j).isInside := by
        intro j
        rw [isInside_update]
        split
        · next hj => rw [hj, hprocess]; rfl
        · rfl
      refine ⟨fun j => ?_, ?_⟩
      · rw [hsame]
        exact hg.undo j
      · simp only [hsame]
        exact hg.value
  | unlock i =>
      obtain ⟨e, β, value, next, hprocess, rfl⟩ := of_step_unlock hstep
      have hi : (g.process i).isInside = true := by rw [hprocess]; rfl
      have hundo : g.undo i = 1 := by rw [hg.undo i, hi]; rfl
      rw [hg.value_of_inside hi, hundo]
      exact hg.leave hi rfl _ _ _
  | kill i =>
      obtain rfl := of_step_kill hstep
      by_cases hi : (g.process i).isInside = true
      · have hundo : g.undo i = 1 := by rw [hg.undo i, hi]; rfl
        rw [hg.value_of_inside hi, hundo]
        exact hg.leave hi rfl _ _ _
      · -- a process outside has taken nothing
        rw [Bool.not_eq_true] at hi
        have hundo : g.undo i = 0 := by rw [hg.undo i, hi]; rfl
        have hsame : ∀ j, (Function.update g.process i .dead j).isInside =
            (g.process j).isInside := by
          intro j
          rw [isInside_update]
          split
          · next hj => rw [hj, hi]; rfl
          · rfl
        have hvalue : max 0 (g.value + g.undo i) = g.value := by
          rcases hg.value with ⟨hone, -⟩ | ⟨hzero, -⟩
          · rw [hone, hundo]
            rfl
          · rw [hzero, hundo]
            rfl
        refine ⟨fun j => ?_, ?_⟩
        · have hkept : Function.update g.undo i 0 = g.undo := by
            rw [← hundo, Function.update_eq_self]
          rw [hsame, hkept]
          exact hg.undo j
        · simp only [hsame, hvalue]
          exact hg.value

/-- The runs in which no wait is interrupted. -/
abbrev Quiet (body : {β : Type} → C β → Prog M β) (h : Handler M E σ) (prog : ι → Prog C α)
    (s : σ) : Guarded C M E α ι σ → Prop :=
  Reached (step body h) (fun g => g.interrupted = 0) (start prog s)

variable {prog : ι → Prog C α} {s : σ}

/-- In every run in which no wait is interrupted, processes are in their sections one
at a time, whoever is killed. -/
theorem exclusive_of_quiet (hquiet : Quiet body h prog s g) : Exclusive g :=
  hquiet.invariant (exclusive_start prog s) fun _ _ _ hg hstep hinterrupted =>
    hg.step hstep hinterrupted

/-! ### Sections end -/

/-- The state once process `i` has done the rest of its section and left it. -/
def leaving (h : Handler M E σ) (i : ι) {β : Type} (e : E) (rest : Prog M β) (next : β → Prog C α)
    (g : Guarded C M E α ι σ) : Guarded C M E α ι σ :=
  { g with
    value := g.value + 1
    undo := Function.update g.undo i (g.undo i - 1)
    process := Function.update g.process i
      (.outside (next (rest.run h (fun _ => e) g.shared).1))
    shared := (rest.run h (fun _ => e) g.shared).2 }

/-- The counts of interruptions and of abandoned sections are those of `g`. -/
def SameCounts (g g' : Guarded C M E α ι σ) : Prop :=
  g'.interrupted = g.interrupted ∧ g'.abandoned = g.abandoned

variable {first : Guarded C M E α ι σ} {within : Guarded C M E α ι σ → Prop} {β : Type}
  {next : β → Prog C α}

/-- A process in its section can do the rest of it and leave. -/
theorem reached_leaving {rest : Prog M β} (hreach : Reached (step body h) within first g)
    (hprocess : g.process i = .inside e rest next) (hwithin : ∀ g', SameCounts g g' → within g') :
    Reached (step body h) within first (leaving h i e rest next g) := by
  induction rest generalizing g with
  | ret value =>
      refine hreach.step (.unlock i) ?_ (hwithin _ ⟨rfl, rfl⟩)
      simp only [step, hprocess]
      rfl
  | call m rest ih =>
      have hworked : step body h (.work i) g = some { g with
          process := Function.update g.process i (.inside e (rest (h.exec e m g.shared).1) next)
          shared := (h.exec e m g.shared).2 } := by
        simp only [step, hprocess]
      have hleft := ih _ (hreach.step (.work i) hworked (hwithin _ ⟨rfl, rfl⟩))
        (Function.update_self ..) hwithin
      simp only [leaving, Function.update_idem] at hleft
      exact hleft

/-- A process that finds the semaphore free can make its call. -/
theorem reached_call {c : C β} (hreach : Reached (step body h) within first g)
    (hprocess : g.process i = .outside (.call c next)) (hvalue : 0 < g.value) (e : E)
    (hwithin : ∀ g', SameCounts g g' → within g') :
    ∃ g', Reached (step body h) within first g' ∧ SameCounts g g' ∧
      g'.shared = ((body c).run h (fun _ => e) g.shared).2 ∧
      g'.process = Function.update g.process i
        (.outside (next ((body c).run h (fun _ => e) g.shared).1)) := by
  have hlocked : step body h (.lock i e) g = some { g with
      value := g.value - 1
      undo := Function.update g.undo i (g.undo i + 1)
      process := Function.update g.process i (.inside e (body c) next) } := by
    simp only [step, hprocess, if_pos hvalue]
  have hleft := reached_leaving (hreach.step (.lock i e) hlocked (hwithin _ ⟨rfl, rfl⟩))
    (Function.update_self ..) hwithin
  refine ⟨_, hleft, ⟨rfl, rfl⟩, rfl, ?_⟩
  exact Function.update_idem ..

/-- Wherever the others stand, a process that is not killed can make its call: whoever
is in a section can leave it, and gives the semaphore back. -/
theorem Exclusive.exists_return {c : C β} (hg : Exclusive g)
    (hreach : Reached (Guarded.step body h) within first g)
    (hprocess : g.process i = .outside (.call c next)) (e : E)
    (hwithin : ∀ g', SameCounts g g' → within g') :
    ∃ g' value, Reached (Guarded.step body h) within first g' ∧
      g'.process i = .outside (next value) := by
  rcases hg.value with ⟨hvalue, -⟩ | ⟨hvalue, j, hj, -⟩
  · have hfree : 0 < g.value := by omega
    obtain ⟨g', hreached, -, -, hprocess'⟩ := reached_call hreach hprocess hfree e hwithin
    exact ⟨g', _, hreached, (congrFun hprocess' i).trans (Function.update_self ..)⟩
  · cases hholder : g.process j with
    | outside prog =>
        rw [hholder] at hj
        exact Bool.noConfusion hj
    | dead =>
        rw [hholder] at hj
        exact Bool.noConfusion hj
    | inside e' rest next' =>
        have hne : i ≠ j := by
          rintro rfl
          rw [hprocess] at hholder
          cases hholder
        have hstill : (leaving h j e' rest next' g).process i = .outside (.call c next) := by
          rw [← hprocess]
          exact Function.update_of_ne hne _ _
        have hfree : 0 < (leaving h j e' rest next' g).value := by
          show 0 < g.value + 1
          omega
        obtain ⟨g', hreached, -, -, hprocess'⟩ := reached_call
          (reached_leaving hreach hholder hwithin) hstill hfree e hwithin
        exact ⟨g', _, hreached, (congrFun hprocess' i).trans (Function.update_self ..)⟩

/-! ## What every body keeps -/

/-- Run alone in the environment `e`, the rest of a body keeps `I` at each step. -/
abbrev Keeps {β : Type} (h : Handler M E σ) (I : σ → Prop) (e : E) (rest : Prog M β) (s : σ) :
    Prop := Always h (fun e' => e' = e) (Monitor.silent M) (fun _ => I) () rest s

section Keeps

variable {I : σ → Prop} {e : E} {s : σ} {β γ : Type}

/-- Run alone at one time, the second program meets what the first has left. -/
theorem keeps_bind {p : Prog M β} {f : β → Prog M γ} (hp : Keeps h I e p s)
    (hf : Keeps h I e (f (p.run h (fun _ => e) s).1) (p.run h (fun _ => e) s).2) :
    Keeps h I e (p >>= f) s := by
  induction p generalizing s with
  | ret value => exact hf
  | call m rest ih =>
      refine ⟨hp.1, fun e' he => ?_⟩
      obtain rfl := he
      exact ih _ (hp.2 e' rfl) hf

/-- A program of steps that keep `I` wherever they are taken. -/
theorem keeps_of_obeys {safe : {δ : Type} → M δ → Prop}
    (hstep : ∀ {δ : Type} (m : M δ) (s : σ), I s → safe m → I (h.exec e m s).2) {prog : Prog M β}
    (hobeys : Obeys (Monitor.silent M) (fun _ {_} m => safe m) (fun _ => True) () prog) (hs : I s) :
    Keeps h I e prog s := by
  induction prog generalizing s with
  | ret value => exact hs
  | call m rest ih =>
      refine ⟨hs, fun e' he => ?_⟩
      obtain rfl := he
      exact ih _ (hobeys.2 _) (hstep m s hs hobeys.1)

end Keeps

/-- `I` holds, and what is left of a section keeps it. -/
structure Kept (h : Handler M E σ) (I : σ → Prop) (g : Guarded C M E α ι σ) : Prop where
  exclusive : Exclusive g
  shared : I g.shared
  inside : ∀ {i : ι} {β : Type} {e : E} {rest : Prog M β} {next : β → Prog C α},
    g.process i = .inside e rest next → Keeps h I e rest g.shared

theorem Kept.step {I : σ → Prop}
    (hbody : ∀ {β : Type} (c : C β) (e : E) (s : σ), I s → Keeps h I e (body c) s)
    (hg : Kept h I g) {action : GuardedAction ι E} (hstep : Guarded.step body h action g = some g')
    (hquiet : g'.interrupted = 0) : Kept h I g' := by
  have hexclusive := hg.exclusive.step hstep hquiet
  cases action with
  | lock i e =>
      obtain ⟨β, c, next, hprocess, hvalue, rfl⟩ := of_step_lock hstep
      refine ⟨hexclusive, hg.shared, fun {j β' e' rest' next'} hj => ?_⟩
      by_cases hji : j = i
      · simp only [hji, Function.update_self, Process.inside.injEq] at hj
        obtain ⟨rfl, rfl, hrest, -⟩ := hj
        obtain rfl := eq_of_heq hrest
        exact hbody c e _ hg.shared
      · simp only [Function.update_of_ne hji] at hj
        exact hg.inside hj
  | interrupt i e =>
      have hcount := of_step_interrupt hstep
      omega
  | work i =>
      obtain ⟨e, β, γ, m, rest, next, hprocess, rfl⟩ := of_step_work hstep
      have hafter := (hg.inside hprocess).2 e rfl
      refine ⟨hexclusive, hafter.now, fun {j β' e' rest' next'} hj => ?_⟩
      by_cases hji : j = i
      · simp only [hji, Function.update_self, Process.inside.injEq] at hj
        obtain ⟨rfl, rfl, hrest, -⟩ := hj
        obtain rfl := eq_of_heq hrest
        exact hafter
      · -- nobody else is in a section
        simp only [Function.update_of_ne hji] at hj
        have hinside : (g.process j).isInside = true := by rw [hj]; rfl
        have hi : (g.process i).isInside = true := by rw [hprocess]; rfl
        exact absurd (hg.exclusive.eq_of_inside hinside hi) hji
  | unlock i =>
      obtain ⟨e, β, value, next, hprocess, rfl⟩ := of_step_unlock hstep
      refine ⟨hexclusive, hg.shared, fun {j β' e' rest' next'} hj => ?_⟩
      by_cases hji : j = i
      · simp only [hji, Function.update_self, reduceCtorEq] at hj
      · simp only [Function.update_of_ne hji] at hj
        exact hg.inside hj
  | kill i =>
      obtain rfl := of_step_kill hstep
      refine ⟨hexclusive, hg.shared, fun {j β' e' rest' next'} hj => ?_⟩
      by_cases hji : j = i
      · simp only [hji, Function.update_self, reduceCtorEq] at hj
      · simp only [Function.update_of_ne hji] at hj
        exact hg.inside hj

/-- What every body keeps at each of its steps holds at every moment, whoever is
killed in the middle of a section. -/
theorem kept_of_quiet {I : σ → Prop} (hs : I s)
    (hbody : ∀ {β : Type} (c : C β) (e : E) (s : σ), I s → Keeps h I e (body c) s)
    (hquiet : Quiet body h prog s g) : I g.shared := by
  have hstart : Kept h I (start prog s : Guarded C M E α ι σ) := by
    refine ⟨exclusive_start prog s, hs, fun {i β e rest next} hi => ?_⟩
    simp only [start, reduceCtorEq] at hi
  exact (hquiet.invariant hstart fun _ _ _ hg hstep hinterrupted =>
    hg.step hbody hstep hinterrupted).shared

/-! ## One after the other -/

/-- A call that takes effect at once: its body run alone. -/
def atomically (body : {β : Type} → C β → Prog M β) (h : Handler M E σ) : Handler C E σ where
  exec := fun e c s => (body c).run h (fun _ => e) s

/-- The pool has made the calls whose sections are finished.  What is left of the one
that is going on does to the shared state what the whole of it does to the pool's. -/
structure Linearizes (body : {β : Type} → C β → Prog M β) (h : Handler M E σ)
    (g : Guarded C M E α ι σ) (pool : Pool C Unit α ι σ) : Prop where
  exclusive : Exclusive g
  outside : ∀ i prog, g.process i = .outside prog → (pool.thread i).prog = prog
  inside : ∀ {i : ι} {β : Type} {e : E} {rest : Prog M β} {next : β → Prog C α},
    g.process i = .inside e rest next → ∃ c : C β, (pool.thread i).prog = .call c next ∧
      (body c).run h (fun _ => e) pool.shared = rest.run h (fun _ => e) g.shared
  shared : (∀ i, (g.process i).isInside = false) → pool.shared = g.shared

theorem Linearizes.step {pool : Pool C Unit α ι σ} (hg : Linearizes body h g pool)
    {action : GuardedAction ι E} (hstep : Guarded.step body h action g = some g')
    (hquiet : g'.interrupted = 0) (hwhole : g'.abandoned = 0) :
    Linearizes body h g' pool ∨
      ∃ i e, Linearizes body h g'
        (pool.step (atomically body h) (fun _ => Monitor.silent C) i e) := by
  have hexclusive := hg.exclusive.step hstep hquiet
  cases action with
  | lock i e =>
      left
      obtain ⟨β, c, next, hprocess, hvalue, rfl⟩ := of_step_lock hstep
      have hfree : ∀ j, (g.process j).isInside = false :=
        (hg.exclusive.value.resolve_right fun hheld => by omega).2
      refine ⟨hexclusive, fun j prog hj => ?_, fun {j β' e' rest' next'} hj => ?_, fun hnone => ?_⟩
      · by_cases hji : j = i
        · simp only [hji, Function.update_self, reduceCtorEq] at hj
        · simp only [Function.update_of_ne hji] at hj
          exact hg.outside j prog hj
      · by_cases hji : j = i
        · simp only [hji, Function.update_self, Process.inside.injEq] at hj
          obtain ⟨rfl, rfl, hrest, hnext⟩ := hj
          obtain rfl := eq_of_heq hrest
          obtain rfl := eq_of_heq hnext
          refine ⟨c, hji ▸ hg.outside i _ hprocess, ?_⟩
          rw [hg.shared hfree]
        · simp only [Function.update_of_ne hji] at hj
          exact hg.inside hj
      · have hi := hnone i
        rw [isInside_update, if_pos rfl] at hi
        exact Bool.noConfusion hi
  | interrupt i e =>
      have hcount := of_step_interrupt hstep
      omega
  | work i =>
      left
      obtain ⟨e, β, γ, m, rest, next, hprocess, rfl⟩ := of_step_work hstep
      have hi : (g.process i).isInside = true := by rw [hprocess]; rfl
      refine ⟨hexclusive, fun j prog hj => ?_, fun {j β' e' rest' next'} hj => ?_, fun hnone => ?_⟩
      · by_cases hji : j = i
        · simp only [hji, Function.update_self, reduceCtorEq] at hj
        · simp only [Function.update_of_ne hji] at hj
          exact hg.outside j prog hj
      · by_cases hji : j = i
        · simp only [hji, Function.update_self, Process.inside.injEq] at hj
          obtain ⟨rfl, rfl, hrest, hnext⟩ := hj
          obtain rfl := eq_of_heq hrest
          obtain rfl := eq_of_heq hnext
          obtain ⟨c, hprog, hrun⟩ := hg.inside hprocess
          exact ⟨c, hji ▸ hprog, hrun⟩
        · simp only [Function.update_of_ne hji] at hj
          have hinside : (g.process j).isInside = true := by rw [hj]; rfl
          exact absurd (hg.exclusive.eq_of_inside hinside hi) hji
      · have hstill := hnone i
        rw [isInside_update, if_pos rfl] at hstill
        exact Bool.noConfusion hstill
  | unlock i =>
      right
      obtain ⟨e, β, value, next, hprocess, rfl⟩ := of_step_unlock hstep
      have hi : (g.process i).isInside = true := by rw [hprocess]; rfl
      -- the call takes effect now
      obtain ⟨c, hprog, hrun⟩ := hg.inside hprocess
      have hmoved : pool.step (atomically body h) (fun _ => Monitor.silent C) i e = _ :=
        Pool.step_call hprog e
      rw [show (atomically body h).exec e c pool.shared = (value, g.shared) from hrun] at hmoved
      refine ⟨i, e, hexclusive, fun j prog hj => ?_, fun {j β' e' rest' next'} hj => ?_,
        fun _ => ?_⟩
      · by_cases hji : j = i
        · simp only [hji, Function.update_self, Process.outside.injEq] at hj
          rw [hji, hmoved]
          simp only [Function.update_self]
          exact hj
        · simp only [Function.update_of_ne hji] at hj
          rw [Pool.step_thread_of_ne pool hji]
          exact hg.outside j prog hj
      · by_cases hji : j = i
        · simp only [hji, Function.update_self, reduceCtorEq] at hj
        · simp only [Function.update_of_ne hji] at hj
          have hinside : (g.process j).isInside = true := by rw [hj]; rfl
          exact absurd (hg.exclusive.eq_of_inside hinside hi) hji
      · rw [hmoved]
  | kill i =>
      left
      obtain rfl := of_step_kill hstep
      have hout : (g.process i).isInside = false := by
        by_contra hi
        simp only [Bool.eq_true_of_not_eq_false hi, if_true] at hwhole
        omega
      refine ⟨hexclusive, fun j prog hj => ?_, fun {j β' e' rest' next'} hj => ?_, fun hnone => ?_⟩
      · by_cases hji : j = i
        · simp only [hji, Function.update_self, reduceCtorEq] at hj
        · simp only [Function.update_of_ne hji] at hj
          exact hg.outside j prog hj
      · by_cases hji : j = i
        · simp only [hji, Function.update_self, reduceCtorEq] at hj
        · simp only [Function.update_of_ne hji] at hj
          exact hg.inside hj
      · apply hg.shared
        intro j
        have hj := hnone j
        rw [isInside_update] at hj
        split at hj
        · next hji => rw [hji, hout]
        · exact hj

/-- In every run in which no wait is interrupted and no section abandoned, the calls
take effect one at a time, each as its body run alone. -/
theorem exists_atomic (hreach : Reached (step body h) (fun g => g.interrupted = 0 ∧ g.abandoned = 0)
    (start prog s) g) :
    ∃ pool, Reach (atomically body h) (fun _ => Monitor.silent C) (fun _ _ _ => True)
      (Pool.start (fun _ => Monitor.silent C) prog s) pool ∧ Linearizes body h g pool := by
  induction hreach with
  | first =>
      refine ⟨_, .refl, exclusive_start prog s, fun i p hi => ?_, fun {i β e rest next} hi => ?_,
        fun _ => rfl⟩
      · exact Process.outside.inj hi
      · simp only [start, reduceCtorEq] at hi
  | step _ action hstep hwithin ih =>
      obtain ⟨pool, hpool, hlinear⟩ := ih
      rcases hlinear.step hstep hwithin.1 hwithin.2 with hsame | ⟨i, e, hmoved⟩
      · exact ⟨pool, hpool, hsame⟩
      · exact ⟨_, hpool.step trivial, hmoved⟩

end Guarded

end CriticalSections
