import CloudSync.Lib.Interleaving

/-!
# Programs under contract

A `Contract` says what a program may rely on and what it guarantees: `rely` is about the
answers to its calls, `guar` about the calls it makes, both asked with the ghost value of a
monitor.  `Honours` is about the program text alone: as long as its calls are answered as
`rely` says, the program makes only calls that `guar` allows, and returns only what
`done` allows.

`Reach.honours` puts programs with contracts together.  If every call that a thread
guarantees to make no others than, made where an invariant holds, is answered as the thread
relies on and keeps the invariant, then the invariant holds in every state reached, and
every thread goes on to honour its contract.
-/

namespace Calls

variable {C : Type → Type} {E γ α ι σ : Type}

/-- What a program relies on and guarantees. -/
structure Contract (C : Type → Type) (γ : Type) extends Monitor C γ where
  rely : γ → {β : Type} → C β → β → Prop
  guar : γ → {β : Type} → C β → Prop

/-- As long as its calls are answered as `rely` says, the program makes only calls that
`guar` allows, and returns only what `done` allows. -/
def Honours (k : Contract C γ) (done : γ → α → Prop) : γ → Prog C α → Prop
  | g, .ret value => done g value
  | g, .call c next =>
      k.guar g c ∧ ∀ answer, k.rely g c answer → Honours k done (k.next g c answer) (next answer)

section Honours

variable {k : Contract C γ} {done : γ → α → Prop} {g : γ}

/-- The second program begins where the first may have ended. -/
theorem Honours.bind {β : Type} {done' : γ → β → Prop} {p : Prog C β} {f : β → Prog C α}
    (hp : Honours k done' g p) (hf : ∀ g value, done' g value → Honours k done g (f value)) :
    Honours k done g (p >>= f) := by
  induction p generalizing g with
  | ret value => exact hf g value hp
  | call c next ih => exact ⟨hp.1, fun answer hanswer => ih answer (hp.2 answer hanswer)⟩

theorem Honours.mono {done' : γ → α → Prop} {prog : Prog C α} (h : Honours k done g prog)
    (hdone : ∀ g value, done g value → done' g value) : Honours k done' g prog := by
  induction prog generalizing g with
  | ret value => exact hdone g value h
  | call c next ih => exact ⟨h.1, fun answer hanswer => ih answer (h.2 answer hanswer)⟩

/-- The contract of a program whose calls are known to satisfy what two monitors ask. -/
def Contract.both {γ' : Type} (m : Monitor C γ) (safe : γ → {β : Type} → C β → Prop)
    (m' : Monitor C γ') (safe' : γ' → {β : Type} → C β → Prop) : Contract C (γ × γ') where
  start := (m.start, m'.start)
  next := fun g c answer => (m.next g.1 c answer, m'.next g.2 c answer)
  rely := fun _ _ _ _ => True
  guar := fun g _ c => safe g.1 c ∧ safe' g.2 c

theorem honours_both {γ' : Type} {m : Monitor C γ} {safe : γ → {β : Type} → C β → Prop}
    {m' : Monitor C γ'} {safe' : γ' → {β : Type} → C β → Prop} {done₁ : γ → Prop}
    {done₂ : γ' → Prop} {g' : γ'} {prog : Prog C α} (hprog : Obeys m safe done₁ g prog)
    (hprog' : Obeys m' safe' done₂ g' prog) :
    Honours (.both m safe m' safe') (fun _ _ => True) (g, g') prog := by
  induction prog generalizing g g' with
  | ret value => trivial
  | call c next ih =>
      exact ⟨⟨hprog.1, hprog'.1⟩, fun answer _ => ih answer (hprog.2 answer) (hprog'.2 answer)⟩

/-- The contract with more asked of the calls. -/
def Contract.also (k : Contract C γ) (P : {β : Type} → C β → Prop) : Contract C γ :=
  { k with guar := fun g _ c => k.guar g c ∧ P c }

/-- What every call of the program is known to satisfy it guarantees besides. -/
theorem Honours.also {γ' : Type} {m : Monitor C γ'} {safe : γ' → {β : Type} → C β → Prop}
    {done' : γ' → Prop} {g' : γ'} {P : {β : Type} → C β → Prop} {prog : Prog C α}
    (h : Honours k done g prog) (hobeys : Obeys m safe done' g' prog)
    (hP : ∀ g' {β : Type} (c : C β), safe g' c → P c) : Honours (k.also P) done g prog := by
  induction prog generalizing g g' with
  | ret value => exact h
  | call c next ih =>
      exact ⟨⟨h.1, hP g' c hobeys.1⟩, fun answer hanswer =>
        ih answer (h.2 answer hanswer) (hobeys.2 answer)⟩

end Honours

section Pools

variable [DecidableEq ι] {h : Handler C E σ} {k : ι → Contract C γ} {done : ι → γ → α → Prop}
  {allowed : Pool C γ α ι σ → ι → E → Prop} {first pool : Pool C γ α ι σ}
  {I : (ι → γ) → σ → Prop}

/-- The pools are at one point, whatever they remember. -/
structure Alongside {γ' : Type} (pool : Pool C γ α ι σ) (pool' : Pool C γ' α ι σ) : Prop where
  shared : pool'.shared = pool.shared
  prog : ∀ i, (pool'.thread i).prog = (pool.thread i).prog

/-- What is remembered makes no difference to a step. -/
theorem Alongside.step {γ' : Type} {pool : Pool C γ α ι σ} {pool' : Pool C γ' α ι σ}
    (halong : Alongside pool pool') (mon : ι → Monitor C γ) (mon' : ι → Monitor C γ') (i : ι)
    (e : E) : Alongside (pool.step h mon i e) (pool'.step h mon' i e) := by
  obtain ⟨hshared, hprogs⟩ := halong
  cases hprog : (pool.thread i).prog with
  | ret value =>
      rw [Pool.step_ret hprog, Pool.step_ret ((hprogs i).trans hprog)]
      exact ⟨hshared, hprogs⟩
  | call c next =>
      rw [Pool.step_call hprog, Pool.step_call ((hprogs i).trans hprog), hshared]
      refine ⟨rfl, fun j => ?_⟩
      by_cases hj : j = i
      · subst hj
        simp only [Function.update_self]
      · simp only [Function.update_of_ne hj]
        exact hprogs j

/-- What is remembered makes no difference to what is reached. -/
theorem Reach.watched {γ' : Type} {mon : ι → Monitor C γ} (mon' : ι → Monitor C γ')
    {prog : ι → Prog C α} {s : σ} {pool : Pool C γ α ι σ}
    (hreach : Reach h mon (fun _ _ _ => True) (Pool.start mon prog s) pool) :
    ∃ pool', Reach h mon' (fun _ _ _ => True) (Pool.start mon' prog s) pool' ∧
      Alongside pool pool' := by
  induction hreach with
  | refl => exact ⟨_, .refl, rfl, fun _ => rfl⟩
  | @step pool i e _ _ ih =>
      obtain ⟨pool', hreach', halong⟩ := ih
      exact ⟨_, hreach'.step (i := i) (e := e) trivial, halong.step mon mon' i e⟩

/-- Nor to where a schedule leads. -/
theorem Alongside.runSchedule {γ' : Type} {pool : Pool C γ α ι σ} {pool' : Pool C γ' α ι σ}
    (halong : Alongside pool pool') (mon : ι → Monitor C γ) (mon' : ι → Monitor C γ')
    (schedule : List (ι × E)) :
    Alongside (pool.runSchedule h mon schedule) (pool'.runSchedule h mon' schedule) := by
  induction schedule generalizing pool pool' with
  | nil => exact halong
  | cons entry rest ih => exact ih (halong.step mon mon' entry.1 entry.2)

/-- The ghost values of the threads. -/
def Pool.ghosts (pool : Pool C γ α ι σ) (i : ι) : γ := (pool.thread i).ghost

/-- Every thread honours its contract from where it stands. -/
def Pool.Honour (k : ι → Contract C γ) (done : ι → γ → α → Prop) (pool : Pool C γ α ι σ) : Prop :=
  ∀ i, Honours (k i) (done i) (pool.thread i).ghost (pool.thread i).prog

theorem Pool.ghosts_step {mon : ι → Monitor C γ} {i : ι} {β : Type} {c : C β}
    {next : β → Prog C α} (hprog : (pool.thread i).prog = .call c next) (e : E) :
    (pool.step h mon i e).ghosts = Function.update pool.ghosts i
      ((mon i).next (pool.thread i).ghost c (h.exec e c pool.shared).1) := by
  funext j
  rw [Pool.step_call hprog]
  by_cases hj : j = i
  · subst hj
    simp only [ghosts, Function.update_self]
  · simp only [ghosts, Function.update_of_ne hj]

omit [DecidableEq ι] in
/-- The thread makes only calls that it guarantees. -/
theorem Pool.Honour.guar (hhonour : pool.Honour k done) {i : ι} {β : Type} {c : C β}
    {next : β → Prog C α} (hprog : (pool.thread i).prog = .call c next) :
    (k i).guar (pool.thread i).ghost c := by
  have hi := hhonour i
  rw [hprog] at hi
  exact hi.1

/-- A step that is answered as the thread relies on. -/
theorem Pool.Honour.step (hhonour : pool.Honour k done) {i : ι} {β : Type} {c : C β}
    {next : β → Prog C α} (hprog : (pool.thread i).prog = .call c next) {e : E}
    (hrely : (k i).rely (pool.thread i).ghost c (h.exec e c pool.shared).1) :
    (pool.step h (fun i => (k i).toMonitor) i e).Honour k done := by
  have hi := hhonour i
  rw [hprog] at hi
  exact Pool.step_forall (P := fun j thread => Honours (k j) (done j) thread.ghost thread.prog)
    hprog hhonour (hi.2 _ hrely)

/-- The rule for programs under contract. -/
theorem Reach.honours
    (hkeep : ∀ ghosts s i e {β : Type} (c : C β), I ghosts s → (k i).guar (ghosts i) c →
      (k i).rely (ghosts i) c (h.exec e c s).1 ∧
        I (Function.update ghosts i ((k i).next (ghosts i) c (h.exec e c s).1)) (h.exec e c s).2)
    (hfirst : I first.ghosts first.shared) (hprogs : first.Honour k done)
    (hreach : Reach h (fun i => (k i).toMonitor) allowed first pool) :
    I pool.ghosts pool.shared ∧ pool.Honour k done := by
  apply hreach.invariant (I := fun pool => I pool.ghosts pool.shared ∧ pool.Honour k done)
  · exact ⟨hfirst, hprogs⟩
  · intro pool i e ⟨hI, hhonour⟩ _
    cases hprog : (pool.thread i).prog with
    | ret value =>
        rw [Pool.step_ret hprog]
        exact ⟨hI, hhonour⟩
    | call c next =>
        obtain ⟨hrely, hafter⟩ := hkeep pool.ghosts pool.shared i e c hI (hhonour.guar hprog)
        refine ⟨?_, hhonour.step hprog hrely⟩
        rw [Pool.ghosts_step hprog, Pool.step_call hprog]
        exact hafter

end Pools

end Calls
