import CloudSync.Lib.Program
import Mathlib.Logic.Function.Basic

/-!
# Interleaving programs call by call

A `Pool` is a family of programs over one shared state.  A step picks a thread
and an environment and makes that thread's next call; nothing else moves.  Any
number of threads may run, and nothing is assumed about who runs when.

Every thread carries a ghost value.  It is computed from the calls the thread
has made and the answers it got, by a `Monitor`; no call can see it.  A monitor
says where a thread stands ("has passed its check, has not written yet"), which
is what conditions on schedules and invariants of pools are written in.

`Reach allowed` collects the pools reached by steps that all satisfy `allowed`.
`Reach.invariant` is the invariant rule; `Obeys` is the part of an invariant
that is a property of the program texts alone.  `Reach.checks_stand` is the rule
for programs that check first and use later: what a thread has checked is so as
long as it may still make the calls the check is for, if the steps of all
threads keep it so.
-/

namespace Calls

/-- The bookkeeping of one thread: a value updated by each call and its answer. -/
structure Monitor (C : Type → Type) (γ : Type) where
  start : γ
  next : {β : Type} → γ → C β → β → γ

/-- Nothing is remembered. -/
def Monitor.silent (C : Type → Type) : Monitor C Unit where
  start := ()
  next := fun _ _ _ => ()

/-- A thread: what is left of its program, and its ghost value. -/
structure Thread (C : Type → Type) (γ α : Type) : Type 1 where
  ghost : γ
  prog : Prog C α

/-- Threads over a shared state. -/
structure Pool (C : Type → Type) (γ α ι σ : Type) : Type 1 where
  shared : σ
  thread : ι → Thread C γ α

variable {C : Type → Type} {E γ α ι σ : Type} [DecidableEq ι]

namespace Pool

/-- All threads at the beginning of their programs. -/
def start (mon : ι → Monitor C γ) (prog : ι → Prog C α) (s : σ) : Pool C γ α ι σ :=
  ⟨s, fun i => ⟨(mon i).start, prog i⟩⟩

/-- Thread `i` makes its next call in the environment `e`; a finished thread
does nothing. -/
def step (h : Handler C E σ) (mon : ι → Monitor C γ) (pool : Pool C γ α ι σ) (i : ι) (e : E) :
    Pool C γ α ι σ :=
  match (pool.thread i).prog with
  | .ret _ => pool
  | .call c next =>
      let out := h.exec e c pool.shared
      ⟨out.2, Function.update pool.thread i
        ⟨(mon i).next (pool.thread i).ghost c out.1, next out.1⟩⟩

/-- Run a schedule: who steps, and in which environment. -/
def runSchedule (h : Handler C E σ) (mon : ι → Monitor C γ) :
    Pool C γ α ι σ → List (ι × E) → Pool C γ α ι σ
  | pool, [] => pool
  | pool, (i, e) :: rest => runSchedule h mon (pool.step h mon i e) rest

/-- A thread has returned. -/
def Finished (pool : Pool C γ α ι σ) (i : ι) : Prop :=
  match (pool.thread i).prog with
  | .ret _ => True
  | .call _ _ => False

instance (pool : Pool C γ α ι σ) (i : ι) : Decidable (pool.Finished i) := by
  unfold Finished
  cases (pool.thread i).prog with
  | ret value => exact isTrue trivial
  | call c next => exact isFalse id

variable {h : Handler C E σ} {mon : ι → Monitor C γ}

theorem step_ret {pool : Pool C γ α ι σ} {i : ι} {value : α}
    (hprog : (pool.thread i).prog = .ret value) (e : E) : pool.step h mon i e = pool := by
  simp only [step, hprog]

theorem step_call {β : Type} {pool : Pool C γ α ι σ} {i : ι} {c : C β} {next : β → Prog C α}
    (hprog : (pool.thread i).prog = .call c next) (e : E) :
    pool.step h mon i e =
      ⟨(h.exec e c pool.shared).2, Function.update pool.thread i
        ⟨(mon i).next (pool.thread i).ghost c (h.exec e c pool.shared).1,
          next (h.exec e c pool.shared).1⟩⟩ := by
  simp only [step, hprog]

/-- A step leaves every other thread as it was. -/
theorem step_thread_of_ne (pool : Pool C γ α ι σ) {i j : ι} (hne : j ≠ i) (e : E) :
    (pool.step h mon i e).thread j = pool.thread j := by
  unfold step
  cases (pool.thread i).prog with
  | ret value => rfl
  | call c next => exact Function.update_of_ne hne _ _

/-- What holds of every thread still holds if it holds of the one that has moved. -/
theorem step_forall {P : ι → Thread C γ α → Prop} {pool : Pool C γ α ι σ} {i : ι} {β : Type}
    {c : C β} {next : β → Prog C α} {e : E} (hprog : (pool.thread i).prog = .call c next)
    (hall : ∀ j, P j (pool.thread j))
    (hself : P i ⟨(mon i).next (pool.thread i).ghost c (h.exec e c pool.shared).1,
      next (h.exec e c pool.shared).1⟩) (j : ι) : P j ((pool.step h mon i e).thread j) := by
  by_cases hj : j = i
  · subst hj
    rw [step_call hprog]
    simpa only [Function.update_self] using hself
  · rw [step_thread_of_ne pool hj]
    exact hall j

end Pool

/-- The pools reached from `first` by steps that satisfy `allowed`. -/
inductive Reach (h : Handler C E σ) (mon : ι → Monitor C γ)
    (allowed : Pool C γ α ι σ → ι → E → Prop) (first : Pool C γ α ι σ) :
    Pool C γ α ι σ → Prop
  | refl : Reach h mon allowed first first
  | step {pool : Pool C γ α ι σ} {i : ι} {e : E} (hreach : Reach h mon allowed first pool)
      (hallowed : allowed pool i e) : Reach h mon allowed first (pool.step h mon i e)

variable {h : Handler C E σ} {mon : ι → Monitor C γ}
  {allowed : Pool C γ α ι σ → ι → E → Prop} {first pool : Pool C γ α ι σ}

/-- The invariant rule. -/
theorem Reach.invariant {I : Pool C γ α ι σ → Prop} (hfirst : I first)
    (hstep : ∀ pool i e, I pool → allowed pool i e → I (pool.step h mon i e))
    (hreach : Reach h mon allowed first pool) : I pool := by
  induction hreach with
  | refl => exact hfirst
  | step _ hallowed ih => exact hstep _ _ _ ih hallowed

/-- The pools reached from `first` by allowed steps, with a history into which
`enter` enters every step; what is allowed may depend on the history. -/
inductive ReachWith {δ : Type} (h : Handler C E σ) (mon : ι → Monitor C γ)
    (enter : Pool C γ α ι σ → ι → E → δ → δ) (allowed : Pool C γ α ι σ → δ → ι → E → Prop)
    (first : Pool C γ α ι σ) (start : δ) : Pool C γ α ι σ → δ → Prop
  | refl : ReachWith h mon enter allowed first start first start
  | step {pool : Pool C γ α ι σ} {d : δ} {i : ι} {e : E}
      (hreach : ReachWith h mon enter allowed first start pool d) (hallowed : allowed pool d i e) :
      ReachWith h mon enter allowed first start (pool.step h mon i e) (enter pool i e d)

/-- The invariant rule with a history. -/
theorem ReachWith.invariant {δ : Type} {enter : Pool C γ α ι σ → ι → E → δ → δ}
    {allowed : Pool C γ α ι σ → δ → ι → E → Prop} {start d : δ} {I : Pool C γ α ι σ → δ → Prop}
    (hfirst : I first start)
    (hstep : ∀ pool d i e, I pool d → allowed pool d i e →
      I (pool.step h mon i e) (enter pool i e d))
    (hreach : ReachWith h mon enter allowed first start pool d) : I pool d := by
  induction hreach with
  | refl => exact hfirst
  | step _ hallowed ih => exact hstep _ _ _ _ ih hallowed

/-- Every step of a schedule is allowed. -/
def Admissible {δ : Type} (h : Handler C E σ) (mon : ι → Monitor C γ)
    (enter : Pool C γ α ι σ → ι → E → δ → δ) (allowed : Pool C γ α ι σ → δ → ι → E → Prop) :
    Pool C γ α ι σ → δ → List (ι × E) → Prop
  | _, _, [] => True
  | pool, d, (i, e) :: rest =>
      allowed pool d i e ∧
        Admissible h mon enter allowed (pool.step h mon i e) (enter pool i e d) rest

instance {δ : Type} (h : Handler C E σ) (mon : ι → Monitor C γ)
    (enter : Pool C γ α ι σ → ι → E → δ → δ) (allowed : Pool C γ α ι σ → δ → ι → E → Prop)
    [hallowed : ∀ pool d i e, Decidable (allowed pool d i e)] (pool : Pool C γ α ι σ) (d : δ) :
    ∀ schedule, Decidable (Admissible h mon enter allowed pool d schedule)
  | [] => isTrue trivial
  | (i, e) :: rest =>
      @instDecidableAnd _ _ (hallowed pool d i e)
        (instDecidableAdmissible h mon enter allowed (pool.step h mon i e) (enter pool i e d) rest)

/-- What is asked of the environments alone. -/
theorem admissible_of_forall {δ : Type} {enter : Pool C γ α ι σ → ι → E → δ → δ} {ok : E → Prop}
    {d : δ} {schedule : List (ι × E)} (hok : ∀ entry ∈ schedule, ok entry.2) :
    Admissible h mon enter (fun _ _ _ e => ok e) pool d schedule := by
  induction schedule generalizing pool d with
  | nil => trivial
  | cons entry rest ih =>
      obtain ⟨hentry, hrest⟩ := List.forall_mem_cons.mp hok
      exact ⟨hentry, ih hrest⟩

theorem Admissible.mono {δ : Type} {enter : Pool C γ α ι σ → ι → E → δ → δ}
    {allowed allowed' : Pool C γ α ι σ → δ → ι → E → Prop}
    (himp : ∀ pool d i e, allowed pool d i e → allowed' pool d i e) {d : δ}
    {schedule : List (ι × E)} (hadmissible : Admissible h mon enter allowed pool d schedule) :
    Admissible h mon enter allowed' pool d schedule := by
  induction schedule generalizing pool d with
  | nil => trivial
  | cons entry rest ih => exact ⟨himp _ _ _ _ hadmissible.1, ih hadmissible.2⟩

theorem Admissible.and {δ : Type} {enter : Pool C γ α ι σ → ι → E → δ → δ}
    {allowed allowed' : Pool C γ α ι σ → δ → ι → E → Prop} {d : δ} {schedule : List (ι × E)}
    (hadmissible : Admissible h mon enter allowed pool d schedule)
    (hadmissible' : Admissible h mon enter allowed' pool d schedule) :
    Admissible h mon enter (fun pool d i e => allowed pool d i e ∧ allowed' pool d i e) pool d
      schedule := by
  induction schedule generalizing pool d with
  | nil => trivial
  | cons entry rest ih =>
      exact ⟨⟨hadmissible.1, hadmissible'.1⟩, ih hadmissible.2 hadmissible'.2⟩

/-- The history a schedule leaves behind. -/
def Pool.history {δ : Type} (h : Handler C E σ) (mon : ι → Monitor C γ)
    (enter : Pool C γ α ι σ → ι → E → δ → δ) : Pool C γ α ι σ → δ → List (ι × E) → δ
  | _, d, [] => d
  | pool, d, (i, e) :: rest => Pool.history h mon enter (pool.step h mon i e) (enter pool i e d) rest

/-- Where an admissible schedule leads is reached, with the history of the schedule. -/
theorem ReachWith.run_history {δ : Type} {enter : Pool C γ α ι σ → ι → E → δ → δ}
    {allowed : Pool C γ α ι σ → δ → ι → E → Prop} {start d : δ} {schedule : List (ι × E)}
    (hreach : ReachWith h mon enter allowed first start pool d)
    (hadmissible : Admissible h mon enter allowed pool d schedule) :
    ReachWith h mon enter allowed first start (pool.runSchedule h mon schedule)
      (pool.history h mon enter d schedule) := by
  induction schedule generalizing pool d with
  | nil => exact hreach
  | cons entry rest ih => exact ih (hreach.step hadmissible.1) hadmissible.2

/-- Where an admissible schedule leads is reached. -/
theorem ReachWith.run {δ : Type} {enter : Pool C γ α ι σ → ι → E → δ → δ}
    {allowed : Pool C γ α ι σ → δ → ι → E → Prop} {start d : δ} {schedule : List (ι × E)}
    (hreach : ReachWith h mon enter allowed first start pool d)
    (hadmissible : Admissible h mon enter allowed pool d schedule) :
    ∃ d', ReachWith h mon enter allowed first start (pool.runSchedule h mon schedule) d' :=
  ⟨_, hreach.run_history hadmissible⟩

/-- Where a schedule leads is reached if its steps are allowed, whatever history is kept. -/
theorem Reach.run_admissible {δ : Type} {enter : Pool C γ α ι σ → ι → E → δ → δ} {d : δ}
    {schedule : List (ι × E)} (hreach : Reach h mon allowed first pool)
    (hadmissible : Admissible h mon enter (fun pool _ => allowed pool) pool d schedule) :
    Reach h mon allowed first (pool.runSchedule h mon schedule) := by
  induction schedule generalizing pool d with
  | nil => exact hreach
  | cons entry rest ih => exact ih (hreach.step hadmissible.1) hadmissible.2

/-- Where a schedule leads is reached, by steps in environments of the schedule. -/
theorem Reach.run_schedule {ok : E → Prop} (hreach : Reach h mon (fun _ _ e => ok e) first pool)
    {schedule : List (ι × E)} (hok : ∀ entry ∈ schedule, ok entry.2) :
    Reach h mon (fun _ _ e => ok e) first (pool.runSchedule h mon schedule) := by
  induction schedule generalizing pool with
  | nil => exact hreach
  | cons entry rest ih =>
      exact ih (hreach.step (hok entry List.mem_cons_self)) fun later hlater =>
        hok later (List.mem_cons_of_mem _ hlater)

/-! ## Properties of the program texts -/

namespace Prog

/-- The program's next call satisfies `P`. -/
def AtCall (P : {β : Type} → C β → Prop) : Prog C α → Prop
  | .ret _ => False
  | .call c _ => P c

/-- Some answers to the calls before it lead the program to a call that
satisfies `P`. -/
def MayCall (P : {β : Type} → C β → Prop) : Prog C α → Prop
  | .ret _ => False
  | .call c next => P c ∨ ∃ answer, MayCall P (next answer)

/-- Some answers to its calls lead the program to return the value. -/
def MayReturn (value : α) : Prog C α → Prop
  | .ret v => v = value
  | .call _ next => ∃ answer, MayReturn value (next answer)

/-- Whatever its calls answer, the program returns a value that satisfies `R`. -/
def Returns (R : α → Prop) (prog : Prog C α) : Prop := ∀ value, prog.MayReturn value → R value

section Returns

variable {R : α → Prop} {δ : Type}

theorem returns_ret {value : α} (h : R value) : Returns R (.ret value : Prog C α) := by
  rintro _ rfl
  exact h

theorem returns_call {β : Type} {c : C β} {next : β → Prog C α}
    (h : ∀ answer, Returns R (next answer)) : Returns R (.call c next) := by
  rintro value ⟨answer, hvalue⟩
  exact h answer value hvalue

theorem returns_bind {p : Prog C δ} {f : δ → Prog C α} (h : ∀ value, Returns R (f value)) :
    Returns R (p >>= f) := by
  induction p with
  | ret value => exact h value
  | call c next ih => exact returns_call ih

theorem returns_ite {p : Prop} [Decidable p] {f g : Prog C α} (hf : Returns R f)
    (hg : Returns R g) : Returns R (if p then f else g) := by
  split
  · exact hf
  · exact hg

/-- What a program returns whatever its calls answer, it returns. -/
theorem Returns.wp {h : Handler C E σ} {ok : E → Prop} {prog : Prog C α} (hreturns : Returns R prog)
    (s : σ) : Prog.wp h ok prog (fun value _ => R value) s := by
  induction prog generalizing s with
  | ret value => exact hreturns value rfl
  | call c next ih => exact fun e _ => ih _ (fun value hvalue => hreturns value ⟨_, hvalue⟩) _

end Returns

variable {P : {β : Type} → C β → Prop}

instance (P : {β : Type} → C β → Prop) [∀ (β : Type) (c : C β), Decidable (P c)]
    (prog : Prog C α) : Decidable (prog.AtCall P) :=
  match prog with
  | .ret _ => isFalse id
  | .call c _ => inferInstanceAs (Decidable (P c))

theorem AtCall.mono {Q : {β : Type} → C β → Prop} (hPQ : ∀ {β : Type} (c : C β), P c → Q c)
    {prog : Prog C α} (h : prog.AtCall P) : prog.AtCall Q := by
  cases prog with
  | ret value => exact h
  | call c next => exact hPQ c h

theorem mayCall_of_next {β : Type} {c : C β} {next : β → Prog C α} {answer : β}
    (hnext : MayCall P (next answer)) : MayCall P (.call c next : Prog C α) :=
  Or.inr ⟨answer, hnext⟩

end Prog

/-- Whatever its calls answer, the program makes a call only where `safe` allows
it and returns only where `done` does, both being asked with the ghost value the
monitor has computed so far. -/
def Obeys (m : Monitor C γ) (safe : γ → {β : Type} → C β → Prop) (done : γ → Prop) :
    γ → Prog C α → Prop
  | g, .ret _ => done g
  | g, .call c next => safe g c ∧ ∀ answer, Obeys m safe done (m.next g c answer) (next answer)

section Obeys

variable {m : Monitor C γ} {safe : γ → {β : Type} → C β → Prop} {done : γ → Prop} {g : γ}

/-- The second program begins with a ghost value the first may have ended with. -/
theorem Obeys.bind {β : Type} {done' : γ → Prop} {p : Prog C β} {f : β → Prog C α}
    (hp : Obeys m safe done g p)
    (hf : ∀ g value, done g → Obeys m safe done' g (f value)) : Obeys m safe done' g (p >>= f) := by
  induction p generalizing g with
  | ret value => exact hf g value hp
  | call c next ih => exact ⟨hp.1, fun answer => ih answer (hp.2 answer)⟩

theorem obeys_ite {p : Prop} [Decidable p] {yes no : Prog C α} (hyes : Obeys m safe done g yes)
    (hno : Obeys m safe done g no) : Obeys m safe done g (if p then yes else no) := by
  split
  · exact hyes
  · exact hno

/-- What is asked of every call alone can be asked under any monitor. -/
theorem Obeys.of_forall {γ' : Type} {m' : Monitor C γ'} {safe' : γ' → {β : Type} → C β → Prop}
    {done' : γ' → Prop} {g' : γ'} {prog : Prog C α} (hobeys : Obeys m' safe' done' g' prog)
    (hsafe : ∀ g' {β : Type} (c : C β), safe' g' c → ∀ g, safe g c) (hdone : ∀ g, done g) :
    Obeys m safe done g prog := by
  induction prog generalizing g g' with
  | ret value => exact hdone g
  | call c next ih => exact ⟨hsafe _ c hobeys.1 g, fun answer => ih answer (hobeys.2 answer)⟩

theorem Obeys.and {safe' : γ → {β : Type} → C β → Prop} {done' : γ → Prop} {prog : Prog C α}
    (hobeys : Obeys m safe done g prog) (hobeys' : Obeys m safe' done' g prog) :
    Obeys m (fun g {_} c => safe g c ∧ safe' g c) done g prog := by
  induction prog generalizing g with
  | ret value => exact hobeys
  | call c next ih =>
      exact ⟨⟨hobeys.1, hobeys'.1⟩, fun answer => ih answer (hobeys.2 answer) (hobeys'.2 answer)⟩

/-- A program run alone keeps what every safe call keeps. -/
theorem Obeys.run {I : γ → σ → Prop} {env : ℕ → E}
    (hstep : ∀ g s i {β : Type} (c : C β), I g s → safe g c →
      I (m.next g c (h.exec (env i) c s).1) (h.exec (env i) c s).2)
    {prog : Prog C α} (hobeys : Obeys m safe done g prog) {s : σ} (hI : I g s) :
    ∃ g', I g' (prog.run h env s).2 := by
  induction prog generalizing env g s with
  | ret value => exact ⟨g, hI⟩
  | call c next ih =>
      rw [Prog.run_call]
      exact ih _ (fun g s i => hstep g s (i + 1)) (hobeys.2 _) (hstep g s 0 c hI hobeys.1)

end Obeys

/-- A call the program may make is a safe one. -/
theorem Obeys.of_mayCall {m : Monitor C γ} {safe : γ → {β : Type} → C β → Prop} {done : γ → Prop}
    {g : γ} {P : {β : Type} → C β → Prop} {prog : Prog C α} (hobeys : Obeys m safe done g prog)
    (hcall : prog.MayCall P) : ∃ (g' : γ) (β : Type) (c : C β), safe g' c ∧ P c := by
  induction prog generalizing g with
  | ret value => exact hcall.elim
  | @call β c next ih =>
      rcases hcall with hP | ⟨answer, hcall⟩
      · exact ⟨g, β, c, hobeys.1, hP⟩
      · exact ih answer (hobeys.2 answer) hcall

variable {safe : ι → γ → {β : Type} → C β → Prop} {done : γ → Prop}

theorem Obeys.step (hobeys : ∀ i, Obeys (mon i) (safe i) done (pool.thread i).ghost
    (pool.thread i).prog) (i : ι) (e : E) (j : ι) :
    Obeys (mon j) (safe j) done ((pool.step h mon i e).thread j).ghost
      ((pool.step h mon i e).thread j).prog := by
  cases hprog : (pool.thread i).prog with
  | ret value =>
      rw [Pool.step_ret hprog]
      exact hobeys j
  | call c next =>
      have hi := hobeys i
      rw [hprog] at hi
      exact Pool.step_forall (P := fun j thread => Obeys (mon j) (safe j) done thread.ghost
        thread.prog) hprog hobeys (hi.2 _) j

/-! ## Programs that are watched -/

/-- Wherever the program stands in a run alone, its ghost value and the state are
related by `I`. -/
def Always (h : Handler C E σ) (ok : E → Prop) (m : Monitor C γ) (I : γ → σ → Prop) :
    γ → Prog C α → σ → Prop
  | g, .ret _, s => I g s
  | g, .call c next, s => I g s ∧ ∀ e, ok e →
      Always h ok m I (m.next g c (h.exec e c s).1) (next (h.exec e c s).1) (h.exec e c s).2

section Always

variable {ok : E → Prop} {m : Monitor C γ} {I : γ → σ → Prop} {g : γ} {s : σ}

theorem Always.now {prog : Prog C α} (h₀ : Always h ok m I g prog s) : I g s := by
  cases prog with
  | ret value => exact h₀
  | call c next => exact h₀.1

theorem always_bind {β : Type} {prog : Prog C α} {f : α → Prog C β}
    (h₀ : Always h ok m I g prog s)
    (hf : ∀ value g s, I g s → Always h ok m I g (f value) s) :
    Always h ok m I g (prog >>= f) s := by
  induction prog generalizing g s with
  | ret value => exact hf value g s h₀
  | call c next ih => exact ⟨h₀.1, fun e he => ih _ (h₀.2 e he)⟩

end Always

/-! ## Check, then use -/

/-- The thread has passed its check and may still make a call the check is for. -/
def Pool.Pending (flag : γ → Prop) (use : {β : Type} → C β → Prop) (pool : Pool C γ α ι σ)
    (i : ι) : Prop :=
  flag (pool.thread i).ghost ∧ (pool.thread i).prog.MayCall use

section Checks

variable {flag : ι → γ → Prop} {use : ι → {β : Type} → C β → Prop} {Φ : ι → σ → Prop}
  {J : Pool C γ α ι σ → Prop}

/-- What a pending thread has checked is so in every state reached, if it is so
where the check passes and every call of any thread keeps it so. -/
theorem Reach.checks_stand (hJ : ∀ pool, Reach h mon allowed first pool → J pool)
    (hfirst : ∀ i, first.Pending (flag i) (use i) i → Φ i first.shared)
    (hkeep : ∀ (pool : Pool C γ α ι σ) i e {β : Type} (c : C β) (next : β → Prog C α) j,
      J pool → allowed pool i e → (pool.thread i).prog = .call c next →
      pool.Pending (flag j) (use j) j → Φ j pool.shared → Φ j (h.exec e c pool.shared).2)
    (hpass : ∀ (pool : Pool C γ α ι σ) i e {β : Type} (c : C β) (next : β → Prog C α),
      J pool → allowed pool i e → (pool.thread i).prog = .call c next →
      ¬ flag i (pool.thread i).ghost → (pool.step h mon i e).Pending (flag i) (use i) i →
      Φ i (h.exec e c pool.shared).2)
    (hreach : Reach h mon allowed first pool) :
    ∀ i, pool.Pending (flag i) (use i) i → Φ i pool.shared := by
  induction hreach with
  | refl => exact hfirst
  | @step pool i e hreach hallowed ih =>
      intro j hpending
      cases hprog : (pool.thread i).prog with
      | ret value =>
          rw [Pool.step_ret hprog] at hpending ⊢
          exact ih j hpending
      | call c next =>
          have hshared : (pool.step h mon i e).shared = (h.exec e c pool.shared).2 := by
            rw [Pool.step_call hprog]
          rw [hshared]
          by_cases hji : j = i
          · subst hji
            by_cases hflag : flag j (pool.thread j).ghost
            · have hmay := hpending.2
              rw [Pool.step_call hprog] at hmay
              simp only [Function.update_self] at hmay
              have hbefore : pool.Pending (flag j) (use j) j := by
                refine ⟨hflag, ?_⟩
                rw [hprog]
                exact Prog.mayCall_of_next hmay
              exact hkeep pool j e c next j (hJ pool hreach) hallowed hprog hbefore (ih j hbefore)
            · exact hpass pool j e c next (hJ pool hreach) hallowed hprog hflag hpending
          · have hbefore : pool.Pending (flag j) (use j) j := by
              unfold Pool.Pending at hpending
              rwa [Pool.step_thread_of_ne pool hji] at hpending
            exact hkeep pool i e c next j (hJ pool hreach) hallowed hprog hbefore (ih j hbefore)

end Checks

end Calls
