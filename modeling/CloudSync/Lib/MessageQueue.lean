import Mathlib.Data.List.Basic
import Mathlib.Data.List.Count
import Mathlib.Algebra.BigOperators.Group.Finset.Basic
import Mathlib.Algebra.Order.BigOperators.Group.Finset

/-!
# Message queues and the parties around them

`msgsnd` and `msgrcv` are the System V calls on a queue that holds a bounded
number of messages: a message has a type, it is sent to the end of the queue, and
the first message of a given type is received.  A call that would block answers
`none`.

Parties that block on queues are a system of guarded actions, and `Reached` are
the states of its runs.  What is conserved in such a system is a number of items:
`total` counts those the parties hold, `List.countP` those in a queue.
-/

namespace MessageQueue

variable {α : Type*}

/-! ## The queue -/

/-- A message and its type. -/
structure Message (α : Type*) where
  mtype : ℤ
  body : α

/-- Send to a queue of the given capacity. -/
def msgsnd (capacity : ℕ) (queue : List (Message α)) (m : Message α) : Option (List (Message α)) :=
  if queue.length < capacity then some (queue ++ [m]) else none

/-- Receive the first message of the type, which is positive. -/
def msgrcv (mtype : ℤ) : List (Message α) → Option (Message α × List (Message α))
  | [] => none
  | m :: rest =>
      if m.mtype = mtype then some (m, rest)
      else (msgrcv mtype rest).map fun out => (out.1, m :: out.2)

variable {capacity : ℕ} {queue queue' : List (Message α)} {m : Message α} {mtype : ℤ}

theorem msgsnd_eq_some :
    msgsnd capacity queue m = some queue' ↔ queue.length < capacity ∧ queue ++ [m] = queue' := by
  unfold msgsnd
  split
  · rename_i hroom
    exact ⟨fun h => ⟨hroom, Option.some.inj h⟩, fun h => congrArg some h.2⟩
  · rename_i hfull
    exact ⟨fun h => (Option.some_ne_none _ h.symm).elim, fun h => absurd h.1 hfull⟩

/-- What is received is the first of its type, and the others keep their order. -/
theorem msgrcv_spec (h : msgrcv mtype queue = some (m, queue')) :
    m.mtype = mtype ∧ ∃ before after, queue = before ++ m :: after ∧ queue' = before ++ after ∧
      ∀ x ∈ before, x.mtype ≠ mtype := by
  induction queue generalizing queue' with
  | nil => exact (Option.some_ne_none _ h.symm).elim
  | cons x rest ih =>
      unfold msgrcv at h
      split at h
      · rename_i hx
        obtain ⟨rfl, rfl⟩ := Prod.mk.inj (Option.some.inj h)
        exact ⟨hx, [], rest, rfl, rfl, fun y hy => absurd hy List.not_mem_nil⟩
      · rename_i hx
        obtain ⟨⟨got, left⟩, hrest, hout⟩ := Option.map_eq_some_iff.mp h
        obtain ⟨rfl, rfl⟩ := Prod.mk.inj hout
        obtain ⟨htype, before, after, rfl, rfl, hbefore⟩ := ih hrest
        refine ⟨htype, x :: before, after, rfl, rfl, fun y hy => ?_⟩
        rcases List.mem_cons.mp hy with rfl | hy
        · exact hx
        · exact hbefore y hy

/-- What is received, and what is left, was in the queue. -/
theorem mem_of_msgrcv (h : msgrcv mtype queue = some (m, queue')) :
    m ∈ queue ∧ ∀ x ∈ queue', x ∈ queue := by
  obtain ⟨-, before, after, rfl, rfl, -⟩ := msgrcv_spec h
  constructor
  · exact List.mem_append_right _ List.mem_cons_self
  · intro x hx
    rcases List.mem_append.mp hx with hx | hx
    · exact List.mem_append_left _ hx
    · exact List.mem_append_right _ (List.mem_cons_of_mem _ hx)

/-- A receive takes one message out. -/
theorem countP_msgrcv (h : msgrcv mtype queue = some (m, queue')) (p : Message α → Bool) :
    queue.countP p = queue'.countP p + if p m then 1 else 0 := by
  obtain ⟨-, before, after, rfl, rfl, -⟩ := msgrcv_spec h
  rw [List.countP_append, List.countP_append, List.countP_cons]
  omega

theorem length_msgrcv (h : msgrcv mtype queue = some (m, queue')) :
    queue.length = queue'.length + 1 := by
  obtain ⟨-, before, after, rfl, rfl, -⟩ := msgrcv_spec h
  rw [List.length_append, List.length_append, List.length_cons]
  omega

/-- A receive goes through when there is a message of the type. -/
theorem exists_msgrcv (hm : m ∈ queue) (htype : m.mtype = mtype) :
    ∃ out, msgrcv mtype queue = some out := by
  induction queue with
  | nil => exact absurd hm List.not_mem_nil
  | cons x rest ih =>
      unfold msgrcv
      split
      · exact ⟨_, rfl⟩
      · rename_i hx
        have hrest : m ∈ rest := by
          rcases List.mem_cons.mp hm with rfl | hrest
          · exact absurd htype hx
          · exact hrest
        obtain ⟨out, hout⟩ := ih hrest
        exact ⟨_, by rw [hout, Option.map_some]⟩

/-! ## The parties -/

section Total

variable {ι : Type*} [Fintype ι] [DecidableEq ι]

/-- How much all parties hold together. -/
def total (weight : α → ℕ) (party : ι → α) : ℕ := ∑ i, weight (party i)

/-- When one party moves, the rest of the total stands. -/
theorem total_update (weight : α → ℕ) (party : ι → α) (i : ι) (a : α) :
    total weight (Function.update party i a) + weight (party i) =
      total weight party + weight a := by
  have hrest : ∑ j ∈ Finset.univ.erase i, weight (Function.update party i a j) =
      ∑ j ∈ Finset.univ.erase i, weight (party j) := by
    apply Finset.sum_congr rfl
    intro j hj
    rw [Function.update_of_ne (Finset.ne_of_mem_erase hj)]
  have hafter := Finset.sum_erase_add Finset.univ (fun j => weight (Function.update party i a j))
    (Finset.mem_univ i)
  have hbefore := Finset.sum_erase_add Finset.univ (fun j => weight (party j)) (Finset.mem_univ i)
  simp only [Function.update_self] at hafter
  unfold total
  omega

omit [DecidableEq ι] in
theorem le_total (weight : α → ℕ) (party : ι → α) (i : ι) :
    weight (party i) ≤ total weight party := by
  show weight (party i) ≤ ∑ j, weight (party j)
  exact Finset.single_le_sum (fun j _ => Nat.zero_le (weight (party j))) (Finset.mem_univ i)

omit [DecidableEq ι] in
theorem total_mono {weight weight' : α → ℕ} (h : ∀ a, weight a ≤ weight' a) (party : ι → α) :
    total weight party ≤ total weight' party :=
  Finset.sum_le_sum fun i _ => h (party i)

omit [DecidableEq ι] in
theorem total_eq_zero {weight : α → ℕ} {party : ι → α} :
    total weight party = 0 ↔ ∀ i, weight (party i) = 0 := by
  unfold total
  rw [Finset.sum_eq_zero_iff]
  exact ⟨fun h i => h i (Finset.mem_univ i), fun h i _ => h i⟩

end Total

/-! ## Runs -/

variable {A σ : Type*}

/-- The states reached from `first` by actions that are possible, each of them
leading to a state `within` bounds. -/
inductive Reached {A : Type*} {σ : Type*} (step : A → σ → Option σ) (within : σ → Prop)
    (first : σ) : σ → Prop
  | first : Reached step within first first
  | step {s s' : σ} (hreach : Reached step within first s) (action : A)
      (hstep : step action s = some s') (hwithin : within s') : Reached step within first s'

variable {step : A → σ → Option σ} {within : σ → Prop} {first s : σ}

/-- The invariant rule. -/
theorem Reached.invariant {I : σ → Prop} (hfirst : I first)
    (hstep : ∀ action s s', I s → step action s = some s' → within s' → I s')
    (hreach : Reached step within first s) : I s := by
  induction hreach with
  | first => exact hfirst
  | step _ action h hwithin ih => exact hstep action _ _ ih h hwithin

end MessageQueue
